/-
  The sealed block, as it appears in a record's body (`yaam-crypto`,
  `block.rs`, with the epoch and body types of `seal.rs`).

  * `Epoch` is a key quarter's label; `Epoch.containing` labels an instant;
  * `hexEncode` and `hexDecode` are the lowercase hex of the block's fields;
  * `render` writes a block and `parse` reads one: `parse_render` says that a
    block with at least one share and a plain label is read back with its shares
    sorted.
-/
import Yaam.Contract.Record
import Yaam.Lib.Utf8

namespace Yaam.Crypto

open Text Contract

/-- Cryptographic and key-management failures. -/
inductive Error where
  | authentication
  | keyAbsent (subject epoch : Text)
  | tombstoned (subject : Text)
  | shareCount (expected got : ℕ)
  | malformedBlock (detail : String)
  | io (detail : String)

def Error.display : Error → String
  | .authentication => "authentication failed while unsealing"
  | .keyAbsent subject epoch =>
    s!"no key for subject `{String.ofList subject}` in epoch `{String.ofList epoch}`"
  | .tombstoned subject =>
    s!"subject `{String.ofList subject}` is tombstoned; minting a key would un-erase it"
  | .shareCount expected got => s!"expected {expected} shares, got {got}"
  | .malformedBlock detail => s!"malformed sealed block: {detail}"
  | .io detail => s!"key store io: {detail}"

/-! ## Epochs -/

/-- Whether a text holds two dots in a row. -/
def hasDotDot : Text → Bool
  | '.' :: '.' :: _ => true
  | _ :: t => hasDotDot t
  | [] => false

/-- What `Epoch::from_stored` accepts. -/
def isEpochLabel (t : Text) : Bool := t != [] && '/' ∉ t && '\\' ∉ t && !hasDotDot t

/-- The label of a key quarter. -/
structure Epoch where
  text : Text
  label : isEpochLabel text = true
deriving DecidableEq

def Epoch.fromStored (t : Text) : Except Error Epoch :=
  if h : isEpochLabel t = true then .ok ⟨t, h⟩
  else .error (.malformedBlock s!"bad epoch label `{String.ofList t}`")

/-- The characters of a quarter's label. -/
def labelChar (c : Char) : Bool := c.isDigit || c == '-' || c == 'Q'

/-- The label of the quarter a year and month fall in. -/
def quarterLabel (year quarter : ℤ) : Text :=
  padInt 4 year ++ '-' :: 'Q' :: padInt 0 quarter

theorem hasDotDot_of_notMem {t : Text} (h : '.' ∉ t) : hasDotDot t = false := by
  induction t with
  | nil => rfl
  | cons c t ih =>
    simp only [List.mem_cons, not_or] at h
    rw [hasDotDot.eq_def]
    split
    · rename_i heq
      exact absurd (List.cons.inj heq).1.symm h.1
    · rename_i heq
      rw [← (List.cons.inj heq).2]
      exact ih h.2
    · rfl

theorem mem_quarterLabel {year quarter : ℤ} {c : Char} (h : c ∈ quarterLabel year quarter) :
    labelChar c = true := by
  simp only [quarterLabel, List.mem_append, List.mem_cons] at h
  simp only [labelChar, Bool.or_eq_true, beq_iff_eq]
  rcases h with h | h | h | h
  · have := mem_padInt h; tauto
  · tauto
  · tauto
  · have := mem_padInt h; tauto

theorem isEpochLabel_quarterLabel (year quarter : ℤ) :
    isEpochLabel (quarterLabel year quarter) = true := by
  have hc : ∀ c ∈ quarterLabel year quarter, c ≠ '/' ∧ c ≠ '\\' ∧ c ≠ '.' := by
    intro c h
    have := mem_quarterLabel h
    refine ⟨?_, ?_, ?_⟩ <;> rintro rfl <;> exact absurd this (by decide)
  simp only [isEpochLabel, Bool.and_eq_true, bne_iff_ne, ne_eq, decide_eq_true_eq,
    Bool.not_eq_true']
  refine ⟨⟨⟨?_, fun h => (hc _ h).1 rfl⟩, fun h => (hc _ h).2.1 rfl⟩,
    hasDotDot_of_notMem fun h => (hc _ h).2.2 rfl⟩
  simp [quarterLabel]

/-- The year and month of an instant. -/
def civilFromMillis (ms : ℤ) : ℤ × ℤ :=
  let z := ms / 86400000 + 719468
  let era := z / 146097
  let doe := z - era * 146097
  let yoe := (doe - doe / 1460 + doe / 36524 - doe / 146096) / 365
  let year := yoe + era * 400
  let doy := doe - (365 * yoe + yoe / 4 - yoe / 100)
  let mp := (5 * doy + 2) / 153
  let month := if mp < 10 then mp + 3 else mp - 9
  (if month ≤ 2 then year + 1 else year, month)

def Epoch.containing (receivedMs : ℤ) : Epoch :=
  let (year, month) := civilFromMillis receivedMs
  ⟨quarterLabel year ((month - 1) / 3 + 1), isEpochLabel_quarterLabel _ _⟩

theorem Epoch.mem_containing {ms : ℤ} {c : Char} (h : c ∈ (Epoch.containing ms).text) :
    labelChar c = true := mem_quarterLabel h

/-- A label this build writes has no white space. -/
theorem Epoch.notWhite_containing (ms : ℤ) :
    ∀ c ∈ (Epoch.containing ms).text, isWhite c = false := by
  intro c hc
  have hl := Epoch.mem_containing hc
  simp only [labelChar, Bool.or_eq_true, beq_iff_eq] at hl
  rcases hl with (hl | rfl) | rfl
  · simp only [Char.isDigit, Bool.and_eq_true, decide_eq_true_eq] at hl
    have h1 : 48 ≤ c.toNat := hl.1
    have h2 : c.toNat ≤ 57 := hl.2
    simp only [isWhite, Bool.or_eq_false_iff, Bool.and_eq_false_iff, decide_eq_false_iff_not,
      beq_eq_false_iff_ne, ne_eq]
    omega
  · rfl
  · rfl

/-- The year and quarter of a label this build could have written. -/
def Epoch.quarter (e : Epoch) : Option (ℤ × ℤ) := do
  -- `rsplit_once("-Q")`: the last `-Q` splits the label
  let (q, y) ← splitOnce 'Q' e.text.reverse
  let year ← match y with
    | '-' :: year => some year.reverse
    | _ => none
  let quarter := q.reverse
  if year ≠ [] ∧ quarter ≠ [] ∧ year.all isDigit ∧ quarter.all isDigit ∧
      number year < 2 ^ 63 ∧ 1 ≤ number quarter ∧ number quarter ≤ 4 then
    some (number year, number quarter)
  else none

/-- An integer as the `i64` arithmetic of a release build leaves it. -/
def wrap64 (i : ℤ) : ℤ := i.bmod (2 ^ 64)

/-- A quarter's position in the calendar, when the label names one. -/
def Epoch.index (e : Epoch) : Option ℤ :=
  e.quarter.map fun q => wrap64 (wrap64 (wrap64 (q.1 * 4) + q.2) - 1)

def Epoch.quartersBefore (e : Epoch) (back : ℕ) : Option Epoch := do
  let index := wrap64 ((← e.index) - back)
  if 1 ≤ index / 4 ∧ index / 4 ≤ 9999 then
    some ⟨quarterLabel (index / 4) (index % 4 + 1), isEpochLabel_quarterLabel _ _⟩
  else none

/-- Whether one quarter ends before another starts, when both labels say. -/
def Epoch.precedes (e o : Epoch) : Option Bool := do
  let i ← e.index
  let j ← o.index
  some (i < j)

/-! ## Hex -/

def hexDigit (n : ℕ) : Char := Char.ofNat (if n < 10 then 48 + n else 87 + n)

/-- The value of a hex digit; `hex::decode` reads both cases. -/
def hexVal (c : Char) : Option ℕ :=
  if isDigit c then some (c.toNat - 48)
  else if 'a' ≤ c ∧ c ≤ 'f' then some (c.toNat - 87)
  else if 'A' ≤ c ∧ c ≤ 'F' then some (c.toNat - 55)
  else none

/-- `hex::encode`. -/
def hexEncode (bs : Bytes) : Text :=
  bs.flatMap fun b => [hexDigit (b.toNat / 16), hexDigit (b.toNat % 16)]

/-- `hex::decode`. -/
def hexDecode : Text → Option Bytes
  | [] => some []
  | [_] => none
  | a :: b :: t => do
    let hi ← hexVal a
    let lo ← hexVal b
    let bs ← hexDecode t
    some (UInt8.ofNat (16 * hi + lo) :: bs)

theorem hexDigit_spec : ∀ n < 16, hexVal (hexDigit n) = some n ∧ isLowerHex (hexDigit n) = true := by
  decide

theorem hexDecode_hexEncode (bs : Bytes) : hexDecode (hexEncode bs) = some bs := by
  induction bs with
  | nil => rfl
  | cons b bs ih =>
    have hb := b.toNat_lt
    have hhi := (hexDigit_spec (b.toNat / 16) (by omega)).1
    have hlo := (hexDigit_spec (b.toNat % 16) (by omega)).1
    have hsum : 16 * (b.toNat / 16) + b.toNat % 16 = b.toNat := by omega
    rw [hexEncode, List.flatMap_cons, ← hexEncode]
    simp only [List.cons_append, List.nil_append, hexDecode, hhi, hlo, ih, Option.bind_eq_bind,
      Option.bind_some, hsum, UInt8.ofNat_toNat]

theorem mem_hexEncode {bs : Bytes} {c : Char} (h : c ∈ hexEncode bs) : isLowerHex c = true := by
  simp only [hexEncode, List.mem_flatMap] at h
  obtain ⟨b, -, h⟩ := h
  have hb := b.toNat_lt
  rcases List.mem_cons.1 h with rfl | h
  · exact (hexDigit_spec _ (by omega)).2
  · rw [List.mem_singleton.1 h]
    exact (hexDigit_spec _ (by omega)).2

/-! ## Sealed bodies -/

/-- The nonce of one sealing: 12 bytes. -/
structure Nonce where
  bytes : Bytes
  length : bytes.length = 12
deriving DecidableEq

theorem length_zeroNonce : (List.replicate 12 (0 : UInt8)).length = 12 := by simp

/-- One share of a body's key, wrapped under a subject's key. -/
structure WrappedShare where
  subject : SubjectHash
  bytes : Bytes
deriving DecidableEq

/-- What a sealed record stores instead of its prose. -/
structure SealedBody where
  nonce : Nonce
  epoch : Epoch
  shares : List WrappedShare
  ciphertext : Bytes
deriving DecidableEq

/-- The shares in subject order. -/
def sortShares (shares : List WrappedShare) : List WrappedShare :=
  shares.insertionSort fun a b => a.subject.text ≤ b.subject.text

def formatVersion : Text := "v1".toList
def alg : Text := "A256GCM+A256KW+HKDF-SHA256".toList
def fenceOpen : Text := "```sealed".toList
def fenceClose : Text := "```".toList

def renderShare (s : WrappedShare) : Text := s.subject.text ++ ':' :: hexEncode s.bytes

/-- The lines of a sealed block. -/
def blockLines (b : SealedBody) : List Text :=
  [fenceOpen, formatVersion, "alg=".toList ++ alg, "nonce=".toList ++ hexEncode b.nonce.bytes,
    "epoch=".toList ++ b.epoch.text,
    "shares=".toList ++ joinWith ',' ((sortShares b.shares).map renderShare),
    "ct=".toList ++ hexEncode b.ciphertext, fenceClose]

/-- A sealed body as the fenced block stored in a record file. -/
def render (b : SealedBody) : Text := joinWith '\n' (blockLines b)

def malformed {α : Type} (detail : String) : Except Error α := .error (.malformedBlock detail)

/-- `key=value`, requiring the expected key. -/
def value (line key : Text) : Except Error Text :=
  match (stripPrefix key line).bind (stripPrefix ['=']) with
  | some rest => .ok rest
  | none => malformed s!"expected `{String.ofList key}=`, found `{String.ofList line}`"

def decodeHex (line key : Text) : Except Error Bytes := do
  match hexDecode (← value line key) with
  | some bs => .ok bs
  | none => malformed s!"{String.ofList key}: not hex"

def parseShare (pair : Text) : Except Error WrappedShare :=
  match splitOnce ':' pair with
  | none => malformed s!"share `{String.ofList pair}` is not `subject:wrapped`"
  | some (subject, wrapped) =>
    match SubjectHash.parse subject, hexDecode wrapped with
    | .ok s, some bytes => .ok ⟨s, bytes⟩
    | .error _, _ => malformed "share subject"
    | .ok _, none => malformed s!"share for `{String.ofList subject}`: not hex"

def parseShares (field : Text) : Except Error (List WrappedShare) :=
  if field = [] then malformed "no shares: a body with no shares is unrecoverable"
  else (splitOn ',' field).mapM parseShare

def parseNonce (line : Text) : Except Error Nonce := do
  let bs ← decodeHex line "nonce".toList
  if h : bs.length = 12 then .ok ⟨bs, h⟩ else malformed "nonce is not 12 bytes"

/-- The six field lines of a block. -/
def parseFields : List Text → Except Error SealedBody
  | [version, algLine, nonce, epoch, shares, ct] => do
    refuseIf (version ≠ formatVersion)
      (.malformedBlock s!"unsupported format version `{String.ofList version}`")
    let suite ← value algLine "alg".toList
    refuseIf (suite ≠ alg) (.malformedBlock s!"unsupported algorithm `{String.ofList algLine}`")
    let nonce ← parseNonce nonce
    let label ← value epoch "epoch".toList
    let epoch ← Epoch.fromStored label
    let field ← value shares "shares".toList
    let shares ← parseShares field
    let ciphertext ← decodeHex ct "ct".toList
    .ok { nonce, epoch, shares, ciphertext }
  | fields => malformed s!"expected 6 field lines, got {fields.length}"

/-- A fenced sealed block, strictly. -/
def parse (t : Text) : Except Error SealedBody :=
  match (lines (trim t)).map trim with
  | [] => malformed "block is empty"
  | first :: rest =>
    if first ≠ fenceOpen then malformed s!"expected `{String.ofList fenceOpen}` fence"
    else match rest.getLast? with
      | none => malformed "block is unterminated"
      | some last =>
        if last ≠ fenceClose then malformed s!"expected `{String.ofList fenceClose}` fence"
        else parseFields rest.dropLast

/-! ## Round trip -/

theorem isWhite_of_isLowerHex {c : Char} (h : isLowerHex c = true) : isWhite c = false := by
  simp only [isLowerHex, isDigit, Bool.or_eq_true, Bool.and_eq_true, decide_eq_true_eq] at h
  have hb : 48 ≤ c.toNat ∧ c.toNat ≤ 102 := by
    rcases h with ⟨h1, h2⟩ | ⟨h1, h2⟩
    · have h1 : '0'.toNat ≤ c.toNat := h1
      have h2 : c.toNat ≤ '9'.toNat := h2
      exact ⟨h1, h2.trans (by decide)⟩
    · have h1 : 'a'.toNat ≤ c.toNat := h1
      have h2 : c.toNat ≤ 'f'.toNat := h2
      exact ⟨le_trans (by decide) h1, h2⟩
  simp only [isWhite, Bool.or_eq_false_iff, Bool.and_eq_false_iff, decide_eq_false_iff_not,
    beq_eq_false_iff_ne, ne_eq]
  omega

theorem mem_sortShares {shares : List WrappedShare} {s : WrappedShare} :
    s ∈ sortShares shares ↔ s ∈ shares := List.mem_insertionSort _

theorem renderShare_chars {s : WrappedShare} {c : Char} (h : c ∈ renderShare s) :
    isWhite c = false ∧ c ≠ ',' := by
  simp only [renderShare, List.mem_append, List.mem_cons] at h
  have hex : ∀ {c : Char}, isLowerHex c = true → isWhite c = false ∧ c ≠ ',' := fun hc =>
    ⟨isWhite_of_isLowerHex hc, by rintro rfl; exact absurd hc (by decide)⟩
  rcases h with h | rfl | h
  · rcases SubjectHash.mem_text h with rfl | rfl | h
    · decide
    · decide
    · exact hex h
  · decide
  · exact hex (mem_hexEncode h)

/-- No line of a block with a plain label holds whitespace. -/
theorem blockLines_chars {b : SealedBody} (hb : ∀ c ∈ b.epoch.text, isWhite c = false) :
    ∀ l ∈ blockLines b, ∀ c ∈ l, isWhite c = false := by
  have hex : ∀ {bs : Bytes} {c : Char}, c ∈ hexEncode bs → isWhite c = false := fun h =>
    isWhite_of_isLowerHex (mem_hexEncode h)
  have hshares : ∀ c ∈ joinWith ',' ((sortShares b.shares).map renderShare), isWhite c = false := by
    intro c hc
    rcases mem_joinWith hc with rfl | ⟨l, hl, hc⟩
    · decide
    · obtain ⟨s, -, rfl⟩ := List.mem_map.1 hl
      exact (renderShare_chars hc).1
  have hlit : ∀ {pre rest : Text}, pre.all (fun c => !isWhite c) = true →
      (∀ c ∈ rest, isWhite c = false) → ∀ c ∈ pre ++ rest, isWhite c = false := by
    intro pre rest hp hr c hc
    rcases List.mem_append.1 hc with hc | hc
    · simpa using List.all_eq_true.1 hp c hc
    · exact hr c hc
  simp only [blockLines, List.mem_cons, List.not_mem_nil, or_false]
  rintro l (rfl | rfl | rfl | rfl | rfl | rfl | rfl | rfl)
  · decide
  · decide
  · decide
  · exact hlit (by decide) fun c hc => hex hc
  · exact hlit (by decide) hb
  · exact hlit (by decide) hshares
  · exact hlit (by decide) fun c hc => hex hc
  · decide

theorem render_concat (b : SealedBody) :
    ∃ t, render b = '`' :: t ∧ render b = joinWith '\n' (blockLines b).dropLast ++ '\n' :: fenceClose := by
  refine ⟨_, rfl, ?_⟩
  rw [← joinWith_concat '\n' fenceClose (by simp [blockLines])]
  rfl

theorem lines_render {b : SealedBody} (hb : ∀ c ∈ b.epoch.text, isWhite c = false) :
    (lines (trim (render b))).map trim = blockLines b := by
  have hw := blockLines_chars hb
  have htrim : trim (render b) = render b := by
    obtain ⟨t, ht, hlast⟩ := render_concat b
    refine trim_of_ends ?_ ?_
    · rw [ht]
      intro c hc
      obtain rfl : '`' = c := by simpa using hc
      decide
    · rw [hlast]
      intro c hc
      obtain rfl : '`' = c := by simpa [fenceClose, List.getLast?_append] using hc
      decide
  have hsplit : splitOn '\n' (render b) = blockLines b :=
    splitOn_joinWith (by simp [blockLines]) fun l hl hn => absurd (hw l hl _ hn) (by decide)
  have hid : ∀ l ∈ blockLines b, trim (chompCr l) = l := by
    intro l hl
    rw [chompCr_of_getLast?, trim_of_forall (hw l hl)]
    intro hr
    exact absurd (hw l hl _ (List.mem_of_getLast? hr)) (by decide)
  have hne : (blockLines b).getLast? ≠ some [] := by simp [blockLines, fenceClose]
  rw [htrim, lines, hsplit, if_neg hne, List.map_map]
  exact (List.map_congr_left hid).trans (List.map_id _)

theorem value_append (key rest : Text) : value (key ++ '=' :: rest) key = .ok rest := by
  have h : stripPrefix ['='] ('=' :: rest) = some rest := stripPrefix_append ['='] rest
  simp [value, stripPrefix_append, h]

theorem decodeHex_append (key : Text) (bs : Bytes) :
    decodeHex (key ++ '=' :: hexEncode bs) key = .ok bs := by
  simp [decodeHex, value_append, hexDecode_hexEncode, bind, Except.bind]

theorem parseShare_renderShare (s : WrappedShare) : parseShare (renderShare s) = .ok s := by
  have hc : ':' ∉ s.subject.text := by
    intro h
    rcases SubjectHash.mem_text h with h | h | h
    · exact absurd h (by decide)
    · exact absurd h (by decide)
    · exact absurd h (by decide)
  simp [parseShare, renderShare, splitOnce_append_cons hc, hexDecode_hexEncode]

theorem parseShares_join {shares : List WrappedShare} (hne : shares ≠ []) :
    parseShares (joinWith ',' (shares.map renderShare)) = .ok shares := by
  have hsplit : splitOn ',' (joinWith ',' (shares.map renderShare)) = shares.map renderShare := by
    refine splitOn_joinWith (by simpa using hne) fun l hl hn => ?_
    obtain ⟨s, -, rfl⟩ := List.mem_map.1 hl
    exact (renderShare_chars hn).2 rfl
  have hmap : ∀ ss : List WrappedShare, (ss.map renderShare).mapM parseShare = .ok ss := by
    intro ss
    induction ss with
    | nil => rfl
    | cons s ss ih =>
      rw [List.map_cons, List.mapM_cons, parseShare_renderShare, ih]
      rfl
  have hnil : joinWith ',' (shares.map renderShare) ≠ [] := by
    intro h
    rw [h] at hsplit
    cases shares with
    | nil => exact hne rfl
    | cons s ss =>
      have := (List.cons.inj hsplit).1
      simp [renderShare] at this
  rw [parseShares, if_neg hnil, hsplit, hmap]

/-- **A sealed block is read back as written**, its shares in subject order. -/
theorem parse_render {b : SealedBody} (hb : ∀ c ∈ b.epoch.text, isWhite c = false)
    (hs : b.shares ≠ []) : parse (render b) = .ok { b with shares := sortShares b.shares } := by
  have hs' : sortShares b.shares ≠ [] := by
    intro h
    have := (List.perm_insertionSort (fun a b => a.subject.text ≤ b.subject.text) b.shares).length_eq
    rw [show List.insertionSort _ b.shares = [] from h] at this
    exact hs (List.length_eq_zero_iff.1 this.symm)
  have halg : value ("alg=".toList ++ alg) "alg".toList = .ok alg := value_append "alg".toList _
  have hnonce : parseNonce ("nonce=".toList ++ hexEncode b.nonce.bytes) = .ok b.nonce := by
    have : decodeHex ("nonce=".toList ++ hexEncode b.nonce.bytes) "nonce".toList =
      .ok b.nonce.bytes := decodeHex_append "nonce".toList _
    simp only [parseNonce, this, bind, Except.bind, b.nonce.length, dite_true]
  have hepoch : value ("epoch=".toList ++ b.epoch.text) "epoch".toList = .ok b.epoch.text :=
    value_append "epoch".toList _
  have hlabel : Epoch.fromStored b.epoch.text = .ok b.epoch := by
    simp [Epoch.fromStored, b.epoch.label]
  have hshares : value ("shares=".toList ++ joinWith ',' ((sortShares b.shares).map renderShare))
      "shares".toList = .ok (joinWith ',' ((sortShares b.shares).map renderShare)) :=
    value_append "shares".toList _
  have hct : decodeHex ("ct=".toList ++ hexEncode b.ciphertext) "ct".toList = .ok b.ciphertext :=
    decodeHex_append "ct".toList _
  have hfields : parseFields ((blockLines b).tail.dropLast) =
      .ok { b with shares := sortShares b.shares } := by
    simp only [blockLines, List.tail_cons, List.dropLast, parseFields, refuseIf, ne_eq,
      not_true_eq_false, if_false, halg, hnonce, hepoch, hlabel, hshares, parseShares_join hs', hct,
      bind, Except.bind]
  unfold parse
  rw [lines_render hb]
  exact hfields

end Yaam.Crypto
