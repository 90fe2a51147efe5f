/-
  The lines of the two logs as JSON objects, the shape `serde_json` gives them.

  A line is written as pieces between quotes and read back by splitting at the
  quotes; only what writes back to the same line is read.

  * `holdCodec` and `tombstoneCodec` are the codecs, `holdCodec_lawful` and
    `tombstoneCodec_lawful` what they promise;
  * `holdCodec_noGlue`: a line glued from pieces of lines is one of them or is not
    read.
-/
import Yaam.Lib.Quoted
import Yaam.Core.Store

namespace Yaam.Core

open Text Contract

/-! ## Lists of strings -/

/-- The pieces of a list's strings after its opening bracket, up to what closes it. -/
def moreStrings (close : Text) : List Text → List Text
  | [] => [']' :: close]
  | v :: vs => [','] :: jsonEscape v :: moreStrings close vs

/-- The pieces of a list of strings, with what follows it. -/
def stringPieces (close : Text) : List Text → List Text
  | [] => [":[]".toList ++ close]
  | v :: vs => ":[".toList :: jsonEscape v :: moreStrings close vs

/-- The strings of a list, from its pieces after the opening one. -/
def readStrings : List Text → List Text
  | v :: _ :: rest => jsonUnescape v :: readStrings rest
  | _ => []

theorem readStrings_moreStrings (close : Text) (v : Text) (vs : List Text) :
    readStrings (jsonEscape v :: moreStrings close vs) = v :: vs := by
  induction vs generalizing v with
  | nil => simp [moreStrings, readStrings, jsonUnescape_escape]
  | cons w vs ih => rw [moreStrings, readStrings, ih, jsonUnescape_escape]

theorem readStrings_stringPieces (close : Text) (vs : List Text) :
    readStrings (stringPieces close vs).tail = vs := by
  cases vs with
  | nil => rfl
  | cons v vs => exact readStrings_moreStrings close v vs

/-- A text with nothing that a JSON string escapes. -/
theorem notMem_of_plain {c : Char} (hc : jsonSpecial c = true) {t : Text}
    (ht : ∀ d ∈ t, jsonSpecial d = false) : c ∉ t := fun h => by
  rw [ht c h] at hc
  cases hc

theorem not_isDigit_of_special {c : Char} (hc : jsonSpecial c = true) : c.isDigit = false := by
  simp only [jsonSpecial, Bool.or_eq_true, beq_iff_eq, decide_eq_true_eq] at hc
  rcases hc with (((rfl | rfl) | rfl) | rfl) | hc
  · rfl
  · rfl
  · rfl
  · rfl
  · have h0 : '0'.toNat = 48 := rfl
    rw [Bool.eq_false_iff]
    intro h
    simp only [Char.isDigit, Bool.and_eq_true, decide_eq_true_eq] at h
    have h1 : '0'.toNat ≤ c.toNat := h.1
    omega

theorem notMem_padInt {c : Char} (hc : jsonSpecial c = true) (w : ℕ) (n : ℤ) : c ∉ padInt w n := by
  intro h
  rcases mem_padInt h with rfl | hd
  · exact absurd hc (by decide)
  · rw [not_isDigit_of_special hc] at hd
    cases hd

/-- A list's pieces hold a special character only where what closes it does. -/
theorem notMem_stringPieces {close : Text} {c : Char} (hc : jsonSpecial c = true) (hb : c ≠ '\\')
    (hclose : c ∉ close) (vs : List Text) : ∀ p ∈ stringPieces close vs, c ∉ p := by
  have hmore : ∀ ws : List Text, ∀ p ∈ moreStrings close ws, c ∉ p := by
    intro ws
    induction ws with
    | nil =>
      have h : c ∉ [']'] := notMem_of_plain hc (by decide)
      simpa [moreStrings] using ⟨by simpa using h, hclose⟩
    | cons w ws ih =>
      intro p hp
      simp only [moreStrings, List.mem_cons] at hp
      rcases hp with rfl | rfl | hp
      · exact notMem_of_plain hc (by decide)
      · exact notMem_jsonEscape hc hb w
      · exact ih p hp
  intro p hp
  cases vs with
  | nil =>
    rw [stringPieces, List.mem_singleton] at hp
    subst hp
    rw [List.mem_append, not_or]
    exact ⟨notMem_of_plain hc (by decide), hclose⟩
  | cons v vs =>
    simp only [stringPieces, List.mem_cons] at hp
    rcases hp with rfl | rfl | hp
    · exact notMem_of_plain hc (by decide)
    · exact notMem_jsonEscape hc hb v
    · exact hmore vs p hp

/-- Text between quotes holds no special character that its pieces do not. -/
theorem notMem_joinQuotes {c : Char} (hq : c ≠ '"') {ps : List Text} (h : ∀ p ∈ ps, c ∉ p) :
    c ∉ joinWith '"' ps := fun hc => by
  rcases mem_joinWith hc with rfl | ⟨p, hp, hcp⟩
  · exact hq rfl
  · exact h p hp hcp

/-! ## Holds -/

def eventName : HoldEvent → Text
  | .placed => "placed".toList
  | .released => "released".toList

/-- A hold line's pieces between its quotes. -/
def holdPieces (l : HoldLine) : List Text :=
  [] :: "hold_id".toList :: [':'] :: jsonEscape l.id :: [','] :: "event".toList :: [':'] ::
    eventName l.event :: [','] :: "subject".toList :: [':'] :: jsonEscape l.subject :: [','] ::
    "at_ms".toList :: (':' :: padInt 0 l.atMs ++ [',']) :: "reason".toList :: [':'] ::
    jsonEscape l.reason :: [','] :: "operator".toList :: [':'] :: jsonEscape l.operator :: [','] ::
    "records".toList :: stringPieces [] l.records

/-- A hold line between its braces. -/
def holdBody (l : HoldLine) : Text := joinWith '"' (holdPieces l)

/-- A hold line, as one JSON object. -/
def holdText (l : HoldLine) : Text := '\x7b' :: holdBody l ++ ['\x7d']

/-- A hold line from its pieces. -/
def holdOfPieces : List Text → Option HoldLine
  | _ :: _ :: _ :: id :: _ :: _ :: _ :: event :: _ :: _ :: _ :: subject :: _ :: _ :: at_ ::
      _ :: _ :: reason :: _ :: _ :: _ :: operator :: _ :: _ :: records =>
    some ⟨jsonUnescape id, if event = "placed".toList then .placed else .released,
      jsonUnescape subject, readInt at_.tail.dropLast, jsonUnescape reason,
      jsonUnescape operator, readStrings records.tail⟩
  | _ => none

/-- The codec of a hold line. -/
def holdCodec : LineCodec HoldLine where
  toStr := holdText
  fromStr t := (holdOfPieces (splitOn '"' t.tail.dropLast)).filter fun l => holdText l = t

/-- A hold line's pieces hold nothing that a JSON string escapes. -/
theorem notMem_holdPieces {c : Char} (hc : jsonSpecial c = true) (hb : c ≠ '\\') (l : HoldLine) :
    ∀ p ∈ holdPieces l, c ∉ p := by
  have hevent : c ∉ eventName l.event := by
    cases l.event
    · exact notMem_of_plain hc (by decide)
    · exact notMem_of_plain hc (by decide)
  have hat : c ∉ ':' :: padInt 0 l.atMs ++ [','] := by
    have h1 : c ∉ [':'] := notMem_of_plain hc (by decide)
    have h2 : c ∉ [','] := notMem_of_plain hc (by decide)
    have h3 := notMem_padInt hc 0 l.atMs
    simp only [List.mem_cons, List.not_mem_nil, or_false] at h1 h2
    simp [h1, h2, h3]
  simp only [holdPieces, List.forall_mem_cons]
  exact ⟨List.not_mem_nil, notMem_of_plain hc (by decide), notMem_of_plain hc (by decide),
    notMem_jsonEscape hc hb _, notMem_of_plain hc (by decide), notMem_of_plain hc (by decide),
    notMem_of_plain hc (by decide), hevent, notMem_of_plain hc (by decide),
    notMem_of_plain hc (by decide), notMem_of_plain hc (by decide), notMem_jsonEscape hc hb _,
    notMem_of_plain hc (by decide), notMem_of_plain hc (by decide), hat,
    notMem_of_plain hc (by decide), notMem_of_plain hc (by decide), notMem_jsonEscape hc hb _,
    notMem_of_plain hc (by decide), notMem_of_plain hc (by decide), notMem_of_plain hc (by decide),
    notMem_jsonEscape hc hb _, notMem_of_plain hc (by decide), notMem_of_plain hc (by decide),
    notMem_stringPieces hc hb List.not_mem_nil _⟩

theorem holdOfPieces_holdPieces (l : HoldLine) : holdOfPieces (holdPieces l) = some l := by
  have hevent : (if eventName l.event = "placed".toList then HoldEvent.placed else .released) =
      l.event := by
    cases l.event <;> rfl
  have hat : readInt (':' :: padInt 0 l.atMs ++ [',']).tail.dropLast = l.atMs := by
    rw [List.cons_append, List.tail_cons, List.dropLast_concat, readInt_padInt]
  simp only [holdPieces, holdOfPieces, jsonUnescape_escape, readStrings_stringPieces, hevent, hat]

theorem holdCodec_inverts (l : HoldLine) : holdCodec.fromStr (holdText l) = some l := by
  have hsplit : splitOn '"' (holdBody l) = holdPieces l :=
    splitOn_joinWith (List.cons_ne_nil _ _) (notMem_holdPieces (by decide) (by decide) l)
  have hbody : (holdText l).tail.dropLast = holdBody l := by simp [holdText]
  simp only [holdCodec, hbody, hsplit, holdOfPieces_holdPieces]
  simp

theorem holdText_injective {l k : HoldLine} (h : holdText l = holdText k) : l = k := by
  have h1 := holdCodec_inverts l
  rw [h, holdCodec_inverts k] at h1
  exact (Option.some.inj h1).symm

theorem holdCodec_sound {t : Text} {l : HoldLine} (h : holdCodec.fromStr t = some l) :
    holdText l = t := by
  have := (Option.filter_eq_some_iff.1 h).2
  simpa using this

theorem notMem_holdBody {c : Char} (hc : jsonSpecial c = true) (hb : c ≠ '\\') (hq : c ≠ '"')
    (l : HoldLine) : c ∉ holdBody l :=
  notMem_joinQuotes hq (notMem_holdPieces hc hb l)

/-- A hold line opens one object only. -/
theorem notMem_holdRest (l : HoldLine) : '\x7b' ∉ holdBody l ++ ['\x7d'] := by
  rw [List.mem_append, not_or]
  exact ⟨notMem_holdBody (by decide) (by decide) (by decide) l, by decide⟩

theorem holdCodec_lawful : holdCodec.Lawful where
  inverts := holdCodec_inverts
  oneLine l := by
    have h : '\n' ∉ holdBody l := notMem_holdBody (by decide) (by decide) (by decide) l
    show '\n' ∉ holdText l
    simp [holdText, h]
  noReturn l := by
    have h : '\r' ∉ holdBody l := notMem_holdBody (by decide) (by decide) (by decide) l
    show '\r' ∉ holdText l
    simp [holdText, h]
  opens _ := rfl
  closes l := by
    show (holdText l).getLast? = _
    rw [holdText, List.getLast?_append, List.getLast?_singleton, Option.some_or]
  alone t a x h := by
    have heq : holdText x = t ++ holdText a := holdCodec_sound h
    cases t with
    | nil => exact holdText_injective heq
    | cons c t =>
      have htail : holdBody x ++ ['\x7d'] = t ++ holdText a := (List.cons.inj heq).2
      refine absurd ?_ (notMem_holdRest x)
      rw [htail]
      simp [holdText]

/-- Where a beginning of hold lines opens an object, none follows it. -/
theorem pieces_of_hold {ps : List (HoldLine × ℕ)} {u : Text}
    (h : LineLog.pieces holdCodec ps = '\x7b' :: u) (hu : '\x7b' ∉ u) :
    ∃ p ∈ ps, LineLog.pieces holdCodec ps = (holdText p.1).take p.2 := by
  have hnil : ∀ qs : List (HoldLine × ℕ), '\x7b' ∉ LineLog.pieces holdCodec qs →
      LineLog.pieces holdCodec qs = [] := by
    intro qs hqs
    rw [LineLog.pieces, List.flatMap_eq_nil_iff]
    rintro ⟨l, n⟩ hq
    cases n with
    | zero => rfl
    | succ n =>
      refine absurd ?_ hqs
      exact List.mem_flatMap.2 ⟨(l, n + 1), hq, by simp [holdCodec, holdText]⟩
  induction ps with
  | nil => cases h
  | cons p ps ih =>
    obtain ⟨l, n⟩ := p
    have hsplit : LineLog.pieces holdCodec ((l, n) :: ps) =
        (holdText l).take n ++ LineLog.pieces holdCodec ps := rfl
    cases n with
    | zero =>
      rw [List.take_zero, List.nil_append] at hsplit
      rw [hsplit] at h ⊢
      obtain ⟨q, hq, heq⟩ := ih h
      exact ⟨q, List.mem_cons_of_mem _ hq, heq⟩
    | succ n =>
      refine ⟨(l, n + 1), List.mem_cons_self, ?_⟩
      rw [hsplit, holdText, List.cons_append, List.take_succ_cons, List.cons_append] at h
      have hrest : '\x7b' ∉ LineLog.pieces holdCodec ps := fun hm => by
        rw [← (List.cons.inj h).2] at hu
        exact hu (List.mem_append_right _ hm)
      rw [hsplit, hnil ps hrest, List.append_nil]

/-- **A line glued from pieces of hold lines** is one of them or is not read. -/
theorem holdCodec_noGlue : holdCodec.NoGlue := by
  intro ps x hx
  have htext : holdText x = LineLog.pieces holdCodec ps := holdCodec_sound hx
  obtain ⟨p, hp, heq⟩ := pieces_of_hold htext.symm (notMem_holdRest x)
  refine ⟨p, hp, ?_⟩
  rw [heq] at htext
  -- the line's last brace is the piece's own
  have hclose : '\x7d' ∈ (holdText p.1).take p.2 := by
    rw [← htext]
    simp [holdText]
  have hbody : '\x7d' ∉ '\x7b' :: holdBody p.1 := by
    have h : '\x7d' ∉ holdBody p.1 := notMem_holdBody (by decide) (by decide) (by decide) p.1
    simp [h]
  rw [holdText, List.take_append, List.mem_append] at hclose
  rcases hclose with hclose | hclose
  · exact absurd (List.mem_of_mem_take hclose) hbody
  · have hlen : (holdText p.1).length ≤ p.2 := by
      by_contra hlt
      have h0 : p.2 - ('\x7b' :: holdBody p.1).length = 0 := by
        simp only [holdText, List.length_append, List.length_singleton] at hlt
        omega
      rw [h0] at hclose
      cases hclose
    rw [List.take_of_length_le hlen] at htext
    exact (holdText_injective htext).symm

/-! ## Erasures -/

/-- An erased record's pieces between its quotes, with what follows it. -/
def erasedPieces (close : Text) (r : ErasedRecord) : List Text :=
  [] :: "record_id".toList :: [':'] :: jsonEscape r.recordId :: [','] :: "roles".toList ::
    stringPieces close (r.roles.map Md.subjectRoleName)

/-- Erased records after their opening braces, up to the end of their list. -/
def erasedTexts : List ErasedRecord → List Text
  | [] => []
  | r :: rs =>
    let close := if rs = [] then "\x7d]".toList else "\x7d,".toList
    joinWith '"' (erasedPieces close r) :: erasedTexts rs

/-- A tombstone line's pieces between its quotes, up to its first record. -/
def tombstonePieces (e : Tombstone) : List Text :=
  [] :: "tombstone_id".toList :: [':'] :: jsonEscape e.id :: [','] :: "subject".toList :: [':'] ::
    jsonEscape e.subject :: [','] :: "at_ms".toList :: (':' :: padInt 0 e.atMs ++ [',']) ::
    "complete".toList :: (if e.complete then ":true,".toList else ":false,".toList) ::
    "records".toList :: [if e.records = [] then ":[]".toList else ":[".toList]

/-- A tombstone line between its braces, split where a record opens. -/
def tombstoneTexts (e : Tombstone) : List Text :=
  joinWith '"' (tombstonePieces e) :: erasedTexts e.records

/-- A tombstone line, as one JSON object. -/
def tombstoneText (e : Tombstone) : Text :=
  '\x7b' :: joinWith '\x7b' (tombstoneTexts e) ++ ['\x7d']

def roleOf (name : Text) : Role := if name = "principal".toList then .principal else .party

/-- An erased record from its text. -/
def erasedOfText (t : Text) : ErasedRecord :=
  match splitOn '"' t with
  | _ :: _ :: _ :: id :: _ :: _ :: roles => ⟨jsonUnescape id, (readStrings roles.tail).map roleOf⟩
  | _ => ⟨[], []⟩

/-- A tombstone line from its texts. -/
def tombstoneOfTexts : List Text → Option Tombstone
  | [] => none
  | head :: records =>
    match splitOn '"' head with
    | _ :: _ :: _ :: id :: _ :: _ :: _ :: subject :: _ :: _ :: at_ :: _ :: complete :: _ =>
      some ⟨jsonUnescape id, jsonUnescape subject, readInt at_.tail.dropLast,
        complete = ":true,".toList, records.map erasedOfText⟩
    | _ => none

/-- The codec of a tombstone line. -/
def tombstoneCodec : LineCodec Tombstone where
  toStr := tombstoneText
  fromStr t :=
    (tombstoneOfTexts (splitOn '\x7b' t.tail.dropLast)).filter fun e => tombstoneText e = t

theorem notMem_erasedPieces {close : Text} {c : Char} (hc : jsonSpecial c = true) (hb : c ≠ '\\')
    (hclose : c ∉ close) (r : ErasedRecord) : ∀ p ∈ erasedPieces close r, c ∉ p := by
  simp only [erasedPieces, List.forall_mem_cons]
  exact ⟨List.not_mem_nil, notMem_of_plain hc (by decide), notMem_of_plain hc (by decide),
    notMem_jsonEscape hc hb _, notMem_of_plain hc (by decide), notMem_of_plain hc (by decide),
    notMem_stringPieces hc hb hclose _⟩

theorem notMem_tombstonePieces {c : Char} (hc : jsonSpecial c = true) (hb : c ≠ '\\')
    (e : Tombstone) : ∀ p ∈ tombstonePieces e, c ∉ p := by
  have hat : c ∉ ':' :: padInt 0 e.atMs ++ [','] := by
    have h1 : c ∉ [':'] := notMem_of_plain hc (by decide)
    have h2 : c ∉ [','] := notMem_of_plain hc (by decide)
    have h3 := notMem_padInt hc 0 e.atMs
    simp only [List.mem_cons, List.not_mem_nil, or_false] at h1 h2
    simp [h1, h2, h3]
  have hcomplete : c ∉ (if e.complete then ":true,".toList else ":false,".toList) := by
    split_ifs
    · exact notMem_of_plain hc (by decide)
    · exact notMem_of_plain hc (by decide)
  have hopen : c ∉ (if e.records = [] then ":[]".toList else ":[".toList) := by
    split_ifs
    · exact notMem_of_plain hc (by decide)
    · exact notMem_of_plain hc (by decide)
  simp only [tombstonePieces, List.forall_mem_cons]
  exact ⟨List.not_mem_nil, notMem_of_plain hc (by decide), notMem_of_plain hc (by decide),
    notMem_jsonEscape hc hb _, notMem_of_plain hc (by decide), notMem_of_plain hc (by decide),
    notMem_of_plain hc (by decide), notMem_jsonEscape hc hb _, notMem_of_plain hc (by decide),
    notMem_of_plain hc (by decide), hat, notMem_of_plain hc (by decide), hcomplete,
    notMem_of_plain hc (by decide), hopen, nofun⟩

theorem roleOf_name (r : Role) : roleOf (Md.subjectRoleName r) = r := by cases r <;> rfl

theorem erasedOfText_pieces {close : Text} (hclose : '"' ∉ close) (r : ErasedRecord) :
    erasedOfText (joinWith '"' (erasedPieces close r)) = r := by
  have hsplit : splitOn '"' (joinWith '"' (erasedPieces close r)) = erasedPieces close r :=
    splitOn_joinWith (List.cons_ne_nil _ _) (notMem_erasedPieces (by decide) (by decide) hclose r)
  rw [erasedOfText, hsplit]
  simp [erasedPieces, jsonUnescape_escape, readStrings_stringPieces, Function.comp_def, roleOf_name]

/-- What closes an erased record holds nothing special but its brace. -/
theorem notMem_close {c : Char} (hc : jsonSpecial c = true) (hd : c ≠ '\x7d')
    (rs : List ErasedRecord) : c ∉ (if rs = [] then "\x7d]".toList else "\x7d,".toList) := by
  have h1 : c ∉ [']', ','] := notMem_of_plain hc (by decide)
  simp only [List.mem_cons, List.not_mem_nil, or_false, not_or] at h1
  split_ifs
  · simp [hd, h1.1]
  · simp [hd, h1.2]

theorem erasedOfText_texts (rs : List ErasedRecord) : (erasedTexts rs).map erasedOfText = rs := by
  induction rs with
  | nil => rfl
  | cons r rs ih =>
    rw [erasedTexts, List.map_cons, ih,
      erasedOfText_pieces (notMem_close (by decide) (by decide) rs)]

/-- The texts of erased records hold no brace that opens and no newline. -/
theorem notMem_erasedTexts {c : Char} (hc : jsonSpecial c = true) (hb : c ≠ '\\') (hq : c ≠ '"')
    (hd : c ≠ '\x7d') {rs : List ErasedRecord} {t : Text} (h : t ∈ erasedTexts rs) : c ∉ t := by
  induction rs with
  | nil => cases h
  | cons r rs ih =>
    rw [erasedTexts, List.mem_cons] at h
    rcases h with rfl | h
    · exact notMem_joinQuotes hq (notMem_erasedPieces hc hb (notMem_close hc hd rs) r)
    · exact ih h

/-- The texts of erased records start with `"record_id"`. -/
theorem erasedTexts_start {rs : List ErasedRecord} {t : Text} (h : t ∈ erasedTexts rs) :
    ∃ u, t = '"' :: 'r' :: u := by
  induction rs with
  | nil => cases h
  | cons r rs ih =>
    rw [erasedTexts, List.mem_cons] at h
    rcases h with rfl | h
    · exact ⟨_, rfl⟩
    · exact ih h

theorem notMem_tombstoneTexts (e : Tombstone) : ∀ t ∈ tombstoneTexts e, '\x7b' ∉ t := by
  simp only [tombstoneTexts, List.forall_mem_cons]
  exact ⟨notMem_joinQuotes (by decide) (notMem_tombstonePieces (by decide) (by decide) e),
    fun t ht => notMem_erasedTexts (by decide) (by decide) (by decide) (by decide) ht⟩

theorem splitOn_tombstoneText (e : Tombstone) :
    splitOn '\x7b' (joinWith '\x7b' (tombstoneTexts e)) = tombstoneTexts e :=
  splitOn_joinWith (List.cons_ne_nil _ _) (notMem_tombstoneTexts e)

theorem tombstoneCodec_inverts (e : Tombstone) : tombstoneCodec.fromStr (tombstoneText e) = some e := by
  have hbody : (tombstoneText e).tail.dropLast = joinWith '\x7b' (tombstoneTexts e) := by
    simp [tombstoneText]
  have hhead : splitOn '"' (joinWith '"' (tombstonePieces e)) = tombstonePieces e :=
    splitOn_joinWith (List.cons_ne_nil _ _) (notMem_tombstonePieces (by decide) (by decide) e)
  have hat : readInt (':' :: padInt 0 e.atMs ++ [',']).tail.dropLast = e.atMs := by
    rw [List.cons_append, List.tail_cons, List.dropLast_concat, readInt_padInt]
  have hcomplete : decide ((if e.complete then ":true,".toList else ":false,".toList) =
      ":true,".toList) = e.complete := by
    cases e.complete <;> rfl
  have hread : tombstoneOfTexts (tombstoneTexts e) = some e := by
    simp only [tombstoneTexts, tombstoneOfTexts, hhead]
    simp only [tombstonePieces, jsonUnescape_escape, erasedOfText_texts, hat, hcomplete]
  simp only [tombstoneCodec, hbody, splitOn_tombstoneText, hread]
  simp

theorem tombstoneText_injective {e f : Tombstone} (h : tombstoneText e = tombstoneText f) : e = f := by
  have h1 := tombstoneCodec_inverts e
  rw [h, tombstoneCodec_inverts f] at h1
  exact (Option.some.inj h1).symm

theorem tombstoneCodec_sound {t : Text} {e : Tombstone} (h : tombstoneCodec.fromStr t = some e) :
    tombstoneText e = t := by
  have := (Option.filter_eq_some_iff.1 h).2
  simpa using this

/-- A tombstone line holds nothing special but its quotes and braces. -/
theorem notMem_tombstoneText {c : Char} (hc : jsonSpecial c = true) (hb : c ≠ '\\') (hq : c ≠ '"')
    (ho : c ≠ '\x7b') (hd : c ≠ '\x7d') (e : Tombstone) : c ∉ tombstoneText e := by
  have hbody : c ∉ joinWith '\x7b' (tombstoneTexts e) := fun h => by
    rcases mem_joinWith h with h | ⟨t, ht, htn⟩
    · exact ho h
    · rcases List.mem_cons.1 ht with rfl | ht
      · exact notMem_joinQuotes hq (notMem_tombstonePieces hc hb e) htn
      · exact notMem_erasedTexts hc hb hq hd ht htn
  simp [tombstoneText, hbody, ho, hd]

theorem tombstoneCodec_lawful : tombstoneCodec.Lawful where
  inverts := tombstoneCodec_inverts
  oneLine := notMem_tombstoneText (by decide) (by decide) (by decide) (by decide) (by decide)
  noReturn := notMem_tombstoneText (by decide) (by decide) (by decide) (by decide) (by decide)
  opens _ := rfl
  closes e := by
    show (tombstoneText e).getLast? = _
    rw [tombstoneText, List.getLast?_append, List.getLast?_singleton, Option.some_or]
  alone t a x h := by
    have heq : tombstoneText x = t ++ tombstoneText a := tombstoneCodec_sound h
    cases t with
    | nil => exact tombstoneText_injective heq
    | cons c t =>
      -- the line's own object would be one of `x`'s records
      have htail : joinWith '\x7b' (tombstoneTexts x) =
          t ++ '\x7b' :: joinWith '\x7b' (tombstoneTexts a) := by
        have h1 : joinWith '\x7b' (tombstoneTexts x) ++ ['\x7d'] =
            t ++ ('\x7b' :: joinWith '\x7b' (tombstoneTexts a) ++ ['\x7d']) := (List.cons.inj heq).2
        rw [← List.append_assoc] at h1
        exact List.append_cancel_right h1
      have hsplit : tombstoneTexts x = splitOn '\x7b' t ++ tombstoneTexts a := by
        rw [← splitOn_tombstoneText x, htail, splitOn_append, splitOn_tombstoneText]
      cases ht : splitOn '\x7b' t with
      | nil => exact absurd ht (splitOn_ne_nil _ _)
      | cons l ls =>
        rw [ht, List.cons_append] at hsplit
        have hmem : joinWith '"' (tombstonePieces a) ∈ erasedTexts x.records := by
          rw [(List.cons.inj hsplit).2, tombstoneTexts]
          simp
        obtain ⟨u, hu⟩ := erasedTexts_start hmem
        have h2 : some 't' = some 'r' := congrArg (fun v : Text => v[1]?) hu
        exact absurd h2 (by decide)

end Yaam.Core
