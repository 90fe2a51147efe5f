/-
  Key material at rest under a passphrase (`yaam-crypto`, `wrapper.rs`, with the report of
  `keystore.rs`).

  * `PassphraseWrapper` carries the key it derived; `wrap` writes a blob that names its
    salt and cost, `unwrap` reads one whatever those are (`unwrap_wrap`);
  * `wrappingOf` is what a blob says of itself, `keyMaterial` what a store's files say;
  * `Turn` is an operation of a process with a wrapper of its own or none, `Stocked` what a
    run of them leaves: key files in the clear and key files under the passphrase;
  * `key_material_reports`: the report finds every usable key on disk and no other, and
    every wrapper with the passphrase reads the rest.
-/
import Yaam.Crypto.Recovery

namespace Yaam.Crypto

open Text Contract Eff

/-! ## Headers -/

/-- The format marker leading every wrapped blob. -/
def magic : Bytes := ascii "YAAMKW"

/-- Format version of the header. -/
def formatVer : UInt8 := 1

/-- How a blob's key-encryption key was produced. -/
inductive Scheme where
  | passphraseArgon2id
deriving DecidableEq

def Scheme.toByte : Scheme → UInt8
  | .passphraseArgon2id => 1

/-- The scheme a discriminant names; 2 is reserved for a key service. -/
def Scheme.fromByte (byte : UInt8) : Option Scheme :=
  if byte = 1 then some .passphraseArgon2id else none

/-- Argon2id cost, as recorded in every blob. -/
structure Cost where
  memoryKib : UInt32
  passes : UInt32
  lanes : UInt32
deriving DecidableEq

def Cost.default : Cost := ⟨19 * 1024, 2, 1⟩

/-- A word's four bytes, lowest first. -/
def toLeBytes (w : UInt32) : Bytes :=
  [w.toNat.toUInt8, (w.toNat / 256).toUInt8, (w.toNat / 256 ^ 2).toUInt8, (w.toNat / 256 ^ 3).toUInt8]

/-- The word that four bytes from a place on spell. -/
def fromLeBytes (bytes : Bytes) (place : ℕ) : UInt32 :=
  let byte := fun i => (bytes.getD (place + i) 0).toNat
  (byte 0 + byte 1 * 256 + byte 2 * 256 ^ 2 + byte 3 * 256 ^ 3).toUInt32

def Cost.toBytes (c : Cost) : Bytes :=
  toLeBytes c.memoryKib ++ toLeBytes c.passes ++ toLeBytes c.lanes

def Cost.fromBytes (bytes : Bytes) : Cost :=
  ⟨fromLeBytes bytes 0, fromLeBytes bytes 4, fromLeBytes bytes 8⟩

/-- A salt: 16 bytes. -/
structure Salt where
  bytes : Bytes
  length : bytes.length = 16

theorem Salt.ext_iff_bytes {a b : Salt} : a.bytes = b.bytes ↔ a = b := by
  cases a
  cases b
  simp

instance : DecidableEq Salt := fun _ _ => decidable_of_iff _ Salt.ext_iff_bytes

/-- Header bytes before the wrapped key material. -/
def headerLen : ℕ := 36

/-- A blob's header: the salt and the cost its key was derived with. -/
structure Header where
  salt : Salt
  cost : Cost

/-- The bytes that lead a blob. -/
def Header.render (h : Header) : Bytes :=
  magic ++ formatVer :: Scheme.passphraseArgon2id.toByte :: (h.salt.bytes ++ h.cost.toBytes)

/-- Reads the header, refusing anything that no such wrapper wrote. -/
def Header.parse (blob : Bytes) : Except Error Header :=
  if blob.length < magic.length ∨ blob.take magic.length ≠ magic then
    .error (.malformedBlock ("not a wrapped key: no format marker. An unwrapped store opened under " ++
      "a wrapper looks exactly like this."))
  else if h : blob.length < headerLen then
    .error (.malformedBlock s!"wrapped key is {blob.length} bytes, too short for a header")
  else if blob.getD 6 0 ≠ formatVer then
    .error (.malformedBlock (s!"wrapped key format {blob.getD 6 0} is not the {formatVer} this build " ++
      "writes"))
  else match Scheme.fromByte (blob.getD 7 0) with
    | none => .error (.malformedBlock (s!"wrapped key names scheme {blob.getD 7 0}, which this build " ++
        "cannot derive. Key material this cannot recover is not key material that was erased."))
    | some _ => .ok
        { salt := ⟨(blob.drop 8).take 16, by
            simp only [headerLen, not_lt] at h
            simp only [List.length_take, List.length_drop]
            omega⟩
          cost := .fromBytes (blob.drop 24) }

/-! ## What a blob says of itself -/

/-- What the front of stored key material says about its protection. -/
inductive Wrapping where
  | named (scheme : Scheme)
  /-- Marked, under something this build cannot name. -/
  | unnamed
  | absent
deriving DecidableEq

/-- What the leading bytes of `stored` say about how it was wrapped. -/
def wrappingOf (stored : Bytes) : Wrapping :=
  if stored.length < magic.length ∨ stored.take magic.length ≠ magic then .absent
  else if stored.length ≤ magic.length + 1 ∨ stored.getD 6 0 ≠ formatVer then .unnamed
  else match Scheme.fromByte (stored.getD 7 0) with
    | some scheme => .named scheme
    | none => .unnamed

/-! ## Wrapping -/

/-- The primitives a wrapper rests on. -/
structure WrapPrimitives where
  /-- Why a cost is no Argon2 parameter set, if it is none. -/
  unusable : Cost → Option String
  /-- Argon2id of a passphrase and a salt, to 32 bytes. -/
  argon2 : Bytes → Bytes → Cost → Except String Key
  /-- AES-256 key wrap with padding. -/
  wrapKey : Key → Bytes → Option Bytes
  /-- The key material, when the integrity check passes. -/
  unwrapKey : Key → Bytes → Option Bytes

/-- What was wrapped under a key unwraps under it. -/
def WrapPrimitives.Lawful (A : WrapPrimitives) : Prop :=
  ∀ kek k b, A.wrapKey kek k = some b → A.unwrapKey kek b = some k

section

variable (A : WrapPrimitives)

/-- The key-encryption key of a passphrase, a salt and a cost. -/
def deriveKek (passphrase : Bytes) (salt : Salt) (cost : Cost) : Except Error Key :=
  match A.unusable cost with
  | some e => .error (.malformedBlock s!"unusable argon2 cost: {e}")
  | none => (A.argon2 passphrase salt.bytes cost).mapError fun e =>
      .malformedBlock s!"cannot derive a key: {e}"

def kwpWrap (kek : Key) (key : Bytes) : Except Error Bytes :=
  match A.wrapKey kek key with
  | some b => .ok b
  | none => .error (.malformedBlock s!"cannot wrap {key.length} bytes")

def kwpUnwrap (kek : Key) (wrapped : Bytes) : Except Error Bytes :=
  match A.unwrapKey kek wrapped with
  | some key => .ok key
  | none => .error .authentication

/-- A wrapper over a passphrase, with the key it derived. -/
structure PassphraseWrapper where
  passphrase : Bytes
  salt : Salt
  cost : Cost
  kek : Key
  derived : deriveKek A passphrase salt cost = .ok kek

/-- Derives a wrapper from a salt and a cost. -/
def PassphraseWrapper.withSalt (passphrase : Bytes) (salt : Salt) (cost : Cost) :
    Except Error (PassphraseWrapper A) :=
  match h : deriveKek A passphrase salt cost with
  | .ok kek => .ok ⟨passphrase, salt, cost, kek, h⟩
  | .error e => .error e

end

namespace PassphraseWrapper

variable {A : WrapPrimitives} (w : PassphraseWrapper A)

/-- The key-encryption key for a blob's own salt and cost. -/
def kekFor (salt : Salt) (cost : Cost) : Except Error Key :=
  if salt = w.salt ∧ cost = w.cost then .ok w.kek else deriveKek A w.passphrase salt cost

def wrap (key : Bytes) : Except Error Bytes :=
  (kwpWrap A w.kek key).map fun b => (Header.mk w.salt w.cost).render ++ b

def unwrap (wrapped : Bytes) : Except Error Bytes := do
  let header ← Header.parse wrapped
  let kek ← w.kekFor header.salt header.cost
  kwpUnwrap A kek (wrapped.drop headerLen)

/-- The wrapper as a key store takes one. -/
def keyWrapper : KeyWrapper := ⟨w.wrap, w.unwrap⟩

end PassphraseWrapper

/-! ## A header reads back -/

theorem fromLeBytes_toLeBytes (w : UInt32) (rest : Bytes) : fromLeBytes (toLeBytes w ++ rest) 0 = w := by
  have hw := w.toNat_lt
  refine UInt32.toNat_inj.1 ?_
  simp [fromLeBytes, toLeBytes]
  omega

theorem fromLeBytes_append {a : Bytes} (b : Bytes) (i : ℕ) :
    fromLeBytes (a ++ b) (a.length + i) = fromLeBytes b i := by
  have hbyte : ∀ j, (a ++ b).getD (a.length + j) 0 = b.getD j 0 := by
    intro j
    rw [List.getD_eq_getElem?_getD, List.getElem?_append_right (Nat.le_add_right _ _),
      Nat.add_sub_cancel_left, ← List.getD_eq_getElem?_getD]
  simp only [fromLeBytes, Nat.add_assoc, hbyte]

@[simp] theorem length_toLeBytes (w : UInt32) : (toLeBytes w).length = 4 := rfl

@[simp] theorem Cost.length_toBytes (c : Cost) : c.toBytes.length = 12 := rfl

theorem Cost.fromBytes_toBytes (c : Cost) (rest : Bytes) : Cost.fromBytes (c.toBytes ++ rest) = c := by
  obtain ⟨memory, passes, lanes⟩ := c
  have h4 := fromLeBytes_append (a := toLeBytes memory) (toLeBytes passes ++ (toLeBytes lanes ++ rest)) 0
  have h8 := fromLeBytes_append (a := toLeBytes memory ++ toLeBytes passes) (toLeBytes lanes ++ rest) 0
  simp only [length_toLeBytes, List.length_append, List.append_assoc, Nat.add_zero, Nat.reduceAdd,
    fromLeBytes_toLeBytes] at h4 h8
  simp only [fromBytes, toBytes, List.append_assoc, fromLeBytes_toLeBytes, h4, h8]

@[simp] theorem length_magic : magic.length = 6 := rfl

@[simp] theorem Header.length_render (h : Header) : h.render.length = headerLen := by
  simp [render, headerLen, h.salt.length]

/-- **A header reads back**, whatever follows it. -/
theorem Header.parse_render (h : Header) (rest : Bytes) : Header.parse (h.render ++ rest) = .ok h := by
  obtain ⟨⟨salt, hsalt⟩, cost⟩ := h
  generalize hb : Header.render ⟨⟨salt, hsalt⟩, cost⟩ ++ rest = blob
  have hlen : headerLen ≤ blob.length := by simp [← hb]
  have hbytes : blob =
      magic ++ formatVer :: Scheme.passphraseArgon2id.toByte :: (salt ++ (cost.toBytes ++ rest)) := by
    simp [← hb, render]
  have hmagic : blob.take magic.length = magic := by rw [hbytes, List.take_left]
  have hver : blob.getD 6 0 = formatVer := by rw [hbytes]; rfl
  have hscheme : Scheme.fromByte (blob.getD 7 0) = some .passphraseArgon2id := by rw [hbytes]; rfl
  have hdrop : blob.drop 8 = salt ++ (cost.toBytes ++ rest) := by rw [hbytes]; rfl
  have hsalt' : (blob.drop 8).take 16 = salt := by rw [hdrop, ← hsalt, List.take_left]
  have hcost : blob.drop 24 = cost.toBytes ++ rest := by
    have h16 : (blob.drop 8).drop 16 = cost.toBytes ++ rest := by rw [hdrop, ← hsalt, List.drop_left]
    rwa [List.drop_drop] at h16
  have hmark : ¬ (blob.length < magic.length ∨ blob.take magic.length ≠ magic) := by
    simp only [hmagic, ne_eq, not_true_eq_false, or_false, not_lt]
    exact le_trans (by decide) hlen
  rw [Header.parse, if_neg hmark, dif_neg (not_lt.2 hlen), if_neg (not_not.2 hver), hscheme]
  simp only [hsalt', hcost, Cost.fromBytes_toBytes]

/-- What leads a blob names its scheme. -/
theorem wrappingOf_render (h : Header) (rest : Bytes) :
    wrappingOf (h.render ++ rest) = .named .passphraseArgon2id := by
  generalize hb : h.render ++ rest = blob
  have hlen : headerLen ≤ blob.length := by simp [← hb]
  have hmagic : blob.take magic.length = magic := by
    rw [← hb, Header.render, List.append_assoc, List.take_left]
  have hver : blob.getD 6 0 = formatVer := by rw [← hb]; rfl
  have hscheme : Scheme.fromByte (blob.getD 7 0) = some .passphraseArgon2id := by rw [← hb]; rfl
  have hlong : magic.length + 1 < blob.length := lt_of_lt_of_le (by decide) hlen
  have hmark : ¬ (blob.length < magic.length ∨ blob.take magic.length ≠ magic) := by
    simp only [hmagic, ne_eq, not_true_eq_false, or_false]
    omega
  have hnamed : ¬ (blob.length ≤ magic.length + 1 ∨ blob.getD 6 0 ≠ formatVer) := by
    simp only [hver, ne_eq, not_true_eq_false, or_false]
    omega
  rw [wrappingOf, if_neg hmark, if_neg hnamed, hscheme]

/-- Unmarked bytes are read as no blob. -/
theorem wrappingOf_eq_absent {b : Bytes} : wrappingOf b = .absent ↔ ¬ magic <+: b := by
  have hmark : (b.length < magic.length ∨ b.take magic.length ≠ magic) ↔ ¬ magic <+: b := by
    rw [List.prefix_iff_eq_take, eq_comm (a := magic)]
    constructor
    · rintro (h | h) heq
      · have := congrArg List.length heq
        rw [List.length_take] at this
        omega
      · exact h heq
    · exact .inr
  rw [wrappingOf]
  split_ifs with h h'
  · simp [hmark.1 h]
  · simpa using hmark.not_left.1 h
  · cases Scheme.fromByte (b.getD 7 0) <;> simpa using hmark.not_left.1 h

namespace PassphraseWrapper

variable {A : WrapPrimitives} {w w' : PassphraseWrapper A} {key b : Bytes}

/-- A wrapper with the passphrase finds the key that another one derived. -/
theorem kekFor_of_passphrase (h : w'.passphrase = w.passphrase) :
    w'.kekFor w.salt w.cost = .ok w.kek := by
  rw [kekFor]
  split_ifs with hsame
  · have hown := w'.derived
    rw [← hsame.1, ← hsame.2, h, w.derived] at hown
    rw [Except.ok.inj hown]
  · rw [h, w.derived]

theorem wrap_ok (h : w.wrap key = .ok b) :
    ∃ body, A.wrapKey w.kek key = some body ∧ b = (Header.mk w.salt w.cost).render ++ body := by
  simp only [wrap, kwpWrap] at h
  cases hb : A.wrapKey w.kek key with
  | none => simp [hb, Except.map] at h
  | some body =>
    simp only [hb, Except.map, Except.ok.injEq] at h
    exact ⟨body, rfl, h.symm⟩

/-- **Any wrapper with the passphrase unwraps what one of them wrapped**, whatever salt and
    cost either was made with. -/
theorem unwrap_wrap (hA : A.Lawful) (h : w'.passphrase = w.passphrase) (hb : w.wrap key = .ok b) :
    w'.unwrap b = .ok key := by
  obtain ⟨body, hbody, rfl⟩ := wrap_ok hb
  have hdrop : ((Header.mk w.salt w.cost).render ++ body).drop headerLen = body := by
    rw [← Header.length_render ⟨w.salt, w.cost⟩, List.drop_left]
  simp only [unwrap, Header.parse_render, kekFor_of_passphrase h, hdrop, kwpUnwrap, hA _ _ _ hbody,
    bind, Except.bind]

/-- Without a marker there is nothing to unwrap. -/
theorem unwrap_unmarked (w : PassphraseWrapper A) (h : ¬ magic <+: b) : ∃ e, w.unwrap b = .error e := by
  have hmark : b.length < magic.length ∨ b.take magic.length ≠ magic := by
    rw [List.prefix_iff_eq_take, eq_comm] at h
    exact .inr h
  rw [unwrap, Header.parse, if_pos hmark]
  exact ⟨_, rfl⟩

/-- A blob is longer than a key. -/
theorem length_wrap (h : w.wrap key = .ok b) : 32 < b.length := by
  obtain ⟨body, -, rfl⟩ := wrap_ok h
  rw [List.length_append, Header.length_render, headerLen]
  omega

theorem wrappingOf_wrap (h : w.wrap key = .ok b) : wrappingOf b = .named .passphraseArgon2id := by
  obtain ⟨body, -, rfl⟩ := wrap_ok h
  exact wrappingOf_render _ _

end PassphraseWrapper

/-! ## What a store's files say -/

/-- What the key material on disk says about its own protection. -/
inductive KeyMaterial where
  | absent
  | wrapped (scheme : Option Scheme) (files : ℕ)
  | unwrapped (files : ℕ)
  | mixed (wrapped unwrapped : ℕ)
deriving DecidableEq

/-- Whether a key on disk is usable to whoever can read the files. -/
def KeyMaterial.exposed : KeyMaterial → Bool
  | .unwrapped _ | .mixed _ _ => true
  | .absent | .wrapped _ _ => false

/-- The files counted so far, and the schemes they name. -/
structure Tally where
  wrapped : ℕ
  unwrapped : ℕ
  named : Option Scheme
  oneScheme : Bool

def Tally.add (c : Tally) : Wrapping → Tally
  | .named scheme => { c with
      wrapped := c.wrapped + 1
      named := some (c.named.getD scheme)
      oneScheme := c.oneScheme && c.named.all (· = scheme) }
  | .unnamed => { c with wrapped := c.wrapped + 1, oneScheme := false }
  | .absent => { c with unwrapped := c.unwrapped + 1 }

def Tally.report (c : Tally) : KeyMaterial :=
  -- a name only where every marker agrees on one
  let scheme := if c.oneScheme then c.named else none
  match c.wrapped, c.unwrapped with
  | 0, 0 => .absent
  | 0, files => .unwrapped files
  | files, 0 => .wrapped scheme files
  | wrapped, unwrapped => .mixed wrapped unwrapped

/-- Every entry of a subject's directory; a stray file beside these is none. -/
def keyFiles (t : Tree) : List Path :=
  (t.entryNames [keysDir]).flatMap fun name =>
    (t.entryNames [keysDir, name]).map fun label => [keysDir, name, label]

def tallyFile (t : Tree) (c : Tally) (p : Path) : Eff Tree Error Tally :=
  match t.lookup p with
  | some stored => pure (c.add (wrappingOf stored.content))
  | none => fail (.io "Is a directory (os error 21)")

/-- What the key files say, whatever wrapper this process holds. -/
def keyMaterial : Eff Tree Error KeyMaterial := do
  let t ← state
  return (← (keyFiles t).foldlM (tallyFile t) ⟨0, 0, none, true⟩).report

/-! ## A store that processes with different wrappers wrote -/

/-- One operation of a process: the wrapper it opened the store with, if any, and how it
    finds the world. -/
structure Turn (A : WrapPrimitives) where
  wrapper : Option (PassphraseWrapper A)
  now : ℤ
  fault : KeyIo → SubjectHash → Option String
  op : KeyOp

variable {A : WrapPrimitives} {pass : Bytes}

/-- The store as the process opens it. -/
def Turn.store (τ : Turn A) : FsKeyStore where
  wrapper := match τ.wrapper with
    | none => passthrough.wrapper
    | some w => w.keyWrapper
  now := τ.now
  fault := τ.fault

def Turn.run (t : Tree) (τ : Turn A) : Tree := τ.op.run τ.store t

def Turn.runAll (t : Tree) (turns : List (Turn A)) : Tree := turns.foldl Turn.run t

/-- A turn under this passphrase or none, whose mint is not cut off and draws no key that
    looks like a blob. -/
structure Turn.Sound (pass : Bytes) (τ : Turn A) : Prop where
  passphrase : ∀ w, τ.wrapper = some w → w.passphrase = pass
  whole : ∀ o fresh s e, τ.op = .mint o fresh s e → o.cut = none ∧ ¬ magic <+: fresh.bytes

/-- What a key file holds: a key in the clear, or one wrapped under the passphrase. -/
inductive Stock (A : WrapPrimitives) (pass : Bytes) : Bytes → Prop
  | clear (k : Key) : ¬ magic <+: k.bytes → Stock A pass k.bytes
  | wrapped {w : PassphraseWrapper A} {k : Key} {b} : w.passphrase = pass → w.wrap k.bytes = .ok b →
      Stock A pass b

/-- A store of markers and of such key files. -/
def Stocked (A : WrapPrimitives) (pass : Bytes) (t : Tree) : Prop :=
  ∀ p f, t.lookup p = some f → (∃ s, p = tombstonePath s) ∨
    (∃ s e, p = keyFile s e) ∧ Stock A pass f.content

/-- **A mint writes a wrapped key or nothing.** -/
theorem FsKeyStore.mint_wrote (K : FsKeyStore) (fresh : Key) (s : SubjectHash) (e : Epoch) (t : Tree) :
    (K.mint fresh s e t).2 = t ∨ ∃ b, K.wrapper.wrap fresh.bytes = .ok b ∧
      (K.mint fresh s e t).2 = t.write (keyFile s e) b K.now := by
  refine K.mint_keeps_of (I := fun u => u = t ∨ ∃ b, K.wrapper.wrap fresh.bytes = .ok b ∧
    u = t.write (keyFile s e) b K.now) fresh s e (fun u b hb hfree hu => ?_) t (.inl rfl)
  rcases hu with rfl | ⟨b', -, rfl⟩
  · exact .inr ⟨b, hb, rfl⟩
  · exact absurd (AList.mem_insert _ |>.2 (.inl rfl)) hfree

theorem FsKeyStore.wrap_of_during {K : FsKeyStore} {o : Outage} {k b : Bytes}
    (h : (K.during o).wrapper.wrap k = .ok b) : K.wrapper.wrap k = .ok b := by
  unfold FsKeyStore.during at h
  cases ho : o.wrapper with
  | none => rwa [ho] at h
  | some err =>
    rw [ho] at h
    cases h

/-- A key a sound turn wraps is stock. -/
theorem Turn.Sound.stock {τ : Turn A} (h : τ.Sound pass) {k : Key} {b : Bytes} (hk : ¬ magic <+: k.bytes)
    (hb : τ.store.wrapper.wrap k.bytes = .ok b) : Stock A pass b := by
  unfold Turn.store at hb
  cases hw : τ.wrapper with
  | none =>
    rw [hw] at hb
    obtain rfl := Except.ok.inj hb
    exact .clear k hk
  | some w =>
    rw [hw] at hb
    exact .wrapped (h.passphrase w hw) hb

/-- Files that are taken away leave a stocked store. -/
theorem Stocked.of_subset {t t' : Tree} (h : Stocked A pass t)
    (hsub : ∀ p f, t'.lookup p = some f → t.lookup p = some f) : Stocked A pass t' :=
  fun p f hp => h p f (hsub p f hp)

theorem Stocked.write {t : Tree} {p : Path} {b : Bytes} {now : ℤ} (h : Stocked A pass t)
    (hp : (∃ s, p = tombstonePath s) ∨ (∃ s e, p = keyFile s e) ∧ Stock A pass b) :
    Stocked A pass (t.write p b now) := by
  intro q f hq
  by_cases hqp : q = p
  · subst hqp
    rw [Tree.write, AList.lookup_insert] at hq
    obtain rfl := Option.some.inj hq
    exact hp
  · rw [Tree.write, AList.lookup_insert_ne hqp] at hq
    exact h q f hq

/-- **A sound turn leaves a stocked store.** -/
theorem Stocked.run {t : Tree} {τ : Turn A} (h : Stocked A pass t) (hτ : τ.Sound pass) :
    Stocked A pass (Turn.run t τ) := by
  rw [Turn.run]
  cases hop : τ.op with
  | mint o fresh s e =>
    obtain ⟨hcut, hfresh⟩ := hτ.whole o fresh s e hop
    rw [KeyOp.run, hcut, FsKeyStore.mintCut_none]
    rcases (τ.store.during o).mint_wrote fresh s e t with hsame | ⟨b, hb, hwrote⟩
    · rwa [hsame]
    · rw [hwrote]
      exact h.write (.inr ⟨⟨s, e, rfl⟩, hτ.stock hfresh (FsKeyStore.wrap_of_during hb)⟩)
  | get s e => rwa [KeyOp.run, FsKeyStore.get_state]
  | destroyEpoch s e =>
    rw [KeyOp.run, Crypto.destroyEpoch]
    cases hp : keyPath s e with
    | error err => exact h
    | ok path =>
      refine h.of_subset fun p f hpf => ?_
      have hpf' : (t.erase path).lookup p = some f := hpf
      by_cases hpath : p = path
      · subst hpath
        rw [AList.lookup_erase] at hpf'
        cases hpf'
      · rwa [AList.lookup_erase_ne hpath] at hpf'
  | destroySubject s =>
    refine h.of_subset fun p f hpf => ?_
    have hpf' : (t.removeDirAll (subjectDir s)).lookup p = some f := hpf
    rw [Tree.lookup_removeDirAll] at hpf'
    split_ifs at hpf'
    exact hpf'
  | tombstone s =>
    show Stocked A pass (if tombstonePath s ∈ t then t else t.write (tombstonePath s) [] τ.store.now)
    split_ifs
    · exact h
    · exact h.write (.inl ⟨s, rfl⟩)

theorem Stocked.runAll {t : Tree} {turns : List (Turn A)} (h : Stocked A pass t)
    (hs : ∀ τ ∈ turns, τ.Sound pass) : Stocked A pass (Turn.runAll t turns) := by
  induction turns generalizing t with
  | nil => exact h
  | cons τ turns ih =>
    obtain ⟨hτ, hs⟩ := List.forall_mem_cons.1 hs
    exact ih (h.run hτ) hs

/-! ## The report of such a store -/

/-- How many key files a report counts: wrapped, and in the clear. -/
def KeyMaterial.counts : KeyMaterial → ℕ × ℕ
  | .absent => (0, 0)
  | .wrapped _ files => (files, 0)
  | .unwrapped files => (0, files)
  | .mixed marked unmarked => (marked, unmarked)

/-- Whether a file is as long as a key. -/
def inClear (t : Tree) (p : Path) : Bool := (t.lookup p).any fun f => f.content.length = 32

/-- The tally of so many blobs under a passphrase and so many bare keys. -/
def Tally.of (wrapped unwrapped : ℕ) : Tally :=
  ⟨wrapped, unwrapped, if 0 < wrapped then some .passphraseArgon2id else none, true⟩

theorem Tally.of_add_named (a b : ℕ) :
    (Tally.of a b).add (.named .passphraseArgon2id) = Tally.of (a + 1) b := by
  by_cases ha : 0 < a <;> simp [Tally.of, Tally.add, ha]

theorem Tally.of_add_absent (a b : ℕ) : (Tally.of a b).add .absent = Tally.of a (b + 1) := rfl

theorem Tally.counts_report (c : Tally) : c.report.counts = (c.wrapped, c.unwrapped) := by
  obtain ⟨_ | a, _ | b, named, one⟩ := c <;> rfl

theorem KeyMaterial.exposed_iff (m : KeyMaterial) (h : ∃ c : Tally, m = c.report) :
    m.exposed = true ↔ 0 < m.counts.2 := by
  obtain ⟨⟨_ | a, _ | b, named, one⟩, rfl⟩ := h <;> simp [Tally.report, exposed, counts]

theorem Tally.named_of_report {a b files : ℕ} {scheme : Option Scheme}
    (h : (Tally.of a b).report = .wrapped scheme files) : scheme = some .passphraseArgon2id := by
  rcases a with _ | a <;> rcases b with _ | b <;> simp_all [Tally.of, Tally.report]

theorem Stock.cases {b : Bytes} (h : Stock A pass b) :
    b.length = 32 ∧ wrappingOf b = .absent ∨
      b.length ≠ 32 ∧ wrappingOf b = .named .passphraseArgon2id := by
  cases h with
  | clear k hk => exact .inl ⟨k.length, wrappingOf_eq_absent.2 hk⟩
  | wrapped _ hb =>
    exact .inr ⟨(PassphraseWrapper.length_wrap hb).ne', PassphraseWrapper.wrappingOf_wrap hb⟩

/-- A key in the clear opens without a wrapper, and under none. -/
theorem Stock.usable {b : Bytes} (h : Stock A pass b) (hlen : b.length = 32) :
    passthrough.wrapper.Opens b ∧ ∀ w : PassphraseWrapper A, ¬ w.keyWrapper.Opens b := by
  refine ⟨⟨b, rfl, hlen⟩, ?_⟩
  cases h with
  | clear k hk =>
    rintro w ⟨k', hu, -⟩
    obtain ⟨e, he⟩ := w.unwrap_unmarked hk
    cases he.symm.trans hu
  | wrapped _ hb => exact absurd hlen (PassphraseWrapper.length_wrap hb).ne'

/-- A blob opens under the passphrase, and not without a wrapper. -/
theorem Stock.guarded (hA : A.Lawful) {b : Bytes} (h : Stock A pass b) (hlen : b.length ≠ 32) :
    ¬ passthrough.wrapper.Opens b ∧
      ∃ k : Key, ∀ w : PassphraseWrapper A, w.passphrase = pass → w.unwrap b = .ok k.bytes := by
  constructor
  · rintro ⟨k, hu, hk⟩
    obtain rfl := Except.ok.inj hu
    exact hlen hk
  · cases h with
    | clear k hk => exact absurd k.length hlen
    | @wrapped w k _ hw hb =>
      exact ⟨k, fun w' hw' => PassphraseWrapper.unwrap_wrap hA (hw'.trans hw.symm) hb⟩

/-- The key files of a stocked store are its files in the directory of the keys. -/
theorem Stocked.mem_keyFiles {t : Tree} (h : Stocked A pass t) {p : Path} :
    p ∈ keyFiles t ↔ p ∈ t ∧ [keysDir] <+: p := by
  have hmarker : ∀ s : SubjectHash, ¬ [keysDir] <+: tombstonePath s := by
    intro s hs
    exact absurd (List.cons_prefix_cons.1 hs).1 (by decide)
  have hfile : ∀ p ∈ t, [keysDir] <+: p → ∃ s e, p = [keysDir, SubjectHash.text s, Epoch.text e] := by
    intro p hp hkeys
    obtain ⟨f, hf⟩ := Tree.mem_iff_lookup.1 hp
    rcases h p f hf with ⟨s, rfl⟩ | ⟨⟨s, e, rfl⟩, -⟩
    · exact absurd hkeys (hmarker s)
    · exact ⟨s, e, rfl⟩
  simp only [keyFiles, List.mem_flatMap, List.mem_map, Tree.mem_entryNames]
  constructor
  · rintro ⟨name, -, label, ⟨q, hq, hunder, hlabel⟩, rfl⟩
    have hkeys : [keysDir] <+: q := (List.prefix_append [keysDir] [name]).trans hunder.1
    obtain ⟨s, e, rfl⟩ := hfile q hq hkeys
    have hname : name = s.text :=
      (List.cons_prefix_cons.1 (List.cons_prefix_cons.1 hunder.1).2).1
    obtain rfl : e.text = label := by simpa using hlabel
    subst hname
    exact ⟨hq, hkeys⟩
  · rintro ⟨hp, hkeys⟩
    obtain ⟨s, e, rfl⟩ := hfile p hp hkeys
    refine ⟨s.text, ⟨_, hp, ⟨hkeys, by simp⟩, rfl⟩, e.text, ⟨_, hp, ⟨?_, by simp⟩, rfl⟩, rfl⟩
    exact List.prefix_append [keysDir, s.text] [e.text]

theorem nodup_entryNames (t : Tree) (dir : Path) : (t.entryNames dir).Nodup :=
  (List.perm_insertionSort _ _).nodup_iff.2 (List.nodup_dedup _)

theorem nodup_keyFiles (t : Tree) : (keyFiles t).Nodup := by
  refine List.nodup_flatMap.2 ⟨fun name _ => ?_, ?_⟩
  · exact (nodup_entryNames _ _).map fun _ _ h => by simpa using h
  · refine (nodup_entryNames t _).imp fun hne => ?_
    simp only [Function.onFun, List.disjoint_left, List.mem_map]
    rintro _ ⟨label, -, rfl⟩ ⟨label', -, h⟩
    simp only [List.cons.injEq, true_and] at h
    exact hne h.1.symm

/-- **The key files are counted by what they are.** -/
theorem Stocked.tallied {t : Tree} (h : Stocked A pass t) :
    ∀ {ps : List Path} {a b : ℕ} {u : Tree}, (∀ p ∈ ps, p ∈ keyFiles t) →
      ps.foldlM (tallyFile t) (Tally.of a b) u =
        (.ok (Tally.of (a + ps.countP fun p => ! inClear t p) (b + ps.countP (inClear t))), u)
  | [], _, _, _, _ => rfl
  | p :: ps, a, b, u, hps => by
    obtain ⟨hp, hps⟩ := List.forall_mem_cons.1 hps
    obtain ⟨hmem, hkeys⟩ := h.mem_keyFiles.1 hp
    obtain ⟨f, hf⟩ := Tree.mem_iff_lookup.1 hmem
    have hstock : Stock A pass f.content := by
      rcases h p f hf with ⟨s, rfl⟩ | ⟨-, hstock⟩
      · exact absurd (List.cons_prefix_cons.1 hkeys).1 (by decide)
      · exact hstock
    rw [List.foldlM_cons, tallyFile, hf]
    rcases hstock.cases with ⟨hlen, hsays⟩ | ⟨hlen, hsays⟩
    · have hin : inClear t p = true := by simp [inClear, hf, hlen]
      rw [bind_of_ok (pure_apply _ u), hsays, Tally.of_add_absent, h.tallied hps]
      simp [hin, Nat.add_assoc, Nat.add_comm 1]
    · have hin : inClear t p = false := by simp [inClear, hf, hlen]
      rw [bind_of_ok (pure_apply _ u), hsays, Tally.of_add_named, h.tallied hps]
      simp [hin, Nat.add_assoc, Nat.add_comm 1]

/-- **A report that is true of the disk.** -/
structure Reported (A : WrapPrimitives) (pass : Bytes) (t : Tree) (m : KeyMaterial) : Prop where
  /-- Every key file is counted once, by whether it is a key in the clear. -/
  counted : m.counts =
    (t.keys.countP fun p => [keysDir] <+: p ∧ inClear t p = false,
      t.keys.countP fun p => [keysDir] <+: p ∧ inClear t p = true)
  exposed : m.exposed = true ↔ ∃ p ∈ t, [keysDir] <+: p ∧ inClear t p = true
  named : ∀ scheme files, m = .wrapped scheme files → scheme = some .passphraseArgon2id
  /-- A key in the clear is one to a process without a wrapper, and to no other. -/
  usable : ∀ p f, t.lookup p = some f → [keysDir] <+: p → inClear t p = true →
    passthrough.wrapper.Opens f.content ∧ ∀ w : PassphraseWrapper A, ¬ w.keyWrapper.Opens f.content
  /-- Any other is read alike by every wrapper with the passphrase. -/
  guarded : ∀ p f, t.lookup p = some f → [keysDir] <+: p → inClear t p = false →
    ¬ passthrough.wrapper.Opens f.content ∧
      ∃ k : Key, ∀ w : PassphraseWrapper A, w.passphrase = pass → w.unwrap f.content = .ok k.bytes

/-- **The report of a store is true of its disk**: after any run of sound turns, whatever
    wrappers they held, it counts each key file once, knows the keys in the clear from the
    others, and every wrapper with the passphrase reads those. -/
theorem key_material_reports (hA : A.Lawful) {turns : List (Turn A)} (hs : ∀ τ ∈ turns, τ.Sound pass) :
    ∃ m, keyMaterial (Turn.runAll ∅ turns) = (.ok m, Turn.runAll ∅ turns) ∧
      Reported A pass (Turn.runAll ∅ turns) m := by
  have h : Stocked A pass (Turn.runAll ∅ turns) := by
    refine Stocked.runAll (fun p f hp => ?_) hs
    rw [AList.lookup_empty] at hp
    cases hp
  generalize Turn.runAll ∅ turns = t at h
  have hperm : (keyFiles t).Perm (t.keys.filter fun p => [keysDir] <+: p) := by
    refine (List.perm_ext_iff_of_nodup (nodup_keyFiles t) (t.keys_nodup.filter _)).2 fun p => ?_
    simp only [h.mem_keyFiles, List.mem_filter, decide_eq_true_eq, AList.mem_keys]
  have hstock : ∀ p f, t.lookup p = some f → [keysDir] <+: p → Stock A pass f.content := by
    intro p f hf hkeys
    rcases h p f hf with ⟨s, rfl⟩ | ⟨-, hstock⟩
    · exact absurd (List.cons_prefix_cons.1 hkeys).1 (by decide)
    · exact hstock
  have hall : ∀ p ∈ keyFiles t, p ∈ keyFiles t := fun _ hp => hp
  have hrun := h.tallied (a := 0) (b := 0) (u := t) hall
  rw [hperm.countP_eq, hperm.countP_eq, List.countP_filter, List.countP_filter, Nat.zero_add,
    Nat.zero_add] at hrun
  refine ⟨_, by rw [keyMaterial, state_bind]; exact bind_of_ok hrun _, ?_⟩
  have hlen : ∀ p f, t.lookup p = some f → inClear t p = decide (f.content.length = 32) := by
    intro p f hf
    simp [inClear, hf]
  constructor
  case counted =>
    rw [Tally.counts_report, Tally.of, Prod.mk.injEq]
    constructor <;> refine List.countP_congr fun p _ => ?_ <;> simp [and_comm]
  case exposed =>
    rw [KeyMaterial.exposed_iff _ ⟨_, rfl⟩, Tally.counts_report, Tally.of, List.countP_pos_iff]
    simp [AList.mem_keys, and_comm]
  case named => exact fun scheme files => Tally.named_of_report
  case usable =>
    intro p f hf hkeys hin
    exact (hstock p f hf hkeys).usable (by simpa [hlen p f hf] using hin)
  case guarded =>
    intro p f hf hkeys hin
    exact (hstock p f hf hkeys).guarded hA (by simpa [hlen p f hf] using hin)

/-! ## A store that was fitted with a wrapper later -/

/-- Primitives under which a wrapped key is the key, the passphrase not asked. -/
def plainPrimitives : WrapPrimitives where
  unusable _ := none
  argon2 _ _ _ := .ok zeroKey
  wrapKey _ k := some k
  unwrapKey _ b := some b

def plainWrapper : PassphraseWrapper plainPrimitives :=
  ⟨[], ⟨List.replicate 16 0, rfl⟩, .default, zeroKey, rfl⟩

/-- A mint, under a wrapper or none. -/
def mintTurn (w : Option (PassphraseWrapper plainPrimitives)) (ms : ℤ) : Turn plainPrimitives :=
  ⟨w, 0, fun _ _ => none, .mint ⟨none, fun _ _ => none, none⟩ zeroKey someSubject (.containing ms)⟩

theorem key_material_reports_fitted :
    ∃ m, keyMaterial (Turn.runAll ∅ [mintTurn none 0, mintTurn (some plainWrapper) 10000000000]) =
        (.ok m, Turn.runAll ∅ [mintTurn none 0, mintTurn (some plainWrapper) 10000000000]) ∧
      Reported plainPrimitives []
        (Turn.runAll ∅ [mintTurn none 0, mintTurn (some plainWrapper) 10000000000]) m := by
  have hsound : ∀ w ms, (∀ v, w = some v → v.passphrase = []) → (mintTurn w ms).Sound [] := by
    intro w ms hw
    refine ⟨hw, fun o fresh s e hop => ?_⟩
    obtain ⟨rfl, rfl, -, -⟩ := KeyOp.mint.inj hop
    exact ⟨rfl, by decide⟩
  refine key_material_reports (fun _ _ _ h => h.symm) fun τ hτ => ?_
  rcases List.mem_pair.1 hτ with rfl | rfl
  · exact hsound _ _ fun v hv => by cases hv
  · exact hsound _ _ fun v hv => by cases hv; rfl

end Yaam.Crypto
