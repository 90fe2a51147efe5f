/-
  Naming an erasure unit: the keyed pseudonym a subject's keys are filed under, and
  the value that says which key derived it (`yaam-crypto`, `subject.rs`).

  * `Canon.canonicalise` reduces an identifier to the form that is hashed;
  * `SubjectKey.derive` is the pseudonym of an identifier, `SubjectKey.checkValue`
    what tells one key from another;
  * `derive_hash_eq_iff`: where the HMAC does not collide, two identifiers share a
    pseudonym exactly when they share a canonical form.
-/
import Yaam.Crypto.Block

namespace Yaam.Crypto

open Text Contract

/-- Failures of naming a subject. -/
inductive SubjectError where
  | subjectIdEmpty (canonVer : UInt32)
  | subjectKeyCheckMalformed
deriving DecidableEq

def SubjectError.display : SubjectError → String
  | .subjectIdEmpty canonVer =>
    s!"a subject identifier canonicalises to nothing under canon version {canonVer}"
  | .subjectKeyCheckMalformed => "a subject-key check value must be 64 hex digits"

/-- What a pseudonym is computed with: Unicode's casing and its composed form, and
    HMAC-SHA256. -/
structure Hashing where
  casing : Casing
  nfc : Text → Text
  hmac : Bytes → Bytes → Bytes
  length_hmac : ∀ k m, (hmac k m).length = 32

/-- Composing and lowercasing make no text vanish. -/
structure Hashing.Lasting (H : Hashing) : Prop where
  nfc : ∀ t, H.nfc t = [] → t = []
  lower : ∀ t, H.casing.lower t = [] → t = []

/-! ## Canonical forms -/

/-- A versioned ruleset for reducing an identifier to the form that gets hashed. -/
inductive Canon where
  /-- Trim, NFC, lowercase, NFC again. -/
  | minimal
deriving DecidableEq

/-- The ruleset new pseudonyms are derived under. -/
def Canon.current : Canon := .minimal

def Canon.version : Canon → UInt32
  | .minimal => 1

/-- Reduces an identifier to its canonical form. -/
def Canon.canonicalise (H : Hashing) (c : Canon) (raw : Text) : Except SubjectError Text :=
  let out := match c with
    | .minimal => H.nfc (H.casing.lower (H.nfc (trim raw)))
  if out = [] then .error (.subjectIdEmpty c.version) else .ok out

/-! ## Keys and tags -/

/-- The keying secret that turns a canonical identifier into a pseudonym. -/
structure SubjectKey where
  bytes : Bytes
  length_bytes : bytes.length = 32
deriving DecidableEq

/-- A derived pseudonym and the ruleset version that produced it. -/
structure Pseudonym where
  hash : SubjectHash
  canonVer : UInt32
deriving DecidableEq

/-- What says which subject key a set of pseudonyms was derived from: 32 bytes. -/
structure KeyCheck where
  bytes : Bytes
  length_bytes : bytes.length = 32
deriving DecidableEq

def domain : Bytes := Utf8.encode "subject-pseudo:1".toList
def checkDomain : Bytes := Utf8.encode "subject-keychk:1".toList

def pseudonymPrefix : Text := "s_".toList

/-- A 32-bit number's bytes, the highest first. -/
def toBeBytes (n : UInt32) : Bytes :=
  [(n >>> 24).toUInt8, (n >>> 16).toUInt8, (n >>> 8).toUInt8, n.toUInt8]

/-- What is hashed: the domain, the version and the canonical identifier. -/
def framed (ver : UInt32) (canonical : Text) : Bytes :=
  domain ++ toBeBytes ver ++ Utf8.encode canonical

theorem length_hexEncode (bs : Bytes) : (hexEncode bs).length = 2 * bs.length := by
  induction bs with
  | nil => rfl
  | cons b bs ih =>
    rw [hexEncode, List.flatMap_cons, ← hexEncode, List.length_append, ih]
    simp only [List.length_cons, List.length_nil]
    omega

theorem hexEncode_inj {bs cs : Bytes} (h : hexEncode bs = hexEncode cs) : bs = cs := by
  have hd := congrArg hexDecode h
  simpa only [hexDecode_hexEncode, Option.some.injEq] using hd

/-- 32 bytes of lowercase hex behind an `s_`. -/
theorem isSubjectHash_tag {bs : Bytes} (h : bs.length = 32) :
    isSubjectHash (pseudonymPrefix ++ hexEncode bs) = true := by
  have hall : (hexEncode bs).all isLowerHex = true :=
    List.all_eq_true.2 fun c hc => mem_hexEncode hc
  have hlen : (pseudonymPrefix ++ hexEncode bs).length = 66 := by
    rw [List.length_append, length_hexEncode, h]
    rfl
  have hstrip : stripPrefix "s_".toList (pseudonymPrefix ++ hexEncode bs) = some (hexEncode bs) :=
    stripPrefix_append _ _
  rw [isSubjectHash, hlen, hstrip]
  simpa using hall

section
variable (H : Hashing)

/-- HMAC-SHA256 over the domain, the version and the canonical identifier. -/
def SubjectKey.tag (k : SubjectKey) (ver : UInt32) (canonical : Text) : Pseudonym where
  hash := ⟨pseudonymPrefix ++ hexEncode (H.hmac k.bytes (framed ver canonical)),
    isSubjectHash_tag (H.length_hmac _ _)⟩
  canonVer := ver

/-- Canonicalises, then derives the pseudonym. -/
def SubjectKey.derive (k : SubjectKey) (c : Canon) (raw : Text) : Except SubjectError Pseudonym := do
  let canonical ← c.canonicalise H raw
  return k.tag H c.version canonical

/-- The value that says which key this is, without saying what it is. -/
def SubjectKey.checkValue (k : SubjectKey) : KeyCheck :=
  ⟨H.hmac k.bytes checkDomain, H.length_hmac _ _⟩

end

def KeyCheck.display (v : KeyCheck) : Text := hexEncode v.bytes

/-- Reads a check value back from its hex form. -/
def KeyCheck.parse (t : Text) : Except SubjectError KeyCheck :=
  match hexDecode t with
  | none => .error .subjectKeyCheckMalformed
  | some bytes =>
    if h : bytes.length = 32 then .ok ⟨bytes, h⟩ else .error .subjectKeyCheckMalformed

@[simp] theorem KeyCheck.parse_display (v : KeyCheck) : KeyCheck.parse v.display = .ok v := by
  simp [KeyCheck.parse, KeyCheck.display, hexDecode_hexEncode, v.length_bytes]

/-! ## What shares a pseudonym -/

section
variable {H : Hashing}

theorem framed_inj {ver : UInt32} {t u : Text} (h : framed ver t = framed ver u) : t = u :=
  Utf8.encode_inj (List.append_cancel_left h)

theorem Canon.canonicalise_ok {c : Canon} {raw t : Text} (h : c.canonicalise H raw = .ok t) :
    t = H.nfc (H.casing.lower (H.nfc (trim raw))) := by
  cases c
  simp only [Canon.canonicalise] at h
  split_ifs at h
  exact (Except.ok.inj h).symm

/-- What is left of a text with more than blanks in it is something. -/
theorem Canon.exists_canonicalise (hH : H.Lasting) (c : Canon) {raw : Text} (h : trim raw ≠ []) :
    ∃ t, c.canonicalise H raw = .ok t := by
  have hne : H.nfc (H.casing.lower (H.nfc (trim raw))) ≠ [] := fun he =>
    h (hH.nfc _ (hH.lower _ (hH.nfc _ he)))
  cases c
  exact ⟨_, if_neg hne⟩

theorem derive_ok {k : SubjectKey} {c : Canon} {raw : Text} {p : Pseudonym} :
    k.derive H c raw = .ok p ↔ ∃ t, c.canonicalise H raw = .ok t ∧ p = k.tag H c.version t := by
  unfold SubjectKey.derive
  rw [bind_ok]
  simp only [pure, Except.pure, Except.ok.injEq, eq_comm]

theorem tag_hash_eq {k : SubjectKey} {ver : UInt32} {t u : Text}
    (h : (k.tag H ver t).hash = (k.tag H ver u).hash) :
    H.hmac k.bytes (framed ver t) = H.hmac k.bytes (framed ver u) := by
  have ht := congrArg SubjectHash.text h
  exact hexEncode_inj (List.append_cancel_left ht)

/-- **Two identifiers share a pseudonym exactly when they share a canonical form**,
    where the HMAC does not collide on the two. -/
theorem derive_hash_eq_iff {k : SubjectKey} {c : Canon} {raw raw' t t' : Text} {p p' : Pseudonym}
    (hmac : H.hmac k.bytes (framed c.version t) = H.hmac k.bytes (framed c.version t') →
      framed c.version t = framed c.version t')
    (ht : c.canonicalise H raw = .ok t) (ht' : c.canonicalise H raw' = .ok t')
    (hp : k.derive H c raw = .ok p) (hp' : k.derive H c raw' = .ok p') :
    p.hash = p'.hash ↔ t = t' := by
  obtain ⟨u, hu, rfl⟩ := derive_ok.1 hp
  obtain ⟨u', hu', rfl⟩ := derive_ok.1 hp'
  obtain rfl : t = u := Except.ok.inj (ht.symm.trans hu)
  obtain rfl : t' = u' := Except.ok.inj (ht'.symm.trans hu')
  constructor
  · intro h
    exact framed_inj (hmac (tag_hash_eq h))
  · rintro rfl
    rfl

end

end Yaam.Crypto
