/-
  Sealing a body under its subjects' keys (`yaam-crypto`, `seal.rs`).

  * `canonicalSubjects`, `split` and `derive` make the data key and its shares;
    `seal` encrypts the body and wraps each share under its subject's key;
  * `Ciphers` is what of the cryptographic libraries this rests on, `Draws` what
    the random generator gives one sealing;
  * `seal_ok`: a sealed body carries one share for each subject, in order, none of
    them erased; `seal_grown`: sealing only adds key files.
-/
import Yaam.Crypto.KeyStore

namespace Yaam.Crypto

open Text Contract Eff

/-- The primitives sealing uses, each total on the lengths it is called with. -/
structure Ciphers where
  /-- SHA-256. -/
  sha256 : Bytes → Bytes
  /-- HKDF-SHA256 of a salt, a key and an info string, to 32 bytes. -/
  hkdf : Bytes → Bytes → Bytes → Key
  /-- AES-256-GCM of a key, a nonce, associated data and a plaintext. -/
  gcm : Key → Nonce → Bytes → Bytes → Bytes
  /-- AES-256 key wrap of a share under a subject key. -/
  keyWrap : Key → Bytes → Bytes

/-- What the random generator gives one sealing: the root key, a share for each
    leading subject, the nonce, and a key for each subject that has none. -/
structure Draws where
  root : Key
  pad : SubjectHash → Key
  nonce : Nonce
  fresh : SubjectHash → Key

/-- One subject's bare share of a data key. -/
structure BareShare where
  subject : SubjectHash
  bytes : Bytes

/-- Sorts a subject set and refuses duplicates. -/
def canonicalSubjects (subjects : List SubjectHash) : Except Error (List SubjectHash) :=
  if subjects = [] then .error (.shareCount 1 0)
  else
    let sorted := subjects.insertionSort fun a b => a.text ≤ b.text
    if sorted.dedup.length ≠ sorted.length then
      .error (.shareCount sorted.dedup.length sorted.length)
    else .ok sorted

def xor (a b : Bytes) : Bytes := a.zipWith (· ^^^ ·) b

/-- Splits a root key into one share per subject: the last carries what the others
    leave of it. -/
def split (pad : SubjectHash → Key) (remainder : Bytes) : List SubjectHash → List BareShare
  | [] => []
  | [s] => [⟨s, remainder⟩]
  | s :: subjects => ⟨s, (pad s).bytes⟩ :: split pad (xor remainder (pad s).bytes) subjects

def ascii (t : String) : Bytes := Utf8.encode t.toList

section
variable (C : Ciphers)

def subjectDigest (subjects : List SubjectHash) : Bytes :=
  C.sha256 (subjects.flatMap fun s => Utf8.encode s.text ++ [10])

def dekInfo (record : RecordId) (subjects : List SubjectHash) : Bytes :=
  ascii "yaam/dek/v1" ++ 0 :: Utf8.encode record.text ++ 0 :: subjectDigest C subjects

def associatedData (record : RecordId) (subjects : List SubjectHash) : Bytes :=
  Utf8.encode record.text ++ 0 :: Utf8.encode formatVersion ++ 0 :: subjectDigest C subjects

/-- The data key of a record, from every share. -/
def derive (record : RecordId) (shares : List BareShare) : Except Error Key := do
  let subjects ← canonicalSubjects (shares.map (·.subject))
  let combined := shares.foldl (fun acc s => xor acc s.bytes) (List.replicate 32 0)
  .ok (C.hkdf (ascii "yaam/dek/v1/salt") combined (dekInfo C record subjects))

def wrapShare (kek share : Bytes) : Except Error Bytes :=
  if h : kek.length = 32 then .ok (C.keyWrap ⟨kek, h⟩ share)
  else .error (.malformedBlock "subject key is not 32 bytes")

/-- One share, wrapped under its subject's key. -/
def sealShare (K : FsKeyStore) (d : Draws) (epoch : Epoch) (share : BareShare) :
    Eff Tree Error WrappedShare := do
  let kek ← K.mint (d.fresh share.subject) share.subject epoch
  let bytes ← ofExcept (wrapShare C kek share.bytes)
  return ⟨share.subject, bytes⟩

/-- Wraps the shares in order. -/
def sealShares (K : FsKeyStore) (d : Draws) (epoch : Epoch) :
    List BareShare → Eff Tree Error (List WrappedShare)
  | [] => return []
  | share :: shares => do
    let w ← sealShare C K d epoch share
    let ws ← sealShares K d epoch shares
    return w :: ws

/-- Seals a body, wrapping each share under its subject's key for the epoch. -/
def «seal» (K : FsKeyStore) (d : Draws) (record : RecordId) (subjects : List SubjectHash)
    (epoch : Epoch) (plaintext : Bytes) : Eff Tree Error SealedBody := do
  let subjects ← ofExcept (canonicalSubjects subjects)
  let bare := split d.pad d.root.bytes subjects
  let dek ← ofExcept (derive C record bare)
  let ciphertext := C.gcm dek d.nonce (associatedData C record subjects) plaintext
  let shares ← sealShares C K d epoch bare
  return { nonce := d.nonce, epoch, shares, ciphertext }

end

/-! ## What a sealing gives -/

theorem canonicalSubjects_ok {ss ts : List SubjectHash} (h : canonicalSubjects ss = .ok ts) :
    ts = ss.insertionSort (fun a b => a.text ≤ b.text) ∧ ts ≠ [] ∧ ts.Nodup := by
  unfold canonicalSubjects at h
  by_cases h1 : ss = []
  · simp [h1] at h
  rw [if_neg h1] at h
  dsimp only at h
  split_ifs at h with h2
  cases h
  refine ⟨rfl, ?_, ?_⟩
  · intro hn
    have := (List.perm_insertionSort (fun a b : SubjectHash => a.text ≤ b.text) ss).length_eq
    rw [hn] at this
    exact h1 (List.length_eq_zero_iff.1 this.symm)
  · rw [not_not] at h2
    exact List.dedup_eq_self.1 ((List.dedup_sublist _).eq_of_length h2)

theorem canonicalSubjects_singleton (s : SubjectHash) : canonicalSubjects [s] = .ok [s] := rfl

theorem map_subject_split (pad : SubjectHash → Key) :
    ∀ (r : Bytes) (ss : List SubjectHash), (split pad r ss).map (·.subject) = ss
  | _, [] => rfl
  | _, [_] => rfl
  | _, s :: t :: ss => by rw [split, List.map_cons, map_subject_split pad _ (t :: ss)]; simp

variable {C : Ciphers} {K : FsKeyStore} {d : Draws} {epoch : Epoch}

/-- A property that a new key file keeps is kept by sealing a share. -/
theorem sealShare_keeps {I : Tree → Prop} (hI : NewKeys I) (share : BareShare) :
    Keeps I (sealShare C K d epoch share) :=
  (K.mint_keeps hI _ _ _).bind fun _ => (Keeps.ofExcept _).bind fun _ => Keeps.pure _

theorem sealShares_keeps {I : Tree → Prop} (hI : NewKeys I) (shares : List BareShare) :
    Keeps I (sealShares C K d epoch shares) := by
  induction shares with
  | nil => exact Keeps.pure _
  | cons share shares ih =>
    exact (sealShare_keeps hI share).bind fun _ => ih.bind fun _ => Keeps.pure _

/-- **Sealing writes new key files only.** -/
theorem seal_keeps {I : Tree → Prop} (hI : NewKeys I) (record : RecordId)
    (subjects : List SubjectHash) (body : Bytes) : Keeps I («seal» C K d record subjects epoch body) :=
  (Keeps.ofExcept _).bind fun _ => (Keeps.ofExcept _).bind fun _ =>
    (sealShares_keeps hI _).bind fun _ => Keeps.pure _

theorem sealShare_grown (share : BareShare) (t : Tree) :
    Grown t (sealShare C K d epoch share t).2 :=
  sealShare_keeps (newKeys_grown t) share t (Grown.refl t)

theorem sealShares_grown (shares : List BareShare) (t : Tree) :
    Grown t (sealShares C K d epoch shares t).2 :=
  sealShares_keeps (newKeys_grown t) shares t (Grown.refl t)

/-- Sealing only adds key files. -/
theorem seal_grown (record : RecordId) (subjects : List SubjectHash) (body : Bytes) (t : Tree) :
    Grown t («seal» C K d record subjects epoch body t).2 :=
  seal_keeps (newKeys_grown t) record subjects body t (Grown.refl t)

theorem sealShares_ok {shares : List BareShare} {t t' : Tree} {ws : List WrappedShare}
    (h : sealShares C K d epoch shares t = (.ok ws, t')) :
    ws.map (·.subject) = shares.map (·.subject) ∧
      ∀ s ∈ shares.map (·.subject), tombstonePath s ∉ t := by
  induction shares generalizing t t' ws with
  | nil =>
    obtain ⟨hw, -⟩ := Prod.mk.inj h
    obtain rfl := Except.ok.inj hw
    simp
  | cons share shares ih =>
    obtain ⟨w, t₁, hw, h⟩ := bind_eq_ok.1 h
    obtain ⟨ws', t₂, hws, h⟩ := bind_eq_ok.1 h
    obtain ⟨hr, -⟩ := Prod.mk.inj h
    obtain rfl := Except.ok.inj hr
    have hgrown : Grown t (sealShare C K d epoch share t).2 := sealShare_grown share t
    rw [hw] at hgrown
    obtain ⟨kek, t₃, hk, hw⟩ := bind_eq_ok.1 hw
    obtain ⟨bytes, t₄, -, hw⟩ := bind_eq_ok.1 hw
    obtain ⟨hr, -⟩ := Prod.mk.inj hw
    obtain rfl := Except.ok.inj hr
    obtain ⟨h1, h2⟩ := ih hws
    refine ⟨by simp [h1], ?_⟩
    intro s hs
    rw [List.map_cons, List.mem_cons] at hs
    rcases hs with rfl | hs
    · exact FsKeyStore.mint_ok hk
    · exact fun hm => h2 s hs ((hgrown.2 s).2 hm)

/-- **A sealed body carries one share for each subject, and none of them is erased.** -/
theorem seal_ok {record : RecordId} {subjects : List SubjectHash} {body : Bytes} {t t' : Tree}
    {b : SealedBody} (h : «seal» C K d record subjects epoch body t = (.ok b, t')) :
    b.epoch = epoch ∧
      b.shares.map (·.subject) = subjects.insertionSort (fun a b => a.text ≤ b.text) ∧
      b.shares ≠ [] ∧ ∀ s ∈ subjects, tombstonePath s ∉ t := by
  obtain ⟨ss, t₁, hs, h⟩ := bind_eq_ok.1 h
  obtain ⟨hss, rfl⟩ := ofExcept_eq_ok.1 hs
  obtain ⟨dek, t₂, hd, h⟩ := bind_eq_ok.1 h
  obtain ⟨-, rfl⟩ := ofExcept_eq_ok.1 hd
  obtain ⟨ws, t₃, hw, h⟩ := bind_eq_ok.1 h
  obtain ⟨hr, -⟩ := Prod.mk.inj h
  obtain rfl := Except.ok.inj hr
  obtain ⟨hsort, hne, -⟩ := canonicalSubjects_ok hss
  obtain ⟨h1, h2⟩ := sealShares_ok hw
  rw [map_subject_split] at h1 h2
  refine ⟨rfl, h1.trans hsort, ?_, fun s hmem => h2 s ?_⟩
  · rintro rfl
    exact hne h1.symm
  · rw [hsort, List.mem_insertionSort]
    exact hmem

end Yaam.Crypto
