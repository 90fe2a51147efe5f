/-
  The file key store: one key file for each subject and epoch, one marker for each
  erased subject (`yaam-crypto`, `keystore.rs`).

  * `get`, `mint`, `destroySubject`, `destroyEpoch`, `isTombstoned` and `tombstone`
    are the store's operations over the tree at the key root;
  * `mint_keeps`: minting writes a new key file at most, so that it keeps the keys that
    stand and every marker (`mint_grown`);
  * `mint_ok`: no key is handed out for a subject with a marker.
-/
import Yaam.Lib.Effect
import Yaam.Lib.Tree
import Yaam.Crypto.Block

namespace Yaam.Crypto

open Text Contract Eff

/-- A data key or a subject key: 32 bytes. -/
structure Key where
  bytes : Bytes
  length : bytes.length = 32

theorem Key.ext_iff_bytes {k l : Key} : k.bytes = l.bytes ↔ k = l := by
  cases k
  cases l
  simp

instance : DecidableEq Key := fun _ _ => decidable_of_iff _ Key.ext_iff_bytes

theorem length_zeroKey : (List.replicate 32 (0 : UInt8)).length = 32 := by simp

/-- What protects key material at rest. -/
structure KeyWrapper where
  wrap : Bytes → Except Error Bytes
  unwrap : Bytes → Except Error Bytes

/-- Unwrapping undoes wrapping. -/
def KeyWrapper.Lawful (W : KeyWrapper) : Prop := ∀ k b, W.wrap k = .ok b → W.unwrap b = .ok k

/-- The file operations that reach for a subject's key. -/
inductive KeyIo where
  | readKey
  | createDir
  | createKey
deriving DecidableEq

/-- The key store as one operation finds it: its wrapper, the clock, and which file
    operations fail. -/
structure FsKeyStore where
  wrapper : KeyWrapper
  now : ℤ
  fault : KeyIo → SubjectHash → Option String

/-! ## Paths -/

def keysDir : Text := "keys".toList
def tombstonesDir : Text := "tombstones".toList

/-- A path component that cannot climb out of the store. -/
def safeComponent (value : Text) : Except Error Text :=
  if value = [] ∨ '/' ∈ value ∨ '\\' ∈ value ∨ Char.ofNat 0 ∈ value ∨ hasDotDot value = true then
    .error (.io s!"unsafe key store path component `{String.ofList value}`")
  else .ok value

def subjectDir (s : SubjectHash) : Path := [keysDir, s.text]

def keyPath (s : SubjectHash) (e : Epoch) : Except Error Path :=
  (safeComponent e.text).map fun label => subjectDir s ++ [label]

def tombstonePath (s : SubjectHash) : Path := [tombstonesDir, s.text]

theorem keyPath_ok {s : SubjectHash} {e : Epoch} {p : Path} (h : keyPath s e = .ok p) :
    p = subjectDir s ++ [e.text] := by
  unfold keyPath safeComponent at h
  split_ifs at h
  · cases h
  · exact (Except.ok.inj h).symm

/-- A label this build writes is a path component. -/
theorem keyPath_containing (s : SubjectHash) (ms : ℤ) :
    keyPath s (Epoch.containing ms) = .ok (subjectDir s ++ [(Epoch.containing ms).text]) := by
  have hl := (Epoch.containing ms).label
  simp only [isEpochLabel, Bool.and_eq_true, bne_iff_ne, ne_eq, decide_eq_true_eq,
    Bool.not_eq_true'] at hl
  obtain ⟨⟨⟨hne, hs⟩, hb⟩, hd⟩ := hl
  have hz : Char.ofNat 0 ∉ (Epoch.containing ms).text := fun h =>
    absurd (Epoch.mem_containing h) (by decide)
  rw [keyPath, safeComponent, if_neg (by simp [hne, hs, hb, hz, hd])]
  rfl

/-! ## Operations -/

def isTombstoned (s : SubjectHash) : Eff Tree Error Bool := do
  return decide (tombstonePath s ∈ (← state))

/-- A file operation on a subject's key, as it goes this time. -/
def FsKeyStore.io (K : FsKeyStore) (op : KeyIo) (s : SubjectHash) : Eff Tree Error Unit :=
  match K.fault op s with
  | some detail => fail (.io detail)
  | none => pure ()

/-- A subject's key for an epoch.  A subject with a marker has none, whatever file
    lingers. -/
def FsKeyStore.get (K : FsKeyStore) (s : SubjectHash) (e : Epoch) :
    Eff Tree Error (Option Bytes) := do
  if ← isTombstoned s then return none
  let path ← ofExcept (keyPath s e)
  K.io .readKey s
  match (← state).lookup path with
  | none => return none
  | some stored =>
    let key ← ofExcept (K.wrapper.unwrap stored.content)
    if key.length ≠ 32 then
      fail (.malformedBlock
        s!"subject key for `{String.ofList s.text}` unwrapped to {key.length} bytes")
    else return some key

/-- A subject's key for an epoch, made when there is none.  `fresh` is the key the
    random generator gives. -/
def FsKeyStore.mint (K : FsKeyStore) (fresh : Key) (s : SubjectHash) (e : Epoch) :
    Eff Tree Error Bytes := do
  if ← isTombstoned s then fail (.tombstoned s.text)
  else match ← K.get s e with
    | some existing => return existing
    | none =>
      K.io .createDir s
      let wrapped ← ofExcept (K.wrapper.wrap fresh.bytes)
      let path ← ofExcept (keyPath s e)
      K.io .createKey s
      if path ∈ (← state) then
        -- a concurrent mint won: its key is the one to adopt
        match ← K.get s e with
        | some key => return key
        | none => fail (.keyAbsent s.text e.text)
      else do
        change fun t => t.write path wrapped K.now
        return fresh.bytes

def destroySubject (s : SubjectHash) : Eff Tree Error Unit :=
  change fun t => t.removeDirAll (subjectDir s)

def destroyEpoch (s : SubjectHash) (e : Epoch) : Eff Tree Error Unit := do
  let path ← ofExcept (keyPath s e)
  change fun t => t.erase path

/-- Marks a subject erased; a marker already there is left as it is. -/
def FsKeyStore.tombstone (K : FsKeyStore) (s : SubjectHash) : Eff Tree Error Unit :=
  change fun t => if tombstonePath s ∈ t then t else t.write (tombstonePath s) [] K.now

/-- A name in the key store as the subject it stands for. -/
def subjectNamed (name : Text) (detail : String) : Except Error SubjectHash :=
  match SubjectHash.parse name with
  | .ok s => .ok s
  | .error _ => .error (.io s!"`{String.ofList name}` in the key store {detail}")

/-- Every subject the blocklist names, sorted. -/
def tombstonedSubjects : Eff Tree Error (List SubjectHash) := do
  ofExcept (((← state).entryNames [tombstonesDir]).mapM fun name =>
    subjectNamed name ("'s tombstones is not a subject pseudonym, so nothing can tell whose " ++
      "keys it forbids"))

/-- The epochs in one subject's directory. -/
def epochsOf (t : Tree) (dir : Text) : Except Error (List (SubjectHash × Epoch)) := do
  let s ← subjectNamed dir
    "is not a subject pseudonym, so nothing can say whose key it holds"
  (t.entryNames [keysDir, dir]).mapM fun label =>
    match Epoch.fromStored label with
    | .ok e => .ok (s, e)
    | .error _ => .error (.io (s!"`{String.ofList label}` in the key store is not an epoch " ++
        "label, so nothing can say what it retains"))

/-- Every subject and epoch the store holds a key for, sorted. -/
def keyEpochs : Eff Tree Error (List (SubjectHash × Epoch)) := do
  let t ← state
  -- a name with nothing under it is a stray file, not a subject's directory
  let dirs := (t.entryNames [keysDir]).filter fun name => t.entryNames [keysDir, name] ≠ []
  return (← ofExcept (dirs.mapM (epochsOf t))).flatten

/-- Key files of a subject anywhere under the root: files whose directory is named
    for it. -/
def keyFilesFor (t : Tree) (s : SubjectHash) : ℕ :=
  (t.keys.filter fun p => p.dropLast.getLast? = some s.text).length

/-! ## What minting can do -/

/-- One key store has every file of another and the same markers. -/
def Grown (t t' : Tree) : Prop :=
  (∀ p f, t.lookup p = some f → t'.lookup p = some f) ∧
    ∀ s, tombstonePath s ∈ t' ↔ tombstonePath s ∈ t

theorem Grown.refl (t : Tree) : Grown t t := ⟨fun _ _ h => h, fun _ => Iff.rfl⟩

theorem Grown.trans {t u v : Tree} (h : Grown t u) (k : Grown u v) : Grown t v :=
  ⟨fun p f hp => k.1 p f (h.1 p f hp), fun s => (k.2 s).trans (h.2 s)⟩

theorem tombstonePath_ne (s : SubjectHash) (p : Path) (s' : SubjectHash) :
    tombstonePath s ≠ subjectDir s' ++ p := by
  intro h
  exact absurd (List.cons.inj h).1 (by decide)

/-- Markers are in no subject's directory. -/
theorem not_under_tombstone (s s' : SubjectHash) : ¬ Tree.Under (subjectDir s) (tombstonePath s') := by
  rintro ⟨h, -⟩
  have := (List.cons_prefix_cons.1 h).1
  exact absurd this (by decide)

/-- A subject's keys are in no other subject's directory. -/
theorem not_under_keyPath {s s' : SubjectHash} {e : Epoch} {p : Path} (hs : s ≠ s')
    (hp : keyPath s' e = .ok p) : ¬ Tree.Under (subjectDir s) p := by
  rintro ⟨h, -⟩
  rw [keyPath_ok hp] at h
  have htext := (List.cons_prefix_cons.1 (List.cons_prefix_cons.1 h).2).1
  exact hs (SubjectHash.ext_text htext)

theorem grown_write {t : Tree} {s : SubjectHash} {label : Text} (bytes : Bytes) (now : ℤ)
    (h : subjectDir s ++ [label] ∉ t) : Grown t (t.write (subjectDir s ++ [label]) bytes now) := by
  constructor
  · intro p f hp
    have hne : p ≠ subjectDir s ++ [label] := by
      rintro rfl
      exact h (Tree.mem_iff_lookup.2 ⟨f, hp⟩)
    rw [Tree.write, AList.lookup_insert_ne hne, hp]
  · intro s'
    rw [Tree.write, AList.mem_insert]
    exact or_iff_right (tombstonePath_ne s' [label] s)

theorem isTombstoned_apply (s : SubjectHash) (t : Tree) :
    isTombstoned s t = (.ok (decide (tombstonePath s ∈ t)), t) := rfl

theorem FsKeyStore.io_state (K : FsKeyStore) (op : KeyIo) (s : SubjectHash) (t : Tree) :
    (K.io op s t).2 = t := by
  unfold FsKeyStore.io
  cases K.fault op s <;> rfl

/-- Reading a key changes nothing. -/
theorem FsKeyStore.get_state (K : FsKeyStore) (s : SubjectHash) (e : Epoch) (t : Tree) :
    (K.get s e t).2 = t := by
  have h : Keeps (· = t) (K.get s e) := by
    refine Keeps.bind (fun u hu => hu) fun b => ?_
    split
    · exact Keeps.pure _
    · refine (Keeps.ofExcept _).bind fun path => Keeps.bind ?_ fun _ => Keeps.bind Keeps.state fun u => ?_
      · exact fun u hu => (K.io_state _ _ u).trans hu
      · split
        · exact Keeps.pure _
        · refine (Keeps.ofExcept _).bind fun key => ?_
          split
          · exact Keeps.fail _
          · exact Keeps.pure _
  exact h t rfl

/-- A property that a new key file keeps. -/
def NewKeys (I : Tree → Prop) : Prop :=
  ∀ t s (e : Epoch) bytes now, subjectDir s ++ [e.text] ∉ t → I t →
    I (t.write (subjectDir s ++ [e.text]) bytes now)

/-- **Minting writes a new key file at most**, with what the wrapper made of the key. -/
theorem FsKeyStore.mint_keeps_of {I : Tree → Prop} (K : FsKeyStore) (fresh : Key) (s : SubjectHash)
    (e : Epoch) (hI : ∀ u bytes, K.wrapper.wrap fresh.bytes = .ok bytes →
      subjectDir s ++ [e.text] ∉ u → I u → I (u.write (subjectDir s ++ [e.text]) bytes K.now)) :
    Keeps I (K.mint fresh s e) := by
  have hget : Keeps I (K.get s e) := fun u hu => by rwa [K.get_state]
  have hio : ∀ op, Keeps I (K.io op s) := fun op u hu => by rwa [K.io_state]
  refine Keeps.bind (fun u hu => hu) fun b => ?_
  split
  · exact Keeps.fail _
  · refine hget.bind fun existing => ?_
    cases existing with
    | some key => exact Keeps.pure _
    | none =>
      refine (hio _).bind fun _ => ?_
      cases hw : K.wrapper.wrap fresh.bytes with
      | error err => exact Keeps.fail err
      | ok wrapped =>
        intro u hu
        cases hp : keyPath s e with
        | error err => exact hu
        | ok path =>
          refine Keeps.bind (hio _) (fun _ => Keeps.state_bind fun u hu => ?_) u hu
          obtain rfl := keyPath_ok hp
          split_ifs with hmem
          · refine Keeps.bind hget (fun key => ?_) u hu
            cases key with
            | some key => exact Keeps.pure _
            | none => exact Keeps.fail _
          · exact hI u wrapped hw hmem hu

theorem FsKeyStore.mint_keeps {I : Tree → Prop} (hI : NewKeys I) (K : FsKeyStore) (fresh : Key)
    (s : SubjectHash) (e : Epoch) : Keeps I (K.mint fresh s e) :=
  K.mint_keeps_of fresh s e fun u bytes _ => hI u s e bytes K.now

theorem newKeys_grown (t : Tree) : NewKeys (Grown t) := fun _ _ _ _ _ hmem hu =>
  hu.trans (grown_write _ _ hmem)

/-- Minting adds at most one key file. -/
theorem FsKeyStore.mint_grown (K : FsKeyStore) (fresh : Key) (s : SubjectHash) (e : Epoch)
    (t : Tree) : Grown t (K.mint fresh s e t).2 :=
  K.mint_keeps (newKeys_grown t) fresh s e t (Grown.refl t)

/-- **A key is only handed out for a subject without a marker.** -/
theorem FsKeyStore.mint_ok {K : FsKeyStore} {fresh : Key} {s : SubjectHash} {e : Epoch}
    {t t' : Tree} {k : Bytes} (h : K.mint fresh s e t = (.ok k, t')) : tombstonePath s ∉ t := by
  obtain ⟨b, t₁, hb, h⟩ := bind_eq_ok.1 h
  rw [isTombstoned_apply] at hb
  obtain ⟨hd, rfl⟩ := Prod.mk.inj hb
  obtain rfl := Except.ok.inj hd
  intro hm
  simp [hm] at h

end Yaam.Crypto
