/-
  A mint that fails on the way, and the mint after it (`yaam-crypto`, `keystore.rs`).

  * `mintCut` is a mint whose key file is created and then cut off after some bytes;
    `Outage` is what else can fail under it;
  * `KeyOp` is any later operation of the store; `Holds.run`: a key that is held stays
    the key until it is destroyed;
  * `Recovers` is the promise about a failed mint, `recovers_iff` when it is kept: what
    the failure left behind, if anything, has to open.
-/
import Yaam.Crypto.MintRace
import Yaam.Crypto.Unseal

namespace Yaam.Crypto

open Text Contract Eff

/-- What fails under one mint. -/
structure Outage where
  /-- The wrapper cannot answer. -/
  wrapper : Option Error
  fault : KeyIo → SubjectHash → Option String
  /-- The key file is created and its write or sync fails, after so many bytes. -/
  cut : Option ℕ

/-- The key store under an outage. -/
def FsKeyStore.during (K : FsKeyStore) (o : Outage) : FsKeyStore where
  wrapper := match o.wrapper with
    | none => K.wrapper
    | some err => ⟨fun _ => .error err, fun _ => .error err⟩
  now := K.now
  fault := o.fault

/-- A mint whose key file may be cut off. -/
def FsKeyStore.mintCut (K : FsKeyStore) (cut : Option ℕ) (fresh : Key) (s : SubjectHash) (e : Epoch) :
    Eff Tree Error Bytes := do
  if ← isTombstoned s then fail (.tombstoned s.text)
  else match ← K.get s e with
    | some existing => return existing
    | none =>
      K.io .createDir s
      let wrapped ← ofExcept (K.wrapper.wrap fresh.bytes)
      let path ← ofExcept (keyPath s e)
      K.io .createKey s
      if path ∈ (← state) then
        match ← K.get s e with
        | some key => return key
        | none => fail (.keyAbsent s.text e.text)
      else match cut with
        | none => do
          change fun t => t.write path wrapped K.now
          return fresh.bytes
        | some written => do
          -- `create_new` has made the file; nothing takes it away again
          change fun t => t.write path (wrapped.take written) K.now
          fail (.io "the key file could not be written")

theorem FsKeyStore.mintCut_none (K : FsKeyStore) (fresh : Key) (s : SubjectHash) (e : Epoch) :
    K.mintCut none fresh s e = K.mint fresh s e := rfl

/-- An operation of the key store. -/
inductive KeyOp where
  | mint (o : Outage) (fresh : Key) (s : SubjectHash) (e : Epoch)
  | get (s : SubjectHash) (e : Epoch)
  | destroyEpoch (s : SubjectHash) (e : Epoch)
  | destroySubject (s : SubjectHash)
  | tombstone (s : SubjectHash)

/-- What an operation leaves of the store. -/
def KeyOp.run (K : FsKeyStore) (t : Tree) : KeyOp → Tree
  | .mint o fresh s e => ((K.during o).mintCut o.cut fresh s e t).2
  | .get s e => (K.get s e t).2
  | .destroyEpoch s e => (Crypto.destroyEpoch s e t).2
  | .destroySubject s => (Crypto.destroySubject s t).2
  | .tombstone s => (K.tombstone s t).2

def KeyOp.runAll (K : FsKeyStore) (t : Tree) (ops : List KeyOp) : Tree := ops.foldl (KeyOp.run K) t

/-- An operation that does not destroy this key. -/
def KeyOp.Spares (s : SubjectHash) (e : Epoch) : KeyOp → Prop
  | .destroyEpoch s' e' => ¬ (s' = s ∧ e'.text = e.text)
  | .destroySubject s' => s' ≠ s
  | .tombstone s' => s' ≠ s
  | .mint _ _ _ _ | .get _ _ => True

section

variable {K : FsKeyStore} {o : Outage} {fresh : Key} {s : SubjectHash} {e : Epoch} {t t' : Tree}
  {k : Bytes} {cut : Option ℕ}

/-! ## A key that is held -/

/-- **No mint replaces a key**, however it fails. -/
theorem FsKeyStore.mintCut_grown (K : FsKeyStore) (cut : Option ℕ) (fresh : Key) (s : SubjectHash)
    (e : Epoch) (t : Tree) : Grown t (K.mintCut cut fresh s e t).2 := by
  have hget : ∀ u, Grown t u → Grown t (K.get s e u).2 := fun u hu => by rwa [K.get_state]
  have hio : ∀ op, Keeps (Grown t) (K.io op s) := fun op u hu => by rwa [K.io_state]
  have h : Keeps (Grown t) (K.mintCut cut fresh s e) := by
    refine Keeps.bind (fun u hu => hu) fun b => ?_
    split
    · exact Keeps.fail _
    · refine Keeps.bind hget fun existing => ?_
      cases existing with
      | some key => exact Keeps.pure _
      | none =>
        refine (hio _).bind fun _ => (Keeps.ofExcept _).bind fun wrapped => ?_
        intro u hu
        cases hp : keyPath s e with
        | error err => exact hu
        | ok path =>
          refine Keeps.bind (hio _) (fun _ => Keeps.state_bind fun u hu => ?_) u hu
          obtain rfl := keyPath_ok hp
          split_ifs with hmem
          · refine Keeps.bind hget (fun key => ?_) u hu
            cases key with
            | some key => exact Keeps.pure _
            | none => exact Keeps.fail _
          · cases cut with
            | none => exact hu.trans (grown_write _ _ hmem)
            | some n => exact hu.trans (grown_write _ _ hmem)
  exact h t (Grown.refl t)

theorem KeyWrapper.Holds.destroyEpoch {W : KeyWrapper} (h : W.Holds s e t k) {s' : SubjectHash}
    {e' : Epoch} (hne : ¬ (s' = s ∧ e'.text = e.text)) : W.Holds s e (Crypto.destroyEpoch s' e' t).2 k := by
  cases hp : keyPath s' e' with
  | error err =>
    have hrun : Crypto.destroyEpoch s' e' t = (.error err, t) := by
      rw [Crypto.destroyEpoch, hp]
      rfl
    rwa [hrun]
  | ok path =>
    have hrun : Crypto.destroyEpoch s' e' t = (.ok (), t.erase path) := by
      rw [Crypto.destroyEpoch, hp]
      rfl
    obtain rfl := keyPath_ok hp
    rw [hrun]
    obtain ⟨f, hf, hu⟩ := h.file
    have hother : subjectDir s ++ [e.text] ≠ subjectDir s' ++ [e'.text] := by
      intro heq
      simp only [subjectDir, List.cons_append, List.nil_append, List.cons.injEq, and_true, true_and] at heq
      exact hne ⟨SubjectHash.ext_text heq.1.symm, heq.2.symm⟩
    exact ⟨fun hm => h.unmarked (AList.mem_erase.1 hm).2, h.path, h.length, f,
      by rw [AList.lookup_erase_ne hother, hf], hu⟩

/-- A key that is held survives an operation that does not destroy it. -/
theorem KeyWrapper.Holds.run {W : KeyWrapper} (h : W.Holds s e t k) {op : KeyOp} (hop : op.Spares s e) :
    W.Holds s e (op.run K t) k := by
  cases op with
  | mint o fresh s' e' => exact h.grown ((K.during o).mintCut_grown _ _ _ _ _)
  | get s' e' => rwa [KeyOp.run, K.get_state]
  | destroyEpoch s' e' => exact h.destroyEpoch hop
  | destroySubject s' => exact h.destroyed hop.symm
  | tombstone s' => exact h.tombstoned hop.symm

theorem KeyWrapper.Holds.runAll {W : KeyWrapper} {ops : List KeyOp} (h : W.Holds s e t k)
    (hops : ∀ op ∈ ops, op.Spares s e) : W.Holds s e (KeyOp.runAll K t ops) k := by
  induction ops generalizing t with
  | nil => exact h
  | cons op ops ih =>
    obtain ⟨hop, hops⟩ := List.forall_mem_cons.1 hops
    exact ih (h.run hop) hops

/-- A key that is held is what a mint answers. -/
theorem KeyWrapper.Holds.mint (h : K.wrapper.Holds s e t k) (hread : K.fault .readKey s = none)
    (fresh : Key) : K.mint fresh s e t = (.ok k, t) := by
  rw [FsKeyStore.mint, bind_of_ok (isTombstoned_apply s t)]
  simp only [h.unmarked, decide_false, Bool.false_eq_true, if_false]
  rw [bind_of_ok (h.get hread)]
  rfl

/-! ## A mint that failed, and the one after it -/

/-- Stored bytes that unwrap to a key. -/
def KeyWrapper.Opens (W : KeyWrapper) (bytes : Bytes) : Prop := ∃ k, W.unwrap bytes = .ok k ∧ k.length = 32

/-- **What a failed mint promises.** -/
structure Recovers (K : FsKeyStore) (o : Outage) (fresh : Key) (s : SubjectHash) (e : Epoch) (t : Tree) :
    Prop where
  /-- The next mint answers with a key, and every mint and lookup after it with the same
      one until it is destroyed. -/
  retried : ∀ err t', (K.during o).mintCut o.cut fresh s e t = (.error err, t') → ∀ again,
    ∃ k t'', K.mint again s e t' = (.ok k, t'') ∧ k.length = 32 ∧
      ∀ ops, (∀ op ∈ ops, op.Spares s e) →
        K.get s e (KeyOp.runAll K t'' ops) = (.ok (some k), KeyOp.runAll K t'' ops) ∧
        ∀ later, K.mint later s e (KeyOp.runAll K t'' ops) = (.ok k, KeyOp.runAll K t'' ops)
  /-- No key file is replaced. -/
  kept : ∀ p f, t.lookup p = some f → ((K.during o).mintCut o.cut fresh s e t).2.lookup p = some f

/-- What stands for the key opens, and so does what a cut write leaves behind. -/
structure Mendable (K : FsKeyStore) (o : Outage) (fresh : Key) (s : SubjectHash) (e : Epoch) (t : Tree) :
    Prop where
  standing : ∀ f, t.lookup (keyFile s e) = some f → K.wrapper.Opens f.content
  left : t.lookup (keyFile s e) = none → o.wrapper = none → (∀ op, o.fault op s = none) →
    ∀ written b, o.cut = some written → K.wrapper.wrap fresh.bytes = .ok b →
      K.wrapper.Opens (b.take written)

theorem FsKeyStore.opens_of_during {bytes : Bytes} (h : (K.during o).wrapper.Opens bytes) :
    K.wrapper.Opens bytes := by
  obtain ⟨k, hu, hlen⟩ := h
  unfold FsKeyStore.during at hu
  cases ho : o.wrapper with
  | none =>
    rw [ho] at hu
    exact ⟨k, hu, hlen⟩
  | some err =>
    rw [ho] at hu
    cases hu

/-- A lookup where a file stands does not miss it. -/
theorem FsKeyStore.get_ne_none {f : File} (hpath : keyPath s e = .ok (keyFile s e))
    (hmark : tombstonePath s ∉ t) (hf : t.lookup (keyFile s e) = some f) :
    K.get s e t ≠ (.ok none, t') := by
  intro h
  rw [FsKeyStore.get, bind_of_ok (isTombstoned_apply s t)] at h
  simp only [hmark, decide_false, Bool.false_eq_true, if_false, hpath, ofExcept_ok_bind] at h
  obtain ⟨u, t₁, hio, h⟩ := bind_eq_ok.1 h
  obtain rfl : t = t₁ := (K.io_state .readKey s t).symm.trans (congrArg Prod.snd hio)
  rw [state_bind, hf] at h
  obtain ⟨key, t₂, -, h⟩ := bind_eq_ok.1 h
  split_ifs at h
  · exact absurd h fail_ne_ok
  · obtain ⟨hk, -⟩ := pure_eq_ok.1 h
    cases hk

/-- A mint where a file stands fails, or the file opens. -/
theorem FsKeyStore.mintCut_standing (K : FsKeyStore) (cut : Option ℕ) (fresh : Key) {f : File} (hpath : keyPath s e = .ok (keyFile s e))
    (hmark : tombstonePath s ∉ t) (hf : t.lookup (keyFile s e) = some f) :
    (∃ err, K.mintCut cut fresh s e t = (.error err, t)) ∨
      K.wrapper.Opens f.content ∧ ∃ k, K.mintCut cut fresh s e t = (.ok k, t) := by
  have hstate := K.get_state s e t
  rw [FsKeyStore.mintCut, bind_of_ok (isTombstoned_apply s t)]
  simp only [hmark, decide_false, Bool.false_eq_true, if_false]
  rcases hget : K.get s e t with ⟨_ | existing, t₁⟩
  · rw [hget] at hstate
    exact .inl ⟨_, by rw [bind_of_error hget, ← hstate]⟩
  · rw [hget] at hstate
    obtain rfl : t₁ = t := hstate
    cases existing with
    | none => exact absurd hget (K.get_ne_none hpath hmark hf)
    | some k =>
      obtain ⟨g, hg, hu⟩ := (FsKeyStore.get_holds hget).file
      obtain rfl := Option.some.inj (hf.symm.trans hg)
      exact .inr ⟨⟨k, hu, (FsKeyStore.get_holds hget).length⟩, k, by rw [bind_of_ok hget]; rfl⟩

/-- A file operation succeeds or stops what it is part of. -/
theorem FsKeyStore.io_cases (K : FsKeyStore) (op : KeyIo) (s : SubjectHash) (t : Tree) :
    K.fault op s = none ∧ K.io op s t = (.ok (), t) ∨ ∃ err, K.io op s t = (.error err, t) := by
  unfold FsKeyStore.io
  cases hop : K.fault op s with
  | none => exact .inl ⟨rfl, rfl⟩
  | some detail => exact .inr ⟨_, rfl⟩

/-- A mint where no file stands, and nothing fails before the write. -/
theorem FsKeyStore.mintCut_absent (K : FsKeyStore) (cut : Option ℕ) (fresh : Key) {b : Bytes} (hpath : keyPath s e = .ok (keyFile s e))
    (hmark : tombstonePath s ∉ t) (hnone : t.lookup (keyFile s e) = none)
    (hcalm : ∀ op, K.fault op s = none) (hwrap : K.wrapper.wrap fresh.bytes = .ok b) :
    K.mintCut cut fresh s e t = match cut with
      | none => (.ok fresh.bytes, t.write (keyFile s e) b K.now)
      | some written => (.error (.io "the key file could not be written"),
          t.write (keyFile s e) (b.take written) K.now) := by
  have hfree : keyFile s e ∉ t := by
    rw [Tree.mem_iff_lookup, hnone]
    simp
  have hio : ∀ op, K.io op s t = (.ok (), t) := fun op => by rw [FsKeyStore.io, hcalm op]; rfl
  rw [FsKeyStore.mintCut, bind_of_ok (isTombstoned_apply s t)]
  simp only [hmark, decide_false, Bool.false_eq_true, if_false]
  rw [bind_of_ok (FsKeyStore.get_of_absent hpath (hcalm _) hnone)]
  dsimp only
  rw [bind_of_ok (hio _), hwrap, ofExcept_ok_bind, hpath, ofExcept_ok_bind, bind_of_ok (hio _), state_bind,
    if_neg hfree]
  cases cut <;> rfl

/-- A mint where no file stands, and something fails before the write: nothing is left. -/
theorem FsKeyStore.mintCut_stopped (K : FsKeyStore) (cut : Option ℕ) (fresh : Key)
    (hpath : keyPath s e = .ok (keyFile s e))
    (hmark : tombstonePath s ∉ t) (hnone : t.lookup (keyFile s e) = none)
    (hstop : ¬ ((∀ op, K.fault op s = none) ∧ ∃ b, K.wrapper.wrap fresh.bytes = .ok b)) :
    ∃ err, K.mintCut cut fresh s e t = (.error err, t) := by
  rw [FsKeyStore.mintCut, bind_of_ok (isTombstoned_apply s t)]
  simp only [hmark, decide_false, Bool.false_eq_true, if_false]
  rcases K.io_cases .readKey s t with ⟨hread, -⟩ | ⟨err, hread⟩
  swap
  · refine ⟨err, bind_of_error ?_ _⟩
    rw [FsKeyStore.get, bind_of_ok (isTombstoned_apply s t)]
    simp only [hmark, decide_false, Bool.false_eq_true, if_false, hpath, ofExcept_ok_bind]
    exact bind_of_error hread _
  rw [bind_of_ok (FsKeyStore.get_of_absent hpath hread hnone)]
  dsimp only
  rcases K.io_cases .createDir s t with ⟨hdir, hio⟩ | ⟨err, hio⟩
  swap
  · exact ⟨err, bind_of_error hio _⟩
  rw [bind_of_ok hio]
  cases hwrap : K.wrapper.wrap fresh.bytes with
  | error err => exact ⟨err, rfl⟩
  | ok b =>
    rw [ofExcept_ok_bind, hpath, ofExcept_ok_bind]
    rcases K.io_cases .createKey s t with ⟨hkey, -⟩ | ⟨err, hio⟩
    · refine absurd ⟨fun op => ?_, b, hwrap⟩ hstop
      cases op with
      | readKey => exact hread
      | createDir => exact hdir
      | createKey => exact hkey
    · exact ⟨err, bind_of_error hio _⟩

/-- Where what stands opens, a mint answers with a key the store then holds. -/
theorem FsKeyStore.mint_of_opens (hcalm : ∀ op s, K.fault op s = none) (hW : K.wrapper.Lawful)
    (hwrap : ∀ k : Key, ∃ b, K.wrapper.wrap k.bytes = .ok b) (hpath : keyPath s e = .ok (keyFile s e))
    (hmark : tombstonePath s ∉ t) (h : ∀ f, t.lookup (keyFile s e) = some f → K.wrapper.Opens f.content)
    (fresh : Key) : ∃ k t', K.mint fresh s e t = (.ok k, t') ∧ K.wrapper.Holds s e t' k := by
  cases hf : t.lookup (keyFile s e) with
  | some f =>
    obtain ⟨k, hu, hlen⟩ := h f hf
    have hholds : K.wrapper.Holds s e t k := ⟨hmark, hpath, hlen, f, hf, hu⟩
    exact ⟨k, t, hholds.mint (hcalm _ _) fresh, hholds⟩
  | none =>
    obtain ⟨b, hb⟩ := hwrap fresh
    have hrun : K.mint fresh s e t = (.ok fresh.bytes, t.write (keyFile s e) b K.now) := by
      rw [← K.mintCut_none, K.mintCut_absent none fresh hpath hmark hf (fun op => hcalm op s) hb]
    exact ⟨fresh.bytes, _, hrun, FsKeyStore.mint_holds hW hrun⟩

/-- A mint where what stands does not open gives no key. -/
theorem FsKeyStore.mint_of_spoiled {f : File} (hW : K.wrapper.Lawful)
    (hf : t.lookup (keyFile s e) = some f) (hno : ¬ K.wrapper.Opens f.content) :
    K.mint fresh s e t ≠ (.ok k, t') := by
  intro h
  obtain ⟨g, hg, hu⟩ := (FsKeyStore.mint_holds hW h).file
  have hgrown := (K.mint_grown fresh s e t).1 _ f hf
  rw [h] at hgrown
  obtain rfl := Option.some.inj (hgrown.symm.trans hg)
  exact hno ⟨k, hu, (FsKeyStore.mint_holds hW h).length⟩

/-- A marker does not appear where a key file is written. -/
theorem unmarked_write (hmark : tombstonePath s ∉ t) (bytes : Bytes) (now : ℤ) :
    tombstonePath s ∉ t.write (keyFile s e) bytes now := by
  rw [Tree.write, AList.mem_insert, not_or]
  exact ⟨tombstonePath_ne s [e.text] s, hmark⟩

/-- **A failed mint is recovered from exactly when what stands for the key opens**, and
    what a cut write leaves behind does. -/
theorem recovers_iff (K : FsKeyStore) (hcalm : ∀ op s, K.fault op s = none) (hW : K.wrapper.Lawful)
    (hwrap : ∀ k : Key, ∃ b, K.wrapper.wrap k.bytes = .ok b) (o : Outage) (fresh : Key) (s : SubjectHash)
    (e : Epoch) (hpath : keyPath s e = .ok (keyFile s e)) (t : Tree) (hmark : tombstonePath s ∉ t) :
    Recovers K o fresh s e t ↔ Mendable K o fresh s e t := by
  constructor
  · intro h
    constructor
    · intro f hf
      by_contra hno
      rcases (K.during o).mintCut_standing o.cut fresh hpath hmark hf with
        ⟨err, herr⟩ | ⟨hopens, -⟩
      · obtain ⟨k, t'', hrun, -⟩ := h.retried err t herr fresh
        exact FsKeyStore.mint_of_spoiled hW hf hno hrun
      · exact hno (K.opens_of_during hopens)
    · intro hnone ho hfaults written b hcut hb
      by_contra hno
      have hb' : (K.during o).wrapper.wrap fresh.bytes = .ok b := by
        rw [FsKeyStore.during, ho]
        exact hb
      have hrun := (K.during o).mintCut_absent o.cut fresh hpath hmark hnone hfaults hb'
      rw [hcut] at hrun
      obtain ⟨k, t'', hretry, -⟩ := h.retried _ _ (by rw [hcut]; exact hrun) fresh
      exact FsKeyStore.mint_of_spoiled hW (AList.lookup_insert _) hno hretry
  · intro h
    refine ⟨fun err t' hrun again => ?_, ((K.during o).mintCut_grown o.cut fresh s e t).1⟩
    obtain ⟨hmark', hopens⟩ : tombstonePath s ∉ t' ∧
        ∀ f, t'.lookup (keyFile s e) = some f → K.wrapper.Opens f.content := by
      cases hf : t.lookup (keyFile s e) with
      | some f =>
        rcases (K.during o).mintCut_standing o.cut fresh hpath hmark hf with
          ⟨err', herr⟩ | ⟨-, k, hok⟩
        · obtain ⟨-, rfl⟩ := Prod.mk.inj (herr.symm.trans hrun)
          exact ⟨hmark, h.standing⟩
        · cases hok.symm.trans hrun
      | none =>
        by_cases hgo : (∀ op, (K.during o).fault op s = none) ∧
            ∃ b, (K.during o).wrapper.wrap fresh.bytes = .ok b
        · obtain ⟨hfaults, b, hb⟩ := hgo
          have hreached := (K.during o).mintCut_absent o.cut fresh hpath hmark hf hfaults hb
          cases hcut : o.cut with
          | none =>
            rw [hcut] at hreached hrun
            cases hreached.symm.trans hrun
          | some written =>
            rw [hcut] at hreached hrun
            obtain ⟨-, rfl⟩ := Prod.mk.inj (hreached.symm.trans hrun)
            refine ⟨unmarked_write hmark _ _, fun f hlook => ?_⟩
            rw [Tree.write, AList.lookup_insert] at hlook
            obtain rfl := Option.some.inj hlook
            have hup : o.wrapper = none ∧ K.wrapper.wrap fresh.bytes = .ok b := by
              unfold FsKeyStore.during at hb
              cases ho : o.wrapper with
              | none =>
                rw [ho] at hb
                exact ⟨rfl, hb⟩
              | some err =>
                rw [ho] at hb
                cases hb
            exact h.left hf hup.1 hfaults written b hcut hup.2
        · obtain ⟨err', herr⟩ := (K.during o).mintCut_stopped o.cut fresh hpath hmark hf hgo
          obtain ⟨-, rfl⟩ := Prod.mk.inj (herr.symm.trans hrun)
          exact ⟨hmark, h.standing⟩
    obtain ⟨k, t'', hmint, hholds⟩ := FsKeyStore.mint_of_opens hcalm hW hwrap hpath hmark' hopens again
    refine ⟨k, t'', hmint, hholds.length, fun ops hops => ?_⟩
    have hlater := hholds.runAll (K := K) hops
    exact ⟨hlater.get (hcalm _ _), fun later => hlater.mint (hcalm _ _) later⟩

end

/-! ## The development wrapper -/

/-- A store whose key files are the keys. -/
def passthrough : FsKeyStore := ⟨⟨.ok, .ok⟩, 0, fun _ _ => none⟩

/-- A disk that fills up after so many bytes of the key file. -/
def fullDisk (written : ℕ) : Outage := ⟨none, fun _ _ => none, some written⟩

theorem passthrough_lawful : passthrough.wrapper.Lawful := fun _ _ h => h.symm

/-- A sync that fails after the whole key was written costs nothing. -/
theorem recovers_whole_key :
    Recovers passthrough (fullDisk 32) someKey someSubject (Epoch.containing 0) ∅ := by
  refine (recovers_iff passthrough (fun _ _ => rfl) passthrough_lawful (fun k => ⟨k.bytes, rfl⟩) _ _ _ _
    (keyPath_containing _ _) ∅ (AList.notMem_empty _)).2 ⟨fun f hf => ?_, fun _ _ _ written b hcut hb => ?_⟩
  · rw [AList.lookup_empty] at hf
    cases hf
  · obtain rfl := Option.some.inj hcut
    obtain rfl := Except.ok.inj hb
    exact ⟨_, rfl, by rw [List.length_take, someKey.length]; rfl⟩

/-- **Half a key is never got rid of**: no mint of that subject and quarter succeeds
    again. -/
theorem half_key_spoils :
    ¬ Recovers passthrough (fullDisk 16) someKey someSubject (Epoch.containing 0) ∅ := by
  intro h
  have hpath := keyPath_containing someSubject 0
  have hrun := (passthrough.during (fullDisk 16)).mintCut_absent (some 16) someKey
    (b := someKey.bytes) hpath (AList.notMem_empty _) (AList.lookup_empty _) (fun _ => rfl) rfl
  obtain ⟨k, t'', hretry, -⟩ := h.retried _ _ hrun someKey
  refine FsKeyStore.mint_of_spoiled passthrough_lawful (AList.lookup_insert _) ?_ hretry
  rintro ⟨k, hu, hlen⟩
  obtain rfl := Except.ok.inj hu
  rw [List.length_take, someKey.length] at hlen
  omega

end Yaam.Crypto
