/-
  A mint racing an erasure over one key store (`yaam-crypto`, `keystore.rs`).

  One process mints keys of a subject any number of times; the other runs the key
  half of its erasure once: the marker, then the directory's removal.  Each file
  operation is one step, and the steps of the two interleave in any order.

  * `Race.step` is one atomic step of either process; `mint_alone` says that the
    steps of a mint that nothing interleaves with are `FsKeyStore.mint`;
  * `Race.Inv` is what every step keeps, as long as the marker is not written while
    a mint stands between its first marker check and its `create_new`;
  * `safe_of_quiet`: in such a run, once both have finished no key is left and none
    was handed out late.
-/
import Yaam.Crypto.KeyStore

namespace Yaam.Crypto

open Contract Eff

/-- Where a mint stands: the file operation it makes next, for an epoch, with the
    key it would create. -/
inductive MintPc where
  | idle
  /-- The mint's own marker check. -/
  | marker (e : Epoch) (fresh : Key)
  /-- The marker check of the key lookup. -/
  | getMarker (e : Epoch) (fresh : Key)
  | read (e : Epoch) (fresh : Key)
  | createDir (e : Epoch) (fresh : Key)
  | createKey (e : Epoch) (fresh : Key)
  /-- The two steps of the lookup after another mint's key was found in place. -/
  | lostMarker (e : Epoch)
  | lostRead (e : Epoch)
deriving DecidableEq

/-- Where the erasure stands. -/
inductive EraserPc where
  | marking
  | destroying
  | done
deriving DecidableEq

/-- The two processes over the key store they share. -/
structure Race where
  tree : Tree
  /-- Whether the subject's key directory is there. -/
  dir : Bool
  mint : MintPc
  eraser : EraserPc
  /-- The last answer of a mint. -/
  answer : Option (Except Error Bytes)
  /-- The key files made while the marker stood. -/
  lateKeys : List Path
  /-- Whether a mint has answered with such a key. -/
  lateOk : Bool

/-- A step of the two processes. -/
inductive RaceStep where
  | start (e : Epoch) (fresh : Key)
  | mint
  /-- The mint's next file operation fails. -/
  | fault
  | erase
deriving DecidableEq

/-- A mint between its first marker check and its `create_new`. -/
def MintPc.Window : MintPc → Prop
  | .getMarker _ _ | .read _ _ | .createDir _ _ | .createKey _ _ => True
  | _ => False

instance : DecidablePred MintPc.Window
  | .getMarker _ _ | .read _ _ | .createDir _ _ | .createKey _ _ => isTrue trivial
  | .idle | .marker _ _ | .lostMarker _ | .lostRead _ => isFalse id

section
variable (K : FsKeyStore) (s : SubjectHash)

/-- A stored key file, opened. -/
def FsKeyStore.opened (stored : File) : Except Error Bytes := do
  let key ← K.wrapper.unwrap stored.content
  if key.length ≠ 32 then
    .error (.malformedBlock
      s!"subject key for `{String.ofList s.text}` unwrapped to {key.length} bytes")
  else .ok key

/-- The file of an epoch's key. -/
def keyFile (e : Epoch) : Path := subjectDir s ++ [e.text]

/-- A mint answers. -/
def Race.finish (c : Race) (r : Except Error Bytes) (late : Bool) : Race :=
  { c with mint := .idle, answer := some r, lateOk := c.lateOk || (r.toOption.isSome && late) }

/-- A mint answers with the key file it read. -/
def Race.finishRead (c : Race) (e : Epoch) (stored : File) : Race :=
  c.finish (K.opened s stored) (decide (keyFile s e ∈ c.lateKeys))

/-- The next file operation of a mint. -/
def Race.mintStep (c : Race) : Race :=
  match c.mint with
  | .idle => c
  | .marker e fresh =>
    if tombstonePath s ∈ c.tree then c.finish (.error (.tombstoned s.text)) false
    else { c with mint := .getMarker e fresh }
  | .getMarker e fresh =>
    -- an erased subject reads as one without a key, and the mint goes on to make one
    if tombstonePath s ∈ c.tree then { c with mint := .createDir e fresh }
    else { c with mint := .read e fresh }
  | .read e fresh =>
    match c.tree.lookup (keyFile s e) with
    | some stored => c.finishRead K s e stored
    | none => { c with mint := .createDir e fresh }
  | .createDir e fresh => { c with dir := true, mint := .createKey e fresh }
  | .createKey e fresh =>
    match K.wrapper.wrap fresh.bytes with
    | .error err => c.finish (.error err) false
    | .ok wrapped =>
      if keyFile s e ∈ c.tree then { c with mint := .lostMarker e }
      else if c.dir then
        let late := decide (tombstonePath s ∈ c.tree)
        Race.finish { c with
          tree := c.tree.write (keyFile s e) wrapped K.now
          lateKeys := if late then keyFile s e :: c.lateKeys else c.lateKeys } (.ok fresh.bytes) late
      else c.finish (.error (.io "No such file or directory (os error 2)")) false
  | .lostMarker e =>
    if tombstonePath s ∈ c.tree then c.finish (.error (.keyAbsent s.text e.text)) false
    else { c with mint := .lostRead e }
  | .lostRead e =>
    match c.tree.lookup (keyFile s e) with
    | some stored => c.finishRead K s e stored
    | none => c.finish (.error (.keyAbsent s.text e.text)) false

/-- The next step of the erasure: the marker, then the keys. -/
def Race.eraseStep (c : Race) : Race :=
  match c.eraser with
  | .marking =>
    { c with
      tree := if tombstonePath s ∈ c.tree then c.tree else c.tree.write (tombstonePath s) [] K.now
      eraser := .destroying }
  | .destroying =>
    { c with tree := c.tree.removeDirAll (subjectDir s), dir := false, lateKeys := [],
             eraser := .done }
  | .done => c

/-- One step of either process; a step that is not there to take changes nothing. -/
def Race.step (c : Race) : RaceStep → Race
  | .start e fresh => if c.mint = .idle then { c with mint := .marker e fresh } else c
  | .mint => c.mintStep K s
  | .fault =>
    if c.mint = .idle then c
    else c.finish (.error (.io "the operation failed")) false
  | .erase => c.eraseStep K s

/-- The race after a run of steps. -/
def Race.run (c : Race) (steps : List RaceStep) : Race := steps.foldl (Race.step K s) c

/-- The erasure does not write its marker while a mint stands in the window. -/
def Race.Quiet (c : Race) (a : RaceStep) : Prop :=
  a = .erase → c.eraser = .marking → ¬ c.mint.Window

instance (c : Race) (a : RaceStep) : Decidable (c.Quiet a) :=
  inferInstanceAs (Decidable (_ → _ → _))

/-- Every step of a run is quiet where it is taken. -/
def Race.QuietRun : Race → List RaceStep → Prop
  | _, [] => True
  | c, a :: as => c.Quiet a ∧ Race.QuietRun (c.step K s a) as

instance Race.decidableQuietRun : ∀ c as, Decidable (Race.QuietRun K s c as)
  | _, [] => isTrue trivial
  | c, a :: as =>
    have := Race.decidableQuietRun (c.step K s a) as
    inferInstanceAs (Decidable (_ ∧ _))

/-- Both processes at their start: no mint under way, no marker, and no key yet that
    was made late. -/
structure Race.Start (c : Race) : Prop where
  mint : c.mint = .idle
  eraser : c.eraser = .marking
  unmarked : tombstonePath s ∉ c.tree
  lateKeys : c.lateKeys = []
  lateOk : c.lateOk = false

/-- Both processes have finished. -/
def Race.Finished (c : Race) : Prop := c.mint = .idle ∧ c.eraser = .done

instance (c : Race) : Decidable c.Finished := inferInstanceAs (Decidable (_ ∧ _))

/-- No key file is left, and no mint has answered with a key made after the marker
    stood. -/
def Race.Safe (c : Race) : Prop :=
  (∀ p ∈ c.tree, ¬ Tree.Under (subjectDir s) p) ∧ c.lateOk = false

end

variable {K : FsKeyStore} {s : SubjectHash} {c : Race}

/-! ## The steps of a mint are the mint -/

/-- A key lookup in which no file operation fails. -/
theorem FsKeyStore.get_apply (hK : ∀ op s, K.fault op s = none) {e : Epoch}
    (he : keyPath s e = .ok (keyFile s e)) (t : Tree) :
    K.get s e t =
      if tombstonePath s ∈ t then (.ok none, t)
      else match t.lookup (keyFile s e) with
        | none => (.ok none, t)
        | some stored => ((K.opened s stored).map some, t) := by
  rw [FsKeyStore.get, bind_of_ok (isTombstoned_apply s t)]
  by_cases hm : tombstonePath s ∈ t
  · simp only [hm, decide_true, if_true]
    rfl
  · have hio : K.io .readKey s t = (.ok (), t) := by
      rw [FsKeyStore.io, hK]
      rfl
    simp only [hm, decide_false, Bool.false_eq_true, if_false, he, ofExcept_ok_bind, bind_of_ok hio,
      state_bind]
    cases hl : t.lookup (keyFile s e) with
    | none => rfl
    | some stored =>
      cases hu : K.wrapper.unwrap stored.content with
      | error err =>
        have ho : K.opened s stored = .error err := by rw [FsKeyStore.opened, hu]; rfl
        simp only [ho, hu, ofExcept_error_bind]
        rfl
      | ok key =>
        have ho : K.opened s stored = if key.length ≠ 32 then
            .error (.malformedBlock
              s!"subject key for `{String.ofList s.text}` unwrapped to {key.length} bytes")
          else .ok key := by rw [FsKeyStore.opened, hu]; rfl
        simp only [ho, hu, ofExcept_ok_bind]
        split_ifs
        · rfl
        · rfl

/-- **A mint that nothing interleaves with** answers what `FsKeyStore.mint` does and
    leaves the same key store. -/
theorem mint_alone (hK : ∀ op s, K.fault op s = none) {e : Epoch} {fresh : Key}
    (he : keyPath s e = .ok (keyFile s e)) (hc : c.mint = .marker e fresh) :
    (Race.run K s c (List.replicate 5 .mint)).mint = .idle ∧
    (Race.run K s c (List.replicate 5 .mint)).answer = some (K.mint fresh s e c.tree).1 ∧
    (Race.run K s c (List.replicate 5 .mint)).tree = (K.mint fresh s e c.tree).2 := by
  have hrun : Race.run K s c (List.replicate 5 .mint) = (Race.mintStep K s)^[5] c := rfl
  have hstep : ∀ n c', (Race.mintStep K s)^[n + 1] c' = (Race.mintStep K s)^[n] (c'.mintStep K s) :=
    fun n c' => Function.iterate_succ_apply _ n c'
  rw [hrun]
  by_cases hm : tombstonePath s ∈ c.tree
  · have hmint : K.mint fresh s e c.tree = (.error (.tombstoned s.text), c.tree) := by
      rw [FsKeyStore.mint, bind_of_ok (isTombstoned_apply s c.tree)]
      simp [hm]
    rw [hmint, hstep]
    simp [Race.mintStep, hc, hm, Race.finish]
  · cases hl : c.tree.lookup (keyFile s e) with
    | some stored =>
      have hget : K.get s e c.tree = ((K.opened s stored).map some, c.tree) := by
        rw [K.get_apply hK he, if_neg hm, hl]
      have hmint : K.mint fresh s e c.tree = (K.opened s stored, c.tree) := by
        rw [FsKeyStore.mint, bind_of_ok (isTombstoned_apply s c.tree)]
        cases ho : K.opened s stored with
        | ok key =>
          rw [ho] at hget
          simp [hm, bind_apply, hget, Except.map]
        | error err =>
          rw [ho] at hget
          simp [hm, bind_apply, hget, Except.map]
      rw [hmint, hstep, hstep, hstep]
      simp [Race.mintStep, hc, hm, hl, Race.finish, Race.finishRead]
    | none =>
      have hget : K.get s e c.tree = (.ok none, c.tree) := by
        rw [K.get_apply hK he, if_neg hm, hl]
      have hnot : keyFile s e ∉ c.tree := by
        rw [Tree.mem_iff_lookup, hl]
        simp
      have hio : ∀ op, K.io op s c.tree = (.ok (), c.tree) := fun op => by
        rw [FsKeyStore.io, hK]
        rfl
      cases hw : K.wrapper.wrap fresh.bytes with
      | error err =>
        have hmint : K.mint fresh s e c.tree = (.error err, c.tree) := by
          rw [FsKeyStore.mint, bind_of_ok (isTombstoned_apply s c.tree)]
          simp [hm, bind_apply, hget, hio, hw]
        rw [hmint, hstep, hstep, hstep, hstep, hstep]
        simp [Race.mintStep, hc, hm, hl, hw, Race.finish]
      | ok wrapped =>
        have hmint : K.mint fresh s e c.tree =
            (.ok fresh.bytes, c.tree.write (keyFile s e) wrapped K.now) := by
          rw [FsKeyStore.mint, bind_of_ok (isTombstoned_apply s c.tree)]
          simp [hm, bind_apply, hget, hio, hw, he, hnot]
          rfl
        rw [hmint, hstep, hstep, hstep, hstep, hstep]
        simp [Race.mintStep, hc, hm, hl, hw, hnot, Race.finish]

/-! ## The invariant -/

/-- What holds of every state that a quiet run reaches. -/
structure Race.Inv (s : SubjectHash) (c : Race) : Prop where
  marked : c.eraser = .marking ↔ tombstonePath s ∉ c.tree
  window : c.mint.Window → c.eraser = .marking
  lateKeys : c.lateKeys = []
  lateOk : c.lateOk = false
  gone : c.eraser = .done → ∀ p ∈ c.tree, ¬ Tree.Under (subjectDir s) p

theorem Race.Start.inv (h : Race.Start s c) : Race.Inv s c where
  marked := by simp [h.eraser, h.unmarked]
  window := by simp [h.mint, MintPc.Window]
  lateKeys := h.lateKeys
  lateOk := h.lateOk
  gone := by simp [h.eraser]

/-- An answer keeps the invariant when it is not a late key. -/
theorem Race.Inv.finish (h : Race.Inv s c) (r : Except Error Bytes) : Race.Inv s (c.finish r false) where
  marked := h.marked
  window := False.elim
  lateKeys := h.lateKeys
  lateOk := by simp [Race.finish, h.lateOk]
  gone := h.gone

/-- Moving on inside a mint keeps the invariant when the window is only entered
    before the marker stands. -/
theorem Race.Inv.move (h : Race.Inv s c) (pc : MintPc) (hpc : pc.Window → c.eraser = .marking) :
    Race.Inv s { c with mint := pc } where
  marked := h.marked
  window := hpc
  lateKeys := h.lateKeys
  lateOk := h.lateOk
  gone := h.gone

theorem Race.Inv.finishRead (h : Race.Inv s c) (e : Epoch) (stored : File) :
    Race.Inv s (c.finishRead K s e stored) := by
  have hlate : decide (keyFile s e ∈ c.lateKeys) = false := by simp [h.lateKeys]
  rw [Race.finishRead, hlate]
  exact h.finish _

/-- A key made before the marker keeps the invariant. -/
theorem Race.Inv.create (h : Race.Inv s c) (hmarking : c.eraser = .marking) (e : Epoch)
    (wrapped : Bytes) (now : ℤ) : Race.Inv s { c with tree := c.tree.write (keyFile s e) wrapped now } where
  marked := by
    have hne : tombstonePath s ≠ keyFile s e := tombstonePath_ne s [e.text] s
    show c.eraser = .marking ↔ tombstonePath s ∉ c.tree.write (keyFile s e) wrapped now
    rw [h.marked, Tree.write, AList.mem_insert, not_or]
    exact ⟨fun hm => ⟨hne, hm⟩, fun hm => hm.2⟩
  window := fun _ => hmarking
  lateKeys := h.lateKeys
  lateOk := h.lateOk
  gone := by simp [hmarking]

theorem Race.Inv.mintStep (h : Race.Inv s c) : Race.Inv s (c.mintStep K s) := by
  unfold Race.mintStep
  have hwin := h.window
  cases hpc : c.mint with
  | idle => exact h
  | marker e fresh =>
    dsimp only
    split_ifs with hm
    · exact h.finish _
    · exact h.move _ fun _ => h.marked.2 hm
  | getMarker e fresh =>
    have hmarking := hwin (by rw [hpc]; trivial)
    dsimp only
    rw [if_neg (h.marked.1 hmarking)]
    exact h.move _ fun _ => hmarking
  | read e fresh =>
    have hmarking := hwin (by rw [hpc]; trivial)
    dsimp only
    cases c.tree.lookup (keyFile s e) with
    | some stored => exact h.finishRead e stored
    | none => exact h.move _ fun _ => hmarking
  | createDir e fresh =>
    have hmarking := hwin (by rw [hpc]; trivial)
    have h' : Race.Inv s { c with dir := true } := ⟨h.marked, h.window, h.lateKeys, h.lateOk, h.gone⟩
    exact h'.move _ fun _ => hmarking
  | createKey e fresh =>
    have hmarking := hwin (by rw [hpc]; trivial)
    have hlate : decide (tombstonePath s ∈ c.tree) = false := by simp [h.marked.1 hmarking]
    dsimp only
    cases K.wrapper.wrap fresh.bytes with
    | error err => exact h.finish _
    | ok wrapped =>
      dsimp only
      split_ifs with hin hdir hl
      · exact h.move (.lostMarker e) False.elim
      · rw [hlate] at hl
        cases hl
      · rw [hlate]
        exact (h.create hmarking e wrapped K.now).finish _
      · exact h.finish _
  | lostMarker e =>
    dsimp only
    split_ifs
    · exact h.finish _
    · exact h.move (.lostRead e) False.elim
  | lostRead e =>
    dsimp only
    cases c.tree.lookup (keyFile s e) with
    | some stored => exact h.finishRead e stored
    | none => exact h.finish _

theorem Race.Inv.eraseStep (h : Race.Inv s c) (hquiet : c.eraser = .marking → ¬ c.mint.Window) :
    Race.Inv s (c.eraseStep K s) := by
  unfold Race.eraseStep
  cases hpc : c.eraser with
  | marking =>
    have hm := h.marked.1 hpc
    dsimp only
    rw [if_neg hm]
    refine ⟨?_, fun hw => absurd hw (hquiet hpc), h.lateKeys, h.lateOk, nofun⟩
    simp [Tree.write]
  | destroying =>
    have hm : tombstonePath s ∈ c.tree := by
      by_contra hn
      rw [h.marked.2 hn] at hpc
      cases hpc
    have hnot : ¬ Tree.Under (subjectDir s) (tombstonePath s) := by
      rintro ⟨⟨p, hp⟩, -⟩
      exact tombstonePath_ne s p s hp.symm
    refine ⟨?_, fun hw => ?_, rfl, h.lateOk, fun _ p hp => ?_⟩
    · simp only [reduceCtorEq, false_iff, not_not, Tree.mem_iff_lookup, Tree.lookup_removeDirAll]
      rw [if_neg hnot]
      exact Tree.mem_iff_lookup.1 hm
    · rw [h.window hw] at hpc
      cases hpc
    · obtain ⟨f, hf⟩ := Tree.mem_iff_lookup.1 hp
      rw [Tree.lookup_removeDirAll] at hf
      split_ifs at hf with hu
      exact hu
  | done => exact h

/-- **A quiet step keeps the invariant.** -/
theorem Race.Inv.step (h : Race.Inv s c) {a : RaceStep} (ha : c.Quiet a) :
    Race.Inv s (c.step K s a) := by
  cases a with
  | start e fresh =>
    unfold Race.step
    dsimp only
    split_ifs
    · exact h.move (.marker e fresh) False.elim
    · exact h
  | mint => exact h.mintStep
  | fault =>
    unfold Race.step
    dsimp only
    split_ifs
    · exact h
    · exact h.finish _
  | erase => exact h.eraseStep (ha rfl)

theorem Race.Inv.run (h : Race.Inv s c) {as : List RaceStep} (has : c.QuietRun K s as) :
    Race.Inv s (c.run K s as) := by
  induction as generalizing c with
  | nil => exact h
  | cons a as ih => exact ih (h.step has.1) has.2

/-- **In every run in which the marker is never written while a mint stands between
    its marker check and its `create_new`**: once both have finished, no key file is
    left and no mint has answered with a key made after the marker stood. -/
theorem safe_of_quiet (hstart : Race.Start s c) {as : List RaceStep} (has : c.QuietRun K s as)
    (hfin : (c.run K s as).Finished) : (c.run K s as).Safe s :=
  have h := hstart.inv.run has
  ⟨h.gone hfin.2, h.lateOk⟩

/-! ## Two runs -/

section Runs

/-- A key store that keeps its keys as they are. -/
def plainKeys : FsKeyStore := ⟨⟨.ok, .ok⟩, 0, fun _ _ => none⟩

/-- A subject, a quarter and a key. -/
def someSubject : SubjectHash := ⟨"s_".toList ++ List.replicate 64 '0', by decide⟩
def someEpoch : Epoch := ⟨"2026-Q3".toList, by decide⟩
def someKey : Key := ⟨List.replicate 32 0, length_zeroKey⟩

/-- A store with no keys and no markers, before either process begins. -/
def emptyRace : Race := ⟨∅, false, .idle, .marking, none, [], false⟩

theorem emptyRace_start : Race.Start someSubject emptyRace :=
  ⟨rfl, rfl, by decide, rfl, rfl⟩

/-- A whole mint, then the erasure. -/
theorem safe_of_quiet_sequential :
    (Race.run plainKeys someSubject emptyRace
      (.start someEpoch someKey :: List.replicate 5 .mint ++ [.erase, .erase])).Safe someSubject :=
  safe_of_quiet emptyRace_start (by decide) (by decide)

/-- The marker and the removal fall between the two marker checks of a mint: the
    lookup takes the erased subject for one without a key, and the mint makes one. -/
theorem overtaken_mint_unsafe :
    ¬ ∀ (K : FsKeyStore) (s : SubjectHash) (c : Race) (as : List RaceStep),
      Race.Start s c → (c.run K s as).Finished → (c.run K s as).Safe s := by
  intro h
  have hsafe := h plainKeys someSubject emptyRace
    [.start someEpoch someKey, .mint, .erase, .erase, .mint, .mint, .mint] emptyRace_start (by decide)
  have hlate := hsafe.2
  revert hlate
  decide

end Runs

end Yaam.Crypto
