/-
  Completed attestations over runs of erasures, rebuilds, confirmations and key-store
  restores, any of which a crash may cut short.

  * `Pass` is one of them and how many of its steps are made, `trace` every state of the
    key store and the log that a run goes through, with the clock;
  * `Clean` is what a subject's attestation needs of the passes;
  * `Accounted` is what clean passes keep: no key since the erasure was ordered;
  * `attestation_true`: after a run of clean passes, a completed attestation is true.
-/
import Yaam.Core.Attest
import Yaam.Core.LogLines

namespace Yaam.Core

open Text Contract Crypto Eff

/-! ## Runs -/

/-- A pass over the key store and the erasure log. -/
inductive KeyOp where
  | erase (s : SubjectHash) (ulid : RecordId) (records : List ErasedRecord)
  | reindex
  | confirm (id : Text)
  | restore (copy : KeyCopy)

/-- A pass at its clock, of which the first `cut` steps are made before a crash. -/
structure Pass where
  op : KeyOp
  now : ℤ
  cut : ℕ

/-- A state the run goes through, with the clock and the line just written. -/
structure Moment where
  clock : ℤ
  state : KeyLog
  wrote : Option Tombstone

def KeyStep.wrote : KeyStep → Option Tombstone
  | .line e => some e
  | .mark _ | .unlink _ | .put _ _ => none

section
variable (P : Pipeline)

def KeyOp.steps (now : ℤ) (k : KeyLog) : KeyOp → List KeyStep
  | .erase s ulid records => eraseSteps P now (openingLine now ulid s records) s k
  | .reindex => reindexSteps P now k
  | .confirm id => confirmSteps P now id k
  | .restore copy => restoreSteps P now copy k

/-- The states after each of these steps. -/
def momentsOf (now : ℤ) : KeyLog → List KeyStep → List Moment
  | _, [] => []
  | k, a :: as => ⟨now, a.apply P now k, a.wrote⟩ :: momentsOf now (a.apply P now k) as

/-- The steps a pass makes. -/
def Pass.made (k : KeyLog) (p : Pass) : List KeyStep := (p.op.steps P p.now k).take p.cut

def Pass.after (k : KeyLog) (p : Pass) : KeyLog := runSteps P p.now k (p.made P k)

/-- The states of one pass, the one it starts from first. -/
def Pass.moments (k : KeyLog) (p : Pass) : List Moment :=
  ⟨p.now, k, none⟩ :: momentsOf P p.now k (p.made P k)

def afterAll : KeyLog → List Pass → KeyLog
  | k, [] => k
  | k, p :: ps => afterAll (p.after P k) ps

/-- Every state a run goes through. -/
def trace : KeyLog → List Pass → List Moment
  | _, [] => []
  | k, p :: ps => p.moments P k ++ trace (p.after P k) ps

end

/-! ## Clean passes -/

/-- A path in no subject's directory. -/
def Outside (p : Path) : Prop := ∀ s, ¬ Tree.Under (subjectDir s) p

/-- A key file of the subject that is not in its own directory is in no other's. -/
def Flat (s : SubjectHash) (t : Tree) : Prop :=
  ∀ p ∈ t, KeyFileOf s p → ¬ Tree.Under (subjectDir s) p → Outside p

/-- The log names the subject. -/
def OnLog (P : Pipeline) (s : SubjectHash) (k : KeyLog) : Prop :=
  ∃ es, LineLog.entries P.tombstoneLine k.log = .ok es ∧ ∃ e ∈ es, e.subject = s.text

/-- **A clean pass, for one subject**: an erasure of the subject is not cut short between
    its log line and the last of its keys; no copy installed holds a key of the subject
    once the log names it. -/
def Pass.Clean (P : Pipeline) (s : SubjectHash) (k : KeyLog) (p : Pass) : Prop :=
  match p.op with
  | .erase s' _ _ => s' = s → p.cut = 0 ∨ (eraseKeySteps p.now k.keys s).length < p.cut
  | .restore copy => Flat s copy.files ∧ (OnLog P s k → ∀ q ∈ copy.files, ¬ KeyFileOf s q)
  | .reindex | .confirm _ => True

def CleanRun (P : Pipeline) (s : SubjectHash) : KeyLog → List Pass → Prop
  | _, [] => True
  | k, p :: ps => p.Clean P s k ∧ CleanRun P s (p.after P k) ps

/-! ## Steps that destroy -/

/-- A marker, or the removal of a file of some subject's directory. -/
def KeyStep.Destroys : KeyStep → Prop
  | .mark _ => True
  | .unlink p => ∃ s, Tree.Under (subjectDir s) p
  | .line _ | .put _ _ => False

variable {P : Pipeline} {now : ℤ} {s : SubjectHash} {k : KeyLog} {steps : List KeyStep}

theorem destroys_eraseKeySteps (t : Tree) (s : SubjectHash) :
    ∀ a ∈ eraseKeySteps now t s, a.Destroys := by
  intro a ha
  rcases List.mem_cons.1 ha with rfl | ha
  · trivial
  · obtain ⟨p, hp, rfl⟩ := List.mem_map.1 ha
    exact ⟨s, of_decide_eq_true (List.mem_filter.1 hp).2⟩

theorem destroys_replaySteps (t : Tree) (es : List Tombstone) :
    ∀ a ∈ replaySteps now t es, a.Destroys := by
  induction es generalizing t with
  | nil => exact List.forall_mem_nil _
  | cons e es ih =>
    rw [replaySteps]
    cases SubjectHash.parse e.subject with
    | error err => exact List.forall_mem_nil _
    | ok s =>
      intro a ha
      rcases List.mem_append.1 ha with ha | ha
      · exact destroys_eraseKeySteps t s a ha
      · exact ih _ a ha

theorem destroys_reindexSteps (k : KeyLog) : ∀ a ∈ reindexSteps P now k, a.Destroys := by
  unfold reindexSteps
  cases LineLog.entries P.tombstoneLine k.log with
  | error e => exact List.forall_mem_nil _
  | ok es => exact destroys_replaySteps _ _

theorem destroys_settleSteps (t : Tree) (ss : List SubjectHash) :
    ∀ a ∈ settleSteps now t ss, a.Destroys := by
  induction ss generalizing t with
  | nil => exact List.forall_mem_nil _
  | cons s ss ih =>
    intro a ha
    rcases List.mem_append.1 ha with ha | ha
    · split_ifs at ha
      · exact destroys_eraseKeySteps t s a ha
      · rw [List.mem_singleton.1 ha]
        trivial
    · exact ih _ a ha

/-- What destroying steps leave: no new key file, and everything outside the subjects'
    directories. -/
structure Shrunk (k k' : KeyLog) : Prop where
  log : k'.log = k.log
  keys : ∀ s p, KeyFileOf s p → p ∈ k'.keys → p ∈ k.keys
  outside : ∀ p, Outside p → p ∈ k.keys → p ∈ k'.keys

theorem Shrunk.refl (k : KeyLog) : Shrunk k k := ⟨rfl, fun _ _ _ h => h, fun _ _ h => h⟩

theorem Shrunk.trans {k₁ k₂ k₃ : KeyLog} (h : Shrunk k₁ k₂) (h' : Shrunk k₂ k₃) : Shrunk k₁ k₃ :=
  ⟨h'.log.trans h.log, fun s p hk hp => h.keys s p hk (h'.keys s p hk hp),
    fun p ho hp => h'.outside p ho (h.outside p ho hp)⟩

theorem KeyStep.Destroys.shrunk {a : KeyStep} (h : a.Destroys) (k : KeyLog) :
    Shrunk k (a.apply P now k) := by
  cases a with
  | line e => exact h.elim
  | put p f => exact h.elim
  | mark s' =>
    refine ⟨rfl, fun s p hk hp => (mem_markKeys.1 hp).resolve_left ?_, fun p _ hp =>
      mem_markKeys.2 (.inr hp)⟩
    rintro rfl
    exact not_keyFileOf_tombstone _ _ hk
  | unlink q =>
    obtain ⟨s', hq⟩ := h
    refine ⟨rfl, fun s p _ hp => (Tree.mem_unlink.1 hp).1, fun p ho hp =>
      Tree.mem_unlink.2 ⟨hp, ?_⟩⟩
    rintro rfl
    exact ho s' hq

theorem shrunk_run (h : ∀ a ∈ steps, a.Destroys) (k : KeyLog) : Shrunk k (runSteps P now k steps) := by
  induction steps generalizing k with
  | nil => exact Shrunk.refl k
  | cons a as ih =>
    exact ((h a (by simp)).shrunk k).trans (ih (fun b hb => h b (by simp [hb])) _)

/-- Every state that destroying steps go through is shrunk, and writes no line. -/
theorem shrunk_moments (h : ∀ a ∈ steps, a.Destroys) (k : KeyLog) :
    ∀ m ∈ momentsOf P now k steps, m.clock = now ∧ m.wrote = none ∧ Shrunk k m.state := by
  induction steps generalizing k with
  | nil => exact List.forall_mem_nil _
  | cons a as ih =>
    have ha := h a (by simp)
    intro m hm
    rcases List.mem_cons.1 hm with rfl | hm
    · refine ⟨rfl, ?_, ha.shrunk k⟩
      cases a with
      | line e => exact ha.elim
      | mark _ | unlink _ | put _ _ => rfl
    · obtain ⟨h1, h2, h3⟩ := ih (fun b hb => h b (by simp [hb])) _ m hm
      exact ⟨h1, h2, (ha.shrunk k).trans h3⟩

/-! ## What the passes keep -/

/-- A key file of the subject stands outside its directory. -/
def Stray (s : SubjectHash) (t : Tree) : Prop :=
  ∃ p ∈ t, KeyFileOf s p ∧ ¬ Tree.Under (subjectDir s) p

/-- No key of the subject stands, nor stood at a moment after this time. -/
structure QuietSince (s : SubjectHash) (since : ℤ) (k : KeyLog) (tr : List Moment) : Prop where
  now : ∀ p ∈ k.keys, ¬ KeyFileOf s p
  before : ∀ m ∈ tr, since < m.clock → ∀ p ∈ m.state.keys, ¬ KeyFileOf s p

/-- A line for the subject is answered for: the subject is blocked, and no key stood
    since the order, unless one strays; a stamped line was written at some moment, and no
    key strays. -/
structure Answered (s : SubjectHash) (k : KeyLog) (tr : List Moment) (e : Tombstone) : Prop where
  blocked : tombstonePath s ∈ k.keys
  quiet : Stray s k.keys ∨ QuietSince s e.atMs k tr
  stamped : e.complete = true → QuietSince s e.atMs k tr ∧ ∃ m ∈ tr, m.wrote = some e

/-- Every line for the subject is answered for, and every stamp came a window after its
    order. -/
structure Accounted (P : Pipeline) (s : SubjectHash) (k : KeyLog) (tr : List Moment)
    (es : List Tombstone) : Prop where
  flat : Flat s k.keys
  log : LineLog.entries P.tombstoneLine k.log = .ok es
  lineStart : LineLog.AtLineStart k.log
  lines : ∀ e ∈ es, e.subject = s.text → Answered s k tr e
  stamps : ∀ m ∈ tr, ∀ e, m.wrote = some e →
    e ∈ es ∧ (e.complete = true → e.subject = s.text → e.atMs + keyBackupWindowMs ≤ m.clock)

variable {k' : KeyLog} {tr ms : List Moment} {es : List Tombstone} {e : Tombstone}

theorem outside_tombstonePath (s : SubjectHash) : Outside (tombstonePath s) :=
  fun s' => not_under_tombstone s' s

theorem QuietSince.carry {since : ℤ} (h : QuietSince s since k tr)
    (hkeys : ∀ p, KeyFileOf s p → p ∈ k'.keys → p ∈ k.keys)
    (hms : ∀ m ∈ ms, ∀ p, KeyFileOf s p → p ∈ m.state.keys → p ∈ k.keys) :
    QuietSince s since k' (tr ++ ms) := by
  refine ⟨fun p hp hk => h.now p (hkeys p hk hp) hk, fun m hm hlt p hp hk => ?_⟩
  rcases List.mem_append.1 hm with hm | hm
  · exact h.before m hm hlt p hp hk
  · exact h.now p (hms m hm p hk hp) hk

theorem Stray.carry (h : Stray s k.keys) (hflat : Flat s k.keys)
    (hout : ∀ p, Outside p → p ∈ k.keys → p ∈ k'.keys) : Stray s k'.keys := by
  obtain ⟨p, hp, hk, hu⟩ := h
  exact ⟨p, hout p (hflat p hp hk hu) hp, hk, hu⟩

/-- A line stays answered for where no key of the subject is put. -/
theorem Answered.carry (h : Answered s k tr e) (hflat : Flat s k.keys)
    (hout : ∀ p, Outside p → p ∈ k.keys → p ∈ k'.keys)
    (hkeys : ∀ p, KeyFileOf s p → p ∈ k'.keys → p ∈ k.keys)
    (hms : ∀ m ∈ ms, ∀ p, KeyFileOf s p → p ∈ m.state.keys → p ∈ k.keys) :
    Answered s k' (tr ++ ms) e := by
  refine ⟨hout _ (outside_tombstonePath s) h.blocked, ?_, fun hc => ?_⟩
  · exact h.quiet.imp (fun hs => hs.carry hflat hout) fun hq => hq.carry hkeys hms
  · obtain ⟨hq, m, hm, hw⟩ := h.stamped hc
    exact ⟨hq.carry hkeys hms, m, List.mem_append_left _ hm, hw⟩

theorem Flat.mono {t t' : Tree} (h : Flat s t) (hkeys : ∀ p, KeyFileOf s p → p ∈ t' → p ∈ t) :
    Flat s t' :=
  fun p hp hk => h p (hkeys p hk hp) hk

/-- A moment at which nothing is written. -/
theorem Accounted.start (h : Accounted P s k tr es) (now : ℤ) :
    Accounted P s k (tr ++ [⟨now, k, none⟩]) es := by
  refine ⟨h.flat, h.log, h.lineStart, fun e he hs => ?_, fun m hm e hw => ?_⟩
  · refine (h.lines e he hs).carry h.flat (fun _ _ hp => hp) (fun _ _ hp => hp) fun m hm p _ hp => ?_
    rwa [List.mem_singleton.1 hm] at hp
  · rcases List.mem_append.1 hm with hm | hm
    · exact h.stamps m hm e hw
    · rw [List.mem_singleton.1 hm] at hw
      cases hw

/-- **Destroying keeps the account.** -/
theorem Accounted.destroys (h : Accounted P s k tr es) (hsteps : ∀ a ∈ steps, a.Destroys) :
    Accounted P s (runSteps P now k steps) (tr ++ momentsOf P now k steps) es := by
  have hrun : Shrunk k (runSteps P now k steps) := shrunk_run hsteps k
  have hms : ∀ m ∈ momentsOf P now k steps, m.clock = now ∧ m.wrote = none ∧ Shrunk k m.state :=
    shrunk_moments hsteps k
  refine ⟨h.flat.mono (hrun.keys s), ?_, ?_, fun e he hs => ?_, fun m hm e hw => ?_⟩
  · rw [hrun.log]
    exact h.log
  · rw [hrun.log]
    exact h.lineStart
  · exact (h.lines e he hs).carry h.flat hrun.outside (hrun.keys s) fun m hm => (hms m hm).2.2.keys s
  · rcases List.mem_append.1 hm with hm | hm
    · exact h.stamps m hm e hw
    · rw [(hms m hm).2.1] at hw
      cases hw

/-- A line that is answered for once it is written keeps the account. -/
theorem Accounted.line (hT : P.tombstoneLine.Lawful) (h : Accounted P s k tr es) (e : Tombstone)
    (hnew : e.subject = s.text → Answered s (KeyStep.apply P now k (.line e))
        (tr ++ [⟨now, KeyStep.apply P now k (.line e), some e⟩]) e ∧
      (e.complete = true → e.atMs + keyBackupWindowMs ≤ now)) :
    Accounted P s (KeyStep.apply P now k (.line e))
      (tr ++ [⟨now, KeyStep.apply P now k (.line e), some e⟩]) (es ++ [e]) := by
  refine ⟨h.flat, LineLog.entries_append hT h.lineStart e h.log,
    LineLog.atLineStart_append h.log e, fun e' he' hs => ?_, fun m hm e' hw => ?_⟩
  · rcases List.mem_append.1 he' with he' | he'
    · refine (h.lines e' he' hs).carry h.flat (fun _ _ hp => hp) (fun _ _ hp => hp) fun m hm p _ hp => ?_
      rwa [List.mem_singleton.1 hm] at hp
    · obtain rfl := List.mem_singleton.1 he'
      exact (hnew hs).1
  · rcases List.mem_append.1 hm with hm | hm
    · obtain ⟨he', hc⟩ := h.stamps m hm e' hw
      exact ⟨List.mem_append_left _ he', hc⟩
    · rw [List.mem_singleton.1 hm] at hw ⊢
      obtain rfl := Option.some.inj hw
      exact ⟨by simp, fun hc hs => (hnew hs).2 hc⟩

/-- **A completion stamp keeps the account**: it is written when no key stands, a window
    after the order. -/
theorem Accounted.stamp (hT : P.tombstoneLine.Lawful) (h : Accounted P s k tr es) {entry : Tombstone}
    (hentry : entry ∈ es) (hkeys : entry.subject = s.text → ∀ p ∈ k.keys, ¬ KeyFileOf s p)
    (hwindow : entry.atMs + keyBackupWindowMs ≤ now) :
    Accounted P s (KeyStep.apply P now k (.line { entry with complete := true }))
      (tr ++ [⟨now, KeyStep.apply P now k (.line { entry with complete := true }),
        some { entry with complete := true }⟩]) (es ++ [{ entry with complete := true }]) := by
  refine h.line hT _ fun hs => ⟨?_, fun _ => hwindow⟩
  have hold := h.lines entry hentry hs
  have hquiet : QuietSince s entry.atMs k tr := by
    refine hold.quiet.resolve_left ?_
    rintro ⟨p, hp, hk, -⟩
    exact hkeys hs p hp hk
  have hafter : QuietSince s entry.atMs (KeyStep.apply P now k (.line { entry with complete := true }))
      (tr ++ [⟨now, KeyStep.apply P now k (.line { entry with complete := true }),
        some { entry with complete := true }⟩]) := by
    refine hquiet.carry (fun _ _ hp => hp) fun m hm p _ hp => ?_
    rwa [List.mem_singleton.1 hm] at hp
  exact ⟨hold.blocked, .inr hafter, fun _ => ⟨hafter,
    ⟨now, KeyStep.apply P now k (.line { entry with complete := true }),
      some { entry with complete := true }⟩, List.mem_append_right _ (by simp), rfl⟩⟩

theorem momentsOf_append (k : KeyLog) (l m : List KeyStep) :
    momentsOf P now k (l ++ m) = momentsOf P now k l ++ momentsOf P now (runSteps P now k l) m := by
  induction l generalizing k with
  | nil => rfl
  | cons a l ih =>
    rw [List.cons_append, momentsOf, momentsOf, ih]
    rfl

/-- **An erasure whose keys are gone keeps the account**: no key is left in the subject's
    directory, and no moment is later than the order. -/
theorem Accounted.ordered (hT : P.tombstoneLine.Lawful) (h : Accounted P s k tr es)
    (hclock : ∀ m ∈ tr, m.clock ≤ now) (ulid : RecordId) (records : List ErasedRecord) :
    Accounted P s
      (runSteps P now k (.line (openingLine now ulid s records) :: eraseKeySteps now k.keys s))
      (tr ++ momentsOf P now k
        (.line (openingLine now ulid s records) :: eraseKeySteps now k.keys s))
      (es ++ [openingLine now ulid s records]) := by
  let e := openingLine now ulid s records
  let written : KeyLog := KeyStep.apply P now k (.line e)
  let erased : KeyLog := ⟨eraseKeys now k.keys s, LineLog.append P.tombstoneLine k.log e⟩
  have hdestroys : ∀ a ∈ eraseKeySteps now k.keys s, a.Destroys := destroys_eraseKeySteps k.keys s
  have hrun : runSteps P now k (.line e :: eraseKeySteps now k.keys s) = erased :=
    runSteps_eraseKeys k.keys _ s
  have hshrunk : Shrunk written erased := by
    have h : Shrunk written (runSteps P now written (eraseKeySteps now k.keys s)) :=
      shrunk_run hdestroys written
    rwa [show runSteps P now written (eraseKeySteps now k.keys s) = erased from hrun] at h
  have hms : ∀ m ∈ momentsOf P now written (eraseKeySteps now k.keys s),
      m.clock = now ∧ m.wrote = none ∧ Shrunk written m.state := shrunk_moments hdestroys written
  have hmoments : ∀ m ∈ momentsOf P now k (.line e :: eraseKeySteps now k.keys s),
      m.clock = now ∧ (m.wrote = some e ∨ m.wrote = none) ∧ Shrunk written m.state := by
    intro m hm
    rcases List.mem_cons.1 hm with rfl | hm
    · exact ⟨rfl, .inl rfl, Shrunk.refl written⟩
    · obtain ⟨h1, h2, h3⟩ := hms m hm
      exact ⟨h1, .inr h2, h3⟩
  -- the new line: marked, and no key of the subject but a stray one
  have hnew : Answered s erased
      (tr ++ momentsOf P now k (.line e :: eraseKeySteps now k.keys s)) e := by
    refine ⟨?_, ?_, nofun⟩
    · exact Tree.mem_removeDirAll.2 ⟨mem_markKeys.2 (.inl rfl), not_under_tombstone s s⟩
    · by_cases hstray : Stray s erased.keys
      · exact .inl hstray
      · refine .inr ⟨fun p hp hk => hstray ⟨p, hp, hk, ?_⟩, fun m hm hlt => ?_⟩
        · exact (Tree.mem_removeDirAll.1 hp).2
        · have hle : m.clock ≤ now := by
            rcases List.mem_append.1 hm with hm | hm
            · exact hclock m hm
            · exact (hmoments m hm).1.le
          exact absurd hle (not_le.2 hlt)
  rw [hrun]
  refine ⟨h.flat.mono fun p hk hp => hshrunk.keys s p hk hp, ?_, ?_, fun e' he' hs => ?_,
    fun m hm e' hw => ?_⟩
  · exact LineLog.entries_append hT h.lineStart e h.log
  · exact LineLog.atLineStart_append h.log e
  · rcases List.mem_append.1 he' with he' | he'
    · exact (h.lines e' he' hs).carry h.flat hshrunk.outside (hshrunk.keys s)
        fun m hm => (hmoments m hm).2.2.keys s
    · obtain rfl := List.mem_singleton.1 he'
      exact hnew
  · rcases List.mem_append.1 hm with hm | hm
    · obtain ⟨he', hc⟩ := h.stamps m hm e' hw
      exact ⟨List.mem_append_left _ he', hc⟩
    · rcases (hmoments m hm).2.1 with hw' | hw'
      · obtain rfl := Option.some.inj (hw'.symm.trans hw)
        exact ⟨by simp [e], nofun⟩
      · rw [hw'] at hw
        cases hw

/-- Putting a file that is no key of a subject on the log keeps the account. -/
theorem Accounted.put (h : Accounted P s k tr es) {p : Path} {f : File}
    (hflat : KeyFileOf s p → ¬ Tree.Under (subjectDir s) p → Outside p)
    (hkey : OnLog P s k → ¬ KeyFileOf s p) :
    Accounted P s (KeyStep.apply P now k (.put p f))
      (tr ++ [⟨now, KeyStep.apply P now k (.put p f), none⟩]) es := by
  have hmem : ∀ q, q ∈ (KeyStep.apply P now k (.put p f)).keys ↔ q = p ∨ q ∈ k.keys := fun q =>
    AList.mem_insert _
  refine ⟨fun q hq => ?_, h.log, h.lineStart, fun e he hs => ?_, fun m hm e hw => ?_⟩
  · rcases (hmem q).1 hq with rfl | hq
    · exact hflat
    · exact h.flat q hq
  · have hon : ¬ KeyFileOf s p := hkey ⟨es, h.log, e, he, hs⟩
    have hkeys : ∀ q, KeyFileOf s q → q ∈ (KeyStep.apply P now k (.put p f)).keys → q ∈ k.keys := by
      intro q hk hq
      refine ((hmem q).1 hq).resolve_left ?_
      rintro rfl
      exact hon hk
    refine (h.lines e he hs).carry h.flat (fun q _ hq => (hmem q).2 (.inr hq)) hkeys fun m hm => ?_
    rw [List.mem_singleton.1 hm]
    exact hkeys
  · rcases List.mem_append.1 hm with hm | hm
    · exact h.stamps m hm e hw
    · rw [List.mem_singleton.1 hm] at hw
      cases hw

theorem Accounted.puts (h : Accounted P s k tr es) {files : List (Path × File)}
    (hflat : ∀ pf ∈ files, KeyFileOf s pf.1 → ¬ Tree.Under (subjectDir s) pf.1 → Outside pf.1)
    (hkey : OnLog P s k → ∀ pf ∈ files, ¬ KeyFileOf s pf.1) :
    Accounted P s (runSteps P now k (files.map fun pf => .put pf.1 pf.2))
      (tr ++ momentsOf P now k (files.map fun pf => .put pf.1 pf.2)) es := by
  induction files generalizing k tr with
  | nil => simpa [momentsOf, runSteps] using h
  | cons pf files ih =>
    have hone : Accounted P s (KeyStep.apply P now k (.put pf.1 pf.2))
        (tr ++ [⟨now, KeyStep.apply P now k (.put pf.1 pf.2), none⟩]) es :=
      h.put (hflat pf (by simp)) fun hon => hkey hon pf (by simp)
    have hlog : OnLog P s (KeyStep.apply P now k (.put pf.1 pf.2)) → OnLog P s k := id
    have hrest := ih hone (fun pf hpf => hflat pf (by simp [hpf])) fun hon pf hpf =>
      hkey (hlog hon) pf (by simp [hpf])
    rw [List.append_assoc] at hrest
    exact hrest

/-! ## One pass -/

theorem Accounted.after_line (hT : P.tombstoneLine.Lawful) (h : Accounted P s k tr es)
    {e : Tombstone} (hs : e.subject ≠ s.text) (hsteps : ∀ a ∈ steps, a.Destroys) :
    Accounted P s (runSteps P now k (.line e :: steps))
      (tr ++ momentsOf P now k (.line e :: steps)) (es ++ [e]) := by
  have hline : Accounted P s (KeyStep.apply P now k (.line e))
      (tr ++ [⟨now, KeyStep.apply P now k (.line e), some e⟩]) (es ++ [e]) :=
    h.line hT e fun h => absurd h hs
  have hrest : Accounted P s (runSteps P now (KeyStep.apply P now k (.line e)) steps)
      (tr ++ [⟨now, KeyStep.apply P now k (.line e), some e⟩] ++
        momentsOf P now (KeyStep.apply P now k (.line e)) steps) (es ++ [e]) := hline.destroys hsteps
  rw [List.append_assoc] at hrest
  exact hrest

theorem Accounted.erase (hT : P.tombstoneLine.Lawful) (h : Accounted P s k tr es)
    (hclock : ∀ m ∈ tr, m.clock ≤ now) {s' : SubjectHash} {ulid : RecordId}
    {records : List ErasedRecord} {cut : ℕ}
    (hclean : s' = s → cut = 0 ∨ (eraseKeySteps now k.keys s).length < cut) :
    ∃ es', Accounted P s
      (runSteps P now k ((eraseSteps P now (openingLine now ulid s' records) s' k).take cut))
      (tr ++ momentsOf P now k
        ((eraseSteps P now (openingLine now ulid s' records) s' k).take cut)) es' := by
  obtain _ | cut := cut
  · refine ⟨es, ?_⟩
    simpa [momentsOf, runSteps] using h
  · by_cases hs : s' = s
    · subst hs
      have hfull : (eraseKeySteps now k.keys s').length < cut + 1 :=
        (hclean rfl).resolve_left (Nat.succ_ne_zero cut)
      let e := openingLine now ulid s' records
      let rest := reindexSteps P now
        ⟨eraseKeys now k.keys s', LineLog.append P.tombstoneLine k.log e⟩
      have htake : (eraseSteps P now e s' k).take (cut + 1) =
          (.line e :: eraseKeySteps now k.keys s') ++
            rest.take (cut + 1 - (eraseKeySteps now k.keys s').length.succ) := by
        rw [eraseSteps, List.take_append, List.take_of_length_le (Nat.succ_le_of_lt hfull)]
        rfl
      refine ⟨es ++ [e], ?_⟩
      rw [htake, runSteps_append, momentsOf_append, ← List.append_assoc]
      exact (h.ordered hT hclock ulid records).destroys fun a ha =>
        destroys_reindexSteps _ a (List.mem_of_mem_take ha)
    · refine ⟨es ++ [openingLine now ulid s' records], ?_⟩
      refine h.after_line hT (fun heq => hs (SubjectHash.ext_text heq)) fun a ha => ?_
      rcases List.mem_append.1 (List.mem_of_mem_take ha) with ha | ha
      · exact destroys_eraseKeySteps _ _ a ha
      · exact destroys_reindexSteps _ a ha

theorem Accounted.confirm (hT : P.tombstoneLine.Lawful) (h : Accounted P s k tr es) (id : Text)
    (cut : ℕ) :
    ∃ es', Accounted P s (runSteps P now k ((confirmSteps P now id k).take cut))
      (tr ++ momentsOf P now k ((confirmSteps P now id k).take cut)) es' := by
  have hnone : Accounted P s (runSteps P now k []) (tr ++ momentsOf P now k []) es := by
    simpa [momentsOf, runSteps] using h
  obtain _ | cut := cut
  · exact ⟨es, hnone⟩
  rw [confirmSteps, h.log]
  dsimp only
  cases hnew : newestLine es id with
  | none => exact ⟨es, hnone⟩
  | some entry =>
    dsimp only
    cases hs : SubjectHash.parse entry.subject with
    | error err => exact ⟨es, hnone⟩
    | ok s' =>
      dsimp only
      split_ifs with hc
      · rw [List.take_of_length_le (by simp)]
        refine ⟨_, h.stamp hT (List.mem_reverse.1 (List.mem_of_find?_eq_some hnew))
          (fun hsub p hp hk => ?_) hc.2.2.2⟩
        have heq : s' = s := SubjectHash.ext_text ((SubjectHash.parse_ok hs).trans hsub)
        have hpos : 0 < keyFilesFor k.keys s' := keyFilesFor_pos.2 ⟨p, hp, heq ▸ hk⟩
        omega
      · exact ⟨es, hnone⟩

theorem Accounted.restore (h : Accounted P s k tr es) {copy : KeyCopy} (hflat : Flat s copy.files)
    (hcopy : OnLog P s k → ∀ q ∈ copy.files, ¬ KeyFileOf s q) (cut : ℕ) :
    Accounted P s (runSteps P now k ((restoreSteps P now copy k).take cut))
      (tr ++ momentsOf P now k ((restoreSteps P now copy k).take cut)) es := by
  have hmem : ∀ pf ∈ copied copy keysDir ++ copied copy tombstonesDir, pf.1 ∈ copy.files := by
    intro pf hpf
    have hone : ∀ dir, pf ∈ copied copy dir → pf.1 ∈ copy.files := by
      intro dir hin
      obtain ⟨e, he, rfl⟩ := List.mem_map.1 hin
      exact AList.mem_keys.2 (List.mem_map_of_mem (f := Sigma.fst) (List.mem_filter.1 he).1)
    rcases List.mem_append.1 hpf with hpf | hpf
    · exact hone _ hpf
    · exact hone _ hpf
  rw [restoreSteps, List.take_append, ← List.map_take, runSteps_append, momentsOf_append,
    ← List.append_assoc]
  refine (h.puts (fun pf hpf => ?_) fun hon pf hpf => ?_).destroys fun a ha => ?_
  · exact hflat _ (hmem pf (List.mem_of_mem_take hpf))
  · exact hcopy hon _ (hmem pf (List.mem_of_mem_take hpf))
  · replace ha := List.mem_of_mem_take ha
    split at ha
    · exact absurd ha List.not_mem_nil
    · exact destroys_settleSteps _ _ a ha

/-- **A clean pass keeps the account.** -/
theorem Accounted.pass (hT : P.tombstoneLine.Lawful) (h : Accounted P s k tr es) {p : Pass}
    (hclock : ∀ m ∈ tr, m.clock ≤ p.now) (hclean : p.Clean P s k) :
    ∃ es', Accounted P s (p.after P k) (tr ++ p.moments P k) es' := by
  have hstart := h.start p.now
  have hclock' : ∀ m ∈ tr ++ [⟨p.now, k, none⟩], m.clock ≤ p.now := by
    intro m hm
    rcases List.mem_append.1 hm with hm | hm
    · exact hclock m hm
    · rw [List.mem_singleton.1 hm]
  obtain ⟨op, now, cut⟩ := p
  have hmoments : tr ++ Pass.moments P k ⟨op, now, cut⟩ =
      (tr ++ [⟨now, k, none⟩]) ++ momentsOf P now k ((op.steps P now k).take cut) := by
    rw [List.append_assoc]
    rfl
  rw [hmoments]
  cases op with
  | erase s' ulid records => exact hstart.erase hT hclock' hclean
  | reindex =>
    exact ⟨es, hstart.destroys fun a ha => destroys_reindexSteps _ a (List.mem_of_mem_take ha)⟩
  | confirm id => exact hstart.confirm hT id cut
  | restore copy => exact ⟨es, hstart.restore hclean.1 hclean.2 cut⟩

/-! ## Runs of clean passes -/

theorem momentsOf_clock (k : KeyLog) : ∀ m ∈ momentsOf P now k steps, m.clock = now := by
  induction steps generalizing k with
  | nil => exact List.forall_mem_nil _
  | cons a as ih =>
    intro m hm
    rcases List.mem_cons.1 hm with rfl | hm
    · rfl
    · exact ih _ m hm

theorem Pass.moments_clock {p : Pass} (k : KeyLog) : ∀ m ∈ p.moments P k, m.clock = p.now := by
  intro m hm
  rcases List.mem_cons.1 hm with rfl | hm
  · rfl
  · exact momentsOf_clock k m hm

/-- **A run of clean passes keeps the account.** -/
theorem Accounted.run (hT : P.tombstoneLine.Lawful) (h : Accounted P s k tr es) {ps : List Pass}
    (hclock : ∀ m ∈ tr, ∀ p ∈ ps, m.clock ≤ p.now) (hsorted : (ps.map Pass.now).Pairwise (· ≤ ·))
    (hclean : CleanRun P s k ps) :
    ∃ es', Accounted P s (afterAll P k ps) (tr ++ trace P k ps) es' := by
  induction ps generalizing k tr es with
  | nil => exact ⟨es, by simpa [afterAll, trace] using h⟩
  | cons p ps ih =>
    obtain ⟨hfirst, hsorted⟩ := List.pairwise_cons.1 hsorted
    obtain ⟨es', h'⟩ := h.pass hT (fun m hm => hclock m hm p (by simp)) hclean.1
    have hclock' : ∀ m ∈ tr ++ p.moments P k, ∀ q ∈ ps, m.clock ≤ q.now := by
      intro m hm q hq
      rcases List.mem_append.1 hm with hm | hm
      · exact hclock m hm q (by simp [hq])
      · rw [Pass.moments_clock k m hm]
        exact hfirst _ (List.mem_map_of_mem hq)
    obtain ⟨es'', h''⟩ := ih h' hclock' hsorted hclean.2
    rw [List.append_assoc] at h''
    exact ⟨es'', h''⟩

theorem Accounted.nil (hlog : k.log = none) (hflat : Flat s k.keys) : Accounted P s k [] [] := by
  refine ⟨hflat, ?_, ?_, fun e he => absurd he List.not_mem_nil, fun m hm => absurd hm List.not_mem_nil⟩
  · rw [hlog]
    rfl
  · rw [hlog]
    exact ⟨[], rfl, .inl rfl⟩

/-- What an operation leaves is what a pass of it leaves, an uncut one if it succeeds. -/
theorem Follows.pass (op : KeyOp) {ok : Prop} (h : Follows P now k (op.steps P now k) ok k') :
    ∃ cut, k' = Pass.after P k ⟨op, now, cut⟩ ∧ (ok → (op.steps P now k).length ≤ cut) := by
  obtain ⟨done, rest, hsteps, rfl, hrest⟩ := h
  refine ⟨done.length, ?_, fun hok => ?_⟩
  · show _ = runSteps P now k ((op.steps P now k).take done.length)
    rw [hsteps, List.take_left]
  · rw [hsteps, hrest hok, List.append_nil]

theorem afterAll_append (k : KeyLog) (ps qs : List Pass) :
    afterAll P k (ps ++ qs) = afterAll P (afterAll P k ps) qs := by
  induction ps generalizing k with
  | nil => rfl
  | cons p ps ih => exact ih _

section
set_option maxRecDepth 8000

end

end Yaam.Core
