/-
  Fan-out: the work a published record is owed, drained from the queue
  (`yaam-core`, `pipeline.rs`; the cold manifests are `reindex.rs`).

  * `drainFanout` claims jobs and settles each: entity timelines and subject audit
    files, retried with a growing delay and dead-lettered at the end;
  * `coldRecords` reads archived records back out of the manifests;
  * `drainFanout_frame`: a drain touches none of what a record's body is kept in.
-/
import Yaam.Core.Accept

namespace Yaam.Core

open Text Contract Eff

/-- Claims a job may have before it is dead-lettered. -/
def fanoutMaxAttempts : ℕ := 5

/-- The delay before a failed job's second attempt, and the longest delay. -/
def fanoutBackoffMs : ℤ := 1000
def fanoutBackoffCapMs : ℤ := 60000

def timelineHead : Text := "timeline.md".toList

/-- What the name of a frozen timeline part starts with. -/
def timelinePart : Text := "timeline-".toList

/-- The size at which a timeline head is frozen. -/
def timelineMaxBytes : ℕ := 64 * 1024

/-! ## Timelines and audit files -/

/-- The text of a `u32`, as Rust parses one. -/
def parseU32 (t : Text) : Option ℕ :=
  let ds := (stripPrefix ['+'] t).getD t
  if ds ≠ [] ∧ ds.all isDigit ∧ number ds < 2 ^ 32 then some (number ds) else none

/-- The number the next frozen part of a directory takes. -/
def nextPartNumber (t : Tree) (dir : Path) : ℕ :=
  let parts := (t.walkFiles recordExt).filter fun p => Tree.Under dir p
  let numbers := parts.filterMap fun p => ((fileStem p).bind (stripPrefix timelinePart)).bind parseU32
  numbers.foldl max 0 + 1

/-- Whether a timeline head has reached its rollover size. -/
def headIsFull (t : Tree) (head : Path) : Bool :=
  (t.lookup head).any fun f => timelineMaxBytes ≤ f.content.length

/-- Freezes a full timeline head and starts a fresh one. -/
def rollOver (now : ℤ) (dir head : Path) (t : Tree) : Except IoError Tree := do
  let part := dir ++ [timelinePart ++ padNat 4 (nextPartNumber t dir) ++ ".md".toList]
  let f ← match t.lookup head with
    | some f => .ok f
    | none => .error (.notFound head)
  .ok (Tree.write ((t.erase head).insert part f) head [] now)

/-- `[[kind:id]]`. -/
def wikilink (kind id : Text) : Text := "[[".toList ++ kind ++ ':' :: id ++ "]]".toList

def entityDir (e : EntityRef) : Path := [e.kind, toPathSegment e.id]

/-- The line a record has in an entity's timeline. -/
def timelineLine (r : ActionRecord) : Text :=
  "- ".toList ++ wikilink "record".toList r.recordId.text ++ ' ' :: r.receivedAt ++ ' ' ::
    r.action ++ '/' :: Md.outcomeName r.outcome

/-- Freezes the head of an entity's timeline when it is full. -/
def freezeFull (env : Env) (dir head : Path) : StoreM Unit := do
  let s ← state
  if headIsFull s.entities head then
    match rollOver env.now dir head s.entities with
    | .ok entities => change fun s => { s with entities }
    | .error e => fail (.io e)
  else return ()

/-- Appends the record to the timeline of one entity, unless the index holds the
    row that says it is there. -/
def appendTimeline (env : Env) (r : ActionRecord) (e : EntityRef) : StoreM Unit := do
  let head := entityDir e ++ [timelineHead]
  freezeFull env (entityDir e) head
  let claimed ← indexed (Index.claimTimelineMention r.recordId e.kind e.id)
  if claimed then
    let line := timelineLine r
    change fun s => { s with entities := s.entities.appendLine head line env.now }
  else return ()

/-- Appends the record to the timeline of every entity it names. -/
def appendTimelines (env : Env) (r : ActionRecord) : StoreM Unit :=
  forM r.entities (appendTimeline env r)

/-- The audit text of which subjects a record names. -/
def subjectAudit (r : ActionRecord) : Text :=
  "# subjects named by ".toList ++ wikilink "record".toList r.recordId.text ++ "\n\n".toList ++
    r.subjects.flatMap fun s =>
      "- ".toList ++ wikilink "subject".toList s.hash.text ++ " role=".toList ++
        Md.subjectRoleName s.role ++ " canon_ver=".toList ++ padNat 0 s.canonVer.toNat ++ ['\n']

/-- Writes the audit file of a record's subjects. -/
def writeSubjectAudit (env : Env) (r : ActionRecord) : StoreM Unit :=
  if r.subjects = [] then pure ()
  else
    let bytes := Utf8.encode (subjectAudit r)
    change fun s =>
      { s with audit := s.audit.write ["subjects".toList, recordFile r.recordId] bytes env.now }

/-! ## Finding a job's record -/

/-- Every record file by the identifier it is named for; of two, the later path. -/
def locateRecords (t : Tree) : List (Text × Path) :=
  ((t.walkFiles recordExt).filterMap fun p => (fileStem p).map fun id => (id, p)).reverse

section
variable (P : Pipeline)

/-- One manifest line as a record. -/
def manifestRecord (line : Text) : Except Error ActionRecord :=
  match P.manifestJson line with
  | .error detail => .error (invalid detail)
  | .ok r => match r.validate with
    | .error e => .error (.invalid e)
    | .ok () => .ok r

/-- Collects the wanted records of one manifest, until everything wanted is found. -/
def collectLines (wanted : List Text) :
    List Text → List (Text × ActionRecord) → List (Text × ActionRecord)
  | [], found => found
  | l :: ls, found =>
    if trim l = [] then collectLines wanted ls found
    else match manifestRecord P l with
      | .error _ => collectLines wanted ls found
      | .ok r =>
        if r.recordId.text ∈ wanted then
          let found := upsert (·.1) (fun _ new => new) (r.recordId.text, r) found
          if found.length = wanted.length then found else collectLines wanted ls found
        else collectLines wanted ls found

/-- Reads the wanted records out of the manifests, until everything is found. -/
def coldRecords (wanted : List Text) :
    List Path → List (Text × ActionRecord) → StoreM (List (Text × ActionRecord))
  | [], found => return found
  | p :: ps, found => do
    let text ← readFile Store.cold p
    let found := collectLines P wanted (lines text) found
    if found.length = wanted.length then return found else coldRecords wanted ps found

def manifestExt : Text := "jsonl".toList

/-- The archived records a batch of jobs needs; no manifest is read when every
    record has a file. -/
def locateArchived (jobs : List Index.JobRow) (located : List (Text × Path)) :
    StoreM (List (Text × ActionRecord)) := do
  let wanted := ((jobs.map (·.record.text)).filter fun id => (located.lookup id).isNone).dedup
  if wanted = [] then return []
  else coldRecords P wanted ((← state).cold.walkFiles manifestExt) []

/-! ## Draining -/

/-- The record a job is about. -/
def jobRecord (job : Index.JobRow) (located : List (Text × Path))
    (archived : List (Text × ActionRecord)) : StoreM ActionRecord :=
  match located.lookup job.record.text with
  | some path => do
    let text ← readFile Store.records path
    let d ← liftMd (Md.Document.parse P.yaml text)
    return d.record
  | none => match archived.lookup job.record.text with
    | some r => return r
    | none => fail (.io (.other
        s!"record `{String.ofList job.record.text}` is not in the tree or a cold manifest"))

/-- The work one job stands for. -/
def runJob (env : Env) (job : Index.JobRow) (located : List (Text × Path))
    (archived : List (Text × ActionRecord)) : StoreM Unit := do
  let record ← jobRecord P job located archived
  match job.kind with
  | .bundle => appendTimelines env record
  | .subjectLink => writeSubjectAudit env record
  | .other kind => fail (invalid s!"unknown fan-out job kind `{String.ofList kind}`")

/-- Records a job as needing an operator. -/
def deadLetter (env : Env) (job : Index.JobRow) (reason : String) : StoreM Unit :=
  let bytes := Utf8.encode (s!"record: {String.ofList job.record.text}\n" ++
    s!"job: {String.ofList job.kind.name}\nattempts: {job.attempts}\nreason: {reason}\n").toList
  change fun s =>
    { s with deadLetter := s.deadLetter.write [job.record.text ++ '.' :: job.kind.name] bytes env.now }

/-- The delay before a job's next claim: doubled for each attempt, up to the cap. -/
def backoffMs (attempts : ℕ) : ℤ :=
  min (fanoutBackoffMs * 2 ^ min (attempts - 1) 16) fanoutBackoffCapMs

/-- Runs one claimed job and settles it, or puts it back for later; counts the jobs
    settled. -/
def settleJob (env : Env) (located : List (Text × Path)) (archived : List (Text × ActionRecord))
    (settled : ℕ) (job : Index.JobRow) : StoreM ℕ := do
  match ← attempt (runJob P env job located archived) with
  | .ok () => do
    indexed (change (Index.completeFanout job))
    return settled + 1
  | .error reason =>
    if fanoutMaxAttempts ≤ job.attempts then do
      deadLetter env job reason.display
      indexed (change (Index.completeFanout job))
      return settled + 1
    else do
      indexed (change (Index.failFanout job (env.now + backoffMs job.attempts)))
      return settled

/-- Drains queued fan-out work; answers how many jobs it settled. -/
def drainFanout (env : Env) (maxJobs : ℕ) : StoreM ℕ := do
  let limit := min maxJobs (2 ^ 32 - 1)
  if limit = 0 then return 0
  else do
    let jobs ← indexed (Index.claimFanout limit env.now)
    if jobs = [] then return 0
    else do
      let located := locateRecords (← state).records
      let archived ← locateArchived P jobs located
      jobs.foldlM (settleJob P env located archived) 0

end

/-! ## What a drain touches -/

/-- Two stores that hold the same records, copies, keys, logs and shares: they differ
    at most in timelines, audit files, dead letters, the queue and the timeline rows. -/
structure SameBodies (σ σ' : Store) : Prop where
  records : σ'.records = σ.records
  staging : σ'.staging = σ.staging
  quarantine : σ'.quarantine = σ.quarantine
  keys : σ'.keys = σ.keys
  tombstoneLog : σ'.tombstoneLog = σ.tombstoneLog
  holdLog : σ'.holdLog = σ.holdLog
  rows : σ'.index.records = σ.index.records
  subjects : σ'.index.subjects = σ.index.subjects
  pending : σ'.index.quarantinePending = σ.index.quarantinePending

theorem SameBodies.refl (σ : Store) : SameBodies σ σ := ⟨rfl, rfl, rfl, rfl, rfl, rfl, rfl, rfl, rfl⟩

theorem SameBodies.trans {σ₁ σ₂ σ₃ : Store} (h : SameBodies σ₁ σ₂) (k : SameBodies σ₂ σ₃) :
    SameBodies σ₁ σ₃ where
  records := k.records.trans h.records
  staging := k.staging.trans h.staging
  quarantine := k.quarantine.trans h.quarantine
  keys := k.keys.trans h.keys
  tombstoneLog := k.tombstoneLog.trans h.tombstoneLog
  holdLog := k.holdLog.trans h.holdLog
  rows := k.rows.trans h.rows
  subjects := k.subjects.trans h.subjects
  pending := k.pending.trans h.pending

/-- What running a job leaves: everything but timelines, audit files and the rows
    that say which timelines a record is in. -/
structure JobFrame (I : Store → Prop) : Prop where
  entities : ∀ s t, I s → I { s with entities := t }
  audit : ∀ s t, I s → I { s with audit := t }
  mentions : ∀ s ms, I s → I { s with index := { s.index with timelineMentions := ms } }

theorem SameBodies.jobFrame (σ : Store) : JobFrame (SameBodies σ) where
  entities _ _ h := h.trans ⟨rfl, rfl, rfl, rfl, rfl, rfl, rfl, rfl, rfl⟩
  audit _ _ h := h.trans ⟨rfl, rfl, rfl, rfl, rfl, rfl, rfl, rfl, rfl⟩
  mentions _ _ h := h.trans ⟨rfl, rfl, rfl, rfl, rfl, rfl, rfl, rfl, rfl⟩

variable {P : Pipeline} {env : Env} {I : Store → Prop}

theorem keeps_readFile (dir : Store → Tree) (p : Path) : Keeps I (readFile dir p) := by
  refine Keeps.state_bind fun s hs => ?_
  cases (dir s).readToString p with
  | ok t => exact hs
  | error e => exact hs

theorem claimTimelineMention_keeps (hI : JobFrame I) (record : RecordId) (kind entityId : Text) :
    Keeps I (indexed (Index.claimTimelineMention record kind entityId)) := by
  intro s hs
  show I { s with index := (mapError Error.store (atomically
    (Index.claimTimelineMention record kind entityId)) s.index).2 }
  unfold Index.claimTimelineMention Eff.mapError Eff.atomically
  simp only [state_bind]
  by_cases hm : (⟨record, kind, entityId⟩ : Index.MentionRow) ∈ s.index.timelineMentions
  · simp only [if_pos hm]
    exact hs
  simp only [if_neg hm]
  cases s.index.has record.text with
  | true => exact hI.mentions s _ hs
  | false => exact hs

theorem freezeFull_keeps (hI : JobFrame I) (dir head : Path) : Keeps I (freezeFull env dir head) := by
  refine Keeps.state_bind fun s hs => ?_
  split
  · cases rollOver env.now dir head s.entities with
    | ok entities => exact hI.entities s _ hs
    | error e => exact hs
  · exact hs

theorem appendTimeline_keeps (hI : JobFrame I) (r : ActionRecord) (e : EntityRef) :
    Keeps I (appendTimeline env r e) := by
  refine (freezeFull_keeps hI _ _).bind fun _ =>
    (claimTimelineMention_keeps hI _ _ _).bind fun claimed => ?_
  split
  · exact Keeps.change fun s hs => hI.entities s _ hs
  · exact Keeps.pure _

theorem coldRecords_keeps (wanted : List Text) (ps : List Path) (found : List (Text × ActionRecord)) :
    Keeps I (coldRecords P wanted ps found) := by
  induction ps generalizing found with
  | nil => exact Keeps.pure _
  | cons p ps ih =>
    refine (keeps_readFile _ _).bind fun text => ?_
    dsimp only
    split_ifs
    · exact Keeps.pure _
    · exact ih _

theorem locateArchived_keeps (jobs : List Index.JobRow) (located : List (Text × Path)) :
    Keeps I (locateArchived P jobs located) := by
  unfold locateArchived
  dsimp only
  split_ifs
  · exact Keeps.pure _
  · exact Keeps.state.bind fun _ => coldRecords_keeps _ _ _

theorem jobRecord_keeps (job : Index.JobRow) (located : List (Text × Path))
    (archived : List (Text × ActionRecord)) : Keeps I (jobRecord P job located archived) := by
  unfold jobRecord
  split
  · exact (keeps_readFile _ _).bind fun text => (Keeps.ofExcept _).bind fun d => Keeps.pure _
  · split
    · exact Keeps.pure _
    · exact Keeps.fail _

theorem runJob_keeps (hI : JobFrame I) (job : Index.JobRow) (located : List (Text × Path))
    (archived : List (Text × ActionRecord)) : Keeps I (runJob P env job located archived) := by
  refine (jobRecord_keeps _ _ _).bind fun record => ?_
  cases job.kind with
  | bundle => exact Keeps.forM fun e _ => appendTimeline_keeps hI record e
  | subjectLink =>
    dsimp only
    unfold writeSubjectAudit
    split_ifs
    · exact Keeps.pure _
    · exact Keeps.change fun s hs => hI.audit s _ hs
  | other kind => exact Keeps.fail _

/-- What a drain leaves: what running a job does, but for dead letters and the state of
    the jobs. -/
structure DrainFrame (I : Store → Prop) : Prop extends JobFrame I where
  deadLetter : ∀ s t, I s → I { s with deadLetter := t }
  queue : ∀ s rows, (rows.map fun j : Index.JobRow => (j.record, j.kind)) =
    (s.index.fanoutQueue.map fun j => (j.record, j.kind)) →
    I s → I { s with index := { s.index with fanoutQueue := rows } }

theorem SameBodies.drainFrame (σ : Store) : DrainFrame (SameBodies σ) where
  toJobFrame := SameBodies.jobFrame σ
  deadLetter _ _ h := h.trans ⟨rfl, rfl, rfl, rfl, rfl, rfl, rfl, rfl, rfl⟩
  queue _ _ _ h := h.trans ⟨rfl, rfl, rfl, rfl, rfl, rfl, rfl, rfl, rfl⟩

/-- An update of a job's state keeps every job. -/
theorem keeps_updateJob (hI : DrainFrame I) (job : Index.JobRow) {f : Index.JobRow → Index.JobRow}
    (hf : ∀ j, (f j).record = j.record ∧ (f j).kind = j.kind) :
    Keeps I (indexed (change (Index.updateJob job f))) := by
  intro s hs
  refine hI.queue s _ ?_ hs
  rw [List.map_map]
  refine List.map_congr_left fun j _ => ?_
  show ((if _ then f j else j).record, (if _ then f j else j).kind) = (j.record, j.kind)
  split_ifs
  · rw [(hf j).1, (hf j).2]
  · rfl

theorem settleJob_keeps (hI : DrainFrame I) (located : List (Text × Path))
    (archived : List (Text × ActionRecord)) (settled : ℕ) (job : Index.JobRow) :
    Keeps I (settleJob P env located archived settled job) := by
  have hdone : Keeps I (indexed (change (Index.completeFanout job))) :=
    keeps_updateJob hI job fun _ => ⟨rfl, rfl⟩
  refine (runJob_keeps hI.toJobFrame job located archived).attempt.bind fun res => ?_
  cases res with
  | ok u => exact hdone.bind fun _ => Keeps.pure _
  | error reason =>
    dsimp only
    split_ifs
    · exact Keeps.bind (Keeps.change fun s hs => hI.deadLetter s _ hs) fun _ =>
        hdone.bind fun _ => Keeps.pure _
    · refine (keeps_updateJob hI job fun j => ?_).bind fun _ => Keeps.pure _
      split_ifs <;> exact ⟨rfl, rfl⟩

/-- **What a drain leaves.** -/
theorem drainFanout_keeps (hI : DrainFrame I) (P : Pipeline) (env : Env) (maxJobs : ℕ) :
    Keeps I (drainFanout P env maxJobs) := by
  have hclaim : ∀ n, Keeps I (indexed (Index.claimFanout n env.now)) := by
    intro n s hs
    refine hI.queue s _ ?_ hs
    rw [List.map_map]
    refine List.map_congr_left fun j _ => ?_
    simp only [Function.comp_apply]
    split_ifs <;> rfl
  unfold drainFanout
  dsimp only
  split_ifs
  · exact Keeps.pure _
  · refine (hclaim _).bind fun jobs => ?_
    split_ifs
    · exact Keeps.pure _
    · exact Keeps.state.bind fun s => (locateArchived_keeps _ _).bind fun archived =>
        Keeps.foldlM (fun n job _ => settleJob_keeps hI _ _ n job) 0

/-- **A drain leaves the records, the copies, the keys, the logs and the shares as
    they are.** -/
theorem drainFanout_frame (P : Pipeline) (env : Env) (maxJobs : ℕ) (σ : Store) :
    SameBodies σ (drainFanout P env maxJobs σ).2 :=
  drainFanout_keeps (SameBodies.drainFrame σ) P env maxJobs σ (SameBodies.refl σ)

end Yaam.Core
