/-
  Fan-out drained in one process while another rebuilds the index.

  A drain knows the jobs it claimed by the numbers of their rows.  A rebuild frees the numbers
  and gives them out again, in the order of the files.

  * `completeAt` and `failAt` settle a job by its row's number, as the statements do;
    `completeAt_own`: they settle the job that was claimed where the row is still its own;
  * `Site` is an index, what drains hold of it and the jobs that ran since the last rebuild,
    `SiteStep` one transaction, or a handler that starts or returns;
  * `Site.Owns` says of a completion that its row is its job's and that the job's handler
    started after the last rebuild;
  * `reindexAll_refills`: a rebuild that returns leaves the rows and jobs of such a
    transaction;
  * `rebuild_loses_nothing`: in every run whose completions are such, a settled queue has
    run each job of each record since the rebuild;
  * `owns_of_alone`: a rebuild that commits while no drain holds a claim is harmless;
  * `rebuild_skips_job`: a completion that lands on another record's job.
-/
import Yaam.Core.FanoutBudget
import Yaam.Core.Projection
import Yaam.Index.History

namespace Yaam.Core

open Text Contract Eff Index Md

/-! ## Jobs by number -/

/-- A job as it is handed out: the number of its row, which is the row's place as long as no
    row goes, and what was read of it. -/
structure Handout where
  id : ℕ
  job : JobRow
deriving DecidableEq

/-- The number of a job's row. -/
def rowId (i : Tables) (k : JobKey) : ℕ := i.fanoutQueue.findIdx fun r => jobKey r = k

/-- `UPDATE fanout_queue … WHERE id = ?`. -/
def updateAt (id : ℕ) (f : JobRow → JobRow) (i : Tables) : Tables :=
  { i with fanoutQueue := i.fanoutQueue.modify id f }

def completeAt (id : ℕ) : Tables → Tables :=
  updateAt id fun j => { j with state := .done, claimedMs := none }

def failAt (id : ℕ) (notBeforeMs : ℤ) : Tables → Tables :=
  updateAt id fun j =>
    if j.state = .claimed then { j with state := .pending, claimedMs := none, notBeforeMs } else j

/-- The transaction of a rebuild: every record's row and jobs again, in the order of the files. -/
def refill (inputs : List PublishInput) : Eff Tables Index.Error Unit := do
  change truncateDerived
  inputs.forM publish

/-! ## The processes -/

/-- A handout whose handler started, after the last rebuild or before it. -/
structure Begun where
  handout : Handout
  fresh : Bool
deriving DecidableEq

/-- The index, the claims that wait, those whose handler runs and those whose handler returned
    and that are not completed yet, and the jobs that ran from start to end since the last
    rebuild. -/
structure Site where
  index : Tables
  held : List Handout
  running : List Begun
  returned : List Begun
  ran : List JobKey

def Site.start : Site := ⟨.empty, [], [], [], []⟩

/-- One transaction, or one event of a handler, of any process. -/
inductive SiteStep where
  | publish (inp : PublishInput)
  | claim (limit : ℕ) (now : ℤ)
  | start (c : Handout)
  | succeed (b : Begun)
  | complete (b : Begun)
  | giveBack (b : Begun) (notBeforeMs : ℤ)
  | crash (lost : List Handout)
  | reclaim (cutoff : ℤ)
  | rebuild (inputs : List PublishInput)

/-- A handler that started before what happens now. -/
def Begun.stale (b : Begun) : Begun := { b with fresh := false }

/-- The site once a rebuild committed: no timeline is left, and no job ran since. -/
def Site.rebuilt (q : Site) (i : Tables) : Site :=
  { q with
    index := i
    running := q.running.map (·.stale)
    returned := q.returned.map (·.stale)
    ran := [] }

def Site.step (q : Site) : SiteStep → Site
  | .publish inp => { q with index := (atomically (publish inp) q.index).2 }
  | .claim limit now => match claimFanout limit now q.index with
    | (.ok jobs, i) => { q with index := i, held := q.held ++ jobs.map fun j => ⟨rowId i (jobKey j), j⟩ }
    | (.error _, i) => { q with index := i }
  | .start c =>
    if c ∈ q.held then { q with held := q.held.filter (· ≠ c), running := ⟨c, true⟩ :: q.running }
    else q
  | .succeed b =>
    if b ∈ q.running then
      { q with
        running := q.running.filter (· ≠ b)
        returned := b :: q.returned
        ran := if b.fresh then jobKey b.handout.job :: q.ran else q.ran }
    else q
  | .complete b =>
    if b ∈ q.returned then
      { q with index := completeAt b.handout.id q.index, returned := q.returned.filter (· ≠ b) }
    else q
  | .giveBack b notBeforeMs =>
    if b ∈ q.running then
      { q with
        index := failAt b.handout.id notBeforeMs q.index
        running := q.running.filter (· ≠ b) }
    else q
  | .crash lost =>
    { q with
      held := q.held.filter (· ∉ lost)
      running := q.running.filter (·.handout ∉ lost)
      returned := q.returned.filter (·.handout ∉ lost) }
  | .reclaim cutoff => { q with index := (reclaimStaleFanout cutoff q.index).2 }
  | .rebuild inputs => match atomically (refill inputs) q.index with
    | (.ok _, i) => q.rebuilt i
    | (.error _, _) => q

def Site.run : Site → List SiteStep → Site
  | q, [] => q
  | q, a :: as => (q.step a).run as

/-- **What a completion may assume**: the row of the number, unless it is gone or done, is that
    of the job, and the job's handler started after the last rebuild. -/
def Site.Owns (q : Site) : SiteStep → Prop
  | .complete b => b ∈ q.returned → ∀ r ∈ q.index.fanoutQueue[b.handout.id]?,
      r.state ≠ .done → b.fresh = true ∧ jobKey r = jobKey b.handout.job
  | _ => True

def Site.OwnsRun : Site → List SiteStep → Prop
  | _, [] => True
  | q, a :: as => q.Owns a ∧ (q.step a).OwnsRun as

/-- Nothing is left to do. -/
def Site.Settled (q : Site) : Prop := ∀ r ∈ q.index.fanoutQueue, r.state = .done

/-- The jobs of every record have rows; a job whose row is done ran since the last rebuild, and
    so did one whose handler started since and returned. -/
structure Site.Inv (q : Site) : Prop where
  owed : ∀ rec ∈ q.index.records, ∀ j ∈ jobRows rec.frontmatter rec.receivedMs,
    jobKey j ∈ q.index.fanoutQueue.map jobKey
  done : ∀ r ∈ q.index.fanoutQueue, r.state = .done → jobKey r ∈ q.ran
  returned : ∀ b ∈ q.returned, b.fresh = true → jobKey b.handout.job ∈ q.ran

variable {q : Site}

/-! ## Rows -/

theorem mem_modify {α : Type} {rows : List α} {n : ℕ} {f : α → α} {x : α}
    (h : x ∈ rows.modify n f) : x ∈ rows ∨ ∃ y ∈ rows[n]?, x = f y := by
  obtain ⟨m, hm⟩ := List.mem_iff_getElem?.1 h
  rw [List.getElem?_modify] at hm
  obtain ⟨y, hy, rfl⟩ := Option.map_eq_some_iff.1 hm
  by_cases hnm : n = m
  · subst hnm
    rw [if_pos rfl]
    exact .inr ⟨y, hy, rfl⟩
  · rw [if_neg hnm]
    exact .inl (List.mem_of_getElem? hy)

/-- Updating a row by number keeps every row's job. -/
theorem map_jobKey_modify {rows : List JobRow} {n : ℕ} {f : JobRow → JobRow}
    (hf : ∀ r, jobKey (f r) = jobKey r) : (rows.modify n f).map jobKey = rows.map jobKey := by
  refine List.ext_getElem? fun m => ?_
  rw [List.getElem?_map, List.getElem?_map, List.getElem?_modify, Option.map_eq_map, Option.map_map]
  refine congrArg (fun g => Option.map g rows[m]?) ?_
  funext r
  by_cases hnm : n = m
  · simp [hnm, hf]
  · simp [hnm]

/-- **By its number is by its name**, where the row is the job's own. -/
theorem completeAt_own {i : Tables} (hone : (i.fanoutQueue.map jobKey).Nodup) {c : Handout}
    {r : JobRow} (hr : i.fanoutQueue[c.id]? = some r) (hkey : jobKey r = jobKey c.job) :
    completeAt c.id i = completeFanout c.job i := by
  have hplace : ∀ m r', i.fanoutQueue[m]? = some r' →
      ((r'.record = c.job.record ∧ r'.kind = c.job.kind) ↔ c.id = m) := by
    intro m r' hr'
    have hsame : (r'.record = c.job.record ∧ r'.kind = c.job.kind) ↔ jobKey r' = jobKey c.job :=
      Prod.mk.injEq .. ▸ Iff.rfl
    rw [hsame, ← hkey]
    constructor
    · intro hk
      have hm : (i.fanoutQueue.map jobKey)[c.id]? = (i.fanoutQueue.map jobKey)[m]? := by
        rw [List.getElem?_map, List.getElem?_map, hr, hr', Option.map_some, Option.map_some, hk]
      have hlt : c.id < (i.fanoutQueue.map jobKey).length := by
        rw [List.length_map]
        exact (List.getElem?_eq_some_iff.1 hr).1
      exact (List.getElem?_inj hlt hone).1 hm
    · rintro rfl
      rw [Option.some.inj (hr.symm.trans hr')]
  rw [completeAt, updateAt, completeFanout, updateJob]
  congr 1
  refine List.ext_getElem? fun m => ?_
  rw [List.getElem?_modify, List.getElem?_map]
  cases hm : i.fanoutQueue[m]? with
  | none => rfl
  | some r' =>
    rw [Option.map_eq_map, Option.map_some, Option.map_some, if_congr (hplace m r' hm) rfl rfl]

/-! ## What every step keeps -/

/-- More rows, and rows whose jobs are to do, leave what is owed. -/
theorem Site.Inv.enqueue (h : q.Inv) {i : Tables}
    (hrecords : ∀ rec ∈ i.records, rec ∈ q.index.records ∨
      ∀ j ∈ jobRows rec.frontmatter rec.receivedMs, jobKey j ∈ i.fanoutQueue.map jobKey)
    (hkeys : q.index.fanoutQueue.map jobKey ⊆ i.fanoutQueue.map jobKey)
    (hrows : ∀ r ∈ i.fanoutQueue, r.state = .done → r ∈ q.index.fanoutQueue) :
    Site.Inv { q with index := i } where
  owed rec hrec j hj := (hrecords rec hrec).elim (fun hold => hkeys (h.owed rec hold j hj)) fun hnew =>
    hnew j hj
  done r hr hs := h.done r (hrows r hr hs) hs
  returned := h.returned

theorem mem_map_jobKey_jobRows {doc : ActionRecord} {ms ms' : ℤ} {k : JobKey} :
    k ∈ (jobRows doc ms).map jobKey ↔ k ∈ (jobRows doc.bare ms').map jobKey := by
  unfold jobRows
  split_ifs with h h' h'
  · exact Iff.rfl
  · exact absurd h h'
  · exact absurd h' h
  · exact Iff.rfl

theorem Site.Inv.published (h : q.Inv) {inp : PublishInput} {row : RecordRow} {ms : ℤ}
    (hrow : recordRow inp.record inp.searchableBody = .ok row) :
    Site.Inv { q with index := Index.published inp row ms q.index } := by
  obtain ⟨-, -, hfront, -, -⟩ := recordRow_ok hrow
  refine h.enqueue (fun rec hrec => ?_) (fun k hk => ?_) fun r hr => ?_
  · rcases mem_upsert (show rec ∈ insertRecord row q.index.records from hrec) with
      rfl | hold | ⟨old, hold, -, rfl⟩
    · refine .inr fun j hj => ?_
      rw [hfront] at hj
      have hkey : jobKey j ∈ (jobRows inp.record ms).map jobKey :=
        mem_map_jobKey_jobRows.2 (List.mem_map_of_mem hj)
      exact mem_map_key_upsertAll_new _ _ hkey
    · exact .inl hold
    · exact .inl hold
  · obtain ⟨r, hr, rfl⟩ := List.mem_map.1 hk
    exact List.mem_map_of_mem (mem_upsertAll_of_mem _ hr)
  · refine forall_upsertAll (P := fun r : JobRow => r.state = .done → r ∈ q.index.fanoutQueue)
      (fun x hx hs => ?_) (fun y hy _ => hy) (fun _ _ _ _ hy => hy) r hr
    rw [(jobRows_fresh x hx).1] at hs
    cases hs

theorem Site.Inv.publish (h : q.Inv) (inp : PublishInput) : (q.step (.publish inp)).Inv := by
  show Site.Inv { q with index := (atomically (Index.publish inp) q.index).2 }
  cases hx : atomically (Index.publish inp) q.index with
  | mk res i =>
    cases res with
    | error e =>
      rw [← atomically_error hx]
      exact h
    | ok u =>
      obtain ⟨row, ms, hp, -, rfl⟩ := publish_eq_ok.1 (atomically_eq_ok.1 hx)
      exact h.published hp.row

/-- A rebuild starts from nothing, whatever was claimed and done before it. -/
theorem Site.rebuilt_inv (q : Site) : (q.rebuilt .empty).Inv := by
  refine ⟨fun rec hrec => absurd hrec List.not_mem_nil, fun r hr => absurd hr List.not_mem_nil,
    fun b hb hfresh => ?_⟩
  obtain ⟨b', -, rfl⟩ := List.mem_map.1 hb
  cases hfresh

theorem Site.Inv.publishAll {inputs : List PublishInput} {i i' : Tables}
    (h : Site.Inv { q with index := i }) (hx : inputs.forM Index.publish i = (.ok (), i')) :
    Site.Inv { q with index := i' } := by
  induction inputs generalizing i with
  | nil =>
    obtain rfl : i = i' := (Prod.mk.inj hx).2
    exact h
  | cons inp inputs ih =>
    obtain ⟨u, j, hone, hrest⟩ := bind_eq_ok.1 hx
    obtain ⟨row, ms, hp, -, rfl⟩ := publish_eq_ok.1 hone
    exact ih (h.published hp.row) hrest

/-- **After a rebuild every record's jobs are owed.** -/
theorem Site.rebuild_inv (q : Site) {inputs : List PublishInput} {i : Tables}
    (hx : atomically (refill inputs) q.index = (.ok (), i)) : (q.rebuilt i).Inv := by
  have hrun := atomically_eq_ok.1 hx
  rw [refill, change_bind] at hrun
  exact Site.Inv.publishAll (q := q.rebuilt .empty) q.rebuilt_inv hrun

theorem map_jobKey_claim (i : Tables) (limit : ℕ) (now : ℤ) : (i.fanoutQueue.map fun j =>
    if j ∈ readyJobs i limit now then claimRow now j else j).map jobKey =
      i.fanoutQueue.map jobKey := by
  refine map_jobKey_map fun r _ => ?_
  split_ifs <;> rfl

theorem map_jobKey_reclaim (i : Tables) (cutoff : ℤ) :
    (i.fanoutQueue.map (·.reclaim cutoff)).map jobKey = i.fanoutQueue.map jobKey := by
  refine map_jobKey_map fun r _ => ?_
  rw [JobRow.reclaim]
  split_ifs <;> rfl

/-- A row that was claimed is not done. -/
theorem Site.Inv.claim (h : q.Inv) (limit : ℕ) (now : ℤ) : (q.step (.claim limit now)).Inv := by
  refine ⟨fun rec hrec j hj => ?_, fun r hr hs => ?_, h.returned⟩
  · rw [show (q.step (.claim limit now)).index.fanoutQueue.map jobKey = _ from
      map_jobKey_claim q.index limit now]
    exact h.owed rec hrec j hj
  · obtain ⟨r', hr', rfl⟩ := List.mem_map.1 (show r ∈ q.index.fanoutQueue.map fun j =>
      if j ∈ readyJobs q.index limit now then claimRow now j else j from hr)
    by_cases hchosen : r' ∈ readyJobs q.index limit now
    · rw [if_pos hchosen] at hs
      cases hs
    · rw [if_neg hchosen] at hs ⊢
      exact h.done r' hr' hs

theorem Site.Inv.reclaim (h : q.Inv) (cutoff : ℤ) : (q.step (.reclaim cutoff)).Inv := by
  refine ⟨fun rec hrec j hj => ?_, fun r hr hs => ?_, h.returned⟩
  · rw [show (q.step (.reclaim cutoff)).index.fanoutQueue.map jobKey = _ from
      map_jobKey_reclaim q.index cutoff]
    exact h.owed rec hrec j hj
  · obtain ⟨r', hr', rfl⟩ := List.mem_map.1 (show r ∈ q.index.fanoutQueue.map (·.reclaim cutoff) from hr)
    rw [JobRow.reclaim] at hs ⊢
    by_cases hstale : r'.stale cutoff = true
    · rw [if_pos hstale] at hs
      cases hs
    · rw [if_neg hstale] at hs ⊢
      exact h.done r' hr' hs

/-- Settling a row by its number keeps the invariant when a row that gets done has run. -/
theorem Site.Inv.updateAt (h : q.Inv) {id : ℕ} {f : JobRow → JobRow}
    (hf : ∀ r, jobKey (f r) = jobKey r)
    (hdone : ∀ r ∈ q.index.fanoutQueue[id]?, (f r).state = .done → jobKey r ∈ q.ran) :
    Site.Inv { q with index := updateAt id f q.index } := by
  refine ⟨fun rec hrec j hj => ?_, fun r hr hs => ?_, h.returned⟩
  · show jobKey j ∈ (q.index.fanoutQueue.modify id f).map jobKey
    rw [map_jobKey_modify hf]
    exact h.owed rec hrec j hj
  · rcases mem_modify (show r ∈ q.index.fanoutQueue.modify id f from hr) with hr | ⟨r', hr', rfl⟩
    · exact h.done r hr hs
    · rw [hf]
      exact hdone r' hr' hs

theorem Site.Inv.complete (h : q.Inv) {b : Begun} (hown : q.Owns (.complete b)) :
    (q.step (.complete b)).Inv := by
  simp only [Site.step]
  by_cases hb : b ∈ q.returned
  · rw [if_pos hb]
    have hrow : Site.Inv { q with index := completeAt b.handout.id q.index } := by
      refine h.updateAt (fun _ => rfl) fun r hr _ => ?_
      by_cases hs : r.state = .done
      · exact h.done r (List.mem_of_getElem? hr) hs
      · obtain ⟨hfresh, hkey⟩ := hown hb r hr hs
        exact hkey ▸ h.returned b hb hfresh
    exact ⟨hrow.owed, hrow.done, fun b' hb' => h.returned b' (List.mem_of_mem_filter hb')⟩
  · rw [if_neg hb]
    exact h

theorem Site.Inv.giveBack (h : q.Inv) (b : Begun) (notBeforeMs : ℤ) :
    (q.step (.giveBack b notBeforeMs)).Inv := by
  simp only [Site.step]
  by_cases hb : b ∈ q.running
  · rw [if_pos hb]
    have hrow : Site.Inv { q with index := failAt b.handout.id notBeforeMs q.index } := by
      refine h.updateAt (fun r => ?_) fun r hr hs => ?_
      · split_ifs <;> rfl
      · by_cases hclaimed : r.state = .claimed
        · rw [if_pos hclaimed] at hs
          cases hs
        · rw [if_neg hclaimed] at hs
          exact h.done r (List.mem_of_getElem? hr) hs
    exact ⟨hrow.owed, hrow.done, hrow.returned⟩
  · rw [if_neg hb]
    exact h

theorem Site.Inv.succeed (h : q.Inv) (b : Begun) : (q.step (.succeed b)).Inv := by
  simp only [Site.step]
  by_cases hb : b ∈ q.running
  · rw [if_pos hb]
    have hran : q.ran ⊆ if b.fresh then jobKey b.handout.job :: q.ran else q.ran := by
      split_ifs
      · exact List.subset_cons_self _ _
      · exact List.Subset.refl _
    refine ⟨h.owed, fun r hr hs => hran (h.done r hr hs), fun b' hb' hfresh => ?_⟩
    rcases List.mem_cons.1 hb' with rfl | hb'
    · show _ ∈ if b'.fresh then _ else _
      rw [if_pos hfresh]
      exact List.mem_cons_self
    · exact hran (h.returned b' hb' hfresh)
  · rw [if_neg hb]
    exact h

/-- **One step keeps the invariant.** -/
theorem Site.Inv.step (h : q.Inv) {a : SiteStep} (hown : q.Owns a) : (q.step a).Inv := by
  cases a with
  | publish inp => exact h.publish inp
  | claim limit now => exact h.claim limit now
  | start c =>
    simp only [Site.step]
    split_ifs
    · exact ⟨h.owed, h.done, h.returned⟩
    · exact h
  | succeed b => exact h.succeed b
  | complete b => exact h.complete hown
  | giveBack b notBeforeMs => exact h.giveBack b notBeforeMs
  | crash lost =>
    exact ⟨h.owed, h.done, fun b hb => h.returned b (List.mem_of_mem_filter hb)⟩
  | reclaim cutoff => exact h.reclaim cutoff
  | rebuild inputs =>
    simp only [Site.step]
    cases hx : atomically (refill inputs) q.index with
    | mk res i =>
      cases res with
      | error e => exact h
      | ok u => exact q.rebuild_inv hx

theorem Site.Inv.run (h : q.Inv) {as : List SiteStep} (hown : q.OwnsRun as) : (q.run as).Inv := by
  induction as generalizing q with
  | nil => exact h
  | cons a as ih => exact ih (h.step hown.1) hown.2

/-- **A rebuild loses no fan-out**: whatever drains held when it committed, in every run after it
    whose completions own their rows, a settled queue has run every job of every indexed record
    since the last rebuild. -/
theorem rebuild_loses_nothing {inputs : List PublishInput} {i : Tables}
    (hrebuild : atomically (refill inputs) q.index = (.ok (), i)) {as : List SiteStep}
    (hown : (q.step (.rebuild inputs)).OwnsRun as)
    (hsettled : ((q.step (.rebuild inputs)).run as).Settled) :
    ∀ rec ∈ ((q.step (.rebuild inputs)).run as).index.records,
      ∀ j ∈ jobRows rec.frontmatter rec.receivedMs,
        jobKey j ∈ ((q.step (.rebuild inputs)).run as).ran := by
  have hstart : (q.step (.rebuild inputs)).Inv := by
    simp only [Site.step, hrebuild]
    exact q.rebuild_inv hrebuild
  have h := hstart.run hown
  intro rec hrec j hj
  obtain ⟨r, hr, hkey⟩ := List.mem_map.1 (h.owed rec hrec j hj)
  exact hkey ▸ h.done r hr (hsettled r hr)

/-! ## The rebuild of a store -/

/-- An index with the rows and jobs that a run of publishes into an empty one leaves. -/
def Refilled (σ : Store) : Prop :=
  ∃ inputs i, List.forM inputs Index.publish .empty = (.ok (), i) ∧ i.records = σ.index.records ∧
    i.fanoutQueue = σ.index.fanoutQueue

theorem inBatch_refilled (inp : PublishInput) :
    Triple Refilled (inBatch (Index.publish inp)) (fun _ => Refilled) Undone := by
  refine Triple.of_cases (fun σ σ' u hσ hx => ?_) fun _ _ _ _ _ => trivial
  obtain ⟨inputs, i, hrun, hrecords, hqueue⟩ := hσ
  obtain ⟨j, hj, rfl⟩ := zoom_eq_ok.1 hx
  obtain ⟨row, ms, hp, hms, rfl⟩ := publish_eq_ok.1 (mapError_eq_ok.1 hj)
  rw [← hrecords] at hms
  refine ⟨inputs ++ [inp], Index.published inp row ms i, ?_, ?_, ?_⟩
  · rw [List.forM_eq_forM, List.forM_append]
    refine bind_eq_ok.2 ⟨(), i, hrun, ?_⟩
    exact bind_eq_ok.2 ⟨(), _, publish_eq_ok.2 ⟨row, ms, hp, hms, rfl⟩, rfl⟩
  · exact congrArg (insertRecord row) hrecords
  · exact congrArg (enqueueFanout inp.record ms) hqueue

theorem indexFile_refilled {P : Pipeline} (n : ℕ × ℕ) (p : Path) :
    Triple Refilled (indexFile P n p) (fun _ => Refilled) Undone := by
  refine readFile_triple.bind fun text => ?_
  cases Document.parse P.yaml text with
  | error e => exact Triple.pure fun _ hs => hs.1
  | ok d =>
    have hpub := (inBatch_refilled (publishInput d)).bind fun _ =>
      (Triple.pure fun _ h => h : Triple Refilled (Pure.pure (n.1 + 1, n.2)) (fun _ => Refilled) Undone)
    exact hpub.before fun _ hs => hs.1

theorem indexManifest_refilled {P : Pipeline} (n : ℕ × ℕ) (p : Path) :
    Triple Refilled (indexManifest P n p) (fun _ => Refilled) Undone := by
  refine readFile_triple.bind fun text => ?_
  refine Triple.before (Triple.foldlM (fun n l _ => ?_) n) fun _ hs => hs.1
  unfold indexLine
  cases manifestRecord P l with
  | error e => exact Triple.pure fun _ h => h
  | ok r => exact (inBatch_refilled ⟨r, [], []⟩).bind fun _ => Triple.pure fun _ h => h

theorem reregisterFile_refilled {P : Pipeline} {env : Env} (p : Path) :
    Triple Refilled (reregisterFile P env p) (fun _ => Refilled) Undone := by
  refine readFile_triple.bind fun text => ?_
  cases Document.parse P.yaml text with
  | error e => exact Triple.pure fun _ hs => hs.1
  | ok d =>
    refine Triple.of_cases (fun σ σ' u hσ hx => ?_) fun _ _ _ _ _ => trivial
    obtain ⟨st, τ, h1, hx⟩ := bind_eq_ok.1 hx
    obtain ⟨-, rfl⟩ := ofExcept_eq_ok.1 h1
    obtain ⟨j, hj, rfl⟩ := zoom_eq_ok.1 hx
    obtain rfl := change_eq_ok.1 (mapError_eq_ok.1 hj)
    exact hσ.1

/-- **A rebuild that returns has refilled the index.** -/
theorem reindexAll_refills {P : Pipeline} {env : Env} {σ σ' : Store} {report : ReindexReport}
    (h : reindexAll P env σ = (.ok report, σ')) : Refilled σ' := by
  obtain ⟨n, τ, -, h⟩ := bind_eq_ok.1 h
  rw [state_bind] at h
  have hbody : Triple Refilled (do
      let dropped ← dropTimelines
      let tree ← (Sources.list P τ).tree.foldlM (indexFile P) (0, 0)
      let manifests ← (Sources.list P τ).manifests.foldlM (indexManifest P) (0, 0)
      forM (Sources.list P τ).quarantine (reregisterFile P env)
      return (⟨tree.1, manifests.1, tree.2 + manifests.2, n, dropped⟩ : ReindexReport))
      (fun _ => Refilled) Undone := by
    have hdrop : Triple Refilled dropTimelines (fun _ => Refilled) Undone := fun _ hs => hs
    refine hdrop.bind fun dropped => ?_
    refine (Triple.foldlM (fun n p _ => indexFile_refilled n p) (0, 0)).bind fun tree => ?_
    refine (Triple.foldlM (fun n p _ => indexManifest_refilled n p) (0, 0)).bind fun manifests => ?_
    exact (Triple.forM fun p _ => reregisterFile_refilled p).bind fun _ => Triple.pure fun _ h => h
  have hempty : Refilled { τ with index := .empty } := ⟨[], .empty, rfl, rfl, rfl⟩
  have htrunc : (inBatch (change truncateDerived) : StoreM Unit) τ =
      (.ok (), { τ with index := .empty }) := rfl
  have hrun := hbody _ hempty
  unfold rebuild transaction at h
  rw [bind_of_ok htrunc] at h
  split at h
  · rename_i hx
    rw [hx] at hrun
    cases h
    exact hrun
  · cases h

/-! ## A rebuild on its own -/

/-- A step that is no rebuild, or a rebuild while no drain holds a claim. -/
def Site.Alone (q : Site) : SiteStep → Prop
  | .rebuild _ => q.held = [] ∧ q.running = [] ∧ q.returned = []
  | _ => True

def Site.AloneRun : Site → List SiteStep → Prop
  | _, [] => True
  | q, a :: as => q.Alone a ∧ (q.step a).AloneRun as

/-- Every claim has its own row, and every handler started since the last rebuild. -/
structure Site.Tidy (q : Site) : Prop where
  held : ∀ c ∈ q.held, (q.index.fanoutQueue.map jobKey)[c.id]? = some (jobKey c.job)
  running : ∀ b ∈ q.running, b.fresh = true ∧
    (q.index.fanoutQueue.map jobKey)[b.handout.id]? = some (jobKey b.handout.job)
  returned : ∀ b ∈ q.returned, b.fresh = true ∧
    (q.index.fanoutQueue.map jobKey)[b.handout.id]? = some (jobKey b.handout.job)

theorem Site.Tidy.start : Site.start.Tidy :=
  ⟨fun _ h => absurd h List.not_mem_nil, fun _ h => absurd h List.not_mem_nil,
    fun _ h => absurd h List.not_mem_nil⟩

/-- Rows that are added take no number from one that stands. -/
theorem Site.Tidy.congr (h : q.Tidy) {i : Tables}
    (hkeys : q.index.fanoutQueue.map jobKey <+: i.fanoutQueue.map jobKey) :
    Site.Tidy { q with index := i } := by
  obtain ⟨new, hnew⟩ := hkeys
  have hstays : ∀ {n : ℕ} {k : JobKey}, (q.index.fanoutQueue.map jobKey)[n]? = some k →
      (i.fanoutQueue.map jobKey)[n]? = some k := by
    intro n k hk
    rw [← hnew, List.getElem?_append_left (List.getElem?_eq_some_iff.1 hk).1]
    exact hk
  exact ⟨fun c hc => hstays (h.held c hc), fun b hb => ⟨(h.running b hb).1, hstays (h.running b hb).2⟩,
    fun b hb => ⟨(h.returned b hb).1, hstays (h.returned b hb).2⟩⟩

theorem Site.Tidy.update (h : q.Tidy) {i : Tables}
    (hkeys : i.fanoutQueue.map jobKey = q.index.fanoutQueue.map jobKey) :
    Site.Tidy { q with index := i } :=
  h.congr ⟨[], by rw [List.append_nil, hkeys]⟩

theorem Site.Tidy.publish (h : q.Tidy) (inp : PublishInput) : (q.step (.publish inp)).Tidy := by
  show Site.Tidy { q with index := (atomically (Index.publish inp) q.index).2 }
  cases hx : atomically (Index.publish inp) q.index with
  | mk res i =>
    cases res with
    | error e =>
      rw [← atomically_error hx]
      exact h
    | ok u =>
      obtain ⟨row, ms, -, -, rfl⟩ := publish_eq_ok.1 (atomically_eq_ok.1 hx)
      exact h.congr (prefix_map_key_upsertAll _ _)

theorem getElem?_rowId {i : Tables} {k : JobKey} (h : k ∈ i.fanoutQueue.map jobKey) :
    (i.fanoutQueue.map jobKey)[rowId i k]? = some k := by
  obtain ⟨r, hr, rfl⟩ := List.mem_map.1 h
  have hlt : rowId i (jobKey r) < i.fanoutQueue.length :=
    List.findIdx_lt_length_of_exists ⟨r, hr, decide_eq_true rfl⟩
  rw [List.getElem?_map, List.getElem?_eq_getElem hlt, Option.map_some]
  exact congrArg some (of_decide_eq_true (List.findIdx_getElem (w := hlt)))

theorem Site.Tidy.step (h : q.Tidy) {a : SiteStep} (halone : q.Alone a) : (q.step a).Tidy := by
  cases a with
  | publish inp => exact h.publish inp
  | claim limit now =>
    have hindex : Site.Tidy { q with index := (q.step (.claim limit now)).index } :=
      h.update (map_jobKey_claim q.index limit now)
    refine ⟨fun c hc => ?_, hindex.running, hindex.returned⟩
    rcases List.mem_append.1 (show c ∈ q.held ++ ((readyJobs q.index limit now).map
      (claimRow now)).map fun j => ⟨rowId (q.step (.claim limit now)).index (jobKey j), j⟩ from hc)
      with hc | hc
    · exact hindex.held c hc
    · obtain ⟨j, hj, rfl⟩ := List.mem_map.1 hc
      obtain ⟨r, hr, rfl⟩ := List.mem_map.1 hj
      refine getElem?_rowId ?_
      show jobKey r ∈ _
      rw [show (q.step (.claim limit now)).index.fanoutQueue.map jobKey = _ from
        map_jobKey_claim q.index limit now]
      exact List.mem_map_of_mem (mem_readyJobs hr).1
  | start c =>
    simp only [Site.step]
    split_ifs with hc
    · refine ⟨fun c' hc' => h.held c' (List.mem_of_mem_filter hc'), fun b hb => ?_, h.returned⟩
      rcases List.mem_cons.1 hb with rfl | hb
      · exact ⟨rfl, h.held c hc⟩
      · exact h.running b hb
    · exact h
  | succeed b =>
    simp only [Site.step]
    by_cases hb : b ∈ q.running
    · rw [if_pos hb]
      refine ⟨h.held, fun b' hb' => h.running b' (List.mem_of_mem_filter hb'), fun b' hb' => ?_⟩
      rcases List.mem_cons.1 hb' with rfl | hb'
      · exact h.running b' hb
      · exact h.returned b' hb'
    · rw [if_neg hb]
      exact h
  | complete b =>
    simp only [Site.step]
    split_ifs
    · have hindex : Site.Tidy { q with index := completeAt b.handout.id q.index } :=
        h.update (map_jobKey_modify fun _ => rfl)
      exact ⟨hindex.held, hindex.running,
        fun b' hb' => hindex.returned b' (List.mem_of_mem_filter hb')⟩
    · exact h
  | giveBack b notBeforeMs =>
    simp only [Site.step]
    split_ifs
    · have hindex : Site.Tidy { q with index := failAt b.handout.id notBeforeMs q.index } :=
        h.update (map_jobKey_modify fun r => by split_ifs <;> rfl)
      exact ⟨hindex.held, fun b' hb' => hindex.running b' (List.mem_of_mem_filter hb'),
        hindex.returned⟩
    · exact h
  | crash lost =>
    exact ⟨fun c hc => h.held c (List.mem_of_mem_filter hc),
      fun b hb => h.running b (List.mem_of_mem_filter hb),
      fun b hb => h.returned b (List.mem_of_mem_filter hb)⟩
  | reclaim cutoff => exact h.update (map_jobKey_reclaim q.index cutoff)
  | rebuild inputs =>
    obtain ⟨hheld, hrunning, hreturned⟩ := halone
    simp only [Site.step]
    split
    · refine ⟨?_, ?_, ?_⟩
      · simp [Site.rebuilt, hheld]
      · simp [Site.rebuilt, hrunning]
      · simp [Site.rebuilt, hreturned]
    · exact h

/-- **A rebuild that commits while no drain holds a claim is harmless.** -/
theorem owns_of_alone (h : q.Tidy) {as : List SiteStep} (halone : q.AloneRun as) : q.OwnsRun as := by
  induction as generalizing q with
  | nil => trivial
  | cons a as ih =>
    refine ⟨?_, ih (h.step halone.1) halone.2⟩
    cases a with
    | complete b =>
      intro hb r hr _
      obtain ⟨hfresh, hrow⟩ := h.returned b hb
      rw [List.getElem?_map, hr] at hrow
      exact ⟨hfresh, Option.some.inj hrow⟩
    | _ => trivial

/-! ## Another record's job -/

/-- Notes about a ticket; the one received later has the earlier file. -/
def firstNote : PublishInput :=
  ticketInput (lettered 'B' isCrockfordDigit_B) "2026-01-01T00:00:00Z".toList [.primary]

def secondNote : PublishInput :=
  ticketInput (lettered 'A' isCrockfordDigit_A) "2026-01-01T00:00:00Z".toList [.primary]

/-- The job of a note, as it is handed out. -/
def noteJob (n : PublishInput) : JobRow :=
  ⟨n.record.recordId, .bundle, .claimed, 1, 1767225600000, 0, some 1767225600000⟩

/-- A drain that claimed the first note's job and ran it. -/
def ranFirst : List SiteStep :=
  [.publish firstNote, .publish secondNote, .claim 1 1767225600000, .start ⟨0, noteJob firstNote⟩,
    .succeed ⟨⟨0, noteJob firstNote⟩, true⟩]

/-- Another drain does the job whose row has a number. -/
def doJob (id : ℕ) (n : PublishInput) : List SiteStep :=
  [.claim 1 1767225600000, .start ⟨id, noteJob n⟩, .succeed ⟨⟨id, noteJob n⟩, true⟩,
    .complete ⟨⟨id, noteJob n⟩, true⟩]

instance (q : Site) (a : SiteStep) : Decidable (q.Owns a) := by
  cases a with
  | complete b =>
    exact inferInstanceAs (Decidable (b ∈ q.returned → ∀ r ∈ q.index.fanoutQueue[b.handout.id]?,
      r.state ≠ .done → b.fresh = true ∧ jobKey r = jobKey b.handout.job))
  | _ => exact .isTrue trivial

instance (q : Site) (as : List SiteStep) : Decidable (q.OwnsRun as) := by
  induction as generalizing q with
  | nil => exact .isTrue trivial
  | cons a as ih => exact @instDecidableAnd _ _ inferInstance (ih _)

instance (q : Site) : Decidable q.Settled :=
  inferInstanceAs (Decidable (∀ r ∈ q.index.fanoutQueue, r.state = .done))

/-- The drain dies before it completes the job; another does both. -/
def doBoth : List SiteStep :=
  .crash [⟨0, noteJob firstNote⟩] :: (doJob 0 secondNote ++ doJob 1 firstNote)

theorem rebuild_loses_nothing_crash :
    jobKey (noteJob firstNote) ∈ (((Site.start.run ranFirst).step
      (.rebuild [secondNote, firstNote])).run doBoth).ran ∧
    jobKey (noteJob secondNote) ∈ (((Site.start.run ranFirst).step
      (.rebuild [secondNote, firstNote])).run doBoth).ran := by
  have hok : (atomically (refill [secondNote, firstNote]) (Site.start.run ranFirst).index).1 =
      .ok () :=
    ok_of_toOption (by decide +kernel)
  have hown : ((Site.start.run ranFirst).step (.rebuild [secondNote, firstNote])).OwnsRun doBoth := by
    decide +kernel
  have hall := rebuild_loses_nothing (Prod.ext hok rfl) hown (by decide +kernel)
  have howed : ∀ n ∈ [firstNote, secondNote], ∃ rec ∈ (((Site.start.run ranFirst).step
      (.rebuild [secondNote, firstNote])).run doBoth).index.records,
        ∃ j ∈ jobRows rec.frontmatter rec.receivedMs, jobKey j = jobKey (noteJob n) := by
    decide +kernel
  refine ⟨?_, ?_⟩
  · obtain ⟨rec, hrec, j, hj, hkey⟩ := howed firstNote (by simp)
    exact hkey ▸ hall rec hrec j hj
  · obtain ⟨rec, hrec, j, hj, hkey⟩ := howed secondNote (by simp)
    exact hkey ▸ hall rec hrec j hj

/-- **A job that nobody ran is marked done**: the drain completes the first row, which is now the
    other note's. -/
theorem rebuild_skips_job :
    (((Site.start.run ranFirst).step (.rebuild [secondNote, firstNote])).run
      (.complete ⟨⟨0, noteJob firstNote⟩, false⟩ :: doJob 1 firstNote)).Settled ∧
    jobKey (noteJob secondNote) ∉ (((Site.start.run ranFirst).step
      (.rebuild [secondNote, firstNote])).run
        (.complete ⟨⟨0, noteJob firstNote⟩, false⟩ :: doJob 1 firstNote)).ran ∧
    ∃ rec ∈ (((Site.start.run ranFirst).step (.rebuild [secondNote, firstNote])).run
      (.complete ⟨⟨0, noteJob firstNote⟩, false⟩ :: doJob 1 firstNote)).index.records,
        ∃ j ∈ jobRows rec.frontmatter rec.receivedMs, jobKey j = jobKey (noteJob secondNote) := by
  refine ⟨?_, ?_, ?_⟩
  · decide +kernel
  · decide +kernel
  · decide +kernel

end Yaam.Core
