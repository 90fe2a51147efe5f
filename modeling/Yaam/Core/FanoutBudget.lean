/-
  The retry budget of fan-out, over runs of the queue.

  * `Queue` is the index's queue with the claims that drains hold, `QueueStep` one
    step of a publish, a drain, a crash or a sweep;
  * `Queue.Inv` is what the steps keep: a claim in hand is its row's last, and no row
    is claimed more often than the budget;
  * `budget_binds`: in every run in which no process dies with a job's last claim and
    no sweep takes back the claim of a drain still running, the budget binds.
-/
import Yaam.Core.Resolve
import Yaam.Core.Fanout

namespace Yaam.Core

open Text Contract Eff Index

/-! ## The queue and those who hold its claims -/

/-- What names a job. -/
abbrev JobKey := RecordId × JobKind

def jobKey (j : JobRow) : JobKey := (j.record, j.kind)

/-- The queue, the claims not yet handed to a handler and those whose handler runs,
    with what has happened so far: the hand-outs, the successes and the dead letters. -/
structure Queue where
  index : Tables
  held : List JobRow
  running : List JobRow
  handed : List JobKey
  succeeded : List JobKey
  letters : List JobKey

def Queue.start : Queue := ⟨.empty, [], [], [], [], []⟩

/-- One step: a publish, a claim, a handler that starts or returns, the end of a
    process with the claims it held, or a sweep's reclaim. -/
inductive QueueStep where
  | publish (inp : PublishInput)
  | claim (limit : ℕ) (now : ℤ)
  | start (job : JobRow)
  | finish (job : JobRow) (success : Bool) (now : ℤ)
  | crash (lost : List JobRow)
  | reclaim (cutoff : ℤ)

/-- The queue after a handler returned: as `settleJob` settles the job. -/
def Queue.finish (q : Queue) (job : JobRow) (success : Bool) (now : ℤ) : Queue :=
  let running := q.running.filter (· ≠ job)
  if success then
    { q with index := completeFanout job q.index, running, succeeded := jobKey job :: q.succeeded }
  else if fanoutMaxAttempts ≤ job.attempts then
    { q with index := completeFanout job q.index, running, letters := jobKey job :: q.letters }
  else { q with index := failFanout job (now + backoffMs job.attempts) q.index, running }

def Queue.step (q : Queue) : QueueStep → Queue
  | .publish inp => { q with index := (atomically (publish inp) q.index).2 }
  | .claim limit now => match claimFanout limit now q.index with
    | (.ok jobs, i) => { q with index := i, held := q.held ++ jobs }
    | (.error _, i) => { q with index := i }
  | .start job =>
    if job ∈ q.held then
      { q with
        held := q.held.filter (· ≠ job)
        running := job :: q.running
        handed := jobKey job :: q.handed }
    else q
  | .finish job success now => if job ∈ q.running then q.finish job success now else q
  | .crash lost =>
    { q with held := q.held.filter (· ∉ lost), running := q.running.filter (· ∉ lost) }
  | .reclaim cutoff => { q with index := (reclaimStaleFanout cutoff q.index).2 }

/-- Every claim that some drain holds. -/
def Queue.claims (q : Queue) : List JobRow := q.held ++ q.running

/-- A step at which no job's last claim is lost and no live claim is taken back. -/
def Queue.Safe (q : Queue) : QueueStep → Prop
  | .crash lost => ∀ j ∈ q.claims, j ∈ lost → j.attempts < fanoutMaxAttempts
  | .reclaim cutoff => ∀ r ∈ q.index.fanoutQueue, r.stale cutoff = true →
      ∀ j ∈ q.claims, jobKey j ≠ jobKey r
  | _ => True

def Queue.run : Queue → List QueueStep → Queue
  | q, [] => q
  | q, a :: as => (q.step a).run as

/-- Every step of a run is safe where it happens. -/
def Queue.SafeRun : Queue → List QueueStep → Prop
  | _, [] => True
  | q, a :: as => q.Safe a ∧ (q.step a).SafeRun as

theorem Queue.run_append (q : Queue) (as bs : List QueueStep) :
    q.run (as ++ bs) = (q.run as).run bs := by
  induction as generalizing q with
  | nil => rfl
  | cons a as ih => exact ih _

theorem Queue.SafeRun.append {q : Queue} {as bs : List QueueStep} (h : q.SafeRun (as ++ bs)) :
    q.SafeRun as ∧ (q.run as).SafeRun bs := by
  induction as generalizing q with
  | nil => exact ⟨trivial, h⟩
  | cons a as ih => exact ⟨⟨h.1, (ih h.2).1⟩, (ih h.2).2⟩

/-! ## What the steps keep -/

/-- One row of a queue for each job; a waiting row has budget left; a claimed row that
    has none is held; what is held is its row's last claim. -/
structure Queue.Inv (q : Queue) : Prop where
  oneRow : (q.index.fanoutQueue.map jobKey).Nodup
  oneClaim : (q.claims.map jobKey).Nodup
  waiting : ∀ r ∈ q.index.fanoutQueue, r.state = .pending → r.attempts < fanoutMaxAttempts
  claimed : ∀ r ∈ q.index.fanoutQueue, r.state = .claimed → r.attempts < fanoutMaxAttempts ∨
    ∃ j ∈ q.claims, jobKey j = jobKey r
  current : ∀ j ∈ q.claims, ∃ r ∈ q.index.fanoutQueue, jobKey r = jobKey j ∧ r.state = .claimed ∧
    r.attempts = j.attempts
  bounded : ∀ r ∈ q.index.fanoutQueue, r.attempts ≤ fanoutMaxAttempts
  counted : ∀ r ∈ q.index.fanoutQueue,
    q.handed.count (jobKey r) + (q.held.map jobKey).count (jobKey r) ≤ r.attempts
  known : ∀ k ∈ q.handed, ∃ r ∈ q.index.fanoutQueue, jobKey r = k
  settled : ∀ r ∈ q.index.fanoutQueue, r.state = .done →
    jobKey r ∈ q.succeeded ∨ jobKey r ∈ q.letters

theorem Queue.start_inv : Queue.start.Inv := by
  have hrows : ∀ r, r ∉ Queue.start.index.fanoutQueue := fun r => List.not_mem_nil
  have hclaims : ∀ j, j ∉ Queue.start.claims := fun j => List.not_mem_nil
  have hhanded : ∀ k, k ∉ Queue.start.handed := fun k => List.not_mem_nil
  exact ⟨List.nodup_nil, List.nodup_nil, fun r hr => absurd hr (hrows r),
    fun r hr => absurd hr (hrows r), fun j hj => absurd hj (hclaims j),
    fun r hr => absurd hr (hrows r), fun r hr => absurd hr (hrows r),
    fun k hk => absurd hk (hhanded k), fun r hr => absurd hr (hrows r)⟩

/-- Rows of one key are one row. -/
theorem eq_of_jobKey {rows : List JobRow} (h : (rows.map jobKey).Nodup) {r r' : JobRow}
    (hr : r ∈ rows) (hr' : r' ∈ rows) (hk : jobKey r = jobKey r') : r = r' :=
  List.inj_on_of_nodup_map h hr hr' hk

/-- Updating rows keeps their keys. -/
theorem map_jobKey_map {rows : List JobRow} {f : JobRow → JobRow}
    (hf : ∀ r ∈ rows, jobKey (f r) = jobKey r) : (rows.map f).map jobKey = rows.map jobKey := by
  rw [List.map_map]
  exact List.map_congr_left hf

theorem count_map_of_notMem {rows : List JobRow} {k : JobKey} (h : ∀ r ∈ rows, jobKey r ≠ k) :
    (rows.map jobKey).count k = 0 := by
  rw [List.count_eq_zero]
  intro hm
  obtain ⟨r, hr, hk⟩ := List.mem_map.1 hm
  exact h r hr hk

variable {q : Queue}

/-! ## Claims -/

theorem mem_readyJobs {i : Tables} {limit : ℕ} {now : ℤ} {r : JobRow}
    (h : r ∈ readyJobs i limit now) : r ∈ i.fanoutQueue ∧ r.state = .pending := by
  have hm := (List.mem_insertionSort _).1 (List.mem_of_mem_take h)
  have hf := List.mem_filter.1 hm
  simp only [Bool.decide_and, Bool.and_eq_true, decide_eq_true_eq] at hf
  exact ⟨hf.1, hf.2.1⟩

theorem nodup_readyJobs {i : Tables} (h : (i.fanoutQueue.map jobKey).Nodup) (limit : ℕ) (now : ℤ) :
    ((readyJobs i limit now).map jobKey).Nodup := by
  have hsort : ((((i.fanoutQueue.filter fun j => j.state = .pending ∧ j.notBeforeMs ≤ now)
      ).insertionSort fun a b => a.enqueuedMs ≤ b.enqueuedMs).map jobKey).Nodup := by
    rw [((List.perm_insertionSort _ _).map jobKey).nodup_iff]
    exact h.sublist (List.filter_sublist.map jobKey)
  exact hsort.sublist ((List.take_sublist _ _).map jobKey)

/-- A job claimed at an instant. -/
def claimRow (now : ℤ) (j : JobRow) : JobRow :=
  { j with state := .claimed, attempts := j.attempts + 1, claimedMs := some now }

/-- A claim hands out waiting rows, and marks them. -/
theorem Queue.Inv.claim (h : q.Inv) (limit : ℕ) (now : ℤ) : (q.step (.claim limit now)).Inv := by
  set chosen := readyJobs q.index limit now with hchosen
  have hstep : q.step (.claim limit now) = { q with
      index := { q.index with fanoutQueue := q.index.fanoutQueue.map fun j =>
        if j ∈ chosen then claimRow now j else j }
      held := q.held ++ chosen.map (claimRow now) } := rfl
  have hready : ∀ r ∈ chosen, r ∈ q.index.fanoutQueue ∧ r.state = .pending := fun r hr =>
    mem_readyJobs hr
  have hnodup : (chosen.map jobKey).Nodup := nodup_readyJobs h.oneRow limit now
  have hkeys : (chosen.map (claimRow now)).map jobKey = chosen.map jobKey :=
    map_jobKey_map fun r _ => rfl
  -- a row that a drain holds is claimed already
  have hfree : ∀ r ∈ chosen, ∀ j ∈ q.claims, jobKey j ≠ jobKey r := by
    intro r hr j hj hk
    obtain ⟨r', hr', hk', hs, -⟩ := h.current j hj
    obtain rfl := eq_of_jobKey h.oneRow hr' (hready r hr).1 (hk'.trans hk)
    rw [(hready r' hr).2] at hs
    cases hs
  have hrow : ∀ {r'}, (r' ∈ q.index.fanoutQueue.map fun j => if j ∈ chosen then claimRow now j else j) →
      (∃ r ∈ chosen, r' = claimRow now r) ∨ (r' ∈ q.index.fanoutQueue ∧ r' ∉ chosen) := by
    intro r' hr'
    obtain ⟨r, hr, rfl⟩ := List.mem_map.1 hr'
    by_cases hc : r ∈ chosen
    · exact .inl ⟨r, hc, by rw [if_pos hc]⟩
    · rw [if_neg hc]
      exact .inr ⟨hr, hc⟩
  have hnew : ∀ {r}, r ∈ q.index.fanoutQueue →
      (if r ∈ chosen then claimRow now r else r) ∈ (q.index.fanoutQueue.map fun j =>
        if j ∈ chosen then claimRow now j else j) := fun hr => List.mem_map_of_mem hr
  have hmem : ∀ {j}, j ∈ (q.step (.claim limit now)).claims ↔
      j ∈ q.claims ∨ j ∈ chosen.map (claimRow now) := by
    intro j
    rw [hstep]
    simp only [Queue.claims, List.mem_append]
    tauto
  refine ⟨?_, ?_, fun r' hr' hs => ?_, fun r' hr' hs => ?_, fun j hj => ?_, fun r' hr' => ?_,
    fun r' hr' => ?_, fun k hk => ?_, fun r' hr' hs => ?_⟩
  · show ((q.index.fanoutQueue.map _).map jobKey).Nodup
    rw [map_jobKey_map fun r _ => by split_ifs <;> rfl]
    exact h.oneRow
  · rw [hstep]
    show ((q.held ++ chosen.map (claimRow now) ++ q.running).map jobKey).Nodup
    have hperm : ((q.held ++ chosen.map (claimRow now) ++ q.running).map jobKey).Perm
        (chosen.map jobKey ++ q.claims.map jobKey) := by
      rw [← hkeys, ← List.map_append]
      refine List.Perm.map _ ?_
      rw [Queue.claims, List.append_assoc, ← List.append_assoc, ← List.append_assoc]
      exact List.perm_append_comm.append_right _
    rw [hperm.nodup_iff, List.nodup_append]
    refine ⟨hnodup, h.oneClaim, fun k hk k' hk' hne => ?_⟩
    obtain ⟨r, hr, rfl⟩ := List.mem_map.1 hk
    obtain ⟨j, hj, rfl⟩ := List.mem_map.1 hk'
    exact hfree r hr j hj hne.symm
  · rcases hrow hr' with ⟨r, hr, rfl⟩ | ⟨hr, -⟩
    · cases hs
    · exact h.waiting r' hr hs
  · rcases hrow hr' with ⟨r, hr, rfl⟩ | ⟨hr, -⟩
    · exact .inr ⟨claimRow now r, hmem.2 (.inr (List.mem_map_of_mem hr)), rfl⟩
    · rcases h.claimed r' hr hs with hlt | ⟨j, hj, hk⟩
      · exact .inl hlt
      · exact .inr ⟨j, hmem.2 (.inl hj), hk⟩
  · rcases hmem.1 hj with hj | hj
    · obtain ⟨r, hr, hk, hs, ha⟩ := h.current j hj
      have hc : r ∉ chosen := fun hc => by
        rw [(hready r hc).2] at hs
        cases hs
      have := hnew hr
      rw [if_neg hc] at this
      exact ⟨r, this, hk, hs, ha⟩
    · obtain ⟨r, hr, rfl⟩ := List.mem_map.1 hj
      have := hnew (hready r hr).1
      rw [if_pos hr] at this
      exact ⟨_, this, rfl, rfl, rfl⟩
  · rcases hrow hr' with ⟨r, hr, rfl⟩ | ⟨hr, -⟩
    · exact h.waiting r (hready r hr).1 (hready r hr).2
    · exact h.bounded r' hr
  · have hcount : ∀ k, ((q.held ++ chosen.map (claimRow now)).map jobKey).count k =
        (q.held.map jobKey).count k + (chosen.map jobKey).count k := by
      intro k
      rw [List.map_append, List.count_append, hkeys]
    show q.handed.count _ + ((q.held ++ chosen.map (claimRow now)).map jobKey).count _ ≤ _
    rw [hcount]
    rcases hrow hr' with ⟨r, hr, rfl⟩ | ⟨hr, hc⟩
    · have hle := h.counted r (hready r hr).1
      have hone : (chosen.map jobKey).count (jobKey r) ≤ 1 := List.nodup_iff_count_le_one.1 hnodup _
      show q.handed.count (jobKey r) + ((q.held.map jobKey).count (jobKey r) +
        (chosen.map jobKey).count (jobKey r)) ≤ r.attempts + 1
      omega
    · have hle := h.counted r' hr
      have hzero : (chosen.map jobKey).count (jobKey r') = 0 := count_map_of_notMem fun r hrc hk => by
        obtain rfl := eq_of_jobKey h.oneRow (hready r hrc).1 hr hk
        exact hc hrc
      omega
  · obtain ⟨r, hr, rfl⟩ := h.known k hk
    refine ⟨_, hnew hr, ?_⟩
    split_ifs <;> rfl
  · rcases hrow hr' with ⟨r, hr, rfl⟩ | ⟨hr, -⟩
    · cases hs
    · exact h.settled r' hr hs

/-! ## Handlers -/

theorem count_filter_ne {rows : List JobRow} (h : (rows.map jobKey).Nodup) {job : JobRow}
    (hj : job ∈ rows) (k : JobKey) : ((rows.filter (· ≠ job)).map jobKey).count k +
      (if k = jobKey job then 1 else 0) = (rows.map jobKey).count k := by
  induction rows with
  | nil => cases hj
  | cons r rows ih =>
    obtain ⟨hr, hnd⟩ := List.nodup_cons.1 h
    by_cases hrj : r = job
    · subst hrj
      have hrest : rows.filter (· ≠ r) = rows := by
        rw [List.filter_eq_self]
        intro x hx
        rw [decide_eq_true_eq]
        rintro rfl
        exact hr (List.mem_map_of_mem hx)
      rw [List.filter_cons, if_neg (by simp), hrest, List.map_cons, List.count_cons]
      by_cases hk : k = jobKey r
      · simp [hk]
      · simp [hk, Ne.symm hk]
    · have hj' : job ∈ rows := (List.mem_cons.1 hj).resolve_left (Ne.symm hrj)
      rw [List.filter_cons, if_pos (by simpa using hrj), List.map_cons, List.map_cons,
        List.count_cons, List.count_cons, ← ih hnd hj']
      omega

/-- A handler is handed a claim that a drain holds. -/
theorem Queue.Inv.start (h : q.Inv) (job : JobRow) : (q.step (.start job)).Inv := by
  by_cases hj : job ∈ q.held
  swap
  · rw [Queue.step, if_neg hj]
    exact h
  rw [Queue.step, if_pos hj]
  have hheld : (q.held.map jobKey).Nodup :=
    h.oneClaim.sublist ((List.sublist_append_left _ _).map jobKey)
  have hperm : (q.held.filter (· ≠ job) ++ job :: q.running).Perm q.claims := by
    have hsplit : (job :: q.held.filter (· ≠ job)).Perm q.held := by
      refine (List.perm_ext_iff_of_nodup (List.nodup_cons.2 ⟨by simp, ?_⟩)
        (List.Nodup.of_map _ hheld)).2 fun x => ?_
      · exact (List.Nodup.of_map _ hheld).filter _
      · simp only [List.mem_cons, List.mem_filter, decide_eq_true_eq]
        constructor
        · rintro (rfl | hx)
          · exact hj
          · exact hx.1
        · intro hx
          by_cases he : x = job
          · exact .inl he
          · exact .inr ⟨hx, he⟩
    exact List.perm_middle.trans (hsplit.append_right q.running)
  have hmem : ∀ {j}, j ∈ q.held.filter (· ≠ job) ++ job :: q.running ↔ j ∈ q.claims := hperm.mem_iff
  refine ⟨h.oneRow, (hperm.map jobKey).nodup_iff.2 h.oneClaim, h.waiting, fun r hr hs => ?_,
    fun j hj => h.current j (hmem.1 hj), h.bounded, fun r hr => ?_, fun k hk => ?_, h.settled⟩
  · rcases h.claimed r hr hs with hlt | ⟨j, hj, hk⟩
    · exact .inl hlt
    · exact .inr ⟨j, hmem.2 hj, hk⟩
  · have hcount := count_filter_ne hheld hj (jobKey r)
    have hle := h.counted r hr
    show (jobKey job :: q.handed).count (jobKey r) + _ ≤ _
    rw [List.count_cons]
    by_cases hk : jobKey r = jobKey job
    · simp only [hk, if_true, beq_self_eq_true] at hcount hle ⊢
      omega
    · simp only [hk, if_false, beq_eq_false_iff_ne.2 (Ne.symm hk), Bool.false_eq_true] at hcount ⊢
      omega
  · rcases List.mem_cons.1 hk with rfl | hk
    · obtain ⟨r, hr, hk, -⟩ := h.current job (List.mem_append_left _ hj)
      exact ⟨r, hr, hk⟩
    · exact h.known k hk

/-- A claim in hand is given up, its row moved on: done, or waiting with budget left. -/
theorem Queue.Inv.settle (h : q.Inv) {job : JobRow} (hj : job ∈ q.running)
    {f : JobRow → JobRow} {succeeded letters : List JobKey}
    (hkey : ∀ r, jobKey (f r) = jobKey r) (hattempts : ∀ r, (f r).attempts = r.attempts)
    (hstate : ∀ r, r.state = .claimed → r.attempts = job.attempts →
      (f r).state = .done ∧ (jobKey job ∈ succeeded ∨ jobKey job ∈ letters) ∨
        (f r).state = .pending ∧ job.attempts < fanoutMaxAttempts)
    (hs : ∀ k ∈ q.succeeded, k ∈ succeeded) (hl : ∀ k ∈ q.letters, k ∈ letters) :
    Queue.Inv { q with
      index := updateJob job f q.index, running := q.running.filter (· ≠ job), succeeded, letters } := by
  have hrows : (updateJob job f q.index).fanoutQueue =
      q.index.fanoutQueue.map fun r => if jobKey r = jobKey job then f r else r := by
    refine List.map_congr_left fun r _ => ?_
    simp only [jobKey, Prod.mk.injEq]
  have hkey' : ∀ r, jobKey (if jobKey r = jobKey job then f r else r) = jobKey r := by
    intro r
    split_ifs
    · exact hkey r
    · rfl
  have hatt' : ∀ r, (if jobKey r = jobKey job then f r else r).attempts = r.attempts := by
    intro r
    split_ifs
    · exact hattempts r
    · rfl
  have hsub : (q.held ++ q.running.filter (· ≠ job)).Sublist q.claims :=
    List.Sublist.append_left List.filter_sublist q.held
  have hclaims : ∀ j ∈ q.claims, j ≠ job → j ∈ q.held ++ q.running.filter (· ≠ job) := by
    intro j hj hne
    rcases List.mem_append.1 hj with hj | hj
    · exact List.mem_append_left _ hj
    · exact List.mem_append_right _ (List.mem_filter.2 ⟨hj, by simpa using hne⟩)
  have hjc : job ∈ q.claims := List.mem_append_right _ hj
  -- no other claim in hand is of the job's row
  have hother : ∀ j ∈ q.held ++ q.running.filter (· ≠ job), jobKey j ≠ jobKey job := by
    intro j hjm hk
    obtain rfl := eq_of_jobKey h.oneClaim (hsub.subset hjm) hjc hk
    rcases List.mem_append.1 hjm with hm | hm
    · have hdis := List.nodup_append.1 (by simpa [Queue.claims] using h.oneClaim)
      exact hdis.2.2 _ (List.mem_map_of_mem hm) _ (List.mem_map_of_mem hj) rfl
    · simp at hm
  have hjob : ∀ r ∈ q.index.fanoutQueue, jobKey r = jobKey job →
      r.state = .claimed ∧ r.attempts = job.attempts := by
    intro r hr hk
    obtain ⟨r', hr', hk', hcl, ha⟩ := h.current job hjc
    obtain rfl := eq_of_jobKey h.oneRow hr hr' (hk.trans hk'.symm)
    exact ⟨hcl, ha⟩
  refine ⟨?_, h.oneClaim.sublist (hsub.map jobKey), fun r' hr' hp => ?_, fun r' hr' hc => ?_,
    fun j hjm => ?_, fun r' hr' => ?_, fun r' hr' => ?_, fun k hk => ?_, fun r' hr' hd => ?_⟩
  · show ((updateJob job f q.index).fanoutQueue.map jobKey).Nodup
    rw [hrows, map_jobKey_map fun r _ => hkey' r]
    exact h.oneRow
  · rw [hrows] at hr'
    obtain ⟨r, hr, rfl⟩ := List.mem_map.1 hr'
    rw [hatt']
    by_cases hk : jobKey r = jobKey job
    · obtain ⟨hcl, ha⟩ := hjob r hr hk
      rw [if_pos hk] at hp
      rcases hstate r hcl ha with ⟨hd, -⟩ | ⟨-, hlt⟩
      · rw [hd] at hp
        cases hp
      · rwa [ha]
    · rw [if_neg hk] at hp
      exact h.waiting r hr hp
  · rw [hrows] at hr'
    obtain ⟨r, hr, rfl⟩ := List.mem_map.1 hr'
    rw [hatt', hkey']
    by_cases hk : jobKey r = jobKey job
    · obtain ⟨hcl, ha⟩ := hjob r hr hk
      rw [if_pos hk] at hc
      rcases hstate r hcl ha with ⟨hd, -⟩ | ⟨hd, -⟩
      · rw [hd] at hc
        cases hc
      · rw [hd] at hc
        cases hc
    · rw [if_neg hk] at hc
      rcases h.claimed r hr hc with hlt | ⟨j, hj', hkj⟩
      · exact .inl hlt
      · refine .inr ⟨j, hclaims j hj' ?_, hkj⟩
        rintro rfl
        exact hk hkj.symm
  · obtain ⟨r, hr, hk, hcl, ha⟩ := h.current j (hsub.subset hjm)
    have hne : jobKey r ≠ jobKey job := by
      rw [hk]
      exact hother j hjm
    refine ⟨r, ?_, hk, hcl, ha⟩
    show r ∈ (updateJob job f q.index).fanoutQueue
    rw [hrows]
    exact List.mem_map.2 ⟨r, hr, if_neg hne⟩
  · rw [hrows] at hr'
    obtain ⟨r, hr, rfl⟩ := List.mem_map.1 hr'
    rw [hatt']
    exact h.bounded r hr
  · rw [hrows] at hr'
    obtain ⟨r, hr, rfl⟩ := List.mem_map.1 hr'
    rw [hatt', hkey']
    exact h.counted r hr
  · obtain ⟨r, hr, rfl⟩ := h.known k hk
    refine ⟨_, ?_, hkey' r⟩
    show _ ∈ (updateJob job f q.index).fanoutQueue
    rw [hrows]
    exact List.mem_map_of_mem hr
  · rw [hrows] at hr'
    obtain ⟨r, hr, rfl⟩ := List.mem_map.1 hr'
    rw [hkey']
    by_cases hk : jobKey r = jobKey job
    · obtain ⟨hcl, ha⟩ := hjob r hr hk
      rw [if_pos hk] at hd
      rw [hk]
      rcases hstate r hcl ha with ⟨-, hout⟩ | ⟨hp, -⟩
      · exact hout
      · rw [hp] at hd
        cases hd
    · rw [if_neg hk] at hd
      rcases h.settled r hr hd with hm | hm
      · exact .inl (hs _ hm)
      · exact .inr (hl _ hm)

theorem Queue.Inv.finish (h : q.Inv) (job : JobRow) (success : Bool) (now : ℤ) :
    (q.step (.finish job success now)).Inv := by
  by_cases hj : job ∈ q.running
  swap
  · rw [Queue.step, if_neg hj]
    exact h
  rw [Queue.step, if_pos hj]
  have hdone : ∀ {ss ls : List JobKey}, jobKey job ∈ ss ∨ jobKey job ∈ ls →
      ∀ r : JobRow, r.state = .claimed → r.attempts = job.attempts →
        ({ r with state := .done, claimedMs := none } : JobRow).state = .done ∧
          (jobKey job ∈ ss ∨ jobKey job ∈ ls) ∨
        ({ r with state := .done, claimedMs := none } : JobRow).state = .pending ∧
          job.attempts < fanoutMaxAttempts := fun hout _ _ _ => .inl ⟨rfl, hout⟩
  unfold Queue.finish
  split_ifs with hs hmax
  · exact h.settle hj (fun _ => rfl) (fun _ => rfl) (hdone (.inl (by simp)))
      (fun k hk => List.mem_cons_of_mem _ hk) fun _ hk => hk
  · exact h.settle hj (fun _ => rfl) (fun _ => rfl) (hdone (.inr (by simp)))
      (fun _ hk => hk) fun k hk => List.mem_cons_of_mem _ hk
  · refine h.settle hj (fun r => ?_) (fun r => ?_) (fun r hc _ => ?_) (fun _ hk => hk) fun _ hk => hk
    · split_ifs <;> rfl
    · split_ifs <;> rfl
    · rw [if_pos hc]
      exact .inr ⟨rfl, by omega⟩

/-! ## Crashes, sweeps and publishes -/

/-- A process dies with claims that are not their jobs' last. -/
theorem Queue.Inv.crash (h : q.Inv) {lost : List JobRow} (hsafe : q.Safe (.crash lost)) :
    (q.step (.crash lost)).Inv := by
  have hsub : (q.held.filter (· ∉ lost) ++ q.running.filter (· ∉ lost)).Sublist q.claims :=
    List.filter_sublist.append List.filter_sublist
  refine ⟨h.oneRow, h.oneClaim.sublist (hsub.map jobKey), h.waiting, fun r hr hc => ?_,
    fun j hj => h.current j (hsub.subset hj), h.bounded, fun r hr => ?_, h.known, h.settled⟩
  · rcases h.claimed r hr hc with hlt | ⟨j, hj, hk⟩
    · exact .inl hlt
    by_cases hl : j ∈ lost
    · left
      obtain ⟨r', hr', hk', -, ha⟩ := h.current j hj
      obtain rfl := eq_of_jobKey h.oneRow hr hr' (hk.symm.trans hk'.symm)
      rw [ha]
      exact hsafe j hj hl
    · refine .inr ⟨j, ?_, hk⟩
      show j ∈ q.held.filter (· ∉ lost) ++ q.running.filter (· ∉ lost)
      rcases List.mem_append.1 hj with hj | hj
      · exact List.mem_append_left _ (List.mem_filter.2 ⟨hj, by simpa using hl⟩)
      · exact List.mem_append_right _ (List.mem_filter.2 ⟨hj, by simpa using hl⟩)
  · have hle : ((q.held.filter (· ∉ lost)).map jobKey).count (jobKey r) ≤
        (q.held.map jobKey).count (jobKey r) :=
      (List.filter_sublist.map jobKey).count_le _
    have := h.counted r hr
    show q.handed.count _ + ((q.held.filter (· ∉ lost)).map jobKey).count _ ≤ _
    omega

/-- A sweep takes back claims that nobody holds. -/
theorem Queue.Inv.reclaim (h : q.Inv) {cutoff : ℤ} (hsafe : q.Safe (.reclaim cutoff)) :
    (q.step (.reclaim cutoff)).Inv := by
  have hkey : ∀ r : JobRow, jobKey (r.reclaim cutoff) = jobKey r := by
    intro r
    unfold JobRow.reclaim
    split_ifs <;> rfl
  have hatt : ∀ r : JobRow, (r.reclaim cutoff).attempts = r.attempts := by
    intro r
    unfold JobRow.reclaim
    split_ifs <;> rfl
  have hrow : ∀ r', r' ∈ q.index.fanoutQueue.map (·.reclaim cutoff) →
      ∃ r ∈ q.index.fanoutQueue, r' = r.reclaim cutoff := by
    intro r' hr'
    obtain ⟨r, hr, rfl⟩ := List.mem_map.1 hr'
    exact ⟨r, hr, rfl⟩
  -- a stale row keeps its state unless it goes back to the queue
  have hstate : ∀ r : JobRow, r.stale cutoff = false → r.reclaim cutoff = r := by
    intro r hr
    rw [JobRow.reclaim, hr]
    rfl
  have hpending : ∀ r : JobRow, r.stale cutoff = true → (r.reclaim cutoff).state = .pending := by
    intro r hr
    rw [JobRow.reclaim, if_pos hr]
  have hclaimed : ∀ r : JobRow, r.stale cutoff = true → r.state = .claimed := by
    intro r hr
    simp only [JobRow.stale, Bool.and_eq_true, decide_eq_true_eq] at hr
    exact hr.1
  refine ⟨?_, h.oneClaim, fun r' hr' hp => ?_, fun r' hr' hc => ?_, fun j hj => ?_, fun r' hr' => ?_,
    fun r' hr' => ?_, fun k hk => ?_, fun r' hr' hd => ?_⟩
  · show ((q.index.fanoutQueue.map (·.reclaim cutoff)).map jobKey).Nodup
    rw [map_jobKey_map fun r _ => hkey r]
    exact h.oneRow
  · obtain ⟨r, hr, rfl⟩ := hrow r' hr'
    rw [hatt]
    cases hst : r.stale cutoff with
    | false => exact h.waiting r hr (by rwa [hstate r hst] at hp)
    | true =>
      rcases h.claimed r hr (hclaimed r hst) with hlt | ⟨j, hj, hk⟩
      · exact hlt
      · exact absurd hk (hsafe r hr hst j hj)
  · obtain ⟨r, hr, rfl⟩ := hrow r' hr'
    cases hst : r.stale cutoff with
    | false =>
      rw [hstate r hst] at hc ⊢
      exact h.claimed r hr hc
    | true =>
      rw [hpending r hst] at hc
      cases hc
  · obtain ⟨r, hr, hk, hc, ha⟩ := h.current j hj
    have hst : r.stale cutoff = false := by
      by_contra hst
      exact hsafe r hr (by simpa using hst) j hj hk.symm
    refine ⟨r, ?_, hk, hc, ha⟩
    exact List.mem_map.2 ⟨r, hr, hstate r hst⟩
  · obtain ⟨r, hr, rfl⟩ := hrow r' hr'
    rw [hatt]
    exact h.bounded r hr
  · obtain ⟨r, hr, rfl⟩ := hrow r' hr'
    rw [hatt, hkey]
    exact h.counted r hr
  · obtain ⟨r, hr, rfl⟩ := h.known k hk
    exact ⟨_, List.mem_map_of_mem hr, hkey r⟩
  · obtain ⟨r, hr, rfl⟩ := hrow r' hr'
    rw [hkey]
    cases hst : r.stale cutoff with
    | false => exact h.settled r hr (by rwa [hstate r hst] at hd)
    | true =>
      rw [hpending r hst] at hd
      cases hd

/-- The invariant looks at no other table. -/
theorem Queue.Inv.congr (h : q.Inv) {i : Tables} (hi : i.fanoutQueue = q.index.fanoutQueue) :
    Queue.Inv { q with index := i } := by
  constructor
  case oneClaim => exact h.oneClaim
  all_goals
    simp only [hi]
  exacts [h.oneRow, h.waiting, h.claimed, h.current, h.bounded, h.counted, h.known, h.settled]

/-- A queue with a job added that waits for its first claim. -/
theorem Queue.Inv.enqueue (h : q.Inv) {i : Tables} {new : JobRow} (hp : new.state = .pending)
    (ha : new.attempts = 0)
    (hi : i.fanoutQueue = upsert jobKey (fun old _ => old) new q.index.fanoutQueue) :
    Queue.Inv { q with index := i } := by
  by_cases hold : ∃ r ∈ q.index.fanoutQueue, jobKey r = jobKey new
  · exact h.congr (hi.trans (upsert_of_old hold))
  have hnew : ∀ r ∈ q.index.fanoutQueue, jobKey r ≠ jobKey new := by simpa using hold
  rw [upsert_of_new hnew] at hi
  have hrow : ∀ r, r ∈ i.fanoutQueue ↔ r ∈ q.index.fanoutQueue ∨ r = new := by
    intro r
    rw [hi, List.mem_append, List.mem_singleton]
  refine ⟨?_, h.oneClaim, fun r hr hs => ?_, fun r hr hs => ?_, fun j hj => ?_, fun r hr => ?_,
    fun r hr => ?_, fun k hk => ?_, fun r hr hs => ?_⟩
  · show (i.fanoutQueue.map jobKey).Nodup
    rw [hi, List.map_append, List.nodup_append]
    refine ⟨h.oneRow, List.nodup_singleton _, fun k hk k' hk' he => ?_⟩
    obtain ⟨r, hr, rfl⟩ := List.mem_map.1 hk
    exact hnew r hr (he.trans (List.mem_singleton.1 hk'))
  · rcases (hrow r).1 hr with hr | rfl
    · exact h.waiting r hr hs
    · rw [ha]
      decide
  · rcases (hrow r).1 hr with hr | rfl
    · exact h.claimed r hr hs
    · rw [hp] at hs
      cases hs
  · obtain ⟨r, hr, hrest⟩ := h.current j hj
    exact ⟨r, (hrow r).2 (.inl hr), hrest⟩
  · rcases (hrow r).1 hr with hr | rfl
    · exact h.bounded r hr
    · rw [ha]
      decide
  · rcases (hrow r).1 hr with hr | rfl
    · exact h.counted r hr
    · have h1 : q.handed.count (jobKey r) = 0 := by
        rw [List.count_eq_zero]
        intro hm
        obtain ⟨r', hr', hk⟩ := h.known _ hm
        exact hnew r' hr' hk
      have h2 : (q.held.map jobKey).count (jobKey r) = 0 := count_map_of_notMem fun j hj hk => by
        obtain ⟨r', hr', hk', -⟩ := h.current j (List.mem_append_left _ hj)
        exact hnew r' hr' (hk'.trans hk)
      show q.handed.count _ + (q.held.map jobKey).count _ ≤ _
      omega
  · obtain ⟨r, hr, hk⟩ := h.known k hk
    exact ⟨r, (hrow r).2 (.inl hr), hk⟩
  · rcases (hrow r).1 hr with hr | rfl
    · exact h.settled r hr hs
    · rw [hp] at hs
      cases hs

theorem Queue.Inv.enqueueAll (h : q.Inv) {i : Tables} {jobs : List JobRow}
    (hjobs : ∀ j ∈ jobs, j.state = .pending ∧ j.attempts = 0)
    (hi : i.fanoutQueue = upsertAll jobKey (fun old _ => old) jobs q.index.fanoutQueue) :
    Queue.Inv { q with index := i } := by
  induction jobs generalizing q with
  | nil => exact h.congr hi
  | cons j jobs ih =>
    obtain ⟨hp, ha⟩ := hjobs j (by simp)
    have hone : Queue.Inv { q with index :=
        { q.index with fanoutQueue := upsert jobKey (fun old _ => old) j q.index.fanoutQueue } } :=
      h.enqueue hp ha rfl
    have hall := ih hone (fun k hk => hjobs k (by simp [hk])) hi
    exact hall

theorem jobRows_fresh {doc : ActionRecord} {ms : ℤ} : ∀ j ∈ jobRows doc ms,
    j.state = .pending ∧ j.attempts = 0 := by
  intro j hj
  unfold jobRows at hj
  split_ifs at hj
  all_goals
    simp only [List.mem_cons, List.not_mem_nil, or_false] at hj
    rcases hj with rfl | rfl <;> exact ⟨rfl, rfl⟩

/-- A publish adds the jobs of its record, unless the queue has them. -/
theorem Queue.Inv.publish (h : q.Inv) (inp : PublishInput) : (q.step (.publish inp)).Inv := by
  show Queue.Inv { q with index := (atomically (Index.publish inp) q.index).2 }
  cases hx : atomically (Index.publish inp) q.index with
  | mk res i =>
    cases res with
    | error e =>
      rw [← atomically_error hx]
      exact h
    | ok u =>
      obtain ⟨row, ms, -, -, rfl⟩ := publish_eq_ok.1 (atomically_eq_ok.1 hx)
      exact h.enqueueAll jobRows_fresh rfl

/-! ## Runs -/

/-- **One step keeps the invariant.** -/
theorem Queue.Inv.step (h : q.Inv) {a : QueueStep} (hsafe : q.Safe a) : (q.step a).Inv := by
  cases a with
  | publish inp => exact h.publish inp
  | claim limit now => exact h.claim limit now
  | start job => exact h.start job
  | finish job success now => exact h.finish job success now
  | crash lost => exact h.crash hsafe
  | reclaim cutoff => exact h.reclaim hsafe

theorem Queue.Inv.run (h : q.Inv) {as : List QueueStep} (hsafe : q.SafeRun as) :
    (q.run as).Inv := by
  induction as generalizing q with
  | nil => exact h
  | cons a as ih => exact ih (h.step hsafe.1) hsafe.2

/-- **A job that is done keeps its row, and is handed to no handler again.** -/
theorem Queue.Inv.done (h : q.Inv) {r : JobRow} (hr : r ∈ q.index.fanoutQueue)
    (hd : r.state = .done) (a : QueueStep) : r ∈ (q.step a).index.fanoutQueue ∧
      (q.step a).handed.count (jobKey r) = q.handed.count (jobKey r) := by
  -- no claim in hand is of this job
  have hfree : ∀ j ∈ q.claims, jobKey j ≠ jobKey r := by
    intro j hj hk
    obtain ⟨r', hr', hk', hc, -⟩ := h.current j hj
    obtain rfl := eq_of_jobKey h.oneRow hr hr' (hk.symm.trans hk'.symm)
    rw [hd] at hc
    cases hc
  cases a with
  | publish inp =>
    refine ⟨?_, rfl⟩
    show r ∈ (atomically (Index.publish inp) q.index).2.fanoutQueue
    cases hx : atomically (Index.publish inp) q.index with
    | mk res i =>
      cases res with
      | error e =>
        rw [← atomically_error hx]
        exact hr
      | ok u =>
        obtain ⟨row, ms, -, -, rfl⟩ := publish_eq_ok.1 (atomically_eq_ok.1 hx)
        exact mem_upsertAll_of_mem _ hr
  | claim limit now =>
    refine ⟨List.mem_map.2 ⟨r, hr, if_neg fun hc => ?_⟩, rfl⟩
    rw [(mem_readyJobs hc).2] at hd
    cases hd
  | start job =>
    rw [Queue.step]
    split_ifs with hj
    · refine ⟨hr, ?_⟩
      show (jobKey job :: q.handed).count (jobKey r) = _
      exact List.count_cons_of_ne (hfree job (List.mem_append_left _ hj))
    · exact ⟨hr, rfl⟩
  | finish job success now =>
    rw [Queue.step]
    split_ifs with hj
    swap
    · exact ⟨hr, rfl⟩
    have hne := hfree job (List.mem_append_right _ hj)
    have hkept : ∀ f : JobRow → JobRow, r ∈ (updateJob job f q.index).fanoutQueue := by
      refine fun f => List.mem_map.2 ⟨r, hr, if_neg ?_⟩
      rintro ⟨h1, h2⟩
      exact hne (Prod.ext h1.symm h2.symm)
    unfold Queue.finish
    split_ifs
    · exact ⟨hkept _, rfl⟩
    · exact ⟨hkept _, rfl⟩
    · exact ⟨hkept _, rfl⟩
  | crash lost => exact ⟨hr, rfl⟩
  | reclaim cutoff =>
    refine ⟨List.mem_map.2 ⟨r, hr, ?_⟩, rfl⟩
    rw [JobRow.reclaim, if_neg]
    simp [JobRow.stale, hd]

theorem Queue.Inv.done_run (h : q.Inv) {r : JobRow} (hr : r ∈ q.index.fanoutQueue)
    (hd : r.state = .done) {as : List QueueStep} (hsafe : q.SafeRun as) :
    r ∈ (q.run as).index.fanoutQueue ∧
      (q.run as).handed.count (jobKey r) = q.handed.count (jobKey r) := by
  induction as generalizing q with
  | nil => exact ⟨hr, rfl⟩
  | cons a as ih =>
    obtain ⟨hr', hc⟩ := h.done hr hd a
    obtain ⟨h1, h2⟩ := ih (h.step hsafe.1) hr' hsafe.2
    exact ⟨h1, h2.trans hc⟩

/-- **The retry budget binds** in every run in which no job's last claim is lost and no
    live claim is taken back: no job is handed out more often than the budget; one
    handed out that often, its handler returned, is done, by a success or as a dead
    letter; a job that is done stays done and is handed out no more. -/
theorem budget_binds {as : List QueueStep} (h : Queue.start.SafeRun as) :
    (∀ k, (Queue.start.run as).handed.count k ≤ fanoutMaxAttempts) ∧
    (∀ k, (Queue.start.run as).handed.count k = fanoutMaxAttempts →
      (∀ j ∈ (Queue.start.run as).running, jobKey j ≠ k) →
      (∃ r ∈ (Queue.start.run as).index.fanoutQueue, jobKey r = k ∧ r.state = .done) ∧
        (k ∈ (Queue.start.run as).succeeded ∨ k ∈ (Queue.start.run as).letters)) ∧
    ∀ r ∈ (Queue.start.run as).index.fanoutQueue, r.state = .done → ∀ bs,
      (Queue.start.run as).SafeRun bs →
      r ∈ ((Queue.start.run as).run bs).index.fanoutQueue ∧
        ((Queue.start.run as).run bs).handed.count (jobKey r) =
          (Queue.start.run as).handed.count (jobKey r) := by
  have hinv := Queue.start_inv.run h
  set q := Queue.start.run as
  refine ⟨fun k => ?_, fun k hk hidle => ?_, fun r hr hd bs hbs => hinv.done_run hr hd hbs⟩
  · by_cases hm : k ∈ q.handed
    · obtain ⟨r, hr, rfl⟩ := hinv.known k hm
      have h1 := hinv.counted r hr
      have h2 := hinv.bounded r hr
      omega
    · rw [List.count_eq_zero.2 hm]
      exact Nat.zero_le _
  · have hm : k ∈ q.handed := by
      rw [← List.count_pos_iff, hk]
      decide
    obtain ⟨r, hr, rfl⟩ := hinv.known k hm
    have h1 := hinv.counted r hr
    have h2 := hinv.bounded r hr
    have hspent : r.attempts = fanoutMaxAttempts := by omega
    have hd : r.state = .done := by
      cases hs : r.state with
      | pending =>
        have := hinv.waiting r hr hs
        omega
      | claimed =>
        rcases hinv.claimed r hr hs with hlt | ⟨j, hj, hkj⟩
        · omega
        rcases List.mem_append.1 hj with hj | hj
        · have : 0 < (q.held.map jobKey).count (jobKey r) :=
            List.count_pos_iff.2 (List.mem_map.2 ⟨j, hj, hkj⟩)
          omega
        · exact absurd hkj (hidle j hj)
      | done => rfl
    exact ⟨⟨r, hr, rfl, hd⟩, hinv.settled r hr hd⟩

/-! ## A drain of the store is a run of the queue -/

/-- The file that says a job needs an operator. -/
def letterPath (k : JobKey) : Path := [k.1.text ++ '.' :: k.2.name]

/-- A queue as a store has it: the same rows, and a dead letter for each it speaks of. -/
structure Queue.Shows (q : Queue) (σ : Store) : Prop where
  rows : q.index.fanoutQueue = σ.index.fanoutQueue
  letters : ∀ k ∈ q.letters, letterPath k ∈ σ.deadLetter

theorem Queue.Shows.jobFrame (q : Queue) : JobFrame q.Shows where
  entities _ _ h := ⟨h.rows, h.letters⟩
  audit _ _ h := ⟨h.rows, h.letters⟩
  mentions _ _ h := ⟨h.rows, h.letters⟩

theorem Queue.Shows.updateJob {σ : Store} (h : q.Shows σ) (job : JobRow) (f : JobRow → JobRow) :
    (updateJob job f q.index).fanoutQueue = (updateJob job f σ.index).fanoutQueue := by
  simp only [Index.updateJob, h.rows]

variable {P : Pipeline} {env : Env} {σ : Store}

/-- Settling a job is its handler's return. -/
theorem Queue.Shows.settleJob (h : q.Shows σ) {job : JobRow} (hj : job ∈ q.running)
    (located : List (Text × Path)) (archived : List (Text × ActionRecord)) (settled : ℕ) :
    ∃ success n σ', settleJob P env located archived settled job σ = (.ok n, σ') ∧
      (q.step (.finish job success env.now)).Shows σ' := by
  have hrun : q.Shows (runJob P env job located archived σ).2 :=
    runJob_keeps (Queue.Shows.jobFrame q) job located archived σ h
  unfold Core.settleJob
  rw [bind_of_ok (attempt_apply _ σ)]
  cases hres : (runJob P env job located archived σ).1 with
  | ok u =>
    refine ⟨true, _, _, rfl, ?_⟩
    rw [Queue.step, if_pos hj]
    exact ⟨hrun.updateJob job _, hrun.letters⟩
  | error reason =>
    refine ⟨false, ?_⟩
    rw [Queue.step, if_pos hj, Queue.finish, if_neg (by simp)]
    dsimp only
    split_ifs with hmax
    · refine ⟨_, _, rfl, hrun.updateJob job _, fun k hk => ?_⟩
      rcases List.mem_cons.1 hk with rfl | hk
      · exact (AList.mem_insert _).2 (.inl rfl)
      · exact (AList.mem_insert _).2 (.inr (hrun.letters k hk))
    · exact ⟨_, _, rfl, hrun.updateJob job _, hrun.letters⟩

/-- A step that a drain takes. -/
def QueueStep.OfDrain : QueueStep → Prop
  | .claim _ _ | .start _ | .finish _ _ _ => True
  | _ => False

/-- A drain takes no claim back and loses none. -/
theorem QueueStep.OfDrain.safeRun {as : List QueueStep} (h : ∀ a ∈ as, a.OfDrain) (q : Queue) :
    q.SafeRun as := by
  induction as generalizing q with
  | nil => trivial
  | cons a as ih =>
    refine ⟨?_, ih (fun b hb => h b (by simp [hb])) _⟩
    have ha := h a (by simp)
    cases a with
    | claim limit now => trivial
    | start job => trivial
    | finish job success now => trivial
    | _ => exact ha.elim

theorem Queue.Shows.settleJobs {jobs : List JobRow} (hjobs : ∀ j ∈ jobs, j ∈ q.held)
    (hnd : jobs.Nodup) (h : q.Shows σ) (located : List (Text × Path))
    (archived : List (Text × ActionRecord)) (settled : ℕ) :
    ∃ as : List QueueStep, (∀ a ∈ as, a.OfDrain) ∧
      (q.run as).Shows (jobs.foldlM (Core.settleJob P env located archived) settled σ).2 := by
  induction jobs generalizing q σ settled with
  | nil => exact ⟨[], List.forall_mem_nil _, h⟩
  | cons j jobs ih =>
    obtain ⟨hj, hnd⟩ := List.nodup_cons.1 hnd
    obtain ⟨q₁, hq₁⟩ : ∃ q₁, q₁ = q.step (.start j) := ⟨_, rfl⟩
    have hfirst : ∀ bs, q.run (.start j :: bs) = q₁.run bs := fun bs => by rw [hq₁, Queue.run]
    rw [Queue.step, if_pos (hjobs j (by simp))] at hq₁
    have hshow : q₁.Shows σ := by
      rw [hq₁]
      exact ⟨h.rows, h.letters⟩
    have hrunning : j ∈ q₁.running := by
      rw [hq₁]
      exact List.mem_cons_self
    obtain ⟨success, n, σ', hset, hnext⟩ := hshow.settleJob hrunning located archived settled
    have hheld : ∀ k ∈ jobs, k ∈ (q₁.step (.finish j success env.now)).held := by
      intro k hk
      have hk₁ : k ∈ q₁.held := by
        rw [hq₁]
        refine List.mem_filter.2 ⟨hjobs k (by simp [hk]), ?_⟩
        rw [decide_eq_true_eq]
        rintro rfl
        exact hj hk
      rw [Queue.step]
      unfold Queue.finish
      split_ifs <;> exact hk₁
    obtain ⟨as, has, hlast⟩ := ih hheld hnd hnext n
    refine ⟨.start j :: .finish j success env.now :: as, ?_, ?_⟩
    · simp only [List.mem_cons]
      rintro a (rfl | rfl | ha)
      · trivial
      · trivial
      · exact has a ha
    · rw [List.foldlM_cons, bind_of_ok hset, hfirst, Queue.run]
      exact hlast

/-- **What a drain of the store does, a safe run of the queue does**: a claim, and for
    each claimed job a handler that starts and returns. -/
theorem drainFanout_run (hinv : q.Inv) (h : q.Shows σ) (maxJobs : ℕ) :
    ∃ as : List QueueStep, (∀ a ∈ as, a.OfDrain) ∧ q.SafeRun as ∧
      (q.run as).Shows (drainFanout P env maxJobs σ).2 := by
  suffices hsteps : ∃ as : List QueueStep, (∀ a ∈ as, a.OfDrain) ∧
      (q.run as).Shows (drainFanout P env maxJobs σ).2 by
    obtain ⟨as, has, hrun⟩ := hsteps
    exact ⟨as, has, QueueStep.OfDrain.safeRun has q, hrun⟩
  unfold drainFanout
  dsimp only
  split_ifs with hlimit
  · exact ⟨[], List.forall_mem_nil _, h⟩
  set limit := min maxJobs (2 ^ 32 - 1)
  set jobs := (readyJobs σ.index limit env.now).map (claimRow env.now) with hjobs
  set q₁ := q.step (.claim limit env.now) with hq₁
  have hready : readyJobs q.index limit env.now = readyJobs σ.index limit env.now := by
    simp only [readyJobs, h.rows]
  obtain ⟨σ₁, hclaim, hshow⟩ : ∃ σ₁, indexed (claimFanout limit env.now) σ = (.ok jobs, σ₁) ∧
      q₁.Shows σ₁ := by
    refine ⟨_, rfl, ?_, h.letters⟩
    show (q.index.fanoutQueue.map fun j => if j ∈ readyJobs q.index limit env.now then
      claimRow env.now j else j) = _
    rw [hready, h.rows]
    rfl
  have hheld : ∀ j ∈ jobs, j ∈ q₁.held := by
    intro j hj
    show j ∈ q.held ++ (readyJobs q.index limit env.now).map (claimRow env.now)
    rw [hready]
    exact List.mem_append_right _ hj
  have hnd : jobs.Nodup := by
    have hkeys : jobs.map jobKey = (readyJobs q.index limit env.now).map jobKey := by
      rw [hready]
      exact map_jobKey_map fun r _ => rfl
    refine List.Nodup.of_map jobKey ?_
    rw [hkeys]
    exact nodup_readyJobs hinv.oneRow limit env.now
  rw [bind_of_ok hclaim]
  split_ifs with hnil
  · exact ⟨[.claim limit env.now], by simp [QueueStep.OfDrain], hshow⟩
  rw [state_bind]
  have hloc : q₁.Shows (locateArchived P jobs (locateRecords σ₁.records) σ₁).2 :=
    locateArchived_keeps jobs (locateRecords σ₁.records) σ₁ hshow
  cases hx : locateArchived P jobs (locateRecords σ₁.records) σ₁ with
  | mk res σ₂ =>
    rw [hx] at hloc
    cases res with
    | error e =>
      rw [bind_of_error hx]
      exact ⟨[.claim limit env.now], by simp [QueueStep.OfDrain], hloc⟩
    | ok archived =>
      rw [bind_of_ok hx]
      obtain ⟨as, has, hrun⟩ := Queue.Shows.settleJobs hheld hnd hloc (locateRecords σ₁.records)
        archived 0
      refine ⟨.claim limit env.now :: as, ?_, hrun⟩
      simp only [List.mem_cons]
      rintro a (rfl | ha)
      · trivial
      · exact has a ha

/-! ## A handler that dies -/

/-- A handle of the one job of a record. -/
def handle (attempts : ℕ) (notBeforeMs now : ℤ) : JobRow where
  record := ulid 'A' isCrockfordDigit_A
  kind := .bundle
  state := .claimed
  attempts
  enqueuedMs := 0
  notBeforeMs
  claimedMs := some now

/-- A record is published that owes one job. -/
def oneJob : QueueStep :=
  .publish ⟨plainRecord (ulid 'A' isCrockfordDigit_A) "1970-01-01T00:00:00Z".toList, [], []⟩

/-- A claim whose handler fails, an hour after the last. -/
def failedTry (n : ℕ) : List QueueStep :=
  let now := 3600000 * (n : ℤ)
  let notBefore := if n = 0 then 0 else 3600000 * ((n : ℤ) - 1) + backoffMs n
  let job := handle (n + 1) notBefore now
  [.claim 1 now, .start job, .finish job false now]

/-- A claim whose handler takes the process down, and the sweep that finds the claim
    stale. -/
def fatalTry (n : ℕ) : List QueueStep :=
  let job := handle (n + 1) 0 n
  [.claim 1 n, .start job, .crash [job], .reclaim n]

/-- Five failures spend the budget: the job is done, with a dead letter. -/
theorem budget_binds_failures :
    (∃ r ∈ (Queue.start.run (oneJob :: (List.range 5).flatMap failedTry)).index.fanoutQueue,
      jobKey r = jobKey (handle 0 0 0) ∧ r.state = .done) ∧
    jobKey (handle 0 0 0) ∈
      (Queue.start.run (oneJob :: (List.range 5).flatMap failedTry)).letters := by
  have hsafe : Queue.start.SafeRun (oneJob :: (List.range 5).flatMap failedTry) := by
    refine ⟨trivial, QueueStep.OfDrain.safeRun (fun a ha => ?_) _⟩
    obtain ⟨n, -, ha⟩ := List.mem_flatMap.1 ha
    simp only [failedTry, List.mem_cons, List.not_mem_nil, or_false] at ha
    rcases ha with rfl | rfl | rfl <;> trivial
  have hspent : (Queue.start.run (oneJob :: (List.range 5).flatMap failedTry)).handed.count
      (jobKey (handle 0 0 0)) = fanoutMaxAttempts := by decide +kernel
  have hidle : (Queue.start.run (oneJob :: (List.range 5).flatMap failedTry)).running = [] := by
    decide +kernel
  obtain ⟨hrow, -⟩ := (budget_binds hsafe).2.1 (jobKey (handle 0 0 0)) hspent (by simp [hidle])
  exact ⟨hrow, by decide +kernel⟩

/-- **A job whose handler takes the process down each time is handed out a sixth
    time.** -/
theorem fatal_job_outlives_budget :
    ¬ ∀ as k, (Queue.start.run as).handed.count k ≤ fanoutMaxAttempts := by
  intro h
  have hsix := h (oneJob :: (List.range 6).flatMap fatalTry) (jobKey (handle 0 0 0))
  revert hsix
  decide +kernel

end Yaam.Core
