/-
  One spool over pushes, drains and restarts (`yaam-agent`, `spool.rs`), with every place a
  push can fail in.

  * `Disk` is how far the disk goes along with a push, `Handling` how an entry fares in a
    drain;
  * `Spool.push`, `Spool.drain` and `Spool.step`: the operations, one call each;
  * `Spool.Ready.run`: while no push fails behind its file, the spool takes more, and hands
    over whole entries;
  * `leaves_usable_iff`: a push that does fail there leaves such a spool only if its entry is
    the one there is room for, and is written whole;
  * `moves_push`: a submit of the sidecar that pushes comes to what `Spool.push` does.
-/
import Yaam.Agent.Sidecar

namespace Yaam.Agent

open Text Utf8

/-- An opened spool. The last field is what each push that made a file was given, which no
    operation reads. -/
structure Spool where
  dir : List Entry
  /-- Sequence number the next push will use. -/
  next : ℕ
  /-- Entries allowed before pushes are refused. -/
  capacity : ℕ
  given : List Bytes
deriving DecidableEq

/-- How far the disk goes along with a push. -/
inductive Disk where
  | done
  /-- The directory cannot be listed, or the file not be made in it. -/
  | refused (detail : Text)
  /-- The write fails after this many bytes. -/
  | short (n : ℕ) (detail : Text)
  /-- Syncing the file, or its directory, fails. -/
  | unsynced (detail : Text)
deriving DecidableEq

/-- The write of a push, or a sync behind it, fails. -/
def Disk.Late : Disk → Prop
  | .done | .refused _ => False
  | .short _ _ | .unsynced _ => True

/-- What of an entry gets into its file. -/
def Disk.wrote (entry : Bytes) : Disk → Bytes
  | .short n _ => entry.take n
  | _ => entry

/-- How an entry fares in a drain. -/
structure Handling where
  read : Option Text
  verdict : Except AgentError Unit
  removed : Option Text
  synced : Option Text

/-- What a drain comes to, and the entries it hands to the sender. -/
structure Drained where
  result : Except AgentError ℕ
  spool : Spool
  handed : List Entry

/-- An operation on a spool. A restart may give it another bound. -/
inductive Op where
  | reopen (capacity : ℕ)
  | push (entry : Bytes) (w : Disk)
  | drain (handling : ℕ → Handling)

/-- An operation during which no push fails behind its file. -/
def Op.Quiet : Op → Prop
  | .push _ w => ¬ w.Late
  | _ => True

namespace Spool

/-- A spool opened on an empty directory. -/
def fresh (capacity : ℕ) : Spool := ⟨[], 0, capacity, []⟩

/-- The file a push makes. -/
def put (s : Spool) (entry bytes : Bytes) : Spool :=
  { s with dir := s.dir ++ [⟨s.next, bytes, s.given.length⟩], given := s.given ++ [entry] }

/-- Appends a sealed record. -/
def push (s : Spool) (entry : Bytes) (w : Disk) : Except AgentError Unit × Spool :=
  match w with
  | .refused detail => (.error (.io detail), s)
  | w =>
    if s.capacity ≤ depth s.dir then (.error .spoolFull, s)
    else if ∃ x ∈ s.dir, x.seq = s.next then (.error (.io Sidecar.fileExists), s)
    else match w with
      | .short _ detail | .unsynced detail =>
        -- the name is taken from here on, and the counter has not moved
        (.error (.io detail), s.put entry (w.wrote entry))
      | _ => (.ok (), { s.put entry entry with next := s.next + 1 })

def erase (s : Spool) (e : Entry) : Spool := { s with dir := s.dir.filter fun x => x.seq ≠ e.seq }

/-- What a drain ends with at a verdict that does not let the entry go. -/
def stopsWith (removed : ℕ) : Except AgentError Unit → Option (Except AgentError ℕ)
  | .ok () | .error (.rejected _) => none
  | .error .spooled => some (.ok removed)
  | .error other => some (.error other)

/-- A drain with this much of the listing left. -/
def drainFrom (handling : ℕ → Handling) : List ℕ → ℕ → Spool → Drained
  | [], removed, s => ⟨.ok removed, s, []⟩
  | seq :: rest, removed, s =>
    match s.dir.find? fun x => x.seq = seq, (handling seq).read with
    | none, _ => ⟨.error (.io Sidecar.notFound), s, []⟩
    | some _, some detail => ⟨.error (.io detail), s, []⟩
    | some e, none =>
      match stopsWith removed (handling seq).verdict with
      | some result => ⟨result, s, [e]⟩
      | none =>
        match (handling seq).removed, (handling seq).synced with
        | some detail, _ => ⟨.error (.io detail), s, [e]⟩
        | none, some detail => ⟨.error (.io detail), s.erase e, [e]⟩
        | none, none =>
          let d := drainFrom handling rest (removed + 1) (s.erase e)
          { d with handed := e :: d.handed }

/-- Replays in order, removing each entry only once upstream has accepted it. -/
def drain (s : Spool) (handling : ℕ → Handling) : Drained := drainFrom handling (entries s.dir) 0 s

def step (s : Spool) : Op → Spool
  | .reopen capacity => { s with next := resume s.dir, capacity := capacity }
  | .push entry w => (s.push entry w).2
  | .drain handling => (s.drain handling).spool

def run (s : Spool) (ops : List Op) : Spool := ops.foldl step s

/-! ## What a failed push is to leave behind -/

/-- The entry is all its push was given. -/
def Whole (s : Spool) (e : Entry) : Prop := s.given[e.owner]? = some e.bytes

/-- Below capacity, a push that nothing goes wrong for succeeds, behind all that is pending. -/
def TakesMore (s : Spool) : Prop :=
  ∀ entry, depth s.dir < s.capacity → (s.push entry .done).1 = .ok () ∧
    (s.push entry .done).2.dir = s.dir ++ [⟨s.next, entry, s.given.length⟩] ∧
    ∀ e ∈ s.dir, e.seq < s.next

/-- A spool that takes more, and hands the sender whole entries only. -/
def Usable (s : Spool) : Prop :=
  s.TakesMore ∧ ∀ handling, ∀ e ∈ (s.drain handling).handed, s.Whole e

/-- A push fails after its entry file was created. -/
def FailsLate (s : Spool) (w : Disk) : Prop :=
  depth s.dir < s.capacity ∧ (∀ x ∈ s.dir, x.seq ≠ s.next) ∧ w.Late

/-- A push that does fail behind its file is the one entry there is room for, and is written
    whole. -/
def Fits (s : Spool) : Op → Prop
  | .push entry w => s.FailsLate w → s.capacity = 1 ∧ w.wrote entry = entry
  | _ => True

/-- Every push of these operations fits where it is made. -/
def AllFit (s : Spool) : List Op → Prop
  | [] => True
  | op :: ops => s.Fits op ∧ AllFit (s.step op) ops

/-- **A push leaves the spool usable**: its entry is complete if it is there, and the spool is
    usable from then on, for as long as no other push fails behind its file. -/
structure LeavesUsable (s : Spool) (entry : Bytes) (w : Disk) : Prop where
  complete : ∀ e ∈ (s.push entry w).2.dir, e.owner = s.given.length → e.bytes = entry
  usable : ∀ ops : List Op, (∀ op ∈ ops, op.Quiet) → ((s.push entry w).2.run ops).Usable

variable {s : Spool} {entry : Bytes} {w : Disk} {capacity : ℕ}

theorem step_push : s.step (.push entry w) = (s.push entry w).2 := rfl

/-! ## What an operation can do -/

theorem push_cases (s : Spool) (entry : Bytes) (w : Disk) :
    (∃ err, s.push entry w = (.error err, s)) ∨
    (s.FailsLate w ∧
      ∃ detail, s.push entry w = (.error (.io detail), s.put entry (w.wrote entry))) ∨
    (depth s.dir < s.capacity ∧ (∀ x ∈ s.dir, x.seq ≠ s.next) ∧ w = .done ∧
      s.push entry w = (.ok (), { s.put entry entry with next := s.next + 1 })) := by
  by_cases hfull : s.capacity ≤ depth s.dir
  · refine .inl ?_
    cases w <;> exact ⟨_, by simp only [push, if_pos hfull]; rfl⟩
  by_cases htaken : ∃ x ∈ s.dir, x.seq = s.next
  · refine .inl ?_
    cases w <;> exact ⟨_, by simp only [push, if_neg hfull, if_pos htaken]; rfl⟩
  have hroom : depth s.dir < s.capacity := not_le.1 hfull
  have hfree : ∀ x ∈ s.dir, x.seq ≠ s.next := fun x hx hseq => htaken ⟨x, hx, hseq⟩
  cases w with
  | done => exact .inr (.inr ⟨hroom, hfree, rfl, by simp only [push, if_neg hfull, if_neg htaken]⟩)
  | refused detail => exact .inl ⟨.io detail, rfl⟩
  | short n detail =>
    exact .inr (.inl ⟨⟨hroom, hfree, trivial⟩, detail, by
      simp only [push, if_neg hfull, if_neg htaken]⟩)
  | unsynced detail =>
    exact .inr (.inl ⟨⟨hroom, hfree, trivial⟩, detail, by
      simp only [push, if_neg hfull, if_neg htaken]⟩)

/-- A failure behind the file leaves it there, and the counter where it was. -/
theorem push_late (h : s.FailsLate w) (entry : Bytes) :
    (s.push entry w).2 = s.put entry (w.wrote entry) := by
  obtain ⟨hroom, hfree, hlate⟩ := h
  have htaken : ¬ ∃ x ∈ s.dir, x.seq = s.next := fun ⟨x, hx, hseq⟩ => hfree x hx hseq
  cases w with
  | done => exact hlate.elim
  | refused detail => exact hlate.elim
  | short n detail => simp only [push, if_neg (not_le.2 hroom), if_neg htaken]
  | unsynced detail => simp only [push, if_neg (not_le.2 hroom), if_neg htaken]

/-- Under a name that is taken nothing is pushed. -/
theorem push_taken (hroom : depth s.dir < s.capacity) {e : Entry} (he : e ∈ s.dir)
    (hseq : e.seq = s.next) (entry : Bytes) :
    s.push entry .done = (.error (.io Sidecar.fileExists), s) := by
  have htaken : ∃ x ∈ s.dir, x.seq = s.next := ⟨e, he, hseq⟩
  simp only [push, if_neg (not_le.2 hroom), if_pos htaken]

/-- What a drain leaves of a spool. -/
structure Drains (s : Spool) (d : Drained) : Prop where
  dir : d.spool.dir.Sublist s.dir
  next : d.spool.next = s.next
  capacity : d.spool.capacity = s.capacity
  given : d.spool.given = s.given
  handed : ∀ e ∈ d.handed, e ∈ s.dir

theorem Drains.stay (s : Spool) (result : Except AgentError ℕ) {handed : List Entry}
    (h : ∀ e ∈ handed, e ∈ s.dir) : s.Drains ⟨result, s, handed⟩ :=
  ⟨.refl _, rfl, rfl, rfl, h⟩

theorem drainFrom_drains (handling : ℕ → Handling) (pending : List ℕ) (removed : ℕ) (s : Spool) :
    s.Drains (drainFrom handling pending removed s) := by
  induction pending generalizing removed s with
  | nil => exact .stay s _ fun e he => absurd he List.not_mem_nil
  | cons seq rest ih =>
    unfold drainFrom
    split
    · exact .stay s _ fun e he => absurd he List.not_mem_nil
    · exact .stay s _ fun e he => absurd he List.not_mem_nil
    next e hfind _ =>
      have hmem : e ∈ s.dir := List.mem_of_find?_eq_some hfind
      have hone : ∀ x ∈ [e], x ∈ s.dir := fun x hx => List.mem_singleton.1 hx ▸ hmem
      split
      · exact .stay s _ hone
      split
      · exact .stay s _ hone
      · exact ⟨List.filter_sublist, rfl, rfl, rfl, hone⟩
      · have h := ih (removed + 1) (s.erase e)
        refine ⟨h.dir.trans List.filter_sublist, h.next, h.capacity, h.given, fun x hx => ?_⟩
        rcases List.mem_cons.1 hx with rfl | hx
        · exact hmem
        · exact List.mem_of_mem_filter (h.handed x hx)

theorem drain_drains (s : Spool) (handling : ℕ → Handling) : s.Drains (s.drain handling) :=
  drainFrom_drains handling _ 0 s

/-! ## Runs -/

/-- What holds of every spool: its entries are in order, and none is ahead of the counter. -/
structure Ordered (s : Spool) : Prop where
  sorted : s.dir.Pairwise fun e e' => e.seq < e'.seq
  bounded : ∀ e ∈ s.dir, e.seq ≤ s.next

/-- A file made under a free name comes last. -/
theorem Ordered.put (h : s.Ordered) (hfree : ∀ x ∈ s.dir, x.seq ≠ s.next) (entry bytes : Bytes) :
    (s.put entry bytes).Ordered where
  sorted := by
    refine List.pairwise_append.2 ⟨h.sorted, List.pairwise_singleton _ _, fun e he x hx => ?_⟩
    obtain rfl := List.mem_singleton.1 hx
    exact lt_of_le_of_ne (h.bounded e he) (hfree e he)
  bounded e he := by
    rcases List.mem_append.1 he with he | he
    · exact h.bounded e he
    · exact (List.mem_singleton.1 he ▸ le_rfl : e.seq ≤ s.next)

theorem Ordered.drained (h : s.Ordered) {d : Drained} (hd : s.Drains d) : d.spool.Ordered where
  sorted := h.sorted.sublist hd.dir
  bounded e he := hd.next ▸ h.bounded e (hd.dir.subset he)

theorem Ordered.step (h : s.Ordered) (op : Op) : (s.step op).Ordered := by
  cases op with
  | reopen capacity => exact ⟨h.sorted, fun e he => (lt_resume h.sorted he).le⟩
  | drain handling => exact h.drained (s.drain_drains handling)
  | push entry w =>
    rcases s.push_cases entry w with ⟨err, hp⟩ | ⟨⟨-, hfree, -⟩, detail, hp⟩ | ⟨-, hfree, -, hp⟩
    · rw [step_push, hp]
      exact h
    · rw [step_push, hp]
      exact h.put hfree entry _
    · rw [step_push, hp]
      have h' := h.put hfree entry entry
      exact ⟨h'.sorted, fun e he => (h'.bounded e he).trans (Nat.le_succ _)⟩

theorem Ordered.run (h : s.Ordered) (ops : List Op) : (s.run ops).Ordered := by
  induction ops generalizing s with
  | nil => exact h
  | cons op ops ih => exact ih (h.step op)

theorem ordered_fresh (capacity : ℕ) : (fresh capacity).Ordered :=
  ⟨.nil, fun _ he => absurd he List.not_mem_nil⟩

/-- **What keeps a spool usable**: its entries are whole, and no name of theirs is the next
    one, unless there is no room for a next one. -/
structure Ready (s : Spool) : Prop where
  ordered : s.Ordered
  whole : ∀ e ∈ s.dir, s.Whole e
  free : (∀ e ∈ s.dir, e.seq < s.next) ∨ s.capacity = 1 ∧ ∃ e, s.dir = [e]

theorem ready_fresh (capacity : ℕ) : (fresh capacity).Ready :=
  ⟨ordered_fresh capacity, fun _ he => absurd he List.not_mem_nil,
    .inl fun _ he => absurd he List.not_mem_nil⟩

theorem Ready.usable (h : s.Ready) : s.Usable := by
  refine ⟨fun entry hroom => ?_, fun handling e he => ?_⟩
  · have hlt : ∀ e ∈ s.dir, e.seq < s.next := by
      rcases h.free with hlt | ⟨hone, e, he⟩
      · exact hlt
      · rw [depth_eq, he, hone] at hroom
        exact absurd hroom (lt_irrefl _)
    have htaken : ¬ ∃ x ∈ s.dir, x.seq = s.next := fun ⟨x, hx, hseq⟩ => (hlt x hx).ne hseq
    simp only [push, if_neg (not_le.2 hroom), if_neg htaken, put]
    exact ⟨trivial, trivial, hlt⟩
  · exact h.whole e ((s.drain_drains handling).handed e he)

theorem Whole.put {e : Entry} (h : s.Whole e) (entry bytes : Bytes) :
    (s.put entry bytes).Whole e := by
  unfold Whole at h ⊢
  exact (List.getElem?_append_left (List.getElem?_eq_some_iff.1 h).1).trans h

/-- The file of a push is whole when all of it is written. -/
theorem whole_put (h : ∀ e ∈ s.dir, s.Whole e) (entry : Bytes) :
    ∀ e ∈ (s.put entry entry).dir, (s.put entry entry).Whole e := by
  intro e he
  rcases List.mem_append.1 he with he | he
  · exact (h e he).put entry entry
  · obtain rfl := List.mem_singleton.1 he
    exact List.getElem?_concat_length

/-- With room for one entry only, there is room for it in an empty spool. -/
theorem dir_eq_nil (hroom : depth s.dir < s.capacity) (hone : s.capacity = 1) : s.dir = [] := by
  rw [depth_eq, hone] at hroom
  exact List.length_eq_zero_iff.1 (Nat.lt_one_iff.1 hroom)

theorem Ready.drained (h : s.Ready) {d : Drained} (hd : s.Drains d) : d.spool.Ready where
  ordered := h.ordered.drained hd
  whole e he := by
    have := h.whole e (hd.dir.subset he)
    rwa [Whole, ← hd.given] at this
  free := by
    rcases h.free with hlt | ⟨hone, e, he⟩
    · exact .inl fun x hx => hd.next ▸ hlt x (hd.dir.subset hx)
    · rcases List.sublist_singleton.1 (he ▸ hd.dir) with hnil | hsame
      · exact .inl fun x hx => absurd (hnil ▸ hx) List.not_mem_nil
      · exact .inr ⟨hd.capacity.trans hone, e, hsame⟩

theorem Ready.step (h : s.Ready) {op : Op} (hfit : s.Fits op) : (s.step op).Ready := by
  have hord := h.ordered.step op
  cases op with
  | reopen capacity => exact ⟨hord, h.whole, .inl fun e he => lt_resume h.ordered.sorted he⟩
  | drain handling => exact h.drained (s.drain_drains handling)
  | push entry w =>
    rw [step_push] at hord ⊢
    rcases s.push_cases entry w with ⟨err, hp⟩ | ⟨hlate, detail, hp⟩ | ⟨-, hfree, -, hp⟩
    · rw [hp]
      exact h
    · obtain ⟨hone, hwrote⟩ := hfit hlate
      rw [hp, hwrote] at hord ⊢
      refine ⟨hord, whole_put h.whole entry, .inr ⟨hone, ⟨s.next, entry, s.given.length⟩, ?_⟩⟩
      rw [put, dir_eq_nil hlate.1 hone]
      rfl
    · rw [hp] at hord ⊢
      refine ⟨hord, whole_put h.whole entry, .inl fun e he => ?_⟩
      exact Nat.lt_succ_of_le ((h.ordered.put hfree entry entry).bounded e he)

theorem Ready.run (h : s.Ready) {ops : List Op} (hfit : s.AllFit ops) : (s.run ops).Ready := by
  induction ops generalizing s with
  | nil => exact h
  | cons op ops ih => exact ih (h.step hfit.1) hfit.2

theorem allFit_of_quiet {ops : List Op} (h : ∀ op ∈ ops, op.Quiet) : s.AllFit ops := by
  induction ops generalizing s with
  | nil => trivial
  | cons op ops ih =>
    refine ⟨?_, ih fun o ho => h o (List.mem_cons_of_mem _ ho)⟩
    cases op with
    | push entry w => exact fun hlate => absurd hlate.2.2 (h _ List.mem_cons_self)
    | reopen capacity => trivial
    | drain handling => trivial

/-! ## What a failed push leaves behind -/

/-- The sender accepts one entry, and is unreachable for the others. -/
def acceptsOnly (seq : ℕ) : ℕ → Handling := fun n =>
  if n = seq then ⟨none, .ok (), none, none⟩ else ⟨none, .error .spooled, none, none⟩

theorem drainFrom_acceptsOnly {seq : ℕ} {pending : List ℕ} (h : ∀ n ∈ pending, n ≠ seq)
    (removed : ℕ) (s : Spool) : (drainFrom (acceptsOnly seq) pending removed s).spool = s := by
  cases pending with
  | nil => rfl
  | cons n rest =>
    have hn : acceptsOnly seq n = ⟨none, .error .spooled, none, none⟩ :=
      if_neg (h n List.mem_cons_self)
    unfold drainFrom
    rw [hn]
    cases s.dir.find? fun x => x.seq = n <;> rfl

/-- A drain lets the first entry go. -/
theorem drain_acceptsOnly {e : Entry} {rest : List Entry} (h : s.Ordered) (he : s.dir = e :: rest) :
    (s.drain (acceptsOnly e.seq)).spool = s.erase e := by
  have hfind : (s.dir.find? fun x => x.seq = e.seq) = some e := by
    rw [he]
    exact List.find?_cons_of_pos (decide_eq_true rfl)
  have hhandling : acceptsOnly e.seq e.seq = ⟨none, .ok (), none, none⟩ := if_pos rfl
  have hrest : ∀ n ∈ rest.map Entry.seq, n ≠ e.seq := by
    intro n hn
    obtain ⟨x, hx, rfl⟩ := List.mem_map.1 hn
    exact ((List.pairwise_cons.1 (he ▸ h.sorted)).1 x hx).ne'
  rw [drain, entries_of_sorted h.sorted, he, List.map_cons, drainFrom, hfind, hhandling]
  exact drainFrom_acceptsOnly hrest 1 (s.erase e)

/-- As long as the file of a failed push is there, below capacity, nothing can be pushed. -/
theorem not_takesMore (hroom : depth s.dir < s.capacity) {e : Entry} (he : e ∈ s.dir)
    (hseq : e.seq = s.next) : ¬ s.TakesMore := by
  intro h
  have hok := (h [] hroom).1
  rw [push_taken hroom he hseq []] at hok
  cases hok

theorem LeavesUsable.fits (hs : s.Ordered) (hlate : s.FailsLate w) (h : s.LeavesUsable entry w) :
    s.capacity = 1 ∧ w.wrote entry = entry := by
  obtain ⟨complete, usable⟩ := h
  rw [push_late hlate] at complete usable
  have hput : (s.put entry (w.wrote entry)).Ordered := hs.put hlate.2.1 entry _
  have hmem : ⟨s.next, w.wrote entry, s.given.length⟩ ∈ (s.put entry (w.wrote entry)).dir :=
    List.mem_append_right _ List.mem_cons_self
  refine ⟨?_, complete _ hmem rfl⟩
  by_contra hcap
  have hroom := hlate.1
  rw [depth_eq] at hroom
  cases hdir : s.dir with
  | nil =>
    refine not_takesMore ?_ hmem rfl (usable [] fun _ ho => absurd ho List.not_mem_nil).1
    have hlen : depth (s.put entry (w.wrote entry)).dir = 1 := by
      rw [depth_eq, put, hdir]
      rfl
    rw [hlen]
    show 1 < s.capacity
    rw [hdir, List.length_nil] at hroom
    omega
  | cons e rest =>
    -- a drain that lets one entry go makes room, and leaves the name taken
    have hfirst : (s.put entry (w.wrote entry)).dir =
        e :: (rest ++ [⟨s.next, w.wrote entry, s.given.length⟩]) := by
      rw [put, hdir]
      rfl
    have hafter := usable [.drain (acceptsOnly e.seq)] fun _ ho => by
      rw [List.mem_singleton.1 ho]
      trivial
    rw [run, List.foldl_cons, List.foldl_nil, step, drain_acceptsOnly hput hfirst] at hafter
    have hkept : (⟨s.next, w.wrote entry, s.given.length⟩ : Entry) ∈
        ((s.put entry (w.wrote entry)).erase e).dir := by
      refine List.mem_filter.2 ⟨hmem, decide_eq_true ?_⟩
      exact (hlate.2.1 e (hdir ▸ List.mem_cons_self)).symm
    refine not_takesMore ?_ hkept rfl hafter.1
    have hlen : depth ((s.put entry (w.wrote entry)).erase e).dir <
        (s.put entry (w.wrote entry)).dir.length := by
      rw [depth_eq]
      exact List.length_filter_lt_length_iff_exists.2 ⟨e, hfirst ▸ List.mem_cons_self, by simp⟩
    have hput' : (s.put entry (w.wrote entry)).dir.length = s.dir.length + 1 := List.length_append
    show _ < s.capacity
    omega

theorem Ordered.leavesUsable (hs : s.Ordered) (hlate : s.FailsLate w)
    (hfit : s.capacity = 1 ∧ w.wrote entry = entry) : s.LeavesUsable entry w := by
  have hnil := dir_eq_nil hlate.1 hfit.1
  have hready : s.Ready := by
    refine ⟨hs, fun e he => ?_, .inl fun e he => ?_⟩
    · exact absurd (hnil ▸ he) List.not_mem_nil
    · exact absurd (hnil ▸ he) List.not_mem_nil
  have hafter : (s.step (.push entry w)).Ready := hready.step fun _ => hfit
  refine ⟨fun e he _ => ?_, fun later hquiet => (hafter.run (allFit_of_quiet hquiet)).usable⟩
  rw [push_late hlate, Spool.put, hnil, hfit.2] at he
  rw [List.mem_singleton.1 he]

/-- **A push that fails behind its file leaves the spool usable** exactly when its entry is
    the only one there is room for, and was written whole; and over operations whose pushes
    all fit in that way, the spool stays usable. -/
theorem leaves_usable_iff (capacity : ℕ) (ops : List Op) :
    ((fresh capacity).AllFit ops → ((fresh capacity).run ops).Usable) ∧
    ∀ entry w, let s := (fresh capacity).run ops
      (s.FailsLate w → s.LeavesUsable entry w) ↔
        (s.FailsLate w → s.capacity = 1 ∧ w.wrote entry = entry) := by
  refine ⟨fun h => ((ready_fresh capacity).run h).usable, fun entry w => ?_⟩
  have hs := (ordered_fresh capacity).run ops
  dsimp only
  refine ⟨fun h hlate => (h hlate).fits hs hlate, fun h hlate => ?_⟩
  exact hs.leavesUsable hlate (h hlate)

/-! ## The sidecar's own bound -/

/-- How many entries a sidecar's spool holds. -/
def defaultCapacity : ℕ := 10000

/-- The first push into an empty spool can fail behind its file. -/
theorem fresh_failsLate (hcap : 0 < capacity) (hw : w.Late) : (fresh capacity).FailsLate w := by
  refine ⟨?_, fun _ hx => absurd hx List.not_mem_nil, hw⟩
  rw [depth_eq]
  exact hcap

/-- An entry of the agent `deployer`. -/
def someEntry : Bytes := frame "deployer".toList [1, 2, 3]

/-- **After a failed sync no other record gets into the spool**; after a short write the
    sender gets what was written, as a request of the agent. -/
theorem failed_push_blocks :
    (fresh defaultCapacity).FailsLate (.unsynced "EIO".toList) ∧
    ¬ (fresh defaultCapacity).LeavesUsable someEntry (.unsynced "EIO".toList) ∧
    (∀ entry,
      (((fresh defaultCapacity).push someEntry (.unsynced "EIO".toList)).2.push entry .done).1 =
        .error (.io Sidecar.fileExists)) ∧
    (((fresh defaultCapacity).push someEntry (.short 10 "ENOSPC".toList)).2.drain fun _ =>
        ⟨none, .ok (), none, none⟩).handed.map (fun e => unframe e.bytes) =
      [.ok ⟨"deployer".toList, [1]⟩] := by
  have hunsynced : (fresh defaultCapacity).FailsLate (.unsynced "EIO".toList) :=
    fresh_failsLate (by decide) trivial
  have hshort : (fresh defaultCapacity).FailsLate (.short 10 "ENOSPC".toList) :=
    fresh_failsLate (by decide) trivial
  refine ⟨hunsynced, fun h => ?_, fun entry => ?_, ?_⟩
  · have hone : defaultCapacity = 1 := (h.fits (ordered_fresh defaultCapacity) hunsynced).1
    exact absurd hone (by decide)
  · rw [push_late hunsynced]
    refine congrArg Prod.fst (push_taken ?_ List.mem_cons_self rfl entry)
    rw [depth_eq]
    decide
  · rw [push_late hshort]
    have hlisted : entries ((fresh defaultCapacity).put someEntry (someEntry.take 10)).dir = [0] :=
      @entries_of_sorted [⟨0, someEntry.take 10, 0⟩] (List.pairwise_singleton _ _)
    rw [drain, Disk.wrote, hlisted]
    rfl

end Spool

/-! ## A push in the sidecar -/

/-- The answers of the world that a push of these bytes meets, a step each. -/
def Disk.outcomes (bytes : Bytes) : Disk → List Outcome
  | .done => [.done, .part bytes.length, .done]
  | .refused detail => [.fault detail]
  | .short n detail => [.done, .part n, .fault detail]
  | .unsynced detail => [.done, .part bytes.length, .fault detail]

variable {S : Setup} {σ : Sidecar} {i : ℕ} {r : Request}

/-- A call that is over takes no more steps. -/
theorem moves_none (h : σ.calls i = none) (os : List Outcome) :
    os.foldl (fun σ o => σ.move S i o) σ = σ := by
  induction os with
  | nil => rfl
  | cons o os ih =>
    have hmove : σ.move S i o = σ := by simp only [Sidecar.move, h]
    rw [List.foldl_cons, hmove]
    exact ih

/-- What a submit that pushes is answered. -/
theorem leave_pushing (hcall : σ.calls i = some (.pushing r)) (result : Except AgentError Unit) :
    σ.leave i result = { σ with lock := none }.answer i (result.bind fun _ => .error .spooled) := by
  unfold Sidecar.leave Sidecar.resume
  rw [show ({ σ with lock := none } : Sidecar).calls i = some (.pushing r) from hcall]
  cases result <;> rfl

/-- A push that is turned away before it makes a file. -/
theorem moves_turned_away (hcall : σ.calls i = some (.pushing r)) (hlock : σ.lock = none)
    {err : AgentError} {o : Outcome}
    (henter : σ.enter S i (.pushing r) o = σ.resume i (.error err)) (os : List Outcome) :
    (o :: os).foldl (fun σ o => σ.move S i o) σ = σ.answer i (.error err) := by
  have hmove : σ.move S i o = σ.answer i (.error err) := by
    simp only [Sidecar.move, hcall, hlock, henter, Sidecar.resume]
  rw [List.foldl_cons, hmove]
  exact moves_none (Function.update_self ..) os

/-- The sidecar once a push has made its file, and written this much of it. -/
def Sidecar.writing (σ : Sidecar) (i : ℕ) (bytes left : Bytes) : Sidecar :=
  { σ with dir := σ.dir ++ [⟨σ.next, bytes, i⟩]
           lock := some (i, .writing σ.next left)
           past := .pushed i :: σ.past }

theorem enter_pushing (hcall : σ.calls i = some (.pushing r)) (hlock : σ.lock = none)
    (hroom : depth σ.dir < S.capacity) (hfree : ∀ x ∈ σ.dir, x.seq ≠ σ.next) :
    σ.move S i .done = σ.writing i [] r.frame := by
  have htaken : ¬ ∃ x ∈ σ.dir, x.seq = σ.next := fun ⟨x, hx, hseq⟩ => hfree x hx hseq
  simp only [Sidecar.move, hcall, hlock, Sidecar.enter, if_neg (not_le.2 hroom), if_neg htaken,
    Sidecar.writing]

theorem move_writing (hcall : σ.calls i = some (.pushing r)) (hfree : ∀ x ∈ σ.dir, x.seq ≠ σ.next)
    (left : Bytes) (n : ℕ) :
    (σ.writing i [] left).move S i (.part n) = σ.writing i (left.take n) (left.drop n) := by
  have hold : σ.dir.map (Entry.write σ.next (left.take n)) = σ.dir := by
    refine (List.map_congr_left fun x hx => ?_).trans (List.map_id _)
    exact Entry.write_of_ne (hfree x hx) _
  have hnew : (⟨σ.next, [], i⟩ : Entry).write σ.next (left.take n) = ⟨σ.next, left.take n, i⟩ := by
    rw [Entry.write, if_pos rfl]
    rfl
  have hmove : (σ.writing i [] left).move S i (.part n) =
      { (σ.writing i [] left).writeTo σ.next (left.take n) with
          lock := some (i, .writing σ.next (left.drop n)) } := by
    simp only [Sidecar.move, Sidecar.writing, hcall, Sidecar.work, if_pos]
  rw [hmove, Sidecar.writeTo, Sidecar.writing, Sidecar.writing, List.map_append, hold,
    List.map_singleton, hnew]

/-- The call is over, and left the spool as one call of it did, and its caller told. -/
def Sidecar.Settles (σ : Sidecar) (i : ℕ) (p : Except AgentError Unit × Spool) : Prop :=
  σ.dir = p.2.dir ∧ σ.next = p.2.next ∧ σ.lock = none ∧ σ.calls i = none ∧
    σ.past.head? = some (.answered i (p.1.bind fun _ => .error .spooled))

theorem settles_turned_away {o : Outcome} {err : AgentError} {s : Spool}
    (hcall : σ.calls i = some (.pushing r)) (hlock : σ.lock = none)
    (henter : σ.enter S i (.pushing r) o = σ.resume i (.error err)) (hdir : s.dir = σ.dir)
    (hnext : s.next = σ.next) (os : List Outcome) :
    ((o :: os).foldl (fun σ o => σ.move S i o) σ).Settles i (.error err, s) := by
  rw [moves_turned_away hcall hlock henter]
  exact ⟨hdir.symm, hnext.symm, hlock, Function.update_self .., rfl⟩

/-- What a push that has made its file comes to. -/
theorem settles_writing {bytes left : Bytes} {o : Outcome} {result : Except AgentError Unit}
    {s : Spool} {next : ℕ} (hcall : σ.calls i = some (.pushing r))
    (hwork : (σ.writing i bytes left).work i (.writing σ.next left) o =
      ({ σ.writing i bytes left with next := next } : Sidecar).leave i result)
    (hdir : s.dir = σ.dir ++ [⟨σ.next, bytes, i⟩]) (hnext : s.next = next) :
    ((σ.writing i bytes left).move S i o).Settles i (result, s) := by
  have hmove : (σ.writing i bytes left).move S i o =
      (σ.writing i bytes left).work i (.writing σ.next left) o := by
    simp only [Sidecar.move, Sidecar.writing, hcall, if_pos]
  have hleave := leave_pushing (σ := { σ.writing i bytes left with next := next }) hcall result
  rw [hmove, hwork, hleave]
  exact ⟨hdir.symm, hnext.symm, rfl, Function.update_self .., rfl⟩

/-- **The sidecar pushes as its spool does**: the steps of a submit that holds the lock come to
    what one call does. -/
theorem moves_push (hcall : σ.calls i = some (.pushing r)) (hlock : σ.lock = none)
    {given : List Bytes} (hi : given.length = i) (w : Disk) :
    ((w.outcomes r.frame).foldl (fun σ o => σ.move S i o) σ).Settles i
      ((Spool.mk σ.dir σ.next S.capacity given).push r.frame w) := by
  subst hi
  by_cases hfull : S.capacity ≤ depth σ.dir
  · have henter : σ.enter S given.length (.pushing r) .done =
        σ.resume given.length (.error .spoolFull) := by
      simp only [Sidecar.enter, if_pos hfull]
    cases w with
    | refused detail => exact settles_turned_away hcall hlock rfl rfl rfl _
    | done | short | unsynced =>
      simp only [Spool.push, if_pos hfull]
      exact settles_turned_away hcall hlock henter rfl rfl _
  by_cases htaken : ∃ x ∈ σ.dir, x.seq = σ.next
  · have henter : σ.enter S given.length (.pushing r) .done =
        σ.resume given.length (.error (.io Sidecar.fileExists)) := by
      simp only [Sidecar.enter, if_neg hfull, if_pos htaken]
    cases w with
    | refused detail => exact settles_turned_away hcall hlock rfl rfl rfl _
    | done | short | unsynced =>
      simp only [Spool.push, if_neg hfull, if_pos htaken]
      exact settles_turned_away hcall hlock henter rfl rfl _
  have hfree : ∀ x ∈ σ.dir, x.seq ≠ σ.next := fun x hx hseq => htaken ⟨x, hx, hseq⟩
  have hmade := enter_pushing hcall hlock (not_le.1 hfull) hfree
  cases w with
  | refused detail => exact settles_turned_away hcall hlock rfl rfl rfl _
  | done =>
    simp only [Spool.push, if_neg hfull, if_neg htaken, Disk.outcomes, List.foldl_cons, hmade,
      move_writing hcall hfree, List.take_length, List.drop_length, List.foldl_nil]
    exact settles_writing hcall rfl rfl rfl
  | short n detail =>
    simp only [Spool.push, if_neg hfull, if_neg htaken, Disk.outcomes, List.foldl_cons, hmade,
      move_writing hcall hfree, List.foldl_nil]
    exact settles_writing hcall rfl rfl rfl
  | unsynced detail =>
    simp only [Spool.push, if_neg hfull, if_neg htaken, Disk.outcomes, List.foldl_cons, hmade,
      move_writing hcall hfree, List.take_length, List.drop_length, List.foldl_nil]
    exact settles_writing hcall rfl rfl rfl

end Yaam.Agent
