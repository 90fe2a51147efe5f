/-
  When the sidecar keeps its word.

  * `Sidecar.Inv` is what stands between steps: the queue, the calls and the lock;
  * `Sidecar.Inv.step` is the step lemma, one lemma for each thing a call does;
  * `keepsItsWord_of_named`: when every caller has a name, the sidecar keeps its word in
    every state of every run;
  * `nameless_record_lost`: a caller without one is told its record is spooled, and the
    record is dropped unposted.
-/
import Yaam.Agent.Queue

namespace Yaam.Agent

open Text Utf8 Contract Past

variable {past : List Event} {dir : List Entry} {i : ℕ} {r : Request} {ev : Event}

/-! ## The calls and the lock -/

/-- The record a submit is about. -/
def Stage.request : Stage → Option Request
  | .checking r | .flushing r | .rechecking r | .pushing r | .posting r => some r
  | .draining => none

/-- What stands of a call that is under way. -/
structure Waits (past : List Event) (lock : Option (ℕ × Held)) (i : ℕ) (p : Stage) : Prop where
  began : ∀ r, p.request = some r → .began i r ∈ past
  unanswered : ∀ a, .answered i a ∉ past
  unaccepted : ∀ r, .posted i r (.ok ()) ∉ past
  pushed : .pushed i ∈ past → ∃ seq left, lock = some (i, .writing seq left)
  queued : ∀ r, p = .posting r → ∀ j s, Before past (.answered j (.error .spooled)) (.began i r) →
    .began j s ∈ past → Settled past j s

/-- A call that drains the spool. -/
def Stage.Drains (p : Option Stage) : Prop := p = some .draining ∨ ∃ r, p = some (.flushing r)

/-- What stands of the call that holds the spool lock. -/
def Sidecar.Holds (σ : Sidecar) (i : ℕ) : Held → Prop
  | .reading pending => Stage.Drains (σ.calls i) ∧ pending <+: σ.dir.map Entry.seq
  | .posting e pending =>
    Stage.Drains (σ.calls i) ∧ ∃ rest, σ.dir = e :: rest ∧ pending <+: rest.map Entry.seq
  | .removing e pending =>
    Stage.Drains (σ.calls i) ∧ (∃ rest, σ.dir = e :: rest ∧ pending <+: rest.map Entry.seq) ∧
      ∀ r, unframe e.bytes = .ok r → Settled σ.past e.owner r
  | .writing seq left => ∃ r init e, σ.calls i = some (.pushing r) ∧ σ.dir = init ++ [e] ∧
      e.seq = seq ∧ σ.next = seq ∧ e.owner = i ∧ e.bytes ++ left = r.frame

/-- The first entry was not accepted, or its removal was interrupted since. -/
def Again (past : List Event) (dir : List Entry) : Prop :=
  ∀ e rest, dir = e :: rest → Since past (Event.Accepts e.owner) (.interrupted e.owner)

/-- **What stands between steps.** -/
structure Sidecar.Inv (σ : Sidecar) : Prop where
  queued : Queued σ.dir σ.past
  bounded : σ.running = true → ∀ e ∈ σ.dir, e.seq ≤ σ.next
  ids : ∀ x ∈ σ.past, x.call < σ.begun
  named : ∀ i r, .began i r ∈ σ.past → unframe r.frame = .ok r
  beganOnce : ∀ i r s, .began i r ∈ σ.past → .began i s ∈ σ.past → r = s
  calls : ∀ i p, σ.calls i = some p → i < σ.begun ∧ Waits σ.past σ.lock i p
  holds : ∀ i h, σ.lock = some (i, h) → σ.Holds i h
  front : Again σ.past σ.dir ∨ ∃ i e pending, σ.lock = some (i, .removing e pending)
  stopped : σ.running = false → (∀ i, σ.calls i = none) ∧ σ.lock = none

variable {σ : Sidecar} {p : Stage} {lock : Option (ℕ × Held)}

theorem Again.cons (h : Again past dir) (hev : ∀ e rest, dir = e :: rest → ¬ ev.Accepts e.owner) :
    Again (ev :: past) dir := fun e rest he => since_cons.2 ⟨hev e rest he, .inr (h e rest he)⟩

/-- An interrupted removal may be made up for. -/
theorem again_interrupted {e : Entry} {rest : List Entry} :
    Again (.interrupted e.owner :: past) (e :: rest) := by
  intro x rest' hx
  obtain ⟨rfl, -⟩ := List.cons.inj hx
  refine since_cons.2 ⟨?_, .inl rfl⟩
  rintro ⟨r, hr⟩
  cases hr

/-- What happens to other calls leaves a call waiting. -/
theorem Waits.cons (h : Waits past lock i p) (hcall : ev.call ≠ i)
    (hbegan : ∀ j s, ev = .began j s → ∀ x ∈ past, x.call ≠ j) : Waits (ev :: past) lock i p where
  began r hr := List.mem_cons_of_mem _ (h.began r hr)
  unanswered a ha := by
    rcases List.mem_cons.1 ha with rfl | ha
    · exact hcall rfl
    · exact h.unanswered a ha
  unaccepted r hr := by
    rcases List.mem_cons.1 hr with rfl | hr
    · exact hcall rfl
    · exact h.unaccepted r hr
  pushed hp := by
    rcases List.mem_cons.1 hp with rfl | hp
    · exact absurd rfl hcall
    · exact h.pushed hp
  queued r hr j s hb hs := by
    rcases before_cons.1 hb with ⟨rfl, -⟩ | hb
    · exact absurd rfl hcall
    rcases List.mem_cons.1 hs with hs | hs
    · exact absurd rfl (hbegan j s hs.symm _ hb.left)
    · exact (h.queued r hr j s hb hs).cons

theorem Sidecar.Holds.cons {h : Held} (hh : σ.Holds i h) : (σ.note ev).Holds i h := by
  cases h with
  | reading pending => exact hh
  | posting e pending => exact hh
  | removing e pending => exact ⟨hh.1, hh.2.1, fun r hr => (hh.2.2 r hr).cons⟩
  | writing seq left => exact hh

@[simp] theorem Sidecar.go_calls_self {p : Option Stage} : (σ.go i p).calls i = p :=
  Function.update_self ..

theorem Sidecar.go_calls_of_ne {j : ℕ} {p : Option Stage} (h : j ≠ i) :
    (σ.go i p).calls j = σ.calls j := Function.update_of_ne h ..

/-- Only the calls of others may change under a call that holds the lock. -/
theorem Sidecar.Holds.go {h : Held} {j : ℕ} {p : Option Stage} (hh : σ.Holds i h) (hij : i ≠ j) :
    (σ.go j p).Holds i h := by
  have hcalls : (σ.go j p).calls i = σ.calls i := Sidecar.go_calls_of_ne hij
  cases h with
  | reading pending => exact ⟨hcalls ▸ hh.1, hh.2⟩
  | posting e pending => exact ⟨hcalls ▸ hh.1, hh.2⟩
  | removing e pending => exact ⟨hcalls ▸ hh.1, hh.2⟩
  | writing seq left =>
    obtain ⟨r, init, e, hr, he⟩ := hh
    exact ⟨r, init, e, hcalls.trans hr, he⟩

namespace Sidecar.Inv

/-- What happens to no call that is under way, while the lock goes from hand to hand. -/
theorem notes (h : σ.Inv) (lock : Option (ℕ × Held)) (hev : MayFollow σ.dir σ.past ev) (hid : ev.call < σ.begun)
    (hcalls : σ.calls ev.call = none) (hnamed : ∀ j s, ev = .began j s → unframe s.frame = .ok s)
    (hwriting : ∀ j seq left, σ.lock = some (j, .writing seq left) → lock = σ.lock)
    (hholds : ∀ j hh, lock = some (j, hh) → ({ σ with past := ev :: σ.past, lock := lock } : Sidecar).Holds j hh)
    (hfront : Again (ev :: σ.past) σ.dir ∨ ∃ i e pending, lock = some (i, .removing e pending))
    (hstopped : σ.running = false → lock = none) :
    ({ σ with past := ev :: σ.past, lock := lock } : Sidecar).Inv where
  queued := h.queued.cons hev
  bounded := h.bounded
  ids x hx := by
    rcases List.mem_cons.1 hx with rfl | hx
    · exact hid
    · exact h.ids x hx
  named j s hs := by
    rcases List.mem_cons.1 hs with hs | hs
    · exact hnamed j s hs.symm
    · exact h.named j s hs
  beganOnce j s t hs ht := by
    rcases List.mem_cons.1 hs with hs | hs <;> rcases List.mem_cons.1 ht with ht | ht
    · exact (Event.began.inj (hs.trans ht.symm)).2
    · exact absurd rfl (hev.began j s hs.symm _ ht)
    · exact absurd rfl (hev.began j t ht.symm _ hs)
    · exact h.beganOnce j s t hs ht
  calls j p hj := by
    obtain ⟨hlt, hw⟩ := h.calls j p hj
    have hne : ev.call ≠ j := by
      rintro rfl
      rw [show σ.calls ev.call = some p from hj] at hcalls
      cases hcalls
    have hw' := hw.cons hne hev.began
    refine ⟨hlt, { hw' with pushed := fun hp => ?_ }⟩
    obtain ⟨seq, left, hl⟩ := hw'.pushed hp
    exact ⟨seq, left, (hwriting j seq left hl).trans hl⟩
  holds := hholds
  front := hfront
  stopped hr := ⟨(h.stopped hr).1, hstopped hr⟩

/-- What happens to no call that is under way. -/
theorem note (h : σ.Inv) (hev : MayFollow σ.dir σ.past ev) (hid : ev.call < σ.begun)
    (hcalls : σ.calls ev.call = none) (hnamed : ∀ j s, ev = .began j s → unframe s.frame = .ok s)
    (hfront : ∀ e rest, σ.dir = e :: rest → ¬ ev.Accepts e.owner) : (σ.note ev).Inv :=
  h.notes _ hev hid hcalls hnamed (fun _ _ _ _ => rfl) (fun j hh hj => (h.holds j hh hj).cons)
    (h.front.imp_left fun ha => ha.cons hfront) fun hr => (h.stopped hr).2

/-- A call that does not hold the lock is given up. -/
theorem drop (h : σ.Inv) (hlock : ∀ hh, σ.lock ≠ some (i, hh)) : (σ.go i none).Inv where
  queued := h.queued
  bounded := h.bounded
  ids := h.ids
  named := h.named
  beganOnce := h.beganOnce
  calls j p hj := by
    by_cases hji : j = i
    · subst hji
      rw [Sidecar.go_calls_self] at hj
      cases hj
    · exact h.calls j p ((Sidecar.go_calls_of_ne hji).symm.trans hj)
  holds j hh hj := (h.holds j hh hj).go fun hji => hlock hh (hji ▸ hj)
  front := h.front
  stopped hr := by
    refine ⟨fun j => ?_, (h.stopped hr).2⟩
    by_cases hji : j = i
    · subst hji
      exact Sidecar.go_calls_self
    · exact (Sidecar.go_calls_of_ne hji).trans ((h.stopped hr).1 j)

/-- A call that does not hold the lock goes on. -/
theorem goes (h : σ.Inv) (hlock : ∀ hh, σ.lock ≠ some (i, hh)) (hrun : σ.running = true)
    (hlt : i < σ.begun) (hw : Waits σ.past σ.lock i p) : (σ.go i (some p)).Inv where
  queued := h.queued
  bounded := h.bounded
  ids := h.ids
  named := h.named
  beganOnce := h.beganOnce
  calls j q hj := by
    by_cases hji : j = i
    · subst hji
      rw [Sidecar.go_calls_self] at hj
      obtain rfl := Option.some.inj hj
      exact ⟨hlt, hw⟩
    · exact h.calls j q ((Sidecar.go_calls_of_ne hji).symm.trans hj)
  holds j hh hj := (h.holds j hh hj).go fun hji => hlock hh (hji ▸ hj)
  front := h.front
  stopped hr := by
    rw [show σ.running = false from hr] at hrun
    cases hrun

/-- The call that holds the lock is given up. -/
theorem unlock (h : σ.Inv) {hh : Held} (hlock : σ.lock = some (i, hh)) (hfront : Again σ.past σ.dir) :
    ({ σ with lock := none }.go i none).Inv where
  queued := h.queued
  bounded := h.bounded
  ids := h.ids
  named := h.named
  beganOnce := h.beganOnce
  calls j p hj := by
    have hji : j ≠ i := by
      rintro rfl
      rw [Sidecar.go_calls_self] at hj
      cases hj
    obtain ⟨hlt, hw⟩ := h.calls j p ((Sidecar.go_calls_of_ne hji).symm.trans hj)
    refine ⟨hlt, { hw with pushed := fun hp => ?_ }⟩
    obtain ⟨seq, left, hl⟩ := hw.pushed hp
    rw [hlock] at hl
    exact absurd (congrArg Prod.fst (Option.some.inj hl)).symm hji
  holds j hh hj := by cases hj
  front := .inl hfront
  stopped hr := by
    rw [(h.stopped hr).2] at hlock
    cases hlock

/-- A drain takes the lock, or goes on under it. -/
theorem drains (h : σ.Inv) {hh : Held} (hlock : ∀ j seq left, σ.lock ≠ some (j, .writing seq left))
    (hrun : σ.running = true) (hholds : σ.Holds i hh)
    (hfront : Again σ.past σ.dir ∨ ∃ e pending, hh = .removing e pending) :
    ({ σ with lock := some (i, hh) } : Sidecar).Inv where
  queued := h.queued
  bounded := h.bounded
  ids := h.ids
  named := h.named
  beganOnce := h.beganOnce
  calls j p hj := by
    obtain ⟨hlt, hw⟩ := h.calls j p hj
    refine ⟨hlt, { hw with pushed := fun hp => ?_ }⟩
    obtain ⟨seq, left, hl⟩ := hw.pushed hp
    exact absurd hl (hlock j seq left)
  holds j hh' hj := by
    obtain ⟨rfl, rfl⟩ := Prod.mk.inj (Option.some.inj hj)
    cases hh <;> exact hholds
  front := hfront.imp_right fun ⟨e, pending, he⟩ => ⟨i, e, pending, he ▸ rfl⟩
  stopped hr := by
    rw [show σ.running = false from hr] at hrun
    cases hrun

theorem unaccepted_answered {a : Except AgentError Unit} {j : ℕ} : ¬ (Event.answered i a).Accepts j := by
  rintro ⟨r, hr⟩
  cases hr

/-- A call is answered for, and Spooled is said of what is on disk. -/
theorem answers (h : σ.Inv) (hcall : σ.calls i = none) (hlt : i < σ.begun) {a : Except AgentError Unit}
    (ha : a = .error .spooled → ∃ r, .began i r ∈ σ.past ∧ ∃ e ∈ σ.dir, e.owner = i ∧ e.bytes = r.frame) :
    (σ.note (.answered i a)).Inv := by
  refine h.note ⟨nofun, nofun, ?_, trivial, nofun⟩ hlt hcall nofun fun _ _ _ => unaccepted_answered
  intro j hj r hr
  obtain ⟨rfl, rfl⟩ := Event.answered.inj hj
  obtain ⟨s, hs, he⟩ := ha rfl
  obtain rfl := h.beganOnce _ r s hr hs
  exact .inr he

theorem go_go (q q' : Option Stage) : (σ.go i q).go i q' = σ.go i q' := by
  simp only [Sidecar.go, Function.update_idem]

/-- **A call goes on** with what its work on the spool came to. -/
theorem resume (h : (σ.go i none).Inv) (hlock : σ.lock = none) (hi : σ.calls i = some p)
    (hrun : σ.running = true) (hlt : i < σ.begun) {result : Except AgentError Unit}
    (hbegan : ∀ r, p.request = some r → .began i r ∈ σ.past) (hun : ∀ a, .answered i a ∉ σ.past)
    (hno : ∀ r, .posted i r (.ok ()) ∉ σ.past) (hpushed : (∃ r, p = .flushing r) → .pushed i ∉ σ.past)
    (hres : result ≠ .error .spooled)
    (hdone : ∀ r, p = .pushing r → result = .ok () → ∃ e ∈ σ.dir, e.owner = i ∧ e.bytes = r.frame) :
    (σ.resume i result).Inv := by
  have herror : ∀ e, result = .error e → (σ.answer i (.error e)).Inv := by
    rintro e rfl
    exact answers h Sidecar.go_calls_self hlt fun he => absurd he hres
  unfold Sidecar.resume
  rw [hi]
  cases p with
  | flushing r =>
    cases result with
    | error e => exact herror e rfl
    | ok _ =>
      have hfree : ∀ hh, (σ.go i none).lock ≠ some (i, hh) := fun hh hl => by
        rw [show σ.lock = some (i, hh) from hl] at hlock
        cases hlock
      have hgoes := h.goes (p := .rechecking r) hfree hrun hlt
        ⟨hbegan, hun, hno, fun hp => absurd hp (hpushed ⟨r, rfl⟩), nofun⟩
      rw [go_go] at hgoes
      exact hgoes
  | pushing r =>
    cases result with
    | error e => exact herror e rfl
    | ok _ => exact answers h Sidecar.go_calls_self hlt fun _ => ⟨r, hbegan r rfl, hdone r rfl rfl⟩
  | checking r => cases result <;> exact h
  | rechecking r => cases result <;> exact h
  | posting r => cases result <;> exact h
  | draining => cases result <;> exact h

theorem running_of_lock (h : σ.Inv) {hh : Held} (hlock : σ.lock = some (i, hh)) : σ.running = true := by
  by_contra hr
  rw [(h.stopped (Bool.not_eq_true _ ▸ hr)).2] at hlock
  cases hlock

theorem running_of_call (h : σ.Inv) (hi : σ.calls i = some p) : σ.running = true := by
  by_contra hr
  rw [(h.stopped (Bool.not_eq_true _ ▸ hr)).1] at hi
  cases hi

theorem again (h : σ.Inv) (hlock : ∀ i e pending, σ.lock ≠ some (i, .removing e pending)) :
    Again σ.past σ.dir :=
  h.front.resolve_right fun ⟨i, e, pending, hl⟩ => hlock i e pending hl

theorem again_of_lock (h : σ.Inv) {hh : Held} (hlock : σ.lock = some (i, hh))
    (hne : ∀ e pending, hh ≠ .removing e pending) : Again σ.past σ.dir :=
  h.again fun j e pending hl => by
    rw [hlock] at hl
    exact hne e pending (congrArg Prod.snd (Option.some.inj hl))

theorem again_of_free (h : σ.Inv) (hlock : σ.lock = none) : Again σ.past σ.dir :=
  h.again fun j e pending hl => by
    rw [hlock] at hl
    cases hl

/-- The call that holds the lock is a flush, or a push that is being written. -/
theorem holder (h : σ.Inv) {hh : Held} (hlock : σ.lock = some (i, hh)) :
    ∃ p, σ.calls i = some p ∧ (∀ r, p ≠ .posting r) ∧
      ((∃ r, p = .flushing r) → ∀ seq left, hh ≠ .writing seq left) := by
  have hholds := h.holds i hh hlock
  have hdrains : Stage.Drains (σ.calls i) → ∃ p, σ.calls i = some p ∧ ∀ r, p ≠ .posting r := by
    rintro (hd | ⟨r, hd⟩) <;> exact ⟨_, hd, nofun⟩
  cases hh with
  | writing seq left =>
    obtain ⟨r, -, -, hp, -⟩ := hholds
    exact ⟨_, hp, nofun, fun ⟨r, hr⟩ => by cases hr⟩
  | reading pending => exact (hdrains hholds.1).imp fun p hp => ⟨hp.1, hp.2, nofun⟩
  | posting e pending => exact (hdrains hholds.1).imp fun p hp => ⟨hp.1, hp.2, nofun⟩
  | removing e pending => exact (hdrains hholds.1).imp fun p hp => ⟨hp.1, hp.2, nofun⟩

/-- The call that holds the lock is done with the spool. -/
theorem leave (h : σ.Inv) {hh : Held} (hlock : σ.lock = some (i, hh)) (hfront : Again σ.past σ.dir)
    {result : Except AgentError Unit} (hres : result ≠ .error .spooled)
    (hdone : ∀ seq left, hh = .writing seq left → result ≠ .ok ()) : (σ.leave i result).Inv := by
  obtain ⟨p, hi, -, hflush⟩ := h.holder hlock
  obtain ⟨hlt, hw⟩ := h.calls i p hi
  refine (h.unlock hlock hfront).resume rfl hi (h.running_of_lock hlock) hlt hw.began hw.unanswered
    hw.unaccepted (fun hf hp => ?_) hres fun r hr hok => ?_
  · obtain ⟨seq, left, hl⟩ := hw.pushed hp
    rw [hlock] at hl
    exact hflush hf seq left (congrArg Prod.snd (Option.some.inj hl))
  · subst hr hok
    have hholds := h.holds i hh hlock
    have hnot : ¬ Stage.Drains (σ.calls i) := by
      rw [hi]
      rintro (hd | ⟨r, hd⟩) <;> cases hd
    cases hh with
    | writing seq left => exact absurd rfl (hdone seq left rfl)
    | reading pending => exact absurd hholds.1 hnot
    | posting e pending => exact absurd hholds.1 hnot
    | removing e pending => exact absurd hholds.1 hnot

/-! ## A drain -/

theorem erase_head {e : Entry} {rest : List Entry} (h : σ.Inv) (hdir : σ.dir = e :: rest) :
    (σ.erase e).dir = rest := by
  have hsorted := h.queued.sorted
  rw [hdir] at hsorted
  have hlt := (List.pairwise_cons.1 hsorted).1
  rw [Sidecar.erase, hdir, List.filter_cons_of_neg (by simp), List.filter_eq_self]
  intro x hx
  have := hlt x hx
  exact decide_eq_true (by omega)

/-- The owner of an entry is no longer under way, but for the one that is being written. -/
theorem owner_gone (h : σ.Inv) (hlock : ∀ j seq left, σ.lock ≠ some (j, .writing seq left))
    {e : Entry} (he : e ∈ σ.dir) : σ.calls e.owner = none := by
  cases hc : σ.calls e.owner with
  | none => rfl
  | some p =>
    obtain ⟨seq, left, hl⟩ := (h.calls _ p hc).2.pushed (h.queued.pushed e he)
    exact absurd hl (hlock _ seq left)

/-- The first entry may be accepted. -/
theorem posts_front {e : Entry} {rest : List Entry} (h : σ.Inv) (hdir : σ.dir = e :: rest)
    (hagain : Again σ.past σ.dir) (r : Request) (v : Except AgentError Unit) :
    MayFollow σ.dir σ.past (.posted e.owner r v) := by
  have hq := h.queued
  rw [hdir] at hq
  have hapart := List.pairwise_cons.1 hq.apart
  refine ⟨nofun, nofun, nofun, hq.inOrder_front (hagain e rest hdir), fun j s hj => ?_⟩
  obtain ⟨rfl, -⟩ := Event.posted.inj hj
  rw [hdir]
  refine ⟨List.pairwise_cons.2 ⟨fun x hx hxe => (hapart.1 x hx).owner hxe.symm, ?_⟩, ?_⟩
  · exact List.Pairwise.imp_of_mem (fun {a x} _ hx _ hxe => (hapart.1 x hx).owner hxe.symm) hapart.2
  · intro x hx hb
    rcases List.mem_cons.1 hx with rfl | hx
    · exact hq.pushedOnce _ hb
    · exact (hapart.1 x hx).pushed hb

/-- A drain goes by the verdict on the first entry. -/
theorem judges {e : Entry} {pending : List ℕ} (h : σ.Inv)
    (hlock : σ.lock = some (i, .posting e pending)) (hagain : Again σ.past σ.dir)
    (v : Except AgentError Unit) (hdone : ∀ r, unframe e.bytes = .ok r → Settled σ.past e.owner r) :
    (σ.judged i e pending v).Inv := by
  have hfree : ∀ j seq left, σ.lock ≠ some (j, .writing seq left) := fun j seq left hl => by
    rw [hlock] at hl
    cases hl
  obtain ⟨hd, hrest⟩ := h.holds i _ hlock
  have hremoving : ({ σ with lock := some (i, .removing e pending) } : Sidecar).Inv :=
    h.drains hfree (h.running_of_lock hlock) ⟨hd, hrest, hdone⟩ (.inr ⟨e, pending, rfl⟩)
  cases v with
  | ok _ => exact hremoving
  | error c =>
    cases c with
    | rejected why => exact hremoving
    | spooled => exact h.leave hlock hagain nofun nofun
    | spoolFull => exact h.leave hlock hagain nofun nofun
    | crypto detail => exact h.leave hlock hagain nofun nofun
    | io detail => exact h.leave hlock hagain nofun nofun

/-- **An entry is posted**, and the drain goes by the verdict. -/
theorem posts_entry {e : Entry} {pending : List ℕ} (h : σ.Inv)
    (hlock : σ.lock = some (i, .posting e pending)) {r : Request} (hr : unframe e.bytes = .ok r)
    (v : Except AgentError Unit) : ((σ.note (.posted e.owner r v)).judged i e pending v).Inv := by
  have hagain : Again σ.past σ.dir := h.again_of_lock hlock nofun
  have hfree : ∀ j seq left, σ.lock ≠ some (j, .writing seq left) := fun j seq left hl => by
    rw [hlock] at hl
    cases hl
  obtain ⟨hd, rest, hdir, hpending⟩ := h.holds i _ hlock
  have he : e ∈ σ.dir := hdir ▸ List.mem_cons_self
  have hmay := h.posts_front hdir hagain r v
  have hid := h.ids _ (h.queued.pushed e he)
  have hgone := h.owner_gone hfree he
  by_cases hfinal : v = .ok () ∨ ∃ why, v = .error (.rejected why)
  · have hremoving := h.notes (some (i, .removing e pending)) hmay hid hgone nofun
      (fun j seq left hl => absurd hl (hfree j seq left))
      (fun j hh hj => by
        obtain ⟨rfl, rfl⟩ := Prod.mk.inj (Option.some.inj hj)
        refine ⟨hd, ⟨rest, hdir, hpending⟩, fun s hs => ?_⟩
        obtain rfl := Except.ok.inj (hr.symm.trans hs)
        exact ⟨v, List.mem_cons_self, hfinal⟩)
      (.inr ⟨i, e, pending, rfl⟩)
      fun hstop => by
        rw [h.running_of_lock hlock] at hstop
        cases hstop
    rcases hfinal with rfl | ⟨why, rfl⟩ <;> exact hremoving
  · have hquiet : ∀ j, ¬ (Event.posted e.owner r v).Accepts j := fun j ⟨s, hs⟩ =>
      hfinal (.inl (Event.posted.inj hs).2.2)
    have hnoted := h.note hmay hid hgone nofun fun x _ _ => hquiet x.owner
    have hleave : ∀ result : Except AgentError Unit, result ≠ .error .spooled →
        ((σ.note (.posted e.owner r v)).leave i result).Inv := fun result hres =>
      hnoted.leave hlock (hagain.cons fun x _ _ => hquiet x.owner) hres nofun
    cases v with
    | ok _ => exact absurd (.inl rfl) hfinal
    | error c =>
      cases c with
      | rejected why => exact absurd (.inr ⟨why, rfl⟩) hfinal
      | spooled => exact hleave _ nofun
      | spoolFull => exact hleave _ nofun
      | crypto detail => exact hleave _ nofun
      | io detail => exact hleave _ nofun

/-- **An entry that was judged is removed.** -/
theorem removes {e : Entry} {pending : List ℕ} (h : σ.Inv)
    (hlock : σ.lock = some (i, .removing e pending)) :
    ({ σ.erase e with lock := some (i, .reading pending) } : Sidecar).Inv := by
  obtain ⟨hd, ⟨rest, hdir, hpending⟩, hdone⟩ := h.holds i _ hlock
  have hrest := h.erase_head hdir
  have hq := h.queued
  rw [hdir] at hq
  refine { h with queued := ?_, bounded := ?_, calls := ?_, holds := ?_, front := ?_, stopped := ?_ }
  · change Queued (σ.erase e).dir σ.past
    rw [hrest]
    refine hq.remove fun r hb hbytes => hdone r ?_
    rw [hbytes]
    exact h.named _ r hb
  · exact fun hr x hx => h.bounded hr x (List.mem_filter.1 hx).1
  · intro j p hj
    obtain ⟨hlt, hw⟩ := h.calls j p hj
    refine ⟨hlt, { hw with pushed := fun hp => ?_ }⟩
    obtain ⟨seq, left, hl⟩ := hw.pushed hp
    rw [hlock] at hl
    cases hl
  · intro j hh hj
    obtain ⟨rfl, rfl⟩ := Prod.mk.inj (Option.some.inj hj)
    refine ⟨hd, ?_⟩
    change pending <+: (σ.erase e).dir.map Entry.seq
    rw [hrest]
    exact hpending
  · refine .inl fun x rest' hx => since_of_forall ?_
    change (σ.erase e).dir = x :: rest' at hx
    rw [hrest] at hx
    subst hx
    rintro a ha ⟨r, rfl⟩
    exact ((List.pairwise_cons.1 hq.apart).1 x List.mem_cons_self).unaccepted r ha
  · intro hr
    have := h.running_of_lock hlock
    rw [show σ.running = false from hr] at this
    cases this

/-- The removal of an entry fails, or is cut off. -/
theorem interrupts {e : Entry} {pending : List ℕ} (h : σ.Inv)
    (hlock : σ.lock = some (i, .removing e pending)) :
    (σ.note (.interrupted e.owner)).Inv ∧ Again (.interrupted e.owner :: σ.past) σ.dir := by
  obtain ⟨-, ⟨rest, hdir, -⟩, -⟩ := h.holds i _ hlock
  have he : e ∈ σ.dir := hdir ▸ List.mem_cons_self
  have hfree : ∀ j seq left, σ.lock ≠ some (j, .writing seq left) := fun j seq left hl => by
    rw [hlock] at hl
    cases hl
  have hid : e.owner < σ.begun := h.ids _ (h.queued.pushed e he)
  refine ⟨h.note ⟨nofun, nofun, nofun, trivial, nofun⟩ hid (h.owner_gone hfree he) nofun ?_, ?_⟩
  · rintro x rest' - ⟨r, hr⟩
    cases hr
  · rw [hdir]
    exact again_interrupted

/-! ## A push -/

theorem bumped (h : σ.Inv) (hlock : σ.lock = none) {n : ℕ} (hn : σ.next ≤ n) :
    ({ σ with next := n } : Sidecar).Inv where
  queued := h.queued
  bounded hr x hx := (h.bounded hr x hx).trans hn
  ids := h.ids
  named := h.named
  beganOnce := h.beganOnce
  calls := h.calls
  holds j hh hj := by
    rw [show σ.lock = some (j, hh) from hj] at hlock
    cases hlock
  front := h.front
  stopped := h.stopped

/-- **A push makes its entry**, behind all there are. -/
theorem pushes (h : σ.Inv) (hlock : σ.lock = none) {r : Request} (hi : σ.calls i = some (.pushing r))
    (hnew : ¬ ∃ x ∈ σ.dir, x.seq = σ.next) :
    ({ σ with dir := σ.dir ++ [⟨σ.next, [], i⟩]
              lock := some (i, .writing σ.next r.frame)
              past := .pushed i :: σ.past } : Sidecar).Inv := by
  obtain ⟨hlt, hw⟩ := h.calls i _ hi
  have hrun := h.running_of_call hi
  have hunpushed : .pushed i ∉ σ.past := fun hp => by
    obtain ⟨seq, left, hl⟩ := hw.pushed hp
    rw [hlock] at hl
    cases hl
  have hseq : ∀ x ∈ σ.dir, x.seq < σ.next := fun x hx =>
    lt_of_le_of_ne (h.bounded hrun x hx) fun hxn => hnew ⟨x, hx, hxn⟩
  have hagain : Again σ.past σ.dir := h.again_of_free hlock
  have hquiet : ∀ j, ¬ (Event.pushed i).Accepts j := fun j ⟨s, hs⟩ => by cases hs
  refine ⟨?_, ?_, ?_, ?_, ?_, ?_, ?_, ?_, ?_⟩
  · exact h.queued.push (e := ⟨σ.next, [], i⟩) hunpushed hw.unanswered hw.unaccepted hseq
  · intro hr x hx
    rcases List.mem_append.1 hx with hx | hx
    · exact h.bounded hrun x hx
    · rw [List.mem_singleton.1 hx]
  · intro x hx
    rcases List.mem_cons.1 hx with rfl | hx
    · exact hlt
    · exact h.ids x hx
  · intro j s hs
    rcases List.mem_cons.1 hs with hs | hs
    · cases hs
    · exact h.named j s hs
  · intro j s t hs ht
    rcases List.mem_cons.1 hs with hs | hs
    · cases hs
    rcases List.mem_cons.1 ht with ht | ht
    · cases ht
    exact h.beganOnce j s t hs ht
  · intro j p hj
    by_cases hji : j = i
    · subst hji
      obtain rfl := Option.some.inj (hi.symm.trans hj)
      refine ⟨hlt, ?_, ?_, ?_, fun _ => ⟨_, _, rfl⟩, nofun⟩
      · exact fun s hs => List.mem_cons_of_mem _ (hw.began s hs)
      · intro a ha
        rcases List.mem_cons.1 ha with ha | ha
        · cases ha
        · exact hw.unanswered a ha
      · intro s hs
        rcases List.mem_cons.1 hs with hs | hs
        · cases hs
        · exact hw.unaccepted s hs
    · obtain ⟨hltj, hwj⟩ := h.calls j p hj
      have hwj' : Waits (.pushed i :: σ.past) _ j p := hwj.cons (fun he => hji he.symm) nofun
      refine ⟨hltj, { hwj' with pushed := fun hp => ?_ }⟩
      obtain ⟨seq, left, hl⟩ := hwj'.pushed hp
      rw [hlock] at hl
      cases hl
  · intro j hh hj
    obtain ⟨rfl, rfl⟩ := Prod.mk.inj (Option.some.inj hj)
    exact ⟨r, σ.dir, ⟨σ.next, [], i⟩, hi, rfl, rfl, rfl, rfl, rfl⟩
  · refine .inl fun e rest he => ?_
    cases hdir : σ.dir with
    | nil =>
      rw [hdir] at he
      obtain ⟨rfl, -⟩ := List.cons.inj he
      refine since_of_forall ?_
      rintro a ha ⟨s, rfl⟩
      rcases List.mem_cons.1 ha with ha | ha
      · cases ha
      · exact hw.unaccepted s ha
    | cons x dir =>
      rw [hdir] at he
      obtain ⟨rfl, -⟩ := List.cons.inj he
      exact hagain.cons (fun y _ _ => hquiet y.owner) x dir hdir
  · intro hr
    rw [show σ.running = false from hr] at hrun
    cases hrun

/-- An entry takes some more of its bytes. -/
theorem writes {seq : ℕ} {left : Bytes} (h : σ.Inv) (hlock : σ.lock = some (i, .writing seq left))
    (n : ℕ) :
    ({ σ.writeTo seq (left.take n) with lock := some (i, .writing seq (left.drop n)) } : Sidecar).Inv := by
  obtain ⟨r, init, e, hi, hdir, rfl, hnext, howner, hbytes⟩ := h.holds i _ hlock
  obtain ⟨hlt, hw⟩ := h.calls i _ hi
  have hlast : ∀ x ∈ init, x.seq < e.seq := by
    have hsorted := h.queued.sorted
    rw [hdir] at hsorted
    exact fun x hx => (List.pairwise_append.1 hsorted).2.2 x hx e List.mem_cons_self
  have hdir' : σ.dir.map (Entry.write e.seq (left.take n)) = init ++ [e.write e.seq (left.take n)] := by
    rw [hdir, List.map_append, List.map_cons, List.map_nil]
    exact congrArg (· ++ [e.write e.seq (left.take n)])
      ((List.map_congr_left fun x hx => Entry.write_of_ne (hlast x hx).ne _).trans (List.map_id init))
  have hagain : Again σ.past σ.dir := h.again_of_lock hlock nofun
  refine { h with queued := ?_, bounded := ?_, calls := ?_, holds := ?_, front := ?_, stopped := ?_ }
  · refine h.queued.write (Entry.write_seq _ _) (Entry.write_owner _ _) fun x hx ha => ?_
    rw [hdir] at hx
    rcases List.mem_append.1 hx with hx | hx
    · exact Entry.write_of_ne (hlast x hx).ne _
    · rw [List.mem_singleton.1 hx, howner] at ha
      exact absurd ha (hw.unanswered _)
  · intro hr x hx
    obtain ⟨y, hy, rfl⟩ := List.mem_map.1 hx
    rw [Entry.write_seq]
    exact h.bounded hr y hy
  · intro j p hj
    obtain ⟨hltj, hwj⟩ := h.calls j p hj
    refine ⟨hltj, { hwj with pushed := fun hp => ?_ }⟩
    obtain ⟨seq', left', hl⟩ := hwj.pushed hp
    rw [hlock] at hl
    obtain ⟨rfl, -⟩ := Prod.mk.inj (Option.some.inj hl)
    exact ⟨_, _, rfl⟩
  · intro j hh hj
    obtain ⟨rfl, rfl⟩ := Prod.mk.inj (Option.some.inj hj)
    refine ⟨r, init, e.write e.seq (left.take n), hi, hdir', by simp, hnext, by simpa using howner, ?_⟩
    rw [Entry.write_bytes, List.append_assoc, List.take_append_drop, hbytes]
  · refine .inl fun x rest hx => ?_
    obtain ⟨y, rest', hy, rfl, -⟩ := List.map_eq_cons_iff.1 hx
    rw [Entry.write_owner]
    exact hagain y rest' hy
  · intro hr
    have := h.running_of_lock hlock
    rw [show σ.running = false from hr] at this
    cases this

/-! ## Steps -/

/-- **The call that holds the spool lock takes a step.** -/
theorem work (h : σ.Inv) {hh : Held} (hlock : σ.lock = some (i, hh)) (o : Outcome) :
    (σ.work i hh o).Inv := by
  have hagain : (∀ e pending, hh ≠ .removing e pending) → Again σ.past σ.dir := h.again_of_lock hlock
  have hholds := h.holds i hh hlock
  cases hh with
  | reading pending =>
    have hfree : ∀ j seq left, σ.lock ≠ some (j, .writing seq left) := fun j seq left hl => by
      rw [hlock] at hl
      cases hl
    cases pending with
    | nil =>
      cases o with
      | done => exact h.leave hlock (hagain nofun) nofun nofun
      | fault detail => exact h.leave hlock (hagain nofun) nofun nofun
      | part n => exact h
      | unsynced detail => exact h
      | verdict v => exact h
    | cons seq pending =>
      cases o with
      | done =>
        obtain ⟨hd, rest', hpending⟩ := hholds
        obtain ⟨e, rest, hdir, rfl, hrest⟩ := List.map_eq_cons_iff.1 hpending.symm
        have hfind : σ.dir.find? (fun x => x.seq = e.seq) = some e := by
          rw [hdir, List.find?_cons_of_pos (by simp)]
        simp only [Sidecar.work, hfind]
        exact h.drains hfree (h.running_of_lock hlock) ⟨hd, rest, hdir, rest', hrest.symm⟩
          (.inl (hagain nofun))
      | fault detail => exact h.leave hlock (hagain nofun) nofun nofun
      | part n => exact h
      | unsynced detail => exact h
      | verdict v => exact h
  | posting e pending =>
    cases o with
    | verdict v =>
      cases hr : unframe e.bytes with
      | ok r =>
        simp only [Sidecar.work, hr]
        exact h.posts_entry hlock hr v
      | error corrupt =>
        simp only [Sidecar.work, hr]
        refine h.judges hlock (hagain nofun) _ fun r hok => ?_
        rw [hr] at hok
        cases hok
    | done => exact h
    | part n => exact h
    | fault detail => exact h
    | unsynced detail => exact h
  | removing e pending =>
    cases o with
    | done => exact h.removes hlock
    | fault detail =>
      obtain ⟨hnote, hfront⟩ := h.interrupts hlock
      exact hnote.leave hlock hfront nofun nofun
    | unsynced detail =>
      have hremoved := h.removes hlock
      have hfront := hremoved.front.resolve_right fun ⟨j, e', pending', hl⟩ => by cases hl
      exact hremoved.leave rfl hfront nofun nofun
    | part n => exact h
    | verdict v => exact h
  | writing seq left =>
    cases o with
    | part n => exact h.writes hlock n
    | fault detail => exact h.leave hlock (hagain nofun) nofun nofun
    | done =>
      cases left with
      | cons b left => exact h
      | nil =>
        obtain ⟨r, init, e, hi, hdir, -, -, howner, hbytes⟩ := hholds
        obtain ⟨hlt, hw⟩ := h.calls i _ hi
        have hbumped := (h.unlock hlock (hagain nofun)).bumped (n := σ.next + 1) rfl (Nat.le_succ _)
        refine resume (σ := { σ with next := σ.next + 1, lock := none }) (p := .pushing r) hbumped rfl hi
          (h.running_of_lock hlock) hlt hw.began hw.unanswered hw.unaccepted nofun nofun ?_
        rintro s hs -
        obtain rfl := Stage.pushing.inj hs
        refine ⟨e, ?_, howner, by simpa using hbytes⟩
        change e ∈ σ.dir
        rw [hdir]
        exact List.mem_append_right _ List.mem_cons_self
    | unsynced detail => exact h
    | verdict v => exact h

/-- **A call takes the spool lock.** -/
theorem enter (h : σ.Inv) (S : Setup) (hlock : σ.lock = none) (hi : σ.calls i = some p) (o : Outcome) :
    (σ.enter S i p o).Inv := by
  obtain ⟨hlt, hw⟩ := h.calls i p hi
  have hrun := h.running_of_call hi
  have hfree : ∀ j hh, σ.lock ≠ some (j, hh) := fun j hh hl => by
    rw [hlock] at hl
    cases hl
  have hunpushed : .pushed i ∉ σ.past := fun hp => by
    obtain ⟨seq, left, hl⟩ := hw.pushed hp
    exact hfree _ _ hl
  have hagain : Again σ.past σ.dir := h.again_of_free hlock
  have hdropped := h.drop (hfree i)
  have herror : ∀ e, e ≠ .spooled → (σ.answer i (.error e)).Inv := fun e he =>
    hdropped.answers Sidecar.go_calls_self hlt fun hs => absurd (Except.error.inj hs) he
  have hresume : ∀ e, e ≠ .spooled → (σ.resume i (.error e)).Inv := fun e he =>
    hdropped.resume hlock hi hrun hlt hw.began hw.unanswered hw.unaccepted (fun _ => hunpushed)
      (fun hs => he (Except.error.inj hs)) nofun
  have hdrain : Stage.Drains (σ.calls i) →
      ({ σ with lock := some (i, .reading (entries σ.dir)) } : Sidecar).Inv := fun hd =>
    h.drains (fun j seq left => hfree j _) hrun
      ⟨hd, (entries_of_sorted h.queued.sorted).symm ▸ List.prefix_rfl⟩ (.inl hagain)
  cases p with
  | checking r =>
    cases o with
    | done =>
      refine h.goes (hfree i) hrun hlt ?_
      split_ifs
      · exact { hw with began := hw.began, queued := nofun }
      · exact { hw with began := hw.began, queued := nofun }
    | fault detail => exact herror _ nofun
    | part n => exact h
    | unsynced detail => exact h
    | verdict v => exact h
  | rechecking r =>
    cases o with
    | done =>
      refine h.goes (hfree i) hrun hlt ?_
      split_ifs with hdepth
      · exact { hw with began := hw.began, queued := nofun }
      · refine { hw with began := hw.began, queued := ?_ }
        intro s _ j t hb ht
        rw [depth_eq, not_lt, Nat.le_zero, List.length_eq_zero_iff] at hdepth
        rcases h.queued.kept j t ht hb.left with hs | ⟨e, he, -⟩
        · exact hs
        · rw [hdepth] at he
          exact absurd he List.not_mem_nil
    | fault detail => exact herror _ nofun
    | part n => exact h
    | unsynced detail => exact h
    | verdict v => exact h
  | flushing r =>
    cases o with
    | done => exact hdrain (.inr ⟨r, hi⟩)
    | fault detail => exact hresume _ nofun
    | part n => exact h
    | unsynced detail => exact h
    | verdict v => exact h
  | draining =>
    cases o with
    | done => exact hdrain (.inl hi)
    | fault detail => exact hresume _ nofun
    | part n => exact h
    | unsynced detail => exact h
    | verdict v => exact h
  | pushing r =>
    cases o with
    | done =>
      simp only [Sidecar.enter]
      split_ifs with hfull hnew
      · exact hresume _ nofun
      · exact hresume _ nofun
      · exact h.pushes hlock hi hnew
    | fault detail => exact hresume _ nofun
    | part n => exact h
    | unsynced detail => exact h
    | verdict v => exact h
  | posting r => cases o <;> exact h

/-- **A record that never was on disk is posted.** -/
theorem posts (h : σ.Inv) {r : Request} (hi : σ.calls i = some (.posting r)) (v : Except AgentError Unit) :
    (σ.posts i r v).Inv := by
  obtain ⟨hlt, hw⟩ := h.calls i _ hi
  have hfree : ∀ hh, σ.lock ≠ some (i, hh) := fun hh hl => by
    obtain ⟨p, hp, hnot, -⟩ := h.holder hl
    exact hnot r (Option.some.inj (hp.symm.trans hi))
  have hunpushed : .pushed i ∉ σ.past := fun hp => by
    obtain ⟨seq, left, hl⟩ := hw.pushed hp
    exact hfree _ hl
  have howner : ∀ e ∈ σ.dir, e.owner ≠ i := fun e he ho => hunpushed (ho ▸ h.queued.pushed e he)
  have hmay : MayFollow σ.dir σ.past (.posted i r v) := by
    refine ⟨nofun, nofun, nofun, ⟨?_, ?_, ?_⟩, fun j s hj => ?_⟩
    · refine since_of_forall ?_
      rintro a ha ⟨s, rfl⟩
      exact hw.unaccepted s ha
    · exact fun _ j hj => absurd hj.left hunpushed
    · intro _ j s r' hb hs
      obtain rfl := h.beganOnce i r r' (hw.began r rfl) hb.right
      exact hw.queued r rfl j s hb hs
    · obtain ⟨rfl, -⟩ := Event.posted.inj hj
      refine ⟨List.Pairwise.imp_of_mem (R := fun _ _ => True) (fun _ hx _ => howner _ hx)
        (List.pairwise_of_forall fun _ _ => trivial), fun e _ hb => hunpushed hb.right⟩
  have hnoted := (h.drop hfree).note hmay hlt Sidecar.go_calls_self nofun fun e rest he ⟨s, hs⟩ => by
    obtain ⟨ho, -⟩ := Event.posted.inj hs
    exact howner e (he ▸ List.mem_cons_self) ho.symm
  unfold Sidecar.posts
  dsimp only
  split_ifs with hv
  · subst hv
    have hgoes := hnoted.goes (p := .pushing r) hfree (h.running_of_call hi) hlt
      ⟨?_, ?_, ?_, fun hp => ?_, nofun⟩
    · rw [Sidecar.note, Sidecar.go, Sidecar.go, Function.update_idem] at hgoes
      exact hgoes
    · exact fun s hs => List.mem_cons_of_mem _ (hw.began s hs)
    · intro a ha
      rcases List.mem_cons.1 ha with ha | ha
      · cases ha
      · exact hw.unanswered a ha
    · intro s hs
      rcases List.mem_cons.1 hs with hs | hs
      · cases hs
      · exact hw.unaccepted s hs
    · rcases List.mem_cons.1 hp with hp | hp
      · cases hp
      · exact absurd hp hunpushed
  · exact hnoted.answers Sidecar.go_calls_self hlt fun hs => absurd hs hv

theorem move (h : σ.Inv) (S : Setup) (i : ℕ) (o : Outcome) : (σ.move S i o).Inv := by
  cases hi : σ.calls i with
  | none =>
    simp only [Sidecar.move, hi]
    exact h
  | some p =>
    by_cases hpost : ∃ r, p = .posting r
    · obtain ⟨r, rfl⟩ := hpost
      simp only [Sidecar.move, hi]
      cases o with
      | verdict v => exact h.posts hi v
      | done => exact h
      | part n => exact h
      | fault detail => exact h
      | unsynced detail => exact h
    · have hmove : σ.move S i o = match σ.lock with
          | none => σ.enter S i p o
          | some (j, hh) => if j = i then σ.work i hh o else σ := by
        unfold Sidecar.move
        rw [hi]
        cases p with
        | posting r => exact absurd ⟨r, rfl⟩ hpost
        | _ => cases σ.lock <;> rfl
      rw [hmove]
      cases hlock : σ.lock with
      | none => exact h.enter S hlock hi o
      | some held =>
        obtain ⟨j, hh⟩ := held
        dsimp only
        split_ifs with hji
        · subst hji
          exact h.work hlock o
        · exact h

/-- **The retry loop's flush may be aborted** anywhere. -/
theorem abort (h : σ.Inv) (i : ℕ) (told : Bool) : (σ.abort i told).Inv := by
  by_cases hi : σ.calls i = some .draining
  · cases hlock : σ.lock with
    | none =>
      simp only [Sidecar.abort, hi, hlock]
      exact h.drop fun hh hl => by
        rw [hlock] at hl
        cases hl
    | some held =>
      obtain ⟨j, hh⟩ := held
      simp only [Sidecar.abort, hi, hlock]
      by_cases hji : j = i
      · rw [if_pos hji]
        subst hji
        have hagain : (∀ e pending, hh ≠ .removing e pending) → Again σ.past σ.dir :=
          h.again_of_lock hlock
        cases hh with
        | reading pending => exact h.leave hlock (hagain nofun) nofun nofun
        | posting e pending => exact h.leave hlock (hagain nofun) nofun nofun
        | writing seq left =>
          obtain ⟨r, -, -, hp, -⟩ := h.holds j _ hlock
          rw [hi] at hp
          cases hp
        | removing e pending =>
          cases told with
          | true =>
            obtain ⟨hd, ⟨rest, hdir, -⟩, hdone⟩ := h.holds j _ hlock
            refine h.drains (fun k seq left hl => ?_) (h.running_of_lock hlock)
              ⟨hd, ⟨rest, hdir, List.nil_prefix⟩, hdone⟩ (.inr ⟨e, [], rfl⟩)
            rw [hlock] at hl
            cases hl
          | false =>
            obtain ⟨hnote, hfront⟩ := h.interrupts hlock
            exact hnote.leave hlock hfront nofun nofun
      · rw [if_neg hji]
        exact h.drop fun hh' hl => by
          rw [hlock] at hl
          exact hji (congrArg Prod.fst (Option.some.inj hl))
  · have hsame : σ.abort i told = σ := by
      unfold Sidecar.abort
      split
      · exact absurd ‹_› hi
      · exact absurd ‹_› hi
      · rfl
    rw [hsame]
    exact h

/-- A process that is gone leaves what is on disk. -/
theorem down (h : σ.Inv) (hagain : Again σ.past σ.dir) :
    ({ σ with running := false, lock := none, calls := fun _ => none } : Sidecar).Inv where
  queued := h.queued
  bounded := nofun
  ids := h.ids
  named := h.named
  beganOnce := h.beganOnce
  calls := nofun
  holds := nofun
  front := .inl hagain
  stopped _ := ⟨fun _ => rfl, rfl⟩

/-- **The process may crash** anywhere. -/
theorem crash (h : σ.Inv) (S : Setup) : (σ.step S .crash).Inv := by
  by_cases hremoving : ∃ i e pending, σ.lock = some (i, .removing e pending)
  · obtain ⟨i, e, pending, hlock⟩ := hremoving
    obtain ⟨hnote, hfront⟩ := h.interrupts hlock
    have hcut : σ.cut = [.interrupted e.owner] := by rw [Sidecar.cut, hlock]
    rw [Sidecar.step, hcut]
    exact hnote.down hfront
  · have hcut : σ.cut = [] := by
      unfold Sidecar.cut
      split
      · rename_i i e pending hlock
        exact absurd ⟨i, e, pending, hlock⟩ hremoving
      · rfl
    rw [Sidecar.step, hcut]
    exact h.down (h.front.resolve_right hremoving)

/-- **The spool is opened**, and resumes from the highest name on disk. -/
theorem opens (h : σ.Inv) (S : Setup) : (σ.step S .opens).Inv := by
  rw [Sidecar.step]
  split_ifs with hrun
  · exact h
  · obtain ⟨hcalls, hlock⟩ := h.stopped (Bool.not_eq_true _ ▸ hrun)
    refine { h with bounded := fun _ x hx => ?_, calls := ?_, holds := ?_, stopped := nofun }
    · exact (lt_resume h.queued.sorted hx).le
    · exact fun i p hi => h.calls i p hi
    · intro i hh hl
      rw [show σ.lock = some (i, hh) from hl] at hlock
      cases hlock

/-- There is one more call. -/
theorem begins (h : σ.Inv) : ({ σ with begun := σ.begun + 1 } : Sidecar).Inv :=
  { h with
    ids := fun x hx => (h.ids x hx).trans (Nat.lt_succ_self _)
    calls := fun i p hi => ⟨(h.calls i p hi).1.trans (Nat.lt_succ_self _), (h.calls i p hi).2⟩
    holds := fun i hh hl => by
      have := h.holds i hh hl
      cases hh <;> exact this }

/-- **A submit begins**, for a caller that has a name. -/
theorem submit (h : σ.Inv) (S : Setup) {socket : CallerSocket} (hsocket : socket.agent ≠ []) (line : Bytes)
    (nonce : ℕ) : (σ.step S (.submit socket line nonce)).Inv := by
  rw [Sidecar.step]
  split_ifs with hrun
  swap
  · exact h
  have hnone : σ.calls σ.begun = none := by
    cases hc : σ.calls σ.begun with
    | none => rfl
    | some p => exact absurd (h.calls _ p hc).1 (lt_irrefl _)
  have hfresh : ∀ x ∈ σ.past, x.call ≠ σ.begun := fun x hx => (h.ids x hx).ne
  have hfree : ∀ hh, σ.lock ≠ some (σ.begun, hh) := fun hh hl => by
    obtain ⟨p, hp, -⟩ := h.holder hl
    rw [hnone] at hp
    cases hp
  dsimp only
  cases hr : S.request socket line nonce with
  | error e =>
    refine h.begins.note ⟨nofun, nofun, ?_, trivial, nofun⟩ (Nat.lt_succ_self _) hnone nofun
      fun _ _ _ => unaccepted_answered
    intro j hj r hb
    obtain ⟨rfl, -⟩ := Event.answered.inj hj
    exact absurd rfl (hfresh _ hb)
  | ok r =>
    obtain ⟨hagent, hline⟩ := request_ok hr
    have hnoted : (({ σ with begun := σ.begun + 1 } : Sidecar).note (.began σ.begun r)).Inv := by
      refine h.begins.note ⟨?_, nofun, nofun, trivial, nofun⟩ (Nat.lt_succ_self _) hnone ?_ ?_
      · intro j s hj x hx
        obtain ⟨rfl, -⟩ := Event.began.inj hj
        exact hfresh x hx
      · intro j s hj
        obtain ⟨rfl, rfl⟩ := Event.began.inj hj
        exact unframe_frame (hagent ▸ hsocket) hline
      · rintro e rest - ⟨s, hs⟩
        cases hs
    refine hnoted.goes hfree hrun (Nat.lt_succ_self _) ⟨?_, ?_, ?_, ?_, nofun⟩
    · intro s hs
      obtain rfl := Option.some.inj hs
      exact List.mem_cons_self
    · intro a ha
      rcases List.mem_cons.1 ha with ha | ha
      · cases ha
      · exact hfresh _ ha rfl
    · intro s hs
      rcases List.mem_cons.1 hs with hs | hs
      · cases hs
      · exact hfresh _ hs rfl
    · intro hp
      rcases List.mem_cons.1 hp with hp | hp
      · cases hp
      · exact absurd rfl (hfresh _ hp)

theorem flush (h : σ.Inv) (S : Setup) : (σ.step S .flush).Inv := by
  rw [Sidecar.step]
  split_ifs with hrun
  swap
  · exact h
  have hfresh : ∀ x ∈ σ.past, x.call ≠ σ.begun := fun x hx => (h.ids x hx).ne
  have hfree : ∀ hh, σ.lock ≠ some (σ.begun, hh) := fun hh hl => by
    obtain ⟨p, hp, -⟩ := h.holder hl
    exact absurd (h.calls _ p hp).1 (lt_irrefl _)
  exact h.begins.goes hfree hrun (Nat.lt_succ_self _)
    ⟨nofun, fun a ha => hfresh _ ha rfl, fun r hr => hfresh _ hr rfl, fun hp => absurd rfl (hfresh _ hp), nofun⟩

/-- **Every step keeps the invariant**, when its caller has a name. -/
theorem step (h : σ.Inv) (S : Setup) {a : Act} (ha : a.Named) : (σ.step S a).Inv := by
  cases a with
  | opens => exact h.opens S
  | crash => exact h.crash S
  | submit socket line nonce => exact h.submit S ha line nonce
  | flush => exact h.flush S
  | move i o => exact h.move S i o
  | abort i told => exact h.abort i told

theorem run (S : Setup) : ∀ {acts : List Act} {σ : Sidecar}, σ.Inv → (∀ a ∈ acts, a.Named) →
    (σ.run S acts).Inv
  | [], _, h, _ => h
  | a :: acts, σ, h, ha =>
    have hrest : ((σ.step S a).run S acts).Inv :=
      run S (h.step S (ha a List.mem_cons_self)) fun b hb => ha b (List.mem_cons_of_mem _ hb)
    hrest

theorem keepsItsWord (h : σ.Inv) : σ.KeepsItsWord :=
  ⟨h.queued.kept, fun later i r v earlier hp => h.queued.inOrder later (.posted i r v) earlier hp⟩

end Sidecar.Inv

theorem inv_fresh : Sidecar.fresh.Inv where
  queued := queued_nil
  bounded := nofun
  ids := by simp [Sidecar.fresh]
  named := by simp [Sidecar.fresh]
  beganOnce := by simp [Sidecar.fresh]
  calls := nofun
  holds := nofun
  front := .inl nofun
  stopped _ := ⟨fun _ => rfl, rfl⟩

/-- **A sidecar whose callers all have a name keeps its word**, whatever its submits and
    flushes run into, and wherever it crashes. -/
theorem keepsItsWord_of_named (S : Setup) {acts : List Act} (h : ∀ a ∈ acts, a.Named) :
    (Sidecar.fresh.run S acts).KeepsItsWord :=
  (inv_fresh.run S h).keepsItsWord

/-! ## A caller with a name, and one without -/

def deployed (agent : Text) : ActionRecord where
  recordId := ⟨"01ARZ3NDEKTSV4RRFFQ69G5FAV".toList, by decide⟩
  schemaVer := 1
  at_ := "2026-01-01T00:00:00Z".toList
  receivedAt := "2026-01-01T00:00:00Z".toList
  backfilled := false
  agent := agent
  agentVer := none
  correlationId := none
  action := "deploy".toList
  outcome := .success
  attrs := .empty
  entities := []
  subjects := []
  visibility := .org
  team := none
  dataClass := .internal
  redactionPolicy := "default-v1".toList
  fieldsMasked := []
  tags := []
  summary := "done".toList

/-- A sidecar that masks nothing, and seals every record alike. -/
def deploying (agent : Text) : Setup := ⟨1, fun _ => .ok (deployed agent), fun _ => false, none, fun _ _ => .ok [1, 2, 3]⟩

/-- One record while the service is away, and a flush once it is back. -/
def outage (agent : Text) : List Act :=
  [.opens, .submit ⟨agent, false⟩ [] 0, .move 0 .done, .move 0 .done,
    .move 0 (.verdict (.error .spooled)), .move 0 .done, .move 0 (.part 5), .move 0 .done,
    .flush, .move 1 .done, .move 1 .done, .move 1 (.verdict (.ok ())), .move 1 .done, .move 1 .done]

/-- **A record that is posted once the service is back.** -/
theorem named_record_kept :
    (Sidecar.fresh.run (deploying ['a']) (outage ['a'])).past =
        [.posted 0 ⟨['a'], [1, 2, 3]⟩ (.ok ()), .answered 0 (.error .spooled), .pushed 0,
          .posted 0 ⟨['a'], [1, 2, 3]⟩ (.error .spooled), .began 0 ⟨['a'], [1, 2, 3]⟩] ∧
      (Sidecar.fresh.run (deploying ['a']) (outage ['a'])).KeepsItsWord := by
  refine ⟨by decide +kernel, keepsItsWord_of_named _ ?_⟩
  intro a ha
  simp only [outage, List.mem_cons, List.not_mem_nil, or_false] at ha
  rcases ha with rfl | rfl | rfl | rfl | rfl | rfl | rfl | rfl | rfl | rfl | rfl | rfl | rfl | rfl
  all_goals simp [Act.Named]

/-- **A record that was answered Spooled, and is gone without a post.** -/
theorem nameless_record_lost : ¬ (Sidecar.fresh.run (deploying []) (outage [])).KeepsItsWord := by
  have hpast : (Sidecar.fresh.run (deploying []) (outage [])).past =
      [.answered 0 (.error .spooled), .pushed 0, .posted 0 ⟨[], [1, 2, 3]⟩ (.error .spooled),
        .began 0 ⟨[], [1, 2, 3]⟩] := by decide +kernel
  have hdir : (Sidecar.fresh.run (deploying []) (outage [])).dir = [] := by decide +kernel
  intro h
  rcases h.kept 0 ⟨[], [1, 2, 3]⟩ (by simp [hpast]) (by simp [hpast]) with ⟨v, hv, hfinal⟩ | ⟨e, he, -⟩
  · rw [hpast] at hv
    have hspooled : v = .error .spooled := by simpa using hv
    rcases hfinal with rfl | ⟨why, rfl⟩ <;> simp at hspooled
  · rw [hdir] at he
    exact absurd he List.not_mem_nil

end Yaam.Agent
