/-
  What the sidecar owes its callers, and what stands between steps of its queue and of what
  happened.

  * `InOrder` is what a post has to stand up to, `Sidecar.KeepsItsWord` the whole promise;
  * `Queued.cons`: what may happen, so that the queue stays as it should be;
  * `Queued.push`, `Queued.write`, `Queued.remove`: what may be done to the directory;
  * `Queued.inOrder_front`: the first entry may be posted.
-/
import Yaam.Agent.Sidecar

namespace Yaam.Agent

open Text Utf8 Contract Past

/-! ## The promises -/

/-- A post of a record was accepted or refused. -/
def Settled (past : List Event) (i : ℕ) (r : Request) : Prop :=
  ∃ v, .posted i r v ∈ past ∧ (v = .ok () ∨ ∃ why, v = .error (.rejected why))

/-- An acceptance of a submit's record. -/
def Event.Accepts (i : ℕ) (e : Event) : Prop := ∃ r, e = .posted i r (.ok ())

/-- What a post of a submit's record stands up to, given what happened before it. -/
structure InOrder (past : List Event) (i : ℕ) (verdict : Except AgentError Unit) : Prop where
  /-- After an acceptance, only an interrupted removal has it posted again. -/
  once : Since past (Event.Accepts i) (.interrupted i)
  /-- Nothing that was pushed after it was accepted before it. -/
  order : verdict = .ok () → ∀ j, Before past (.pushed i) (.pushed j) → ∀ r, .posted j r (.ok ()) ∉ past
  /-- Whatever was answered Spooled before its submit began was accepted or refused. -/
  queued : verdict = .ok () → ∀ j s r, Before past (.answered j (.error .spooled)) (.began i r) →
    .began j s ∈ past → Settled past j s

def Event.InOrder (past : List Event) : Event → Prop
  | .posted i _ v => Agent.InOrder past i v
  | _ => True

/-- **The sidecar keeps its word**: a record answered Spooled is on disk until a post of it
    was accepted or refused, and every post stands up to what happened before it. -/
structure Sidecar.KeepsItsWord (σ : Sidecar) : Prop where
  kept : ∀ i r, .began i r ∈ σ.past → .answered i (.error .spooled) ∈ σ.past →
    Settled σ.past i r ∨ ∃ e ∈ σ.dir, e.owner = i ∧ e.bytes = r.frame
  inOrder : ∀ later i r v earlier, σ.past = later ++ .posted i r v :: earlier → InOrder earlier i v

/-- Every submit of a run is for a caller that has a name. -/
def Act.Named : Act → Prop
  | .submit socket _ _ => socket.agent ≠ []
  | _ => True

variable {past : List Event} {dir : List Entry} {i : ℕ} {r : Request} {v : Except AgentError Unit}
  {ev : Event}

theorem Settled.cons (h : Settled past i r) : Settled (ev :: past) i r := by
  obtain ⟨v, hv, hfinal⟩ := h
  exact ⟨v, List.mem_cons_of_mem _ hv, hfinal⟩

/-! ## The queue -/

/-- What stands between an entry and one behind it. -/
structure Apart (past : List Event) (e e' : Entry) : Prop where
  owner : e.owner ≠ e'.owner
  pushed : ¬ Before past (.pushed e'.owner) (.pushed e.owner)
  began : ∀ r, ¬ Before past (.answered e'.owner (.error .spooled)) (.began e.owner r)
  unaccepted : ∀ r, .posted e'.owner r (.ok ()) ∉ past

/-- What stands between the queue and what happened. -/
structure Queued (dir : List Entry) (past : List Event) : Prop where
  sorted : dir.Pairwise fun e e' => e.seq < e'.seq
  pushed : ∀ e ∈ dir, .pushed e.owner ∈ past
  apart : dir.Pairwise (Apart past)
  kept : ∀ i r, .began i r ∈ past → .answered i (.error .spooled) ∈ past →
    Settled past i r ∨ ∃ e ∈ dir, e.owner = i ∧ e.bytes = r.frame
  behind : ∀ e ∈ dir, ∀ j, Before past (.pushed e.owner) (.pushed j) → ∀ r, .posted j r (.ok ()) ∉ past
  pushedOnce : ∀ i, ¬ Before past (.pushed i) (.pushed i)
  unspooled : ∀ i r, ¬ Before past (.answered i (.error .spooled)) (.began i r)
  inOrder : Judged Event.InOrder past

theorem queued_nil : Queued [] [] where
  sorted := .nil
  pushed := by simp
  apart := .nil
  kept := by simp
  behind := by simp
  pushedOnce _ := not_before_nil
  unspooled _ _ := not_before_nil
  inOrder := judged_nil

/-- What may happen next, so that the queue stays as it should be. -/
structure MayFollow (dir : List Entry) (past : List Event) (ev : Event) : Prop where
  began : ∀ i r, ev = .began i r → ∀ x ∈ past, x.call ≠ i
  pushed : ∀ i, ev = .pushed i → .pushed i ∉ past ∧ ∀ r, .posted i r (.ok ()) ∉ past
  spooled : ∀ i, ev = .answered i (.error .spooled) → ∀ r, .began i r ∈ past →
    Settled past i r ∨ ∃ e ∈ dir, e.owner = i ∧ e.bytes = r.frame
  inOrder : ev.InOrder past
  front : ∀ i r, ev = .posted i r (.ok ()) →
    dir.Pairwise (fun _ e' => e'.owner ≠ i) ∧ ∀ e ∈ dir, ¬ Before past (.pushed e.owner) (.pushed i)

theorem Queued.cons (h : Queued dir past) (hev : MayFollow dir past ev) : Queued dir (ev :: past) where
  sorted := h.sorted
  pushed e he := List.mem_cons_of_mem _ (h.pushed e he)
  apart := by
    have hfront : dir.Pairwise fun _ e' => ∀ r, ev ≠ .posted e'.owner r (.ok ()) := by
      by_cases hp : ∃ i r, ev = .posted i r (.ok ())
      · obtain ⟨i, r, rfl⟩ := hp
        refine (hev.front i r rfl).1.imp fun {_ e'} hne s hs => ?_
        exact hne (Event.posted.inj hs).1.symm
      · exact List.pairwise_of_forall fun _ e' r hr => hp ⟨_, r, hr⟩
    refine (h.apart.and hfront).imp_of_mem fun {e e'} he he' hee' => ?_
    obtain ⟨ha, hf⟩ := hee'
    refine ⟨ha.owner, ?_, fun r => ?_, fun r => ?_⟩
    · rw [before_cons, not_or]
      refine ⟨fun ⟨hx, _⟩ => ?_, ha.pushed⟩
      exact (hev.pushed _ hx).1 (h.pushed e he)
    · rw [before_cons, not_or]
      refine ⟨fun ⟨hx, _⟩ => ?_, ha.began r⟩
      exact hev.began _ r hx _ (h.pushed e he) rfl
    · rw [List.mem_cons, not_or]
      exact ⟨fun hx => hf r hx.symm, ha.unaccepted r⟩
  kept j r hb ha := by
    rcases List.mem_cons.1 hb with hb | hb <;> rcases List.mem_cons.1 ha with ha | ha
    · rw [← hb] at ha
      cases ha
    · exact absurd rfl (hev.began j r hb.symm _ ha)
    · exact (hev.spooled j ha.symm r hb).imp_left Settled.cons
    · exact (h.kept j r hb ha).imp_left Settled.cons
  behind e he j hj r := by
    rw [List.mem_cons, not_or]
    rcases before_cons.1 hj with ⟨rfl, hj⟩ | hj
    · exact ⟨nofun, (hev.pushed j rfl).2 r⟩
    · refine ⟨fun hx => ?_, h.behind e he j hj r⟩
      exact (hev.front j r hx.symm).2 e he hj
  pushedOnce j hj := by
    rcases before_cons.1 hj with ⟨hx, hj⟩ | hj
    · exact (hev.pushed j hx).1 hj
    · exact h.pushedOnce j hj
  unspooled j r hj := by
    rcases before_cons.1 hj with ⟨hx, hj⟩ | hj
    · exact hev.began j r hx _ hj rfl
    · exact h.unspooled j r hj
  inOrder := judged_cons.2 ⟨hev.inOrder, h.inOrder⟩

/-- A submit whose push is under way has a new last entry. -/
theorem Queued.push (h : Queued dir past) {e : Entry} (hnew : .pushed e.owner ∉ past)
    (hun : ∀ a, .answered e.owner a ∉ past) (hno : ∀ r, .posted e.owner r (.ok ()) ∉ past)
    (hseq : ∀ x ∈ dir, x.seq < e.seq) : Queued (dir ++ [e]) (.pushed e.owner :: past) := by
  have hcons : Queued dir (.pushed e.owner :: past) := h.cons
    ⟨nofun, fun i hi => Event.pushed.inj hi ▸ ⟨hnew, hno⟩, nofun, trivial, nofun⟩
  have hnever : ∀ x, ¬ Before (.pushed e.owner :: past) (.pushed e.owner) x := by
    intro x hx
    rcases before_cons.1 hx with ⟨-, hmem⟩ | hx
    · exact hnew hmem
    · exact hnew hx.left
  refine { hcons with sorted := ?_, pushed := ?_, apart := ?_, kept := ?_, behind := ?_ }
  · refine List.pairwise_append.2 ⟨h.sorted, List.pairwise_singleton _ _, fun x hx y hy => ?_⟩
    rw [List.mem_singleton.1 hy]
    exact hseq x hx
  · intro x hx
    rcases List.mem_append.1 hx with hx | hx
    · exact hcons.pushed x hx
    · rw [List.mem_singleton.1 hx]
      exact List.mem_cons_self
  · refine List.pairwise_append.2 ⟨hcons.apart, List.pairwise_singleton _ _, fun x hx y hy => ?_⟩
    rw [List.mem_singleton.1 hy]
    refine ⟨fun ho => hnew (ho ▸ h.pushed x hx), hnever _, fun r hr => ?_, fun r hr => ?_⟩
    · rcases List.mem_cons.1 hr.left with hr | hr
      · cases hr
      · exact hun _ hr
    · rcases List.mem_cons.1 hr with hr | hr
      · cases hr
      · exact hno r hr
  · intro j r hb ha
    exact (hcons.kept j r hb ha).imp_right fun ⟨x, hx, hxr⟩ => ⟨x, List.mem_append_left _ hx, hxr⟩
  · intro x hx j hj
    rcases List.mem_append.1 hx with hx | hx
    · exact hcons.behind x hx j hj
    · rw [List.mem_singleton.1 hx] at hj
      exact absurd hj (hnever _)

/-- Entries that were not answered for may still be written. -/
theorem Queued.write (h : Queued dir past) {f : Entry → Entry} (hseq : ∀ e, (f e).seq = e.seq)
    (howner : ∀ e, (f e).owner = e.owner)
    (hsame : ∀ e ∈ dir, .answered e.owner (.error .spooled) ∈ past → f e = e) :
    Queued (dir.map f) past := by
  refine { h with sorted := ?_, pushed := ?_, apart := ?_, kept := ?_, behind := ?_ }
  · refine List.pairwise_map.2 (h.sorted.imp fun hlt => ?_)
    rw [hseq, hseq]
    exact hlt
  · intro x hx
    obtain ⟨e, he, rfl⟩ := List.mem_map.1 hx
    rw [howner]
    exact h.pushed e he
  · refine List.pairwise_map.2 (h.apart.imp fun ha => ?_)
    constructor <;> simp only [howner]
    exacts [ha.owner, ha.pushed, ha.began, ha.unaccepted]
  · intro j r hb ha
    refine (h.kept j r hb ha).imp_right ?_
    rintro ⟨e, he, rfl, hbytes⟩
    exact ⟨e, List.mem_map.2 ⟨e, he, hsame e he ha⟩, rfl, hbytes⟩
  · intro x hx j hj
    obtain ⟨e, he, rfl⟩ := List.mem_map.1 hx
    rw [howner] at hj
    exact h.behind e he j hj

/-- An entry that was judged goes. -/
theorem Queued.remove {e : Entry} (h : Queued (e :: dir) past)
    (hdone : ∀ r, .began e.owner r ∈ past → e.bytes = r.frame → Settled past e.owner r) :
    Queued dir past where
  sorted := h.sorted.of_cons
  pushed x hx := h.pushed x (List.mem_cons_of_mem _ hx)
  apart := h.apart.of_cons
  kept j r hb ha := by
    rcases h.kept j r hb ha with hs | ⟨x, hx, rfl, hbytes⟩
    · exact .inl hs
    rcases List.mem_cons.1 hx with rfl | hx
    · exact .inl (hdone r hb hbytes)
    · exact .inr ⟨x, hx, rfl, hbytes⟩
  behind x hx := h.behind x (List.mem_cons_of_mem _ hx)
  pushedOnce := h.pushedOnce
  unspooled := h.unspooled
  inOrder := h.inOrder

/-- **The first entry may be posted**, unless it was accepted and its removal is still
    under way. -/
theorem Queued.inOrder_front {e : Entry} (h : Queued (e :: dir) past)
    (honce : Since past (Event.Accepts e.owner) (.interrupted e.owner)) : InOrder past e.owner v where
  once := honce
  order _ := h.behind e List.mem_cons_self
  queued _ j s r hb hs := by
    have hj := hb.left
    rcases h.kept j s hs hj with hdone | ⟨x, hx, rfl, -⟩
    · exact hdone
    rcases List.mem_cons.1 hx with rfl | hx
    · exact absurd hb (h.unspooled _ _)
    · exact absurd hb ((List.pairwise_cons.1 h.apart).1 x hx |>.began r)

end Yaam.Agent
