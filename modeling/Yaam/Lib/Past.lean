/-
  What happened so far, newest first, and what is said of the order of it.

  * `Before past a b`: `a` happened, and `b` after it;
  * `Since past p e`: every event `p` holds of was followed by `e`;
  * `Judged ok past`: every event stands up to what happened before it.
-/
import Mathlib.Data.List.Basic

namespace Yaam.Past

variable {α : Type} {past : List α} {a b e x : α}

/-- `a` happened, and `b` after it. -/
def Before (past : List α) (a b : α) : Prop :=
  ∃ later earlier, past = later ++ b :: earlier ∧ a ∈ earlier

/-- Every event `p` holds of was followed by `e`. -/
def Since (past : List α) (p : α → Prop) (e : α) : Prop :=
  ∀ later a earlier, past = later ++ a :: earlier → p a → e ∈ later

/-- Every event stands up to what happened before it. -/
def Judged (ok : List α → α → Prop) (past : List α) : Prop :=
  ∀ later e earlier, past = later ++ e :: earlier → ok earlier e

theorem before_cons : Before (x :: past) a b ↔ x = b ∧ a ∈ past ∨ Before past a b := by
  constructor
  · rintro ⟨later, earlier, h, ha⟩
    rcases List.cons_eq_append_iff.1 h with ⟨rfl, h'⟩ | ⟨later, rfl, h'⟩
    · obtain ⟨rfl, rfl⟩ := List.cons.inj h'
      exact .inl ⟨rfl, ha⟩
    · exact .inr ⟨later, earlier, h', ha⟩
  · rintro (⟨rfl, ha⟩ | ⟨later, earlier, rfl, ha⟩)
    · exact ⟨[], past, rfl, ha⟩
    · exact ⟨x :: later, earlier, rfl, ha⟩

theorem not_before_nil : ¬ Before [] a b := by
  rintro ⟨later, earlier, h, -⟩
  simp at h

theorem Before.left (h : Before past a b) : a ∈ past := by
  obtain ⟨later, earlier, rfl, ha⟩ := h
  exact List.mem_append_right _ (List.mem_cons_of_mem _ ha)

theorem Before.right (h : Before past a b) : b ∈ past := by
  obtain ⟨later, earlier, rfl, -⟩ := h
  exact List.mem_append_right _ List.mem_cons_self

theorem since_cons {p : α → Prop} :
    Since (x :: past) p e ↔ ¬ p x ∧ (x = e ∨ Since past p e) := by
  constructor
  · intro h
    refine ⟨fun hx => absurd (h [] x past rfl hx) List.not_mem_nil, ?_⟩
    by_cases hxe : x = e
    · exact .inl hxe
    refine .inr fun later a earlier hpast ha => ?_
    rcases List.mem_cons.1 (h (x :: later) a earlier (by rw [hpast]; rfl) ha) with rfl | hmem
    · exact absurd rfl hxe
    · exact hmem
  · rintro ⟨hx, hor⟩ later a earlier hpast ha
    rcases List.cons_eq_append_iff.1 hpast with ⟨rfl, h⟩ | ⟨later, rfl, h⟩
    · obtain ⟨rfl, rfl⟩ := List.cons.inj h
      exact absurd ha hx
    · rcases hor with rfl | hs
      · exact List.mem_cons_self
      · exact List.mem_cons_of_mem _ (hs later a earlier h ha)

theorem since_of_forall {p : α → Prop} (h : ∀ a ∈ past, ¬ p a) : Since past p e :=
  fun _ a _ hpast ha =>
    absurd ha (h a (hpast ▸ List.mem_append_right _ List.mem_cons_self))

theorem judged_nil {ok : List α → α → Prop} : Judged ok [] := by
  intro later e earlier h
  simp at h

theorem judged_cons {ok : List α → α → Prop} :
    Judged ok (x :: past) ↔ ok past x ∧ Judged ok past := by
  constructor
  · exact fun h => ⟨h [] x past rfl, fun later e earlier hp => h (x :: later) e earlier (by rw [hp]; rfl)⟩
  · rintro ⟨hx, h⟩ later e earlier hpast
    rcases List.cons_eq_append_iff.1 hpast with ⟨rfl, hp⟩ | ⟨later, rfl, hp⟩
    · obtain ⟨rfl, rfl⟩ := List.cons.inj hp
      exact hx
    · exact h later e earlier hp

end Yaam.Past
