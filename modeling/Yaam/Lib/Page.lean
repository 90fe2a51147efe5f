/-
  A page of rows that stand for things.

  Rows stand in a strict order of the things they name, a thing's rows together.
  Who counts rows gets a page of things only where no thing takes two places.

  * `split_at`: what comes before a thing's rows, the rows, and what follows;
  * `nodup_take_iff`: when the first rows name different things;
  * `take_eraseDups_iff`: and that they are then the first things.
-/
import Yaam.Lib.Gather

namespace Yaam.Page

open Gather

variable {α : Type} [DecidableEq α] {before : α → α → Prop} [DecidableRel before]

/-- The rows of things that stand before a thing, its own rows, and those that stand after. -/
theorem split_at (hirrefl : ∀ x, ¬ before x x) (hasymm : ∀ x y, before x y → ¬ before y x)
    {rows : List α} (hrows : rows.Pairwise fun x y => x = y ∨ before x y) {x : α} (hx : x ∈ rows) :
    ∃ after, rows = rows.filter (before · x) ++ (List.replicate (rows.count x) x ++ after) ∧
      x ∉ after := by
  induction rows with
  | nil => cases hx
  | cons y rows ih =>
    obtain ⟨hy, hrest⟩ := List.pairwise_cons.1 hrows
    by_cases hyx : y = x
    · subst hyx
      have hnone : ∀ z ∈ rows, ¬ before z y := fun z hz hzy =>
        (hy z hz).elim (fun h => hirrefl y (h ▸ hzy)) fun h => hasymm y z h hzy
      have hfilter : rows.filter (before · y) = [] :=
        List.filter_eq_nil_iff.2 fun z hz => by simpa using hnone z hz
      have hhead : (y :: rows).filter (before · y) = [] :=
        (List.filter_cons_of_neg (by simpa using hirrefl y)).trans hfilter
      simp only [hhead, List.nil_append, List.count_cons_self]
      by_cases hmem : y ∈ rows
      · obtain ⟨after, heq, hafter⟩ := ih hrest hmem
        rw [hfilter, List.nil_append] at heq
        refine ⟨after, ?_, hafter⟩
        rw [List.replicate_succ, List.cons_append, ← heq]
      · refine ⟨rows, ?_, hmem⟩
        rw [List.count_eq_zero_of_not_mem hmem]
        rfl
    · have hmem : x ∈ rows := (List.mem_cons.1 hx).resolve_left (Ne.symm hyx)
      have hbefore : before y x := (hy x hmem).resolve_left hyx
      obtain ⟨after, heq, hafter⟩ := ih hrest hmem
      refine ⟨after, ?_, hafter⟩
      rw [List.filter_cons_of_pos (by simpa using hbefore), List.count_cons_of_ne hyx,
        List.cons_append, ← heq]

/-- **The first rows name different things** exactly where every thing that has two rows has its
    second one past them. -/
theorem nodup_take_iff (hirrefl : ∀ x, ¬ before x x) (hasymm : ∀ x y, before x y → ¬ before y x)
    {rows : List α} (hrows : rows.Pairwise fun x y => x = y ∨ before x y) (n : ℕ) :
    (rows.take n).Nodup ↔ ∀ x ∈ rows, 2 ≤ rows.count x → n ≤ rows.countP (before · x) + 1 := by
  -- how often the first rows name a thing
  have hcount : ∀ x ∈ rows,
      (rows.take n).count x = min (n - rows.countP (before · x)) (rows.count x) := by
    intro x hx
    obtain ⟨after, heq, hafter⟩ := split_at hirrefl hasymm hrows hx
    have hpre : (rows.filter (before · x)).count x = 0 :=
      List.count_eq_zero_of_not_mem fun hm => hirrefl x (by simpa using (List.mem_filter.1 hm).2)
    have hpost : ∀ k, (after.take k).count x = 0 := fun k =>
      List.count_eq_zero_of_not_mem fun hm => hafter (List.mem_of_mem_take hm)
    conv_lhs => rw [heq]
    rw [List.take_append, List.count_append, List.take_append, List.count_append, hpost,
      List.take_replicate, List.count_replicate_self, List.countP_eq_length_filter]
    have : ((rows.filter (before · x)).take n).count x = 0 :=
      Nat.le_zero.1 (hpre ▸ (List.take_sublist n _).count_le x)
    rw [this]
    omega
  rw [List.nodup_iff_count_le_one]
  constructor
  · intro h x hx htwo
    have := h x
    rw [hcount x hx] at this
    omega
  · intro h x
    by_cases hx : x ∈ rows
    · rw [hcount x hx]
      have := h x hx
      omega
    · rw [List.count_eq_zero_of_not_mem fun hm => hx (List.mem_of_mem_take hm)]
      omega

theorem eraseDups_of_nodup {rows : List α} (h : rows.Nodup) : rows.eraseDups = rows := by
  refine (eraseDups_sublist rows).eq_of_length (List.Perm.length_eq ?_)
  exact (List.perm_ext_iff_of_nodup (Recurse.eraseDups_nodup rows) h).2 fun _ => List.mem_eraseDups

/-- The first rows are the first things exactly where they name different things. -/
theorem take_eraseDups_iff (rows : List α) (n : ℕ) :
    rows.take n = rows.eraseDups.take n ↔ (rows.take n).Nodup := by
  constructor
  · intro h
    rw [h]
    exact (Recurse.eraseDups_nodup rows).sublist (List.take_sublist n _)
  · intro h
    have happend : rows.eraseDups =
        rows.take n ++ ((rows.drop n).removeAll (rows.take n)).eraseDups := by
      conv_lhs => rw [← List.take_append_drop n rows, List.eraseDups_append, eraseDups_of_nodup h]
    by_cases hn : n ≤ rows.length
    · rw [happend, List.take_left' (List.length_take_of_le hn)]
    · have hall : rows.take n = rows := List.take_of_length_le (Nat.le_of_not_le hn)
      rw [hall] at h ⊢
      rw [eraseDups_of_nodup h, hall]

/-- All rows name different things exactly where no thing has two. -/
theorem nodup_iff (rows : List α) : rows.Nodup ↔ ∀ x ∈ rows, rows.count x ≤ 1 := by
  rw [List.nodup_iff_count_le_one]
  refine ⟨fun h x _ => h x, fun h x => ?_⟩
  by_cases hx : x ∈ rows
  · exact h x hx
  · rw [List.count_eq_zero_of_not_mem hx]
    exact Nat.zero_le 1

end Yaam.Page
