/-
  Tables with a key: `INSERT … ON CONFLICT (key) DO UPDATE`.

  * `upsert` adds a row, or merges it into the row of its key;
  * `filter_upsert`: rows chosen by what a key decides are upserted on their own;
  * `upsertAll` is a run of upserts: `filter_upsertAll_of_ne` is its frame rule,
    `forall_upsertAll` its invariant rule;
  * `upsertAll_idem`: a run of replacing upserts, done again, changes nothing.
-/
import Mathlib.Data.List.Nodup

namespace Yaam

variable {α κ : Type} [DecidableEq κ]

/-- Adds a row, or merges it into the row of its key. -/
def upsert (key : α → κ) (merge : α → α → α) (x : α) : List α → List α
  | [] => [x]
  | y :: ys => if key y = key x then merge y x :: ys else y :: upsert key merge x ys

variable {key : α → κ} {merge : α → α → α}

variable {x y : α} {rows : List α}

theorem upsert_nil : upsert key merge x [] = [x] := rfl

theorem upsert_cons : upsert key merge x (y :: rows) =
    if key y = key x then merge y x :: rows else y :: upsert key merge x rows := rfl

theorem mem_upsert (h : y ∈ upsert key merge x rows) :
    y = x ∨ y ∈ rows ∨ ∃ z ∈ rows, key z = key x ∧ y = merge z x := by
  induction rows with
  | nil => exact .inl (by simpa [upsert_nil] using h)
  | cons z rows ih =>
    simp only [upsert_cons] at h
    split_ifs at h with hz
    · rcases List.mem_cons.1 h with rfl | h
      · exact .inr (.inr ⟨z, by simp, hz, rfl⟩)
      · exact .inr (.inl (by simp [h]))
    · rcases List.mem_cons.1 h with rfl | h
      · exact .inr (.inl (by simp))
      · rcases ih h with h | h | ⟨w, hw, hk, he⟩
        · exact .inl h
        · exact .inr (.inl (by simp [h]))
        · exact .inr (.inr ⟨w, by simp [hw], hk, he⟩)

/-- A row of another key outlives an upsert. -/
theorem mem_upsert_of_ne (hy : y ∈ rows) (hne : key y ≠ key x) : y ∈ upsert key merge x rows := by
  induction rows with
  | nil => cases hy
  | cons z rows ih =>
    simp only [upsert_cons]
    rcases List.mem_cons.1 hy with rfl | hy
    · rw [if_neg hne]
      exact List.mem_cons_self
    · split_ifs
      · exact List.mem_cons_of_mem _ hy
      · exact List.mem_cons_of_mem _ (ih hy)

/-- Where a row replaces the row of its key, it is there. -/
theorem mem_upsert_self : x ∈ upsert key (fun _ new => new) x rows := by
  induction rows with
  | nil => exact List.mem_singleton_self x
  | cons z rows ih =>
    simp only [upsert_cons]
    split_ifs
    · exact List.mem_cons_self
    · exact List.mem_cons_of_mem _ ih

/-- The keys of a table after an upsert. -/
theorem exists_key_upsert (hm : ∀ y, key y = key x → key (merge y x) = key y) (k : κ) :
    (∃ y ∈ upsert key merge x rows, key y = k) ↔ k = key x ∨ ∃ y ∈ rows, key y = k := by
  induction rows with
  | nil => simp [upsert_nil, eq_comm]
  | cons z rows ih =>
    simp only [upsert_cons]
    split_ifs with hz
    · simp only [List.exists_mem_cons_iff, hm z hz, hz, eq_comm]
      tauto
    · simp only [List.exists_mem_cons_iff, ih]
      tauto

section
variable {q : α → Bool}

/-- Rows a test chooses are upserted on their own, when the test looks only at
    what a key decides. -/
theorem filter_upsert (hm : ∀ y, key y = key x → q (merge y x) = q y) (hk : ∀ y, key y = key x → q y = q x) :
    (upsert key merge x rows).filter q =
      if q x then upsert key merge x (rows.filter q) else rows.filter q := by
  induction rows with
  | nil => cases hq : q x <;> simp [upsert_nil, hq]
  | cons z rows ih =>
    simp only [upsert_cons]
    split_ifs with hz hp hp
    · simp [hm z hz, hk z hz, hz, hp, upsert_cons]
    · simp [hm z hz, hk z hz, hp]
    · rw [List.filter_cons, List.filter_cons, ih, if_pos hp]
      split_ifs
      · simp [upsert_cons, hz]
      · rfl
    · rw [List.filter_cons, List.filter_cons, ih, if_neg hp]

end

/-- A row of a new key is appended. -/
theorem upsert_of_new (h : ∀ y ∈ rows, key y ≠ key x) : upsert key merge x rows = rows ++ [x] := by
  induction rows with
  | nil => rfl
  | cons z rows ih =>
    rw [upsert_cons, if_neg (h z (by simp)), ih fun y hy => h y (by simp [hy])]
    rfl

/-- A row whose key stands is left out, where the standing row is kept. -/
theorem upsert_of_old (h : ∃ y ∈ rows, key y = key x) :
    upsert key (fun old _ => old) x rows = rows := by
  induction rows with
  | nil =>
    obtain ⟨y, hy, -⟩ := h
    cases hy
  | cons z rows ih =>
    rw [upsert_cons]
    split_ifs with hz
    · rfl
    · obtain ⟨y, hy, hk⟩ := h
      rcases List.mem_cons.1 hy with rfl | hy
      · exact absurd hk hz
      · rw [ih ⟨y, hy, hk⟩]

/-- Replacing a key's value in an association list. -/
theorem lookup_upsert {β : Type} [BEq κ] [LawfulBEq κ] (k : κ) (v : β) (xs : List (κ × β)) (k' : κ) :
    (upsert (·.1) (fun _ new => new) (k, v) xs).lookup k' = if k' = k then some v else xs.lookup k' := by
  induction xs with
  | nil =>
    by_cases h : k' = k
    · simp [upsert_nil, h]
    · simp [upsert_nil, List.lookup_cons, h, beq_eq_false_iff_ne.2 h]
  | cons x xs ih =>
    obtain ⟨i, w⟩ := x
    simp only [upsert_cons]
    split_ifs with hi hk hk
    · obtain rfl : i = k := hi
      simp [hk]
    · obtain rfl : i = k := hi
      simp [List.lookup_cons, beq_eq_false_iff_ne.2 hk]
    · have hne : k' ≠ i := fun h => hi (h.symm.trans hk)
      rw [List.lookup_cons, beq_eq_false_iff_ne.2 hne, ih, if_pos hk]
    · rw [List.lookup_cons, List.lookup_cons, ih, if_neg hk]

/-- A run of upserts. -/
def upsertAll (key : α → κ) (merge : α → α → α) (xs : List α) (rows : List α) : List α :=
  xs.foldl (fun rows x => upsert key merge x rows) rows

/-- Where standing rows are kept, every row outlives a run of upserts. -/
theorem mem_upsertAll_of_mem (xs : List α) (h : y ∈ rows) :
    y ∈ upsertAll key (fun old _ => old) xs rows := by
  induction xs generalizing rows with
  | nil => exact h
  | cons x xs ih =>
    refine ih ?_
    show y ∈ upsert key (fun old _ => old) x rows
    by_cases hk : ∃ z ∈ rows, key z = key x
    · rwa [upsert_of_old hk]
    · rw [upsert_of_new (by simpa using hk)]
      exact List.mem_append_left _ h

/-- There the keys that stand keep their places. -/
theorem prefix_map_key_upsertAll (xs rows : List α) :
    rows.map key <+: (upsertAll key (fun old _ => old) xs rows).map key := by
  induction xs generalizing rows with
  | nil => exact List.prefix_rfl
  | cons x xs ih =>
    refine List.IsPrefix.trans ?_ (ih _)
    show rows.map key <+: (upsert key (fun old _ => old) x rows).map key
    by_cases hk : ∃ z ∈ rows, key z = key x
    · simp only [upsert_of_old hk, List.prefix_rfl]
    · rw [upsert_of_new (by simpa using hk), List.map_append]
      exact List.prefix_append _ _

/-- There every key that is upserted has a row. -/
theorem mem_map_key_upsertAll_new {k : κ} (xs rows : List α) (h : k ∈ xs.map key) :
    k ∈ (upsertAll key (fun old _ => old) xs rows).map key := by
  induction xs generalizing rows with
  | nil => cases h
  | cons x xs ih =>
    rcases List.mem_cons.1 h with rfl | h
    · have hrow : ∃ y ∈ upsert key (fun old _ => old) x rows, key y = key x :=
        (exists_key_upsert (fun _ _ => rfl) (key x)).2 (.inl rfl)
      obtain ⟨y, hy, hkey⟩ := hrow
      exact List.mem_map.2 ⟨y, mem_upsertAll_of_mem xs hy, hkey⟩
    · exact ih _ h

section
variable {γ : Type} [DecidableEq γ] {column : α → γ} {k : γ} {xs : List α}

/-- Rows with a value in a column the key decides are upserted on their own, the new
    ones all having it. -/
theorem filter_upsertAll (hm : ∀ x y, column (merge y x) = column y)
    (hk : ∀ x y, key y = key x → column y = column x) (hx : ∀ x ∈ xs, column x = k) :
    (upsertAll key merge xs rows).filter (fun r => column r = k) =
      upsertAll key merge xs (rows.filter fun r => column r = k) := by
  induction xs generalizing rows with
  | nil => rfl
  | cons x xs ih =>
    change (upsertAll key merge xs (upsert key merge x rows)).filter _ = _
    rw [ih fun y hy => hx y (by simp [hy]),
      filter_upsert (fun y _ => by rw [hm]) (fun y hy => by rw [hk x y hy]),
      if_pos (by simp [hx x (by simp)])]
    rfl

/-- Upserts of rows with another value in the column leave the rows with this one. -/
theorem filter_upsertAll_of_ne (hm : ∀ x y, column (merge y x) = column y)
    (hk : ∀ x y, key y = key x → column y = column x) (hx : ∀ x ∈ xs, column x ≠ k) :
    (upsertAll key merge xs rows).filter (fun r => column r = k) =
      rows.filter fun r => column r = k := by
  induction xs generalizing rows with
  | nil => rfl
  | cons x xs ih =>
    change (upsertAll key merge xs (upsert key merge x rows)).filter _ = _
    rw [ih fun y hy => hx y (by simp [hy]),
      filter_upsert (fun y _ => by rw [hm]) (fun y hy => by rw [hk x y hy]),
      if_neg (by simp [hx x (by simp)])]

end

/-- A property of the new rows that merging keeps holds of a table after upserts. -/
theorem forall_upsertAll {P : α → Prop} {xs : List α} (hx : ∀ x ∈ xs, P x)
    (hrows : ∀ y ∈ rows, P y) (hm : ∀ x ∈ xs, ∀ y, key y = key x → P y → P (merge y x)) :
    ∀ y ∈ upsertAll key merge xs rows, P y := by
  induction xs generalizing rows with
  | nil => exact hrows
  | cons x xs ih =>
    refine ih (fun y hy => hx y (by simp [hy])) ?_ fun y hy => hm y (by simp [hy])
    intro y hy
    rcases mem_upsert hy with rfl | hy | ⟨z, hz, hk, rfl⟩
    · exact hx y (by simp)
    · exact hrows y hy
    · exact hm x (by simp) z hk (hrows z hz)

/-! ## Upserts done again -/

theorem map_key_upsert (hm : ∀ y, key y = key x → key (merge y x) = key y) :
    (upsert key merge x rows).map key =
      if key x ∈ rows.map key then rows.map key else rows.map key ++ [key x] := by
  induction rows with
  | nil => rfl
  | cons z rows ih =>
    rw [upsert_cons]
    by_cases hz : key z = key x
    · rw [if_pos hz, List.map_cons, List.map_cons, hm z hz, if_pos (by simp [hz])]
    · rw [if_neg hz, List.map_cons, ih, List.map_cons]
      by_cases hx : key x ∈ rows.map key
      · rw [if_pos hx, if_pos (List.mem_cons_of_mem _ hx)]
      · rw [if_neg hx, if_neg (by simp [Ne.symm hz, hx]), List.cons_append]

/-- Rows of new keys, each its own, are appended. -/
theorem upsertAll_of_new {xs : List α} (hxs : (xs.map key).Nodup)
    (h : ∀ x ∈ xs, ∀ y ∈ rows, key y ≠ key x) : upsertAll key merge xs rows = rows ++ xs := by
  induction xs generalizing rows with
  | nil => exact (List.append_nil rows).symm
  | cons x xs ih =>
    obtain ⟨hx, hnd⟩ := List.nodup_cons.1 hxs
    show upsertAll key merge xs (upsert key merge x rows) = _
    rw [upsert_of_new (h x (by simp)), ih hnd]
    · simp
    · intro z hz y hy
      rcases List.mem_append.1 hy with hy | hy
      · exact h z (by simp [hz]) y hy
      · rw [List.mem_singleton.1 hy]
        intro hk
        exact hx (hk ▸ List.mem_map_of_mem hz)

/-- Rows whose keys all stand are left out, where standing rows are kept. -/
theorem upsertAll_of_old {xs : List α} (h : ∀ x ∈ xs, ∃ y ∈ rows, key y = key x) :
    upsertAll key (fun old _ => old) xs rows = rows := by
  induction xs with
  | nil => rfl
  | cons x xs ih =>
    show upsertAll key _ xs (upsert key _ x rows) = _
    rw [upsert_of_old (h x (by simp)), ih fun z hz => h z (by simp [hz])]

section
variable (hm : ∀ x y, key y = key x → merge y x = x)
include hm

theorem find_upsert (k : κ) : (upsert key merge x rows).find? (key · = k) =
    if key x = k then some x else rows.find? (key · = k) := by
  induction rows with
  | nil => by_cases hk : key x = k <;> simp [upsert_nil, hk]
  | cons z rows ih =>
    rw [upsert_cons]
    by_cases hz : key z = key x
    · rw [if_pos hz, hm x z hz, List.find?_cons, List.find?_cons]
      by_cases hk : key x = k
      · simp [hk]
      · simp [hk, hz]
    · rw [if_neg hz, List.find?_cons, List.find?_cons, ih]
      by_cases hk : key z = k
      · have hx : key x ≠ k := fun h => hz (hk.trans h.symm)
        rw [if_neg hx, if_neg hx]
      · simp [hk]

/-- The row of a key after replacing upserts is the last of the new ones. -/
theorem find_upsertAll (xs : List α) (k : κ) : (upsertAll key merge xs rows).find? (key · = k) =
    (xs.reverse.find? (key · = k)).or (rows.find? (key · = k)) := by
  induction xs generalizing rows with
  | nil => rfl
  | cons x xs ih =>
    show (upsertAll key merge xs (upsert key merge x rows)).find? _ = _
    rw [ih, find_upsert hm, List.reverse_cons, List.find?_append, Option.or_assoc]
    congr 1
    by_cases hk : key x = k <;> simp [hk]

theorem map_key_upsertAll_of_old {xs : List α} (h : ∀ x ∈ xs, key x ∈ rows.map key) :
    (upsertAll key merge xs rows).map key = rows.map key := by
  induction xs generalizing rows with
  | nil => rfl
  | cons x xs ih =>
    have hkeys : (upsert key merge x rows).map key = rows.map key := by
      rw [map_key_upsert fun y hy => by rw [hm x y hy, hy], if_pos (h x (by simp))]
    show (upsertAll key merge xs (upsert key merge x rows)).map key = _
    rw [ih, hkeys]
    intro z hz
    rw [hkeys]
    exact h z (by simp [hz])

theorem mem_map_key_upsertAll (xs : List α) (k : κ) :
    k ∈ (upsertAll key merge xs rows).map key ↔ k ∈ rows.map key ∨ k ∈ xs.map key := by
  induction xs generalizing rows with
  | nil => simp [upsertAll]
  | cons x xs ih =>
    show k ∈ (upsertAll key merge xs (upsert key merge x rows)).map key ↔ _
    rw [ih, map_key_upsert fun y hy => by rw [hm x y hy, hy], List.map_cons, List.mem_cons]
    split_ifs with hx
    · constructor
      · tauto
      · rintro (h | rfl | h)
        · exact .inl h
        · exact .inl hx
        · exact .inr h
    · rw [List.mem_append, List.mem_singleton]
      tauto

theorem nodup_map_key_upsertAll (xs : List α) (h : (rows.map key).Nodup) :
    ((upsertAll key merge xs rows).map key).Nodup := by
  induction xs generalizing rows with
  | nil => exact h
  | cons x xs ih =>
    refine ih ?_
    show ((upsert key merge x rows).map key).Nodup
    rw [map_key_upsert fun y hy => by rw [hm x y hy, hy]]
    split_ifs with hx
    · exact h
    · rw [List.nodup_append]
      refine ⟨h, List.nodup_singleton _, fun k hk k' hk' he => hx ?_⟩
      rwa [← List.mem_singleton.1 hk', ← he]

end

/-- Tables with the same keys, each once, and the same row for each are one table. -/
theorem eq_of_find {rows' : List α} (hkeys : rows.map key = rows'.map key)
    (hnd : (rows.map key).Nodup)
    (h : ∀ k, rows.find? (key · = k) = rows'.find? (key · = k)) : rows = rows' := by
  induction rows generalizing rows' with
  | nil =>
    cases rows' with
    | nil => rfl
    | cons y ys => cases hkeys
  | cons x xs ih =>
    cases rows' with
    | nil => cases hkeys
    | cons y ys =>
      obtain ⟨hxy, htail⟩ := List.cons.inj hkeys
      obtain ⟨hx, hxs⟩ := List.nodup_cons.1 hnd
      have hhead := h (key x)
      simp only [List.find?_cons, decide_true, hxy] at hhead
      obtain rfl : x = y := Option.some.inj hhead
      rw [ih htail hxs fun k => ?_]
      have hk := h k
      simp only [List.find?_cons] at hk
      by_cases hxk : key x = k
      · have hnone : ∀ zs : List α, zs.map key = xs.map key →
            zs.find? (key · = k) = none := by
          intro zs hzs
          rw [List.find?_eq_none]
          intro z hz
          rw [decide_eq_true_eq]
          rintro rfl
          exact hx (hxk ▸ hzs ▸ List.mem_map_of_mem hz)
        rw [hnone xs rfl, hnone ys htail.symm]
      · simpa [hxk] using hk

/-- **A run of replacing upserts, done again, changes nothing.** -/
theorem upsertAll_idem (hm : ∀ x y, key y = key x → merge y x = x) (xs : List α)
    (h : (rows.map key).Nodup) : upsertAll key merge xs (upsertAll key merge xs rows) =
      upsertAll key merge xs rows := by
  have hkeys : (upsertAll key merge xs (upsertAll key merge xs rows)).map key =
      (upsertAll key merge xs rows).map key := by
    refine map_key_upsertAll_of_old hm fun x hx => ?_
    rw [mem_map_key_upsertAll hm]
    exact .inr (List.mem_map_of_mem hx)
  refine eq_of_find hkeys ?_ fun k => ?_
  · rw [hkeys]
    exact nodup_map_key_upsertAll hm xs h
  · simp only [find_upsertAll hm]
    cases xs.reverse.find? (key · = k) <;> rfl

end Yaam
