/-
  Recursive queries under set semantics: a worklist that hands out one row at a time,
  first in first out, and queues a row only the first time it is found.

  * `recurse` runs one for at most a given number of rows;
  * `Derivable` is what it answers: the rows of the start and of what they expand to;
  * `mem_recurse_iff`: short of the limit, exactly the derivable rows come out;
  * `recurse_congr`: only the expansions of derivable rows matter.
-/
import Mathlib.Data.List.Dedup
import Mathlib.Data.List.Induction

namespace Yaam.Recurse

variable {α : Type} [DecidableEq α] {expand expand' : α → List α} {start queue seen : List α}
  {n : ℕ} {x y : α}

/-- The rows not seen before, each at its first occurrence. -/
def fresh (seen rows : List α) : List α := (rows.filter (· ∉ seen)).eraseDups

/-- Hands out the queue's first row and queues what is new of its expansion.  `seen` is
    every row queued so far. -/
def drain (expand : α → List α) : ℕ → List α → List α → List α
  | 0, _, _ => []
  | _ + 1, [], _ => []
  | n + 1, x :: queue, seen =>
    let found := fresh seen (expand x)
    x :: drain expand n (queue ++ found) (seen ++ found)

/-- The rows a recursive query finds from its first select, up to a limit. -/
def recurse (expand : α → List α) (start : List α) (limit : ℕ) : List α :=
  drain expand limit (fresh [] start) (fresh [] start)

/-- The rows of the start, and of the expansion of a row that is derivable. -/
inductive Derivable (expand : α → List α) (start : List α) : α → Prop where
  | start {x : α} : x ∈ start → Derivable expand start x
  | expand {x y : α} : Derivable expand start x → y ∈ expand x → Derivable expand start y

@[simp] theorem mem_fresh {rows : List α} : x ∈ fresh seen rows ↔ x ∈ rows ∧ x ∉ seen := by
  simp [fresh]

theorem drain_zero : drain expand 0 queue seen = [] := rfl

theorem drain_nil : drain expand (n + 1) [] seen = [] := rfl

theorem drain_cons : drain expand (n + 1) (x :: queue) seen =
    x :: drain expand n (queue ++ fresh seen (expand x)) (seen ++ fresh seen (expand x)) := rfl

theorem drain_length_le (expand : α → List α) :
    ∀ (n : ℕ) (queue seen : List α), (drain expand n queue seen).length ≤ n
  | 0, _, _ => by simp [drain_zero]
  | _ + 1, [], _ => by simp [drain_nil]
  | n + 1, x :: queue, seen => by
    have := drain_length_le expand n (queue ++ fresh seen (expand x)) (seen ++ fresh seen (expand x))
    simp only [drain_cons, List.length_cons]
    omega

theorem recurse_length_le (expand : α → List α) (start : List α) (limit : ℕ) :
    (recurse expand start limit).length ≤ limit := drain_length_le _ _ _ _

/-- What is handed out comes from the queue and its expansions. -/
theorem drain_sound {P : α → Prop} (hstep : ∀ x, P x → ∀ y ∈ expand x, P y) :
    ∀ (n : ℕ) (queue seen : List α), (∀ x ∈ queue, P x) → ∀ y ∈ drain expand n queue seen, P y
  | 0, _, _, _, y, hy => by simp [drain_zero] at hy
  | _ + 1, [], _, _, y, hy => by simp [drain_nil] at hy
  | n + 1, x :: queue, seen, hq, y, hy => by
    have hx := hq x (by simp)
    simp only [drain_cons, List.mem_cons] at hy
    rcases hy with rfl | hy
    · exact hx
    · refine drain_sound hstep n _ _ (fun z hz => ?_) y hy
      rcases List.mem_append.1 hz with hz | hz
      · exact hq z (by simp [hz])
      · exact hstep x hx z (mem_fresh.1 hz).1

theorem derivable_of_mem_recurse (h : y ∈ recurse expand start n) : Derivable expand start y :=
  drain_sound (fun _ hx _ hy => .expand hx hy) n _ _ (fun _ hx => .start (mem_fresh.1 hx).1) y h

/-- A queue that runs dry before the limit has handed out itself. -/
theorem queue_subset_drain :
    ∀ (n : ℕ) (queue seen : List α), (drain expand n queue seen).length < n →
      ∀ x ∈ queue, x ∈ drain expand n queue seen
  | 0, _, _, h => by simp at h
  | _ + 1, [], _, _ => by simp
  | n + 1, x :: queue, seen, h => by
    simp only [drain_cons, List.length_cons] at h ⊢
    intro z hz
    rcases List.mem_cons.1 hz with rfl | hz
    · exact List.mem_cons_self
    · exact List.mem_cons_of_mem _ (queue_subset_drain n _ _ (by omega) z (by simp [hz]))

/-- A row found is a row seen before or one that comes out later. -/
theorem drain_closed :
    ∀ (n : ℕ) (queue seen : List α), (drain expand n queue seen).length < n →
      ∀ x ∈ drain expand n queue seen, ∀ y ∈ expand x,
        y ∈ seen ∨ y ∈ drain expand n queue seen
  | 0, _, _, h => by simp at h
  | _ + 1, [], _, _ => by simp [drain_nil]
  | n + 1, x :: queue, seen, h => by
    simp only [drain_cons, List.length_cons] at h ⊢
    have hlt : (drain expand n (queue ++ fresh seen (expand x))
        (seen ++ fresh seen (expand x))).length < n := by omega
    have hout : ∀ y ∈ fresh seen (expand x), y ∈ drain expand n (queue ++ fresh seen (expand x))
        (seen ++ fresh seen (expand x)) :=
      fun y hy => queue_subset_drain n _ _ hlt y (by simp [hy])
    intro z hz y hy
    rcases List.mem_cons.1 hz with rfl | hz
    · by_cases hs : y ∈ seen
      · exact .inl hs
      · exact .inr (List.mem_cons_of_mem _ (hout y (mem_fresh.2 ⟨hy, hs⟩)))
    · rcases drain_closed n _ _ hlt z hz y hy with hs | hd
      · rcases List.mem_append.1 hs with hs | hs
        · exact .inl hs
        · exact .inr (List.mem_cons_of_mem _ (hout y hs))
      · exact .inr (List.mem_cons_of_mem _ hd)

/-- **Short of its limit a recursive query answers exactly the derivable rows.** -/
theorem mem_recurse_iff (h : (recurse expand start n).length < n) :
    y ∈ recurse expand start n ↔ Derivable expand start y := by
  have hstart : ∀ x ∈ fresh [] start, x ∈ recurse expand start n :=
    queue_subset_drain n _ _ h
  refine ⟨derivable_of_mem_recurse, fun hd => ?_⟩
  induction hd with
  | start hx => exact hstart _ (mem_fresh.2 ⟨hx, by simp⟩)
  | expand _ hy ih =>
    rcases drain_closed n _ _ h _ ih _ hy with hs | hd
    · exact hstart _ hs
    · exact hd

theorem eraseDups_nodup (rows : List α) : rows.eraseDups.Nodup := by
  induction rows using List.reverseRecOn with
  | nil => simp
  | append_singleton rows x ih =>
    rw [List.eraseDups_append]
    by_cases hx : x ∈ rows
    · simpa [List.removeAll, hx] using ih
    · have hnew : [x].removeAll rows = [x] := by simp [List.removeAll, hx]
      rw [hnew]
      refine List.nodup_append.2 ⟨ih, List.nodup_singleton x, ?_⟩
      rintro y hy z hz rfl
      obtain rfl := List.mem_singleton.1 hz
      exact hx (List.mem_eraseDups.1 hy)

theorem fresh_nodup (seen rows : List α) : (fresh seen rows).Nodup := eraseDups_nodup _

/-- A queue without repeats hands out nothing twice. -/
theorem drain_nodup (expand : α → List α) :
    ∀ (n : ℕ) (queue seen : List α), queue.Nodup → queue ⊆ seen →
      (drain expand n queue seen).Nodup ∧
        ∀ y ∈ drain expand n queue seen, y ∈ queue ∨ y ∉ seen
  | 0, _, _, _, _ => by simp [drain_zero]
  | _ + 1, [], _, _, _ => by simp [drain_nil]
  | n + 1, x :: queue, seen, hq, hs => by
    obtain ⟨hx, hq⟩ := List.nodup_cons.1 hq
    obtain ⟨hxs, hs⟩ := List.cons_subset.1 hs
    have hq' : (queue ++ fresh seen (expand x)).Nodup := by
      refine List.nodup_append.2 ⟨hq, fresh_nodup _ _, ?_⟩
      rintro a ha b hb rfl
      exact (mem_fresh.1 hb).2 (hs ha)
    have hs' : queue ++ fresh seen (expand x) ⊆ seen ++ fresh seen (expand x) :=
      List.append_subset.2 ⟨List.Subset.trans hs (List.subset_append_left _ _), List.subset_append_right _ _⟩
    obtain ⟨hd, hmem⟩ := drain_nodup expand n _ _ hq' hs'
    simp only [drain_cons, List.nodup_cons, List.mem_cons]
    refine ⟨⟨fun h => ?_, hd⟩, ?_⟩
    · rcases hmem x h with h | h
      · rcases List.mem_append.1 h with h | h
        · exact hx h
        · exact (mem_fresh.1 h).2 hxs
      · exact h (List.mem_append_left _ hxs)
    · rintro y (rfl | hy)
      · exact .inl (.inl rfl)
      · rcases hmem y hy with h | h
        · rcases List.mem_append.1 h with h | h
          · exact .inl (.inr h)
          · exact .inr (mem_fresh.1 h).2
        · exact .inr fun h' => h (List.mem_append_left _ h')

/-- No row is answered twice. -/
theorem recurse_nodup (expand : α → List α) (start : List α) (limit : ℕ) :
    (recurse expand start limit).Nodup :=
  (drain_nodup expand limit _ _ (fresh_nodup _ _) (List.Subset.refl _)).1

theorem drain_congr {P : α → Prop} (hstep : ∀ x, P x → ∀ y ∈ expand x, P y)
    (heq : ∀ x, P x → expand x = expand' x) :
    ∀ (n : ℕ) (queue seen : List α), (∀ x ∈ queue, P x) →
      drain expand n queue seen = drain expand' n queue seen
  | 0, _, _, _ => rfl
  | _ + 1, [], _, _ => rfl
  | n + 1, x :: queue, seen, hq => by
    have hx := hq x (by simp)
    simp only [drain_cons, ← heq x hx]
    congr 1
    refine drain_congr hstep heq n _ _ fun z hz => ?_
    rcases List.mem_append.1 hz with hz | hz
    · exact hq z (by simp [hz])
    · exact hstep x hx z (mem_fresh.1 hz).1

/-- Two queries with one start that expand the derivable rows alike are the same query. -/
theorem recurse_congr (h : ∀ x, Derivable expand start x → expand x = expand' x) (n : ℕ) :
    recurse expand start n = recurse expand' start n :=
  drain_congr (P := Derivable expand start) (fun _ hx _ hy => .expand hx hy) h n _ _
    fun _ hx => .start (mem_fresh.1 hx).1

end Yaam.Recurse
