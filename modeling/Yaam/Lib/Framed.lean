/-
  Fields in a row, each closed by a separator it does not hold, then a rest that may hold
  anything.

  * `join` is the row as one list, `join_inj`: it determines its fields and its rest;
  * `newline_notMem_encode`: the bytes of one line of text are such a field.
-/
import Yaam.Lib.Utf8

namespace Yaam.Framed

variable {α : Type} {sep : α}

/-- Fields, each closed by the separator, and the rest. -/
def join (sep : α) (fields : List (List α)) (rest : List α) : List α :=
  fields.flatMap (· ++ [sep]) ++ rest

@[simp] theorem join_nil (rest : List α) : join sep [] rest = rest := rfl

@[simp] theorem join_cons (f : List α) (fields : List (List α)) (rest : List α) :
    join sep (f :: fields) rest = f ++ sep :: join sep fields rest := by
  simp [join]

/-- What comes before the first separator, and after it. -/
theorem first_inj {f f' rest rest' : List α} (h : sep ∉ f) (h' : sep ∉ f')
    (heq : f ++ sep :: rest = f' ++ sep :: rest') : f = f' ∧ rest = rest' := by
  induction f generalizing f' with
  | nil =>
    cases f' with
    | nil => exact ⟨rfl, (List.cons.inj heq).2⟩
    | cons a f' => exact absurd (List.mem_cons.2 (.inl (List.cons.inj heq).1)) h'
  | cons a f ih =>
    cases f' with
    | nil => exact absurd (List.mem_cons.2 (.inl (List.cons.inj heq).1.symm)) h
    | cons a' f' =>
      obtain ⟨rfl, htail⟩ := List.cons.inj heq
      obtain ⟨rfl, hrest⟩ := ih (fun hm => h (List.mem_cons_of_mem _ hm))
        (fun hm => h' (List.mem_cons_of_mem _ hm)) htail
      exact ⟨rfl, hrest⟩

/-- **A row determines its fields and its rest.** -/
theorem join_inj {fields fields' : List (List α)} {rest rest' : List α}
    (hlen : fields.length = fields'.length) (h : ∀ f ∈ fields, sep ∉ f) (h' : ∀ f ∈ fields', sep ∉ f)
    (heq : join sep fields rest = join sep fields' rest') : fields = fields' ∧ rest = rest' := by
  induction fields generalizing fields' with
  | nil =>
    obtain rfl := List.length_eq_zero_iff.1 hlen.symm
    exact ⟨rfl, heq⟩
  | cons f fields ih =>
    cases fields' with
    | nil => simp at hlen
    | cons f' fields' =>
      rw [join_cons, join_cons] at heq
      obtain ⟨rfl, htail⟩ := first_inj (h f List.mem_cons_self) (h' f' List.mem_cons_self) heq
      obtain ⟨rfl, hrest⟩ := ih (by simpa using hlen) (fun g hg => h g (List.mem_cons_of_mem _ hg))
        (fun g hg => h' g (List.mem_cons_of_mem _ hg)) htail
      exact ⟨rfl, hrest⟩

end Yaam.Framed

namespace Yaam.Utf8

theorem newline_notMem_encode {t : Text} (h : '\n' ∉ t) : (10 : UInt8) ∉ encode t := by
  intro hmem
  obtain ⟨a, bs, hab⟩ := List.append_of_mem hmem
  obtain ⟨u, rfl⟩ := boundary_of_ascii (by decide) hab
  have hdec : decode (encode u ++ (encode ['\n'] ++ bs)) = some t := by
    rw [← decode_encode t, hab]
    rfl
  rw [decode_encode_append, decode_encode_append] at hdec
  obtain ⟨v, hv, rfl⟩ := Option.map_eq_some_iff.1 hdec
  obtain ⟨w, -, rfl⟩ := Option.map_eq_some_iff.1 hv
  exact h (by simp)

end Yaam.Utf8
