/-
  Two computations run side by side, each over a state of its own.

  * `Related R x y V`: from related states both succeed, with values that `V` relates, or
    both fail; either way the states stay related;
  * one rule for each construct: `Related.bind`, `Related.state_bind`, `Related.foldlM`;
  * `Related.ok` and `Related.error` carry a run of one over to the other.
-/
import Yaam.Lib.Effect

namespace Yaam.Eff

variable {σ τ ε ε' α α' β β' γ : Type}

/-- From related states two computations do alike. -/
def Related (R : σ → τ → Prop) (x : Eff σ ε α) (y : Eff τ ε' α') (V : α → α' → Prop) : Prop :=
  ∀ s t, R s t → match x s, y t with
    | (.ok a, s'), (.ok b, t') => V a b ∧ R s' t'
    | (.error _, s'), (.error _, t') => R s' t'
    | _, _ => False

variable {R : σ → τ → Prop} {x : Eff σ ε α} {y : Eff τ ε' α'} {V : α → α' → Prop}
  {W : β → β' → Prop}

/-- What one computation answers, the other answers alike. -/
theorem Related.ok (h : Related R x y V) {s s' : σ} {t : τ} {a : α} (hR : R s t) (hx : x s = (.ok a, s')) :
    ∃ b t', y t = (.ok b, t') ∧ V a b ∧ R s' t' := by
  have hrun := h s t hR
  rw [hx] at hrun
  rcases hy : y t with ⟨_ | b, t'⟩
  · rw [hy] at hrun
    exact hrun.elim
  · rw [hy] at hrun
    exact ⟨b, t', rfl, hrun⟩

/-- Where one computation fails, the other does. -/
theorem Related.error (h : Related R x y V) {s s' : σ} {t : τ} {e : ε} (hR : R s t)
    (hx : x s = (.error e, s')) : ∃ e' t', y t = (.error e', t') ∧ R s' t' := by
  have hrun := h s t hR
  rw [hx] at hrun
  rcases hy : y t with ⟨e' | _, t'⟩
  · rw [hy] at hrun
    exact ⟨e', t', rfl, hrun⟩
  · rw [hy] at hrun
    exact hrun.elim

theorem Related.pure {a : α} {b : α'} (h : V a b) :
    Related R (Pure.pure a : Eff σ ε α) (Pure.pure b : Eff τ ε' α') V := fun _ _ hR => ⟨h, hR⟩

theorem Related.fail (e : ε) (e' : ε') : Related R (Eff.fail e) (Eff.fail e') V := fun _ _ hR => hR

/-- A result computed without the state. -/
theorem Related.ofExcept (r : Except ε α) :
    Related R (Eff.ofExcept r : Eff σ ε α) (Eff.ofExcept r : Eff τ ε α) Eq := by
  intro s t hR
  cases r with
  | ok a => exact ⟨rfl, hR⟩
  | error e => exact hR

theorem Related.change {f : σ → σ} {g : τ → τ} (h : ∀ s t, R s t → R (f s) (g t)) :
    Related R (Eff.change f : Eff σ ε Unit) (Eff.change g : Eff τ ε' Unit) Eq :=
  fun s t hR => ⟨rfl, h s t hR⟩

theorem Related.bind {f : α → Eff σ ε β} {g : α' → Eff τ ε' β'} (hx : Related R x y V)
    (hf : ∀ a b, V a b → Related R (f a) (g b) W) : Related R (x >>= f) (y >>= g) W := by
  intro s t hR
  rcases hxs : x s with ⟨e | a, s'⟩
  · obtain ⟨e', t', hyt, hR'⟩ := hx.error hR hxs
    rw [bind_of_error hxs, bind_of_error hyt]
    exact hR'
  · obtain ⟨b, t', hyt, hV, hR'⟩ := hx.ok hR hxs
    rw [bind_of_ok hxs, bind_of_ok hyt]
    exact hf a b hV s' t' hR'

/-- Computations that go on with the same value. -/
theorem Related.bind_eq {y : Eff τ ε' α} {f : α → Eff σ ε β} {g : α → Eff τ ε' β'}
    (hx : Related R x y Eq) (hf : ∀ a, Related R (f a) (g a) W) : Related R (x >>= f) (y >>= g) W :=
  hx.bind fun a _ hab => hab ▸ hf a

/-- Computations that read related states. -/
theorem Related.state_bind {f : σ → Eff σ ε β} {g : τ → Eff τ ε' β'}
    (h : ∀ s t, R s t → Related R (f s) (g t) W) : Related R (Eff.state >>= f) (Eff.state >>= g) W :=
  fun s t hR => h s t hR s t hR

/-- A loop over one list, with accumulators that stay related. -/
theorem Related.foldlM {f : α → γ → Eff σ ε α} {g : α' → γ → Eff τ ε' α'} {xs : List γ}
    (h : ∀ a b, ∀ c ∈ xs, V a b → Related R (f a c) (g b c) V) {a : α} {b : α'} (hab : V a b) :
    Related R (xs.foldlM f a) (xs.foldlM g b) V := by
  induction xs generalizing a b with
  | nil => exact Related.pure hab
  | cons c xs ih =>
    rw [List.foldlM_cons, List.foldlM_cons]
    exact (h a b c List.mem_cons_self hab).bind fun a' b' hab' =>
      ih (fun a b c hc => h a b c (List.mem_cons_of_mem _ hc)) hab'

theorem Related.forM {f : γ → Eff σ ε PUnit} {g : γ → Eff τ ε' PUnit} {xs : List γ}
    (h : ∀ c ∈ xs, Related R (f c) (g c) Eq) : Related R (xs.forM f) (xs.forM g) Eq := by
  induction xs with
  | nil => exact Related.pure rfl
  | cons c xs ih =>
    exact (h c List.mem_cons_self).bind_eq fun _ => ih fun d hd => h d (List.mem_cons_of_mem _ hd)

/-- A computation over a part that the two states have in common. -/
theorem Related.zoom {ρ : Type} {part : σ → ρ} {put : σ → ρ → σ} {part' : τ → ρ} {put' : τ → ρ → τ}
    (hpart : ∀ s t, R s t → part s = part' t) (hput : ∀ s t r, R s t → R (put s r) (put' t r))
    (z : Eff ρ ε α) : Related R (Eff.zoom part put z) (Eff.zoom part' put' z) Eq := by
  intro s t hR
  simp only [Eff.zoom, hpart s t hR]
  rcases z (part' t) with ⟨e | a, r⟩
  · exact hput s t r hR
  · exact ⟨rfl, hput s t r hR⟩

/-- A weaker relation between the answers. -/
theorem Related.weaken {V' : α → α' → Prop} (h : Related R x y V) (hV : ∀ a b, V a b → V' a b) :
    Related R x y V' := by
  intro s t hR
  rcases hxs : x s with ⟨e | a, s'⟩
  · obtain ⟨e', t', hyt, hR'⟩ := h.error hR hxs
    rw [hyt]
    exact hR'
  · obtain ⟨b, t', hyt, hv, hR'⟩ := h.ok hR hxs
    rw [hyt]
    exact ⟨hV a b hv, hR'⟩

end Yaam.Eff
