/-
  Programs that stop in the middle: a list of operations on a device, each done whole or
  in part before the program is cut off.

  * `Device.run` does every operation, `Cut` stops anywhere;
  * `cut_append`: a program of two parts is cut in the first, or in the second after the
    first was done;
  * `Cut.keeps`: what every operation keeps, whole or in part, a cut program keeps.
-/
import Mathlib.Data.List.Basic

namespace Yaam

variable {ω σ : Type} {ops ops' : List ω} {op : ω} {s s' : σ}

/-- What operations do: to the end, and when they are cut off. -/
structure Device (ω σ : Type) where
  whole : ω → σ → σ
  partly : ω → σ → σ → Prop

variable {D : Device ω σ} {P : σ → Prop}

/-- Does every operation. -/
def Device.run (D : Device ω σ) (ops : List ω) (s : σ) : σ := ops.foldl (fun s op => D.whole op s) s

/-- Does some operations, and perhaps a part of the next. -/
inductive Cut (D : Device ω σ) : List ω → σ → σ → Prop
  | stop (ops : List ω) (s : σ) : Cut D ops s s
  | part {op : ω} {ops : List ω} {s s' : σ} (h : D.partly op s s') : Cut D (op :: ops) s s'
  | step {op : ω} {ops : List ω} {s s' : σ} (h : Cut D ops (D.whole op s) s') : Cut D (op :: ops) s s'

/-- An operation keeps a property, done whole or in part. -/
structure Device.Keeps (D : Device ω σ) (P : σ → Prop) (op : ω) : Prop where
  whole : ∀ s, P s → P (D.whole op s)
  partly : ∀ s s', P s → D.partly op s s' → P s'

@[simp] theorem Device.run_nil : D.run [] s = s := rfl

@[simp] theorem Device.run_cons : D.run (op :: ops) s = D.run ops (D.whole op s) := rfl

theorem Device.run_append : D.run (ops ++ ops') s = D.run ops' (D.run ops s) :=
  List.foldl_append

/-- Doing everything is one way to stop. -/
theorem cut_run (ops : List ω) (s : σ) : Cut D ops s (D.run ops s) := by
  induction ops generalizing s with
  | nil => exact .stop _ _
  | cons op ops ih => exact .step (ih _)

theorem cut_nil : Cut D [] s s' ↔ s' = s := by
  constructor
  · rintro ⟨⟩
    rfl
  · rintro rfl
    exact .stop _ _

/-- **A program of two parts** is cut in the first, or in the second after all of the
    first. -/
theorem cut_append : Cut D (ops ++ ops') s s' ↔ Cut D ops s s' ∨ Cut D ops' (D.run ops s) s' := by
  induction ops generalizing s with
  | nil =>
    rw [List.nil_append, Device.run_nil, cut_nil]
    refine ⟨.inr, ?_⟩
    rintro (rfl | h)
    · exact .stop _ _
    · exact h
  | cons op ops ih =>
    rw [List.cons_append, Device.run_cons]
    constructor
    · rintro (_ | h | h)
      · exact .inl (.stop _ _)
      · exact .inl (.part h)
      · exact (ih.1 h).imp_left .step
    · rintro ((_ | h | h) | h)
      · exact .stop _ _
      · exact .part h
      · exact .step (ih.2 (.inl h))
      · exact .step (ih.2 (.inr h))

theorem Device.Keeps.run (h : ∀ op ∈ ops, D.Keeps P op) (hs : P s) : P (D.run ops s) := by
  induction ops generalizing s with
  | nil => exact hs
  | cons op ops ih =>
    have hop := h op List.mem_cons_self
    exact ih (fun op hm => h op (List.mem_cons_of_mem _ hm)) (hop.whole s hs)

/-- **What every operation keeps, a cut program keeps.** -/
theorem Cut.keeps (hcut : Cut D ops s s') (h : ∀ op ∈ ops, D.Keeps P op) (hs : P s) : P s' := by
  induction hcut with
  | stop => exact hs
  | part hp => exact (h _ List.mem_cons_self).partly _ _ hs hp
  | step _ ih =>
    exact ih (fun op hm => h op (List.mem_cons_of_mem _ hm)) ((h _ List.mem_cons_self).whole _ hs)

end Yaam
