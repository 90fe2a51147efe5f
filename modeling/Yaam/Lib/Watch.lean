/-
  Computations that are watched, and operations that may fail.

  A watched computation notes what it does, each time with the state it does it in; an
  operation under a fate may fail before it does anything, or once it is done, which is
  also what a crash there leaves.

  * `Forgets`: a watched computation does what the plain one does;
  * `Triple.under`, `Triple.watched`, `Triple.note`: the rules for what is watched, whatever
    its fate.
-/
import Yaam.Lib.Effect

namespace Yaam

/-- A state and the notes taken so far, each with the state it was taken in. -/
structure Watch (σ ν : Type) where
  state : σ
  seen : List (ν × σ)

/-- How an operation goes: as it should, not at all, or with an error once it is done. -/
inductive Fate (ε : Type) where
  | runs
  | fails (e : ε)
  | cut (e : ε)

namespace Eff

variable {σ ν ε α β : Type}

/-- An operation under a fate. -/
def under (f : Fate ε) (x : Eff σ ε α) : Eff σ ε α :=
  match f with
  | .runs => x
  | .fails e => fail e
  | .cut e => x >>= fun _ => fail e

/-- A computation that takes no notes. -/
def watched (x : Eff σ ε α) : Eff (Watch σ ν) ε α :=
  zoom Watch.state (fun w s => { w with state := s }) x

/-- Takes a note. -/
def note (n : ν) : Eff (Watch σ ν) ε Unit :=
  change fun w => { w with seen := w.seen ++ [(n, w.state)] }

/-! ## Forgetting the notes -/

/-- Without its notes, a watched computation is the plain one. -/
def Forgets (w : Eff (Watch σ ν) ε α) (x : Eff σ ε α) : Prop :=
  ∀ v, (w v).1 = (x v.state).1 ∧ (w v).2.state = (x v.state).2

variable {w : Eff (Watch σ ν) ε α} {x : Eff σ ε α} {g : α → Eff (Watch σ ν) ε β} {f : α → Eff σ ε β}

theorem Forgets.watched (x : Eff σ ε α) : Forgets (Eff.watched x : Eff (Watch σ ν) ε α) x :=
  fun _ => ⟨rfl, rfl⟩

theorem Forgets.pure (a : α) : Forgets (Pure.pure a : Eff (Watch σ ν) ε α) (Pure.pure a) :=
  fun _ => ⟨rfl, rfl⟩

theorem Forgets.fail (e : ε) : Forgets (Eff.fail e : Eff (Watch σ ν) ε α) (Eff.fail e) :=
  fun _ => ⟨rfl, rfl⟩

theorem Forgets.ofExcept (r : Except ε α) : Forgets (Eff.ofExcept r : Eff (Watch σ ν) ε α) (Eff.ofExcept r) :=
  fun _ => ⟨rfl, rfl⟩

theorem Forgets.bind (hw : Forgets w x) (hg : ∀ a, Forgets (g a) (f a)) :
    Forgets (w >>= g) (x >>= f) := by
  intro v
  obtain ⟨h1, h2⟩ := hw v
  rw [bind_apply, bind_apply]
  cases hv : w v with
  | mk r v' =>
    cases hx : x v.state with
    | mk r' s' =>
      rw [hv, hx] at h1 h2
      dsimp only at h1 h2
      subst h1 h2
      cases r with
      | ok a => exact hg a v'
      | error e => exact ⟨rfl, rfl⟩

/-- A note is forgotten. -/
theorem Forgets.note (n : ν) (h : Forgets w x) : Forgets (Eff.note n >>= fun _ => w) x :=
  fun v => h { v with seen := v.seen ++ [(n, v.state)] }

/-- What only takes notes is forgotten. -/
theorem Forgets.silent {n : Eff (Watch σ ν) ε Unit} (hn : Forgets n (Pure.pure ())) (h : Forgets w x) :
    Forgets (n >>= fun _ => w) x := hn.bind fun _ => h

theorem Forgets.attempt (h : Forgets w x) : Forgets (Eff.attempt w) (Eff.attempt x) := by
  intro v
  obtain ⟨h1, h2⟩ := h v
  exact ⟨congrArg Except.ok h1, h2⟩

/-- An operation that goes as it should. -/
theorem Forgets.under (h : Forgets w x) : Forgets (Eff.under .runs w) x := h

/-! ## Rules -/

variable {P : Watch σ ν → Prop} {Q : α → Watch σ ν → Prop} {F : ε → Watch σ ν → Prop}

/-- Whatever the fate of an operation: before it and after it a failure is in order. -/
theorem Triple.under (h : Triple P w Q F) (hfails : ∀ v e, P v → F e v)
    (hcut : ∀ a v e, Q a v → F e v) (fate : Fate ε) : Triple P (Eff.under fate w) Q F := by
  cases fate with
  | runs => exact h
  | fails e => exact Triple.fail fun v hv => hfails v e hv
  | cut e => exact h.bind fun a => Triple.fail fun v hv => hcut a v e hv

/-- A computation that takes no notes keeps those that were taken. -/
theorem Triple.watched {p : σ → Prop} {q : α → σ → Prop} {f : ε → σ → Prop} (h : Triple p x q f)
    (seen : List (ν × σ)) :
    Triple (fun v => p v.state ∧ v.seen = seen) (Eff.watched x)
      (fun a v => q a v.state ∧ v.seen = seen) (fun e v => f e v.state ∧ v.seen = seen) := by
  refine Triple.of_cases (fun v v' a hv hx => ?_) fun v v' e hv hx => ?_
  · obtain ⟨s, hs, rfl⟩ := zoom_eq_ok.1 hx
    exact ⟨h.ok hv.1 hs, hv.2⟩
  · obtain ⟨s, hs, rfl⟩ := zoom_eq_error.1 hx
    exact ⟨h.error hv.1 hs, hv.2⟩

/-- A note is taken in the state it finds. -/
theorem Triple.note (n : ν) {I : Watch σ ν → Prop} :
    Triple (fun v => I { v with seen := v.seen ++ [(n, v.state)] }) (Eff.note n) (fun _ => I) F :=
  fun _ hv => hv

end Eff

end Yaam
