/-
  Computations over a state that can fail.

  A failed computation keeps the state it reached: a write that succeeded before
  an error stays written.  Only `atomically` takes a failed computation's effect
  back.

  * `bind_eq_ok`, `bind_eq_error`: what a finished sequence went through;
  * `Triple`: pre- and postconditions, one postcondition for a result and one for
    an error, with a rule for each construct;
  * `Keeps`: an invariant of a computation, whether it fails or not, and the rules
    that carry it through a program.
-/
import Mathlib.Data.List.Basic

namespace Yaam

/-- A computation over a state `σ` that returns an `α` or fails with an `ε`. -/
def Eff (σ ε α : Type) := σ → Except ε α × σ

namespace Eff

variable {σ τ ε ε' α β : Type}

protected def pure (a : α) : Eff σ ε α := fun s => (.ok a, s)

protected def bind (x : Eff σ ε α) (f : α → Eff σ ε β) : Eff σ ε β := fun s =>
  match x s with
  | (.ok a, s') => f a s'
  | (.error e, s') => (.error e, s')

instance : Monad (Eff σ ε) where
  pure := Eff.pure
  bind := Eff.bind

/-- Fails. -/
def fail (e : ε) : Eff σ ε α := fun s => (.error e, s)

/-- The state. -/
def state : Eff σ ε σ := fun s => (.ok s, s)

/-- Changes the state. -/
def change (f : σ → σ) : Eff σ ε Unit := fun s => (.ok (), f s)

/-- A result computed without the state. -/
def ofExcept (x : Except ε α) : Eff σ ε α := fun s => (x, s)

/-- Another spelling of the same failure. -/
def mapError (f : ε → ε') (x : Eff σ ε α) : Eff σ ε' α := fun s =>
  match x s with
  | (.ok a, s') => (.ok a, s')
  | (.error e, s') => (.error (f e), s')

/-- A computation's outcome as a value: a failure is handed on, not raised. -/
def attempt (x : Eff σ ε α) : Eff σ ε (Except ε α) := fun s => (.ok (x s).1, (x s).2)

/-- A computation over a part of the state. -/
def zoom (part : σ → τ) (put : σ → τ → σ) (x : Eff τ ε α) : Eff σ ε α := fun s =>
  ((x (part s)).1, put s (x (part s)).2)

/-- A transaction: what a failed computation wrote is taken back. -/
def atomically (x : Eff σ ε α) : Eff σ ε α := fun s =>
  match x s with
  | (.ok a, s') => (.ok a, s')
  | (.error e, _) => (.error e, s)

/-! ## Runs -/

@[simp] theorem pure_apply (a : α) (s : σ) : (pure a : Eff σ ε α) s = (.ok a, s) := rfl

@[simp] theorem fail_apply (e : ε) (s : σ) : (fail e : Eff σ ε α) s = (.error e, s) := rfl

@[simp] theorem state_apply (s : σ) : (state : Eff σ ε σ) s = (.ok s, s) := rfl

@[simp] theorem change_apply (f : σ → σ) (s : σ) : (change f : Eff σ ε Unit) s = (.ok (), f s) := rfl

@[simp] theorem ofExcept_apply (x : Except ε α) (s : σ) : ofExcept x s = (x, s) := rfl

@[simp] theorem attempt_apply (x : Eff σ ε α) (s : σ) :
    attempt x s = (.ok (x s).1, (x s).2) := rfl

theorem bind_apply (x : Eff σ ε α) (f : α → Eff σ ε β) (s : σ) :
    (x >>= f) s = match x s with
      | (.ok a, s') => f a s'
      | (.error e, s') => (.error e, s') := rfl

instance : LawfulMonad (Eff σ ε) := LawfulMonad.mk' _
  (by
    intro α x
    funext s
    change ((x >>= fun a => pure a) : Eff σ ε α) s = x s
    rw [bind_apply]
    split
    · rename_i heq
      exact heq.symm
    · rename_i heq
      exact heq.symm)
  (by intros; rfl)
  (by
    intro α β γ x f g
    funext s
    cases hx : x s with
    | mk r s' => cases r <;> simp only [bind_apply, hx])

theorem bind_of_ok {x : Eff σ ε α} {s s' : σ} {a : α} (h : x s = (.ok a, s'))
    (f : α → Eff σ ε β) : (x >>= f) s = f a s' := by
  rw [bind_apply, h]

theorem bind_of_error {x : Eff σ ε α} {s s' : σ} {e : ε} (h : x s = (.error e, s'))
    (f : α → Eff σ ε β) : (x >>= f) s = (.error e, s') := by
  rw [bind_apply, h]

@[simp] theorem state_bind (f : σ → Eff σ ε β) (s : σ) : ((state : Eff σ ε σ) >>= f) s = f s s := rfl

@[simp] theorem change_bind (g : σ → σ) (f : Unit → Eff σ ε β) (s : σ) :
    ((change g : Eff σ ε Unit) >>= f) s = f () (g s) := rfl

@[simp] theorem fail_bind (e : ε) (f : α → Eff σ ε β) :
    (fail e : Eff σ ε α) >>= f = fail e := rfl

@[simp] theorem ofExcept_ok_bind (a : α) (f : α → Eff σ ε β) :
    (ofExcept (.ok a) : Eff σ ε α) >>= f = f a := rfl

@[simp] theorem ofExcept_error_bind (e : ε) (f : α → Eff σ ε β) :
    (ofExcept (.error e) : Eff σ ε α) >>= f = fail e := rfl

@[simp] theorem ofExcept_ok (a : α) : (ofExcept (.ok a) : Eff σ ε α) = pure a := rfl

@[simp] theorem ofExcept_error (e : ε) : (ofExcept (.error e) : Eff σ ε α) = fail e := rfl

/-- What a sequence that returned went through. -/
theorem bind_eq_ok {x : Eff σ ε α} {f : α → Eff σ ε β} {s s' : σ} {b : β} :
    (x >>= f) s = (.ok b, s') ↔ ∃ a s₁, x s = (.ok a, s₁) ∧ f a s₁ = (.ok b, s') := by
  rw [bind_apply]
  constructor
  · intro h
    split at h
    · exact ⟨_, _, by assumption, h⟩
    · cases h
  · rintro ⟨a, s₁, hx, hf⟩
    rw [hx]
    exact hf

/-- Where a sequence that failed did. -/
theorem bind_eq_error {x : Eff σ ε α} {f : α → Eff σ ε β} {s s' : σ} {e : ε} :
    (x >>= f) s = (.error e, s') ↔
      x s = (.error e, s') ∨ ∃ a s₁, x s = (.ok a, s₁) ∧ f a s₁ = (.error e, s') := by
  rw [bind_apply]
  constructor
  · intro h
    split at h
    · exact .inr ⟨_, _, by assumption, h⟩
    · cases h
      exact .inl (by assumption)
  · rintro (hx | ⟨a, s₁, hx, hf⟩)
    · rw [hx]
    · rw [hx]
      exact hf

theorem ofExcept_eq_ok {x : Except ε α} {s s' : σ} {a : α} :
    ofExcept x s = (.ok a, s') ↔ x = .ok a ∧ s = s' := Prod.mk.injEq _ _ _ _ ▸ Iff.rfl

theorem pure_eq_ok {s s' : σ} {a b : α} :
    (pure a : Eff σ ε α) s = (.ok b, s') ↔ a = b ∧ s = s' := by
  simp only [pure_apply, Prod.mk.injEq, Except.ok.injEq]

theorem state_eq_ok {s s' s₀ : σ} : (state : Eff σ ε σ) s = (.ok s₀, s') ↔ s = s₀ ∧ s = s' := by
  simp only [state_apply, Prod.mk.injEq, Except.ok.injEq]

theorem change_eq_ok {f : σ → σ} {s s' : σ} {u : Unit} :
    (change f : Eff σ ε Unit) s = (.ok u, s') ↔ f s = s' := by
  simp only [change_apply, Prod.mk.injEq, true_and]

theorem mapError_eq_ok {g : ε → ε'} {x : Eff σ ε α} {s s' : σ} {a : α} :
    mapError g x s = (.ok a, s') ↔ x s = (.ok a, s') := by
  unfold mapError
  split <;> simp_all

theorem mapError_eq_error {g : ε → ε'} {x : Eff σ ε α} {s s' : σ} {e : ε'} :
    mapError g x s = (.error e, s') ↔ ∃ e₀, x s = (.error e₀, s') ∧ g e₀ = e := by
  unfold mapError
  split <;> simp_all [and_comm]

theorem zoom_eq_error {part : σ → τ} {put : σ → τ → σ} {x : Eff τ ε α} {s s' : σ} {e : ε} :
    zoom part put x s = (.error e, s') ↔ ∃ t, x (part s) = (.error e, t) ∧ put s t = s' := by
  simp only [zoom, Prod.mk.injEq]
  constructor
  · rintro ⟨h1, h2⟩
    exact ⟨_, Prod.ext h1 rfl, h2⟩
  · rintro ⟨t, ht, rfl⟩
    rw [ht]
    exact ⟨rfl, rfl⟩

theorem ofExcept_eq_error {x : Except ε α} {s s' : σ} {e : ε} :
    ofExcept x s = (.error e, s') ↔ x = .error e ∧ s = s' := Prod.mk.injEq _ _ _ _ ▸ Iff.rfl

theorem fail_eq_error {s s' : σ} {e e' : ε} :
    (fail e : Eff σ ε α) s = (.error e', s') ↔ e = e' ∧ s = s' := by
  simp only [fail_apply, Prod.mk.injEq, Except.error.injEq]

@[simp] theorem fail_ne_ok {s s' : σ} {e : ε} {a : α} :
    (fail e : Eff σ ε α) s ≠ (.ok a, s') := by
  simp

@[simp] theorem pure_ne_error {s s' : σ} {e : ε} {a : α} :
    (pure a : Eff σ ε α) s ≠ (.error e, s') := by
  simp

theorem zoom_eq_ok {part : σ → τ} {put : σ → τ → σ} {x : Eff τ ε α} {s s' : σ} {a : α} :
    zoom part put x s = (.ok a, s') ↔ ∃ t, x (part s) = (.ok a, t) ∧ put s t = s' := by
  simp only [zoom, Prod.mk.injEq]
  constructor
  · rintro ⟨h1, h2⟩
    exact ⟨_, Prod.ext h1 rfl, h2⟩
  · rintro ⟨t, ht, rfl⟩
    rw [ht]
    exact ⟨rfl, rfl⟩

theorem atomically_eq_ok {x : Eff σ ε α} {s s' : σ} {a : α} :
    atomically x s = (.ok a, s') ↔ x s = (.ok a, s') := by
  unfold atomically
  split <;> simp_all

theorem atomically_error {x : Eff σ ε α} {s s' : σ} {e : ε}
    (h : atomically x s = (.error e, s')) : s = s' := by
  unfold atomically at h
  split at h
  · cases h
  · exact (Prod.mk.inj h).2

/-- The outcome of a sequence. -/
theorem attempt_bind (x : Eff σ ε α) (f : α → Eff σ ε β) :
    attempt (x >>= f) = attempt x >>= fun r => match r with
      | .ok a => attempt (f a)
      | .error e => pure (.error e) := by
  funext s
  simp only [attempt_apply, bind_apply]
  cases x s with
  | mk r s' => cases r <;> rfl

/-! ## Triples -/

/-- From a state that meets `P`, a result meets `Q` and a failure meets `F`. -/
def Triple (P : σ → Prop) (x : Eff σ ε α) (Q : α → σ → Prop) (F : ε → σ → Prop) : Prop :=
  ∀ s, P s → match x s with
    | (.ok a, s') => Q a s'
    | (.error e, s') => F e s'

variable {P P' : σ → Prop} {Q Q' : α → σ → Prop} {R : β → σ → Prop} {F F' : ε → σ → Prop}

theorem Triple.ok {x : Eff σ ε α} (h : Triple P x Q F) {s s' : σ} {a : α} (hs : P s)
    (hx : x s = (.ok a, s')) : Q a s' := by
  have := h s hs
  rwa [hx] at this

theorem Triple.error {x : Eff σ ε α} (h : Triple P x Q F) {s s' : σ} {e : ε} (hs : P s)
    (hx : x s = (.error e, s')) : F e s' := by
  have := h s hs
  rwa [hx] at this

theorem Triple.of_cases {x : Eff σ ε α} (hok : ∀ s s' a, P s → x s = (.ok a, s') → Q a s')
    (herr : ∀ s s' e, P s → x s = (.error e, s') → F e s') : Triple P x Q F := by
  intro s hs
  split
  · exact hok _ _ _ hs (by assumption)
  · exact herr _ _ _ hs (by assumption)

theorem Triple.conseq {x : Eff σ ε α} (h : Triple P' x Q' F') (hP : ∀ s, P s → P' s)
    (hQ : ∀ a s, Q' a s → Q a s) (hF : ∀ e s, F' e s → F e s) : Triple P x Q F :=
  Triple.of_cases (fun _ _ _ hs hx => hQ _ _ (h.ok (hP _ hs) hx))
    fun _ _ _ hs hx => hF _ _ (h.error (hP _ hs) hx)

theorem Triple.before {x : Eff σ ε α} (h : Triple P' x Q F) (hP : ∀ s, P s → P' s) : Triple P x Q F :=
  h.conseq hP (fun _ _ hs => hs) fun _ _ hs => hs

/-- From each state that meets the precondition. -/
theorem Triple.of_state {x : Eff σ ε α} (h : ∀ s, P s → Triple (fun t => t = s) x Q F) :
    Triple P x Q F := fun s hs => h s hs s rfl

theorem Triple.pure {a : α} (h : ∀ s, P s → Q a s) : Triple P (Pure.pure a) Q F :=
  fun s hs => h s hs

theorem Triple.fail {e : ε} (h : ∀ s, P s → F e s) : Triple P (Eff.fail e) Q F :=
  fun s hs => h s hs

theorem Triple.bind {x : Eff σ ε α} {f : α → Eff σ ε β} (hx : Triple P x Q F)
    (hf : ∀ a, Triple (Q a) (f a) R F) : Triple P (x >>= f) R F := by
  intro s hs
  have h := hx s hs
  rw [bind_apply]
  cases hxs : x s with
  | mk r s' =>
    rw [hxs] at h
    cases r with
    | ok a => exact hf a s' h
    | error e => exact h

/-- A computation that only reads: its result speaks about the state it found. -/
theorem Triple.state_bind {f : σ → Eff σ ε β} (h : ∀ s₀, Triple (fun s => P s ∧ s = s₀) (f s₀) R F) :
    Triple P (Eff.state >>= f) R F :=
  fun s hs => h s s ⟨hs, rfl⟩

/-- A loop with an invariant. -/
theorem Triple.foldlM {I : σ → Prop} {f : β → α → Eff σ ε β} {xs : List α}
    (h : ∀ b, ∀ x ∈ xs, Triple I (f b x) (fun _ => I) F) (b : β) :
    Triple I (xs.foldlM f b) (fun _ => I) F := by
  induction xs generalizing b with
  | nil => exact Triple.pure fun _ hs => hs
  | cons x xs ih =>
    rw [List.foldlM_cons]
    exact (h b x (by simp)).bind fun c => ih (fun b y hy => h b y (by simp [hy])) c

/-- A loop whose invariant speaks of what is left to go through. -/
theorem Triple.foldlM_rest {I : β → List α → σ → Prop} {f : β → α → Eff σ ε β}
    (h : ∀ b x xs, Triple (I b (x :: xs)) (f b x) (fun c => I c xs) F) (b : β) (xs : List α) :
    Triple (I b xs) (xs.foldlM f b) (fun c => I c []) F := by
  induction xs generalizing b with
  | nil => exact Triple.pure fun _ hs => hs
  | cons x xs ih =>
    rw [List.foldlM_cons]
    exact (h b x xs).bind fun c => ih c

theorem Triple.forM {I : σ → Prop} {f : α → Eff σ ε PUnit} {xs : List α}
    (h : ∀ x ∈ xs, Triple I (f x) (fun _ => I) F) : Triple I (xs.forM f) (fun _ => I) F := by
  induction xs with
  | nil => exact Triple.pure fun _ hs => hs
  | cons x xs ih => exact (h x (by simp)).bind fun _ => ih fun y hy => h y (by simp [hy])

/-! ## Invariants -/

/-- A computation keeps a property of the state, whether it returns or fails. -/
def Keeps (I : σ → Prop) (x : Eff σ ε α) : Prop := ∀ s, I s → I (x s).2

variable {I : σ → Prop}

theorem Keeps.triple {x : Eff σ ε α} (h : Keeps I x) :
    Triple I x (fun _ => I) (fun _ => I) := by
  intro s hs
  have := h s hs
  split
  all_goals
    rename_i heq
    rwa [heq] at this

theorem Keeps.of_triple {x : Eff σ ε α} (h : Triple I x (fun _ => I) (fun _ => I)) :
    Keeps I x := by
  intro s hs
  have := h s hs
  split at this
  all_goals
    rename_i heq
    rw [heq]
    exact this

theorem Keeps.apply {x : Eff σ ε α} (h : Keeps I x) {s s' : σ} {r : Except ε α} (hs : I s)
    (hx : x s = (r, s')) : I s' := by
  have := h s hs
  rwa [hx] at this

theorem Keeps.pure (a : α) : Keeps I (Pure.pure a : Eff σ ε α) := fun _ hs => hs

theorem Keeps.fail (e : ε) : Keeps I (Eff.fail e : Eff σ ε α) := fun _ hs => hs

theorem Keeps.state : Keeps I (Eff.state : Eff σ ε σ) := fun _ hs => hs

theorem Keeps.ofExcept (x : Except ε α) : Keeps I (Eff.ofExcept x : Eff σ ε α) := fun _ hs => hs

theorem Keeps.change {f : σ → σ} (h : ∀ s, I s → I (f s)) :
    Keeps I (Eff.change f : Eff σ ε Unit) := h

theorem Keeps.attempt {x : Eff σ ε α} (h : Keeps I x) : Keeps I (Eff.attempt x) := h

theorem Keeps.mapError {g : ε → ε'} {x : Eff σ ε α} (h : Keeps I x) :
    Keeps I (Eff.mapError g x) := by
  intro s hs
  have := h s hs
  unfold Eff.mapError
  split
  all_goals
    rename_i heq
    rwa [heq] at this

theorem Keeps.bind {x : Eff σ ε α} {f : α → Eff σ ε β} (hx : Keeps I x)
    (hf : ∀ a, Keeps I (f a)) : Keeps I (x >>= f) :=
  Keeps.of_triple (hx.triple.bind fun a => (hf a).triple)

/-- A computation that reads the state first may rely on the invariant there. -/
theorem Keeps.state_bind {f : σ → Eff σ ε β} (h : ∀ s₀, I s₀ → I (f s₀ s₀).2) :
    Keeps I (Eff.state >>= f) := fun s hs => h s hs

theorem Keeps.zoom {part : σ → τ} {put : σ → τ → σ} {x : Eff τ ε α}
    (h : ∀ s, I s → I (put s (x (part s)).2)) : Keeps I (Eff.zoom part put x) := h

theorem Keeps.atomically {x : Eff σ ε α} (h : Keeps I x) : Keeps I (Eff.atomically x) := by
  intro s hs
  have := h s hs
  unfold Eff.atomically
  split
  · rename_i heq
    rwa [heq] at this
  · exact hs

theorem Keeps.foldlM {f : β → α → Eff σ ε β} {xs : List α}
    (h : ∀ b, ∀ x ∈ xs, Keeps I (f b x)) (b : β) : Keeps I (xs.foldlM f b) :=
  Keeps.of_triple (Triple.foldlM (fun b x hx => (h b x hx).triple) b)

theorem Keeps.forM {f : α → Eff σ ε PUnit} {xs : List α} (h : ∀ x ∈ xs, Keeps I (f x)) :
    Keeps I (xs.forM f) := by
  induction xs with
  | nil => exact Keeps.pure _
  | cons x xs ih =>
    exact (h x (by simp)).bind fun _ => ih fun y hy => h y (by simp [hy])

end Eff

end Yaam
