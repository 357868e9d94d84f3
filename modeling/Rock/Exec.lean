/-
Rock/Exec.lean

Executions of C code that can go wrong, and runs of a state machine.

A C function is modelled by a function into `Exec`: either it returns, or it
stops with a `Fault`.  The faults are the ones a kernel cannot recover from on
its own: touching an object outside its bounds, going through a null pointer,
dividing by zero, and never coming back (a loop without progress, or a spin on a
lock nobody will release).

`Run` is a run of any length of a step relation, and `Run.invariant` is the
induction every safety result of the development goes through.  `Terminates` says
that all runs end.

A loop whose body is a function `σ → Option σ`, where `none` is the exit, is Mathlib's
`StateTransition.eval`.
-/
import Mathlib.Computability.StateTransition
import Mathlib.Data.Nat.Find
import Mathlib.Logic.Relation
import Mathlib.Tactic.Push

namespace Rock

/-! ### Faulting executions -/

/-- The ways in which an execution can fail to return. -/
inductive Fault where
  | wild
  | null
  | hang
  | divide
  deriving DecidableEq, Repr

/-- An execution that returns a value or stops with a fault. -/
abbrev Exec (α : Type) := Except Fault α

namespace Exec

variable {α β : Type}

@[simp] theorem ok_bind (a : α) (f : α → Exec β) :
    (Except.ok a >>= f : Exec β) = f a := rfl

@[simp] theorem error_bind (e : Fault) (f : α → Exec β) :
    ((Except.error e : Exec α) >>= f) = Except.error e := rfl

/-- A sequence returns exactly when both halves do. -/
theorem bind_eq_ok {x : Exec α} {f : α → Exec β} {b : β} :
    (x >>= f) = .ok b ↔ ∃ a, x = .ok a ∧ f a = .ok b := by
  rcases x with e | a <;> simp

/-- An execution of which a part of the result is known returns. -/
theorem exists_of_map_eq_ok {x : Exec α} {f : α → β} {b : β} (h : x.map f = .ok b) :
    ∃ a, x = .ok a ∧ f a = b := by
  rcases x with e | a
  · simp [Except.map] at h
  · exact ⟨a, rfl, by simpa [Except.map] using h⟩

end Exec

/-- **Assumption on fayt**: `alloc` returns cleared memory.  The library is not part of the
kernel tree, and the kernel reads fields of new objects that it never wrote.  Every object
the model allocates starts as this value. -/
abbrev allocCleared (α : Type) [Inhabited α] : α := default

/-! ### First and last instances -/

/-- Either nothing in a list is of a kind, or something is the first of its kind. -/
theorem forall_not_or_exists_first {α : Type*} (P : α → Prop) (l : List α) :
    (∀ a ∈ l, ¬ P a) ∨
      ∃ (k : ℕ) (a : α), l[k]? = some a ∧ P a ∧ ∀ j < k, ∀ a', l[j]? = some a' → ¬ P a' := by
  induction l with
  | nil => exact .inl fun a ha => by cases ha
  | cons a rest ih =>
      by_cases ha : P a
      · exact .inr ⟨0, a, rfl, ha, fun j hj => absurd hj (Nat.not_lt_zero j)⟩
      · rcases ih with hnone | ⟨k, b, hk, hb, hbefore⟩
        · exact .inl (List.forall_mem_cons.mpr ⟨ha, hnone⟩)
        · refine .inr ⟨k + 1, b, hk, hb, fun j hj c hc => ?_⟩
          rcases j with - | j
          · cases hc
            exact ha
          · exact hbefore j (Nat.lt_of_succ_lt_succ hj) c hc

/-- Something below `n` is the last of its kind. -/
theorem exists_last {P : ℕ → Prop} {n i : ℕ} (hi : i < n) (h : P i) :
    ∃ j < n, i ≤ j ∧ P j ∧ ∀ k < n, j < k → ¬ P k := by
  classical
  refine ⟨Nat.findGreatest (fun k => k < n ∧ P k) n, ?_⟩
  obtain ⟨hlt, hP⟩ := Nat.findGreatest_spec (P := fun k => k < n ∧ P k) (Nat.le_of_lt hi) ⟨hi, h⟩
  refine ⟨hlt, Nat.le_findGreatest (Nat.le_of_lt hi) ⟨hi, h⟩, hP, fun k hk hlast hPk => ?_⟩
  exact Nat.findGreatest_is_greatest hlast (Nat.le_of_lt hk) ⟨hk, hPk⟩

/-! ### Runs -/

variable {σ : Type*}

/-- A run of any length of the step relation `step`. -/
abbrev Run (step : σ → σ → Prop) : σ → σ → Prop := Relation.ReflTransGen step

/-- What holds initially and is kept by every step holds in every state a run
reaches. -/
theorem Run.invariant {step : σ → σ → Prop} {Inv : σ → Prop}
    (hstep : ∀ s s', Inv s → step s s' → Inv s') {s₀ s : σ}
    (h₀ : Inv s₀) (h : Run step s₀ s) : Inv s := by
  induction h with
  | refl => exact h₀
  | tail _ hs ih => exact hstep _ _ ih hs

/-- **Forward simulation.**  Runs follow runs of another step relation if single steps do. -/
theorem Run.simulated {τ : Type*} {step : σ → σ → Prop} {step' : τ → τ → Prop}
    {Sim : σ → τ → Prop}
    (hstep : ∀ s s' t, Sim s t → step s s' → ∃ t', Run step' t t' ∧ Sim s' t') {s₀ s : σ} {t₀ : τ}
    (h₀ : Sim s₀ t₀) (h : Run step s₀ s) : ∃ t, Run step' t₀ t ∧ Sim s t := by
  induction h with
  | refl => exact ⟨t₀, .refl, h₀⟩
  | tail _ hs ih =>
    obtain ⟨t, ht, hsim⟩ := ih
    obtain ⟨t', ht', hsim'⟩ := hstep _ _ t hsim hs
    exact ⟨t', ht.trans ht', hsim'⟩

/-- Every run from `s` ends. -/
def Terminates (step : σ → σ → Prop) (s : σ) : Prop := Acc (fun a b => step b a) s

/-- A run that ends stops somewhere. -/
theorem Terminates.exists_stuck {step : σ → σ → Prop} {s : σ} (h : Terminates step s) :
    ∃ s', Run step s s' ∧ ∀ s'', ¬ step s' s'' := by
  induction h with
  | intro s _ ih =>
      by_cases hstuck : ∀ s'', ¬ step s s''
      · exact ⟨s, .refl, hstuck⟩
      · push Not at hstuck
        obtain ⟨s'', hs⟩ := hstuck
        obtain ⟨s', hrun, hlast⟩ := ih s'' hs
        exact ⟨s', .head hs hrun, hlast⟩

/-- Runs end if every step that keeps the invariant decreases a number. -/
theorem Terminates.of_measure {step : σ → σ → Prop} {Inv : σ → Prop} (f : σ → ℕ)
    (hstep : ∀ s s', Inv s → step s s' → Inv s' ∧ f s' < f s) {s : σ} (h : Inv s) :
    Terminates step s := by
  induction hn : f s using Nat.strongRecOn generalizing s with
  | _ n ih =>
      refine ⟨s, fun s' hs => ?_⟩
      obtain ⟨h', hlt⟩ := hstep s s' h hs
      exact ih (f s') (hn ▸ hlt) h' rfl

/-! ### Loops -/

section Loops

variable {f : σ → Option σ} {a a' b : σ}

/-- The exit of a loop. -/
theorem mem_eval_self (h : f a = none) : a ∈ StateTransition.eval f a :=
  StateTransition.mem_eval.mpr ⟨.refl, h⟩

/-- A loop ends with what it ends with after its first round. -/
theorem eval_of_round (h : f a = some a') :
    StateTransition.eval f a = StateTransition.eval f a' :=
  StateTransition.reaches_eval (.single h)

/-- A loop does not end while an invariant keeps it from its exit. -/
theorem not_mem_eval_of_invariant {Inv : σ → Prop}
    (hround : ∀ a, Inv a → ∃ a', f a = some a' ∧ Inv a') (h : Inv a) :
    b ∉ StateTransition.eval f a := by
  intro hb
  obtain ⟨hrun, hexit⟩ := StateTransition.mem_eval.mp hb
  have hInv : Inv b := by
    refine Run.invariant (fun s s' hs hstep => ?_) h hrun
    obtain ⟨a', ha', hInv'⟩ := hround s hs
    rwa [Option.mem_unique hstep ha']
  obtain ⟨b', hb', -⟩ := hround b hInv
  rw [hexit] at hb'
  cases hb'

end Loops

end Rock
