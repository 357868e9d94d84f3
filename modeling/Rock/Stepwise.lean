/-
Rock/Stepwise.lean

Code at the level of single accesses to a shared store.

A `Prog` is the rest of an execution: it has returned, it has stopped with a fault, or it makes
one more access, which replaces the store and goes on by what it has seen.  `run` executes it
without interruption.  Code is written in the monad, with `Prog.one` for one access that may
fault; `run_bind` and `run_one` say that an uninterrupted execution is the execution in `Exec`.

Somebody who takes no lock may look at the store between any two accesses.  `Prog.Traced` says
that every access is a step of a given kind, and `Prog.Switches` that the code first makes
accesses of one kind and then at most one of another.  Both are proved along the code, by the
rules for `>>=` and for a single access.
-/
import Rock.Exec

namespace Rock

/-- The rest of an execution over the store `σ`.  `act f k` makes one access: the store `s`
becomes `f s`, and `k s` is what follows. -/
inductive Prog (σ α : Type) where
  | ret (a : α)
  | fail (e : Fault)
  | act (f : σ → σ) (k : σ → Prog σ α)

namespace Prog

variable {σ α β : Type}

/-! ### The monad -/

protected def bind : Prog σ α → (α → Prog σ β) → Prog σ β
  | ret a, g => g a
  | fail e, _ => fail e
  | act f k, g => act f fun s => (k s).bind g

instance : Monad (Prog σ) where
  pure := ret
  bind := Prog.bind

/-- One access, which may fault. -/
def one (f : σ → Exec (α × σ)) : Prog σ α :=
  act
    (fun s => match f s with
      | .ok (_, s') => s'
      | .error _ => s)
    (fun s => match f s with
      | .ok (a, _) => ret a
      | .error e => fail e)

/-- One access that only looks. -/
def load (f : σ → α) : Prog σ α := one fun s => .ok (f s, s)

/-- One access that only writes. -/
def store (f : σ → σ) : Prog σ Unit := one fun s => .ok ((), f s)

/-! ### Without interruption -/

/-- The whole execution, with nobody else in between. -/
def run : Prog σ α → σ → Exec (α × σ)
  | ret a, s => .ok (a, s)
  | fail e, _ => .error e
  | act f k, s => run (k s) (f s)

@[simp] theorem run_pure (a : α) (s : σ) : run (pure a : Prog σ α) s = .ok (a, s) := rfl

@[simp] theorem run_act (f : σ → σ) (k : σ → Prog σ α) (s : σ) :
    run (act f k) s = run (k s) (f s) := rfl

@[simp] theorem run_bind (p : Prog σ α) (g : α → Prog σ β) (s : σ) :
    run (p >>= g) s = run p s >>= fun r => run (g r.1) r.2 := by
  induction p generalizing s with
  | ret a => rfl
  | fail e => rfl
  | act f k ih => exact ih s (f s)

@[simp] theorem run_one (f : σ → Exec (α × σ)) (s : σ) : run (one f) s = f s := by
  rw [one, run]
  rcases f s with e | ⟨a, s'⟩ <;> rfl

@[simp] theorem run_load (f : σ → α) (s : σ) : run (load f) s = .ok (f s, s) := run_one _ s

@[simp] theorem run_store (f : σ → σ) (s : σ) : run (store f) s = .ok ((), f s) := run_one _ s

@[simp] theorem run_ite (c : Prop) [Decidable c] (p q : Prog σ α) (s : σ) :
    run (if c then p else q) s = if c then run p s else run q s := by
  split_ifs <;> rfl

/-! ### What happens on the way -/

/-- Every access is a step of `R`, and where the code returns, `Q` holds. -/
def Traced (R : σ → σ → Prop) (Q : α → σ → Prop) : Prog σ α → σ → Prop
  | ret a, s => Q a s
  | fail _, _ => True
  | act f k, s => R s (f s) ∧ Traced R Q (k s) (f s)

theorem Traced.bind {R : σ → σ → Prop} {Q : β → σ → Prop} {p : Prog σ α} {g : α → Prog σ β}
    {s : σ} (h : Traced R (fun a s' => Traced R Q (g a) s') p s) : Traced R Q (p >>= g) s := by
  induction p generalizing s with
  | ret a => exact h
  | fail e => trivial
  | act f k ih => exact ⟨h.1, ih s h.2⟩

theorem Traced.mono {R : σ → σ → Prop} {Q Q' : α → σ → Prop} {p : Prog σ α} {s : σ}
    (h : Traced R Q p s) (hQ : ∀ a s', Q a s' → Q' a s') : Traced R Q' p s := by
  induction p generalizing s with
  | ret a => exact hQ a s h
  | fail e => trivial
  | act f k ih => exact ⟨h.1, ih s h.2⟩

/-- One access that does not fault. -/
theorem Traced.one {R : σ → σ → Prop} {Q : α → σ → Prop} {f : σ → Exec (α × σ)} {s : σ}
    (hR : ∀ a s', f s = .ok (a, s') → R s s' ∧ Q a s') (hrefl : R s s) :
    Traced R Q (Prog.one f) s := by
  rcases hf : f s with e | ⟨a, s'⟩
  · simp [Prog.one, Traced, hf, hrefl]
  · simpa [Prog.one, Traced, hf] using hR a s' hf

theorem Traced.load {R : σ → σ → Prop} {Q : α → σ → Prop} {f : σ → α} {s : σ}
    (hrefl : R s s) (hQ : Q (f s) s) : Traced R Q (Prog.load f) s :=
  ⟨hrefl, hQ⟩

theorem Traced.store {R : σ → σ → Prop} {Q : Unit → σ → Prop} {f : σ → σ} {s : σ}
    (hR : R s (f s)) (hQ : Q () (f s)) : Traced R Q (Prog.store f) s :=
  ⟨hR, hQ⟩

/-- Steps of `quiet`, and then at most one step of `switch`, which is the last. -/
inductive Switches (quiet switch : σ → σ → Prop) : Prog σ α → σ → Prop
  | ret {a : α} {s : σ} : Switches quiet switch (.ret a) s
  | fail {e : Fault} {s : σ} : Switches quiet switch (.fail e) s
  | quiet {f : σ → σ} {k : σ → Prog σ α} {s : σ} :
      quiet s (f s) → Switches quiet switch (k s) (f s) → Switches quiet switch (.act f k) s
  | switch {f : σ → σ} {k : σ → Prog σ α} {s : σ} {a : α} :
      switch s (f s) → k s = .ret a → Switches quiet switch (.act f k) s

theorem Traced.switches {quiet switch : σ → σ → Prop} {p : Prog σ α} {g : α → Prog σ β}
    {s : σ} (h : Traced quiet (fun a s' => Switches quiet switch (g a) s') p s) :
    Switches quiet switch (p >>= g) s := by
  induction p generalizing s with
  | ret a => exact h
  | fail e => exact .fail
  | act f k ih => exact .quiet h.1 (ih s h.2)

theorem Switches.load {quiet switch : σ → σ → Prop} {f : σ → α} {g : α → Prog σ β} {s : σ}
    (hrefl : quiet s s) (h : Switches quiet switch (g (f s)) s) :
    Switches quiet switch (Prog.load f >>= g) s :=
  .quiet hrefl h

/-- Code that drops its result. -/
theorem Switches.thenPure {quiet switch : σ → σ → Prop} {p : Prog σ α} {s : σ} {b : β}
    (h : Switches quiet switch p s) : Switches quiet switch (p >>= fun _ => pure b) s := by
  induction h with
  | ret => exact .ret
  | fail => exact .fail
  | quiet hq _ ih => exact .quiet hq ih
  | @switch f k s a hs hk =>
    refine .switch (a := b) hs ?_
    show (k s).bind _ = _
    rw [hk]
    rfl

/-- The code does one last store. -/
theorem Switches.store {quiet switch : σ → σ → Prop} {f : σ → σ} {s : σ} (a : α)
    (h : switch s (f s)) :
    Switches quiet switch (Prog.store f >>= fun _ => pure a) s :=
  .switch h rfl

end Prog

end Rock
