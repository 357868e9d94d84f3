/-
Rock/Spinlock.lean

Threads that share stores under spinlocks.

Each lock `l` guards a store of its own.  A thread is either between its critical sections, where
it may act on the unguarded part of the state, or inside one, where it makes its accesses to the
guarded store one by one while the other threads go on.  `Client` says what a thread may do next
from its local state, so the threads may be any mixture of callers.

`Fine` is this machine and `Coarse` the one in which a critical section is a single step.
`Fine.simulated` is the reduction: whatever the threads do at the level of accesses, they do at
the level of whole critical sections, in the order in which they leave them.  So what holds of
all runs of whole calls holds at the level of accesses.

A critical section that comes to its end does so by the steps of its own thread
(`Fine.leaves_of_run`): nobody waits for ever for a lock.
-/
import Rock.Stepwise

namespace Rock

variable {T L G Q : Type} {S : L → Type}

/-- What the threads do: `plain q g q' g'` is a step between critical sections, on the unguarded
state; `call q l body` is a critical section of the lock `l`, after which the local state is what
`body` returns. -/
structure Client (L : Type) (S : L → Type) (G Q : Type) where
  plain : Q → G → Q → G → Prop
  call : Q → (l : L) → Prog (S l) Q → Prop

/-! ### The two machines -/

/-- Where a thread is.  Inside a critical section, `q` are its variables from before, and `rest`
is what it has left to do. -/
inductive Place (S : L → Type) (Q : Type) where
  | out (q : Q)
  | inside (q : Q) (l : L) (rest : Prog (S l) Q)

/-- The local state, as of the last time outside. -/
def Place.vars : Place S Q → Q
  | out q => q
  | inside q _ _ => q

/-- The machine at the level of accesses. -/
structure Fine (T : Type) (S : L → Type) (G Q : Type) where
  owner : L → Option T
  guarded : ∀ l, S l
  shared : G
  place : T → Place S Q

/-- The machine at the level of critical sections. -/
structure Coarse (T : Type) (S : L → Type) (G Q : Type) where
  guarded : ∀ l, S l
  shared : G
  here : T → Q

variable [DecidableEq T] [DecidableEq L]

/-- A step of one thread.  `enter` is the end of `spinlock` and `leave` is `spinrelease`; a
thread that still spins makes no step. -/
inductive Fine.Step (C : Client L S G Q) : Fine T S G Q → Fine T S G Q → Prop
  | plain {c : Fine T S G Q} {i : T} {q q' : Q} {g' : G} :
      c.place i = .out q → C.plain q c.shared q' g' →
      Step C c { c with shared := g', place := Function.update c.place i (.out q') }
  | enter {c : Fine T S G Q} {i : T} {q : Q} {l : L} {body : Prog (S l) Q} :
      c.place i = .out q → C.call q l body → c.owner l = none →
      Step C c { c with
        owner := Function.update c.owner l (some i)
        place := Function.update c.place i (.inside q l body) }
  | access {c : Fine T S G Q} {i : T} {q : Q} {l : L} {f : S l → S l}
      {k : S l → Prog (S l) Q} :
      c.place i = .inside q l (.act f k) →
      Step C c { c with
        guarded := Function.update c.guarded l (f (c.guarded l))
        place := Function.update c.place i (.inside q l (k (c.guarded l))) }
  | leave {c : Fine T S G Q} {i : T} {q q' : Q} {l : L} :
      c.place i = .inside q l (.ret q') →
      Step C c { c with
        owner := Function.update c.owner l none
        place := Function.update c.place i (.out q') }

/-- A step of one thread: a critical section is one step. -/
inductive Coarse.Step (C : Client L S G Q) : Coarse T S G Q → Coarse T S G Q → Prop
  | plain {d : Coarse T S G Q} {i : T} {q' : Q} {g' : G} :
      C.plain (d.here i) d.shared q' g' →
      Step C d { d with shared := g', here := Function.update d.here i q' }
  | call {d : Coarse T S G Q} {i : T} {q' : Q} {l : L} {body : Prog (S l) Q} {s' : S l} :
      C.call (d.here i) l body → body.run (d.guarded l) = .ok (q', s') →
      Step C d { d with
        guarded := Function.update d.guarded l s'
        here := Function.update d.here i q' }

/-! ### Reduction -/

/-- The machine of accesses follows the machine of critical sections.  A thread inside has done a
part of a body that the other machine has yet to do as a whole, and the two parts have the same
outcome. -/
structure Fine.Follows (C : Client L S G Q) (c : Fine T S G Q) (d : Coarse T S G Q) : Prop where
  shared : c.shared = d.shared
  here : ∀ i, (c.place i).vars = d.here i
  free : ∀ l, c.owner l = none → c.guarded l = d.guarded l
  inside : ∀ i q l rest, c.place i = .inside q l rest → c.owner l = some i ∧
    ∃ body, C.call q l body ∧ body.run (d.guarded l) = rest.run (c.guarded l)

namespace Fine

variable {C : Client L S G Q} {c c' : Fine T S G Q} {d : Coarse T S G Q}

/-- The state of whole calls that has the same stores, when all locks are free. -/
def idle (guarded : ∀ l, S l) (shared : G) (here : T → Q) : Fine T S G Q where
  owner _ := none
  guarded := guarded
  shared := shared
  place i := .out (here i)

omit [DecidableEq T] [DecidableEq L] in
theorem Follows.idle (guarded : ∀ l, S l) (shared : G) (here : T → Q) :
    (Fine.idle guarded shared here).Follows C ⟨guarded, shared, here⟩ where
  shared := rfl
  here _ := rfl
  free _ _ := rfl
  inside _ _ _ _ h := nomatch h

omit [DecidableEq T] [DecidableEq L] in
theorem Follows.here_of_out (h : c.Follows C d) {i : T} {q : Q} (hi : c.place i = .out q) :
    d.here i = q := by
  rw [← h.here i, hi, Place.vars]

omit [DecidableEq T] [DecidableEq L] in
theorem Follows.here_of_inside (h : c.Follows C d) {i : T} {q : Q} {l : L}
    {rest : Prog (S l) Q} (hi : c.place i = .inside q l rest) : d.here i = q := by
  rw [← h.here i, hi, Place.vars]

omit [DecidableEq T] [DecidableEq L] in
/-- **Mutual exclusion.** -/
theorem Follows.exclusive (h : c.Follows C d) {i j : T} {q q' : Q} {l : L}
    {rest rest' : Prog (S l) Q} (hi : c.place i = .inside q l rest)
    (hj : c.place j = .inside q' l rest') : i = j :=
  Option.some.inj ((h.inside i q l rest hi).1.symm.trans (h.inside j q' l rest' hj).1)

theorem Follows.plain (h : c.Follows C d) {i : T} {q q' : Q} {g' : G}
    (hi : c.place i = .out q) (hp : C.plain q c.shared q' g') :
    ∃ d', Coarse.Step C d d' ∧
      Follows C { c with shared := g', place := Function.update c.place i (.out q') } d' := by
  have hd : C.plain (d.here i) d.shared q' g' := by
    rw [h.here_of_out hi, ← h.shared]
    exact hp
  refine ⟨_, .plain hd, rfl, ?_, h.free, ?_⟩
  · intro j
    rcases eq_or_ne j i with rfl | hj
    · simp [Place.vars]
    · simpa [hj] using h.here j
  · intro j q₁ l rest hin
    rcases eq_or_ne j i with rfl | hj
    · simp at hin
    · exact h.inside j q₁ l rest (by simpa [hj] using hin)

theorem Follows.enter (h : c.Follows C d) {i : T} {q : Q} {l : L} {body : Prog (S l) Q}
    (hi : c.place i = .out q) (hb : C.call q l body) (hl : c.owner l = none) :
    Follows C
      { c with
        owner := Function.update c.owner l (some i)
        place := Function.update c.place i (.inside q l body) } d := by
  refine ⟨h.shared, ?_, ?_, ?_⟩
  · intro j
    rcases eq_or_ne j i with rfl | hj
    · simpa [Place.vars] using (h.here_of_out hi).symm
    · simpa [hj] using h.here j
  · intro l' hl'
    rcases eq_or_ne l' l with rfl | hne
    · simp at hl'
    · exact h.free l' (by simpa [hne] using hl')
  · intro j q₁ l' rest hin
    rcases eq_or_ne j i with rfl | hj
    · -- the thread that enters has the whole body before it, and the lock was free
      simp only [Function.update_self, Place.inside.injEq] at hin
      obtain ⟨rfl, rfl, hrest⟩ := hin
      obtain rfl := eq_of_heq hrest
      exact ⟨by simp, body, hb, by rw [h.free l hl]⟩
    · obtain ⟨ho, hrun⟩ := h.inside j q₁ l' rest (by simpa [hj] using hin)
      have hne : l' ≠ l := by
        rintro rfl
        simp [hl] at ho
      exact ⟨by simpa [hne] using ho, hrun⟩

theorem Follows.access (h : c.Follows C d) {i : T} {q : Q} {l : L} {f : S l → S l}
    {k : S l → Prog (S l) Q} (hi : c.place i = .inside q l (.act f k)) :
    Follows C
      { c with
        guarded := Function.update c.guarded l (f (c.guarded l))
        place := Function.update c.place i (.inside q l (k (c.guarded l))) } d := by
  obtain ⟨howner, body, hb, hrun⟩ := h.inside i q l _ hi
  refine ⟨h.shared, ?_, ?_, ?_⟩
  · intro j
    rcases eq_or_ne j i with rfl | hj
    · simpa [Place.vars] using (h.here_of_inside hi).symm
    · simpa [hj] using h.here j
  · intro l' hl'
    have hne : l' ≠ l := by
      rintro rfl
      exact nomatch howner.symm.trans hl'
    simpa [hne] using h.free l' hl'
  · intro j q₁ l' rest hin
    rcases eq_or_ne j i with rfl | hj
    · -- one access later the rest still has the outcome of the whole body
      simp only [Function.update_self, Place.inside.injEq] at hin
      obtain ⟨rfl, rfl, hrest⟩ := hin
      obtain rfl := eq_of_heq hrest
      refine ⟨howner, body, hb, ?_⟩
      simpa using hrun
    · obtain ⟨ho, body', hb', hrun'⟩ := h.inside j q₁ l' rest (by simpa [hj] using hin)
      have hne : l' ≠ l := by
        rintro rfl
        exact hj (Option.some.inj (ho.symm.trans howner))
      exact ⟨ho, body', hb', by simpa [hne] using hrun'⟩

theorem Follows.leave (h : c.Follows C d) {i : T} {q q' : Q} {l : L}
    (hi : c.place i = .inside q l (.ret q')) :
    ∃ d', Coarse.Step C d d' ∧
      Follows C
        { c with
          owner := Function.update c.owner l none
          place := Function.update c.place i (.out q') } d' := by
  obtain ⟨howner, body, hb, hrun⟩ := h.inside i q l _ hi
  rw [← h.here_of_inside hi] at hb
  refine ⟨_, .call hb hrun, h.shared, ?_, ?_, ?_⟩
  · intro j
    rcases eq_or_ne j i with rfl | hj
    · simp [Place.vars]
    · simpa [hj] using h.here j
  · intro l' hl'
    rcases eq_or_ne l' l with rfl | hne
    · simp
    · simpa [hne] using h.free l' (by simpa [hne] using hl')
  · intro j q₁ l' rest hin
    rcases eq_or_ne j i with rfl | hj
    · simp at hin
    · obtain ⟨ho, body', hb', hrun'⟩ := h.inside j q₁ l' rest (by simpa [hj] using hin)
      have hne : l' ≠ l := by
        rintro rfl
        exact hj (Option.some.inj (ho.symm.trans howner))
      exact ⟨by simpa [hne] using ho, body', hb', by simpa [hne] using hrun'⟩

theorem Follows.step (h : c.Follows C d) (hs : Step C c c') :
    ∃ d', Run (Coarse.Step C) d d' ∧ c'.Follows C d' := by
  cases hs with
  | plain hi hp =>
    obtain ⟨d', hd, hf⟩ := h.plain hi hp
    exact ⟨d', .single hd, hf⟩
  | enter hi hb hl => exact ⟨d, .refl, h.enter hi hb hl⟩
  | access hi => exact ⟨d, .refl, h.access hi⟩
  | leave hi =>
    obtain ⟨d', hd, hf⟩ := h.leave hi
    exact ⟨d', .single hd, hf⟩

/-- **Reduction.**  Every run of accesses follows a run of whole critical sections. -/
theorem simulated (h : c.Follows C d) (hr : Run (Step C) c c') :
    ∃ d', Run (Coarse.Step C) d d' ∧ c'.Follows C d' := by
  have hstep : ∀ (c c' : Fine T S G Q) (d : Coarse T S G Q), c.Follows C d → Step C c c' →
      ∃ d', Run (Coarse.Step C) d d' ∧ c'.Follows C d' := fun _ _ _ hf hs => hf.step hs
  exact Run.simulated hstep h hr

/-! ### Coming to an end -/

/-- The steps one thread makes until its critical section is over; nobody else moves. -/
theorem leaves_of_run {i : T} {q q' : Q} {l : L} {s' : S l} {rest : Prog (S l) Q} :
    ∀ {c : Fine T S G Q}, c.place i = .inside q l rest →
      rest.run (c.guarded l) = .ok (q', s') →
      Run (Step C) c
        { c with
          owner := Function.update c.owner l none
          guarded := Function.update c.guarded l s'
          place := Function.update c.place i (.out q') } := by
  induction rest with
  | ret a =>
    intro c hi hrun
    obtain ⟨rfl, rfl⟩ := Prod.mk.inj (Except.ok.inj hrun)
    simpa using Relation.ReflTransGen.single (Step.leave (C := C) hi)
  | fail e =>
    intro c _ hrun
    exact nomatch hrun
  | act f k ih =>
    intro c hi hrun
    refine .head (.access hi) ?_
    have hrest := ih (c.guarded l)
      (c := { c with
        guarded := Function.update c.guarded l (f (c.guarded l))
        place := Function.update c.place i (.inside q l (k (c.guarded l))) })
      (by simp) (by simpa using hrun)
    simpa using hrest

end Fine

end Rock
