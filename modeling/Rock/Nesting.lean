/-
Rock/Nesting.lean

Handlers on top of handlers: `notification_dispatch`, `reschedule` and
`notification_return` over whole runs.

What a context should be is a stack of flows, its main flow at the bottom and one
handler on top of the other (`Flows`): an interrupt stores the frame of the flow on top,
a dispatch puts a handler on top, and a return takes it off and resumes the flow below.
`Represents` says how a `struct context` stands for such a stack, and every step keeps it
(`Represents.dispatch`, `Represents.saveFrame`, `Represents.mark`, `Represents.clear`,
`Represents.finish`).

The code does not have the bookkeeping for two handlers of one context: a stack is never
marked active, and `notification_return` resumes the main flow whatever was interrupted.
That is never reached.  `notification_dispatch` keeps the lock of the queue once it has
found a `ucontext`, and a second dispatch on the context does not return as long as the
queue is not muted (`Represents.dispatch_hangs`).  A call of `reschedule` that does not
return is a step to a state that has failed, so that this counts against the code.

The one handler can go wrong in two more ways.  If it is started by the switch that
interrupts its own context, the interrupted frame of the main flow is stored over the frame
of the handler, and a return resumes the main flow where it was interrupted before
(`nested_return_stale`).  And a switch inside `notification_return`, after `ucontext` was
cleared, stores the frame of the system call over that of the main flow.  Main result:
without these three (`Orderly`) no dispatch fails, the stacks are distinct, every return
resumes what was interrupted, and nothing stays active (`nested_unwind`).
-/
import Rock.NotificationCalls
import Rock.Scheduler

namespace Rock

/-! ### A stack of flows -/

/-- An active handler: its stack, counted from the one that was defined first, and its
frame at its last interruption. -/
structure Handler where
  stack : ℕ
  frame : Registers
  deriving DecidableEq

/-- The flows of a context: the frame of the main flow at its last interruption, and the
active handlers, the newest first. -/
structure Flows where
  main : Registers
  handlers : List Handler

namespace Flows

/-- The flow on top is interrupted with the frame `regs`. -/
def interrupt (f : Flows) (regs : Registers) : Flows :=
  match f.handlers with
  | [] => { f with main := regs }
  | h :: hs => { f with handlers := { h with frame := regs } :: hs }

/-- A handler is started on the stack `stack`, if a frame was built for it. -/
def start (f : Flows) (stack : ℕ) (built : Option Registers) : Flows :=
  { f with handlers := (built.map fun frame => ⟨stack, frame⟩).toList ++ f.handlers }

/-- The handler on top returns. -/
def finish (f : Flows) : Flows := { f with handlers := f.handlers.tail }

/-- The frame of the flow that the handler on top has interrupted. -/
def interrupted (f : Flows) : Registers :=
  match f.handlers with
  | _ :: h :: _ => h.frame
  | _ => f.main

@[simp] theorem start_none (f : Flows) (stack : ℕ) : f.start stack none = f := rfl

end Flows

/-- The stack a handler gets: the first one in the list that is not active.  New stacks
are put in front of the list. -/
def freeStack (us : List Ustack) : ℕ := us.length - 1 - us.findIdx fun s => !s.active

/-! ### Runs -/

/-- A core with the flows of every context and its calls of `notification_return`, for every
return of a handler the frame that had to be resumed and the one that was, and whether a
call of `reschedule` has failed to return. -/
structure NestState where
  core : Core
  flows : ℕ → Flows
  phase : ℕ → Returning
  returns : List (Registers × Registers)
  failed : Bool

namespace NestState

/-- The running flow is interrupted with the frame `regs`. -/
def interrupt (s : NestState) (regs : Registers) : ℕ → Flows :=
  match s.core.current with
  | some cur => Function.update s.flows cur ((s.flows cur).interrupt regs)
  | none => s.flows

/-- The flows after a switch: the running one was interrupted, and a handler of the next
context may have been started. -/
def switch (s : NestState) (regs : Registers) (r : Resumed) : ℕ → Flows :=
  Function.update (s.interrupt regs) r.ctx
    ((s.interrupt regs r.ctx).start (freeStack (s.core.contexts r.ctx).ustacks) r.built)

end NestState

/-- What other code may do to a context: change its queue, but not release the lock, and
define stacks. -/
structure Context.Extends (c c' : Context) : Prop where
  regs : c'.regs = c.regs
  ucontexts : c'.ucontexts = c.ucontexts
  ucontext : c'.ucontext = c.ucontext
  ustacks : ∃ new, c'.ustacks = new ++ c.ustacks ∧ ∀ s ∈ new, s.active = false
  locked : (∀ q ∈ c.queue, q.lock = true) → ∀ q ∈ c'.queue, q.lock = true

namespace NestState

/-- The steps of a core, where `reschedule` is called in states that are `Allowed`. -/
inductive Step (Allowed : NestState → Prop) : NestState → NestState → Prop
  | switch {s : NestState} {r : Resumed} {k' : Core} (regs : Registers) :
      Allowed s → reschedule s.core regs = .ok (some r, k') →
      Step Allowed s ⟨k', s.switch regs r, restart s.phase r, s.returns, s.failed⟩
  | idle {s : NestState} {k' : Core} (regs : Registers) :
      reschedule s.core regs = .ok (none, k') → Step Allowed s { s with core := k' }
  | fail {s : NestState} {e : Fault} (regs : Registers) :
      Allowed s → reschedule s.core regs = .error e → Step Allowed s { s with failed := true }
  | store {s : NestState} {k' : Core} {phase' : ℕ → Returning} :
      s.core.Stores s.phase k' phase' → Step Allowed s { s with core := k', phase := phase' }
  -- the end of `notification_return`
  | leave {s : NestState} (cur : ℕ) :
      s.core.current = some cur → s.phase cur = .cleared →
      Step Allowed s
        { s with
          flows := Function.update s.flows cur (s.flows cur).finish
          phase := Function.update s.phase cur .no
          returns := s.returns ++ if (s.flows cur).handlers = [] then []
            else [((s.flows cur).interrupted, (s.core.contexts cur).regs)] }
  | other {s : NestState} {k' : Core} :
      k'.current = s.core.current → (∀ c, (s.core.contexts c).Extends (k'.contexts c)) →
      Step Allowed s { s with core := k' }

end NestState

/-- **A dispatch on the context returns**: its queue is muted, or the lock is free and the
number that is taken has one notification in its list. -/
def Context.Dispatchable (c : Context) : Prop :=
  ∀ q ∈ c.queue, q.active = true → q.lock = false ∧ ∀ i ∈ q.nextPending,
    ∃ head, q.queue i = some head ∧ (q.notes.getD head default).next = none

namespace NestState

/-- **The condition on a call of `reschedule`**: it does not interrupt a
`notification_return` that has cleared `ucontext`, the dispatch on the chosen context
returns, and it starts no handler of the context that is interrupted. -/
structure Orderly (s : NestState) : Prop where
  outside : ∀ cur, s.core.current = some cur → s.phase cur ≠ .cleared
  returns : ∀ next k, s.core.chooseNext = some (next, k) → (s.core.contexts next).Dispatchable
  elsewhere : ∀ next k, s.core.chooseNext = some (next, k) → s.core.current = some next →
    ¬ (s.core.contexts next).StartsHandler

/-- A state to start from: no handler is active. -/
structure Initial (s : NestState) : Prop where
  flows : ∀ c, s.flows c = ⟨(s.core.contexts c).regs, []⟩
  ucontext : ∀ c, (s.core.contexts c).ucontext = none
  ucontexts : ∀ c, ∀ u ∈ (s.core.contexts c).ucontexts, u.active = false
  ustacks : ∀ c, ∀ st ∈ (s.core.contexts c).ustacks, st.active = false
  phase : ∀ c, s.phase c = .no
  returns : s.returns = []
  live : s.failed = false

/-- **Handlers unwind**: active handlers of a context have different stacks, every return
has resumed the flow that was interrupted, nothing is active without a handler, and every
dispatch has returned. -/
structure Unwinds (s : NestState) : Prop where
  distinct : ∀ c, ((s.flows c).handlers.map Handler.stack).Nodup
  returns : ∀ e ∈ s.returns, e.2 = e.1
  clean : ∀ c, (s.flows c).handlers = [] →
    (∀ u ∈ (s.core.contexts c).ucontexts, u.active = false) ∧
      ∀ st ∈ (s.core.contexts c).ustacks, st.active = false
  live : s.failed = false

end NestState

/-! ### What a dispatch does to the flows -/

/-- `get_ucontext` finds no active one, and a new one is not active. -/
theorem getUcontext_active {us : List Ucontext} {i : ℕ} {x : Ucontext}
    (h : (getUcontext us).2[i]? = some x) (hactive : x.active = true) : us[i]? = some x := by
  unfold getUcontext at h
  rcases hfind : us.findIdx? fun u => !u.active with - | j
  · simp only [hfind, List.getElem?_append] at h
    split_ifs at h with hlt
    · exact h
    · -- the new one
      have hnew := List.mem_singleton.mp (List.mem_of_getElem? h)
      rw [hnew] at hactive
      cases hactive
  · simpa only [hfind] using h

/-- What a dispatch does to the flows of a context: no handler is started, or one is, on a
queue that was not locked and is now. -/
structure Dispatched.FlowsOf (r : Dispatched) (c : Context) : Prop where
  regs : r.ctx.regs = c.regs
  ustacks : r.ctx.ustacks = c.ustacks
  active : ∀ i x, r.ctx.ucontexts[i]? = some x → x.active = true →
    c.ucontexts[i]? = some x ∨ r.handed.isSome ∧ r.ctx.ucontext = some i
  flow : (r.handed = none ∧ r.ctx.ucontext = c.ucontext ∧
      ((∀ q ∈ c.queue, q.lock = true) → ∀ q ∈ r.ctx.queue, q.lock = true)) ∨
    (r.handed.isSome ∧ r.ctx.ucontext.isSome ∧ (∃ q ∈ c.queue, q.lock = false) ∧
      ∀ q ∈ r.ctx.queue, q.lock = true)

theorem notificationDispatch_flows {c : Context} {r : Dispatched}
    (h : notificationDispatch c = .ok r) : r.FlowsOf c := by
  rcases notificationDispatch_cases h with rfl | ⟨q, hq, hlock, -, h⟩
  · exact ⟨rfl, rfl, fun i x hx _ => .inl hx, .inl ⟨rfl, rfl, id⟩⟩
  rcases dispatchFrom_cases h with ⟨q', -, rfl⟩ | ⟨i, id, q', stack, hpop, -, rfl⟩
  · refine ⟨rfl, rfl, fun j x hx hactive => .inl (getUcontext_active hx hactive),
      .inl ⟨rfl, rfl, ?_⟩⟩
    intro hlocked
    cases hlock.symm.trans (hlocked q hq)
  · have hlocked : q'.lock = true := (NotificationQueue.pop_spec hpop).2.2
    refine ⟨rfl, rfl, fun j x hx hactive => ?_, .inr ⟨rfl, rfl, ⟨q, hq, hlock⟩, ?_⟩⟩
    · simp only [startHandler, List.getElem?_set] at hx
      split_ifs at hx with hj
      · exact .inr ⟨rfl, congrArg some hj⟩
      · exact .inl (getUcontext_active hx hactive)
    · rintro x hx
      obtain rfl := Option.some.inj hx
      exact hlocked

/-- The loop returns if the number that it takes has one notification. -/
theorem dispatchFrom_returns {c : Context} {q : NotificationQueue} {u : ℕ}
    {is : List (Fin notificationMax)}
    (h : ∀ i ∈ is.find? q.deliverable,
      ∃ head, q.queue i = some head ∧ (q.notes.getD head default).next = none) :
    ∃ d, dispatchFrom c q u is = .ok d := by
  induction is with
  | nil => exact ⟨_, rfl⟩
  | cons i is ih =>
      rw [dispatchFrom]
      by_cases hi : q.deliverable i = true
      · have htake : ¬ (!q.isPending (i.val + 1) || q.isMasked (i.val + 1)) = true := by
          simpa [NotificationQueue.deliverable] using hi
        obtain ⟨head, hhead, hlast⟩ := h i (List.find?_cons_of_pos hi)
        rw [if_neg htake, NotificationQueue.pop]
        simp only [hhead, hlast, Option.isSome_none, Bool.false_eq_true, if_false]
        split <;> · rw [Exec.ok_bind]
                    dsimp only
                    split <;> exact ⟨_, rfl⟩
      · have hskip : (!q.isPending (i.val + 1) || q.isMasked (i.val + 1)) = true := by
          simpa [NotificationQueue.deliverable, imp_iff_not_or] using hi
        rw [if_pos hskip]
        rw [List.find?_cons_of_neg hi] at h
        exact ih h

theorem Context.Dispatchable.returns {c : Context} (h : c.Dispatchable) :
    ∃ d, notificationDispatch c = .ok d := by
  unfold notificationDispatch
  rcases hq : c.queue with - | q
  · exact ⟨_, rfl⟩
  dsimp only
  by_cases hactive : q.active = true
  · obtain ⟨hlock, hnext⟩ := h q hq hactive
    simp only [hactive, hlock, Bool.not_true, Bool.false_eq_true, if_false]
    split_ifs
    · exact ⟨_, rfl⟩
    · exact dispatchFrom_returns hnext
  · rw [if_pos (by simpa using hactive)]
    exact ⟨_, rfl⟩

/-! ### Contexts stand for stacks of flows -/

/-- The context stands for the flows, where its call of `notification_return` has come to
`p`: at most one handler is active, and while it is the queue is locked. -/
structure Represents (c : Context) (f : Flows) (p : Returning) : Prop where
  main : c.regs = f.main
  ustacks : ∀ s ∈ c.ustacks, s.active = false
  active : ∀ i x, c.ucontexts[i]? = some x → x.active = true → p = .no ∧ c.ucontext = some i
  flow : (f.handlers = [] ∧ c.ucontext = none) ∨
    (∃ h, f.handlers = [h]) ∧ (c.ucontext.isSome ↔ p ≠ .cleared) ∧ ∀ q ∈ c.queue, q.lock = true

namespace Represents

variable {c c' : Context} {f : Flows} {p : Returning}

/-- **No handler is started on top of another**: the dispatch would have to take a lock
that is not released. -/
theorem handed_eq_none (h : Represents c f p) (hsome : f.handlers ≠ []) {d : Dispatched}
    (hd : notificationDispatch c = .ok d) : d.handed = none := by
  rcases (notificationDispatch_flows hd).flow with ⟨hnone, -⟩ | ⟨-, -, ⟨q, hq, hfree⟩, -⟩
  · exact hnone
  · rcases h.flow with ⟨hnil, -⟩ | ⟨-, -, hlocked⟩
    · exact absurd hnil hsome
    · cases hfree.symm.trans (hlocked q hq)

/-- While a handler is active, a dispatch on an unmuted queue does not return. -/
theorem dispatch_hangs (h : Represents c f p) (hsome : f.handlers ≠ []) {q : NotificationQueue}
    (hq : c.queue = some q) (hactive : q.active = true) :
    notificationDispatch c = .error .hang := by
  rcases h.flow with ⟨hnil, -⟩ | ⟨-, -, hlocked⟩
  · exact absurd hnil hsome
  · have hlock : q.lock = true := hlocked q hq
    simp [notificationDispatch, hq, hactive, hlock]

/-- A dispatch puts the handler it starts on top; a call of `notification_return` that was on
its way is then given up. -/
theorem dispatch (h : Represents c f p) {d : Dispatched} (hd : notificationDispatch c = .ok d) :
    Represents d.ctx (f.start (freeStack c.ustacks) (d.handed.map Prod.snd))
      (if d.handed.isSome then .no else p) := by
  obtain ⟨hregs, hustacks, hactive, hflow⟩ := notificationDispatch_flows hd
  refine ⟨hregs.trans h.main, hustacks ▸ h.ustacks, fun i x hx hon => ?_, ?_⟩
  · rcases hactive i x hx hon with hold | ⟨hsome, hnew⟩
    · obtain ⟨hno, hcur⟩ := h.active i x hold hon
      rcases hflow with ⟨hnone, hsame, -⟩ | ⟨hsome, -⟩
      · exact ⟨by simp [hnone, hno], hsame.trans hcur⟩
      · -- there would be a handler already
        have hnil : f.handlers = [] := by
          by_contra hne
          rw [h.handed_eq_none hne hd] at hsome
          cases hsome
        rcases h.flow with ⟨-, hnone⟩ | ⟨⟨x, hx⟩, -⟩
        · cases hnone.symm.trans hcur
        · cases hnil.symm.trans hx
    · exact ⟨if_pos hsome, hnew⟩
  · rcases hflow with ⟨hnone, hsame, hlock⟩ | ⟨hsome, hcur, ⟨q, hq, hfree⟩, hlock⟩
    · rw [hnone, hsame]
      rcases h.flow with ⟨hnil, hcur⟩ | ⟨hone, hcur, hlocked⟩
      · exact .inl ⟨hnil, hcur⟩
      · exact .inr ⟨hone, hcur, hlock hlocked⟩
    · obtain ⟨⟨id, frame⟩, hhanded⟩ := Option.isSome_iff_exists.mp hsome
      rcases h.flow with ⟨hnil, -⟩ | ⟨-, -, hlocked⟩
      · refine .inr ⟨⟨⟨freeStack c.ustacks, frame⟩, ?_⟩, ?_, hlock⟩
        · simp [Flows.start, hhanded, hnil]
        · rw [if_pos hsome]
          exact iff_of_true hcur nofun
      · cases hfree.symm.trans (hlocked q hq)

/-- The frame of an interrupted flow is stored where that flow is, unless a
`notification_return` is about to leave. -/
theorem saveFrame (h : Represents c f p) (hp : p ≠ .cleared) (regs : Registers) :
    Represents (c.saveFrame regs) (f.interrupt regs) p := by
  obtain ⟨hustacks, hqueue, hactive⟩ := c.saveFrame_spec regs
  have hmain : (c.saveFrame regs).regs = (f.interrupt regs).main := by
    rw [Context.saveFrame_regs, Flows.interrupt]
    rcases h.flow with ⟨hnil, hcur⟩ | ⟨⟨x, hone⟩, hcur, -⟩
    · simp [hcur, hnil]
    · simp [hcur.mpr hp, hone, h.main]
  refine ⟨hmain, hustacks ▸ h.ustacks, fun i x hx hon => ?_, ?_⟩
  · obtain ⟨y, hy, hsame⟩ := hactive i x hx
    rw [Context.saveFrame_ucontext]
    exact h.active i y hy (hsame ▸ hon)
  · rw [Context.saveFrame_ucontext, hqueue, Flows.interrupt]
    rcases h.flow with ⟨hnil, hcur⟩ | ⟨⟨x, hone⟩, hcur, hlocked⟩
    · exact .inl ⟨by simp [hnil], hcur⟩
    · exact .inr ⟨⟨{ x with frame := regs }, by simp only [hone]⟩, hcur, hlocked⟩

/-- The first store of a return: the one `ucontext` that was active is not any more. -/
theorem mark (h : Represents c f .no) : Represents c.markUnused f .marked := by
  refine ⟨h.main, h.ustacks, fun i y hy hon => ?_, ?_⟩
  · exfalso
    unfold Context.markUnused at hy
    rcases hcur : c.ucontext with - | u
    · simp only [hcur] at hy
      cases hcur.symm.trans (h.active i y hy hon).2
    · simp only [hcur, List.getElem?_modify] at hy
      obtain ⟨y', hy', rfl⟩ := Option.map_eq_some_iff.mp hy
      split_ifs at hon with hi
      exact hi (Option.some.inj (hcur.symm.trans (h.active i y' hy' hon).2))
  · rcases h.flow with hidle | ⟨hone, hcur, hlocked⟩
    · exact .inl hidle
    · exact .inr ⟨hone, iff_of_true (hcur.mpr nofun) nofun, hlocked⟩

/-- The second store. -/
theorem clear (h : Represents c f .marked) : Represents c.clearUcontext f .cleared := by
  refine ⟨h.main, h.ustacks, fun i y hy hon => ?_, ?_⟩
  · cases (h.active i y hy hon).1
  · rcases h.flow with ⟨hnil, -⟩ | ⟨hone, -, hlocked⟩
    · exact .inl ⟨hnil, rfl⟩
    · exact .inr ⟨hone, iff_of_false nofun (not_not_intro rfl), hlocked⟩

/-- The end of a return takes the handler off and resumes what it had interrupted. -/
theorem finish (h : Represents c f .cleared) :
    Represents c f.finish .no ∧ (f.handlers ≠ [] → c.regs = f.interrupted) := by
  have hnone : c.ucontext = none := by
    rcases h.flow with ⟨-, hnone⟩ | ⟨-, hcur, -⟩
    · exact hnone
    · simpa using hcur
  have hfinish : f.finish.handlers = [] := by
    rcases h.flow with ⟨hnil, -⟩ | ⟨⟨x, hone⟩, -⟩
    · simp [Flows.finish, hnil]
    · simp [Flows.finish, hone]
  refine ⟨⟨h.main, h.ustacks, fun i y hy hon => ?_, .inl ⟨hfinish, hnone⟩⟩, fun hne => ?_⟩
  · cases (h.active i y hy hon).1
  · rcases h.flow with ⟨hnil, -⟩ | ⟨⟨x, hone⟩, -⟩
    · exact absurd hnil hne
    · simp only [Flows.interrupted, hone]
      exact h.main

theorem of_extends (h : Represents c f p) (hext : c.Extends c') : Represents c' f p := by
  obtain ⟨new, hstacks, hnew⟩ := hext.ustacks
  refine ⟨hext.regs.trans h.main, fun s hs => ?_, ?_, ?_⟩
  · rw [hstacks] at hs
    rcases List.mem_append.mp hs with hs | hs
    · exact hnew s hs
    · exact h.ustacks s hs
  · rw [hext.ucontexts, hext.ucontext]
    exact h.active
  · rw [hext.ucontext]
    rcases h.flow with hidle | ⟨hone, hcur, hlocked⟩
    · exact .inl hidle
    · exact .inr ⟨hone, hcur, hext.locked hlocked⟩

end Represents

/-! ### Whole runs -/

namespace NestState

/-- Every context stands for its flows, a return that is about to leave is the one that runs,
and every return was right. -/
structure Inv (s : NestState) : Prop where
  represents : ∀ c, Represents (s.core.contexts c) (s.flows c) (s.phase c)
  leaving : ∀ c, s.phase c = .cleared → s.core.current = some c
  returns : ∀ e ∈ s.returns, e.2 = e.1
  live : s.failed = false

theorem Initial.inv {s : NestState} (h : s.Initial) : s.Inv := by
  refine ⟨fun c => ?_, fun c hc => ?_, by simp [h.returns], h.live⟩
  · rw [h.flows c, h.phase c]
    refine ⟨rfl, h.ustacks c, fun i x hx hon => ?_, .inl ⟨rfl, h.ucontext c⟩⟩
    cases (h.ucontexts c x (List.mem_of_getElem? hx)).symm.trans hon
  · cases (h.phase c).symm.trans hc

theorem Inv.unwinds {s : NestState} (h : s.Inv) : s.Unwinds := by
  refine ⟨fun c => ?_, h.returns, fun c hnil => ⟨fun u hu => ?_, (h.represents c).ustacks⟩,
    h.live⟩
  · rcases (h.represents c).flow with ⟨hnil, -⟩ | ⟨⟨x, hone⟩, -⟩
    · simp [hnil]
    · simp [hone]
  · rcases (h.represents c).flow with ⟨-, hcur⟩ | ⟨⟨x, hone⟩, -⟩
    · obtain ⟨i, hi⟩ := List.getElem?_of_mem hu
      refine Bool.eq_false_iff.mpr fun hon => ?_
      cases hcur.symm.trans ((h.represents c).active i u hi hon).2
    · cases hnil.symm.trans hone

/-- A switch that meets the condition keeps every context in step with its flows. -/
theorem Inv.switch {s : NestState} {r : Resumed} {k' : Core} {regs : Registers} (h : s.Inv)
    (horder : s.Orderly) (hcall : reschedule s.core regs = .ok (some r, k')) (c : ℕ) :
    Represents (k'.contexts c) (s.switch regs r c) (restart s.phase r c) := by
  obtain ⟨k₁, hchoose⟩ := reschedule_next hcall
  obtain ⟨d, hd, hbuilt, -, hcontexts, -, -⟩ := reschedule_spec hcall
  have hsome : r.built.isSome = d.handed.isSome := by rw [hbuilt, Option.isSome_map]
  have hnext := (h.represents r.ctx).dispatch hd
  rw [← hbuilt, ← hsome] at hnext
  rw [← restart_self] at hnext
  rw [hcontexts]
  unfold saveCurrent NestState.switch NestState.interrupt
  rcases hcur : s.core.current with - | cur
  · dsimp only
    rcases eq_or_ne c r.ctx with rfl | hne
    · rw [Function.update_self, Function.update_self]
      exact hnext
    · rw [Function.update_of_ne hne, Function.update_of_ne hne, restart_of_ne _ _ hne]
      exact h.represents c
  dsimp only
  have hout : s.phase cur ≠ .cleared := horder.outside cur hcur
  rcases eq_or_ne r.ctx cur with hsame | hother
  · -- the running context goes on, without a new handler
    have hnone : r.built = none := by
      rcases notificationDispatch_frame hd with ⟨hstarts, -⟩ | ⟨-, hnone⟩
      · exact absurd hstarts (horder.elsewhere r.ctx k₁ hchoose (hsame ▸ hcur))
      · rw [hbuilt, hnone]
        rfl
    rw [hnone, Flows.start_none] at hnext
    rw [hnone, Flows.start_none, Function.update_eq_self, ← hsame]
    rcases eq_or_ne c r.ctx with rfl | hne
    · rw [Function.update_self, Function.update_self, Function.update_self]
      exact hnext.saveFrame (restart_ne_cleared (hsame ▸ hout) r) regs
    · rw [Function.update_of_ne hne, Function.update_of_ne hne, Function.update_of_ne hne,
        restart_of_ne _ _ hne]
      exact h.represents c
  · rw [Function.update_of_ne hother.symm]
    rcases eq_or_ne c cur with rfl | hne
    · rw [Function.update_self, Function.update_of_ne hother.symm, Function.update_self,
        restart_of_ne _ _ hother.symm]
      exact (h.represents c).saveFrame hout regs
    · rw [Function.update_of_ne hne]
      rcases eq_or_ne c r.ctx with rfl | hne'
      · rw [Function.update_self, Function.update_self, Function.update_of_ne hother]
        exact hnext
      · rw [Function.update_of_ne hne', Function.update_of_ne hne', Function.update_of_ne hne,
          restart_of_ne _ _ hne']
        exact h.represents c

/-- The stores of a return keep every context in step with its flows. -/
theorem Inv.store {s : NestState} (h : s.Inv) {k' : Core} {phase' : ℕ → Returning}
    (hstore : s.core.Stores s.phase k' phase') :
    Inv { s with core := k', phase := phase' } := by
  have hrunning (c : ℕ) (hc : phase' c = .cleared) : k'.current = some c := by
    obtain ⟨hcur, -, hslot⟩ := hstore.spec
    rcases hslot c with ⟨hne, -⟩ | ⟨-, hbefore, -⟩ | ⟨-, hrunning, -⟩
    · exact absurd hc hne
    · exact hcur.trans (h.leaving c hbefore)
    · exact hcur.trans hrunning
  refine ⟨fun c => ?_, hrunning, h.returns, h.live⟩
  cases hstore with
  | @mark cur hcur hno _ =>
      rcases eq_or_ne c cur with rfl | hne
      · simpa only [Core.setContext, Function.update_self] using
          (hno ▸ h.represents c : Represents _ _ .no).mark
      · simpa only [Core.setContext, Function.update_of_ne hne] using h.represents c
  | @clear cur hcur hmarked =>
      rcases eq_or_ne c cur with rfl | hne
      · simpa only [Core.setContext, Function.update_self] using
          (hmarked ▸ h.represents c : Represents _ _ .marked).clear
      · simpa only [Core.setContext, Function.update_of_ne hne] using h.represents c

/-- A call of `reschedule` that meets the condition returns. -/
theorem Orderly.returns_ok {s : NestState} (h : s.Orderly) (regs : Registers) (e : Fault) :
    reschedule s.core regs ≠ .error e := by
  intro hcall
  unfold reschedule at hcall
  rcases hchoose : s.core.chooseNext with - | ⟨next, k⟩
  · simp [hchoose] at hcall
  · obtain ⟨d, hd⟩ := (h.returns next k hchoose).returns
    simp only [hchoose, (Core.chooseNext_spec hchoose).1, hd, Exec.ok_bind] at hcall
    cases hcall

theorem Inv.step (s s' : NestState) (h : s.Inv) (hstep : Step Orderly s s') : s'.Inv := by
  cases hstep with
  | @switch r k' regs horder hcall =>
      refine ⟨h.switch horder hcall, fun c hc => ?_, h.returns, h.live⟩
      have hne : s.phase c ≠ .cleared := fun hc => horder.outside c (h.leaving c hc) hc
      exact absurd hc (restart_ne_cleared hne r)
  | idle regs hcall => exact reschedule_idle hcall ▸ h
  | fail regs horder hcall => exact absurd hcall (horder.returns_ok regs _)
  | store hstore => exact h.store hstore
  | leave cur hcur hcleared =>
      obtain ⟨hfinish, hframe⟩ := (hcleared ▸ h.represents cur : Represents _ _ .cleared).finish
      refine ⟨fun c => ?_, fun c hc => ?_, fun e he => ?_, h.live⟩
      · rcases eq_or_ne c cur with rfl | hne
        · simpa only [Function.update_self] using hfinish
        · simpa only [Function.update_of_ne hne] using h.represents c
      · rcases eq_or_ne c cur with rfl | hne
        · exact hcur
        · exact h.leaving c (by simpa [hne] using hc)
      · rcases List.mem_append.mp he with he | he
        · exact h.returns e he
        · split_ifs at he with hnil
          · cases he
          · rw [List.mem_singleton.mp he]
            exact hframe hnil
  | other hcur hext =>
      exact ⟨fun c => (h.represents c).of_extends (hext c),
        fun c hc => hcur.trans (h.leaving c hc), h.returns, h.live⟩

end NestState

/-- **Handlers unwind.**  In every run in which each call of `reschedule` meets the condition:
every dispatch returns, the active handlers of a context have different stacks, a return
resumes the flow that the handler interrupted, and nothing stays marked active when all
handlers have returned. -/
theorem nested_unwind {s₀ s : NestState} (hinit : s₀.Initial)
    (hrun : Run (NestState.Step NestState.Orderly) s₀ s) : s.Unwinds :=
  (Run.invariant NestState.Inv.step hinit.inv hrun).unwinds

/-! ### A return to the past -/

/-- The core of `signalledState`: context 0 is running its main flow, and the contexts of
`delivery` are to be switched to; all contexts have a notification. -/
def signalledNest (delivery : List ℕ) : NestState where
  core := (signalledState delivery).core
  flows := fun _ => ⟨signalledContext.regs, []⟩
  phase := fun _ => .no
  returns := []
  failed := false

theorem signalledNest_initial (delivery : List ℕ) : (signalledNest delivery).Initial where
  flows := fun _ => rfl
  ucontext := fun _ => rfl
  ucontexts := fun _ => nofun
  ustacks := fun _ st hst => by
    obtain rfl := List.mem_singleton.mp hst
    rfl
  phase := fun _ => rfl
  returns := rfl
  live := rfl

/-- A switch to context `c`, which has a notification, and the return of the handler. -/
theorem signalledNest_returns (Allowed : NestState → Prop) (c : ℕ) (expected frame : Registers)
    (hallowed : Allowed (signalledNest [c]))
    (hflows : ((signalledNest [c]).interrupt interruptedFrame c) = ⟨expected, []⟩)
    (hcall : (reschedule (signalledNest [c]).core interruptedFrame).map
        (fun x => (x.1, (notificationReturn (x.2.contexts c)).map Prod.fst))
      = .ok (some ⟨c, frame, true, some builtFrame⟩, some signalledContext.regs)) :
    ∃ s, Run (NestState.Step Allowed) (signalledNest [c]) s ∧
      s.returns = [(expected, signalledContext.regs)] := by
  obtain ⟨⟨r, k'⟩, hcall, heq⟩ := Exec.exists_of_map_eq_ok hcall
  simp only [Prod.mk.injEq] at heq
  obtain ⟨rfl, hret⟩ := heq
  rw [notificationReturn_eq, Option.map_map] at hret
  obtain ⟨q, hq, hregs⟩ := Option.map_eq_some_iff.mp hret
  have hregs : (k'.contexts c).regs = signalledContext.regs := hregs
  obtain ⟨-, -, -, hcur, -⟩ := reschedule_spec hcall
  have hswitch : NestState.Step Allowed (signalledNest [c]) _ :=
    .switch interruptedFrame hallowed hcall
  have hno : restart (signalledNest [c]).phase ⟨c, frame, true, some builtFrame⟩ c = .no := by
    simp [restart]
  have hmark := Core.Stores.mark hcur hno (by simp [hq])
  have hflow : (signalledNest [c]).switch interruptedFrame
      ⟨c, frame, true, some builtFrame⟩ c
      = ⟨expected, [⟨freeStack signalledContext.ustacks, builtFrame⟩]⟩ := by
    rw [NestState.switch, Function.update_self, hflows]
    rfl
  refine ⟨_, (((Relation.ReflTransGen.single hswitch).tail (.store hmark)).tail
    (.store (.second hcur))).tail (.leave c hcur (Function.update_self ..)), ?_⟩
  simp only [hflow, Core.setContext, Function.update_self]
  simp [Flows.interrupted, Context.markUnused, Context.clearUcontext, hregs, signalledNest]

theorem signalledContext_dispatchable : signalledContext.Dispatchable := by
  intro q hq _
  obtain rfl := Option.some.inj hq
  refine ⟨rfl, fun i hi => ?_⟩
  obtain rfl : ⟨0, by decide⟩ = i := by
    revert i
    decide +kernel
  exact ⟨0, rfl, rfl⟩

/-- A handler of another context than the interrupted one returns to its main flow. -/
theorem nested_unwind_other :
    ∃ s, Run (NestState.Step NestState.Orderly) (signalledNest [1]) s ∧
      s.returns = [(signalledContext.regs, signalledContext.regs)] ∧ s.Unwinds := by
  have horder : (signalledNest [1]).Orderly := by
    refine ⟨fun _ _ => nofun, fun _ _ _ => signalledContext_dispatchable, ?_⟩
    rintro next k hchoose hcur
    obtain rfl : 1 = next := congrArg Prod.fst (Option.some.inj hchoose)
    cases hcur
  obtain ⟨s, hrun, hreturns⟩ := signalledNest_returns NestState.Orderly 1 signalledContext.regs
    builtFrame horder rfl (by decide +kernel)
  exact ⟨s, hrun, hreturns, nested_unwind (signalledNest_initial [1]) hrun⟩

/-- **A return to the past.**  Context 0 is interrupted in its main flow and is the one to
run next, with a notification pending.  The switch stores the interrupted frame over that
of the handler; the return resumes the main flow with the frame it had before. -/
theorem nested_return_stale :
    ∃ s, (signalledNest [0]).Initial ∧
      Run (NestState.Step fun _ => True) (signalledNest [0]) s ∧
      s.returns = [(interruptedFrame, signalledContext.regs)] ∧ ¬ s.Unwinds := by
  obtain ⟨s, hrun, hreturns⟩ := signalledNest_returns (fun _ => True) 0 interruptedFrame
    interruptedFrame trivial rfl (by decide +kernel)
  refine ⟨s, signalledNest_initial [0], hrun, hreturns, fun hunwinds => ?_⟩
  have hstale : signalledContext.regs = interruptedFrame :=
    hunwinds.returns (interruptedFrame, signalledContext.regs) (by simp [hreturns])
  exact absurd hstale (by decide)

/-- **A second dispatch does not return.**  The handler of context 1 is running, its queue is
not muted, and context 1 is to run next again. -/
theorem nested_dispatch_hangs :
    ∃ s, Run (NestState.Step fun _ => True) (signalledNest [1, 1]) s ∧
      (s.flows 1).handlers ≠ [] ∧ s.failed = true ∧ ¬ s.Unwinds := by
  have hcall := reschedule_eq_coreAfter (show
    (reschedule (signalledNest [1, 1]).core interruptedFrame).map Prod.fst
      = .ok (some ⟨1, builtFrame, true, some builtFrame⟩) by decide +kernel)
  have hswitch : NestState.Step (fun _ => True) (signalledNest [1, 1]) _ :=
    .switch interruptedFrame trivial hcall
  have hagain : reschedule (coreAfter (signalledNest [1, 1]).core interruptedFrame) default
      = .error .hang := by
    have herror : (reschedule (coreAfter (signalledNest [1, 1]).core interruptedFrame)
        default).map (fun _ => ()) = .error .hang := by decide +kernel
    rcases hx : reschedule (coreAfter (signalledNest [1, 1]).core interruptedFrame) default with
      e | x
    · rw [hx] at herror
      exact congrArg Except.error (Except.error.inj herror)
    · rw [hx] at herror
      cases herror
  refine ⟨_, .tail (.single hswitch) (.fail default trivial hagain), ?_, rfl, fun h => ?_⟩
  · simp [NestState.switch, Flows.start]
  · cases h.live

end Rock
