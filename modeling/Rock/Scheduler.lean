/-
Rock/Scheduler.lean

Context switches on one core (`reschedule` of kernel/core/scheduler.c), together
with the notifications they dispatch and `notification_return`.

A context has one frame slot for its main flow and one for each of its
handlers; `notification.ucontext` says which of them is current.  `reschedule`
dispatches a notification on the context it switches to, which may change its
current slot, and only then stores the interrupted frame in the current slot of
the context it switches from.  If the two contexts are one and a handler is
started, the interrupted frame is stored over the frame of the handler.

`notification_return` runs with interrupts on, so it is not one step: it marks the
`ucontext` unused, clears the pointer to it, and leaves with the frame of the main
flow (`Returning`).  A `reschedule` after the second store takes the frame of the
system call for that of the main flow and stores it there.

A `SchedState` carries, besides the core, which flow is running, the frame with
which each main flow was last interrupted, and what was resumed since
(`Event`).  `reschedule_run_faithful`: as long as no `reschedule` starts a handler
of the context it interrupts, or interrupts a `notification_return` after its last
store (`Switches`), every main flow is resumed with its own frame, and every handler
starts with the frame that was built for it.  `reschedule_loses_handler` and
`reschedule_loses_main` are the two other cases.

Left out are the FPU image, the segment bases and the page table, which
`reschedule` also switches.
-/
import Rock.Notification

namespace Rock

/-! ### The core -/

/-- What `reschedule` reads and writes of `struct cpu_local`, and the contexts.
`schedulingServer` is `none` for a null server, `some none` for a server without
a context. -/
structure Core where
  contexts : ℕ → Context
  current : Option ℕ
  deliveryStack : List ℕ
  threadQueue : List ℕ
  schedulingServer : Option (Option ℕ)

/-- The frame of the current flow of a context. -/
def Context.currentFrame (c : Context) : Registers :=
  match c.ucontext with
  | some u => (c.ucontexts.getD u default).regs
  | none => c.regs

/-- Store the frame of the current flow of a context. -/
def Context.saveFrame (c : Context) (regs : Registers) : Context :=
  match c.ucontext with
  | some u => { c with ucontexts := c.ucontexts.modify u fun x => { x with regs := regs } }
  | none => { c with regs := regs }

/-- The context that runs next: the top of `delivery_stack`, of `thread_queue`,
or the scheduling server. -/
def Core.chooseNext (k : Core) : Option (ℕ × Core) :=
  match k.deliveryStack, k.threadQueue with
  | c :: rest, _ => some (c, { k with deliveryStack := rest })
  | [], c :: rest => some (c, { k with threadQueue := rest })
  | [], [] =>
      match k.schedulingServer with
      | some (some c) => some (c, k)
      | _ => none

/-- The contexts after the frame of the running one was stored. -/
def saveCurrent (contexts : ℕ → Context) (current : Option ℕ) (regs : Registers) : ℕ → Context :=
  match current with
  | some cur => Function.update contexts cur ((contexts cur).saveFrame regs)
  | none => contexts

/-- The flow a switch resumes: its context, the frame, whether it is a handler,
and the frame that was built if the handler was started by this switch. -/
structure Resumed where
  ctx : ℕ
  frame : Registers
  inHandler : Bool
  built : Option Registers
  deriving DecidableEq

/-- `reschedule`, with the interrupted frame; `none` when it returns to the
interrupted flow. -/
def reschedule (k : Core) (regs : Registers) : Exec (Option Resumed × Core) :=
  match k.chooseNext with
  | none => .ok (none, k)
  | some (next, k) => do
      let d ← notificationDispatch (k.contexts next)
      let contexts := saveCurrent (Function.update k.contexts next d.ctx) k.current regs
      let c := contexts next
      .ok (some ⟨next, c.currentFrame, c.ucontext.isSome, d.handed.map Prod.snd⟩,
        { k with contexts := contexts, current := some next })

/-! ### What one switch does -/

namespace Context

@[simp] theorem saveFrame_ucontext (c : Context) (regs : Registers) :
    (c.saveFrame regs).ucontext = c.ucontext := by
  unfold saveFrame
  split <;> rfl

theorem saveFrame_regs (c : Context) (regs : Registers) :
    (c.saveFrame regs).regs = if c.ucontext.isSome then c.regs else regs := by
  unfold saveFrame
  rcases h : c.ucontext with - | u <;> rfl

/-- Storing a frame changes nothing else, in particular what is active. -/
theorem saveFrame_spec (c : Context) (regs : Registers) :
    (c.saveFrame regs).ustacks = c.ustacks ∧ (c.saveFrame regs).queue = c.queue ∧
      ∀ (i : ℕ) (x : Ucontext), (c.saveFrame regs).ucontexts[i]? = some x →
        ∃ y, c.ucontexts[i]? = some y ∧ x.active = y.active := by
  unfold saveFrame
  rcases c.ucontext with - | u
  · exact ⟨rfl, rfl, fun i x hx => ⟨x, hx, rfl⟩⟩
  · refine ⟨rfl, rfl, fun i x hx => ?_⟩
    dsimp only at hx
    rw [List.getElem?_modify] at hx
    obtain ⟨y, hy, rfl⟩ := Option.map_eq_some_iff.mp hx
    refine ⟨y, hy, ?_⟩
    split_ifs <;> rfl

end Context

theorem Core.chooseNext_spec {k k' : Core} {next : ℕ} (h : k.chooseNext = some (next, k')) :
    k'.contexts = k.contexts ∧ k'.current = k.current := by
  unfold chooseNext at h
  split at h
  · obtain ⟨-, rfl⟩ := Prod.mk.inj (Option.some.inj h)
    exact ⟨rfl, rfl⟩
  · obtain ⟨-, rfl⟩ := Prod.mk.inj (Option.some.inj h)
    exact ⟨rfl, rfl⟩
  · split at h
    · obtain ⟨-, rfl⟩ := Prod.mk.inj (Option.some.inj h)
      exact ⟨rfl, rfl⟩
    · exact absurd h (by simp)

/-- **What a switch does**: it dispatches on the chosen context, stores the
interrupted frame, and resumes the current frame of the chosen context. -/
theorem reschedule_spec {k k' : Core} {regs : Registers} {r : Resumed}
    (h : reschedule k regs = .ok (some r, k')) :
    ∃ d, notificationDispatch (k.contexts r.ctx) = .ok d ∧ r.built = d.handed.map Prod.snd ∧
      k'.current = some r.ctx ∧
      k'.contexts = saveCurrent (Function.update k.contexts r.ctx d.ctx) k.current regs ∧
      r.frame = (k'.contexts r.ctx).currentFrame ∧
      r.inHandler = (k'.contexts r.ctx).ucontext.isSome := by
  unfold reschedule at h
  rcases hnext : k.chooseNext with - | ⟨next, k₁⟩
  · simp [hnext] at h
  · obtain ⟨hctx, hcur⟩ := Core.chooseNext_spec hnext
    simp only [hnext, hctx, hcur] at h
    obtain ⟨d, hd, h⟩ := Exec.bind_eq_ok.mp h
    simp only [Except.ok.injEq, Prod.mk.injEq, Option.some.injEq] at h
    obtain ⟨rfl, rfl⟩ := h
    exact ⟨d, hd, rfl, rfl, rfl, rfl, rfl⟩

/-- The context that is switched to is the chosen one. -/
theorem reschedule_next {k k' : Core} {regs : Registers} {r : Resumed}
    (h : reschedule k regs = .ok (some r, k')) : ∃ k₁, k.chooseNext = some (r.ctx, k₁) := by
  unfold reschedule at h
  rcases hnext : k.chooseNext with - | ⟨next, k₁⟩
  · simp [hnext] at h
  · simp only [hnext] at h
    obtain ⟨d, -, h⟩ := Exec.bind_eq_ok.mp h
    simp only [Except.ok.injEq, Prod.mk.injEq, Option.some.injEq] at h
    exact ⟨k₁, by rw [← h.1]⟩

/-- A call that returns has changed nothing. -/
theorem reschedule_idle {k k' : Core} {regs : Registers}
    (h : reschedule k regs = .ok (none, k')) : k' = k := by
  unfold reschedule at h
  rcases hnext : k.chooseNext with - | ⟨next, k₁⟩
  · simp only [hnext, Except.ok.injEq, Prod.mk.injEq, true_and] at h
    exact h.symm
  · simp only [hnext] at h
    obtain ⟨d, -, h⟩ := Exec.bind_eq_ok.mp h
    simp at h

/-! ### The stores of notification_return -/

/-- How far a call of `notification_return` of a context has come: there is none, it has
marked the `ucontext` unused, or it has also cleared the pointer and is about to leave. -/
inductive Returning where
  | no
  | marked
  | cleared
  deriving DecidableEq

def Core.setContext (k : Core) (cur : ℕ) (c : Context) : Core :=
  { k with contexts := Function.update k.contexts cur c }

/-- The stores of `notification_return` in the running context, one step each. -/
inductive Core.Stores :
    Core → (ℕ → Returning) → Core → (ℕ → Returning) → Prop
  | mark {k : Core} {phase : ℕ → Returning} {cur : ℕ} :
      k.current = some cur → phase cur = .no → (k.contexts cur).queue.isSome →
      Stores k phase (k.setContext cur (k.contexts cur).markUnused)
        (Function.update phase cur .marked)
  | clear {k : Core} {phase : ℕ → Returning} {cur : ℕ} :
      k.current = some cur → phase cur = .marked →
      Stores k phase (k.setContext cur (k.contexts cur).clearUcontext)
        (Function.update phase cur .cleared)

/-- A call is given up where a handler is started: the frame it was interrupted with is not
the current one any more. -/
def restart (phase : ℕ → Returning) (r : Resumed) : ℕ → Returning :=
  if r.built.isSome then Function.update phase r.ctx .no else phase

theorem restart_self (phase : ℕ → Returning) (r : Resumed) :
    restart phase r r.ctx = if r.built.isSome then .no else phase r.ctx := by
  unfold restart
  split_ifs
  · exact Function.update_self ..
  · rfl

theorem restart_of_ne (phase : ℕ → Returning) (r : Resumed) {c : ℕ} (hc : c ≠ r.ctx) :
    restart phase r c = phase c := by
  unfold restart
  split_ifs
  · exact Function.update_of_ne hc ..
  · rfl

theorem restart_ne_cleared {phase : ℕ → Returning} {c : ℕ} (h : phase c ≠ .cleared)
    (r : Resumed) : restart phase r c ≠ .cleared := by
  rcases eq_or_ne c r.ctx with rfl | hne
  · rw [restart_self]
    split_ifs
    · simp
    · exact h
  · rwa [restart_of_ne phase r hne]

/-- **What the stores do**: no frame changes, and the current slot of the running context
only with the second one. -/
theorem Core.Stores.spec {k k' : Core} {phase phase' : ℕ → Returning}
    (h : Stores k phase k' phase') :
    k'.current = k.current ∧ (∀ c, (k'.contexts c).regs = (k.contexts c).regs) ∧
      ∀ c, phase' c ≠ .cleared ∧ (k'.contexts c).ucontext = (k.contexts c).ucontext ∨
        (phase' c = .cleared ∧ phase c = .cleared ∧ k'.contexts c = k.contexts c) ∨
        (phase' c = .cleared ∧ k.current = some c ∧ (k'.contexts c).ucontext = none) := by
  cases h with
  | @mark cur hcur hno _ =>
      refine ⟨rfl, fun c => ?_, fun c => ?_⟩ <;> rcases eq_or_ne c cur with rfl | hne
      · simp [setContext, Context.markUnused]
      · simp [setContext, hne]
      · exact .inl (by simp [setContext, Context.markUnused])
      · by_cases hc : phase c = .cleared
        · exact .inr (.inl (by simp [setContext, hne, hc]))
        · exact .inl (by simp [setContext, hne, hc])
  | @clear cur hcur _ =>
      refine ⟨rfl, fun c => ?_, fun c => ?_⟩ <;> rcases eq_or_ne c cur with rfl | hne
      · simp [setContext, Context.clearUcontext]
      · simp [setContext, hne]
      · exact .inr (.inr (by simp [setContext, Context.clearUcontext, hcur]))
      · by_cases hc : phase c = .cleared
        · exact .inr (.inl (by simp [setContext, hne, hc]))
        · exact .inl (by simp [setContext, hne, hc])

/-- The second store after the first. -/
theorem Core.Stores.second {k : Core} {phase : ℕ → Returning} {cur : ℕ}
    (hcur : k.current = some cur) :
    Stores (k.setContext cur (k.contexts cur).markUnused) (Function.update phase cur .marked)
      (k.setContext cur (k.contexts cur).markUnused.clearUcontext)
      (Function.update phase cur .cleared) := by
  have hclear : Stores (k.setContext cur (k.contexts cur).markUnused)
      (Function.update phase cur .marked) _ _ := .clear hcur (Function.update_self ..)
  simpa only [setContext, Function.update_self, Function.update_idem] using hclear

/-! ### Runs -/

/-- What was resumed: a main flow, with the frame of its last interruption and
the frame it was resumed with; or a new handler, with the frame built for it and
the frame that was executed. -/
inductive Event where
  | main (ctx : ℕ) (interrupted resumed : Registers)
  | handler (ctx : ℕ) (built resumed : Registers)
  deriving DecidableEq

/-- The frame that was resumed is the right one. -/
def Event.Faithful : Event → Prop
  | .main _ interrupted resumed => resumed = interrupted
  | .handler _ built resumed => resumed = built

/-- A core with the flow that is running on it, the frame of each main flow at
its last interruption, the calls of `notification_return`, and the events so far. -/
structure SchedState where
  core : Core
  inHandler : Bool
  mainFrame : ℕ → Registers
  phase : ℕ → Returning
  events : List Event

namespace SchedState

/-- The running flow is interrupted with the frame `regs`. -/
def interrupt (s : SchedState) (regs : Registers) : ℕ → Registers :=
  match s.core.current with
  | some cur => if s.inHandler then s.mainFrame else Function.update s.mainFrame cur regs
  | none => s.mainFrame

/-- The event of a switch; a handler that goes on is none, and neither is a call of
`notification_return` that goes on. -/
def eventOf (mainFrame : ℕ → Registers) (phase : ℕ → Returning) (r : Resumed) : List Event :=
  match r.built with
  | some built => [.handler r.ctx built r.frame]
  | none =>
      if r.inHandler ∨ phase r.ctx = .cleared then []
      else [.main r.ctx (mainFrame r.ctx) r.frame]

/-- What other code may do between switches: everything but to the frames. -/
def SameFrames (k k' : Core) : Prop :=
  k'.current = k.current ∧ ∀ c, (k'.contexts c).regs = (k.contexts c).regs ∧
    (k'.contexts c).ucontexts = (k.contexts c).ucontexts ∧
    (k'.contexts c).ucontext = (k.contexts c).ucontext

/-- The steps of a core, where a switch must be `Allowed`. -/
inductive Step (Allowed : SchedState → Resumed → Prop) : SchedState → SchedState → Prop
  | switch {s : SchedState} {r : Resumed} {k' : Core} (regs : Registers) :
      reschedule s.core regs = .ok (some r, k') → Allowed s r →
      Step Allowed s
        ⟨k', r.inHandler, s.interrupt regs, restart s.phase r,
          s.events ++ eventOf (s.interrupt regs) s.phase r⟩
  | idle {s : SchedState} {k' : Core} (regs : Registers) :
      reschedule s.core regs = .ok (none, k') → Step Allowed s { s with core := k' }
  | store {s : SchedState} {k' : Core} {phase' : ℕ → Returning} :
      s.core.Stores s.phase k' phase' → Step Allowed s { s with core := k', phase := phase' }
  -- the end of `notification_return`, which resumes the main flow
  | leave {s : SchedState} (cur : ℕ) :
      s.core.current = some cur → s.phase cur = .cleared →
      Step Allowed s
        { s with
          inHandler := false
          phase := Function.update s.phase cur .no
          events := s.events ++
            [.main cur (s.mainFrame cur) (s.core.contexts cur).regs] }
  | other {s : SchedState} (k' : Core) :
      SameFrames s.core k' → Step Allowed s { s with core := k' }

/-- The switch does not start a handler of the context it interrupts, and does not interrupt
a `notification_return` that has cleared `ucontext`. -/
def Switches (s : SchedState) (r : Resumed) : Prop :=
  (r.built.isSome → s.core.current ≠ some r.ctx) ∧
    ∀ cur, s.core.current = some cur → s.phase cur ≠ .cleared

/-- A state to start from: the stored frames are those of the main flows, the running
flow is the one the running context says, and no call of `notification_return` is on its
way. -/
structure Initial (s : SchedState) : Prop where
  frames : ∀ c, s.mainFrame c = (s.core.contexts c).regs
  flow : ∀ c, s.core.current = some c → s.inHandler = (s.core.contexts c).ucontext.isSome
  phase : ∀ c, s.phase c = .no
  events : s.events = []

/-- The stored frame of each main flow is that of its last interruption, and all
that was resumed was right.  A `notification_return` that is about to leave is the one
that runs. -/
structure Inv (s : SchedState) : Prop where
  frames : ∀ c, s.mainFrame c = (s.core.contexts c).regs
  flow : ∀ c, s.core.current = some c → s.phase c ≠ .cleared →
    s.inHandler = (s.core.contexts c).ucontext.isSome
  cleared : ∀ c, s.phase c = .cleared →
    s.core.current = some c ∧ (s.core.contexts c).ucontext = none
  events : ∀ e ∈ s.events, e.Faithful

end SchedState

namespace SchedState

section Switch

variable {s : SchedState} {r : Resumed} {k' : Core} {regs : Registers} {d : Dispatched}

/-- A dispatch that the switch is allowed leaves the current slot of the running
context alone. -/
theorem ucontext_dispatched (hd : d.FramesOf (s.core.contexts r.ctx))
    (hbuilt : r.built = d.handed.map Prod.snd) (hallowed : Switches s r) {cur : ℕ}
    (hcur : s.core.current = some cur) :
    (Function.update s.core.contexts r.ctx d.ctx cur).ucontext
      = (s.core.contexts cur).ucontext := by
  rcases eq_or_ne cur r.ctx with rfl | hne
  · rw [Function.update_self]
    rcases hd.2 with ⟨-, hsame⟩ | ⟨id, u, frame, stack, hhanded, -⟩
    · exact hsame
    · -- a handler of the running context would have been started
      have hsome : r.built.isSome := by simp [hbuilt, hhanded]
      exact absurd hcur (hallowed.1 hsome)
  · rw [Function.update_of_ne hne]

/-- The dispatch does not touch the frame of any main flow. -/
theorem regs_dispatched (hd : d.FramesOf (s.core.contexts r.ctx)) (c : ℕ) :
    (Function.update s.core.contexts r.ctx d.ctx c).regs = (s.core.contexts c).regs := by
  rcases eq_or_ne c r.ctx with rfl | hne
  · rw [Function.update_self, hd.1]
  · rw [Function.update_of_ne hne]

/-- After an allowed switch the stored main frames are again those of the last
interruptions. -/
theorem Inv.frames_switch (hI : s.Inv) (hd : d.FramesOf (s.core.contexts r.ctx))
    (hbuilt : r.built = d.handed.map Prod.snd) (hallowed : Switches s r) (c : ℕ) :
    s.interrupt regs c
      = (saveCurrent (Function.update s.core.contexts r.ctx d.ctx) s.core.current regs c).regs := by
  unfold interrupt saveCurrent
  rcases hcur : s.core.current with - | cur
  · exact (hI.frames c).trans (regs_dispatched hd c).symm
  · have hflow := hI.flow cur hcur (hallowed.2 cur hcur)
    have hslot := ucontext_dispatched hd hbuilt hallowed hcur
    rcases eq_or_ne c cur with rfl | hne
    · -- the running context: its main frame is stored exactly if its main flow ran
      simp only [Function.update_self]
      rw [Context.saveFrame_regs, hslot, ← hflow, regs_dispatched hd]
      cases s.inHandler with
      | false => simp
      | true => exact hI.frames c
    · simp only [Function.update_of_ne hne]
      rw [regs_dispatched hd]
      cases s.inHandler with
      | false => simpa [hne] using hI.frames c
      | true => exact hI.frames c

/-- A handler that an allowed switch starts begins with its own frame. -/
theorem frame_of_built (hd : d.FramesOf (s.core.contexts r.ctx))
    (hbuilt : r.built = d.handed.map Prod.snd) (hallowed : Switches s r) {frame : Registers}
    (hframe : r.built = some frame) :
    (saveCurrent (Function.update s.core.contexts r.ctx d.ctx) s.core.current regs
      r.ctx).currentFrame = frame := by
  have hne : s.core.current ≠ some r.ctx := hallowed.1 (by simp [hframe])
  have hctx : saveCurrent (Function.update s.core.contexts r.ctx d.ctx) s.core.current regs r.ctx
      = d.ctx := by
    unfold saveCurrent
    rcases hcur : s.core.current with - | cur
    · exact Function.update_self ..
    · have hcr : r.ctx ≠ cur := fun heq => hne (heq ▸ hcur)
      simp [hcr]
  rcases hd.2 with ⟨hnone, -⟩ | ⟨id, u, frame', stack, hhanded, hu, hslot⟩
  · rw [hbuilt, hnone] at hframe
    exact absurd hframe (by simp)
  · have hsame : frame' = frame := by
      rw [hbuilt, hhanded] at hframe
      exact Option.some.inj hframe
    rw [hctx, Context.currentFrame, hu]
    simp [hslot, hsame]

/-- An allowed switch resumes what it should. -/
theorem Inv.event_switch (hI : s.Inv) (hd : d.FramesOf (s.core.contexts r.ctx))
    (hbuilt : r.built = d.handed.map Prod.snd) (hallowed : Switches s r)
    (hcontexts : k'.contexts
      = saveCurrent (Function.update s.core.contexts r.ctx d.ctx) s.core.current regs)
    (hframe : r.frame = (k'.contexts r.ctx).currentFrame)
    (hin : r.inHandler = (k'.contexts r.ctx).ucontext.isSome) :
    ∀ e ∈ eventOf (s.interrupt regs) s.phase r, e.Faithful := by
  intro e he
  unfold eventOf at he
  rcases hb : r.built with - | frame
  · simp only [hb] at he
    split_ifs at he with hgoes
    · cases he
    · obtain rfl := List.mem_singleton.mp he
      have hh : r.inHandler = false := Bool.eq_false_iff.mpr fun hc => hgoes (.inl hc)
      -- the main flow of the chosen context
      rw [hh] at hin
      have hnone : (k'.contexts r.ctx).ucontext = none := by
        simpa using hin.symm
      show r.frame = s.interrupt regs r.ctx
      rw [hI.frames_switch hd hbuilt hallowed, ← hcontexts, hframe, Context.currentFrame, hnone]
  · simp only [hb, List.mem_singleton] at he
    subst he
    show r.frame = frame
    rw [hframe, hcontexts]
    exact frame_of_built hd hbuilt hallowed hb

end Switch

/-- The stores of a `notification_return` keep the frames. -/
theorem Inv.store {s : SchedState} (hI : s.Inv) {k' : Core} {phase' : ℕ → Returning}
    (h : s.core.Stores s.phase k' phase') : Inv { s with core := k', phase := phase' } := by
  obtain ⟨hcur, hregs, hslot⟩ := h.spec
  refine ⟨fun c => (hI.frames c).trans (hregs c).symm, fun c hc hne => ?_, fun c hc => ?_,
    hI.events⟩
  · rcases hslot c with ⟨-, hsame⟩ | ⟨hcleared, -⟩ | ⟨hcleared, -⟩
    · -- a call that was about to leave has no further store
      have hbefore : s.phase c ≠ .cleared := by
        intro hphase
        cases h with
        | @mark cur hcur' hno _ =>
            obtain rfl := Option.some.inj ((hI.cleared c hphase).1.symm.trans hcur')
            cases hno.symm.trans hphase
        | @clear cur hcur' hmarked =>
            obtain rfl := Option.some.inj ((hI.cleared c hphase).1.symm.trans hcur')
            cases hmarked.symm.trans hphase
      show s.inHandler = (k'.contexts c).ucontext.isSome
      rw [hsame]
      exact hI.flow c (hcur.symm.trans hc) hbefore
    · exact absurd hcleared hne
    · exact absurd hcleared hne
  · rcases hslot c with ⟨hne, -⟩ | ⟨-, hbefore, hsame⟩ | ⟨-, hrunning, hnone⟩
    · exact absurd hc hne
    · obtain ⟨hrunning, hnone⟩ := hI.cleared c hbefore
      exact ⟨hcur.trans hrunning, hsame ▸ hnone⟩
    · exact ⟨hcur.trans hrunning, hnone⟩

theorem Inv.step (s s' : SchedState) (hI : s.Inv) (hs : Step Switches s s') : s'.Inv := by
  cases hs with
  | @switch r k' regs h hallowed =>
      obtain ⟨d, hdisp, hbuilt, hcur, hctx, hframe, hin⟩ := reschedule_spec h
      have hd := notificationDispatch_spec hdisp
      -- no call is about to leave: it would be the one that is interrupted
      have hphase (c : ℕ) : restart s.phase r c ≠ .cleared :=
        restart_ne_cleared (fun hc => hallowed.2 c (hI.cleared c hc).1 hc) r
      refine ⟨fun c => ?_, fun c hc _ => ?_, fun c hc => absurd hc (hphase c), fun e he => ?_⟩
      · show s.interrupt regs c = (k'.contexts c).regs
        rw [hctx]
        exact hI.frames_switch hd hbuilt hallowed c
      · obtain rfl := Option.some.inj (hcur.symm.trans hc)
        exact hin
      · rcases List.mem_append.mp he with he | he
        · exact hI.events e he
        · exact hI.event_switch hd hbuilt hallowed hctx hframe hin e he
  | idle regs h => exact reschedule_idle h ▸ hI
  | store h => exact hI.store h
  | leave cur hcur hcleared =>
      refine ⟨hI.frames, fun c hc _ => ?_, fun c hc => ?_, fun e he => ?_⟩
      · obtain rfl := Option.some.inj (hcur.symm.trans hc)
        rw [(hI.cleared cur hcleared).2]
        rfl
      · rcases eq_or_ne c cur with rfl | hne
        · simp at hc
        · exact hI.cleared c (by simpa [hne] using hc)
      · rcases List.mem_append.mp he with he | he
        · exact hI.events e he
        · rw [List.mem_singleton.mp he]
          exact (hI.frames cur).symm
  | other k' hsame =>
      obtain ⟨hcur, hctx⟩ := hsame
      refine ⟨fun c => (hI.frames c).trans (hctx c).1.symm, fun c hc hne => ?_, fun c hc => ?_,
        hI.events⟩
      · show s.inHandler = (k'.contexts c).ucontext.isSome
        rw [(hctx c).2.2]
        exact hI.flow c (hcur.symm.trans hc) hne
      · obtain ⟨hrunning, hnone⟩ := hI.cleared c hc
        exact ⟨hcur.trans hrunning, (hctx c).2.2.trans hnone⟩

theorem Initial.inv {s : SchedState} (h : s.Initial) : s.Inv :=
  ⟨h.frames, fun c hc _ => h.flow c hc, fun c hc => absurd hc (by simp [h.phase c]),
    by simp [h.events]⟩

end SchedState

/-- **No frame is lost in a switch.**  In every run in which no `reschedule`
starts a handler of the context it interrupts or interrupts a `notification_return`
that has cleared `ucontext`, every main flow is resumed with the frame of its last
interruption, and every handler starts with the frame that `notification_dispatch`
built. -/
theorem reschedule_run_faithful {s₀ s : SchedState} (hinit : s₀.Initial)
    (hrun : Run (SchedState.Step SchedState.Switches) s₀ s) : ∀ e ∈ s.events, e.Faithful :=
  (Run.invariant SchedState.Inv.step hinit.inv hrun).events

/-! ### A handler of the interrupted context -/

/-- A context with a stack for handlers and one notification of number 1, as
`NOTIFICATION_PUSH` enters it in an empty queue. -/
def signalledContext : Context :=
  { idleContext with
    ustacks := [⟨⟨0x9000, 0x10000⟩, ⟨0x7000, 0x1000⟩, false⟩]
    actions := fun _ => 0x401000
    queue := some
      { queue := Function.update (fun _ => none) ⟨0, by decide⟩ (some 0)
        mask := 0
        active := true
        pending := 1
        lock := false
        notes := [⟨1, 0x5000, 0, none, none⟩] } }

/-- Context 0 is running its main flow, and the contexts of `delivery` are to be
switched to; all contexts have a notification. -/
def signalledState (delivery : List ℕ) : SchedState where
  core :=
    { contexts := fun _ => signalledContext
      current := some 0
      deliveryStack := delivery
      threadQueue := []
      schedulingServer := none }
  inHandler := false
  mainFrame := fun _ => signalledContext.regs
  phase := fun _ => .no
  events := []

theorem signalledState_initial (delivery : List ℕ) : (signalledState delivery).Initial :=
  ⟨fun _ => rfl, fun _ _ => rfl, fun _ => rfl, rfl⟩

/-- The frame in which the main flow of context 0 is interrupted. -/
def interruptedFrame : Registers := { (default : Registers) with rip := 0x400123, cs := 0x43 }

/-- The frame that is built for the handler. -/
def builtFrame : Registers := handlerFrame default 0x7000 0x401000 0x5000 0 1

/-- The frame of an interrupt inside a system call. -/
def yieldFrame : Registers := { (default : Registers) with rip := 0xffffffff80001000, cs := 0x28 }

/-- The core after a switch. -/
def coreAfter (k : Core) (regs : Registers) : Core :=
  match reschedule k regs with
  | .ok (_, k') => k'
  | .error _ => k

theorem reschedule_eq_coreAfter {k : Core} {regs : Registers} {r : Option Resumed}
    (h : (reschedule k regs).map Prod.fst = .ok r) :
    reschedule k regs = .ok (r, coreAfter k regs) := by
  obtain ⟨⟨r', k'⟩, hcall, rfl⟩ := Exec.exists_of_map_eq_ok h
  rw [coreAfter, hcall]

/-- Both stores of a `notification_return`, one after the other. -/
theorem SchedState.run_stores {Allowed : SchedState → Resumed → Prop} {s : SchedState} (cur : ℕ)
    (hcur : s.core.current = some cur) (hphase : s.phase cur = .no)
    (hqueue : (s.core.contexts cur).queue.isSome) :
    Run (Step Allowed) s
      { s with
        core := s.core.setContext cur (s.core.contexts cur).markUnused.clearUcontext
        phase := Function.update s.phase cur .cleared } :=
  .tail (.single (.store (.mark hcur hphase hqueue))) (.store (.second hcur))

/-- The handler of another context starts with its frame and returns to the main flow. -/
theorem reschedule_run_faithful_other :
    ∃ s, Run (SchedState.Step SchedState.Switches) (signalledState [1]) s ∧
      s.events = [.handler 1 builtFrame builtFrame,
        .main 1 signalledContext.regs signalledContext.regs] ∧
      ∀ e ∈ s.events, e.Faithful := by
  have hcall := reschedule_eq_coreAfter (show
    (reschedule (signalledState [1]).core interruptedFrame).map Prod.fst
      = .ok (some ⟨1, builtFrame, true, some builtFrame⟩) by decide +kernel)
  have hswitch : SchedState.Switches (signalledState [1])
      ⟨1, builtFrame, true, some builtFrame⟩ := ⟨fun _ => by decide, fun _ _ => nofun⟩
  have hrun := ((Relation.ReflTransGen.single
    (SchedState.Step.switch interruptedFrame hcall hswitch)).trans
    (SchedState.run_stores 1 (by decide +kernel) (by decide +kernel)
      (by decide +kernel))).tail (.leave 1 (by decide +kernel) (by simp))
  exact ⟨_, hrun, by decide +kernel, reschedule_run_faithful (signalledState_initial [1]) hrun⟩

/-- **A handler is lost.**  Context 0 is interrupted in its main flow and is the
one that `delivery_stack` says to run next, with a notification pending.
`reschedule` starts the handler and then stores the interrupted frame over the
frame of the handler: what is resumed is the main flow. -/
theorem reschedule_loses_handler :
    ∃ s, Run (SchedState.Step fun _ _ => True) (signalledState [0]) s ∧
      s.events = [.handler 0 builtFrame interruptedFrame] ∧
      ¬ ∀ e ∈ s.events, e.Faithful := by
  have hcall := reschedule_eq_coreAfter (show
    (reschedule (signalledState [0]).core interruptedFrame).map Prod.fst
      = .ok (some ⟨0, interruptedFrame, true, some builtFrame⟩) by decide +kernel)
  refine ⟨_, .single (SchedState.Step.switch interruptedFrame hcall trivial), rfl, fun hall => ?_⟩
  have hlost : interruptedFrame = builtFrame :=
    hall (.handler 0 builtFrame interruptedFrame) (List.mem_singleton.mpr rfl)
  exact absurd hlost (by decide)

/-- **A main flow is lost.**  The handler of context 1 returns, and the interrupt that makes
context 2 run comes after the last store of `notification_return`: the frame of the system
call is stored over the frame of the main flow. -/
theorem reschedule_loses_main :
    ∃ s, Run (SchedState.Step fun _ _ => True) (signalledState [1, 2]) s ∧
      s.core.current = some 2 ∧ s.mainFrame 1 = signalledContext.regs ∧
      (s.core.contexts 1).ucontext = none ∧ (s.core.contexts 1).regs = yieldFrame := by
  have hfirst := reschedule_eq_coreAfter (show
    (reschedule (signalledState [1, 2]).core interruptedFrame).map Prod.fst
      = .ok (some ⟨1, builtFrame, true, some builtFrame⟩) by decide +kernel)
  have hswitch : SchedState.Step (fun _ _ => True) (signalledState [1, 2]) _ :=
    .switch interruptedFrame hfirst trivial
  have hrun := (Relation.ReflTransGen.single hswitch).trans
    (SchedState.run_stores 1 (by decide +kernel) (by decide +kernel) (by decide +kernel))
  have hsecond := reschedule_eq_coreAfter (show
    (reschedule ((coreAfter (signalledState [1, 2]).core interruptedFrame).setContext 1
      ((coreAfter (signalledState [1, 2]).core
        interruptedFrame).contexts 1).markUnused.clearUcontext) yieldFrame).map Prod.fst
      = .ok (some ⟨2, builtFrame, true, some builtFrame⟩) by decide +kernel)
  exact ⟨_, hrun.tail (.switch yieldFrame hsecond trivial), by decide +kernel, by decide +kernel,
    by decide +kernel, by decide +kernel⟩

end Rock
