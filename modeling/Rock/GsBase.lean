/-
Rock/GsBase.lean

The two GS bases of a core over entries to the kernel and exits from it
(`isr_handler_main`, `syscall_main`, `reschedule` and `notification_return`).

`CORE_LOCAL` reads the active GS base, so it has to be the address of the core's
`cpu_local` whenever kernel code runs, and user code has to run with its own, while
`cpu_local` waits in the other register.  `swapgs` exchanges the two.  An entry decides by
the mode that was interrupted, and every exit by the `cs` of a frame.

For three of the exits that is the frame that is resumed.  `reschedule` however tests the
`cs` of `next_context->regs`, the frame of the main flow, and resumes the frame of the
current flow, which may be that of a handler.  If the main flow was interrupted inside a
system call and a handler is started, the handler runs in user mode with the GS base of the
kernel (`gs_base_leaks`).  Main result: as long as the two frames agree in privilege at
every switch (`Agrees`), and no interrupt comes between the `swapgs` of a
`notification_return` and its `iretq`, the bases are right in every state a run reaches
(`gs_discipline`); and where the frames do not agree, they are wrong after the switch
(`switchTo_disciplined_iff`).

`notification_return` is a system call and has interrupts on to its end.  An interrupt
after its `swapgs` finds a frame of the kernel and does not exchange the bases again: the
kernel runs with the base of the user (`gs_base_interrupted`).  So its stores, its
`swapgs` and its `iretq` are steps of their own.  In the other exits, and in the entries,
interrupts are masked between `swapgs` and the change of mode.
-/
import Rock.Scheduler

namespace Rock

/-! ### The core -/

/-- The frame is one of user mode, `(cs & 3) == 3`. -/
def Registers.User (regs : Registers) : Prop := regs.cs &&& 3 = 3

instance (regs : Registers) : Decidable regs.User := inferInstanceAs (Decidable (_ = _))

/-- What runs on a core: user code; kernel code with the frames of the entries that have
not returned yet, the newest first; or the end of `notification_return` after its
`SWAP_TLS`, which loads the frame of the main flow. -/
inductive Mode where
  | user
  | kernel (frames : List Registers)
  | leaving
  deriving DecidableEq

/-- A core with its GS bases: `userGs` has the `user_gs_base` of the contexts, `active` is
`MSR_GS_BASE` and `kernelGs` is `KERNEL_GS_BASE`. -/
structure GsState where
  core : Core
  phase : ℕ → Returning
  userGs : ℕ → Word
  mode : Mode
  active : Word
  kernelGs : Word

namespace GsState

def swapgs (s : GsState) : GsState := { s with active := s.kernelGs, kernelGs := s.active }

/-- `SWAP_TLS`. -/
def swapTls (s : GsState) (regs : Registers) : GsState := if regs.User then s.swapgs else s

/-- `iretq` to a frame; a frame of the kernel goes on with the entries below it. -/
def iretq (s : GsState) (regs : Registers) (frames : List Registers) : GsState :=
  { s with mode := if regs.User then .user else .kernel frames }

/-- The start of `isr_handler_main`. -/
def isrEnter (s : GsState) (regs : Registers) (frames : List Registers) : GsState :=
  let s := if regs.cs &&& 3 ≠ 0 then s.swapgs else s
  { s with mode := .kernel (regs :: frames) }

/-- The end of `isr_handler_main`. -/
def isrLeave (s : GsState) (regs : Registers) (frames : List Registers) : GsState :=
  (if regs.cs &&& 3 ≠ 0 then s.swapgs else s).iretq regs frames

/-- The start of `syscall_main`. -/
def syscallEnter (s : GsState) (regs : Registers) : GsState :=
  { s.swapgs with mode := .kernel [regs] }

/-- The end of `syscall_main`. -/
def syscallLeave (s : GsState) : GsState := { s.swapgs with mode := .user }

/-- `user_gs_base` of the running context is stored, and that of the next one is loaded. -/
def loadUserGs (s : GsState) (k' : Core) (r : Resumed) : GsState :=
  let userGs :=
    match s.core.current with
    | some cur => Function.update s.userGs cur s.kernelGs
    | none => s.userGs
  { s with
    core := k', phase := restart s.phase r, userGs := userGs, kernelGs := userGs r.ctx }

/-- The end of `reschedule`, after the frames were exchanged. -/
def switchTo (s : GsState) (k' : Core) (r : Resumed) (frames : List Registers) : GsState :=
  ((s.loadUserGs k' r).swapTls (k'.contexts r.ctx).regs).iretq r.frame frames

/-- `SWAP_TLS` of `notification_return`, which tests the frame of the main flow. -/
def returnSwap (s : GsState) (cur : ℕ) : GsState :=
  { s.swapTls (s.core.contexts cur).regs with
    mode := .leaving, phase := Function.update s.phase cur .no }

/-- The steps of a core, where a switch must be `Allowed`, and `Between` says whether an
interrupt may come between the `swapgs` and the `iretq` of a `notification_return`.  The
frames below a frame of the kernel that is resumed are those its flow has on its stack. -/
inductive Step (Allowed : Core → Registers → Resumed → Prop) (Between : Prop) :
    GsState → GsState → Prop
  | userInterrupt {s : GsState} {regs : Registers} :
      s.mode = .user → regs.User → Step Allowed Between s (s.isrEnter regs [])
  | kernelInterrupt {s : GsState} {regs : Registers} {frames : List Registers} :
      s.mode = .kernel frames → regs.cs &&& 3 = 0 →
      Step Allowed Between s (s.isrEnter regs frames)
  | leavingInterrupt {s : GsState} {regs : Registers} :
      s.mode = .leaving → regs.cs &&& 3 = 0 → Between →
      Step Allowed Between s (s.isrEnter regs [])
  | interruptReturn {s : GsState} {regs : Registers} {frames : List Registers} :
      s.mode = .kernel (regs :: frames) → regs.User ∨ regs.cs &&& 3 = 0 →
      Step Allowed Between s (s.isrLeave regs frames)
  | syscall {s : GsState} {regs : Registers} :
      s.mode = .user → regs.User → Step Allowed Between s (s.syscallEnter regs)
  | sysret {s : GsState} {regs : Registers} {frames : List Registers} :
      s.mode = .kernel (regs :: frames) → regs.User → Step Allowed Between s s.syscallLeave
  | switch {s : GsState} {regs : Registers} {r : Resumed} {k' : Core} {frames : List Registers}
      (frames' : List Registers) :
      s.mode = .kernel (regs :: frames) → reschedule s.core regs = .ok (some r, k') →
      Allowed s.core regs r → Step Allowed Between s (s.switchTo k' r frames')
  | idle {s : GsState} {regs : Registers} {k' : Core} {frames : List Registers} :
      s.mode = .kernel (regs :: frames) → reschedule s.core regs = .ok (none, k') →
      Step Allowed Between s { s with core := k' }
  | store {s : GsState} {k' : Core} {phase' : ℕ → Returning} {frames : List Registers} :
      s.mode = .kernel frames → s.core.Stores s.phase k' phase' →
      Step Allowed Between s { s with core := k', phase := phase' }
  | returnSwap {s : GsState} (cur : ℕ) {frames : List Registers} :
      s.mode = .kernel frames → s.core.current = some cur → s.phase cur = .cleared →
      Step Allowed Between s (s.returnSwap cur)
  | returnIretq {s : GsState} (cur : ℕ) (frames' : List Registers) :
      s.mode = .leaving → s.core.current = some cur →
      Step Allowed Between s (s.iretq (s.core.contexts cur).regs frames')
  | other {s : GsState} (k' : Core) :
      SchedState.SameFrames s.core k' → Step Allowed Between s { s with core := k' }

/-- The bases in kernel code. -/
def KernelBases (cpuLocal : Word) (s : GsState) : Prop :=
  s.active = cpuLocal ∧ ∀ c, s.core.current = some c → s.kernelGs = s.userGs c

/-- The bases in user code. -/
def UserBases (cpuLocal : Word) (s : GsState) : Prop :=
  s.kernelGs = cpuLocal ∧ ∀ c, s.core.current = some c → s.active = s.userGs c

/-- **The discipline**: kernel code runs with `cpu_local` as the active base; user code runs
with the base of its context, and `cpu_local` is in the other register; and the end of
`notification_return` has the bases of the frame it loads. -/
def Disciplined (cpuLocal : Word) (s : GsState) : Prop :=
  match s.mode with
  | .kernel _ => s.active = cpuLocal
  | .user => s.UserBases cpuLocal
  | .leaving => ∀ c, s.core.current = some c →
      if (s.core.contexts c).regs.User then s.UserBases cpuLocal else s.active = cpuLocal

/-- A state to start from: kernel code runs, and the base of the running context, if there
is one, is in the other register. -/
structure Initial (cpuLocal : Word) (s : GsState) : Prop where
  mode : ∃ frames, s.mode = .kernel frames
  active : s.active = cpuLocal
  kernelGs : ∀ c, s.core.current = some c → s.kernelGs = s.userGs c
  valid : ∀ c u, (s.core.contexts c).ucontext = some u → u < (s.core.contexts c).ucontexts.length

/-- The frame that a switch resumes is of user mode exactly if the main flow of its context
was interrupted there.  Where the running context goes on, the frame is the interrupted
one; a new handler is in user mode. -/
def Agrees (k : Core) (regs : Registers) (r : Resumed) : Prop :=
  if k.current = some r.ctx then
    r.built.isSome ∨ (k.contexts r.ctx).ucontext.isSome →
      (regs.User ↔ (k.contexts r.ctx).regs.User)
  else if r.built.isSome then (k.contexts r.ctx).regs.User
  else (k.contexts r.ctx).currentFrame.User ↔ (k.contexts r.ctx).regs.User

end GsState

/-! ### Which frame a switch resumes -/

/-- The `ucontext` of a context is one of its `ucontexts`. -/
def Context.Valid (c : Context) : Prop := ∀ u, c.ucontext = some u → u < c.ucontexts.length

/-- A dispatch that starts no handler leaves the current frame alone; a handler starts in
user mode. -/
theorem notificationDispatch_current {c : Context} {d : Dispatched} (hvalid : c.Valid)
    (h : notificationDispatch c = .ok d) :
    d.ctx.Valid ∧ (d.handed = none → d.ctx.ucontext = c.ucontext ∧
      d.ctx.currentFrame = c.currentFrame) ∧
      (d.handed.isSome → d.ctx.ucontext.isSome ∧ d.ctx.currentFrame.User) := by
  rcases notificationDispatch_cases h with rfl | ⟨q, -, -, -, h⟩
  · exact ⟨hvalid, fun _ => ⟨rfl, rfl⟩, nofun⟩
  obtain ⟨hlt, hpre⟩ := getUcontext_spec c.ucontexts
  rcases dispatchFrom_cases h with ⟨q', -, rfl⟩ | ⟨i, id, q', stack, -, -, rfl⟩
  · refine ⟨fun u hu => lt_of_lt_of_le (hvalid u hu) hpre.length_le, fun _ => ⟨rfl, ?_⟩, nofun⟩
    unfold Context.currentFrame
    rcases hu : c.ucontext with - | u
    · rfl
    · -- the list has only grown
      obtain ⟨rest, hrest⟩ := hpre
      dsimp only
      rw [← hrest, List.getD_eq_getElem?_getD, List.getElem?_append_left (hvalid u hu),
        List.getD_eq_getElem?_getD]
  · refine ⟨fun u hu => ?_, nofun, fun _ => ⟨rfl, ?_⟩⟩
    · obtain rfl := Option.some.inj hu
      simpa [startHandler] using hlt
    · have hcs : (startHandler { c with
          ucontexts := (getUcontext c.ucontexts).2
          ucontextIdx := (getUcontext c.ucontexts).1 } q' (getUcontext c.ucontexts).1 i id
          stack).ctx.currentFrame.cs = 0x43 := by
        simp [startHandler, Context.currentFrame, hlt, handlerFrame]
      unfold Registers.User
      rw [hcs]
      decide

theorem Context.Valid.markUnused {c : Context} (hvalid : c.Valid) : c.markUnused.Valid := by
  intro u hu
  have hlt := hvalid u hu
  have hu : c.ucontext = some u := hu
  simpa [Context.markUnused, hu] using hlt

/-- A stored frame is the current one. -/
theorem Context.Valid.saveFrame {c : Context} (hvalid : c.Valid) (regs : Registers) :
    (c.saveFrame regs).Valid ∧ (c.saveFrame regs).currentFrame = regs := by
  unfold Context.saveFrame Context.Valid Context.currentFrame
  rcases hu : c.ucontext with - | u
  · simp
  · have hlt := hvalid u hu
    simp [hlt, List.getD_eq_getElem?_getD]

/-- **Which privileges meet in a switch**: the condition on the state before is that the
frame which is resumed and the one that is tested agree. -/
theorem agrees_iff {k k' : Core} {regs : Registers} {r : Resumed}
    (hvalid : ∀ c, (k.contexts c).Valid) (h : reschedule k regs = .ok (some r, k')) :
    GsState.Agrees k regs r ↔ (r.frame.User ↔ (k'.contexts r.ctx).regs.User) := by
  obtain ⟨d, hd, hbuilt, -, hcontexts, hframe, -⟩ := reschedule_spec h
  obtain ⟨hvalid', hsame, hnew⟩ := notificationDispatch_current (hvalid r.ctx) hd
  have hregs : d.ctx.regs = (k.contexts r.ctx).regs := (notificationDispatch_spec hd).1
  have hsome : r.built.isSome = d.handed.isSome := by
    rw [hbuilt, Option.isSome_map]
  unfold GsState.Agrees
  rw [hframe, hcontexts]
  split_ifs with hcur hstart
  · -- the running context: its frame was stored in the slot that is resumed
    have hctx : saveCurrent (Function.update k.contexts r.ctx d.ctx) k.current regs r.ctx
        = d.ctx.saveFrame regs := by
      simp [saveCurrent, hcur]
    rw [hctx, (hvalid'.saveFrame regs).2, Context.saveFrame_regs]
    have hslot : (r.built.isSome ∨ (k.contexts r.ctx).ucontext.isSome) ↔ d.ctx.ucontext.isSome := by
      rw [hsome]
      rcases hh : d.handed with - | x
      · simp [(hsame hh).1]
      · simp [(hnew (by simp [hh])).1]
    rw [hslot]
    split_ifs with hh
    · rw [hregs]
      exact ⟨fun hc => hc hh, fun hc _ => hc⟩
    · exact iff_of_true (fun hc => absurd hc hh) Iff.rfl
  all_goals
    have hctx : saveCurrent (Function.update k.contexts r.ctx d.ctx) k.current regs r.ctx
        = d.ctx := by
      unfold saveCurrent
      rcases hc : k.current with - | cur
      · exact Function.update_self ..
      · have hne : r.ctx ≠ cur := fun heq => hcur (heq ▸ hc)
        simp [hne]
    rw [hctx, hregs]
  · have huser := (hnew (hsome ▸ hstart)).2
    exact ⟨fun hc => iff_of_true huser hc, fun hc => hc.mp huser⟩
  · have hnone : d.handed = none := by
      rw [hsome] at hstart
      simpa using hstart
    rw [(hsame hnone).2]

/-! ### Whole runs -/

namespace GsState

variable {cpuLocal : Word} {s s' : GsState}

/-- The discipline, and in kernel code the base of the running context in the other
register. -/
structure Inv (cpuLocal : Word) (s : GsState) : Prop where
  bases : match s.mode with
    | .kernel _ => s.KernelBases cpuLocal
    | .user => s.UserBases cpuLocal
    | .leaving => ∀ c, s.core.current = some c →
        if (s.core.contexts c).regs.User then s.UserBases cpuLocal else s.KernelBases cpuLocal
  valid : ∀ c, (s.core.contexts c).Valid

theorem Inv.kernel {frames : List Registers} (h : s.Inv cpuLocal)
    (hmode : s.mode = .kernel frames) : s.KernelBases cpuLocal := by
  have hbases := h.bases
  rwa [hmode] at hbases

theorem Inv.user (h : s.Inv cpuLocal) (hmode : s.mode = .user) : s.UserBases cpuLocal := by
  have hbases := h.bases
  rwa [hmode] at hbases

theorem Inv.leaving (h : s.Inv cpuLocal) (hmode : s.mode = .leaving) {c : ℕ}
    (hc : s.core.current = some c) :
    if (s.core.contexts c).regs.User then s.UserBases cpuLocal else s.KernelBases cpuLocal := by
  have hbases := h.bases
  rw [hmode] at hbases
  exact hbases c hc

theorem Inv.disciplined (h : s.Inv cpuLocal) : s.Disciplined cpuLocal := by
  unfold Disciplined
  rcases hmode : s.mode with - | frames | -
  · exact h.user hmode
  · exact (h.kernel hmode).1
  · intro c hc
    have hbases := h.leaving hmode hc
    split_ifs at hbases ⊢
    · exact hbases
    · exact hbases.1

theorem Initial.inv (h : s.Initial cpuLocal) : s.Inv cpuLocal := by
  obtain ⟨frames, hmode⟩ := h.mode
  refine ⟨?_, fun c u hu => h.valid c u hu⟩
  rw [hmode]
  exact ⟨h.active, h.kernelGs⟩

/-- The stores of a `notification_return` leave the bases and the slots in place. -/
theorem Inv.store (h : s.Inv cpuLocal) {frames : List Registers}
    (hmode : s.mode = .kernel frames) {k' : Core} {phase' : ℕ → Returning}
    (hstore : s.core.Stores s.phase k' phase') :
    Inv cpuLocal { s with core := k', phase := phase' } := by
  refine ⟨?_, fun c => ?_⟩
  · have hkernel := h.kernel hmode
    simp only [hmode]
    exact ⟨hkernel.1, fun c hc => hkernel.2 c (hstore.spec.1.symm.trans hc)⟩
  · cases hstore with
    | @mark cur hcur _ _ =>
        rcases eq_or_ne c cur with rfl | hne
        · simp only [Core.setContext, Function.update_self]
          exact (h.valid c).markUnused
        · simpa only [Core.setContext, Function.update_of_ne hne] using h.valid c
    | @clear cur hcur _ =>
        rcases eq_or_ne c cur with rfl | hne
        · simp only [Core.setContext, Function.update_self]
          intro u hu
          cases hu
        · simpa only [Core.setContext, Function.update_of_ne hne] using h.valid c

/-- `SWAP_TLS` of a `notification_return` puts the bases of the frame in place. -/
theorem Inv.returnSwap (h : s.Inv cpuLocal) {frames : List Registers}
    (hmode : s.mode = .kernel frames) {cur : ℕ} (hcur : s.core.current = some cur) :
    (s.returnSwap cur).Inv cpuLocal := by
  have hkernel := h.kernel hmode
  unfold GsState.returnSwap swapTls
  by_cases huser : (s.core.contexts cur).regs.User
  · rw [if_pos huser]
    refine ⟨fun c hc => ?_, h.valid⟩
    obtain rfl := Option.some.inj (hcur.symm.trans hc)
    exact (if_pos huser).mpr hkernel
  · rw [if_neg huser]
    refine ⟨fun c hc => ?_, h.valid⟩
    obtain rfl := Option.some.inj (hcur.symm.trans hc)
    exact (if_neg huser).mpr hkernel

/-- **An exit that tests the frame it resumes** is right: from kernel code with the bases in
place, `swapgs` if the frame is one of user mode. -/
theorem inv_swapTls_iretq (hactive : s.active = cpuLocal)
    (hkernel : ∀ c, s.core.current = some c → s.kernelGs = s.userGs c)
    (hvalid : ∀ c, (s.core.contexts c).Valid) {tested resumed : Registers}
    (hagree : resumed.User ↔ tested.User) (frames : List Registers) :
    ((s.swapTls tested).iretq resumed frames).Inv cpuLocal := by
  unfold swapTls iretq
  by_cases huser : tested.User
  · rw [if_pos huser]
    refine ⟨?_, hvalid⟩
    simp only [if_pos (hagree.mpr huser)]
    exact ⟨hactive, hkernel⟩
  · rw [if_neg huser]
    refine ⟨?_, hvalid⟩
    simp only [if_neg (mt hagree.mp huser)]
    exact ⟨hactive, hkernel⟩

/-- A switch: the bases are in place before the last test. -/
theorem Inv.switchTo (h : s.Inv cpuLocal) {frames : List Registers}
    (hmode : s.mode = .kernel frames) {k' : Core} {r : Resumed} {regs : Registers}
    (hcall : reschedule s.core regs = .ok (some r, k')) (hagree : Agrees s.core regs r)
    (frames' : List Registers) : (s.switchTo k' r frames').Inv cpuLocal := by
  have hagree' := (agrees_iff h.valid hcall).mp hagree
  obtain ⟨d, hd, -, hcur, hcontexts, -, -⟩ := reschedule_spec hcall
  have hactive : (s.loadUserGs k' r).active = cpuLocal := (h.kernel hmode).1
  refine inv_swapTls_iretq hactive (fun c hc => ?_) (fun c => ?_) hagree' frames'
  · obtain rfl := Option.some.inj (hcur.symm.trans hc)
    rfl
  · -- dispatch and store leave the current slot in the list
    show (k'.contexts c).Valid
    rw [hcontexts]
    have hdisp : ∀ x, (Function.update s.core.contexts r.ctx d.ctx x).Valid := by
      intro x
      rcases eq_or_ne x r.ctx with rfl | hne
      · rw [Function.update_self]
        exact (notificationDispatch_current (h.valid r.ctx) hd).1
      · rw [Function.update_of_ne hne]
        exact h.valid x
    unfold saveCurrent
    rcases s.core.current with - | cur
    · exact hdisp c
    · dsimp only
      rcases eq_or_ne c cur with rfl | hne
      · rw [Function.update_self]
        exact ((hdisp c).saveFrame regs).1
      · rw [Function.update_of_ne hne]
        exact hdisp c

/-- **The condition is exact**: a switch to a context whose base is not `cpu_local` leaves
the bases right only if the frames agree. -/
theorem switchTo_disciplined_iff (h : s.Inv cpuLocal) {frames : List Registers}
    (hmode : s.mode = .kernel frames) {k' : Core} {r : Resumed} {regs : Registers}
    (hcall : reschedule s.core regs = .ok (some r, k')) (hne : s.userGs r.ctx ≠ cpuLocal)
    (frames' : List Registers) :
    (s.switchTo k' r frames').Disciplined cpuLocal ↔ Agrees s.core regs r := by
  refine ⟨fun hdis => ?_, fun hagree => (h.switchTo hmode hcall hagree frames').disciplined⟩
  have hbase : (s.loadUserGs k' r).kernelGs = s.userGs r.ctx := by
    unfold loadUserGs
    rcases hcur : s.core.current with - | cur
    · rfl
    · dsimp only
      rcases eq_or_ne r.ctx cur with heq | hother
      · rw [heq, Function.update_self]
        exact (h.kernel hmode).2 cur hcur
      · rw [Function.update_of_ne hother]
  rw [agrees_iff h.valid hcall]
  unfold GsState.switchTo swapTls iretq Disciplined at hdis
  by_cases htested : (k'.contexts r.ctx).regs.User
  · -- exchanged: a frame of the kernel would run with the base of the user
    refine iff_of_true ?_ htested
    by_contra hframe
    simp only [if_pos htested, if_neg hframe] at hdis
    exact hne (hbase.symm.trans hdis)
  · refine iff_of_false (fun hframe => ?_) htested
    simp only [if_neg htested, if_pos hframe] at hdis
    exact hne (hbase.symm.trans hdis.1)

theorem Inv.step (s s' : GsState) (h : s.Inv cpuLocal) (hstep : Step Agrees False s s') :
    s'.Inv cpuLocal := by
  cases hstep with
  | @userInterrupt regs hmode huser =>
      have hne : regs.cs &&& 3 ≠ 0 := by
        rw [show regs.cs &&& 3 = 3 from huser]
        decide
      simp only [isrEnter, if_pos hne]
      exact ⟨h.user hmode, h.valid⟩
  | @kernelInterrupt regs frames hmode hzero =>
      simp only [isrEnter, if_neg (not_not_intro hzero)]
      exact ⟨h.kernel hmode, h.valid⟩
  | @interruptReturn regs frames hmode hring =>
      -- the two tests of `cs` are the same for the rings in use
      have htest : (if regs.cs &&& 3 ≠ 0 then s.swapgs else s) = s.swapTls regs := by
        unfold swapTls
        rcases hring with huser | hzero
        · rw [if_pos huser, if_pos (by rw [show regs.cs &&& 3 = 3 from huser]; decide)]
        · rw [if_neg (not_not_intro hzero), if_neg (by unfold Registers.User; rw [hzero]; decide)]
      rw [isrLeave, htest]
      exact inv_swapTls_iretq (h.kernel hmode).1 (h.kernel hmode).2 h.valid Iff.rfl frames
  | syscall hmode _ => exact ⟨h.user hmode, h.valid⟩
  | sysret hmode _ => exact ⟨h.kernel hmode, h.valid⟩
  | switch frames' hmode hcall hallowed => exact h.switchTo hmode hcall hallowed frames'
  | idle hmode hcall => exact reschedule_idle hcall ▸ h
  | leavingInterrupt _ _ hbetween => exact hbetween.elim
  | store hmode hstore => exact h.store hmode hstore
  | returnSwap cur hmode hcur _ => exact h.returnSwap hmode hcur
  | returnIretq cur frames' hmode hcur =>
      have hbases := h.leaving hmode hcur
      unfold iretq
      split_ifs at hbases ⊢ <;> exact ⟨hbases, h.valid⟩
  | other k' hsame =>
      obtain ⟨hcur, hframes⟩ := hsame
      refine ⟨?_, fun c u hu => ?_⟩
      · rcases hmode : s.mode with - | frames | -
        · have huser := h.user hmode
          exact ⟨huser.1, fun c hc => huser.2 c (hcur.symm.trans hc)⟩
        · have hkernel := h.kernel hmode
          exact ⟨hkernel.1, fun c hc => hkernel.2 c (hcur.symm.trans hc)⟩
        · intro c hc
          have hbases := h.leaving hmode (hcur.symm.trans hc)
          dsimp only [UserBases, KernelBases] at hbases ⊢
          rwa [(hframes c).1, hcur]
      · obtain ⟨-, hucontexts, hucontext⟩ := hframes c
        rw [hucontext] at hu
        rw [hucontexts]
        exact h.valid c u hu

end GsState

/-- **The GS bases are right.**  In every run in which, at each switch, the frame that is
resumed and the main frame of its context agree in privilege, and no interrupt comes between
the `swapgs` and the `iretq` of a `notification_return`: kernel code runs with
`cpu_local` as the active GS base, and user code with the base of its context and
`cpu_local` in the other register. -/
theorem gs_discipline {cpuLocal : Word} {s₀ s : GsState} (hinit : s₀.Initial cpuLocal)
    (hrun : Run (GsState.Step GsState.Agrees False) s₀ s) : s.Disciplined cpuLocal :=
  (Run.invariant GsState.Inv.step hinit.inv hrun).disciplined

/-! ### A handler with the base of the kernel -/

/-- A core in the kernel, where context 1 has a notification and its main flow was last
interrupted with the frame `main`; the contexts of `delivery` are to be switched to. -/
def inSyscall (main : Registers) (delivery : List ℕ) : GsState where
  core :=
    { contexts := fun c => if c = 1 then { signalledContext with regs := main }
        else { idleContext with regs := interruptedFrame }
      current := if delivery = [1] then some 0 else some 1
      deliveryStack := delivery
      threadQueue := []
      schedulingServer := none }
  phase := fun _ => .no
  userGs := fun _ => 0
  mode := .kernel [interruptedFrame]
  active := 0xffff800000001000
  kernelGs := 0

theorem inSyscall_initial (main : Registers) (delivery : List ℕ) :
    (inSyscall main delivery).Initial 0xffff800000001000 where
  mode := ⟨_, rfl⟩
  active := rfl
  kernelGs := fun _ _ => rfl
  valid := by
    intro c u hu
    have hnone : ((inSyscall main delivery).core.contexts c).ucontext = none := by
      unfold inSyscall
      dsimp only
      split_ifs <;> rfl
    cases hnone.symm.trans hu

/-- A handler is started on a context whose main flow was interrupted in user mode. -/
theorem gs_discipline_user :
    ∃ s, Run (GsState.Step GsState.Agrees False) (inSyscall interruptedFrame [1]) s ∧
      s.mode = .user ∧ s.core.current = some 1 ∧ s.Disciplined 0xffff800000001000 := by
  have hcall := reschedule_eq_coreAfter (show
    (reschedule (inSyscall interruptedFrame [1]).core interruptedFrame).map Prod.fst
      = .ok (some ⟨1, builtFrame, true, some builtFrame⟩) by decide +kernel)
  have hagree : GsState.Agrees (inSyscall interruptedFrame [1]).core interruptedFrame
      ⟨1, builtFrame, true, some builtFrame⟩ := by
    unfold GsState.Agrees
    rw [if_neg (by decide), if_pos (by decide)]
    decide
  have hswitch : GsState.Step GsState.Agrees False (inSyscall interruptedFrame [1]) _ :=
    .switch [] rfl hcall hagree
  have hrun := Relation.ReflTransGen.single hswitch
  exact ⟨_, hrun, by decide +kernel, by decide +kernel,
    gs_discipline (inSyscall_initial interruptedFrame [1]) hrun⟩

/-- **User code with the base of the kernel.**  Context 1 yields inside a system call, and
context 0 runs until the next tick.  Context 1, which has a notification, is switched to:
its handler is resumed in user mode, and as its main flow was interrupted in the kernel,
there is no `swapgs`. -/
theorem gs_base_leaks :
    ∃ s, (inSyscall default [0, 1]).Initial 0xffff800000001000 ∧
      Run (GsState.Step (fun _ _ _ => True) False) (inSyscall default [0, 1]) s ∧
      s.mode = .user ∧ s.core.current = some 1 ∧ s.userGs 1 = 0 ∧
      s.active = 0xffff800000001000 ∧ ¬ s.Disciplined 0xffff800000001000 := by
  let s₁ := (inSyscall default [0, 1]).isrEnter yieldFrame [interruptedFrame]
  let s₂ := s₁.switchTo (coreAfter s₁.core yieldFrame) ⟨0, interruptedFrame, false, none⟩ []
  let s₃ := s₂.isrEnter interruptedFrame []
  let s₄ := s₃.switchTo (coreAfter s₃.core interruptedFrame)
    ⟨1, builtFrame, true, some builtFrame⟩ []
  have hyield : GsState.Step (fun _ _ _ => True) False (inSyscall default [0, 1]) s₁ :=
    .kernelInterrupt rfl (by decide)
  have hfirst : GsState.Step (fun _ _ _ => True) False s₁ s₂ :=
    .switch [] rfl (reschedule_eq_coreAfter (by decide +kernel)) trivial
  have htick : GsState.Step (fun _ _ _ => True) False s₂ s₃ :=
    .userInterrupt (by decide +kernel) (by decide)
  have hsecond : GsState.Step (fun _ _ _ => True) False s₃ s₄ :=
    .switch [] rfl (reschedule_eq_coreAfter (by decide +kernel)) trivial
  have hmode : s₄.mode = .user := by decide +kernel
  have hactive : s₄.active = 0xffff800000001000 := by decide +kernel
  have hcur : s₄.core.current = some 1 := by decide +kernel
  have hbase : s₄.userGs 1 = 0 := by decide +kernel
  refine ⟨s₄, inSyscall_initial default [0, 1],
    (((Relation.ReflTransGen.single hyield).tail hfirst).tail htick).tail hsecond, hmode, hcur,
    hbase, hactive, fun hdis => ?_⟩
  unfold GsState.Disciplined at hdis
  rw [hmode] at hdis
  have hzero := (hdis.2 1 hcur).symm.trans hactive
  rw [hbase] at hzero
  exact absurd hzero (by decide)

/-- **Kernel code with the base of the user.**  A handler has returned: `notification_return`
has executed `swapgs` for the main flow, which was interrupted in user mode, and an interrupt
comes before its `iretq`. -/
theorem gs_base_interrupted :
    ∃ s, (inSyscall interruptedFrame []).Initial 0xffff800000001000 ∧
      Run (GsState.Step GsState.Agrees True) (inSyscall interruptedFrame []) s ∧
      s.mode = .kernel [yieldFrame] ∧ s.active = 0 ∧ ¬ s.Disciplined 0xffff800000001000 := by
  have hqueue : ((inSyscall interruptedFrame []).core.contexts 1).queue.isSome := rfl
  have hmark : GsState.Step GsState.Agrees True (inSyscall interruptedFrame []) _ :=
    .store rfl (.mark rfl rfl hqueue)
  refine ⟨_, inSyscall_initial interruptedFrame [], (((Relation.ReflTransGen.single hmark).tail
    (.store rfl (.second rfl))).tail (.returnSwap 1 rfl rfl (by decide +kernel))).tail
    (.leavingInterrupt rfl (show yieldFrame.cs &&& 3 = 0 by decide) trivial),
    rfl, by decide +kernel, fun hdis => ?_⟩
  have hbase : (0 : Word) = 0xffff800000001000 := Eq.trans (by decide +kernel) hdis
  exact absurd hbase (by decide)

end Rock
