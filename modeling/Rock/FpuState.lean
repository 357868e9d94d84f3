/-
Rock/FpuState.lean

The FPU image in context switches (`reschedule` of kernel/core/scheduler.c and
`syscall_notification_return` of kernel/core/notification.c).

A context has a buffer for the image of its main flow, allocated in `create_blank_context`.  A
`ucontext` has a pointer to one for its handler, and nothing ever sets it: it is null, as the
`ucontext` was allocated.  `reschedule` saves and loads through the pointer of the current flow.
`notification_return` loads from the address of the pointer instead of the pointer, that is,
from the bytes of `struct context` itself.

So the image follows its flow as long as only main flows are switched.  `fpu_follows_flow`
says this for every run, and that any other step goes wrong at once: it saves to or loads from
a null pointer, or loads what is no image.

The size of an image and its alignment play no part: an image is a value.
-/
import Rock.Scheduler
import Rock.NotificationCalls

namespace Rock

/-! ### Buffers and flows -/

/-- What the pointer `fpu_context` of a flow points to: nothing, or the buffer that was
allocated for the main flow of a context. -/
inductive FpuBuffer where
  | null
  | main (c : ℕ)
  deriving DecidableEq

/-- The main flow of a context, or the handler in one of its `ucontexts`. -/
inductive Flow where
  | main (c : ℕ)
  | handler (c u : ℕ)
  deriving DecidableEq

/-- The flow of a context that is current. -/
def Context.flow (x : Context) (c : ℕ) : Flow :=
  match x.ucontext with
  | none => .main c
  | some u => .handler c u

/-- `*fpu_context`: the pointer of the context, or of its `ucontext`. -/
def Context.fpuContext (x : Context) (c : ℕ) : FpuBuffer :=
  match x.ucontext with
  | none => .main c
  | some _ => .null

section Image

variable {Image : Type}

/-- A call of `fpu_save` for the flow that is switched out, or of `fpu_rstor` for a flow whose
last image is `expected`. -/
inductive FpuEvent (Image : Type) where
  | save (buffer : FpuBuffer) (flow : Option Flow)
  | rstor (loaded : Option Image) (expected : Image)
  deriving DecidableEq

/-- The buffer was allocated for the flow; the image is the last one of the flow. -/
def FpuEvent.Faithful : FpuEvent Image → Prop
  | .save buffer flow => ∃ c, buffer = .main c ∧ flow = some (.main c)
  | .rstor loaded expected => loaded = some expected

/-- A core with the flow that is running, the image in the FPU and those in the buffers; the
image that was last saved for each flow; and the calls so far. -/
structure FpuState (Image : Type) where
  core : Core
  running : Option Flow
  live : Image
  buffers : ℕ → Image
  saved : Flow → Image
  events : List (FpuEvent Image)

namespace FpuState

/-- `fpu_save`. -/
def fpuSave (s : FpuState Image) (buffer : FpuBuffer) : FpuState Image :=
  { s with
    buffers :=
      match buffer with
      | .main c => Function.update s.buffers c s.live
      | .null => s.buffers
    saved :=
      match s.running with
      | some flow => Function.update s.saved flow s.live
      | none => s.saved
    events := s.events ++ [.save buffer s.running] }

/-- `fpu_rstor` for `flow`, with what the buffer holds. -/
def fpuRstor (s : FpuState Image) (loaded : Option Image) (flow : Flow) : FpuState Image :=
  { s with
    live := loaded.getD s.live
    running := some flow
    events := s.events ++ [.rstor loaded (s.saved flow)] }

/-- What is loaded through the pointer of a flow. -/
def load (s : FpuState Image) : FpuBuffer → Option Image
  | .main c => some (s.buffers c)
  | .null => none

/-- The image of the running flow is saved. -/
def switchOut (s : FpuState Image) (contexts : ℕ → Context) : FpuState Image :=
  match s.core.current with
  | some cur => s.fpuSave ((contexts cur).fpuContext cur)
  | none => s

/-- The switch of `reschedule` to `r`.  The pointers are those of the contexts after the
dispatch; that the frames were stored since then leaves them as they are.  A handler that was
just started has the image `initial`. -/
def switch (initial : Image) (s : FpuState Image) (r : Resumed) (k' : Core) : FpuState Image :=
  let s := s.switchOut k'.contexts
  let c := k'.contexts r.ctx
  let s := { s with
    saved :=
      if r.built.isSome then Function.update s.saved (c.flow r.ctx) initial else s.saved }
  { s.fpuRstor (s.load (c.fpuContext r.ctx)) (c.flow r.ctx) with core := k' }

/-- `syscall_notification_return` of the running context; `fieldImage` is what the bytes from
the field `fpu_context` on are as an image. -/
def notificationReturn (fieldImage : ℕ → Context → Image) (s : FpuState Image) : FpuState Image :=
  match s.core.current with
  | none => s
  | some cur =>
      match Rock.notificationReturn (s.core.contexts cur) with
      | none => s
      | some (_, c') =>
          { s.fpuRstor (some (fieldImage cur c')) (.main cur) with
            core := { s.core with contexts := Function.update s.core.contexts cur c' } }

end FpuState

/-- What happens on the core. -/
inductive FpuAct (Image : Type) where
  | reschedule (regs : Registers)
  | notificationReturn
  | compute (live : Image)
  | other (core : Core)

/-- The steps: a call of `reschedule` or of `notification_return`, the running flow uses the
FPU, or other code changes anything but the frames. -/
inductive FpuState.Step (initial : Image) (fieldImage : ℕ → Context → Image) :
    FpuState Image → FpuAct Image → FpuState Image → Prop
  | switch {s : FpuState Image} {r : Resumed} {k' : Core} (regs : Registers) :
      Rock.reschedule s.core regs = .ok (some r, k') →
      Step initial fieldImage s (.reschedule regs) (s.switch initial r k')
  | idle {s : FpuState Image} {k' : Core} (regs : Registers) :
      Rock.reschedule s.core regs = .ok (none, k') →
      Step initial fieldImage s (.reschedule regs) { s with core := k' }
  | ret {s : FpuState Image} :
      Step initial fieldImage s .notificationReturn (s.notificationReturn fieldImage)
  | compute {s : FpuState Image} (live : Image) :
      Step initial fieldImage s (.compute live) { s with live := live }
  | other {s : FpuState Image} (k' : Core) :
      SchedState.SameFrames s.core k' → Step initial fieldImage s (.other k') { s with core := k' }

/-! ### What one step does -/

/-- Both the running context and the one that is chosen are in their main flow, and no handler
is started. -/
def Core.BetweenMains (k : Core) : Prop :=
  (∀ cur, k.current = some cur → (k.contexts cur).ucontext = none) ∧
    ∀ next k', k.chooseNext = some (next, k') →
      (k.contexts next).ucontext = none ∧ ¬ (k.contexts next).StartsHandler

/-- **The condition on a step**: `reschedule` switches between main flows, and
`notification_return` fails, or what it loads happens to be the image in the buffer. -/
def FpuState.Meets (fieldImage : ℕ → Context → Image) (s : FpuState Image) :
    FpuAct Image → Prop
  | .reschedule _ => s.core.chooseNext.isSome → s.core.BetweenMains
  | .notificationReturn => ∀ cur, s.core.current = some cur →
      ∀ frame c', Rock.notificationReturn (s.core.contexts cur) = some (frame, c') →
        fieldImage cur c' = s.buffers cur
  | .compute _ => True
  | .other _ => True

/-- The buffer of each main flow has its last image, and the running flow is the one the
running context says. -/
structure FpuState.Inv (s : FpuState Image) : Prop where
  saved : ∀ c, s.saved (.main c) = s.buffers c
  flow : ∀ cur, s.core.current = some cur → s.running = some ((s.core.contexts cur).flow cur)

/-- A state to start from. -/
structure FpuState.Initial (s : FpuState Image) : Prop where
  inv : s.Inv
  events : s.events = []

theorem Context.flow_eq_main {x : Context} (c : ℕ) (h : x.ucontext = none) :
    x.flow c = .main c := by
  rw [flow, h]

theorem Context.fpuContext_eq_main {x : Context} (c : ℕ) (h : x.ucontext = none) :
    x.fpuContext c = .main c := by
  rw [fpuContext, h]

theorem Context.fpuContext_eq_null {x : Context} (c : ℕ) (h : x.ucontext ≠ none) :
    x.fpuContext c = .null := by
  obtain ⟨u, hu⟩ := Option.ne_none_iff_exists'.mp h
  rw [fpuContext, hu]

section Switch

variable {k k' : Core} {regs : Registers} {r : Resumed}

theorem reschedule_next_none (h : reschedule k regs = .ok (none, k')) : k.chooseNext = none := by
  unfold reschedule at h
  rcases hnext : k.chooseNext with - | ⟨next, k₁⟩
  · rfl
  · simp only [hnext] at h
    obtain ⟨d, -, h⟩ := Exec.bind_eq_ok.mp h
    simp at h

theorem saveCurrent_ucontext (contexts : ℕ → Context) (current : Option ℕ) (c : ℕ) :
    (saveCurrent contexts current regs c).ucontext = (contexts c).ucontext := by
  unfold saveCurrent
  rcases current with - | cur
  · rfl
  · rcases eq_or_ne c cur with rfl | hne
    · simp
    · simp [hne]

/-- A switch changes the current flow of no other context. -/
theorem reschedule_ucontext_other (h : reschedule k regs = .ok (some r, k')) {c : ℕ}
    (hne : c ≠ r.ctx) : (k'.contexts c).ucontext = (k.contexts c).ucontext := by
  obtain ⟨d, -, -, -, hctx, -, -⟩ := reschedule_spec h
  rw [hctx, saveCurrent_ucontext, Function.update_of_ne hne]

/-- **The chosen context is in its main flow after the switch** exactly if it was before, and no
handler is started. -/
theorem reschedule_ucontext_next (h : reschedule k regs = .ok (some r, k')) :
    (k'.contexts r.ctx).ucontext = none ↔
      (k.contexts r.ctx).ucontext = none ∧ ¬ (k.contexts r.ctx).StartsHandler := by
  obtain ⟨d, hd, -, -, hctx, -, -⟩ := reschedule_spec h
  have hslot : (k'.contexts r.ctx).ucontext = d.ctx.ucontext := by
    rw [hctx, saveCurrent_ucontext, Function.update_self]
  rw [hslot]
  rcases notificationDispatch_frame hd with ⟨hstarts, q, i, id, frame, -, -, hhanded, -⟩ |
    ⟨hstarts, hnone⟩
  · rcases (notificationDispatch_spec hd).2 with ⟨hnone, -⟩ | ⟨-, u, -, -, -, hu, -⟩
    · cases hnone.symm.trans hhanded
    · exact iff_of_false (by simp [hu]) fun h => h.2 hstarts
  · rcases (notificationDispatch_spec hd).2 with ⟨-, hsame⟩ | ⟨id, u, frame, stack, hhanded, -⟩
    · rw [hsame]
      exact (and_iff_left hstarts).symm
    · cases hnone.symm.trans hhanded

/-- A switch that starts a handler leaves the context in it. -/
theorem reschedule_built (h : reschedule k regs = .ok (some r, k')) (hbuilt : r.built.isSome) :
    (k'.contexts r.ctx).ucontext ≠ none := by
  obtain ⟨d, hd, hhanded, -, hctx, -, -⟩ := reschedule_spec h
  rw [hctx, saveCurrent_ucontext, Function.update_self]
  rcases (notificationDispatch_spec hd).2 with ⟨hnone, -⟩ | ⟨-, u, -, -, -, hu, -⟩
  · rw [hhanded, hnone] at hbuilt
    cases hbuilt
  · simp [hu]

/-- The condition in terms of the contexts after the dispatch, which the code reads. -/
theorem betweenMains_iff (h : reschedule k regs = .ok (some r, k')) :
    k.BetweenMains ↔ (∀ cur, k.current = some cur → (k'.contexts cur).ucontext = none) ∧
      (k'.contexts r.ctx).ucontext = none := by
  obtain ⟨k₁, hnext⟩ := reschedule_next h
  constructor
  · rintro ⟨hcur, hchosen⟩
    have hctx := (reschedule_ucontext_next h).mpr (hchosen _ _ hnext)
    refine ⟨fun cur hc => ?_, hctx⟩
    rcases eq_or_ne cur r.ctx with rfl | hne
    · exact hctx
    · rw [reschedule_ucontext_other h hne]
      exact hcur cur hc
  · rintro ⟨hcur, hctx⟩
    have hbefore := (reschedule_ucontext_next h).mp hctx
    refine ⟨fun cur hc => ?_, fun next k₂ hnext' => ?_⟩
    · rcases eq_or_ne cur r.ctx with rfl | hne
      · exact hbefore.1
      · rw [← reschedule_ucontext_other h hne]
        exact hcur cur hc
    · obtain ⟨rfl, -⟩ := Prod.mk.inj (Option.some.inj (hnext.symm.trans hnext'))
      exact hbefore

end Switch

namespace FpuState

variable {s : FpuState Image} {r : Resumed} {k' : Core} {regs : Registers} {initial : Image}

/-- Saving the running main flow in its own buffer keeps the images of all main flows. -/
theorem Inv.switchOut (hI : s.Inv) (h : reschedule s.core regs = .ok (some r, k'))
    (hmains : s.core.BetweenMains) (c : ℕ) :
    (s.switchOut k'.contexts).saved (.main c) = (s.switchOut k'.contexts).buffers c := by
  unfold FpuState.switchOut
  rcases hcur : s.core.current with - | cur
  · exact hI.saved c
  · have hafter := ((betweenMains_iff h).mp hmains).1 cur hcur
    have hrun := (hI.flow cur hcur).trans
      (congrArg some (Context.flow_eq_main cur (hmains.1 cur hcur)))
    simp only [fpuSave, Context.fpuContext_eq_main cur hafter, hrun]
    rcases eq_or_ne c cur with rfl | hne
    · simp
    · have hflow : Flow.main c ≠ Flow.main cur := fun heq => hne (Flow.main.inj heq)
      rw [Function.update_of_ne hflow, Function.update_of_ne hne]
      exact hI.saved c

/-- The last image of a main flow that is resumed. -/
theorem switch_saved (h : reschedule s.core regs = .ok (some r, k')) (c : ℕ) :
    (s.switch initial r k').saved (.main c) = (s.switchOut k'.contexts).saved (.main c) := by
  show (if r.built.isSome then _ else _ : Flow → Image) (.main c) = _
  split_ifs with hbuilt
  · -- a handler was started: its image is the new one
    obtain ⟨u, hu⟩ := Option.ne_none_iff_exists'.mp (reschedule_built h hbuilt)
    refine Function.update_of_ne ?_ _ _
    rw [Context.flow, hu]
    exact Flow.noConfusion
  · rfl

/-- **A switch between main flows** keeps the images. -/
theorem Inv.switch (hI : s.Inv) (h : reschedule s.core regs = .ok (some r, k'))
    (hmains : s.core.BetweenMains) : (s.switch initial r k').Inv := by
  obtain ⟨d, -, -, hcurrent, -⟩ := reschedule_spec h
  refine ⟨fun c => ?_, fun cur hcur => ?_⟩
  · rw [switch_saved h]
    exact hI.switchOut h hmains c
  · obtain rfl := Option.some.inj (hcurrent.symm.trans hcur)
    rfl

/-- The image of the running flow is saved in its buffer exactly if its context is in its main
flow after the dispatch. -/
theorem Inv.save_faithful_iff (hI : s.Inv) (h : reschedule s.core regs = .ok (some r, k'))
    {cur : ℕ} (hcur : s.core.current = some cur) :
    (FpuEvent.save ((k'.contexts cur).fpuContext cur) s.running : FpuEvent Image).Faithful ↔
      (k'.contexts cur).ucontext = none := by
  constructor
  · rintro ⟨c, hbuffer, -⟩
    by_contra hne
    rw [Context.fpuContext_eq_null cur hne] at hbuffer
    cases hbuffer
  · intro hafter
    have hbefore : (s.core.contexts cur).ucontext = none := by
      rcases eq_or_ne cur r.ctx with rfl | hne
      · exact ((reschedule_ucontext_next h).mp hafter).1
      · rw [← reschedule_ucontext_other h hne]
        exact hafter
    refine ⟨cur, Context.fpuContext_eq_main cur hafter, ?_⟩
    rw [hI.flow cur hcur, Context.flow_eq_main cur hbefore]

/-- The calls of a switch: the running flow is saved, the chosen one is loaded. -/
theorem switch_events (s : FpuState Image) (r : Resumed) (k' : Core) :
    (s.switch initial r k').events
      = s.events
        ++ (s.core.current.toList.map fun cur =>
            .save ((k'.contexts cur).fpuContext cur) s.running)
        ++ [.rstor ((s.switchOut k'.contexts).load ((k'.contexts r.ctx).fpuContext r.ctx))
            ((s.switch initial r k').saved ((k'.contexts r.ctx).flow r.ctx))] := by
  have hout : (s.switchOut k'.contexts).events
      = s.events ++ s.core.current.toList.map fun cur =>
          .save ((k'.contexts cur).fpuContext cur) s.running := by
    unfold switchOut
    rcases s.core.current with - | cur
    · exact (List.append_nil _).symm
    · rfl
  rw [← hout]
  rfl

/-- **A switch is faithful** exactly between main flows. -/
theorem Inv.switch_faithful_iff (hI : s.Inv) (h : reschedule s.core regs = .ok (some r, k')) :
    (∀ e ∈ (s.switch initial r k').events, e.Faithful) ↔
      (∀ e ∈ s.events, e.Faithful) ∧ s.core.BetweenMains := by
  rw [switch_events]
  constructor
  · intro hall
    refine ⟨fun e he => hall e (by simp [he]), (betweenMains_iff h).mpr ⟨fun cur hcur => ?_, ?_⟩⟩
    · exact (hI.save_faithful_iff h hcur).mp (hall _ (by simp [hcur]))
    · by_contra hne
      have hload := hall _ (List.mem_append_right _ (List.mem_singleton_self _))
      rw [Context.fpuContext_eq_null _ hne] at hload
      cases hload
  · rintro ⟨hold, hmains⟩ e he
    obtain ⟨hcurs, hnext⟩ := (betweenMains_iff h).mp hmains
    rcases List.mem_append.mp he with he | he
    · rcases List.mem_append.mp he with he | he
      · exact hold e he
      · obtain ⟨cur, hcur, rfl⟩ := List.mem_map.mp he
        have hcur : s.core.current = some cur := Option.mem_toList.mp hcur
        exact (hI.save_faithful_iff h hcur).mpr (hcurs cur hcur)
    · rw [List.mem_singleton.mp he, Context.fpuContext_eq_main _ hnext,
        Context.flow_eq_main _ hnext]
      show some _ = some _
      rw [switch_saved h, hI.switchOut h hmains]

section Return

variable {fieldImage : ℕ → Context → Image} {cur : ℕ} {frame : Registers} {c' : Context}

/-- A return that fails changes nothing. -/
theorem notificationReturn_fails
    (h : ∀ cur, s.core.current = some cur →
      Rock.notificationReturn (s.core.contexts cur) = none) :
    s.notificationReturn fieldImage = s := by
  unfold notificationReturn
  rcases hcur : s.core.current with - | cur
  · rfl
  · simp only [h cur hcur]

theorem notificationReturn_succeeds (hcur : s.core.current = some cur)
    (h : Rock.notificationReturn (s.core.contexts cur) = some (frame, c')) :
    s.notificationReturn fieldImage
      = { s.fpuRstor (some (fieldImage cur c')) (.main cur) with
          core := { s.core with contexts := Function.update s.core.contexts cur c' } } := by
  unfold notificationReturn
  simp only [hcur, h]

/-- The context is in its main flow after a return. -/
theorem notificationReturn_ucontext {x : Context}
    (h : Rock.notificationReturn x = some (frame, c')) : c'.ucontext = none := by
  obtain ⟨q, -, heq⟩ := Option.map_eq_some_iff.mp h
  obtain ⟨-, rfl⟩ := Prod.mk.inj heq
  rfl

/-- **A return is faithful** exactly if it fails, or loads the image of the buffer by chance. -/
theorem Inv.ret (hI : s.Inv) :
    ((∀ e ∈ (s.notificationReturn fieldImage).events, e.Faithful) ↔
      (∀ e ∈ s.events, e.Faithful) ∧ s.Meets fieldImage .notificationReturn) ∧
    (s.notificationReturn fieldImage).Inv := by
  by_cases hfails : ∀ cur, s.core.current = some cur →
      Rock.notificationReturn (s.core.contexts cur) = none
  · rw [notificationReturn_fails hfails]
    refine ⟨(and_iff_left ?_).symm, hI⟩
    intro cur hcur frame c' h
    cases (hfails cur hcur).symm.trans h
  · push Not at hfails
    obtain ⟨cur, hcur, hne⟩ := hfails
    obtain ⟨⟨frame, c'⟩, h⟩ := Option.ne_none_iff_exists'.mp hne
    rw [notificationReturn_succeeds hcur h]
    refine ⟨?_, hI.saved, fun cur' hcur' => ?_⟩
    · have hmeets : s.Meets fieldImage .notificationReturn ↔ fieldImage cur c' = s.buffers cur := by
        refine ⟨fun hm => hm cur hcur frame c' h, fun heq cur' hcur' frame' c'' h' => ?_⟩
        obtain rfl := Option.some.inj (hcur.symm.trans hcur')
        obtain ⟨-, rfl⟩ := Prod.mk.inj (Option.some.inj (h.symm.trans h'))
        exact heq
      rw [hmeets, ← hI.saved cur]
      show (∀ e ∈ s.events ++ [_], e.Faithful) ↔ _
      rw [List.forall_mem_append, List.forall_mem_singleton]
      exact and_congr_right fun _ => Option.some_inj
    · obtain rfl := Option.some.inj (hcur.symm.trans hcur')
      show some (Flow.main cur) = some ((Function.update s.core.contexts cur c' cur).flow cur)
      rw [Function.update_self, Context.flow_eq_main cur (notificationReturn_ucontext h)]

end Return

/-! ### Runs -/

/-- A step that meets the condition. -/
def MeetingStep (initial : Image) (fieldImage : ℕ → Context → Image) (s s' : FpuState Image) :
    Prop :=
  ∃ a, s.Meets fieldImage a ∧ Step initial fieldImage s a s'

/-- **One step**: its calls are faithful exactly if it meets the condition, and then the images
are again those of their flows. -/
theorem Inv.step {fieldImage : ℕ → Context → Image} {a : FpuAct Image} {s' : FpuState Image}
    (hI : s.Inv) (hs : Step initial fieldImage s a s') :
    ((∀ e ∈ s'.events, e.Faithful) ↔ (∀ e ∈ s.events, e.Faithful) ∧ s.Meets fieldImage a) ∧
      (s.Meets fieldImage a → s'.Inv) := by
  cases hs with
  | @switch r k' regs h =>
      have hmeets : s.Meets fieldImage (.reschedule regs) ↔ s.core.BetweenMains := by
        obtain ⟨k₁, hnext⟩ := reschedule_next h
        exact ⟨fun hm => hm (by simp [hnext]), fun hm _ => hm⟩
      rw [hmeets]
      exact ⟨hI.switch_faithful_iff h, hI.switch h⟩
  | @idle k' regs h =>
      have hmeets : s.Meets fieldImage (.reschedule regs) := by
        intro hsome
        rw [reschedule_next_none h] at hsome
        cases hsome
      rw [reschedule_idle h]
      exact ⟨(and_iff_left hmeets).symm, fun _ => hI⟩
  | ret => exact ⟨hI.ret.1, fun _ => hI.ret.2⟩
  | compute live => exact ⟨(and_iff_left trivial).symm, fun _ => ⟨hI.saved, hI.flow⟩⟩
  | other k' hsame =>
      refine ⟨(and_iff_left trivial).symm, fun _ => ⟨hI.saved, fun cur hcur => ?_⟩⟩
      obtain ⟨hcurrent, hctx⟩ := hsame
      have hflow : (k'.contexts cur).flow cur = (s.core.contexts cur).flow cur := by
        unfold Context.flow
        rw [(hctx cur).2.2]
      show s.running = some ((k'.contexts cur).flow cur)
      rw [hflow]
      exact hI.flow cur (hcurrent.symm.trans hcur)

end FpuState

/-- **The FPU image follows its flow** in every run whose steps meet the condition: every image
is saved in the buffer of the flow that is switched out, and every flow is resumed with its last
image.  The first step that does not meet the condition is not faithful. -/
theorem fpu_follows_flow {initial : Image} {fieldImage : ℕ → Context → Image}
    {s₀ s : FpuState Image} (hinit : s₀.Initial)
    (hrun : Run (FpuState.MeetingStep initial fieldImage) s₀ s) :
    (∀ e ∈ s.events, e.Faithful) ∧
      ∀ a s', FpuState.Step initial fieldImage s a s' →
        ((∀ e ∈ s'.events, e.Faithful) ↔ s.Meets fieldImage a) := by
  have hstep : ∀ s s' : FpuState Image, (s.Inv ∧ ∀ e ∈ s.events, e.Faithful) →
      FpuState.MeetingStep initial fieldImage s s' → s'.Inv ∧ ∀ e ∈ s'.events, e.Faithful := by
    rintro s s' ⟨hI, hold⟩ ⟨a, hmeets, hs⟩
    exact ⟨(hI.step hs).2 hmeets, (hI.step hs).1.mpr ⟨hold, hmeets⟩⟩
  have hall := Run.invariant hstep ⟨hinit.inv, by simp [hinit.events]⟩ hrun
  refine ⟨hall.2, fun a s' hs => ?_⟩
  rw [(hall.1.step hs).1]
  exact and_iff_right hall.2

end Image

/-! ### A switch to a handler -/

/-- Context 0 runs its main flow with the image 5, and context 1 is to be switched to. -/
def fpuStart (contexts : ℕ → Context) : FpuState ℕ where
  core :=
    { contexts := contexts
      current := some 0
      deliveryStack := [1]
      threadQueue := []
      schedulingServer := none }
  running := some (.main 0)
  live := 5
  buffers := fun _ => 0
  saved := fun _ => 0
  events := []

/-- A context whose field `fpu_context` is no image. -/
def noImage : ℕ → Context → ℕ := fun _ _ => 7

theorem fpuStart_initial {contexts : ℕ → Context} (h : (contexts 0).ucontext = none) :
    (fpuStart contexts).Initial := by
  refine ⟨⟨fun _ => rfl, fun cur hcur => ?_⟩, rfl⟩
  obtain rfl := Option.some.inj hcur
  exact congrArg some (Context.flow_eq_main 0 h).symm

/-- Main flows without notifications are switched faithfully. -/
theorem fpu_follows_flow_idle :
    ∃ s, Run (FpuState.MeetingStep 0 noImage) (fpuStart fun _ => idleContext) s ∧
      s.events = [.save (.main 0) (some (.main 0)), .rstor (some 0) 0] ∧
      ∀ e ∈ s.events, e.Faithful := by
  obtain ⟨⟨r, k'⟩, hcall, hr⟩ := Exec.exists_of_map_eq_ok (show
    (reschedule (fpuStart fun _ => idleContext).core interruptedFrame).map
        (fun x => (x.1, (x.2.contexts 0).ucontext, (x.2.contexts 1).ucontext))
      = .ok (some ⟨1, default, false, none⟩, none, none) by decide +kernel)
  obtain ⟨hr, h0, h1⟩ : r = some ⟨1, default, false, none⟩ ∧ (k'.contexts 0).ucontext = none ∧
      (k'.contexts 1).ucontext = none := by simpa using hr
  subst hr
  have hmeets : (fpuStart fun _ => idleContext).Meets noImage (.reschedule interruptedFrame) := by
    refine fun _ => (betweenMains_iff hcall).mpr ⟨fun cur hcur => ?_, h1⟩
    obtain rfl := Option.some.inj hcur
    exact h0
  have hstep : FpuState.MeetingStep 0 noImage (fpuStart fun _ => idleContext)
      (FpuState.switch 0 (fpuStart fun _ => idleContext) ⟨1, default, false, none⟩ k') :=
    ⟨_, hmeets, .switch interruptedFrame hcall⟩
  have hrun := Relation.ReflTransGen.single hstep
  refine ⟨_, hrun, ?_, (fpu_follows_flow (fpuStart_initial rfl) hrun).1⟩
  rw [FpuState.switch_events]
  simp [fpuStart, FpuState.switchOut, FpuState.switch, FpuState.fpuSave, FpuState.fpuRstor,
    FpuState.load, Context.fpuContext, Context.flow, h0, h1]

/-- **The image is lost.**  The switch starts a handler of context 1, whose pointer is null: its
image is loaded from nowhere.  When the handler returns, the main flow is resumed with the bytes
of its context, not with its image. -/
theorem fpu_image_lost :
    ∃ s s', FpuState.Step 0 noImage (fpuStart fun _ => signalledContext)
        (.reschedule interruptedFrame) s ∧
      FpuState.Step 0 noImage s .notificationReturn s' ∧
      s'.events = [.save (.main 0) (some (.main 0)), .rstor none 0, .rstor (some 7) 0] ∧
      ¬ ∀ e ∈ s'.events, e.Faithful := by
  obtain ⟨⟨r, k'⟩, hcall, hr⟩ := Exec.exists_of_map_eq_ok (show
    (reschedule (fpuStart fun _ => signalledContext).core interruptedFrame).map
        (fun x => (x.1, (x.2.contexts 0).ucontext, (x.2.contexts 1).ucontext,
          (x.2.contexts 1).queue.isSome, x.2.current))
      = .ok (some ⟨1, builtFrame, true, some builtFrame⟩, none, some 0, true, some 1) by
      decide +kernel)
  obtain ⟨hr, h0, h1, hqueue, hcur⟩ : r = some ⟨1, builtFrame, true, some builtFrame⟩ ∧
      (k'.contexts 0).ucontext = none ∧ (k'.contexts 1).ucontext = some 0 ∧
      (k'.contexts 1).queue.isSome ∧ k'.current = some 1 := by simpa using hr
  subst hr
  obtain ⟨q, hq⟩ := Option.isSome_iff_exists.mp hqueue
  obtain ⟨frame, c', hret⟩ : ∃ frame c', notificationReturn (k'.contexts 1) = some (frame, c') :=
    ⟨_, _, by rw [notificationReturn, hq]; rfl⟩
  have hevents : (FpuState.notificationReturn noImage
        (FpuState.switch 0 (fpuStart fun _ => signalledContext)
          ⟨1, builtFrame, true, some builtFrame⟩ k')).events
      = [.save (.main 0) (some (.main 0)), .rstor none 0, .rstor (some 7) 0] := by
    rw [FpuState.notificationReturn_succeeds hcur hret]
    simp [fpuStart, FpuState.switchOut, FpuState.switch, FpuState.fpuSave, FpuState.fpuRstor,
      FpuState.load, Context.fpuContext, Context.flow, h0, h1, noImage]
  refine ⟨_, _, .switch interruptedFrame hcall, .ret, hevents, fun hall => ?_⟩
  rw [hevents] at hall
  cases hall (.rstor none 0) (by simp)

end Rock
