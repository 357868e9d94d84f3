/-
Rock/Cores.lean

All processors together: `reschedule` (kernel/core/scheduler.c) on any number of cores, with the
system calls around notifications (kernel/core/notification.c) and the launch of the servers
(kernel/core/server.c), in any order.

The contexts are shared by the cores; `delivery_stack`, `thread_queue`, `scheduling_server` and
`current_context` belong to one core each.  A server is made for a core (`launch_schedulers`) or
for none (the I/O servers of `launch_servers`), and gets its context from `launch_server`; the
other cores take interrupts meanwhile.

What happens is read off two facts.  Nothing is ever put on a `thread_queue`, and the one call
that puts something on a `delivery_stack`, in `notification_send`, is not reached, since a send
that returns has refused the number.  So a core chooses the context of its own scheduling server
or nothing at all, there is no notification to dispatch, and no handler is started.

`cores_keep_flows`: in every state that is reached no context runs on two cores, each switch
resumes a main flow with the frame it was last interrupted with, none of them faults, and the
context of an I/O server is still as it was launched.  The runs are those in which no system call
faults and no tick comes inside a `notification_return`, which is one step here: it has the GS
base of the user for its last instructions, and what a tick does then is in Rock/GsBase.lean.

`last` is not in the source: for each context the frame of its last interruption, or the one it
was launched with.
-/
import Rock.NotificationCalls
import Rock.Scheduler

namespace Rock

/-! ### The kernel on all cores -/

/-- What scheduling uses of `struct cpu_local`. -/
structure CpuLocal where
  current : Option ℕ
  deliveryStack : List ℕ
  threadQueue : List ℕ
  schedulingServer : Option ℕ

/-- What scheduling uses of `struct server`, and the core whose scheduling server it is. -/
structure KernelServer (C : Type) where
  core : Option C
  context : Option ℕ

/-- Servers and contexts are numbered in the order in which they are made. -/
structure Kernel (C : Type) where
  locals : C → CpuLocal
  servers : List (KernelServer C)
  contexts : ℕ → Context
  made : ℕ
  last : ℕ → Registers

/-- What a core or the launch of the servers does in one step. -/
inductive KernelAct (C : Type) where
  /-- The timer interrupt or the `int $32` of `syscall_yield`. -/
  | tick (c : C) (regs : Registers)
  /-- `notification_return` as a whole, from the system call to its `iretq`. -/
  | notificationReturn (c : C)
  | notificationAction (c : C) (call : ActionCall)
  /-- `kernelSp` is what `pmm_alloc` gives, which can be anything here. -/
  | notificationDefineStack (c : C) (sp size kernelSp : Word)
  | notificationSetActive (c : C) (active : Bool)
  /-- `notification_send`, of `launch_servers` or of `syscall_notify` (which no table entry has). -/
  | send (c : C) (sender target : Option ℕ) (not : ℤ) (weight : BitVec 32) (info : Word)
  /-- `launch_servers` makes the server of an I/O module. -/
  | createServer
  /-- `launch_schedulers` makes the server of a core. -/
  | assignServer (c : C)
  /-- `launch_server`, which stores the context once it is complete. -/
  | launch (server : ℕ) (regs : Registers)

/-- The context that `create_blank_context` makes, with the registers that `launch_server` puts
in it. -/
def blankContext (regs : Registers) : Context where
  ustacks := []
  actions := fun _ => 0
  queue := some
    { queue := fun _ => none, mask := 0, active := false, pending := 0, lock := false, notes := [] }
  ucontexts := []
  ucontext := none
  ucontextIdx := 0
  regs := regs

namespace Kernel

variable {C : Type}

/-- `server->context`. -/
def contextOf (s : Kernel C) (server : ℕ) : Option ℕ :=
  (s.servers[server]?).bind KernelServer.context

/-- The kernel as a core sees it. -/
def core (s : Kernel C) (c : C) : Core where
  contexts := s.contexts
  current := (s.locals c).current
  deliveryStack := (s.locals c).deliveryStack
  threadQueue := (s.locals c).threadQueue
  schedulingServer := (s.locals c).schedulingServer.map s.contextOf

def setContext (s : Kernel C) (x : ℕ) (ctx : Context) : Kernel C :=
  { s with contexts := Function.update s.contexts x ctx }

/-- The running context of the core is interrupted with the frame `regs`. -/
def interrupt (s : Kernel C) (c : C) (regs : Registers) (x : ℕ) : Registers :=
  if (s.locals c).current = some x then regs else s.last x

/-- A system call on the running context; without one it returns -1. -/
def onCurrent (s : Kernel C) (c : C) (call : Context → Exec Context) : Exec (Kernel C) :=
  match (s.locals c).current with
  | none => .ok s
  | some x => do
      let ctx ← call (s.contexts x)
      .ok (s.setContext x ctx)

/-- A new server that no core has. -/
def createServer (s : Kernel C) : Kernel C := { s with servers := s.servers ++ [⟨none, none⟩] }

/-- `launch_server`; it is called once for each server. -/
def launch (s : Kernel C) (server : ℕ) (regs : Registers) : Kernel C :=
  match s.servers[server]? with
  | some ⟨core, none⟩ =>
      { s with
        servers := s.servers.set server ⟨core, some s.made⟩
        contexts := Function.update s.contexts s.made (blankContext regs)
        made := s.made + 1
        last := Function.update s.last s.made regs }
  | _ => s

/-- Before the servers are launched. -/
structure Initial (s : Kernel C) : Prop where
  locals : ∀ c, s.locals c = ⟨none, [], [], none⟩
  servers : s.servers = []
  made : s.made = 0

/-- The context is that of a server made for `core`. -/
def Belongs (s : Kernel C) (x : ℕ) (core : Option C) : Prop :=
  ∃ i : ℕ, s.servers[i]? = some ⟨core, some x⟩

variable [DecidableEq C]

/-- What a core leaves. -/
def setCore (s : Kernel C) (c : C) (k : Core) : Kernel C :=
  { s with
    contexts := k.contexts
    locals := Function.update s.locals c { s.locals c with
      current := k.current
      deliveryStack := k.deliveryStack
      threadQueue := k.threadQueue } }

/-- A new server, which is the `scheduling_server` of the core. -/
def assignServer (s : Kernel C) (c : C) : Kernel C :=
  { s with
    servers := s.servers ++ [⟨some c, none⟩]
    locals := Function.update s.locals c
      { s.locals c with schedulingServer := some s.servers.length } }

/-- `notification_send` on core `c`. -/
def send (w : NotifyWeights) (s : Kernel C) (c : C) (sender target : Option ℕ) (not : ℤ)
    (weight : BitVec 32) (info : Word) : Exec (Kernel C) := do
  let sent ← notificationSend w sender (target.map s.contexts) not weight info
  match target, sent.target with
  | some x, some ctx =>
      let l := s.locals c
      .ok { s.setContext x ctx with
        locals := Function.update s.locals c { l with
          deliveryStack := if sent.delivers then x :: l.deliveryStack else l.deliveryStack } }
  | _, _ => .ok s

/-- One step. -/
def act (w : NotifyWeights) (s : Kernel C) : KernelAct C → Exec (Kernel C)
  | .tick c regs => do
      let (r, k) ← reschedule (s.core c) regs
      .ok { s.setCore c k with last := if r.isSome then s.interrupt c regs else s.last }
  | .notificationReturn c =>
      s.onCurrent c fun ctx => .ok ((notificationReturn ctx).elim ctx Prod.snd)
  | .notificationAction c call =>
      s.onCurrent c fun ctx => (notificationAction ctx call).map ActionDone.ctx
  | .notificationDefineStack c sp size kernelSp =>
      s.onCurrent c fun ctx => .ok (notificationDefineStack ctx sp size kernelSp)
  | .notificationSetActive c active =>
      s.onCurrent c fun ctx => .ok (notificationSetActive ctx active)
  | .send c sender target not weight info => s.send w c sender target not weight info
  | .createServer => .ok s.createServer
  | .assignServer c => .ok (s.assignServer c)
  | .launch server regs => .ok (s.launch server regs)

/-- Steps one after the other. -/
def run (w : NotifyWeights) (s : Kernel C) : List (KernelAct C) → Exec (Kernel C)
  | [] => .ok s
  | a :: as => do
      let s ← s.act w a
      s.run w as

end Kernel

/-! ### Contexts without notifications -/

/-- There is a queue, nothing is pending in it, and no handler was started. -/
def Context.Quiet (c : Context) : Prop :=
  c.ucontext = none ∧ ∃ q, c.queue = some q ∧ q.lock = false ∧ q.pending = 0#32

theorem blankContext_quiet (regs : Registers) : (blankContext regs).Quiet :=
  ⟨rfl, _, rfl, rfl, rfl⟩

namespace Context.Quiet

variable {c : Context}

theorem dispatch (h : c.Quiet) : notificationDispatch c = .ok ⟨-1, c, none⟩ := by
  obtain ⟨-, q, hq, hlock, hpending⟩ := h
  unfold notificationDispatch
  simp [hq, hlock, hpending]

theorem currentFrame (h : c.Quiet) : c.currentFrame = c.regs := by
  rw [Context.currentFrame, h.1]

theorem saveFrame (h : c.Quiet) (regs : Registers) :
    c.saveFrame regs = { c with regs := regs } := by
  rw [Context.saveFrame, h.1]

end Context.Quiet

/-- What a system call of the running context may do to it. -/
structure Context.Edited (c c' : Context) : Prop where
  quiet : c'.Quiet
  regs : c'.regs = c.regs

section Calls

variable {c : Context}

theorem notificationReturn_edited (h : c.Quiet) :
    c.Edited ((notificationReturn c).elim c Prod.snd) := by
  obtain ⟨hnone, q, hq, hlock, hpending⟩ := h
  have hret : notificationReturn c = some (c.regs, { c with ucontext := none }) := by
    rw [notificationReturn, hq, hnone]
    rfl
  rw [hret]
  exact ⟨⟨rfl, q, hq, hlock, hpending⟩, rfl⟩

theorem notificationAction_edited (h : c.Quiet) {call : ActionCall} {r : ActionDone}
    (hr : notificationAction c call = .ok r) : c.Edited r.ctx := by
  unfold notificationAction at hr
  split_ifs at hr <;> obtain rfl := Except.ok.inj hr <;> exact ⟨h, rfl⟩

theorem notificationSetActive_edited (h : c.Quiet) (active : Bool) :
    c.Edited (notificationSetActive c active) := by
  obtain ⟨hnone, q, hq, hlock, hpending⟩ := h
  refine ⟨⟨hnone, { q with active := active }, ?_, hlock, hpending⟩, rfl⟩
  rw [notificationSetActive, hq]
  rfl

/-- **A send that returns has refused the number**: it delivers nothing. -/
theorem notificationSend_delivers {w : NotifyWeights} {sender : Option ℕ}
    {target : Option Context} {not : ℤ} {weight : BitVec 32} {info : Word} {r : Sent}
    (h : notificationSend w sender target not weight info = .ok r) : r.delivers = false := by
  have hret := (notificationSend_spec h).1
  unfold notificationSend at h
  split at h
  · split_ifs at h with hvalid
    · exact Except.ok.inj h ▸ rfl
    · split at h
      · exact Except.ok.inj h ▸ rfl
      · obtain ⟨q, -, h⟩ := Exec.bind_eq_ok.mp h
        obtain rfl := Except.ok.inj h
        cases hret
  · exact Except.ok.inj h ▸ rfl

end Calls

namespace Kernel

variable {C : Type} {w : NotifyWeights} {s s' t : Kernel C} {a : KernelAct C} {c : C} {x : ℕ}
  {regs : Registers}

/-! ### What holds in every state -/

structure Inv (s : Kernel C) : Prop where
  empty : ∀ c, (s.locals c).deliveryStack = [] ∧ (s.locals c).threadQueue = []
  assigned : ∀ c i, (s.locals c).schedulingServer = some i →
    ∃ x, s.servers[i]? = some ⟨some c, x⟩
  made : ∀ x core, s.Belongs x core → x < s.made
  distinct : ∀ (i j : ℕ) (core core' : Option C) (x : ℕ),
    s.servers[i]? = some ⟨core, some x⟩ → s.servers[j]? = some ⟨core', some x⟩ → i = j
  running : ∀ c x, (s.locals c).current = some x → s.Belongs x (some c)
  quiet : ∀ x < s.made, (s.contexts x).Quiet
  frames : ∀ x < s.made, (s.contexts x).regs = s.last x
  io : ∀ x, s.Belongs x none → s.contexts x = blankContext (s.last x)

theorem Initial.inv (h : s.Initial) : s.Inv where
  empty c := by simp [h.locals c]
  assigned c i hi := by simp [h.locals c] at hi
  made x core := by
    rintro ⟨i, hi⟩
    simp [h.servers] at hi
  distinct i j core core' x hi := by simp [h.servers] at hi
  running c x hx := by simp [h.locals c] at hx
  quiet x hx := absurd hx (by simp [h.made])
  frames x hx := absurd hx (by simp [h.made])
  io x := by
    rintro ⟨i, hi⟩
    simp [h.servers] at hi

theorem Inv.belongs_unique (hI : s.Inv) {core core' : Option C} (h : s.Belongs x core)
    (h' : s.Belongs x core') : core = core' := by
  obtain ⟨i, hi⟩ := h
  obtain ⟨j, hj⟩ := h'
  obtain rfl := hI.distinct i j core core' x hi hj
  exact (KernelServer.mk.inj (Option.some.inj (hi.symm.trans hj))).1

/-! ### What a step can do -/

/-- The context that a core chooses. -/
def next (s : Kernel C) (c : C) : Option ℕ := (s.locals c).schedulingServer.bind s.contextOf

theorem Inv.next_belongs (hI : s.Inv) (h : s.next c = some x) : s.Belongs x (some c) := by
  obtain ⟨i, hi, hx⟩ := Option.bind_eq_some_iff.mp h
  obtain ⟨y, hy⟩ := hI.assigned c i hi
  refine ⟨i, ?_⟩
  rw [contextOf, hy] at hx
  obtain rfl : y = some x := hx
  exact hy

theorem Inv.chooseNext (hI : s.Inv) :
    (s.core c).chooseNext = (s.next c).map fun x => (x, s.core c) := by
  obtain ⟨hdelivery, hthreads⟩ := hI.empty c
  unfold Core.chooseNext Kernel.next
  simp only [core, hdelivery, hthreads]
  rcases (s.locals c).schedulingServer with - | i
  · rfl
  · simp only [Option.map_some, Option.bind_some]
    rcases s.contextOf i with - | x <;> rfl

/-- The contexts once the running one of the core was interrupted. -/
def interrupted (s : Kernel C) (c : C) (regs : Registers) (x : ℕ) : Context :=
  if (s.locals c).current = some x then { s.contexts x with regs := regs } else s.contexts x

theorem Inv.saveCurrent (hI : s.Inv) (regs : Registers) :
    saveCurrent s.contexts (s.locals c).current regs = s.interrupted c regs := by
  funext x
  unfold Rock.saveCurrent interrupted
  rcases hcur : (s.locals c).current with - | y
  · rfl
  have hy := hI.quiet y (hI.made y _ (hI.running c y hcur))
  rcases eq_or_ne x y with rfl | hne
  · rw [if_pos rfl, ← hy.saveFrame]
    exact Function.update_self ..
  · rw [if_neg fun heq => hne (Option.some.inj heq).symm]
    exact Function.update_of_ne hne ..

theorem Inv.interrupted_quiet (hI : s.Inv) (hx : x < s.made) :
    (s.interrupted c regs x).Quiet := by
  unfold interrupted
  split_ifs
  · exact hI.quiet x hx
  · exact hI.quiet x hx

theorem Inv.interrupted_regs (hI : s.Inv) (hx : x < s.made) :
    (s.interrupted c regs x).regs = s.interrupt c regs x := by
  unfold interrupted interrupt
  split_ifs
  · rfl
  · exact hI.frames x hx

/-- **What a tick finds**: no context at all, or that of the core's own server, which is resumed
in its main flow. -/
theorem Inv.reschedule_none (hI : s.Inv) (regs : Registers) (hnext : s.next c = none) :
    reschedule (s.core c) regs = .ok (none, s.core c) := by
  rw [reschedule, hI.chooseNext, hnext]
  rfl

theorem Inv.reschedule_some (hI : s.Inv) (regs : Registers) (hnext : s.next c = some x) :
    reschedule (s.core c) regs = .ok (some ⟨x, s.interrupt c regs x, false, none⟩,
      { s.core c with contexts := s.interrupted c regs, current := some x }) := by
  have hx := hI.made x _ (hI.next_belongs hnext)
  have hquiet : ((s.core c).contexts x).Quiet := hI.quiet x hx
  have hinter : (s.interrupted c regs x).Quiet := hI.interrupted_quiet hx
  have hsave : Rock.saveCurrent (s.core c).contexts (s.core c).current regs
      = s.interrupted c regs := hI.saveCurrent regs
  rw [reschedule, hI.chooseNext, hnext]
  simp only [Option.map_some, hquiet.dispatch, Exec.ok_bind, Function.update_eq_self, hsave,
    hinter.currentFrame, hinter.1, hI.interrupted_regs hx, Option.isSome_none, Option.map_none]

/-- What is to be shown of a state: every core is in a flow of its own, and a tick resumes a main
flow with the frame of its last interruption. -/
structure KeepsFlows (s : Kernel C) : Prop where
  own : ∀ c x, (s.locals c).current = some x → s.Belongs x (some c)
  exclusive : ∀ c c' x, (s.locals c).current = some x → (s.locals c').current = some x → c = c'
  waits : ∀ x, s.Belongs x none →
    (∀ c, (s.locals c).current ≠ some x) ∧ s.contexts x = blankContext (s.last x)
  resumes : ∀ c regs, ∃ r k, reschedule (s.core c) regs = .ok (r, k) ∧
    ∀ f ∈ r, f.inHandler = false ∧ f.frame = s.interrupt c regs f.ctx

theorem Inv.resumes (hI : s.Inv) (c : C) (regs : Registers) :
    ∃ r k, reschedule (s.core c) regs = .ok (r, k) ∧
      ∀ f ∈ r, f.inHandler = false ∧ f.frame = s.interrupt c regs f.ctx := by
  rcases hnext : s.next c with - | x
  · exact ⟨_, _, hI.reschedule_none regs hnext, by simp⟩
  · refine ⟨_, _, hI.reschedule_some regs hnext, fun f hf => ?_⟩
    obtain rfl := Option.some.inj hf
    exact ⟨rfl, rfl⟩

theorem Inv.keepsFlows (hI : s.Inv) : s.KeepsFlows := by
  refine ⟨hI.running, fun c c' x hx hx' => ?_, fun x hx => ⟨fun c hcur => ?_, hI.io x hx⟩,
    hI.resumes⟩
  · exact Option.some.inj (hI.belongs_unique (hI.running c x hx) (hI.running c' x hx'))
  · cases hI.belongs_unique hx (hI.running c x hcur)

/-! ### Servers that are made and launched -/

theorem getElem?_append_unlaunched {l : List (KernelServer C)} {core core' : Option C} {i : ℕ} :
    (l ++ [⟨core, none⟩])[i]? = some ⟨core', some x⟩ ↔ l[i]? = some ⟨core', some x⟩ := by
  rcases lt_or_ge i l.length with hlt | hge
  · rw [List.getElem?_append_left hlt]
  · rw [List.getElem?_append_right hge, List.getElem?_eq_none hge]
    rcases i - l.length with - | j <;> simp

theorem getElem?_set_launched {l : List (KernelServer C)} {core core' : Option C} {i j y : ℕ}
    (h : l[i]? = some ⟨core, none⟩) :
    (l.set i ⟨core, some y⟩)[j]? = some ⟨core', some x⟩ ↔
      (j = i ∧ core' = core ∧ x = y) ∨ l[j]? = some ⟨core', some x⟩ := by
  have hi : i < l.length := (List.getElem?_eq_some_iff.mp h).1
  rcases eq_or_ne j i with rfl | hne
  · rw [List.getElem?_set_self hi, h]
    simp [eq_comm]
  · rw [List.getElem?_set_ne hne.symm]
    simp [hne]

theorem belongs_createServer {core : Option C} :
    s.createServer.Belongs x core ↔ s.Belongs x core :=
  exists_congr fun _ => getElem?_append_unlaunched

theorem Inv.createServer (hI : s.Inv) : s.createServer.Inv where
  empty := hI.empty
  assigned c i hi := by
    obtain ⟨x, hx⟩ := hI.assigned c i hi
    exact ⟨x, by rw [Kernel.createServer, List.getElem?_append_left
      (List.getElem?_eq_some_iff.mp hx).1, hx]⟩
  made x core hx := hI.made x core (belongs_createServer.mp hx)
  distinct i j core core' x hi hj := hI.distinct i j core core' x
    (getElem?_append_unlaunched.mp hi) (getElem?_append_unlaunched.mp hj)
  running c x hx := belongs_createServer.mpr (hI.running c x hx)
  quiet := hI.quiet
  frames := hI.frames
  io x hx := hI.io x (belongs_createServer.mp hx)

/-- A server without a context gets a new one. -/
theorem Inv.launch (hI : s.Inv) (i : ℕ) (regs : Registers) : (s.launch i regs).Inv := by
  unfold Kernel.launch
  split
  case h_2 => exact hI
  case h_1 core hi =>
    have hbelongs : ∀ {x core'}, (∃ j : ℕ, (s.servers.set i ⟨core, some s.made⟩)[j]?
        = some ⟨core', some x⟩) ↔ (core' = core ∧ x = s.made) ∨ s.Belongs x core' := by
      intro x core'
      simp only [getElem?_set_launched hi, exists_or, exists_eq_left]
      rfl
    have hnew : ∀ {x core'}, s.Belongs x core' → x ≠ s.made := fun hx => (hI.made _ _ hx).ne
    refine ⟨hI.empty, fun c j hj => ?_, fun x core' hx => ?_, fun j k core₁ core₂ x hj hk => ?_,
      fun c x hx => hbelongs.mpr (.inr (hI.running c x hx)), fun x hx => ?_, fun x hx => ?_,
      fun x hx => ?_⟩
    · obtain ⟨x, hx⟩ := hI.assigned c j hj
      rcases eq_or_ne j i with rfl | hne
      · obtain ⟨rfl, -⟩ := KernelServer.mk.inj (Option.some.inj (hi.symm.trans hx))
        exact ⟨some s.made, List.getElem?_set_self (List.getElem?_eq_some_iff.mp hi).1⟩
      · exact ⟨x, (List.getElem?_set_ne hne.symm).trans hx⟩
    · rcases hbelongs.mp hx with ⟨-, rfl⟩ | hx
      · exact Nat.lt_succ_self _
      · exact (hI.made x core' hx).trans (Nat.lt_succ_self _)
    · rcases (getElem?_set_launched hi).mp hj with ⟨rfl, -, rfl⟩ | hold
      · rcases (getElem?_set_launched hi).mp hk with ⟨rfl, -, -⟩ | hold
        · rfl
        · exact absurd rfl (hnew ⟨k, hold⟩)
      · rcases (getElem?_set_launched hi).mp hk with ⟨rfl, -, rfl⟩ | hold'
        · exact absurd rfl (hnew ⟨j, hold⟩)
        · exact hI.distinct j k core₁ core₂ x hold hold'
    · rcases Nat.lt_succ_iff_lt_or_eq.mp hx with hlt | rfl
      · simpa [hlt.ne] using hI.quiet x hlt
      · simpa using blankContext_quiet regs
    · rcases Nat.lt_succ_iff_lt_or_eq.mp hx with hlt | rfl
      · simpa [hlt.ne] using hI.frames x hlt
      · simp [blankContext]
    · rcases hbelongs.mp hx with ⟨-, rfl⟩ | hx
      · simp
      · simpa [hnew hx] using hI.io x hx

/-! ### System calls -/

/-- A system call changes the context of the core's own server. -/
theorem Inv.setContext (hI : s.Inv) {ctx : Context} (hcur : (s.locals c).current = some x)
    (hedit : (s.contexts x).Edited ctx) : (s.setContext x ctx).Inv := by
  have hother : ∀ y, y ≠ x → (s.setContext x ctx).contexts y = s.contexts y :=
    fun y hne => Function.update_of_ne hne ..
  have hself : (s.setContext x ctx).contexts x = ctx := Function.update_self ..
  refine ⟨hI.empty, hI.assigned, hI.made, hI.distinct, hI.running, fun y hy => ?_,
    fun y hy => ?_, fun y hy => ?_⟩
  · rcases eq_or_ne y x with rfl | hne
    · rw [hself]
      exact hedit.quiet
    · rw [hother y hne]
      exact hI.quiet y hy
  · rcases eq_or_ne y x with rfl | hne
    · rw [hself, hedit.regs]
      exact hI.frames y hy
    · rw [hother y hne]
      exact hI.frames y hy
  · have hne : y ≠ x := by
      rintro rfl
      cases hI.belongs_unique hy (hI.running c y hcur)
    rw [hother y hne]
    exact hI.io y hy

/-- The calls keep what was said of contexts, one by one. -/
theorem Inv.onCurrent (hI : s.Inv) {call : Context → Exec Context}
    (hcall : ∀ ctx ctx', ctx.Quiet → call ctx = .ok ctx' → ctx.Edited ctx')
    (h : s.onCurrent c call = .ok s') : s'.Inv := by
  unfold Kernel.onCurrent at h
  split at h
  case h_1 =>
    obtain rfl := Except.ok.inj h
    exact hI
  case h_2 x hcur =>
    obtain ⟨ctx, hctx, h⟩ := Exec.bind_eq_ok.mp h
    obtain rfl := Except.ok.inj h
    have hquiet := hI.quiet x (hI.made x _ (hI.running c x hcur))
    exact hI.setContext hcur (hcall _ _ hquiet hctx)

variable [DecidableEq C]

theorem belongs_assignServer {core : Option C} :
    (s.assignServer c).Belongs x core ↔ s.Belongs x core :=
  exists_congr fun _ => getElem?_append_unlaunched

theorem Inv.assignServer (hI : s.Inv) (c : C) : (s.assignServer c).Inv where
  empty c' := by
    rcases eq_or_ne c' c with rfl | hne
    · simpa [Kernel.assignServer] using hI.empty c'
    · simpa [Kernel.assignServer, hne] using hI.empty c'
  assigned c' i hi := by
    rcases eq_or_ne c' c with rfl | hne
    · simp only [Kernel.assignServer, Function.update_self, Option.some.injEq] at hi
      subst hi
      exact ⟨none, List.getElem?_concat_length⟩
    · simp only [Kernel.assignServer, Function.update_of_ne hne] at hi
      obtain ⟨x, hx⟩ := hI.assigned c' i hi
      exact ⟨x, (List.getElem?_append_left (List.getElem?_eq_some_iff.mp hx).1).trans hx⟩
  made x core hx := hI.made x core (belongs_assignServer.mp hx)
  distinct i j core core' x hi hj := hI.distinct i j core core' x
    (getElem?_append_unlaunched.mp hi) (getElem?_append_unlaunched.mp hj)
  running c' x hx := by
    refine belongs_assignServer.mpr (hI.running c' x ?_)
    rcases eq_or_ne c' c with rfl | hne
    · simpa [Kernel.assignServer] using hx
    · simpa [Kernel.assignServer, hne] using hx
  quiet := hI.quiet
  frames := hI.frames
  io x hx := hI.io x (belongs_assignServer.mp hx)

/-- A send that returns leaves everything as it is. -/
theorem send_eq {sender target : Option ℕ} {not : ℤ} {weight : BitVec 32} {info : Word}
    (h : s.send w c sender target not weight info = .ok s') : s' = s := by
  obtain ⟨sent, hsent, h⟩ := Exec.bind_eq_ok.mp h
  have htarget := (notificationSend_spec hsent).2
  rcases target with - | x
  · exact (Except.ok.inj h).symm
  · simp only [htarget, Option.map_some, notificationSend_delivers hsent, Bool.false_eq_true,
      if_false, Function.update_eq_self] at h
    rw [← Except.ok.inj h, Kernel.setContext, Function.update_eq_self]

/-! ### Switches -/

/-- The state after a switch to `x`. -/
def switched (s : Kernel C) (c : C) (x : ℕ) (regs : Registers) : Kernel C :=
  { s with
    contexts := s.interrupted c regs
    locals := Function.update s.locals c { s.locals c with current := some x }
    last := s.interrupt c regs }

theorem Inv.act_tick (hI : s.Inv) (h : s.act w (.tick c regs) = .ok s') :
    (s.next c = none ∧ s' = s) ∨ ∃ x, s.next c = some x ∧ s' = s.switched c x regs := by
  obtain ⟨⟨r, k⟩, hcall, h⟩ := Exec.bind_eq_ok.mp h
  rcases hnext : s.next c with - | x
  · obtain ⟨rfl, rfl⟩ := Prod.mk.inj (Except.ok.inj ((hI.reschedule_none regs hnext).symm.trans
      hcall))
    refine .inl ⟨rfl, (Except.ok.inj h).symm.trans ?_⟩
    simp [setCore, core]
  · obtain ⟨rfl, rfl⟩ := Prod.mk.inj (Except.ok.inj ((hI.reschedule_some regs hnext).symm.trans
      hcall))
    exact .inr ⟨x, rfl, (Except.ok.inj h).symm⟩

theorem switched_current (c' : C) :
    ((s.switched c x regs).locals c').current
      = if c' = c then some x else (s.locals c').current := by
  rcases eq_or_ne c' c with rfl | hne
  · simp [switched]
  · simp [switched, hne]

theorem Inv.switched (hI : s.Inv) (hnext : s.next c = some x) (regs : Registers) :
    (s.switched c x regs).Inv where
  empty c' := by
    rcases eq_or_ne c' c with rfl | hne
    · simpa [Kernel.switched] using hI.empty c'
    · simpa [Kernel.switched, hne] using hI.empty c'
  assigned c' i hi := by
    refine hI.assigned c' i ?_
    rcases eq_or_ne c' c with rfl | hne
    · simpa [Kernel.switched] using hi
    · simpa [Kernel.switched, hne] using hi
  made := hI.made
  distinct := hI.distinct
  running c' y hy := by
    rw [switched_current] at hy
    split_ifs at hy with hc
    · obtain rfl := Option.some.inj hy
      rw [hc]
      exact hI.next_belongs hnext
    · exact hI.running c' y hy
  quiet y hy := hI.interrupted_quiet hy
  frames y hy := hI.interrupted_regs hy
  io y hy := by
    have hne : ¬ (s.locals c).current = some y := by
      intro hcur
      cases hI.belongs_unique hy (hI.running c y hcur)
    show s.interrupted c regs y = blankContext (s.interrupt c regs y)
    rw [interrupted, interrupt, if_neg hne, if_neg hne]
    exact hI.io y hy

/-! ### Runs -/

theorem Inv.act (hI : s.Inv) (h : s.act w a = .ok s') : s'.Inv := by
  cases a with
  | tick c regs =>
      rcases hI.act_tick h with ⟨-, rfl⟩ | ⟨x, hnext, rfl⟩
      · exact hI
      · exact hI.switched hnext regs
  | notificationReturn c =>
      rw [Kernel.act] at h
      refine hI.onCurrent (fun ctx ctx' hquiet hctx => ?_) h
      exact Except.ok.inj hctx ▸ notificationReturn_edited hquiet
  | notificationAction c call =>
      rw [Kernel.act] at h
      refine hI.onCurrent (fun ctx ctx' hquiet hctx => ?_) h
      obtain ⟨r, hr, rfl⟩ := Exec.exists_of_map_eq_ok hctx
      exact notificationAction_edited hquiet hr
  | notificationDefineStack c sp size kernelSp =>
      rw [Kernel.act] at h
      refine hI.onCurrent (fun ctx ctx' hquiet hctx => ?_) h
      exact Except.ok.inj hctx ▸ ⟨hquiet, rfl⟩
  | notificationSetActive c active =>
      rw [Kernel.act] at h
      refine hI.onCurrent (fun ctx ctx' hquiet hctx => ?_) h
      exact Except.ok.inj hctx ▸ notificationSetActive_edited hquiet active
  | send c sender target not weight info => exact send_eq h ▸ hI
  | createServer => exact Except.ok.inj h ▸ hI.createServer
  | assignServer c => exact Except.ok.inj h ▸ hI.assignServer c
  | launch i regs => exact Except.ok.inj h ▸ hI.launch i regs

theorem Inv.run {as : List (KernelAct C)} (hI : s.Inv) (h : s.run w as = .ok s') : s'.Inv := by
  induction as generalizing s with
  | nil => exact Except.ok.inj h ▸ hI
  | cons a as ih =>
      obtain ⟨s₁, hact, hrest⟩ := Exec.bind_eq_ok.mp h
      exact ih (hI.act hact) hrest

end Kernel

/-- **No flow is lost on any core.**  However interrupts and system calls on all cores and the
launch of the servers are interleaved, if no call faults and no tick is inside a
`notification_return`: each core runs a context of its own scheduling server, so
that no context is on two cores; every tick returns, and resumes a main flow with the frame that
flow was last interrupted with; and the I/O servers are never run. -/
theorem cores_keep_flows {C : Type} [DecidableEq C] (w : NotifyWeights) (as : List (KernelAct C))
    {s₀ s : Kernel C} (hinit : s₀.Initial) (hrun : s₀.run w as = .ok s) : s.KeepsFlows :=
  (hinit.inv.run hrun).keepsFlows

/-- Before the launch, on two cores. -/
def coldCores : Kernel Bool :=
  ⟨fun _ => ⟨none, [], [], none⟩, [], fun _ => blankContext default, 0, fun _ => default⟩

/-- The first core runs its server, and the second one does while the I/O server is launched. -/
def twoCoresLaunch : List (KernelAct Bool) :=
  [.assignServer false, .assignServer true, .launch 0 default, .tick false default,
    .launch 1 default, .createServer, .tick true default, .launch 2 interruptedFrame,
    .send false (some 0) (some 2) 7 2 0x5000, .tick false interruptedFrame]

theorem cores_keep_flows_two :
    ∃ s, coldCores.run ⟨1, 2⟩ twoCoresLaunch = .ok s ∧ (s.locals false).current = some 0 ∧
      (s.locals true).current = some 1 ∧ s.Belongs 2 none ∧ s.KeepsFlows := by
  obtain ⟨s, hrun, hs⟩ := Exec.exists_of_map_eq_ok (show
    (coldCores.run ⟨1, 2⟩ twoCoresLaunch).map
        (fun s => ((s.locals false).current, (s.locals true).current,
          s.servers.map fun sv => (sv.core, sv.context)))
      = .ok (some 0, some 1, [(some false, some 0), (some true, some 1), (none, some 2)]) by
    decide +kernel)
  simp only [Prod.mk.injEq] at hs
  obtain ⟨hfalse, htrue, hservers⟩ := hs
  have hbelongs : s.Belongs 2 none := by
    refine ⟨2, ?_⟩
    have hthird := congrArg (·[2]?) hservers
    simp only [List.getElem?_map] at hthird
    obtain ⟨⟨core, context⟩, hsv, heq⟩ := Option.map_eq_some_iff.mp hthird
    obtain ⟨rfl, rfl⟩ := Prod.mk.inj heq
    exact hsv
  have hinit : coldCores.Initial := ⟨fun _ => rfl, rfl, rfl⟩
  exact ⟨s, hrun, hfalse, htrue, hbelongs, cores_keep_flows ⟨1, 2⟩ twoCoresLaunch hinit hrun⟩

end Rock
