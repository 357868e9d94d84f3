/-
Rock/Notification.lean

Notifications (kernel/core/notification.c and notification.h): the queue of a
context, `notification_send`, `notification_dispatch` and the system calls
around them.

The model keeps what the code does to the queue, also where that is not what a
queue should do:

* `NOTIFICATION_POP` looks for the oldest entry with a loop that never
  advances, so it returns only if the newest entry is the only one; it does not
  take the entry out of the list, and it clears the pending bit of the number
  before;
* `pending` and `mask` have 32 bits for 64 numbers, and the conversion to 64
  bits extends the sign;
* `notification_dispatch` does not release the queue's lock once it has found a
  `ucontext`.

Memory that fayt allocates is taken to be cleared (`allocCleared`), as the kernel
relies on throughout.

`notificationDispatch_spec` says what a dispatch can do to the frames of a
context.  `notification_send` negates the result of its validity check, which is 0
for valid numbers: it refuses every number that has a slot in the queue
(`notificationSend_valid`), and any other is pushed outside the queue.
-/
import Rock.Exec
import Rock.Pmm

namespace Rock

/-! ### Contexts -/

/-- `struct registers`, the frame that is pushed on entry to the kernel. -/
structure Registers where
  r15 : Word
  r14 : Word
  r13 : Word
  r12 : Word
  r11 : Word
  r10 : Word
  r9 : Word
  r8 : Word
  rsi : Word
  rdi : Word
  rbp : Word
  rdx : Word
  rcx : Word
  rbx : Word
  rax : Word
  isrNumber : Word
  errorCode : Word
  rip : Word
  cs : Word
  rflags : Word
  rsp : Word
  ss : Word
  deriving DecidableEq, Inhabited

/-- `struct stack`. -/
structure Stack where
  sp : Word
  size : Word
  deriving DecidableEq, Inhabited

/-- `struct ustack`, a stack for handlers; the list they form is that of the
context. -/
structure Ustack where
  kernelStack : Stack
  userStack : Stack
  active : Bool
  deriving DecidableEq, Inhabited

/-- `struct ucontext`, the frame of a handler. -/
structure Ucontext where
  stack : Option Ustack
  regs : Registers
  active : Bool
  deriving DecidableEq, Inhabited

/-- `struct notification`; `next` and `last` point to other notifications. -/
structure Notification where
  notnum : ℤ
  info : Word
  vaddr : Word
  next : Option ℕ
  last : Option ℕ
  deriving DecidableEq, Inhabited

/-- `NOTIFICATION_MAX`. -/
def notificationMax : ℕ := 64

/-- `struct notification_queue`, with the notifications allocated for it. -/
structure NotificationQueue where
  queue : Fin notificationMax → Option ℕ
  mask : BitVec 32
  active : Bool
  pending : BitVec 32
  lock : Bool
  notes : List Notification

/-- The fields of `struct context` that notifications and context switches
use. -/
structure Context where
  ustacks : List Ustack
  actions : Fin notificationMax → Word
  queue : Option NotificationQueue
  ucontexts : List Ucontext
  ucontext : Option ℕ
  ucontextIdx : ℕ
  regs : Registers

/-! ### The queue -/

/-- `NOTIFICATION_MASK`; the processor takes the count of a shift modulo 64. -/
def notificationMask (not : ℤ) : Word := 1#64 <<< ((not - 1) % 64).toNat

namespace NotificationQueue

/-- `queue->pending & NOTIFICATION_MASK(i)`. -/
def isPending (q : NotificationQueue) (i : ℤ) : Bool :=
  q.pending.signExtend 64 &&& notificationMask i != 0#64

/-- `queue->mask & NOTIFICATION_MASK(i)`. -/
def isMasked (q : NotificationQueue) (i : ℤ) : Bool :=
  q.mask.signExtend 64 &&& notificationMask i != 0#64

/-- `NOTIFICATION_PUSH` of the notification `id` of number `not`. -/
def push (q : NotificationQueue) (id : ℕ) (not : ℤ) : Exec NotificationQueue :=
  if h : (not - 1).toNat < notificationMax ∧ 1 ≤ not then
    let slot : Fin notificationMax := ⟨(not - 1).toNat, h.1⟩
    let notes :=
      match q.queue slot with
      | some head =>
          (q.notes.modify head fun n => { n with last := some id }).modify id
            fun n => { n with next := some head }
      | none => q.notes
    .ok { q with
      notes := notes
      queue := Function.update q.queue slot (some id)
      pending := q.pending ||| (notificationMask not).setWidth 32 }
  else .error .wild

/-- `NOTIFICATION_POP` of the number `not`.  The loop stays at the head of the
list as long as that has a successor, and the macro then goes through `root`
without a test. -/
def pop (q : NotificationQueue) (not : Fin notificationMax) : Exec (ℕ × NotificationQueue) :=
  match q.queue not with
  | none => .error .null
  | some root =>
      let n := q.notes.getD root default
      if n.next.isSome then .error .hang
      else
        match n.last with
        | none =>
            .ok (root, { q with
              pending := q.pending &&& ~~~(notificationMask not.val).setWidth 32 })
        | some prev =>
            .ok (root, { q with notes := q.notes.modify prev fun n => { n with next := none } })

end NotificationQueue

/-- `NOTIFICATION_POP` returns the head of a list and leaves it there. -/
theorem NotificationQueue.pop_spec {q q' : NotificationQueue} {i : Fin notificationMax} {id : ℕ}
    (h : q.pop i = .ok (id, q')) : q.queue i = some id ∧ q'.queue = q.queue ∧ q'.lock = q.lock := by
  unfold pop at h
  rcases hq : q.queue i with - | root
  · simp [hq] at h
  · simp only [hq] at h
    split_ifs at h
    split at h <;>
      · obtain ⟨rfl, rfl⟩ := Prod.mk.inj (Except.ok.inj h)
        exact ⟨rfl, rfl, rfl⟩

theorem NotificationQueue.push_wild {q : NotificationQueue} {id : ℕ} {not : ℤ}
    (h : ¬ (1 ≤ not ∧ not ≤ notificationMax)) : q.push id not = .error .wild := by
  refine dif_neg ?_
  rintro ⟨hlt, hge⟩
  exact h ⟨hge, by omega⟩

/-! ### Sending -/

/-- `notification_is_valid`: 0 for a valid number. -/
def notificationIsValid (not : ℤ) : ℤ :=
  if not < 1 ∨ not > notificationMax then -1 else 0

/-- `notification_check_perms`. -/
def notificationCheckPerms : ℤ := 0

/-- The weights of fayt/notification.h. -/
structure NotifyWeights where
  instantaneous : BitVec 32
  tick : BitVec 32

/-- What `notification_send` returns and does: the notification it queued, and
whether it puts the target on the core's `delivery_stack` and yields. -/
structure Sent where
  ret : ℤ
  target : Option Context
  id : Option ℕ
  delivers : Bool
  yields : Bool

/-- `notification_send`; `info` is the address of the allocated
`notification_info`. -/
def notificationSend (w : NotifyWeights) (sender : Option ℕ) (target : Option Context) (not : ℤ)
    (weight : BitVec 32) (info : Word) : Exec Sent :=
  match sender, target with
  | some _, some c =>
      if notificationIsValid not = 0 ∨ notificationCheckPerms = -1 then
        .ok ⟨-1, target, none, false, false⟩
      else
        match c.queue with
        | none => .ok ⟨-1, target, none, false, false⟩
        | some q => do
            let id := q.notes.length
            let note : Notification :=
              { allocCleared Notification with notnum := not, info := info }
            let q ← NotificationQueue.push { q with notes := q.notes ++ [note] } id not
            let instantaneous := weight &&& w.instantaneous != 0#32
            .ok { ret := 0
                  target := some { c with queue := some q }
                  id := some id
                  delivers := instantaneous || weight &&& w.tick != 0#32
                  yields := instantaneous }
  | _, _ => .ok ⟨-1, target, none, false, false⟩

/-! ### Dispatch -/

/-- `get_ucontext`: the first one that is not active, or a new one. -/
def getUcontext (us : List Ucontext) : ℕ × List Ucontext :=
  match us.findIdx? fun u => !u.active with
  | some i => (i, us)
  | none => (us.length, us ++ [allocCleared Ucontext])

/-- The frame in which a handler starts; the other registers stay as the
`ucontext` has them. -/
def handlerFrame (old : Registers) (sp handler info vaddr : Word) (i : ℕ) : Registers :=
  { old with
    ss := 0x3b
    rsp := sp
    rflags := 0x202
    cs := 0x43
    rip := handler
    rdi := info
    rsi := vaddr
    rdx := BitVec.ofNat 64 (i + 1) }

/-- What a dispatch leaves: its return value, the context, and, if a handler
was started, the notification it got and the frame it starts in. -/
structure Dispatched where
  ret : ℤ
  ctx : Context
  handed : Option (ℕ × Registers)

/-- The handler of number `i + 1` is started in the `ucontext` `u` for the
notification `id`. -/
def startHandler (c : Context) (q : NotificationQueue) (u : ℕ) (i : Fin notificationMax) (id : ℕ)
    (stack : Ustack) : Dispatched :=
  let n := q.notes.getD id default
  let frame := handlerFrame (c.ucontexts.getD u default).regs stack.userStack.sp (c.actions i)
    n.info n.vaddr (i.val + 1)
  { ret := 0
    ctx := { c with
      queue := some q
      ucontexts := c.ucontexts.set u ⟨some stack, frame, true⟩
      ucontext := some u }
    handed := some (id, frame) }

/-- The loop of `notification_dispatch` over the numbers, with the `ucontext`
`u`. -/
def dispatchFrom (c : Context) (q : NotificationQueue) (u : ℕ) :
    List (Fin notificationMax) → Exec Dispatched
  | [] => .ok ⟨0, { c with queue := some q }, none⟩
  | i :: is =>
      if !q.isPending (i.val + 1) || q.isMasked (i.val + 1) then dispatchFrom c q u is
      else do
        let (id, q) ← q.pop i
        match c.ustacks.find? fun s => !s.active with
        | none => .ok ⟨0, { c with queue := some q }, none⟩
        | some stack => .ok (startHandler c q u i id stack)

/-- `notification_dispatch`. -/
def notificationDispatch (c : Context) : Exec Dispatched :=
  match c.queue with
  | none => .ok ⟨-1, c, none⟩
  | some q =>
      if !q.active then .ok ⟨-1, c, none⟩
      else if q.lock then .error .hang
      else if q.pending = 0#32 then .ok ⟨-1, c, none⟩
      else
        let (u, us) := getUcontext c.ucontexts
        dispatchFrom { c with ucontexts := us, ucontextIdx := u } { q with lock := true } u
          (List.finRange notificationMax)

/-! ### The system calls -/

/-- `CONTEXT_DEFAULT_STACK_SIZE`. -/
def contextDefaultStackSize : Word := 0x10000

/-- `syscall_notification_define_stack`; `kernelSp` is the top of the kernel
stack that is allocated. -/
def notificationDefineStack (c : Context) (sp size kernelSp : Word) : Context :=
  { c with
    ustacks := ⟨⟨kernelSp, contextDefaultStackSize⟩, ⟨sp, size⟩, false⟩ :: c.ustacks }

/-- The first store of `syscall_notification_return`. -/
def Context.markUnused (c : Context) : Context :=
  { c with
    ucontexts :=
      match c.ucontext with
      | some u => c.ucontexts.modify u fun x => { x with active := false }
      | none => c.ucontexts }

/-- Its second store. -/
def Context.clearUcontext (c : Context) : Context := { c with ucontext := none }

/-- `syscall_notification_return` without an interrupt in it: the frame that is
resumed; `none` is the returned -1. -/
def notificationReturn (c : Context) : Option (Registers × Context) :=
  c.queue.map fun _ =>
    let us :=
      match c.ucontext with
      | some u => c.ucontexts.modify u fun x => { x with active := false }
      | none => c.ucontexts
    (c.regs, { c with ucontexts := us, ucontext := none })

theorem notificationReturn_eq (c : Context) :
    notificationReturn c = c.queue.map fun _ => (c.regs, c.markUnused.clearUcontext) := rfl

/-- `syscall_notification_unmute` and `syscall_notification_mute`. -/
def notificationSetActive (c : Context) (active : Bool) : Context :=
  { c with queue := c.queue.map fun q => { q with active := active } }

def notificationUnmute (c : Context) : Context := notificationSetActive c true

def notificationMute (c : Context) : Context := notificationSetActive c false

/-! ### What a dispatch does to the frames -/

theorem getUcontext_spec (us : List Ucontext) :
    (getUcontext us).1 < (getUcontext us).2.length ∧ us <+: (getUcontext us).2 := by
  unfold getUcontext
  rcases h : us.findIdx? fun u => !u.active with - | i
  · simp only [h]
    exact ⟨by simp, List.prefix_append _ _⟩
  · simp only [h]
    exact ⟨(List.findIdx?_eq_some_iff_getElem.mp h).1, List.prefix_refl _⟩

/-- A dispatch that starts no handler leaves the frames of the context as they
are; one that starts a handler makes its frame the current one. -/
def Dispatched.FramesOf (r : Dispatched) (c : Context) : Prop :=
  r.ctx.regs = c.regs ∧
    ((r.handed = none ∧ r.ctx.ucontext = c.ucontext) ∨
      ∃ id u frame stack, r.handed = some (id, frame) ∧ r.ctx.ucontext = some u ∧
        r.ctx.ucontexts[u]? = some ⟨some stack, frame, true⟩)

/-- **What the loop can do**: it ends without a handler, or starts one for a notification
that was popped, on the first stack that is not active. -/
theorem dispatchFrom_cases {c : Context} {q : NotificationQueue} {u : ℕ} {r : Dispatched}
    {is : List (Fin notificationMax)} (h : dispatchFrom c q u is = .ok r) :
    (∃ q', (q' = q ∨ ∃ i id, q.pop i = .ok (id, q')) ∧
        r = ⟨0, { c with queue := some q' }, none⟩) ∨
      ∃ i id q' stack, q.pop i = .ok (id, q') ∧
        (c.ustacks.find? fun s => !s.active) = some stack ∧ r = startHandler c q' u i id stack := by
  induction is with
  | nil => exact .inl ⟨q, .inl rfl, (Except.ok.inj h).symm⟩
  | cons i is ih =>
      rw [dispatchFrom] at h
      split at h
      · exact ih h
      · obtain ⟨⟨id, q'⟩, hpop, h⟩ := Exec.bind_eq_ok.mp h
        rcases hs : c.ustacks.find? fun s => !s.active with - | stack
        · -- no stack: the notification was popped, and nothing is started
          simp only [hs, Except.ok.injEq] at h
          exact .inl ⟨q', .inr ⟨i, id, hpop⟩, h.symm⟩
        · simp only [hs, Except.ok.injEq] at h
          exact .inr ⟨i, id, q', stack, hpop, hs, h.symm⟩

theorem dispatchFrom_frames {c : Context} {q : NotificationQueue} {u : ℕ} {r : Dispatched}
    (hu : u < c.ucontexts.length) {is : List (Fin notificationMax)}
    (h : dispatchFrom c q u is = .ok r) : r.FramesOf c := by
  rcases dispatchFrom_cases h with ⟨q', -, rfl⟩ | ⟨i, id, q', stack, -, -, rfl⟩
  · exact ⟨rfl, .inl ⟨rfl, rfl⟩⟩
  · exact ⟨rfl, .inr ⟨id, u, _, stack, rfl, rfl, List.getElem?_set_self hu⟩⟩

/-- **What a dispatch can do**: return at once, or go through the numbers of a
queue that is unmuted, not locked and has something pending. -/
theorem notificationDispatch_cases {c : Context} {r : Dispatched}
    (h : notificationDispatch c = .ok r) :
    r = ⟨-1, c, none⟩ ∨ ∃ q, c.queue = some q ∧ q.lock = false ∧ q.pending ≠ 0#32 ∧
      dispatchFrom { c with
          ucontexts := (getUcontext c.ucontexts).2, ucontextIdx := (getUcontext c.ucontexts).1 }
        { q with lock := true } (getUcontext c.ucontexts).1 (List.finRange notificationMax)
        = .ok r := by
  unfold notificationDispatch at h
  rcases hq : c.queue with - | q
  · simp only [hq, Except.ok.injEq] at h
    exact .inl h.symm
  · simp only [hq] at h
    split_ifs at h with hactive hlock hpending
    · exact .inl (Except.ok.inj h).symm
    · exact .inl (Except.ok.inj h).symm
    · exact .inr ⟨q, rfl, Bool.eq_false_iff.mpr hlock, hpending, h⟩

/-- **What a dispatch can do to the frames.** -/
theorem notificationDispatch_spec {c : Context} {r : Dispatched}
    (h : notificationDispatch c = .ok r) : r.FramesOf c := by
  rcases notificationDispatch_cases h with rfl | ⟨q, -, -, -, h⟩
  · exact ⟨rfl, .inl ⟨rfl, rfl⟩⟩
  · exact (dispatchFrom_frames (getUcontext_spec c.ucontexts).1 h :)

/-! ### What sending does -/

/-- **A number that has a slot in the queue is refused.** -/
theorem notificationSend_valid {w : NotifyWeights} {sender : Option ℕ} {target : Option Context}
    {not : ℤ} {weight : BitVec 32} {info : Word} (hnot : 1 ≤ not ∧ not ≤ notificationMax) :
    notificationSend w sender target not weight info = .ok ⟨-1, target, none, false, false⟩ := by
  have hvalid : notificationIsValid not = 0 := if_neg (by omega)
  unfold notificationSend
  rcases sender with - | a <;> rcases target with - | c <;> simp [hvalid]

/-- Other numbers are pushed outside the queue. -/
theorem notificationSend_invalid {w : NotifyWeights} {a : ℕ} {c : Context} {q : NotificationQueue}
    {not : ℤ} {weight : BitVec 32} {info : Word} (hq : c.queue = some q)
    (hnot : ¬ (1 ≤ not ∧ not ≤ notificationMax)) :
    notificationSend w (some a) (some c) not weight info = .error .wild := by
  have hvalid : ¬ (notificationIsValid not = 0 ∨ notificationCheckPerms = -1) := by
    have hneg : notificationIsValid not = -1 := if_pos (by omega)
    simp [hneg, notificationCheckPerms]
  simp only [notificationSend, if_neg hvalid, hq, NotificationQueue.push_wild hnot,
    Exec.error_bind]

/-- A call of `notification_send` that returns does nothing. -/
theorem notificationSend_spec {w : NotifyWeights} {sender : Option ℕ} {target : Option Context}
    {not : ℤ} {weight : BitVec 32} {info : Word} {r : Sent}
    (h : notificationSend w sender target not weight info = .ok r) :
    r.ret = -1 ∧ r.target = target := by
  by_cases hnot : 1 ≤ not ∧ not ≤ notificationMax
  · rw [notificationSend_valid hnot] at h
    exact Except.ok.inj h ▸ ⟨rfl, rfl⟩
  · rcases sender with - | a
    · exact Except.ok.inj h ▸ ⟨rfl, rfl⟩
    rcases target with - | c
    · exact Except.ok.inj h ▸ ⟨rfl, rfl⟩
    rcases hq : c.queue with - | q
    · simp only [notificationSend, hq, ite_self] at h
      exact Except.ok.inj h ▸ ⟨rfl, rfl⟩
    · rw [notificationSend_invalid hq hnot] at h
      exact absurd h (by simp)

/-- A context with an unmuted, empty queue. -/
def idleContext : Context where
  ustacks := []
  actions := fun _ => 0
  queue := some
    { queue := fun _ => none, mask := 0, active := true, pending := 0, lock := false, notes := [] }
  ucontexts := []
  ucontext := none
  ucontextIdx := 0
  regs := default

end Rock
