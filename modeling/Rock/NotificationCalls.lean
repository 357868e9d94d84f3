/-
Rock/NotificationCalls.lean

The calls around notifications one by one (kernel/core/notification.c): which notifications
`notification_send` accepts, which handler `notification_dispatch` runs after
`syscall_notification_action` has registered some, and whether a dispatch releases the lock of
the queue.

* The check of the number in `notification_send` is negated.  The queue itself takes every valid
  number, but a call gets there only with one that is not, and then writes outside the queue.
  What is left are the calls without a sender, a target or a queue.
* `notification_action` keeps the handler of the number `n` in the element `n` of `actions`, the
  dispatch takes it from the element `n - 1`, and reports `n + 1`.  The registrations alone are
  a table of handlers by number (`notificationActions_registered`) up to the last number, whose
  element is outside the array.
* A dispatch of a queue that is active and has something pending never gives the lock back.
-/
import Rock.Notification
import Rock.Scheduler

namespace Rock

/-! ### What is accepted -/

/-- The number is that of a notification. -/
def IsNotification (not : ℤ) : Prop := 1 ≤ not ∧ not ≤ notificationMax

instance (not : ℤ) : Decidable (IsNotification not) :=
  inferInstanceAs (Decidable (1 ≤ not ∧ not ≤ notificationMax))

theorem notificationIsValid_eq_neg_iff {not : ℤ} :
    notificationIsValid not = -1 ↔ ¬ IsNotification not := by
  unfold notificationIsValid IsNotification
  split_ifs with h
  · exact iff_of_true rfl (by omega)
  · exact iff_of_false (by decide) (by omega)

/-- One new notification of the number `not` is at the head of its list, and the other lists are
as they were. -/
def NotificationQueue.Enters (q q' : NotificationQueue) (not : ℤ) : Prop :=
  ∃ slot : Fin notificationMax, slot.val + 1 = not ∧
    q'.queue slot = some q.notes.length ∧
    q'.notes.length = q.notes.length + 1 ∧
    (q'.notes.getD q.notes.length default).notnum = not ∧
    (q'.notes.getD q.notes.length default).next = q.queue slot ∧
    ∀ slot' ≠ slot, q'.queue slot' = q.queue slot'

/-- **What `notification_send` is to do**: accept a valid number for a target with a queue, and
refuse everything else without an effect. -/
def SendExact (w : NotifyWeights) (sender : Option ℕ) (target : Option Context) (not : ℤ)
    (weight : BitVec 32) (info : Word) : Prop :=
  ∃ r, notificationSend w sender target not weight info = .ok r ∧
    match sender, target.bind Context.queue with
    | some _, some q =>
        if IsNotification not then
          r.ret = 0 ∧ ∃ c ∈ r.target, ∃ q' ∈ c.queue, q.Enters q' not
        else r.ret = -1 ∧ r.target = target ∧ r.delivers = false
    | _, _ => r.ret = -1 ∧ r.target = target ∧ r.delivers = false

/-- **Calls of `notification_send` that do what they should** are those without a sender, a
target or a queue: a valid number is refused, and any other is written outside the queue. -/
theorem send_exact_iff (w : NotifyWeights) (sender : Option ℕ) (target : Option Context) (not : ℤ)
    (weight : BitVec 32) (info : Word) :
    SendExact w sender target not weight info ↔
      sender = none ∨ target = none ∨ ∃ c, target = some c ∧ c.queue = none := by
  unfold SendExact
  rcases sender with - | a
  · exact iff_of_true ⟨_, rfl, rfl, rfl, rfl⟩ (.inl rfl)
  rcases target with - | c
  · exact iff_of_true ⟨_, rfl, rfl, rfl, rfl⟩ (.inr (.inl rfl))
  rcases hq : c.queue with - | q
  · have hrefused : notificationSend w (some a) (some c) not weight info
        = .ok ⟨-1, some c, none, false, false⟩ := by
      simp only [notificationSend, hq, ite_self]
    simp only [Option.bind_some, hq]
    exact iff_of_true ⟨_, hrefused, rfl, rfl, rfl⟩ (.inr (.inr ⟨c, rfl, hq⟩))
  · refine iff_of_false ?_ ?_
    · rintro ⟨r, hr, hexact⟩
      simp only [Option.bind_some, hq] at hexact
      by_cases hnot : IsNotification not
      · rw [notificationSend_valid hnot] at hr
        obtain rfl := Except.ok.inj hr
        rw [if_pos hnot] at hexact
        exact absurd hexact.1 (show ¬ (-1 : ℤ) = 0 by decide)
      · cases (notificationSend_invalid hq hnot).symm.trans hr
    · rintro (h | h | ⟨c', hc', hnone⟩)
      · cases h
      · cases h
      · cases hc'
        cases hq.symm.trans hnone

/-- A valid number is refused, and the number 0 is written before the queue. -/
theorem send_not_exact :
    notificationSend ⟨1, 2⟩ (some 0) (some idleContext) 7 1 0x5000
      = .ok ⟨-1, some idleContext, none, false, false⟩ ∧
    ¬ SendExact ⟨1, 2⟩ (some 0) (some idleContext) 7 1 0x5000 ∧
    notificationSend ⟨1, 2⟩ (some 0) (some idleContext) 0 1 0x5000 = .error .wild ∧
    ¬ SendExact ⟨1, 2⟩ (some 0) (some idleContext) 0 1 0x5000 := by
  have hvalid : notificationSend ⟨1, 2⟩ (some 0) (some idleContext) 7 1 0x5000
      = .ok ⟨-1, some idleContext, none, false, false⟩ := notificationSend_valid (by decide)
  have hwild : notificationSend ⟨1, 2⟩ (some 0) (some idleContext) 0 1 0x5000 = .error .wild :=
    notificationSend_invalid rfl (by decide)
  refine ⟨hvalid, ?_, hwild, ?_⟩
  · rintro ⟨r, hr, hexact⟩
    obtain rfl := Except.ok.inj (hvalid.symm.trans hr)
    exact absurd hexact.1 (by decide)
  · rintro ⟨r, hr, -⟩
    cases hwild.symm.trans hr

/-! ### Which handler runs -/

/-- The arguments of `syscall_notification_action`; `old` says that the pointer is given. -/
structure ActionCall where
  not : ℤ
  action : Option Word
  old : Bool
  deriving DecidableEq

/-- What the call returns and leaves, and what it stores in `old`. -/
structure ActionDone where
  ret : ℤ
  ctx : Context
  old : Option Word

/-- `syscall_notification_action`.  The element of `actions` is that of the number itself, and
is used if one of the pointers is given. -/
def notificationAction (c : Context) (call : ActionCall) : Exec ActionDone :=
  if notificationIsValid call.not = -1 then .ok ⟨-1, c, none⟩
  else if h : call.not.toNat < notificationMax then
    let slot : Fin notificationMax := ⟨call.not.toNat, h⟩
    let actions :=
      match call.action with
      | some action => Function.update c.actions slot action
      | none => c.actions
    .ok ⟨0, { c with actions := actions }, if call.old then some (c.actions slot) else none⟩
  else if call.action.isSome || call.old then .error .wild
  else .ok ⟨0, c, none⟩

/-- Calls by a context, one after the other. -/
def notificationActions (c : Context) : List ActionCall → Exec Context
  | [] => .ok c
  | call :: calls => do
      let r ← notificationAction c call
      notificationActions r.ctx calls

/-- The handlers by their number, and what a call makes of them. -/
def ActionCall.register (call : ActionCall) (handlers : ℤ → Word) : ℤ → Word :=
  if IsNotification call.not then
    match call.action with
    | some action => Function.update handlers call.not action
    | none => handlers
  else handlers

/-- The handlers that calls have registered, each as the last call for its number left it. -/
def registered (calls : List ActionCall) : ℤ → Word :=
  calls.foldl (fun handlers call => call.register handlers) fun _ => 0

/-- The call passes a pointer for the last number, which has no element. -/
def ActionCall.Outside (call : ActionCall) : Prop :=
  call.not = notificationMax ∧ (call.action ≠ none ∨ call.old = true)

instance (call : ActionCall) : Decidable call.Outside :=
  inferInstanceAs (Decidable (_ ∧ _))

/-- The context has the handlers of the table in the elements of their numbers. -/
def Context.Holds (c : Context) (handlers : ℤ → Word) : Prop :=
  ∀ slot : Fin notificationMax, c.actions slot = handlers slot.val

/-- **What `notification_action` is to do** after `earlier`: an invalid number changes nothing,
and a valid one returns the previous handler of the number and changes no other element. -/
def ActionCall.Exact (call : ActionCall) (c : Context) (earlier : List ActionCall) : Prop :=
  ∃ r, notificationAction c call = .ok r ∧
    if IsNotification call.not then
      r.ret = 0 ∧ (call.old = true → r.old = some (registered earlier call.not)) ∧
        r.ctx = { c with actions := r.ctx.actions } ∧
        ∀ slot : Fin notificationMax, slot.val ≠ call.not → r.ctx.actions slot = c.actions slot
    else r.ret = -1 ∧ r.ctx = c ∧ r.old = none

section Actions

variable {c c' : Context} {call : ActionCall} {calls : List ActionCall} {handlers : ℤ → Word}

theorem notificationAction_invalid (hnot : ¬ IsNotification call.not) :
    notificationAction c call = .ok ⟨-1, c, none⟩ :=
  if_pos (notificationIsValid_eq_neg_iff.mpr hnot)

theorem notificationAction_outside (h : call.Outside) :
    notificationAction c call = .error .wild := by
  obtain ⟨hnot, hptr⟩ := h
  have hvalid : ¬ notificationIsValid call.not = -1 := by
    rw [notificationIsValid_eq_neg_iff, hnot]
    decide
  have hslot : ¬ call.not.toNat < notificationMax := by
    rw [hnot]
    decide
  have hsome : (call.action.isSome || call.old) = true := by
    rcases hptr with haction | hold
    · simp [Option.isSome_iff_ne_none.mpr haction]
    · simp [hold]
  rw [notificationAction, if_neg hvalid, dif_neg hslot, if_pos hsome]

/-- A new handler in its element. -/
theorem Context.Holds.update (hc : c.Holds handlers) (slot : Fin notificationMax)
    (action : Word) :
    { c with actions := Function.update c.actions slot action }.Holds
      (Function.update handlers slot.val action) := by
  intro slot'
  show Function.update c.actions slot action slot' = _
  by_cases heq : slot' = slot
  · rw [heq, Function.update_self, Function.update_self]
  · have hne : (slot'.val : ℤ) ≠ slot.val := fun h => heq (Fin.ext (Int.natCast_inj.mp h))
    rw [Function.update_of_ne hne, Function.update_of_ne heq, hc slot']

/-- **A call that stays inside** leaves the table of handlers after it, and returns the handler
that the table had. -/
theorem notificationAction_inside (hnot : IsNotification call.not) (hin : ¬ call.Outside)
    (hc : c.Holds handlers) :
    ∃ r, notificationAction c call = .ok r ∧ r.ret = 0 ∧
      (call.old = true → r.old = some (handlers call.not)) ∧
      r.ctx = { c with actions := r.ctx.actions } ∧ r.ctx.Holds (call.register handlers) ∧
      ∀ slot : Fin notificationMax, slot.val ≠ call.not → r.ctx.actions slot = c.actions slot := by
  have hvalid : ¬ notificationIsValid call.not = -1 := by
    rw [notificationIsValid_eq_neg_iff, not_not]
    exact hnot
  have hreg : call.register handlers = _ := if_pos hnot
  obtain ⟨hge, hle⟩ := hnot
  by_cases hslot : call.not.toNat < notificationMax
  · have hcast : ((call.not.toNat : ℕ) : ℤ) = call.not := Int.toNat_of_nonneg (by omega)
    refine ⟨_, (if_neg hvalid).trans (dif_pos hslot), rfl, fun hold => ?_, rfl, ?_, ?_⟩
    · rw [if_pos hold, hc ⟨call.not.toNat, hslot⟩, hcast]
    · rw [hreg]
      rcases call.action with - | action
      · exact hc
      · have hupdate := hc.update ⟨call.not.toNat, hslot⟩ action
        rwa [hcast] at hupdate
    · intro slot hne
      rcases call.action with - | action
      · rfl
      · refine Function.update_of_ne (fun heq => hne ?_) _ _
        rw [heq]
        exact hcast
  · -- the last number, without a pointer
    have hlast : call.not = notificationMax := by omega
    have hnone : call.action = none ∧ call.old = false := by
      refine ⟨by_contra fun h => hin ⟨hlast, .inl h⟩, ?_⟩
      exact Bool.eq_false_iff.mpr fun h => hin ⟨hlast, .inr h⟩
    refine ⟨⟨0, c, none⟩, ?_, rfl, fun hold => ?_, rfl, ?_, fun _ _ => rfl⟩
    · rw [notificationAction, if_neg hvalid, dif_neg hslot, hnone.1, hnone.2]
      rfl
    · cases hnone.2.symm.trans hold
    · rw [hreg, hnone.1]
      exact hc

/-- A call that returns keeps the table. -/
theorem notificationAction_holds {r : ActionDone} (hc : c.Holds handlers)
    (h : notificationAction c call = .ok r) : r.ctx.Holds (call.register handlers) := by
  by_cases hnot : IsNotification call.not
  · by_cases hin : call.Outside
    · cases (notificationAction_outside hin).symm.trans h
    · obtain ⟨r', hr', -, -, -, hholds, -⟩ := notificationAction_inside hnot hin hc
      obtain rfl := Except.ok.inj (hr'.symm.trans h)
      exact hholds
  · obtain rfl := Except.ok.inj ((notificationAction_invalid hnot).symm.trans h)
    rw [ActionCall.register, if_neg hnot]
    exact hc

/-- **Calls that return keep the table**, over any sequence of them. -/
theorem notificationActions_holds (hc : c.Holds handlers)
    (h : notificationActions c calls = .ok c') :
    c'.Holds (calls.foldl (fun handlers call => call.register handlers) handlers) := by
  induction calls generalizing c handlers with
  | nil =>
      obtain rfl := Except.ok.inj h
      exact hc
  | cons call calls ih =>
      obtain ⟨r, hr, h⟩ := Exec.bind_eq_ok.mp h
      exact ih (notificationAction_holds hc hr) h

/-- The elements of a new context after its calls. -/
theorem notificationActions_registered (hblank : ∀ slot, c.actions slot = 0)
    (h : notificationActions c calls = .ok c') : c'.Holds (registered calls) :=
  notificationActions_holds hblank h

theorem notificationAction_exact_iff (hc : c.Holds (registered calls)) :
    call.Exact c calls ↔ ¬ call.Outside := by
  refine ⟨?_, fun hin => ?_⟩
  · rintro ⟨r, hr, -⟩ hout
    cases (notificationAction_outside hout).symm.trans hr
  · by_cases hnot : IsNotification call.not
    · obtain ⟨r, hr, hret, hold, hctx, -, hother⟩ := notificationAction_inside hnot hin hc
      exact ⟨r, hr, (if_pos hnot).mpr ⟨hret, hold, hctx, hother⟩⟩
    · exact ⟨_, notificationAction_invalid hnot, (if_neg hnot).mpr ⟨rfl, rfl, rfl⟩⟩

theorem notificationActions_append (c : Context) (earlier later : List ActionCall) :
    notificationActions c (earlier ++ later)
      = notificationActions c earlier >>= fun c => notificationActions c later := by
  induction earlier generalizing c with
  | nil => rfl
  | cons call earlier ih =>
      rcases hr : notificationAction c call with e | r
      · simp [notificationActions, hr]
      · simp [notificationActions, hr, ih]

/-- Every call of the sequence does what it should after those before it. -/
def ActionsExact (c : Context) (calls : List ActionCall) : Prop :=
  ∀ earlier call c', earlier ++ [call] <+: calls → notificationActions c earlier = .ok c' →
    call.Exact c' earlier

/-- If every call does what it should, the first ones return, and none has no element. -/
theorem ActionsExact.inside (hblank : ∀ slot, c.actions slot = 0) (hexact : ActionsExact c calls)
    {earlier : List ActionCall} (hpre : earlier <+: calls) :
    (∃ c', notificationActions c earlier = .ok c') ∧ ∀ call ∈ earlier, ¬ call.Outside := by
  -- a call is exact only after those before it have returned, so the induction adds it at the end
  induction earlier using List.reverseRecOn with
  | nil => exact ⟨⟨c, rfl⟩, by simp⟩
  | append_singleton earlier call ih =>
      obtain ⟨⟨c', hc'⟩, hin⟩ := ih ((List.prefix_append _ _).trans hpre)
      have hcall := hexact earlier call c' hpre hc'
      have hlast := (notificationAction_exact_iff
        (notificationActions_registered hblank hc')).mp hcall
      obtain ⟨r, hr, -⟩ := hcall
      refine ⟨⟨r.ctx, ?_⟩, fun call' hmem => ?_⟩
      · simp [notificationActions_append, hc', notificationActions, hr]
      · rcases List.mem_append.mp hmem with hmem | hmem
        · exact hin call' hmem
        · exact List.mem_singleton.mp hmem ▸ hlast

/-- **Registrations are exact** up to the first that has no element. -/
theorem actionsExact_iff (hblank : ∀ slot, c.actions slot = 0) :
    ActionsExact c calls ↔ ∀ call ∈ calls, ¬ call.Outside := by
  refine ⟨fun hexact => ?_, fun hin earlier call c' hpre hc' => ?_⟩
  · exact (hexact.inside hblank (List.prefix_refl calls)).2
  · refine (notificationAction_exact_iff (notificationActions_registered hblank hc')).mpr ?_
    exact hin call (hpre.subset (by simp))

end Actions

/-- The number `i + 1` is pending and not masked. -/
def NotificationQueue.deliverable (q : NotificationQueue) (i : Fin notificationMax) : Bool :=
  q.isPending (i.val + 1) && !q.isMasked (i.val + 1)

/-- The element of the number that a dispatch takes. -/
def NotificationQueue.nextPending (q : NotificationQueue) : Option (Fin notificationMax) :=
  (List.finRange notificationMax).find? q.deliverable

/-- A dispatch of the context starts a handler. -/
def Context.StartsHandler (c : Context) : Prop :=
  (∃ q ∈ c.queue, q.active = true ∧ q.nextPending.isSome) ∧
    (c.ustacks.find? fun s => !s.active).isSome

section Dispatch

variable {c c₀ : Context} {q : NotificationQueue} {r : Dispatched} {calls : List ActionCall}

/-- Without pending bits there is no number to take. -/
theorem NotificationQueue.nextPending_none (hq : q.pending = 0#32) : q.nextPending = none := by
  refine List.find?_eq_none.mpr fun i _ => ?_
  simp [deliverable, isPending, hq]

/-- The loop takes the first number that can be delivered, and starts its handler if there is a
stack. -/
theorem dispatchFrom_next {u : ℕ} {is : List (Fin notificationMax)}
    (h : dispatchFrom c q u is = .ok r) :
    (∃ i id q' stack, is.find? q.deliverable = some i ∧
        (c.ustacks.find? fun s => !s.active) = some stack ∧ r = startHandler c q' u i id stack) ∨
      (r.handed = none ∧ (is.find? q.deliverable = none ∨
        (c.ustacks.find? fun s => !s.active) = none)) := by
  induction is with
  | nil => exact .inr ⟨Except.ok.inj h ▸ rfl, .inl rfl⟩
  | cons i is ih =>
      rw [dispatchFrom] at h
      split at h
      case isTrue hskip =>
        -- not pending, or masked: the loop goes on
        have hi : ¬ q.deliverable i = true := by
          simpa [NotificationQueue.deliverable, imp_iff_not_or] using hskip
        rw [List.find?_cons_of_neg hi]
        exact ih h
      case isFalse htake =>
        have hi : q.deliverable i = true := by
          simpa [NotificationQueue.deliverable] using htake
        obtain ⟨⟨id, q'⟩, -, h⟩ := Exec.bind_eq_ok.mp h
        rcases hs : c.ustacks.find? fun s => !s.active with - | stack
        · simp only [hs, Except.ok.injEq] at h
          exact .inr ⟨h ▸ rfl, .inr hs⟩
        · simp only [hs, Except.ok.injEq] at h
          exact .inl ⟨i, id, q', stack, List.find?_cons_of_pos hi, hs, h.symm⟩

/-- **The frame of a dispatch.**  A handler is started exactly in a state that says so; its
number is one less than the frame reports, and its address is in the element before that of the
number. -/
theorem notificationDispatch_frame (h : notificationDispatch c = .ok r) :
    (c.StartsHandler ∧ ∃ q i id frame, c.queue = some q ∧ q.nextPending = some i ∧
        r.handed = some (id, frame) ∧ frame.rip = c.actions i ∧
        frame.rdx = BitVec.ofNat 64 (i.val + 2)) ∨
      (¬ c.StartsHandler ∧ r.handed = none) := by
  unfold notificationDispatch at h
  rcases hq : c.queue with - | q
  · simp only [hq, Except.ok.injEq] at h
    refine .inr ⟨?_, h ▸ rfl⟩
    rintro ⟨⟨q, hq', -⟩, -⟩
    cases hq.symm.trans hq'
  simp only [hq] at h
  have hone : ∀ q' ∈ c.queue, q' = q := fun q' hq' => Option.some.inj (hq'.symm.trans hq)
  split_ifs at h with hactive hlock hpending
  · refine .inr ⟨?_, (Except.ok.inj h) ▸ rfl⟩
    rintro ⟨⟨q', hq', hactive', -⟩, -⟩
    rw [hone q' hq'] at hactive'
    simp [hactive'] at hactive
  · refine .inr ⟨?_, (Except.ok.inj h) ▸ rfl⟩
    rintro ⟨⟨q', hq', -, hnext⟩, -⟩
    rw [hone q' hq', NotificationQueue.nextPending_none hpending] at hnext
    cases hnext
  · rcases dispatchFrom_next h with ⟨i, id, q', stack, hi, hstack, rfl⟩ | ⟨hnone, hwhy⟩
    · have hi : q.nextPending = some i := hi
      have hstack : (c.ustacks.find? fun s => !s.active) = some stack := hstack
      have hon : q.active = true := by simpa using hactive
      refine .inl ⟨⟨⟨q, hq, hon, ?_⟩, ?_⟩, q, i, id, _, rfl, hi, rfl, rfl, rfl⟩
      · rw [hi, Option.isSome_some]
      · rw [hstack, Option.isSome_some]
    · refine .inr ⟨?_, hnone⟩
      rintro ⟨⟨q', hq', -, hnext⟩, hstack⟩
      rw [hone q' hq'] at hnext
      rcases hwhy with hwhy | hwhy
      · have hwhy : q.nextPending = none := hwhy
        rw [hwhy] at hnext
        cases hnext
      · have hwhy : (c.ustacks.find? fun s => !s.active) = none := hwhy
        rw [hwhy] at hstack
        cases hstack

/-- The frame of a started handler has the handler registered for the number, and the number. -/
def Dispatched.RunsRegistered (r : Dispatched) (c : Context) (calls : List ActionCall) : Prop :=
  ∀ q ∈ c.queue, ∀ i ∈ q.nextPending, ∀ id frame, r.handed = some (id, frame) →
    frame.rip = registered calls (i.val + 1) ∧ frame.rdx = BitVec.ofNat 64 (i.val + 1)

/-- **When the registered handler runs.**  A new context makes `calls`, and is dispatched later.
Every call does what it should, and the handler that is started is the one registered for the
number, exactly if no call uses the last number and no handler is started.  One that is
started is that of the number before, and is told the number after. -/
theorem registered_handler_runs_iff (hblank : ∀ slot, c₀.actions slot = 0)
    (hlater : ∀ c', notificationActions c₀ calls = .ok c' → c.actions = c'.actions)
    (hdispatch : notificationDispatch c = .ok r) :
    (ActionsExact c₀ calls ∧ r.RunsRegistered c calls ↔
      (∀ call ∈ calls, ¬ call.Outside) ∧ ¬ c.StartsHandler) ∧
    ((∃ c', notificationActions c₀ calls = .ok c') →
      ∀ q ∈ c.queue, ∀ i ∈ q.nextPending, ∀ id frame, r.handed = some (id, frame) →
        frame.rip = registered calls i.val ∧ frame.rdx = BitVec.ofNat 64 (i.val + 2)) := by
  have hframe := notificationDispatch_frame hdispatch
  refine ⟨?_, ?_⟩
  · rw [actionsExact_iff hblank]
    refine and_congr_right fun _ => ⟨fun hruns hstarts => ?_, fun hstarts => ?_⟩
    · rcases hframe with ⟨-, q, i, id, frame, hq, hi, hhanded, -, hrdx⟩ | ⟨hno, -⟩
      · -- the number that is reported is `i + 2`, for the notification `i + 1`
        have hnum := hrdx.symm.trans (hruns q hq i hi id frame hhanded).2
        have hlt : i.val < 64 := i.isLt
        have hnat := congrArg BitVec.toNat hnum
        simp only [BitVec.toNat_ofNat] at hnat
        omega
      · exact hno hstarts
    · rcases hframe with ⟨hyes, -⟩ | ⟨-, hnone⟩
      · exact absurd hyes hstarts
      · intro q _ i _ id frame hhanded
        cases hnone.symm.trans hhanded
  · rintro ⟨c', hc'⟩ q hq i hi id frame hhanded
    rcases hframe with ⟨-, q', i', id', frame', hq', hi', hhanded', hrip, hrdx⟩ | ⟨-, hnone⟩
    · obtain rfl := Option.some.inj (hq'.symm.trans hq)
      obtain rfl := Option.some.inj (hi'.symm.trans hi)
      obtain ⟨-, rfl⟩ := Prod.mk.inj (Option.some.inj (hhanded'.symm.trans hhanded))
      refine ⟨?_, hrdx⟩
      rw [hrip, hlater c' hc']
      exact notificationActions_registered hblank hc' i'
    · cases hnone.symm.trans hhanded

end Dispatch

/-- A handler for the number 7, with the previous one asked for. -/
def registerSeven : ActionCall := ⟨7, some 0x401000, true⟩

/-- The empty context after that call. -/
def sevenContext : Context :=
  { idleContext with actions := Function.update (fun _ => 0) ⟨7, by decide⟩ 0x401000 }

/-- A context without stacks starts no handler, and its registrations are exact. -/
theorem registered_handler_runs_idle :
    ActionsExact idleContext [registerSeven] ∧
      Dispatched.RunsRegistered ⟨-1, sevenContext, none⟩ sevenContext [registerSeven] := by
  have hdispatch : notificationDispatch sevenContext = .ok ⟨-1, sevenContext, none⟩ := rfl
  have hlater : ∀ c', notificationActions idleContext [registerSeven] = .ok c' →
      sevenContext.actions = c'.actions := fun c' hc' => Except.ok.inj hc' ▸ rfl
  refine (registered_handler_runs_iff (fun _ => rfl) hlater hdispatch).1.mpr ⟨by decide, ?_⟩
  rintro ⟨-, hstack⟩
  cases hstack

/-- The context of one notification of number 1, with a handler registered for that number. -/
def registeredContext : Context :=
  { signalledContext with actions := Function.update (fun _ => 0) ⟨1, by decide⟩ 0x401000 }

/-- **The registered handler does not run.**  With the handler `0x401000` registered for the
number 1, the frame for a notification of that number starts at address 0, with the number 2. -/
theorem registered_handler_not_run :
    notificationActions idleContext [⟨1, some 0x401000, false⟩]
      = .ok { idleContext with actions := registeredContext.actions } ∧
    registered [⟨1, some 0x401000, false⟩] 1 = 0x401000 ∧
    ∃ r id frame, notificationDispatch registeredContext = .ok r ∧ r.handed = some (id, frame) ∧
      frame.rip = 0 ∧ frame.rdx = 2 ∧
      ¬ r.RunsRegistered registeredContext [⟨1, some 0x401000, false⟩] := by
  obtain ⟨r, hr, hhanded⟩ := Exec.exists_of_map_eq_ok (show
    (notificationDispatch registeredContext).map Dispatched.handed
      = .ok (some (0, handlerFrame default 0x7000 0 0x5000 0 1)) by decide +kernel)
  refine ⟨rfl, by decide, r, _, _, hr, hhanded, rfl, rfl, fun hruns => ?_⟩
  have hnext : (⟨0, by decide⟩ : Fin notificationMax) ∈
      (registeredContext.queue.get rfl).nextPending := by decide +kernel
  have hrdx := (hruns _ (Option.some_get rfl).symm _ hnext _ _ hhanded).2
  exact absurd hrdx (by decide)

/-! ### The lock of the queue -/

/-- A number of dispatches one after the other. -/
def dispatches : ℕ → Context → Exec Context
  | 0, c => .ok c
  | n + 1, c => do
      let r ← notificationDispatch c
      dispatches n r.ctx

/-- The lock of the context's queue is free. -/
def Context.Unlocked (c : Context) : Prop := ∀ q ∈ c.queue, q.lock = false

/-- Something is pending on a queue that is active. -/
def Context.Signalled (c : Context) : Prop :=
  ∃ q ∈ c.queue, q.active = true ∧ q.pending ≠ 0#32

section Lock

variable {c : Context} {q : NotificationQueue} {r : Dispatched}

/-- What is not signalled, or has no queue, is left as it is. -/
theorem notificationDispatch_quiet (hfree : c.Unlocked) (hquiet : ¬ c.Signalled) :
    notificationDispatch c = .ok ⟨-1, c, none⟩ := by
  unfold notificationDispatch
  rcases hq : c.queue with - | q
  · rfl
  · rcases hactive : q.active with - | -
    · simp [hactive]
    · have hpending : q.pending = 0#32 := by_contra fun h => hquiet ⟨q, hq, hactive, h⟩
      simp [hactive, hfree q hq, hpending]

/-- **A dispatch that gets past the test keeps the lock.** -/
theorem notificationDispatch_locks (hsig : c.Signalled) (h : notificationDispatch c = .ok r) :
    ∃ q ∈ r.ctx.queue, q.lock = true := by
  obtain ⟨q, hq, hactive, hpending⟩ := hsig
  have hq : c.queue = some q := hq
  have hfrom : ∃ u c', dispatchFrom c' { q with lock := true } u (List.finRange notificationMax)
      = .ok r := by
    have hunmuted : ¬ (!q.active) = true := by simp [hactive]
    unfold notificationDispatch at h
    simp only [hq, if_neg hunmuted, if_neg hpending] at h
    split_ifs at h
    exact ⟨_, _, h⟩
  obtain ⟨u, c', hfrom⟩ := hfrom
  rcases dispatchFrom_cases hfrom with ⟨q', hsame, rfl⟩ | ⟨i, id, q', stack, hpop, -, rfl⟩
  · refine ⟨q', rfl, ?_⟩
    rcases hsame with rfl | ⟨i, id, hpop⟩
    · rfl
    · exact (NotificationQueue.pop_spec hpop).2.2
  · exact ⟨q', rfl, (NotificationQueue.pop_spec hpop).2.2⟩

theorem dispatches_quiet (hfree : c.Unlocked) (hquiet : ¬ c.Signalled) (n : ℕ) :
    dispatches n c = .ok c := by
  induction n with
  | zero => rfl
  | succ n ih =>
      rw [dispatches, notificationDispatch_quiet hfree hquiet, Exec.ok_bind]
      exact ih

/-- **When the lock is released.**  With the lock free on entry: every dispatch that returns
leaves it free, and any number of dispatches return, exactly if the queue is muted or has
nothing pending. -/
theorem dispatch_unlocks_iff (hfree : c.Unlocked) :
    ((∀ r, notificationDispatch c = .ok r → r.ctx.Unlocked) ∧
      ∀ n, ∃ c', dispatches n c = .ok c') ↔
    ∀ q ∈ c.queue, q.active = false ∨ q.pending = 0#32 := by
  refine ⟨fun ⟨hreturn, hcomplete⟩ q hq => ?_, fun hmuted => ?_⟩
  · by_contra hbusy
    rw [not_or, Bool.not_eq_false] at hbusy
    obtain ⟨c', hc'⟩ := hcomplete 1
    obtain ⟨r, hr, -⟩ := Exec.bind_eq_ok.mp hc'
    obtain ⟨q', hq', hlock⟩ := notificationDispatch_locks ⟨q, hq, hbusy⟩ hr
    cases (hreturn r hr q' hq').symm.trans hlock
  · have hquiet : ¬ c.Signalled := by
      rintro ⟨q, hq, hactive, hpending⟩
      rcases hmuted q hq with h | h
      · cases hactive.symm.trans h
      · exact hpending h
    refine ⟨fun r hr => ?_, fun n => ⟨c, dispatches_quiet hfree hquiet n⟩⟩
    obtain rfl := Except.ok.inj ((notificationDispatch_quiet hfree hquiet).symm.trans hr)
    exact hfree

end Lock

/-- The dispatches of an empty queue all return, without the lock. -/
theorem dispatch_unlocks_idle :
    idleContext.Unlocked ∧
      (∀ r, notificationDispatch idleContext = .ok r → r.ctx.Unlocked) ∧
      ∀ n, ∃ c', dispatches n idleContext = .ok c' := by
  have hfree : idleContext.Unlocked := fun q hq => Option.some.inj hq ▸ rfl
  have hempty : ∀ q ∈ idleContext.queue, q.active = false ∨ q.pending = 0#32 :=
    fun q hq => Option.some.inj hq ▸ .inr rfl
  exact ⟨hfree, (dispatch_unlocks_iff hfree).mpr hempty⟩

/-- **The lock is kept.**  One notification is pending: the dispatch starts its handler and
returns with the lock taken, and the next dispatch waits for ever. -/
theorem dispatch_keeps_lock :
    signalledContext.Unlocked ∧
    (∃ r, notificationDispatch signalledContext = .ok r ∧ ¬ r.ctx.Unlocked) ∧
    dispatches 2 signalledContext = .error .hang := by
  have hfree : signalledContext.Unlocked := fun q hq => Option.some.inj hq ▸ rfl
  obtain ⟨r, hr, hqueue⟩ := Exec.exists_of_map_eq_ok (show
    (notificationDispatch signalledContext).map
        (fun r => r.ctx.queue.map fun q => (q.active, q.lock)) = .ok (some (true, true)) by
      decide +kernel)
  obtain ⟨q, hq, hbits⟩ := Option.map_eq_some_iff.mp hqueue
  obtain ⟨hactive, hlock⟩ := Prod.mk.inj hbits
  refine ⟨hfree, ⟨r, hr, fun h => ?_⟩, ?_⟩
  · cases (h q hq).symm.trans hlock
  · rw [dispatches, hr, Exec.ok_bind, dispatches, notificationDispatch, hq]
    simp [hactive, hlock]

end Rock
