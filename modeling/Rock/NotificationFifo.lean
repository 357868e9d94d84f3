/-
Rock/NotificationFifo.lean

The lists of a notification queue over whole sequences of NOTIFICATION_PUSH and
NOTIFICATION_POP (kernel/core/notification.h), against one first-in-first-out queue for each
number.

The pushes link the lists as they should.  The bitmap does not follow them: `pending` is an
`int`, so number 32 sets its sign and with it the bits of 33 to 64, and the numbers above 32
set no bit.  A pop leaves the head in its list, clears the bit of the number before, and does
not return from a list of two.  So a sequence behaves as the queues exactly when it is of
pushes of the numbers up to 31 (`fifo_exact_iff`).
-/
import Mathlib.Data.List.GetD
import Rock.LinkedList
import Rock.Notification

namespace Rock

/-! ### Sequences of pushes and pops -/

/-- A push of a new notification of number `slot + 1`, or a pop of that number. -/
inductive QueueOp where
  | push (slot : Fin notificationMax) (info vaddr : Word)
  | pop (slot : Fin notificationMax)

/-- The operation on the queue, and the notification that a pop returns. -/
def QueueOp.apply (q : NotificationQueue) : QueueOp → Exec (Option ℕ × NotificationQueue)
  | push slot info vaddr => do
      let note : Notification := ⟨slot.val + 1, info, vaddr, none, none⟩
      let q ← NotificationQueue.push { q with notes := q.notes ++ [note] } q.notes.length
        (slot.val + 1)
      .ok (none, q)
  | pop slot => do
      let (id, q) ← q.pop slot
      .ok (some id, q)

/-- One queue for each number, the oldest first; `count` is the next new notification. -/
structure IdealQueues where
  count : ℕ
  lists : Fin notificationMax → List ℕ

namespace IdealQueues

def apply (s : IdealQueues) : QueueOp → IdealQueues
  | .push slot _ _ =>
      ⟨s.count + 1, Function.update s.lists slot (s.lists slot ++ [s.count])⟩
  | .pop slot => ⟨s.count, Function.update s.lists slot (s.lists slot).tail⟩

/-- What the operation returns: a pop the oldest of its number. -/
def returns (s : IdealQueues) : QueueOp → Option ℕ
  | .push _ _ _ => none
  | .pop slot => (s.lists slot).head?

/-- Only a number whose queue is not empty is popped. -/
def Legal (s : IdealQueues) : List QueueOp → Prop
  | [] => True
  | op :: ops => (∀ slot, op = .pop slot → s.lists slot ≠ []) ∧ (s.apply op).Legal ops

end IdealQueues

namespace NotificationQueue

def next (q : NotificationQueue) (id : ℕ) : Option ℕ := (q.notes.getD id default).next

def last (q : NotificationQueue) (id : ℕ) : Option ℕ := (q.notes.getD id default).last

/-- **The queue shows the ideal ones**: each list is the queue of its number from the newest
on, its links are inverse to each other, and the bit of a number is set when its list is not
empty. -/
structure Shows (q : NotificationQueue) (s : IdealQueues) : Prop where
  lists : ∀ n, IsList q.next q.last (q.queue n) (s.lists n).reverse
  inverse : ∀ n, ∀ a ∈ s.lists n, ∀ b ∈ s.lists n, q.next a = some b ↔ q.last b = some a
  pending : ∀ n : Fin notificationMax, q.isPending (n.val + 1) = true ↔ s.lists n ≠ []

/-- **The sequence behaves as the queues**: every operation ends with what the ideal queues
return, and at every point the queue shows them. -/
def Exact (q : NotificationQueue) (s : IdealQueues) : List QueueOp → Prop
  | [] => q.Shows s
  | op :: ops => q.Shows s ∧ ∃ q', op.apply q = .ok (s.returns op, q') ∧ q'.Exact (s.apply op) ops

end NotificationQueue

/-- A push of a number up to 31. -/
def QueueOp.LowPush (op : QueueOp) : Prop :=
  ∃ slot info vaddr, op = .push slot info vaddr ∧ slot.val < 31

/-! ### The bitmap -/

section Bitmap

theorem notificationMask_eq_twoPow (n : Fin notificationMax) :
    notificationMask (n.val + 1) = BitVec.twoPow 64 n.val := by
  have hn : n.val < 64 := n.isLt
  have hcount : (((n.val : ℤ) + 1 - 1) % 64).toNat = n.val := by omega
  rw [notificationMask, hcount, BitVec.twoPow_eq]

/-- The bit of a number; above 32 it is the sign. -/
theorem isPending_eq_getLsbD (q : NotificationQueue) (n : Fin notificationMax) :
    q.isPending (n.val + 1) = q.pending.getLsbD (min n.val 31) := by
  have hn : n.val < 64 := n.isLt
  have hbit : (q.pending.signExtend 64).getLsbD n.val = q.pending.getLsbD (min n.val 31) := by
    rw [BitVec.getLsbD_signExtend]
    by_cases h : n.val < 32
    · have hmin : min n.val 31 = n.val := by omega
      simp [h, hn, hmin]
    · have hmin : min n.val 31 = 31 := by omega
      simp [h, hn, hmin, BitVec.msb_eq_getLsbD_last]
  have hpow : BitVec.twoPow 64 n.val ≠ 0#64 := by
    intro hc
    have hset := BitVec.getLsbD_twoPow (w := 64) n.val n.val
    rw [hc, BitVec.getLsbD_zero] at hset
    simp [hn] at hset
  rw [NotificationQueue.isPending, notificationMask_eq_twoPow, BitVec.and_twoPow, hbit]
  rcases q.pending.getLsbD (min n.val 31) <;> simp [hpow]

/-- The bit that a push adds. -/
theorem getLsbD_mask (n : Fin notificationMax) {i : ℕ} (hi : i < 32) :
    ((notificationMask (n.val + 1)).setWidth 32).getLsbD i = decide (n.val = i) := by
  have hn : n.val < 64 := n.isLt
  rw [BitVec.getLsbD_setWidth, notificationMask_eq_twoPow, BitVec.getLsbD_twoPow]
  simp [hi, hn]

end Bitmap

/-! ### What a push does -/

/-- The links, the head and the bits after a push of number `slot + 1`. -/
structure Pushed (q : NotificationQueue) (slot : Fin notificationMax) (q' : NotificationQueue) :
    Prop where
  queue : q'.queue = Function.update q.queue slot (some q.notes.length)
  bits : q'.pending = q.pending ||| (notificationMask (slot.val + 1)).setWidth 32
  length : q'.notes.length = q.notes.length + 1
  front : q'.next q.notes.length = q.queue slot
  first : q'.last q.notes.length = none
  back : ∀ a, q.queue slot = some a → q'.last a = some q.notes.length
  next : ∀ a < q.notes.length, q'.next a = q.next a
  last : ∀ a < q.notes.length, q.queue slot ≠ some a → q'.last a = q.last a

theorem push_eq (q : NotificationQueue) (id : ℕ) (slot : Fin notificationMax) :
    q.push id (slot.val + 1) = .ok { q with
      notes := (q.queue slot).elim q.notes fun head =>
        (q.notes.modify head fun n => { n with last := some id }).modify id
          fun n => { n with next := some head }
      queue := Function.update q.queue slot (some id)
      pending := q.pending ||| (notificationMask (slot.val + 1)).setWidth 32 } := by
  have hlt : slot.val < notificationMax := slot.isLt
  have h : ((slot.val : ℤ) + 1 - 1).toNat < notificationMax ∧ 1 ≤ (slot.val : ℤ) + 1 := by omega
  have hslot : (⟨((slot.val : ℤ) + 1 - 1).toNat, h.1⟩ : Fin notificationMax) = slot :=
    Fin.ext (by dsimp only; omega)
  rw [NotificationQueue.push, dif_pos h]
  simp only [hslot]
  rcases q.queue slot with - | head <;> rfl

theorem getD_modify {notes : List Notification} {a : ℕ} (ha : a < notes.length) (i : ℕ)
    (f : Notification → Notification) :
    (notes.modify i f).getD a default =
      if i = a then f (notes.getD a default) else notes.getD a default := by
  rw [List.getD_eq_getElem?_getD, List.getD_eq_getElem?_getD, List.getElem?_modify,
    List.getElem?_eq_getElem ha]
  by_cases h : i = a <;> simp [h]

/-- **A push succeeds, and links the new notification in front of its list.** -/
theorem push_pushed (q : NotificationQueue) (slot : Fin notificationMax) (info vaddr : Word)
    (hhead : ∀ a, q.queue slot = some a → a < q.notes.length) :
    ∃ q', QueueOp.apply q (.push slot info vaddr) = .ok (none, q') ∧ Pushed q slot q' := by
  set note : Notification := ⟨slot.val + 1, info, vaddr, none, none⟩ with hnote
  have hold (a : ℕ) (ha : a < q.notes.length) :
      (q.notes ++ [note]).getD a default = q.notes.getD a default :=
    List.getD_append _ _ _ _ ha
  have hnew : (q.notes ++ [note]).getD q.notes.length default = note := by
    rw [List.getD_append_right _ _ _ _ le_rfl, Nat.sub_self]
    rfl
  have hlength : (q.notes ++ [note]).length = q.notes.length + 1 := List.length_append
  have happly := push_eq { q with notes := q.notes ++ [note] } q.notes.length slot
  refine ⟨_, by rw [QueueOp.apply, ← hnote, happly]; rfl, ?_⟩
  rcases hq : q.queue slot with - | head
  · -- an empty list: no link is written
    refine ⟨rfl, rfl, ?_, ?_, ?_, fun a ha => ?_, fun a ha => ?_, fun a ha _ => ?_⟩ <;>
      simp only [NotificationQueue.next, NotificationQueue.last, hq, Option.elim]
    · exact hlength
    · rw [hnew]
    · rw [hnew]
    · exact absurd (hq.symm.trans ha) (Option.some_ne_none a).symm
    · rw [hold a ha]
    · rw [hold a ha]
  · -- the old head is another one than the new notification
    have hlt : head < q.notes.length := hhead head hq
    have hget (a : ℕ) (ha : a < q.notes.length + 1) (f g : Notification → Notification) :
        (((q.notes ++ [note]).modify head f).modify q.notes.length g).getD a default =
          if q.notes.length = a then g note
          else if head = a then f (q.notes.getD a default) else q.notes.getD a default := by
      rw [getD_modify (by rw [List.length_modify]; omega), getD_modify (by omega)]
      by_cases h : q.notes.length = a
      · subst h
        rw [if_pos rfl, if_pos rfl, if_neg hlt.ne, hnew]
      · rw [if_neg h, if_neg h, hold a (by omega)]
    refine ⟨rfl, rfl, ?_, ?_, ?_, fun a ha => ?_, fun a ha => ?_, fun a ha hne => ?_⟩ <;>
      simp only [NotificationQueue.next, NotificationQueue.last, hq, Option.elim]
    · rw [List.length_modify, List.length_modify]
      exact hlength
    · rw [hget _ (by omega), if_pos rfl]
    · rw [hget _ (by omega), if_pos rfl]
    · obtain rfl : head = a := Option.some.inj (hq.symm.trans ha)
      rw [hget _ (by omega), if_neg hlt.ne', if_pos rfl]
    · rw [hget _ (by omega), if_neg ha.ne']
      split <;> rfl
    · have hother : head ≠ a := fun hc => hne (hq.trans (congrArg some hc))
      rw [hget _ (by omega), if_neg ha.ne', if_neg hother]

/-! ### The step of a push -/

section Push

variable {q q' : NotificationQueue} {s : IdealQueues} {slot : Fin notificationMax}
  {info vaddr : Word}

/-- Lists show that their links are inverse. -/
theorem NotificationQueue.Shows.of_lists
    (hlists : ∀ n, IsList q.next q.last (q.queue n) (s.lists n).reverse)
    (hpending : ∀ n : Fin notificationMax, q.isPending (n.val + 1) = true ↔ s.lists n ≠ []) :
    q.Shows s :=
  ⟨hlists, fun n _ ha _ hb =>
    (hlists n).linked.next_eq_iff (List.mem_reverse.mpr ha) (List.mem_reverse.mpr hb), hpending⟩

/-- The lists of the queue are the ideal ones, of different notifications. -/
structure QueueHolds (q : NotificationQueue) (s : IdealQueues) : Prop where
  lists : ∀ n, IsList q.next q.last (q.queue n) (s.lists n).reverse
  count : s.count = q.notes.length
  bound : ∀ n, ∀ a ∈ s.lists n, a < q.notes.length
  apart : ∀ m n, m ≠ n → (s.lists m).Disjoint (s.lists n)

/-- The queue shows the ideal ones, which are of the numbers up to 31. -/
structure Follows (q : NotificationQueue) (s : IdealQueues) : Prop extends QueueHolds q s where
  shown : q.Shows s
  low : ∀ n : Fin notificationMax, 31 ≤ n.val → s.lists n = []

theorem IdealQueues.mem_push {n : Fin notificationMax} {a : ℕ} :
    a ∈ (s.apply (.push slot info vaddr)).lists n ↔ a ∈ s.lists n ∨ n = slot ∧ a = s.count := by
  rw [IdealQueues.apply]
  by_cases hn : n = slot
  · subst hn
    simp
  · simp [hn]

/-- A number that was pushed has a notification. -/
theorem IdealQueues.lists_push_ne_nil : (s.apply (.push slot info vaddr)).lists slot ≠ [] :=
  List.ne_nil_of_mem (IdealQueues.mem_push.mpr (.inr ⟨rfl, rfl⟩))

/-- The head of a list is one of its notifications. -/
theorem QueueHolds.head_mem (h : QueueHolds q s) {a : ℕ} (ha : q.queue slot = some a) :
    a ∈ s.lists slot := by
  rw [(h.lists slot).linked.head_eq] at ha
  exact List.mem_reverse.mp (List.mem_of_head? ha)

/-- The lists after a push, of its number and of the others. -/
theorem Pushed.lists (hpushed : Pushed q slot q') (h : QueueHolds q s) (n : Fin notificationMax) :
    IsList q'.next q'.last (q'.queue n)
      ((s.apply (.push slot info vaddr)).lists n).reverse := by
  rw [hpushed.queue, IdealQueues.apply]
  by_cases hn : n = slot
  · -- the newest is the first in the list and the last in the queue
    subst hn
    dsimp only
    rw [Function.update_self, Function.update_self, List.reverse_append, h.count]
    have hbound (a : ℕ) (ha : a ∈ (s.lists n).reverse) : a < q.notes.length :=
      h.bound n a (List.mem_reverse.mp ha)
    exact (h.lists n).push (fun hc => lt_irrefl _ (hbound _ hc)) hpushed.front hpushed.first
      hpushed.back (fun a ha => hpushed.next a (hbound a ha))
      fun a ha hne => hpushed.last a (hbound a ha) hne
  · dsimp only
    rw [Function.update_of_ne hn, Function.update_of_ne hn]
    refine (h.lists n).congr (fun a ha => ?_) fun a ha => ?_
    · exact hpushed.next a (h.bound n a (List.mem_reverse.mp ha))
    · -- the old head of the other list is not in this one
      have ha : a ∈ s.lists n := List.mem_reverse.mp ha
      exact hpushed.last a (h.bound n a ha) fun hc => h.apart n slot hn ha (h.head_mem hc)

/-- The bits after a push. -/
theorem isPending_of_bits (hbits : q'.pending = q.pending |||
      (notificationMask (slot.val + 1)).setWidth 32) (n : Fin notificationMax) :
    q'.isPending (n.val + 1) = (q.isPending (n.val + 1) || decide (slot.val = min n.val 31)) := by
  rw [isPending_eq_getLsbD, isPending_eq_getLsbD, hbits, BitVec.getLsbD_or,
    getLsbD_mask slot (by omega)]

/-- **A push succeeds and enters its notification in the ideal list**, whatever its number. -/
theorem QueueHolds.push (h : QueueHolds q s) (slot : Fin notificationMax) (info vaddr : Word) :
    ∃ q', QueueOp.apply q (.push slot info vaddr) = .ok (none, q') ∧ Pushed q slot q' ∧
      QueueHolds q' (s.apply (.push slot info vaddr)) := by
  obtain ⟨q', happly, hpushed⟩ := push_pushed q slot info vaddr fun a ha =>
    h.bound slot a (h.head_mem ha)
  refine ⟨q', happly, hpushed, hpushed.lists h, ?_, fun n a ha => ?_, fun m n hmn a hm hn => ?_⟩
  · rw [hpushed.length, ← h.count]
    rfl
  · rw [hpushed.length]
    rcases IdealQueues.mem_push.mp ha with ha | ⟨-, rfl⟩
    · exact Nat.lt_succ_of_lt (h.bound n a ha)
    · exact Nat.lt_succ_of_le h.count.le
  · -- the new notification is in no other list
    have hfresh (k : Fin notificationMax) : s.count ∉ s.lists k :=
      fun hc => (h.bound k _ hc).ne h.count
    rcases IdealQueues.mem_push.mp hm with hm' | ⟨hmslot, hmcount⟩ <;>
      rcases IdealQueues.mem_push.mp hn with hn' | ⟨hnslot, hncount⟩
    · exact h.apart m n hmn hm' hn'
    · exact hfresh m (hncount ▸ hm')
    · exact hfresh n (hmcount ▸ hn')
    · exact hmn (hmslot.trans hnslot.symm)

/-- **A push of a number up to 31 is exact.** -/
theorem Follows.push (h : Follows q s) (hslot : slot.val < 31) (info vaddr : Word) :
    ∃ q', QueueOp.apply q (.push slot info vaddr) = .ok (none, q') ∧
      Follows q' (s.apply (.push slot info vaddr)) := by
  obtain ⟨q', happly, hpushed, hholds⟩ := h.toQueueHolds.push slot info vaddr
  have hlists (n : Fin notificationMax) (hn : n ≠ slot) :
      (s.apply (.push slot info vaddr)).lists n = s.lists n := Function.update_of_ne hn _ _
  refine ⟨q', happly, hholds, .of_lists hholds.lists fun n => ?_, fun n hn => ?_⟩
  · rw [isPending_of_bits hpushed.bits, Bool.or_eq_true, h.shown.pending n, decide_eq_true_iff]
    by_cases hn : n = slot
    · subst hn
      exact iff_of_true (.inr (by omega)) IdealQueues.lists_push_ne_nil
    · -- below 31 no other number has the same bit
      have hne : slot.val ≠ n.val := fun hc => hn (Fin.ext hc.symm)
      rw [hlists n hn]
      exact ⟨fun hc => hc.resolve_right (by omega), .inl⟩
  · have hne : n ≠ slot := fun hc => absurd (hc ▸ hn) (by omega)
    rw [hlists n hne]
    exact h.low n hn

end Push

/-! ### The other operations are not exact -/

section Others

variable {q q' : NotificationQueue} {s : IdealQueues} {slot : Fin notificationMax}
  {info vaddr : Word}

/-- A number above 31 sets no bit of its own: 32 is the sign, and the numbers above have
none. -/
theorem not_shows_push (h : Follows q s) (hslot : 31 ≤ slot.val)
    (happly : QueueOp.apply q (.push slot info vaddr) = .ok (none, q')) :
    ¬ q'.Shows (s.apply (.push slot info vaddr)) := by
  intro hshows
  obtain ⟨q'', happly', hpushed, -⟩ := h.toQueueHolds.push slot info vaddr
  obtain rfl : q'' = q' := (Prod.mk.inj (Except.ok.inj (happly'.symm.trans happly))).2
  have hclear (n : Fin notificationMax) (hn : 31 ≤ n.val) : q.isPending (n.val + 1) = false := by
    rw [← Bool.not_eq_true, h.shown.pending n]
    exact fun hc => hc (h.low n hn)
  -- the bit of `slot` is set by the push only if it is the sign
  have hbit := (hshows.pending slot).mpr IdealQueues.lists_push_ne_nil
  rw [isPending_of_bits hpushed.bits, hclear slot hslot, Bool.false_or, decide_eq_true_iff] at hbit
  -- and then it is the bit of the next number as well, whose list is empty
  have hslot : slot.val = 31 := by omega
  obtain ⟨other, hval⟩ : ∃ n : Fin notificationMax, n.val = 32 := ⟨⟨32, by decide⟩, rfl⟩
  have hother : other ≠ slot := by
    rintro rfl
    omega
  have hempty : (s.apply (.push slot info vaddr)).lists other = [] :=
    (Function.update_of_ne hother _ _).trans (h.low other (by omega))
  refine (hshows.pending other).mp ?_ hempty
  rw [isPending_of_bits hpushed.bits, Bool.or_eq_true, decide_eq_true_iff]
  exact .inr (by omega)

/-- **No pop is exact.**  It returns the newest, which is also the oldest only in a list of one,
and then it leaves it in the list. -/
theorem not_shows_pop (h : q.Shows s) (hslot : s.lists slot ≠ [])
    (happly : QueueOp.apply q (.pop slot) = .ok (s.returns (.pop slot), q')) :
    ¬ q'.Shows (s.apply (.pop slot)) := by
  intro hshows
  obtain ⟨⟨id, q''⟩, hpop, heq⟩ := Exec.bind_eq_ok.mp happly
  obtain ⟨hreturns, rfl⟩ := Prod.mk.inj (Except.ok.inj heq)
  obtain ⟨hhead, hqueue, -⟩ := NotificationQueue.pop_spec hpop
  rcases hlist : s.lists slot with - | ⟨oldest, l⟩
  · exact hslot hlist
  have holdest : id = oldest := by
    rw [IdealQueues.returns, hlist] at hreturns
    exact Option.some.inj hreturns
  have hlinked := (h.lists slot).linked
  have hnewest : (oldest :: l).reverse.head? = some id := by
    rw [← hlist, ← hlinked.head_eq, hhead]
  -- the newest is the oldest, so there is one only
  have hone : l = [] := by
    by_contra hne
    have hnodup := (h.lists slot).nodup
    rw [hlist, List.nodup_reverse, List.nodup_cons] at hnodup
    rw [List.head?_reverse, List.getLast?_cons_of_ne_nil hne] at hnewest
    exact hnodup.1 (holdest ▸ List.mem_of_getLast? hnewest)
  have hempty : (s.apply (.pop slot)).lists slot = [] := by
    rw [IdealQueues.apply]
    dsimp only
    rw [Function.update_self, hlist, hone]
    rfl
  have hnone := (hshows.lists slot).linked.head_eq
  rw [hempty, hqueue, hhead] at hnone
  exact absurd hnone (Option.some_ne_none id)

end Others

/-! ### Whole sequences -/

theorem NotificationQueue.Exact.shown {q : NotificationQueue} {s : IdealQueues}
    {ops : List QueueOp} (h : q.Exact s ops) : q.Shows s := by
  cases ops with
  | nil => exact h
  | cons op ops => exact h.1

theorem Follows.exact_iff {q : NotificationQueue} {s : IdealQueues} {ops : List QueueOp}
    (h : Follows q s) (hlegal : s.Legal ops) :
    q.Exact s ops ↔ ∀ op ∈ ops, op.LowPush := by
  -- `Follows` is carried along the low pushes, and the first other operation ends the induction
  induction ops generalizing q s with
  | nil => exact iff_of_true h.shown fun op hop => absurd hop List.not_mem_nil
  | cons op ops ih =>
      rw [List.forall_mem_cons]
      constructor
      · rintro ⟨-, q', happly, hexact⟩
        cases op with
        | pop slot => exact absurd hexact.shown (not_shows_pop h.shown (hlegal.1 slot rfl) happly)
        | push slot info vaddr =>
            by_cases hslot : slot.val < 31
            · obtain ⟨q'', happly', hfollows⟩ := h.push hslot info vaddr
              obtain rfl : q'' = q' := (Prod.mk.inj (Except.ok.inj (happly'.symm.trans happly))).2
              exact ⟨⟨slot, info, vaddr, rfl, hslot⟩, (ih hfollows hlegal.2).mp hexact⟩
            · exact absurd hexact.shown (not_shows_push h (by omega) happly)
      · rintro ⟨⟨slot, info, vaddr, rfl, hslot⟩, hops⟩
        obtain ⟨q', happly, hfollows⟩ := h.push hslot info vaddr
        exact ⟨h.shown, q', happly, (ih hfollows hlegal.2).mpr hops⟩

/-- The ideal queues that belong to an empty queue. -/
def NotificationQueue.ideal (q : NotificationQueue) : IdealQueues := ⟨q.notes.length, fun _ => []⟩

theorem holds_ideal {q : NotificationQueue} (hqueue : ∀ n, q.queue n = none) :
    QueueHolds q q.ideal where
  lists n := by
    rw [hqueue n]
    exact IsList.nil
  count := rfl
  bound _ _ ha := absurd ha List.not_mem_nil
  apart _ _ _ _ ha := absurd ha List.not_mem_nil

/-- **When the lists are queues.**  From an empty notification queue, a sequence of pushes and of
pops of numbers that have a notification behaves as one first-in-first-out queue for each
number exactly when it has no pop and pushes only numbers up to 31. -/
theorem fifo_exact_iff {q : NotificationQueue} (hqueue : ∀ n, q.queue n = none)
    (hpending : q.pending = 0#32) {ops : List QueueOp} (hlegal : q.ideal.Legal ops) :
    q.Exact q.ideal ops ↔ ∀ op ∈ ops, op.LowPush := by
  have hbits (n : Fin notificationMax) : q.isPending (n.val + 1) = false := by
    rw [isPending_eq_getLsbD, hpending, BitVec.getLsbD_zero]
  have hholds := holds_ideal hqueue
  have hstart : Follows q q.ideal := by
    refine ⟨hholds, .of_lists hholds.lists fun n => ?_, fun _ _ => rfl⟩
    rw [hbits n]
    exact iff_of_false Bool.false_ne_true fun hc => hc rfl
  exact hstart.exact_iff hlegal

/-- A queue with nothing in it. -/
def emptyQueue : NotificationQueue := ⟨fun _ => none, 0, true, 0, false, []⟩

theorem fifo_exact_low :
    emptyQueue.Exact emptyQueue.ideal [.push ⟨0, by decide⟩ 0x5000 0,
      .push ⟨30, by decide⟩ 0x6000 0, .push ⟨0, by decide⟩ 0x7000 0] := by
  refine (fifo_exact_iff (fun _ => rfl) rfl ?_).mpr ?_
  · simp [IdealQueues.Legal]
  · simp [QueueOp.LowPush]

/-- **Where it fails.**  After a push and a pop of number 1 the notification is still at the head
of its list and its bit is set; after two pushes the pop does not return; number 33 is in its
list without a bit. -/
theorem fifo_not_exact :
    let push (slot : Fin notificationMax) : QueueOp := .push slot 0x5000 0
    let one : Fin notificationMax := ⟨0, by decide⟩
    let high : Fin notificationMax := ⟨32, by decide⟩
    (∃ q₁ q₂ q₃, (push one).apply emptyQueue = .ok (none, q₁) ∧
      QueueOp.apply q₁ (.pop one) = .ok (some 0, q₂) ∧ q₂.queue one = some 0 ∧
      q₂.isPending 1 = true ∧ (push one).apply q₁ = .ok (none, q₃) ∧
      QueueOp.apply q₃ (.pop one) = .error .hang) ∧
    (∃ q, (push high).apply emptyQueue = .ok (none, q) ∧ q.queue high = some 0 ∧
      q.isPending 33 = false) ∧
    emptyQueue.ideal.Legal [push one, .pop one] ∧
    ¬ emptyQueue.Exact emptyQueue.ideal [push one, .pop one] := by
  intro push one high
  refine ⟨⟨_, _, _, rfl, rfl, rfl, by decide, rfl, rfl⟩, ⟨_, rfl, rfl, by decide⟩, ?_, ?_⟩
  · simp [IdealQueues.Legal, IdealQueues.apply, push]
  · rintro ⟨-, q₁, -, hshown, q₂, hpop, hafter⟩
    exact not_shows_pop hshown IdealQueues.lists_push_ne_nil hpop hafter

end Rock
