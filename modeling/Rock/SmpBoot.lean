/-
Rock/SmpBoot.lean

The boot chain of the processors (kernel/arch/x86/smp.c).

`boot_aps` runs on the boot processor and starts a chain: each processor that is started
takes its `cpu_local`, counts itself, and starts the next one of the MADT's list, until
the count has reached the length of the list.  A list entry is skipped if it is the
processor that looks at it, which is meant for the boot processor.

That works only if the boot processor is the first of the list.  Otherwise the chain has
moved on to another processor when it comes to the entry of the boot processor, and that
one sends an INIT to it (`boot_chain_resets`).

The processors run concurrently: `Step` lets any one of them take its next step, and a
`spinlock` is a step that waits until the lock is free.  The lock is taken by the
processor that starts another, is released by the one that was started, and is taken and
released once more by the first.  `ChainAt` says where the chain is, and `LockHeld` who
has the lock.  Main result: every run ends, with every processor started once, if and
only if the boot processor is first (`boot_chain_iff`).
-/
import Rock.Exec
import Mathlib.Algebra.GroupWithZero.Nat
import Mathlib.Algebra.Order.BigOperators.Group.List
import Mathlib.Algebra.Order.Group.Nat

namespace Rock

/-! ### The processors -/

/-- The id of a local APIC. -/
abbrev ApicId := BitVec 8

/-- Where a processor is: off; in the real-mode code; in `core_bootstrap` before the lock is
released, before its GS base is set, and before it is counted; in `chain_aps` at its start,
at the first `spinlock`, before the parameters are written, before the INIT and the start-up
IPI, at the second `spinlock`, and before that is released; and behind it.  An index is that
of an entry of the list. -/
inductive Phase where
  | off
  | boot
  | bootstrap (i : ℕ)
  | released (i : ℕ)
  | counted
  | chain
  | acquire (i : ℕ)
  | locked (i : ℕ)
  | sendInit (i : ℕ)
  | sendStartup (i : ℕ)
  | waiting
  | unlock
  | done
  deriving DecidableEq, Repr

inductive IpiKind where
  | init
  | startup
  deriving DecidableEq, Repr

/-- An IPI that was sent, and whether its target was running. -/
structure Ipi where
  kind : IpiKind
  target : ApicId
  running : Bool
  deriving DecidableEq, Repr

/-- The state of the machine: `logical_processor_cnt`, `core_init_lock`, the `cpu_local` in
the parameters at 0x81000, where every processor is, the entry of
`logical_processor_locales` its GS base points to, `apic_id` of these entries, whether the
low memory is still mapped, and the IPIs sent so far. -/
structure SmpState where
  cnt : ℕ
  lock : Bool
  params : Option ℕ
  phase : ApicId → Phase
  gs : ApicId → Option ℕ
  localeId : ℕ → Option ApicId
  lowMapped : Bool
  sent : List Ipi

namespace SmpState

def goto (s : SmpState) (a : ApicId) (p : Phase) : SmpState :=
  { s with phase := Function.update s.phase a p }

/-- An IPI is sent to `target`. -/
def send (s : SmpState) (kind : IpiKind) (target : ApicId) : SmpState :=
  { s with sent := s.sent ++ [⟨kind, target, decide (s.phase target ≠ .off)⟩] }

end SmpState

/-- The start of `chain_aps` on the processor `a`. -/
def chainAps (ids : List ApicId) (a : ApicId) (s : SmpState) : SmpState :=
  match ids[s.cnt]? with
  | none => { s with lowMapped := false }.goto a .done
  | some id =>
      let s := { s with localeId := Function.update s.localeId s.cnt (some id) }
      if id = a then
        { s with gs := Function.update s.gs a (some s.cnt), cnt := s.cnt + 1 }
      else s.goto a (.acquire s.cnt)

/-- The next step of the processor `a`; `none` if it has none or waits for the lock. -/
def coreStep (ids : List ApicId) (a : ApicId) (s : SmpState) : Option SmpState :=
  match s.phase a with
  | .off | .done => none
  | .boot => s.params.map fun i => s.goto a (.bootstrap i)
  | .bootstrap i => some ({ s with lock := false }.goto a (.released i))
  | .released i => some ({ s with gs := Function.update s.gs a (some i) }.goto a .counted)
  | .counted => some ({ s with cnt := s.cnt + 1 }.goto a .chain)
  | .chain => some (chainAps ids a s)
  | .acquire i => if s.lock then none else some ({ s with lock := true }.goto a (.locked i))
  | .locked i => some ({ s with params := some i }.goto a (.sendInit i))
  | .sendInit i =>
      -- an INIT stops the processor until a start-up IPI comes
      ids[i]?.map fun target => ((s.send .init target).goto target .off).goto a (.sendStartup i)
  | .sendStartup i =>
      ids[i]?.map fun target =>
        let s' := s.send .startup target
        (if s.phase target = .off then s'.goto target .boot else s').goto a .waiting
  | .waiting => if s.lock then none else some ({ s with lock := true }.goto a .unlock)
  | .unlock => some ({ s with lock := false }.goto a .done)

/-- Some processor takes a step. -/
def SmpState.Step (ids : List ApicId) (s s' : SmpState) : Prop := ∃ a, coreStep ids a s = some s'

/-- `boot_aps` calls `chain_aps` on the boot processor. -/
def bootAps (bsp : ApicId) : SmpState where
  cnt := 0
  lock := false
  params := none
  phase := Function.update (fun _ => .off) bsp .chain
  gs _ := none
  localeId _ := none
  lowMapped := true
  sent := []

/-- The IPIs that start the processor `a`. -/
def startIpis (a : ApicId) : List Ipi := [⟨.init, a, false⟩, ⟨.startup, a, false⟩]

/-- All processors have been started: the count is that of the list, the low memory is
unmapped, each GS base is that of the processor's own entry, and each processor but the
boot processor got one INIT and one start-up IPI. -/
structure Booted (ids : List ApicId) (bsp : ApicId) (s : SmpState) : Prop where
  cnt : s.cnt = ids.length
  unmapped : s.lowMapped = false
  gs : ∀ k a, ids[k]? = some a → s.gs a = some k ∧ s.localeId k = some a
  started : ∀ a ∈ ids, a ≠ bsp → (s.sent.filter fun e => e.target = a) = startIpis a
  others : ∀ a, a = bsp ∨ a ∉ ids → (s.sent.filter fun e => e.target = a) = []

/-- **The chain boots the processors**: no IPI is sent to a running processor, every run
ends, and if none of the processors can go on all have been started. -/
structure Boots (ids : List ApicId) (bsp : ApicId) : Prop where
  safe : ∀ s, Run (SmpState.Step ids) (bootAps bsp) s → ∀ e ∈ s.sent, e.running = false
  ends : Terminates (SmpState.Step ids) (bootAps bsp)
  booted : ∀ s, Run (SmpState.Step ids) (bootAps bsp) s → (∀ s', ¬ SmpState.Step ids s s') →
    Booted ids bsp s

/-! ### The lock -/

/-- The processor has the lock, or has got it from the one that started it. -/
def Phase.Holds : Phase → Prop
  | .boot | .bootstrap _ | .locked _ | .sendInit _ | .sendStartup _ | .unlock => True
  | _ => False

/-- The lock is held by one processor, if it is held. -/
structure LockHeld (s : SmpState) : Prop where
  held : s.lock = true ↔ ∃ a, (s.phase a).Holds
  one : ∀ a b, (s.phase a).Holds → (s.phase b).Holds → a = b

namespace LockHeld

variable {s s' : SmpState} {a b : ApicId} {p : Phase}

/-- A step that has nothing to do with the lock. -/
theorem keep (h : LockHeld s) (hlock : s'.lock = s.lock)
    (hphase : s'.phase = Function.update s.phase a p) (hp : p.Holds ↔ (s.phase a).Holds) :
    LockHeld s' := by
  have hsame : ∀ x, (s'.phase x).Holds ↔ (s.phase x).Holds := by
    intro x
    rw [hphase]
    rcases eq_or_ne x a with rfl | hne
    · rw [Function.update_self, hp]
    · rw [Function.update_of_ne hne]
  refine ⟨?_, fun x y hx hy => h.one x y ((hsame x).mp hx) ((hsame y).mp hy)⟩
  rw [hlock, h.held]
  exact exists_congr fun x => (hsame x).symm

/-- The lock is taken. -/
theorem take (h : LockHeld s) (hfree : s.lock = false) (hlock : s'.lock = true)
    (hphase : s'.phase = Function.update s.phase a p) (hp : p.Holds) : LockHeld s' := by
  have hnone : ∀ x, ¬ (s.phase x).Holds := by
    intro x hx
    cases hfree.symm.trans (h.held.mpr ⟨x, hx⟩)
  have honly : ∀ x, (s'.phase x).Holds → x = a := by
    intro x hx
    by_contra hne
    rw [hphase, Function.update_of_ne hne] at hx
    exact hnone x hx
  refine ⟨iff_of_true hlock ⟨a, ?_⟩, fun x y hx hy => (honly x hx).trans (honly y hy).symm⟩
  rw [hphase, Function.update_self]
  exact hp

/-- The lock is released. -/
theorem drop (h : LockHeld s) (ha : (s.phase a).Holds) (hlock : s'.lock = false)
    (hphase : s'.phase = Function.update s.phase a p) (hp : ¬ p.Holds) : LockHeld s' := by
  have hnone : ∀ x, ¬ (s'.phase x).Holds := by
    intro x hx
    rw [hphase] at hx
    rcases eq_or_ne x a with rfl | hne
    · rw [Function.update_self] at hx
      exact hp hx
    · rw [Function.update_of_ne hne] at hx
      exact hne (h.one x a hx ha)
  refine ⟨iff_of_false (by simp [hlock]) fun ⟨x, hx⟩ => hnone x hx, fun x _ hx => ?_⟩
  exact absurd hx (hnone x)

/-- The lock is handed over to a processor that is started. -/
theorem handOver (h : LockHeld s) (ha : (s.phase a).Holds) (hne : b ≠ a) (hlock : s'.lock = s.lock)
    (hphase : s'.phase = Function.update (Function.update s.phase b .boot) a p)
    (hp : ¬ p.Holds) : LockHeld s' := by
  have honly : ∀ x, (s'.phase x).Holds ↔ x = b := by
    intro x
    rw [hphase]
    rcases eq_or_ne x a with rfl | hxa
    · rw [Function.update_self]
      exact iff_of_false hp hne.symm
    · rw [Function.update_of_ne hxa]
      rcases eq_or_ne x b with rfl | hxb
      · rw [Function.update_self]
        exact iff_of_true trivial rfl
      · rw [Function.update_of_ne hxb]
        exact iff_of_false (fun hx => hxa (h.one x a hx ha)) hxb
  refine ⟨?_, fun x y hx hy => ((honly x).mp hx).trans ((honly y).mp hy).symm⟩
  rw [hlock]
  exact iff_of_true (h.held.mpr ⟨a, ha⟩) ⟨b, (honly b).mpr rfl⟩

end LockHeld

/-! ### Where the chain is -/

/-- The processor has started the next one, or the chain has ended with it. -/
def Phase.Idle : Phase → Prop
  | .waiting | .unlock | .done => True
  | _ => False

/-- The IPIs that have started the first `t` entries after the boot processor. -/
def chainLog (ids : List ApicId) (t : ℕ) : List Ipi := (ids.tail.take t).flatMap startIpis

/-- The INIT that has been sent before the start-up IPI is. -/
def pendingInit (ids : List ApicId) : Phase → List Ipi
  | .sendStartup i => ids[i]?.toList.map fun a => ⟨.init, a, false⟩
  | _ => []

/-- The processor `t` of the list is counted and starts the next one. -/
def StartsNext (ids : List ApicId) (s : SmpState) (t : ℕ) (cur : ApicId) : Prop :=
  s.cnt = t + 1 ∧ s.gs cur = some t ∧ t + 1 < ids.length ∧ s.localeId (t + 1) = ids[t + 1]?

/-- What the processor `t` of the list, at which the chain is, has done so far. -/
def ChainPhase (ids : List ApicId) (s : SmpState) (t : ℕ) (cur : ApicId) : Phase → Prop
  | .boot => s.cnt = t ∧ s.params = some t
  | .bootstrap i | .released i => s.cnt = t ∧ i = t
  | .counted => s.cnt = t ∧ s.gs cur = some t
  | .chain => s.cnt = t + 1 ∧ s.gs cur = some t
  | .acquire i | .locked i => i = t + 1 ∧ StartsNext ids s t cur
  | .sendInit i | .sendStartup i => i = t + 1 ∧ s.params = some (t + 1) ∧ StartsNext ids s t cur
  | .done => t + 1 = ids.length ∧ s.cnt = t + 1 ∧ s.gs cur = some t ∧ s.lowMapped = false
  | .off | .waiting | .unlock => False

/-- The chain is at the entry `t` of the list. -/
structure ChainAt (ids : List ApicId) (s : SmpState) (t : ℕ) (cur : ApicId) : Prop where
  here : ids[t]? = some cur
  older : ∀ k a, k < t → ids[k]? = some a → (s.phase a).Idle
  newer : ∀ a, (∀ k ≤ t, ids[k]? ≠ some a) → s.phase a = .off
  gs : ∀ k a, k < t → ids[k]? = some a → s.gs a = some k
  locale : ∀ k ≤ t, s.localeId k = ids[k]?
  sent : s.sent = chainLog ids t ++ pendingInit ids (s.phase cur)
  phase : ChainPhase ids s t cur (s.phase cur)

/-- A list without duplicates has a processor once. -/
theorem index_unique {ids : List ApicId} (hn : ids.Nodup) {j k : ℕ} {a : ApicId}
    (hj : ids[j]? = some a) (hk : ids[k]? = some a) : j = k :=
  (List.getElem?_inj (List.getElem?_eq_some_iff.mp hj).1 hn).mp (hj.trans hk.symm)

theorem chainLog_succ {ids : List ApicId} {t : ℕ} {next : ApicId}
    (h : ids[t + 1]? = some next) : chainLog ids (t + 1) = chainLog ids t ++ startIpis next := by
  have htail : ids.tail[t]? = some next := by simpa using h
  rw [chainLog, List.take_add_one, htail]
  simp [chainLog]

theorem running_of_mem_chainLog {ids : List ApicId} {t : ℕ} {e : Ipi} (h : e ∈ chainLog ids t) :
    e.running = false := by
  obtain ⟨a, -, he⟩ := List.mem_flatMap.mp h
  rcases List.mem_cons.mp he with rfl | he
  · rfl
  · rw [List.mem_singleton.mp he]

theorem running_of_mem_pendingInit {ids : List ApicId} {p : Phase} {e : Ipi}
    (h : e ∈ pendingInit ids p) : e.running = false := by
  cases p with
  | sendStartup i =>
      obtain ⟨a, -, rfl⟩ := List.mem_map.mp h
      rfl
  | _ => cases h

namespace ChainAt

variable {ids : List ApicId} {s s' : SmpState} {t k : ℕ} {a b cur : ApicId} {p : Phase}

theorem running (h : ChainAt ids s t cur) : ∀ e ∈ s.sent, e.running = false := by
  intro e he
  rw [h.sent] at he
  rcases List.mem_append.mp he with he | he
  · exact running_of_mem_chainLog he
  · exact running_of_mem_pendingInit he

/-- In a list without duplicates an earlier processor is another one. -/
theorem ne_of_lt (h : ChainAt ids s t cur) (hn : ids.Nodup) (hk : k < t) (ha : ids[k]? = some a) :
    a ≠ cur := by
  rintro rfl
  exact hk.ne (index_unique hn ha h.here)

/-- The next processor is off. -/
theorem next_off (h : ChainAt ids s t cur) (hn : ids.Nodup) (hb : ids[t + 1]? = some b) :
    s.phase b = .off := by
  refine h.newer b fun k hk hkb => ?_
  exact (Nat.lt_succ_of_le hk).ne (index_unique hn hkb hb)

theorem next_ne (h : ChainAt ids s t cur) (hn : ids.Nodup) (hb : ids[t + 1]? = some b) :
    b ≠ cur := by
  rintro rfl
  exact t.lt_succ_self.ne (index_unique hn h.here hb)

/-- A processor other than the one at which the chain is that is not off has started the
next one. -/
theorem idle_of_ne (h : ChainAt ids s t cur) (hne : a ≠ cur) (hoff : s.phase a ≠ .off) :
    ∃ k < t, ids[k]? = some a := by
  by_contra hno
  push Not at hno
  refine hoff (h.newer a fun k hk hka => ?_)
  rcases hk.lt_or_eq with hlt | rfl
  · exact hno k hlt hka
  · exact hne (Option.some.inj (hka.symm.trans h.here))

/-- A processor that has started the next one moves. -/
theorem older_moves (h : ChainAt ids s t cur) (hne : a ≠ cur) (hoff : s.phase a ≠ .off)
    (l : Bool) (p : Phase) (hp : p.Idle) : ChainAt ids ({ s with lock := l }.goto a p) t cur := by
  obtain ⟨k, hk, hka⟩ := h.idle_of_ne hne hoff
  have hcur : ({ s with lock := l }.goto a p).phase cur = s.phase cur :=
    Function.update_of_ne hne.symm _ _
  refine ⟨h.here, fun j b hj hb => ?_, fun b hb => ?_, h.gs, h.locale, ?_, ?_⟩
  · rcases eq_or_ne b a with rfl | hba
    · simpa [SmpState.goto] using hp
    · simpa [SmpState.goto, hba] using h.older j b hj hb
  · have hba : b ≠ a := by
      rintro rfl
      exact hb k hk.le hka
    simpa [SmpState.goto, hba] using h.newer b hb
  · rw [hcur]
    exact h.sent
  · rw [hcur]
    have hphase := h.phase
    revert hphase
    cases s.phase cur <;> exact id

/-- The processor at which the chain is moves. -/
theorem moves (h : ChainAt ids s t cur) (hn : ids.Nodup)
    (hphase : s'.phase = Function.update s.phase cur p) (hgs : ∀ a, a ≠ cur → s'.gs a = s.gs a)
    (hlocale : ∀ k ≤ t, s'.localeId k = s.localeId k)
    (hsent : s'.sent = chainLog ids t ++ pendingInit ids p) (hp : ChainPhase ids s' t cur p) :
    ChainAt ids s' t cur := by
  have hcur : s'.phase cur = p := by rw [hphase, Function.update_self]
  refine ⟨h.here, fun k a hk ha => ?_, fun a ha => ?_, fun k a hk ha => ?_, fun k hk => ?_,
    hcur ▸ hsent, hcur ▸ hp⟩
  · rw [hphase, Function.update_of_ne (h.ne_of_lt hn hk ha)]
    exact h.older k a hk ha
  · have hne : a ≠ cur := by
      rintro rfl
      exact ha t le_rfl h.here
    rw [hphase, Function.update_of_ne hne]
    exact h.newer a ha
  · rw [hgs a (h.ne_of_lt hn hk ha)]
    exact h.gs k a hk ha
  · rw [hlocale k hk]
    exact h.locale k hk

/-- The chain goes on to the next processor. -/
theorem passes (h : ChainAt ids s t cur) (hn : ids.Nodup) (hb : ids[t + 1]? = some b)
    (hphase : s'.phase = Function.update (Function.update s.phase b .boot) cur .waiting)
    (hgs : s'.gs = s.gs) (hcur : s.gs cur = some t) (hlocale : s'.localeId = s.localeId)
    (hnext : s.localeId (t + 1) = ids[t + 1]?) (hsent : s'.sent = chainLog ids (t + 1))
    (hcnt : s'.cnt = t + 1) (hparams : s'.params = some (t + 1)) : ChainAt ids s' (t + 1) b := by
  have hne : b ≠ cur := h.next_ne hn hb
  have hboot : s'.phase b = .boot := by
    rw [hphase, Function.update_of_ne hne, Function.update_self]
  refine ⟨hb, fun k a hk ha => ?_, fun a ha => ?_, fun k a hk ha => ?_, fun k hk => ?_, ?_, ?_⟩
  · rw [hphase]
    rcases (Nat.lt_succ_iff.mp hk).lt_or_eq with hlt | rfl
    · have hab : a ≠ b := by
        rintro rfl
        exact hk.ne (index_unique hn ha hb)
      rw [Function.update_of_ne (h.ne_of_lt hn hlt ha), Function.update_of_ne hab]
      exact h.older k a hlt ha
    · rw [Option.some.inj (ha.symm.trans h.here), Function.update_self]
      trivial
  · have hacur : a ≠ cur := by
      rintro rfl
      exact ha t t.le_succ h.here
    have hab : a ≠ b := by
      rintro rfl
      exact ha (t + 1) le_rfl hb
    rw [hphase, Function.update_of_ne hacur, Function.update_of_ne hab]
    exact h.newer a fun k hk => ha k (hk.trans t.le_succ)
  · rw [hgs]
    rcases (Nat.lt_succ_iff.mp hk).lt_or_eq with hlt | rfl
    · exact h.gs k a hlt ha
    · rw [Option.some.inj (ha.symm.trans h.here)]
      exact hcur
  · rw [hlocale]
    rcases hk.lt_or_eq with hlt | rfl
    · exact h.locale k (Nat.lt_succ_iff.mp hlt)
    · exact hnext
  · rw [hboot, hsent]
    exact (List.append_nil _).symm
  · rw [hboot]
    exact ⟨hcnt, hparams⟩

end ChainAt

/-! ### One step of the chain -/

/-- How many steps a processor has at most before it. -/
def Phase.work : Phase → ℕ
  | .off => 12
  | .boot => 11
  | .bootstrap _ => 10
  | .released _ => 9
  | .counted => 8
  | .chain => 7
  | .acquire _ => 6
  | .locked _ => 5
  | .sendInit _ => 4
  | .sendStartup _ => 3
  | .waiting => 2
  | .unlock => 1
  | .done => 0

/-- How many steps the listed processors have at most before them. -/
def chainWork (ids : List ApicId) (s : SmpState) : ℕ := (ids.map fun a => (s.phase a).work).sum

theorem chainWork_lt {ids : List ApicId} {s s' : SmpState} {a : ApicId} (ha : a ∈ ids)
    (hle : ∀ b, (s'.phase b).work ≤ (s.phase b).work)
    (hlt : (s'.phase a).work < (s.phase a).work) : chainWork ids s' < chainWork ids s :=
  List.sum_lt_sum _ _ (fun b _ => hle b) ⟨a, ha, hlt⟩

/-- A processor that goes on has less before it. -/
theorem chainWork_lt_of_update {ids : List ApicId} {s s' : SmpState} {a : ApicId} {p : Phase}
    (ha : a ∈ ids) (hphase : s'.phase = Function.update s.phase a p)
    (hlt : p.work < (s.phase a).work) : chainWork ids s' < chainWork ids s := by
  refine chainWork_lt ha (fun b => ?_) ?_
  · rw [hphase]
    rcases eq_or_ne b a with rfl | hne
    · rw [Function.update_self]
      exact hlt.le
    · rw [Function.update_of_ne hne]
  · rw [hphase, Function.update_self]
    exact hlt

/-- What holds after every step of the chain. -/
structure ChainStep (ids : List ApicId) (s s' : SmpState) : Prop where
  lock : LockHeld s'
  chain : ∃ t cur, ChainAt ids s' t cur
  work : chainWork ids s' < chainWork ids s

namespace ChainAt

variable {ids : List ApicId} {s s' : SmpState} {t : ℕ} {a cur : ApicId}

/-- A step of a processor that has started the next one. -/
theorem step_older (h : ChainAt ids s t cur) (hl : LockHeld s) (hne : a ≠ cur)
    (hs : coreStep ids a s = some s') : ChainStep ids s s' := by
  have hoff : s.phase a ≠ .off := by
    intro hp
    simp [coreStep, hp] at hs
  obtain ⟨k, hk, hka⟩ := h.idle_of_ne hne hoff
  have hidle := h.older k a hk hka
  have hmem : a ∈ ids := List.mem_of_getElem? hka
  cases hp : s.phase a with
  | waiting =>
      rcases hlock : s.lock with - | -
      · simp only [coreStep, hp, hlock, Bool.false_eq_true, if_false, Option.some.injEq] at hs
        subst hs
        exact ⟨hl.take hlock rfl rfl trivial, ⟨t, cur, h.older_moves hne hoff true .unlock trivial⟩,
          chainWork_lt_of_update hmem rfl (by simp [hp, Phase.work])⟩
      · simp [coreStep, hp, hlock] at hs
  | unlock =>
      simp only [coreStep, hp, Option.some.injEq] at hs
      subst hs
      exact ⟨hl.drop (by rw [hp]; trivial) rfl rfl id,
        ⟨t, cur, h.older_moves hne hoff false .done trivial⟩,
        chainWork_lt_of_update hmem rfl (by simp [hp, Phase.work])⟩
  | done => simp [coreStep, hp] at hs
  | _ => simp [hp, Phase.Idle] at hidle

/-- The processor at which the chain is goes on. -/
theorem advances {p : Phase} (h : ChainAt ids s t cur) (hn : ids.Nodup)
    (hphase : s'.phase = Function.update s.phase cur p) (hlock : LockHeld s')
    (hwork : p.work < (s.phase cur).work) (hgs : ∀ a, a ≠ cur → s'.gs a = s.gs a)
    (hlocale : ∀ k ≤ t, s'.localeId k = s.localeId k)
    (hsent : s'.sent = chainLog ids t ++ pendingInit ids p) (hp : ChainPhase ids s' t cur p) :
    ChainStep ids s s' :=
  ⟨hlock, ⟨t, cur, h.moves hn hphase hgs hlocale hsent hp⟩,
    chainWork_lt_of_update (List.mem_of_getElem? h.here) hphase hwork⟩

/-- The processor is counted: it has started the whole list, or looks at the next entry. -/
theorem step_chain (h : ChainAt ids s t cur) (hn : ids.Nodup) (hl : LockHeld s)
    (hp : s.phase cur = .chain) : ChainStep ids s (chainAps ids cur s) := by
  have hsent := h.sent
  have hphase := h.phase
  rw [hp] at hphase hsent
  obtain ⟨hcnt, hgs⟩ := hphase
  rcases hnext : ids[t + 1]? with - | next
  · have hlen : t + 1 = ids.length :=
      le_antisymm (List.getElem?_eq_some_iff.mp h.here).1 (List.getElem?_eq_none_iff.mp hnext)
    have heq : chainAps ids cur s = { s with lowMapped := false }.goto cur .done := by
      simp only [chainAps, hcnt, hnext]
    rw [heq]
    exact h.advances hn rfl (hl.keep rfl rfl (by rw [hp]; exact Iff.rfl))
      (by simp [hp, Phase.work]) (fun _ _ => rfl) (fun _ _ => rfl) hsent ⟨hlen, hcnt, hgs, rfl⟩
  · have hne : next ≠ cur := h.next_ne hn hnext
    have hmore : t + 1 < ids.length := (List.getElem?_eq_some_iff.mp hnext).1
    have heq : chainAps ids cur s = { s with
        localeId := Function.update s.localeId (t + 1) (some next) }.goto cur
          (.acquire (t + 1)) := by
      simp only [chainAps, hcnt, hnext, if_neg hne]
    rw [heq]
    refine h.advances hn rfl (hl.keep rfl rfl (by rw [hp]; exact Iff.rfl))
      (by simp [hp, Phase.work]) (fun _ _ => rfl) (fun k hk => ?_) hsent
      ⟨rfl, hcnt, hgs, hmore, ?_⟩
    · exact Function.update_of_ne (Nat.lt_succ_of_le hk).ne _ _
    · exact (Function.update_self _ _ _).trans hnext.symm

/-- The INIT goes to a processor that is off, and changes nothing but the log. -/
theorem step_sendInit {i : ℕ} (h : ChainAt ids s t cur) (hn : ids.Nodup) (hl : LockHeld s)
    (hp : s.phase cur = .sendInit i) (hs : coreStep ids cur s = some s') : ChainStep ids s s' := by
  have hsent := h.sent
  have hphase := h.phase
  rw [hp] at hphase hsent
  obtain ⟨rfl, hparams, hstarts⟩ := hphase
  obtain ⟨next, hnext⟩ : ∃ next, ids[t + 1]? = some next :=
    ⟨_, List.getElem?_eq_getElem hstarts.2.2.1⟩
  have hoff := h.next_off hn hnext
  have hsame : ((s.send .init next).goto next .off).phase = s.phase :=
    (congrArg (Function.update s.phase next) hoff.symm).trans (Function.update_eq_self _ _)
  simp only [coreStep, hp, hnext, Option.map_some, Option.some.injEq] at hs
  subst hs
  have hupdate := congrArg (Function.update · cur (.sendStartup (t + 1))) hsame
  refine h.advances hn hupdate (hl.keep rfl hupdate (by rw [hp]; exact Iff.rfl))
    (by simp [hp, Phase.work]) (fun _ _ => rfl) (fun _ _ => rfl) ?_ ⟨rfl, hparams, hstarts⟩
  simp [SmpState.goto, SmpState.send, hsent, pendingInit, hnext, hoff]

/-- The start-up IPI starts the next processor, which has the lock from here on. -/
theorem step_sendStartup {i : ℕ} (h : ChainAt ids s t cur) (hn : ids.Nodup) (hl : LockHeld s)
    (hp : s.phase cur = .sendStartup i) (hs : coreStep ids cur s = some s') :
    ChainStep ids s s' := by
  have hsent := h.sent
  have hphase := h.phase
  rw [hp] at hphase hsent
  obtain ⟨rfl, hparams, hcnt, hgs, hmore, hlocale⟩ := hphase
  obtain ⟨next, hnext⟩ : ∃ next, ids[t + 1]? = some next :=
    ⟨_, List.getElem?_eq_getElem hmore⟩
  have hoff := h.next_off hn hnext
  simp only [coreStep, hp, hnext, hoff, if_true, Option.map_some, Option.some.injEq] at hs
  subst hs
  refine ⟨hl.handOver (by rw [hp]; trivial) (h.next_ne hn hnext) rfl rfl id,
    ⟨t + 1, next, h.passes hn hnext rfl rfl hgs rfl hlocale ?_ hcnt hparams⟩,
    chainWork_lt (List.mem_of_getElem? h.here) (fun b => ?_) ?_⟩
  · rw [chainLog_succ hnext]
    simp [SmpState.goto, SmpState.send, hsent, pendingInit, hnext, hoff, startIpis]
  · rcases eq_or_ne b cur with rfl | hb
    · simp [SmpState.goto, hp, Phase.work]
    · rcases eq_or_ne b next with rfl | hb'
      · simp [SmpState.goto, hb, hoff, Phase.work]
      · simp [SmpState.goto, SmpState.send, hb, hb']
  · simp [SmpState.goto, hp, Phase.work]

/-- A step of the processor at which the chain is. -/
theorem step_current (h : ChainAt ids s t cur) (hn : ids.Nodup) (hl : LockHeld s)
    (hs : coreStep ids cur s = some s') : ChainStep ids s s' := by
  have hphase := h.phase
  have hsent := h.sent
  cases hp : s.phase cur with
  | boot =>
      rw [hp] at hphase hsent
      obtain ⟨hcnt, hparams⟩ := hphase
      simp only [coreStep, hp, hparams, Option.map_some, Option.some.injEq] at hs
      subst hs
      exact h.advances hn rfl (hl.keep rfl rfl (by rw [hp]; exact Iff.rfl))
        (by simp [hp, Phase.work]) (fun _ _ => rfl) (fun _ _ => rfl) hsent ⟨hcnt, rfl⟩
  | bootstrap i =>
      rw [hp] at hphase hsent
      simp only [coreStep, hp, Option.some.injEq] at hs
      subst hs
      exact h.advances hn rfl (hl.drop (by rw [hp]; trivial) rfl rfl id)
        (by simp [hp, Phase.work]) (fun _ _ => rfl) (fun _ _ => rfl) hsent hphase
  | released i =>
      rw [hp] at hphase hsent
      obtain ⟨hcnt, rfl⟩ := hphase
      simp only [coreStep, hp, Option.some.injEq] at hs
      subst hs
      exact h.advances hn rfl (hl.keep rfl rfl (by rw [hp]; exact Iff.rfl))
        (by simp [hp, Phase.work]) (fun _ hne => Function.update_of_ne hne _ _) (fun _ _ => rfl)
        hsent ⟨hcnt, Function.update_self _ _ _⟩
  | counted =>
      rw [hp] at hphase hsent
      obtain ⟨hcnt, hgs⟩ := hphase
      simp only [coreStep, hp, Option.some.injEq] at hs
      subst hs
      exact h.advances hn rfl (hl.keep rfl rfl (by rw [hp]; exact Iff.rfl))
        (by simp [hp, Phase.work]) (fun _ _ => rfl) (fun _ _ => rfl) hsent
        ⟨congrArg (· + 1) hcnt, hgs⟩
  | chain =>
      simp only [coreStep, hp, Option.some.injEq] at hs
      subst hs
      exact h.step_chain hn hl hp
  | acquire i =>
      rw [hp] at hphase hsent
      rcases hlock : s.lock with - | -
      · simp only [coreStep, hp, hlock, Bool.false_eq_true, if_false, Option.some.injEq] at hs
        subst hs
        exact h.advances hn rfl (hl.take hlock rfl rfl trivial)
          (by simp [hp, Phase.work]) (fun _ _ => rfl) (fun _ _ => rfl) hsent hphase
      · simp [coreStep, hp, hlock] at hs
  | locked i =>
      rw [hp] at hphase hsent
      obtain ⟨rfl, hnext⟩ := hphase
      simp only [coreStep, hp, Option.some.injEq] at hs
      subst hs
      exact h.advances hn rfl (hl.keep rfl rfl (by rw [hp]; exact Iff.rfl))
        (by simp [hp, Phase.work]) (fun _ _ => rfl) (fun _ _ => rfl) hsent ⟨rfl, rfl, hnext⟩
  | sendInit i => exact h.step_sendInit hn hl hp hs
  | sendStartup i => exact h.step_sendStartup hn hl hp hs
  | done => simp [coreStep, hp] at hs
  | _ =>
      rw [hp] at hphase
      exact hphase.elim

/-- Every step keeps the chain. -/
theorem step (h : ChainAt ids s t cur) (hn : ids.Nodup) (hl : LockHeld s)
    (hs : SmpState.Step ids s s') : ChainStep ids s s' := by
  obtain ⟨a, ha⟩ := hs
  rcases eq_or_ne a cur with rfl | hne
  · exact h.step_current hn hl ha
  · exact h.step_older hl hne ha

/-- If no processor can go on, the lock is free. -/
theorem free_of_stuck (h : ChainAt ids s t cur) (hl : LockHeld s)
    (hstuck : ∀ a, coreStep ids a s = none) (hcur : ¬ (s.phase cur).Holds) : s.lock = false := by
  by_contra hlock
  obtain ⟨b, hb⟩ := hl.held.mp (eq_true_of_ne_false hlock)
  have hne : b ≠ cur := by
    rintro rfl
    exact hcur hb
  have hoff : s.phase b ≠ .off := by
    intro hp
    rwa [hp] at hb
  obtain ⟨k, hk, hkb⟩ := h.idle_of_ne hne hoff
  have hidle := h.older k b hk hkb
  have hnone := hstuck b
  cases hp : s.phase b with
  | unlock => simp [coreStep, hp] at hnone
  | waiting | done => simp [hp, Phase.Holds] at hb
  | _ => simp [hp, Phase.Idle] at hidle

/-- The chain goes on until it has come to the end of the list. -/
theorem done_of_stuck (h : ChainAt ids s t cur) (hl : LockHeld s)
    (hstuck : ∀ a, coreStep ids a s = none) : s.phase cur = .done := by
  have hnone := hstuck cur
  have hphase := h.phase
  cases hp : s.phase cur with
  | done => rfl
  | boot =>
      rw [hp] at hphase
      simp [coreStep, hp, hphase.2] at hnone
  | acquire i =>
      have hlock := h.free_of_stuck hl hstuck (by simp [hp, Phase.Holds])
      simp [coreStep, hp, hlock] at hnone
  | sendInit i | sendStartup i =>
      rw [hp] at hphase
      obtain ⟨rfl, -, -, -, hmore, -⟩ := hphase
      simp [coreStep, hp, hmore] at hnone
  | bootstrap i | released i | counted | chain | locked i => simp [coreStep, hp] at hnone
  | _ =>
      rw [hp] at hphase
      exact hphase.elim

end ChainAt

/-! ### The boot processor is first -/

theorem filter_startIpis (a b : ApicId) :
    ((startIpis b).filter fun e => e.target = a) = if b = a then startIpis b else [] := by
  by_cases h : b = a <;> simp [startIpis, h]

/-- In a list without duplicates each processor is started once. -/
theorem filter_flatMap_startIpis {l : List ApicId} (hn : l.Nodup) (a : ApicId) :
    ((l.flatMap startIpis).filter fun e => e.target = a) = if a ∈ l then startIpis a else [] := by
  induction l with
  | nil => simp
  | cons b l ih =>
      obtain ⟨hb, hl⟩ := List.nodup_cons.mp hn
      rw [List.flatMap_cons, List.filter_append, ih hl, filter_startIpis]
      rcases eq_or_ne b a with rfl | hne
      · simp [hb]
      · simp [hne, hne.symm]

/-- The chain has come to the end of the list. -/
theorem ChainAt.booted {bsp cur : ApicId} {rest : List ApicId} {s : SmpState} {t : ℕ}
    (h : ChainAt (bsp :: rest) s t cur) (hn : (bsp :: rest).Nodup) (hdone : s.phase cur = .done) :
    Booted (bsp :: rest) bsp s := by
  have hphase := h.phase
  have hsent := h.sent
  rw [hdone] at hphase hsent
  obtain ⟨hlen, hcnt, hgs, hlow⟩ := hphase
  have hrest : t = rest.length := Nat.succ.inj hlen
  have hlog : s.sent = rest.flatMap startIpis := by
    simp [hsent, pendingInit, chainLog, hrest]
  obtain ⟨hbsp, hnrest⟩ := List.nodup_cons.mp hn
  refine ⟨hcnt.trans hlen, hlow, fun k a hka => ?_, fun a ha hne => ?_, fun a ha => ?_⟩
  · have hk : k ≤ t :=
      Nat.le_of_lt_succ ((List.getElem?_eq_some_iff.mp hka).1.trans_eq hlen.symm)
    refine ⟨?_, (h.locale k hk).trans hka⟩
    rcases hk.lt_or_eq with hlt | rfl
    · exact h.gs k a hlt hka
    · rw [Option.some.inj (hka.symm.trans h.here)]
      exact hgs
  · have hmem : a ∈ rest := (List.mem_cons.mp ha).resolve_left hne
    rw [hlog, filter_flatMap_startIpis hnrest, if_pos hmem]
  · have hmem : a ∉ rest := by
      rcases ha with rfl | ha
      · exact hbsp
      · exact fun hmem => ha (List.mem_cons_of_mem _ hmem)
    rw [hlog, filter_flatMap_startIpis hnrest, if_neg hmem]

/-- Before the boot processor takes a step no other can. -/
theorem coreStep_bootAps {ids : List ApicId} {a bsp : ApicId} {s : SmpState}
    (h : coreStep ids a (bootAps bsp) = some s) : s = chainAps ids bsp (bootAps bsp) := by
  rcases eq_or_ne a bsp with rfl | hne
  · simpa [coreStep, bootAps] using h.symm
  · simp [coreStep, bootAps, hne] at h

theorem lockHeld_bootAps {bsp : ApicId} {s : SmpState} (hlock : s.lock = false)
    (hphase : s.phase = (bootAps bsp).phase) : LockHeld s := by
  have hnone : ∀ a, ¬ (s.phase a).Holds := by
    intro a ha
    rw [hphase] at ha
    rcases eq_or_ne a bsp with rfl | hne
    · simp [bootAps, Phase.Holds] at ha
    · simp [bootAps, hne, Phase.Holds] at ha
  refine ⟨iff_of_false (by simp [hlock]) fun ⟨a, ha⟩ => hnone a ha, fun a _ ha => ?_⟩
  exact absurd ha (hnone a)

/-- The boot processor finds itself in the first entry: the chain is at its start. -/
theorem chainAt_start (bsp : ApicId) (rest : List ApicId) :
    LockHeld (chainAps (bsp :: rest) bsp (bootAps bsp)) ∧
      ChainAt (bsp :: rest) (chainAps (bsp :: rest) bsp (bootAps bsp)) 0 bsp := by
  have heq : chainAps (bsp :: rest) bsp (bootAps bsp) = { bootAps bsp with
      localeId := Function.update (fun _ => none) 0 (some bsp)
      gs := Function.update (fun _ => none) bsp (some 0)
      cnt := 1 } := by
    simp [chainAps, bootAps]
  have hphase : (bootAps bsp).phase bsp = .chain := by simp [bootAps]
  rw [heq]
  refine ⟨lockHeld_bootAps rfl rfl, ⟨rfl, fun k _ hk => absurd hk k.not_lt_zero, fun a ha => ?_,
    fun k _ hk => absurd hk k.not_lt_zero, fun k hk => ?_, ?_, ?_⟩⟩
  · have hne : a ≠ bsp := by
      rintro rfl
      exact ha 0 le_rfl rfl
    simp [bootAps, hne]
  · obtain rfl : k = 0 := Nat.le_zero.mp hk
    simp
  · simp [bootAps, chainLog, pendingInit]
  · rw [hphase]
    exact ⟨rfl, by simp⟩

/-- The chain boots the processors if the boot processor is first. -/
theorem boots_of_head {bsp : ApicId} {rest : List ApicId} (hn : (bsp :: rest).Nodup) :
    Boots (bsp :: rest) bsp := by
  set ids := bsp :: rest
  set s₁ := chainAps ids bsp (bootAps bsp)
  have hstart : LockHeld s₁ ∧ ∃ t cur, ChainAt ids s₁ t cur :=
    ⟨(chainAt_start bsp rest).1, 0, bsp, (chainAt_start bsp rest).2⟩
  have hstep : ∀ s s', (LockHeld s ∧ ∃ t cur, ChainAt ids s t cur) → SmpState.Step ids s s' →
      (LockHeld s' ∧ ∃ t cur, ChainAt ids s' t cur) ∧ chainWork ids s' < chainWork ids s := by
    rintro s s' ⟨hl, t, cur, hc⟩ hs
    have h' := hc.step hn hl hs
    exact ⟨⟨h'.lock, h'.chain⟩, h'.work⟩
  -- a run is empty or goes through the first step
  have hrun : ∀ s, Run (SmpState.Step ids) (bootAps bsp) s →
      s = bootAps bsp ∨ LockHeld s ∧ ∃ t cur, ChainAt ids s t cur := by
    intro s hs
    rcases Relation.ReflTransGen.cases_head hs with heq | ⟨s', ⟨a, ha⟩, hs'⟩
    · exact .inl heq.symm
    · rw [coreStep_bootAps ha] at hs'
      exact .inr (Run.invariant (fun s s' h hs => (hstep s s' h hs).1) hstart hs')
  refine ⟨fun s hs e he => ?_, ⟨_, fun s ⟨a, ha⟩ => ?_⟩, fun s hs hstuck => ?_⟩
  · rcases hrun s hs with rfl | ⟨-, t, cur, hc⟩
    · cases he
    · exact hc.running e he
  · rw [coreStep_bootAps ha]
    exact Terminates.of_measure (chainWork ids) hstep hstart
  · rcases hrun s hs with rfl | ⟨hl, t, cur, hc⟩
    · exact absurd ⟨bsp, by simp [coreStep, bootAps]⟩ (hstuck (chainAps ids bsp (bootAps bsp)))
    · refine hc.booted hn (hc.done_of_stuck hl fun a => ?_)
      rcases h : coreStep ids a s with - | s'
      · rfl
      · exact absurd ⟨a, h⟩ (hstuck s')

/-! ### The boot processor is not first -/

/-- An IPI has been sent to `b`. -/
def Hit (b : ApicId) (s : SmpState) : Prop := ∃ e ∈ s.sent, e.target = b

/-- The processor is in `chain_aps` behind the look at the list, or has left it. -/
def Phase.Started : Phase → Prop
  | .acquire _ | .locked _ | .sendInit _ | .sendStartup _ | .waiting | .unlock | .done => True
  | _ => False

variable {ids : List ApicId} {a b bsp : ApicId} {s s' : SmpState}

theorem hit_send (kind : IpiKind) : Hit b (s.send kind b) :=
  ⟨_, List.mem_append_right _ (List.mem_singleton_self _), rfl⟩

/-- IPIs are not taken back. -/
theorem sent_subset (hs : coreStep ids a s = some s') : s.sent ⊆ s'.sent := by
  intro e he
  cases hp : s.phase a with
  | chain =>
      simp only [coreStep, hp, Option.some.injEq, chainAps] at hs
      subst hs
      split
      · exact he
      · split <;> exact he
  | boot =>
      simp only [coreStep, hp, Option.map_eq_some_iff] at hs
      obtain ⟨i, -, rfl⟩ := hs
      exact he
  | acquire i | waiting =>
      simp only [coreStep, hp, Option.ite_none_left_eq_some] at hs
      obtain ⟨-, hs⟩ := hs
      cases hs
      exact he
  | sendInit i =>
      simp only [coreStep, hp, Option.map_eq_some_iff] at hs
      obtain ⟨target, -, rfl⟩ := hs
      exact List.mem_append_left _ he
  | sendStartup i =>
      simp only [coreStep, hp, Option.map_eq_some_iff] at hs
      obtain ⟨target, -, rfl⟩ := hs
      split <;> exact List.mem_append_left _ he
  | off | done => simp [coreStep, hp] at hs
  | _ =>
      simp only [coreStep, hp, Option.some.injEq] at hs
      subst hs
      exact he

/-- The processor has no GS base, and will not set one before it is started again. -/
structure Unset (b : ApicId) (s : SmpState) : Prop where
  gs : s.gs b = none
  phase : (s.phase b).Started

namespace Unset

/-- A processor in another phase is another one. -/
theorem ne (h : Unset b s) (hp : ¬ (s.phase a).Started) : b ≠ a := by
  rintro rfl
  exact hp h.phase

theorem goto {p : Phase} (h : Unset b s) (hgs : s'.gs b = s.gs b)
    (hphase : s'.phase = Function.update s.phase a p)
    (hp : (s.phase a).Started → p.Started) : Unset b s' := by
  refine ⟨hgs.trans h.gs, ?_⟩
  rw [hphase]
  rcases eq_or_ne b a with rfl | hne
  · rw [Function.update_self]
    exact hp h.phase
  · rw [Function.update_of_ne hne]
    exact h.phase

/-- An IPI to another processor changes nothing. -/
theorem send_goto {kind : IpiKind} {p : Phase} (h : Unset b s) (hne : b ≠ a) :
    Unset b ((s.send kind a).goto a p) := by
  have hphase : ((s.send kind a).goto a p).phase b = s.phase b := Function.update_of_ne hne _ _
  exact ⟨h.gs, hphase ▸ h.phase⟩

/-- It stays without a GS base, or is sent an IPI. -/
theorem coreStep (h : Unset b s) (hs : coreStep ids a s = some s') : Hit b s' ∨ Unset b s' := by
  cases hp : s.phase a with
  | chain =>
      have hne := h.ne (a := a) (by simp [hp, Phase.Started])
      simp only [Rock.coreStep, hp, Option.some.injEq, chainAps] at hs
      subst hs
      split
      · exact .inr (h.goto rfl rfl fun _ => trivial)
      · split
        · exact .inr ⟨(Function.update_of_ne hne _ _).trans h.gs, h.phase⟩
        · exact .inr (h.goto rfl rfl fun _ => trivial)
  | boot =>
      simp only [Rock.coreStep, hp, Option.map_eq_some_iff] at hs
      obtain ⟨i, -, rfl⟩ := hs
      exact .inr (h.goto rfl rfl fun hst => by simp [hp, Phase.Started] at hst)
  | released i =>
      have hne := h.ne (a := a) (by simp [hp, Phase.Started])
      simp only [Rock.coreStep, hp, Option.some.injEq] at hs
      subst hs
      refine .inr (h.goto (Function.update_of_ne hne _ _) rfl fun hst => ?_)
      simp [hp, Phase.Started] at hst
  | bootstrap i | counted =>
      simp only [Rock.coreStep, hp, Option.some.injEq] at hs
      subst hs
      exact .inr (h.goto rfl rfl fun hst => by simp [hp, Phase.Started] at hst)
  | acquire i | waiting =>
      simp only [Rock.coreStep, hp, Option.ite_none_left_eq_some] at hs
      obtain ⟨-, hs⟩ := hs
      cases hs
      exact .inr (h.goto rfl rfl fun _ => trivial)
  | locked i | unlock =>
      simp only [Rock.coreStep, hp, Option.some.injEq] at hs
      subst hs
      exact .inr (h.goto rfl rfl fun _ => trivial)
  | sendInit i =>
      simp only [Rock.coreStep, hp, Option.map_eq_some_iff] at hs
      obtain ⟨target, -, rfl⟩ := hs
      rcases eq_or_ne b target with rfl | hne
      · exact .inl (hit_send .init)
      · have h' : Unset b ((s.send .init target).goto target .off) := h.send_goto hne
        exact .inr (h'.goto rfl rfl fun _ => trivial)
  | sendStartup i =>
      simp only [Rock.coreStep, hp, Option.map_eq_some_iff] at hs
      obtain ⟨target, -, rfl⟩ := hs
      rcases eq_or_ne b target with rfl | hne
      · left
        split <;> exact hit_send .startup
      · have h' : Unset b ((s.send .startup target).goto target .boot) := h.send_goto hne
        right
        split
        · exact h'.goto rfl rfl fun _ => trivial
        · exact h.goto rfl rfl fun _ => trivial
  | off | done => simp [Rock.coreStep, hp] at hs

end Unset

/-- A boot processor that is not first starts the first one before it has a GS base. -/
theorem unset_start (hfirst : ids.head? ≠ some bsp) (hids : ids ≠ []) :
    Unset bsp (chainAps ids bsp (bootAps bsp)) := by
  obtain ⟨first, rest, rfl⟩ := List.exists_cons_of_ne_nil hids
  have hne : first ≠ bsp := by simpa using hfirst
  refine ⟨?_, ?_⟩
  · simp [chainAps, bootAps, hne, SmpState.goto]
  · simp [chainAps, bootAps, hne, SmpState.goto, Phase.Started]

/-- The chain does not boot the processors if the boot processor is not first. -/
theorem not_boots_of_head_ne (hb : bsp ∈ ids) (hfirst : ids.head? ≠ some bsp) :
    ¬ Boots ids bsp := by
  intro hboots
  obtain ⟨s, hs, hstuck⟩ := hboots.ends.exists_stuck
  have hbooted := hboots.booted s hs hstuck
  have hnever : ¬ Hit bsp s := by
    rintro ⟨e, he, htarget⟩
    have hmem : e ∈ s.sent.filter fun e => e.target = bsp :=
      List.mem_filter.mpr ⟨he, decide_eq_true htarget⟩
    rw [hbooted.others bsp (.inl rfl)] at hmem
    cases hmem
  have hstep : ∀ s s', Hit bsp s ∨ Unset bsp s → SmpState.Step ids s s' →
      Hit bsp s' ∨ Unset bsp s' := by
    rintro s s' (⟨e, he, htarget⟩ | h) ⟨a, ha⟩
    · exact .inl ⟨e, sent_subset ha he, htarget⟩
    · exact h.coreStep ha
  have hinv : s = bootAps bsp ∨ Hit bsp s ∨ Unset bsp s := by
    rcases Relation.ReflTransGen.cases_head hs with heq | ⟨s', ⟨a, ha⟩, hs'⟩
    · exact .inl heq.symm
    · rw [coreStep_bootAps ha] at hs'
      exact .inr (Run.invariant hstep (.inr (unset_start hfirst (List.ne_nil_of_mem hb))) hs')
  obtain ⟨k, hk⟩ := List.mem_iff_getElem?.mp hb
  have hgs := (hbooted.gs k bsp hk).1
  rcases hinv with rfl | h | h
  · cases hgs
  · exact hnever h
  · cases hgs.symm.trans h.gs

/-- **The chain starts each processor once if and only if the boot processor is first.** -/
theorem boot_chain_iff (hn : ids.Nodup) (hb : bsp ∈ ids) :
    Boots ids bsp ↔ ids.head? = some bsp := by
  refine ⟨fun h => ?_, fun h => ?_⟩
  · by_contra hfirst
    exact not_boots_of_head_ne hb hfirst h
  · obtain ⟨rest, rfl⟩ := List.head?_eq_some_iff.mp h
    exact boots_of_head hn

theorem boot_chain_three : ([0, 1, 2] : List ApicId).Nodup ∧ Boots [0, 1, 2] 0 :=
  ⟨by decide, (boot_chain_iff (by decide) (by decide)).mpr rfl⟩

/-- The processors of `sched` take a step each, in this order. -/
def SmpState.follow (ids : List ApicId) (s : SmpState) : List ApicId → Option SmpState
  | [] => some s
  | a :: sched => (coreStep ids a s).bind fun s' => s'.follow ids sched

theorem SmpState.follow_run {sched : List ApicId} (h : s.follow ids sched = some s') :
    Run (SmpState.Step ids) s s' := by
  induction sched generalizing s with
  | nil =>
      cases h
      exact .refl
  | cons a sched ih =>
      obtain ⟨s₁, ha, h₁⟩ := Option.bind_eq_some_iff.mp h
      exact .head ⟨a, ha⟩ (ih h₁)

/-- The boot processor 0 is second.  It starts the processor 1, which finds in the second entry
a processor other than itself and sends an INIT to the boot processor. -/
theorem boot_chain_resets :
    ([1, 0] : List ApicId).Nodup ∧ (0 : ApicId) ∈ ([1, 0] : List ApicId) ∧
      (∃ s, Run (SmpState.Step [1, 0]) (bootAps 0) s ∧ ⟨.init, 0, true⟩ ∈ s.sent) ∧
      ¬ Boots [1, 0] 0 := by
  obtain ⟨s, hs, hsent⟩ : ∃ s, (bootAps 0).follow [1, 0]
      [0, 0, 0, 0, 0, 1, 1, 1, 1, 1, 1, 1, 1] = some s ∧
        s.sent = startIpis 1 ++ [⟨.init, 0, true⟩] :=
    Option.map_eq_some_iff.mp (by decide +kernel)
  have hmem : ⟨.init, 0, true⟩ ∈ s.sent := by simp [hsent]
  have hrun := SmpState.follow_run hs
  refine ⟨by decide, by decide, ⟨s, hrun, hmem⟩, fun h => ?_⟩
  cases h.safe s hrun _ hmem

end Rock
