/-
Rock/Vectors.lean

Interrupt vectors and their acknowledgement: `idt_alloc_vector`, `idt_init` and
`isr_handler_main` (kernel/arch/x86/idt.c) with the local APIC of one core.

A local APIC has the vectors that are requested and those in service; one in service holds back
all of its priority class and below until the end of interrupt is written.  The kernel writes it
at the end of `isr_handler_main` and, where `reschedule` does not come back, in `reschedule`; it
also writes it after a page fault and after the `int $32` of a yield, for which nothing is in
service.  Every gate is an interrupt gate, so that a handler runs with interrupts off and only
exceptions can come in it.

`interrupts_acknowledged`: over every run of a core, with faults in handlers, yields and switches
between flows, what is delivered is acknowledged exactly once and before any code runs with
interrupts on, and there every vector that is requested can be delivered.
-/
import Rock.Exec

namespace Rock

/-! ### The table of handlers -/

/-- A function that is called for a vector: `reschedule`, or the one at an address. -/
inductive IrqHandler where
  | reschedule
  | other (addr : ℕ)
  deriving DecidableEq

/-- `struct vector`. -/
structure IrqVector where
  handler : Option IrqHandler
  ptr : BitVec 64
  reserved : Bool
  deriving DecidableEq

/-- `interrupt_vectors`. -/
abbrev IrqTable := Fin 256 → IrqVector

/-- `idt_alloc_vector`. -/
def idtAllocVector (t : IrqTable) (handler : Option IrqHandler) (ptr : BitVec 64) :
    ℤ × IrqTable :=
  match (List.finRange 256).find? fun i => !(t i).reserved with
  | some i => (i.val, Function.update t i ⟨handler, ptr, true⟩)
  | none => (-1, t)

/-- The table as `idt_init` leaves it. -/
def idtInitVectors : IrqTable := fun i =>
  ⟨if i = 32 then some .reschedule else none, 0, i.val < 48⟩

/-- What `isr_handler_main` comes to: it stops the core, or it calls a handler, if there is one,
and goes on to its end. -/
inductive IsrPath where
  | halts
  | calls (handler : Option (IrqHandler × BitVec 64))
  deriving DecidableEq

/-- `isr_handler_main`; `resolved` says that `portal_resolve_fault` returns 0. -/
def isrHandlerMain (t : IrqTable) (vector : Fin 256) (resolved : Bool) : IsrPath :=
  if vector.val < 32 then
    if vector.val = 0xe ∧ resolved then .calls none else .halts
  else .calls ((t vector).handler.map fun f => (f, (t vector).ptr))

/-! ### The local APIC and its core -/

/-- The vectors that are requested, and those in service, the highest first. -/
structure LocalApic where
  irr : Fin 256 → Bool
  isr : List (Fin 256)

namespace LocalApic

/-- The vector is requested, and its class is above those in service; the task priority is 0. -/
def Delivers (a : LocalApic) (v : Fin 256) : Prop :=
  a.irr v = true ∧ 16 ≤ v.val ∧ ∀ u ∈ a.isr, u.val / 16 < v.val / 16

/-- The vector goes in service. -/
def deliver (a : LocalApic) (v : Fin 256) : LocalApic :=
  ⟨Function.update a.irr v false, v :: a.isr⟩

/-- `xapic_write(XAPIC_EOI_OFF, 0)`: the highest vector in service is done, if there is one. -/
def eoi (a : LocalApic) : LocalApic := { a with isr := a.isr.tail }

end LocalApic

/-- What a flow is inside of: the vectors whose handlers it runs, the innermost first, each with
the interrupt flag of the code that was interrupted. -/
abbrev IrqFrames := List (Fin 256 × Bool)

/-- A core with its local APIC.  `flows` are the flows that `reschedule` has switched away from,
with the interrupt flag they go on with.  `delivered` and `acked` count the vectors that went in
service and came out of it. -/
structure IrqCore where
  table : IrqTable
  apic : LocalApic
  flagIF : Bool
  frames : IrqFrames
  flows : ℕ → Bool × IrqFrames
  halted : Bool
  delivered : ℕ
  acked : ℕ

namespace IrqCore

/-- The end of interrupt is written. -/
def acknowledge (s : IrqCore) : IrqCore :=
  { s with
    apic := s.apic.eoi
    acked := s.acked + (s.apic.isr.length - s.apic.eoi.isr.length) }

/-- The gate of a vector is an interrupt gate. -/
def enter (s : IrqCore) (v : Fin 256) : IrqCore :=
  { s with frames := (v, s.flagIF) :: s.frames, flagIF := false }

/-- `iretq` to the flow that is to go on. -/
def resume (s : IrqCore) (flow : Bool × IrqFrames) : IrqCore :=
  { s with flagIF := flow.1, frames := flow.2 }

/-- What a core does.  `notification_return` has no step: it leaves a system call for user code,
with interrupts on and no frame before and after, and changes nothing here. -/
inductive Step : IrqCore → IrqCore → Prop
  /-- A device or the timer requests a vector. -/
  | request {s : IrqCore} (v : Fin 256) : 32 ≤ v.val →
      Step s { s with apic := { s.apic with irr := Function.update s.apic.irr v true } }
  | deliver {s : IrqCore} {v : Fin 256} :
      s.halted = false → s.flagIF = true → s.apic.Delivers v →
      Step s { s.enter v with apic := s.apic.deliver v, delivered := s.delivered + 1 }
  /-- An exception, in any code. -/
  | fault {s : IrqCore} {v : Fin 256} : s.halted = false → v.val < 32 → Step s (s.enter v)
  /-- The `int $32` of `syscall_yield`. -/
  | yield {s : IrqCore} : s.halted = false → Step s (s.enter 32)
  /-- `isr_handler_main` comes to its end. -/
  | finish {s : IrqCore} {v : Fin 256} {flow : Bool} {rest : IrqFrames} {resolved : Bool}
      {call : Option (IrqHandler × BitVec 64)} :
      s.halted = false → s.frames = (v, flow) :: rest →
      isrHandlerMain s.table v resolved = .calls call → Step s (s.acknowledge.resume (flow, rest))
  /-- `reschedule` does not come back: the flow is stored for the context that was running, if
  there was one, and that of context `x` goes on. -/
  | switch {s : IrqCore} {v : Fin 256} {flow : Bool} {rest : IrqFrames} {ptr : BitVec 64}
      {flows : ℕ → Bool × IrqFrames} (running : Option ℕ) (x : ℕ) :
      s.halted = false → s.frames = (v, flow) :: rest →
      isrHandlerMain s.table v false = .calls (some (.reschedule, ptr)) →
      flows = running.elim s.flows (fun y => Function.update s.flows y (flow, rest)) →
      Step s ({ s with flows := flows }.acknowledge.resume (flows x))
  /-- An exception that is not resolved stops the core. -/
  | halt {s : IrqCore} {v : Fin 256} {flow : Bool} {rest : IrqFrames} :
      s.frames = (v, flow) :: rest → isrHandlerMain s.table v false = .halts →
      Step s { s with halted := true }
  /-- `launch_server` makes a flow of user code. -/
  | launch {s : IrqCore} (x : ℕ) : Step s { s with flows := Function.update s.flows x (true, []) }
  | alloc {s : IrqCore} (handler : Option IrqHandler) (ptr : BitVec 64) :
      Step s { s with table := (idtAllocVector s.table handler ptr).2 }
  /-- `sti` and `cli` of `syscall_main` and at boot, outside of all handlers. -/
  | setFlag {s : IrqCore} (flag : Bool) : s.frames = [] → Step s { s with flagIF := flag }

/-- At the start nothing is in service. -/
structure Initial (s : IrqCore) : Prop where
  isr : s.apic.isr = []
  counts : s.delivered = s.acked

structure Inv (s : IrqCore) : Prop where
  count : s.delivered = s.acked + s.apic.isr.length
  one : s.apic.isr.length ≤ 1
  base : s.frames = [] → s.apic.isr = []
  flag : s.flagIF = true → s.apic.isr = []

variable {s s' : IrqCore} {v : Fin 256}

theorem Initial.inv (h : s.Initial) : s.Inv :=
  ⟨by rw [h.isr, h.counts]; rfl, by simp [h.isr], fun _ => h.isr, fun _ => h.isr⟩

/-- In a handler the flag is off, and what is in service stays so. -/
theorem Inv.enter (hI : s.Inv) (v : Fin 256) : (s.enter v).Inv :=
  ⟨hI.count, hI.one, fun h => absurd h (List.cons_ne_nil _ _),
    fun h => absurd h Bool.false_ne_true⟩

/-- With the flag on nothing is in service, and one vector is then. -/
theorem Inv.deliver (hI : s.Inv) (hflag : s.flagIF = true) (v : Fin 256) :
    Inv { s.enter v with apic := s.apic.deliver v, delivered := s.delivered + 1 } := by
  have hempty := hI.flag hflag
  have hcount := hI.count
  rw [hempty] at hcount
  have hisr : (s.apic.deliver v).isr = [v] := by rw [LocalApic.deliver, hempty]
  refine ⟨?_, ?_, fun h => absurd h (List.cons_ne_nil _ _),
    fun h => absurd h Bool.false_ne_true⟩
  · show s.delivered + 1 = s.acked + (s.apic.deliver v).isr.length
    rw [hcount, hisr]
    rfl
  · show (s.apic.deliver v).isr.length ≤ 1
    rw [hisr]
    rfl

/-- After an end of interrupt nothing is in service, whatever goes on. -/
theorem Inv.acknowledge (hI : s.Inv) (flow : Bool × IrqFrames) :
    (s.acknowledge.resume flow).Inv := by
  have hone := hI.one
  have hempty : s.apic.eoi.isr = [] := by
    rw [LocalApic.eoi, ← List.length_eq_zero_iff, List.length_tail]
    omega
  refine ⟨?_, ?_, fun _ => hempty, fun _ => hempty⟩
  · show s.delivered = s.acked + (s.apic.isr.length - s.apic.eoi.isr.length) + s.apic.eoi.isr.length
    rw [hempty, hI.count]
    rfl
  · show s.apic.eoi.isr.length ≤ 1
    rw [hempty]
    exact Nat.zero_le 1

theorem Inv.step (s s' : IrqCore) (hI : s.Inv) (hs : Step s s') : s'.Inv := by
  cases hs with
  | request v _ => exact ⟨hI.count, hI.one, hI.base, hI.flag⟩
  | deliver _ hflag _ => exact hI.deliver hflag _
  | fault _ _ => exact hI.enter _
  | yield _ => exact hI.enter _
  | finish _ _ _ => exact hI.acknowledge _
  | @switch v flow rest ptr flows running x _ _ _ _ =>
      have hI' : Inv { s with flows := flows } := ⟨hI.count, hI.one, hI.base, hI.flag⟩
      exact hI'.acknowledge _
  | halt _ _ => exact ⟨hI.count, hI.one, hI.base, hI.flag⟩
  | launch x => exact ⟨hI.count, hI.one, hI.base, hI.flag⟩
  | alloc handler ptr => exact ⟨hI.count, hI.one, hI.base, hI.flag⟩
  | setFlag flag hbase => exact ⟨hI.count, hI.one, hI.base, fun _ => hI.base hbase⟩

end IrqCore

/-- **What is delivered is acknowledged**, once and in time.  Over every run of a core at most
one vector is in service; and whenever code runs with interrupts on, all that was delivered has
been acknowledged, and each vector that is requested can be delivered at once. -/
theorem interrupts_acknowledged {s₀ s : IrqCore} (hinit : s₀.Initial)
    (hrun : Run IrqCore.Step s₀ s) :
    s.delivered = s.acked + s.apic.isr.length ∧ s.apic.isr.length ≤ 1 ∧
      (s.flagIF = true → s.delivered = s.acked ∧
        ∀ v : Fin 256, 32 ≤ v.val → s.apic.irr v = true → s.halted = false →
          ∃ s', IrqCore.Step s s' ∧ s'.frames = (v, true) :: s.frames ∧
            s'.delivered = s.delivered + 1) := by
  have hI := Run.invariant IrqCore.Inv.step hinit.inv hrun
  refine ⟨hI.count, hI.one, fun hflag => ?_⟩
  have hempty := hI.flag hflag
  refine ⟨by rw [hI.count, hempty]; rfl, fun v hv hirr hrunning => ?_⟩
  have hdelivers : s.apic.Delivers v := ⟨hirr, by omega, by simp [hempty]⟩
  refine ⟨_, .deliver hrunning hflag hdelivers, ?_, rfl⟩
  show (v, s.flagIF) :: s.frames = _
  rw [hflag]

/-- A core at boot. -/
def bootCore : IrqCore where
  table := idtInitVectors
  apic := ⟨fun _ => false, []⟩
  flagIF := false
  frames := []
  flows := fun _ => (true, [])
  halted := false
  delivered := 0
  acked := 0

/-- A tick with a page fault in its handler: the end of interrupt of the fault is that of the
tick, and the second one finds nothing in service. -/
theorem interrupts_acknowledged_tick :
    ∃ s, Run IrqCore.Step bootCore s ∧ s.flagIF = true ∧ s.delivered = 1 ∧ s.acked = 1 := by
  have hflag : Run IrqCore.Step bootCore { bootCore with flagIF := true } :=
    .single (.setFlag true rfl)
  have hrequest := hflag.tail (.request 32 (by decide))
  have htick := hrequest.tail (.deliver (v := 32) rfl rfl ⟨rfl, by decide, by simp [bootCore]⟩)
  have hfault := htick.tail (.fault (v := 0xe) rfl (by decide))
  have hresolved := hfault.tail (.finish rfl rfl
    (show isrHandlerMain idtInitVectors 0xe true = .calls none from rfl))
  have hswitch := hresolved.tail (.switch none 0 rfl rfl
    (show isrHandlerMain idtInitVectors 32 false = .calls (some (.reschedule, 0)) from rfl) rfl)
  have hcounts := (interrupts_acknowledged ⟨rfl, rfl⟩ hswitch).2.2 rfl
  exact ⟨_, hswitch, rfl, rfl, hcounts.1.symm⟩

end Rock
