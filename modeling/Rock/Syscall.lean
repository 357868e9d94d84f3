/-
Rock/Syscall.lean

System calls of several contexts on one core (kernel/arch/x86/syscall.asm,
with `SYSRET` of kernel/core/syscall.c and the slots of `struct cpu_local`).

`syscallMain` is the code of `syscall_main`, instruction by instruction.  The
registers of a context survive a switch, but three things belong to the core:
the kernel stack pointer `[gs:0]`, the slot `[gs:8]` for the user's stack
pointer, and the slot `[gs:16]` for the error.  Interrupts are enabled in the
body of a call, so a second context can enter the kernel while the first is
still inside: it then pushes over the words of the first and replaces both
slots.

What is known at each instruction of an undisturbed call is computed from the
code (`CallFacts`, `Instr.transfer`), and each instruction is proved to establish
what it says (`Knows.exec`).  Hence `syscall_run_isolated`: if a call is entered
only while no other context is inside one (`Alone`), every call returns with its
own user stack pointer and its own error, and its words on the kernel stack stay
as it pushed them.  `syscall_steals_stack` is a run of two contexts in which one
returns on the stack of the other.

`swapgs` is taken to select the slots of the core.
-/
import Rock.Exec
import Rock.Pmm

namespace Rock

/-! ### The code -/

/-- The registers `syscall_main` saves. -/
inductive Reg where
  | rax | rbx | rcx | rdx | rbp | rdi | rsi | r8 | r9 | r10 | r11 | r12 | r13 | r14 | r15
  deriving DecidableEq, Repr

/-- What is pushed: a register, a constant, or `[gs:8]`. -/
inductive Operand where
  | reg (r : Reg)
  | imm (w : Word)
  | userStack
  deriving DecidableEq, Repr

/-- The instructions of `syscall_main`. -/
inductive Instr where
  | swapgs
  | storeUserStack
  | loadKernelStack
  | sti
  | push (o : Operand)
  | movRdiRsp
  | call
  | pop (r : Reg)
  | addRsp (words : ℕ)
  | cli
  | loadError
  | loadUserStack
  | sysret
  deriving DecidableEq, Repr

/-- The registers in the order in which they are pushed. -/
def savedRegs : List Reg :=
  [.rax, .rbx, .rcx, .rdx, .rbp, .rdi, .rsi, .r8, .r9, .r10, .r11, .r12, .r13, .r14, .r15]

/-- The start of `syscall_main`, up to the frame of the caller. -/
def syscallEntry : List Instr :=
  [.swapgs, .storeUserStack, .loadKernelStack, .sti,
    .push (.reg .rcx), .push (.reg .r11),
    .push (.imm 0x3b), .push .userStack, .push (.reg .r11), .push (.imm 0x43), .push (.reg .rcx),
    .push (.imm 0), .push (.imm 0)]

/-- The end of `syscall_main`, from the frame of the caller. -/
def syscallExit : List Instr :=
  [.addRsp 7, .pop .r11, .pop .rcx, .cli, .loadError, .loadUserStack, .swapgs, .sysret]

/-- `syscall_main`. -/
def syscallMain : List Instr :=
  syscallEntry ++ savedRegs.map (fun r => Instr.push (.reg r)) ++ [Instr.movRdiRsp, Instr.call]
    ++ savedRegs.reverse.map Instr.pop ++ syscallExit

/-! ### The core -/

/-- A context: where it is in `syscall_main` (`none` in user mode), its
registers, and whether interrupts are enabled.  Of its current call, `frame` has
the words it pushed that are still on the stack, newest first, `entered` the
stack pointer it came with and `stored` the error of its handler; the code reads
none of the three. -/
structure Thread where
  pc : Option ℕ
  regs : Reg → Word
  rsp : Word
  interrupts : Bool
  frame : List Word
  entered : Word
  stored : Word

/-- A return to user mode: the stack pointer and `rdx` that it returns with, and
those it should. -/
structure Sysret where
  ctx : ℕ
  entered : Word
  stored : Word
  rsp : Word
  rdx : Word
  deriving DecidableEq, Repr

/-- The context gets back its stack pointer and its error. -/
def Sysret.Right (e : Sysret) : Prop := e.rsp = e.entered ∧ e.rdx = e.stored

/-- A core: `kernelStack`, `userStack` and `error` are `[gs:0]`, `[gs:8]` and
`[gs:16]`, and `stack` the memory of the kernel stack. -/
structure SyscallCore where
  threads : ℕ → Thread
  current : ℕ
  kernelStack : Word
  userStack : Word
  error : Word
  stack : Word → Word
  returns : List Sysret

namespace SyscallCore

/-- The running context. -/
def running (k : SyscallCore) : Thread := k.threads k.current

def setRunning (k : SyscallCore) (t : Thread) : SyscallCore :=
  { k with threads := Function.update k.threads k.current t }

def operand (k : SyscallCore) : Operand → Word
  | .reg r => k.running.regs r
  | .imm w => w
  | .userStack => k.userStack

/-- The return to user mode that `sysret` makes now. -/
def sysret (k : SyscallCore) : Sysret where
  ctx := k.current
  entered := k.running.entered
  stored := k.running.stored
  rsp := k.running.rsp
  rdx := k.running.regs .rdx

/-- Execute the instruction `i`, which is at `pc` in `syscall_main`.  For `call`
see `handlerReturn`. -/
def exec (k : SyscallCore) (pc : ℕ) : Instr → SyscallCore
  | .swapgs | .call => k.setRunning { k.running with pc := some (pc + 1) }
  | .storeUserStack =>
      { k with userStack := k.running.rsp }.setRunning { k.running with pc := some (pc + 1) }
  | .loadKernelStack =>
      k.setRunning { k.running with pc := some (pc + 1), rsp := k.kernelStack }
  | .sti => k.setRunning { k.running with pc := some (pc + 1), interrupts := true }
  | .push o =>
      { k with stack := Function.update k.stack (k.running.rsp - 8) (k.operand o) }.setRunning
        { k.running with
          pc := some (pc + 1)
          rsp := k.running.rsp - 8
          frame := k.operand o :: k.running.frame }
  | .movRdiRsp =>
      k.setRunning { k.running with
        pc := some (pc + 1)
        regs := Function.update k.running.regs .rdi k.running.rsp }
  | .pop r =>
      k.setRunning { k.running with
        pc := some (pc + 1)
        regs := Function.update k.running.regs r (k.stack k.running.rsp)
        rsp := k.running.rsp + 8
        frame := k.running.frame.tail }
  | .addRsp words =>
      k.setRunning { k.running with
        pc := some (pc + 1)
        rsp := k.running.rsp + BitVec.ofNat 64 (8 * words)
        frame := k.running.frame.drop words }
  | .cli => k.setRunning { k.running with pc := some (pc + 1), interrupts := false }
  | .loadError =>
      k.setRunning { k.running with
        pc := some (pc + 1)
        regs := Function.update k.running.regs .rdx k.error }
  | .loadUserStack =>
      k.setRunning { k.running with pc := some (pc + 1), rsp := k.userStack, frame := [] }
  | .sysret =>
      { k with
        returns := k.returns ++ [k.sysret] }.setRunning
        { k.running with pc := none, interrupts := true, frame := [] }

/-- The `syscall` instruction, which leaves the return address and the flags in
`rcx` and `r11` and masks interrupts. -/
def enter (k : SyscallCore) (rip rflags : Word) : SyscallCore :=
  k.setRunning { k.running with
    pc := some 0
    regs := Function.update (Function.update k.running.regs .rcx rip) .r11 rflags
    interrupts := false
    frame := []
    entered := k.running.rsp }

/-- `syscall_handler` returns: `SYSRET` has stored its error, and the registers
are what the C code left in them. -/
def handlerReturn (k : SyscallCore) (pc : ℕ) (error : Word) (regs : Reg → Word) : SyscallCore :=
  { k with error := error }.setRunning
    { k.running with pc := some (pc + 1), regs := regs, stored := error }

/-- `syscall_notification_return` does not return: it leaves for user mode with
the registers that were saved in the context. -/
def leave (k : SyscallCore) (regs : Reg → Word) (rsp : Word) : SyscallCore :=
  k.setRunning { k.running with
    pc := none, regs := regs, rsp := rsp, interrupts := true, frame := [] }

end SyscallCore

/-- The address of the `i`-th word below the top of a stack. -/
def wordAddr (top : Word) (i : ℕ) : Word := top - BitVec.ofNat 64 (8 * (i + 1))

/-- The words that the running context has pushed are the same in both
memories. -/
def SyscallCore.KeepsFrame (k : SyscallCore) (stack : Word → Word) : Prop :=
  ∀ i < k.running.frame.length,
    stack (wordAddr k.kernelStack i) = k.stack (wordAddr k.kernelStack i)

/-- The steps of a core, where a system call may be entered if `Allowed`.  The
C code of a handler and an interrupt in the kernel use the stack below the words
of the running context; an interrupt in user mode uses another stack. -/
inductive SyscallCore.Step (Allowed : SyscallCore → Prop) : SyscallCore → SyscallCore → Prop
  | user {k : SyscallCore} (regs : Reg → Word) (rsp : Word) :
      k.running.pc = none →
      Step Allowed k (k.setRunning { k.running with regs := regs, rsp := rsp })
  | enter {k : SyscallCore} (rip rflags : Word) :
      k.running.pc = none → Allowed k → Step Allowed k (k.enter rip rflags)
  | exec {k : SyscallCore} {pc : ℕ} {i : Instr} :
      k.running.pc = some pc → syscallMain[pc]? = some i → i ≠ .call →
      Step Allowed k (k.exec pc i)
  | work {k : SyscallCore} {pc : ℕ} (stack : Word → Word) :
      k.running.pc = some pc → syscallMain[pc]? = some .call → k.KeepsFrame stack →
      Step Allowed k { k with stack := stack }
  | handlerReturn {k : SyscallCore} {pc : ℕ} (error : Word) (regs : Reg → Word) :
      k.running.pc = some pc → syscallMain[pc]? = some .call →
      Step Allowed k (k.handlerReturn pc error regs)
  | leave {k : SyscallCore} {pc : ℕ} (regs : Reg → Word) (rsp : Word) :
      k.running.pc = some pc → syscallMain[pc]? = some .call → Step Allowed k (k.leave regs rsp)
  | switch {k : SyscallCore} (next : ℕ) (stack : Word → Word) :
      k.running.interrupts = true → (k.running.pc = none → stack = k.stack) →
      k.KeepsFrame stack → Step Allowed k { k with current := next, stack := stack }

/-- No other context is inside a system call. -/
def SyscallCore.Alone (k : SyscallCore) : Prop :=
  ∀ c, c ≠ k.current → (k.threads c).pc = none

section Fields
variable {k : SyscallCore} {t : Thread}

@[simp] theorem SyscallCore.running_setRunning : (k.setRunning t).running = t :=
  Function.update_self ..

@[simp] theorem SyscallCore.setRunning_current : (k.setRunning t).current = k.current := rfl

@[simp] theorem SyscallCore.setRunning_kernelStack :
    (k.setRunning t).kernelStack = k.kernelStack := rfl

@[simp] theorem SyscallCore.setRunning_userStack : (k.setRunning t).userStack = k.userStack := rfl

@[simp] theorem SyscallCore.setRunning_error : (k.setRunning t).error = k.error := rfl

@[simp] theorem SyscallCore.setRunning_stack : (k.setRunning t).stack = k.stack := rfl

@[simp] theorem SyscallCore.setRunning_returns : (k.setRunning t).returns = k.returns := rfl

theorem SyscallCore.setRunning_threads {c : ℕ} (h : c ≠ k.current) :
    (k.setRunning t).threads c = k.threads c :=
  Function.update_of_ne h ..

end Fields

/-! ### What is known at each instruction -/

/-- What is known in an undisturbed call: whether `[gs:8]` and `rsp` are the
stack pointer it came with, whether `[gs:16]` and `rdx` are its error, and how
many words it has on the kernel stack, if `rsp` is there. -/
structure CallFacts where
  userSaved : Bool
  rspUser : Bool
  errorStored : Bool
  rdxError : Bool
  depth : Option ℕ
  deriving DecidableEq, Repr

/-- What is known after an instruction; `none` if it is used where it should not
be. -/
def Instr.transfer (f : CallFacts) : Instr → Option CallFacts
  | .swapgs | .sti | .cli => some f
  | .storeUserStack => some { f with userSaved := f.rspUser }
  | .loadKernelStack => if f.depth = none then some { f with depth := some 0, rspUser := false }
      else none
  | .push _ =>
      match f.depth with
      | some d => if d < 64 then some { f with depth := some (d + 1), rspUser := false } else none
      | none => none
  | .movRdiRsp => some f
  | .call => some { f with errorStored := true, rdxError := false }
  | .pop r =>
      match f.depth with
      | some (d + 1) =>
          some { f with depth := some d, rspUser := false, rdxError := f.rdxError && r ≠ .rdx }
      | _ => none
  | .addRsp n =>
      match f.depth with
      | some d => if n ≤ d then some { f with depth := some (d - n), rspUser := false } else none
      | none => none
  | .loadError => some { f with rdxError := f.errorStored }
  | .loadUserStack => some { f with rspUser := f.userSaved, depth := none }
  | .sysret => if f.rspUser ∧ f.rdxError then some f else none

/-- What is known before any instruction of a call. -/
def CallFacts.entry : CallFacts := ⟨false, true, false, false, none⟩

/-- What is known before the instruction at `pc`. -/
def factsAt (pc : ℕ) : Option CallFacts :=
  (syscallMain.take pc).foldlM (fun f i => i.transfer f) CallFacts.entry

/-- **The code is as it should be**: every instruction is used where it may be. -/
theorem factsAt_isSome : ∀ pc ≤ syscallMain.length, (factsAt pc).isSome := by
  decide +kernel

theorem factsAt_succ {pc : ℕ} {i : Instr} (hi : syscallMain[pc]? = some i) :
    factsAt (pc + 1) = (factsAt pc).bind fun f => i.transfer f := by
  obtain ⟨hlt, hget⟩ := List.getElem?_eq_some_iff.mp hi
  rw [factsAt, List.take_succ_eq_append_getElem hlt, List.foldlM_append, hget]
  simp [factsAt]

/-- Before an instruction something is known, and it is used where it may be. -/
theorem exists_transfer {pc : ℕ} {i : Instr} (hi : syscallMain[pc]? = some i) :
    ∃ f f', factsAt pc = some f ∧ i.transfer f = some f' ∧ factsAt (pc + 1) = some f' := by
  have hlt := (List.getElem?_eq_some_iff.mp hi).1
  obtain ⟨f, hf⟩ := Option.isSome_iff_exists.mp (factsAt_isSome pc hlt.le)
  obtain ⟨f', hf'⟩ := Option.isSome_iff_exists.mp (factsAt_isSome (pc + 1) hlt)
  have hsucc := factsAt_succ hi
  rw [hf, hf', Option.bind_some] at hsucc
  exact ⟨f, f', hf, hsucc.symm, hf'⟩

/-! ### Each instruction establishes what it says -/

theorem wordAddr_inj {top : Word} {i j : ℕ} (hi : i < 64) (hj : j < 64) :
    wordAddr top i = wordAddr top j ↔ i = j := by
  refine ⟨fun h => ?_, fun h => h ▸ rfl⟩
  simp only [wordAddr] at h
  bv_omega

/-- The words of a frame, newest first, are in memory below `top`. -/
def Intact (stack : Word → Word) (top : Word) (frame : List Word) : Prop :=
  ∀ i v, frame.reverse[i]? = some v → stack (wordAddr top i) = v

theorem Intact.nil {stack : Word → Word} {top : Word} : Intact stack top [] := by
  intro i v h
  simp at h

theorem Intact.push {stack : Word → Word} {top : Word} {frame : List Word}
    (h : Intact stack top frame) (hlen : frame.length < 64) (v : Word) :
    Intact (Function.update stack (wordAddr top frame.length) v) top (v :: frame) := by
  intro i w hi
  rw [List.reverse_cons, List.getElem?_append] at hi
  split at hi
  case isTrue hlt =>
    rw [List.length_reverse] at hlt
    have hne : wordAddr top i ≠ wordAddr top frame.length := by
      rw [Ne, wordAddr_inj (hlt.trans hlen) hlen]
      exact hlt.ne
    rw [Function.update_of_ne hne]
    exact h i w hi
  case isFalse hge =>
    obtain ⟨hi0, rfl⟩ := List.getElem?_eq_some_iff.mp hi
    simp only [List.length_reverse, List.length_singleton] at hge hi0
    obtain rfl : i = frame.length := by omega
    simp

theorem Intact.drop {stack : Word → Word} {top : Word} {frame : List Word}
    (h : Intact stack top frame) (n : ℕ) : Intact stack top (frame.drop n) := by
  intro i v hi
  rw [List.reverse_drop, List.getElem?_take] at hi
  split at hi
  · exact h i v hi
  · cases hi

theorem Intact.congr {stack stack' : Word → Word} {top : Word} {frame : List Word}
    (h : Intact stack top frame)
    (hsame : ∀ i < frame.length, stack' (wordAddr top i) = stack (wordAddr top i)) :
    Intact stack' top frame := by
  intro i v hi
  have hlt := (List.getElem?_eq_some_iff.mp hi).1
  rw [List.length_reverse] at hlt
  rw [hsame i hlt, h i v hi]

/-- What is known holds of the context `t` on the core. -/
structure SyscallCore.Knows (k : SyscallCore) (t : Thread) (f : CallFacts) : Prop where
  userSaved : f.userSaved → k.userStack = t.entered
  rspUser : f.rspUser → t.rsp = t.entered
  errorStored : f.errorStored → k.error = t.stored
  rdxError : f.rdxError → t.regs .rdx = t.stored
  onStack : ∀ d, f.depth = some d →
    t.rsp = k.kernelStack - BitVec.ofNat 64 (8 * d) ∧ t.frame.length = d
  offStack : f.depth = none → t.frame = []
  intact : Intact k.stack k.kernelStack t.frame

/-- A call begins with its own stack pointer and nothing on the kernel stack. -/
theorem SyscallCore.knows_enter (k : SyscallCore) (rip rflags : Word) :
    (k.enter rip rflags).Knows (k.enter rip rflags).running CallFacts.entry := by
  constructor <;> simp [CallFacts.entry, SyscallCore.enter, Intact.nil]

section Instructions
variable {k : SyscallCore} {f f' : CallFacts} {pc : ℕ}

theorem SyscallCore.Knows.push (h : k.Knows k.running f) {o : Operand}
    (hf : (Instr.push o).transfer f = some f') :
    (k.exec pc (.push o)).Knows (k.exec pc (.push o)).running f' := by
  rcases hd : f.depth with _ | d <;> simp only [Instr.transfer, hd] at hf
  · cases hf
  split at hf
  case isFalse => cases hf
  case isTrue hlt =>
    obtain rfl := Option.some.inj hf
    obtain ⟨hrsp, hlen⟩ := h.onStack d hd
    -- the word goes right below those already pushed
    have haddr : k.running.rsp - 8 = wordAddr k.kernelStack k.running.frame.length := by
      rw [hrsp, hlen, wordAddr]
      bv_omega
    refine ⟨?_, ?_, ?_, ?_, ?_, ?_, ?_⟩
    · simpa [SyscallCore.exec] using h.userSaved
    · simp
    · simpa [SyscallCore.exec] using h.errorStored
    · simpa [SyscallCore.exec] using h.rdxError
    · rintro _ ⟨⟩
      refine ⟨?_, ?_⟩
      · simp only [SyscallCore.exec, running_setRunning, setRunning_kernelStack]
        rw [haddr, hlen, wordAddr]
      · simp [SyscallCore.exec, hlen]
    · simp
    · simp only [SyscallCore.exec, running_setRunning, setRunning_kernelStack, setRunning_stack,
        haddr]
      exact h.intact.push (hlen ▸ hlt) _

/-- Moving the stack pointer up over `n` words. -/
theorem onStack_up {top rsp : Word} {frame : List Word} {d n : ℕ} (hn : n ≤ d)
    (h : rsp = top - BitVec.ofNat 64 (8 * d) ∧ frame.length = d) :
    rsp + BitVec.ofNat 64 (8 * n) = top - BitVec.ofNat 64 (8 * (d - n)) ∧
      (frame.drop n).length = d - n := by
  obtain ⟨rfl, rfl⟩ := h
  refine ⟨?_, List.length_drop ..⟩
  have : 8 * frame.length = 8 * (frame.length - n) + 8 * n := by omega
  rw [this, BitVec.ofNat_add]
  bv_omega

theorem SyscallCore.Knows.pop (h : k.Knows k.running f) {r : Reg}
    (hf : (Instr.pop r).transfer f = some f') :
    (k.exec pc (.pop r)).Knows (k.exec pc (.pop r)).running f' := by
  rcases hd : f.depth with _ | _ | d <;> simp only [Instr.transfer, hd] at hf
  · cases hf
  · cases hf
  obtain rfl := Option.some.inj hf
  have hup := onStack_up (Nat.le_add_left 1 d) (h.onStack _ hd)
  refine ⟨?_, ?_, ?_, ?_, ?_, ?_, ?_⟩
  · simpa [SyscallCore.exec] using h.userSaved
  · simp
  · simpa [SyscallCore.exec] using h.errorStored
  · intro hr
    simp only [Bool.and_eq_true, decide_eq_true_eq] at hr
    simp only [SyscallCore.exec, running_setRunning]
    rw [Function.update_of_ne hr.2.symm]
    exact h.rdxError hr.1
  · rintro _ ⟨⟩
    simpa [SyscallCore.exec] using hup
  · simp
  · simpa [SyscallCore.exec] using h.intact.drop 1

theorem SyscallCore.Knows.addRsp (h : k.Knows k.running f) {n : ℕ}
    (hf : (Instr.addRsp n).transfer f = some f') :
    (k.exec pc (.addRsp n)).Knows (k.exec pc (.addRsp n)).running f' := by
  rcases hd : f.depth with _ | d <;> simp only [Instr.transfer, hd] at hf
  · cases hf
  split at hf
  case isFalse => cases hf
  case isTrue hn =>
    obtain rfl := Option.some.inj hf
    refine ⟨?_, ?_, ?_, ?_, ?_, ?_, ?_⟩
    · simpa [SyscallCore.exec] using h.userSaved
    · simp
    · simpa [SyscallCore.exec] using h.errorStored
    · simpa [SyscallCore.exec] using h.rdxError
    · rintro _ ⟨⟩
      simpa [SyscallCore.exec] using onStack_up hn (h.onStack d hd)
    · simp
    · simpa [SyscallCore.exec] using h.intact.drop n

theorem SyscallCore.Knows.loadKernelStack (h : k.Knows k.running f)
    (hf : Instr.loadKernelStack.transfer f = some f') :
    (k.exec pc .loadKernelStack).Knows (k.exec pc .loadKernelStack).running f' := by
  simp only [Instr.transfer] at hf
  split at hf
  case isFalse => cases hf
  case isTrue hd =>
    obtain rfl := Option.some.inj hf
    have hnil := h.offStack hd
    refine ⟨?_, ?_, ?_, ?_, ?_, ?_, ?_⟩
    · simpa [SyscallCore.exec] using h.userSaved
    · simp
    · simpa [SyscallCore.exec] using h.errorStored
    · simpa [SyscallCore.exec] using h.rdxError
    · rintro _ ⟨⟩
      simp [SyscallCore.exec, hnil]
    · simp
    · simpa [SyscallCore.exec] using h.intact

/-- **Each instruction establishes what it says**, except for `call` and `sysret`. -/
theorem SyscallCore.Knows.exec (h : k.Knows k.running f) {i : Instr} (hcall : i ≠ .call)
    (hsysret : i ≠ .sysret) (hf : i.transfer f = some f') :
    (k.exec pc i).Knows (k.exec pc i).running f' := by
  cases i with
  | call => exact absurd rfl hcall
  | sysret => exact absurd rfl hsysret
  | push o => exact h.push hf
  | pop r => exact h.pop hf
  | addRsp n => exact h.addRsp hf
  | loadKernelStack => exact h.loadKernelStack hf
  | swapgs | sti | cli | movRdiRsp | storeUserStack | loadError =>
      -- what was known stays, or becomes known of another place
      obtain rfl := Option.some.inj hf
      obtain ⟨h₁, h₂, h₃, h₄, h₅, h₆, h₇⟩ := h
      constructor <;> simpa [SyscallCore.exec]
  | loadUserStack =>
      obtain rfl := Option.some.inj hf
      obtain ⟨h₁, h₂, h₃, h₄, -, -, -⟩ := h
      constructor <;> simp [SyscallCore.exec, Intact.nil, *]
      all_goals simpa

/-- The handler returns with its error in `[gs:16]`, whatever it left in `rdx`. -/
theorem SyscallCore.Knows.handlerReturn (h : k.Knows k.running f)
    (hf : Instr.call.transfer f = some f') (error : Word) (regs : Reg → Word) :
    (k.handlerReturn pc error regs).Knows (k.handlerReturn pc error regs).running f' := by
  obtain rfl := Option.some.inj hf
  obtain ⟨h₁, h₂, -, -, h₅, h₆, h₇⟩ := h
  refine ⟨?_, ?_, fun _ => ?_, nofun, ?_, ?_, ?_⟩
  case refine_3 => simp [SyscallCore.handlerReturn]
  all_goals simpa [SyscallCore.handlerReturn]

/-- Where `sysret` may be used, it gives the context its stack pointer and its
error. -/
theorem SyscallCore.Knows.sysret (h : k.Knows k.running f)
    (hf : Instr.sysret.transfer f = some f') : k.sysret.Right := by
  simp only [Instr.transfer] at hf
  split at hf
  case isFalse => cases hf
  case isTrue hknown => exact ⟨h.rspUser hknown.1, h.rdxError hknown.2⟩

end Instructions

/-- What is known of a context depends only on the slots of the core and on the
words it pushed. -/
theorem SyscallCore.Knows.congr {k k' : SyscallCore} {t : Thread} {f : CallFacts} (h : k.Knows t f)
    (hkernel : k'.kernelStack = k.kernelStack) (huser : k'.userStack = k.userStack)
    (herror : k'.error = k.error)
    (hstack : ∀ i < t.frame.length,
      k'.stack (wordAddr k.kernelStack i) = k.stack (wordAddr k.kernelStack i)) :
    k'.Knows t f := by
  refine ⟨?_, h.rspUser, ?_, h.rdxError, ?_, h.offStack, ?_⟩
  · rw [huser]
    exact h.userSaved
  · rw [herror]
    exact h.errorStored
  · rw [hkernel]
    exact h.onStack
  · rw [hkernel]
    exact h.intact.congr hstack

/-! ### Runs -/

/-- Every context is in user mode. -/
def SyscallCore.Initial (k : SyscallCore) : Prop :=
  (∀ c, (k.threads c).pc = none ∧ (k.threads c).frame = []) ∧ k.returns = []

/-- **System calls do not interfere**: every return to user mode gave the context
its own stack pointer and its own error, the words that a context has on the
kernel stack are those it pushed, and no two contexts have words there. -/
structure SyscallCore.Isolated (k : SyscallCore) : Prop where
  right : ∀ e ∈ k.returns, e.Right
  intact : ∀ c, Intact k.stack k.kernelStack (k.threads c).frame
  disjoint : ∀ c c', c ≠ c' → (k.threads c).frame = [] ∨ (k.threads c').frame = []

/-- What holds in every state if calls are only entered alone. -/
structure SyscallCore.Inv (k : SyscallCore) : Prop where
  single : ∀ c c', (k.threads c).pc ≠ none → (k.threads c').pc ≠ none → c = c'
  idle : ∀ c, (k.threads c).pc = none → (k.threads c).frame = []
  inside : ∀ c pc, (k.threads c).pc = some pc →
    ∃ f, factsAt pc = some f ∧ k.Knows (k.threads c) f
  right : ∀ e ∈ k.returns, e.Right

section Runs
variable {k k' : SyscallCore}

theorem SyscallCore.Initial.inv (h : k.Initial) : k.Inv where
  single c _ hc := absurd (h.1 c).1 hc
  idle c _ := (h.1 c).2
  inside c pc hpc := by
    rw [(h.1 c).1] at hpc
    cases hpc
  right e he := by
    rw [h.2] at he
    cases he

theorem SyscallCore.Inv.isolated (h : k.Inv) : k.Isolated where
  right := h.right
  intact c := by
    rcases hpc : (k.threads c).pc with _ | pc
    · rw [h.idle c hpc]
      exact Intact.nil
    · obtain ⟨f, -, hknows⟩ := h.inside c pc hpc
      exact hknows.intact
  disjoint c c' hne := by
    by_contra hboth
    rw [not_or] at hboth
    exact hne (h.single c c' (mt (h.idle c) hboth.1) (mt (h.idle c') hboth.2))

/-- While a context is inside a call and running, it is alone. -/
theorem SyscallCore.Inv.alone (h : k.Inv) {pc : ℕ} (hpc : k.running.pc = some pc) : k.Alone := by
  intro c hc
  by_contra hin
  exact hc (h.single c k.current hin (by rw [← SyscallCore.running, hpc]; nofun))

/-- What the running context does, if it is alone, keeps the invariant when it
does so for the context itself. -/
theorem SyscallCore.Inv.of_running (h : k.Inv) (halone : k.Alone)
    (hcur : k'.current = k.current) (hthreads : ∀ c, c ≠ k.current → k'.threads c = k.threads c)
    (hidle : k'.running.pc = none → k'.running.frame = [])
    (hinside : ∀ pc, k'.running.pc = some pc → ∃ f, factsAt pc = some f ∧ k'.Knows k'.running f)
    (hright : ∀ e ∈ k'.returns, e.Right) : k'.Inv := by
  have hother : ∀ c, (k'.threads c).pc ≠ none → c = k'.current := by
    intro c hc
    by_contra hne
    rw [hcur] at hne
    exact hc (by rw [hthreads c hne, halone c hne])
  refine ⟨fun c c' hc hc' => (hother c hc).trans (hother c' hc').symm, ?_, ?_, hright⟩
  · intro c hc
    rcases eq_or_ne c k'.current with rfl | hne
    · exact hidle hc
    · rw [hcur] at hne
      rw [hthreads c hne] at hc ⊢
      exact h.idle c hc
  · intro c pc hc
    obtain rfl := hother c (by rw [hc]; nofun)
    exact hinside pc hc

/-- **Executing an instruction** keeps the invariant. -/
theorem SyscallCore.Inv.exec (h : k.Inv) {pc : ℕ} {i : Instr} (hpc : k.running.pc = some pc)
    (hi : syscallMain[pc]? = some i) (hcall : i ≠ .call) : (k.exec pc i).Inv := by
  obtain ⟨f, f', hf, htransfer, hf'⟩ := exists_transfer hi
  obtain ⟨_, hg, hknows⟩ := h.inside k.current pc hpc
  obtain rfl : f = _ := Option.some.inj (hf.symm.trans hg)
  rcases eq_or_ne i .sysret with rfl | hsysret
  · refine h.of_running (h.alone hpc) rfl (fun c hc => Function.update_of_ne hc ..) ?_ ?_ ?_
    · simp [SyscallCore.exec]
    · simp [SyscallCore.exec]
    · intro e he
      rcases List.mem_append.mp he with he | he
      · exact h.right e he
      · rw [List.mem_singleton.mp he]
        exact hknows.sysret htransfer
  · have hnext : (k.exec pc i).running.pc = some (pc + 1) := by
      cases i <;> first | contradiction | simp [SyscallCore.exec]
    have hcur : (k.exec pc i).current = k.current := by
      cases i <;> rfl
    have hreturns : (k.exec pc i).returns = k.returns := by
      cases i <;> first | contradiction | rfl
    have hthreads : ∀ c, c ≠ k.current → (k.exec pc i).threads c = k.threads c := by
      intro c hc
      cases i <;> exact Function.update_of_ne hc ..
    refine h.of_running (h.alone hpc) hcur hthreads ?_ ?_ (hreturns ▸ h.right)
    · rw [hnext]
      nofun
    · rw [hnext]
      rintro _ ⟨⟩
      exact ⟨f', hf', hknows.exec hcall hsysret htransfer⟩

/-- A step that leaves the slots of the core and the contexts inside a call as
they are, and the words on the stack, keeps the invariant. -/
theorem SyscallCore.Inv.of_slots (h : k.Inv)
    (hinside : ∀ c, (k.threads c).pc ≠ none → k'.threads c = k.threads c)
    (hsame : ∀ c, (k'.threads c).pc = (k.threads c).pc ∧
      (k'.threads c).frame = (k.threads c).frame)
    (hkernel : k'.kernelStack = k.kernelStack) (huser : k'.userStack = k.userStack)
    (herror : k'.error = k.error)
    (hstack : ∀ c, ∀ i < (k.threads c).frame.length,
      k'.stack (wordAddr k.kernelStack i) = k.stack (wordAddr k.kernelStack i))
    (hreturns : k'.returns = k.returns) : k'.Inv := by
  refine ⟨?_, ?_, ?_, hreturns ▸ h.right⟩
  · intro c c' hc hc'
    rw [(hsame _).1] at hc hc'
    exact h.single c c' hc hc'
  · intro c hc
    rw [(hsame c).1] at hc
    rw [(hsame c).2, h.idle c hc]
  · intro c pc hc
    rw [(hsame c).1] at hc
    obtain ⟨f, hf, hknows⟩ := h.inside c pc hc
    rw [hinside c (by rw [hc]; nofun)]
    exact ⟨f, hf, hknows.congr hkernel huser herror (hstack c)⟩

/-- What the running context does with the stack spares the words of all. -/
theorem SyscallCore.Inv.keeps (h : k.Inv) {stack : Word → Word} (hkeeps : k.KeepsFrame stack)
    (huser : k.running.pc = none → stack = k.stack) (c : ℕ) :
    ∀ i < (k.threads c).frame.length,
      stack (wordAddr k.kernelStack i) = k.stack (wordAddr k.kernelStack i) := by
  intro i hi
  rcases hpc : k.running.pc with _ | pc
  · rw [huser hpc]
  rcases eq_or_ne c k.current with rfl | hne
  · exact hkeeps i hi
  · -- another context is in user mode and has no words
    rw [h.idle c (h.alone hpc c hne)] at hi
    exact absurd hi (Nat.not_lt_zero i)

/-- **Every step keeps the invariant**, if a call is only entered alone. -/
theorem SyscallCore.Inv.step (h : k.Inv) (hstep : Step Alone k k') : k'.Inv := by
  cases hstep with
  | enter rip rflags hpc halone =>
      refine h.of_running halone rfl (fun c hc => Function.update_of_ne hc ..) ?_ ?_ h.right
      · simp [SyscallCore.enter]
      · intro pc hpc'
        simp only [SyscallCore.enter, running_setRunning, Option.some.injEq] at hpc'
        subst hpc'
        exact ⟨_, rfl, k.knows_enter rip rflags⟩
  | exec hpc hi hcall => exact h.exec hpc hi hcall
  | @handlerReturn pc error regs hpc hi =>
      obtain ⟨f, f', hf, htransfer, hf'⟩ := exists_transfer hi
      obtain ⟨_, hg, hknows⟩ := h.inside k.current pc hpc
      obtain rfl : f = _ := Option.some.inj (hf.symm.trans hg)
      refine h.of_running (h.alone hpc) rfl (fun c hc => Function.update_of_ne hc ..) ?_ ?_ h.right
      · simp [SyscallCore.handlerReturn]
      · intro pc' hpc'
        simp only [SyscallCore.handlerReturn, running_setRunning, Option.some.injEq] at hpc'
        subst hpc'
        exact ⟨f', hf', hknows.handlerReturn htransfer error regs⟩
  | @leave pc regs rsp hpc hi =>
      refine h.of_running (h.alone hpc) rfl (fun c hc => Function.update_of_ne hc ..) ?_ ?_ h.right
      · simp [SyscallCore.leave]
      · simp [SyscallCore.leave]
  | user regs rsp hpc =>
      refine h.of_slots (fun c hc => ?_) (fun c => ?_) rfl rfl rfl (fun _ _ _ => rfl) rfl
      · refine setRunning_threads ?_
        rintro rfl
        exact hc hpc
      · rcases eq_or_ne c k.current with rfl | hne
        · rw [← running, ← setRunning_current, ← running, running_setRunning]
          exact ⟨rfl, rfl⟩
        · rw [setRunning_threads hne]
          exact ⟨rfl, rfl⟩
  | work stack hpc hi hkeeps =>
      refine h.of_slots (fun _ _ => rfl) (fun _ => ⟨rfl, rfl⟩) rfl rfl rfl (h.keeps hkeeps ?_) rfl
      rw [hpc]
      nofun
  | switch next stack hintr huser hkeeps =>
      exact h.of_slots (fun _ _ => rfl) (fun _ => ⟨rfl, rfl⟩) rfl rfl rfl (h.keeps hkeeps huser) rfl

end Runs

/-! ### Schedules -/

/-- What can happen on a core, where nothing but `syscall_main` uses the kernel
stack. -/
inductive CoreAct where
  | enter (rip rflags : Word)
  | exec
  | handlerReturn (error : Word)
  | switch (next : ℕ)

/-- The core after an act, if the act is possible. -/
def SyscallCore.act (k : SyscallCore) : CoreAct → Option SyscallCore
  | .enter rip rflags => if k.running.pc = none then some (k.enter rip rflags) else none
  | .exec =>
      match k.running.pc with
      | some pc =>
          match syscallMain[pc]? with
          | some i => if i ≠ .call then some (k.exec pc i) else none
          | none => none
      | none => none
  | .handlerReturn error =>
      match k.running.pc with
      | some pc =>
          if syscallMain[pc]? = some .call then some (k.handlerReturn pc error k.running.regs)
          else none
      | none => none
  | .switch next => if k.running.interrupts then some { k with current := next } else none

/-- The core after a list of acts. -/
def SyscallCore.acts (k : SyscallCore) (as : List CoreAct) : Option SyscallCore :=
  as.foldlM SyscallCore.act k

/-- **What acts do are steps**, if what they enter may be entered. -/
theorem SyscallCore.act_step {Allowed : SyscallCore → Prop} {k k' : SyscallCore} {a : CoreAct}
    (hallowed : ∀ rip rflags, a = .enter rip rflags → Allowed k) (hact : k.act a = some k') :
    Step Allowed k k' := by
  cases a with
  | enter rip rflags =>
      simp only [act, Option.ite_none_right_eq_some] at hact
      obtain ⟨hpc, ⟨⟩⟩ := hact
      exact .enter rip rflags hpc (hallowed _ _ rfl)
  | exec =>
      rcases hpc : k.running.pc with _ | pc <;> simp only [act, hpc] at hact
      · cases hact
      rcases hi : syscallMain[pc]? with _ | i <;> simp only [hi] at hact
      · cases hact
      rw [Option.ite_none_right_eq_some] at hact
      obtain ⟨hcall, ⟨⟩⟩ := hact
      exact .exec hpc hi hcall
  | handlerReturn error =>
      rcases hpc : k.running.pc with _ | pc <;> simp only [act, hpc] at hact
      · cases hact
      rw [Option.ite_none_right_eq_some] at hact
      obtain ⟨hi, ⟨⟩⟩ := hact
      exact .handlerReturn error _ hpc hi
  | switch next =>
      simp only [act, Option.ite_none_right_eq_some] at hact
      obtain ⟨hintr, ⟨⟩⟩ := hact
      exact .switch next k.stack hintr (fun _ => rfl) (fun _ _ => rfl)

theorem SyscallCore.acts_run {Allowed : SyscallCore → Prop} {as : List CoreAct} :
    ∀ {k k' : SyscallCore}, (∀ rip rflags, .enter rip rflags ∈ as → ∀ k, Allowed k) →
      k.acts as = some k' → Run (Step Allowed) k k' := by
  induction as with
  | nil =>
      rintro k _ - ⟨⟩
      exact .refl
  | cons a as ih =>
      intro k k' hallowed hacts
      obtain ⟨k₁, hact, hrest⟩ := Option.bind_eq_some_iff.mp hacts
      refine .head (act_step ?_ hact) (ih ?_ hrest)
      · rintro rip rflags rfl
        exact hallowed rip rflags List.mem_cons_self k
      · exact fun rip rflags h => hallowed rip rflags (List.mem_cons_of_mem a h)

/-! ### Isolation -/

/-- **Isolation of system calls.**  In every run in which a system call is entered
only while no other context is inside one, every context returns to user mode
with the stack pointer it entered with and with the error its own handler stored,
and its words on the kernel stack stay as it pushed them. -/
theorem syscall_run_isolated {k k' : SyscallCore} (hinit : k.Initial)
    (hrun : Run (SyscallCore.Step SyscallCore.Alone) k k') : k'.Isolated :=
  (Run.invariant (fun _ _ h hstep => h.step hstep) hinit.inv hrun).isolated

/-- Two contexts in user mode, with different stacks. -/
def twoContexts : SyscallCore where
  threads c := ⟨none, fun _ => 0, if c = 0 then 0x7000 else 0x8000, true, [], 0, 0⟩
  current := 0
  kernelStack := 0x100000
  userStack := 0
  error := 0
  stack _ := 0
  returns := []

theorem twoContexts_initial : twoContexts.Initial := ⟨fun _ => ⟨rfl, rfl⟩, rfl⟩

/-- A call that is switched out and in again returns as it should. -/
theorem syscall_run_isolated_switched :
    ∃ k, twoContexts.Initial ∧ Run (SyscallCore.Step SyscallCore.Alone) twoContexts k ∧
      k.returns = [⟨0, 0x7000, 5, 0x7000, 5⟩] ∧ k.Isolated := by
  have hreturns : ((twoContexts.enter 0x401000 0x202).acts (List.replicate 29 CoreAct.exec ++
      [CoreAct.handlerReturn 5, CoreAct.switch 1, CoreAct.switch 0] ++
      List.replicate 23 CoreAct.exec)).map (·.returns) =
      some [⟨0, 0x7000, 5, 0x7000, 5⟩] := by
    decide +kernel
  obtain ⟨k, hacts, hk⟩ := Option.map_eq_some_iff.mp hreturns
  have hrun : Run (SyscallCore.Step SyscallCore.Alone) twoContexts k := by
    refine .head (.enter 0x401000 0x202 rfl fun _ _ => rfl) (SyscallCore.acts_run ?_ hacts)
    intro rip rflags hmem
    simp at hmem
  exact ⟨k, twoContexts_initial, hrun, hk, syscall_run_isolated twoContexts_initial hrun⟩

/-- A call up to the return of its handler. -/
def callTo (rip error : Word) : List CoreAct :=
  CoreAct.enter rip 0x202 :: (List.replicate 29 CoreAct.exec ++ [CoreAct.handlerReturn error])

/-- The first context is switched out when its handler has returned, the second
makes a system call up to the same point, and the first goes on. -/
def overlappingCalls : List CoreAct :=
  callTo 0x401000 5 ++ CoreAct.switch 1 :: callTo 0x402000 7
    ++ CoreAct.switch 0 :: List.replicate 23 CoreAct.exec

/-- **A context returns on another's stack.**  The first context gets the stack
pointer and the error of the second, and goes on at the second's address. -/
theorem syscall_steals_stack :
    ∃ k, twoContexts.Initial ∧ Run (SyscallCore.Step fun _ => True) twoContexts k ∧
      k.returns = [⟨0, 0x7000, 5, 0x8000, 7⟩] ∧ (k.threads 0).regs .rcx = 0x402000 ∧
      ¬ k.Isolated := by
  have hresult : (twoContexts.acts overlappingCalls).map
      (fun k => (k.returns, (k.threads 0).regs .rcx)) =
      some ([⟨0, 0x7000, 5, 0x8000, 7⟩], 0x402000) := by
    decide +kernel
  obtain ⟨k, hacts, hk⟩ := Option.map_eq_some_iff.mp hresult
  obtain ⟨hreturns, hrcx⟩ := Prod.mk.inj hk
  refine ⟨k, twoContexts_initial, SyscallCore.acts_run (fun _ _ _ _ => trivial) hacts, hreturns,
    hrcx, fun h => ?_⟩
  have hright := h.right ⟨0, 0x7000, 5, 0x8000, 7⟩ (hreturns ▸ List.mem_singleton_self _)
  exact absurd hright.1 (by decide)

end Rock
