/-
Rock/Interrupt.lean

The way into the kernel and back by an interrupt: the gates of the IDT
(kernel/arch/x86/idt.c), what the processor pushes, the stubs and `isr_handler`
(kernel/arch/x86/isr.asm), and the frame of `isr_handler_main`.

The stubs are code; what the C code does is a predicate on what it leaves alone (`Cpu.Keeps`):
the segments, the GS bases and the stack above its own frames.  While it runs it may be
interrupted in its turn, to any depth (`Cpu.Interrupted`).  `Cpu.interrupts_resume` says that an
interrupt from which `isr_handler_main` returns leaves the interrupted code as it was.

The processor pushes an error code for some exceptions, and a stub of the other kind pushes a
zero in its place.  The stubs of four exceptions push a zero on top of an error code, and what
`isr_handler_main` takes for the interrupted code is then off by a word (`isr_frame_exact`).
-/
import Rock.Notification
import Rock.Syscall

namespace Rock

/-! ### Gates -/

/-- `struct idt_descriptor`. -/
structure IdtDescriptor where
  offsetLow : BitVec 16
  cs : BitVec 16
  ist : BitVec 8
  attributes : BitVec 8
  offsetMid : BitVec 16
  offsetHigh : BitVec 32
  zero : BitVec 32
  deriving DecidableEq, Repr

/-- `set_idt_descriptor`. -/
def setIdtDescriptor (cs : BitVec 16) (ist attributes : BitVec 8) (offset : Word) :
    IdtDescriptor where
  offsetLow := (offset &&& 0xffff).setWidth 16
  cs := cs
  ist := ist
  attributes := attributes
  offsetMid := (offset >>> 16 &&& 0xffff).setWidth 16
  offsetHigh := (offset >>> 32 &&& 0xffffffff).setWidth 32
  zero := 0

/-- What the processor takes from a descriptor. -/
structure Gate where
  offset : Word
  selector : BitVec 16
  ist : BitVec 3
  kind : BitVec 4
  dpl : BitVec 2
  present : Bool
  deriving DecidableEq, Repr

def IdtDescriptor.gate (d : IdtDescriptor) : Gate where
  offset := d.offsetHigh ++ d.offsetMid ++ d.offsetLow
  selector := d.cs
  ist := d.ist.extractLsb' 0 3
  kind := d.attributes.extractLsb' 0 4
  dpl := d.attributes.extractLsb' 5 2
  present := d.attributes.getLsbD 7

theorem setWidth_and_low (x : Word) {n : ℕ} (hn : n ≤ 64) :
    (x &&& BitVec.ofNat 64 (2 ^ n - 1)).setWidth n = x.setWidth n := by
  have hpos := Nat.two_pow_pos n
  have hpow : 2 ^ n ≤ 2 ^ 64 := Nat.pow_le_pow_right (by norm_num) hn
  have hmask : (2 ^ n - 1) % 2 ^ 64 = 2 ^ n - 1 := Nat.mod_eq_of_lt (by omega)
  apply BitVec.eq_of_toNat_eq
  rw [BitVec.toNat_setWidth, BitVec.toNat_setWidth, BitVec.toNat_and, BitVec.toNat_ofNat, hmask,
    Nat.and_two_pow_sub_one_eq_mod, Nat.mod_mod]

/-- **The gate leads to the address it was set to.** -/
theorem gate_offset (cs : BitVec 16) (ist attributes : BitVec 8) (offset : Word) :
    (setIdtDescriptor cs ist attributes offset).gate.offset = offset := by
  have h16 : ∀ x : Word, (x &&& 0xffff).setWidth 16 = x.setWidth 16 := fun x =>
    setWidth_and_low x (by norm_num)
  have h32 : ∀ x : Word, (x &&& 0xffffffff).setWidth 32 = x.setWidth 32 := fun x =>
    setWidth_and_low x (by norm_num)
  simp only [setIdtDescriptor, IdtDescriptor.gate, h16, h32]
  ext i hi
  simp only [BitVec.getElem_append, BitVec.getElem_setWidth, BitVec.getLsbD_ushiftRight]
  split_ifs
  · exact BitVec.getLsbD_eq_getElem hi
  · rw [show 16 + (i - 16) = i by omega]
    exact BitVec.getLsbD_eq_getElem hi
  · rw [show 32 + (i - 16 - 16) = i by omega]
    exact BitVec.getLsbD_eq_getElem hi

/-- The gates that `idt_init` sets, for stubs at the given addresses. -/
def idtInit (stubs : BitVec 8 → Word) (n : BitVec 8) : IdtDescriptor :=
  setIdtDescriptor 0x28 0 0x8e (stubs n)

/-- Every gate is a present interrupt gate of the kernel, to the stub of its own vector, on no
stack of its own. -/
theorem idtInit_gate (stubs : BitVec 8 → Word) (n : BitVec 8) :
    (idtInit stubs n).gate = ⟨stubs n, 0x28, 0, 0xe, 0, true⟩ := by
  have hoff : (idtInit stubs n).gate.offset = stubs n := gate_offset 0x28 0 0x8e (stubs n)
  have hrest : (idtInit stubs n).gate = ⟨(idtInit stubs n).gate.offset, 0x28, 0, 0xe, 0, true⟩ := by
    simp only [idtInit, setIdtDescriptor, IdtDescriptor.gate, Gate.mk.injEq, true_and]
    decide
  rw [hrest, hoff]

/-! ### The processor -/

/-- The state that an interrupt has to leave alone.  `mem` has the 64-bit words of the stacks at
their addresses. -/
structure Cpu where
  regs : Reg → Word
  rip : Word
  cs : Word
  rflags : Word
  rsp : Word
  ss : Word
  activeGs : Word
  kernelGs : Word
  mem : Word → Word

namespace Cpu

/-- The interrupted code has lower privilege, `cs & 3`. -/
def Outer (s : Cpu) : Prop := s.cs &&& 3 ≠ 0

instance (s : Cpu) : Decidable s.Outer := inferInstanceAs (Decidable (_ ≠ _))

def push (s : Cpu) (w : Word) : Cpu :=
  { s with rsp := s.rsp - 8, mem := Function.update s.mem (s.rsp - 8) w }

def pushAll (s : Cpu) (ws : List Word) : Cpu := ws.foldl push s

def swapgs (s : Cpu) : Cpu := { s with activeGs := s.kernelGs, kernelGs := s.activeGs }

end Cpu

/-- The exceptions for which the processor pushes an error code. -/
def pushesError (n : BitVec 8) : Bool :=
  n ∈ ([8, 10, 11, 12, 13, 14, 17, 21, 29, 30] : List (BitVec 8))

/-- The stack on which the frame is pushed: the one of the TSS if the privilege changes. -/
def Cpu.frameStack (s : Cpu) (rsp0 : Word) : Word := if s.Outer then rsp0 else s.rsp

/-- What the processor pushes. -/
def Cpu.hardwareFrame (s : Cpu) (n : BitVec 8) (error : Word) : List Word :=
  [s.ss, s.rsp, s.rflags, s.cs, s.rip] ++ if pushesError n then [error] else []

/-- **The delivery of vector `n`** through an interrupt gate.  The stack is aligned to 16 bytes;
`TF`, `IF`, `NT` and `RF` are cleared. -/
def Cpu.deliver (s : Cpu) (gate : Gate) (rsp0 : Word) (n : BitVec 8) (error : Word) : Cpu :=
  { ({ s with rsp := s.frameStack rsp0 &&& ~~~0xf }).pushAll (s.hardwareFrame n error) with
    rip := gate.offset
    cs := gate.selector.setWidth 64
    ss := if s.Outer then 0 else s.ss
    rflags := s.rflags &&& ~~~0x14300 }

/-! ### The stubs -/

/-- The instructions of isr.asm. -/
inductive IsrInstr where
  | cld
  | pushImm (w : Word)
  | push (r : Reg)
  | movRdiRsp
  | pop (r : Reg)
  | addRsp (n : Word)
  | iretq
  deriving DecidableEq, Repr

/-- The vectors with an `error_isr` stub. -/
def errorIsr (n : BitVec 8) : Bool := n ∈ ([8, 10, 11, 12, 13, 14] : List (BitVec 8))

/-- The macros `isr` and `error_isr`. -/
def isrStub (n : BitVec 8) : List IsrInstr :=
  if errorIsr n then [.pushImm (n.setWidth 64)] else [.pushImm 0, .pushImm (n.setWidth 64)]

/-- `isr_handler` up to the call of `isr_handler_main`. -/
def isrHandlerEntry : List IsrInstr := .cld :: savedRegs.map .push ++ [.movRdiRsp]

/-- `isr_handler` after the call. -/
def isrHandlerExit : List IsrInstr := savedRegs.reverse.map .pop ++ [.addRsp 16, .iretq]

def Cpu.exec (s : Cpu) : IsrInstr → Cpu
  | .cld => { s with rflags := s.rflags &&& ~~~0x400 }
  | .pushImm w => s.push w
  | .push r => s.push (s.regs r)
  | .movRdiRsp => { s with regs := Function.update s.regs .rdi s.rsp }
  | .pop r => { s with regs := Function.update s.regs r (s.mem s.rsp), rsp := s.rsp + 8 }
  | .addRsp n => { s with rsp := s.rsp + n }
  | .iretq =>
      { s with
        rip := s.mem s.rsp
        cs := s.mem (s.rsp + 8)
        rflags := s.mem (s.rsp + 16)
        rsp := s.mem (s.rsp + 24)
        ss := s.mem (s.rsp + 32) }

/-- Straight-line code. -/
def Cpu.execAll (s : Cpu) (code : List IsrInstr) : Cpu := code.foldl Cpu.exec s

/-- The state in which `isr_handler_main` is called for vector `n`. -/
def Cpu.enterIsr (s : Cpu) (gate : Gate) (rsp0 : Word) (n : BitVec 8) (error : Word) : Cpu :=
  (s.deliver gate rsp0 n error).execAll (isrStub n ++ isrHandlerEntry)

/-- The `struct registers` at an address. -/
def frameAt (mem : Word → Word) (p : Word) : Registers where
  r15 := mem p
  r14 := mem (p + 8)
  r13 := mem (p + 16)
  r12 := mem (p + 24)
  r11 := mem (p + 32)
  r10 := mem (p + 40)
  r9 := mem (p + 48)
  r8 := mem (p + 56)
  rsi := mem (p + 64)
  rdi := mem (p + 72)
  rbp := mem (p + 80)
  rdx := mem (p + 88)
  rcx := mem (p + 96)
  rbx := mem (p + 104)
  rax := mem (p + 112)
  isrNumber := mem (p + 120)
  errorCode := mem (p + 128)
  rip := mem (p + 136)
  cs := mem (p + 144)
  rflags := mem (p + 152)
  rsp := mem (p + 160)
  ss := mem (p + 168)

/-! ### Words on a stack -/

/-- The words from `sp` upwards. -/
def OnStack (mem : Word → Word) : Word → List Word → Prop
  | _, [] => True
  | sp, w :: ws => mem sp = w ∧ OnStack mem (sp + 8) ws

/-- Writes elsewhere do not change what is on a stack. -/
theorem OnStack.congr {mem mem' : Word → Word} {ws : List Word} {sp : Word}
    (h : OnStack mem sp ws) (htop : sp.toNat + 8 * ws.length ≤ 2 ^ 64)
    (hsame : ∀ a : Word, sp.toNat ≤ a.toNat → a.toNat < sp.toNat + 8 * ws.length →
      mem' a = mem a) : OnStack mem' sp ws := by
  induction ws generalizing sp with
  | nil => trivial
  | cons w ws ih =>
    rw [List.length_cons] at htop hsame
    refine ⟨(hsame sp le_rfl (by omega)).trans h.1, ?_⟩
    rcases ws with - | ⟨w', ws⟩
    · trivial
    · rw [List.length_cons] at htop
      have hnext : (sp + 8).toNat = sp.toNat + 8 := by bv_omega
      refine ih h.2 (by rw [hnext, List.length_cons]; omega) fun a hlow hhigh => hsame a ?_ ?_
      · omega
      · rw [hnext] at hhigh
        omega

namespace Cpu

@[simp] theorem pushAll_nil (s : Cpu) : s.pushAll [] = s := rfl

@[simp] theorem pushAll_cons (s : Cpu) (w : Word) (ws : List Word) :
    s.pushAll (w :: ws) = (s.push w).pushAll ws := rfl

theorem pushAll_append (s : Cpu) (ws ws' : List Word) :
    s.pushAll (ws ++ ws') = (s.pushAll ws).pushAll ws' := List.foldl_append ..

theorem execAll_append (s : Cpu) (code code' : List IsrInstr) :
    s.execAll (code ++ code') = (s.execAll code).execAll code' := List.foldl_append ..

theorem execAll_cons (s : Cpu) (i : IsrInstr) (code : List IsrInstr) :
    s.execAll (i :: code) = (s.exec i).execAll code := rfl

/-- Pushing leaves everything else alone. -/
theorem pushAll_eq (s : Cpu) (ws : List Word) :
    s.pushAll ws = { s with rsp := (s.pushAll ws).rsp, mem := (s.pushAll ws).mem } := by
  induction ws generalizing s with
  | nil => rfl
  | cons w ws ih =>
    rw [pushAll_cons, ih (s.push w)]
    rfl

/-- **The words that are pushed are on the stack**, on top of what was there. -/
theorem pushAll_spec (s : Cpu) (ws : List Word) (hroom : 8 * ws.length ≤ s.rsp.toNat) :
    (s.pushAll ws).rsp.toNat = s.rsp.toNat - 8 * ws.length ∧
      (∀ a : Word, s.rsp.toNat ≤ a.toNat → (s.pushAll ws).mem a = s.mem a) ∧
      ∀ vs, s.rsp.toNat + 8 * vs.length ≤ 2 ^ 64 → OnStack s.mem s.rsp vs →
        OnStack (s.pushAll ws).mem (s.pushAll ws).rsp (ws.reverse ++ vs) := by
  induction ws generalizing s with
  | nil => exact ⟨by simp, fun _ _ => rfl, fun _ _ h => h⟩
  | cons w ws ih =>
    rw [List.length_cons] at hroom
    have hrsp : (s.push w).rsp.toNat = s.rsp.toNat - 8 := by
      show (s.rsp - 8).toNat = _
      bv_omega
    have habove : ∀ a : Word, s.rsp.toNat ≤ a.toNat → (s.push w).mem a = s.mem a := by
      intro a ha
      refine Function.update_of_ne ?_ _ _
      rintro rfl
      have : (s.rsp - 8).toNat = s.rsp.toNat - 8 := hrsp
      omega
    obtain ⟨ih₁, ih₂, ih₃⟩ := ih (s.push w) (by omega)
    refine ⟨by rw [pushAll_cons, ih₁, hrsp, List.length_cons]; omega, fun a ha => ?_,
      fun vs hvs h => ?_⟩
    · rw [pushAll_cons, ih₂ a (by omega), habove a ha]
    · rw [List.reverse_cons, List.append_assoc]
      refine ih₃ (w :: vs) (by rw [List.length_cons]; omega) ⟨Function.update_self .., ?_⟩
      have hback : (s.push w).rsp + 8 = s.rsp := by
        show s.rsp - 8 + 8 = s.rsp
        bv_omega
      rw [hback]
      exact h.congr hvs fun a ha _ => habove a ha

/-- A run of pushes of registers. -/
theorem execAll_push (s : Cpu) (rs : List Reg) :
    s.execAll (rs.map .push) = s.pushAll (rs.map s.regs) := by
  induction rs generalizing s with
  | nil => rfl
  | cons r rs ih => exact ih (s.push (s.regs r))

/-- **A run of pops** loads the registers that were pushed. -/
theorem execAll_pop {v : Reg → Word} (rs : List Reg) (s : Cpu) {vs : List Word}
    (h : OnStack s.mem s.rsp (rs.map v ++ vs)) :
    ∃ sp, s.execAll (rs.map .pop)
        = { s with regs := fun r => if r ∈ rs then v r else s.regs r, rsp := sp } ∧
      OnStack s.mem sp vs := by
  induction rs generalizing s with
  | nil => exact ⟨s.rsp, by simp [execAll], h⟩
  | cons r rs ih =>
    obtain ⟨hr, hrest⟩ := h
    obtain ⟨sp, heq, hsp⟩ := ih (s.exec (.pop r)) hrest
    refine ⟨sp, ?_, hsp⟩
    show (s.exec (.pop r)).execAll (rs.map .pop) = _
    rw [heq]
    simp only [exec, hr]
    congr 1
    funext r'
    by_cases hin : r' ∈ rs
    · simp [hin]
    · rcases eq_or_ne r' r with rfl | hne
      · simp [hin]
      · simp [hin, hne]

/-! ### The frame of `isr_handler_main` -/

/-- What a stub pushes. -/
def stubWords (n : BitVec 8) : List Word :=
  if errorIsr n then [n.setWidth 64] else [0, n.setWidth 64]

theorem execAll_isrStub (s : Cpu) (n : BitVec 8) :
    s.execAll (isrStub n) = s.pushAll (stubWords n) := by
  unfold isrStub stubWords
  split_ifs <;> rfl

/-- All words of the frame, in the order in which they are pushed. -/
def isrWords (s : Cpu) (n : BitVec 8) (error : Word) : List Word :=
  s.hardwareFrame n error ++ stubWords n ++ savedRegs.map s.regs

theorem isrWords_length (s : Cpu) (n : BitVec 8) (error : Word) :
    (s.isrWords n error).length ≤ 23 := by
  unfold isrWords stubWords hardwareFrame
  split_ifs <;> simp [savedRegs]

theorem pushAll_control (s : Cpu) (ws : List Word) (rip cs ss rflags : Word) :
    ({ s with rip := rip, cs := cs, ss := ss, rflags := rflags }).pushAll ws
      = { s.pushAll ws with rip := rip, cs := cs, ss := ss, rflags := rflags } := by
  induction ws generalizing s with
  | nil => rfl
  | cons w ws ih => exact ih (s.push w)

theorem execAll_isrHandlerEntry (s : Cpu) :
    s.execAll isrHandlerEntry =
      { s with
        regs := Function.update s.regs .rdi (s.pushAll (savedRegs.map s.regs)).rsp
        rflags := s.rflags &&& ~~~0x400
        rsp := (s.pushAll (savedRegs.map s.regs)).rsp
        mem := (s.pushAll (savedRegs.map s.regs)).mem } := by
  have hcontrol : (s.exec .cld).pushAll (savedRegs.map s.regs)
      = { s.pushAll (savedRegs.map s.regs) with
          rip := s.rip, cs := s.cs, ss := s.ss, rflags := s.rflags &&& ~~~0x400 } :=
    pushAll_control s (savedRegs.map s.regs) s.rip s.cs s.ss (s.rflags &&& ~~~0x400)
  have hpush : (s.exec .cld).execAll (savedRegs.map .push)
      = (s.exec .cld).pushAll (savedRegs.map s.regs) := execAll_push (s.exec .cld) savedRegs
  rw [isrHandlerEntry, List.cons_append, execAll_cons, execAll_append, hpush, hcontrol,
    pushAll_eq s]
  rfl

/-- The stack pointer of the frame's top. -/
def frameTop (s : Cpu) (rsp0 : Word) : Word := s.frameStack rsp0 &&& ~~~0xf

/-- **Up to the call of `isr_handler_main`** the words of the frame have been pushed. -/
theorem enterIsr_eq (s : Cpu) (gate : Gate) (rsp0 : Word) (n : BitVec 8) (error : Word) :
    s.enterIsr gate rsp0 n error =
      { s with
        regs := Function.update s.regs .rdi
          (({ s with rsp := s.frameTop rsp0 }).pushAll (s.isrWords n error)).rsp
        rip := gate.offset
        cs := gate.selector.setWidth 64
        ss := if s.Outer then 0 else s.ss
        rflags := s.rflags &&& ~~~0x14300 &&& ~~~0x400
        rsp := (({ s with rsp := s.frameTop rsp0 }).pushAll (s.isrWords n error)).rsp
        mem := (({ s with rsp := s.frameTop rsp0 }).pushAll (s.isrWords n error)).mem } := by
  have hall : ({ s with rsp := s.frameTop rsp0 }).pushAll (s.isrWords n error)
      = (({ s with rsp := s.frameTop rsp0 }).pushAll
          (s.hardwareFrame n error ++ stubWords n)).pushAll (savedRegs.map s.regs) := by
    rw [isrWords, pushAll_append]
  have hstub : (s.deliver gate rsp0 n error).execAll (isrStub n)
      = { ({ s with rsp := s.frameTop rsp0 }).pushAll
            (s.hardwareFrame n error ++ stubWords n) with
          rip := gate.offset
          cs := gate.selector.setWidth 64
          ss := if s.Outer then 0 else s.ss
          rflags := s.rflags &&& ~~~0x14300 } := by
    rw [execAll_isrStub, deliver, pushAll_control, pushAll_append]
    rfl
  rw [enterIsr, execAll_append, hstub, hall]
  -- of the state before, pushing changes the stack only
  rw [pushAll_eq _ (s.hardwareFrame n error ++ stubWords n)]
  rw [execAll_isrHandlerEntry, pushAll_control]

/-- There is room for the frame on its stack, which ends at `top`. -/
structure Room (s : Cpu) (rsp0 top : Word) : Prop where
  below : 8 * 23 ≤ (s.frameTop rsp0).toNat
  above : (s.frameStack rsp0).toNat ≤ top.toNat

theorem frameTop_le (s : Cpu) (rsp0 : Word) :
    (s.frameTop rsp0).toNat ≤ (s.frameStack rsp0).toNat := by
  rw [frameTop, BitVec.toNat_and]
  exact Nat.and_le_left

/-- **The stack at the call of `isr_handler_main`.** -/
theorem enterIsr_spec {s : Cpu} {rsp0 top : Word} (hroom : s.Room rsp0 top) (gate : Gate)
    (n : BitVec 8) (error : Word) :
    (s.enterIsr gate rsp0 n error).rsp.toNat + 8 * (s.isrWords n error).length
        = (s.frameTop rsp0).toNat ∧
      (∀ a : Word, (s.frameTop rsp0).toNat ≤ a.toNat →
        (s.enterIsr gate rsp0 n error).mem a = s.mem a) ∧
      OnStack (s.enterIsr gate rsp0 n error).mem (s.enterIsr gate rsp0 n error).rsp
        (s.isrWords n error).reverse := by
  have hlen := s.isrWords_length n error
  have hbelow := hroom.below
  have hfit : 8 * (s.isrWords n error).length ≤ (s.frameTop rsp0).toNat := by omega
  obtain ⟨hrsp, hmem, hwords⟩ :=
    pushAll_spec { s with rsp := s.frameTop rsp0 } (s.isrWords n error) hfit
  have hstack := hwords [] (by simp [(s.frameTop rsp0).isLt.le]) trivial
  rw [enterIsr_eq]
  refine ⟨?_, hmem, by simpa using hstack⟩
  show (({ s with rsp := s.frameTop rsp0 }).pushAll (s.isrWords n error)).rsp.toNat + _ = _
  rw [hrsp]
  exact Nat.sub_add_cancel hfit

end Cpu

/-- The frame is what is on the stack. -/
theorem frameAt_eq {mem : Word → Word} {p : Word} {v : Reg → Word}
    {isr error rip cs rflags rsp ss : Word} {rest : List Word}
    (h : OnStack mem p (savedRegs.reverse.map v
      ++ ([isr, error, rip, cs, rflags, rsp, ss] ++ rest))) :
    frameAt mem p =
      { r15 := v .r15, r14 := v .r14, r13 := v .r13, r12 := v .r12, r11 := v .r11, r10 := v .r10
        r9 := v .r9, r8 := v .r8, rsi := v .rsi, rdi := v .rdi, rbp := v .rbp, rdx := v .rdx
        rcx := v .rcx, rbx := v .rbx, rax := v .rax, isrNumber := isr, errorCode := error
        rip := rip, cs := cs, rflags := rflags, rsp := rsp, ss := ss } := by
  simp only [savedRegs, List.reverse_cons, List.reverse_nil, List.nil_append, List.cons_append,
    List.map_cons, List.map_nil, OnStack, BitVec.add_assoc, BitVec.reduceAdd,
    BitVec.ofNat_eq_ofNat] at h
  simp only [frameAt, BitVec.ofNat_eq_ofNat, h]

/-- What `isr_handler_main` is to know about the interrupted code. -/
def Cpu.registers (s : Cpu) (n : BitVec 8) (error : Word) : Registers where
  r15 := s.regs .r15
  r14 := s.regs .r14
  r13 := s.regs .r13
  r12 := s.regs .r12
  r11 := s.regs .r11
  r10 := s.regs .r10
  r9 := s.regs .r9
  r8 := s.regs .r8
  rsi := s.regs .rsi
  rdi := s.regs .rdi
  rbp := s.regs .rbp
  rdx := s.regs .rdx
  rcx := s.regs .rcx
  rbx := s.regs .rbx
  rax := s.regs .rax
  isrNumber := n.setWidth 64
  errorCode := error
  rip := s.rip
  cs := s.cs
  rflags := s.rflags
  rsp := s.rsp
  ss := s.ss

/-- The exceptions with an error code and an `isr` stub. -/
def mispushed : List (BitVec 8) := [17, 21, 29, 30]

theorem pushesError_iff (n : BitVec 8) :
    pushesError n = true ↔ errorIsr n = true ∨ n ∈ mispushed := by
  simp only [pushesError, errorIsr, mispushed, decide_eq_true_eq, List.mem_cons, List.not_mem_nil,
    or_false]
  tauto

theorem errorIsr_of_mem_mispushed {n : BitVec 8} (h : n ∈ mispushed) : errorIsr n = false := by
  simp only [mispushed, List.mem_cons, List.not_mem_nil, or_false] at h
  rcases h with rfl | rfl | rfl | rfl <;> decide

theorem isrWords_reverse {n : BitVec 8} (h : n ∉ mispushed) (s : Cpu) (error : Word) :
    (s.isrWords n error).reverse = savedRegs.reverse.map s.regs
      ++ ([n.setWidth 64, if pushesError n then error else 0, s.rip, s.cs, s.rflags, s.rsp, s.ss]
        ++ []) := by
  have hiff : pushesError n = errorIsr n := by
    have := pushesError_iff n
    rw [Bool.eq_iff_iff]
    tauto
  rw [Cpu.isrWords, Cpu.hardwareFrame, Cpu.stubWords, hiff]
  cases errorIsr n <;> rfl

theorem isrWords_reverse_mispushed {n : BitVec 8} (h : n ∈ mispushed) (s : Cpu) (error : Word) :
    (s.isrWords n error).reverse = savedRegs.reverse.map s.regs
      ++ ([n.setWidth 64, 0, error, s.rip, s.cs, s.rflags, s.rsp] ++ [s.ss]) := by
  rw [Cpu.isrWords, Cpu.hardwareFrame, Cpu.stubWords, errorIsr_of_mem_mispushed h,
    (pushesError_iff n).2 (Or.inr h)]
  rfl

theorem enterIsr_rdi (s : Cpu) (gate : Gate) (rsp0 : Word) (n : BitVec 8) (error : Word) :
    (s.enterIsr gate rsp0 n error).regs .rdi = (s.enterIsr gate rsp0 n error).rsp := by
  rw [Cpu.enterIsr_eq]
  rfl

/-- **The frame of `isr_handler_main`** is the interrupted code, but for the exceptions whose
error code lies under the zero of an `isr` stub.  There the error code is taken for `rip`, `rip`
for `cs`, `cs` for `rflags`, `rflags` for `rsp` and `rsp` for `ss`; so that whether GS is swapped
depends on the low bits of `rip`. -/
theorem isr_frame_exact (stubs : BitVec 8 → Word) (s : Cpu) (rsp0 top : Word)
    (hroom : s.Room rsp0 top) (n : BitVec 8) (error : Word) :
    frameAt (s.enterIsr (idtInit stubs n).gate rsp0 n error).mem
        ((s.enterIsr (idtInit stubs n).gate rsp0 n error).regs .rdi) =
      if n ∈ mispushed then
        { s.registers n 0 with
          rip := error, cs := s.rip, rflags := s.cs, rsp := s.rflags, ss := s.rsp }
      else s.registers n (if pushesError n then error else 0) := by
  obtain ⟨-, -, hstack⟩ := Cpu.enterIsr_spec hroom (idtInit stubs n).gate n error
  rw [enterIsr_rdi]
  by_cases hmis : n ∈ mispushed
  · rw [isrWords_reverse_mispushed hmis] at hstack
    rw [if_pos hmis]
    exact frameAt_eq hstack
  · rw [isrWords_reverse hmis] at hstack
    rw [if_neg hmis]
    exact frameAt_eq hstack

/-- Code of a server, with the GS bases of user mode. -/
def serverCpu : Cpu where
  regs _ := 0
  rip := 0x401000
  cs := 0x43
  rflags := 0x202
  rsp := 0x7fff0000
  ss := 0x3b
  activeGs := 0
  kernelGs := 0xffff800000100000
  mem _ := 0

theorem serverCpu_room : serverCpu.Room 0x9000 0x9000 := ⟨by decide, by decide⟩

/-- After an alignment check, the frame's `cs` is the `rip` of the code. -/
theorem isr_frame_exact_alignment :
    serverCpu.Room 0x9000 0x9000 ∧
      (frameAt (serverCpu.enterIsr (idtInit (fun _ => 0) 17).gate 0x9000 17 0).mem
        ((serverCpu.enterIsr (idtInit (fun _ => 0) 17).gate 0x9000 17 0).regs .rdi)).cs
          = 0x401000 := by
  refine ⟨serverCpu_room, ?_⟩
  rw [isr_frame_exact (fun _ => 0) serverCpu 0x9000 0x9000 serverCpu_room 17 0]
  rfl

/-! ### The C code -/

namespace Cpu

/-- What C code with its frames below `F` does not change: the segments, the GS bases and the
stack from `F` upwards. -/
structure Keeps (F top : Word) (s t : Cpu) : Prop where
  cs : t.cs = s.cs
  ss : t.ss = s.ss
  activeGs : t.activeGs = s.activeGs
  kernelGs : t.kernelGs = s.kernelGs
  rsp : t.rsp.toNat ≤ F.toNat
  mem : ∀ a : Word, F.toNat ≤ a.toNat → a.toNat < top.toNat → t.mem a = s.mem a

/-- A step of C code whose frames lie below `F`: its own work, or an interrupt. -/
inductive CStep (interrupt : Cpu → Cpu → Prop) (F top : Word) (s t : Cpu) : Prop
  | work (h : Keeps F top s t)
  | interrupted (hin : s.rsp.toNat ≤ F.toNat) (h : interrupt s t)

/-- `if(regs->cs & 0x3) swapgs()`, for the frame at `p`. -/
def swapgsFor (s : Cpu) (p : Word) : Cpu := if (frameAt s.mem p).cs &&& 3 ≠ 0 then s.swapgs else s

/-- A call of `isr_handler_main` that returns.  Below 32 only page faults do, once
`portal_resolve_fault` has resolved them; from 32 on there may be a handler. -/
inductive IsrMain (interrupt : Cpu → Cpu → Prop) (top : Word) (s t : Cpu) : Prop
  | returns {u : Cpu}
      (hnumber : (frameAt s.mem (s.regs .rdi)).isrNumber = 0xe ∨
        32 ≤ (frameAt s.mem (s.regs .rdi)).isrNumber.toNat)
      (hbody : Run (CStep interrupt s.rsp top) (s.swapgsFor (s.regs .rdi)) u)
      (heoi : Run (CStep interrupt s.rsp top) (u.swapgsFor (s.regs .rdi)) t)
      (hrsp : t.rsp = s.rsp)

/-- **An interrupt of `s` that returns to `t`**, with interrupts of the handler nested less than
`d` deep. -/
def Interrupted (stubs : BitVec 8 → Word) (rsp0 top : Word) : ℕ → Cpu → Cpu → Prop
  | 0, _, _ => False
  | d + 1, s, t => ∃ (n : BitVec 8) (error : Word) (u : Cpu), s.Room rsp0 top ∧
      IsrMain (Interrupted stubs rsp0 top d) top
        (s.enterIsr (idtInit stubs n).gate rsp0 n error) u ∧
      t = u.execAll isrHandlerExit

/-- The interrupted code finds everything as it was, below the stack pointer apart. -/
structure Resumed (rsp0 top : Word) (s t : Cpu) : Prop where
  regs : t.regs = s.regs
  rip : t.rip = s.rip
  cs : t.cs = s.cs
  rflags : t.rflags = s.rflags
  rsp : t.rsp = s.rsp
  ss : t.ss = s.ss
  activeGs : t.activeGs = s.activeGs
  kernelGs : t.kernelGs = s.kernelGs
  mem : ∀ a : Word, (s.frameStack rsp0).toNat ≤ a.toNat → a.toNat < top.toNat → t.mem a = s.mem a

/-! ### The way back -/

theorem mem_savedRegs (r : Reg) : r ∈ savedRegs.reverse := by
  cases r <;> decide

/-- **The end of `isr_handler`** loads what is on the stack. -/
theorem execAll_isrHandlerExit {s : Cpu} {v : Reg → Word}
    {isr error rip cs rflags rsp ss : Word} {rest : List Word}
    (h : OnStack s.mem s.rsp (savedRegs.reverse.map v
      ++ ([isr, error, rip, cs, rflags, rsp, ss] ++ rest))) :
    s.execAll isrHandlerExit
      = { s with regs := v, rip := rip, cs := cs, rflags := rflags, rsp := rsp, ss := ss } := by
  obtain ⟨sp, hpop, hsp⟩ := execAll_pop savedRegs.reverse s h
  have hregs : (fun r => if r ∈ savedRegs.reverse then v r else s.regs r) = v := by
    funext r
    rw [if_pos (mem_savedRegs r)]
  simp only [List.cons_append, OnStack, BitVec.add_assoc, BitVec.reduceAdd,
    BitVec.ofNat_eq_ofNat] at hsp
  obtain ⟨-, -, hrip, hcs, hrflags, hrsp, hss, -⟩ := hsp
  rw [isrHandlerExit, execAll_append, hpop, hregs]
  simp only [execAll, List.foldl_cons, List.foldl_nil, exec, BitVec.add_assoc, BitVec.reduceAdd,
    BitVec.ofNat_eq_ofNat, hrip, hcs, hrflags, hrsp, hss]

theorem Keeps.refl {F top : Word} {s : Cpu} (hrsp : s.rsp.toNat ≤ F.toNat) : Keeps F top s s :=
  ⟨rfl, rfl, rfl, rfl, hrsp, fun _ _ _ => rfl⟩

theorem Keeps.trans {F top : Word} {s t u : Cpu} (h : Keeps F top s t) (h' : Keeps F top t u) :
    Keeps F top s u where
  cs := h'.cs.trans h.cs
  ss := h'.ss.trans h.ss
  activeGs := h'.activeGs.trans h.activeGs
  kernelGs := h'.kernelGs.trans h.kernelGs
  rsp := h'.rsp
  mem a hlow hhigh := (h'.mem a hlow hhigh).trans (h.mem a hlow hhigh)

section
variable {interrupt : Cpu → Cpu → Prop} {rsp0 F top : Word} {s t : Cpu}

/-- A nested interrupt is on the stack it interrupts, so it keeps what lies above. -/
theorem CStep.keeps (hres : ∀ s t, interrupt s t → Resumed rsp0 top s t) (hkernel : ¬ s.Outer)
    (h : CStep interrupt F top s t) : Keeps F top s t := by
  cases h with
  | work h => exact h
  | interrupted hin h =>
    have hsame := hres s t h
    refine ⟨hsame.cs, hsame.ss, hsame.activeGs, hsame.kernelGs, by rw [hsame.rsp]; exact hin,
      fun a hlow hhigh => hsame.mem a ?_ hhigh⟩
    rw [frameStack, if_neg hkernel]
    exact hin.trans hlow

theorem run_keeps (hres : ∀ s t, interrupt s t → Resumed rsp0 top s t) (hkernel : ¬ s.Outer)
    (hrsp : s.rsp.toNat ≤ F.toNat) (h : Run (CStep interrupt F top) s t) : Keeps F top s t := by
  have hstep : ∀ t u, Keeps F top s t → CStep interrupt F top t u → Keeps F top s u := by
    intro t u ht hu
    have hin : ¬ t.Outer := by rwa [Outer, ht.cs]
    exact ht.trans (hu.keeps hres hin)
  exact Run.invariant hstep (Keeps.refl hrsp) h

theorem swapgsFor_eq (s : Cpu) (p : Word) :
    s.swapgsFor p = if s.mem (p + 144) &&& 3 ≠ 0 then s.swapgs else s := rfl

/-- **`isr_handler_main` keeps the stack it was called on**, and the second `swapgs` undoes the
first. -/
theorem IsrMain.keeps (hres : ∀ s t, interrupt s t → Resumed rsp0 top s t)
    (hkernel : ¬ s.Outer) (hrdi : s.regs .rdi = s.rsp) (hframe : s.rsp.toNat + 176 ≤ top.toNat)
    (h : IsrMain interrupt top s t) : Keeps s.rsp top s t := by
  obtain ⟨-, hbody, heoi, -⟩ := h
  rename_i u
  rw [hrdi, swapgsFor_eq] at hbody heoi
  have hlt := top.isLt
  have hat : (s.rsp + 144).toNat = s.rsp.toNat + 144 := by bv_omega
  by_cases hswap : s.mem (s.rsp + 144) &&& 3 ≠ 0
  · rw [if_pos hswap] at hbody
    have hu : Keeps s.rsp top s.swapgs u := run_keeps hres hkernel le_rfl hbody
    have hcs : u.mem (s.rsp + 144) = s.mem (s.rsp + 144) :=
      hu.mem _ (by omega) (by omega)
    rw [hcs, if_pos hswap] at heoi
    have hin : ¬ u.swapgs.Outer := by
      show ¬ u.cs &&& 3 ≠ 0
      rw [hu.cs]
      exact hkernel
    have ht := run_keeps hres hin hu.rsp heoi
    exact ⟨ht.cs.trans hu.cs, ht.ss.trans hu.ss, ht.activeGs.trans hu.kernelGs,
      ht.kernelGs.trans hu.activeGs, ht.rsp,
      fun a hlow hhigh => (ht.mem a hlow hhigh).trans (hu.mem a hlow hhigh)⟩
  · rw [if_neg hswap] at hbody
    have hu := run_keeps hres hkernel le_rfl hbody
    have hcs : u.mem (s.rsp + 144) = s.mem (s.rsp + 144) :=
      hu.mem _ (by omega) (by omega)
    rw [hcs, if_neg hswap] at heoi
    have hin : ¬ u.Outer := by
      rw [Outer, hu.cs]
      exact hkernel
    exact hu.trans (run_keeps hres hin hu.rsp heoi)

end

/-- The vectors from which `isr_handler_main` returns have a right frame. -/
theorem not_mem_mispushed {n : BitVec 8}
    (h : n.setWidth 64 = (0xe : Word) ∨ 32 ≤ (n.setWidth 64 : Word).toNat) : n ∉ mispushed := by
  intro hmem
  simp only [mispushed, List.mem_cons, List.not_mem_nil, or_false] at hmem
  rcases hmem with rfl | rfl | rfl | rfl <;> revert h <;> decide

/-- The number in the frame is that of the vector, in every frame. -/
theorem enterIsr_isrNumber {s : Cpu} {rsp0 top : Word} (hroom : s.Room rsp0 top) (gate : Gate)
    (n : BitVec 8) (error : Word) :
    (frameAt (s.enterIsr gate rsp0 n error).mem
      ((s.enterIsr gate rsp0 n error).regs .rdi)).isrNumber = n.setWidth 64 := by
  obtain ⟨-, -, hstack⟩ := enterIsr_spec hroom gate n error
  rw [enterIsr_rdi]
  by_cases hmis : n ∈ mispushed
  · rw [isrWords_reverse_mispushed hmis] at hstack
    rw [frameAt_eq hstack]
  · rw [isrWords_reverse hmis] at hstack
    rw [frameAt_eq hstack]

/-- One interrupt, when those that are nested in it resume. -/
theorem resumed_of_isrMain {interrupt : Cpu → Cpu → Prop} {rsp0 top : Word} {s u : Cpu}
    (hres : ∀ s t, interrupt s t → Resumed rsp0 top s t) (hroom : s.Room rsp0 top)
    {stubs : BitVec 8 → Word} {n : BitVec 8} {error : Word}
    (hmain : IsrMain interrupt top (s.enterIsr (idtInit stubs n).gate rsp0 n error) u) :
    Resumed rsp0 top s (u.execAll isrHandlerExit) := by
  set e := s.enterIsr (idtInit stubs n).gate rsp0 n error with he
  obtain ⟨hrsp, hmem, hstack⟩ := enterIsr_spec hroom (idtInit stubs n).gate n error
  rw [← he] at hrsp hmem hstack
  have hn : n ∉ mispushed := by
    obtain ⟨hnumber, -, -, -⟩ := hmain
    rw [he, enterIsr_isrNumber hroom] at hnumber
    exact not_mem_mispushed hnumber
  have hlen : (s.isrWords n error).length = 22 := by
    rw [← List.length_reverse, isrWords_reverse hn]
    rfl
  have hbelow := (s.frameTop_le rsp0).trans hroom.above
  have hcs : e.cs = 0x28 := by rw [he, enterIsr_eq, idtInit_gate]; rfl
  have hkernel : ¬ e.Outer := by rw [Outer, hcs]; decide
  have hgs : e.activeGs = s.activeGs ∧ e.kernelGs = s.kernelGs := by
    rw [he, enterIsr_eq]
    exact ⟨rfl, rfl⟩
  have hkeep := hmain.keeps hres hkernel (enterIsr_rdi ..) (by omega)
  have hsame : u.rsp = e.rsp := by
    obtain ⟨-, -, -, h⟩ := hmain
    exact h
  -- the frame is still there when the handler has returned
  have hframe : OnStack u.mem u.rsp (s.isrWords n error).reverse := by
    rw [hsame]
    have htop := top.isLt
    refine hstack.congr ?_ fun a hlow hhigh => hkeep.mem a hlow ?_
    · rw [List.length_reverse]
      omega
    · rw [List.length_reverse] at hhigh
      omega
  rw [isrWords_reverse hn] at hframe
  rw [execAll_isrHandlerExit hframe]
  refine ⟨rfl, rfl, rfl, rfl, rfl, rfl, hkeep.activeGs.trans hgs.1, hkeep.kernelGs.trans hgs.2,
    fun a hlow hhigh => ?_⟩
  have hover := (s.frameTop_le rsp0).trans hlow
  exact (hkeep.mem a (by omega) hhigh).trans (hmem a hover)

/-- **Interrupts that return leave the interrupted code as it was**, however deep they are
nested and whatever their handlers do below their frames. -/
theorem interrupts_resume (stubs : BitVec 8 → Word) (rsp0 top : Word) (d : ℕ) (s t : Cpu)
    (h : Interrupted stubs rsp0 top d s t) : Resumed rsp0 top s t := by
  induction d generalizing s t with
  | zero => exact h.elim
  | succ d ih =>
    obtain ⟨n, error, u, hroom, hmain, rfl⟩ := h
    exact resumed_of_isrMain ih hroom hmain

theorem swapgsFor_rsp (s : Cpu) (p : Word) : (s.swapgsFor p).rsp = s.rsp := by
  unfold swapgsFor
  split_ifs <;> rfl

/-- A handler that runs returns. -/
theorem Interrupted.intro (stubs : BitVec 8 → Word) {rsp0 top : Word} (d : ℕ) {s u : Cpu}
    (hroom : s.Room rsp0 top) (n : BitVec 8) (error : Word)
    (hn : n.setWidth 64 = (0xe : Word) ∨ 32 ≤ (n.setWidth 64 : Word).toNat)
    (hbody : Run (CStep (Interrupted stubs rsp0 top d)
        (s.enterIsr (idtInit stubs n).gate rsp0 n error).rsp top)
      ((s.enterIsr (idtInit stubs n).gate rsp0 n error).swapgsFor
        ((s.enterIsr (idtInit stubs n).gate rsp0 n error).regs .rdi)) u)
    (hrsp : u.rsp = (s.enterIsr (idtInit stubs n).gate rsp0 n error).rsp) :
    ∃ t, Interrupted stubs rsp0 top (d + 1) s t := by
  refine ⟨_, n, error, _, hroom, .returns ?_ hbody .refl ?_, rfl⟩
  · rwa [enterIsr_isrNumber hroom]
  · rw [swapgsFor_rsp, hrsp]

/-- The timer interrupts a server, and its handler has a page fault. -/
theorem interrupts_resume_nested :
    ∃ t, Interrupted (fun _ => 0) 0x9000 0x9000 2 serverCpu t ∧
      Resumed 0x9000 0x9000 serverCpu t := by
  set e := serverCpu.enterIsr (idtInit (fun _ => 0) 32).gate 0x9000 32 0 with he
  set e' := e.swapgsFor (e.regs .rdi) with he'
  have hersp : e.rsp = 0x8f50 := by decide
  have hersp' : e'.rsp = 0x8f50 := (swapgsFor_rsp ..).trans hersp
  have hin : ¬ e'.Outer := by decide
  have hroom : e'.Room 0x9000 0x9000 := by
    constructor
    · rw [frameTop, frameStack, if_neg hin, hersp']
      decide
    · rw [frameStack, if_neg hin, hersp']
      decide
  obtain ⟨u, hu⟩ := Interrupted.intro (fun _ => 0) 0 hroom 14 0 (Or.inl rfl) .refl
    (swapgsFor_rsp ..)
  have hback : u.rsp = e'.rsp := by
    obtain ⟨n, error, v, hroom, hmain, rfl⟩ := hu
    exact (resumed_of_isrMain (fun _ _ h => h.elim) hroom hmain).rsp
  have hnested : Run (CStep (Interrupted (fun _ => 0) 0x9000 0x9000 1) e.rsp 0x9000) e' u :=
    .single (.interrupted (by rw [hersp, hersp']) hu)
  obtain ⟨t, ht⟩ := Interrupted.intro (fun _ => 0) 1 serverCpu_room 32 0 (Or.inr (by decide))
    hnested (hback.trans (hersp'.trans hersp.symm))
  exact ⟨t, ht, interrupts_resume _ _ _ _ _ _ ht⟩

end Cpu

end Rock
