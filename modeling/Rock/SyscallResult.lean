/-
Rock/SyscallResult.lean

What a system call returns (`syscall_handler` and `SYSRET` of kernel/core/syscall.c, with
`syscall_main` of kernel/arch/x86/syscall.asm).

`syscall_handler` returns its result in `rax`, and `SYSRET` stores the error in `[gs:16]`.  The
end of `syscall_main` restores every register from the frame, also `rax`, and only then loads
`rdx` from `[gs:16]`: the result is lost, and the caller finds its own `rax` again.  A call that
is rejected stores no error, so the caller finds 0 in `rdx` as well.

`CallRegs` says for each register and for each word of the frame which register of the caller it
holds.  It is computed from the code, and each instruction is proved to establish it
(`Denotes.exec`), on top of what `Knows` says of the stack.  So the registers at `sysret` are
known for every call that is not preempted (`call_returns`), and `syscall_result_iff` says when
they are what they should be.
-/
import Rock.Syscall

namespace Rock

/-! ### The handler -/

/-- `LENGTHOF(syscall_handles)`. -/
def syscallCount : ℕ := 8

/-- The number of the call: the `int` in `rax`, which the comparison takes as unsigned. -/
def syscallIndex (rax : Word) : BitVec 32 := rax.setWidth 32

/-- What the handlers return for this call, where there is one. -/
abbrev SyscallHandles := Fin syscallCount → Option (BitVec 32)

/-- `SYSRET`: the value that is returned, and the error that is stored. -/
def sysretMacro (ret error : BitVec 32) : Word × Word :=
  (if error ≠ 0 then error.signExtend 64 else ret.signExtend 64, error.signExtend 64)

/-- `syscall_handler`, called with `rax` in its frame by a context with the permissions
`sysperm`: the value that is returned, and the error that is stored. -/
def syscallHandler (sysperm : Word) (handles : SyscallHandles) (rax : Word) : Word × Word :=
  if h : (syscallIndex rax).toNat < syscallCount then
    if sysperm &&& 1#64 <<< (syscallIndex rax).toNat ≠ 0 then sysretMacro (-1) 0
    else
      match handles ⟨(syscallIndex rax).toNat, h⟩ with
      | some error => sysretMacro (if error ≠ 0 then error else 0) error
      | none => sysretMacro (-1) 0
  else sysretMacro (-1) 0

/-- What the handler of the call returns, if the call gets to one. -/
def syscallOutcome (sysperm : Word) (handles : SyscallHandles) (rax : Word) : Option (BitVec 32) :=
  if h : (syscallIndex rax).toNat < syscallCount then
    if sysperm &&& 1#64 <<< (syscallIndex rax).toNat ≠ 0 then none
    else handles ⟨(syscallIndex rax).toNat, h⟩
  else none

/-- **The result of a call**: that of its handler, twice; or `-1` without an error, for a call
that is rejected. -/
theorem syscallHandler_eq (sysperm : Word) (handles : SyscallHandles) (rax : Word) :
    syscallHandler sysperm handles rax =
      match syscallOutcome sysperm handles rax with
      | some error => (error.signExtend 64, error.signExtend 64)
      | none => (-1, 0) := by
  unfold syscallHandler syscallOutcome
  split_ifs with hindex hperm
  · rfl
  · rcases handles ⟨(syscallIndex rax).toNat, hindex⟩ with - | error
    · rfl
    · have hret : (if error ≠ 0 then error else 0) = error := by
        split_ifs with h
        · rfl
        · exact (not_not.mp h).symm
      simp only [sysretMacro, hret, ite_self]
  · rfl

theorem setWidth_signExtend (error : BitVec 32) : (error.signExtend 64).setWidth 32 = error := by
  ext i hi
  rw [BitVec.getElem_setWidth, BitVec.getLsbD_signExtend, if_pos hi, BitVec.getLsbD_eq_getElem hi]
  simp only [Bool.and_eq_right_iff_imp, decide_eq_true_eq]
  omega

theorem signExtend_eq_zero_iff (error : BitVec 32) : error.signExtend 64 = 0 ↔ error = 0 := by
  refine ⟨fun h => ?_, fun h => h ▸ rfl⟩
  rw [← setWidth_signExtend error, h]
  rfl

/-- An `int` that is small and not negative, as a word. -/
theorem signExtend_of_small {error : BitVec 32} (h : error.toNat < syscallCount) :
    error.signExtend 64 = BitVec.ofNat 64 error.toNat := by
  have hlt : error.toNat < 8 := h
  apply BitVec.eq_of_toInt_eq
  rw [BitVec.toInt_signExtend_of_le (by decide), BitVec.toInt_eq_toNat_cond,
    BitVec.toInt_eq_toNat_cond, BitVec.toNat_ofNat]
  split_ifs <;> omega

/-! ### A call that is not preempted -/

/-- The word of `struct registers` that has `rax`. -/
def raxWord : ℕ := 14

/-- The steps of a call that is not preempted; the handler is called with the address of the
frame in `rdi`. -/
inductive SyscallCore.CallStep (sysperm : Word) (handles : SyscallHandles) :
    SyscallCore → SyscallCore → Prop
  | exec {k : SyscallCore} {pc : ℕ} {i : Instr} :
      k.running.pc = some pc → syscallMain[pc]? = some i → i ≠ .call →
      CallStep sysperm handles k (k.exec pc i)
  | work {k : SyscallCore} {pc : ℕ} (stack : Word → Word) :
      k.running.pc = some pc → syscallMain[pc]? = some .call → k.KeepsFrame stack →
      CallStep sysperm handles k { k with stack := stack }
  | handlerReturn {k : SyscallCore} {pc : ℕ} (regs : Reg → Word) {ret error : Word} :
      k.running.pc = some pc → syscallMain[pc]? = some .call →
      syscallHandler sysperm handles
        (k.stack (k.running.regs .rdi + BitVec.ofNat 64 (8 * raxWord))) = (ret, error) →
      regs .rax = ret →
      CallStep sysperm handles k (k.handlerReturn pc error regs)

/-- These are steps of the core. -/
theorem SyscallCore.CallStep.step {sysperm : Word} {handles : SyscallHandles} {k k' : SyscallCore}
    (h : k.CallStep sysperm handles k') : SyscallCore.Step SyscallCore.Alone k k' := by
  cases h with
  | exec hpc hi hcall => exact .exec hpc hi hcall
  | work stack hpc hi hkeeps => exact .work stack hpc hi hkeeps
  | @handlerReturn pc regs ret error hpc hi _ _ => exact .handlerReturn error regs hpc hi

/-! ### Where the caller's registers are -/

/-- Which register of the caller each register and each word of the frame holds, newest word
first; whether `rdi` is the address of the frame, and whether the handler has returned. -/
structure CallRegs where
  regs : Reg → Option Reg
  frame : List (Option Reg)
  rdiFrame : Bool
  returned : Bool

/-- What an instruction makes of it. -/
def Instr.moves (v : CallRegs) : Instr → CallRegs
  | .swapgs | .sti | .cli | .storeUserStack => v
  | .loadKernelStack => { v with rdiFrame := false }
  | .push (.reg r) => { v with frame := v.regs r :: v.frame, rdiFrame := false }
  | .push _ => { v with frame := none :: v.frame, rdiFrame := false }
  | .movRdiRsp => { v with regs := Function.update v.regs .rdi none, rdiFrame := true }
  | .call => { v with regs := fun _ => none, rdiFrame := false, returned := true }
  | .pop r =>
      { v with
        regs := Function.update v.regs r (v.frame.headD none)
        frame := v.frame.tail
        rdiFrame := false }
  | .addRsp n => { v with frame := v.frame.drop n, rdiFrame := false }
  | .loadError => { v with regs := Function.update v.regs .rdx none }
  | .loadUserStack => { v with frame := [], rdiFrame := false }
  | .sysret => { v with frame := [] }

/-- At the entry every register is that of the caller. -/
def CallRegs.entry : CallRegs := ⟨some, [], false, false⟩

/-- Where the registers are before the instruction at `pc`. -/
def regsAt (pc : ℕ) : CallRegs := (syscallMain.take pc).foldl Instr.moves CallRegs.entry

theorem regsAt_succ {pc : ℕ} {i : Instr} (hi : syscallMain[pc]? = some i) :
    regsAt (pc + 1) = i.moves (regsAt pc) := by
  obtain ⟨hlt, hget⟩ := List.getElem?_eq_some_iff.mp hi
  rw [regsAt, List.take_succ_eq_append_getElem hlt, List.foldl_append, hget]
  rfl

/-- **The frame is as the handler reads it**: at the call `rdi` is its address, and `rax` is
where `struct registers` has it. -/
theorem regsAt_call : ∀ pc, syscallMain[pc]? = some .call →
    (regsAt pc).rdiFrame = true ∧ (regsAt pc).frame[raxWord]? = some (some .rax) := by
  intro pc hi
  have hpc : pc = 29 := by
    have hlt := (List.getElem?_eq_some_iff.mp hi).1
    have hall : ∀ pc < syscallMain.length, syscallMain[pc]? = some .call → pc = 29 := by
      decide +kernel
    exact hall pc hlt hi
  subst hpc
  decide +kernel

/-- **At `sysret`** every register but `rdx` is that of the caller, and the handler has
returned. -/
theorem regsAt_sysret : ∀ pc, syscallMain[pc]? = some .sysret →
    (regsAt pc).returned = true ∧ ∀ r, r ≠ .rdx → (regsAt pc).regs r = some r := by
  intro pc hi
  have hpc : pc = 52 := by
    have hlt := (List.getElem?_eq_some_iff.mp hi).1
    have hall : ∀ pc < syscallMain.length, syscallMain[pc]? = some .sysret → pc = 52 := by
      decide +kernel
    exact hall pc hlt hi
  subst hpc
  refine ⟨by decide +kernel, fun r hr => ?_⟩
  cases r <;> first | exact absurd rfl hr | decide +kernel

/-! ### Each instruction establishes it -/

/-- The registers and words are where `v` says, for a caller with the registers `ρ` and the
stack pointer `rsp`, and a handler with the error `error`. -/
structure Thread.Denotes (t : Thread) (v : CallRegs) (ρ : Reg → Word) (rsp error : Word) :
    Prop where
  regs : ∀ r r₀, v.regs r = some r₀ → t.regs r = ρ r₀
  frame : ∀ (j : ℕ) r₀, v.frame[j]? = some (some r₀) → t.frame[j]? = some (ρ r₀)
  rdi : v.rdiFrame → t.regs .rdi = t.rsp
  stored : v.returned → t.stored = error
  entered : t.entered = rsp

section Instructions

variable {k : SyscallCore} {f f' : CallFacts} {v : CallRegs} {ρ : Reg → Word} {rsp error : Word}
  {pc : ℕ}

/-- The words of the frame are in memory from the stack pointer on. -/
theorem SyscallCore.Knows.word (h : k.Knows k.running f) {d j : ℕ} {w : Word}
    (hd : f.depth = some d) (hj : k.running.frame[j]? = some w) :
    k.stack (k.running.rsp + BitVec.ofNat 64 (8 * j)) = w := by
  obtain ⟨hrsp, hlen⟩ := h.onStack d hd
  have hlt : j < d := hlen ▸ (List.getElem?_eq_some_iff.mp hj).1
  have hword := h.intact (d - 1 - j) w (by
    rw [List.getElem?_reverse (by omega), hlen, ← hj]
    congr 1
    omega)
  have haddr : wordAddr k.kernelStack (d - 1 - j)
      = k.running.rsp + BitVec.ofNat 64 (8 * j) := by
    have hsum : 8 * d = 8 * (d - 1 - j + 1) + 8 * j := by omega
    rw [hrsp, wordAddr, hsum, BitVec.ofNat_add]
    bv_omega
  rw [← haddr]
  exact hword

theorem Thread.Denotes.setReg {t : Thread} (h : t.Denotes v ρ rsp error) {r : Reg}
    {o : Option Reg} {w : Word} (hw : ∀ r₀, o = some r₀ → w = ρ r₀) :
    ∀ r' r₀, Function.update v.regs r o r' = some r₀ →
      Function.update t.regs r w r' = ρ r₀ := by
  intro r' r₀ hr
  rcases eq_or_ne r' r with rfl | hne
  · rw [Function.update_self] at hr ⊢
    exact hw r₀ hr
  · rw [Function.update_of_ne hne] at hr ⊢
    exact h.regs r' r₀ hr

theorem Thread.Denotes.push (h : k.running.Denotes v ρ rsp error) (o : Operand) :
    (k.exec pc (.push o)).running.Denotes ((Instr.push o).moves v) ρ rsp error := by
  have hframe : ∀ (r : Option Reg), (∀ r₀, r = some r₀ → k.operand o = ρ r₀) →
      ∀ (j : ℕ) r₀, (r :: v.frame)[j]? = some (some r₀) →
        (k.operand o :: k.running.frame)[j]? = some (ρ r₀) := by
    intro r hr j r₀ hj
    cases j with
    | zero => exact congrArg some (hr r₀ (Option.some.inj hj))
    | succ j => exact h.frame j r₀ hj
  obtain ⟨hregs, -, -, hstored, hentered⟩ := h
  cases o with
  | reg r =>
      simp only [SyscallCore.exec, SyscallCore.running_setRunning]
      refine ⟨?_, ?_, (fun hc => by cases hc), ?_, ?_⟩
      · exact hregs
      · exact hframe (v.regs r) fun r₀ hr => hregs r r₀ hr
      · exact hstored
      · exact hentered
  | imm w | userStack =>
      simp only [SyscallCore.exec, SyscallCore.running_setRunning]
      refine ⟨?_, ?_, (fun hc => by cases hc), ?_, ?_⟩
      · exact hregs
      · exact hframe none fun _ hc => by cases hc
      · exact hstored
      · exact hentered

theorem Thread.Denotes.pop (h : k.running.Denotes v ρ rsp error) (hk : k.Knows k.running f)
    {r : Reg} (hf : (Instr.pop r).transfer f = some f') :
    (k.exec pc (.pop r)).running.Denotes ((Instr.pop r).moves v) ρ rsp error := by
  rcases hd : f.depth with _ | d
  · simp [Instr.transfer, hd] at hf
  have hword : ∀ r₀, v.frame.headD none = some r₀ → k.stack k.running.rsp = ρ r₀ := by
    intro r₀ hr
    have hhead : v.frame[0]? = some (some r₀) := by
      rcases hv : v.frame with - | ⟨o, rest⟩
      · rw [hv] at hr
        cases hr
      · rw [hv] at hr
        exact congrArg some hr
    have hword := hk.word hd (h.frame 0 r₀ hhead)
    rwa [Nat.mul_zero, BitVec.add_zero] at hword
  simp only [SyscallCore.exec, SyscallCore.running_setRunning]
  refine ⟨?_, ?_, (fun hc => by cases hc), ?_, ?_⟩
  · exact h.setReg hword
  · intro j r₀ hj
    have hj : v.frame.tail[j]? = some (some r₀) := hj
    rw [List.getElem?_tail] at hj ⊢
    exact h.frame (j + 1) r₀ hj
  · exact h.stored
  · exact h.entered

/-- **Each instruction establishes where the registers are**, except for `call` and `sysret`. -/
theorem Thread.Denotes.exec (h : k.running.Denotes v ρ rsp error) (hk : k.Knows k.running f)
    {i : Instr} (hcall : i ≠ .call) (hsysret : i ≠ .sysret) (hf : i.transfer f = some f') :
    (k.exec pc i).running.Denotes (i.moves v) ρ rsp error := by
  cases i with
  | call => exact absurd rfl hcall
  | sysret => exact absurd rfl hsysret
  | push o => exact h.push o
  | pop r => exact h.pop hk hf
  | swapgs | sti | cli | storeUserStack =>
      simp only [SyscallCore.exec, SyscallCore.running_setRunning]
      exact ⟨h.regs, h.frame, h.rdi, h.stored, h.entered⟩
  | loadKernelStack =>
      simp only [SyscallCore.exec, SyscallCore.running_setRunning]
      exact ⟨h.regs, h.frame, (fun hc => by cases hc), h.stored, h.entered⟩
  | movRdiRsp =>
      simp only [SyscallCore.exec, SyscallCore.running_setRunning]
      refine ⟨h.setReg (fun _ hc => by cases hc), h.frame, fun _ => ?_, h.stored, h.entered⟩
      show Function.update k.running.regs .rdi k.running.rsp .rdi = k.running.rsp
      rw [Function.update_self]
  | addRsp n =>
      simp only [SyscallCore.exec, SyscallCore.running_setRunning]
      refine ⟨h.regs, fun j r₀ hj => ?_, (fun hc => by cases hc), h.stored, h.entered⟩
      have hj : (v.frame.drop n)[j]? = some (some r₀) := hj
      rw [List.getElem?_drop] at hj ⊢
      exact h.frame (n + j) r₀ hj
  | loadError =>
      simp only [SyscallCore.exec, SyscallCore.running_setRunning]
      refine ⟨h.setReg (fun _ hc => by cases hc), h.frame, fun hrdi => ?_, h.stored, h.entered⟩
      show Function.update k.running.regs .rdx k.error .rdi = k.running.rsp
      rw [Function.update_of_ne (show Reg.rdi ≠ .rdx by decide)]
      exact h.rdi hrdi
  | loadUserStack =>
      simp only [SyscallCore.exec, SyscallCore.running_setRunning]
      exact ⟨h.regs, (fun _ _ hc => by cases hc), (fun hc => by cases hc), h.stored, h.entered⟩

/-- The handler returns: its registers are not those of the caller any more, and the frame is. -/
theorem Thread.Denotes.handlerReturn (h : k.running.Denotes v ρ rsp error) (regs : Reg → Word) :
    (k.handlerReturn pc error regs).running.Denotes (Instr.call.moves v) ρ rsp error := by
  simp only [SyscallCore.handlerReturn, SyscallCore.running_setRunning]
  exact ⟨(fun _ _ hc => by cases hc), h.frame, (fun hc => by cases hc), fun _ => rfl, h.entered⟩

end Instructions

/-! ### What the caller gets back -/

/-- What is in the registers of a call that has returned. -/
structure Thread.Back (t : Thread) (ρ : Reg → Word) (rsp error : Word) : Prop where
  regs : ∀ r, r ≠ .rdx → t.regs r = ρ r
  rdx : t.regs .rdx = error
  rsp : t.rsp = rsp

/-- What holds during a call, and after it. -/
def SyscallCore.Along (k : SyscallCore) (ρ : Reg → Word) (rsp error : Word) : Prop :=
  match k.running.pc with
  | some pc => ∃ f, factsAt pc = some f ∧ k.Knows k.running f ∧
      k.running.Denotes (regsAt pc) ρ rsp error
  | none => k.running.Back ρ rsp error

section Call

variable {k k' : SyscallCore} {sysperm : Word} {handles : SyscallHandles} {ρ : Reg → Word}
  {rsp error : Word}

theorem SyscallCore.Along.of_pc {pc : ℕ} (h : k.Along ρ rsp error) (hpc : k.running.pc = some pc) :
    ∃ f, factsAt pc = some f ∧ k.Knows k.running f ∧
      k.running.Denotes (regsAt pc) ρ rsp error := by
  rw [Along, hpc] at h
  exact h

/-- The value of `rax` that the handler reads is that of the caller. -/
theorem SyscallCore.Knows.rax {f : CallFacts} {pc : ℕ} (hk : k.Knows k.running f)
    (hd : k.running.Denotes (regsAt pc) ρ rsp error) (hi : syscallMain[pc]? = some .call) :
    k.stack (k.running.regs .rdi + BitVec.ofNat 64 (8 * raxWord)) = ρ .rax := by
  obtain ⟨hrdi, hrax⟩ := regsAt_call pc hi
  have hword := hd.frame raxWord .rax hrax
  rw [hd.rdi hrdi]
  rcases hdepth : f.depth with - | d
  · -- a frame with words is on the stack
    rw [hk.offStack hdepth] at hword
    cases hword
  · exact hk.word hdepth hword

/-- The end of the call. -/
theorem Thread.Denotes.sysret {f f' : CallFacts} {pc : ℕ} (hk : k.Knows k.running f)
    (hd : k.running.Denotes (regsAt pc) ρ rsp error) (hi : syscallMain[pc]? = some .sysret)
    (hf : Instr.sysret.transfer f = some f') :
    (k.exec pc .sysret).running.Back ρ rsp error := by
  obtain ⟨hreturned, hregs⟩ := regsAt_sysret pc hi
  obtain ⟨hrsp, hrdx⟩ := hk.sysret hf
  simp only [SyscallCore.exec, SyscallCore.running_setRunning]
  refine ⟨fun r hr => hd.regs r r (hregs r hr), ?_, ?_⟩
  · exact hrdx.trans (hd.stored hreturned)
  · exact hrsp.trans hd.entered

/-- One step of the call. -/
theorem SyscallCore.Along.step (herror : (syscallHandler sysperm handles (ρ .rax)).2 = error)
    (h : k.Along ρ rsp error) (hs : k.CallStep sysperm handles k') : k'.Along ρ rsp error := by
  cases hs with
  | @exec pc i hpc hi hcall =>
      obtain ⟨f₀, hf₀, hk, hd⟩ := h.of_pc hpc
      obtain ⟨f, f', hf, htransfer, hsucc⟩ := exists_transfer hi
      obtain rfl := Option.some.inj (hf.symm.trans hf₀)
      by_cases hsysret : i = .sysret
      · subst hsysret
        have hback := Thread.Denotes.sysret hk hd hi htransfer
        have hnone : (k.exec pc .sysret).running.pc = none := by
          simp only [SyscallCore.exec, running_setRunning]
        rw [Along, hnone]
        exact hback
      · have hnext : (k.exec pc i).running.pc = some (pc + 1) := by
          cases i <;> first | exact absurd rfl hsysret | simp [SyscallCore.exec]
        rw [Along, hnext]
        refine ⟨f', hsucc, hk.exec hcall hsysret htransfer, ?_⟩
        rw [regsAt_succ hi]
        exact hd.exec hk hcall hsysret htransfer
  | @work pc stack hpc hi hkeeps =>
      obtain ⟨f, hf, hk, hd⟩ := h.of_pc hpc
      have hsame : ({ k with stack := stack } : SyscallCore).running = k.running := rfl
      rw [Along, hsame, hpc]
      exact ⟨f, hf, hk.congr rfl rfl rfl hkeeps, hd⟩
  | @handlerReturn pc regs ret error' hpc hi hret hrax =>
      obtain ⟨f₀, hf₀, hk, hd⟩ := h.of_pc hpc
      obtain ⟨f, f', hf, htransfer, hsucc⟩ := exists_transfer hi
      obtain rfl := Option.some.inj (hf.symm.trans hf₀)
      -- the handler was called with the number that the caller had in `rax`
      rw [hk.rax hd hi] at hret
      obtain rfl : error' = error := by
        rw [← herror, hret]
      have hnext : (k.handlerReturn pc error' regs).running.pc = some (pc + 1) := by
        simp only [SyscallCore.handlerReturn, running_setRunning]
      rw [Along, hnext]
      refine ⟨f', hsucc, hk.handlerReturn htransfer error' regs, ?_⟩
      rw [regsAt_succ hi]
      exact hd.handlerReturn regs

/-- The registers at the entry: `syscall` has left the return address in `rcx` and the flags in
`r11`. -/
def SyscallCore.entryRegs (k : SyscallCore) (rip rflags : Word) : Reg → Word :=
  Function.update (Function.update k.running.regs .rcx rip) .r11 rflags

theorem SyscallCore.along_enter (k : SyscallCore) (rip rflags error : Word) :
    (k.enter rip rflags).Along (k.entryRegs rip rflags) k.running.rsp error := by
  have hpc : (k.enter rip rflags).running.pc = some 0 := by
    simp only [SyscallCore.enter, running_setRunning]
  rw [Along, hpc]
  refine ⟨CallFacts.entry, rfl, k.knows_enter rip rflags, ?_⟩
  simp only [SyscallCore.enter, running_setRunning]
  refine ⟨fun r r₀ hr => ?_, fun j r₀ hj => ?_, (fun hc => by cases hc),
    (fun hc => by cases hc), rfl⟩
  · rw [← Option.some.inj hr]
    rfl
  · cases hj

/-- **What a call returns**: every register as at the entry, but `rdx`, which is the error. -/
theorem SyscallCore.call_returns (rip rflags : Word)
    (hrun : Run (SyscallCore.CallStep sysperm handles) (k.enter rip rflags) k')
    (hdone : k'.running.pc = none) :
    k'.running.Back (k.entryRegs rip rflags) k.running.rsp
      (syscallHandler sysperm handles (k.entryRegs rip rflags .rax)).2 := by
  have hstep := fun (j j' : SyscallCore)
    (h : j.Along (k.entryRegs rip rflags) k.running.rsp
      (syscallHandler sysperm handles (k.entryRegs rip rflags .rax)).2)
    (hs : j.CallStep sysperm handles j') => h.step rfl hs
  have halong := Run.invariant hstep (k.along_enter rip rflags _) hrun
  rw [Along, hdone] at halong
  exact halong

/-- Every instruction but the last has one behind it. -/
theorem syscallMain_next {pc : ℕ} {i : Instr} (hi : syscallMain[pc]? = some i)
    (hsysret : i ≠ .sysret) : pc + 1 < syscallMain.length := by
  have hall : ∀ pc < syscallMain.length, syscallMain[pc]? ≠ some .sysret →
      pc + 1 < syscallMain.length := by
    decide +kernel
  refine hall pc (List.getElem?_eq_some_iff.mp hi).1 ?_
  rw [hi]
  exact fun heq => hsysret (Option.some.inj heq)

/-- An instruction of a call can always be executed, and ends the call or leads to the next. -/
theorem SyscallCore.CallStep.exists_next (sysperm : Word) (handles : SyscallHandles) {pc : ℕ}
    (hpc : k.running.pc = some pc) (hlt : pc < syscallMain.length) :
    ∃ k', k.CallStep sysperm handles k' ∧ (k'.running.pc = none ∨
      k'.running.pc = some (pc + 1) ∧ pc + 1 < syscallMain.length) := by
  have hi : syscallMain[pc]? = some syscallMain[pc] := List.getElem?_eq_getElem hlt
  by_cases hcall : syscallMain[pc] = .call
  · have hnext := syscallMain_next hi (by rw [hcall]; nofun)
    rw [hcall] at hi
    -- the handler returns, with its result in every register
    refine ⟨_, .handlerReturn (fun _ => _) hpc hi rfl rfl, .inr ⟨?_, hnext⟩⟩
    simp only [SyscallCore.handlerReturn, running_setRunning]
  · refine ⟨_, .exec hpc hi hcall, ?_⟩
    by_cases hsysret : syscallMain[pc] = .sysret
    · left
      rw [hsysret]
      simp only [SyscallCore.exec, running_setRunning]
    · right
      refine ⟨?_, syscallMain_next hi hsysret⟩
      cases hinstr : syscallMain[pc] <;>
        first | exact absurd hinstr hsysret | simp [SyscallCore.exec]

/-- **Every call can run to its end.** -/
theorem SyscallCore.call_completes (k : SyscallCore) (sysperm : Word) (handles : SyscallHandles)
    (rip rflags : Word) :
    ∃ k', Run (SyscallCore.CallStep sysperm handles) (k.enter rip rflags) k' ∧
      k'.running.pc = none := by
  have hfrom : ∀ n pc : ℕ, ∀ k : SyscallCore, syscallMain.length - pc = n →
      k.running.pc = some pc → pc < syscallMain.length →
      ∃ k', Run (SyscallCore.CallStep sysperm handles) k k' ∧ k'.running.pc = none := by
    -- the code has no jumps: `n` is the number of instructions that are left
    intro n
    induction n with
    | zero => exact fun pc k hn _ hlt => absurd hn (by omega)
    | succ n ih =>
        intro pc k hn hpc hlt
        obtain ⟨k₁, hstep, hdone | ⟨hpc₁, hlt₁⟩⟩ := CallStep.exists_next sysperm handles hpc hlt
        · exact ⟨k₁, .single hstep, hdone⟩
        · obtain ⟨k', hrun, hdone⟩ := ih (pc + 1) k₁ (by omega) hpc₁ hlt₁
          exact ⟨k', .head hstep hrun, hdone⟩
  refine hfrom _ 0 (k.enter rip rflags) rfl ?_ (by decide +kernel)
  simp only [SyscallCore.enter, running_setRunning]

end Call

/-- **The result reaches the caller**: `rax` is what `syscall_handler` returned, `rdx` is nonzero
exactly for a call that was rejected or whose handler returned nonzero, and the other registers
that a call keeps are as at the entry. -/
structure Thread.Receives (t : Thread) (sysperm : Word) (handles : SyscallHandles)
    (ρ : Reg → Word) (rsp : Word) : Prop where
  rax : t.regs .rax = (syscallHandler sysperm handles (ρ .rax)).1
  rdx : t.regs .rdx ≠ 0 ↔ syscallOutcome sysperm handles (ρ .rax) ≠ some 0
  rsp : t.rsp = rsp
  kept : ∀ r, r ≠ .rax → r ≠ .rcx → r ≠ .rdx → r ≠ .r11 → t.regs r = ρ r

/-- The call number `i` is in `rax`, the context may make that call, and its handler returns the
number of the call. -/
def ReturnsItself (sysperm : Word) (handles : SyscallHandles) (rax : Word) : Prop :=
  ∃ i : Fin syscallCount, rax = BitVec.ofNat 64 i ∧ sysperm &&& 1#64 <<< i.val = 0 ∧
    handles i = some (BitVec.ofNat 32 i)

instance (sysperm : Word) (handles : SyscallHandles) (rax : Word) :
    Decidable (ReturnsItself sysperm handles rax) :=
  inferInstanceAs (Decidable (∃ _ : Fin syscallCount, _))

theorem returnsItself_iff (sysperm : Word) (handles : SyscallHandles) (rax : Word) :
    ReturnsItself sysperm handles rax ↔
      ∃ error, syscallOutcome sysperm handles rax = some error ∧ rax = error.signExtend 64 := by
  constructor
  · rintro ⟨i, hrax, hperm, hi⟩
    have hlt : i.val < 8 := i.isLt
    have hnat : (BitVec.ofNat 32 i.val).toNat = i.val := by
      rw [BitVec.toNat_ofNat]
      omega
    have hext : rax = (BitVec.ofNat 32 i.val).signExtend 64 := by
      rw [hrax, signExtend_of_small (hnat.symm ▸ i.isLt), hnat]
    have hindex : (syscallIndex rax).toNat = i.val := by
      rw [syscallIndex, hext, setWidth_signExtend, hnat]
    refine ⟨BitVec.ofNat 32 i.val, ?_, hext⟩
    simp only [syscallOutcome, hindex, i.isLt, dif_pos, hperm, ne_eq, not_true, if_false, Fin.eta,
      hi]
  · rintro ⟨error, houtcome, hrax⟩
    have hindex : syscallIndex rax = error := by
      rw [syscallIndex, hrax, setWidth_signExtend]
    simp only [syscallOutcome, hindex] at houtcome
    split_ifs at houtcome with hlt hperm
    refine ⟨⟨error.toNat, hlt⟩, ?_, not_not.mp hperm, ?_⟩
    · rw [hrax, signExtend_of_small hlt]
    · rw [houtcome, BitVec.ofNat_toNat, BitVec.setWidth_eq]

/-- **When the result of a call reaches the caller**: exactly if the call is in `rax` and
allowed, and its handler returns the number of the call. -/
theorem syscall_result_iff {k k' : SyscallCore} {sysperm : Word} {handles : SyscallHandles}
    {rip rflags : Word}
    (hrun : Run (SyscallCore.CallStep sysperm handles) (k.enter rip rflags) k')
    (hdone : k'.running.pc = none) :
    k'.running.Receives sysperm handles (k.entryRegs rip rflags) k.running.rsp ↔
      ReturnsItself sysperm handles (k.running.regs .rax) := by
  have hback := SyscallCore.call_returns rip rflags hrun hdone
  have hentry : k.entryRegs rip rflags .rax = k.running.regs .rax := rfl
  have hrax := hback.regs .rax (by decide)
  have hrdx := hback.rdx
  rw [hentry, syscallHandler_eq] at hrdx
  rw [returnsItself_iff]
  constructor
  · intro hreceives
    have hret := hreceives.rax
    have herror := hreceives.rdx
    rw [hrax, hentry, syscallHandler_eq] at hret
    rw [hentry, hrdx] at herror
    rcases houtcome : syscallOutcome sysperm handles (k.running.regs .rax) with - | error
    · -- a rejected call has stored no error
      rw [houtcome] at herror
      exact absurd rfl (herror.mpr nofun)
    · rw [houtcome] at hret
      exact ⟨error, rfl, hret⟩
  · rintro ⟨error, houtcome, hret⟩
    rw [houtcome] at hrdx
    refine ⟨?_, ?_, hback.rsp, fun r _ _ hr _ => hback.regs r hr⟩
    · rw [hrax, hentry, syscallHandler_eq, houtcome]
      exact hret
    · rw [hrdx, hentry, houtcome, Ne, signExtend_eq_zero_iff, Ne, Option.some_inj]

/-- A context in user mode with `rax` in its registers. -/
def callerWith (rax : Word) : SyscallCore :=
  { twoContexts with threads := fun _ => ⟨none, fun _ => rax, 0x7000, true, [], 0, 0⟩ }

/-- `log` returns 0, the number of the call. -/
theorem syscall_result_log :
    ∃ k', Run (SyscallCore.CallStep 0 fun _ => some 0) ((callerWith 0).enter 0x401000 0x202) k' ∧
      k'.running.Receives 0 (fun _ => some 0) ((callerWith 0).entryRegs 0x401000 0x202) 0x7000 := by
  obtain ⟨k', hrun, hdone⟩ := (callerWith 0).call_completes 0 (fun _ => some 0) 0x401000 0x202
  exact ⟨k', hrun, (syscall_result_iff hrun hdone).mpr ⟨⟨0, by decide⟩, rfl, by decide, rfl⟩⟩

/-- **Results that do not reach the caller.**  The handler of call 3 returns `-1`: the caller
finds 3 in `rax`.  Call 99 is rejected: the caller finds 99 in `rax` and no error in `rdx`. -/
theorem syscall_result_lost :
    (∃ k', Run (SyscallCore.CallStep 0 fun _ => some (-1))
        ((callerWith 3).enter 0x401000 0x202) k' ∧
      k'.running.pc = none ∧ (syscallHandler 0 (fun _ => some (-1)) 3).1 = -1 ∧
      k'.running.regs .rax = 3 ∧
      ¬ k'.running.Receives 0 (fun _ => some (-1)) ((callerWith 3).entryRegs 0x401000 0x202)
        0x7000) ∧
    ∃ k', Run (SyscallCore.CallStep 0 fun _ => some 0) ((callerWith 99).enter 0x401000 0x202) k' ∧
      k'.running.pc = none ∧ syscallOutcome 0 (fun _ => some 0) 99 = none ∧
      k'.running.regs .rax = 99 ∧ k'.running.regs .rdx = 0 ∧
      ¬ k'.running.Receives 0 (fun _ => some 0) ((callerWith 99).entryRegs 0x401000 0x202)
        0x7000 := by
  constructor
  · obtain ⟨k', hrun, hdone⟩ := (callerWith 3).call_completes 0 (fun _ => some (-1)) 0x401000 0x202
    have hback := SyscallCore.call_returns 0x401000 0x202 hrun hdone
    have hrax : k'.running.regs .rax = 3 := hback.regs .rax (by decide)
    refine ⟨k', hrun, hdone, by decide, hrax, fun hreceives => ?_⟩
    exact absurd (hrax.symm.trans hreceives.rax) (by decide)
  · obtain ⟨k', hrun, hdone⟩ := (callerWith 99).call_completes 0 (fun _ => some 0) 0x401000 0x202
    have hback := SyscallCore.call_returns 0x401000 0x202 hrun hdone
    have hrax : k'.running.regs .rax = 99 := hback.regs .rax (by decide)
    have hrdx : k'.running.regs .rdx = 0 := hback.rdx
    refine ⟨k', hrun, hdone, by decide, hrax, hrdx, fun hreceives => ?_⟩
    exact absurd hrdx (hreceives.rdx.mpr (by decide))

end Rock
