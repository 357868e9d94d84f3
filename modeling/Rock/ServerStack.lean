/-
Rock/ServerStack.lean

The first stack of a server (`launch_server` of kernel/core/server.c, from the module on).

The stack is [0x20000, 0x30000).  Its pages are mapped from the top down, starting with the
page at `user_stack.sp`, which is the first one above the stack; so the sixteen pages are
those from 0x21000 to 0x30000, the lowest page of the stack is missing, and one page above
it is mapped.  This is so in every launch that returns 0 (`stack_exact_iff`).

What else is asked of the stack holds as far as the missing page allows (`StackShifted`): the
frames are frames of the block, an argument of up to fifteen pages can be read at `rdi`, and
`rsp` is below it and aligned.  The block has 48 pages, and nothing tests whether there was
one.
-/
import Rock.ElfLoad
import Rock.Notification

namespace Rock

variable {σ : Type}

/-! ### Blocks of frames -/

/-- An allocator that also hands out blocks of pages. -/
structure BlockSource (σ : Type) extends FrameSource σ where
  allocBlock : ℕ → σ → Option (Word × σ)
  block_page : ∀ {n s base s'}, allocBlock n s = some (base, s') → base.toNat % 0x1000 = 0
  block_fits : ∀ {n s base s'}, allocBlock n s = some (base, s') →
    base.toNat + n * 0x1000 ≤ physTop
  block_fresh : ∀ {n s base s'}, allocBlock n s = some (base, s') →
    ∀ i < n, ¬ Live s (base + BitVec.ofNat 64 (i * 0x1000))
  block_mono : ∀ {n s base s' g}, allocBlock n s = some (base, s') → Live s g → Live s' g

/-- The `n` pages from `base` on are cleared. -/
def clearBlock (ram : Bytes) (base : Word) (n : ℕ) : Bytes := fun k =>
  if base.toNat ≤ k ∧ k < base.toNat + n * 0x1000 then 0 else ram k

/-- `pmm_alloc(n, 1)`, which clears the block; `none` is -1. -/
def takeBlock (src : BlockSource σ) (n : ℕ) (s : LoadState σ) : Option Word × LoadState σ :=
  match src.allocBlock n s.pmm with
  | none => (none, s)
  | some (base, pmm) => (some base, { s with pmm := pmm, ram := clearBlock s.ram base n })

/-! ### The launch -/

/-- `SERVER_DEFAULT_STACK_SIZE`. -/
def serverStackSize : Word := 0x10000

/-- `SERVER_DEFAULT_STACK_LOCATION + SERVER_DEFAULT_STACK_SIZE`. -/
def serverStackTop : Word := 0x20000 + serverStackSize

/-- The pages of the block, `user_stack.sp / PAGE_SIZE`. -/
def stackBlockPages : ℕ := (serverStackTop / 0x1000).toNat

/-- The rounds of the loop, `SERVER_DEFAULT_STACK_SIZE / PAGE_SIZE`. -/
def stackPageCnt : ℕ := (serverStackSize / 0x1000).toNat

/-- `X86_FLAGS_P | X86_FLAGS_RW | X86_FLAGS_US`. -/
def stackFlags : Word := flagP ||| flagRW ||| flagUS

/-- What `launch_server` leaves: memory with the new page table, the registers, the stack, the
block that `pmm_alloc` returned for it, and the addresses that the loop has mapped.  The code
keeps neither of the last two. -/
structure ServerContext (σ : Type) where
  load : LoadState σ
  regs : Registers
  userStack : Stack
  block : Option Word
  mapped : List Word

/-- The address that round `i` of the loop maps. -/
def stackPage (stackVirtual : Word) (i : ℕ) : Word := stackVirtual - BitVec.ofNat 64 (i * 0x1000)

/-- The page table after `n` rounds of the loop. -/
def stackMap (stackVirtual stackPhysical : Word) (M : VMap) : ℕ → VMap
  | 0 => M
  | i + 1 => (stackMap stackVirtual stackPhysical M i).cover (stackPage stackVirtual i)
      (decode .small (stackPage stackPhysical i ||| stackFlags))

/-- `location`, once there is room for the argument. -/
def argLocation (location : Word) : Option (List (BitVec 8)) → Word
  | none => location
  | some arg => location - BitVec.ofNat 64 arg.length

/-- The `memcpy` of the argument to a physical address. -/
def placeArg (ram : Bytes) (dst : Word) : Option (List (BitVec 8)) → Bytes
  | none => ram
  | some arg => copyIn ram dst.toNat (fun z => arg.getD z.toNat 0) 0 arg.length

/-- The address on the stack of what is at `location`. -/
def stackAddr (stackPhysical highVma location : Word) : Word :=
  serverStackTop - (stackPhysical - (location - highVma))

/-- The part of `launch_server` that makes the stack and places the argument.  The -1 of a
failed `pmm_alloc` is taken for an address. -/
def serverStack (src : BlockSource σ) (highVma : Word) (arg : Option (List (BitVec 8)))
    (regs : Registers) (s : LoadState σ) : ServerContext σ :=
  let (block, s) := takeBlock src stackBlockPages s
  let stackPhysical := block.getD (-1) + serverStackSize
  let location := argLocation (stackPhysical + highVma) arg
  { load := { s with
      ram := placeArg s.ram (location - highVma) arg
      map := stackMap serverStackTop stackPhysical s.map stackPageCnt }
    regs := { regs with
      rdi := if arg.isSome then stackAddr stackPhysical highVma location else regs.rdi
      rsp := stackAddr stackPhysical highVma (location &&& -16) }
    userStack := ⟨serverStackTop, serverStackSize⟩
    block := block
    mapped := (List.range stackPageCnt).map (stackPage serverStackTop) }

/-- The registers that the server starts with, without its stack. -/
def entryRegs (file : ElfFile) (regs : Registers) : Registers :=
  { regs with
    rip := file.loadOffset + word64 file.hdr 24
    cs := 0x43
    rflags := 0x202
    ss := 0x3b }

/-- `launch_server` of a server with the module `file`; `none` is -1.  `blank` is
`create_blank_context`: what it makes of memory, with the new page table, and the registers
of the new context. -/
def launchContext (src : BlockSource σ) (highVma : Word)
    (blank : LoadState σ → Option (LoadState σ × Registers)) (file : ElfFile)
    (arg : Option (List (BitVec 8))) (s : LoadState σ) : Exec (Option (ServerContext σ)) := do
  let some file ← elf64FileInit file | .ok none
  match blank s with
  | none => .ok none
  | some (s, regs) => do
      let s ← elf64FileLoad src.toFrameSource file s
      .ok (some (serverStack src highVma arg (entryRegs file regs) s))

/-! ### What is to be shown -/

/-- `arg_length`. -/
def argLength (arg : Option (List (BitVec 8))) : ℕ := (arg.map List.length).getD 0

namespace ServerContext

variable (c : ServerContext σ)

/-- The address is in [`user_stack.sp` - `user_stack.size`, `user_stack.sp`). -/
def OnStack (v : Word) : Prop :=
  c.userStack.sp.toNat - c.userStack.size.toNat ≤ v.toNat ∧ v.toNat < c.userStack.sp.toNat

/-- The address is in that range or at its end, where an empty stack starts. -/
def InStack (v : Word) : Prop :=
  c.userStack.sp.toNat - c.userStack.size.toNat ≤ v.toNat ∧ v.toNat ≤ c.userStack.sp.toNat

/-- The page of `v` can be written by the server, and its frame is a frame of the block. -/
def Backed (v : Word) : Prop :=
  ∃ base tr, c.block = some base ∧ c.load.map v = some tr ∧ tr.size = .small ∧
    has tr.flags flagP ∧ has tr.flags flagRW ∧ has tr.flags flagUS ∧
    ∃ i < stackBlockPages, tr.frame = base + BitVec.ofNat 64 (i * 0x1000)

/-- The bytes from `rdi` on are the argument. -/
def Reads (arg : List (BitVec 8)) : Prop :=
  ∀ i < arg.length, c.load.byteAt (c.regs.rdi + BitVec.ofNat 64 i) = arg[i]?

end ServerContext

/-- **The stack is fully backed and carries the argument.** -/
structure StackExact (arg : Option (List (BitVec 8))) (c : ServerContext σ) : Prop where
  backed : ∀ v, c.OnStack v → c.Backed v
  distinct : ∀ v v' tr tr', c.OnStack v → c.OnStack v' → pageOf v ≠ pageOf v' →
    c.load.map v = some tr → c.load.map v' = some tr' → tr.frame ≠ tr'.frame
  only : ∀ v ∈ c.mapped, c.OnStack v
  reads : ∀ bytes, arg = some bytes → c.Reads bytes
  aligned : c.regs.rsp.toNat % 16 = 0
  below : arg.isSome → c.regs.rsp.toNat ≤ c.regs.rdi.toNat ∧ c.InStack c.regs.rdi
  inside : c.InStack c.regs.rsp

/-- The pages that the loop maps. -/
def StackWindow (p : ℕ) : Prop := 0x21 ≤ p ∧ p ≤ 0x30

/-- What holds of the stack instead, on the memory `s` that the loader has left: the window is
one page too high. -/
structure StackShifted (src : BlockSource σ) (highVma : Word) (s : LoadState σ)
    (arg : Option (List (BitVec 8))) (base : Word) (c : ServerContext σ) : Prop where
  window : ∀ v, StackWindow (pageOf v) → c.load.map v
    = some ⟨base + BitVec.ofNat 64 ((pageOf v - 0x20) * 0x1000), stackFlags, .small⟩
  keeps : s.Keeps src.toFrameSource StackWindow c.load
  reads : ∀ bytes, arg = some bytes → bytes.length ≤ 0xf000 → c.Reads bytes
  unread : ∀ bytes, arg = some bytes → 0xf000 < bytes.length →
    s.map (c.regs.rdi) = none → c.load.byteAt c.regs.rdi = none
  aligned : highVma.toNat % 16 = 0 → c.regs.rsp.toNat % 16 = 0 ∧ c.InStack c.regs.rsp ∧
    (arg.isSome → c.regs.rsp.toNat ≤ c.regs.rdi.toNat ∧ c.InStack c.regs.rdi)

/-- The module has been loaded: memory is `s'` and the registers are `regs`. -/
def LoadsModule (src : BlockSource σ) (blank : LoadState σ → Option (LoadState σ × Registers))
    (file : ElfFile) (s s' : LoadState σ) (regs : Registers) : Prop :=
  ∃ file' s₀ regs₀, elf64FileInit file = .ok (some file') ∧ blank s = some (s₀, regs₀) ∧
    elf64FileLoad src.toFrameSource file' s₀ = .ok s' ∧ regs = entryRegs file' regs₀

/-! ### The loop -/

theorem toNat_serverStackTop : serverStackTop.toNat = 0x30000 := by decide

theorem toNat_serverStackSize : serverStackSize.toNat = 0x10000 := by decide

section Loop

variable {i n : ℕ} {v stackPhysical base : Word} {M : VMap}

theorem toNat_stackPage (hi : i ≤ 0x30) :
    (stackPage serverStackTop i).toNat = 0x30000 - i * 0x1000 := by
  rw [stackPage, BitVec.toNat_sub, toNat_start (by omega), toNat_serverStackTop]
  omega

theorem pageOf_stackPage (hi : i ≤ 0x30) : pageOf (stackPage serverStackTop i) = 0x30 - i := by
  rw [pageOf, toNat_stackPage hi]
  omega

/-- After `n` rounds the pages from the one at the top down are mapped. -/
theorem stackMap_eq (hn : n ≤ 0x30) : stackMap serverStackTop stackPhysical M n v
    = if 0x30 < pageOf v + n ∧ pageOf v ≤ 0x30 then
        some (decode .small (stackPage stackPhysical (0x30 - pageOf v) ||| stackFlags))
      else M v := by
  induction n with
  | zero => exact (if_neg (by omega)).symm
  | succ n ih =>
      rw [stackMap, cover_small, pageOf_stackPage (by omega), ih (by omega)]
      by_cases hpage : 0x30 - n = pageOf v
      · -- the page of this round
        rw [if_pos hpage, if_pos (by omega), show 0x30 - pageOf v = n by omega]
      · rw [if_neg hpage]
        exact if_congr (by omega) rfl rfl

/-- The physical addresses go down with the virtual ones. -/
theorem stackPage_physical (hi : i ≤ 0x10) : stackPage (base + serverStackSize) i
    = base + BitVec.ofNat 64 ((0x10 - i) * 0x1000) := by
  have hsize : serverStackSize
      = BitVec.ofNat 64 ((0x10 - i) * 0x1000) + BitVec.ofNat 64 (i * 0x1000) := by
    rw [← BitVec.ofNat_add, ← Nat.add_mul, Nat.sub_add_cancel hi]
    rfl
  rw [stackPage, hsize, ← BitVec.add_assoc, BitVec.add_sub_cancel]

end Loop

/-! ### The block -/

section Block

variable {src : BlockSource σ} {n i d : ℕ} {p p' : σ} {base f : Word}
  (hb : src.allocBlock n p = some (base, p'))

include hb

theorem BlockSource.toNat_page (hi : i < n) :
    (base + BitVec.ofNat 64 (i * 0x1000)).toNat = base.toNat + i * 0x1000 := by
  have hfits := src.block_fits hb
  simp only [physTop] at hfits
  rw [toNat_add_ofNat]
  omega

theorem BlockSource.isFrame (hi : i < n) :
    IsFrame .small (base + BitVec.ofNat 64 (i * 0x1000)) := by
  have hpage := src.block_page hb
  have hfits := src.block_fits hb
  have heq : base + BitVec.ofNat 64 (i * 0x1000) = BitVec.ofNat 64 (base.toNat + i * 0x1000) := by
    rw [BitVec.ofNat_add, BitVec.ofNat_toNat, BitVec.setWidth_eq]
  rw [heq]
  refine isFrame_page (Nat.dvd_of_mod_eq_zero ?_) (by omega)
  rw [pageSize]
  omega

/-- A frame that was in use before has no byte in the block. -/
theorem BlockSource.apart (hf : IsFrame .small f) (hlive : src.Live p f) (hd : d < 0x1000) :
    f.toNat + d < base.toNat ∨ base.toNat + n * 0x1000 ≤ f.toNat + d := by
  by_contra hin
  obtain ⟨a, ha⟩ := hf.dvd
  have hpage := src.block_page hb
  rw [pageSize] at ha
  -- it would be one of the pages of the block, which were not in use
  have hi : a - base.toNat / 0x1000 < n := by omega
  refine src.block_fresh hb _ hi ?_
  have heq : base + BitVec.ofNat 64 ((a - base.toNat / 0x1000) * 0x1000) = f := by
    apply BitVec.eq_of_toNat_eq
    rw [BlockSource.toNat_page hb hi]
    omega
  rwa [heq]

end Block

/-! ### The addresses -/

section Addresses

variable {stackPhysical highVma base : Word} {arg : Option (List (BitVec 8))}

theorem argLength_some (bytes : List (BitVec 8)) : argLength (some bytes) = bytes.length := rfl

theorem argLocation_eq (location : Word) (arg : Option (List (BitVec 8))) :
    argLocation location arg = location - BitVec.ofNat 64 (argLength arg) := by
  cases arg with
  | none => exact (BitVec.sub_zero location).symm
  | some bytes => rfl

/-- The argument is so far below the top, in memory and on the stack. -/
theorem argLocation_physical : argLocation (stackPhysical + highVma) arg - highVma
    = stackPhysical - BitVec.ofNat 64 (argLength arg) := by
  rw [argLocation_eq]
  grind

theorem stackAddr_sub (d : Word) : stackAddr stackPhysical highVma (stackPhysical + highVma - d)
    = serverStackTop - d := by
  rw [stackAddr]
  grind

theorem and_neg_sixteen (x : Word) : x &&& -16 = x - BitVec.ofNat 64 (x.toNat % 16) := by
  have hlow : (x &&& -16).toNat = x.toNat / 16 * 16 := toNat_and_shiftLeft x 4
  have hlt := x.isLt
  apply BitVec.eq_of_toNat_eq
  rw [hlow, BitVec.toNat_sub, BitVec.toNat_ofNat]
  omega

theorem toNat_top_sub {k : ℕ} (hk : k ≤ 0x30000) :
    (serverStackTop - BitVec.ofNat 64 k).toNat = 0x30000 - k := by
  rw [BitVec.toNat_sub, BitVec.toNat_ofNat, toNat_serverStackTop]
  omega

/-- A longer argument than fifteen pages starts on the lowest page of the stack. -/
theorem not_stackWindow_of_long {len : ℕ} (hlong : 0xf000 < len) (hlen : len ≤ 0x10000) :
    ¬ StackWindow (pageOf (serverStackTop - BitVec.ofNat 64 len)) := by
  rw [StackWindow, pageOf, toNat_top_sub (by omega)]
  omega

/-- Where the argument is in memory. -/
theorem toNat_argument {len : ℕ} (hlen : len ≤ 0x10000)
    (hfits : base.toNat + 0x30000 ≤ physTop) :
    (base + serverStackSize - BitVec.ofNat 64 len).toNat = base.toNat + 0x10000 - len := by
  simp only [physTop] at hfits
  rw [BitVec.toNat_sub, BitVec.toNat_add, BitVec.toNat_ofNat,
    toNat_serverStackSize]
  omega

end Addresses

/-! ### The launch -/

section Launch

variable {src : BlockSource σ} {highVma base : Word} {arg : Option (List (BitVec 8))}
  {regs : Registers} {s : LoadState σ}

theorem takeBlock_some (h : (takeBlock src stackBlockPages s).1 = some base) :
    ∃ pmm, src.allocBlock stackBlockPages s.pmm = some (base, pmm) ∧
      takeBlock src stackBlockPages s
        = (some base, { s with pmm := pmm, ram := clearBlock s.ram base stackBlockPages }) := by
  rw [takeBlock] at h ⊢
  rcases ha : src.allocBlock stackBlockPages s.pmm with - | ⟨base', pmm⟩ <;> rw [ha] at h
  · cases h
  · obtain rfl := Option.some.inj h
    exact ⟨pmm, rfl, rfl⟩

theorem serverStack_block : (serverStack src highVma arg regs s).block
    = (takeBlock src stackBlockPages s).1 :=
  rfl

theorem serverStack_onStack {v : Word} : (serverStack src highVma arg regs s).OnStack v
    ↔ 0x20000 ≤ v.toNat ∧ v.toNat < 0x30000 := by
  have hstack : (serverStack src highVma arg regs s).userStack
      = ⟨serverStackTop, serverStackSize⟩ := rfl
  rw [ServerContext.OnStack, hstack, toNat_serverStackTop,
    toNat_serverStackSize]

/-- **The stack that is made** when there is a block for it. -/
theorem serverStack_eq {pmm : σ}
    (h : takeBlock src stackBlockPages s
      = (some base, { s with pmm := pmm, ram := clearBlock s.ram base stackBlockPages })) :
    serverStack src highVma arg regs s =
      { load :=
          { pmm := pmm
            ram := placeArg (clearBlock s.ram base stackBlockPages)
              (base + serverStackSize - BitVec.ofNat 64 (argLength arg)) arg
            map := stackMap serverStackTop (base + serverStackSize) s.map stackPageCnt }
        regs := { regs with
          rdi := if arg.isSome then serverStackTop - BitVec.ofNat 64 (argLength arg)
            else regs.rdi
          rsp := stackAddr (base + serverStackSize) highVma
            (argLocation (base + serverStackSize + highVma) arg &&& -16) }
        userStack := ⟨serverStackTop, serverStackSize⟩
        block := some base
        mapped := (List.range stackPageCnt).map (stackPage serverStackTop) } := by
  rw [serverStack, h]
  dsimp only [Option.getD_some]
  rw [argLocation_physical, argLocation_eq, stackAddr_sub]

/-- The page table that is made. -/
theorem stackMap_window (hb : ∃ p', src.allocBlock stackBlockPages s.pmm = some (base, p'))
    (M : VMap) (v : Word) :
    stackMap serverStackTop (base + serverStackSize) M stackPageCnt v
      = if 0x21 ≤ pageOf v ∧ pageOf v ≤ 0x30 then
          some ⟨base + BitVec.ofNat 64 ((pageOf v - 0x20) * 0x1000), stackFlags, .small⟩
        else M v := by
  obtain ⟨p', hb⟩ := hb
  have hcnt : stackPageCnt = 0x10 := by decide
  have hpages : stackBlockPages = 0x30 := by decide
  rw [stackMap_eq (by omega), hcnt]
  by_cases hv : 0x21 ≤ pageOf v ∧ pageOf v ≤ 0x30
  · have hframe := BlockSource.isFrame hb (show pageOf v - 0x20 < stackBlockPages by omega)
    rw [if_pos (by omega), if_pos hv, stackPage_physical (by omega),
      show 0x10 - (0x30 - pageOf v) = pageOf v - 0x20 by omega]
    exact congrArg some (decode_pageFlags hframe true true)
  · rw [if_neg (by omega), if_neg hv]

theorem clearBlock_of_apart {ram : Bytes} {n k : ℕ}
    (hk : k < base.toNat ∨ base.toNat + n * 0x1000 ≤ k) : clearBlock ram base n k = ram k := by
  apply if_neg
  omega

/-- The argument is placed in the block, so what was in use stays as it was. -/
theorem placeArg_of_apart {ram : Bytes} {k : ℕ} (hlen : argLength arg ≤ 0x10000)
    (hfits : base.toNat + 0x30000 ≤ physTop)
    (hk : k < base.toNat ∨ base.toNat + 0x30000 ≤ k) :
    placeArg ram (base + serverStackSize - BitVec.ofNat 64 (argLength arg)) arg k = ram k := by
  cases arg with
  | none => rfl
  | some bytes =>
      rw [argLength_some] at hlen ⊢
      rw [placeArg, copyIn_of_outside]
      rw [toNat_argument hlen hfits]
      omega

/-- `rsp` is below the argument, by what the alignment takes. -/
theorem stackAddr_aligned (hpage : base.toNat % 0x1000 = 0) (hhigh : highVma.toNat % 16 = 0)
    (hlen : argLength arg ≤ 0x10000) :
    ∃ r, (argLength arg + r) % 16 = 0 ∧ argLength arg + r ≤ 0x10000 ∧
      stackAddr (base + serverStackSize) highVma
          (argLocation (base + serverStackSize + highVma) arg &&& -16)
        = serverStackTop - BitVec.ofNat 64 (argLength arg + r) := by
  set location := base + serverStackSize + highVma - BitVec.ofNat 64 (argLength arg)
    with hlocation
  have hmod : (location.toNat + argLength arg) % 16 = 0 := by
    rw [hlocation, BitVec.toNat_sub, BitVec.toNat_add, BitVec.toNat_add, BitVec.toNat_ofNat,
      toNat_serverStackSize]
    omega
  refine ⟨location.toNat % 16, by omega, by omega, ?_⟩
  have hsum : location - BitVec.ofNat 64 (location.toNat % 16) = base + serverStackSize + highVma
      - BitVec.ofNat 64 (argLength arg + location.toNat % 16) := by
    rw [BitVec.ofNat_add, hlocation]
    grind
  rw [argLocation_eq, ← hlocation, and_neg_sixteen, hsum, stackAddr_sub]

/-- Byte `i` of an argument that misses the lowest page is found on the stack. -/
theorem byteAt_argument {pmm : σ} {M : VMap} {ram : Bytes} {bytes : List (BitVec 8)} {i : ℕ}
    (hb : src.allocBlock stackBlockPages s.pmm = some (base, pmm))
    (hlen : bytes.length ≤ 0xf000) (hi : i < bytes.length) :
    LoadState.byteAt
        { pmm := pmm
          ram := placeArg ram (base + serverStackSize - BitVec.ofNat 64 bytes.length) (some bytes)
          map := stackMap serverStackTop (base + serverStackSize) M stackPageCnt }
        (serverStackTop - BitVec.ofNat 64 bytes.length + BitVec.ofNat 64 i) = bytes[i]? := by
  have hfits : base.toNat + 0x30000 ≤ physTop := src.block_fits hb
  set v := serverStackTop - BitVec.ofNat 64 bytes.length + BitVec.ofNat 64 i with hv
  have hnat : v.toNat = 0x30000 - bytes.length + i := by
    rw [hv, toNat_add_ofNat, toNat_top_sub (by omega)]
    omega
  have hpage : pageOf v = (0x30000 - bytes.length + i) / 0x1000 := by
    rw [pageOf, hnat]
    omega
  have hframe := BlockSource.toNat_page hb (show pageOf v - 0x20 < 0x30 by omega)
  rw [LoadState.byteAt]
  dsimp only
  rw [stackMap_window ⟨pmm, hb⟩, if_pos (by omega), Option.map_some]
  -- the byte of the frame is byte `i` of the copy
  have haddr : (base + BitVec.ofNat 64 ((pageOf v - 0x20) * 0x1000)).toNat + v.toNat % 0x1000
      = base.toNat + 0x10000 - bytes.length + i := by
    rw [hframe]
    omega
  show some (placeArg _ _ _ ((base + BitVec.ofNat 64 ((pageOf v - 0x20) * 0x1000)).toNat
    + v.toNat % 0x1000)) = _
  rw [haddr, placeArg, toNat_argument (by omega) hfits, copyIn_inside hi,
    List.getElem?_eq_getElem hi]
  simp [hi]

/-- **The stack is one page too high**, whatever the loader has left. -/
theorem serverStack_shifted (hlen : argLength arg ≤ 0x10000)
    (hblock : (serverStack src highVma arg regs s).block = some base) :
    StackShifted src highVma s arg base (serverStack src highVma arg regs s) := by
  obtain ⟨pmm, hb, htake⟩ := takeBlock_some (serverStack_block.symm.trans hblock)
  have hfits : base.toNat + 0x30000 ≤ physTop := src.block_fits hb
  rw [serverStack_eq htake]
  refine ⟨fun v hv => ?_, ⟨fun f hf => ?_, fun f hf hlive d hd => ?_, fun v hv => ?_⟩, ?_, ?_, ?_⟩
  · exact (stackMap_window ⟨pmm, hb⟩ s.map v).trans (if_pos hv)
  · exact src.block_mono hb hf
  · have hapart := BlockSource.apart hb hf hlive hd
    exact (placeArg_of_apart hlen hfits hapart).trans (clearBlock_of_apart hapart)
  · exact (stackMap_window ⟨pmm, hb⟩ s.map v).trans (if_neg hv)
  · rintro bytes rfl hshort i hi
    exact byteAt_argument hb hshort hi
  · rintro bytes rfl hlong hnone
    -- the argument starts on the lowest page, which is as the loader has left it
    have hlow := not_stackWindow_of_long hlong hlen
    have hmap := (stackMap_window ⟨pmm, hb⟩ s.map _).trans ((if_neg hlow).trans hnone)
    exact congrArg (Option.map _) hmap
  · intro hhigh
    obtain ⟨r, hmod, hle, hrsp⟩ := stackAddr_aligned (src.block_page hb) hhigh hlen
    have hnat := toNat_top_sub (show argLength arg + r ≤ 0x30000 by omega)
    have harg := toNat_top_sub (show argLength arg ≤ 0x30000 by omega)
    dsimp only [ServerContext.InStack]
    rw [hrsp, hnat, toNat_serverStackTop,
      toNat_serverStackSize]
    refine ⟨by omega, by omega, fun hsome => ?_⟩
    rw [if_pos hsome, harg]
    omega

/-- The page at the top is the first one that is mapped, and it is not on the stack. -/
theorem serverStack_not_exact : ¬ StackExact arg (serverStack src highVma arg regs s) := by
  intro h
  have hmem : serverStackTop ∈ (serverStack src highVma arg regs s).mapped := by
    apply List.mem_map.mpr
    exact ⟨0, by decide, by decide⟩
  exact lt_irrefl _ (h.only _ hmem).2

variable {blank : LoadState σ → Option (LoadState σ × Registers)} {file : ElfFile}
  {c : ServerContext σ}

/-- A launch that returns 0 has loaded the module and made the stack. -/
theorem launchContext_eq_some : launchContext src highVma blank file arg s = .ok (some c) ↔
    ∃ s' regs, LoadsModule src blank file s s' regs ∧ serverStack src highVma arg regs s' = c := by
  constructor
  · intro h
    obtain ⟨- | file', hinit, h⟩ := Exec.bind_eq_ok.mp h
    · cases h
    rcases hblank : blank s with - | ⟨s₀, regs₀⟩ <;> simp only [hblank] at h
    · cases h
    obtain ⟨s', hload, h⟩ := Exec.bind_eq_ok.mp h
    exact ⟨s', _, ⟨file', s₀, regs₀, hinit, hblank, hload, rfl⟩, Option.some.inj (Except.ok.inj h)⟩
  · rintro ⟨s', -, ⟨file', s₀, regs₀, hinit, hblank, hload, rfl⟩, rfl⟩
    refine Exec.bind_eq_ok.mpr ⟨_, hinit, ?_⟩
    simp only [hblank]
    exact Exec.bind_eq_ok.mpr ⟨_, hload, rfl⟩

end Launch

/-- **No stack is as it should be**: each launch that returns 0 leaves the lowest page of the
stack as the loader left it and maps the page above the stack, whatever its argument is.  Where
there was a block, the rest holds of the pages that are mapped. -/
theorem stack_exact_iff (src : BlockSource σ) (highVma : Word)
    (blank : LoadState σ → Option (LoadState σ × Registers)) (file : ElfFile) (s : LoadState σ)
    (arg : Option (List (BitVec 8))) :
    ((∀ c, launchContext src highVma blank file arg s = .ok (some c) → StackExact arg c) ↔
      ¬ ∃ c, launchContext src highVma blank file arg s = .ok (some c)) ∧
    (argLength arg ≤ serverStackSize.toNat → ∀ c,
      launchContext src highVma blank file arg s = .ok (some c) →
      ∃ s' regs, LoadsModule src blank file s s' regs ∧
        ∀ base, c.block = some base → StackShifted src highVma s' arg base c) := by
  refine ⟨⟨?_, fun hnone c hc => absurd ⟨c, hc⟩ hnone⟩, fun hlen c hc => ?_⟩
  · rintro hall ⟨c, hc⟩
    obtain ⟨s', regs, -, rfl⟩ := launchContext_eq_some.mp hc
    exact serverStack_not_exact (hall _ hc)
  · obtain ⟨s', regs, hloads, rfl⟩ := launchContext_eq_some.mp hc
    exact ⟨s', regs, hloads, fun base hblock => serverStack_shifted hlen hblock⟩

/-! ### A launch -/

/-- The block of the next `n` pages of memory. -/
def countBlock (n k : ℕ) : Option (Word × ℕ) :=
  if k + n ≤ 2 ^ 40 then some (BitVec.ofNat 64 (k * 0x1000), k + n) else none

theorem countBlock_cases {n k k' : ℕ} {base : Word} (h : countBlock n k = some (base, k')) :
    k + n ≤ 2 ^ 40 ∧ base = BitVec.ofNat 64 (k * 0x1000) ∧ k' = k + n := by
  obtain ⟨hfits, h⟩ := Option.ite_none_right_eq_some.mp h
  obtain ⟨rfl, rfl⟩ := Prod.mk.inj (Option.some.inj h)
  exact ⟨hfits, rfl, rfl⟩

section Counting

variable {n k k' : ℕ} {base g : Word} (h : countBlock n k = some (base, k'))

include h

theorem countBlock_page : base.toNat % 0x1000 = 0 := by
  obtain ⟨hfits, rfl, -⟩ := countBlock_cases h
  rw [BitVec.toNat_ofNat]
  omega

theorem countBlock_fits : base.toNat + n * 0x1000 ≤ physTop := by
  obtain ⟨hfits, rfl, -⟩ := countBlock_cases h
  rw [BitVec.toNat_ofNat, physTop]
  omega

/-- The pages of the block are behind those that were handed out before. -/
theorem countBlock_fresh (i : ℕ) (hi : i < n) :
    ¬ FrameSource.counting.Live k (base + BitVec.ofNat 64 (i * 0x1000)) := by
  obtain ⟨hfits, rfl, -⟩ := countBlock_cases h
  show ¬ (BitVec.ofNat 64 (k * 0x1000) + BitVec.ofNat 64 (i * 0x1000)).toNat < k * 0x1000
  rw [toNat_add_ofNat, toNat_start (by omega)]
  omega

theorem countBlock_mono (hlive : FrameSource.counting.Live k g) :
    FrameSource.counting.Live k' g := by
  obtain ⟨-, -, rfl⟩ := countBlock_cases h
  exact lt_of_lt_of_le hlive (Nat.mul_le_mul_right _ (Nat.le_add_right k n))

end Counting

/-- The allocator that hands out the pages of memory in their order, and blocks of them. -/
def BlockSource.counting : BlockSource ℕ where
  toFrameSource := FrameSource.counting
  allocBlock := countBlock
  block_page := countBlock_page
  block_fits := countBlock_fits
  block_fresh := countBlock_fresh
  block_mono := countBlock_mono

/-- A file without segments leaves memory as it is. -/
theorem elf64FileLoad_empty {src : FrameSource σ} {file : ElfFile} {bytes phdr : Bytes}
    (h : file.Holds bytes phdr 0) (s : LoadState σ) : elf64FileLoad src file s = .ok s := by
  have hsection : elf64LoadSection src file bssName s = .ok s := by
    rw [elf64LoadSection, h.findSection_eq]
  refine Exec.bind_eq_ok.mpr ⟨s, hsection, ?_⟩
  rw [h.phNum]
  rfl

/-- A module without segments is launched with an argument of fifteen pages and a byte: the
lowest page of the stack is not mapped, so the first byte of the argument cannot be read, and
the page above the stack is mapped. -/
theorem stack_missing_page : ∃ (file : ElfFile) (c : ServerContext ℕ),
    launchContext BlockSource.counting 0xffff800000000000 (fun s => some (s, default)) file
        (some (List.replicate 0xf001 1)) ⟨0x100, fun _ => 0, fun _ => none⟩ = .ok (some c) ∧
      argLength (some (List.replicate 0xf001 (1 : BitVec 8))) ≤ serverStackSize.toNat ∧
      c.OnStack 0x20000 ∧ c.load.map 0x20000 = none ∧
      0x30000 ∈ c.mapped ∧ ¬ c.OnStack 0x30000 ∧
      c.load.byteAt c.regs.rdi = none ∧ ¬ StackExact (some (List.replicate 0xf001 1)) c := by
  obtain ⟨file, ⟨file₀, hinit⟩, -, hholds⟩ := (laidOut_markedBytes (fun _ => 0) 0
    (show 0 < 2 ^ 16 by decide) (le_refl ehdrSize) (by decide) (x := 0x1000) (by decide)
    (by decide)).accepted 0
  set s : LoadState ℕ := ⟨0x100, fun _ => 0, fun _ => none⟩ with hs
  have hloads : LoadsModule BlockSource.counting (fun s => some (s, default)) file₀ s s
      (entryRegs file default) :=
    ⟨file, s, default, hinit, rfl, elf64FileLoad_empty hholds s, rfl⟩
  have hlength : (List.replicate 0xf001 (1 : BitVec 8)).length = 0xf001 := List.length_replicate
  generalize List.replicate 0xf001 (1 : BitVec 8) = bytes at hlength ⊢
  have hlen : argLength (some bytes) ≤ 0x10000 := by
    rw [argLength_some]
    omega
  have halloc : countBlock stackBlockPages 0x100 = some (0x100000, 0x130) := by decide
  have hblock : (takeBlock BlockSource.counting stackBlockPages s).1 = some 0x100000 := by
    show (match countBlock stackBlockPages 0x100 with
      | none => (none, s)
      | some (base, pmm) => (some base, _)).1 = _
    rw [halloc]
  have hshift : StackShifted BlockSource.counting 0xffff800000000000 s (some bytes) 0x100000
      (serverStack BlockSource.counting 0xffff800000000000 (some bytes)
        (entryRegs file default) s) :=
    serverStack_shifted hlen (serverStack_block.trans hblock)
  refine ⟨file₀, _, launchContext_eq_some.mpr ⟨s, _, hloads, rfl⟩, hlen, ?_, ?_, ?_, ?_, ?_,
    serverStack_not_exact⟩
  · exact serverStack_onStack.mpr (by decide)
  · exact hshift.keeps.map 0x20000 (by unfold StackWindow; decide)
  · exact List.mem_map.mpr ⟨0, by decide, by decide⟩
  · exact fun h => absurd (serverStack_onStack.mp h) (by decide)
  · exact hshift.unread bytes rfl (by omega) rfl

end Rock
