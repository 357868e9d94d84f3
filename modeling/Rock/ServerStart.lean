/-
Rock/ServerStart.lean

What a server finds when it starts: `launch_server` (kernel/core/server.c) as a whole, from the
bytes of its module to the registers of its context, with `elf64_file_aux` (kernel/core/elf.c).

The loader, the stack and the auxiliary vector are taken together, each for what it does leave:
segments that start on a page and have at least one (Rock/ElfSegments.lean), a stack that is a
page too high (Rock/ServerStack.lean).  For such a module nothing of one part is undone by
another: the stack takes fresh frames and other pages than the segments.

`server_starts`: with frames enough the launch returns; the server starts at its entry point, all
bytes of all segments are where the file says with the permissions of their headers, `at_phdr`
points at the program headers, the argument can be read at `rdi`, and `rsp` is aligned with stack
below it.
-/
import Rock.Access
import Rock.ElfAccept
import Rock.ElfSegments
import Rock.ServerStack

namespace Rock

variable {σ : Type}

/-! ### The auxiliary vector -/

/-- `struct aux`. -/
structure Aux where
  atPhnum : Word
  atPhent : Word
  atPhdr : Word
  atEntry : Word
  deriving DecidableEq

/-- `ELF_PT_PHDR`. -/
def elfPtPhdr : BitVec 32 := 6

/-- The loop of `elf64_file_aux`, over the first `n` program headers. -/
def auxPhdr (file : ElfFile) : ℕ → Word
  | 0 => 0
  | i + 1 =>
      if (file.phdrAt i).type = elfPtPhdr then file.loadOffset + (file.phdrAt i).vaddr
      else auxPhdr file i

/-- `elf64_file_aux`. -/
def elf64FileAux (file : ElfFile) : Aux where
  atPhnum := BitVec.ofNat 64 file.phNum
  atPhent := BitVec.ofNat 64 phdrSize
  atPhdr := auxPhdr file file.phNum
  atEntry := file.loadOffset + word64 file.hdr 24

/-- The program header `p` is the last one of type PT_PHDR, the file has its table where the
header says, and the table is inside the segment `i`. -/
structure ElfFile.PhdrsIn (file : ElfFile) (p i : ℕ) : Prop where
  type : (file.phdrAt p).type = elfPtPhdr
  lt : p < file.phNum
  last : ∀ q, p < q → q < file.phNum → (file.phdrAt q).type ≠ elfPtPhdr
  load : file.IsLoad i
  after : (file.phdrAt i).offset.toNat ≤ file.phoff.toNat
  inside : file.phoff.toNat + phdrSize * file.phNum
    ≤ (file.phdrAt i).offset.toNat + (file.phdrAt i).filesz.toNat
  vaddr : (file.phdrAt p).vaddr = (file.phdrAt i).vaddr
    + BitVec.ofNat 64 (file.phoff.toNat - (file.phdrAt i).offset.toNat)

section Aux

variable {file₀ file : ElfFile} {image : Image} {p i n : ℕ}

/-- The last header of the type counts. -/
theorem auxPhdr_last (htype : (file.phdrAt p).type = elfPtPhdr) (hlt : p < n)
    (hlast : ∀ q, p < q → q < n → (file.phdrAt q).type ≠ elfPtPhdr) :
    auxPhdr file n = file.loadOffset + (file.phdrAt p).vaddr := by
  induction n with
  | zero => exact absurd hlt (Nat.not_lt_zero p)
  | succ n ih =>
      rw [auxPhdr]
      rcases Nat.lt_succ_iff_lt_or_eq.mp hlt with hpn | rfl
      · rw [if_neg (hlast n hpn n.lt_succ_self)]
        exact ih hpn fun q hpq hqn => hlast q hpq (hqn.trans n.lt_succ_self)
      · rw [if_pos htype]

/-- Byte `m` of the table is byte `m` behind the place of the table in the segment. -/
theorem ElfFile.PhdrsIn.atPhdr_add (h : file.PhdrsIn p i) (m : ℕ) :
    (elf64FileAux file).atPhdr + BitVec.ofNat 64 m = file.segmentAddr (file.phdrAt i)
      (file.phoff.toNat - (file.phdrAt i).offset.toNat + m) := by
  rw [elf64FileAux, auxPhdr_last h.type h.lt h.last, h.vaddr, ElfFile.segmentAddr,
    BitVec.ofNat_add]
  simp only [BitVec.add_assoc]

/-- The table as `elf64_file_init` has read it. -/
theorem phdr_of_init (hinit : elf64FileInit file₀ = .ok (some file))
    (hb : file.buffer = some image) (hlen : file.length.toNat < 2 ^ 31)
    (hinside : file.phoff.toNat + phdrSize * file.phNum ≤ file.length.toNat) {m : ℕ}
    (hm : m < phdrSize * file.phNum) : file.phdr m = image (file.phoff.toNat + m : ℕ) := by
  obtain ⟨-, -, -, hphdr, -, hbuf, hlength, -⟩ := elf64FileInit_cases hinit
  have hsize : (BitVec.ofNat 64 (phdrSize * file.phNum)).toNat = phdrSize * file.phNum := by
    rw [BitVec.toNat_ofNat, Nat.mod_eq_of_lt (by omega)]
  have hread : readExactly file₀ file₀.phdr file.phoff (BitVec.ofNat 64 (phdrSize * file.phNum))
      = .ok (some (copyIn file₀.phdr 0 image file.phoff.toNat (phdrSize * file.phNum))) := by
    rw [readExactly_inside (hbuf ▸ hb) (hlength ▸ hlen)
      (by rw [hsize, ← hlength]; exact hinside), hsize]
  rw [Option.some.inj (Except.ok.inj (hphdr.symm.trans hread))]
  have hcopy : copyIn file₀.phdr 0 image file.phoff.toNat (phdrSize * file.phNum) (0 + m) = _ :=
    copyIn_inside hm
  rwa [Nat.zero_add] at hcopy

end Aux

/-! ### The start of a server -/

/-- What the flags of a segment's pages permit the server. -/
theorem Phdr.allowedBy_pageFlags (ph : Phdr) (a : Access) :
    a.AllowedBy ph.pageFlags ↔
      (a.write = true → ph.flags &&& 2 ≠ 0) ∧ (a.fetch = true → ph.flags &&& 4 ≠ 0) := by
  obtain ⟨write, user, fetch⟩ := a
  rw [Phdr.pageFlags]
  by_cases hw : ph.flags &&& 2 = 0 <;> by_cases hx : ph.flags &&& 4 = 0 <;>
    simp only [hw, hx, ne_eq, not_true_eq_false, not_false_eq_true, decide_true, decide_false] <;>
    revert write user fetch <;> decide

/-- **What a server starts with.** -/
structure ServerStarts (src : BlockSource σ) (file : ElfFile) (arg : Option (List (BitVec 8)))
    (c : ServerContext σ) : Prop where
  /-- It starts at its entry point, in user mode with interrupts on. -/
  entry : c.regs.rip = (elf64FileAux file).atEntry ∧ c.regs.cs = 0x43 ∧ c.regs.ss = 0x3b ∧
    c.regs.rflags = 0x202
  /-- Its segments are the file's, on pages with the permissions of their headers. -/
  segments : ∀ i, file.IsLoad i → ∀ k < (file.phdrAt i).filesz.toNat,
    ∃ tr, c.load.map (file.segmentAddr (file.phdrAt i) k) = some tr ∧
      (∀ a : Access, a.AllowedBy tr.flags ↔
        (a.write = true → (file.phdrAt i).flags &&& 2 ≠ 0) ∧
          (a.fetch = true → (file.phdrAt i).flags &&& 4 ≠ 0)) ∧
      c.load.byteAt (file.segmentAddr (file.phdrAt i) k)
        = file.byte ((file.phdrAt i).offset.toNat + k)
  /-- It finds its program headers. -/
  phdrs : ∀ p i, file.PhdrsIn p i → ∀ m < phdrSize * file.phNum,
    c.load.byteAt ((elf64FileAux file).atPhdr + BitVec.ofNat 64 m) = some (file.phdr m)
  /-- It finds its argument. -/
  argument : ∀ bytes, arg = some bytes → c.Reads bytes
  /-- It has a stack, aligned and below the argument. -/
  stack : c.regs.rsp.toNat % 16 = 0 ∧ 0x30000 < c.regs.rsp.toNat + argLength arg + 16 ∧
    (arg.isSome → c.regs.rsp.toNat ≤ c.regs.rdi.toNat) ∧
    ∀ v : Word, 0x21000 ≤ v.toNat → v.toNat < c.regs.rsp.toNat →
      ∃ tr, c.load.map v = some tr ∧ tr.flags = stackFlags

/-- No page of the module or of its stack is on a large page that is present. -/
structure ElfFile.LaunchClear (file : ElfFile) (M : VMap) : Prop extends file.Clear M where
  stack : ∀ v, StackWindow (pageOf v) → ¬ M.Blocks v

section Start

variable {src : BlockSource σ} {file₀ file : ElfFile} {s s₀ : LoadState σ} {regs₀ : Registers}
  {r : ℕ}

/-- A module of loadable segments is loaded, and leaves frames for the stack. -/
theorem elf64FileLoad_returns (hacc : file.Accepted) (hw : file.WellPlaced)
    (hload : ∀ j, file.IsLoad j → (file.phdrAt j).Loadable) (hclear : file.Clear s₀.map)
    (hsup : src.toFrameSource.Supplies (file.bssFrames + (file.segmentFrames file.phNum + r))
      s₀.pmm) :
    ∃ s₁ s₂, elf64FileLoad src.toFrameSource file s₀ = .ok s₂ ∧
      loadSegments src.toFrameSource file s₁ file.phNum = .ok s₂ ∧
      src.toFrameSource.Supplies r s₂.pmm := by
  obtain ⟨⟨image, hb⟩, hlen⟩ := hacc.buffer
  have hfits : ∀ i, file.IsLoad i → file.Fits (file.phdrAt i) := fun i hi =>
    ((hload i hi).onOwnPages hlen hw.aligned (hw.inside i hi)).counts.1
  obtain ⟨s₁, h₁, hsup, hclear₁⟩ := loadSection_returns hclear hsup
  obtain ⟨s₂, h₂, hsup, -⟩ := loadSegments_of_fits hb hlen hfits hclear₁ le_rfl hsup
  exact ⟨s₁, s₂, Exec.bind_eq_ok.mpr ⟨s₁, h₁, h₂⟩, h₂, hsup⟩

/-- `rsp` is less than 16 bytes below the argument. -/
theorem stackAddr_near (base highVma : Word) (arg : Option (List (BitVec 8))) :
    ∃ d < 16, stackAddr (base + serverStackSize) highVma
        (argLocation (base + serverStackSize + highVma) arg &&& -16)
      = serverStackTop - BitVec.ofNat 64 (argLength arg + d) := by
  set location := base + serverStackSize + highVma - BitVec.ofNat 64 (argLength arg)
    with hlocation
  have hsum : location - BitVec.ofNat 64 (location.toNat % 16) = base + serverStackSize + highVma
      - BitVec.ofNat 64 (argLength arg + location.toNat % 16) := by
    rw [BitVec.ofNat_add, hlocation]
    grind
  refine ⟨location.toNat % 16, Nat.mod_lt _ (by decide), ?_⟩
  rw [argLocation_eq, ← hlocation, and_neg_sixteen, hsum, stackAddr_sub]

/-- **A server starts as its module says**, if the segments of the module start on pages and have
at least one each, lie in the file, on different pages and off the stack; if no large page of the
new table is in their place or that of the stack; if the argument leaves room on the stack; and if
there are frames for everything. -/
theorem server_starts (src : BlockSource σ) (highVma : Word)
    (blank : LoadState σ → Option (LoadState σ × Registers)) (arg : Option (List (BitVec 8)))
    (hhigh : highVma.toNat % 16 = 0) (harg : argLength arg ≤ 0xf000)
    (hinit : elf64FileInit file₀ = .ok (some file)) (hw : file.WellPlaced)
    (hload : ∀ j, file.IsLoad j → (file.phdrAt j).Loadable)
    (hoff : ∀ i, file.IsLoad i → ∀ k < (file.phdrAt i).filesz.toNat,
      ¬ StackWindow (pageOf (file.segmentAddr (file.phdrAt i) k)))
    (hblank : blank s = some (s₀, regs₀)) (hclear : file.LaunchClear s₀.map)
    (hsup : src.toFrameSource.Supplies (file.bssFrames + (file.segmentFrames file.phNum + r))
      s₀.pmm)
    (hroom : ∀ p, src.toFrameSource.Supplies r p →
      ∃ base p', src.allocBlock stackBlockPages p = some (base, p')) :
    ∃ c, launchContext src highVma blank file₀ arg s = .ok (some c) ∧
      ServerStarts src file arg c := by
  have hacc : file.Accepted := ⟨file₀, hinit⟩
  obtain ⟨⟨image, hb⟩, hlen⟩ := hacc.buffer
  obtain ⟨s₁, s₂, hfile, hsegments, hsup⟩ := elf64FileLoad_returns hacc hw hload hclear.toClear hsup
  obtain ⟨base, p', hblock⟩ := hroom s₂.pmm hsup
  have htake : takeBlock src stackBlockPages s₂
      = (some base, { s₂ with pmm := p', ram := clearBlock s₂.ram base stackBlockPages }) := by
    rw [takeBlock, hblock]
  set c := serverStack src highVma arg (entryRegs file regs₀) s₂ with hc
  have hshift : StackShifted src highVma s₂ arg base c :=
    serverStack_shifted (by omega) (serverStack_block.trans (congrArg Prod.fst htake))
  obtain ⟨haligned, hin, hbelow⟩ := hshift.aligned hhigh
  -- the bytes of the segments, under the stack that was made after them
  have hshows : ∀ i, file.IsLoad i → ∀ k < (file.phdrAt i).filesz.toNat,
      c.load.Shows src.toFrameSource (file.segmentAddr (file.phdrAt i) k)
        (file.phdrAt i).pageFlags (image ((file.phdrAt i).offset.toNat + k : ℕ)) := by
    intro i hi k hk
    exact (loadSegments_loadable hb hlen hw hload hsegments hi hk).keeps hshift.keeps
      (hoff i hi k hk)
  refine ⟨c, launchContext_eq_some.mpr ⟨s₂, _, ⟨file, s₀, regs₀, hinit, hblank, hfile, rfl⟩, rfl⟩,
    ?_, ?_, ?_, ?_, ?_⟩
  · exact ⟨rfl, rfl, rfl, rfl⟩
  · intro i hi k hk
    have hshow := hshows i hi k hk
    obtain ⟨f, hmap, -⟩ := hshow
    refine ⟨_, hmap, (file.phdrAt i).allowedBy_pageFlags, ?_⟩
    rw [(hshows i hi k hk).byteAt, ElfFile.byte, hb]
    rfl
  · intro p i hphdrs m hm
    have hload := hphdrs.load
    have hinside := hphdrs.inside
    have hafter := hphdrs.after
    have hfile := hw.inside i hload
    have hbyte : (file.phdrAt i).offset.toNat
        + (file.phoff.toNat - (file.phdrAt i).offset.toNat + m) = file.phoff.toNat + m := by
      omega
    rw [hphdrs.atPhdr_add m, (hshows i hload _ (by omega)).byteAt, hbyte,
      phdr_of_init hinit hb hlen (by omega) hm]
  · exact fun bytes hbytes => hshift.reads bytes hbytes (by rwa [hbytes] at harg)
  · obtain ⟨d, hd, hrsp⟩ := stackAddr_near base highVma arg
    have hrsp : c.regs.rsp = serverStackTop - BitVec.ofNat 64 (argLength arg + d) := by
      rw [hc, serverStack_eq htake]
      exact hrsp
    have hnat : c.regs.rsp.toNat = 0x30000 - (argLength arg + d) := by
      rw [hrsp, toNat_top_sub (by omega)]
    refine ⟨haligned, by omega, fun hsome => (hbelow hsome).1, fun v hlow hv => ?_⟩
    refine ⟨_, hshift.window v ?_, rfl⟩
    unfold StackWindow pageOf
    omega

end Start

/-! ### A module with one segment -/

/-- The program header of a readable and executable page at `0x400000`. -/
def textPhdr : Bytes :=
  let m := putLe (fun _ => 0) 0 4 1
  let m := putLe m 4 4 5
  let m := putLe m 16 8 0x400000
  putLe m 32 8 0x1000

theorem FrameSource.Supplies.counting_le {n k : ℕ} (h : FrameSource.counting.Supplies (n + 1) k) :
    k + (n + 1) ≤ 2 ^ 40 := by
  induction n generalizing k with
  | zero =>
      obtain ⟨f, k', halloc, -⟩ := h
      exact (Option.ite_none_right_eq_some.mp halloc).1
  | succ n ih =>
      obtain ⟨f, k', halloc, hrest⟩ := h
      obtain ⟨-, heq⟩ := Option.ite_none_right_eq_some.mp halloc
      obtain ⟨-, rfl⟩ := Prod.mk.inj (Option.some.inj heq)
      have hle := ih hrest
      omega

theorem exists_text : ∃ file : ElfFile, file.Accepted ∧ file.WellPlaced ∧ file.bssFrames = 0 ∧
    file.loadOffset = 0 ∧ file.phNum = 1 ∧ file.phdrAt 0 = ⟨elfPtLoad, 5, 0, 0x400000, 0x1000⟩ := by
  obtain ⟨file, hacc, hoffset, hholds⟩ := (laidOut_markedBytes textPhdr 0
    (show 1 < 2 ^ 16 by decide) (le_refl ehdrSize) (by decide) (x := 0x1000) (by decide)
    (by decide)).accepted 0
  have hphdr : file.phdrAt 0 = ⟨elfPtLoad, 5, 0, 0x400000, 0x1000⟩ := by
    have hcongr : file.phdrAt 0 = ({ file with phdr := textPhdr } : ElfFile).phdrAt 0 :=
      ElfFile.phdrAt_congr hholds.phdrs Nat.one_pos
    rw [hcongr]
    simp (disch := omega) only [ElfFile.phdrAt, int32, word64, textPhdr, Nat.mul_zero, Nat.zero_add,
      le_putLe_of_apart, le_putLe]
    rfl
  have honly : ∀ i, file.IsLoad i → i = 0 := fun i hi =>
    Nat.lt_one_iff.mp (hi.1.trans_eq hholds.phNum)
  refine ⟨file, hacc, ⟨fun i hi => ?_, fun i j hi hj hij => ?_, ?_⟩, hholds.bssFrames, hoffset,
    hholds.phNum, hphdr⟩
  · rw [honly i hi, hphdr, hholds.length]
    decide
  · exact absurd ((honly i hi).trans (honly j hj).symm) hij
  · rw [hoffset]
    rfl

theorem server_starts_text : ∃ (file₀ file : ElfFile) (c : ServerContext ℕ),
    file.IsLoad 0 ∧ (file.phdrAt 0).filesz = 0x1000 ∧
    launchContext BlockSource.counting 0xffff800000000000 (fun s => some (s, default)) file₀
        (some [1, 2, 3]) ⟨0x100, fun _ => 0, fun _ => none⟩ = .ok (some c) ∧
    ServerStarts BlockSource.counting file (some [1, 2, 3]) c := by
  obtain ⟨file, ⟨file₀, hinit⟩, hw, hbss, hoffset, hnum, hphdr⟩ := exists_text
  have honly : ∀ i, file.IsLoad i → i = 0 := fun i hi =>
    Nat.lt_one_iff.mp (hi.1.trans_eq hnum)
  have hisLoad : file.IsLoad 0 := ⟨hnum ▸ Nat.one_pos, by rw [hphdr]⟩
  have hloadable : ∀ i, file.IsLoad i → (file.phdrAt i).Loadable := by
    intro i hi
    rw [honly i hi, hphdr]
    exact ⟨rfl, .inr le_rfl⟩
  have hoff : ∀ i, file.IsLoad i → ∀ k < (file.phdrAt i).filesz.toNat,
      ¬ StackWindow (pageOf (file.segmentAddr (file.phdrAt i) k)) := by
    intro i hi k hk
    rw [honly i hi, hphdr] at hk ⊢
    have hk : k < 0x1000 := hk
    have haddr : (file.segmentAddr ⟨elfPtLoad, 5, 0, 0x400000, 0x1000⟩ k).toNat = 0x400000 + k := by
      rw [ElfFile.segmentAddr, hoffset, BitVec.toNat_add, BitVec.toNat_ofNat]
      show (0x400000 + k % 2 ^ 64) % 2 ^ 64 = _
      omega
    rw [StackWindow, pageOf, haddr]
    omega
  set s : LoadState ℕ := ⟨0x100, fun _ => 0, fun _ => none⟩ with hs
  have hsup : BlockSource.counting.toFrameSource.Supplies
      (file.bssFrames + (file.segmentFrames file.phNum + 0x30)) s.pmm := by
    rw [hbss, hnum, ElfFile.segmentFrames, ElfFile.segmentFrames, hphdr]
    exact FrameSource.counting_supplies (by decide)
  have hroom : ∀ p, BlockSource.counting.toFrameSource.Supplies 0x30 p →
      ∃ base p', BlockSource.counting.allocBlock stackBlockPages p = some (base, p') :=
    fun p hp => ⟨_, _, if_pos (FrameSource.Supplies.counting_le hp)⟩
  obtain ⟨c, hc, hstarts⟩ := server_starts (r := 0x30) BlockSource.counting 0xffff800000000000
    (fun s => some (s, default)) (some [1, 2, 3]) (by decide) (by decide) hinit hw hloadable
    hoff rfl ⟨file.clear_none, fun v _ => not_blocks_none v⟩ hsup hroom
  exact ⟨file₀, file, c, hisLoad, by rw [hphdr], hc, hstarts⟩

end Rock
