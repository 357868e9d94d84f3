/-
Rock/ElfLoad.lean

Loading the segments of an ELF file (`elf64_file_load` of kernel/core/elf.c).

For each PT_LOAD segment the loader takes frames for the pages it counts, maps them, and
copies the file page by page.  The page table is the partial map that `map_page` refines
(`pml4_refines_map`), physical memory has a byte at every address, and the frames come
from any allocator that hands out pages not in use.  A page inside a large one that is present
has no entry of its own: `map_page` takes the data of the large page for a table and writes
there, so mapping it is a fault here (`VMap.Blocks`).

Mapping `n` pages gives them cleared frames of their own, and leaves everything else alone
(`mapPages_mapped`).  What a whole round of the loader does is in Rock/ElfRounds.lean.
-/
import Rock.Elf
import Rock.PageMap
import Rock.PmmFrames

namespace Rock

/-! ### The loader -/

/-- The allocator, the physical memory and the page table that is made. -/
structure LoadState (σ : Type) where
  pmm : σ
  ram : Bytes
  map : VMap

variable {σ : Type}

/-- The byte the processor finds at a virtual address. -/
def LoadState.byteAt (s : LoadState σ) (v : Word) : Option (BitVec 8) :=
  (s.map v).map fun tr => s.ram (tr.frame.toNat + v.toNat % 2 ^ tr.size.shift)

/-- The page at `f` is cleared. -/
def clearPage (ram : Bytes) (f : Word) : Bytes := fun k =>
  if f.toNat ≤ k ∧ k < f.toNat + 0x1000 then 0 else ram k

/-- The address is on a large page that is present. -/
def VMap.Blocks (M : VMap) (v : Word) : Prop := ∃ tr ∈ M v, tr.size ≠ .small

instance (M : VMap) (v : Word) : Decidable (M.Blocks v) :=
  inferInstanceAs (Decidable (∃ tr ∈ M v, tr.size ≠ .small))

/-- The flags of a page, by whether it may be written and executed. -/
def pageFlags (w x : Bool) : Word :=
  let flags := flagP ||| flagUS ||| flagNX
  let flags := if w then flags ||| flagRW else flags
  if x then flags &&& ~~~flagNX else flags

/-- The flags of the pages of a segment, by `ELF_PF_W` and `ELF_PF_X`. -/
def Phdr.pageFlags (ph : Phdr) : Word := Rock.pageFlags (ph.flags &&& 2 ≠ 0) (ph.flags &&& 4 ≠ 0)

/-- The flags of the pages of a section; the code takes the same bits of `sh_flags`. -/
def Shdr.pageFlags (sh : Shdr) : Word := Rock.pageFlags (sh.flags &&& 2 ≠ 0) (sh.flags &&& 4 ≠ 0)

/-- `misalignment`. -/
def misalignment (addr : Word) : Word := addr &&& 0xfff

/-- `virtual` of the first page of what is at `addr`. -/
def ElfFile.virtualBase (file : ElfFile) (addr : Word) : Word :=
  addr + file.loadOffset - misalignment addr

/-- `page_cnt` of what has `size` bytes at `addr`; the quotient is fayt's `DIV_ROUNDUP`
(`toNat_elfPageCnt_fayt`). -/
def elfPageCnt (addr size : Word) : Word :=
  let cnt := (misalignment addr + size + 0xfff) / 0x1000
  if (size + 0xfff) &&& ~~~0xfff < misalignment addr + size then cnt + 1 else cnt

/-- The `cnt` of page `j`, before the misalignment is taken off the first one. -/
def copyCnt (filesz : Word) (j : ℕ) : Exec Word :=
  let start : Word := BitVec.ofNat 64 (j * 0x1000)
  if filesz < 0x1000 + start then
    if start = 0 then .error .divide else .ok (filesz % start)
  else .ok 0x1000

/-- The bytes of page `j` before the segment. -/
def Phdr.skip (ph : Phdr) (j : ℕ) : Word := if j = 0 then misalignment ph.vaddr else 0

/-- The second loop over the pages of a segment, at page `j`.  A copy that leaves the frame can
reach anything, also the page table, which is not in `ram`. -/
def copyPage (file : ElfFile) (ph : Phdr) (physical : ℕ → Word) (s : LoadState σ) (j : ℕ) :
    Exec (LoadState σ) := do
  let cnt ← copyCnt ph.filesz j
  let (ret, ram) ← elf64Read file s.ram ((physical j).toNat + (ph.skip j).toNat)
    ((ph.offset + BitVec.ofNat 64 (j * 0x1000)).setWidth 32) (cnt - ph.skip j)
  if (ph.skip j).toNat + ret.toNat ≤ 0x1000 then .ok { s with ram := ram } else .error .wild

def copyPages (file : ElfFile) (ph : Phdr) (physical : ℕ → Word) (s : LoadState σ) :
    ℕ → Exec (LoadState σ)
  | 0 => .ok s
  | j + 1 => do
      let s ← copyPages file ph physical s j
      copyPage file ph physical s j

section Loader

variable (src : FrameSource σ)

/-- `pmm_alloc(1, 1)`, which clears the page.  The loader takes the -1 of a failed call for an
address; the access that follows goes through a non-canonical one. -/
def takeFrame (s : LoadState σ) : Exec (Word × LoadState σ) :=
  match src.alloc s.pmm with
  | none => .error .wild
  | some (f, pmm) => .ok (f, { s with pmm := pmm, ram := clearPage s.ram f })

/-- `map_page` of a page without `PS`.  Inside a present large page it writes the entry into the
data of that page, which can be anything, also a table. -/
def mapFrame (v f flags : Word) (s : LoadState σ) : Exec (LoadState σ) :=
  if s.map.Blocks v then .error .wild
  else .ok { s with map := s.map.cover v (decode .small (f ||| flags)) }

/-- The first loop: the next pages from `v` on get frames, which are left in `physical`. -/
def mapPages (v flags : Word) (s : LoadState σ) : ℕ → Exec ((ℕ → Word) × LoadState σ)
  | 0 => .ok (fun _ => 0, s)
  | j + 1 => do
      let (physical, s) ← mapPages v flags s j
      let (f, s) ← takeFrame src s
      let s ← mapFrame (v + BitVec.ofNat 64 (j * 0x1000)) f flags s
      .ok (Function.update physical j f, s)

/-- The bytes of the string table at the section's name start with `name`. -/
def sectionNamed (file : ElfFile) (name : List (BitVec 8)) (i : ℕ) : Bool :=
  name.zipIdx.all fun (c, k) => file.strtab ((file.shdrAt i).name.toNat + k) = c

/-- The section that `elf64_load_section` maps: those that have no pages are passed over. -/
def findSection (file : ElfFile) (name : List (BitVec 8)) : Option Shdr :=
  ((List.range file.shNum).find? fun i => sectionNamed file name i &&
    elfPageCnt (file.shdrAt i).addr (file.shdrAt i).size ≠ 0).map file.shdrAt

/-- The counters of the source are of type `int`; here they do not wrap around. -/
def elf64LoadSection (file : ElfFile) (name : List (BitVec 8)) (s : LoadState σ) :
    Exec (LoadState σ) :=
  match findSection file name with
  | none => .ok s
  | some sh => do
      let (_, s) ← mapPages src (file.virtualBase sh.addr) sh.pageFlags s
        (elfPageCnt sh.addr sh.size).toNat
      .ok s

/-- One round of the loop over the program headers. -/
def loadSegment (file : ElfFile) (s : LoadState σ) (ph : Phdr) : Exec (LoadState σ) :=
  if ph.type ≠ elfPtLoad then .ok s
  else
    let cnt := (elfPageCnt ph.vaddr ph.filesz).toNat
    if cnt = 0 then .ok s
    else do
      let (physical, s) ← mapPages src (file.virtualBase ph.vaddr) ph.pageFlags s cnt
      copyPages file ph physical s cnt

def loadSegments (file : ElfFile) (s : LoadState σ) : ℕ → Exec (LoadState σ)
  | 0 => .ok s
  | i + 1 => do
      let s ← loadSegments file s i
      loadSegment src file s (file.phdrAt i)

/-- ".bss". -/
def bssName : List (BitVec 8) := [0x2e, 0x62, 0x73, 0x73]

def elf64FileLoad (file : ElfFile) (s : LoadState σ) : Exec (LoadState σ) := do
  let s ← elf64LoadSection src file bssName s
  loadSegments src file s file.phNum

end Loader

/-! ### What is to be shown -/

/-- The frames the loader takes for a program header. -/
def segmentPages (ph : Phdr) : ℕ :=
  if ph.type = elfPtLoad then (elfPageCnt ph.vaddr ph.filesz).toNat else 0

namespace ElfFile

/-- The frames for the first `n` program headers. -/
def segmentFrames (file : ElfFile) : ℕ → ℕ
  | 0 => 0
  | i + 1 => file.segmentFrames i + segmentPages (file.phdrAt i)

/-- The frames for the `.bss` section. -/
def bssFrames (file : ElfFile) : ℕ :=
  ((findSection file bssName).map fun sh => (elfPageCnt sh.addr sh.size).toNat).getD 0

/-- The program header `i` is that of a PT_LOAD segment. -/
def IsLoad (file : ElfFile) (i : ℕ) : Prop :=
  i < file.phNum ∧ (file.phdrAt i).type = elfPtLoad

/-- The address of byte `k` of the segment. -/
def segmentAddr (file : ElfFile) (ph : Phdr) (k : ℕ) : Word :=
  file.loadOffset + ph.vaddr + BitVec.ofNat 64 k

end ElfFile

/-- The page an address is on, of the ones a four-level table can tell apart. -/
def pageOf (v : Word) : ℕ := v.toNat / 0x1000 % 2 ^ 36

/-- The segments lie in the file, are on different pages, and are moved by whole pages. -/
structure ElfFile.WellPlaced (file : ElfFile) : Prop where
  inside : ∀ i, file.IsLoad i →
    (file.phdrAt i).offset.toNat + (file.phdrAt i).filesz.toNat ≤ file.length.toNat
  apart : ∀ i j, file.IsLoad i → file.IsLoad j → i ≠ j →
    ∀ k < (file.phdrAt i).filesz.toNat, ∀ l < (file.phdrAt j).filesz.toNat,
      pageOf (file.segmentAddr (file.phdrAt i) k) ≠ pageOf (file.segmentAddr (file.phdrAt j) l)
  aligned : file.loadOffset.toNat % 0x1000 = 0

/-- No page that the loader maps, of a segment or of `.bss`, is on a large page that is
present. -/
structure ElfFile.Clear (file : ElfFile) (M : VMap) : Prop where
  segments : ∀ i, file.IsLoad i → ∀ j < segmentPages (file.phdrAt i),
    ¬ M.Blocks (file.virtualBase (file.phdrAt i).vaddr + BitVec.ofNat 64 (j * 0x1000))
  bss : ∀ sh ∈ findSection file bssName, ∀ j < (elfPageCnt sh.addr sh.size).toNat,
    ¬ M.Blocks (file.virtualBase sh.addr + BitVec.ofNat 64 (j * 0x1000))

/-- **The segments are loaded**: with frames enough for the pages, and no large page in their
place, the loader returns, and every byte of every segment is where it belongs.  The frames
that `map_page` takes for tables are not among those counted here (`elf64FileLoad_run`). -/
def ElfFile.LoadsSegments (file : ElfFile) : Prop :=
  ∀ (σ : Type) (src : FrameSource σ) (s : LoadState σ), file.Clear s.map →
    src.Supplies (file.bssFrames + file.segmentFrames file.phNum) s.pmm →
    ∃ s', elf64FileLoad src file s = .ok s' ∧
      ∀ i, file.IsLoad i → ∀ k < (file.phdrAt i).filesz.toNat,
        s'.byteAt (file.segmentAddr (file.phdrAt i) k)
          = file.byte ((file.phdrAt i).offset.toNat + k)

/-- The files have the same program headers. -/
structure ElfFile.SameSegments (file file' : ElfFile) : Prop where
  phNum : file'.phNum = file.phNum
  phdrAt : ∀ i < file.phNum, file'.phdrAt i = file.phdrAt i
  loadOffset : file'.loadOffset = file.loadOffset

/-- The segment starts on a page, and is empty or has a page at least. -/
def Phdr.Loadable (ph : Phdr) : Prop :=
  ph.vaddr.toNat % 0x1000 = 0 ∧ (ph.filesz.toNat = 0 ∨ 0x1000 ≤ ph.filesz.toNat)

/-! ### Pages -/

section Pages

variable {v v' base f g : Word} {j d : ℕ}

theorem sameBits_iff_pageOf : sameBits 12 48 v v' ↔ pageOf v = pageOf v' := by
  have hnat : ∀ x : Word, (x.extractLsb' 12 36).toNat = pageOf x := by
    intro x
    rw [BitVec.extractLsb'_toNat, Nat.shiftRight_eq_div_pow]
    rfl
  have hbits : v.extractLsb' 12 36 = v'.extractLsb' 12 36 ↔ sameBits 12 48 v v' :=
    extractLsb_eq_iff
  rw [← hbits, ← BitVec.toNat_inj, hnat, hnat]

theorem toNat_add_ofNat (base : Word) (k : ℕ) :
    (base + BitVec.ofNat 64 k).toNat = (base.toNat + k) % 2 ^ 64 := by
  rw [BitVec.toNat_add, BitVec.toNat_ofNat, Nat.add_mod_mod]

/-- The pages from an aligned address on are numbered one after the other. -/
theorem pageOf_add (hbase : base.toNat % 0x1000 = 0) (hd : d < 0x1000) :
    pageOf (base + BitVec.ofNat 64 (j * 0x1000 + d)) = (base.toNat / 0x1000 + j) % 2 ^ 36 := by
  rw [pageOf, toNat_add_ofNat]
  omega

theorem pageOf_page (base : Word) (j : ℕ) :
    pageOf (base + BitVec.ofNat 64 (j * 0x1000)) = (base.toNat / 0x1000 + j) % 2 ^ 36 := by
  rw [pageOf, toNat_add_ofNat]
  omega

theorem offset_add (hbase : base.toNat % 0x1000 = 0) (hd : d < 0x1000) :
    (base + BitVec.ofNat 64 (j * 0x1000 + d)).toNat % 0x1000 = d := by
  rw [toNat_add_ofNat]
  omega

theorem cover_small {M : VMap} {e : Word} :
    M.cover v (decode .small e) v'
      = if pageOf v = pageOf v' then some (decode .small e) else M v' :=
  if_congr sameBits_iff_pageOf rfl rfl

/-- Frames are the same or have no byte in common. -/
theorem frame_apart (hf : IsFrame .small f) (hg : IsFrame .small g) (hne : f ≠ g)
    (hd : d < 0x1000) : f.toNat + d < g.toNat ∨ g.toNat + 0x1000 ≤ f.toNat + d := by
  obtain ⟨a, ha⟩ := hf.dvd
  obtain ⟨b, hb⟩ := hg.dvd
  have hab : a ≠ b := by
    rintro rfl
    exact hne (BitVec.eq_of_toNat_eq (ha.trans hb.symm))
  rw [ha, hb]
  simp only [pageSize]
  omega

theorem clearPage_of_ne {ram : Bytes} (hf : IsFrame .small f) (hg : IsFrame .small g)
    (hne : f ≠ g) (hd : d < 0x1000) : clearPage ram g (f.toNat + d) = ram (f.toNat + d) := by
  apply if_neg
  rintro ⟨hlo, hhi⟩
  have hapart := frame_apart hf hg hne hd
  omega

theorem clearPage_self {ram : Bytes} (hd : d < 0x1000) : clearPage ram f (f.toNat + d) = 0 :=
  if_pos ⟨Nat.le_add_right _ _, Nat.add_lt_add_left hd _⟩

theorem mappedSize_pageFlags (w x : Bool) : mappedSize (pageFlags w x) = .small := by
  revert w x
  decide

theorem mappable_pageFlags (hf : IsFrame .small f) (w x : Bool) :
    Mappable f (pageFlags w x) :=
  ⟨by revert w x; decide, by revert w x; decide, by rwa [mappedSize_pageFlags]⟩

/-- An entry that the loader makes reads back as its frame and flags. -/
theorem decode_pageFlags (hf : IsFrame .small f) (w x : Bool) :
    decode .small (f ||| pageFlags w x) = ⟨f, pageFlags w x, .small⟩ := by
  have hdecode := (mappable_pageFlags hf w x).decode_eq
  rwa [mappedSize_pageFlags] at hdecode

/-- A small page makes no large one. -/
theorem VMap.Blocks.of_cover {M : VMap} {e : Word}
    (h : (M.cover v (decode .small e)).Blocks v') : M.Blocks v' := by
  obtain ⟨tr, htr, hsize⟩ := h
  rw [cover_small] at htr
  split_ifs at htr
  · obtain rfl := Option.some.inj htr
    exact absurd rfl hsize
  · exact ⟨tr, htr, hsize⟩

theorem not_blocks_none (v : Word) : ¬ VMap.Blocks (fun _ => none) v := by
  rintro ⟨tr, htr, -⟩
  cases htr

end Pages

/-! ### Mapping the pages -/

/-- What is left alone when the pages of `pages` are mapped: the frames in use, and the
other pages. -/
structure LoadState.Keeps (src : FrameSource σ) (pages : ℕ → Prop) (s s' : LoadState σ) :
    Prop where
  live : ∀ f, src.Live s.pmm f → src.Live s'.pmm f
  ram : ∀ f, IsFrame .small f → src.Live s.pmm f → ∀ d < 0x1000,
    s'.ram (f.toNat + d) = s.ram (f.toNat + d)
  map : ∀ v, ¬ pages (pageOf v) → s'.map v = s.map v

/-- The `n` pages from `v` on are mapped to cleared frames of their own. -/
structure PagesMapped (src : FrameSource σ) (v flags : Word) (s s' : LoadState σ)
    (physical : ℕ → Word) (n : ℕ) : Prop where
  keeps : s.Keeps src (fun p => ∃ j < n, p = pageOf (v + BitVec.ofNat 64 (j * 0x1000))) s'
  frame : ∀ j < n, IsFrame .small (physical j)
  live : ∀ j < n, src.Live s'.pmm (physical j)
  fresh : ∀ j < n, ¬ src.Live s.pmm (physical j)
  distinct : ∀ i < n, ∀ j < n, physical i = physical j → i = j
  cleared : ∀ j < n, ∀ d < 0x1000, s'.ram ((physical j).toNat + d) = 0
  map : ∀ j < n, ∀ v', pageOf v' = pageOf (v + BitVec.ofNat 64 (j * 0x1000)) →
    s'.map v' = some (decode .small (physical j ||| flags))

section Mapping

variable {src : FrameSource σ} {v flags f : Word} {s s' : LoadState σ} {physical : ℕ → Word}
  {n : ℕ} {pmm : σ}

theorem takeFrame_cases (h : takeFrame src s = .ok (f, s')) :
    ∃ pmm, src.alloc s.pmm = some (f, pmm) ∧
      s' = { s with pmm := pmm, ram := clearPage s.ram f } := by
  rw [takeFrame] at h
  rcases ha : src.alloc s.pmm with - | ⟨f', pmm⟩ <;> rw [ha] at h
  · cases h
  · obtain ⟨rfl, rfl⟩ := Prod.mk.inj (Except.ok.inj h)
    exact ⟨pmm, rfl, rfl⟩

/-- One more page: it is on no large page, and has the frame that the allocator gives. -/
theorem mapPages_succ (h : mapPages src v flags s (n + 1) = .ok (physical, s')) :
    ∃ physical₁ s₁ f pmm, mapPages src v flags s n = .ok (physical₁, s₁) ∧
      src.alloc s₁.pmm = some (f, pmm) ∧
      ¬ s₁.map.Blocks (v + BitVec.ofNat 64 (n * 0x1000)) ∧
      physical = Function.update physical₁ n f ∧
      s' = { pmm := pmm
             ram := clearPage s₁.ram f
             map := s₁.map.cover (v + BitVec.ofNat 64 (n * 0x1000))
               (decode .small (f ||| flags)) } := by
  obtain ⟨⟨physical₁, s₁⟩, h₁, h⟩ := Exec.bind_eq_ok.mp h
  obtain ⟨⟨f, s₂⟩, h₂, h⟩ := Exec.bind_eq_ok.mp h
  obtain ⟨s₃, h₃, h⟩ := Exec.bind_eq_ok.mp h
  obtain ⟨rfl, rfl⟩ := Prod.mk.inj (Except.ok.inj h)
  obtain ⟨pmm, ha, rfl⟩ := takeFrame_cases h₂
  rw [mapFrame] at h₃
  split_ifs at h₃ with hopen
  exact ⟨physical₁, s₁, f, pmm, h₁, ha, hopen, rfl, (Except.ok.inj h₃).symm⟩

/-- Mapping pages makes no large ones. -/
theorem mapPages_blocks (h : mapPages src v flags s n = .ok (physical, s')) {u : Word}
    (hu : s'.map.Blocks u) : s.map.Blocks u := by
  induction n generalizing physical s' with
  | zero =>
      obtain ⟨-, rfl⟩ := Prod.mk.inj (Except.ok.inj h)
      exact hu
  | succ n ih =>
      obtain ⟨physical₁, s₁, f, pmm, h₁, -, -, -, rfl⟩ := mapPages_succ h
      exact ih h₁ hu.of_cover

theorem PagesMapped.zero : PagesMapped src v flags s s physical 0 where
  keeps := ⟨fun _ hf => hf, fun _ _ _ _ _ => rfl, fun _ _ => rfl⟩
  frame _ hj := absurd hj (Nat.not_lt_zero _)
  live _ hj := absurd hj (Nat.not_lt_zero _)
  fresh _ hj := absurd hj (Nat.not_lt_zero _)
  distinct _ hi := absurd hi (Nat.not_lt_zero _)
  cleared _ hj := absurd hj (Nat.not_lt_zero _)
  map _ hj := absurd hj (Nat.not_lt_zero _)

/-- What holds of the pages so far and of the new one. -/
theorem forall_lt_succ_update (P : ℕ → Word → Prop) (hold : ∀ j < n, P j (physical j))
    (hnew : P n f) : ∀ j < n + 1, P j (Function.update physical n f j) := by
  intro j hj
  rcases (Nat.lt_succ_iff.mp hj).lt_or_eq with hlt | rfl
  · rw [Function.update_of_ne hlt.ne]
    exact hold j hlt
  · rw [Function.update_self]
    exact hnew

/-- A frame that was not in use is cleared, and those in use are left alone. -/
theorem clearPage_of_live {ram : Bytes} {p : σ} (ha : src.alloc p = some (f, pmm)) {g : Word}
    (hg : IsFrame .small g) (hlive : src.Live p g) {d : ℕ} (hd : d < 0x1000) :
    clearPage ram f (g.toNat + d) = ram (g.toNat + d) := by
  refine clearPage_of_ne hg (src.alloc_frame ha) ?_ hd
  rintro rfl
  exact src.alloc_fresh ha hlive

/-- What is left alone when one more page is mapped. -/
theorem LoadState.Keeps.succ
    (h : s.Keeps src (fun p => ∃ j < n, p = pageOf (v + BitVec.ofNat 64 (j * 0x1000))) s')
    (ha : src.alloc s'.pmm = some (f, pmm)) :
    s.Keeps src (fun p => ∃ j < n + 1, p = pageOf (v + BitVec.ofNat 64 (j * 0x1000)))
      { pmm := pmm
        ram := clearPage s'.ram f
        map := s'.map.cover (v + BitVec.ofNat 64 (n * 0x1000)) (decode .small (f ||| flags)) } := by
  refine ⟨fun g hg => src.alloc_mono ha (h.live g hg), fun g hg hlive d hd => ?_,
    fun v' hv' => ?_⟩
  · exact (clearPage_of_live ha hg (h.live g hlive) hd).trans (h.ram g hg hlive d hd)
  · have hother : ¬ pageOf (v + BitVec.ofNat 64 (n * 0x1000)) = pageOf v' := fun heq =>
      hv' ⟨n, n.lt_succ_self, heq.symm⟩
    refine cover_small.trans ((if_neg hother).trans (h.map v' ?_))
    rintro ⟨j, hj, heq⟩
    exact hv' ⟨j, hj.trans n.lt_succ_self, heq⟩

/-- One more page is mapped. -/
theorem PagesMapped.succ (h : PagesMapped src v flags s s' physical n) (hn : n < 2 ^ 36)
    (ha : src.alloc s'.pmm = some (f, pmm)) :
    PagesMapped src v flags s
      { pmm := pmm
        ram := clearPage s'.ram f
        map := s'.map.cover (v + BitVec.ofNat 64 (n * 0x1000)) (decode .small (f ||| flags)) }
      (Function.update physical n f) (n + 1) := by
  have hframe := src.alloc_frame ha
  -- the new frame was not in use, so it is none of those taken before
  have hne : ∀ j < n, physical j ≠ f := by
    rintro j hj rfl
    exact src.alloc_fresh ha (h.live j hj)
  refine ⟨h.keeps.succ ha, ?_, ?_, ?_, ?_, ?_, ?_⟩
  · exact forall_lt_succ_update (fun _ x => IsFrame .small x) h.frame hframe
  · apply forall_lt_succ_update fun _ x => src.Live pmm x
    · exact fun j hj => src.alloc_mono ha (h.live j hj)
    · exact src.alloc_live ha
  · apply forall_lt_succ_update (fun _ x => ¬ src.Live s.pmm x) h.fresh
    exact fun hlive => src.alloc_fresh ha (h.keeps.live f hlive)
  · apply forall_lt_succ_update fun i x =>
      ∀ j < n + 1, x = Function.update physical n f j → i = j
    · intro i hi
      apply forall_lt_succ_update fun j y => physical i = y → i = j
      · exact h.distinct i hi
      · exact fun heq => absurd heq (hne i hi)
    · apply forall_lt_succ_update fun j y => f = y → n = j
      · exact fun j hj heq => absurd heq.symm (hne j hj)
      · exact fun _ => rfl
  · apply forall_lt_succ_update fun _ x => ∀ d < 0x1000, clearPage s'.ram f (x.toNat + d) = 0
    · intro j hj d hd
      exact (clearPage_of_live ha (h.frame j hj) (h.live j hj) hd).trans (h.cleared j hj d hd)
    · exact fun d hd => clearPage_self hd
  · apply forall_lt_succ_update fun j x =>
      ∀ v', pageOf v' = pageOf (v + BitVec.ofNat 64 (j * 0x1000)) →
        s'.map.cover (v + BitVec.ofNat 64 (n * 0x1000)) (decode .small (f ||| flags)) v'
          = some (decode .small (x ||| flags))
    · intro j hj v' hv'
      have hother : ¬ pageOf (v + BitVec.ofNat 64 (n * 0x1000)) = pageOf v' := by
        rw [hv', pageOf_page, pageOf_page]
        omega
      exact cover_small.trans ((if_neg hother).trans (h.map j hj v' hv'))
    · exact fun v' hv' => cover_small.trans (if_pos hv'.symm)

theorem mapPages_mapped (hn : n ≤ 2 ^ 36) (h : mapPages src v flags s n = .ok (physical, s')) :
    PagesMapped src v flags s s' physical n := by
  induction n generalizing physical s' with
  | zero =>
      obtain ⟨rfl, rfl⟩ := Prod.mk.inj (Except.ok.inj h)
      exact .zero
  | succ n ih =>
      obtain ⟨physical₁, s₁, f, pmm, h₁, ha, -, rfl, rfl⟩ := mapPages_succ h
      exact (ih (by omega) h₁).succ (by omega) ha

variable (v flags) in
/-- The pages are mapped if there are frames for them and none is on a large page. -/
theorem mapPages_returns {r : ℕ} (h : src.Supplies (n + r) s.pmm)
    (hopen : ∀ j < n, ¬ s.map.Blocks (v + BitVec.ofNat 64 (j * 0x1000))) :
    ∃ physical s', mapPages src v flags s n = .ok (physical, s') ∧ src.Supplies r s'.pmm := by
  induction n generalizing r with
  | zero => exact ⟨_, s, rfl, by rwa [Nat.zero_add] at h⟩
  | succ n ih =>
      rw [Nat.add_right_comm, Nat.add_assoc] at h
      obtain ⟨physical, s₁, h₁, f, pmm, ha, hsup⟩ :=
        ih h fun j hj => hopen j (hj.trans n.lt_succ_self)
      have htake : takeFrame src s₁
          = .ok (f, { s₁ with pmm := pmm, ram := clearPage s₁.ram f }) := by
        rw [takeFrame, ha]
      have hnew : ¬ s₁.map.Blocks (v + BitVec.ofNat 64 (n * 0x1000)) := fun hblocks =>
        hopen n n.lt_succ_self (mapPages_blocks h₁ hblocks)
      have hmap : mapFrame (v + BitVec.ofNat 64 (n * 0x1000)) f flags
          { s₁ with pmm := pmm, ram := clearPage s₁.ram f } = .ok _ := if_neg hnew
      exact ⟨_, _, Exec.bind_eq_ok.mpr ⟨_, h₁, Exec.bind_eq_ok.mpr ⟨_, htake,
        Exec.bind_eq_ok.mpr ⟨_, hmap, rfl⟩⟩⟩, hsup⟩

/-- **The pages are mapped by `map_page`**: on a machine whose tables translate as the map says,
the calls of the loop lead from the one map to the other, with three frames at most for the
tables of a page. -/
theorem mapPages_run {τ : Type} {tables : FrameSource τ} {pmlt : Word} {m : Machine τ}
    {w x : Bool} {r : ℕ} (h : mapPages src v (pageFlags w x) s n = .ok (physical, s'))
    (hinv : PagingState.Inv tables pmlt ⟨m, s.map⟩)
    (hsup : tables.Supplies (3 * n + r) m.pmm) :
    ∃ m', Run (PagingState.Step tables pmlt) ⟨m, s.map⟩ ⟨m', s'.map⟩ ∧
      tables.Supplies r m'.pmm := by
  induction n generalizing physical s' r with
  | zero =>
      obtain ⟨-, rfl⟩ := Prod.mk.inj (Except.ok.inj h)
      exact ⟨m, .refl, by simpa using hsup⟩
  | succ n ih =>
      obtain ⟨physical₁, s₁, f, pmm, h₁, ha, hopen, -, rfl⟩ := mapPages_succ h
      obtain ⟨m₁, hrun, hsup⟩ := ih (r := 2 + (r + 1)) h₁ (by
        rwa [show 3 * (n + 1) + r = 3 * n + (2 + (r + 1)) by omega] at hsup)
      have hinv₁ := hrun.invariant PagingState.Inv.step hinv
      obtain ⟨ptr, m₂, hmap, hsup⟩ :
          ∃ ptr m₂, pml4MapPage tables m₁ pmlt (v + BitVec.ofNat 64 (n * 0x1000)) f
            (pageFlags w x) = .ok (ptr, m₂) ∧ tables.Supplies r m₂.pmm := mapPage_supplies hsup
      -- the page is on no large page of the map, so on none of the tables
      have hun : Unobstructed m₁.mem 4 pmlt (v + BitVec.ofNat 64 (n * 0x1000)) (pageFlags w x) :=
        fun _ tr htr hlarge =>
          hopen ⟨tr, (hinv₁.refines _).symm.trans htr, by rw [hlarge]; decide⟩
      have hframe := src.alloc_frame ha
      refine ⟨m₂, hrun.tail ?_, hsup⟩
      rw [decode_pageFlags hframe, ← mappedSize_pageFlags w x]
      exact .map _ f _ (mappable_pageFlags hframe w x) hun hmap

end Mapping

/-! ### Sizes -/

section Sizes

variable {addr size filesz : Word} {j : ℕ}

theorem toNat_and_low (x : Word) : (x &&& 0xfff).toNat = x.toNat % 0x1000 := by
  rw [BitVec.toNat_and, show (0xfff : Word).toNat = 2 ^ 12 - 1 by decide,
    Nat.and_two_pow_sub_one_eq_mod]

/-- The lowest `k` bits are cleared. -/
theorem toNat_and_shiftLeft (x : Word) (k : ℕ) :
    (x &&& BitVec.allOnes 64 <<< k).toNat = x.toNat / 2 ^ k * 2 ^ k := by
  have hshift : x &&& BitVec.allOnes 64 <<< k = (x >>> k) <<< k := by
    apply BitVec.eq_of_getLsbD_eq
    intro i hi
    rw [BitVec.getLsbD_and, BitVec.getLsbD_shiftLeft, BitVec.getLsbD_shiftLeft,
      BitVec.getLsbD_ushiftRight, BitVec.getLsbD_allOnes]
    by_cases hlow : i < k
    · simp [hlow]
    · have hsub : i - k < 64 := by omega
      simp [hlow, hi, hsub, Nat.add_sub_cancel' (Nat.not_lt.mp hlow)]
  have hle : x.toNat / 2 ^ k * 2 ^ k < 2 ^ 64 :=
    Nat.lt_of_le_of_lt (Nat.div_mul_le_self _ _) x.isLt
  rw [hshift, BitVec.toNat_shiftLeft, BitVec.toNat_ushiftRight, Nat.shiftRight_eq_div_pow,
    Nat.shiftLeft_eq, Nat.mod_eq_of_lt hle]

theorem toNat_and_high (x : Word) : (x &&& ~~~0xfff).toNat = x.toNat / 0x1000 * 0x1000 :=
  toNat_and_shiftLeft x 12

theorem toNat_page : (0x1000 : Word).toNat = 0x1000 := rfl

theorem toNat_low : (0xfff : Word).toNat = 0xfff := rfl

/-- The pages the loader counts, if the sums do not wrap. -/
theorem toNat_elfPageCnt (hsize : size.toNat < 2 ^ 63) :
    (elfPageCnt addr size).toNat = (addr.toNat % 0x1000 + size.toNat + 0xfff) / 0x1000 +
      if (size.toNat + 0xfff) / 0x1000 * 0x1000 < addr.toNat % 0x1000 + size.toNat then 1
      else 0 := by
  have hmis : (misalignment addr).toNat = addr.toNat % 0x1000 := toNat_and_low addr
  have hsum : (misalignment addr + size).toNat = addr.toNat % 0x1000 + size.toNat := by
    rw [BitVec.toNat_add, hmis]
    omega
  have hquot : ((misalignment addr + size + 0xfff) / 0x1000).toNat
      = (addr.toNat % 0x1000 + size.toNat + 0xfff) / 0x1000 := by
    rw [BitVec.toNat_udiv, BitVec.toNat_add, hsum, toNat_page, toNat_low]
    omega
  have hround : ((size + 0xfff) &&& ~~~0xfff).toNat = (size.toNat + 0xfff) / 0x1000 * 0x1000 := by
    rw [toNat_and_high, BitVec.toNat_add, toNat_low]
    omega
  have hcond : (size + 0xfff) &&& ~~~0xfff < misalignment addr + size ↔
      (size.toNat + 0xfff) / 0x1000 * 0x1000 < addr.toNat % 0x1000 + size.toNat := by
    rw [BitVec.lt_def, hround, hsum]
  rw [elfPageCnt]
  simp only [hcond]
  split_ifs
  · rw [BitVec.toNat_add, hquot, show (1 : Word).toNat = 1 from rfl]
    omega
  · exact hquot

theorem toNat_elfPageCnt_fayt (fayt : Fayt) (hsize : size.toNat < 2 ^ 63) :
    (elfPageCnt addr size).toNat = fayt.divRoundup (addr.toNat % 0x1000 + size.toNat) 0x1000 +
      if (size.toNat + 0xfff) / 0x1000 * 0x1000 < addr.toNat % 0x1000 + size.toNat then 1
      else 0 := by
  rw [toNat_elfPageCnt hsize, fayt.divRoundup_eq (by decide) (by omega)]
  rfl

theorem toNat_start (hj : j * 0x1000 < 2 ^ 64) :
    (BitVec.ofNat 64 (j * 0x1000)).toNat = j * 0x1000 :=
  (BitVec.toNat_ofNat _ _).trans (Nat.mod_eq_of_lt hj)

/-- A page that is in the segment gets what is left, at most a page; one that is behind it gets
the whole of it. -/
theorem copyCnt_eq (hj : 0 < j ∨ 0x1000 ≤ filesz.toNat) (hbound : j * 0x1000 + 0x1000 < 2 ^ 64) :
    copyCnt filesz j = .ok (BitVec.ofNat 64
      (if j * 0x1000 ≤ filesz.toNat then min 0x1000 (filesz.toNat - j * 0x1000)
        else filesz.toNat)) := by
  have hnat := toNat_start (Nat.lt_of_le_of_lt (Nat.le_add_right _ _) hbound)
  have hcond : filesz < 0x1000 + BitVec.ofNat 64 (j * 0x1000) ↔
      filesz.toNat < 0x1000 + j * 0x1000 := by
    rw [BitVec.lt_def, BitVec.toNat_add, hnat, toNat_page, Nat.mod_eq_of_lt (by omega)]
  rw [copyCnt]
  simp only [hcond]
  split_ifs with hlast hzero hstart hstart
  · have hj₀ : j * 0x1000 = 0 := hnat.symm.trans (congrArg BitVec.toNat hzero)
    omega
  · apply congrArg
    apply BitVec.eq_of_toNat_eq
    rw [BitVec.toNat_umod, hnat, BitVec.toNat_ofNat, Nat.mod_eq_sub_mod hstart,
      Nat.mod_eq_of_lt (by omega)]
    omega
  · apply congrArg
    apply BitVec.eq_of_toNat_eq
    have hlt := filesz.isLt
    rw [BitVec.toNat_umod, hnat, BitVec.toNat_ofNat, Nat.mod_eq_of_lt (by omega),
      Nat.mod_eq_of_lt hlt]
  · apply congrArg
    apply BitVec.eq_of_toNat_eq
    rw [BitVec.toNat_ofNat, toNat_page]
    omega
  · omega

/-- **A segment of less than a page divides by zero.** -/
theorem copyCnt_divide (h : filesz.toNat < 0x1000) : copyCnt filesz 0 = .error .divide := by
  have hcond : filesz < 0x1000 + BitVec.ofNat 64 (0 * 0x1000) := h
  exact (if_pos hcond).trans (if_pos rfl)

end Sizes

/-! ### One segment -/

/-- The page of `v` has these flags and the byte at `v` is `b`, in a frame that is in use. -/
def LoadState.Shows (src : FrameSource σ) (s : LoadState σ) (v flags : Word) (b : BitVec 8) :
    Prop :=
  ∃ f, s.map v = some ⟨f, flags, .small⟩ ∧ IsFrame .small f ∧ src.Live s.pmm f ∧
    s.ram (f.toNat + v.toNat % 0x1000) = b

/-- A page of the segment. -/
def ElfFile.Occupies (file : ElfFile) (ph : Phdr) (p : ℕ) : Prop :=
  ∃ k < ph.filesz.toNat, p = pageOf (file.segmentAddr ph k)

namespace LoadState.Shows

variable {src : FrameSource σ} {s s' : LoadState σ} {v flags : Word} {b : BitVec 8}

theorem byteAt (h : s.Shows src v flags b) : s.byteAt v = some b := by
  obtain ⟨f, hmap, -, -, hram⟩ := h
  rw [LoadState.byteAt, hmap, Option.map_some]
  exact congrArg some hram

theorem keeps {pages : ℕ → Prop} (h : s.Shows src v flags b) (hkeeps : s.Keeps src pages s')
    (hv : ¬ pages (pageOf v)) : s'.Shows src v flags b := by
  obtain ⟨f, hmap, hframe, hlive, hram⟩ := h
  refine ⟨f, (hkeeps.map v hv).trans hmap, hframe, hkeeps.live f hlive, ?_⟩
  exact (hkeeps.ram f hframe hlive _ (Nat.mod_lt _ (by decide))).trans hram

end LoadState.Shows

section Segment

variable {src : FrameSource σ} {file : ElfFile} {ph : Phdr} {s : LoadState σ}

/-- The pages are moved by the load offset, wherever that is in a page. -/
theorem virtualBase_mod (file : ElfFile) (addr : Word) :
    (file.virtualBase addr).toNat % 0x1000 = file.loadOffset.toNat % 0x1000 := by
  have hmis : (misalignment addr).toNat = addr.toNat % 0x1000 := toNat_and_low _
  rw [ElfFile.virtualBase, BitVec.toNat_sub, BitVec.toNat_add, hmis]
  have hlt := addr.isLt
  omega

/-- The first page of the segment. -/
theorem virtualBase_aligned (hload : file.loadOffset.toNat % 0x1000 = 0) :
    (file.virtualBase ph.vaddr).toNat % 0x1000 = 0 :=
  (virtualBase_mod file ph.vaddr).trans hload

/-- Byte `k` of the segment is so many bytes behind the start of the first page. -/
theorem segmentAddr_eq (file : ElfFile) (ph : Phdr) (k : ℕ) :
    file.segmentAddr ph k
      = file.virtualBase ph.vaddr + BitVec.ofNat 64 (ph.vaddr.toNat % 0x1000 + k) := by
  have hmis : misalignment ph.vaddr = BitVec.ofNat 64 (ph.vaddr.toNat % 0x1000) := by
    apply BitVec.eq_of_toNat_eq
    rw [BitVec.toNat_ofNat, Nat.mod_eq_of_lt (by omega)]
    exact toNat_and_low _
  rw [ElfFile.virtualBase, BitVec.ofNat_add, ← hmis, ← BitVec.add_assoc, BitVec.sub_add_cancel,
    BitVec.add_comm ph.vaddr]
  rfl

theorem toNat_skip (ph : Phdr) (j : ℕ) :
    (ph.skip j).toNat = if j = 0 then ph.vaddr.toNat % 0x1000 else 0 := by
  unfold Phdr.skip
  split_ifs
  · exact toNat_and_low _
  · rfl

theorem ElfFile.Clear.mono {M M' : VMap} (h : file.Clear M)
    (hM : ∀ u, M'.Blocks u → M.Blocks u) : file.Clear M' where
  segments i hi j hj hblocks := h.segments i hi j hj (hM _ hblocks)
  bss sh hsh j hj hblocks := h.bss sh hsh j hj (hM _ hblocks)

/-- The pages of one program header. -/
theorem ElfFile.Clear.segment {M : VMap} {i : ℕ} (h : file.Clear M) (hi : i < file.phNum) :
    ∀ j < segmentPages (file.phdrAt i),
      ¬ M.Blocks (file.virtualBase (file.phdrAt i).vaddr + BitVec.ofNat 64 (j * 0x1000)) := by
  intro j hj
  refine h.segments i ⟨hi, ?_⟩ j hj
  by_contra htype
  rw [segmentPages, if_neg htype] at hj
  exact j.not_lt_zero hj

theorem ElfFile.clear_none (file : ElfFile) : file.Clear fun _ => none where
  segments _ _ _ _ := not_blocks_none _
  bss _ _ _ _ := not_blocks_none _

/-- The `.bss` section is mapped if there are frames for it and no large page is there. -/
theorem loadSection_returns {r : ℕ} (hclear : file.Clear s.map)
    (hsup : src.Supplies (file.bssFrames + r) s.pmm) :
    ∃ s', elf64LoadSection src file bssName s = .ok s' ∧ src.Supplies r s'.pmm ∧
      file.Clear s'.map := by
  rw [ElfFile.bssFrames] at hsup
  rw [elf64LoadSection]
  rcases hfind : findSection file bssName with - | sh <;> rw [hfind] at hsup
  · exact ⟨s, rfl, by simpa using hsup, hclear⟩
  · obtain ⟨physical, s', hmap, hsup⟩ :=
      mapPages_returns (file.virtualBase sh.addr) sh.pageFlags hsup (hclear.bss sh hfind)
    exact ⟨s', Exec.bind_eq_ok.mpr ⟨_, hmap, rfl⟩, hsup, hclear.mono fun u => mapPages_blocks hmap⟩

end Segment

/-! ### A file with one segment, and an allocator -/

/-- The allocator that hands out the pages of memory in their order. -/
def FrameSource.counting : FrameSource ℕ where
  alloc k := if k < 2 ^ 40 then some (BitVec.ofNat 64 (k * 0x1000), k + 1) else none
  Live k f := f.toNat < k * 0x1000
  alloc_frame := by
    intro k f k' ha
    obtain ⟨hk, ha⟩ := Option.ite_none_right_eq_some.mp ha
    obtain ⟨rfl, -⟩ := Prod.mk.inj (Option.some.inj ha)
    exact isFrame_page (Nat.dvd_mul_left _ _) (by unfold physTop; omega)
  alloc_fresh := by
    intro k f k' ha
    obtain ⟨hk, ha⟩ := Option.ite_none_right_eq_some.mp ha
    obtain ⟨rfl, -⟩ := Prod.mk.inj (Option.some.inj ha)
    rw [toNat_start (by omega)]
    exact lt_irrefl _
  alloc_live := by
    intro k f k' ha
    obtain ⟨hk, ha⟩ := Option.ite_none_right_eq_some.mp ha
    obtain ⟨rfl, rfl⟩ := Prod.mk.inj (Option.some.inj ha)
    rw [toNat_start (by omega)]
    omega
  alloc_mono := by
    intro k f k' g ha hg
    obtain ⟨hk, ha⟩ := Option.ite_none_right_eq_some.mp ha
    obtain ⟨rfl, rfl⟩ := Prod.mk.inj (Option.some.inj ha)
    exact lt_of_lt_of_le hg (Nat.mul_le_mul_right _ k.le_succ)

theorem FrameSource.counting_supplies {n k : ℕ} (h : k + n ≤ 2 ^ 40) :
    FrameSource.counting.Supplies n k := by
  induction n generalizing k with
  | zero => trivial
  | succ n ih => exact ⟨_, k + 1, if_pos (by omega), ih (by omega)⟩

/-- The empty section of the file is passed over. -/
theorem ElfFile.Holds.findSection_eq {file : ElfFile} {bytes phdr : Bytes} {n : ℕ}
    (h : file.Holds bytes phdr n) (name : List (BitVec 8)) : findSection file name = none := by
  have hempty : elfPageCnt (file.shdrAt 0).addr (file.shdrAt 0).size = 0 := by
    rw [h.empty.1, h.empty.2]
    decide
  rw [findSection, h.shNum, List.range_one, List.find?_singleton]
  simp [hempty]

theorem ElfFile.Holds.bssFrames {file : ElfFile} {bytes phdr : Bytes} {n : ℕ}
    (h : file.Holds bytes phdr n) : file.bssFrames = 0 := by
  rw [ElfFile.bssFrames, h.findSection_eq]
  rfl

/-- The program header of a PT_LOAD segment from the start of the file. -/
def onePhdr (vaddr filesz : ℕ) : Bytes :=
  let m := putLe (fun _ => 0) 0 4 1
  let m := putLe m 16 8 vaddr
  putLe m 32 8 filesz

/-- There is a file with one segment, anywhere and of any size. -/
theorem exists_oneSegment {vaddr filesz : ℕ} (hvaddr : vaddr < 2 ^ 64) (hsize : filesz < 2 ^ 31) :
    ∃ file : ElfFile, file.Accepted ∧ file.WellPlaced ∧ file.bssFrames = 0 ∧ file.phNum = 1 ∧
      file.phdrAt 0 = ⟨elfPtLoad, 0, 0, BitVec.ofNat 64 vaddr, BitVec.ofNat 64 filesz⟩ := by
  obtain ⟨file, hacc, hload, hholds⟩ := (laidOut_markedBytes (onePhdr vaddr filesz) 0
    (show 1 < 2 ^ 16 by decide) (le_refl ehdrSize) (by decide) (x := 0x1000) (by decide)
    (by decide)).accepted 0
  have hphdr : file.phdrAt 0
      = ⟨elfPtLoad, 0, 0, BitVec.ofNat 64 vaddr, BitVec.ofNat 64 filesz⟩ := by
    have hcongr : file.phdrAt 0
        = ({ file with phdr := onePhdr vaddr filesz } : ElfFile).phdrAt 0 :=
      ElfFile.phdrAt_congr hholds.phdrs Nat.one_pos
    rw [hcongr]
    simp (disch := omega) only [ElfFile.phdrAt, int32, word64, onePhdr, Nat.mul_zero, Nat.zero_add,
      le_putLe_of_apart, le_putLe]
    rfl
  have honly : ∀ i, file.IsLoad i → i = 0 := fun i hi =>
    Nat.lt_one_iff.mp (hi.1.trans_eq hholds.phNum)
  refine ⟨file, hacc, ⟨fun i hi => ?_, fun i j hi hj hij => ?_, ?_⟩, hholds.bssFrames,
    hholds.phNum, hphdr⟩
  · rw [honly i hi, hphdr, hholds.length]
    show 0 + (BitVec.ofNat 64 filesz).toNat ≤ 2 ^ 31 - 1
    rw [BitVec.toNat_ofNat]
    omega
  · exact absurd ((honly i hi).trans (honly j hj).symm) hij
  · rw [hload]
    rfl

end Rock
