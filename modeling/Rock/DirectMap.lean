/-
Rock/DirectMap.lean

`vmm_default_table` (kernel/core/virtual.c): the page table of the kernel, and how much of
physical memory it maps at `HIGH_VMA`.

The table maps the kernel image by small pages and then physical memory by large ones: the
first 4 GiB, and every entry of the memory map as `pmm_init` has left it.  For an entry

    phys = (mmap[i]->base / 0x200000) * 0x200000;
    for(size_t j = 0; j < DIV_ROUNDUP(mmap[i]->length, 0x200000); j++)

starts at the base rounded down, but counts the pages from the length alone.  An entry that
begins inside a large page can reach beyond the last one, and the memory that `pmm_init` has
carved off for its own data is in no entry any more.

Main result: the pages of the allocator and its data are in the direct map exactly if they
are in the first 4 GiB or in the pages counted for some entry (`direct_map_iff`).
-/
import Rock.PageMap
import Rock.PmmFrames
import Rock.PmmMetadata

namespace Rock

variable {σ : Type}

/-! ### The table -/

/-- The size of a large page. -/
def largePage : ℕ := 0x200000

/-- The flags of the kernel image. -/
def imageFlags : Word := flagP ||| flagRW ||| flagG ||| flagUS

/-- The number of pages of the kernel image. -/
def imagePages : ℕ := 0x6400

section DefaultTable

variable (fayt : Fayt) (src : FrameSource σ) (la57 : Bool) (pmlt : Word)

/-- `n` calls of `map_page`, with both addresses advancing by `step`. -/
def mapConsecutive (flags step : Word) : ℕ → Word → Word → Machine σ → Exec (Machine σ)
  | 0, _, _, m => .ok m
  | n + 1, vaddr, paddr, m => do
      let (_, m) ← (x86PagingInit src la57).mapPage m pmlt vaddr paddr flags
      mapConsecutive flags step n (vaddr + step) (paddr + step) m

/-- `n` large pages of the direct map, from `phys` on. -/
def mapDirectPages (n : ℕ) (phys : Word) : Machine σ → Exec (Machine σ) :=
  mapConsecutive src la57 pmlt directMapFlags 0x200000 n (phys + highVma) phys

/-- The direct map of the entries of the memory map. -/
def mapEntries : List MemmapEntry → Machine σ → Exec (Machine σ)
  | [], m => .ok m
  | e :: es, m => do
      let m ← mapDirectPages src la57 pmlt (fayt.divRoundup e.length largePage)
        (BitVec.ofNat 64 (e.base / largePage * largePage)) m
      mapEntries es m

/-- `vmm_default_table`: the top-level table and the machine.  Without a frame for it, the
first access goes through a non-canonical address. -/
def vmmDefaultTable (m : Machine σ) (kernelVaddr kernelPaddr : Word) (mmap : List MemmapEntry) :
    Exec (Word × Machine σ) :=
  match src.alloc m.pmm with
  | none => .error .wild
  | some (pmlt, s) => do
      let m := m.grant pmlt s
      let m ← mapConsecutive src la57 pmlt imageFlags 0x1000 imagePages kernelVaddr kernelPaddr m
      let m ← mapDirectPages src la57 pmlt 0x800 0 m
      let m ← mapEntries fayt src la57 pmlt mmap m
      .ok (pmlt, m)

end DefaultTable

/-! ### What is to be mapped -/

/-- The physical address `tr` gives to `v`. -/
def Translation.address (tr : Translation) (v : Word) : ℕ :=
  tr.frame.toNat + v.toNat % 2 ^ tr.size.shift

/-- Where the direct map has the physical address `phys`. -/
def directAddr (phys : ℕ) : Word := BitVec.ofNat 64 phys + highVma

/-- `phys` is mapped at `HIGH_VMA + phys`. -/
def DirectMapped (la57 : Bool) (m : Machine σ) (pmlt : Word) (phys : ℕ) : Prop :=
  ∃ tr, translate m.mem (pagingLevels la57) pmlt (directAddr phys) = some tr ∧
    tr.address (directAddr phys) = phys

/-- A module manages `phys`, or it holds data of the allocator. -/
def InUse (sizeofModule : ℕ) (ms : List PmmModule) (phys : ℕ) : Prop :=
  (∃ m ∈ ms, m.managed.Has phys) ∨
    ∃ b ∈ metadataBlocks sizeofModule highVma.toNat ms, b.Has phys

/-- The large pages that are counted for an entry. -/
def MemmapEntry.largePages (fayt : Fayt) (e : MemmapEntry) : Block :=
  ⟨e.base / largePage * largePage, fayt.divRoundup e.length largePage * largePage⟩

/-- `phys` is in the first 4 GiB or in the pages counted for an entry. -/
def DirectRange (fayt : Fayt) (mmap : List MemmapEntry) (phys : ℕ) : Prop :=
  phys < 0x800 * largePage ∨ ∃ e ∈ mmap, (e.largePages fayt).Has phys

instance (fayt : Fayt) (mmap : List MemmapEntry) : DecidablePred (DirectRange fayt mmap) :=
  fun _ => inferInstanceAs (Decidable (_ ∨ _))

/-- The kernel image as the boot loader reports it: whole pages that end with the addresses
and in physical memory. -/
structure ImagePlaced (kernelVaddr kernelPaddr : Word) : Prop where
  valigned : pageSize ∣ kernelVaddr.toNat
  vtop : kernelVaddr.toNat + imagePages * pageSize ≤ 2 ^ 64
  paligned : pageSize ∣ kernelPaddr.toNat
  ptop : kernelPaddr.toNat + imagePages * pageSize ≤ physTop

/-- `HIGH_VMA + phys` does not reach the kernel image. -/
structure BelowImage (sizeofModule : ℕ) (kernelVaddr : Word) (mmap : List MemmapEntry)
    (ms : List PmmModule) : Prop where
  low : highVma.toNat + 0x800 * largePage ≤ kernelVaddr.toNat
  entries : ∀ e ∈ mmap, highVma.toNat + (e.base + e.length) ≤ kernelVaddr.toNat
  used : ∀ phys, InUse sizeofModule ms phys → highVma.toNat + phys < kernelVaddr.toNat

/-! ### Addresses of the direct map -/

/-- The addresses from `HIGH_VMA` on. -/
def directTop : ℕ := 2 ^ 47

theorem directAddr_toNat {phys : ℕ} (h : phys < directTop) :
    (directAddr phys).toNat = 0xffff800000000000 + phys := by
  have hlt : phys < 140737488355328 := h
  rw [directAddr, BitVec.toNat_add, BitVec.toNat_ofNat, show highVma.toNat = 0xffff800000000000
    from rfl]
  omega

/-- Addresses of the upper half are told apart by the bits that a walk uses. -/
theorem sameBits_upper_iff (la57 : Bool) {lo : ℕ} (hlo : lo = 12 ∨ lo = 21) {v v' : Word}
    (hv : highVma.toNat ≤ v.toNat) (hv' : highVma.toNat ≤ v'.toNat) :
    sameBits lo (30 + 9 * upperLevels la57) v v' ↔ v.toNat / 2 ^ lo = v'.toNat / 2 ^ lo := by
  have hlt := v.isLt
  have hlt' := v'.isLt
  rw [show highVma.toNat = 0xffff800000000000 from rfl] at hv hv'
  rcases hlo with rfl | rfl <;> cases la57
  · rw [show 30 + 9 * upperLevels false = 12 + 36 from rfl, sameBits_iff_toNat]
    omega
  · rw [show 30 + 9 * upperLevels true = 12 + 45 from rfl, sameBits_iff_toNat]
    omega
  · rw [show 30 + 9 * upperLevels false = 21 + 27 from rfl, sameBits_iff_toNat]
    omega
  · rw [show 30 + 9 * upperLevels true = 21 + 36 from rfl, sameBits_iff_toNat]
    omega

/-- The large page that maps `phys`. -/
def directTranslation (phys : ℕ) : Translation :=
  ⟨BitVec.ofNat 64 (phys / largePage * largePage), directMapFlags, .large⟩

theorem directTranslation_address {phys : ℕ} (h : phys < directTop) :
    (directTranslation phys).address (directAddr phys) = phys := by
  have hlt : phys < 140737488355328 := h
  rw [Translation.address, directAddr_toNat h]
  show (BitVec.ofNat 64 (phys / largePage * largePage)).toNat + _ % 2 ^ 21 = phys
  rw [BitVec.toNat_ofNat, largePage]
  omega

theorem same_large_iff (la57 : Bool) {phys phys' : ℕ} (h : phys < directTop)
    (h' : phys' < directTop) :
    sameBits 21 (30 + 9 * upperLevels la57) (directAddr phys) (directAddr phys') ↔
      phys / largePage = phys' / largePage := by
  have hv := directAddr_toNat h
  have hv' := directAddr_toNat h'
  rw [sameBits_upper_iff la57 (.inr rfl) (by rw [hv]; exact Nat.le_add_right _ _)
    (by rw [hv']; exact Nat.le_add_right _ _), hv, hv', largePage]
  omega

theorem div_eq_div_iff_of_dvd {a p : ℕ} (h : largePage ∣ a) :
    a / largePage = p / largePage ↔ a ≤ p ∧ p < a + largePage := by
  obtain ⟨c, rfl⟩ := h
  rw [largePage]
  omega

/-! ### The loops -/

section Loops

variable {fayt : Fayt} {src : FrameSource σ} {la57 : Bool} {pmlt : Word} {m m' : Machine σ}

theorem mappable_direct {phys : ℕ} (hdvd : largePage ∣ phys) (htop : phys < directTop) :
    Mappable (BitVec.ofNat 64 phys) directMapFlags where
  present := by decide
  flags_leaf := by decide
  frame := by
    have hsize : mappedSize directMapFlags = .large := by decide
    rw [hsize]
    exact isFrame_of_dvd hdvd (htop.trans (by decide))

/-- **The direct map of consecutive large pages.** -/
theorem mapDirectPages_spec {n phys : ℕ} (hF : Forest src (single pmlt) (upperLevels la57 + 1) m)
    (hdvd : largePage ∣ phys) (htop : phys + n * largePage ≤ directTop)
    (h : mapDirectPages src la57 pmlt n (BitVec.ofNat 64 phys) m = .ok m') :
    Forest src (single pmlt) (upperLevels la57 + 1) m' ∧
      ∀ p < directTop, translate m'.mem (pagingLevels la57) pmlt (directAddr p)
        = if phys ≤ p ∧ p < phys + n * largePage then some (directTranslation p)
          else translate m.mem (pagingLevels la57) pmlt (directAddr p) := by
  induction n generalizing phys m with
  | zero =>
      obtain rfl := Except.ok.inj h
      refine ⟨hF, fun p _ => ?_⟩
      rw [if_neg (by omega)]
  | succ n ih =>
      obtain ⟨⟨ptr, m₁⟩, hmap, hrest⟩ := Exec.bind_eq_ok.mp h
      have hphys : phys < directTop := by
        rw [largePage] at htop
        omega
      have hun : Unobstructed m.mem (pagingLevels la57) pmlt (directAddr phys) directMapFlags :=
        fun hPS => absurd (by decide) hPS
      obtain ⟨hF₁, htr₁⟩ := hF.mapPage_translations (mappable_direct hdvd hphys) hun hmap
      have hnext : mapDirectPages src la57 pmlt n (BitVec.ofNat 64 (phys + largePage)) m₁
          = .ok m' := by
        rw [mapDirectPages, BitVec.ofNat_add]
        rw [add_right_comm] at hrest
        exact hrest
      have hsum : phys + (n + 1) * largePage = phys + largePage + n * largePage := by
        rw [Nat.succ_mul]
        omega
      rw [hsum] at htop ⊢
      obtain ⟨hF', htr'⟩ := ih hF₁ (Nat.dvd_add hdvd (dvd_refl _)) htop hnext
      refine ⟨hF', fun p hp => ?_⟩
      rw [htr' p hp, htr₁]
      have hsame : sameBits (mappedSize directMapFlags).shift (30 + 9 * upperLevels la57)
          (directAddr phys) (directAddr p) ↔ phys ≤ p ∧ p < phys + largePage :=
        (same_large_iff la57 hphys hp).trans (div_eq_div_iff_of_dvd hdvd)
      by_cases hfirst : phys ≤ p ∧ p < phys + largePage
      · -- the page just mapped, which the rest of the loop leaves alone
        have hpage : p / largePage * largePage = phys := by
          rw [← (div_eq_div_iff_of_dvd hdvd).mpr hfirst, Nat.div_mul_cancel hdvd]
        rw [if_neg (by omega), if_pos (hsame.mpr hfirst), if_pos (by omega), directTranslation,
          hpage]
        rfl
      · rw [if_neg (hsame.not.mpr hfirst)]
        exact if_congr (by omega) rfl rfl

/-- The pages counted for an entry end below the end of the direct map if the entry does. -/
theorem largePages_le {e : MemmapEntry} (h : e.base + e.length ≤ directTop) :
    e.base / largePage * largePage + fayt.divRoundup e.length largePage * largePage
      ≤ directTop := by
  have hlt : e.base + e.length ≤ 140737488355328 := h
  rw [fayt.divRoundup_eq (by decide) (by rw [largePage]; omega), directTop, largePage]
  omega

/-- **The direct map of the entries.** -/
theorem mapEntries_spec {es : List MemmapEntry}
    (hF : Forest src (single pmlt) (upperLevels la57 + 1) m)
    (htop : ∀ e ∈ es, e.base + e.length ≤ directTop)
    (h : mapEntries fayt src la57 pmlt es m = .ok m') :
    Forest src (single pmlt) (upperLevels la57 + 1) m' ∧
      ∀ p < directTop, translate m'.mem (pagingLevels la57) pmlt (directAddr p)
        = if ∃ e ∈ es, (e.largePages fayt).Has p then some (directTranslation p)
          else translate m.mem (pagingLevels la57) pmlt (directAddr p) := by
  induction es generalizing m with
  | nil =>
      obtain rfl := Except.ok.inj h
      exact ⟨hF, fun p _ => by simp⟩
  | cons e es ih =>
      rw [List.forall_mem_cons] at htop
      obtain ⟨m₁, hpages, hrest⟩ := Exec.bind_eq_ok.mp h
      obtain ⟨hF₁, htr₁⟩ := mapDirectPages_spec hF (dvd_mul_left _ _) (largePages_le htop.1) hpages
      obtain ⟨hF', htr'⟩ := ih hF₁ htop.2 hrest
      refine ⟨hF', fun p hp => ?_⟩
      rw [htr' p hp, htr₁ p hp]
      by_cases hlater : ∃ e' ∈ es, (e'.largePages fayt).Has p
      · obtain ⟨e', he', hhas⟩ := hlater
        rw [if_pos ⟨e', he', hhas⟩, if_pos ⟨e', List.mem_cons_of_mem e he', hhas⟩]
      · rw [if_neg hlater]
        refine if_congr ?_ rfl rfl
        constructor
        · exact fun hhas => ⟨e, List.mem_cons_self, hhas⟩
        · rintro ⟨e', he', hhas⟩
          rcases List.mem_cons.mp he' with rfl | he'
          · exact hhas
          · exact absurd ⟨e', he', hhas⟩ hlater

/-- All pages of the table are small. -/
def AllSmall (la57 : Bool) (pmlt : Word) (m : Machine σ) : Prop :=
  ∀ v tr, translate m.mem (pagingLevels la57) pmlt v = some tr → tr.size = .small

theorem isFrame_toNat {p : Word} (hdvd : pageSize ∣ p.toNat) (htop : p.toNat < physTop) :
    IsFrame .small p := by
  have hframe := isFrame_page hdvd htop
  rwa [BitVec.ofNat_toNat, BitVec.setWidth_eq] at hframe

/-- The next page, as long as it does not wrap. -/
theorem toNat_add_page {v : Word} (h : v.toNat + pageSize < 2 ^ 64) :
    (v + 0x1000).toNat = v.toNat + pageSize := by
  rw [BitVec.toNat_add]
  exact Nat.mod_eq_of_lt h

/-- One page of the kernel image. -/
theorem mapImage_page {vaddr paddr : Word} {ptr : Option Ptr}
    (hF : Forest src (single pmlt) (upperLevels la57 + 1) m) (hsmall : AllSmall la57 pmlt m)
    (hv : pageSize ∣ vaddr.toNat) (hp : IsFrame .small paddr)
    (h : (x86PagingInit src la57).mapPage m pmlt vaddr paddr imageFlags = .ok (ptr, m')) :
    Forest src (single pmlt) (upperLevels la57 + 1) m' ∧ AllSmall la57 pmlt m' ∧
      ∀ v : Word, highVma.toNat ≤ v.toNat → v.toNat < vaddr.toNat →
        translate m'.mem (pagingLevels la57) pmlt v
          = translate m.mem (pagingLevels la57) pmlt v := by
  have hsize : mappedSize imageFlags = .small := by decide
  have hm : Mappable paddr imageFlags := ⟨by decide, by decide, hsize ▸ hp⟩
  have hun : Unobstructed m.mem (pagingLevels la57) pmlt vaddr imageFlags := by
    intro _ tr htr
    rw [hsmall _ _ htr]
    exact PageSize.noConfusion
  obtain ⟨hF', htr'⟩ := hF.mapPage_translations hm hun h
  rw [hsize] at htr'
  refine ⟨hF', fun v tr htr => ?_, fun v hhigh hlow => ?_⟩
  · rw [htr'] at htr
    split_ifs at htr
    · obtain rfl := Option.some.inj htr
      rfl
    · exact hsmall _ _ htr
  · rw [htr', if_neg]
    show ¬ sameBits 12 _ vaddr v
    rw [sameBits_upper_iff la57 (.inl rfl) (hhigh.trans hlow.le) hhigh]
    obtain ⟨c, hc⟩ := hv
    simp only [pageSize] at hc
    omega

/-- **The kernel image** is mapped by small pages, and the direct map below it is left
alone. -/
theorem mapImage_spec {n lo : ℕ} {vaddr paddr : Word}
    (hF : Forest src (single pmlt) (upperLevels la57 + 1) m) (hsmall : AllSmall la57 pmlt m)
    (hv : pageSize ∣ vaddr.toNat) (hvtop : vaddr.toNat + n * pageSize ≤ 2 ^ 64)
    (hp : pageSize ∣ paddr.toNat) (hptop : paddr.toNat + n * pageSize ≤ physTop)
    (hlo : n ≠ 0 → lo ≤ vaddr.toNat)
    (h : mapConsecutive src la57 pmlt imageFlags 0x1000 n vaddr paddr m = .ok m') :
    Forest src (single pmlt) (upperLevels la57 + 1) m' ∧
      ∀ v : Word, highVma.toNat ≤ v.toNat → v.toNat < lo →
        translate m'.mem (pagingLevels la57) pmlt v
          = translate m.mem (pagingLevels la57) pmlt v := by
  induction n generalizing vaddr paddr m with
  | zero =>
      obtain rfl := Except.ok.inj h
      exact ⟨hF, fun _ _ _ => rfl⟩
  | succ n ih =>
      obtain ⟨⟨ptr, m₁⟩, hmap, hrest⟩ := Exec.bind_eq_ok.mp h
      have hpos := pageSize_pos
      have hmul : (n + 1) * pageSize = n * pageSize + pageSize := Nat.succ_mul n pageSize
      have hle := hlo n.succ_ne_zero
      obtain ⟨hF₁, hsmall₁, hkeep⟩ := mapImage_page hF hsmall hv
        (isFrame_toNat hp (by omega)) hmap
      rcases Nat.eq_zero_or_pos n with rfl | hn
      · obtain rfl := Except.ok.inj hrest
        exact ⟨hF₁, fun v hhigh hlow => hkeep v hhigh (hlow.trans_le hle)⟩
      · -- there is a next page, so the addresses have not wrapped
        have hmore : pageSize ≤ n * pageSize := Nat.le_mul_of_pos_left pageSize hn
        have hvnext := toNat_add_page (v := vaddr) (by omega)
        have hpnext := toNat_add_page (v := paddr) (by
          rw [physTop] at hptop
          omega)
        obtain ⟨hF', hrestkeep⟩ := ih hF₁ hsmall₁
          (by rw [hvnext]; exact Nat.dvd_add hv (dvd_refl _)) (by omega)
          (by rw [hpnext]; exact Nat.dvd_add hp (dvd_refl _)) (by omega)
          (fun _ => by omega) hrest
        exact ⟨hF', fun v hhigh hlow =>
          (hrestkeep v hhigh hlow).trans (hkeep v hhigh (hlow.trans_le hle))⟩

/-- Each call takes at most one frame for every table. -/
theorem mapConsecutive_supplies {flags step : Word} {n k : ℕ} (vaddr paddr : Word)
    (h : src.Supplies (n * (upperLevels la57 + 1) + k) m.pmm) :
    ∃ m', mapConsecutive src la57 pmlt flags step n vaddr paddr m = .ok m' ∧
      src.Supplies k m'.pmm := by
  induction n generalizing vaddr paddr m with
  | zero => exact ⟨m, rfl, by simpa using h⟩
  | succ n ih =>
      have hsum : (n + 1) * (upperLevels la57 + 1) + k
          = (upperIndices vaddr (upperLevels la57)).length
            + (n * (upperLevels la57 + 1) + k + 1) := by
        rw [upperIndices_length]
        ring
      rw [hsum] at h
      obtain ⟨ptr, m₁, hmap, hs₁⟩ := mapPage_supplies h
      rw [← x86PagingInit_mapPage] at hmap
      obtain ⟨m', hrest, hs'⟩ := ih (vaddr + step) (paddr + step) hs₁
      exact ⟨m', Exec.bind_eq_ok.mpr ⟨(ptr, m₁), hmap, hrest⟩, hs'⟩

/-- The number of large pages that are counted for the entries. -/
def entryPages (fayt : Fayt) (es : List MemmapEntry) : ℕ :=
  (es.map fun e => fayt.divRoundup e.length largePage).sum

theorem mapEntries_supplies {es : List MemmapEntry} {k : ℕ}
    (h : src.Supplies (entryPages fayt es * (upperLevels la57 + 1) + k) m.pmm) :
    ∃ m', mapEntries fayt src la57 pmlt es m = .ok m' ∧ src.Supplies k m'.pmm := by
  induction es generalizing m with
  | nil => exact ⟨m, rfl, by simpa [entryPages] using h⟩
  | cons e es ih =>
      rw [entryPages, List.map_cons, List.sum_cons, Nat.add_mul, Nat.add_assoc] at h
      obtain ⟨m₁, hpages, hs₁⟩ := mapConsecutive_supplies _ _ h
      obtain ⟨m', hrest, hs'⟩ := ih hs₁
      exact ⟨m', Exec.bind_eq_ok.mpr ⟨m₁, hpages, hrest⟩, hs'⟩

end Loops

/-! ### The direct map -/

section Main

variable {fayt : Fayt} {src : FrameSource σ} {la57 : Bool} {pmlt kernelVaddr kernelPaddr : Word}
  {m m' : Machine σ} {mmap : List MemmapEntry} {ms : List PmmModule} {sizeofModule : ℕ}

/-- Frames that are enough for `vmm_default_table`. -/
def defaultTableFrames (fayt : Fayt) (la57 : Bool) (mmap : List MemmapEntry) : ℕ :=
  (imagePages + 0x800 + entryPages fayt mmap) * (upperLevels la57 + 1) + 1

theorem vmmDefaultTable_returns
    (h : src.Supplies (defaultTableFrames fayt la57 mmap) m.pmm) :
    ∃ pmlt m', vmmDefaultTable fayt src la57 m kernelVaddr kernelPaddr mmap = .ok (pmlt, m') := by
  obtain ⟨pmlt, s, ha, h⟩ := h
  rw [Nat.add_mul, Nat.add_mul, Nat.add_assoc] at h
  obtain ⟨m₁, himage, h₁⟩ := mapConsecutive_supplies (m := m.grant pmlt s) kernelVaddr kernelPaddr h
  obtain ⟨m₂, hlow, h₂⟩ := mapConsecutive_supplies _ _ h₁
  obtain ⟨m₃, hentries, -⟩ := mapEntries_supplies (k := 0) h₂
  refine ⟨pmlt, m₃, ?_⟩
  simp only [vmmDefaultTable, ha]
  refine Exec.bind_eq_ok.mpr ⟨m₁, himage, Exec.bind_eq_ok.mpr ⟨m₂, hlow, ?_⟩⟩
  exact Exec.bind_eq_ok.mpr ⟨m₃, hentries, rfl⟩

/-- **What the direct map translates**: the first 4 GiB and the pages counted for the
entries, and nothing else. -/
theorem vmmDefaultTable_translate (hwrites : m.writes = [])
    (himage : ImagePlaced kernelVaddr kernelPaddr)
    (hlow : highVma.toNat + 0x800 * largePage ≤ kernelVaddr.toNat)
    (hentries : ∀ e ∈ mmap, highVma.toNat + (e.base + e.length) ≤ kernelVaddr.toNat)
    (h : vmmDefaultTable fayt src la57 m kernelVaddr kernelPaddr mmap = .ok (pmlt, m')) {p : ℕ}
    (hp : highVma.toNat + p < kernelVaddr.toNat) :
    translate m'.mem (pagingLevels la57) pmlt (directAddr p)
      = if DirectRange fayt mmap p then some (directTranslation p) else none := by
  have hhigh : highVma.toNat = 0xffff800000000000 := rfl
  have hktop := himage.vtop
  have htop : ∀ a, highVma.toNat + a ≤ kernelVaddr.toNat → a ≤ directTop := by
    intro a ha
    rw [directTop]
    omega
  have hpt : p < directTop := by
    rw [directTop]
    omega
  unfold vmmDefaultTable at h
  rcases ha : src.alloc m.pmm with - | ⟨t, s⟩ <;> simp only [ha] at h
  · cases h
  obtain ⟨m₁, h₁, h⟩ := Exec.bind_eq_ok.mp h
  obtain ⟨m₂, h₂, h⟩ := Exec.bind_eq_ok.mp h
  obtain ⟨m₃, h₃, h⟩ := Exec.bind_eq_ok.mp h
  obtain ⟨rfl, rfl⟩ := Prod.mk.inj (Except.ok.inj h)
  have hblank : (m.grant t s).Blank src t :=
    ⟨Function.update_self .., src.alloc_frame ha, src.alloc_live ha, hwrites⟩
  have hF := hblank.forest (upperLevels la57 + 1)
  have hnone : ∀ v, translate (m.grant t s).mem (pagingLevels la57) t v = none := by
    intro v
    refine (hF.translate_eq (r := ())).trans ?_
    rw [slotOf_empty (t := single t ()) hblank.empty (by cases la57 <;> decide)]
    rfl
  have hsmall : AllSmall la57 t (m.grant t s) := by
    intro v tr htr
    cases (hnone v).symm.trans htr
  obtain ⟨hF₁, htr₁⟩ := mapImage_spec hF hsmall himage.valigned himage.vtop himage.paligned
    himage.ptop (fun _ => le_refl _) h₁
  obtain ⟨hF₂, htr₂⟩ := mapDirectPages_spec hF₁ (dvd_zero _)
    (by rw [Nat.zero_add]; exact htop _ hlow) h₂
  obtain ⟨-, htr₃⟩ := mapEntries_spec hF₂ (fun e he => htop _ (hentries e he)) h₃
  have hv : (directAddr p).toNat = highVma.toNat + p := directAddr_toNat hpt
  rw [htr₃ p hpt, htr₂ p hpt, htr₁ _ (by omega) (by omega), hnone]
  by_cases hentry : ∃ e ∈ mmap, (e.largePages fayt).Has p
  · rw [if_pos hentry, if_pos (show DirectRange fayt mmap p from .inr hentry)]
  · rw [if_neg hentry]
    refine if_congr ?_ rfl rfl
    rw [DirectRange, or_iff_left hentry, Nat.zero_add]
    exact and_iff_right (Nat.zero_le p)

theorem directMapped_iff (hwrites : m.writes = []) (himage : ImagePlaced kernelVaddr kernelPaddr)
    (hbelow : BelowImage sizeofModule kernelVaddr mmap ms)
    (h : vmmDefaultTable fayt src la57 m kernelVaddr kernelPaddr mmap = .ok (pmlt, m')) {p : ℕ}
    (hp : InUse sizeofModule ms p) :
    DirectMapped la57 m' pmlt p ↔ DirectRange fayt mmap p := by
  have hlt := hbelow.used p hp
  have htr := vmmDefaultTable_translate hwrites himage hbelow.low hbelow.entries h hlt
  have hpt : p < directTop := by
    have hktop := himage.vtop
    rw [show highVma.toNat = 0xffff800000000000 from rfl] at hlt
    rw [directTop]
    omega
  unfold DirectMapped
  rw [htr]
  split_ifs with hrange
  · exact iff_of_true ⟨_, rfl, directTranslation_address hpt⟩ hrange
  · refine iff_of_false ?_ hrange
    rintro ⟨tr, hc, -⟩
    cases hc

/-- **The direct map of the allocator's memory.**  For every memory map whose addresses stay
below the kernel image, and both backends: `vmm_default_table` returns if there are frames
for its tables, and then every page that a module of `pmm_init` manages, and all data of the
allocator, is mapped at `HIGH_VMA` exactly if each address of them is in the first 4 GiB or in
the large pages counted for some entry. -/
theorem direct_map_iff (fayt : Fayt) (src : FrameSource σ) (la57 : Bool) (sizeofModule : ℕ)
    (mmap : List MemmapEntry) (hwrites : m.writes = [])
    (himage : ImagePlaced kernelVaddr kernelPaddr)
    (hbelow : BelowImage sizeofModule kernelVaddr
      (pmmInit fayt sizeofModule highVma.toNat mmap).1
      (pmmInit fayt sizeofModule highVma.toNat mmap).2) :
    (src.Supplies (defaultTableFrames fayt la57 (pmmInit fayt sizeofModule highVma.toNat mmap).1)
        m.pmm →
      ∃ pmlt m', vmmDefaultTable fayt src la57 m kernelVaddr kernelPaddr
        (pmmInit fayt sizeofModule highVma.toNat mmap).1 = .ok (pmlt, m')) ∧
    ∀ pmlt m', vmmDefaultTable fayt src la57 m kernelVaddr kernelPaddr
        (pmmInit fayt sizeofModule highVma.toNat mmap).1 = .ok (pmlt, m') →
      ((∀ p, InUse sizeofModule (pmmInit fayt sizeofModule highVma.toNat mmap).2 p →
          DirectMapped la57 m' pmlt p) ↔
        ∀ p, InUse sizeofModule (pmmInit fayt sizeofModule highVma.toNat mmap).2 p →
          DirectRange fayt (pmmInit fayt sizeofModule highVma.toNat mmap).1 p) := by
  refine ⟨vmmDefaultTable_returns, fun pmlt m' h => ?_⟩
  exact forall₂_congr fun p hp => directMapped_iff hwrites himage hbelow h hp

end Main

/-! ### An entry across a boundary of 2 MiB -/

theorem spaced_below {size : PageSize} {n : ℕ} (hn : n < 2 ^ 22) :
    2 ^ size.shift * n < physTop := by
  cases size <;> simp only [PageSize.shift, physTop] <;> omega

theorem spaced_isFrame {size : PageSize} {n : ℕ} (hn : n < 2 ^ 22) :
    IsFrame .small (BitVec.ofNat 64 (2 ^ size.shift * n)) := by
  refine isFrame_of_dvd ((pow_dvd_pow 2 ?_).mul_right n) (spaced_below hn)
  cases size <;> simp [PageSize.shift]

/-- A source that counts the frames it has returned, which lie one page of the given size
apart. -/
def FrameSource.spaced (size : PageSize) : FrameSource ℕ where
  alloc n := if n < 2 ^ 22 then some (BitVec.ofNat 64 (2 ^ size.shift * n), n + 1) else none
  Live n f := f.toNat < 2 ^ size.shift * n
  alloc_frame := by
    intro n f n' h
    obtain ⟨hn, h⟩ := Option.ite_none_right_eq_some.mp h
    obtain ⟨rfl, -⟩ := Prod.mk.inj (Option.some.inj h)
    exact spaced_isFrame hn
  alloc_fresh := by
    intro n f n' h
    obtain ⟨hn, h⟩ := Option.ite_none_right_eq_some.mp h
    obtain ⟨rfl, -⟩ := Prod.mk.inj (Option.some.inj h)
    rw [toNat_ofNat_below (spaced_below hn)]
    exact lt_irrefl _
  alloc_live := by
    intro n f n' h
    obtain ⟨hn, h⟩ := Option.ite_none_right_eq_some.mp h
    obtain ⟨rfl, rfl⟩ := Prod.mk.inj (Option.some.inj h)
    rw [toNat_ofNat_below (spaced_below hn)]
    exact Nat.mul_lt_mul_of_pos_left n.lt_succ_self (Nat.two_pow_pos _)
  alloc_mono := by
    intro n f n' g h hlive
    obtain ⟨hn, h⟩ := Option.ite_none_right_eq_some.mp h
    obtain ⟨-, rfl⟩ := Prod.mk.inj (Option.some.inj h)
    exact hlive.trans_le (Nat.mul_le_mul_left _ (Nat.le_succ n))

theorem FrameSource.spaced_supplies (size : PageSize) {k n : ℕ} (h : n + k ≤ 2 ^ 22) :
    (FrameSource.spaced size).Supplies k n := by
  induction k generalizing n with
  | zero => trivial
  | succ k ih =>
      exact ⟨_, n + 1, if_pos (by omega), ih (by omega)⟩

/-- No frame has been taken yet. -/
def coldMachine : Machine ℕ := ⟨Mem.blank, 0, [], []⟩

theorem imagePlaced_boot : ImagePlaced 0xffffffff80000000 0x10000000 :=
  ⟨by decide, by decide, by decide, by decide⟩

/-- A bound on what is in use, block by block. -/
theorem InUse.lt {sizeofModule bound p : ℕ} {ms : List PmmModule} (h : InUse sizeofModule ms p)
    (hbound : ∀ b ∈ ms.map PmmModule.managed ++ metadataBlocks sizeofModule highVma.toNat ms,
      b.first + b.len ≤ bound) : p < bound := by
  rcases h with ⟨m, hm, hhas⟩ | ⟨b, hb, hhas⟩
  · exact hhas.2.trans_le (hbound _ (List.mem_append_left _ (List.mem_map_of_mem hm)))
  · exact hhas.2.trans_le (hbound b (List.mem_append_right _ hb))

theorem direct_map_loose :
    ∃ pmlt m', vmmDefaultTable .textbook (.spaced .small) false coldMachine
        0xffffffff80000000 0x10000000
        (pmmInit .textbook 56 highVma.toNat looseMap).1 = .ok (pmlt, m') ∧
      ∀ p, InUse 56 (pmmInit .textbook 56 highVma.toNat looseMap).2 p →
        DirectMapped false m' pmlt p := by
  have hused : ∀ p, InUse 56 (pmmInit .textbook 56 highVma.toNat looseMap).2 p → p < 0x300000 :=
    fun p hp => hp.lt (by decide +kernel)
  have hbelow : BelowImage 56 0xffffffff80000000 (pmmInit .textbook 56 highVma.toNat looseMap).1
      (pmmInit .textbook 56 highVma.toNat looseMap).2 :=
    ⟨by decide, by decide +kernel, fun p hp =>
      (Nat.add_lt_add_left (hused p hp) _).trans (by decide)⟩
  obtain ⟨hreturns, hiff⟩ := direct_map_iff .textbook (.spaced .small) false 56 looseMap
    (show coldMachine.writes = [] from rfl) imagePlaced_boot hbelow
  obtain ⟨pmlt, m', h⟩ := hreturns (FrameSource.spaced_supplies .small (by decide +kernel))
  refine ⟨pmlt, m', h, (hiff pmlt m' h).mpr fun p hp => .inl ?_⟩
  exact (hused p hp).trans (by decide)

/-- A usable entry for the metadata, and one of two pages across a boundary of 2 MiB behind
4 GiB. -/
def acrossLarge : List MemmapEntry :=
  [⟨0x100000, 0x200000, .usable⟩, ⟨0x1001ff000, 0x2000, .usable⟩]

/-- **A page that is allocated but not mapped.**  One large page is counted for the two pages,
and the second one is behind it. -/
theorem acrossLarge_gap :
    BelowImage 56 0xffffffff80000000 (pmmInit .textbook 56 highVma.toNat acrossLarge).1
      (pmmInit .textbook 56 highVma.toNat acrossLarge).2 ∧
    InUse 56 (pmmInit .textbook 56 highVma.toNat acrossLarge).2 0x100200000 ∧
    ∃ pmlt m', vmmDefaultTable .textbook (.spaced .small) false coldMachine
        0xffffffff80000000 0x10000000
        (pmmInit .textbook 56 highVma.toNat acrossLarge).1 = .ok (pmlt, m') ∧
      translate m'.mem 4 pmlt (directAddr 0x100200000) = none ∧
      ¬ DirectMapped false m' pmlt 0x100200000 := by
  have hlt : ∀ p, InUse 56 (pmmInit .textbook 56 highVma.toNat acrossLarge).2 p →
      p < 0x100201000 :=
    fun p hp => hp.lt (by decide +kernel)
  have hbelow : BelowImage 56 0xffffffff80000000
      (pmmInit .textbook 56 highVma.toNat acrossLarge).1
      (pmmInit .textbook 56 highVma.toNat acrossLarge).2 :=
    ⟨by decide, by decide +kernel, fun p hp =>
      (Nat.add_lt_add_left (hlt p hp) _).trans (by decide)⟩
  have hused : InUse 56 (pmmInit .textbook 56 highVma.toNat acrossLarge).2 0x100200000 := by
    have hmodule : ∃ b ∈ (pmmInit .textbook 56 highVma.toNat acrossLarge).2.map PmmModule.managed,
        b.Has 0x100200000 := by
      decide +kernel
    obtain ⟨b, hb, hhas⟩ := hmodule
    obtain ⟨m, hm, rfl⟩ := List.mem_map.mp hb
    exact .inl ⟨m, hm, hhas⟩
  have hgap : ¬ DirectRange .textbook (pmmInit .textbook 56 highVma.toNat acrossLarge).1
      0x100200000 := by
    decide +kernel
  have hreturns : ∃ pmlt m', vmmDefaultTable .textbook (.spaced .small) false coldMachine
      0xffffffff80000000 0x10000000 (pmmInit .textbook 56 highVma.toNat acrossLarge).1
      = .ok (pmlt, m') :=
    vmmDefaultTable_returns (FrameSource.spaced_supplies .small (by decide +kernel))
  obtain ⟨pmlt, m', h⟩ := hreturns
  refine ⟨hbelow, hused, pmlt, m', h, ?_, ?_⟩
  · have htr := vmmDefaultTable_translate rfl imagePlaced_boot hbelow.low hbelow.entries h
      (hbelow.used _ hused)
    rwa [if_neg hgap] at htr
  · rwa [directMapped_iff rfl imagePlaced_boot hbelow h hused]

end Rock
