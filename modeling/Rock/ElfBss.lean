/-
Rock/ElfBss.lean

The `.bss` section after loading (`elf64_load_section`, `elf64_file_load` of kernel/core/elf.c).

The section is mapped before the segments.  It is found by comparing the first four bytes of the
names, so that `.bss.x` is taken for it, and only one section is mapped.  The segments that
follow are mapped over it: a page of `.bss` that is counted for a segment has the flags of the
last such segment, and the bytes that were copied to the page, which need not be zero where
no byte of the segment is.

Main result: every byte of a `.bss` section that no segment covers is writable and zero, if and
only if the file can be loaded and each such byte is left zero by the last segment that counts
its page, or, if there is none, is on a page of the section that is found (`bss_cleared_iff`).
-/
import Rock.ElfPages

namespace Rock

variable {σ : Type}

/-! ### What is to be shown -/

namespace ElfFile

/-- The section `i` has the name `.bss`, which is in the string table. -/
def IsBss (file : ElfFile) (i : ℕ) : Prop :=
  i < file.shNum ∧
    (file.shdrAt i).name.toNat + 5 ≤ (file.shdrAt file.shstrndx).size.toNat ∧
    sectionNamed file (bssName ++ [0]) i = true

instance (file : ElfFile) (i : ℕ) : Decidable (file.IsBss i) :=
  inferInstanceAs (Decidable (_ ∧ _))

/-- The address of byte `k` of the section. -/
def sectionAddr (file : ElfFile) (sh : Shdr) (k : ℕ) : Word :=
  file.loadOffset + sh.addr + BitVec.ofNat 64 k

/-- The byte at `v` is one of a `.bss` section, and of no PT_LOAD segment. -/
def BssByte (file : ElfFile) (v : Word) : Prop :=
  (∃ i, file.IsBss i ∧
    ∃ k < (file.shdrAt i).size.toNat, v = file.sectionAddr (file.shdrAt i) k) ∧
  ∀ i, file.IsLoad i → ∀ k < (file.phdrAt i).filesz.toNat,
    v ≠ file.segmentAddr (file.phdrAt i) k

end ElfFile

/-- The byte at `v` can be written and is zero. -/
def LoadState.Cleared (s : LoadState σ) (v : Word) : Prop :=
  (∃ tr, s.map v = some tr ∧ has tr.flags flagRW) ∧ s.byteAt v = some 0

/-- **`.bss` is there and zero** after the file was loaded. -/
def ElfFile.ClearsBss (file : ElfFile) (src : FrameSource σ) (s : LoadState σ) : Prop :=
  ∃ s', elf64FileLoad src file s = .ok s' ∧ ∀ v, file.BssByte v → s'.Cleared v

/-! ### What decides a byte -/

namespace ElfFile

/-- The section `i` is the first one that has a name that starts with `.bss`, and pages. -/
def FirstBss (file : ElfFile) (i : ℕ) : Prop :=
  let found := fun j => sectionNamed file bssName j = true ∧
    elfPageCnt (file.shdrAt j).addr (file.shdrAt j).size ≠ 0
  i < file.shNum ∧ found i ∧ ∀ j < i, ¬ found j

/-- The page of `v` is counted for the section. -/
def SectionCounts (file : ElfFile) (sh : Shdr) (v : Word) : Prop :=
  PageFrom (file.virtualBase sh.addr) (elfPageCnt sh.addr sh.size).toNat (pageOf v)

/-- The last segment that counts the page of `v` can be written, and leaves the byte zero. -/
def SegmentClears (file : ElfFile) (image : Image) (v : Word) : Prop :=
  ∃ i, file.IsLoad i ∧ ¬ file.CountsFrom (i + 1) (pageOf v) ∧ (file.phdrAt i).flags &&& 2 ≠ 0 ∧
    ∃ j < (file.phdrAt i).pages, pageOf v = pageOf (file.pageAddr (file.phdrAt i) j) ∧
      file.pageByte (file.phdrAt i) image j (v.toNat % 0x1000) = 0

/-- No segment counts the page of `v`, and the first `.bss` section does and can be written. -/
def SectionClears (file : ElfFile) (v : Word) : Prop :=
  ¬ file.CountsFrom 0 (pageOf v) ∧ ∃ i, file.FirstBss i ∧ (file.shdrAt i).flags &&& 2 ≠ 0 ∧
    file.SectionCounts (file.shdrAt i) v

end ElfFile

section Decide

variable {src : FrameSource σ} {file : ElfFile} {image : Image} {s s₀ s' : LoadState σ}
  {v flags : Word} {b : BitVec 8}

/-- The section that `elf64_load_section` takes. -/
theorem findSection_eq_some_iff {sh : Shdr} :
    findSection file bssName = some sh ↔ ∃ i, file.FirstBss i ∧ file.shdrAt i = sh := by
  have hfound : ∀ j, (sectionNamed file bssName j &&
      decide (elfPageCnt (file.shdrAt j).addr (file.shdrAt j).size ≠ 0)) = true ↔
      sectionNamed file bssName j = true ∧
        elfPageCnt (file.shdrAt j).addr (file.shdrAt j).size ≠ 0 := fun j => by
    rw [Bool.and_eq_true, decide_eq_true_iff]
  rw [findSection, Option.map_eq_some_iff]
  refine exists_congr fun i => and_congr_left fun _ => ?_
  rw [List.find?_range_eq_some]
  constructor
  · rintro ⟨hi, hmem, hfirst⟩
    refine ⟨List.mem_range.mp hmem, (hfound i).mp hi, fun j hj hname => ?_⟩
    have hno := hfirst j hj
    rw [(hfound j).mpr hname] at hno
    cases hno
  · rintro ⟨hmem, hi, hfirst⟩
    refine ⟨(hfound i).mpr hi, List.mem_range.mpr hmem, fun j hj => ?_⟩
    rw [Bool.not_eq_true', ← Bool.not_eq_true, hfound j]
    exact hfirst j hj

theorem LoadState.Shows.cleared_iff (h : s.Shows src v flags b) :
    s.Cleared v ↔ has flags flagRW ∧ b = 0 := by
  obtain ⟨f, hmap, -, -, hram⟩ := h
  have hbyte : s.byteAt v = some b := by
    rw [LoadState.byteAt, hmap, Option.map_some]
    exact congrArg some hram
  rw [LoadState.Cleared, hmap, hbyte]
  simp only [Option.some.injEq, exists_eq_left']

/-- The flags of a page by the `ELF_PF_W` bit. -/
theorem Phdr.has_pageFlags (ph : Phdr) : has ph.pageFlags flagRW ↔ ph.flags &&& 2 ≠ 0 :=
  (Rock.has_pageFlags _ _).1.trans decide_eq_true_iff

theorem Shdr.has_pageFlags (sh : Shdr) : has sh.pageFlags flagRW ↔ sh.flags &&& 2 ≠ 0 :=
  (Rock.has_pageFlags _ _).1.trans decide_eq_true_iff

/-- Of the segments that count a page there is a last one. -/
theorem ElfFile.CountsFrom.exists_last {p : ℕ} (h : file.CountsFrom 0 p) :
    ∃ i, file.IsLoad i ∧ file.Counts (file.phdrAt i) p ∧ ¬ file.CountsFrom (i + 1) p := by
  obtain ⟨j, -, hj, hp⟩ := h
  obtain ⟨i, -, -, ⟨hi, hp⟩, hlast⟩ := Rock.exists_last
    (P := fun i => file.IsLoad i ∧ file.Counts (file.phdrAt i) p) hj.1 ⟨hj, hp⟩
  refine ⟨i, hi, hp, ?_⟩
  rintro ⟨k, hik, hk, hpk⟩
  exact hlast k hk.1 hik ⟨hk, hpk⟩

variable (hb : file.buffer = some image) (hlen : file.length.toNat < 2 ^ 31)
include hb hlen

/-- **A byte that is decided by a segment.** -/
theorem cleared_of_segment (h : loadSegments src file s₀ file.phNum = .ok s')
    (hv : file.SegmentClears image v) : s'.Cleared v := by
  obtain ⟨i, hi, hlast, hw, j, hj, heq, hbyte⟩ := hv
  refine (loadSegments_last hb hlen h hi hj heq hlast).cleared_iff.mpr ⟨?_, hbyte⟩
  exact (file.phdrAt i).has_pageFlags.mpr hw

/-- **A byte that is decided by the section.** -/
theorem cleared_of_section (h₀ : elf64LoadSection src file bssName s = .ok s₀)
    (h : loadSegments src file s₀ file.phNum = .ok s') (hv : file.SectionClears v) :
    s'.Cleared v := by
  obtain ⟨hnone, i, hi, hw, hcounts⟩ := hv
  obtain ⟨s₁, h₁, hkeeps⟩ := loadSegments_keeps hb hlen le_rfl h (Nat.zero_le _)
  obtain rfl : s₀ = s₁ := Except.ok.inj h₁
  have hgiven := loadSection_given (findSection_eq_some_iff.mpr ⟨i, hi, rfl⟩) h₀
  refine ((hgiven.shows hcounts).keeps hkeeps hnone).cleared_iff.mpr ⟨?_, rfl⟩
  exact (file.shdrAt i).has_pageFlags.mpr hw

/-- **From an empty page table**, nothing else makes a byte writable and zero. -/
theorem clears_of_cleared (hempty : s.map v = none)
    (h₀ : elf64LoadSection src file bssName s = .ok s₀)
    (h : loadSegments src file s₀ file.phNum = .ok s') (hv : s'.Cleared v) :
    file.SegmentClears image v ∨ file.SectionClears v := by
  by_cases hcounts : file.CountsFrom 0 (pageOf v)
  · left
    obtain ⟨i, hi, ⟨j, hj, heq⟩, hlast⟩ := hcounts.exists_last
    obtain ⟨hw, hbyte⟩ := (loadSegments_last hb hlen h hi hj heq hlast).cleared_iff.mp hv
    exact ⟨i, hi, hlast, (file.phdrAt i).has_pageFlags.mp hw, j, hj, heq, hbyte⟩
  · right
    obtain ⟨s₁, h₁, hkeeps⟩ := loadSegments_keeps hb hlen le_rfl h (Nat.zero_le _)
    obtain rfl : s₀ = s₁ := Except.ok.inj h₁
    obtain ⟨⟨tr, hmap, -⟩, -⟩ := id hv
    rw [hkeeps.map v hcounts] at hmap
    rcases hfind : findSection file bssName with - | sh
    · rw [loadSection_of_none hfind h₀, hempty] at hmap
      cases hmap
    · have hgiven := loadSection_given hfind h₀
      obtain ⟨i, hi, rfl⟩ := findSection_eq_some_iff.mp hfind
      by_cases hsection : file.SectionCounts (file.shdrAt i) v
      · have hshows := (hgiven.shows hsection).keeps hkeeps hcounts
        exact ⟨hcounts, i, hi, (file.shdrAt i).has_pageFlags.mp (hshows.cleared_iff.mp hv).1,
          hsection⟩
      · rw [hgiven.keeps.map v hsection, hempty] at hmap
        cases hmap

end Decide

/-- **`.bss` is there and zero**, whatever the memory and the page table were with no large page in
the place of what is loaded, if and only if the segments can be copied and each byte is cleared by
the last segment that counts its page, or by the first `.bss` section if there is none. -/
theorem bss_cleared_iff {file : ElfFile} {image : Image} (hacc : file.Accepted)
    (hb : file.buffer = some image) (src : FrameSource σ) (pmm : σ)
    (hsup : src.Supplies (file.bssFrames + file.segmentFrames file.phNum) pmm) :
    (∀ ram map, file.Clear map → file.ClearsBss src ⟨pmm, ram, map⟩) ↔
      (∀ i, file.IsLoad i → file.Fits (file.phdrAt i)) ∧
        ∀ v, file.BssByte v → file.SegmentClears image v ∨ file.SectionClears v := by
  have hlen := hacc.buffer.2
  constructor
  · intro h
    -- in an empty page table a byte is only there if the loader has mapped it
    obtain ⟨s', hload, hcleared⟩ := h (fun _ => 0) _ file.clear_none
    obtain ⟨s₀, h₀, hload⟩ := Exec.bind_eq_ok.mp hload
    refine ⟨fun i hi => ?_, fun v hv => ?_⟩
    · obtain ⟨-, -, -, -, hfits, -⟩ := loadSegments_round hb hlen hload hi
      exact hfits
    · exact clears_of_cleared hb hlen rfl h₀ hload (hcleared v hv)
  · rintro ⟨hfits, hbss⟩ ram map hclear
    obtain ⟨s₀, h₀, hsup, hclear₀⟩ := loadSection_returns (s := ⟨pmm, ram, map⟩) hclear hsup
    obtain ⟨s', h', -⟩ := loadSegments_of_fits (r := 0) hb hlen hfits hclear₀ le_rfl hsup
    refine ⟨s', Exec.bind_eq_ok.mpr ⟨s₀, h₀, h'⟩, fun v hv => ?_⟩
    rcases hbss v hv with hsegment | hsection
    · exact cleared_of_segment hb hlen h' hsegment
    · exact cleared_of_section hb hlen h₀ h' hsection

/-! ### A file with a section before `.bss` -/

/-- A section header at `off`. -/
def putShdr (m : Bytes) (off name flags addr offset size : ℕ) : Bytes :=
  let m := putLe m off 4 name
  let m := putLe m (off + 8) 8 flags
  let m := putLe m (off + 16) 8 addr
  let m := putLe m (off + 24) 8 offset
  putLe m (off + 32) 8 size

/-- A file without program headers.  Its sections are one of `0x1000` bytes at `0x500000`, with
the name at `name`; `.bss`, of `0x1000` bytes at `0x600000`; and the string table, which has
`.bss.x` at 1 and `.bss` at 8. -/
def bssBytes (name : ℕ) : Bytes :=
  let m := putLe (putLe (ehdrFor 64 0) 60 2 3) 62 2 2
  let m := putShdr m 64 name 3 0x500000 0 0x1000
  let m := putShdr m 128 8 3 0x600000 0 0x1000
  let m := putShdr m 192 0 0 0 256 13
  putLe (putLe m 257 6 0x782e7373622e) 264 4 0x7373622e

def bssUnread (name : ℕ) : ElfFile := { unreadFile (bssBytes name) 0 with length := 269 }

def bssImage (name : ℕ) : Image := fun z => bssBytes name z.toNat

/-- The file as it was accepted. -/
def bssFile (name : ℕ) : ElfFile := (bssUnread name).filled (bssImage name)

/-- The file is accepted, and the section at `0x500000` is taken for `.bss` or not. -/
theorem bssFile_accepted (taken : Bool) :
    ∃ file : ElfFile, file.Accepted ∧ file.loadOffset = 0 ∧ file.phNum = 0 ∧ file.shNum = 3 ∧
      file.bssFrames = 1 ∧ (∀ i < 3, file.IsBss i ↔ i = 1) ∧
      file.FirstBss (if taken then 0 else 1) ∧
      (file.shdrAt 0).addr = 0x500000 ∧ (file.shdrAt 0).size = 0x1000 ∧
      file.shdrAt 1 = ⟨8, 3, 0x600000, 0, 0x1000⟩ := by
  have hpass : (bssUnread taken.toNat).Passes (bssImage taken.toNat) := by
    cases taken <;> constructor <;> decide +kernel
  have hlen : (bssUnread taken.toNat).length.toNat < 2 ^ 31 := show 269 < 2 ^ 31 by decide
  have hfirst : (bssFile taken.toNat).FirstBss (if taken then 0 else 1) := by
    cases taken <;>
      exact ⟨by decide +kernel, ⟨by decide +kernel, by decide +kernel⟩, by decide +kernel⟩
  refine ⟨bssFile taken.toNat, ⟨_, hpass.init rfl hlen⟩, rfl, ?_, ?_, ?_, ?_, hfirst,
    ?_, ?_, ?_⟩
  all_goals cases taken <;> decide +kernel

/-- There is a file without segments in which `.bss` is section 1, and the first section whose
name starts so is section 0 or that one. -/
theorem exists_bssFile (taken : Bool) :
    ∃ file : ElfFile, file.Accepted ∧ file.loadOffset = 0 ∧ (∀ i, ¬ file.IsLoad i) ∧
      FrameSource.counting.Supplies (file.bssFrames + file.segmentFrames file.phNum) 0 ∧
      (∀ i, file.IsBss i ↔ i = 1) ∧ file.BssByte 0x600000 ∧
      file.FirstBss (if taken then 0 else 1) ∧
      (file.shdrAt 0).addr = 0x500000 ∧ (file.shdrAt 0).size = 0x1000 ∧
      file.shdrAt 1 = ⟨8, 3, 0x600000, 0, 0x1000⟩ := by
  obtain ⟨file, hacc, hoff, hnum, hshNum, hframes, hbss, hfirst, haddr, hsize, hsh⟩ :=
    bssFile_accepted taken
  have hload : ∀ i, ¬ file.IsLoad i := fun i hi => i.not_lt_zero (hi.1.trans_eq hnum)
  have hone : file.IsBss 1 := (hbss 1 (by decide)).mpr rfl
  refine ⟨file, hacc, hoff, hload, ?_, fun i => ⟨?_, ?_⟩, ?_, hfirst, haddr, hsize, hsh⟩
  · rw [hframes, hnum, ElfFile.segmentFrames]
    exact FrameSource.counting_supplies (by decide)
  · exact fun hi => (hbss i (hi.1.trans_eq hshNum)).mp hi
  · rintro rfl
    exact hone
  · refine ⟨⟨1, hone, 0, ?_, ?_⟩, fun i hi => absurd hi (hload i)⟩
    · rw [hsh]
      decide
    · rw [ElfFile.sectionAddr, hsh, hoff]
      rfl

/-- There is one first section. -/
theorem ElfFile.FirstBss.eq {file : ElfFile} {i j : ℕ} (hi : file.FirstBss i)
    (hj : file.FirstBss j) : i = j := by
  rcases lt_trichotomy i j with hlt | heq | hlt
  · exact absurd hi.2.1 (hj.2.2 i hlt)
  · exact heq
  · exact absurd hj.2.1 (hi.2.2 j hlt)

/-- If `.bss` is the first one it is mapped. -/
theorem bss_cleared_first :
    ∃ file : ElfFile, file.Accepted ∧ file.IsBss 1 ∧ file.BssByte 0x600000 ∧
      FrameSource.counting.Supplies (file.bssFrames + file.segmentFrames file.phNum) 0 ∧
      ∀ ram map, file.Clear map → file.ClearsBss .counting ⟨0, ram, map⟩ := by
  obtain ⟨file, hacc, hoff, hload, hsup, hbss, hbyte, hfirst, -, -, hsh⟩ := exists_bssFile false
  obtain ⟨⟨image, hb⟩, -⟩ := hacc.buffer
  refine ⟨file, hacc, (hbss 1).mpr rfl, hbyte, hsup,
    (bss_cleared_iff hacc hb .counting 0 hsup).mpr ⟨fun i hi => absurd hi (hload i), ?_⟩⟩
  rintro v ⟨⟨i, hi, k, hk, rfl⟩, -⟩
  obtain rfl := (hbss i).mp hi
  refine .inr ⟨fun ⟨j, _, hj, _⟩ => hload j hj, 1, hfirst, ?_, ?_⟩
  · rw [hsh]
    decide
  · rw [hsh] at hk ⊢
    have hk : k < 0x1000 := hk
    refine ⟨0, by decide, ?_⟩
    rw [ElfFile.sectionAddr, ElfFile.virtualBase, hoff]
    show pageOf (0x600000 + BitVec.ofNat 64 k) = pageOf 0x600000
    rw [← Nat.zero_add k, ← Nat.zero_mul 0x1000, pageOf_add (by decide) hk]
    decide

/-- **A `.bss` that is not mapped**: a section `.bss.x` comes first. -/
theorem bss_not_mapped :
    ∃ file : ElfFile, file.Accepted ∧ file.IsBss 1 ∧ file.FirstBss 0 ∧ file.BssByte 0x600000 ∧
      FrameSource.counting.Supplies (file.bssFrames + file.segmentFrames file.phNum) 0 ∧
      ¬ file.ClearsBss .counting ⟨0, fun _ => 0, fun _ => none⟩ := by
  obtain ⟨file, hacc, hoff, hload, hsup, hbss, hbyte, hfirst, haddr, hsize, -⟩ :=
    exists_bssFile true
  obtain ⟨⟨image, hb⟩, hlen⟩ := hacc.buffer
  refine ⟨file, hacc, (hbss 1).mpr rfl, hfirst, hbyte, hsup, ?_⟩
  rintro ⟨s', hfile, hcleared⟩
  obtain ⟨s₀, h₀, hsegments⟩ := Exec.bind_eq_ok.mp hfile
  rcases clears_of_cleared hb hlen rfl h₀ hsegments (hcleared _ hbyte) with
    ⟨i, hi, -⟩ | ⟨-, i, hi, -, j, hj, heq⟩
  · exact hload i hi
  · obtain rfl : i = 0 := hi.eq hfirst
    rw [haddr, hsize] at hj
    obtain rfl : j = 0 := Nat.lt_one_iff.mp hj
    rw [ElfFile.virtualBase, haddr, hoff] at heq
    exact absurd heq (by decide)

end Rock
