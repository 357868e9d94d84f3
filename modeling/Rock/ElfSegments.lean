/-
Rock/ElfSegments.lean

The segments that `elf64_file_load` does not load as it should (kernel/core/elf.c).

Three formulas of the loader go wrong:

* the size of the last piece is `p_filesz % (j * PAGE_SIZE)`, also for the first page: a
  segment of less than a page divides by zero, and so does an empty one that does not
  start on a page (`loadSegment_divides`);
* a segment that does not start on a page has a first piece that is shorter, but the pages
  that follow are copied from `p_offset + j * PAGE_SIZE` all the same, so that their bytes
  are too far on in the file (`loadSegment_shifts`);
* such a segment gets pages it does not have, and if there is enough of the file the whole
  of `p_filesz` is copied to them, over the end of the frame.

What a shift does to a single file depends on its bytes: in a file of zeros nothing is
seen of it.  So the condition is one on the program headers.  Main result: every file with the
same program headers is loaded if and only if each PT_LOAD segment starts on a page and is
empty or has at least a page (`segments_loaded_iff`).
-/
import Rock.ElfPages

namespace Rock

variable {σ : Type}

/-! ### Segments that are loaded -/

section Loaded

variable {src : FrameSource σ} {file : ElfFile} {ph : Phdr} {image : Image} {s s' : LoadState σ}
  {i : ℕ}

/-- A loadable segment is on its own pages. -/
theorem Phdr.Loadable.onOwnPages (h : ph.Loadable) (hlen : file.length.toNat < 2 ^ 31)
    (hload : file.loadOffset.toNat % 0x1000 = 0)
    (hin : ph.offset.toNat + ph.filesz.toNat ≤ file.length.toNat) : file.OnOwnPages ph := by
  obtain ⟨haligned, hzero | hsize⟩ := h
  · exact .inl ⟨hzero, haligned⟩
  · refine .inr ⟨hsize, ?_, copiesFit_of_inside hlen hin⟩
    rw [hload, haligned]
    omega

variable (hb : file.buffer = some image) (hlen : file.length.toNat < 2 ^ 31)
include hb hlen

/-- **A loadable segment is loaded**, with the bytes of the file. -/
theorem loadSegment_loadable (hload : file.loadOffset.toNat % 0x1000 = 0)
    (hin : ph.offset.toNat + ph.filesz.toNat ≤ file.length.toNat) (hph : ph.Loadable)
    (htype : ph.type = elfPtLoad) (h : loadSegment src file s ph = .ok s') {k : ℕ}
    (hk : k < ph.filesz.toNat) :
    s'.Shows src (file.segmentAddr ph k) ph.pageFlags (image (ph.offset.toNat + k : ℕ)) := by
  obtain ⟨-, hround⟩ := loadSegment_round hb hlen htype h
  obtain ⟨haligned, hsize⟩ := hph
  -- byte `k` is on page `k / 0x1000`
  obtain ⟨j, d, hd, rfl⟩ : ∃ j d, d < 0x1000 ∧ k = j * 0x1000 + d :=
    ⟨k / 0x1000, k % 0x1000, Nat.mod_lt _ (by decide), by omega⟩
  have hpages : j < ph.pages := by
    rw [ph.pages_eq (by omega), haligned]
    omega
  have haddr : file.segmentAddr ph (j * 0x1000 + d)
      = file.virtualBase ph.vaddr + BitVec.ofNat 64 (j * 0x1000 + d) := by
    rw [segmentAddr_eq, haligned, Nat.zero_add]
  have hbase : (file.virtualBase ph.vaddr).toNat % 0x1000 = 0 := virtualBase_aligned hload
  have hskip : (ph.skip j).toNat = 0 := by
    rw [toNat_skip, haligned, ite_self]
  obtain ⟨f, hframe, -, hlive, hmap, hbytes⟩ := hround.page j hpages
  refine ⟨f, hmap _ ?_, hframe, hlive, ?_⟩
  · rw [haddr, pageOf_add hbase hd, ElfFile.pageAddr, pageOf_page]
  · rw [haddr, offset_add hbase hd, hbytes d hd,
      pageByte_of_inside hlen hin image (by omega) (by omega), if_pos (by omega), hskip,
      Nat.sub_zero]

/-- The loader goes through the program header `i`, and what is there then stays if the
segments that follow are loadable and on other pages. -/
theorem loadSegments_through (hw : file.WellPlaced)
    (h : loadSegments src file s file.phNum = .ok s') (hi : file.IsLoad i) :
    ∃ s₁ s₂, loadSegment src file s₁ (file.phdrAt i) = .ok s₂ ∧
      ∀ v flags b, s₂.Shows src v flags b →
        (∀ j, i < j → file.IsLoad j →
          (file.phdrAt j).Loadable ∧ ¬ file.Occupies (file.phdrAt j) (pageOf v)) →
        s'.Shows src v flags b := by
  obtain ⟨s₁, s₂, -, hsegment, -, -, hkeeps⟩ := loadSegments_round hb hlen h hi
  refine ⟨s₁, s₂, hsegment, fun v flags b hshows hrest => hshows.keeps hkeeps ?_⟩
  rintro ⟨j, hij, hj, hcounts⟩
  obtain ⟨hloadable, hother⟩ := hrest j hij hj
  have hown := hloadable.onOwnPages hlen hw.aligned (hw.inside j hj)
  exact hother ((hown.counts.2 _).mp hcounts)

/-- **Loadable segments are loaded one after the other.** -/
theorem loadSegments_loadable (hw : file.WellPlaced)
    (hload : ∀ j, file.IsLoad j → (file.phdrAt j).Loadable)
    (h : loadSegments src file s file.phNum = .ok s') (hi : file.IsLoad i) {k : ℕ}
    (hk : k < (file.phdrAt i).filesz.toNat) :
    s'.Shows src (file.segmentAddr (file.phdrAt i) k) (file.phdrAt i).pageFlags
      (image ((file.phdrAt i).offset.toNat + k : ℕ)) := by
  obtain ⟨s₁, s₂, hsegment, hkept⟩ := loadSegments_through hb hlen hw h hi
  have hshows := loadSegment_loadable hb hlen hw.aligned (hw.inside i hi) (hload i hi) hi.2
    hsegment hk
  refine hkept _ _ _ hshows fun j hij hj => ⟨hload j hj, ?_⟩
  rintro ⟨l, hl, heq⟩
  exact hw.apart i j hi hj hij.ne k hk l hl heq

omit hb hlen in
/-- A file of loadable segments is loaded. -/
theorem loadsSegments_of_loadable (hacc : file.Accepted) (hw : file.WellPlaced)
    (hload : ∀ j, file.IsLoad j → (file.phdrAt j).Loadable) : file.LoadsSegments := by
  intro σ src s hclear hsup
  obtain ⟨⟨image, hb⟩, hlen⟩ := hacc.buffer
  have hfits : ∀ i, file.IsLoad i → file.Fits (file.phdrAt i) := fun i hi =>
    ((hload i hi).onOwnPages hlen hw.aligned (hw.inside i hi)).counts.1
  obtain ⟨s₁, h₁, hsup, hclear₁⟩ := loadSection_returns hclear hsup
  obtain ⟨s₂, h₂, -⟩ := loadSegments_of_fits (r := 0) hb hlen hfits hclear₁ le_rfl hsup
  refine ⟨s₂, Exec.bind_eq_ok.mpr ⟨s₁, h₁, h₂⟩, fun i hi k hk => ?_⟩
  rw [(loadSegments_loadable hb hlen hw hload h₂ hi hk).byteAt, ElfFile.byte, hb]
  rfl

end Loaded

/-! ### Segments that are not loaded -/

section NotLoaded

variable {src : FrameSource σ} {file : ElfFile} {ph : Phdr} {image : Image} {s s' : LoadState σ}

/-- There are pages for a segment, unless it is empty and starts on a page. -/
theorem pages_ne_zero (hsize : ph.filesz.toNat < 0x1000)
    (hpages : ¬ (ph.vaddr.toNat % 0x1000 = 0 ∧ ph.filesz.toNat = 0)) : ph.pages ≠ 0 := by
  rw [ph.pages_eq (by omega)]
  omega

/-- **A segment of less than a page divides by zero**, unless it is empty and starts on a page. -/
theorem loadSegment_divides {r : ℕ} (htype : ph.type = elfPtLoad)
    (hsize : ph.filesz.toNat < 0x1000)
    (hpages : ¬ (ph.vaddr.toNat % 0x1000 = 0 ∧ ph.filesz.toNat = 0))
    (hopen : ∀ j < segmentPages ph,
      ¬ s.map.Blocks (file.virtualBase ph.vaddr + BitVec.ofNat 64 (j * 0x1000)))
    (hsup : src.Supplies (segmentPages ph + r) s.pmm) :
    loadSegment src file s ph = .error .divide := by
  have hcnt := pages_ne_zero hsize hpages
  rw [segmentPages_of_type htype] at hsup hopen
  obtain ⟨physical, s₁, hmap, -⟩ :=
    mapPages_returns (file.virtualBase ph.vaddr) ph.pageFlags hsup hopen
  rw [loadSegment_eq htype hcnt, hmap, Exec.ok_bind]
  exact copyPages_divide hsize hcnt

variable (hb : file.buffer = some image) (hlen : file.length.toNat < 2 ^ 31)
include hb hlen

/-- So it is not loaded. -/
theorem not_loadSegment (htype : ph.type = elfPtLoad) (hsize : ph.filesz.toNat < 0x1000)
    (hpages : ¬ (ph.vaddr.toNat % 0x1000 = 0 ∧ ph.filesz.toNat = 0)) :
    loadSegment src file s ph ≠ .ok s' := by
  intro h
  rcases (loadSegment_round hb hlen htype h).1 with hzero | ⟨hle, -⟩
  · exact pages_ne_zero hsize hpages hzero
  · omega

/-- **The second page of a segment that does not start on a page** has the bytes that are too
far on in the file, as far as it has any. -/
theorem loadSegment_shifts (hload : file.loadOffset.toNat % 0x1000 = 0)
    (hin : ph.offset.toNat + ph.filesz.toNat ≤ file.length.toNat)
    (htype : ph.type = elfPtLoad) (hmis : ph.vaddr.toNat % 0x1000 ≠ 0)
    (hsize : 0x1000 ≤ ph.filesz.toNat) (h : loadSegment src file s ph = .ok s') :
    ∃ b, s'.Shows src (file.segmentAddr ph 0xfff) ph.pageFlags b ∧
      (b = 0 ∨ b = image (ph.offset.toNat + 0xfff + ph.vaddr.toNat % 0x1000 : ℕ)) := by
  have hmis_lt := Nat.mod_lt ph.vaddr.toNat (show 0 < 0x1000 by decide)
  have hbase : (file.virtualBase ph.vaddr).toNat % 0x1000 = 0 := virtualBase_aligned hload
  have hpages : 1 < ph.pages := by
    rw [ph.pages_eq (by omega)]
    omega
  -- the byte is the last one of the first page's length, on the second page
  obtain ⟨d, hd⟩ : ∃ d, ph.vaddr.toNat % 0x1000 = d + 1 := Nat.exists_eq_succ_of_ne_zero hmis
  have haddr : file.segmentAddr ph 0xfff
      = file.virtualBase ph.vaddr + BitVec.ofNat 64 (1 * 0x1000 + d) := by
    rw [segmentAddr_eq]
    congr 2
    omega
  obtain ⟨-, hround⟩ := loadSegment_round hb hlen htype h
  obtain ⟨f, hframe, -, hlive, hmap, hbytes⟩ := hround.page 1 hpages
  refine ⟨_, ⟨f, hmap _ ?_, hframe, hlive, rfl⟩, ?_⟩
  · rw [haddr, pageOf_add hbase (by omega), ElfFile.pageAddr, pageOf_page]
  · have hskip : (ph.skip 1).toNat = 0 := (toNat_skip ph 1).trans (if_neg one_ne_zero)
    rw [haddr, offset_add hbase (by omega), hbytes d (by omega),
      pageByte_of_inside hlen hin image (by omega) (by omega), hskip, hd]
    split_ifs
    · right
      congr 2
      omega
    · exact .inl rfl

end NotLoaded

/-! ### Files with the same program headers -/

section SameSegments

variable {file file' : ElfFile}

/-- There is a file with the same program headers, without `.bss`, in which the byte at `x` is
neither zero nor the one at `y`. -/
theorem exists_sameSegments (file : ElfFile) {x y : ℕ} (hx : ehdrSize ≤ x) (hxy : y ≠ x) :
    ∃ (file' : ElfFile) (bytes : Bytes), file'.Accepted ∧ file.SameSegments file' ∧
      file'.Holds bytes file.phdr file.phNum ∧ bytes x ≠ 0 ∧ bytes x ≠ bytes y := by
  have hcount : file.phNum < 2 ^ 16 := le_lt file.hdr 56 2
  have hehdr : ehdrSize = 64 := rfl
  have hphdrs : phdrSize * file.phNum = 56 * file.phNum := rfl
  have hshdr : shdrSize = 64 := rfl
  -- the tables are behind the header, or behind the mark if that is in their place
  obtain ⟨tables, hbehind, hfits, hbeside⟩ : ∃ tables, ehdrSize ≤ tables ∧
      tables + phdrSize * file.phNum + shdrSize < 2 ^ 31 ∧
      (x < tables ∨ tables + phdrSize * file.phNum + shdrSize ≤ x) := by
    by_cases hplace : ehdrSize + phdrSize * file.phNum + shdrSize ≤ x
    · exact ⟨ehdrSize, le_rfl, by omega, .inr hplace⟩
    · exact ⟨x + 1, by omega, by omega, .inl x.lt_succ_self⟩
  obtain ⟨c, hzero, hc⟩ : ∃ c : BitVec 8, c ≠ 0 ∧
      c ≠ markedBytes file.phdr tables file.phNum x 0 y := by
    by_cases hone : markedBytes file.phdr tables file.phNum x 0 y = 1
    · exact ⟨2, by decide, by rw [hone]; decide⟩
    · exact ⟨1, by decide, Ne.symm hone⟩
  obtain ⟨file', hacc', hload, hholds⟩ := (laidOut_markedBytes file.phdr c hcount
    hbehind hfits hx hbeside).accepted file.loadOffset
  refine ⟨file', _, hacc', ⟨hholds.phNum, fun i hi => ?_, hload⟩, hholds, ?_, ?_⟩
  · exact ElfFile.phdrAt_congr hholds.phdrs hi
  · rwa [markedBytes, Function.update_self]
  · rw [markedBytes, Function.update_self, Function.update_of_ne hxy]
    rwa [markedBytes, Function.update_of_ne hxy] at hc

theorem ElfFile.SameSegments.isLoad_iff (h : file.SameSegments file') {i : ℕ} :
    file'.IsLoad i ↔ file.IsLoad i := by
  rw [ElfFile.IsLoad, ElfFile.IsLoad, h.phNum]
  exact and_congr_right fun hi => by rw [h.phdrAt i hi]

/-- Where the segments are depends on the program headers only. -/
theorem ElfFile.SameSegments.wellPlaced (h : file.SameSegments file') (hw : file.WellPlaced)
    (hlen : file.length.toNat ≤ file'.length.toNat) : file'.WellPlaced := by
  have haddr : ∀ ph k, file'.segmentAddr ph k = file.segmentAddr ph k := by
    intro ph k
    rw [ElfFile.segmentAddr, ElfFile.segmentAddr, h.loadOffset]
  refine ⟨fun i hi => ?_, fun i j hi hj hij k hk l hl => ?_, h.loadOffset ▸ hw.aligned⟩
  · rw [h.isLoad_iff] at hi
    rw [h.phdrAt i hi.1]
    exact (hw.inside i hi).trans hlen
  · rw [h.isLoad_iff] at hi hj
    rw [h.phdrAt i hi.1] at hk ⊢
    rw [h.phdrAt j hj.1] at hl ⊢
    rw [haddr, haddr]
    exact hw.apart i j hi hj hij k hk l hl

/-- There are frames enough for the segments of any file. -/
theorem segmentFrames_le (hw : file.WellPlaced) (hlen : file.length.toNat < 2 ^ 31) {n : ℕ}
    (hn : n ≤ file.phNum) : file.segmentFrames n ≤ n * 2 ^ 20 := by
  induction n with
  | zero => exact Nat.zero_le _
  | succ n ih =>
      have hpages : segmentPages (file.phdrAt n) ≤ 2 ^ 20 := by
        rw [segmentPages]
        split_ifs with htype
        · have hin := hw.inside n ⟨hn, htype⟩
          rw [toNat_elfPageCnt (by omega)]
          split_ifs <;> omega
        · exact Nat.zero_le _
      have hrest := ih (Nat.le_of_succ_le hn)
      rw [ElfFile.segmentFrames]
      omega

/-- What the loader comes back with, with the frames of a counting allocator. -/
theorem ElfFile.LoadsSegments.counting (hacc : file.Accepted) (hw : file.WellPlaced)
    (hbss : file.bssFrames = 0) (h : file.LoadsSegments) :
    ∃ s s' : LoadState ℕ, loadSegments .counting file s file.phNum = .ok s' ∧
      ∀ i, file.IsLoad i → ∀ k < (file.phdrAt i).filesz.toNat,
        s'.byteAt (file.segmentAddr (file.phdrAt i) k)
          = file.byte ((file.phdrAt i).offset.toNat + k) := by
  have hcount : file.phNum < 2 ^ 16 := le_lt file.hdr 56 2
  have hframes := segmentFrames_le hw hacc.buffer.2 le_rfl
  have hsup : FrameSource.counting.Supplies (file.bssFrames + file.segmentFrames file.phNum) 0 := by
    rw [hbss]
    exact FrameSource.counting_supplies (by omega)
  obtain ⟨s', hload, hbytes⟩ := h ℕ .counting ⟨0, fun _ => 0, fun _ => none⟩ file.clear_none hsup
  obtain ⟨s, -, hsegments⟩ := Exec.bind_eq_ok.mp hload
  exact ⟨s, s', hsegments, hbytes⟩

/-- A segment of less than a page is loaded only if it is empty and starts on a page. -/
theorem not_loadsSegments_of_divides (hacc : file.Accepted) (hw : file.WellPlaced)
    (hbss : file.bssFrames = 0) {i : ℕ} (hi : file.IsLoad i)
    (hsize : (file.phdrAt i).filesz.toNat < 0x1000)
    (hpages : ¬ ((file.phdrAt i).vaddr.toNat % 0x1000 = 0 ∧ (file.phdrAt i).filesz.toNat = 0)) :
    ¬ file.LoadsSegments := by
  intro h
  obtain ⟨s, s', hsegments, -⟩ := h.counting hacc hw hbss
  obtain ⟨⟨image, hb⟩, hlen⟩ := hacc.buffer
  obtain ⟨s₁, s₂, hsegment, -⟩ := loadSegments_through hb hlen hw hsegments hi
  exact not_loadSegment hb hlen hi.2 hsize hpages hsegment

/-- The last segment that does not start on a page is not loaded, if the byte at the end of its
first `PAGE_SIZE` ones is neither zero nor the one that the loader takes for it. -/
theorem not_loadsSegments_of_shifts (hacc : file.Accepted) (hw : file.WellPlaced)
    {bytes phdr : Bytes} {n : ℕ} (hholds : file.Holds bytes phdr n) {i : ℕ} (hi : file.IsLoad i)
    (hsize : 0x1000 ≤ (file.phdrAt i).filesz.toNat)
    (hmis : (file.phdrAt i).vaddr.toNat % 0x1000 ≠ 0)
    (hlast : ∀ j, i < j → file.IsLoad j → (file.phdrAt j).Loadable)
    (hzero : bytes ((file.phdrAt i).offset.toNat + 0xfff) ≠ 0)
    (hother : bytes ((file.phdrAt i).offset.toNat + 0xfff) ≠
      bytes ((file.phdrAt i).offset.toNat + 0xfff + (file.phdrAt i).vaddr.toNat % 0x1000)) :
    ¬ file.LoadsSegments := by
  intro h
  obtain ⟨s, s', hsegments, hbytes⟩ := h.counting hacc hw hholds.bssFrames
  have hlen := hacc.buffer.2
  obtain ⟨s₁, s₂, hsegment, hkept⟩ := loadSegments_through hholds.buffer hlen hw hsegments hi
  obtain ⟨b, hshows, hb⟩ := loadSegment_shifts hholds.buffer hlen hw.aligned (hw.inside i hi) hi.2
    hmis hsize hsegment
  have hin : 0xfff < (file.phdrAt i).filesz.toNat := by omega
  have hshows' := hkept _ _ _ hshows fun j hij hj => ⟨hlast j hij hj, ?_⟩
  swap
  · rintro ⟨l, hl, heq⟩
    exact hw.apart i j hi hj hij.ne _ hin l hl heq
  have hbyte := hbytes i hi 0xfff hin
  rw [hshows'.byteAt, ElfFile.byte, hholds.buffer] at hbyte
  have hbyte : b = bytes ((file.phdrAt i).offset.toNat + 0xfff) := Option.some.inj hbyte
  rcases hb with rfl | rfl
  · exact hzero hbyte.symm
  · exact hother hbyte.symm

end SameSegments

section Marked

variable {file : ElfFile}

/-- There is a file of the greatest length with the same program headers and a mark at `x`. -/
theorem exists_marked (hacc : file.Accepted) (hw : file.WellPlaced) {x y : ℕ}
    (hx : ehdrSize ≤ x) (hxy : y ≠ x) :
    ∃ (file' : ElfFile) (bytes : Bytes), file'.Accepted ∧ file'.WellPlaced ∧
      file.SameSegments file' ∧ file'.Holds bytes file.phdr file.phNum ∧
      bytes x ≠ 0 ∧ bytes x ≠ bytes y := by
  obtain ⟨file', bytes, hacc', hsame, hholds, hmark⟩ := exists_sameSegments file hx hxy
  refine ⟨file', bytes, hacc', hsame.wellPlaced hw ?_, hsame, hholds, hmark⟩
  rw [hholds.length]
  exact Nat.le_pred_of_lt hacc.buffer.2

/-- If all files with these program headers are loaded, then a segment has a page at least, or is
empty and starts on a page. -/
theorem page_of_loads (hacc : file.Accepted) (hw : file.WellPlaced)
    (hall : ∀ file', file'.Accepted → file.SameSegments file' → file'.WellPlaced →
      file'.LoadsSegments) {i : ℕ} (hi : file.IsLoad i) :
    0x1000 ≤ (file.phdrAt i).filesz.toNat ∨
      (file.phdrAt i).vaddr.toNat % 0x1000 = 0 ∧ (file.phdrAt i).filesz.toNat = 0 := by
  by_contra hno
  rw [not_or] at hno
  obtain ⟨file', bytes, hacc', hw', hsame, hholds, -⟩ :=
    exists_marked hacc hw (le_refl ehdrSize) (Nat.succ_ne_self ehdrSize)
  have hphdr := hsame.phdrAt i hi.1
  refine not_loadsSegments_of_divides hacc' hw' hholds.bssFrames (hsame.isLoad_iff.mpr hi) ?_ ?_
    (hall file' hacc' hsame hw')
  · rw [hphdr]
    exact Nat.not_le.mp hno.1
  · rw [hphdr]
    exact hno.2

/-- If all files with these program headers are loaded, then every segment starts on a page. -/
theorem aligned_of_loads (hacc : file.Accepted) (hw : file.WellPlaced)
    (hall : ∀ file', file'.Accepted → file.SameSegments file' → file'.WellPlaced →
      file'.LoadsSegments) {i : ℕ} (hi : file.IsLoad i) :
    (file.phdrAt i).vaddr.toNat % 0x1000 = 0 := by
  by_contra hmis
  -- of the segments that do not start on a page, the last one stays as it was loaded
  obtain ⟨i, -, -, ⟨hi, hmis⟩, hlast⟩ := exists_last
    (P := fun i => file.IsLoad i ∧ (file.phdrAt i).vaddr.toNat % 0x1000 ≠ 0) hi.1 ⟨hi, hmis⟩
  have hsize : 0x1000 ≤ (file.phdrAt i).filesz.toNat :=
    (page_of_loads hacc hw hall hi).resolve_right fun h => hmis h.1
  have hmark : ehdrSize ≤ (file.phdrAt i).offset.toNat + 0xfff := le_add_left (by decide)
  obtain ⟨file', bytes, hacc', hw', hsame, hholds, hzero, hother⟩ := exists_marked hacc hw hmark
    (show (file.phdrAt i).offset.toNat + 0xfff + (file.phdrAt i).vaddr.toNat % 0x1000 ≠ _ by omega)
  rw [← hsame.phdrAt i hi.1] at hmis hsize hzero hother
  refine not_loadsSegments_of_shifts hacc' hw' hholds (hsame.isLoad_iff.mpr hi) hsize hmis ?_ hzero
    hother (hall file' hacc' hsame hw')
  intro j hij hj
  rw [hsame.isLoad_iff] at hj
  rw [hsame.phdrAt j hj.1]
  refine ⟨?_, (page_of_loads hacc hw hall hj).symm.imp_left And.right⟩
  by_contra hne
  exact hlast j hj.1 hij ⟨hj, hne⟩

end Marked

/-- **Segments are loaded if and only if they are loadable**: every file with these program
headers is loaded, where no large page is in its place, if each PT_LOAD segment starts on a page
and is empty or has at least a page; and one is not, if there is another segment among them. -/
theorem segments_loaded_iff {file : ElfFile} (hacc : file.Accepted) (hw : file.WellPlaced) :
    (∀ file', file'.Accepted → file.SameSegments file' → file'.WellPlaced →
      file'.LoadsSegments) ↔ ∀ i, file.IsLoad i → (file.phdrAt i).Loadable := by
  constructor
  · intro hall i hi
    refine ⟨aligned_of_loads hacc hw hall hi, ?_⟩
    exact (page_of_loads hacc hw hall hi).symm.imp_left And.right
  · intro hload file' hacc' hsame hw'
    refine loadsSegments_of_loadable hacc' hw' fun j hj => ?_
    rw [hsame.isLoad_iff] at hj
    rw [hsame.phdrAt j hj.1]
    exact hload j hj

theorem segments_loaded_page :
    ∃ file : ElfFile, file.Accepted ∧ file.WellPlaced ∧ file.IsLoad 0 ∧
      (file.phdrAt 0).filesz = 0x1000 ∧ file.LoadsSegments := by
  obtain ⟨file, hacc, hw, -, hnum, hphdr⟩ :=
    exists_oneSegment (show 0x400000 < 2 ^ 64 by decide) (show 0x1000 < 2 ^ 31 by decide)
  have hloadable : ∀ i, file.IsLoad i → (file.phdrAt i).Loadable := by
    intro i hi
    rw [Nat.lt_one_iff.mp (hi.1.trans_eq hnum), hphdr]
    exact ⟨rfl, .inr le_rfl⟩
  refine ⟨file, hacc, hw, ⟨hnum ▸ Nat.one_pos, by rw [hphdr]⟩, by rw [hphdr]; rfl, ?_⟩
  exact (segments_loaded_iff hacc hw).mpr hloadable file hacc ⟨rfl, fun _ _ => rfl, rfl⟩ hw

/-- A segment of 16 bytes: the loader divides by zero. -/
theorem segments_divide :
    ∃ file : ElfFile, file.Accepted ∧ file.WellPlaced ∧ file.IsLoad 0 ∧
      (file.phdrAt 0).filesz = 0x10 ∧
      (∀ (σ : Type) (src : FrameSource σ) (s : LoadState σ), file.Clear s.map →
        src.Supplies (file.bssFrames + file.segmentFrames file.phNum) s.pmm →
        elf64FileLoad src file s = .error .divide) ∧
      ¬ file.LoadsSegments := by
  obtain ⟨file, hacc, hw, hbss, hnum, hphdr⟩ :=
    exists_oneSegment (show 0x400000 < 2 ^ 64 by decide) (show 0x10 < 2 ^ 31 by decide)
  have hload : file.IsLoad 0 := ⟨hnum ▸ Nat.one_pos, by rw [hphdr]⟩
  have hsize : (file.phdrAt 0).filesz.toNat < 0x1000 := by
    rw [hphdr]
    decide
  have hpages : ¬ ((file.phdrAt 0).vaddr.toNat % 0x1000 = 0 ∧
      (file.phdrAt 0).filesz.toNat = 0) := by
    rw [hphdr]
    decide
  refine ⟨file, hacc, hw, hload, by rw [hphdr]; rfl, fun σ src s hclear hsup => ?_, ?_⟩
  · obtain ⟨s₁, h₁, hsup, hclear₁⟩ := loadSection_returns hclear hsup
    rw [hnum, ElfFile.segmentFrames, ElfFile.segmentFrames, Nat.zero_add] at hsup
    rw [elf64FileLoad, h₁, Exec.ok_bind, hnum]
    exact loadSegment_divides (r := 0) hload.2 hsize hpages (hclear₁.segment hload.1) hsup
  · exact not_loadsSegments_of_divides hacc hw hbss hload hsize hpages

end Rock
