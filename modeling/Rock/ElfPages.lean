/-
Rock/ElfPages.lean

Which pages `elf64_file_load` maps (kernel/core/elf.c).

A segment occupies the pages that its bytes are on, after they were moved by the load offset.
The loader counts pages for it from the misalignment and the size: the quotient is right, and
then one page is added if the misaligned segment needs one more than its size alone, which the
quotient has counted already.  So a segment that crosses one more page boundary gets a page too
many, which is mapped over whatever is there, and a load offset inside a page moves the segment
and not the count.

Main result: each segment is mapped on its own pages and no others, if and only if each has the
pages of its size alone and its copies stay in their frames (`segments_mapped_iff`).
-/
import Rock.ElfRounds

namespace Rock

variable {σ : Type}

/-! ### What is to be shown -/

/-- The segment has been mapped on the pages it occupies and no others, to frames that were not
in use, writable and executable as its flags say. -/
structure SegmentMapped (src : FrameSource σ) (file : ElfFile) (ph : Phdr) (s s' : LoadState σ) :
    Prop where
  mapped : ∀ v, file.Occupies ph (pageOf v) → ∃ f flags, s'.map v = some ⟨f, flags, .small⟩ ∧
    IsFrame .small f ∧ ¬ src.Live s.pmm f ∧ src.Live s'.pmm f ∧
    (has flags flagRW ↔ ph.flags &&& 2 ≠ 0) ∧ (¬ has flags flagNX ↔ ph.flags &&& 4 ≠ 0)
  others : ∀ v, ¬ file.Occupies ph (pageOf v) → s'.map v = s.map v

/-- The pages that the PT_LOAD segments among the first `n` program headers occupy. -/
def ElfFile.occupied (file : ElfFile) (n : ℕ) : Set ℕ :=
  {p | ∃ i < n, file.IsLoad i ∧ file.Occupies (file.phdrAt i) p}

/-- **Each segment is mapped on its own pages and no others**: the file is loaded, each PT_LOAD
segment is mapped in its turn and no page of it is replaced later, and behind `.bss` a frame is
taken for each page. -/
def ElfFile.MapsSegments (file : ElfFile) (src : FrameSource σ) (s : LoadState σ) : Prop :=
  ∃ s₀ s', elf64LoadSection src file bssName s = .ok s₀ ∧ elf64FileLoad src file s = .ok s' ∧
    (∀ i, file.IsLoad i → ∃ s₁ s₂, loadSegments src file s₀ i = .ok s₁ ∧
      loadSegment src file s₁ (file.phdrAt i) = .ok s₂ ∧
      SegmentMapped src file (file.phdrAt i) s₁ s₂ ∧
      ∀ v, file.Occupies (file.phdrAt i) (pageOf v) → s'.map v = s₂.map v) ∧
    src.After (file.occupied file.phNum).ncard s₀.pmm s'.pmm

/-- The segments occupy different pages. -/
def ElfFile.Apart (file : ElfFile) : Prop :=
  ∀ i j, file.IsLoad i → file.IsLoad j → i ≠ j →
    ∀ p, file.Occupies (file.phdrAt i) p → ¬ file.Occupies (file.phdrAt j) p

/-- The segment is empty and starts on a page; or it has a page at least, wherever it starts it
ends in as many pages as its size alone has, and the copies to them stay in their frames. -/
def ElfFile.OnOwnPages (file : ElfFile) (ph : Phdr) : Prop :=
  (ph.filesz.toNat = 0 ∧ ph.vaddr.toNat % 0x1000 = 0) ∨
  (0x1000 ≤ ph.filesz.toNat ∧
    file.loadOffset.toNat % 0x1000 + ph.vaddr.toNat % 0x1000 + ph.filesz.toNat
      ≤ (ph.filesz.toNat + 0xfff) / 0x1000 * 0x1000 ∧
    file.CopiesFit ph ((ph.filesz.toNat + 0xfff) / 0x1000))

/-! ### The pages of a segment -/

section Geometry

variable {file : ElfFile} {ph : Phdr} {p : ℕ}

/-- **On its own pages a segment fits**, and those are the pages that are counted. -/
theorem ElfFile.OnOwnPages.counts (h : file.OnOwnPages ph) :
    file.Fits ph ∧ ∀ p, file.Counts ph p ↔ file.Occupies ph p := by
  rcases h with ⟨hzero, hmis⟩ | ⟨hsize, hends, hfits⟩
  · have hpages : ph.pages = 0 := by
      rw [ph.pages_eq (by omega), hzero, hmis]
      rfl
    refine ⟨.inl hpages, fun p => ?_⟩
    rw [counts_iff, occupies_iff, hpages, hzero]
    simp only [Nat.not_lt_zero, false_and]
  · -- very many copies would not fit
    have hlt : ph.filesz.toNat < 2 ^ 32 := by
      by_contra hge
      exact not_copiesFit (Nat.not_lt.mp hge) (by omega) hfits
    have hpages : ph.pages = (ph.filesz.toNat + 0xfff) / 0x1000 := by
      rw [ph.pages_eq (by omega), if_neg (by omega)]
      omega
    refine ⟨.inr ⟨hsize, hpages ▸ hfits⟩, fun p => ?_⟩
    rw [counts_iff, occupies_iff, hpages]
    constructor
    · rintro ⟨j, hj, rfl⟩
      refine ⟨j * 0x1000 - (file.loadOffset.toNat % 0x1000 + ph.vaddr.toNat % 0x1000),
        by omega, ?_⟩
      congr 2
      omega
    · rintro ⟨k, hk, rfl⟩
      exact ⟨_, by omega, rfl⟩

/-- **A segment for which its own pages are counted** is on its own pages. -/
theorem onOwnPages_of_counts (hfits : file.Fits ph)
    (h : ∀ p, file.Counts ph p ↔ file.Occupies ph p) : file.OnOwnPages ph := by
  simp only [counts_iff, occupies_iff] at h
  have hmis := Nat.mod_lt ph.vaddr.toNat (show 0 < 0x1000 by decide)
  have hload := Nat.mod_lt file.loadOffset.toNat (show 0 < 0x1000 by decide)
  rcases hfits with hzero | ⟨hsize, hfits⟩
  · left
    have hempty : ph.filesz.toNat = 0 := by
      by_contra hne
      obtain ⟨j, hj, -⟩ := (h _).mpr ⟨0, Nat.pos_of_ne_zero hne, rfl⟩
      omega
    rw [ph.pages_eq (by omega)] at hzero
    omega
  · right
    have hle := hfits.le le_rfl
    -- the first byte behind the counted pages is not in the segment
    have hlt : ph.filesz.toNat < 2 ^ 33 := by
      by_contra hge
      obtain ⟨j, hj, heq⟩ := (h _).mpr ⟨ph.pages * 0x1000, by omega, rfl⟩
      omega
    have hpages := ph.pages_eq (by omega)
    -- the last byte is on a counted page, and bytes are on the first and on the last one
    obtain ⟨j, hj, hlast⟩ := (h _).mpr ⟨ph.filesz.toNat - 1, by omega, rfl⟩
    obtain ⟨k, hk, hfirst⟩ := (h _).mp ⟨0, by omega, rfl⟩
    obtain ⟨l, hl, hend⟩ := (h _).mp ⟨ph.pages - 1, by omega, rfl⟩
    have hown : ph.pages = (ph.filesz.toNat + 0xfff) / 0x1000 ∧
        file.loadOffset.toNat % 0x1000 + ph.vaddr.toNat % 0x1000 + ph.filesz.toNat
          ≤ (ph.filesz.toNat + 0xfff) / 0x1000 * 0x1000 := by
      split_ifs at hpages <;> omega
    exact ⟨hsize, hown.2, hown.1 ▸ hfits⟩

end Geometry

/-! ### The number of pages -/

section Number

variable {file : ElfFile} {ph : Phdr}

/-- The pages that are counted are different ones. -/
theorem ElfFile.Fits.ncard (h : file.Fits ph) :
    {p | file.Counts ph p}.Finite ∧ {p | file.Counts ph p}.ncard = ph.pages := by
  have hle := h.le
  have himage : {p | file.Counts ph p} = ((Finset.range ph.pages).image fun j =>
      ((file.virtualBase ph.vaddr).toNat / 0x1000 + j) % 2 ^ 36 : Finset ℕ) := by
    ext p
    simp only [Set.mem_ofPred_eq, counts_iff, Finset.coe_image, Finset.coe_range, Set.mem_image,
      Set.mem_Iio, eq_comm]
  rw [himage]
  refine ⟨Finset.finite_toSet _, ?_⟩
  rw [Set.ncard_coe_finset, Finset.card_image_of_injOn, Finset.card_range]
  intro i hi j hj heq
  rw [Finset.coe_range, Set.mem_Iio] at hi hj
  dsimp only at heq
  omega

/-- **The frames for segments on pages of their own** are as many as the pages. -/
theorem occupied_ncard (hapart : file.Apart)
    (hown : ∀ i, file.IsLoad i → file.OnOwnPages (file.phdrAt i)) {n : ℕ} (hn : n ≤ file.phNum) :
    (file.occupied n).Finite ∧ (file.occupied n).ncard = file.segmentFrames n := by
  induction n with
  | zero =>
      have hempty : file.occupied 0 = ∅ := by
        ext p
        simp [ElfFile.occupied]
      rw [hempty]
      exact ⟨Set.finite_empty, Set.ncard_empty ℕ⟩
  | succ n ih =>
      obtain ⟨hfinite, hcard⟩ := ih (Nat.le_of_succ_le hn)
      rw [ElfFile.segmentFrames]
      by_cases htype : (file.phdrAt n).type = elfPtLoad
      · have hload : file.IsLoad n := ⟨hn, htype⟩
        obtain ⟨hfits, hcounts⟩ := (hown n hload).counts
        have hunion : file.occupied (n + 1)
            = file.occupied n ∪ {p | file.Counts (file.phdrAt n) p} := by
          ext p
          simp only [ElfFile.occupied, Nat.lt_succ_iff_lt_or_eq, Set.mem_union, Set.mem_ofPred_eq,
            hcounts, or_and_right, exists_or, exists_eq_left, hload, true_and]
        have hdisjoint : Disjoint (file.occupied n) {p | file.Counts (file.phdrAt n) p} := by
          rw [Set.disjoint_left]
          rintro p ⟨i, hi, hiload, hp⟩ hp'
          exact hapart i n hiload hload hi.ne p hp ((hcounts p).mp hp')
        rw [hunion, Set.ncard_union_eq hdisjoint hfinite hfits.ncard.1, hcard, hfits.ncard.2,
          segmentPages_of_type htype]
        exact ⟨hfinite.union hfits.ncard.1, rfl⟩
      · have hsame : file.occupied (n + 1) = file.occupied n := by
          ext p
          constructor
          · rintro ⟨i, hi, hiload, hp⟩
            refine ⟨i, (Nat.lt_succ_iff.mp hi).lt_of_ne ?_, hiload, hp⟩
            rintro rfl
            exact htype hiload.2
          · rintro ⟨i, hi, hp⟩
            exact ⟨i, hi.trans n.lt_succ_self, hp⟩
        rw [hsame, segmentPages, if_neg htype]
        exact ⟨hfinite, hcard⟩

end Number

/-! ### All segments -/

/-- What the flags of a page allow. -/
theorem has_pageFlags (w x : Bool) :
    (has (pageFlags w x) flagRW ↔ w = true) ∧ (¬ has (pageFlags w x) flagNX ↔ x = true) := by
  revert w x
  decide

section Segments

variable {src : FrameSource σ} {file : ElfFile} {ph : Phdr} {image : Image} {s s' : LoadState σ}

/-- A round maps the segment if its own pages are counted. -/
theorem SegmentRound.mapped (h : SegmentRound src file ph image s s')
    (hcounts : ∀ p, file.Counts ph p ↔ file.Occupies ph p) : SegmentMapped src file ph s s' := by
  refine ⟨fun v hv => ?_, fun v hv => h.keeps.map v fun hc => hv ((hcounts _).mp hc)⟩
  obtain ⟨j, hj, heq⟩ := (hcounts _).mpr hv
  obtain ⟨f, hframe, hfresh, hlive, hmap, -⟩ := h.page j hj
  obtain ⟨hw, hx⟩ := has_pageFlags (ph.flags &&& 2 ≠ 0) (ph.flags &&& 4 ≠ 0)
  rw [decide_eq_true_iff] at hw hx
  exact ⟨f, ph.pageFlags, hmap v heq, hframe, hfresh, hlive, hw, hx⟩

/-- The pages of a segment that is mapped, where the page table has only frames in use, are
those that were counted. -/
theorem SegmentRound.counts_iff_occupies (h : SegmentRound src file ph image s s')
    (hmapped : SegmentMapped src file ph s s') (hlive : s.MapsLive src) (p : ℕ) :
    file.Counts ph p ↔ file.Occupies ph p := by
  constructor
  · rintro ⟨j, hj, rfl⟩
    by_contra hnot
    obtain ⟨f, -, hfresh, -, hmap, -⟩ := h.page j hj
    exact hfresh (hlive _ _ ((hmapped.others _ hnot).symm.trans (hmap _ rfl)))
  · rintro ⟨k, hk, rfl⟩
    by_contra hnot
    obtain ⟨f, flags, hmap, -, hfresh, -⟩ := hmapped.mapped _ ⟨k, hk, rfl⟩
    exact hfresh (hlive _ _ ((h.keeps.map _ hnot).symm.trans hmap))

variable (hb : file.buffer = some image) (hlen : file.length.toNat < 2 ^ 31)
include hb hlen

/-- From an empty page table, segments are mapped only if they are on their own pages. -/
theorem ElfFile.MapsSegments.onOwnPages (h : file.MapsSegments src s)
    (hempty : ∀ v, s.map v = none) {i : ℕ} (hi : file.IsLoad i) :
    file.OnOwnPages (file.phdrAt i) := by
  obtain ⟨s₀, s', h₀, -, hall, -⟩ := h
  obtain ⟨s₁, s₂, h₁, h₂, hmapped, -⟩ := hall i hi
  have hlive : s.MapsLive src := fun v tr hv => by cases (hempty v).symm.trans hv
  have hlive₀ := loadSection_mapsLive h₀ hlive
  have hlive₁ := (loadSegments_after hb hlen hi.1.le h₁).2 hlive₀
  obtain ⟨hfits, hround⟩ := loadSegment_round hb hlen hi.2 h₂
  exact onOwnPages_of_counts hfits (hround.counts_iff_occupies hmapped hlive₁)

/-- Segments on their own pages are mapped. -/
theorem mapsSegments_of_own (hapart : file.Apart)
    (hown : ∀ i, file.IsLoad i → file.OnOwnPages (file.phdrAt i)) (hclear : file.Clear s.map)
    (hsup : src.Supplies (file.bssFrames + file.segmentFrames file.phNum) s.pmm) :
    file.MapsSegments src s := by
  obtain ⟨s₀, h₀, hsup, hclear₀⟩ := loadSection_returns hclear hsup
  obtain ⟨s', h', -⟩ := loadSegments_of_fits (r := 0) hb hlen (fun i hi => (hown i hi).counts.1)
    hclear₀ le_rfl hsup
  refine ⟨s₀, s', h₀, Exec.bind_eq_ok.mpr ⟨s₀, h₀, h'⟩, fun i hi => ?_, ?_⟩
  · obtain ⟨s₁, s₂, h₁, h₂, -, hround, hkeeps⟩ := loadSegments_round hb hlen h' hi
    refine ⟨s₁, s₂, h₁, h₂, hround.mapped (hown i hi).counts.2, fun v hv => hkeeps.map v ?_⟩
    rintro ⟨j, hij, hj, hp⟩
    exact hapart i j hi hj (by omega) _ hv (((hown j hj).counts.2 _).mp hp)
  · rw [(occupied_ncard hapart hown le_rfl).2]
    exact (loadSegments_after hb hlen le_rfl h').1

end Segments

/-- **Segments are mapped on their own pages and no others**, whatever the memory and the page
table were with no large page in their place, if and only if each is on its own pages. -/
theorem segments_mapped_iff {file : ElfFile} (hacc : file.Accepted) (hapart : file.Apart)
    (src : FrameSource σ) (pmm : σ)
    (hsup : src.Supplies (file.bssFrames + file.segmentFrames file.phNum) pmm) :
    (∀ ram map, file.Clear map → file.MapsSegments src ⟨pmm, ram, map⟩) ↔
      ∀ i, file.IsLoad i → file.OnOwnPages (file.phdrAt i) := by
  obtain ⟨⟨image, hb⟩, hlen⟩ := hacc.buffer
  constructor
  · intro h i hi
    exact (h (fun _ => 0) _ file.clear_none).onOwnPages hb hlen (fun _ => rfl) hi
  · intro hown ram map hclear
    exact mapsSegments_of_own hb hlen hapart hown hclear hsup

/-! ### A file with one segment -/

theorem ElfFile.WellPlaced.toApart {file : ElfFile} (h : file.WellPlaced) : file.Apart := by
  rintro i j hi hj hij p ⟨k, hk, rfl⟩ ⟨l, hl, heq⟩
  exact h.apart i j hi hj hij k hk l hl heq

/-- A segment of a page that starts on a page. -/
theorem segments_mapped_page :
    ∃ file : ElfFile, file.Accepted ∧ file.Apart ∧ file.IsLoad 0 ∧
      FrameSource.counting.Supplies (file.bssFrames + file.segmentFrames file.phNum) 0 ∧
      ∀ ram map, file.Clear map → file.MapsSegments .counting ⟨0, ram, map⟩ := by
  obtain ⟨file, hacc, hw, hbss, hnum, hphdr⟩ :=
    exists_oneSegment (show 0x400000 < 2 ^ 64 by decide) (show 0x1000 < 2 ^ 31 by decide)
  have hload : file.IsLoad 0 := ⟨hnum ▸ Nat.one_pos, by rw [hphdr]⟩
  have hframes : file.bssFrames + file.segmentFrames file.phNum = 1 := by
    rw [hbss, hnum, ElfFile.segmentFrames, ElfFile.segmentFrames, hphdr]
    decide
  have hsup : FrameSource.counting.Supplies (file.bssFrames + file.segmentFrames file.phNum) 0 := by
    rw [hframes]
    exact FrameSource.counting_supplies (by decide)
  refine ⟨file, hacc, hw.toApart, hload, hsup,
    (segments_mapped_iff hacc hw.toApart .counting 0 hsup).mpr fun i hi => .inr ?_⟩
  have hsize : 0x1000 ≤ (file.phdrAt i).filesz.toNat := by
    rw [Nat.lt_one_iff.mp (hi.1.trans_eq hnum), hphdr]
    decide
  refine ⟨hsize, ?_, copiesFit_of_inside hacc.buffer.2 (hw.inside i hi)⟩
  rw [hw.aligned, Nat.lt_one_iff.mp (hi.1.trans_eq hnum), hphdr]
  decide

/-- **A page too many**: a segment of `0x1000` bytes from `0x400800` on is on two pages, and the
loader maps three. -/
theorem segments_map_more :
    ∃ file : ElfFile, file.Accepted ∧ file.Apart ∧ file.IsLoad 0 ∧
      (file.phdrAt 0).vaddr = 0x400800 ∧ (file.phdrAt 0).filesz = 0x1000 ∧
      (file.phdrAt 0).pages = 3 ∧
      FrameSource.counting.Supplies (file.bssFrames + file.segmentFrames file.phNum) 0 ∧
      ¬ file.MapsSegments .counting ⟨0, fun _ => 0, fun _ => none⟩ := by
  obtain ⟨file, hacc, hw, hbss, hnum, hphdr⟩ :=
    exists_oneSegment (show 0x400800 < 2 ^ 64 by decide) (show 0x1000 < 2 ^ 31 by decide)
  have hload : file.IsLoad 0 := ⟨hnum ▸ Nat.one_pos, by rw [hphdr]⟩
  have hframes : file.bssFrames + file.segmentFrames file.phNum = 3 := by
    rw [hbss, hnum, ElfFile.segmentFrames, ElfFile.segmentFrames, hphdr]
    decide
  have hsup : FrameSource.counting.Supplies (file.bssFrames + file.segmentFrames file.phNum) 0 := by
    rw [hframes]
    exact FrameSource.counting_supplies (by decide)
  refine ⟨file, hacc, hw.toApart, hload, by rw [hphdr]; rfl, by rw [hphdr]; rfl,
    by rw [hphdr]; decide, hsup, fun h => ?_⟩
  obtain ⟨⟨image, hb⟩, hlen⟩ := hacc.buffer
  rcases h.onOwnPages hb hlen (fun _ => rfl) hload with ⟨hzero, -⟩ | ⟨-, hends, -⟩
  · rw [hphdr] at hzero
    exact absurd hzero (by decide)
  · rw [hw.aligned, hphdr] at hends
    exact absurd hends (by decide)

end Rock
