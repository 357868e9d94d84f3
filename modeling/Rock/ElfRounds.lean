/-
Rock/ElfRounds.lean

One round of the loader, for any program header (`elf64_file_load` of kernel/core/elf.c).

A program header is arbitrary here, and may say anything of the file: `pages` is the number of
pages that are counted for it, and page `j` gets `copyLen` bytes of the file from `copyOffset`
on, which is the `int` that `elf64_read` makes of the offset.  A round comes back exactly if there
are no pages, or the segment has at least a page and no copy leaves its frame (`Fits`).  It has
then mapped the counted pages to frames of their own, with the bytes that were copied to them,
and nothing else is changed (`SegmentRound`).

So of several segments that count a page the last one decides what is there
(`loadSegments_last`), and if there is none, it is what was there before
(`loadSegments_keeps`).
-/
import Rock.ElfLoad
import Rock.ElfAccept
import Rock.MapOwned

namespace Rock

variable {σ : Type}

/-! ### What is copied -/

/-- The pages that are counted for the segment. -/
def Phdr.pages (ph : Phdr) : ℕ := (elfPageCnt ph.vaddr ph.filesz).toNat

/-- Where page `j` is read from, as an `int`. -/
def Phdr.copyOffset (ph : Phdr) (j : ℕ) : ℤ :=
  intOffset (ph.offset + BitVec.ofNat 64 (j * 0x1000))

/-- The bytes that are asked for page `j`: what is left of the segment, at most a page.  For a
page behind the segment it is all of it. -/
def Phdr.copySize (ph : Phdr) (j : ℕ) : ℕ :=
  (if j * 0x1000 ≤ ph.filesz.toNat then min 0x1000 (ph.filesz.toNat - j * 0x1000)
    else ph.filesz.toNat) - (ph.skip j).toNat

namespace ElfFile

/-- The bytes that page `j` gets. -/
def copyLen (file : ElfFile) (ph : Phdr) (j : ℕ) : ℕ :=
  readLen file.length.toNat (ph.copyOffset j) (ph.copySize j)

/-- The copies to the first `n` pages stay in their frames. -/
def CopiesFit (file : ElfFile) (ph : Phdr) (n : ℕ) : Prop :=
  ∀ j < n, (ph.skip j).toNat + file.copyLen ph j ≤ 0x1000

/-- The segment can be copied. -/
def Fits (file : ElfFile) (ph : Phdr) : Prop :=
  ph.pages = 0 ∨ (0x1000 ≤ ph.filesz.toNat ∧ file.CopiesFit ph ph.pages)

/-- Byte `d` of the frame of page `j`, which was cleared before the copy. -/
def pageByte (file : ElfFile) (ph : Phdr) (image : Image) (j d : ℕ) : BitVec 8 :=
  if (ph.skip j).toNat ≤ d ∧ d < (ph.skip j).toNat + file.copyLen ph j then
    image (ph.copyOffset j + (d - (ph.skip j).toNat : ℕ))
  else 0

/-- The address of page `j` of the segment. -/
def pageAddr (file : ElfFile) (ph : Phdr) (j : ℕ) : Word :=
  file.virtualBase ph.vaddr + BitVec.ofNat 64 (j * 0x1000)

/-- The page `p` is one of those that are counted. -/
def Counts (file : ElfFile) (ph : Phdr) (p : ℕ) : Prop :=
  ∃ j < ph.pages, p = pageOf (file.pageAddr ph j)

end ElfFile

section Copy

variable {file : ElfFile} {ph : Phdr} {image : Image} {physical : ℕ → Word} {s s' : LoadState σ}
  {j n : ℕ}

/-- There are not many more pages than the segment has. -/
theorem Phdr.pages_le (ph : Phdr) : ph.pages * 0x1000 ≤ ph.filesz.toNat + 0x3000 := by
  have hmis : (misalignment ph.vaddr).toNat = ph.vaddr.toNat % 0x1000 := toNat_and_low _
  have hquot : ((misalignment ph.vaddr + ph.filesz + 0xfff) / 0x1000).toNat
      ≤ (ph.vaddr.toNat % 0x1000 + ph.filesz.toNat + 0xfff) / 0x1000 := by
    rw [BitVec.toNat_udiv, BitVec.toNat_add, BitVec.toNat_add, hmis, toNat_page, toNat_low]
    exact Nat.div_le_div_right ((Nat.mod_le _ _).trans
      (Nat.add_le_add_right (Nat.mod_le _ _) _))
  have hlt := Nat.mod_lt ph.vaddr.toNat (show 0 < 0x1000 by decide)
  rw [Phdr.pages, elfPageCnt]
  split_ifs
  · have hsucc : ((misalignment ph.vaddr + ph.filesz + 0xfff) / 0x1000 + 1).toNat
        ≤ ((misalignment ph.vaddr + ph.filesz + 0xfff) / 0x1000).toNat + 1 := by
      rw [BitVec.toNat_add]
      exact Nat.mod_le _ _
    omega
  · omega

/-- **What a copy does**: it leaves its frame, or fills so many bytes of it. -/
theorem copyPage_eq (hb : file.buffer = some image) (hlen : file.length.toNat < 2 ^ 31)
    (hj : 0 < j ∨ 0x1000 ≤ ph.filesz.toNat) (hbound : j < 2 ^ 36) :
    copyPage file ph physical s j =
      if (ph.skip j).toNat + file.copyLen ph j ≤ 0x1000 then
        .ok { s with
          ram := copyIn s.ram ((physical j).toNat + (ph.skip j).toNat) image (ph.copyOffset j)
            (file.copyLen ph j) }
      else .error .wild := by
  have hskip := toNat_skip ph j
  have hmis := Nat.mod_lt ph.vaddr.toNat (show 0 < 0x1000 by decide)
  -- `c` is the size of the piece; what is skipped of the first page is never more than that
  obtain ⟨c, hc⟩ : ∃ c, c = if j * 0x1000 ≤ ph.filesz.toNat then
      min 0x1000 (ph.filesz.toNat - j * 0x1000) else ph.filesz.toNat := ⟨_, rfl⟩
  have hle : (ph.skip j).toNat ≤ c ∧ c < 2 ^ 50 := by
    rw [hskip, hc]
    split_ifs <;> omega
  have hcnt : (BitVec.ofNat 64 c - ph.skip j).toNat = ph.copySize j := by
    rw [BitVec.toNat_sub, BitVec.toNat_ofNat, Phdr.copySize, ← hc]
    omega
  have hsum : ph.copyOffset j + (BitVec.ofNat 64 c - ph.skip j).toNat < 2 ^ 64 := by
    have hoff : ph.copyOffset j < 2 ^ 31 := BitVec.toInt_lt
    rw [hcnt, Phdr.copySize, ← hc]
    omega
  rw [copyPage, copyCnt_eq hj (by omega), ← hc, Exec.ok_bind,
    elf64Read_eq hb hlen fun _ => hsum, hcnt]
  show (if file.copyLen ph j < 2 ^ 31 then _ else _ : Exec _) >>= _ = _
  by_cases hn : file.copyLen ph j < 2 ^ 31
  · have hret : (BitVec.ofNat 32 (file.copyLen ph j)).toNat = file.copyLen ph j := by
      rw [BitVec.toNat_ofNat]
      omega
    rw [if_pos hn, Exec.ok_bind]
    show (if (ph.skip j).toNat + (BitVec.ofNat 32 (file.copyLen ph j)).toNat ≤ 0x1000 then _
      else _) = _
    rw [hret]
    rfl
  · rw [if_neg hn, if_neg (by omega)]
    rfl

/-- Of so many pages there is one that is read from far before the file. -/
theorem exists_far (off : Word) :
    ∃ j ≤ 2 ^ 19 + 1, intOffset (off + BitVec.ofNat 64 (j * 0x1000)) < -0x1000 := by
  -- the offsets of the pages go through the negative half of the `int`s in steps of a page, and
  -- only the last page of that half is not far enough
  obtain ⟨j, hj, hlow, hhigh⟩ : ∃ j ≤ 2 ^ 19 + 1, 2 ^ 31 ≤ (off.toNat + j * 0x1000) % 2 ^ 32 ∧
      (off.toNat + j * 0x1000) % 2 ^ 32 < 2 ^ 32 - 0x1000 := by
    rcases Nat.lt_or_ge (off.toNat % 2 ^ 32) (2 ^ 31) with hlt | hge
    · exact ⟨(2 ^ 31 - off.toNat % 2 ^ 32 + 0xfff) / 0x1000, by omega, by omega, by omega⟩
    · rcases Nat.lt_or_ge (off.toNat % 2 ^ 32) (2 ^ 32 - 0x1000) with hlt | hge
      · exact ⟨0, by omega, by omega, by omega⟩
      · exact ⟨2 ^ 19 + 1, le_rfl, by omega, by omega⟩
  refine ⟨j, hj, ?_⟩
  rw [intOffset, toInt_setWidth, toNat_add_ofNat]
  split_ifs <;> omega

/-- The copies of very many pages do not fit. -/
theorem not_copiesFit (hsize : 2 ^ 32 ≤ ph.filesz.toNat) (hn : 2 ^ 19 + 1 < n) :
    ¬ file.CopiesFit ph n := by
  intro h
  obtain ⟨j, hj, hfar⟩ := exists_far ph.offset
  have hcopy := h j (by omega)
  have hsize' : ph.copySize j ≤ 0x1000 := by
    rw [Phdr.copySize, if_pos (by omega)]
    omega
  have hfar : ph.copyOffset j < -0x1000 := hfar
  rw [ElfFile.copyLen, readLen] at hcopy
  split_ifs at hcopy <;> omega

/-- There are not too many pages for a page table. -/
theorem ElfFile.CopiesFit.le (h : file.CopiesFit ph n) (hn : n ≤ ph.pages) : n ≤ 2 ^ 20 + 2 := by
  have hle := ph.pages_le
  by_contra hlt
  exact not_copiesFit (by omega) (by omega) h

/-- A segment of less than a page divides by zero. -/
theorem copyPages_divide (hsize : ph.filesz.toNat < 0x1000) (hn : n ≠ 0) :
    copyPages file ph physical s n = .error .divide := by
  induction n with
  | zero => exact absurd rfl hn
  | succ n ih =>
      rcases eq_or_ne n 0 with rfl | hn
      · show copyPage file ph physical s 0 = _
        rw [copyPage, copyCnt_divide hsize]
        rfl
      · rw [copyPages, ih hn]
        rfl

/-- The first pages are copied first. -/
theorem copyPages_map (h : copyPages file ph physical s n = .ok s') : s'.map = s.map := by
  induction n generalizing s' with
  | zero =>
      obtain rfl := Except.ok.inj h
      rfl
  | succ n ih =>
      obtain ⟨s₁, h₁, h⟩ := Exec.bind_eq_ok.mp h
      obtain ⟨cnt, -, h⟩ := Exec.bind_eq_ok.mp h
      obtain ⟨⟨ret, ram⟩, -, h⟩ := Exec.bind_eq_ok.mp h
      dsimp only at h
      split_ifs at h
      obtain rfl := Except.ok.inj h
      exact (ih h₁ :)

theorem copyPages_first (h : copyPages file ph physical s n = .ok s') {m : ℕ} (hm : m ≤ n) :
    ∃ s₁, copyPages file ph physical s m = .ok s₁ := by
  induction n generalizing s' with
  | zero =>
      obtain rfl := Nat.le_zero.mp hm
      exact ⟨s', h⟩
  | succ n ih =>
      rcases hm.lt_or_eq with hlt | rfl
      · obtain ⟨s₁, h₁, -⟩ := Exec.bind_eq_ok.mp h
        exact ih h₁ (Nat.lt_succ_iff.mp hlt)
      · exact ⟨s', h⟩

/-- **Only copies that fit come back.** -/
theorem copyPages_fit (hb : file.buffer = some image) (hlen : file.length.toNat < 2 ^ 31)
    (hn : n ≤ 2 ^ 36) (h : copyPages file ph physical s n = .ok s') : file.CopiesFit ph n := by
  induction n generalizing s' with
  | zero => exact fun j hj => absurd hj j.not_lt_zero
  | succ n ih =>
      have hsize : 0x1000 ≤ ph.filesz.toNat := by
        by_contra hlt
        cases h.symm.trans (copyPages_divide (by omega) n.succ_ne_zero)
      obtain ⟨s₁, h₁, hpage⟩ := Exec.bind_eq_ok.mp h
      rw [copyPage_eq hb hlen (.inr hsize) (by omega)] at hpage
      split_ifs at hpage with hfits
      exact Nat.forall_lt_succ_right.mpr ⟨ih (by omega) h₁, hfits⟩

/-- So the copies of very many pages do not come back. -/
theorem copyPages_le (hb : file.buffer = some image) (hlen : file.length.toNat < 2 ^ 31)
    (hn : n ≤ ph.pages) (h : copyPages file ph physical s n = .ok s') : n ≤ 2 ^ 20 + 2 := by
  by_contra hlt
  obtain ⟨s₁, h₁⟩ := copyPages_first h (Nat.not_le.mp hlt)
  have hle := (copyPages_fit hb hlen (by omega) h₁).le (by omega)
  omega

/-- The frames of the first `n` pages are copied to, and nothing else is changed. -/
structure FramesCopied (file : ElfFile) (ph : Phdr) (image : Image) (physical : ℕ → Word)
    (s s' : LoadState σ) (n : ℕ) : Prop where
  pmm : s'.pmm = s.pmm
  map : s'.map = s.map
  bytes : ∀ j < n, ∀ d < 0x1000, s.ram ((physical j).toNat + d) = 0 →
    s'.ram ((physical j).toNat + d) = file.pageByte ph image j d
  others : ∀ f, IsFrame .small f → (∀ j < n, f ≠ physical j) → ∀ d < 0x1000,
    s'.ram (f.toNat + d) = s.ram (f.toNat + d)

/-- One more frame is copied to. -/
theorem FramesCopied.succ (h : FramesCopied file ph image physical s s' n)
    (hframe : ∀ j ≤ n, IsFrame .small (physical j))
    (hdistinct : ∀ j < n, physical j ≠ physical n)
    (hfits : (ph.skip n).toNat + file.copyLen ph n ≤ 0x1000) :
    FramesCopied file ph image physical s { s' with
      ram := copyIn s'.ram ((physical n).toNat + (ph.skip n).toNat) image (ph.copyOffset n)
        (file.copyLen ph n) } (n + 1) := by
  have hother : ∀ f, IsFrame .small f → f ≠ physical n → ∀ d < 0x1000,
      copyIn s'.ram ((physical n).toNat + (ph.skip n).toNat) image (ph.copyOffset n)
        (file.copyLen ph n) (f.toNat + d) = s'.ram (f.toNat + d) := by
    intro f hf hne d hd
    apply copyIn_of_outside
    have hapart := frame_apart hf (hframe n le_rfl) hne hd
    omega
  refine ⟨h.pmm, h.map, fun j hj d hd hzero => ?_, fun f hf hne d hd => ?_⟩
  · rcases (Nat.lt_succ_iff.mp hj).lt_or_eq with hlt | rfl
    · rw [← h.bytes j hlt d hd hzero]
      exact hother _ (hframe j hlt.le) (hdistinct j hlt) d hd
    · have hold : s'.ram ((physical j).toNat + d) = 0 := by
        rw [← hzero]
        exact h.others _ (hframe j le_rfl) (fun i hi => (hdistinct i hi).symm) d hd
      unfold ElfFile.pageByte
      split_ifs with hin
      · obtain ⟨e, rfl⟩ := Nat.exists_eq_add_of_le hin.1
        dsimp only
        rw [← Nat.add_assoc, copyIn_inside (by omega), Nat.add_sub_cancel_left]
      · refine (copyIn_of_outside ?_).trans hold
        omega
  · rw [← h.others f hf (fun j hj => hne j (hj.trans n.lt_succ_self)) d hd]
    exact hother f hf (hne n n.lt_succ_self) d hd

/-- **Copies that fit** are made. -/
theorem copyPages_copied (hb : file.buffer = some image) (hlen : file.length.toNat < 2 ^ 31)
    (hn : n ≤ 2 ^ 36) (hsize : 0x1000 ≤ ph.filesz.toNat) (hfits : file.CopiesFit ph n)
    (hframe : ∀ j < n, IsFrame .small (physical j))
    (hdistinct : ∀ i < n, ∀ j < n, physical i = physical j → i = j) :
    ∃ s', copyPages file ph physical s n = .ok s' ∧
      FramesCopied file ph image physical s s' n := by
  induction n with
  | zero =>
      exact ⟨s, rfl, rfl, rfl, fun j hj => absurd hj j.not_lt_zero, fun _ _ _ _ _ => rfl⟩
  | succ n ih =>
      obtain ⟨s₁, h₁, hcopied⟩ := ih (by omega) (fun j hj => hfits j (hj.trans n.lt_succ_self))
        (fun j hj => hframe j (hj.trans n.lt_succ_self))
        (fun i hi j hj => hdistinct i (hi.trans n.lt_succ_self) j (hj.trans n.lt_succ_self))
      have hpage := hfits n n.lt_succ_self
      refine ⟨_, Exec.bind_eq_ok.mpr ⟨s₁, h₁, ?_⟩, hcopied.succ ?_ ?_ hpage⟩
      · rw [copyPage_eq hb hlen (.inr hsize) (by omega), if_pos hpage]
      · exact fun j hj => hframe j (Nat.lt_succ_of_le hj)
      · intro j hj heq
        exact hj.ne (hdistinct j (hj.trans n.lt_succ_self) n n.lt_succ_self heq)

end Copy

/-! ### The pages of a segment -/

section Geometry

variable {file : ElfFile} {ph : Phdr} {p j : ℕ}

/-- The page of byte `k` of the segment. -/
theorem pageOf_segmentAddr (file : ElfFile) (ph : Phdr) (k : ℕ) :
    pageOf (file.segmentAddr ph k) = ((file.virtualBase ph.vaddr).toNat / 0x1000 +
      (file.loadOffset.toNat % 0x1000 + ph.vaddr.toNat % 0x1000 + k) / 0x1000) % 2 ^ 36 := by
  rw [segmentAddr_eq, pageOf, toNat_add_ofNat, ← virtualBase_mod file ph.vaddr]
  omega

theorem counts_iff : file.Counts ph p ↔
    ∃ j < ph.pages, p = ((file.virtualBase ph.vaddr).toNat / 0x1000 + j) % 2 ^ 36 := by
  unfold ElfFile.Counts ElfFile.pageAddr
  simp only [pageOf_page]

theorem occupies_iff : file.Occupies ph p ↔
    ∃ k < ph.filesz.toNat, p = ((file.virtualBase ph.vaddr).toNat / 0x1000 +
      (file.loadOffset.toNat % 0x1000 + ph.vaddr.toNat % 0x1000 + k) / 0x1000) % 2 ^ 36 := by
  unfold ElfFile.Occupies
  simp only [pageOf_segmentAddr]

/-- The pages that are counted, if the sums do not wrap. -/
theorem Phdr.pages_eq (ph : Phdr) (hsize : ph.filesz.toNat < 2 ^ 63) :
    ph.pages = (ph.vaddr.toNat % 0x1000 + ph.filesz.toNat + 0xfff) / 0x1000 +
      if (ph.filesz.toNat + 0xfff) / 0x1000 * 0x1000
        < ph.vaddr.toNat % 0x1000 + ph.filesz.toNat then 1 else 0 :=
  toNat_elfPageCnt hsize

theorem ElfFile.Fits.le (h : file.Fits ph) : ph.pages ≤ 2 ^ 20 + 2 := by
  rcases h with hzero | ⟨-, hfits⟩
  · omega
  · exact hfits.le le_rfl

end Geometry

/-! ### Segments that are in the file -/

section Inside

variable {file : ElfFile} {ph : Phdr} {j : ℕ} (hlen : file.length.toNat < 2 ^ 31)
  (hin : ph.offset.toNat + ph.filesz.toNat ≤ file.length.toNat)
include hlen hin

theorem copyOffset_of_inside (hj : j * 0x1000 ≤ ph.filesz.toNat) :
    ph.copyOffset j = (ph.offset.toNat + j * 0x1000 : ℕ) := by
  have hnat : (ph.offset + BitVec.ofNat 64 (j * 0x1000)).toNat
      = ph.offset.toNat + j * 0x1000 := by
    rw [toNat_add_ofNat]
    omega
  rw [Phdr.copyOffset, intOffset_of_lt (by omega), hnat]

/-- A page in the segment gets what is left of it, at most a page. -/
theorem copyLen_of_inside (hj : j * 0x1000 ≤ ph.filesz.toNat) :
    file.copyLen ph j = min 0x1000 (ph.filesz.toNat - j * 0x1000) - (ph.skip j).toNat := by
  rw [ElfFile.copyLen, copyOffset_of_inside hlen hin hj, Phdr.copySize, if_pos hj, readLen,
    if_neg (by omega), if_pos (by omega)]

/-- The copies to the pages of its size stay in their frames. -/
theorem copiesFit_of_inside :
    file.CopiesFit ph ((ph.filesz.toNat + 0xfff) / 0x1000) := by
  intro j hj
  have hmis := Nat.mod_lt ph.vaddr.toNat (show 0 < 0x1000 by decide)
  rw [copyLen_of_inside hlen hin (by omega), toNat_skip]
  split_ifs <;> omega

/-- A byte of a page in the segment that is behind the part before the segment. -/
theorem pageByte_of_inside (image : Image) (hj : j * 0x1000 ≤ ph.filesz.toNat) {d : ℕ}
    (hd : (ph.skip j).toNat ≤ d) :
    file.pageByte ph image j d
      = if d < min 0x1000 (ph.filesz.toNat - j * 0x1000) then
          image (ph.offset.toNat + (j * 0x1000 + (d - (ph.skip j).toNat)) : ℕ)
        else 0 := by
  have hoff := copyOffset_of_inside hlen hin hj
  have hcopy := copyLen_of_inside hlen hin hj
  unfold ElfFile.pageByte
  rw [hoff, hcopy, ← Int.natCast_add, Nat.add_assoc]
  refine if_congr ?_ rfl rfl
  omega

end Inside

/-! ### What is kept -/

namespace LoadState.Keeps

variable {src : FrameSource σ} {pages pages' : ℕ → Prop} {s s' s'' : LoadState σ}

theorem refl (s : LoadState σ) : s.Keeps src pages s :=
  ⟨fun _ hf => hf, fun _ _ _ _ _ => rfl, fun _ _ => rfl⟩

theorem mono (h : s.Keeps src pages s') (hle : ∀ p, pages p → pages' p) :
    s.Keeps src pages' s' :=
  ⟨h.live, h.ram, fun v hv => h.map v fun hp => hv (hle _ hp)⟩

theorem trans (h : s.Keeps src pages s') (h' : s'.Keeps src pages s'') :
    s.Keeps src pages s'' where
  live f hf := h'.live f (h.live f hf)
  ram f hf hlive d hd := (h'.ram f hf (h.live f hlive) d hd).trans (h.ram f hf hlive d hd)
  map v hv := (h'.map v hv).trans (h.map v hv)

end LoadState.Keeps

theorem FrameSource.After.trans {src : FrameSource σ} {m n : ℕ} {p p' p'' : σ}
    (h : src.After m p p') (h' : src.After n p' p'') : src.After (m + n) p p'' := by
  induction m generalizing p with
  | zero =>
      obtain rfl := h
      rwa [Nat.zero_add]
  | succ m ih =>
      obtain ⟨f, p₁, ha, h⟩ := h
      rw [Nat.succ_add]
      exact ⟨f, p₁, ha, ih h⟩

/-! ### Any number of pages

A section can have more pages than the table has room for; a page is then given a frame more
than once, and keeps the last one. -/

/-- The page `p` is one of the `n` from `v` on. -/
def PageFrom (v : Word) (n p : ℕ) : Prop :=
  ∃ j < n, p = pageOf (v + BitVec.ofNat 64 (j * 0x1000))

/-- The `n` pages from `v` on are mapped to cleared frames. -/
structure PagesGiven (src : FrameSource σ) (v flags : Word) (s s' : LoadState σ) (n : ℕ) :
    Prop where
  keeps : s.Keeps src (PageFrom v n) s'
  given : ∀ p, PageFrom v n p → ∃ f, IsFrame .small f ∧ src.Live s'.pmm f ∧
    (∀ v', pageOf v' = p → s'.map v' = some (decode .small (f ||| flags))) ∧
    ∀ d < 0x1000, s'.ram (f.toNat + d) = 0
  after : src.After n s.pmm s'.pmm

section Mapping

variable {src : FrameSource σ} {v flags f : Word} {s s' : LoadState σ} {physical : ℕ → Word}
  {n : ℕ} {pmm : σ}

/-- One more page is mapped. -/
theorem PagesGiven.succ (h : PagesGiven src v flags s s' n)
    (ha : src.alloc s'.pmm = some (f, pmm)) :
    PagesGiven src v flags s
      { pmm := pmm
        ram := clearPage s'.ram f
        map := s'.map.cover (v + BitVec.ofNat 64 (n * 0x1000)) (decode .small (f ||| flags)) }
      (n + 1) := by
  refine ⟨h.keeps.succ ha, ?_, h.after.trans ⟨f, pmm, ha, rfl⟩⟩
  rintro p ⟨j, hj, hp⟩
  by_cases hlast : pageOf (v + BitVec.ofNat 64 (n * 0x1000)) = p
  · refine ⟨f, src.alloc_frame ha, src.alloc_live ha, fun v' hv' => ?_,
      fun d hd => clearPage_self hd⟩
    exact cover_small.trans (if_pos (hlast.trans hv'.symm))
  · have hlt : j < n := (Nat.lt_succ_iff.mp hj).lt_of_ne fun hjn => hlast (by rw [hp, hjn])
    obtain ⟨g, hg, hlive, hmap, hzero⟩ := h.given p ⟨j, hlt, hp⟩
    refine ⟨g, hg, src.alloc_mono ha hlive, fun v' hv' => ?_, fun d hd => ?_⟩
    · exact cover_small.trans ((if_neg fun heq => hlast (heq.trans hv')).trans (hmap v' hv'))
    · exact (clearPage_of_live ha hg hlive hd).trans (hzero d hd)

theorem mapPages_given (h : mapPages src v flags s n = .ok (physical, s')) :
    PagesGiven src v flags s s' n := by
  induction n generalizing physical s' with
  | zero =>
      obtain ⟨rfl, rfl⟩ := Prod.mk.inj (Except.ok.inj h)
      exact ⟨.refl s, fun p ⟨j, hj, _⟩ => absurd hj j.not_lt_zero, rfl⟩
  | succ n ih =>
      obtain ⟨physical₁, s₁, f, pmm, h₁, ha, -, -, rfl⟩ := mapPages_succ h
      exact (ih h₁).succ ha

end Mapping

/-! ### The section -/

/-- The page table maps frames that are in use. -/
def LoadState.MapsLive (src : FrameSource σ) (s : LoadState σ) : Prop :=
  ∀ v tr, s.map v = some tr → src.Live s.pmm tr.frame

section Section

variable {src : FrameSource σ} {file : ElfFile} {name : List (BitVec 8)} {sh : Shdr}
  {s s' : LoadState σ} {v : Word} {n : ℕ} {w x : Bool}

/-- A page that is given reads as zero. -/
theorem PagesGiven.shows (h : PagesGiven src v (pageFlags w x) s s' n) {v' : Word}
    (hv : PageFrom v n (pageOf v')) : s'.Shows src v' (pageFlags w x) 0 := by
  obtain ⟨f, hframe, hlive, hmap, hzero⟩ := h.given _ hv
  have htr := hmap v' rfl
  rw [decode_pageFlags hframe] at htr
  exact ⟨f, htr, hframe, hlive, hzero _ (Nat.mod_lt _ (by decide))⟩

theorem PagesGiven.mapsLive (h : PagesGiven src v (pageFlags w x) s s' n)
    (hlive : s.MapsLive src) : s'.MapsLive src := by
  intro v' tr hv
  by_cases hpage : PageFrom v n (pageOf v')
  · obtain ⟨f, hmap, -, hlive', -⟩ := h.shows hpage
    obtain rfl := Option.some.inj (hv.symm.trans hmap)
    exact hlive'
  · rw [h.keeps.map v' hpage] at hv
    exact h.keeps.live _ (hlive v' tr hv)

theorem loadSection_of_none (hfind : findSection file name = none)
    (h : elf64LoadSection src file name s = .ok s') : s' = s := by
  rw [elf64LoadSection, hfind] at h
  exact (Except.ok.inj h).symm

/-- **The section that is found** is given its pages. -/
theorem loadSection_given (hfind : findSection file name = some sh)
    (h : elf64LoadSection src file name s = .ok s') :
    PagesGiven src (file.virtualBase sh.addr) sh.pageFlags s s'
      (elfPageCnt sh.addr sh.size).toNat := by
  rw [elf64LoadSection, hfind] at h
  obtain ⟨⟨physical, s₁⟩, hmap, h⟩ := Exec.bind_eq_ok.mp h
  obtain rfl := Except.ok.inj h
  exact mapPages_given hmap

theorem loadSection_mapsLive (h : elf64LoadSection src file name s = .ok s')
    (hlive : s.MapsLive src) : s'.MapsLive src := by
  rcases hfind : findSection file name with - | sh
  · rw [loadSection_of_none hfind h]
    exact hlive
  · exact (loadSection_given hfind h).mapsLive hlive

end Section

/-! ### One round -/

/-- **What a round does** for a PT_LOAD segment: each page that is counted gets a frame of its
own, with the flags and the bytes of the segment. -/
structure SegmentRound (src : FrameSource σ) (file : ElfFile) (ph : Phdr) (image : Image)
    (s s' : LoadState σ) : Prop where
  keeps : s.Keeps src (file.Counts ph) s'
  page : ∀ j < ph.pages, ∃ f, IsFrame .small f ∧ ¬ src.Live s.pmm f ∧ src.Live s'.pmm f ∧
    (∀ v, pageOf v = pageOf (file.pageAddr ph j) → s'.map v = some ⟨f, ph.pageFlags, .small⟩) ∧
    ∀ d < 0x1000, s'.ram (f.toNat + d) = file.pageByte ph image j d
  after : src.After ph.pages s.pmm s'.pmm

section Round

variable {src : FrameSource σ} {file : ElfFile} {ph : Phdr} {image : Image} {s s' : LoadState σ}

theorem segmentPages_of_type (htype : ph.type = elfPtLoad) : segmentPages ph = ph.pages :=
  if_pos htype

/-- A segment with pages is mapped and copied. -/
theorem loadSegment_eq (htype : ph.type = elfPtLoad) (hn : ph.pages ≠ 0) :
    loadSegment src file s ph =
      (mapPages src (file.virtualBase ph.vaddr) ph.pageFlags s ph.pages >>=
        fun x => copyPages file ph x.1 x.2 ph.pages) := by
  rw [loadSegment, if_neg (not_not.mpr htype)]
  exact if_neg hn

/-- A segment without pages is passed over. -/
theorem loadSegment_of_pages (hzero : ph.pages = 0) : loadSegment src file s ph = .ok s := by
  have hcnt : (elfPageCnt ph.vaddr ph.filesz).toNat = 0 := hzero
  rw [loadSegment, hcnt]
  exact ite_self _

/-- What a round does to the page table. -/
theorem loadSegment_mapped (h : loadSegment src file s ph = .ok s') :
    ∃ physical s₁, mapPages src (file.virtualBase ph.vaddr) ph.pageFlags s (segmentPages ph)
      = .ok (physical, s₁) ∧ s'.map = s₁.map := by
  by_cases htype : ph.type = elfPtLoad
  · rw [segmentPages_of_type htype]
    by_cases hzero : ph.pages = 0
    · rw [loadSegment_of_pages hzero] at h
      obtain rfl := Except.ok.inj h
      rw [hzero]
      exact ⟨_, s, rfl, rfl⟩
    · rw [loadSegment_eq htype hzero] at h
      obtain ⟨⟨physical, s₁⟩, hmap, hcopy⟩ := Exec.bind_eq_ok.mp h
      exact ⟨physical, s₁, hmap, copyPages_map hcopy⟩
  · rw [loadSegment, if_pos htype] at h
    obtain rfl := Except.ok.inj h
    rw [segmentPages, if_neg htype]
    exact ⟨_, s, rfl, rfl⟩

theorem loadSegment_blocks (h : loadSegment src file s ph = .ok s') {u : Word}
    (hu : s'.map.Blocks u) : s.map.Blocks u := by
  obtain ⟨physical, s₁, hmap, heq⟩ := loadSegment_mapped h
  rw [heq] at hu
  exact mapPages_blocks hmap hu

theorem SegmentRound.of_pages (hzero : ph.pages = 0) : SegmentRound src file ph image s s where
  keeps := .refl s
  page j hj := absurd (hj.trans_eq hzero) j.not_lt_zero
  after := by
    rw [hzero]
    rfl

/-- The pages are mapped and then copied to. -/
theorem SegmentRound.of_copied {s₁ : LoadState σ} {physical : ℕ → Word}
    (hm : PagesMapped src (file.virtualBase ph.vaddr) ph.pageFlags s s₁ physical ph.pages)
    (hc : FramesCopied file ph image physical s₁ s' ph.pages)
    (hafter : src.After ph.pages s.pmm s₁.pmm) : SegmentRound src file ph image s s' := by
  refine ⟨⟨fun f hf => ?_, fun f hf hlive d hd => ?_, fun v hv => ?_⟩, fun j hj => ?_, ?_⟩
  · rw [hc.pmm]
    exact hm.keeps.live f hf
  · rw [← hm.keeps.ram f hf hlive d hd]
    refine hc.others f hf (fun j hj heq => ?_) d hd
    exact hm.fresh j hj (heq ▸ hlive)
  · rw [hc.map]
    exact hm.keeps.map v hv
  · refine ⟨physical j, hm.frame j hj, hm.fresh j hj, hc.pmm ▸ hm.live j hj, fun v hv => ?_,
      fun d hd => hc.bytes j hj d hd (hm.cleared j hj d hd)⟩
    have htr := hm.map j hj v hv
    rwa [Phdr.pageFlags, decode_pageFlags (hm.frame j hj), ← hc.map] at htr
  · rw [hc.pmm]
    exact hafter

variable (hb : file.buffer = some image) (hlen : file.length.toNat < 2 ^ 31)
include hb hlen

/-- **A round that comes back** has copied what fits. -/
theorem loadSegment_round (htype : ph.type = elfPtLoad)
    (h : loadSegment src file s ph = .ok s') :
    file.Fits ph ∧ SegmentRound src file ph image s s' := by
  by_cases hzero : ph.pages = 0
  · rw [loadSegment_of_pages hzero] at h
    obtain rfl := Except.ok.inj h
    exact ⟨.inl hzero, .of_pages hzero⟩
  rw [loadSegment_eq htype hzero] at h
  obtain ⟨⟨physical, s₁⟩, hmap, hcopy⟩ := Exec.bind_eq_ok.mp h
  have hsize : 0x1000 ≤ ph.filesz.toNat := by
    by_contra hlt
    cases hcopy.symm.trans (copyPages_divide (Nat.not_le.mp hlt) hzero)
  -- the frames are known to be those of different pages only if the pages do not wrap around the
  -- table: there are that few because their copies came back
  have hle : ph.pages ≤ 2 ^ 20 + 2 := copyPages_le hb hlen le_rfl hcopy
  have hfits : file.CopiesFit ph ph.pages := copyPages_fit hb hlen (by omega) hcopy
  have hm := mapPages_mapped (show ph.pages ≤ 2 ^ 36 by omega) hmap
  obtain ⟨s₂, hcopy', hc⟩ := copyPages_copied (s := s₁) hb hlen (by omega) hsize hfits hm.frame
    hm.distinct
  obtain rfl : s₂ = s' := Except.ok.inj (hcopy'.symm.trans hcopy)
  exact ⟨.inr ⟨hsize, hfits⟩, .of_copied hm hc (mapPages_given hmap).after⟩

/-- The frames that a round takes, and the page table. -/
theorem loadSegment_after (h : loadSegment src file s ph = .ok s') :
    src.After (segmentPages ph) s.pmm s'.pmm ∧ (s.MapsLive src → s'.MapsLive src) := by
  by_cases htype : ph.type = elfPtLoad
  · have hround := (loadSegment_round hb hlen htype h).2
    rw [segmentPages_of_type htype]
    refine ⟨hround.after, fun hlive v tr hv => ?_⟩
    by_cases hcounts : file.Counts ph (pageOf v)
    · obtain ⟨j, hj, heq⟩ := hcounts
      obtain ⟨f, -, -, hlive', hmap, -⟩ := hround.page j hj
      obtain rfl := Option.some.inj (hv.symm.trans (hmap v heq))
      exact hlive'
    · rw [hround.keeps.map v hcounts] at hv
      exact hround.keeps.live _ (hlive v tr hv)
  · rw [loadSegment, if_pos htype] at h
    obtain rfl := Except.ok.inj h
    rw [segmentPages, if_neg htype]
    exact ⟨rfl, id⟩

/-- **A round comes back** if the segment fits, there are frames for it and no large page is in
its place. -/
theorem loadSegment_of_fits {r : ℕ} (hfits : ph.type = elfPtLoad → file.Fits ph)
    (hopen : ∀ j < segmentPages ph,
      ¬ s.map.Blocks (file.virtualBase ph.vaddr + BitVec.ofNat 64 (j * 0x1000)))
    (hsup : src.Supplies (segmentPages ph + r) s.pmm) :
    ∃ s', loadSegment src file s ph = .ok s' ∧ src.Supplies r s'.pmm := by
  by_cases htype : ph.type = elfPtLoad
  swap
  · rw [segmentPages, if_neg htype, Nat.zero_add] at hsup
    exact ⟨s, if_pos htype, hsup⟩
  rw [segmentPages_of_type htype] at hsup hopen
  by_cases hzero : ph.pages = 0
  · rw [hzero, Nat.zero_add] at hsup
    exact ⟨s, loadSegment_of_pages hzero, hsup⟩
  obtain ⟨hsize, hfits⟩ := (hfits htype).resolve_left hzero
  have hle := hfits.le le_rfl
  obtain ⟨physical, s₁, hmap, hsup⟩ :=
    mapPages_returns (file.virtualBase ph.vaddr) ph.pageFlags hsup hopen
  have hm := mapPages_mapped (show ph.pages ≤ 2 ^ 36 by omega) hmap
  obtain ⟨s₂, hcopy, hc⟩ := copyPages_copied (s := s₁) hb hlen (by omega) hsize hfits hm.frame
    hm.distinct
  refine ⟨s₂, ?_, hc.pmm ▸ hsup⟩
  rw [loadSegment_eq htype hzero]
  exact Exec.bind_eq_ok.mpr ⟨_, hmap, hcopy⟩

end Round

/-! ### All rounds -/

/-- The page is counted for a PT_LOAD segment from the program header `i` on. -/
def ElfFile.CountsFrom (file : ElfFile) (i p : ℕ) : Prop :=
  ∃ j, i ≤ j ∧ file.IsLoad j ∧ file.Counts (file.phdrAt j) p

section Rounds

variable {src : FrameSource σ} {file : ElfFile} {image : Image} {s s' : LoadState σ} {i j n : ℕ}

variable (hb : file.buffer = some image) (hlen : file.length.toNat < 2 ^ 31)
include hb hlen

/-- What a round leaves alone, for any program header. -/
theorem loadSegment_keeps (hi : i < file.phNum)
    (h : loadSegment src file s (file.phdrAt i) = .ok s') :
    s.Keeps src (fun p => file.IsLoad i ∧ file.Counts (file.phdrAt i) p) s' := by
  by_cases htype : (file.phdrAt i).type = elfPtLoad
  · exact (loadSegment_round hb hlen htype h).2.keeps.mono fun p hp => ⟨⟨hi, htype⟩, hp⟩
  · rw [loadSegment, if_pos htype] at h
    obtain rfl := Except.ok.inj h
    exact .refl s

/-- **What the rounds from `i` on leave alone.** -/
theorem loadSegments_keeps (hn : n ≤ file.phNum) (h : loadSegments src file s n = .ok s')
    (hi : i ≤ n) :
    ∃ s₁, loadSegments src file s i = .ok s₁ ∧ s₁.Keeps src (file.CountsFrom i) s' := by
  induction n generalizing s' with
  | zero =>
      obtain rfl := Nat.le_zero.mp hi
      exact ⟨s', h, .refl s'⟩
  | succ n ih =>
      rcases hi.lt_or_eq with hlt | rfl
      · obtain ⟨s₂, h₂, hstep⟩ := Exec.bind_eq_ok.mp h
        obtain ⟨s₁, h₁, hkeeps⟩ := ih (Nat.le_of_succ_le hn) h₂ (Nat.lt_succ_iff.mp hlt)
        refine ⟨s₁, h₁, hkeeps.trans ((loadSegment_keeps hb hlen hn hstep).mono ?_)⟩
        exact fun p ⟨hload, hp⟩ => ⟨n, Nat.lt_succ_iff.mp hlt, hload, hp⟩
      · exact ⟨s', h, .refl s'⟩

/-- The frames that are taken, and the page table. -/
theorem loadSegments_after (hn : n ≤ file.phNum) (h : loadSegments src file s n = .ok s') :
    src.After (file.segmentFrames n) s.pmm s'.pmm ∧ (s.MapsLive src → s'.MapsLive src) := by
  induction n generalizing s' with
  | zero =>
      obtain rfl := Except.ok.inj h
      exact ⟨rfl, id⟩
  | succ n ih =>
      obtain ⟨s₁, h₁, hstep⟩ := Exec.bind_eq_ok.mp h
      obtain ⟨hafter, hlive⟩ := ih (Nat.le_of_succ_le hn) h₁
      obtain ⟨hafter', hlive'⟩ := loadSegment_after hb hlen hstep
      exact ⟨hafter.trans hafter', hlive' ∘ hlive⟩

/-- **The round of a PT_LOAD segment**, and what the ones that follow leave of it. -/
theorem loadSegments_round (h : loadSegments src file s file.phNum = .ok s')
    (hi : file.IsLoad i) :
    ∃ s₁ s₂, loadSegments src file s i = .ok s₁ ∧
      loadSegment src file s₁ (file.phdrAt i) = .ok s₂ ∧ file.Fits (file.phdrAt i) ∧
      SegmentRound src file (file.phdrAt i) image s₁ s₂ ∧
      s₂.Keeps src (file.CountsFrom (i + 1)) s' := by
  obtain ⟨s₂, h₂, hkeeps⟩ := loadSegments_keeps hb hlen le_rfl h hi.1
  obtain ⟨s₁, h₁, hstep⟩ := Exec.bind_eq_ok.mp h₂
  obtain ⟨hfits, hround⟩ := loadSegment_round hb hlen hi.2 hstep
  exact ⟨s₁, s₂, h₁, hstep, hfits, hround, hkeeps⟩

/-- **The last segment that counts a page** decides what is there. -/
theorem loadSegments_last (h : loadSegments src file s file.phNum = .ok s')
    (hi : file.IsLoad i) (hj : j < (file.phdrAt i).pages) {v : Word}
    (hv : pageOf v = pageOf (file.pageAddr (file.phdrAt i) j))
    (hlast : ¬ file.CountsFrom (i + 1) (pageOf v)) :
    s'.Shows src v (file.phdrAt i).pageFlags
      (file.pageByte (file.phdrAt i) image j (v.toNat % 0x1000)) := by
  obtain ⟨s₁, s₂, -, -, -, hround, hkeeps⟩ := loadSegments_round hb hlen h hi
  obtain ⟨f, hframe, -, hlive, hmap, hbytes⟩ := hround.page j hj
  have hshows : s₂.Shows src v (file.phdrAt i).pageFlags
      (file.pageByte (file.phdrAt i) image j (v.toNat % 0x1000)) :=
    ⟨f, hmap v hv, hframe, hlive, hbytes _ (Nat.mod_lt _ (by decide))⟩
  exact hshows.keeps hkeeps hlast

/-- **All rounds come back** if the segments fit, there are frames for them and no large page is
in their place. -/
theorem loadSegments_of_fits (hfits : ∀ i, file.IsLoad i → file.Fits (file.phdrAt i))
    (hclear : file.Clear s.map) (hn : n ≤ file.phNum) {r : ℕ}
    (hsup : src.Supplies (file.segmentFrames n + r) s.pmm) :
    ∃ s', loadSegments src file s n = .ok s' ∧ src.Supplies r s'.pmm ∧ file.Clear s'.map := by
  induction n generalizing r with
  | zero => exact ⟨s, rfl, by rwa [ElfFile.segmentFrames, Nat.zero_add] at hsup, hclear⟩
  | succ n ih =>
      rw [ElfFile.segmentFrames, Nat.add_assoc] at hsup
      obtain ⟨s₁, h₁, hsup, hclear₁⟩ := ih (Nat.le_of_succ_le hn) hsup
      obtain ⟨s₂, h₂, hsup⟩ := loadSegment_of_fits hb hlen (fun htype => hfits n ⟨hn, htype⟩)
        (hclear₁.segment hn) hsup
      exact ⟨s₂, Exec.bind_eq_ok.mpr ⟨s₁, h₁, h₂⟩, hsup,
        hclear₁.mono fun u => loadSegment_blocks h₂⟩

end Rounds

/-! ### The page table that the loader makes -/

section Tables

variable {τ : Type} {src : FrameSource σ} {tables : FrameSource τ} {file : ElfFile}
  {s s' : LoadState σ} {pmlt : Word} {m : Machine τ} {n r : ℕ}

theorem loadSection_run (h : elf64LoadSection src file bssName s = .ok s')
    (hinv : PagingState.Inv tables pmlt ⟨m, s.map⟩)
    (hsup : tables.Supplies (3 * file.bssFrames + r) m.pmm) :
    ∃ m', Run (PagingState.Step tables pmlt) ⟨m, s.map⟩ ⟨m', s'.map⟩ ∧
      tables.Supplies r m'.pmm := by
  rw [ElfFile.bssFrames] at hsup
  rcases hfind : findSection file bssName with - | sh <;> rw [hfind] at hsup
  · rw [loadSection_of_none hfind h]
    exact ⟨m, .refl, by simpa using hsup⟩
  · rw [elf64LoadSection, hfind] at h
    obtain ⟨⟨physical, s₁⟩, hmap, h⟩ := Exec.bind_eq_ok.mp h
    obtain rfl := Except.ok.inj h
    exact mapPages_run hmap hinv hsup

theorem loadSegments_run (h : loadSegments src file s n = .ok s')
    (hinv : PagingState.Inv tables pmlt ⟨m, s.map⟩)
    (hsup : tables.Supplies (3 * file.segmentFrames n + r) m.pmm) :
    ∃ m', Run (PagingState.Step tables pmlt) ⟨m, s.map⟩ ⟨m', s'.map⟩ ∧
      tables.Supplies r m'.pmm := by
  induction n generalizing s' r with
  | zero =>
      obtain rfl := Except.ok.inj h
      exact ⟨m, .refl, by simpa [ElfFile.segmentFrames] using hsup⟩
  | succ n ih =>
      rw [ElfFile.segmentFrames, Nat.mul_add, Nat.add_assoc] at hsup
      obtain ⟨s₁, h₁, h⟩ := Exec.bind_eq_ok.mp h
      obtain ⟨m₁, hrun, hsup⟩ := ih h₁ hsup
      obtain ⟨physical, s₂, hmap, heq⟩ := loadSegment_mapped h
      obtain ⟨m₂, hrun', hsup⟩ :=
        mapPages_run hmap (hrun.invariant PagingState.Inv.step hinv) hsup
      exact ⟨m₂, heq ▸ hrun.trans hrun', hsup⟩

/-- **The map of the loader is what the tables translate to**: on a machine whose tables
translate as the map says, with three frames for the tables of each page, the calls of
`map_page` that `elf64_file_load` makes lead to tables that translate as the new map says. -/
theorem elf64FileLoad_run (h : elf64FileLoad src file s = .ok s')
    (hinv : PagingState.Inv tables pmlt ⟨m, s.map⟩)
    (hsup : tables.Supplies (3 * file.bssFrames + 3 * file.segmentFrames file.phNum) m.pmm) :
    ∃ m', Run (PagingState.Step tables pmlt) ⟨m, s.map⟩ ⟨m', s'.map⟩ ∧
      ∀ v, translate m'.mem 4 pmlt v = s'.map v := by
  obtain ⟨s₁, h₁, h₂⟩ := Exec.bind_eq_ok.mp h
  obtain ⟨m₁, hrun₁, hsup⟩ := loadSection_run h₁ hinv hsup
  obtain ⟨m₂, hrun₂, -⟩ := loadSegments_run (r := 0) h₂
    (hrun₁.invariant PagingState.Inv.step hinv) hsup
  have hrun : Run (PagingState.Step tables pmlt) ⟨m, s.map⟩ ⟨m₂, s'.map⟩ := hrun₁.trans hrun₂
  exact ⟨m₂, hrun, (hrun.invariant PagingState.Inv.step hinv).refines⟩

end Tables

end Rock
