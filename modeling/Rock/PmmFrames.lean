/-
Rock/PmmFrames.lean

The physical memory manager as a source of frames.

The page tables and portals take their frames from a `FrameSource`.  Here the
model of `pmm_alloc(1, 1)` is shown to be one (`pmmFrames`), on every state of
the allocator that its runs keep to (`PmmState.Physical`): the page it returns is
aligned, below the end of physical memory, and was free before.  A frame is in
use unless it is a free page of a module.

The cleared page is the other half of the interface: `pmm_alloc` clears the words
that `Machine.grant` and `Machine.takePage` clear (`memset64_page`).
-/
import Rock.Pmm
import Rock.PmmInit
import Rock.Paging

namespace Rock

/-! ### Pages and words -/

theorem toNat_ofNat_below {a : ℕ} (ha : a < physTop) : (BitVec.ofNat 64 a).toNat = a := by
  rw [BitVec.toNat_ofNat]
  exact Nat.mod_eq_of_lt (ha.trans (by decide))

theorem frameMask_toNat (size : PageSize) :
    size.frameMask.toNat = (2 ^ (52 - size.shift) - 1) * 2 ^ size.shift := by
  cases size <;> decide

/-- An aligned address below the end of physical memory is a frame. -/
theorem isFrame_of_dvd {size : PageSize} {a : ℕ} (ha : 2 ^ size.shift ∣ a) (htop : a < physTop) :
    IsFrame size (BitVec.ofNat 64 a) := by
  obtain ⟨k, rfl⟩ := ha
  have hk : k < 2 ^ (52 - size.shift) := by
    refine Nat.lt_of_mul_lt_mul_left (a := 2 ^ size.shift) (htop.trans_eq ?_)
    cases size <;> rfl
  apply BitVec.eq_of_toNat_eq
  rw [BitVec.toNat_and, frameMask_toNat, toNat_ofNat_below htop, Nat.mul_comm]
  apply Nat.eq_of_testBit_eq
  intro i
  rw [Nat.testBit_and, Nat.testBit_mul_two_pow, Nat.testBit_mul_two_pow,
    Nat.testBit_two_pow_sub_one]
  rcases lt_or_ge (i - size.shift) (52 - size.shift) with hlow | hhigh
  · rw [decide_eq_true hlow, Bool.and_true, Bool.and_right_comm, Bool.and_self]
  · -- the number of the page has no such bit
    have hzero : k.testBit (i - size.shift) = false :=
      Nat.testBit_lt_two_pow (lt_of_lt_of_le hk (Nat.pow_le_pow_right two_pos hhigh))
    simp [hzero]

/-- A page below the end of physical memory is a frame. -/
theorem isFrame_page {a : ℕ} (ha : pageSize ∣ a) (htop : a < physTop) :
    IsFrame .small (BitVec.ofNat 64 a) :=
  isFrame_of_dvd ha htop

/-- A frame starts a page. -/
theorem IsFrame.dvd {p : Word} (hp : IsFrame .small p) : pageSize ∣ p.toNat := by
  have hlow : p &&& 0xfff = 0#64 := and_eq_zero_of_within hp (by decide)
  have hnat := congrArg BitVec.toNat hlow
  rw [BitVec.toNat_and, show (0xfff : Word).toNat = 2 ^ 12 - 1 by decide,
    Nat.and_two_pow_sub_one_eq_mod] at hnat
  exact Nat.dvd_of_mod_eq_zero hnat

/-- Frames are told apart by the numbers of their pages. -/
theorem IsFrame.div_inj {p q : Word} (hp : IsFrame .small p) (hq : IsFrame .small q) :
    p.toNat / pageSize = q.toNat / pageSize ↔ p = q := by
  refine ⟨fun h => BitVec.eq_of_toNat_eq ?_, fun h => by rw [h]⟩
  rw [← Nat.div_mul_cancel hp.dvd, ← Nat.div_mul_cancel hq.dvd, h]

/-- **Clearing a page** with `memset64` changes the words of that page, in every
frame. -/
theorem memset64_page {mem : Mem} {a : ℕ} (ha : pageSize ∣ a) (htop : a < physTop) {p : Word}
    (hp : IsFrame .small p) :
    memset64 mem a 0 512 p = Function.update mem (BitVec.ofNat 64 a) 0 p := by
  have hpage : p = BitVec.ofNat 64 a ↔ p.toNat = a := by
    rw [← BitVec.toNat_inj, toNat_ofNat_below htop]
  obtain ⟨k, hk⟩ := hp.dvd
  obtain ⟨j, rfl⟩ := ha
  funext i
  have hi := i.isLt
  rw [memset64, hk]
  rcases eq_or_ne k j with rfl | hne
  · rw [hpage.mpr hk, Function.update_self, if_pos]
    · rfl
    · exact ⟨Nat.le_add_right _ _, by omega⟩
  · rw [Function.update_of_ne, if_neg]
    · -- the pages `k` and `j` have no word in common
      simp only [pageSize]
      omega
    · rw [Ne, hpage, hk]
      exact fun hc => hne (Nat.eq_of_mul_eq_mul_left pageSize_pos hc)

/-! ### States of the allocator -/

namespace PmmState

/-- The page `k` belongs to a module. -/
def Managed (s : PmmState) (k : ℕ) : Prop := ∃ f ∈ ranges s.pmm.modules, f.Has k

/-- The allocator has modules, which lie in physical memory. -/
structure Physical (s : PmmState) : Prop where
  inv : s.Inv
  nonempty : s.pmm.modules ≠ []
  below : ∀ m ∈ s.pmm.modules, m.base + m.bitmap.size * pageSize ≤ physTop

theorem Physical.fits {s : PmmState} (h : s.Physical) {align : ℕ} (hpos : 0 < align)
    (hle : align ≤ 0x200) : ∀ m ∈ s.pmm.modules, m.Fits align := by
  intro m hm
  have hbelow := h.below m hm
  refine ⟨hpos, ?_⟩
  simp only [physTop, pageSize] at hbelow ⊢
  omega

/-- The modules of `pmm_init` are such an allocator, if there are any. -/
theorem physical_init {ms : List PmmModule} (mem : Mem) (hms : ms ≠ [])
    (hbase : ∀ m ∈ ms, pageSize ∣ m.base) (hdisj : (ranges ms).Pairwise Block.Apart)
    (hbelow : ∀ m ∈ ms, m.base + m.bitmap.size * pageSize ≤ physTop) : (init ms mem).Physical where
  inv := inv_init mem hbase hdisj
  nonempty := by simpa [init] using hms
  below := by
    intro m hm
    obtain ⟨m', hm', rfl⟩ := List.mem_map.mp hm
    exact hbelow m' hm'

/-- What `pmm_alloc(1, 1)` does when it returns the address `a`. -/
structure Took (s : PmmState) (a : ℕ) (s' : PmmState) : Prop where
  physical : s'.Physical
  live : s'.live = ⟨a / pageSize, 1⟩ :: s.live
  managed : ∀ k, s'.Managed k ↔ s.Managed k
  aligned : pageSize ∣ a
  below : a < physTop
  owned : s.Managed (a / pageSize)
  free : ∀ b ∈ s.live, ¬ b.Has (a / pageSize)
  mem : s'.pmm.mem = memset64 s.pmm.mem a 0 512

/-- **One page from the allocator**: -1 and nothing changes, or the address of a
free page that is aligned as asked. -/
theorem Physical.alloc_aligned (fayt : Fayt) {s : PmmState} (h : s.Physical) {align : ℕ}
    (hpos : 0 < align) (hle : align ≤ 0x200) :
    pmmAlloc fayt s.pmm 1 align = .ok (none, s.pmm) ∨
      ∃ a p, pmmAlloc fayt s.pmm 1 align = .ok (some a, p) ∧ align * pageSize ∣ a ∧
        s.Took a ⟨p, ⟨a / pageSize, 1⟩ :: s.live⟩ := by
  have hfits := h.fits hpos hle
  obtain ⟨⟨ms, mem⟩, live⟩ := s
  rcases ms with - | ⟨m₀, rest⟩
  · exact absurd rfl h.nonempty
  rcases pmmAllocFrom_spec fayt h.inv.wf (by decide : 1 < 2 ^ 64) hfits with
    heq | ⟨before, m, after, i, hint, hms, heq, hdvd, hcnt, hin, hclear, hhint⟩
  · left
    simp only [pmmAlloc, heq, Exec.ok_bind]
  right
  replace hms : m₀ :: rest = before ++ m :: after := hms
  refine ⟨m.base + i * pageSize, ⟨before ++ m.update i 1 true hint :: after,
    memset64 mem (m.base + i * pageSize) 0 512⟩, ?_, hdvd, ?_⟩
  · simp only [pmmAlloc, heq, Exec.ok_bind]
    rfl
  rw [hms] at h hfits
  have hm : m ∈ before ++ m :: after := by simp
  have hranges := ranges_replace before after (m.update_frames i 1 true hint)
  have hblock : (m.base + i * pageSize) / pageSize = m.base / pageSize + i := m.div_page i
  have hinv : Inv ⟨⟨before ++ m.update i 1 true hint :: after,
      memset64 mem (m.base + i * pageSize) 0 512⟩, ⟨m.base / pageSize + i, 1⟩ :: live⟩ :=
    h.inv.enter hcnt hin hclear hhint fun e he => (hfits e he).one
  rw [← hblock] at hinv
  rw [hms]
  refine ⟨⟨hinv, by simp, ?_⟩, rfl, ?_, ?_, ?_, ?_, ?_, rfl⟩
  · exact forall_mem_replace (fun e he => h.below e (mem_around he)) (h.below m hm)
  · intro k
    simp only [Managed, hranges]
  · exact (dvd_mul_left _ _).trans hdvd
  · have hbelow := h.below m hm
    have hend := Nat.mul_le_mul_right pageSize hin
    have hpage := pageSize_pos
    rw [Nat.add_mul] at hend
    omega
  · -- the page of the bit is one of the module's frames
    have hwithin := within_frames hin
    refine ⟨m.frames, by simp [ranges], ?_⟩
    rw [hblock]
    exact ⟨hwithin.1, lt_of_lt_of_le (Nat.lt_succ_self _) hwithin.2⟩
  · intro b hb hhas
    rw [hblock] at hhas
    exact (h.inv.tracks m hm).apart_of_clear hin hclear hb _
      ⟨⟨le_refl _, Nat.lt_succ_self _⟩, hhas⟩

theorem Physical.alloc_one (fayt : Fayt) {s : PmmState} (h : s.Physical) :
    pmmAlloc fayt s.pmm 1 1 = .ok (none, s.pmm) ∨
      ∃ a p, pmmAlloc fayt s.pmm 1 1 = .ok (some a, p) ∧
        s.Took a ⟨p, ⟨a / pageSize, 1⟩ :: s.live⟩ := by
  rcases h.alloc_aligned fayt one_pos (by decide) with hnone | ⟨a, p, hsome, -, htook⟩
  · exact .inl hnone
  · exact .inr ⟨a, p, hsome, htook⟩

section Took

variable {s s' : PmmState} {a k : ℕ} (h : s.Took a s')

include h

theorem Took.toNat : (BitVec.ofNat 64 a).toNat = a := toNat_ofNat_below h.below

theorem Took.isFrame : IsFrame .small (BitVec.ofNat 64 a) := isFrame_page h.aligned h.below

/-- The page was managed and in no live block, and is in one now. -/
theorem Took.fresh : ¬ (s.Managed (a / pageSize) → ∃ b ∈ s.live, b.Has (a / pageSize)) := by
  intro hlive
  obtain ⟨b, hb, hhas⟩ := hlive h.owned
  exact h.free b hb hhas

theorem Took.granted : ∃ b ∈ s'.live, b.Has (a / pageSize) := by
  rw [h.live]
  exact ⟨_, List.mem_cons_self, le_refl _, Nat.lt_succ_self _⟩

theorem Took.keeps (hk : ∃ b ∈ s.live, b.Has k) : ∃ b ∈ s'.live, b.Has k := by
  obtain ⟨b, hb, hhas⟩ := hk
  rw [h.live]
  exact ⟨b, List.mem_cons_of_mem _ hb, hhas⟩

end Took

end PmmState

/-! ### The source -/

/-- The states of an allocator in physical memory. -/
abbrev PhysicalPmm := { s : PmmState // s.Physical }

/-- `pmm_alloc(1, 1)`, with the page as a frame. -/
def pmmAllocFrame (fayt : Fayt) (s : PhysicalPmm) : Option (Word × PhysicalPmm) :=
  match h : pmmAlloc fayt s.1.pmm 1 1 with
  | .ok (some a, p) => some (BitVec.ofNat 64 a, ⟨⟨p, ⟨a / pageSize, 1⟩ :: s.1.live⟩, by
      rcases s.2.alloc_one fayt with hnone | ⟨a', p', hsome, htook⟩
      · cases h.symm.trans hnone
      · cases h.symm.trans hsome
        exact htook.physical⟩)
  | _ => none

theorem pmmAllocFrame_spec {fayt : Fayt} {s s' : PhysicalPmm} {f : Word}
    (h : pmmAllocFrame fayt s = some (f, s')) :
    ∃ a, f = BitVec.ofNat 64 a ∧ s.1.Took a s'.1 := by
  unfold pmmAllocFrame at h
  rcases s.2.alloc_one fayt with hnone | ⟨a, p, hsome, htook⟩
  · split at h
    · next heq => cases heq.symm.trans hnone
    · cases h
  · split at h
    · next heq =>
        cases heq.symm.trans hsome
        cases h
        exact ⟨a, rfl, htook⟩
    · cases h

/-- **`pmm_alloc(1, 1)` is a source of frames.**  A frame is in use unless it is a
page of a module that is in no live block. -/
def pmmFrames (fayt : Fayt) : FrameSource PhysicalPmm where
  alloc := pmmAllocFrame fayt
  Live s f := s.1.Managed (f.toNat / pageSize) → ∃ b ∈ s.1.live, b.Has (f.toNat / pageSize)
  alloc_frame := by
    intro s f s' h
    obtain ⟨a, rfl, htook⟩ := pmmAllocFrame_spec h
    exact htook.isFrame
  alloc_fresh := by
    intro s f s' h
    obtain ⟨a, rfl, htook⟩ := pmmAllocFrame_spec h
    rw [htook.toNat]
    exact htook.fresh
  alloc_live := by
    intro s f s' h _
    obtain ⟨a, rfl, htook⟩ := pmmAllocFrame_spec h
    rw [htook.toNat]
    exact htook.granted
  alloc_mono := by
    intro s f s' g h hlive hmanaged
    obtain ⟨a, rfl, htook⟩ := pmmAllocFrame_spec h
    exact htook.keeps (hlive ((htook.managed _).mp hmanaged))

/-- The frame is cleared: in every frame, memory after the call is that of
`Machine.grant`. -/
theorem pmmAllocFrame_mem {fayt : Fayt} {s s' : PhysicalPmm} {f : Word}
    (h : pmmAllocFrame fayt s = some (f, s')) {p : Word} (hp : IsFrame .small p) :
    s'.1.pmm.mem p = Function.update s.1.pmm.mem f 0 p := by
  obtain ⟨a, rfl, htook⟩ := pmmAllocFrame_spec h
  rw [htook.mem, memset64_page htook.aligned htook.below hp]

end Rock
