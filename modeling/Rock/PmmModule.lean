/-
Rock/PmmModule.lean

One module of the physical memory manager (kernel/core/physical.c): a range of
page frames with a bitmap, `pmm_module_alloc` and `pmm_module_free`.

The macros `ALIGN_UP` and `DIV_ROUNDUP` come from the fayt library, which is
not part of the kernel tree; `Fayt` is what the allocator relies on: rounding
up to the least multiple, and division rounding up, whenever the result is a
64-bit word.  Machine words are natural numbers with an explicit reduction
`u64` wherever the C expression can wrap.

`pmm_module_alloc` advances two loop variables, the bit index `i` and the
address `alloc_base`, in different places.  They stay in step because the
inner loop can only run out without a verdict when `cnt` is 0 or `i + cnt`
wraps, and then the search finds nothing at all (`search_none`); otherwise the
two move together (`search_spec`).

Main result: `pmmModule_run_safe`, the allocator invariant over every run.
-/
import Rock.Bitmap

namespace Rock

/-! ### Words and the fayt macros -/

/-- `PAGE_SIZE`. -/
def pageSize : ℕ := 0x1000

@[simp] theorem pageSize_pos : 0 < pageSize := by decide

/-- The value of an unsigned 64-bit expression. -/
def u64 (x : ℕ) : ℕ := x % 2 ^ 64

theorem u64_of_lt {x : ℕ} (h : x < 2 ^ 64) : u64 x = x := Nat.mod_eq_of_lt h

/-- `a - b` on unsigned 64-bit words. -/
def usub (a b : ℕ) : ℕ := u64 (a + 2 ^ 64 - b)

theorem usub_of_le {a b : ℕ} (hb : b ≤ a) (ha : a < 2 ^ 64) : usub a b = a - b := by
  unfold usub u64
  omega

/-- The rounding macros of the fayt library. -/
structure Fayt where
  alignUp : ℕ → ℕ → ℕ
  divRoundup : ℕ → ℕ → ℕ
  /-- `ALIGN_UP(x, a)` is the least multiple of `a` that is at least `x`. -/
  alignUp_least : ∀ {x a m : ℕ}, 0 < a → IsLeast {y | a ∣ y ∧ x ≤ y} m →
    m < 2 ^ 64 → alignUp x a = m
  /-- `DIV_ROUNDUP(x, a)` divides rounding up. -/
  divRoundup_eq : ∀ {x a : ℕ}, 0 < a → x + a ≤ 2 ^ 64 → divRoundup x a = (x + a - 1) / a

namespace Fayt

theorem isLeast_roundup {x a : ℕ} (ha : 0 < a) :
    IsLeast {y | a ∣ y ∧ x ≤ y} ((x + a - 1) / a * a) := by
  have hdiv := Nat.div_add_mod (x + a - 1) a
  have hmod := Nat.mod_lt (x + a - 1) ha
  have hcomm : a * ((x + a - 1) / a) = (x + a - 1) / a * a := mul_comm _ _
  refine ⟨⟨dvd_mul_left _ _, by omega⟩, ?_⟩
  rintro y ⟨⟨c, rfl⟩, hy⟩
  rw [mul_comm a c]
  refine Nat.mul_le_mul_right a (Nat.le_of_lt_succ ?_)
  rw [Nat.div_lt_iff_lt_mul ha, Nat.succ_mul, mul_comm c a]
  omega

/-- The textbook definitions meet the contract. -/
def textbook : Fayt where
  alignUp x a := (x + a - 1) / a * a
  divRoundup x a := (x + a - 1) / a
  alignUp_least := fun ha h _ => (isLeast_roundup ha).unique h
  divRoundup_eq := fun _ _ => rfl

variable (fayt : Fayt)

/-- What a caller of `ALIGN_UP` knows of the result. -/
theorem alignUp_spec {x a : ℕ} (ha : 0 < a) (h : x + a ≤ 2 ^ 64) :
    a ∣ fayt.alignUp x a ∧ x ≤ fayt.alignUp x a ∧ fayt.alignUp x a < x + a := by
  have hl := isLeast_roundup (x := x) ha
  have hlt : (x + a - 1) / a * a < x + a := by
    have := Nat.div_mul_le_self (x + a - 1) a
    omega
  rw [fayt.alignUp_least ha hl (by omega)]
  exact ⟨hl.1.1, hl.1.2, hlt⟩

/-- Rounding up the division of a multiple is exact. -/
theorem divRoundup_mul {k a : ℕ} (ha : 0 < a) (h : k * a + a ≤ 2 ^ 64) :
    fayt.divRoundup (k * a) a = k := by
  rw [fayt.divRoundup_eq ha h, Nat.add_sub_assoc (by omega), Nat.mul_comm,
    Nat.mul_add_div ha, Nat.div_eq_of_lt (by omega), add_zero]

end Fayt

/-! ### The module -/

/-- The `type` of a memory map entry (limine.h). -/
inductive MemmapType where
  | usable
  | reserved
  | acpiReclaimable
  | acpiNvs
  | badMemory
  | bootloaderReclaimable
  | kernelAndModules
  | framebuffer
  deriving DecidableEq, Repr

/-- `struct limine_memmap_entry`. -/
structure MemmapEntry where
  base : ℕ
  length : ℕ
  type : MemmapType
  deriving DecidableEq, Repr

/-- `struct pmm_module`.  `node` is the address of the record itself, `slot` the
place in the memory map of the entry that `mmap_entry` points at, and
`bitmapPtr` the address of the bitmap; `bitmap_entry_cnt` is the size of
`bitmap`. -/
structure PmmModule where
  node : ℕ
  slot : ℕ
  mmapEntry : MemmapEntry
  bitmapSize : ℕ
  lastFree : ℕ
  bitmapPtr : ℕ
  bitmap : Bitmap

namespace PmmModule

/-- `module->mmap_entry->base`. -/
abbrev base (m : PmmModule) : ℕ := m.mmapEntry.base

/-- `module->bitmap_entry_cnt`. -/
abbrev bitmapEntryCnt (m : PmmModule) : ℕ := m.bitmap.size

/-- The page frames of the module, as frame numbers. -/
def frames (m : PmmModule) : Block := m.bitmap.span (m.base / pageSize)

end PmmModule

/-! ### Allocation -/

/-- How the inner loop of `pmm_module_alloc` ends. -/
inductive Probe where
  | taken
  | short
  | clear (j count : ℕ)
  deriving DecidableEq, Repr

/-- The inner loop, with `n` iterations left before `j` reaches `i + cnt`. -/
def probe (bm : Bitmap) (cnt : ℕ) : (n j count : ℕ) → Exec Probe
  | 0, _, _ => .ok .short
  | n + 1, j, count => do
      if ← bm.test j then .ok .taken
      else if count + 1 = cnt then .ok (.clear j (count + 1))
      else probe bm cnt n (j + 1) (count + 1)

/-- What the outer loop has found when it stops at a clear range. -/
structure Found where
  i : ℕ
  j : ℕ
  count : ℕ
  allocBase : ℕ
  deriving DecidableEq, Repr

/-- The outer loop.  `i` grows by `align` each time round, so `bm.size` rounds
are enough unless `align` is 0. -/
def search (bm : Bitmap) (cnt align : ℕ) : (fuel i allocBase : ℕ) → Exec (Option Found)
  | 0, i, _ => if i < bm.size then .error .hang else .ok none
  | fuel + 1, i, allocBase =>
      if i < bm.size then
        if bm.size < u64 (i + cnt) then .ok none
        else do
          match ← probe bm cnt (u64 (i + cnt) - i) i 0 with
          | .taken =>
              search bm cnt align fuel (u64 (i + align))
                (u64 (allocBase + u64 (align * pageSize)))
          | .short => search bm cnt align fuel (u64 (i + align)) allocBase
          | .clear j count => .ok (some ⟨i, j, count, allocBase⟩)
      else .ok none

/-- `pmm_module_alloc`; `none` is the returned -1. -/
def pmmModuleAlloc (fayt : Fayt) (m : PmmModule) (cnt align : ℕ) :
    Exec (Option ℕ × PmmModule) := do
  let allocBase :=
    fayt.alignUp (u64 (m.base + u64 (m.lastFree * pageSize))) (u64 (align * pageSize))
  let bitBase := usub allocBase m.base / pageSize
  match ← search m.bitmap cnt align m.bitmapEntryCnt bitBase allocBase with
  | none => .ok (none, m)
  | some f => do
      let bitmap ← m.bitmap.putRange true f.count f.i
      -- `last_free` is 0 unless a clear bit is found from `j` on
      let free ← bitmap.findClear (m.bitmapEntryCnt - f.j) f.j
      .ok (some f.allocBase, { m with bitmap := bitmap, lastFree := free.getD 0 })

/-- `pmm_module_free`; `base` is the offset from the start of the module. -/
def pmmModuleFree (fayt : Fayt) (m : PmmModule) (base cnt : ℕ) : Exec PmmModule := do
  let start := fayt.divRoundup base pageSize
  let bitmap ← m.bitmap.putRange false (u64 (start + cnt) - start) start
  .ok { m with bitmap := bitmap }

/-! ### The loops -/

section Search

variable {bm : Bitmap} {cnt align : ℕ}

/-- The inner loop over a nonempty range inside the bitmap either meets a set
bit or ends at the last position with every bit clear. -/
theorem probe_spec (bm : Bitmap) {n j count : ℕ} (hn : 0 < n) (hc : count + n = cnt)
    (hsize : j + n ≤ bm.size) :
    (probe bm cnt n j count = .ok .taken ∧ ∃ k, j ≤ k ∧ k < j + n ∧ bm.bits k = true) ∨
    (probe bm cnt n j count = .ok (.clear (j + n - 1) cnt) ∧
      ∀ k, j ≤ k → k < j + n → bm.bits k = false) := by
  induction n generalizing j count with
  | zero => omega
  | succ n ih =>
      rw [probe, Bitmap.test_of_lt (by omega), Exec.ok_bind]
      cases hb : bm.bits j with
      | true => exact .inl ⟨by simp, j, le_refl _, by omega, hb⟩
      | false =>
          by_cases hlast : count + 1 = cnt
          · -- `++count == cnt` holds exactly in the last round
            have hn0 : n = 0 := by omega
            subst hn0
            refine .inr ⟨by simp [hlast], fun k h1 h2 => ?_⟩
            rw [show k = j by omega, hb]
          · simp only [Bool.false_eq_true, if_false, if_neg hlast]
            rcases @ih (j + 1) (count + 1) (by omega) (by omega) (by omega) with
              ⟨heq, k, h1, h2, hk⟩ | ⟨heq, hclear⟩
            · exact .inl ⟨heq, k, by omega, by omega, hk⟩
            · refine .inr ⟨by rw [heq]; congr 2; omega, fun k h1 h2 => ?_⟩
              by_cases hkj : k = j
              · rw [hkj, hb]
              · exact hclear k (by omega) (by omega)

/-- With `cnt = 0`, or more pages than the module has, the search ends without
a result.  This covers every `cnt` for which `i + cnt` wraps. -/
theorem search_none (hcnt : cnt = 0 ∨ bm.size < cnt) (hc64 : cnt < 2 ^ 64)
    (ha : 0 < align) (hs : bm.size + align < 2 ^ 64) {fuel i allocBase : ℕ}
    (hfuel : bm.size ≤ fuel + i) :
    search bm cnt align fuel i allocBase = .ok none := by
  induction fuel generalizing i allocBase with
  | zero => rw [search, if_neg (by omega)]
  | succ fuel ih =>
      rw [search]
      by_cases hi : i < bm.size
      · rw [if_pos hi]
        by_cases hshort : bm.size < u64 (i + cnt)
        · rw [if_pos hshort]
        · -- `i + cnt` is `i` or has wrapped below `i`: no iteration
          have hzero : u64 (i + cnt) - i = 0 := by
            unfold u64 at hshort ⊢
            omega
          rw [if_neg hshort, hzero, probe, Exec.ok_bind]
          refine ih ?_
          rw [u64_of_lt (by omega)]
          omega
      · rw [if_neg hi]

/-- For a possible `cnt` the two loop variables stay in step: what the search
finds is a clear range inside the module whose address is the aligned
`allocBase`. -/
theorem search_spec (base : ℕ) (hcnt : 0 < cnt) (hle : cnt ≤ bm.size)
    (ha : 0 < align) (hs : base + bm.size * pageSize + align * pageSize < 2 ^ 64)
    {fuel i allocBase : ℕ} (hfuel : bm.size ≤ fuel + i)
    (hstep : allocBase = base + i * pageSize) (hdvd : align * pageSize ∣ allocBase) :
    ∃ r, search bm cnt align fuel i allocBase = .ok r ∧
      ∀ f, r = some f → f.allocBase = base + f.i * pageSize ∧
        align * pageSize ∣ f.allocBase ∧ f.i + cnt ≤ bm.size ∧
        f.j = f.i + cnt - 1 ∧ f.count = cnt ∧
        ∀ k, f.i ≤ k → k < f.i + cnt → bm.bits k = false := by
  have hsz : bm.size + align < 2 ^ 64 := by
    simp only [pageSize] at hs
    omega
  induction fuel generalizing i allocBase with
  | zero => exact ⟨none, by rw [search, if_neg (by omega)], by simp⟩
  | succ fuel ih =>
      rw [search]
      by_cases hi : i < bm.size
      · have hu : u64 (i + cnt) = i + cnt := by
          refine u64_of_lt ?_
          simp only [pageSize] at hs
          omega
        rw [if_pos hi, hu]
        by_cases hshort : bm.size < i + cnt
        · exact ⟨none, by rw [if_pos hshort], by simp⟩
        · rw [if_neg hshort, show i + cnt - i = cnt by omega]
          rcases probe_spec bm (j := i) hcnt (zero_add cnt) (by omega) with
            ⟨heq, -⟩ | ⟨heq, hclear⟩
          · rw [heq, Exec.ok_bind]
            have hi' : u64 (i + align) = i + align := u64_of_lt (by omega)
            have hw : u64 (align * pageSize) = align * pageSize := u64_of_lt (by omega)
            have hb' : u64 (allocBase + align * pageSize) = allocBase + align * pageSize := by
              have := Nat.mul_le_mul_right pageSize hi.le
              exact u64_of_lt (by omega)
            simp only [hi', hw, hb']
            exact ih (by omega) (by rw [hstep, Nat.add_mul]; omega)
              (Nat.dvd_add hdvd (dvd_refl _))
          · rw [heq, Exec.ok_bind]
            refine ⟨_, rfl, ?_⟩
            rintro f ⟨⟩
            exact ⟨hstep, hdvd, not_lt.mp hshort, rfl, rfl, hclear⟩
      · exact ⟨none, by rw [if_neg hi], by simp⟩

end Search

/-! ### One call -/

namespace PmmModule

/-- What every module state satisfies: the range starts on a page, and the
hint is a bit index or the end of the bitmap. -/
structure Wf (m : PmmModule) : Prop where
  aligned : pageSize ∣ m.base
  lastFree_le : m.lastFree ≤ m.bitmap.size

/-- The alignments `pmm_module_alloc` is called with: at least one page, and
small enough that rounding up past the end of the range stays a 64-bit
address. -/
def Fits (m : PmmModule) (align : ℕ) : Prop :=
  0 < align ∧ m.base + m.bitmap.size * pageSize + align * pageSize < 2 ^ 64

instance (m : PmmModule) (align : ℕ) : Decidable (m.Fits align) :=
  inferInstanceAs (Decidable (_ ∧ _))

theorem Fits.one {m : PmmModule} {align : ℕ} (h : m.Fits align) : m.Fits 1 := by
  obtain ⟨hpos, hfit⟩ := h
  have := Nat.mul_le_mul_right pageSize (Nat.succ_le_of_lt hpos)
  exact ⟨one_pos, by omega⟩

theorem frames_first (m : PmmModule) : m.frames.first = m.base / pageSize := rfl

theorem frames_len (m : PmmModule) : m.frames.len = m.bitmap.size := rfl

/-- The module with a range of bits set or cleared and another hint. -/
def update (m : PmmModule) (i n : ℕ) (v : Bool) (hint : ℕ) : PmmModule :=
  { m with bitmap := m.bitmap.fill i n v, lastFree := hint }

@[simp] theorem update_base (m : PmmModule) (i n : ℕ) (v : Bool) (hint : ℕ) :
    (m.update i n v hint).base = m.base := rfl

@[simp] theorem update_bitmap (m : PmmModule) (i n : ℕ) (v : Bool) (hint : ℕ) :
    (m.update i n v hint).bitmap = m.bitmap.fill i n v := rfl

@[simp] theorem update_frames (m : PmmModule) (i n : ℕ) (v : Bool) (hint : ℕ) :
    (m.update i n v hint).frames = m.frames := rfl

/-- Frame `i` of the module starts at the address the allocator returns. -/
theorem div_page (m : PmmModule) (i : ℕ) :
    (m.base + i * pageSize) / pageSize = m.base / pageSize + i :=
  Nat.add_mul_div_right _ _ (by simp)

theorem Wf.base_eq {m : PmmModule} (h : m.Wf) : m.base / pageSize * pageSize = m.base :=
  Nat.div_mul_cancel h.aligned

theorem Wf.update {m : PmmModule} (h : m.Wf) {i n hint : ℕ} {v : Bool}
    (hh : hint ≤ m.bitmap.size) : (m.update i n v hint).Wf :=
  ⟨h.aligned, hh⟩

end PmmModule

variable (fayt : Fayt)

/-- The first address the search looks at is the aligned address of its first
bit index. -/
theorem pmmModuleAlloc_start {m : PmmModule} (hm : m.Wf) {align : ℕ} (ha : m.Fits align) :
    ∃ i, fayt.alignUp (u64 (m.base + u64 (m.lastFree * pageSize))) (u64 (align * pageSize))
        = m.base + i * pageSize ∧
      align * pageSize ∣ m.base + i * pageSize ∧ m.base + i * pageSize < 2 ^ 64 := by
  obtain ⟨hpos, hfit⟩ := ha
  obtain ⟨b, hb⟩ := hm.aligned
  have hlf : m.lastFree * pageSize ≤ m.bitmap.size * pageSize :=
    Nat.mul_le_mul_right _ hm.lastFree_le
  rw [u64_of_lt (x := m.lastFree * pageSize) (by omega), u64_of_lt (by omega),
    u64_of_lt (by omega)]
  obtain ⟨hdvd, hle, hlt⟩ := fayt.alignUp_spec (x := m.base + m.lastFree * pageSize)
    (a := align * pageSize) (Nat.mul_pos hpos pageSize_pos) (by omega)
  generalize fayt.alignUp (m.base + m.lastFree * pageSize) (align * pageSize) = y at *
  obtain ⟨c, hc⟩ := (dvd_mul_left pageSize align).trans hdvd
  have hy : y = m.base + (c - b) * pageSize := by
    simp only [pageSize] at *
    omega
  exact ⟨c - b, hy, hy ▸ hdvd, by omega⟩

/-- **`pmm_module_alloc` returns.**  A result -1 leaves the module as it was; an
address comes with the clear range of the bitmap that it stands for. -/
theorem pmmModuleAlloc_spec {m : PmmModule} (hm : m.Wf) {cnt align : ℕ}
    (hcnt : cnt < 2 ^ 64) (ha : m.Fits align) :
    pmmModuleAlloc fayt m cnt align = .ok (none, m) ∨
    ∃ i hint, pmmModuleAlloc fayt m cnt align
        = .ok (some (m.base + i * pageSize), m.update i cnt true hint) ∧
      align * pageSize ∣ m.base + i * pageSize ∧ 0 < cnt ∧ i + cnt ≤ m.bitmap.size ∧
      (∀ k, i ≤ k → k < i + cnt → m.bitmap.bits k = false) ∧ hint ≤ m.bitmap.size := by
  obtain ⟨i₀, hstart, hdvd, hlt⟩ := pmmModuleAlloc_start fayt hm ha
  obtain ⟨hpos, hfit⟩ := ha
  have hsz : m.bitmap.size + align < 2 ^ 64 := by
    simp only [pageSize] at hfit
    omega
  have hbit : usub (m.base + i₀ * pageSize) m.base / pageSize = i₀ := by
    rw [usub_of_le (by omega) hlt, Nat.add_sub_cancel_left, Nat.mul_div_cancel _ (by simp)]
  simp only [pmmModuleAlloc, PmmModule.bitmapEntryCnt, hstart, hbit]
  by_cases hpossible : 0 < cnt ∧ cnt ≤ m.bitmap.size
  · obtain ⟨r, hr, hfound⟩ := search_spec m.base hpossible.1 hpossible.2 hpos hfit
      (Nat.le_add_right m.bitmap.size i₀) rfl hdvd
    rw [hr, Exec.ok_bind]
    rcases r with - | f
    · exact .inl rfl
    · obtain ⟨hbase, hdvd', hin, hj, hcount, hclear⟩ := hfound f rfl
      have hrest : f.j + (m.bitmap.size - f.j) ≤ (m.bitmap.fill f.i cnt true).size := by
        simp only [Bitmap.fill_size]
        omega
      obtain ⟨z, hz, hzle⟩ := Bitmap.findClear_eq hrest
      refine .inr ⟨f.i, z.getD 0, ?_, hbase ▸ hdvd', hpossible.1, hin, hclear, ?_⟩
      · simp only [hcount, Bitmap.putRange_eq hin, Exec.ok_bind, hz, hbase]
        rfl
      · rcases z with - | z
        · exact Nat.zero_le _
        · have := hzle z rfl
          simp only [Option.getD_some]
          omega
  · left
    rw [search_none (by omega) hcnt hpos hsz (by omega)]
    rfl

/-- **`pmm_module_free` inside the module** clears exactly the range. -/
theorem pmmModuleFree_spec {m : PmmModule} {i cnt : ℕ} (hin : i + cnt ≤ m.bitmap.size)
    (hfit : m.bitmap.size * pageSize + pageSize ≤ 2 ^ 64) :
    pmmModuleFree fayt m (i * pageSize) cnt = .ok (m.update i cnt false m.lastFree) := by
  have hi : i * pageSize + pageSize ≤ 2 ^ 64 :=
    le_trans (Nat.add_le_add_right (Nat.mul_le_mul_right _ (by omega)) _) hfit
  have hsum : u64 (i + cnt) = i + cnt := u64_of_lt (by simp only [pageSize] at hfit; omega)
  simp only [pmmModuleFree, fayt.divRoundup_mul (by simp) hi, hsum, Nat.add_sub_cancel_left,
    Bitmap.putRange_eq hin, Exec.ok_bind]
  rfl

/-- A release that starts beyond the module's last page writes outside the
bitmap. -/
theorem pmmModuleFree_wild {m : PmmModule} {i cnt : ℕ} (hpos : 0 < cnt)
    (hi : m.bitmap.size ≤ i) (hfit : (i + cnt) * pageSize + pageSize ≤ 2 ^ 64) :
    pmmModuleFree fayt m (i * pageSize) cnt = .error .wild := by
  have hip : i * pageSize + pageSize ≤ 2 ^ 64 :=
    le_trans (Nat.add_le_add_right (Nat.mul_le_mul_right _ (by omega)) _) hfit
  have hsum : u64 (i + cnt) = i + cnt := u64_of_lt (by simp only [pageSize] at hfit; omega)
  have hout := Bitmap.putRange_wild (v := false) hpos (show m.bitmap.size < i + cnt by omega)
  simp only [pmmModuleFree, fayt.divRoundup_mul pageSize_pos hip, hsum,
    Nat.add_sub_cancel_left, hout]
  rfl

/-! ### Runs -/

/-- A module together with the blocks of frames that are allocated and not
freed yet. -/
structure ModuleState where
  module : PmmModule
  live : List Block

namespace ModuleState

/-- A fresh module: `last_free` 0 and a zero bitmap. -/
def init (m : PmmModule) : ModuleState :=
  ⟨{ m with lastFree := 0, bitmap := ⟨m.bitmap.size, fun _ => false⟩ }, []⟩

/-- The block an answer of the allocator stands for. -/
def grant (cnt : ℕ) (live : List Block) : Option ℕ → List Block
  | none => live
  | some a => ⟨a / pageSize, cnt⟩ :: live

/-- One call: an allocation of any size and any fitting alignment, or the
release of a live block by its own offset and size. -/
inductive Step : ModuleState → ModuleState → Prop
  | alloc {m m' : PmmModule} {live : List Block} {cnt align : ℕ} {r : Option ℕ} :
      cnt < 2 ^ 64 → m.Fits align → pmmModuleAlloc fayt m cnt align = .ok (r, m') →
      Step ⟨m, live⟩ ⟨m', grant cnt live r⟩
  | free {m m' : PmmModule} {live : List Block} {b : Block} :
      b ∈ live → pmmModuleFree fayt m (b.first * pageSize - m.base) b.len = .ok m' →
      Step ⟨m, live⟩ ⟨m', live.erase b⟩

/-- The invariant: the set bits are exactly the pages of the live blocks, which
are pairwise disjoint and inside the module's range.  Once a block is live the
range is known to end at least a page below the end of the address space. -/
structure Inv (s : ModuleState) : Prop where
  wf : s.module.Wf
  ledger : Ledger s.live
  tracks : s.module.bitmap.Tracks (s.module.base / pageSize) s.live
  inside : ∀ b ∈ s.live, b.Within s.module.frames
  room : ∀ b ∈ s.live, s.module.Fits 1

variable {fayt}

theorem inv_init {m : PmmModule} (hbase : pageSize ∣ m.base) : (init m).Inv where
  wf := ⟨hbase, Nat.zero_le _⟩
  ledger := Ledger.nil
  tracks := Bitmap.tracks_nil _ _
  inside := by simp [init]
  room := by simp [init]

/-- An allocation keeps the invariant. -/
theorem Inv.alloc {m m' : PmmModule} {live : List Block} (h : Inv ⟨m, live⟩)
    {cnt align : ℕ} {r : Option ℕ} (hcnt : cnt < 2 ^ 64) (ha : m.Fits align)
    (hr : pmmModuleAlloc fayt m cnt align = .ok (r, m')) :
    Inv ⟨m', grant cnt live r⟩ := by
  rcases pmmModuleAlloc_spec fayt h.wf hcnt ha with
    heq | ⟨i, hint, heq, -, hpos, hin, hclear, hle⟩
  · obtain ⟨rfl, rfl⟩ : r = none ∧ m' = m := by
      rw [heq] at hr
      cases hr
      exact ⟨rfl, rfl⟩
    exact h
  · obtain ⟨rfl, rfl⟩ : r = some (m.base + i * pageSize) ∧ m' = m.update i cnt true hint := by
      rw [heq] at hr
      cases hr
      exact ⟨rfl, rfl⟩
    have hblock : (m.base + i * pageSize) / pageSize = m.base / pageSize + i := m.div_page i
    simp only [grant, hblock]
    refine ⟨h.wf.update hle, h.ledger.cons hpos fun c hc => ?_, h.tracks.enter i cnt, ?_, ?_⟩
    · exact h.tracks.apart_of_clear hin hclear hc
    · simp only [List.mem_cons, forall_eq_or_imp, PmmModule.update_frames]
      exact ⟨⟨Nat.le_add_right _ _, by
        rw [PmmModule.frames_first, PmmModule.frames_len, Nat.add_assoc]
        exact Nat.add_le_add_left hin _⟩, h.inside⟩
    · exact fun _ _ => ha.one

/-- A live block starts at a bit of the module, and its offset is that bit's. -/
theorem Inv.offset {m : PmmModule} {live : List Block} (h : Inv ⟨m, live⟩) {b : Block}
    (hb : b ∈ live) :
    ∃ i, b.first = m.base / pageSize + i ∧ i + b.len ≤ m.bitmap.size ∧
      b.first * pageSize - m.base = i * pageSize := by
  obtain ⟨h1, h2⟩ := h.inside b hb
  simp only [PmmModule.frames_first, PmmModule.frames_len] at h1 h2
  obtain ⟨i, hi⟩ := Nat.exists_eq_add_of_le h1
  refine ⟨i, hi, ?_, ?_⟩
  · rw [hi, Nat.add_assoc] at h2
    exact Nat.le_of_add_le_add_left h2
  · rw [hi, Nat.add_mul, h.wf.base_eq, Nat.add_sub_cancel_left]

theorem Inv.free_eq (fayt : Fayt) {m : PmmModule} {live : List Block} (h : Inv ⟨m, live⟩)
    {b : Block} (hb : b ∈ live) :
    ∃ i, b.first = m.base / pageSize + i ∧ i + b.len ≤ m.bitmap.size ∧
      pmmModuleFree fayt m (b.first * pageSize - m.base) b.len
        = .ok (m.update i b.len false m.lastFree) := by
  obtain ⟨i, hi, hin, hoff⟩ := h.offset hb
  refine ⟨i, hi, hin, ?_⟩
  have hfit : m.Fits 1 := h.room b hb
  rw [hoff]
  refine pmmModuleFree_spec fayt hin ?_
  have := hfit.2
  omega

/-- Freeing a live block keeps the invariant. -/
theorem Inv.free {m m' : PmmModule} {live : List Block} (h : Inv ⟨m, live⟩) {b : Block}
    (hb : b ∈ live)
    (hr : pmmModuleFree fayt m (b.first * pageSize - m.base) b.len = .ok m') :
    Inv ⟨m', live.erase b⟩ := by
  obtain ⟨i, hi, hin, heq⟩ := h.free_eq fayt hb
  obtain rfl : m' = m.update i b.len false m.lastFree := by
    rw [heq] at hr
    cases hr
    rfl
  have hbe : b = ⟨m.base / pageSize + i, b.len⟩ := by rw [← hi]
  have hsub : ∀ c ∈ live.erase b, c ∈ live := fun c hc => List.mem_of_mem_erase hc
  refine ⟨h.wf.update h.wf.lastFree_le, h.ledger.erase b, ?_, ?_, ?_⟩
  · rw [hbe] at hb ⊢
    exact h.tracks.strike h.ledger hb
  · exact fun c hc => h.inside c (hsub c hc)
  · exact fun c hc => h.room c (hsub c hc)

theorem Inv.step {s s' : ModuleState} (h : s.Inv) (hs : Step fayt s s') : s'.Inv := by
  cases hs with
  | alloc hcnt ha hr => exact h.alloc hcnt ha hr
  | free hb hr => exact h.free hb hr

/-- What is promised at every point of a run.  A call that returns has touched
no bit outside the bitmap, since such an access is a fault. -/
structure Safe (fayt : Fayt) (s : ModuleState) : Prop where
  /-- The set bits are exactly the pages of the live blocks. -/
  bits_iff : ∀ k < s.module.bitmapEntryCnt, s.module.bitmap.bits k = true ↔
    ∃ b ∈ s.live, b.Has (s.module.base / pageSize + k)
  disjoint : s.live.Pairwise Block.Apart
  inside : ∀ b ∈ s.live, s.module.base ≤ b.first * pageSize ∧
    (b.first + b.len) * pageSize ≤ s.module.base + s.module.bitmapEntryCnt * pageSize
  /-- Every allocation returns; -1 changes nothing, and an address is aligned
  and stands for the first of the `cnt` bits that were set for it. -/
  alloc : ∀ cnt align, cnt < 2 ^ 64 → s.module.Fits align →
    ∃ r m', pmmModuleAlloc fayt s.module cnt align = .ok (r, m') ∧
      (r = none → m'.bitmap = s.module.bitmap ∧ m'.lastFree = s.module.lastFree) ∧
      ∀ a, r = some a → align * pageSize ∣ a ∧ ∃ i, a = s.module.base + pageSize * i ∧
        ∀ k, (s.module.bitmap.bits k = false ∧ m'.bitmap.bits k = true) ↔
          i ≤ k ∧ k < i + cnt
  /-- Every live block can be freed. -/
  free : ∀ b ∈ s.live, ∃ m',
    pmmModuleFree fayt s.module (b.first * pageSize - s.module.base) b.len = .ok m'

theorem Inv.safe {s : ModuleState} (h : s.Inv) : s.Safe fayt where
  bits_iff := h.tracks
  disjoint := h.ledger.apart
  inside := by
    intro b hb
    obtain ⟨h1, h2⟩ := h.inside b hb
    have hbase := h.wf.base_eq
    simp only [PmmModule.frames_first, PmmModule.frames_len] at h1 h2
    have h1' := Nat.mul_le_mul_right pageSize h1
    have h2' := Nat.mul_le_mul_right pageSize h2
    rw [Nat.add_mul (s.module.base / pageSize), hbase] at h2'
    exact ⟨by omega, h2'⟩
  alloc := by
    intro cnt align hcnt ha
    rcases pmmModuleAlloc_spec fayt h.wf hcnt ha with
      heq | ⟨i, hint, heq, hdvd, hpos, hin, hclear, hle⟩
    · exact ⟨none, _, heq, fun _ => ⟨rfl, rfl⟩, by simp⟩
    · refine ⟨_, _, heq, by simp, ?_⟩
      rintro a ⟨⟩
      refine ⟨hdvd, i, by rw [mul_comm], fun k => ?_⟩
      rw [PmmModule.update_bitmap, Bitmap.fill_bits]
      by_cases hk : i ≤ k ∧ k < i + cnt
      · simp [hk, hclear k hk.1 hk.2]
      · simp only [hk, iff_false]
        rintro ⟨h0, h1⟩
        rw [h0] at h1
        cases h1
  free := by
    intro b hb
    obtain ⟨i, -, -, heq⟩ := h.free_eq fayt hb
    exact ⟨_, heq⟩

end ModuleState

open ModuleState in
/-- **The allocator invariant of one module.**  From a fresh module on a
page-aligned base, every run of allocations and releases keeps every promise
of `ModuleState.Safe`. -/
theorem pmmModule_run_safe {m : PmmModule} (hbase : pageSize ∣ m.base) {s : ModuleState}
    (h : Run (Step fayt) (init m) s) : s.Safe fayt :=
  (Run.invariant (fun _ _ hi hs => hi.step hs) (inv_init hbase) h).safe

/-- A module of four pages at 1 MiB, before its first allocation. -/
def fourPages : PmmModule :=
  ⟨0, 0, ⟨0x100000, 0x4000, .usable⟩, 1, 0, 0, ⟨4, fun _ => false⟩⟩

open ModuleState in
/-- Two pages of the four, aligned to two pages. -/
theorem pmmModule_run_safe_fourPages :
    pageSize ∣ fourPages.base ∧
    ∃ s, Run (Step .textbook) (init fourPages) s ∧ s.live = [⟨0x100, 2⟩] ∧
      s.Safe .textbook := by
  have hret : (pmmModuleAlloc .textbook (init fourPages).module 2 2).map Prod.fst
      = .ok (some 0x100000) := by decide +kernel
  rcases hcall : pmmModuleAlloc .textbook (init fourPages).module 2 2 with e | ⟨r, m⟩
  · simp [hcall, Except.map] at hret
  · obtain rfl : r = some 0x100000 := by simpa [hcall, Except.map] using hret
    have hstep := @Step.alloc _ _ _ [] _ _ _ (by decide) (by decide +kernel) hcall
    exact ⟨by decide, _, .single hstep, by simp [grant, pageSize],
      pmmModule_run_safe .textbook (by decide) (.single hstep)⟩

end Rock
