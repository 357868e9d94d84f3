/-
Rock/PmmHint.lean

When `pmm_alloc` misses free memory.

`pmm_module_alloc` starts its search at the hint `last_free` and does not wrap around.  An
allocation recomputes the hint, as the first free page behind the new block, and a release
leaves it alone; so free pages lie below it: those that are released, and those that an
alignment has skipped.  From the hint on the search is complete (`search_eq_none_iff`).

Main result: in every state of the allocator, over any modules, a request is refused without
need exactly if there are pages for it, but in no module at or above the hint
(`pmmAlloc_complete_iff`).
-/
import Rock.Pmm

namespace Rock

/-! ### The search of one module -/

/-- There are `cnt` free pages in a row from page `i` of the module on, at an address that is
a multiple of `align * PAGE_SIZE`. -/
structure PmmModule.Vacant (m : PmmModule) (cnt align i : ℕ) : Prop where
  aligned : align * pageSize ∣ m.base + i * pageSize
  fits : i + cnt ≤ m.bitmap.size
  free : ∀ k, i ≤ k → k < i + cnt → m.bitmap.bits k = false

theorem PmmModule.not_vacant {m : PmmModule} {cnt align i : ℕ} (h : m.bitmap.size < i + cnt) :
    ¬ m.Vacant cnt align i :=
  fun hv => absurd hv.fits (not_le.mpr h)

/-- A multiple that is less than one step above another one is not above it. -/
theorem le_of_dvd_of_lt_add {a y z : ℕ} (hy : a ∣ y) (hz : a ∣ z) (h : z < y + a) : z ≤ y := by
  by_contra hlt
  have hle : a ≤ z - y := Nat.le_of_dvd (by omega) (Nat.dvd_sub hz hy)
  omega

/-- Between an aligned index and the next one there is no room. -/
theorem PmmModule.Vacant.eq_of_lt {m : PmmModule} {cnt align i x : ℕ} (h : m.Vacant cnt align x)
    (hi : align * pageSize ∣ m.base + i * pageSize) (hle : i ≤ x) (hlt : x < i + align) :
    x = i := by
  have hback : m.base + x * pageSize ≤ m.base + i * pageSize := by
    refine le_of_dvd_of_lt_add hi h.aligned ?_
    have hmul := Nat.mul_lt_mul_of_pos_right hlt pageSize_pos
    rw [Nat.add_mul] at hmul
    omega
  simp only [pageSize] at hback
  omega

/-- The search looks at every aligned index from its first one on. -/
theorem search_eq_none_iff (m : PmmModule) {cnt align : ℕ} (hcnt : 0 < cnt)
    (hle : cnt ≤ m.bitmap.size) (ha : m.Fits align) {fuel i allocBase : ℕ}
    (hfuel : m.bitmap.size ≤ fuel + i) (hstep : allocBase = m.base + i * pageSize)
    (hdvd : align * pageSize ∣ allocBase) :
    search m.bitmap cnt align fuel i allocBase = .ok none ↔
      ∀ i', i ≤ i' → ¬ m.Vacant cnt align i' := by
  obtain ⟨hpos, hfit⟩ := ha
  induction fuel generalizing i allocBase with
  | zero =>
      rw [search, if_neg (by omega)]
      exact iff_of_true rfl fun i' hi' => m.not_vacant (by omega)
  | succ fuel ih =>
      rw [search]
      by_cases hi : i < m.bitmap.size
      · have hu : u64 (i + cnt) = i + cnt := by
          refine u64_of_lt ?_
          simp only [pageSize] at hfit
          omega
        rw [if_pos hi, hu]
        by_cases hshort : m.bitmap.size < i + cnt
        · rw [if_pos hshort]
          exact iff_of_true rfl fun i' hi' => m.not_vacant (by omega)
        rw [if_neg hshort, Nat.add_sub_cancel_left]
        rcases probe_spec m.bitmap (j := i) hcnt (zero_add cnt) (not_lt.mp hshort) with
          ⟨heq, k, hk, hk', hset⟩ | ⟨heq, hclear⟩
        · -- a page of the range is taken: the next index is the next aligned one
          have hi' : u64 (i + align) = i + align := by
            refine u64_of_lt ?_
            simp only [pageSize] at hfit
            omega
          have hw : u64 (align * pageSize) = align * pageSize := u64_of_lt (by omega)
          have hb' : u64 (allocBase + align * pageSize) = allocBase + align * pageSize := by
            have := Nat.mul_le_mul_right pageSize hi.le
            exact u64_of_lt (by omega)
          rw [heq, Exec.ok_bind]
          dsimp only
          rw [hi', hw, hb', ih (by omega) (by rw [hstep, Nat.add_mul]; omega)
            (Nat.dvd_add hdvd (dvd_refl _))]
          refine ⟨fun h x hx hv => ?_, fun h x hx => h x (by omega)⟩
          rcases Nat.lt_or_ge x (i + align) with hlt | hge
          · have hx' : x = i := hv.eq_of_lt (hstep ▸ hdvd) hx hlt
            subst hx'
            rw [hv.free k hk hk'] at hset
            cases hset
          · exact h x hge hv
        · rw [heq, Exec.ok_bind]
          refine iff_of_false (fun hc => by cases hc) fun h => ?_
          exact h i le_rfl ⟨hstep ▸ hdvd, not_lt.mp hshort, hclear⟩
      · rw [if_neg hi]
        exact iff_of_true rfl fun i' hi' => m.not_vacant (by omega)

variable (fayt : Fayt)

/-- The first aligned index is the least one at or above the hint. -/
theorem pmmModuleAlloc_start_le {m : PmmModule} (hm : m.Wf) {align i : ℕ} (ha : m.Fits align)
    (hstart : fayt.alignUp (u64 (m.base + u64 (m.lastFree * pageSize))) (u64 (align * pageSize))
      = m.base + i * pageSize) {i' : ℕ} (hi' : align * pageSize ∣ m.base + i' * pageSize) :
    m.lastFree ≤ i' ↔ i ≤ i' := by
  obtain ⟨hpos, hfit⟩ := ha
  have hlf : m.lastFree * pageSize ≤ m.bitmap.size * pageSize :=
    Nat.mul_le_mul_right _ hm.lastFree_le
  rw [u64_of_lt (x := m.lastFree * pageSize) (by omega), u64_of_lt (by omega),
    u64_of_lt (by omega)] at hstart
  obtain ⟨hdvd, hle, hlt⟩ := fayt.alignUp_spec (x := m.base + m.lastFree * pageSize)
    (a := align * pageSize) (Nat.mul_pos hpos pageSize_pos) (by omega)
  rw [hstart] at hdvd hle hlt
  constructor
  · intro h
    have hback := le_of_dvd_of_lt_add hi' hdvd (hlt.trans_le (Nat.add_le_add_right
      (Nat.add_le_add_left (Nat.mul_le_mul_right pageSize h) m.base) _))
    exact Nat.le_of_mul_le_mul_right (Nat.le_of_add_le_add_left hback) pageSize_pos
  · intro h
    have hhint : m.lastFree ≤ i :=
      Nat.le_of_mul_le_mul_right (Nat.le_of_add_le_add_left hle) pageSize_pos
    exact hhint.trans h

/-- What a module answers is what its search has found. -/
theorem pmmModuleAlloc_none_iff_search {m : PmmModule} {cnt align i : ℕ} (hlt : m.base
      + i * pageSize < 2 ^ 64)
    (hstart : fayt.alignUp (u64 (m.base + u64 (m.lastFree * pageSize))) (u64 (align * pageSize))
      = m.base + i * pageSize) :
    pmmModuleAlloc fayt m cnt align = .ok (none, m) ↔
      search m.bitmap cnt align m.bitmap.size i (m.base + i * pageSize) = .ok none := by
  have hbit : usub (m.base + i * pageSize) m.base / pageSize = i := by
    rw [usub_of_le (by omega) hlt, Nat.add_sub_cancel_left, Nat.mul_div_cancel _ (by simp)]
  simp only [pmmModuleAlloc, PmmModule.bitmapEntryCnt, hstart, hbit]
  constructor
  · intro h
    obtain ⟨r, hr, h⟩ := Exec.bind_eq_ok.mp h
    rcases r with - | f
    · exact hr
    · obtain ⟨bm, -, h⟩ := Exec.bind_eq_ok.mp h
      obtain ⟨free, -, h⟩ := Exec.bind_eq_ok.mp h
      cases h
  · intro h
    rw [h, Exec.ok_bind]

/-- **A module refuses a request exactly if it has no room at or above its hint.** -/
theorem pmmModuleAlloc_none_iff {m : PmmModule} (hm : m.Wf) {cnt align : ℕ} (hcnt : 0 < cnt)
    (hc64 : cnt < 2 ^ 64) (ha : m.Fits align) :
    pmmModuleAlloc fayt m cnt align = .ok (none, m) ↔
      ∀ i, m.lastFree ≤ i → ¬ m.Vacant cnt align i := by
  obtain ⟨i₀, hstart, hdvd, hlt⟩ := pmmModuleAlloc_start fayt hm ha
  rw [pmmModuleAlloc_none_iff_search fayt hlt hstart]
  have hfrom : (∀ i, m.lastFree ≤ i → ¬ m.Vacant cnt align i) ↔
      ∀ i, i₀ ≤ i → ¬ m.Vacant cnt align i :=
    forall_congr' fun i => ⟨fun h hi hv => h ((pmmModuleAlloc_start_le fayt hm ha hstart
      hv.aligned).mpr hi) hv, fun h hi hv => h ((pmmModuleAlloc_start_le fayt hm ha hstart
      hv.aligned).mp hi) hv⟩
  rw [hfrom]
  by_cases hle : cnt ≤ m.bitmap.size
  · exact search_eq_none_iff m hcnt hle ha (Nat.le_add_right _ _) rfl hdvd
  · have hsz : m.bitmap.size + align < 2 ^ 64 := by
      have := ha.2
      simp only [pageSize] at this
      omega
    exact iff_of_true (search_none (.inr (not_le.mp hle)) hc64 ha.1 hsz (by omega))
      fun i _ => m.not_vacant (by omega)

/-! ### The list of modules -/

/-- **`pmm_alloc` answers -1 exactly if no module has room at or above its hint.** -/
theorem pmmAllocFrom_none_iff {ms : List PmmModule} (hwf : ∀ m ∈ ms, m.Wf) {cnt align : ℕ}
    (hcnt : 0 < cnt) (hc64 : cnt < 2 ^ 64) (ha : ∀ m ∈ ms, m.Fits align) :
    pmmAllocFrom fayt ms cnt align = .ok (none, ms) ↔
      ∀ m ∈ ms, ∀ i, m.lastFree ≤ i → ¬ m.Vacant cnt align i := by
  induction ms with
  | nil => exact iff_of_true rfl nofun
  | cons m rest ih =>
      rw [List.forall_mem_cons] at hwf ha ⊢
      rw [← pmmModuleAlloc_none_iff fayt hwf.1 hcnt hc64 ha.1, ← ih hwf.2 ha.2, pmmAllocFrom]
      rcases pmmModuleAlloc_spec fayt hwf.1 hc64 ha.1 with heq | ⟨i, hint, heq, -⟩
      · rcases pmmAllocFrom_spec fayt hwf.2 hc64 ha.2 with
          hrest | ⟨before, m₁, after, i, hint, -, hrest, -⟩
        · simp [heq, hrest]
        · simp [heq, hrest]
      · simp [heq]

namespace PmmState

/-- **The answer -1 is justified**: it is given only if no module has `cnt` free pages in a
row at a multiple of `align * PAGE_SIZE`. -/
def Complete (s : PmmState) (cnt align : ℕ) : Prop :=
  ∀ p', pmmAlloc fayt s.pmm cnt align = .ok (none, p') →
    ∀ m ∈ s.pmm.modules, ∀ i, ¬ m.Vacant cnt align i

/-- If there is room for the request at all, there is room at or above the hint of some
module. -/
def Hinted (s : PmmState) (cnt align : ℕ) : Prop :=
  (∃ m ∈ s.pmm.modules, ∃ i, m.Vacant cnt align i) →
    ∃ m ∈ s.pmm.modules, ∃ i, m.lastFree ≤ i ∧ m.Vacant cnt align i

variable {fayt}

theorem pmmAlloc_none_iff {p : Pmm} (hwf : ∀ m ∈ p.modules, m.Wf) {cnt align : ℕ}
    (hcnt : 0 < cnt) (hc64 : cnt < 2 ^ 64) (ha : ∀ m ∈ p.modules, m.Fits align)
    (hne : p.modules ≠ []) :
    (∃ p', pmmAlloc fayt p cnt align = .ok (none, p')) ↔
      ∀ m ∈ p.modules, ∀ i, m.lastFree ≤ i → ¬ m.Vacant cnt align i := by
  obtain ⟨ms, mem⟩ := p
  rw [← pmmAllocFrom_none_iff fayt hwf hcnt hc64 ha]
  rcases ms with - | ⟨m₀, rest⟩
  · exact absurd rfl hne
  simp only [pmmAlloc]
  rcases pmmAllocFrom_spec fayt hwf hc64 ha with heq | ⟨before, m, after, i, hint, -, heq, -⟩
  · exact iff_of_true ⟨_, by rw [heq, Exec.ok_bind]⟩ heq
  · rw [heq]
    exact iff_of_false (by rintro ⟨p', h⟩; cases h) (fun hc => by cases hc)

theorem complete_iff {s : PmmState} (hwf : ∀ m ∈ s.pmm.modules, m.Wf) {cnt align : ℕ}
    (hcnt : 0 < cnt) (hc64 : cnt < 2 ^ 64) (ha : ∀ m ∈ s.pmm.modules, m.Fits align) :
    s.Complete fayt cnt align ↔ s.Hinted cnt align := by
  constructor
  · rintro h ⟨m, hm, i, hv⟩
    by_contra hnone
    push Not at hnone
    have hrefused : ∃ p', pmmAlloc fayt s.pmm cnt align = .ok (none, p') :=
      (pmmAlloc_none_iff hwf hcnt hc64 ha (List.ne_nil_of_mem hm)).mpr hnone
    obtain ⟨p', hp'⟩ := hrefused
    exact h p' hp' m hm i hv
  · intro h p' hp' m hm i hv
    obtain ⟨m₁, hm₁, i₁, hhint, hv₁⟩ := h ⟨m, hm, i, hv⟩
    exact (pmmAlloc_none_iff hwf hcnt hc64 ha (List.ne_nil_of_mem hm)).mp ⟨p', hp'⟩
      m₁ hm₁ i₁ hhint hv₁

/-! ### Runs -/

theorem putRange_size {v : Bool} {n i : ℕ} {bm bm' : Bitmap}
    (h : bm.putRange v n i = .ok bm') : bm'.size = bm.size := by
  by_cases hin : n = 0 ∨ i + n ≤ bm.size
  · rcases hin with rfl | hin
    · obtain rfl := Except.ok.inj h
      rfl
    · obtain rfl := Except.ok.inj ((Bitmap.putRange_eq hin).symm.trans h)
      rfl
  · push Not at hin
    cases (Bitmap.putRange_wild (Nat.pos_of_ne_zero hin.1) hin.2).symm.trans h

/-- A release changes bits only. -/
theorem pmmModuleFree_wf {m m' : PmmModule} {base cnt : ℕ} (hm : m.Wf)
    (h : pmmModuleFree fayt m base cnt = .ok m') : m'.Wf := by
  obtain ⟨bm, hbm, h⟩ := Exec.bind_eq_ok.mp h
  obtain rfl := Except.ok.inj h
  exact ⟨hm.aligned, (putRange_size hbm).symm ▸ hm.lastFree_le⟩

theorem pmmFreeFrom_wf {ms ms' : List PmmModule} {base cnt : ℕ} (hwf : ∀ m ∈ ms, m.Wf)
    (h : pmmFreeFrom fayt ms base cnt = .ok ms') : ∀ m ∈ ms', m.Wf := by
  induction ms generalizing ms' with
  | nil =>
      obtain rfl := Except.ok.inj h
      exact nofun
  | cons m rest ih =>
      rw [List.forall_mem_cons] at hwf
      rw [pmmFreeFrom] at h
      split_ifs at h with hacc
      · obtain ⟨m', hm', h⟩ := Exec.bind_eq_ok.mp h
        obtain rfl := Except.ok.inj h
        exact List.forall_mem_cons.mpr ⟨pmmModuleFree_wf hwf.1 hm', hwf.2⟩
      · obtain ⟨rest', hrest, h⟩ := Exec.bind_eq_ok.mp h
        obtain rfl := Except.ok.inj h
        exact List.forall_mem_cons.mpr ⟨hwf.1, ih hwf.2 hrest⟩

/-- Modules keep their shape, whichever blocks are live. -/
theorem Step.wf {s s' : PmmState} (hwf : ∀ m ∈ s.pmm.modules, m.Wf) (hs : Step fayt s s') :
    ∀ m ∈ s'.pmm.modules, m.Wf := by
  cases hs with
  | @alloc p p' live cnt align r hcnt ha hr =>
      obtain ⟨ms, mem⟩ := p
      rcases ms with - | ⟨m₀, rest⟩
      · cases hr
      simp only [pmmAlloc] at hr
      rcases pmmAllocFrom_spec fayt hwf hcnt ha with
        heq | ⟨before, m, after, i, hint, hms, heq, -, -, -, -, hle⟩
      · rw [heq] at hr
        obtain ⟨-, rfl⟩ : none = r ∧ _ = p' := by simpa using hr
        exact hwf
      · rw [heq] at hr
        obtain ⟨-, rfl⟩ : some (m.base + i * pageSize) = r ∧ _ = p' := by simpa using hr
        replace hms : m₀ :: rest = before ++ m :: after := hms
        rw [hms] at hwf
        exact forall_mem_replace (fun e he => hwf e (mem_around he))
          ((hwf m (by simp)).update hle)
  | @free p p' live b hb hr hfree =>
      obtain ⟨ms, mem⟩ := p
      rcases ms with - | ⟨m₀, rest⟩
      · cases hfree
      obtain ⟨ms', hms', h⟩ := Exec.bind_eq_ok.mp hfree
      obtain rfl := Except.ok.inj h
      exact pmmFreeFrom_wf hwf hms'

theorem init_wf {ms : List PmmModule} (mem : Mem) (hbase : ∀ m ∈ ms, pageSize ∣ m.base) :
    ∀ m ∈ (init ms mem).pmm.modules, m.Wf := by
  intro m hm
  obtain ⟨m, hmem, rfl⟩ := List.mem_map.mp hm
  exact ⟨hbase m hmem, Nat.zero_le _⟩

/-- Over disjoint modules, the free pages are those of no live block. -/
theorem Inv.vacant_iff {s : PmmState} (h : s.Inv) {m : PmmModule} (hm : m ∈ s.pmm.modules)
    {cnt align i : ℕ} :
    m.Vacant cnt align i ↔ align * pageSize ∣ m.base + i * pageSize ∧
      Block.Within ⟨m.base / pageSize + i, cnt⟩ m.frames ∧
      ∀ b ∈ s.live, Block.Apart ⟨m.base / pageSize + i, cnt⟩ b := by
  constructor
  · intro hv
    exact ⟨hv.aligned, within_frames hv.fits, fun b hb =>
      (h.tracks m hm).apart_of_clear hv.fits hv.free hb⟩
  · rintro ⟨haligned, hwithin, hapart⟩
    have hfits : i + cnt ≤ m.bitmap.size := by
      have hend := hwithin.2
      rw [PmmModule.frames_first, PmmModule.frames_len, Nat.add_assoc] at hend
      exact Nat.le_of_add_le_add_left hend
    refine ⟨haligned, hfits, fun k hk hk' => ?_⟩
    -- a set bit would be a page of a live block
    by_contra hset
    obtain ⟨b, hb, hhas⟩ := (h.tracks m hm k (by omega)).mp (Bool.eq_true_of_not_eq_false hset)
    exact hapart b hb _ ⟨⟨Nat.add_le_add_left hk _, by
      rw [Nat.add_assoc]
      exact Nat.add_lt_add_left hk' _⟩, hhas⟩

end PmmState

open PmmState in
/-- **When an allocation is refused without need.**  Over any modules, in every state reached
by allocations and routed releases: a request is refused only for want of room exactly if,
should there be room at all, some module has room at or above its hint. -/
theorem pmmAlloc_complete_iff {ms : List PmmModule} (mem : Mem)
    (hbase : ∀ m ∈ ms, pageSize ∣ m.base) {s : PmmState}
    (h : Run (Step fayt) (init ms mem) s) {cnt align : ℕ} (hcnt : 0 < cnt) (hc64 : cnt < 2 ^ 64)
    (ha : ∀ m ∈ s.pmm.modules, m.Fits align) :
    s.Complete fayt cnt align ↔ s.Hinted cnt align := by
  have hstep : ∀ s s' : PmmState, (∀ m ∈ s.pmm.modules, m.Wf) → Step fayt s s' →
      ∀ m ∈ s'.pmm.modules, m.Wf := fun _ _ => Step.wf
  exact complete_iff (Run.invariant hstep (init_wf mem hbase) h) hcnt hc64 ha

/-- A module of two pages at 1 MiB, with its bits and its hint. -/
def twoPages (bits : ℕ → Bool) (hint : ℕ) : PmmModule :=
  { pagesAt 0x100000 2 with bitmap := ⟨2, bits⟩, lastFree := hint }

open PmmState in
/-- After a first allocation, a request for two pages misses nothing: the second module has
them, at its hint. -/
theorem pmmAlloc_complete_first :
    ∃ s : PmmState, Run (Step .textbook) (init lowHigh .blank) s ∧ s.live = [⟨0x100, 1⟩] ∧
      s.Complete .textbook 2 1 := by
  let taken := Function.update (fun _ : ℕ => false) 0 true
  let s : PmmState := ⟨⟨[twoPages taken 1, pagesAt 0x200000 2], memset64 .blank 0x100000 0 512⟩,
    [⟨0x100, 1⟩]⟩
  have halloc : pmmAlloc .textbook (init lowHigh .blank).pmm 1 1 = .ok (some 0x100000, s.pmm) := rfl
  have hstep : Step .textbook (init lowHigh .blank) s :=
    @Step.alloc _ _ _ [] _ _ _ (by decide) (by decide +kernel) halloc
  refine ⟨s, .single hstep, rfl, (pmmAlloc_complete_iff .textbook .blank (by decide)
    (.single hstep) (by decide) (by decide) (by decide +kernel)).mpr fun _ => ?_⟩
  exact ⟨pagesAt 0x200000 2, List.mem_cons_of_mem _ List.mem_cons_self, 0, le_rfl, by decide,
    le_rfl, fun _ _ _ => rfl⟩

/-! ### A released page -/

open PmmState in
/-- **A request refused by an empty module.**  Of two pages the first is allocated and
released.  The hint stays at the second page, and a request for both is refused. -/
theorem pmmAlloc_refuses_released :
    ∃ s : PmmState, Run (Step .textbook) (init [pagesAt 0x100000 2] .blank) s ∧ s.live = [] ∧
      pmmAlloc .textbook s.pmm 2 1 = .ok (none, s.pmm) ∧
      (∃ m ∈ s.pmm.modules, m.Vacant 2 1 0) ∧ ¬ s.Complete .textbook 2 1 := by
  let taken := Function.update (fun _ : ℕ => false) 0 true
  let freed := (Bitmap.fill ⟨2, taken⟩ 0 1 false).bits
  let mem := memset64 .blank 0x100000 0 512
  have halloc : pmmAlloc .textbook (init [pagesAt 0x100000 2] .blank).pmm 1 1
      = .ok (some 0x100000, ⟨[twoPages taken 1], mem⟩) := rfl
  have hfree : pmmFree .textbook ⟨[twoPages taken 1], mem⟩ (0x100 * pageSize) 1
      = .ok ⟨[twoPages freed 1], mem⟩ := by
    have hoff : usub (0x100 * pageSize) (twoPages taken 1).base = 0 * pageSize := by decide
    have hmodule : pmmModuleFree .textbook (twoPages taken 1)
        (usub (0x100 * pageSize) (twoPages taken 1).base) 1 = .ok (twoPages freed 1) := by
      rw [hoff]
      exact pmmModuleFree_spec .textbook (by decide) (by decide)
    have hlist : pmmFreeFrom .textbook ([] ++ [twoPages taken 1]) (0x100 * pageSize) 1
        = .ok ([] ++ [twoPages freed 1]) :=
      pmmFreeFrom_append .textbook nofun (by decide) hmodule
    rw [List.nil_append] at hlist
    simp only [pmmFree, hlist, Exec.ok_bind, List.nil_append]
  have hrefused : pmmAlloc .textbook ⟨[twoPages freed 1], mem⟩ 2 1
      = .ok (none, ⟨[twoPages freed 1], mem⟩) := by
    have hlist : pmmAllocFrom .textbook [twoPages freed 1] 2 1
        = .ok (none, [twoPages freed 1]) := by
      rw [pmmAllocFrom_none_iff .textbook (List.forall_mem_singleton.mpr ⟨by decide, by decide⟩)
        (by decide) (by decide) (List.forall_mem_singleton.mpr (by decide)),
        List.forall_mem_singleton]
      -- two pages from the second one on are more than there are
      exact fun i hi => PmmModule.not_vacant (Nat.add_le_add_right hi 2)
    simp only [pmmAlloc, hlist, Exec.ok_bind]
  have hvacant : (twoPages freed 1).Vacant 2 1 0 := by
    refine ⟨by decide, le_rfl, fun k _ _ => ?_⟩
    rcases k with - | k <;> rfl
  have hmem : twoPages freed 1 ∈ [twoPages freed 1] := List.mem_singleton_self _
  have hfirst : Step .textbook (init [pagesAt 0x100000 2] .blank)
      ⟨⟨[twoPages taken 1], mem⟩, [⟨0x100, 1⟩]⟩ :=
    @Step.alloc _ _ _ [] _ _ _ (by decide) (by decide +kernel) halloc
  have hsecond : Step .textbook ⟨⟨[twoPages taken 1], mem⟩, [⟨0x100, 1⟩]⟩
      ⟨⟨[twoPages freed 1], mem⟩, []⟩ := by
    refine @Step.free _ _ _ [⟨0x100, 1⟩] ⟨0x100, 1⟩ (List.mem_singleton_self _) ?_ hfree
    -- there is no other module
    intro before m after hms _ e he
    rcases before with - | ⟨a, before⟩
    · cases he
    · simp at hms
  exact ⟨_, .tail (.single hfirst) hsecond, rfl, hrefused, ⟨_, hmem, hvacant⟩,
    fun h => h _ hrefused _ hmem 0 hvacant⟩

end Rock
