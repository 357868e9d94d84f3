/-
Rock/MapRange.lean

`vmm_map_range` and `vmm_unmap_range` (kernel/core/virtual.c).

Both are loops, over `map_page` and over `unmap_page`.  The first one advances by the size of
page that the flags ask for.  The second one advances by what `unmap_page` returns, and ends
where that is 0.

Main results, for tables of four levels.  Over every run of calls that maps no small page
where a large one is present: a free range that is mapped and unmapped again leaves all
translations as they were (`mapRange_undone`).  The two loops meet in the description of a
range all of whose pages are present, with one size.  For ranges that are not, the end of the
second loop is not the end of the range: `unmap_page` also returns 0 where a page table is
missing, and 2 MiB at an entry of the page directory that an unmapped large page has left.
`unmapRange_clears_iff` says which tables of small pages are unmapped as they should.
-/
import Rock.DirectMap
import Rock.PagingBackends
import Rock.Portal

namespace Rock

open TableTree

variable {σ : Type}

/-! ### The loops -/

/-- `pmm_alloc(1, 1)` and `pmm_alloc(1, 0x200)`, of one allocator. -/
structure PageSource (σ : Type) where
  small : FrameSource σ
  large : FrameSource σ
  live_large : large.Live = small.Live
  frame_large : ∀ {s f s'}, large.alloc s = some (f, s') → IsFrame .large f

/-- `cnt` calls of `map_page`, each with a page from the allocator. -/
def mapFrames (pager : Pager σ) (data : FrameSource σ) (pmlt flags step : Word) :
    ℕ → Word → Machine σ → Exec (Machine σ)
  | 0, _, m => .ok m
  | cnt + 1, vaddr, m => do
      let (paddr, m) := allocPage data m
      let (_, m) ← pager.mapPage m pmlt vaddr paddr flags
      mapFrames pager data pmlt flags step cnt (vaddr + step) m

/-- `vmm_map_range`. -/
def vmmMapRange (pager : Pager σ) (src : PageSource σ) (pmlt vaddr : Word) (cnt : ℕ)
    (flags : Word) (m : Machine σ) : Exec (Machine σ) :=
  if has flags flagPS then mapFrames pager src.large pmlt flags 0x200000 cnt vaddr m
  else mapFrames pager src.small pmlt flags 0x1000 cnt vaddr m

/-- `vmm_unmap_range`. -/
def vmmUnmapRange (pager : Pager σ) (pmlt : Word) : Word → ℕ → Machine σ → Machine σ
  | _, 0, m => m
  | vaddr, cnt + 1, m =>
      let (size, m) := pager.unmapPage m pmlt vaddr
      if size = 0 then m
      else vmmUnmapRange pager pmlt (vaddr + BitVec.ofNat 64 size) cnt m

/-- The page that `vmm_map_range` takes for the flags. -/
def PageSource.data (src : PageSource σ) (flags : Word) : FrameSource σ :=
  if has flags flagPS then src.large else src.small

theorem vmmMapRange_eq (pager : Pager σ) (src : PageSource σ) (pmlt vaddr : Word) (cnt : ℕ)
    (flags : Word) (m : Machine σ) :
    vmmMapRange pager src pmlt vaddr cnt flags m
      = mapFrames pager (src.data flags) pmlt flags
          (BitVec.ofNat 64 (2 ^ (mappedSize flags).shift)) cnt vaddr m := by
  unfold vmmMapRange PageSource.data mappedSize
  split_ifs <;> rfl

/-! ### The pages of a range -/

/-- The number of bits of an address that a walk uses. -/
def addrBits (la57 : Bool) : ℕ := 30 + 9 * upperLevels la57

/-- The page `i` pages behind that of `v`. -/
def nthPage (size : PageSize) (v : Word) (i : ℕ) : Word := v + BitVec.ofNat 64 (i * 2 ^ size.shift)

/-- `u` is on one of the `n` pages from that of `v` on. -/
def InPages (la57 : Bool) (size : PageSize) (v : Word) (n : ℕ) (u : Word) : Prop :=
  ∃ i < n, sameBits size.shift (addrBits la57) (nthPage size v i) u

instance (la57 : Bool) (size : PageSize) (v : Word) (n : ℕ) (u : Word) :
    Decidable (InPages la57 size v n u) :=
  inferInstanceAs (Decidable (∃ i < n, _))

section Pages

variable {la57 : Bool} {size : PageSize} {v u : Word} {n : ℕ}

@[simp] theorem nthPage_zero (size : PageSize) (v : Word) : nthPage size v 0 = v := by
  simp [nthPage]

theorem nthPage_succ (size : PageSize) (v : Word) (i : ℕ) :
    nthPage size v (i + 1) = nthPage size (nthPage size v 1) i := by
  rw [nthPage, nthPage, nthPage, Nat.succ_mul, Nat.one_mul, BitVec.ofNat_add, add_assoc,
    add_comm (BitVec.ofNat 64 (2 ^ size.shift))]

/-- The pages of a range are its first page and those behind it. -/
theorem exists_nthPage_succ {P : Word → Prop} :
    (∃ i < n + 1, P (nthPage size v i)) ↔ P v ∨ ∃ i < n, P (nthPage size (nthPage size v 1) i) := by
  constructor
  · rintro ⟨- | i, hi, hP⟩
    · rw [nthPage_zero] at hP
      exact .inl hP
    · rw [nthPage_succ] at hP
      exact .inr ⟨i, by omega, hP⟩
  · rintro (hP | ⟨i, hi, hP⟩)
    · exact ⟨0, n.succ_pos, by rwa [nthPage_zero]⟩
    · exact ⟨i + 1, by omega, by rwa [nthPage_succ]⟩

theorem inPages_succ :
    InPages la57 size v (n + 1) u ↔
      sameBits size.shift (addrBits la57) v u ∨ InPages la57 size (nthPage size v 1) n u :=
  exists_nthPage_succ (P := fun page => sameBits size.shift (addrBits la57) page u)

theorem not_inPages_zero : ¬ InPages la57 size v 0 u := by
  rintro ⟨i, hi, -⟩
  omega

/-- Pages are told apart up to the end of the address space. -/
theorem not_sameBits_nthPage {i : ℕ} (hi : i + 1 < 2 ^ (addrBits la57 - size.shift)) :
    ¬ sameBits size.shift (addrBits la57) v (nthPage size v (i + 1)) := by
  have hsplit : addrBits la57 = size.shift + (addrBits la57 - size.shift) := by
    cases la57 <;> cases size <;> rfl
  rw [hsplit, sameBits_iff_toNat, nthPage, BitVec.toNat_add, BitVec.toNat_ofNat]
  have hlt := v.isLt
  cases la57 <;> cases size <;>
    simp only [PageSize.shift, addrBits, upperLevels, if_true, if_false, Bool.false_eq_true]
      at hi ⊢ <;>
    omega

/-- The first page of a range is none of the others. -/
theorem not_inPages_next (hn : n < 2 ^ (addrBits la57 - size.shift))
    (h : sameBits size.shift (addrBits la57) v u) : ¬ InPages la57 size (nthPage size v 1) n u := by
  rintro ⟨i, hi, hsame⟩
  rw [← nthPage_succ] at hsame
  exact not_sameBits_nthPage (by omega) (sameBits_trans h (sameBits_symm hsame))

end Pages

/-- A walk of `k` levels only uses the bits of `k` indices. -/
theorem hwWalk_congr {mem : Mem} {v v' : Word} {k : ℕ} (h : ∀ j < k, index j v = index j v')
    (t : Word) : hwWalk mem v k t = hwWalk mem v' k t := by
  induction k generalizing t with
  | zero => rfl
  | succ k ih =>
      rw [hwWalk, hwWalk, h k k.lt_succ_self]
      simp only [ih fun j hj => h j (hj.trans k.lt_succ_self)]

theorem translate_congr {mem : Mem} {pmlt v v' : Word} (h : sameBits 12 48 v v') :
    translate mem 4 pmlt v = translate mem 4 pmlt v' := by
  have hwalk : hwWalk mem v 4 pmlt = hwWalk mem v' 4 pmlt := by
    refine hwWalk_congr (fun j hj => index_eq_iff.mpr fun b hb hlo => h b ?_ ?_) pmlt
    · omega
    · omega
  rw [translate, translate, hwalk]

/-! ### Mapping a range -/

section Map

variable {src : PageSource σ} {la57 : Bool} {pmlt flags v : Word} {m m' : Machine σ} {n : ℕ}

/-- Both kinds of allocation count the same frames as live, so a forest is one for both. -/
theorem Forest.of_live {src₁ src₂ : FrameSource σ} (h : src₁.Live = src₂.Live) {d : ℕ}
    (hF : Forest src₁ (single pmlt) d m) : Forest src₂ (single pmlt) d m where
  sep := hF.sep
  small := hF.small
  known := fun hq ht => by
    obtain ⟨hframe, hlive, howned⟩ := hF.known hq ht
    exact ⟨hframe, h ▸ hlive, howned⟩
  writes := hF.writes

theorem PageSource.live_data (src : PageSource σ) (flags : Word) :
    (src.data flags).Live = src.small.Live := by
  unfold PageSource.data
  split_ifs
  · exact src.live_large
  · rfl

/-- Taking the page changes no translation. -/
theorem PageSource.allocPage_keeps (flags : Word)
    (hF : Forest src.small (single pmlt) (upperLevels la57 + 1) m) :
    Forest src.small (single pmlt) (upperLevels la57 + 1) (allocPage (src.data flags) m).2 ∧
      ∀ u, translate (allocPage (src.data flags) m).2.mem (pagingLevels la57) pmlt u
        = translate m.mem (pagingLevels la57) pmlt u := by
  obtain ⟨hF', hlookup, -⟩ := (hF.of_live (src.live_data flags).symm).allocPage_keeps
  exact ⟨hF'.of_live (src.live_data flags), hlookup ()⟩

/-- **Mapping a free range**: its pages are present afterwards, with the size asked for, and
all other translations are unchanged. -/
theorem mapFrames_spec (hF : Forest src.small (single pmlt) (upperLevels la57 + 1) m)
    (hflags : PresentFlags flags) (hn : n ≤ 2 ^ (addrBits la57 - (mappedSize flags).shift))
    (hfree : ∀ u, InPages la57 (mappedSize flags) v n u →
      translate m.mem (pagingLevels la57) pmlt u = none)
    (h : mapFrames (x86PagingInit src.small la57) (src.data flags) pmlt flags
      (BitVec.ofNat 64 (2 ^ (mappedSize flags).shift)) n v m = .ok m') :
    Forest src.small (single pmlt) (upperLevels la57 + 1) m' ∧
      (∀ u, InPages la57 (mappedSize flags) v n u →
        ∃ tr, translate m'.mem (pagingLevels la57) pmlt u = some tr ∧
          tr.size = mappedSize flags) ∧
      ∀ u, ¬ InPages la57 (mappedSize flags) v n u →
        translate m'.mem (pagingLevels la57) pmlt u
          = translate m.mem (pagingLevels la57) pmlt u := by
  induction n generalizing v m with
  | zero =>
      obtain rfl := Except.ok.inj h
      exact ⟨hF, fun u hu => absurd hu not_inPages_zero, fun _ _ => rfl⟩
  | succ n ih =>
      obtain ⟨⟨ptr, m₂⟩, hmap, hrest⟩ := Exec.bind_eq_ok.mp h
      obtain ⟨hF₁, htr₁⟩ := src.allocPage_keeps flags hF
      have hv : translate m.mem (pagingLevels la57) pmlt v = none :=
        hfree v (inPages_succ.mpr (.inl (sameBits_refl _ _ _)))
      have hun : Unobstructed (allocPage (src.data flags) m).2.mem (pagingLevels la57) pmlt v
          flags := by
        intro _ tr htr
        cases htr.symm.trans ((htr₁ v).trans hv)
      obtain ⟨hF₂, htr₂⟩ := hF₁.mapPage_decodes hflags hun hmap
      have hnext : nthPage (mappedSize flags) v 1
          = v + BitVec.ofNat 64 (2 ^ (mappedSize flags).shift) := by
        rw [nthPage, Nat.one_mul]
      rw [← hnext] at hrest
      -- behind the first page nothing has changed yet
      have hsame : ∀ u, ¬ sameBits (mappedSize flags).shift (addrBits la57) v u →
          translate m₂.mem (pagingLevels la57) pmlt u
            = translate m.mem (pagingLevels la57) pmlt u :=
        fun u hu => (htr₂ u).trans ((if_neg hu).trans (htr₁ u))
      have hfree₂ : ∀ u, InPages la57 (mappedSize flags) (nthPage (mappedSize flags) v 1) n u →
          translate m₂.mem (pagingLevels la57) pmlt u = none := by
        intro u hu
        rw [hsame u fun hc => not_inPages_next hn hc hu]
        exact hfree u (inPages_succ.mpr (.inr hu))
      obtain ⟨hF', hin, hout⟩ := ih hF₂ (Nat.le_of_succ_le hn) hfree₂ hrest
      refine ⟨hF', fun u hu => ?_, fun u hu => ?_⟩
      · rcases inPages_succ.mp hu with hfirst | hlater
        · rw [hout u (not_inPages_next hn hfirst), htr₂]
          exact ⟨_, if_pos hfirst, rfl⟩
        · exact hin u hlater
      · rw [inPages_succ, not_or] at hu
        rw [hout u hu.2, hsame u hu.1]

/-- The next `n` allocations succeed, of whichever kind they are. -/
def PageSource.Supplies (src : PageSource σ) : ℕ → σ → Prop
  | 0, _ => True
  | n + 1, s => (∃ f s', src.small.alloc s = some (f, s') ∧ PageSource.Supplies src n s') ∧
      ∃ f s', src.large.alloc s = some (f, s') ∧ PageSource.Supplies src n s'

theorem PageSource.Supplies.pred {s : σ} (h : src.Supplies (n + 1) s) : src.Supplies n s := by
  induction n generalizing s with
  | zero => trivial
  | succ n ih =>
      obtain ⟨⟨f, s', ha, h'⟩, ⟨f₁, s₁, ha₁, h₁⟩⟩ := h
      exact ⟨⟨f, s', ha, ih h'⟩, ⟨f₁, s₁, ha₁, ih h₁⟩⟩

theorem PageSource.budget (src : PageSource σ) : src.small.Budget src.Supplies :=
  ⟨fun h => h.1, PageSource.Supplies.pred⟩

theorem PageSource.Supplies.data {s : σ} (h : src.Supplies (n + 1) s) (flags : Word) :
    ∃ f s', (src.data flags).alloc s = some (f, s') ∧ src.Supplies n s' := by
  unfold PageSource.data
  split_ifs
  · exact h.2
  · exact h.1

/-- The loop returns if there are frames for its pages and for all tables. -/
theorem mapFrames_returns {step : Word} (h : src.Supplies (n * (upperLevels la57 + 2)) m.pmm) :
    ∃ m', mapFrames (x86PagingInit src.small la57) (src.data flags) pmlt flags step n v m
      = .ok m' := by
  induction n generalizing v m with
  | zero => exact ⟨m, rfl⟩
  | succ n ih =>
      have hsum : (n + 1) * (upperLevels la57 + 2)
          = (upperIndices v (upperLevels la57)).length + (n * (upperLevels la57 + 2) + 1) + 1 := by
        rw [upperIndices_length]
        ring
      rw [hsum] at h
      obtain ⟨f, s, ha, hs⟩ := h.data flags
      obtain ⟨ptr, m₁, hmap, hs₁⟩ := mapPage_budget src.budget (m := m.takePage f s) hs
      rw [← x86PagingInit_mapPage] at hmap
      obtain ⟨m', hrest⟩ := ih (v := v + step) hs₁
      refine ⟨m', ?_⟩
      rw [mapFrames, allocPage_eq_of_some ha]
      exact Exec.bind_eq_ok.mpr ⟨(ptr, m₁), hmap, hrest⟩

end Map

/-! ### Unmapping a range -/

section Unmap

variable {src : FrameSource σ} {pmlt v : Word} {m : Machine σ} {n : ℕ} {size : PageSize}

/-- `unmap_page` returns the size of the page that it takes away. -/
theorem Slot.unmapPage_size {s : Slot} {i : BitVec 9} {tr : Translation}
    (h : s.translate i = some tr) : (s.unmapPage i).1 = 2 ^ tr.size.shift := by
  rcases s with - | f | e
  · cases h
  · obtain ⟨-, hsome⟩ := Option.ite_none_right_eq_some.mp h
    rw [← Option.some.inj hsome]
    rfl
  · obtain ⟨-, hsome⟩ := Option.ite_none_right_eq_some.mp h
    rw [← Option.some.inj hsome]
    rfl

/-- One call of `unmap_page` on a page that is present. -/
theorem Forest.unmapPage_present (hF : Forest src (single pmlt) 3 m) {tr : Translation}
    (h : translate m.mem 4 pmlt v = some tr) :
    (pml4UnmapPage m pmlt v).1 = 2 ^ tr.size.shift ∧
      Forest src (single pmlt) 3 (pml4UnmapPage m pmlt v).2 ∧
      ∀ u, translate (pml4UnmapPage m pmlt v).2.mem 4 pmlt u
        = if sameBits tr.size.shift (addrBits false) v u then none
          else translate m.mem 4 pmlt u := by
  obtain ⟨hF', hsize, -⟩ := hF.slotOf_unmapPage (r := ()) (v := v)
  refine ⟨hsize.trans (Slot.unmapPage_size ((hF.translate_eq (r := ())).symm.trans h)), hF',
    fun u => ?_⟩
  refine (hF.translate_unmapPage (r := ()) (v := v) () u).trans (if_congr ?_ rfl rfl)
  constructor
  · rintro ⟨-, tr', htr', hsame⟩
    cases h.symm.trans htr'
    exact hsame
  · exact fun hsame => ⟨rfl, tr, h, hsame⟩

/-- **Unmapping a range of present pages** of one size takes away those pages and nothing
else. -/
theorem unmapRange_present (hF : Forest src (single pmlt) 3 m)
    (hn : n ≤ 2 ^ (addrBits false - size.shift))
    (hpresent : ∀ u, InPages false size v n u →
      ∃ tr, translate m.mem 4 pmlt u = some tr ∧ tr.size = size) :
    ∀ u, translate (vmmUnmapRange (x86PagingInit src false) pmlt v n m).mem 4 pmlt u
      = if InPages false size v n u then none else translate m.mem 4 pmlt u := by
  induction n generalizing v m with
  | zero =>
      intro u
      rw [if_neg not_inPages_zero]
      rfl
  | succ n ih =>
      intro u
      obtain ⟨tr, htr, rfl⟩ := hpresent v (inPages_succ.mpr (.inl (sameBits_refl _ _ _)))
      obtain ⟨hlen, hF₁, htr₁⟩ := hF.unmapPage_present htr
      have hnext : nthPage tr.size v 1 = v + BitVec.ofNat 64 (2 ^ tr.size.shift) := by
        rw [nthPage, Nat.one_mul]
      have hloop : vmmUnmapRange (x86PagingInit src false) pmlt v (n + 1) m
          = vmmUnmapRange (x86PagingInit src false) pmlt (nthPage tr.size v 1) n
              (pml4UnmapPage m pmlt v).2 := by
        rw [vmmUnmapRange, show (x86PagingInit src false).unmapPage m pmlt v
          = pml4UnmapPage m pmlt v from rfl]
        simp only [hlen, hnext]
        exact if_neg (Nat.two_pow_pos _).ne'
      have hpresent₁ : ∀ u, InPages false tr.size (nthPage tr.size v 1) n u →
          ∃ tr', translate (pml4UnmapPage m pmlt v).2.mem 4 pmlt u = some tr' ∧
            tr'.size = tr.size := by
        intro u hu
        rw [htr₁, if_neg fun hc => not_inPages_next hn hc hu]
        exact hpresent u (inPages_succ.mpr (.inr hu))
      rw [hloop, ih hF₁ (Nat.le_of_succ_le hn) hpresent₁ u, htr₁, ← ite_or]
      exact if_congr (or_comm.trans inPages_succ.symm) rfl rfl

end Unmap

/-! ### Mapping a range and unmapping it again -/

/-- **Unmapping undoes mapping.**  After any run of calls on a four-level table that maps no
small page where a large one is present, let no page of a range be present.  `vmm_map_range`
on it returns if there are frames, and then `vmm_unmap_range` leaves no page of the range
present, and every translation as it was. -/
theorem mapRange_undone {src : PageSource σ} {pmlt : Word} {m₀ : Machine σ} {s : PagingState σ}
    (hblank : m₀.Blank src.small pmlt)
    (hrun : Run (PagingState.Step src.small pmlt) ⟨m₀, fun _ => none⟩ s) {vaddr flags : Word}
    {cnt : ℕ} (hflags : PresentFlags flags)
    (hcnt : cnt ≤ 2 ^ (addrBits false - (mappedSize flags).shift))
    (hfree : ∀ u, InPages false (mappedSize flags) vaddr cnt u →
      translate s.machine.mem 4 pmlt u = none) :
    (src.Supplies (cnt * 4) s.machine.pmm →
      ∃ m', vmmMapRange (x86PagingInit src.small false) src pmlt vaddr cnt flags s.machine
        = .ok m') ∧
    ∀ m', vmmMapRange (x86PagingInit src.small false) src pmlt vaddr cnt flags s.machine
        = .ok m' →
      (∀ u, InPages false (mappedSize flags) vaddr cnt u →
        translate (vmmUnmapRange (x86PagingInit src.small false) pmlt vaddr cnt m').mem 4 pmlt u
          = none) ∧
      ∀ u, translate (vmmUnmapRange (x86PagingInit src.small false) pmlt vaddr cnt m').mem 4 pmlt u
        = translate s.machine.mem 4 pmlt u := by
  have hF : Forest src.small (single pmlt) (upperLevels false + 1) s.machine :=
    (Run.invariant PagingState.Inv.step (PagingState.Inv.init hblank) hrun).forest
  simp only [vmmMapRange_eq]
  refine ⟨fun hsup => mapFrames_returns hsup, fun m' h => ?_⟩
  obtain ⟨hF', hin, hout⟩ := mapFrames_spec hF hflags hcnt hfree h
  have hunmap := unmapRange_present hF' hcnt hin
  refine ⟨fun u hu => (hunmap u).trans (if_pos hu), fun u => ?_⟩
  rw [hunmap u]
  split_ifs with hu
  · exact (hfree u hu).symm
  · exact hout u hu

/-- A source of large pages only, for both kinds of allocation. -/
def PageSource.spaced : PageSource ℕ where
  small := .spaced .large
  large := .spaced .large
  live_large := rfl
  frame_large := by
    intro n f n' h
    obtain ⟨hn, h⟩ := Option.ite_none_right_eq_some.mp h
    obtain ⟨rfl, -⟩ := Prod.mk.inj (Option.some.inj h)
    exact isFrame_of_dvd (dvd_mul_right _ _) (spaced_below hn)

theorem PageSource.spaced_supplies {k n : ℕ} (h : n + k ≤ 2 ^ 22) :
    PageSource.spaced.Supplies k n := by
  induction k generalizing n with
  | zero => trivial
  | succ k ih =>
      have hnext : ∃ f s', (FrameSource.spaced .large).alloc n = some (f, s') ∧
          PageSource.spaced.Supplies k s' :=
        ⟨_, n + 1, if_pos (by omega), ih (by omega)⟩
      exact ⟨hnext, hnext⟩

/-- An empty top-level table in the second large page of memory. -/
def emptyTable : Machine ℕ := ⟨Mem.blank, 2, [], []⟩

theorem emptyTable_blank : emptyTable.Blank PageSource.spaced.small 0x200000 where
  empty := rfl
  frame := by decide
  live := show (0x200000 : Word).toNat < 2 ^ 21 * 2 by decide
  writes := rfl

/-- Two large pages behind a small one, there and back. -/
theorem mapRange_undone_behind :
    ∃ ptr m m', pml4MapPage PageSource.spaced.small emptyTable 0x200000 0x400000 0x300000
        (flagP ||| flagRW) = .ok (ptr, m) ∧
      translate m.mem 4 0x200000 0x400000 = some ⟨0x300000, flagP ||| flagRW, .small⟩ ∧
      vmmMapRange (x86PagingInit PageSource.spaced.small false) .spaced 0x200000 0x40000000 2
        (flagP ||| flagRW ||| flagPS) m = .ok m' ∧
      ∀ u, translate (vmmUnmapRange (x86PagingInit PageSource.spaced.small false) 0x200000
          0x40000000 2 m').mem 4 0x200000 u = translate m.mem 4 0x200000 u := by
  obtain ⟨⟨ptr, m⟩, hcall, hpmm⟩ := Exec.exists_of_map_eq_ok
    (show (pml4MapPage PageSource.spaced.small emptyTable 0x200000 0x400000 0x300000
      (flagP ||| flagRW)).map (fun x => x.2.pmm) = .ok 5 by decide +kernel)
  have hinv := PagingState.Inv.init emptyTable_blank
  have hstep : PagingState.Step PageSource.spaced.small 0x200000 ⟨emptyTable, fun _ => none⟩
      ⟨m, VMap.cover (fun _ => none) 0x400000 ⟨0x300000, flagP ||| flagRW, .small⟩⟩ :=
    .map 0x400000 0x300000 (flagP ||| flagRW) (by decide +kernel)
      (fun _ tr htr => by cases (hinv.refines _).symm.trans htr) hcall
  have hrefines := (hinv.step _ _ hstep).refines
  have hfree : ∀ u, InPages false .large 0x40000000 2 u → translate m.mem 4 0x200000 u = none := by
    rintro u ⟨i, hi, hsame⟩
    refine (hrefines u).trans (if_neg fun hc => ?_)
    -- the small page is in another region
    have hregion : sameBits 21 48 0x400000 u := fun b hb hlo => hc b hb (le_trans (by decide) hlo)
    have hfar : ∀ i < 2, ¬ sameBits 21 48 0x400000 (nthPage .large 0x40000000 i) := by decide
    exact hfar i hi (sameBits_trans hregion (sameBits_symm hsame))
  have hundone := mapRange_undone emptyTable_blank (.single hstep)
    (show PresentFlags (flagP ||| flagRW ||| flagPS) from ⟨by decide, by decide⟩)
    (show 2 ≤ 2 ^ (addrBits false - (mappedSize (flagP ||| flagRW ||| flagPS)).shift) by decide)
    hfree
  obtain ⟨m', h⟩ := hundone.1 (PageSource.spaced_supplies
    (show m.pmm + 2 * 4 ≤ 2 ^ 22 by rw [show m.pmm = 5 from hpmm]; decide))
  have hmapped : VMap.cover (fun _ => none) 0x400000 ⟨0x300000, flagP ||| flagRW, .small⟩ 0x400000
      = some ⟨0x300000, flagP ||| flagRW, .small⟩ := if_pos (sameBits_refl _ _ _)
  exact ⟨ptr, m, m', hcall, (hrefines _).trans hmapped, h, (hundone.2 m' h).2⟩

/-- The calls on a four-level table, wherever they are made. -/
inductive AnyCall (src : FrameSource σ) (pmlt : Word) : Machine σ → Machine σ → Prop
  | map {m m' : Machine σ} {ptr : Option Ptr} (v paddr flags : Word) :
      Mappable paddr flags → pml4MapPage src m pmlt v paddr flags = .ok (ptr, m') →
      AnyCall src pmlt m m'
  | unmap {m : Machine σ} (v : Word) : AnyCall src pmlt m (pml4UnmapPage m pmlt v).2

/-- **A page that stays behind.**  The large page of the top-level table is mapped, and a
small page into it: the walk takes the top-level table for a page table, and its second entry
now refers to itself.  Seen through that entry, page tables are pages; and the page table
that `vmm_map_range` makes for a page at 2 GiB is still there when the page is gone. -/
theorem mapRange_not_undone :
    ∃ m m', Run (AnyCall PageSource.spaced.small 0x200000) emptyTable m ∧
      (∀ u, InPages false .small 0x80000000 1 u → translate m.mem 4 0x200000 u = none) ∧
      vmmMapRange (x86PagingInit PageSource.spaced.small false) .spaced 0x200000 0x80000000 1
        (flagP ||| flagRW) m = .ok m' ∧
      ¬ InPages false .small 0x80000000 1 0x8000400000 ∧
      translate m.mem 4 0x200000 0x8000400000 = none ∧
      translate (vmmUnmapRange (x86PagingInit PageSource.spaced.small false) 0x200000 0x80000000 1
        m').mem 4 0x200000 0x8000400000 = some ⟨0xc00000, flagP ||| flagRW, .small⟩ := by
  have heval : (do
      let (_, m₁) ← pml4MapPage PageSource.spaced.small emptyTable 0x200000 0x40000000 0x200000
        (flagP ||| flagRW ||| flagPS)
      let (_, m) ← pml4MapPage PageSource.spaced.small m₁ 0x200000 0x40001000 0x200000
        (flagP ||| flagRW)
      let m' ← vmmMapRange (x86PagingInit PageSource.spaced.small false) .spaced 0x200000
        0x80000000 1 (flagP ||| flagRW) m
      .ok (translate m.mem 4 0x200000 0x80000000, translate m.mem 4 0x200000 0x8000400000,
        translate (vmmUnmapRange (x86PagingInit PageSource.spaced.small false) 0x200000
          0x80000000 1 m').mem 4 0x200000 0x8000400000) : Exec _)
      = .ok (none, none, some ⟨0xc00000, flagP ||| flagRW, .small⟩) := by
    decide +kernel
  obtain ⟨⟨ptr₁, m₁⟩, h₁, heval⟩ := Exec.bind_eq_ok.mp heval
  obtain ⟨⟨ptr, m⟩, h, heval⟩ := Exec.bind_eq_ok.mp heval
  obtain ⟨m', hrange, heval⟩ := Exec.bind_eq_ok.mp heval
  simp only [Except.ok.injEq, Prod.mk.injEq] at heval
  obtain ⟨hfree, hbefore, hafter⟩ := heval
  have hrun : Run (AnyCall PageSource.spaced.small 0x200000) emptyTable m :=
    .tail (.single (.map 0x40000000 0x200000 _ (by decide) h₁))
      (.map 0x40001000 0x200000 _ (by decide) h)
  refine ⟨m, m', hrun, ?_, hrange, by decide, hbefore, hafter⟩
  rintro u ⟨i, hi, hsame⟩
  obtain rfl : i = 0 := by omega
  rw [nthPage_zero] at hsame
  rw [← translate_congr hsame, hfree]

/-! ### Unmapping a range with holes -/

section Holes

variable {src : FrameSource σ} {pmlt v : Word} {m : Machine σ} {n : ℕ}

/-- All pages are small. -/
def OnlySmall (pmlt : Word) (m : Machine σ) : Prop :=
  ∀ u tr, translate m.mem 4 pmlt u = some tr → tr.size = .small

/-- The number of pages that the result of `unmap_page` stands for: none without a page table,
and 512 at an entry of the page directory with `PS`, present or not. -/
def unmapStride (pmlt : Word) (m : Machine σ) (v : Word) : ℕ :=
  match slotOf m.mem 2 pmlt v with
  | .absent => 0
  | .table _ => 1
  | .large _ => 512

/-- The page of the call number `k`, for a range from `v` on. -/
def unmapVisit (pmlt : Word) (m : Machine σ) : ℕ → Word → Word
  | 0, v => v
  | k + 1, v => unmapVisit pmlt m k (nthPage .small v (unmapStride pmlt m v))

/-- The calls before the call number `k` have not ended the loop. -/
def UnmapCalled (pmlt : Word) (m : Machine σ) (v : Word) (k : ℕ) : Prop :=
  ∀ i < k, unmapStride pmlt m (unmapVisit pmlt m i v) ≠ 0

instance (pmlt : Word) (m : Machine σ) (v : Word) (k : ℕ) : Decidable (UnmapCalled pmlt m v k) :=
  inferInstanceAs (Decidable (∀ i < k, _))

/-- **The range is unmapped**: none of its pages is present, and all others translate as
before. -/
structure RangeUnmapped (src : FrameSource σ) (pmlt vaddr : Word) (cnt : ℕ) (m : Machine σ) :
    Prop where
  gone : ∀ u, InPages false .small vaddr cnt u →
    translate (vmmUnmapRange (x86PagingInit src false) pmlt vaddr cnt m).mem 4 pmlt u = none
  kept : ∀ u, ¬ InPages false .small vaddr cnt u →
    translate (vmmUnmapRange (x86PagingInit src false) pmlt vaddr cnt m).mem 4 pmlt u
      = translate m.mem 4 pmlt u

/-- The calls reach every page of the range that is present, and no other one. -/
def UnmapReaches (pmlt vaddr : Word) (cnt : ℕ) (m : Machine σ) : Prop :=
  (∀ j < cnt, translate m.mem 4 pmlt (nthPage .small vaddr j) ≠ none →
    ∃ k < cnt, UnmapCalled pmlt m vaddr k ∧
      sameBits 12 48 (unmapVisit pmlt m k vaddr) (nthPage .small vaddr j)) ∧
  ∀ k < cnt, UnmapCalled pmlt m vaddr k →
    translate m.mem 4 pmlt (unmapVisit pmlt m k vaddr) ≠ none →
      InPages false .small vaddr cnt (unmapVisit pmlt m k vaddr)

instance (pmlt vaddr : Word) (cnt : ℕ) (m : Machine σ) :
    Decidable (UnmapReaches pmlt vaddr cnt m) :=
  inferInstanceAs (Decidable ((∀ j < cnt, _) ∧ ∀ k < cnt, _))

theorem unmapVisit_congr {m' : Machine σ}
    (h : ∀ u, unmapStride pmlt m' u = unmapStride pmlt m u) (k : ℕ) (v : Word) :
    unmapVisit pmlt m' k v = unmapVisit pmlt m k v := by
  induction k generalizing v with
  | zero => rfl
  | succ k ih => rw [unmapVisit, unmapVisit, h, ih]

/-- The calls behind the first one. -/
theorem unmapCalled_succ {k : ℕ} :
    UnmapCalled pmlt m v (k + 1) ↔ unmapStride pmlt m v ≠ 0 ∧
      UnmapCalled pmlt m (nthPage .small v (unmapStride pmlt m v)) k := by
  constructor
  · exact fun h => ⟨h 0 k.succ_pos, fun i hi => h (i + 1) (by omega)⟩
  · rintro ⟨hfirst, h⟩ (- | i) hi
    · exact hfirst
    · exact h i (by omega)

/-- **One call of `unmap_page`** takes its page away, and leaves the tables and the entries
with `PS` as they are. -/
theorem Forest.unmapPage_stride (hF : Forest src (single pmlt) 3 m) (hsmall : OnlySmall pmlt m) :
    (pml4UnmapPage m pmlt v).1 = unmapStride pmlt m v * 0x1000 ∧
      Forest src (single pmlt) 3 (pml4UnmapPage m pmlt v).2 ∧
      (∀ u, unmapStride pmlt (pml4UnmapPage m pmlt v).2 u = unmapStride pmlt m u) ∧
      ∀ u, translate (pml4UnmapPage m pmlt v).2.mem 4 pmlt u
        = if sameBits 12 48 v u then none else translate m.mem 4 pmlt u := by
  obtain ⟨hF', hsize, hslot, hother⟩ := hF.slotOf_unmapPage (r := ()) (v := v)
  refine ⟨?_, hF', fun u => ?_, fun u => ?_⟩
  · have hlen : (pml4UnmapPage m pmlt v).1 = ((slotOf m.mem 2 pmlt v).unmapPage (index 0 v)).1 :=
      hsize
    rw [hlen, unmapStride]
    rcases slotOf m.mem 2 pmlt v with - | f | e
    · exact (Nat.zero_mul 0x1000).symm
    · exact (Nat.one_mul 0x1000).symm
    · exact (by norm_num : 0x200000 = 512 * 0x1000)
  · by_cases hreg : sameBits 21 48 v u
    · have hafter : slotOf (pml4UnmapPage m pmlt v).2.mem 2 pmlt u
          = ((slotOf m.mem 2 pmlt u).unmapPage (index 0 v)).2 := by
        rw [slotOf_congr (k := 2) (t := pmlt) hreg, slotOf_congr (k := 2) hreg]
        exact hslot
      rw [unmapStride, unmapStride, hafter]
      rcases slotOf m.mem 2 pmlt u with - | f | e <;> rfl
    · have hafter : slotOf (pml4UnmapPage m pmlt v).2.mem 2 pmlt u = slotOf m.mem 2 pmlt u :=
        hother () u fun hc => hreg hc.2
      rw [unmapStride, unmapStride, hafter]
  · refine (hF.translate_unmapPage (r := ()) (v := v) () u).trans ?_
    by_cases hpage : sameBits 12 48 v u
    · rw [if_pos hpage]
      split_ifs with hc
      · rfl
      · -- the page was not present
        refine (translate_congr hpage).symm.trans (Option.eq_none_iff_forall_ne_some.mpr ?_)
        intro tr hsome
        refine hc ⟨rfl, tr, hsome, ?_⟩
        rw [hsmall v tr hsome]
        exact hpage
    · rw [if_neg hpage]
      refine if_neg ?_
      rintro ⟨-, tr, hsome, hbits⟩
      rw [hsmall v tr hsome] at hbits
      exact hpage hbits

/-- **What the loop takes away**: the pages of its calls. -/
theorem unmapRange_visits (hF : Forest src (single pmlt) 3 m) (hsmall : OnlySmall pmlt m)
    (u : Word) :
    translate (vmmUnmapRange (x86PagingInit src false) pmlt v n m).mem 4 pmlt u
      = if ∃ k < n, UnmapCalled pmlt m v k ∧ sameBits 12 48 (unmapVisit pmlt m k v) u then none
        else translate m.mem 4 pmlt u := by
  induction n generalizing v m with
  | zero =>
      rw [if_neg (by rintro ⟨k, hk, -⟩; omega)]
      rfl
  | succ n ih =>
      have hcall : (x86PagingInit src false).unmapPage m pmlt v = pml4UnmapPage m pmlt v := rfl
      obtain ⟨hsize, hF₁, hstride, htr⟩ := hF.unmapPage_stride (v := v) hsmall
      rw [vmmUnmapRange, hcall]
      simp only [hsize]
      by_cases hend : unmapStride pmlt m v = 0
      · -- the loop ends here
        rw [if_pos (by rw [hend, Nat.zero_mul]), htr]
        refine if_congr ?_ rfl rfl
        constructor
        · exact fun hsame => ⟨0, n.succ_pos, nofun, hsame⟩
        · rintro ⟨- | k, -, hcalled, hsame⟩
          · exact hsame
          · exact absurd hend (unmapCalled_succ.mp hcalled).1
      · have hsmall₁ : OnlySmall pmlt (pml4UnmapPage m pmlt v).2 := by
          intro u tr hsome
          rw [htr] at hsome
          exact hsmall u tr (Option.ite_none_left_eq_some.mp hsome).2
        rw [if_neg (Nat.mul_ne_zero hend (by decide)),
          show v + BitVec.ofNat 64 (unmapStride pmlt m v * 0x1000)
            = nthPage .small v (unmapStride pmlt m v) from rfl, ih hF₁ hsmall₁, htr, ← ite_or]
        refine if_congr ?_ rfl rfl
        simp only [UnmapCalled, unmapVisit_congr hstride, hstride]
        constructor
        · rintro (⟨k, hk, hcalled, hsame⟩ | hsame)
          · exact ⟨k + 1, by omega, unmapCalled_succ.mpr ⟨hend, hcalled⟩, hsame⟩
          · exact ⟨0, n.succ_pos, nofun, hsame⟩
        · rintro ⟨- | k, hk, hcalled, hsame⟩
          · exact .inr hsame
          · exact .inl ⟨k, by omega, (unmapCalled_succ.mp hcalled).2, hsame⟩

end Holes

/-- One page mapped at 4 MiB. -/
def onePage : Machine FreeList :=
  match pml4MapPage .ofList bootMachine 0x101000 0x400000 0x300000 (flagP ||| flagRW) with
  | .ok (_, m) => m
  | .error _ => bootMachine

theorem onePage_eq : ∃ ptr, pml4MapPage .ofList bootMachine 0x101000 0x400000 0x300000
    (flagP ||| flagRW) = .ok (ptr, onePage) := by
  obtain ⟨⟨ptr, m⟩, hcall, -⟩ := Exec.exists_of_map_eq_ok
    (show (pml4MapPage .ofList bootMachine 0x101000 0x400000 0x300000 (flagP ||| flagRW)).map
      (fun _ => ()) = .ok () by decide +kernel)
  exact ⟨ptr, by rw [onePage, hcall]⟩

theorem onePage_forest :
    Forest .ofList (single 0x101000) 3 onePage ∧ OnlySmall 0x101000 onePage := by
  obtain ⟨ptr, hcall⟩ := onePage_eq
  have hF : Forest .ofList (single 0x101000) 3 bootMachine := bootMachine_blank.forest 3
  have habsent : ∀ v, slotOf bootMachine.mem 2 (single 0x101000 ()) v = .absent :=
    fun v => slotOf_empty bootMachine_blank.empty (by decide) v
  have hopen : ¬ has (flagP ||| flagRW) flagPS →
      (slotOf bootMachine.mem 2 (single 0x101000 ()) 0x400000).Open := by
    intro _
    rw [habsent]
    trivial
  have hflags : PresentFlags (flagP ||| flagRW) := ⟨by decide, by decide⟩
  obtain ⟨hF', -⟩ := hF.slotOf_mapPage (r := ()) hflags (by decide) hopen hcall
  refine ⟨hF', fun u tr hsome => ?_⟩
  have htr := hF.translate_mapPage_decode (r := ()) hflags (by decide) hopen hcall () u
  rw [hF.translate_eq, habsent] at htr
  rcases Option.ite_none_right_eq_some.mp (htr.symm.trans hsome) with ⟨-, hdecode⟩
  rw [← Option.some.inj hdecode]
  rfl

/-- **A page outside the range goes.**  A large page at 2 MiB is mapped and unmapped, and small
pages at 4 MiB and 2 MiB behind the page before it.  The entry of the large page sends the loop
over the first of them to the second. -/
theorem unmapRange_passes_page :
    (do
      let (_, m) ← pml4MapPage .ofList bootMachine 0x101000 0x200000 0x600000
        (flagP ||| flagRW ||| flagPS)
      let (_, m) ← pml4MapPage .ofList (pml4UnmapPage m 0x101000 0x200000).2 0x101000 0x400000
        0x300000 (flagP ||| flagRW)
      let (_, m) ← pml4MapPage .ofList m 0x101000 0x5ff000 0x301000 (flagP ||| flagRW)
      let m := vmmUnmapRange (x86PagingInit .ofList false) 0x101000 0x3ff000 2 m
      .ok (translate m.mem 4 0x101000 0x400000, translate m.mem 4 0x101000 0x5ff000) : Exec _)
      = .ok (some ⟨0x300000, flagP ||| flagRW, .small⟩, none) := by
  decide +kernel

end Rock
