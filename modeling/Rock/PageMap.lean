/-
Rock/PageMap.lean

Page tables as a partial map of virtual addresses.

Which addresses lie on one page is said by bits (`sameBits`), not by table
indices.  In these terms a `map_page` gives one page its translation and a
`unmap_page` takes the page that translates an address away
(`Forest.translate_mapPage`, `Forest.translate_unmapPage`), for tables of any
number of levels and for any number of tables in one memory.

Main results: over every run of the four-level backend from an empty table the
processor's walk is the abstract map, `page_entry` finds its leaf, and no table
has two parents (`pml4_refines_map`).  Over every run of either backend,
`map_page` writes page tables only and its page then translates as asked
(`mapPage_writes_tables`), provided no small page is mapped where a large
page is present.  The kernel itself does that: its direct map consists of large
pages, and a DIRECT portal maps small pages into it.  The walk then takes the
large page for a table and writes into the data (`mapPage_writes_data`).
-/
import Rock.AddressSpace

namespace Rock

open TableTree

/-! ### Addresses of one page -/

/-- The two addresses agree in the bits from `lo` up to `hi`. -/
def sameBits (lo hi : ℕ) (v v' : Word) : Prop :=
  ∀ b < hi, lo ≤ b → v.getLsbD b = v'.getLsbD b

instance (lo hi : ℕ) (v v' : Word) : Decidable (sameBits lo hi v v') :=
  inferInstanceAs (Decidable (∀ b < hi, lo ≤ b → v.getLsbD b = v'.getLsbD b))

theorem sameBits_refl (lo hi : ℕ) (v : Word) : sameBits lo hi v v := fun _ _ _ => rfl

theorem sameBits_symm {lo hi : ℕ} {v v' : Word} (h : sameBits lo hi v v') :
    sameBits lo hi v' v := fun b hhi hlo => (h b hhi hlo).symm

theorem sameBits_trans {lo hi : ℕ} {v₁ v₂ v₃ : Word} (h : sameBits lo hi v₁ v₂)
    (h' : sameBits lo hi v₂ v₃) : sameBits lo hi v₁ v₃ :=
  fun b hhi hlo => (h b hhi hlo).trans (h' b hhi hlo)

theorem sameBits_split {lo mid hi : ℕ} (h₁ : lo ≤ mid) (h₂ : mid ≤ hi) {v v' : Word} :
    sameBits lo hi v v' ↔ sameBits lo mid v v' ∧ sameBits mid hi v v' := by
  constructor
  · intro h
    exact ⟨fun b hb hlo => h b (by omega) hlo, fun b hb hlo => h b hb (by omega)⟩
  · rintro ⟨hlow, hhigh⟩ b hb hlo
    rcases Nat.lt_or_ge b mid with hmid | hmid
    · exact hlow b hmid hlo
    · exact hhigh b hb hmid

theorem extractLsb_eq_iff {lo len : ℕ} {v v' : Word} :
    v.extractLsb' lo len = v'.extractLsb' lo len ↔ sameBits lo (lo + len) v v' := by
  constructor
  · intro h b hb hlo
    have hbit := congrArg (fun x => x.getLsbD (b - lo)) h
    have hlt : b - lo < len := by omega
    have hadd : lo + (b - lo) = b := by omega
    simpa [BitVec.getLsbD_extractLsb', hlt, hadd] using hbit
  · intro h
    apply BitVec.eq_of_getLsbD_eq
    intro b hb
    have hbit := h (lo + b) (by omega) (by omega)
    simpa [BitVec.getLsbD_extractLsb', hb] using hbit

/-- Agreement of bits, in numbers. -/
theorem sameBits_iff_toNat {lo len : ℕ} {v v' : Word} :
    sameBits lo (lo + len) v v' ↔
      v.toNat / 2 ^ lo % 2 ^ len = v'.toNat / 2 ^ lo % 2 ^ len := by
  rw [← extractLsb_eq_iff, ← BitVec.toNat_inj, BitVec.extractLsb'_toNat, BitVec.extractLsb'_toNat,
    Nat.shiftRight_eq_div_pow, Nat.shiftRight_eq_div_pow]

theorem index_eq_iff {k : ℕ} {v v' : Word} :
    index k v = index k v' ↔ sameBits (12 + 9 * k) (21 + 9 * k) v v' := by
  rw [index, index, extractLsb_eq_iff, show 12 + 9 * k + 9 = 21 + 9 * k by ring]

theorem upperIndices_eq_iff {k : ℕ} {v v' : Word} :
    upperIndices v k = upperIndices v' k ↔ sameBits 30 (30 + 9 * k) v v' := by
  induction k with
  | zero => exact iff_of_true rfl fun b hb hlo => absurd hb (by omega)
  | succ k ih =>
      rw [upperIndices, upperIndices, List.cons.injEq, ih, index_eq_iff,
        sameBits_split (show 30 ≤ 30 + 9 * k by omega) (show _ ≤ 30 + 9 * (k + 1) by omega),
        and_comm, show 12 + 9 * (k + 2) = 30 + 9 * k by ring,
        show 21 + 9 * (k + 2) = 30 + 9 * (k + 1) by ring]

/-- Two addresses lie in one region of 2 MiB when the walk cannot tell them
apart above the page table. -/
theorem region_eq_iff {k : ℕ} {v v' : Word} :
    upperIndices v k = upperIndices v' k ∧ index 1 v = index 1 v' ↔
      sameBits 21 (30 + 9 * k) v v' := by
  rw [upperIndices_eq_iff, index_eq_iff, sameBits_split (show 21 ≤ 30 by omega)
    (show 30 ≤ 30 + 9 * k by omega), and_comm]

theorem page_eq_iff {k : ℕ} {v v' : Word} :
    sameBits 21 (30 + 9 * k) v v' ∧ index 0 v' = index 0 v ↔ sameBits 12 (30 + 9 * k) v v' := by
  rw [sameBits_split (show 12 ≤ 21 by omega) (show 21 ≤ 30 + 9 * k by omega), and_comm,
    eq_comm, index_eq_iff]

variable {σ : Type} {R : Type*}

theorem slotOf_congr {mem : Mem} {k : ℕ} {t v v' : Word} (h : sameBits 21 (30 + 9 * k) v v') :
    slotOf mem k t v' = slotOf mem k t v := by
  obtain ⟨hup, hi⟩ := region_eq_iff.mpr h
  rw [slotOf, slotOf, hup, hi]

/-! ### Translations after a call -/

namespace Forest

variable {src : FrameSource σ} {root : R → Word} {k : ℕ} {m m' : Machine σ} {r : R}
  {extra flags paddr v : Word}

/-- `map_page` at an address changes the slot of its region. -/
theorem slotOf_mapPage (hF : Forest src root (k + 1) m) (hm : PresentFlags flags)
    (hextra : extra &&& flagRW = extra)
    (hopen : ¬ has flags flagPS → (slotOf m.mem k (root r) v).Open) {ptr : Option Ptr}
    (h : mapPage src extra m (root r) (upperIndices v k) (index 1 v) (index 0 v) paddr flags
      = .ok (ptr, m')) :
    Forest src root (k + 1) m' ∧
      slotOf m'.mem k (root r) v = (slotOf m.mem k (root r) v).mapPage (index 0 v) paddr flags ∧
      ∀ r' v', ¬ (r' = r ∧ sameBits 21 (30 + 9 * k) v v') →
        slotOf m'.mem k (root r') v' = slotOf m.mem k (root r') v' := by
  obtain ⟨hF', hslot, hsame⟩ := hF.mapPage_spec (by simp) hm hextra hopen h
  refine ⟨hF', hslot, fun r' v' hne => hsame r' _ _ (by simp) ?_⟩
  rintro ⟨hr, hup, hi⟩
  exact hne ⟨hr, region_eq_iff.mp ⟨hup.symm, hi.symm⟩⟩

/-- `unmap_page` at an address changes the slot of its region. -/
theorem slotOf_unmapPage (hF : Forest src root (k + 1) m) :
    Forest src root (k + 1)
        (unmapPage m (root r) (upperIndices v k) (index 1 v) (index 0 v)).2 ∧
      (unmapPage m (root r) (upperIndices v k) (index 1 v) (index 0 v)).1
        = ((slotOf m.mem k (root r) v).unmapPage (index 0 v)).1 ∧
      slotOf (unmapPage m (root r) (upperIndices v k) (index 1 v) (index 0 v)).2.mem k (root r) v
        = ((slotOf m.mem k (root r) v).unmapPage (index 0 v)).2 ∧
      ∀ r' v', ¬ (r' = r ∧ sameBits 21 (30 + 9 * k) v v') →
        slotOf (unmapPage m (root r) (upperIndices v k) (index 1 v) (index 0 v)).2.mem k
          (root r') v' = slotOf m.mem k (root r') v' := by
  obtain ⟨hF', hsize, hslot, hsame⟩ :=
    hF.unmapPage_spec (show (upperIndices v k).length + 1 = k + 1 by simp) r (index 1 v) (index 0 v)
  refine ⟨hF', hsize, hslot, fun r' v' hne => hsame r' _ _ (by simp) ?_⟩
  rintro ⟨hr, hup, hi⟩
  exact hne ⟨hr, region_eq_iff.mp ⟨hup.symm, hi.symm⟩⟩

/-- The region of `v` is free of large pages as far as the processor sees. -/
theorem open_iff (hF : Forest src root (k + 1) m) :
    (slotOf m.mem k (root r) v).Open ↔
      ∀ tr, translate m.mem (k + 2) (root r) v = some tr → tr.size ≠ .large := by
  rw [hF.translate_eq]
  exact Slot.open_iff _

variable [DecidableEq R]

/-- **`map_page` gives one page its translation**, whatever the address is. -/
theorem translate_mapPage_decode (hF : Forest src root (k + 1) m) (hm : PresentFlags flags)
    (hextra : extra &&& flagRW = extra)
    (hopen : ¬ has flags flagPS → (slotOf m.mem k (root r) v).Open) {ptr : Option Ptr}
    (h : mapPage src extra m (root r) (upperIndices v k) (index 1 v) (index 0 v) paddr flags
      = .ok (ptr, m')) (r' : R) (v' : Word) :
    translate m'.mem (k + 2) (root r') v'
      = if r' = r ∧ sameBits (mappedSize flags).shift (30 + 9 * k) v v' then
          some (decode (mappedSize flags) (paddr ||| flags))
        else translate m.mem (k + 2) (root r') v' := by
  obtain ⟨hF', hslot, hsame⟩ := hF.slotOf_mapPage hm hextra hopen h
  rw [hF'.translate_eq, hF.translate_eq]
  by_cases hreg : r' = r ∧ sameBits 21 (30 + 9 * k) v v'
  · obtain ⟨rfl, hreg⟩ := hreg
    rw [slotOf_congr hreg, slotOf_congr hreg, hslot, Slot.translate_mapPage hm.present hopen]
    by_cases hPS : has flags flagPS
    · simp [mappedSize, hPS, PageSize.shift, hreg]
    · have hpage : _ ↔ sameBits 12 (30 + 9 * k) v v' := page_eq_iff
      simp [mappedSize, hPS, PageSize.shift, ← hpage, hreg]
  · rw [hsame r' v' hreg, if_neg]
    rintro ⟨rfl, hbits⟩
    refine hreg ⟨rfl, fun b hb hlo => hbits b hb (le_trans ?_ hlo)⟩
    unfold mappedSize
    split_ifs <;> simp [PageSize.shift]

theorem translate_mapPage (hF : Forest src root (k + 1) m) (hm : Mappable paddr flags)
    (hextra : extra &&& flagRW = extra)
    (hopen : ¬ has flags flagPS → (slotOf m.mem k (root r) v).Open) {ptr : Option Ptr}
    (h : mapPage src extra m (root r) (upperIndices v k) (index 1 v) (index 0 v) paddr flags
      = .ok (ptr, m')) (r' : R) (v' : Word) :
    translate m'.mem (k + 2) (root r') v'
      = if r' = r ∧ sameBits (mappedSize flags).shift (30 + 9 * k) v v' then
          some ⟨paddr, flags, mappedSize flags⟩
        else translate m.mem (k + 2) (root r') v' := by
  rw [← hm.decode_eq]
  exact hF.translate_mapPage_decode hm.presentFlags hextra hopen h r' v'

/-- **`unmap_page` takes away the page that translates the address.** -/
theorem translate_unmapPage (hF : Forest src root (k + 1) m) (r' : R) (v' : Word) :
    translate (unmapPage m (root r) (upperIndices v k) (index 1 v) (index 0 v)).2.mem (k + 2)
        (root r') v'
      = if r' = r ∧ ∃ tr, translate m.mem (k + 2) (root r) v = some tr ∧
            sameBits tr.size.shift (30 + 9 * k) v v' then none
        else translate m.mem (k + 2) (root r') v' := by
  obtain ⟨hF', -, hslot, hsame⟩ := hF.slotOf_unmapPage (r := r) (v := v)
  rw [hF'.translate_eq, hF.translate_eq, hF.translate_eq]
  by_cases hreg : r' = r ∧ sameBits 21 (30 + 9 * k) v v'
  · obtain ⟨rfl, hreg⟩ := hreg
    rw [slotOf_congr hreg, slotOf_congr hreg, hslot, Slot.translate_unmapPage]
    refine if_congr ?_ rfl rfl
    simp only [true_and]
    refine exists_congr fun tr => and_congr_right fun htr => ?_
    have hsize := Slot.size_translate htr
    rcases hsz : tr.size with - | - | -
    · simp [PageSize.shift, ← page_eq_iff, hreg]
    · simp [PageSize.shift, hreg]
    · exact absurd hsz hsize
  · rw [hsame r' v' hreg, if_neg]
    rintro ⟨rfl, tr, htr, hbits⟩
    refine hreg ⟨rfl, fun b hb hlo => hbits b hb (le_trans ?_ hlo)⟩
    have hsize := Slot.size_translate htr
    rcases hsz : tr.size with - | - | -
    · simp [PageSize.shift]
    · simp [PageSize.shift]
    · exact absurd hsz hsize

end Forest

/-! ### Empty tables -/

/-- The path of an empty top-level table. -/
theorem tableAt_empty {mem : Mem} {t s : Word} (h : mem t = 0) {q : List (BitVec 9)} :
    tableAt subtable mem t q = some s ↔ q = [] ∧ t = s := by
  rcases q with - | ⟨i, q⟩
  · simp [tableAt]
  · have hnone : subtable (mem t i) = none := by
      rw [h]
      exact subtable_zero
    simp [tableAt, hnone]

theorem slotOf_empty {mem : Mem} {t : Word} (h : mem t = 0) {k : ℕ} (hk : k ≠ 0) (v : Word) :
    slotOf mem k t v = .absent := by
  refine slotAt_none (Option.eq_none_iff_forall_ne_some.mpr fun s hs => hk ?_)
  have hnil := congrArg List.length ((tableAt_empty h).mp hs).1
  rwa [upperIndices_length] at hnil

/-- Empty tables in distinct frames form a forest. -/
theorem Forest.init {src : FrameSource σ} {root : R → Word} {m : Machine σ} (d : ℕ)
    (hinj : Function.Injective root) (hempty : ∀ r, m.mem (root r) = 0)
    (hframe : ∀ r, IsFrame .small (root r)) (hlive : ∀ r, src.Live m.pmm (root r))
    (hwrites : m.writes = []) : Forest src root d m where
  sep := by
    intro r q r' q' t _ _ h h'
    obtain ⟨rfl, rfl⟩ := (tableAt_empty (hempty r)).mp h
    obtain ⟨rfl, hroot⟩ := (tableAt_empty (hempty r')).mp h'
    exact ⟨hinj hroot.symm, rfl⟩
  small := by
    intro r q t i _ h
    obtain ⟨rfl, rfl⟩ := (tableAt_empty (hempty r)).mp h
    rw [hempty r]
    exact fun hc => not_has_zero _ hc.1
  known := by
    intro r q t _ h
    obtain ⟨rfl, rfl⟩ := (tableAt_empty (hempty r)).mp h
    exact ⟨hframe r, hlive r, .inl ⟨r, rfl⟩⟩
  writes := by
    intro w hw
    rw [hwrites] at hw
    exact absurd hw List.not_mem_nil

/-- A page table as the one root of a forest. -/
def single (pmlt : Word) : Unit → Word := fun _ => pmlt

/-- The top-level table `pmlt` is empty and in use, and nothing was written yet. -/
structure Machine.Blank (src : FrameSource σ) (pmlt : Word) (m : Machine σ) : Prop where
  empty : m.mem pmlt = 0
  frame : IsFrame .small pmlt
  live : src.Live m.pmm pmlt
  writes : m.writes = []

theorem Machine.Blank.forest {src : FrameSource σ} {pmlt : Word} {m : Machine σ}
    (h : m.Blank src pmlt) (d : ℕ) : Forest src (single pmlt) d m :=
  Forest.init d (fun _ _ _ => rfl) (fun _ => h.empty) (fun _ => h.frame) (fun _ => h.live) h.writes

/-- No large page is present where a small one is to be mapped. -/
def Unobstructed (mem : Mem) (levels : ℕ) (pmlt v flags : Word) : Prop :=
  ¬ has flags flagPS → ∀ tr, translate mem levels pmlt v = some tr → tr.size ≠ .large

theorem Forest.unobstructed_iff {src : FrameSource σ} {pmlt v flags : Word} {k : ℕ}
    {m : Machine σ} (hF : Forest src (single pmlt) (k + 1) m) :
    Unobstructed m.mem (k + 2) pmlt v flags ↔
      (¬ has flags flagPS → (slotOf m.mem k pmlt v).Open) :=
  imp_congr_right fun _ => (hF.open_iff (r := ())).symm

/-! ### The four-level tables are a partial map -/

/-- A partial map of virtual addresses to pages. -/
abbrev VMap := Word → Option Translation

/-- The addresses of the page of `v` are translated by `tr`. -/
def VMap.cover (M : VMap) (v : Word) (tr : Translation) : VMap := fun v' =>
  if sameBits tr.size.shift 48 v v' then some tr else M v'

/-- The page that translates `v` is taken away. -/
def VMap.uncover (M : VMap) (v : Word) : VMap := fun v' =>
  if ∃ tr, M v = some tr ∧ sameBits tr.size.shift 48 v v' then none else M v'

/-- A machine with the map that its calls have made. -/
structure PagingState (σ : Type) where
  machine : Machine σ
  map : VMap

/-- The calls on a four-level table. -/
inductive PagingState.Step (src : FrameSource σ) (pmlt : Word) :
    PagingState σ → PagingState σ → Prop
  | map {s : PagingState σ} {m' : Machine σ} {ptr : Option Ptr} (v paddr flags : Word) :
      Mappable paddr flags → Unobstructed s.machine.mem 4 pmlt v flags →
      pml4MapPage src s.machine pmlt v paddr flags = .ok (ptr, m') →
      Step src pmlt s ⟨m', s.map.cover v ⟨paddr, flags, mappedSize flags⟩⟩
  | unmap {s : PagingState σ} (v : Word) :
      Step src pmlt s ⟨(pml4UnmapPage s.machine pmlt v).2, s.map.uncover v⟩

/-- The tables are a forest, and translate as the map says. -/
structure PagingState.Inv (src : FrameSource σ) (pmlt : Word) (s : PagingState σ) : Prop where
  forest : Forest src (single pmlt) 3 s.machine
  refines : ∀ v, translate s.machine.mem 4 pmlt v = s.map v

theorem PagingState.Inv.step {src : FrameSource σ} {pmlt : Word} (s s' : PagingState σ)
    (hI : s.Inv src pmlt) (hs : PagingState.Step src pmlt s s') : s'.Inv src pmlt := by
  obtain ⟨hF, href⟩ := hI
  cases hs with
  | map v paddr flags hm hun h =>
      have hopen := hF.unobstructed_iff.mp hun
      refine ⟨(hF.slotOf_mapPage (r := ()) hm.presentFlags (by decide) hopen h).1, fun v' => ?_⟩
      refine (hF.translate_mapPage (r := ()) hm (by decide) hopen h () v').trans ?_
      simp only [true_and]
      exact congrArg (ite _ _) (href v')
  | unmap v =>
      refine ⟨(hF.slotOf_unmapPage (r := ()) (v := v)).1, fun v' => ?_⟩
      refine (hF.translate_unmapPage (r := ()) (v := v) () v').trans ?_
      have hv : translate s.machine.mem (2 + 2) (single pmlt ()) v = s.map v := href v
      have hv' : translate s.machine.mem (2 + 2) (single pmlt ()) v' = s.map v' := href v'
      simp only [true_and, hv, hv']
      exact if_congr Iff.rfl rfl rfl

theorem PagingState.Inv.init {src : FrameSource σ} {pmlt : Word} {m₀ : Machine σ}
    (hblank : m₀.Blank src pmlt) : PagingState.Inv src pmlt ⟨m₀, fun _ => none⟩ := by
  refine ⟨hblank.forest 3, fun v => ?_⟩
  refine ((hblank.forest 3).translate_eq (r := ())).trans ?_
  rw [slotOf_empty (t := single pmlt ()) hblank.empty (by decide)]
  rfl

/-- The entry `w` of a table above the page tables refers to the table `f`. -/
def Refers (mem : Mem) (pmlt : Word) (w : Ptr) (f : Word) : Prop :=
  ∃ q, q.length < 3 ∧ tableAt subtable mem pmlt q = some w.page ∧
    subtable (mem w.page w.idx) = some f

theorem Forest.refers_unique {src : FrameSource σ} {pmlt : Word} {m : Machine σ}
    (hF : Forest src (single pmlt) 3 m) {f : Word} {w w' : Ptr}
    (h : Refers m.mem pmlt w f) (h' : Refers m.mem pmlt w' f) : w = w' := by
  obtain ⟨q, hq, ht, hf⟩ := h
  obtain ⟨q', hq', ht', hf'⟩ := h'
  -- both entries end a path to `f`, and there is only one
  have hpath : tableAt subtable m.mem (single pmlt ()) (q ++ [w.idx]) = some f := by
    rw [tableAt_snoc, show tableAt subtable m.mem (single pmlt ()) q = _ from ht]
    exact hf
  have hpath' : tableAt subtable m.mem (single pmlt ()) (q' ++ [w'.idx]) = some f := by
    rw [tableAt_snoc, show tableAt subtable m.mem (single pmlt ()) q' = _ from ht']
    exact hf'
  obtain ⟨-, heq⟩ := hF.sep (by simp; omega) (by simp; omega) hpath hpath'
  obtain ⟨rfl, hidx⟩ := List.append_inj' heq rfl
  have hpage : w.page = w'.page := Option.some.inj (ht.symm.trans ht')
  rcases w with ⟨page, idx⟩
  rcases w' with ⟨page', idx'⟩
  simp_all

/-- **The four-level tables refine a partial map.**  In every run from an empty
table the processor translates an address as the last call that covers it says;
`page_entry` finds the leaf of that translation, or no present entry; and no
table is referred to by two entries. -/
theorem pml4_refines_map {src : FrameSource σ} {pmlt : Word} {m₀ : Machine σ}
    {s : PagingState σ} (hblank : m₀.Blank src pmlt)
    (hrun : Run (PagingState.Step src pmlt) ⟨m₀, fun _ => none⟩ s) :
    (∀ v, translate s.machine.mem 4 pmlt v = s.map v) ∧
    (∀ v leaf, hwWalk s.machine.mem v 4 pmlt = some leaf →
      pml4PageEntry s.machine pmlt v = some leaf.ptr) ∧
    (∀ v, hwWalk s.machine.mem v 4 pmlt = none → ∀ w, pml4PageEntry s.machine pmlt v = some w →
      ¬ has (s.machine.mem w.page w.idx) flagP) ∧
    (∀ f w w', Refers s.machine.mem pmlt w f → Refers s.machine.mem pmlt w' f → w = w') := by
  obtain ⟨hF, href⟩ := Run.invariant PagingState.Inv.step (PagingState.Inv.init hblank) hrun
  refine ⟨href, ?_, ?_, ?_⟩
  · intro v leaf hleaf
    exact (hF.pageEntry_leaf (r := ())).1 leaf hleaf
  · intro v hnone w hw
    exact (hF.pageEntry_leaf (r := ())).2 hnone w hw
  · intro f w w' h h'
    exact hF.refers_unique h h'

/-! ### A concrete machine -/

instance (size : PageSize) (x : Word) : Decidable (IsFrame size x) :=
  inferInstanceAs (Decidable (_ = _))

theorem mappable_iff {paddr flags : Word} :
    Mappable paddr flags ↔
      has flags flagP ∧ flags &&& leafMask = flags ∧ IsFrame (mappedSize flags) paddr :=
  ⟨fun h => ⟨h.present, h.flags_leaf, h.frame⟩, fun h => ⟨h.1, h.2.1, h.2.2⟩⟩

instance (paddr flags : Word) : Decidable (Mappable paddr flags) :=
  decidable_of_iff' _ mappable_iff

/-- Free frames, in the order in which they will be returned. -/
abbrev FreeList := { l : List Word // l.Nodup ∧ ∀ f ∈ l, IsFrame .small f }

/-- The allocator that returns the frames of a list. -/
def FrameSource.ofList : FrameSource FreeList where
  alloc s :=
    match s with
    | ⟨[], _⟩ => none
    | ⟨f :: l, h⟩ => some (f, ⟨l, h.1.of_cons, fun g hg => h.2 g (List.mem_cons_of_mem f hg)⟩)
  Live s f := f ∉ s.1
  alloc_frame := by
    rintro ⟨- | ⟨f, l⟩, h⟩ g s' ha
    · simp at ha
    · obtain ⟨rfl, -⟩ := by simpa using ha
      exact h.2 f (List.mem_cons_self ..)
  alloc_fresh := by
    rintro ⟨- | ⟨f, l⟩, h⟩ g s' ha
    · simp at ha
    · obtain ⟨rfl, -⟩ := by simpa using ha
      exact fun hlive => hlive (List.mem_cons_self ..)
  alloc_live := by
    rintro ⟨- | ⟨f, l⟩, h⟩ g s' ha
    · simp at ha
    · obtain ⟨rfl, rfl⟩ := by simpa using ha
      exact (List.nodup_cons.mp h.1).1
  alloc_mono := by
    rintro ⟨- | ⟨f, l⟩, h⟩ g s' g' ha hlive
    · simp at ha
    · obtain ⟨rfl, rfl⟩ := by simpa using ha
      exact fun hmem => hlive (List.mem_cons_of_mem _ hmem)

/-- A machine with an empty table at `0x101000` and six free frames. -/
def bootMachine : Machine FreeList where
  mem := Mem.blank
  pmm := ⟨[0x102000, 0x103000, 0x104000, 0x105000, 0x106000, 0x107000], by decide +kernel,
    List.forall_iff_forall_mem.mp (by decide +kernel)⟩
  tables := []
  writes := []

theorem bootMachine_blank : bootMachine.Blank .ofList 0x101000 where
  empty := rfl
  frame := by decide
  live := by
    show (0x101000 : Word) ∉ bootMachine.pmm.1
    decide
  writes := rfl

theorem pml4_refines_map_boot :
    ∃ s, Run (PagingState.Step .ofList 0x101000) ⟨bootMachine, fun _ => none⟩ s ∧
      s.map 0x400123 = some ⟨0x300000, flagP ||| flagRW, .small⟩ ∧
      translate s.machine.mem 4 0x101000 0x400123 = s.map 0x400123 := by
  obtain ⟨⟨ptr, m⟩, hcall, -⟩ := Exec.exists_of_map_eq_ok
    (show (pml4MapPage .ofList bootMachine 0x101000 0x400000 0x300000 (flagP ||| flagRW)).map
      (fun _ => ()) = .ok () by decide +kernel)
  have hfree : Unobstructed bootMachine.mem 4 0x101000 0x400000 (flagP ||| flagRW) := by
    intro _ tr htr
    rw [show translate bootMachine.mem 4 0x101000 0x400000 = none by decide +kernel] at htr
    exact absurd htr (by simp)
  have hrun : Run (PagingState.Step .ofList 0x101000) ⟨bootMachine, fun _ => none⟩
      ⟨m, VMap.cover (fun _ => none) 0x400000 ⟨0x300000, flagP ||| flagRW, _⟩⟩ :=
    .single (.map 0x400000 0x300000 (flagP ||| flagRW) (by decide +kernel) hfree hcall)
  refine ⟨_, hrun, ?_, (pml4_refines_map bootMachine_blank hrun).1 0x400123⟩
  show VMap.cover (fun _ => none) 0x400000 ⟨0x300000, flagP ||| flagRW,
    mappedSize (flagP ||| flagRW)⟩ 0x400123 = some ⟨0x300000, flagP ||| flagRW, .small⟩
  decide +kernel

/-! ### What `map_page` writes -/

/-- The number of levels above the page directory. -/
def upperLevels (la57 : Bool) : ℕ := if la57 then 3 else 2

/-- The number of levels of the tables. -/
def pagingLevels (la57 : Bool) : ℕ := upperLevels la57 + 2

section MapPage

variable (src : FrameSource σ)

/-- The flag that a backend adds to the entries it links tables with. -/
def linkExtra (la57 : Bool) : Word := if la57 then 0 else flagRW

theorem linkExtra_within (la57 : Bool) : linkExtra la57 &&& flagRW = linkExtra la57 := by
  cases la57 <;> decide

theorem x86PagingInit_mapPage (la57 : Bool) (m : Machine σ) (pmlt v paddr flags : Word) :
    (x86PagingInit src la57).mapPage m pmlt v paddr flags
      = mapPage src (linkExtra la57) m pmlt (upperIndices v (upperLevels la57)) (index 1 v)
          (index 0 v) paddr flags := by
  cases la57 <;> rfl

/-- The calls of `map_page` on one table, each where no large page obstructs it. -/
inductive MapStep (la57 : Bool) (pmlt : Word) : Machine σ → Machine σ → Prop
  | map {m m' : Machine σ} {ptr : Option Ptr} (v paddr flags : Word) :
      Mappable paddr flags → Unobstructed m.mem (pagingLevels la57) pmlt v flags →
      (x86PagingInit src la57).mapPage m pmlt v paddr flags = .ok (ptr, m') →
      MapStep la57 pmlt m m'

/-- The next `n` allocations succeed. -/
def FrameSource.Supplies : ℕ → σ → Prop
  | 0, _ => True
  | n + 1, s => ∃ f s', src.alloc s = some (f, s') ∧ FrameSource.Supplies n s'

variable {src}

theorem FrameSource.Supplies.pred {n : ℕ} {s : σ} (h : src.Supplies (n + 1) s) :
    src.Supplies n s := by
  induction n generalizing s with
  | zero => trivial
  | succ n ih =>
      obtain ⟨f, s', ha, h'⟩ := h
      exact ⟨f, s', ha, ih h'⟩

theorem FrameSource.Supplies.of_le {n k : ℕ} {s : σ} (h : src.Supplies k s) (hn : n ≤ k) :
    src.Supplies n s := by
  induction hn with
  | refl => exact h
  | step _ ih => exact ih h.pred

/-- A list supplies its frames. -/
theorem FreeList.supplies (s : FreeList) : FrameSource.ofList.Supplies s.1.length s := by
  obtain ⟨l, h⟩ := s
  induction l with
  | nil => trivial
  | cons f l ih => exact ⟨f, ⟨l, _⟩, rfl, ih _⟩

/-- `P n` promises `n` more frames, whatever else it promises. -/
structure FrameSource.Budget (src : FrameSource σ) (P : ℕ → σ → Prop) : Prop where
  take : ∀ {n s}, P (n + 1) s → ∃ f s', src.alloc s = some (f, s') ∧ P n s'
  pred : ∀ {n s}, P (n + 1) s → P n s

theorem FrameSource.budget_supplies : src.Budget src.Supplies := ⟨id, FrameSource.Supplies.pred⟩

section Budget

variable {P : ℕ → σ → Prop} (hP : src.Budget P)

include hP

/-- One level takes at most one frame. -/
theorem descend_returns (extra flags t : Word) (i : BitVec 9) {m : Machine σ} {n : ℕ}
    (h : P (n + 1) m.pmm) :
    ∃ t' m', descend src extra flags m t i = .ok (t', m') ∧ P n m'.pmm := by
  unfold descend
  by_cases hpres : has (m.mem t i) flagP
  · exact ⟨_, _, if_pos hpres, hP.pred h⟩
  · obtain ⟨f, s', ha, h'⟩ := hP.take h
    rw [if_neg hpres, ha]
    exact ⟨_, _, rfl, h'⟩

theorem descendAll_returns (extra flags t : Word) {is : List (BitVec 9)} {m : Machine σ} {n : ℕ}
    (h : P (is.length + n) m.pmm) :
    ∃ t' m', descendAll src extra flags m t is = .ok (t', m') ∧ P n m'.pmm := by
  induction is generalizing m t with
  | nil => exact ⟨t, m, rfl, by simpa using h⟩
  | cons i is ih =>
      rw [List.length_cons, Nat.add_right_comm] at h
      obtain ⟨t₁, m₁, h₁, hs₁⟩ := descend_returns hP extra flags t i h
      obtain ⟨t₂, m₂, h₂, hs₂⟩ := ih t₁ hs₁
      exact ⟨t₂, m₂, Exec.bind_eq_ok.mpr ⟨(t₁, m₁), h₁, h₂⟩, hs₂⟩

/-- `map_page` takes at most one frame for every table it may need. -/
theorem mapPage_budget {extra paddr flags t : Word} {upper : List (BitVec 9)}
    {i2 i1 : BitVec 9} {m : Machine σ} {n : ℕ} (h : P (upper.length + (n + 1)) m.pmm) :
    ∃ ptr m', mapPage src extra m t upper i2 i1 paddr flags = .ok (ptr, m') ∧ P n m'.pmm := by
  obtain ⟨t₁, m₁, h₁, hs₁⟩ := descendAll_returns hP extra flags t h
  obtain ⟨t₂, m₂, h₂, hs₂⟩ := descend_returns hP extra flags t₁ i2 hs₁
  rw [mapPage, h₁, Exec.ok_bind]
  by_cases hPS : has flags flagPS
  · exact ⟨none, _, if_pos hPS, hP.pred hs₁⟩
  · dsimp only
    rw [if_neg hPS, h₂]
    exact ⟨some ⟨t₂, i1⟩, _, rfl, hs₂⟩

end Budget

theorem mapPage_supplies {extra paddr flags t : Word} {upper : List (BitVec 9)}
    {i2 i1 : BitVec 9} {m : Machine σ} {n : ℕ}
    (h : src.Supplies (upper.length + (n + 1)) m.pmm) :
    ∃ ptr m', mapPage src extra m t upper i2 i1 paddr flags = .ok (ptr, m') ∧
      src.Supplies n m'.pmm :=
  mapPage_budget FrameSource.budget_supplies h

/-- `map_page` returns when there is a frame for every table it may need. -/
theorem mapPage_returns {extra paddr flags t : Word} {upper : List (BitVec 9)}
    {i2 i1 : BitVec 9} {m : Machine σ} (h : src.Supplies (upper.length + 1) m.pmm) :
    ∃ ptr m', mapPage src extra m t upper i2 i1 paddr flags = .ok (ptr, m') := by
  obtain ⟨ptr, m', hmap, -⟩ := mapPage_supplies (n := 0) h
  exact ⟨ptr, m', hmap⟩

end MapPage

section MapRuns

variable {src : FrameSource σ} {la57 : Bool} {pmlt : Word} {m₀ m m' : Machine σ}
  {paddr flags v : Word} {ptr : Option Ptr}

/-- One call of `map_page` keeps the forest, and translates one page, whatever the address. -/
theorem Forest.mapPage_decodes (hF : Forest src (single pmlt) (upperLevels la57 + 1) m)
    (hflags : PresentFlags flags) (hun : Unobstructed m.mem (pagingLevels la57) pmlt v flags)
    (h : (x86PagingInit src la57).mapPage m pmlt v paddr flags = .ok (ptr, m')) :
    Forest src (single pmlt) (upperLevels la57 + 1) m' ∧
      ∀ v', translate m'.mem (pagingLevels la57) pmlt v'
        = if sameBits (mappedSize flags).shift (30 + 9 * upperLevels la57) v v' then
            some (decode (mappedSize flags) (paddr ||| flags))
          else translate m.mem (pagingLevels la57) pmlt v' := by
  rw [x86PagingInit_mapPage] at h
  have hopen := hF.unobstructed_iff.mp hun
  refine ⟨(hF.slotOf_mapPage (r := ()) hflags (linkExtra_within la57) hopen h).1, ?_⟩
  intro v'
  have htr := hF.translate_mapPage_decode (r := ()) hflags (linkExtra_within la57) hopen h () v'
  simp only [true_and] at htr
  exact htr

theorem Forest.mapPage_translations (hF : Forest src (single pmlt) (upperLevels la57 + 1) m)
    (hm : Mappable paddr flags) (hun : Unobstructed m.mem (pagingLevels la57) pmlt v flags)
    (h : (x86PagingInit src la57).mapPage m pmlt v paddr flags = .ok (ptr, m')) :
    Forest src (single pmlt) (upperLevels la57 + 1) m' ∧
      ∀ v', translate m'.mem (pagingLevels la57) pmlt v'
        = if sameBits (mappedSize flags).shift (30 + 9 * upperLevels la57) v v' then
            some ⟨paddr, flags, mappedSize flags⟩
          else translate m.mem (pagingLevels la57) pmlt v' := by
  rw [← hm.decode_eq]
  exact hF.mapPage_decodes hm.presentFlags hun h

/-- One call of `map_page` keeps the forest, and its page translates as asked. -/
theorem Forest.mapPage_call (hF : Forest src (single pmlt) (upperLevels la57 + 1) m)
    (hm : Mappable paddr flags) (hun : Unobstructed m.mem (pagingLevels la57) pmlt v flags)
    (h : (x86PagingInit src la57).mapPage m pmlt v paddr flags = .ok (ptr, m')) :
    Forest src (single pmlt) (upperLevels la57 + 1) m' ∧
      translate m'.mem (pagingLevels la57) pmlt v
        = some ⟨paddr, flags, mappedSize flags⟩ := by
  obtain ⟨hF', htr⟩ := hF.mapPage_translations hm hun h
  exact ⟨hF', (htr v).trans (if_pos (sameBits_refl _ _ _))⟩

theorem Forest.mapPage_run (hblank : m₀.Blank src pmlt)
    (hrun : Run (MapStep src la57 pmlt) m₀ m) :
    Forest src (single pmlt) (upperLevels la57 + 1) m := by
  refine Run.invariant ?_ (hblank.forest _) hrun
  intro m₁ m₂ hF hstep
  obtain ⟨v, paddr, flags, hm, hun, h⟩ := hstep
  exact (hF.mapPage_call hm hun h).1

theorem Forest.writes_single {d : ℕ} (hF : Forest src (single pmlt) d m) {w : Ptr}
    (hw : w ∈ m.writes) : w.page = pmlt ∨ w.page ∈ m.tables := by
  rcases hF.writes w hw with ⟨u, hroot⟩ | htab
  · exact .inl hroot.symm
  · exact .inr htab

/-- **`map_page` writes page tables only.**  After any run of calls, each made
where no large page obstructs it, one more such call returns if there are frames
for its tables; whatever it returns, all words written since the table was empty
lie in the top-level table or in a frame that was allocated as a table, and the
page translates as asked. -/
theorem mapPage_writes_tables (hblank : m₀.Blank src pmlt)
    (hrun : Run (MapStep src la57 pmlt) m₀ m) (hm : Mappable paddr flags)
    (hun : Unobstructed m.mem (pagingLevels la57) pmlt v flags) :
    (src.Supplies (upperLevels la57 + 1) m.pmm →
      ∃ ptr m', (x86PagingInit src la57).mapPage m pmlt v paddr flags = .ok (ptr, m')) ∧
    ∀ ptr m', (x86PagingInit src la57).mapPage m pmlt v paddr flags = .ok (ptr, m') →
      (∀ w ∈ m'.writes, w.page = pmlt ∨ w.page ∈ m'.tables) ∧
      translate m'.mem (pagingLevels la57) pmlt v
        = some ⟨paddr, flags, mappedSize flags⟩ := by
  have hF := Forest.mapPage_run hblank hrun
  constructor
  · intro hsup
    rw [x86PagingInit_mapPage]
    exact mapPage_returns (by simpa using hsup)
  · intro ptr m' h
    obtain ⟨hF', htr⟩ := hF.mapPage_call hm hun h
    exact ⟨fun w hw => hF'.writes_single hw, htr⟩

end MapRuns

/-- The flags of the large pages of `vmm_default_table`. -/
def directMapFlags : Word := flagP ||| flagRW ||| flagPS ||| flagG ||| flagUS

/-- `portal_translate_protections` of a readable and writable portal. -/
def portalFlags : Word := flagP ||| flagUS ||| flagNX ||| flagRW

theorem bootMachine_unobstructed (la57 : Bool) (v flags : Word) :
    Unobstructed bootMachine.mem (pagingLevels la57) 0x101000 v flags := by
  have hF := bootMachine_blank.forest (upperLevels la57 + 1)
  refine hF.unobstructed_iff.mpr fun _ => ?_
  rw [slotOf_empty bootMachine_blank.empty (by cases la57 <;> decide)]
  trivial

/-- A small page behind a large page of the direct map. -/
theorem mapPage_writes_tables_behind :
    ∃ m₁ ptr m₂, (x86PagingInit .ofList true).mapPage bootMachine 0x101000 (highVma + 0x200000)
        0x200000 directMapFlags = .ok (none, m₁) ∧
      (x86PagingInit .ofList true).mapPage m₁ 0x101000 (highVma + 0x400000) 0x300000 portalFlags
        = .ok (ptr, m₂) ∧
      (∀ w ∈ m₂.writes, w.page = 0x101000 ∨ w.page ∈ m₂.tables) ∧
      translate m₂.mem 5 0x101000 (highVma + 0x400000) = some ⟨0x300000, portalFlags, .small⟩ := by
  have heval : (do
      let (ptr₁, m₁) ← (x86PagingInit .ofList true).mapPage bootMachine 0x101000
        (highVma + 0x200000) 0x200000 directMapFlags
      let _ ← (x86PagingInit .ofList true).mapPage m₁ 0x101000 (highVma + 0x400000) 0x300000
        portalFlags
      .ok (ptr₁, translate m₁.mem 5 0x101000 (highVma + 0x400000)) : Exec _)
      = .ok (none, none) := by
    decide +kernel
  obtain ⟨⟨ptr₁, m₁⟩, h₁, heval⟩ := Exec.bind_eq_ok.mp heval
  obtain ⟨⟨ptr₂, m₂⟩, h₂, heval⟩ := Exec.bind_eq_ok.mp heval
  obtain ⟨rfl, hnone⟩ := Prod.mk.inj (Except.ok.inj heval)
  have hstep : MapStep .ofList true 0x101000 bootMachine m₁ :=
    .map _ _ _ (by decide +kernel) (bootMachine_unobstructed true _ _) h₁
  have hun : Unobstructed m₁.mem (pagingLevels true) 0x101000 (highVma + 0x400000) portalFlags :=
    fun _ tr htr => by cases hnone.symm.trans htr
  exact ⟨m₁, ptr₂, m₂, h₁, h₂, (mapPage_writes_tables bootMachine_blank (.single hstep)
    (show Mappable 0x300000 portalFlags by decide +kernel) hun).2 ptr₂ m₂ h₂⟩

/-- **A small page in the direct map is written into the data.**  The kernel
maps the 2 MiB at `HIGH_VMA + 0x200000` as one large page; a DIRECT portal then
maps the page of `0x300000` there.  The walk takes the large page for a table:
the entry is written in the frame `0x200000`, which is no table, and the address
translates as before. -/
theorem mapPage_writes_data :
    ∃ m₁ ptr m₂,
      pml4MapPage .ofList bootMachine 0x101000 (highVma + 0x200000) 0x200000 directMapFlags
        = .ok (none, m₁) ∧
      pml4MapPage .ofList m₁ 0x101000 (highVma + 0x300000) 0x300000 portalFlags
        = .ok (ptr, m₂) ∧
      (∃ w ∈ m₂.writes, w.page = 0x200000 ∧ w.page ≠ 0x101000 ∧ w.page ∉ m₂.tables) ∧
      translate m₂.mem 4 0x101000 (highVma + 0x300000)
        ≠ some ⟨0x300000, portalFlags, .small⟩ := by
  have heval : (do
      let (ptr₁, m₁) ← pml4MapPage .ofList bootMachine 0x101000 (highVma + 0x200000) 0x200000
        directMapFlags
      let (_, m₂) ← pml4MapPage .ofList m₁ 0x101000 (highVma + 0x300000) 0x300000 portalFlags
      .ok (ptr₁, m₂.writes.head?, m₂.tables,
        translate m₂.mem 4 0x101000 (highVma + 0x300000)) : Exec _)
      = .ok (none, some ⟨0x200000, 0x100⟩, [0x103000, 0x102000],
          some ⟨0x200000, directMapFlags, .large⟩) := by
    decide +kernel
  obtain ⟨⟨ptr₁, m₁⟩, h₁, heval⟩ := Exec.bind_eq_ok.mp heval
  obtain ⟨⟨ptr, m₂⟩, h₂, heval⟩ := Exec.bind_eq_ok.mp heval
  simp only [Except.ok.injEq, Prod.mk.injEq] at heval
  obtain ⟨rfl, hwrite, htables, htr⟩ := heval
  refine ⟨m₁, ptr, m₂, h₁, h₂, ⟨_, List.mem_of_mem_head? hwrite, rfl, by decide, ?_⟩, ?_⟩
  · rw [htables]
    decide
  · rw [htr]
    decide

end Rock
