/-
Rock/MapOwned.lean

Whose frames `vmm_map_range` maps.

With `X86_FLAGS_PS` each page that it maps is one of 2 MiB, but

    page_table->map_page(page_table, vaddr, pmm_alloc(1, 0x200), flags);

takes a single page of 4 KiB for it, at a multiple of 2 MiB.  The other 511 frames stay free,
and later allocations return them.  Without the flag, page and frame have the same size.

Main result (`mapRange_owned_iff`): a call maps only frames marked as allocated, each through
one page, if it maps no page at all, or has not the flag, no large page is in the way and the
allocator has a frame for every page and every missing table.  Conversely, a call that none
of the chances of `Roomy` helps needs this.
-/
import Rock.Exhaustion
import Rock.MapRange
import Rock.PmmFrames

namespace Rock

open TableTree

variable {σ : Type}

/-! ### The allocator as a source of pages -/

/-- `pmm_alloc(1, 0x200)`, with the page as a frame. -/
def pmmAllocLarge (fayt : Fayt) (s : PhysicalPmm) : Option (Word × PhysicalPmm) :=
  match h : pmmAlloc fayt s.1.pmm 1 0x200 with
  | .ok (some a, p) => some (BitVec.ofNat 64 a, ⟨⟨p, ⟨a / pageSize, 1⟩ :: s.1.live⟩, by
      rcases s.2.alloc_aligned fayt (show 0 < 0x200 by decide) le_rfl with
        hnone | ⟨a', p', hsome, -, htook⟩
      · cases h.symm.trans hnone
      · cases h.symm.trans hsome
        exact htook.physical⟩)
  | _ => none

theorem pmmAllocLarge_spec {fayt : Fayt} {s s' : PhysicalPmm} {f : Word}
    (h : pmmAllocLarge fayt s = some (f, s')) :
    ∃ a, f = BitVec.ofNat 64 a ∧ 0x200 * pageSize ∣ a ∧ s.1.Took a s'.1 := by
  unfold pmmAllocLarge at h
  rcases s.2.alloc_aligned fayt (show 0 < 0x200 by decide) le_rfl with
    hnone | ⟨a, p, hsome, hdvd, htook⟩
  · split at h
    · next heq => cases heq.symm.trans hnone
    · cases h
  · split at h
    · next heq =>
        cases heq.symm.trans hsome
        cases h
        exact ⟨a, rfl, hdvd, htook⟩
    · cases h

/-- **`pmm_alloc` as a source of small and large pages.** -/
def pmmPages (fayt : Fayt) : PageSource PhysicalPmm where
  small := pmmFrames fayt
  large :=
    { alloc := pmmAllocLarge fayt
      Live := (pmmFrames fayt).Live
      alloc_frame := by
        intro s f s' h
        obtain ⟨a, rfl, -, htook⟩ := pmmAllocLarge_spec h
        exact htook.isFrame
      alloc_fresh := by
        intro s f s' h
        obtain ⟨a, rfl, -, htook⟩ := pmmAllocLarge_spec h
        show ¬ (_ → _)
        rw [htook.toNat]
        exact htook.fresh
      alloc_live := by
        intro s f s' h _
        obtain ⟨a, rfl, -, htook⟩ := pmmAllocLarge_spec h
        rw [htook.toNat]
        exact htook.granted
      alloc_mono := by
        intro s f s' g h hlive hmanaged
        obtain ⟨a, rfl, -, htook⟩ := pmmAllocLarge_spec h
        exact htook.keeps (hlive ((htook.managed _).mp hmanaged)) }
  live_large := rfl
  frame_large := by
    intro s f s' h
    obtain ⟨a, rfl, hdvd, htook⟩ := pmmAllocLarge_spec h
    exact isFrame_of_dvd hdvd htook.below

/-! ### The allocations of a call -/

section After

variable {src : FrameSource σ}

/-- `s'` is the allocator `n` allocations after `s`. -/
def FrameSource.After (src : FrameSource σ) : ℕ → σ → σ → Prop
  | 0, s, s' => s = s'
  | n + 1, s, s' => ∃ f s₁, src.alloc s = some (f, s₁) ∧ FrameSource.After src n s₁ s'

theorem FrameSource.After.supplies {n k : ℕ} {s s' : σ} (h : src.After n s s')
    (hs : src.Supplies (n + k) s) : src.Supplies k s' := by
  induction n generalizing s with
  | zero =>
      obtain rfl := h
      rwa [Nat.zero_add] at hs
  | succ n ih =>
      obtain ⟨f, s₁, ha, h⟩ := h
      rw [Nat.succ_add] at hs
      obtain ⟨f', s₂, ha', hs⟩ := hs
      cases ha.symm.trans ha'
      exact ih h hs

/-- The allocations that were made could be made. -/
theorem FrameSource.After.supplies_add {n k : ℕ} {s s' : σ} (h : src.After n s s')
    (hs : src.Supplies k s') : src.Supplies (n + k) s := by
  induction n generalizing s with
  | zero =>
      obtain rfl := h
      rwa [Nat.zero_add]
  | succ n ih =>
      obtain ⟨f, s₁, ha, h⟩ := h
      rw [Nat.succ_add]
      exact ⟨f, s₁, ha, ih h⟩

/-- An allocator without frames makes no allocation. -/
theorem FrameSource.After.eq_of_none {n : ℕ} {s s' : σ} (h : src.After n s s')
    (hnone : src.alloc s = none) : s = s' := by
  rcases n with - | n
  · exact h
  · obtain ⟨f, s₁, ha, -⟩ := h
    cases hnone.symm.trans ha

/-- What each allocation keeps is kept. -/
theorem FrameSource.After.keeps {n : ℕ} {s s' : σ} (h : src.After n s s') {P : σ → Prop}
    (hP : ∀ {s f s'}, src.alloc s = some (f, s') → P s → P s') (hs : P s) : P s' := by
  induction n generalizing s with
  | zero =>
      obtain rfl := h
      exact hs
  | succ n ih =>
      obtain ⟨f, s₁, ha, h⟩ := h
      exact ih h (hP ha hs)

variable {R : Type} {root : R → Word} {d : ℕ} {m m' : Machine σ} {r : R}
  {p is : List (BitVec 9)} {t t' extra flags : Word}

/-- A walk takes one frame for each table that is missing. -/
theorem Forest.descendAll_after (hflags : PresentFlags flags) (hextra : extra &&& flagRW = extra)
    (hF : Forest src root d m) (ht : tableAt subtable m.mem (root r) p = some t)
    (hlen : p.length + is.length ≤ d) (h : descendAll src extra flags m t is = .ok (t', m')) :
    src.After (missingTables m.mem t is) m.pmm m'.pmm := by
  induction is generalizing m p t with
  | nil =>
      obtain ⟨-, rfl⟩ := Prod.mk.inj (Except.ok.inj h)
      rfl
  | cons i is ih =>
      rw [List.length_cons] at hlen
      obtain ⟨⟨t₁, m₁⟩, h₁, hrest⟩ := Exec.bind_eq_ok.mp h
      rw [missingTables]
      by_cases hP : has (m.mem t i) flagP
      · have hstay : descend src extra flags m t i = .ok (tableOf (m.mem t i), m) := if_pos hP
        obtain ⟨rfl, rfl⟩ := Prod.mk.inj (Except.ok.inj (hstay.symm.trans h₁))
        rw [if_pos hP]
        rcases is with - | ⟨j, is⟩
        · obtain ⟨-, rfl⟩ := Prod.mk.inj (Except.ok.inj hrest)
          rfl
        · rw [List.length_cons] at hlen
          exact ih hF (hF.tableAt_of_present ht (by omega) hP) (by simp; omega) hrest
      · rw [if_neg hP]
        rcases ha : src.alloc m.pmm with - | ⟨f, s⟩
        · rw [descend, if_neg hP, ha] at h₁
          cases h₁
        · have hlink := Forest.descend_link hflags hextra hP ha
          obtain ⟨rfl, rfl⟩ := Prod.mk.inj (Except.ok.inj (hlink.symm.trans h₁))
          obtain ⟨hF₁, ht₁, -, -⟩ := hF.descend_spec ht (by omega) (fun hc => hP hc.1)
            hflags.present hflags.flags_leaf hextra h₁
          have hafter := ih hF₁ ht₁ (by simp; omega) hrest
          rw [missingTables_blank (hF.grant_mem_new ht (by omega) ha)] at hafter
          exact ⟨f, s, ha, hafter⟩

end After

/-! ### The tables that a range misses -/

section Missing

variable {mem : Mem} {t : Word}

/-- The prefixes of a path that lead to no table. -/
def missingPaths (mem : Mem) (t : Word) (path : List (BitVec 9)) : Finset (List (BitVec 9)) :=
  path.inits.toFinset.filter fun q => tableAt subtable mem t q = none

theorem mem_missingPaths {path q : List (BitVec 9)} :
    q ∈ missingPaths mem t path ↔ q <+: path ∧ tableAt subtable mem t q = none := by
  rw [missingPaths, Finset.mem_filter, List.mem_toFinset, List.mem_inits]

/-- No entry on the path is a large page. -/
def OpenPath (mem : Mem) (t : Word) (path : List (BitVec 9)) : Prop :=
  ∀ q j u, q ++ [j] <+: path → tableAt subtable mem t q = some u →
    ¬ (has (mem u j) flagP ∧ has (mem u j) flagPS)

theorem OpenPath.tail {i : BitVec 9} {is : List (BitVec 9)} {t' : Word}
    (h : OpenPath mem t (i :: is)) (ht' : subtable (mem t i) = some t') : OpenPath mem t' is := by
  intro q j u hpre hu
  refine h (i :: q) j u (List.cons_prefix_cons.mpr ⟨rfl, hpre⟩) ?_
  rw [tableAt, ht']
  exact hu

/-- The prefixes of a path behind its first index. -/
theorem missingPaths_cons (i : BitVec 9) (is : List (BitVec 9)) :
    missingPaths mem t (i :: is)
      = (is.inits.toFinset.filter fun q =>
          ((subtable (mem t i)).bind fun t' => tableAt subtable mem t' q) = none).map
        ⟨List.cons i, List.cons_injective⟩ := by
  ext q
  rw [mem_missingPaths, Finset.mem_map]
  simp only [Finset.mem_filter, List.mem_toFinset, List.mem_inits, Function.Embedding.coeFn_mk]
  constructor
  · rintro ⟨hpre, hnone⟩
    rcases q with - | ⟨j, q⟩
    · cases hnone
    · obtain ⟨rfl, htail⟩ := List.cons_prefix_cons.mp hpre
      exact ⟨q, ⟨htail, hnone⟩, rfl⟩
  · rintro ⟨q, ⟨hpre, hnone⟩, rfl⟩
    exact ⟨List.cons_prefix_cons.mpr ⟨rfl, hpre⟩, hnone⟩

theorem nodup_inits (is : List (BitVec 9)) : is.inits.Nodup := by
  induction is with
  | nil => exact List.nodup_singleton []
  | cons i is ih =>
      rw [List.inits_cons, List.nodup_cons]
      refine ⟨?_, ih.map List.cons_injective⟩
      simp

/-- On an open path, the missing tables are those of its prefixes. -/
theorem missingTables_eq_card {path : List (BitVec 9)} (h : OpenPath mem t path) :
    missingTables mem t path = (missingPaths mem t path).card := by
  induction path generalizing t with
  | nil => rfl
  | cons i is ih =>
      rw [missingTables, missingPaths_cons, Finset.card_map]
      by_cases hP : has (mem t i) flagP
      · have hsub : subtable (mem t i) = some (tableOf (mem t i)) :=
          subtable_eq_some.mpr ⟨hP, fun hPS => h [] i t ⟨is, rfl⟩ rfl ⟨hP, hPS⟩, rfl⟩
        rw [if_pos hP, hsub, ih (h.tail hsub)]
        rfl
      · have hsub : subtable (mem t i) = none := if_neg fun hc => hP hc.1
        rw [if_neg hP, hsub]
        simp only [Option.bind_none, Finset.filter_true]
        rw [List.toFinset_card_of_nodup (nodup_inits is), List.length_inits]

end Missing

section Tables

variable {R : Type} {src : FrameSource σ} {root : R → Word} {d : ℕ} {m m' : Machine σ} {r : R}
  {p is : List (BitVec 9)} {i : BitVec 9} {t t' extra flags : Word}

/-- The tables on the way to a table are there. -/
theorem tableAt_ne_none_of_prefix {mem : Mem} {t t' : Word} {p q : List (BitVec 9)}
    (ht : tableAt subtable mem t p = some t') (hq : q <+: p) : tableAt subtable mem t q ≠ none := by
  obtain ⟨s, rfl⟩ := hq
  intro hnone
  rw [tableAt_append, hnone] at ht
  cases ht

variable (hflags : PresentFlags flags) (hextra : extra &&& flagRW = extra)

include hflags hextra

/-- One level of `map_page` adds at most the table below its entry. -/
theorem Forest.descend_tables (hF : Forest src root d m)
    (ht : tableAt subtable m.mem (root r) p = some t) (hp : p.length < d)
    (hopen : ¬ (has (m.mem t i) flagP ∧ has (m.mem t i) flagPS))
    (h : descend src extra flags m t i = .ok (t', m')) (r' : R) {q : List (BitVec 9)}
    (hq : q.length ≤ d) :
    tableAt subtable m'.mem (root r') q = none ↔
      tableAt subtable m.mem (root r') q = none ∧ ¬ (r' = r ∧ q = p ++ [i]) := by
  by_cases hP : has (m.mem t i) flagP
  · have hstay : descend src extra flags m t i = .ok (tableOf (m.mem t i), m) := if_pos hP
    obtain ⟨rfl, rfl⟩ := Prod.mk.inj (Except.ok.inj (hstay.symm.trans h))
    refine (and_iff_left_of_imp ?_).symm
    rintro hnone ⟨rfl, rfl⟩
    rw [tableAt_snoc, ht, Option.bind_some,
      subtable_eq_some.mpr ⟨hP, fun hPS => hopen ⟨hP, hPS⟩, rfl⟩] at hnone
    cases hnone
  · rcases ha : src.alloc m.pmm with - | ⟨f, s⟩
    · rw [descend, if_neg hP, ha] at h
      cases h
    · have hlink := Forest.descend_link hflags hextra hP ha
      obtain ⟨rfl, rfl⟩ := Prod.mk.inj (Except.ok.inj (hlink.symm.trans h))
      have he := Forest.subtable_linkEntry (src.alloc_frame ha) hflags.present hflags.flags_leaf
        hextra
      have hold : subtable (m.mem t i) = none := if_neg fun hc => hP hc.1
      simp only [Option.eq_none_iff_forall_ne_some, ne_eq,
        hF.tableAt_grant ht hp ha he hold hq, not_or]
      constructor
      · exact fun hnone => ⟨fun u => (hnone u).2, fun hc => (hnone _).1 ⟨hc.1, hc.2, rfl⟩⟩
      · exact fun hnone u => ⟨fun hc => hnone.2 ⟨hc.1, hc.2.1⟩, hnone.1 u⟩

/-- A walk adds the tables on its way. -/
theorem Forest.descendAll_tables (hF : Forest src root d m)
    (ht : tableAt subtable m.mem (root r) p = some t) (hlen : p.length + is.length < d)
    (h : descendAll src extra flags m t is = .ok (t', m')) (r' : R) {q : List (BitVec 9)}
    (hq : q.length ≤ d) :
    tableAt subtable m'.mem (root r') q = none ↔
      tableAt subtable m.mem (root r') q = none ∧ ¬ (r' = r ∧ q <+: p ++ is) := by
  induction is generalizing m p t with
  | nil =>
      obtain ⟨rfl, rfl⟩ := Prod.mk.inj (Except.ok.inj h)
      refine (and_iff_left_of_imp ?_).symm
      rintro hnone ⟨rfl, hpre⟩
      rw [List.append_nil] at hpre
      exact tableAt_ne_none_of_prefix ht hpre hnone
  | cons i is ih =>
      rw [List.length_cons] at hlen
      obtain ⟨⟨t₁, m₁⟩, h₁, hrest⟩ := Exec.bind_eq_ok.mp h
      have hopen := hF.small (i := i) (show p.length + 1 < d by omega) ht
      obtain ⟨hF₁, ht₁, -, -⟩ := hF.descend_spec ht (by omega) hopen hflags.present
        hflags.flags_leaf hextra h₁
      rw [ih hF₁ ht₁ (by simp; omega) hrest,
        hF.descend_tables hflags hextra ht (by omega) hopen h₁ r' hq, List.append_assoc,
        List.singleton_append, and_assoc, and_congr_right_iff]
      intro _
      refine and_iff_right_of_imp fun hnot hc => hnot ⟨hc.1, ?_⟩
      rw [hc.2]
      exact ⟨is, by simp⟩

end Tables

section Range

variable {src : FrameSource σ} {la57 : Bool} {pmlt flags v paddr : Word} {m m' : Machine σ} {n : ℕ}

/-- The indices on the way to the page table of `v`. -/
def tablePath (la57 : Bool) (v : Word) : List (BitVec 9) :=
  upperIndices v (upperLevels la57) ++ [index 1 v]

theorem tablePath_length (la57 : Bool) (v : Word) :
    (tablePath la57 v).length = upperLevels la57 + 1 := by
  simp [tablePath]

/-- The tables that are missing for the `n` pages from `v` on. -/
def rangeMissing (la57 : Bool) (pmlt v : Word) (n : ℕ) (mem : Mem) : Finset (List (BitVec 9)) :=
  (Finset.range n).biUnion fun i => missingPaths mem pmlt (tablePath la57 (nthPage .small v i))

theorem mem_rangeMissing {mem : Mem} {q : List (BitVec 9)} :
    q ∈ rangeMissing la57 pmlt v n mem ↔
      (∃ i < n, q <+: tablePath la57 (nthPage .small v i)) ∧
        tableAt subtable mem pmlt q = none := by
  simp only [rangeMissing, Finset.mem_biUnion, Finset.mem_range, mem_missingPaths]
  constructor
  · rintro ⟨i, hi, hpre, hnone⟩
    exact ⟨⟨i, hi, hpre⟩, hnone⟩
  · rintro ⟨⟨i, hi, hpre⟩, hnone⟩
    exact ⟨i, hi, hpre, hnone⟩

theorem rangeMissing_succ (mem : Mem) :
    rangeMissing la57 pmlt v (n + 1) mem
      = rangeMissing la57 pmlt (nthPage .small v 1) n mem
        ∪ missingPaths mem pmlt (tablePath la57 v) := by
  ext q
  rw [Finset.mem_union, mem_rangeMissing, mem_rangeMissing, mem_missingPaths, ← or_and_right,
    or_comm]
  exact and_congr_left' (exists_nthPage_succ (P := fun page => q <+: tablePath la57 page))

/-- `map_page` has the tables of a page, and only adds those. -/
def AddsTables (la57 : Bool) (pmlt v : Word) (mem mem' : Mem) : Prop :=
  ∀ q : List (BitVec 9), q.length ≤ upperLevels la57 + 1 →
    (tableAt subtable mem' pmlt q = none ↔
      tableAt subtable mem pmlt q = none ∧ ¬ q <+: tablePath la57 v)

/-- After the first page of a range, the others miss what they share with it no more. -/
theorem AddsTables.card {mem mem' : Mem} (h : AddsTables la57 pmlt v mem mem') :
    (rangeMissing la57 pmlt v (n + 1) mem).card
      = (rangeMissing la57 pmlt (nthPage .small v 1) n mem').card
        + (missingPaths mem pmlt (tablePath la57 v)).card := by
  have hrest : rangeMissing la57 pmlt (nthPage .small v 1) n mem'
      = rangeMissing la57 pmlt (nthPage .small v 1) n mem
        \ missingPaths mem pmlt (tablePath la57 v) := by
    ext q
    rw [Finset.mem_sdiff, mem_rangeMissing, mem_rangeMissing, mem_missingPaths]
    constructor
    · rintro ⟨⟨i, hi, hpre⟩, hnone⟩
      have hlen := hpre.length_le.trans_eq (tablePath_length la57 _)
      obtain ⟨hold, hnot⟩ := (h q hlen).mp hnone
      exact ⟨⟨⟨i, hi, hpre⟩, hold⟩, fun hc => hnot hc.1⟩
    · rintro ⟨⟨⟨i, hi, hpre⟩, hold⟩, hnot⟩
      have hlen := hpre.length_le.trans_eq (tablePath_length la57 _)
      exact ⟨⟨i, hi, hpre⟩, (h q hlen).mpr ⟨hold, fun hc => hnot ⟨hc, hold⟩⟩⟩
  rw [rangeMissing_succ, hrest, Finset.card_sdiff_add_card]

/-- Where no large page is present, the way to the page table is open. -/
theorem Forest.openPath (hF : Forest src (single pmlt) (upperLevels la57 + 1) m)
    (hopen : (slotOf m.mem (upperLevels la57) pmlt v).Open) :
    OpenPath m.mem pmlt (tablePath la57 v) := by
  intro q j u hpre hu
  have hlen := hpre.length_le
  rw [List.length_append, List.length_singleton, tablePath_length] at hlen
  rcases Nat.lt_or_ge (q.length + 1) (upperLevels la57 + 1) with hlt | hge
  · exact hF.small (r := ()) hlt hu
  · -- the entry of the page directory
    have heq : q ++ [j] = tablePath la57 v :=
      hpre.eq_of_length (by rw [tablePath_length, List.length_append, List.length_singleton]; omega)
    obtain ⟨rfl, hj⟩ := List.append_inj' heq rfl
    obtain rfl := List.singleton_inj.mp hj
    exact (slotAt_open hu).mp hopen

/-- **The tables of one call** for a small page: one allocation for each that is missing. -/
theorem Forest.mapPage_counts (hF : Forest src (single pmlt) (upperLevels la57 + 1) m)
    (hflags : PresentFlags flags) (hPS : ¬ has flags flagPS)
    (hun : Unobstructed m.mem (pagingLevels la57) pmlt v flags) {ptr : Option Ptr}
    (h : (x86PagingInit src la57).mapPage m pmlt v paddr flags = .ok (ptr, m')) :
    src.After (missingPaths m.mem pmlt (tablePath la57 v)).card m.pmm m'.pmm ∧
      AddsTables la57 pmlt v m.mem m'.mem := by
  have hopen := hF.unobstructed_iff.mp hun hPS
  have hroot : tableAt subtable m.mem (single pmlt ()) [] = some pmlt := rfl
  rw [x86PagingInit_mapPage] at h
  refine ⟨?_, fun q hq => ?_⟩
  · rw [← missingTables_eq_card (hF.openPath hopen)]
    rw [mapPage_eq, aboveLeaf, if_neg hPS] at h
    obtain ⟨⟨t, m₁⟩, hall, hleaf⟩ := Exec.bind_eq_ok.mp h
    obtain ⟨-, rfl⟩ := Prod.mk.inj (Except.ok.inj hleaf)
    have hlen : (tablePath la57 v).length ≤ upperLevels la57 + 1 := (tablePath_length la57 v).le
    have hafter : src.After (missingTables m.mem pmlt (tablePath la57 v)) m.pmm m₁.pmm :=
      hF.descendAll_after hflags (linkExtra_within la57) hroot (by simpa using hlen) hall
    exact hafter
  · rw [mapPage, Exec.bind_eq_ok] at h
    obtain ⟨⟨t₁, m₁⟩, h₁, h⟩ := h
    simp only [if_neg hPS] at h
    obtain ⟨⟨t₂, m₂⟩, h₂, h⟩ := Exec.bind_eq_ok.mp h
    obtain ⟨-, rfl⟩ := Prod.mk.inj (Except.ok.inj h)
    have hup : (upperIndices v (upperLevels la57)).length + 1 = upperLevels la57 + 1 := by simp
    obtain ⟨hF₁, ht₁, hslots⟩ := Forest.descendAll_spec (r := ()) (p := []) hflags.present
      hflags.flags_leaf (linkExtra_within la57) hF hroot (by simp) h₁
    have hopen₁ : ¬ (has (m₁.mem t₁ (index 1 v)) flagP ∧ has (m₁.mem t₁ (index 1 v)) flagPS) := by
      rw [← slotAt_open ht₁, List.nil_append, hslots () _ _ hup]
      exact hopen
    obtain ⟨hF₂, ht₂, -, -⟩ := hF₁.descend_spec ht₁ (by simp) hopen₁ hflags.present
      hflags.flags_leaf (linkExtra_within la57) h₂
    have hlast : tableAt subtable (put m₂.mem t₂ (index 0 v) (paddr ||| flags)) (single pmlt ()) q
        = tableAt subtable m₂.mem (single pmlt ()) q :=
      tableAt_put_last hF₂.sep ht₂ (by simp) hq
    have hstep := hF₁.descend_tables hflags (linkExtra_within la57) ht₁ (by simp) hopen₁ h₂ () hq
    have hwalk := hF.descendAll_tables hflags (linkExtra_within la57) hroot (by simp) h₁ () hq
    refine (Iff.of_eq (congrArg (· = none) hlast)).trans ?_
    rw [hstep, hwalk, and_assoc]
    refine and_congr_right fun _ => ?_
    rw [tablePath, List.prefix_concat_iff, not_or]
    simp [and_comm]

end Range

/-! ### Mapping a range of small pages -/

section Small

variable {src : FrameSource σ} {la57 : Bool} {pmlt flags v : Word} {m m' : Machine σ} {n : ℕ}

/-- No large page is present in a range of small pages. -/
def RangeOpen (la57 : Bool) (pmlt v : Word) (n : ℕ) (mem : Mem) : Prop :=
  ∀ u, InPages la57 .small v n u →
    ∀ tr, translate mem (pagingLevels la57) pmlt u = some tr → tr.size ≠ .large

/-- The pages of a range are mapped to frames that the allocator has given out since, each of
which is that of one page. -/
structure MapsFresh (src : FrameSource σ) (Own : σ → Word → Prop) (la57 : Bool)
    (pmlt v flags : Word) (n : ℕ) (m m' : Machine σ) : Prop where
  mapped : ∀ u, InPages la57 .small v n u → ∃ f,
    translate m'.mem (pagingLevels la57) pmlt u = some ⟨f, flags, .small⟩ ∧
      Own m'.pmm f ∧ ¬ src.Live m.pmm f
  once : ∀ u u', InPages la57 .small v n u → InPages la57 .small v n u' →
    translate m'.mem (pagingLevels la57) pmlt u = translate m'.mem (pagingLevels la57) pmlt u' →
    sameBits 12 (addrBits la57) u u'
  others : ∀ u, ¬ InPages la57 .small v n u →
    translate m'.mem (pagingLevels la57) pmlt u = translate m.mem (pagingLevels la57) pmlt u

theorem Forest.rangeMissing_takePage (hF : Forest src (single pmlt) (upperLevels la57 + 1) m)
    {f : Word} {s : σ} (ha : src.alloc m.pmm = some (f, s)) :
    rangeMissing la57 pmlt v n (m.takePage f s).mem = rangeMissing la57 pmlt v n m.mem := by
  ext q
  rw [mem_rangeMissing, mem_rangeMissing]
  refine and_congr_right ?_
  rintro ⟨i, -, hpre⟩
  have hlen := hpre.length_le.trans_eq (tablePath_length la57 _)
  exact Iff.of_eq (congrArg (· = none) (hF.tableAt_takePage (r := ()) ha hlen))

/-- `map_page` for a small page returns if there are frames for the missing tables. -/
theorem Forest.mapPage_returns (hF : Forest src (single pmlt) (upperLevels la57 + 1) m)
    (hflags : PresentFlags flags) (hPS : ¬ has flags flagPS)
    (hun : Unobstructed m.mem (pagingLevels la57) pmlt v flags) (paddr : Word)
    (hs : src.Supplies (missingPaths m.mem pmlt (tablePath la57 v)).card m.pmm) :
    ∃ ptr m', (x86PagingInit src la57).mapPage m pmlt v paddr flags = .ok (ptr, m') := by
  have hopen := hF.unobstructed_iff.mp hun hPS
  rw [← missingTables_eq_card (hF.openPath hopen)] at hs
  have hiff := hF.mapPageKept_ok_iff (r := ()) (v := v) hflags paddr
  rw [aboveLeaf, if_neg hPS] at hiff
  obtain ⟨ptr, m', hkept⟩ := hiff.mpr hs
  refine ⟨ptr, m', ?_⟩
  rw [x86PagingInit_mapPage]
  exact mapPageKept_eq_ok.mp hkept

/-- From `m` to `m'`, one page was mapped to the frame `f`, which was taken for it. -/
structure PageTaken (src : FrameSource σ) (la57 : Bool) (pmlt v flags : Word) (m m' : Machine σ)
    (f : Word) (s : σ) (tables : ℕ) : Prop where
  alloc : src.alloc m.pmm = some (f, s)
  after : src.After tables s m'.pmm
  forest : Forest src (single pmlt) (upperLevels la57 + 1) m'
  lookup : ∀ u, translate m'.mem (pagingLevels la57) pmlt u
    = if sameBits 12 (addrBits la57) v u then some ⟨f, flags, .small⟩
      else translate m.mem (pagingLevels la57) pmlt u

/-- What the allocations of a page keep. -/
theorem PageTaken.keeps {f : Word} {s : σ} {tables : ℕ}
    (h : PageTaken src la57 pmlt v flags m m' f s tables) {P : σ → Prop}
    (hP : ∀ {s f s'}, src.alloc s = some (f, s') → P s → P s') (hm : P m.pmm) : P m'.pmm :=
  h.after.keeps hP (hP h.alloc hm)

theorem PageTaken.live {f : Word} {s : σ} {tables : ℕ}
    (h : PageTaken src la57 pmlt v flags m m' f s tables) : src.Live m'.pmm f :=
  h.after.keeps (fun ha => src.alloc_mono ha) (src.alloc_live h.alloc)

/-- **One turn of the loop** that has a frame. -/
theorem Forest.pageTaken (hF : Forest src (single pmlt) (upperLevels la57 + 1) m)
    (hflags : PresentFlags flags) (hPS : ¬ has flags flagPS)
    (hun : Unobstructed m.mem (pagingLevels la57) pmlt v flags) {f : Word} {s : σ}
    (ha : src.alloc m.pmm = some (f, s)) {ptr : Option Ptr}
    (hmap : (x86PagingInit src la57).mapPage (m.takePage f s) pmlt v f flags = .ok (ptr, m')) :
    PageTaken src la57 pmlt v flags m m' f s
        (missingPaths (m.takePage f s).mem pmlt (tablePath la57 v)).card ∧
      AddsTables la57 pmlt v (m.takePage f s).mem m'.mem := by
  have hF₁ := hF.takePage ha
  have htr₁ : ∀ u, translate (m.takePage f s).mem (pagingLevels la57) pmlt u
      = translate m.mem (pagingLevels la57) pmlt u := hF.lookup_takePage ha ()
  have hun₁ : Unobstructed (m.takePage f s).mem (pagingLevels la57) pmlt v flags :=
    fun hPS tr htr => hun hPS tr ((htr₁ v).symm.trans htr)
  have hsize : mappedSize flags = .small := if_neg hPS
  obtain ⟨hafter, hadds⟩ := hF₁.mapPage_counts hflags hPS hun₁ hmap
  obtain ⟨hF₂, htr₂⟩ := hF₁.mapPage_translations
    ⟨hflags.present, hflags.flags_leaf, hsize ▸ src.alloc_frame ha⟩ hun₁ hmap
  rw [hsize] at htr₂
  refine ⟨⟨ha, hafter, hF₂, fun u => ?_⟩, hadds⟩
  rw [htr₂ u, htr₁ u]
  rfl

/-- The first page of an open range is not obstructed. -/
theorem RangeOpen.unobstructed (hopen : RangeOpen la57 pmlt v (n + 1) m.mem) :
    Unobstructed m.mem (pagingLevels la57) pmlt v flags :=
  fun _ tr htr => hopen v (inPages_succ.mpr (.inl (sameBits_refl _ _ _))) tr htr

/-- A turn leaves the frames that the rest of the range needs. -/
theorem Forest.mapFrames_turn (hF : Forest src (single pmlt) (upperLevels la57 + 1) m)
    (hflags : PresentFlags flags) (hPS : ¬ has flags flagPS)
    (hopen : RangeOpen la57 pmlt v (n + 1) m.mem)
    (hs : src.Supplies (n + 1 + (rangeMissing la57 pmlt v (n + 1) m.mem).card) m.pmm) :
    ∃ f s ptr m₂ tables, PageTaken src la57 pmlt v flags m m₂ f s tables ∧
      (x86PagingInit src la57).mapPage (m.takePage f s) pmlt v f flags = .ok (ptr, m₂) ∧
      src.Supplies (n + (rangeMissing la57 pmlt (nthPage .small v 1) n m₂.mem).card) m₂.pmm := by
  rw [Nat.succ_add] at hs
  obtain ⟨f, s, ha, hs⟩ := hs
  have hun₁ : Unobstructed (m.takePage f s).mem (pagingLevels la57) pmlt v flags :=
    fun hPS tr htr => hopen.unobstructed hPS tr ((hF.lookup_takePage ha () v).symm.trans htr)
  -- the tables that are missing for this page are some of those for the range
  rw [← hF.rangeMissing_takePage ha] at hs
  have hmissing : (missingPaths (m.takePage f s).mem pmlt (tablePath la57 v)).card
      ≤ (rangeMissing la57 pmlt v (n + 1) (m.takePage f s).mem).card := by
    rw [rangeMissing_succ]
    exact Finset.card_le_card Finset.subset_union_right
  obtain ⟨ptr, m₂, hmap⟩ := (hF.takePage ha).mapPage_returns hflags hPS hun₁ f
    (hs.of_le (by omega))
  obtain ⟨hpage, hadds⟩ := hF.pageTaken hflags hPS hopen.unobstructed ha hmap
  refine ⟨f, s, ptr, m₂, _, hpage, hmap, ?_⟩
  rw [hadds.card, ← Nat.add_assoc, Nat.add_comm] at hs
  exact hpage.after.supplies hs

/-- The rest of an open range is open after its first page. -/
theorem RangeOpen.tail {tr₀ : Translation} (hopen : RangeOpen la57 pmlt v (n + 1) m.mem)
    (htr₀ : tr₀.size = .small)
    (h : ∀ u, translate m'.mem (pagingLevels la57) pmlt u
      = if sameBits 12 (addrBits la57) v u then some tr₀
        else translate m.mem (pagingLevels la57) pmlt u) :
    RangeOpen la57 pmlt (nthPage .small v 1) n m'.mem := by
  intro u hu tr htr
  rw [h] at htr
  split_ifs at htr with hfirst
  · obtain rfl := Option.some.inj htr
    rw [htr₀]
    exact nofun
  · exact hopen u (inPages_succ.mpr (.inr hu)) tr htr

variable {Own : σ → Word → Prop}

/-- The first page of a range and the rest of it.  A page that occurs again in the rest is that
of the last call for it. -/
theorem MapsFresh.cons {f : Word} {s : σ} {tables : ℕ} {m₂ : Machine σ}
    (h : PageTaken src la57 pmlt v flags m m₂ f s tables)
    (hrest : MapsFresh src Own la57 pmlt (nthPage .small v 1) flags n m₂ m')
    (hown : Own m'.pmm f) : MapsFresh src Own la57 pmlt v flags (n + 1) m m' := by
  have hfirst : ∀ u, InPages la57 .small v (n + 1) u →
      ¬ InPages la57 .small (nthPage .small v 1) n u →
      sameBits 12 (addrBits la57) v u ∧
        translate m'.mem (pagingLevels la57) pmlt u = some ⟨f, flags, .small⟩ := by
    intro u hu hlater
    have hsame := (inPages_succ.mp hu).resolve_right hlater
    exact ⟨hsame, (hrest.others u hlater).trans ((h.lookup u).trans (if_pos hsame))⟩
  refine ⟨?_, ?_, ?_⟩
  · intro u hu
    by_cases hlater : InPages la57 .small (nthPage .small v 1) n u
    · obtain ⟨g, htr, hg, hnot⟩ := hrest.mapped u hlater
      exact ⟨g, htr, hg, fun hlive => hnot (h.keeps (fun ha => src.alloc_mono ha) hlive)⟩
    · exact ⟨f, (hfirst u hu hlater).2, hown, src.alloc_fresh h.alloc⟩
  · intro u u' hu hu' heq
    by_cases hlater : InPages la57 .small (nthPage .small v 1) n u <;>
      by_cases hlater' : InPages la57 .small (nthPage .small v 1) n u'
    · exact hrest.once u u' hlater hlater' heq
    · obtain ⟨g, htr, -, hnot⟩ := hrest.mapped u hlater
      cases htr.symm.trans (heq.trans (hfirst u' hu' hlater').2)
      exact absurd h.live hnot
    · obtain ⟨g, htr, -, hnot⟩ := hrest.mapped u' hlater'
      cases htr.symm.trans (heq.symm.trans (hfirst u hu hlater).2)
      exact absurd h.live hnot
    · exact sameBits_trans (sameBits_symm (hfirst u hu hlater).1) (hfirst u' hu' hlater').1
  · intro u hu
    rw [inPages_succ, not_or] at hu
    rw [hrest.others u hu.2, h.lookup]
    exact if_neg hu.1

/-- **A range of small pages** is mapped to frames of its own, if no large page is in the way
and there are frames for its pages and for its missing tables. -/
theorem mapFrames_fresh (hown : ∀ {s f s'}, src.alloc s = some (f, s') → Own s' f)
    (hkeep : ∀ {s g s' f}, src.alloc s = some (g, s') → Own s f → Own s' f)
    (hF : Forest src (single pmlt) (upperLevels la57 + 1) m) (hflags : PresentFlags flags)
    (hPS : ¬ has flags flagPS) (hopen : RangeOpen la57 pmlt v n m.mem)
    (hs : src.Supplies (n + (rangeMissing la57 pmlt v n m.mem).card) m.pmm) :
    ∃ m', mapFrames (x86PagingInit src la57) src pmlt flags 0x1000 n v m = .ok m' ∧
      (∀ f, Own m.pmm f → Own m'.pmm f) ∧ MapsFresh src Own la57 pmlt v flags n m m' := by
  induction n generalizing v m with
  | zero =>
      exact ⟨m, rfl, fun _ h => h, fun u hu => absurd hu not_inPages_zero,
        fun u _ hu => absurd hu not_inPages_zero, fun _ _ => rfl⟩
  | succ n ih =>
      obtain ⟨f, s, ptr, m₂, tables, hpage, hmap, hs₂⟩ := hF.mapFrames_turn hflags hPS hopen hs
      obtain ⟨m', hrest, hkept, hfresh⟩ := ih hpage.forest (hopen.tail rfl hpage.lookup) hs₂
      refine ⟨m', ?_, ?_, .cons hpage hfresh (hkept f ?_)⟩
      · rw [mapFrames, allocPage_eq_of_some hpage.alloc]
        exact Exec.bind_eq_ok.mpr ⟨(ptr, m₂), hmap, hrest⟩
      · exact fun g hg => hkept g (hpage.keeps (fun ha => hkeep ha) hg)
      · exact hpage.after.keeps (fun ha => hkeep ha) (hown hpage.alloc)

/-- **A range without frames**: its last page is mapped to what is no frame. -/
theorem mapFrames_exhausted (hF : Forest src (single pmlt) (upperLevels la57 + 1) m)
    (hflags : PresentFlags flags) (hPS : ¬ has flags flagPS)
    (hopen : RangeOpen la57 pmlt v (n + 1) m.mem) (hnone : src.alloc m.pmm = none)
    (h : mapFrames (x86PagingInit src la57) src pmlt flags 0x1000 (n + 1) v m = .ok m') :
    m.pmm = m'.pmm ∧ ∃ u, InPages la57 .small v (n + 1) u ∧
      translate m'.mem (pagingLevels la57) pmlt u = some (decode .small (-1)) := by
  induction n generalizing v m with
  | zero =>
      rw [mapFrames, allocPage_eq_of_none hnone] at h
      obtain ⟨⟨ptr, m₂⟩, hmap, hrest⟩ := Exec.bind_eq_ok.mp h
      obtain rfl := Except.ok.inj hrest
      refine ⟨(hF.mapPage_counts hflags hPS hopen.unobstructed hmap).1.eq_of_none hnone, v,
        inPages_succ.mpr (.inl (sameBits_refl _ _ _)), ?_⟩
      rw [(hF.mapPage_decodes hflags hopen.unobstructed hmap).2, if_pos (sameBits_refl _ _ _),
        ones_or, show mappedSize flags = .small from if_neg hPS]
  | succ n ih =>
      rw [mapFrames, allocPage_eq_of_none hnone] at h
      obtain ⟨⟨ptr, m₂⟩, hmap, hrest⟩ := Exec.bind_eq_ok.mp h
      obtain ⟨hF₂, htr₂⟩ := hF.mapPage_decodes hflags hopen.unobstructed hmap
      rw [ones_or, show mappedSize flags = .small from if_neg hPS] at htr₂
      have hpmm := (hF.mapPage_counts hflags hPS hopen.unobstructed hmap).1.eq_of_none hnone
      obtain ⟨hpmm', u, hu, htr⟩ := ih hF₂ (hopen.tail rfl htr₂) (hpmm ▸ hnone) hrest
      exact ⟨hpmm.trans hpmm', u, inPages_succ.mpr (.inr hu), htr⟩

/-- **A range that was mapped to frames** had them.  That a page is not mapped to -1 may rest
on what the allocations keep. -/
theorem mapFrames_supplies {P : σ → Prop}
    (hP : ∀ {s f s'}, src.alloc s = some (f, s') → P s → P s') (hm : P m.pmm)
    (hF : Forest src (single pmlt) (upperLevels la57 + 1) m)
    (hflags : PresentFlags flags) (hPS : ¬ has flags flagPS)
    (hopen : RangeOpen la57 pmlt v n m.mem)
    (h : mapFrames (x86PagingInit src la57) src pmlt flags 0x1000 n v m = .ok m')
    (hframes : P m'.pmm → ∀ u, InPages la57 .small v n u →
      translate m'.mem (pagingLevels la57) pmlt u ≠ some (decode .small (-1))) :
    src.Supplies (n + (rangeMissing la57 pmlt v n m.mem).card) m.pmm := by
  induction n generalizing v m with
  | zero => exact trivial
  | succ n ih =>
      rcases ha : src.alloc m.pmm with - | ⟨f, s⟩
      · obtain ⟨hpmm, u, hu, htr⟩ := mapFrames_exhausted hF hflags hPS hopen ha h
        exact absurd htr (hframes (hpmm ▸ hm) u hu)
      rw [mapFrames, allocPage_eq_of_some ha] at h
      obtain ⟨⟨ptr, m₂⟩, hmap, hrest⟩ := Exec.bind_eq_ok.mp h
      obtain ⟨hpage, hadds⟩ := hF.pageTaken hflags hPS hopen.unobstructed ha hmap
      have hs := ih (hpage.keeps hP hm) hpage.forest (hopen.tail rfl hpage.lookup) hrest
        fun hm' u hu => hframes hm' u (inPages_succ.mpr (.inr hu))
      rw [Nat.succ_add, ← hF.rangeMissing_takePage ha, hadds.card, ← Nat.add_assoc, Nat.add_comm]
      exact ⟨f, s, ha, hpage.after.supplies_add hs⟩

end Small

/-! ### Frames that stay allocated -/

namespace PmmState

variable {fayt : Fayt} {s s' : PmmState} {k : ℕ}

/-- The bit of the page `k` is set in the bitmap of its module. -/
def Marked (s : PmmState) (k : ℕ) : Prop :=
  ∃ m ∈ s.pmm.modules, ∃ i < m.bitmapEntryCnt, k = m.base / pageSize + i ∧ m.bitmap.bits i = true

instance (s : PmmState) (k : ℕ) : Decidable (s.Marked k) :=
  inferInstanceAs (Decidable (∃ m ∈ _, ∃ i < _, _))

theorem Marked.managed (h : s.Marked k) : s.Managed k := by
  obtain ⟨m, hm, i, hi, rfl, -⟩ := h
  exact ⟨m.frames, List.mem_map_of_mem hm, Nat.le_add_right _ _, Nat.add_lt_add_left hi _⟩

/-- The number of pages that are in no live block, of the 2 MiB from the page `a` on. -/
def freeIn (s : PmmState) (a : ℕ) : ℕ :=
  ((Finset.range 0x200).filter fun j => ¬ ∃ b ∈ s.live, b.Has (a + j)).card

/-- An allocation takes one page. -/
theorem Took.freeIn {a : ℕ} (h : s.Took a s') (k : ℕ) : s.freeIn k ≤ s'.freeIn k + 1 := by
  unfold PmmState.freeIn
  rw [← Finset.card_singleton (a / pageSize - k)]
  refine (Finset.card_le_card fun j hj => ?_).trans (Finset.card_union_le _ _)
  obtain ⟨hlt, hfree⟩ := Finset.mem_filter.mp hj
  rw [Finset.mem_union, Finset.mem_filter, Finset.mem_singleton]
  by_cases hnew : k + j = a / pageSize
  · exact .inr (by omega)
  · refine .inl ⟨hlt, ?_⟩
    rintro ⟨b, hb, hhas⟩
    rw [h.live] at hb
    rcases List.mem_cons.mp hb with rfl | hb
    · have hpage : a / pageSize ≤ k + j ∧ k + j < a / pageSize + 1 := hhas
      omega
    · exact hfree ⟨b, hb, hhas⟩

/-- A call that does not free the page `k`. -/
def KeepsPage (fayt : Fayt) (k : ℕ) (s s' : PmmState) : Prop :=
  Step fayt s s' ∧ ∀ b ∈ s.live, b.Has k → b ∈ s'.live

/-- No `pmm_alloc` returns the page `k` before it is freed. -/
def Reserved (fayt : Fayt) (s : PmmState) (k : ℕ) : Prop :=
  ∀ s', Run (KeepsPage fayt k) s s' → ∀ cnt align a p, cnt < 2 ^ 64 →
    (∀ m ∈ s'.pmm.modules, m.Fits align) → pmmAlloc fayt s'.pmm cnt align = .ok (some a, p) →
      ¬ (⟨a / pageSize, cnt⟩ : Block).Has k

/-- The marked pages are those of live blocks. -/
theorem Inv.marked_iff (h : s.Inv) : s.Marked k ↔ ∃ b ∈ s.live, b.Has k := by
  refine ⟨fun ⟨m, hm, i, hi, hk, hbit⟩ => hk ▸ (h.tracks m hm i hi).mp hbit, ?_⟩
  rintro ⟨b, hb, hhas⟩
  obtain ⟨f, hf, hwithin⟩ := h.inside b hb
  obtain ⟨m, hm, rfl⟩ := List.mem_map.mp hf
  have hfirst : m.base / pageSize ≤ k := hwithin.1.trans hhas.1
  have hlast : k < m.base / pageSize + m.bitmap.size := lt_of_lt_of_le hhas.2 hwithin.2
  have hsum : m.base / pageSize + (k - m.base / pageSize) = k := by omega
  have hbit : k - m.base / pageSize < m.bitmap.size := by omega
  refine ⟨m, hm, k - m.base / pageSize, hbit, hsum.symm, (h.tracks m hm _ hbit).mpr ⟨b, hb, ?_⟩⟩
  rwa [hsum]

/-- The pages of live blocks are not given out again. -/
theorem Inv.reserved (h : s.Inv) (hk : ∃ b ∈ s.live, b.Has k) : s.Reserved fayt k := by
  intro s' hrun cnt align a p hcnt hfits halloc hnew
  obtain ⟨hinv, b, hb, hhas⟩ : s'.Inv ∧ ∃ b ∈ s'.live, b.Has k := by
    have hstep : ∀ s₁ s₂ : PmmState, (s₁.Inv ∧ ∃ b ∈ s₁.live, b.Has k) →
        KeepsPage fayt k s₁ s₂ → s₂.Inv ∧ ∃ b ∈ s₂.live, b.Has k := by
      rintro s₁ s₂ ⟨hinv, b, hb, hhas⟩ ⟨hcall, hkeep⟩
      exact ⟨hinv.step hcall, b, hkeep b hb hhas, hhas⟩
    exact Run.invariant hstep ⟨h, hk⟩ hrun
  -- the new block would share a page with a live one
  have hledger := (hinv.alloc hcnt hfits halloc).ledger.apart
  exact (List.pairwise_cons.mp hledger).1 b hb k ⟨hnew, hhas⟩

end PmmState

/-! ### Which calls map frames of their own -/

section Owned

variable {fayt : Fayt} {la57 : Bool} {pmlt v flags : Word} {cnt : ℕ} {m m' : Machine PhysicalPmm}

/-- The frame `k` is reached through the address `u`. -/
def Reaches (la57 : Bool) (pmlt : Word) (mem : Mem) (u : Word) (k : ℕ) : Prop :=
  ∃ tr, translate mem (pagingLevels la57) pmlt u = some tr ∧ tr.address u / pageSize = k

/-- **The frames behind the pages of a range** are marked as allocated, each is reached through
one page, and none is given out before it is freed. -/
structure MapsOwned (fayt : Fayt) (la57 : Bool) (pmlt v flags : Word) (cnt : ℕ)
    (m : Machine PhysicalPmm) : Prop where
  marked : ∀ u k, InPages la57 (mappedSize flags) v cnt u → Reaches la57 pmlt m.mem u k →
    m.pmm.1.Marked k
  once : ∀ u u' k, InPages la57 (mappedSize flags) v cnt u →
    InPages la57 (mappedSize flags) v cnt u' → Reaches la57 pmlt m.mem u k →
    Reaches la57 pmlt m.mem u' k → sameBits (mappedSize flags).shift (addrBits la57) u u'
  reserved : ∀ u k, InPages la57 (mappedSize flags) v cnt u → Reaches la57 pmlt m.mem u k →
    m.pmm.1.Reserved fayt k

/-- The call returns, and owns the frames that it has mapped. -/
def CallOwned (fayt : Fayt) (la57 : Bool) (pmlt v flags : Word) (cnt : ℕ)
    (m : Machine PhysicalPmm) : Prop :=
  ∃ m', vmmMapRange (x86PagingInit (pmmFrames fayt) la57) (pmmPages fayt) pmlt v cnt flags m
    = .ok m' ∧ MapsOwned fayt la57 pmlt v flags cnt m'

/-- The call maps no page, or small pages that nothing is in the way of: no large page, and
no want of frames for them and for their tables. -/
def RangeOwnable (fayt : Fayt) (la57 : Bool) (pmlt v flags : Word) (cnt : ℕ)
    (m : Machine PhysicalPmm) : Prop :=
  cnt = 0 ∨ ¬ has flags flagPS ∧ RangeOpen la57 pmlt v cnt m.mem ∧
    (pmmFrames fayt).Supplies (cnt + (rangeMissing la57 pmlt v cnt m.mem).card) m.pmm

/-- No chance is on the side of the call: the page that -1 stands for is no memory; small
pages are not mapped into large ones; and in memory for large pages, more pages are free than
the call takes. -/
structure Roomy (la57 : Bool) (pmlt v flags : Word) (cnt : ℕ) (m : Machine PhysicalPmm) :
    Prop where
  last : ¬ m.pmm.1.Managed 0xffffffffff
  opens : ¬ has flags flagPS → RangeOpen la57 pmlt v cnt m.mem
  spare : has flags flagPS → ∀ a, 0x200 ∣ a → (¬ ∃ b ∈ m.pmm.1.live, b.Has a) →
    cnt * (upperLevels la57 + 1) < m.pmm.1.freeIn a

/-- A frame of the allocator's, in a live block. -/
def OwnFrame (s : PhysicalPmm) (f : Word) : Prop :=
  IsFrame .small f ∧ ∃ b ∈ s.1.live, b.Has (f.toNat / pageSize)

theorem ownFrame_alloc {s s' : PhysicalPmm} {f : Word}
    (h : (pmmFrames fayt).alloc s = some (f, s')) : OwnFrame s' f := by
  obtain ⟨a, rfl, htook⟩ := pmmAllocFrame_spec h
  refine ⟨htook.isFrame, ?_⟩
  rw [htook.toNat]
  exact htook.granted

theorem OwnFrame.alloc {s s' : PhysicalPmm} {f g : Word}
    (h : (pmmFrames fayt).alloc s = some (g, s')) (hf : OwnFrame s f) : OwnFrame s' f := by
  obtain ⟨a, rfl, htook⟩ := pmmAllocFrame_spec h
  exact ⟨hf.1, htook.keeps hf.2⟩

/-- A small page has one frame. -/
theorem reaches_small_iff {mem : Mem} {u f : Word} {k : ℕ} (hf : IsFrame .small f)
    (htr : translate mem (pagingLevels la57) pmlt u = some ⟨f, flags, .small⟩) :
    Reaches la57 pmlt mem u k ↔ f.toNat / pageSize = k := by
  have haddr : Translation.address ⟨f, flags, .small⟩ u / pageSize = f.toNat / pageSize := by
    obtain ⟨j, hj⟩ := hf.dvd
    show (f.toNat + u.toNat % pageSize) / pageSize = f.toNat / pageSize
    rw [hj, Nat.mul_add_div pageSize_pos, Nat.div_eq_of_lt (Nat.mod_lt _ pageSize_pos),
      Nat.mul_div_cancel_left _ pageSize_pos, Nat.add_zero]
  constructor
  · rintro ⟨tr, htr', rfl⟩
    cases htr.symm.trans htr'
    exact haddr.symm
  · rintro rfl
    exact ⟨_, htr, haddr⟩

/-- **Small pages that nothing is in the way of** are mapped to frames of their own. -/
theorem vmmMapRange_owned (hF : Forest (pmmFrames fayt) (single pmlt) (upperLevels la57 + 1) m)
    (hflags : PresentFlags flags) (h : RangeOwnable fayt la57 pmlt v flags cnt m) :
    CallOwned fayt la57 pmlt v flags cnt m := by
  rcases h with rfl | ⟨hPS, hopen, hs⟩
  · refine ⟨m, by rw [vmmMapRange_eq]; rfl, ?_, ?_, ?_⟩
    · exact fun u _ hu => absurd hu not_inPages_zero
    · exact fun u _ _ hu => absurd hu not_inPages_zero
    · exact fun u _ hu => absurd hu not_inPages_zero
  obtain ⟨m', hcall, -, hfresh⟩ := mapFrames_fresh ownFrame_alloc OwnFrame.alloc hF hflags hPS
    hopen hs
  have hsize : mappedSize flags = .small := if_neg hPS
  -- the frame that a page reaches is its own
  have hblock : ∀ u k, InPages la57 (mappedSize flags) v cnt u → Reaches la57 pmlt m'.mem u k →
      ∃ b ∈ m'.pmm.1.live, b.Has k := by
    intro u k hu hk
    rw [hsize] at hu
    obtain ⟨f, htr, hf, -⟩ := hfresh.mapped u hu
    rw [← (reaches_small_iff hf.1 htr).mp hk]
    exact hf.2
  refine ⟨m', (if_neg hPS).trans hcall, ?_, ?_, ?_⟩
  · exact fun u k hu hk => m'.pmm.2.inv.marked_iff.mpr (hblock u k hu hk)
  · intro u u' k hu hu' hk hk'
    rw [hsize] at hu hu' ⊢
    obtain ⟨f, htr, hf, -⟩ := hfresh.mapped u hu
    obtain ⟨f', htr', hf', -⟩ := hfresh.mapped u' hu'
    rw [reaches_small_iff hf.1 htr] at hk
    rw [reaches_small_iff hf'.1 htr'] at hk'
    refine hfresh.once u u' hu hu' ?_
    rw [htr, htr', (hf.1.div_inj hf'.1).mp (hk.trans hk'.symm)]
  · exact fun u k hu hk => m'.pmm.2.inv.reserved (hblock u k hu hk)

/-! ### Large pages -/

/-- The address `j` small pages into the large page of `v`. -/
def largeOffset (v : Word) (j : ℕ) : Word :=
  BitVec.ofNat 64 (v.toNat / 2 ^ 21 * 2 ^ 21 + j * pageSize)

theorem largeOffset_spec (la57 : Bool) (v : Word) {j : ℕ} (hj : j < 0x200) :
    sameBits 21 (addrBits la57) v (largeOffset v j) ∧
      (largeOffset v j).toNat % 2 ^ 21 = j * pageSize := by
  have hlt := v.isLt
  have hval : (largeOffset v j).toNat = v.toNat / 2 ^ 21 * 2 ^ 21 + j * pageSize := by
    rw [largeOffset, BitVec.toNat_ofNat]
    refine Nat.mod_eq_of_lt ?_
    unfold pageSize
    omega
  unfold pageSize at hval ⊢
  refine ⟨?_, by omega⟩
  have hsplit : addrBits la57 = 21 + (addrBits la57 - 21) := by cases la57 <;> rfl
  have hdiv : (v.toNat / 2 ^ 21 * 2 ^ 21 + j * 4096) / 2 ^ 21 = v.toNat / 2 ^ 21 := by omega
  rw [hsplit, sameBits_iff_toNat, hval, hdiv]

/-- What one turn of the loop for large pages leaves. -/
structure LargeTurn (la57 : Bool) (pmlt v flags : Word) (m m' : Machine PhysicalPmm)
    (fayt : Fayt) (paddr : Word) : Prop where
  forest : Forest (pmmFrames fayt) (single pmlt) (upperLevels la57 + 1) m'
  lookup : ∀ u, sameBits 21 (addrBits la57) v u →
    translate m'.mem (pagingLevels la57) pmlt u = some (decode .large (paddr ||| flags))
  takes : ∀ k, m.pmm.1.freeIn k ≤ m'.pmm.1.freeIn k + (upperLevels la57 + 1)
  held : ∀ k, (∃ b ∈ m.pmm.1.live, b.Has k) → ∃ b ∈ m'.pmm.1.live, b.Has k
  managed : ∀ k, m'.pmm.1.Managed k ↔ m.pmm.1.Managed k
  page : paddr = -1 ∨ ∃ a, paddr = BitVec.ofNat 64 a ∧ 0x200 * pageSize ∣ a ∧ a < physTop ∧
    ¬ ∃ b ∈ m.pmm.1.live, b.Has (a / pageSize)

/-- What the allocations for tables do to the free pages. -/
theorem after_freeIn {n : ℕ} {s s' : PhysicalPmm} (h : (pmmFrames fayt).After n s s') (k : ℕ) :
    s.1.freeIn k ≤ s'.1.freeIn k + n := by
  induction n generalizing s with
  | zero =>
      obtain rfl := h
      exact Nat.le_add_right _ 0
  | succ n ih =>
      obtain ⟨f, s₁, ha, h⟩ := h
      obtain ⟨a, -, htook⟩ := pmmAllocFrame_spec ha
      have hfirst := htook.freeIn k
      have hrest := ih h
      omega

theorem missingTables_le (mem : Mem) (t : Word) (is : List (BitVec 9)) :
    missingTables mem t is ≤ is.length := by
  induction is generalizing t with
  | nil => exact le_rfl
  | cons i is ih =>
      rw [missingTables]
      split_ifs
      · exact (ih _).trans (Nat.le_succ _)
      · exact le_rfl

/-- A turn of the loop takes a page, and at most one for each level above it. -/
theorem largeTurn (hF : Forest (pmmFrames fayt) (single pmlt) (upperLevels la57 + 1) m)
    (hflags : PresentFlags flags) (hPS : has flags flagPS) {paddr : Word}
    {m₀ : Machine PhysicalPmm} {ptr : Option Ptr}
    (halloc : allocPage (pmmPages fayt).large m = (paddr, m₀))
    (h : (x86PagingInit (pmmFrames fayt) la57).mapPage m₀ pmlt v paddr flags = .ok (ptr, m')) :
    LargeTurn la57 pmlt v flags m m' fayt paddr := by
  have hdata : (pmmPages fayt).data flags = (pmmPages fayt).large := if_pos hPS
  have hF₁ := ((pmmPages fayt).allocPage_keeps flags hF).1
  rw [hdata, halloc] at hF₁
  obtain ⟨hF₂, htr⟩ := hF₁.mapPage_decodes hflags (fun hc => absurd hPS hc) h
  rw [show mappedSize flags = .large from if_pos hPS] at htr
  -- the tables
  obtain ⟨n, hn, hafter⟩ : ∃ n ≤ upperLevels la57, (pmmFrames fayt).After n m₀.pmm m'.pmm := by
    rw [x86PagingInit_mapPage, mapPage_eq, aboveLeaf, if_pos hPS] at h
    obtain ⟨⟨t, m₁⟩, hall, hleaf⟩ := Exec.bind_eq_ok.mp h
    obtain ⟨-, rfl⟩ := Prod.mk.inj (Except.ok.inj hleaf)
    have hafter : (pmmFrames fayt).After (missingTables m₀.mem pmlt
        (upperIndices v (upperLevels la57))) m₀.pmm m₁.pmm :=
      hF₁.descendAll_after (r := ()) (p := []) hflags (linkExtra_within la57) rfl (by simp) hall
    exact ⟨_, (missingTables_le _ _ _).trans_eq (upperIndices_length _ _), hafter⟩
  have htables := after_freeIn hafter
  have hkeeps : ∀ k, (∃ b ∈ m₀.pmm.1.live, b.Has k) → ∃ b ∈ m'.pmm.1.live, b.Has k :=
    fun k hk => hafter.keeps (P := fun s => ∃ b ∈ s.1.live, b.Has k)
      (fun ha hs => by obtain ⟨a, -, htook⟩ := pmmAllocFrame_spec ha; exact htook.keeps hs) hk
  have hmanaged : ∀ k, m'.pmm.1.Managed k ↔ m₀.pmm.1.Managed k :=
    fun k => hafter.keeps (P := fun s => s.1.Managed k ↔ m₀.pmm.1.Managed k)
      (fun ha hs => by
        obtain ⟨a, -, htook⟩ := pmmAllocFrame_spec ha
        exact (htook.managed k).trans hs) Iff.rfl
  rcases ha : (pmmPages fayt).large.alloc m.pmm with - | ⟨f, x⟩
  · obtain ⟨rfl, rfl⟩ := Prod.mk.inj ((allocPage_eq_of_none ha).symm.trans halloc)
    exact ⟨hF₂, fun u hu => (htr u).trans (if_pos hu), fun k => (htables k).trans (by omega),
      hkeeps, hmanaged, .inl rfl⟩
  · obtain ⟨rfl, rfl⟩ := Prod.mk.inj ((allocPage_eq_of_some ha).symm.trans halloc)
    obtain ⟨a, rfl, hdvd, htook⟩ := pmmAllocLarge_spec ha
    refine ⟨hF₂, fun u hu => (htr u).trans (if_pos hu), fun k => ?_, fun k hk =>
      hkeeps k (htook.keeps hk), fun k => (hmanaged k).trans (htook.managed k),
      .inr ⟨a, rfl, hdvd, htook.below, ?_⟩⟩
    swap
    · rintro ⟨b, hb, hhas⟩
      exact htook.free b hb hhas
    have hfirst := htook.freeIn k
    have hrest : x.1.freeIn k ≤ m'.pmm.1.freeIn k + n := htables k
    omega

/-- **The last page of a range of large pages**: it is mapped to -1, or to a page that was
free when the call was made. -/
theorem mapFrames_large (hF : Forest (pmmFrames fayt) (single pmlt) (upperLevels la57 + 1) m)
    (hflags : PresentFlags flags) (hPS : has flags flagPS) {n : ℕ}
    (h : mapFrames (x86PagingInit (pmmFrames fayt) la57) (pmmPages fayt).large pmlt flags 0x200000
      (n + 1) v m = .ok m') :
    ∃ v' m₁ paddr, (∀ u, sameBits 21 (addrBits la57) v' u → InPages la57 .large v (n + 1) u) ∧
      LargeTurn la57 pmlt v' flags m₁ m' fayt paddr ∧
      (∀ k, m.pmm.1.freeIn k ≤ m₁.pmm.1.freeIn k + n * (upperLevels la57 + 1)) ∧
      (∀ k, (∃ b ∈ m.pmm.1.live, b.Has k) → ∃ b ∈ m₁.pmm.1.live, b.Has k) ∧
      ∀ k, m₁.pmm.1.Managed k ↔ m.pmm.1.Managed k := by
  induction n generalizing v m with
  | zero =>
      obtain ⟨⟨ptr, m₂⟩, hmap, hrest⟩ := Exec.bind_eq_ok.mp h
      obtain rfl := Except.ok.inj hrest
      exact ⟨v, m, _, fun u hu => inPages_succ.mpr (.inl hu), largeTurn hF hflags hPS rfl hmap,
        fun k => Nat.le_add_right _ _, fun _ hk => hk, fun _ => Iff.rfl⟩
  | succ n ih =>
      obtain ⟨⟨ptr, m₂⟩, hmap, hrest⟩ := Exec.bind_eq_ok.mp h
      have hturn := largeTurn hF hflags hPS rfl hmap
      obtain ⟨v', m₁, paddr, hin, hlast, htakes, hheld, hmanaged⟩ := ih hturn.forest hrest
      refine ⟨v', m₁, paddr, fun u hu => inPages_succ.mpr (.inr (hin u hu)), hlast, fun k => ?_,
        fun k hk => hheld k (hturn.held k hk), fun k => (hmanaged k).trans (hturn.managed k)⟩
      have hfirst := hturn.takes k
      have hrest := htakes k
      rw [Nat.succ_mul]
      omega

/-- A page of the range that is mapped to a frame of a large page reaches all of it. -/
theorem reaches_large {mem : Mem} {v' : Word} {tr : Translation} {a j : ℕ}
    (hlookup : ∀ u, sameBits 21 (addrBits la57) v' u →
      translate mem (pagingLevels la57) pmlt u = some tr)
    (hsize : tr.size = .large) (hframe : tr.frame.toNat = a * pageSize) (hj : j < 0x200) :
    Reaches la57 pmlt mem (largeOffset v' j) (a + j) := by
  obtain ⟨hsame, hoff⟩ := largeOffset_spec la57 v' hj
  refine ⟨tr, hlookup _ hsame, ?_⟩
  rw [Translation.address, hsize, hframe]
  show (a * pageSize + (largeOffset v' j).toNat % 2 ^ 21) / pageSize = a + j
  rw [hoff, ← Nat.add_mul, Nat.mul_div_cancel _ pageSize_pos]

/-- **Large pages over free frames**: where more pages are free than the call takes, it does
not own what it maps. -/
theorem not_callOwned_large (hF : Forest (pmmFrames fayt) (single pmlt) (upperLevels la57 + 1) m)
    (hflags : PresentFlags flags) (hPS : has flags flagPS) {n : ℕ}
    (hroomy : Roomy la57 pmlt v flags (n + 1) m) :
    ¬ CallOwned fayt la57 pmlt v flags (n + 1) m := by
  rintro ⟨m', hcall, howned⟩
  rw [vmmMapRange, if_pos hPS] at hcall
  have hsize : mappedSize flags = .large := if_pos hPS
  obtain ⟨v', m₁, paddr, hin, hturn, htakes, hheld, hmanaged⟩ := mapFrames_large hF hflags hPS hcall
  have hmarked : ∀ j < 0x200, ∀ k, Reaches la57 pmlt m'.mem (largeOffset v' j) k →
      m'.pmm.1.Marked k := fun j hj k hk =>
    howned.marked _ k (hsize ▸ hin _ (largeOffset_spec la57 v' hj).1) hk
  rcases hturn.page with rfl | ⟨a, rfl, hdvd, hbelow, hfree⟩
  · -- the last frame behind -1 is no memory
    have hlookup := hturn.lookup
    rw [ones_or] at hlookup
    have hreach := reaches_large (j := 0x1ff) (a := 0xfffffffe00) hlookup rfl (by decide)
      (by decide)
    exact hroomy.last ((hmanaged _).mp ((hturn.managed _).mp
      (hmarked _ (by decide) _ hreach).managed))
  · -- some page behind the first one is still free
    obtain ⟨b, rfl⟩ := hdvd
    have hpage : 0x200 * pageSize * b / pageSize = 0x200 * b := by
      rw [Nat.mul_right_comm, Nat.mul_div_cancel _ pageSize_pos]
    rw [hpage] at hfree
    have hspare := hroomy.spare hPS (0x200 * b) (dvd_mul_right _ _) fun hc => hfree (hheld _ hc)
    have hleft : 0 < m'.pmm.1.freeIn (0x200 * b) := by
      have hlast := hturn.takes (0x200 * b)
      have hrest := htakes (0x200 * b)
      rw [Nat.succ_mul] at hspare
      omega
    obtain ⟨j, hj⟩ := Finset.card_pos.mp hleft
    obtain ⟨hlt, hunheld⟩ := Finset.mem_filter.mp hj
    rw [Finset.mem_range] at hlt
    have hmappable : Mappable (BitVec.ofNat 64 (0x200 * pageSize * b)) flags :=
      ⟨hflags.present, hflags.flags_leaf, hsize ▸ isFrame_of_dvd (dvd_mul_right _ b) hbelow⟩
    have hdecode := hmappable.decode_eq
    rw [hsize] at hdecode
    have hlookup := hturn.lookup
    rw [hdecode] at hlookup
    have hreach := reaches_large (a := 0x200 * b) hlookup rfl
      (by rw [toNat_ofNat_below hbelow, Nat.mul_right_comm]) hlt
    exact hunheld (m'.pmm.2.inv.marked_iff.mp (hmarked j hlt _ hreach))

/-- **Small pages over what is no frame**: a call that owns its pages had frames for them. -/
theorem CallOwned.supplies (hF : Forest (pmmFrames fayt) (single pmlt) (upperLevels la57 + 1) m)
    (hflags : PresentFlags flags) (hPS : ¬ has flags flagPS)
    (hopen : RangeOpen la57 pmlt v cnt m.mem) (hlast : ¬ m.pmm.1.Managed 0xffffffffff)
    (h : CallOwned fayt la57 pmlt v flags cnt m) :
    (pmmFrames fayt).Supplies (cnt + (rangeMissing la57 pmlt v cnt m.mem).card) m.pmm := by
  obtain ⟨m', hcall, howned⟩ := h
  rw [vmmMapRange, if_neg hPS] at hcall
  refine mapFrames_supplies (P := fun s => ¬ s.1.Managed 0xffffffffff) ?_ hlast hF hflags hPS hopen
    hcall fun hlast' u hu htr => hlast' ?_
  · intro s f s' ha hs
    obtain ⟨a, -, htook⟩ := pmmAllocFrame_spec ha
    exact fun hc => hs ((htook.managed _).mp hc)
  · -- the page that -1 stands for would be marked
    have hreach : Reaches la57 pmlt m'.mem u 0xffffffffff := by
      refine ⟨_, htr, ?_⟩
      show (0xffffffffff000 + u.toNat % 4096) / 4096 = 0xffffffffff
      omega
    rw [show PageSize.small = mappedSize flags from (if_neg hPS).symm] at hu
    exact (howned.marked u _ hu hreach).managed

end Owned

/-! ### A machine with a few pages -/

theorem physical_pagesAt {n : ℕ} (hn : n ≤ 16) :
    (PmmState.init [pagesAt 0x400000 n] .blank).Physical := by
  refine PmmState.physical_init _ (by simp) ?_ (List.pairwise_singleton _ _) ?_
  · intro m hm
    rw [List.mem_singleton.mp hm]
    exact ⟨0x400, rfl⟩
  · intro m hm
    rw [List.mem_singleton.mp hm]
    show 0x400000 + n * pageSize ≤ physTop
    simp only [pageSize, physTop]
    omega

/-- A machine with `n` free pages at 4 MiB. -/
def fewPages (n : ℕ) (hn : n ≤ 16) : Machine PhysicalPmm where
  mem := Mem.blank
  pmm := ⟨_, physical_pagesAt hn⟩
  tables := []
  writes := []

/-- The page at 4 KiB, which no module manages, is an empty table there. -/
theorem fewPages_forest {n : ℕ} (hn : n ≤ 16) (d : ℕ) :
    Forest (pmmFrames .textbook) (single 0x1000) d (fewPages n hn) := by
  refine Machine.Blank.forest ⟨rfl, by decide, ?_, rfl⟩ d
  rintro ⟨f, hf, hhas⟩
  obtain rfl := List.mem_singleton.mp hf
  have hfirst : 0x400000 / pageSize ≤ 0x1000 / pageSize := hhas.1
  exact absurd hfirst (by decide)

/-- **What `vmm_map_range` owns.**  A call that maps present pages returns, with every frame
behind its pages marked, reached through one of the pages only, and not given out before it is
freed, if it maps no pages, or small ones that nothing is in the way of.  Conversely it must
do so, unless chance helps it. -/
theorem mapRange_owned_iff {fayt : Fayt} {la57 : Bool} {pmlt v flags : Word} {cnt : ℕ}
    {m : Machine PhysicalPmm}
    (hF : Forest (pmmFrames fayt) (single pmlt) (upperLevels la57 + 1) m)
    (hflags : PresentFlags flags) :
    (RangeOwnable fayt la57 pmlt v flags cnt m → CallOwned fayt la57 pmlt v flags cnt m) ∧
    (Roomy la57 pmlt v flags cnt m → CallOwned fayt la57 pmlt v flags cnt m →
      RangeOwnable fayt la57 pmlt v flags cnt m) := by
  refine ⟨vmmMapRange_owned hF hflags, fun hroomy howned => ?_⟩
  rcases cnt with - | n
  · exact .inl rfl
  by_cases hPS : has flags flagPS
  · exact absurd howned (not_callOwned_large hF hflags hPS hroomy)
  · have hopen := hroomy.opens hPS
    exact .inr ⟨hPS, hopen, howned.supplies hF hflags hPS hopen hroomy.last⟩

/-- A machine with a page mapped at 2 GiB. -/
def fewMapped : Machine PhysicalPmm :=
  match (x86PagingInit (pmmFrames .textbook) false).mapPage (fewPages 16 le_rfl) 0x1000 0x80000000
    0x200000 (flagP ||| flagRW) with
  | .ok (_, m) => m
  | .error _ => fewPages 16 le_rfl

theorem fewMapped_spec :
    Forest (pmmFrames .textbook) (single 0x1000) (upperLevels false + 1) fewMapped ∧
      ∀ u tr, translate fewMapped.mem 4 0x1000 u = some tr → tr.size = .small := by
  obtain ⟨⟨ptr, m⟩, hcall, -⟩ := Exec.exists_of_map_eq_ok
    (show ((x86PagingInit (pmmFrames .textbook) false).mapPage (fewPages 16 le_rfl) 0x1000
      0x80000000 0x200000 (flagP ||| flagRW)).map (fun _ => ()) = .ok () by decide +kernel)
  have hF := fewPages_forest le_rfl (upperLevels false + 1)
  have hnone : ∀ u, translate (fewPages 16 le_rfl).mem 4 0x1000 u = none := by
    intro u
    refine (hF.translate_eq (r := ())).trans ?_
    rw [slotOf_empty (t := single 0x1000 ()) rfl (by decide)]
    rfl
  obtain ⟨hF', htr⟩ := hF.mapPage_decodes ⟨by decide, by decide⟩
    (fun _ tr htr => by cases (hnone _).symm.trans htr) hcall
  rw [fewMapped, hcall]
  refine ⟨hF', fun u tr hsome => ?_⟩
  obtain ⟨-, hdecode⟩ := Option.ite_none_right_eq_some.mp
    (((htr u).trans (by rw [show translate (fewPages 16 le_rfl).mem (pagingLevels false) 0x1000 u
      = none from hnone u])).symm.trans hsome)
  rw [← Option.some.inj hdecode]
  rfl

/-- Two pages behind a page that is mapped already, in the same page table. -/
theorem mapRange_owned_behind :
    CallOwned .textbook false 0x1000 0x80001000 (flagP ||| flagRW) 2 fewMapped := by
  obtain ⟨hF, hsmall⟩ := fewMapped_spec
  have hopen : RangeOpen false 0x1000 0x80001000 2 fewMapped.mem := by
    intro u _ tr htr
    rw [hsmall u tr htr]
    exact nofun
  have hmissing : (rangeMissing false 0x1000 0x80001000 2 fewMapped.mem).card = 0 := by
    decide +kernel
  have hs : (pmmFrames .textbook).Supplies 2 fewMapped.pmm := by
    refine ⟨_, _, rfl, _, _, rfl, trivial⟩
  exact (mapRange_owned_iff hF ⟨by decide, by decide⟩).1
    (.inr ⟨by decide, hopen, by rw [hmissing]; exact hs⟩)

/-- **A large page over free frames.**  One large page is mapped to the 2 MiB at 4 MiB, of which
the first page is taken for it.  The page at 0x403000 is reached through it and not marked, and
the next `pmm_alloc` returns it. -/
theorem mapRange_maps_free :
    Forest (pmmFrames .textbook) (single 0x1000) 3 (fewPages 16 le_rfl) ∧
    ∃ m' p, vmmMapRange (x86PagingInit (pmmFrames .textbook) false) (pmmPages .textbook) 0x1000
        0x80000000 1 (flagP ||| flagRW ||| flagPS) (fewPages 16 le_rfl) = .ok m' ∧
      InPages false .large 0x80000000 1 0x80003000 ∧
      Reaches false 0x1000 m'.mem 0x80003000 0x403 ∧ ¬ m'.pmm.1.Marked 0x403 ∧
      pmmAlloc .textbook m'.pmm.1.pmm 1 1 = .ok (some 0x403000, p) := by
  have heval : (do
      let m' ← vmmMapRange (x86PagingInit (pmmFrames .textbook) false) (pmmPages .textbook) 0x1000
        0x80000000 1 (flagP ||| flagRW ||| flagPS) (fewPages 16 le_rfl)
      let (a, _) ← pmmAlloc .textbook m'.pmm.1.pmm 1 1
      .ok (translate m'.mem 4 0x1000 0x80003000, decide (m'.pmm.1.Marked 0x403), a) : Exec _)
      = .ok (some ⟨0x400000, flagP ||| flagRW ||| flagPS, .large⟩, false, some 0x403000) := by
    decide +kernel
  obtain ⟨m', hcall, heval⟩ := Exec.bind_eq_ok.mp heval
  obtain ⟨⟨a, p⟩, halloc, heval⟩ := Exec.bind_eq_ok.mp heval
  simp only [Except.ok.injEq, Prod.mk.injEq] at heval
  obtain ⟨htr, hmark, rfl⟩ := heval
  exact ⟨fewPages_forest _ _, m', p, hcall, by decide, ⟨_, htr, by decide⟩,
    of_decide_eq_false hmark, halloc⟩

end Rock
