/-
Rock/Exhaustion.lean

What happens to the page tables when the frames run out.

`pmm_alloc` returns -1 then, and neither `map_page` nor `portal_fault_anon` looks at the
result.  `map_page` links the table at -1: the entry has all bits set, so it is present, and
the access that follows faults.  The model of `Rock.Paging` ends there; here the walks keep
the machine as the fault leaves it (`mapPageKept`).  `portal_fault_anon` maps the page at -1
and returns 0.

So an entry of all ones is written exactly if a frame is missing.  Translations that existed
before a call that faults stay as they are (`Forest.mapPageKept_lookup`), since only an entry
that was not present is overwritten.

Main result: the calls withstand running out of frames exactly if they do not run out of
frames (`withstands_iff`).
-/
import Rock.PageFault
import Rock.PortalHistory

namespace Rock

open TableTree

variable {σ R : Type}

/-! ### The walks, with what a fault leaves behind -/

section Kept

variable (src : FrameSource σ)

/-- One level of `map_page`, and the machine after it.  With no frame left the entry is made
of -1. -/
def descendKept (extra flags : Word) (m : Machine σ) (t : Word) (i : BitVec 9) :
    Exec Word × Machine σ :=
  match descend src extra flags m t i with
  | .ok (t', m') => (.ok t', m')
  | .error e => (.error e, m.store t i (-1 ||| (flags &&& tableFlagsMask) ||| extra))

/-- The levels of `map_page` above the page. -/
def descendAllKept (extra flags : Word) (m : Machine σ) (t : Word) :
    List (BitVec 9) → Exec Word × Machine σ
  | [] => (.ok t, m)
  | i :: is =>
      match descendKept src extra flags m t i with
      | (.ok t', m') => descendAllKept extra flags m' t' is
      | (.error e, m') => (.error e, m')

/-- `map_page`. -/
def mapPageKept (extra : Word) (m : Machine σ) (pmlt : Word) (upper : List (BitVec 9))
    (i2 i1 : BitVec 9) (paddr flags : Word) : Exec (Option Ptr) × Machine σ :=
  match descendAllKept src extra flags m pmlt (aboveLeaf flags upper i2) with
  | (.ok t, m) => (.ok (if has flags flagPS then none else some ⟨t, i1⟩),
      m.store t (leafIndex flags i2 i1) (paddr ||| flags))
  | (.error e, m) => (.error e, m)

/-- `map_page` of the backend. -/
def x86MapPageKept (la57 : Bool) (m : Machine σ) (pmlt v paddr flags : Word) :
    Exec (Option Ptr) × Machine σ :=
  mapPageKept src (linkExtra la57) m pmlt (upperIndices v (upperLevels la57)) (index 1 v)
    (index 0 v) paddr flags

/-- `portal_fault_anon`. -/
def portalFaultAnonKept (fayt : PortalLib) (la57 : Bool) (root : R → Word) [DecidableEq R]
    (s : PortalState σ R) (r : R) (addr : Word) : Exec ℤ × PortalState σ R :=
  match (s.portals r).find addr with
  | none => (.ok (-1), s)
  | some p =>
      let vaddr := addr - (addr &&& 0xfff)
      match faultFrame fayt src s p vaddr with
      | none => (.ok (-1), s)
      | some (_paddr, s) =>
          let (f, m) := allocPage src s.machine
          let page : Page := ⟨vaddr, ⟨f, 1⟩⟩
          match x86MapPageKept src la57 m (root r) page.vaddr page.frame.paddr
            (portalTranslateProtections p.prot) with
          | (.error e, m) => (.error e, { s with machine := m })
          | (.ok _, m) =>
              if fayt.pushPageFails (s.pages r) page.vaddr then (.ok (-1), { s with machine := m })
              else (.ok 0, { s with
                machine := m
                pages := Function.update s.pages r (page :: s.pages r) })

variable {src} {extra flags paddr pmlt t : Word} {m m' : Machine σ}

theorem descendKept_eq_ok {i : BitVec 9} {t' : Word} :
    descendKept src extra flags m t i = (.ok t', m') ↔
      descend src extra flags m t i = .ok (t', m') := by
  unfold descendKept
  rcases descend src extra flags m t i with e | ⟨t₁, m₁⟩ <;> simp

/-- The walk that keeps the machine is the walk, as long as there are frames. -/
theorem descendAllKept_eq_ok {is : List (BitVec 9)} {t' : Word} :
    descendAllKept src extra flags m t is = (.ok t', m') ↔
      descendAll src extra flags m t is = .ok (t', m') := by
  induction is generalizing m t with
  | nil => simp [descendAllKept, descendAll]
  | cons i is ih =>
      rw [descendAllKept, descendAll]
      rcases h : descendKept src extra flags m t i with ⟨e | t₁, m₁⟩
      · have herr : ∀ x, descend src extra flags m t i ≠ .ok x := fun x hx => by
          cases h.symm.trans (descendKept_eq_ok.mpr hx)
        rcases hd : descend src extra flags m t i with e' | x
        · exact iff_of_false (fun hc => by cases hc) (fun hc => by cases hc)
        · exact absurd hd (herr x)
      · rw [descendKept_eq_ok.mp h, Exec.ok_bind]
        exact ih

theorem descendAll_snoc {is : List (BitVec 9)} {i : BitVec 9} :
    descendAll src extra flags m t (is ++ [i]) = (do
      let (t₁, m₁) ← descendAll src extra flags m t is
      descend src extra flags m₁ t₁ i) := by
  induction is generalizing m t with
  | nil =>
      rw [List.nil_append, descendAll, descendAll, Exec.ok_bind]
      dsimp only
      rcases descend src extra flags m t i with e | ⟨t₁, m₁⟩ <;> rfl
  | cons j is ih =>
      rw [List.cons_append, descendAll, descendAll]
      rcases descend src extra flags m t j with e | ⟨t₁, m₁⟩
      · rfl
      · simp only [Exec.ok_bind]
        exact ih

theorem mapPage_eq {upper : List (BitVec 9)} {i2 i1 : BitVec 9} :
    mapPage src extra m pmlt upper i2 i1 paddr flags = (do
      let (t, m) ← descendAll src extra flags m pmlt (aboveLeaf flags upper i2)
      .ok (if has flags flagPS then none else some ⟨t, i1⟩,
        m.store t (leafIndex flags i2 i1) (paddr ||| flags))) := by
  unfold mapPage aboveLeaf leafIndex
  by_cases hPS : has flags flagPS
  · simp only [if_pos hPS]
  · simp only [if_neg hPS, descendAll_snoc]
    rcases descendAll src extra flags m pmlt upper with e | ⟨t₁, m₁⟩
    · rfl
    · simp only [Exec.ok_bind]

theorem mapPageKept_eq_ok {upper : List (BitVec 9)} {i2 i1 : BitVec 9} {ptr : Option Ptr} :
    mapPageKept src extra m pmlt upper i2 i1 paddr flags = (.ok ptr, m') ↔
      mapPage src extra m pmlt upper i2 i1 paddr flags = .ok (ptr, m') := by
  rw [mapPage_eq, mapPageKept]
  rcases h : descendAllKept src extra flags m pmlt (aboveLeaf flags upper i2) with ⟨e | t₁, m₁⟩
  · rcases hd : descendAll src extra flags m pmlt (aboveLeaf flags upper i2) with e' | ⟨t₂, m₂⟩
    · exact iff_of_false nofun nofun
    · cases h.symm.trans (descendAllKept_eq_ok.mpr hd)
  · rw [descendAllKept_eq_ok.mp h, Exec.ok_bind]
    simp

theorem x86MapPageKept_eq_ok {la57 : Bool} {v : Word} {ptr : Option Ptr} :
    x86MapPageKept src la57 m pmlt v paddr flags = (.ok ptr, m') ↔
      (x86PagingInit src la57).mapPage m pmlt v paddr flags = .ok (ptr, m') := by
  rw [x86PagingInit_mapPage]
  exact mapPageKept_eq_ok

/-- The fault handler that keeps the machine is the fault handler, as long as it returns. -/
theorem portalFaultAnonKept_eq_ok [DecidableEq R] {fayt : PortalLib} {la57 : Bool}
    {root : R → Word} {s s' : PortalState σ R} {r : R} {addr : Word} {ret : ℤ} :
    portalFaultAnonKept src fayt la57 root s r addr = (.ok ret, s') ↔
      portalFaultAnon fayt src la57 root s r addr = .ok (ret, s') := by
  unfold portalFaultAnonKept portalFaultAnon
  rcases (s.portals r).find addr with - | p
  · simp
  dsimp only
  rcases faultFrame fayt src s p (addr - (addr &&& 0xfff)) with - | ⟨paddr, s₁⟩
  · simp
  dsimp only
  rcases h : x86MapPageKept src la57 (allocPage src s₁.machine).2 (root r)
    (addr - (addr &&& 0xfff)) (allocPage src s₁.machine).1 (portalTranslateProtections p.prot)
    with ⟨e | ptr, m₁⟩
  · rcases hm : (x86PagingInit src la57).mapPage (allocPage src s₁.machine).2 (root r)
      (addr - (addr &&& 0xfff)) (allocPage src s₁.machine).1 (portalTranslateProtections p.prot)
      with e' | ⟨ptr, m₂⟩
    · exact iff_of_false nofun nofun
    · cases h.symm.trans (x86MapPageKept_eq_ok.mpr hm)
  · rw [x86MapPageKept_eq_ok.mp h, Exec.ok_bind]
    dsimp only
    split_ifs <;> simp [pure, Except.pure]

end Kept

/-! ### Entries of all ones -/

/-- None of the entries written from `m` to `m'` consists of ones. -/
def Machine.Clean (m m' : Machine σ) : Prop :=
  ∃ new, m'.writes = new ++ m.writes ∧ ∀ w ∈ new, m'.mem w.page w.idx ≠ -1

section Clean

variable {src : FrameSource σ} {m m₁ m' : Machine σ} {t e f : Word} {i : BitVec 9} {s : σ}

theorem Machine.Clean.refl (m : Machine σ) : m.Clean m := ⟨[], rfl, nofun⟩

theorem Machine.clean_congr (h : m₁.writes = m.writes) : m₁.Clean m' ↔ m.Clean m' := by
  unfold Machine.Clean
  rw [h]

theorem Machine.Clean.store (h : m.Clean m₁) (he : e ≠ -1) : m.Clean (m₁.store t i e) := by
  obtain ⟨new, hnew, hclean⟩ := h
  refine ⟨⟨t, i⟩ :: new, by rw [Machine.store_writes, hnew]; rfl, fun w hw => ?_⟩
  rw [Machine.store_mem]
  by_cases hwt : w.page = t ∧ w.idx = i
  · rw [hwt.1, hwt.2, put_self]
    exact he
  · rw [put_of_ne e (not_and_or.mp hwt)]
    rcases List.mem_cons.mp hw with rfl | hw
    · exact absurd ⟨rfl, rfl⟩ hwt
    · exact hclean w hw

theorem Machine.Clean.grant (h : m.Clean m₁) : m.Clean (m₁.grant f s) := by
  obtain ⟨new, hnew, hclean⟩ := h
  refine ⟨new, hnew, fun w hw => ?_⟩
  show Function.update m₁.mem f 0 w.page w.idx ≠ -1
  rcases eq_or_ne w.page f with hf | hf
  · rw [hf, Function.update_self]
    exact show (0 : Word) ≠ -1 by decide
  · rw [Function.update_of_ne hf]
    exact hclean w hw

/-- A write of ones shows, whatever was written before. -/
theorem Machine.not_clean_store (hwrites : m.writes <:+ m₁.writes) (he : e = -1) :
    ¬ m.Clean (m₁.store t i e) := by
  rintro ⟨new, hnew, hclean⟩
  obtain ⟨old, hold⟩ := hwrites
  rw [Machine.store_writes, ← hold, ← List.cons_append] at hnew
  obtain rfl := List.append_cancel_right hnew
  refine hclean ⟨t, i⟩ List.mem_cons_self ?_
  rw [Machine.store_mem, put_self, he]

theorem ones_or (x : Word) : (-1 : Word) ||| x = -1 := by
  rw [show (-1 : Word) = BitVec.allOnes 64 from rfl, BitVec.allOnes_or]

/-- A word without bit 62 does not consist of ones. -/
theorem ne_ones {x : Word} (h : x &&& (1 <<< 62) = 0#64) : x ≠ -1 := by
  rintro rfl
  exact absurd h (by decide)

/-- The entries that `map_page` makes of frames do not consist of ones. -/
theorem linkEntry_ne_ones {extra flags : Word} (hf : IsFrame .small f)
    (hflags : flags &&& leafMask = flags) (hextra : extra &&& flagRW = extra) :
    Forest.linkEntry extra flags f ≠ -1 := by
  refine ne_ones ?_
  have hlow := link_flags_within hflags hextra
  rw [Forest.linkEntry, BitVec.or_assoc, or_and, and_eq_zero_of_within hf (by decide),
    and_eq_zero_of_within hlow (by decide), BitVec.zero_or]

theorem Mappable.leaf_ne_ones {paddr flags : Word} (h : Mappable paddr flags) :
    paddr ||| flags ≠ -1 := by
  refine ne_ones ?_
  rw [or_and, h.frame_and_low (by decide), and_eq_zero_of_within h.flags_leaf (by decide),
    BitVec.zero_or]

variable {extra flags t' : Word} (hflags : flags &&& leafMask = flags)
  (hextra : extra &&& flagRW = extra)

include hflags hextra

theorem Machine.Clean.descend (hclean : m.Clean m₁)
    (h : descend src extra flags m₁ t i = .ok (t', m')) : m.Clean m' := by
  unfold Rock.descend at h
  split_ifs at h with hpres
  · obtain ⟨-, rfl⟩ := Prod.mk.inj (Except.ok.inj h)
    exact hclean
  · rcases ha : src.alloc m₁.pmm with - | ⟨f, s⟩ <;> simp only [ha] at h
    · cases h
    obtain ⟨-, rfl⟩ := Prod.mk.inj (Except.ok.inj h)
    exact hclean.grant.store (linkEntry_ne_ones (src.alloc_frame ha) hflags hextra)

theorem Machine.Clean.descendAll {is : List (BitVec 9)} (hclean : m.Clean m₁)
    (h : descendAll src extra flags m₁ t is = .ok (t', m')) : m.Clean m' := by
  induction is generalizing m₁ t with
  | nil =>
      obtain ⟨-, rfl⟩ := Prod.mk.inj (Except.ok.inj h)
      exact hclean
  | cons i is ih =>
      obtain ⟨⟨t₂, m₂⟩, h₂, h⟩ := Exec.bind_eq_ok.mp h
      exact ih (hclean.descend hflags hextra h₂) h

end Clean

/-! ### The frames a call needs -/

/-- The number of tables that are missing on the way of these indices. -/
def missingTables (mem : Mem) (t : Word) : List (BitVec 9) → ℕ
  | [] => 0
  | i :: is => if has (mem t i) flagP then missingTables mem (tableOf (mem t i)) is
      else is.length + 1

theorem missingTables_blank {mem : Mem} {t : Word} (h : mem t = 0) (is : List (BitVec 9)) :
    missingTables mem t is = is.length := by
  rcases is with - | ⟨i, is⟩
  · rfl
  · rw [missingTables, h]
    exact if_neg (not_has_zero _)

namespace Forest

variable {src : FrameSource σ} {root : R → Word} {d : ℕ} {m m' : Machine σ} {r : R}
  {p is : List (BitVec 9)} {t t' extra flags : Word} {i : BitVec 9}

/-- Above the page directory a present entry leads to a table. -/
theorem tableAt_of_present (hF : Forest src root d m)
    (ht : tableAt subtable m.mem (root r) p = some t) (hp : p.length + 1 < d)
    (hP : has (m.mem t i) flagP) :
    tableAt subtable m.mem (root r) (p ++ [i]) = some (tableOf (m.mem t i)) := by
  rw [tableAt_snoc, ht]
  exact subtable_eq_some.mpr ⟨hP, fun hPS => hF.small hp ht ⟨hP, hPS⟩, rfl⟩

variable (hflags : PresentFlags flags) (hextra : extra &&& flagRW = extra)

include hflags hextra

/-- A missing table is linked with a fresh frame. -/
theorem descend_link {f : Word} {s : σ} (hP : ¬ has (m.mem t i) flagP)
    (ha : src.alloc m.pmm = some (f, s)) :
    descend src extra flags m t i
      = .ok (f, (m.grant f s).store t i (linkEntry extra flags f)) := by
  have htable : tableOf (((m.grant f s).store t i (linkEntry extra flags f)).mem t i) = f := by
    rw [Machine.store_mem, put_self]
    exact tableOf_link (src.alloc_frame ha) hflags.flags_leaf hextra
  rw [descend, if_neg hP, ha]
  exact congrArg (fun t => Except.ok (t, _)) htable

/-- **The walk goes through exactly if there is a frame for every missing table.** -/
theorem descendAll_ok_iff (hF : Forest src root d m)
    (ht : tableAt subtable m.mem (root r) p = some t) (hlen : p.length + is.length ≤ d) :
    (∃ t' m', descendAll src extra flags m t is = .ok (t', m')) ↔
      src.Supplies (missingTables m.mem t is) m.pmm := by
  induction is generalizing m p t with
  | nil => exact iff_of_true ⟨t, m, rfl⟩ trivial
  | cons i is ih =>
      rw [List.length_cons] at hlen
      rw [descendAll, missingTables]
      by_cases hP : has (m.mem t i) flagP
      · have hstay : descend src extra flags m t i = .ok (tableOf (m.mem t i), m) := if_pos hP
        rw [hstay, Exec.ok_bind, if_pos hP]
        rcases is with - | ⟨j, is⟩
        · exact iff_of_true ⟨_, _, rfl⟩ trivial
        · rw [List.length_cons] at hlen
          exact ih hF (hF.tableAt_of_present ht (by omega) hP) (by simp; omega)
      · rw [if_neg hP]
        rcases ha : src.alloc m.pmm with - | ⟨f, s⟩
        · have herr : descend src extra flags m t i = .error .wild := by
            rw [descend, if_neg hP, ha]
          rw [herr]
          refine iff_of_false (by rintro ⟨t', m', hc⟩; cases hc) ?_
          rintro ⟨f, s, hc, -⟩
          cases ha.symm.trans hc
        · have hlink := descend_link hflags hextra hP ha
          obtain ⟨hF₁, ht₁, -, -⟩ := hF.descend_spec ht (by omega) (fun hc => hP hc.1)
            hflags.present hflags.flags_leaf hextra hlink
          have hrest := ih hF₁ ht₁ (by simp; omega)
          rw [missingTables_blank (hF.grant_mem_new ht (by omega) ha)] at hrest
          rw [hlink, Exec.ok_bind]
          refine hrest.trans ?_
          constructor
          · exact fun hs => ⟨f, s, ha, hs⟩
          · rintro ⟨f', s', ha', hs⟩
            cases ha.symm.trans ha'
            exact hs

/-- What a walk leaves behind when the frames run out: on top of tables with the old slots,
an entry of ones where none was present. -/
theorem descendAllKept_error (hF : Forest src root d m)
    (ht : tableAt subtable m.mem (root r) p = some t) (hlen : p.length + is.length ≤ d) {e : Fault}
    (h : descendAllKept src extra flags m t is = (.error e, m')) :
    ∃ m₁ t₁ i, Forest src root d m₁ ∧ m.writes <:+ m₁.writes ∧
      (∀ r' q k, q.length + 1 = d → slotAt m₁.mem (root r') q k = slotAt m.mem (root r') q k) ∧
      ¬ has (m₁.mem t₁ i) flagP ∧ m' = m₁.store t₁ i (-1) := by
  induction is generalizing m p t with
  | nil => cases h
  | cons i is ih =>
      rw [List.length_cons] at hlen
      rw [descendAllKept] at h
      rcases hd : descend src extra flags m t i with e₁ | ⟨t₁, m₁⟩
      · have hkept : descendKept src extra flags m t i = (.error e₁, m.store t i (-1)) := by
          rw [descendKept, hd, BitVec.or_assoc, ones_or]
        rw [hkept] at h
        obtain ⟨-, rfl⟩ := Prod.mk.inj h
        refine ⟨m, t, i, hF, List.suffix_refl _, fun _ _ _ _ => rfl, fun hP => ?_, rfl⟩
        rw [descend, if_pos hP] at hd
        cases hd
      · rw [descendKept_eq_ok.mpr hd] at h
        rcases is with - | ⟨j, is⟩
        · cases h
        rw [List.length_cons] at hlen
        obtain ⟨hF₁, ht₁, hsame, -⟩ := hF.descend_spec ht (by omega) (hF.small (by omega) ht)
          hflags.present hflags.flags_leaf hextra hd
        obtain ⟨m₂, t₂, i₂, hF₂, hwrites, hslots, hP, rfl⟩ := ih hF₁ ht₁ (by simp; omega) h
        obtain ⟨new, hnew, -⟩ := (Machine.Clean.refl m).descend hflags.flags_leaf hextra hd
        refine ⟨m₂, t₂, i₂, hF₂, List.IsSuffix.trans ⟨new, hnew.symm⟩ hwrites,
          fun r' q k hq => ?_, hP, rfl⟩
        rw [hslots r' q k hq]
        refine hsame r' q k hq ?_
        rintro ⟨-, rfl, -⟩
        omega

end Forest

/-! ### Translations -/

/-- A walk that ends at a page reads present entries only. -/
theorem hwWalk_mono {mem mem' : Mem} (h : ∀ t i, has (mem t i) flagP → mem' t i = mem t i)
    {v : Word} {n : ℕ} {t : Word} {leaf : Leaf} (hwalk : hwWalk mem v n t = some leaf) :
    hwWalk mem' v n t = some leaf ∧
      mem' leaf.ptr.page leaf.ptr.idx = mem leaf.ptr.page leaf.ptr.idx := by
  induction n generalizing t with
  | zero => cases hwalk
  | succ k ih =>
      rw [hwWalk] at hwalk ⊢
      by_cases hP : has (mem t (index k v)) flagP
      · rw [h t _ hP]
        simp only [hP, not_true_eq_false, if_false] at hwalk ⊢
        split_ifs at hwalk ⊢
        · obtain rfl := Option.some.inj hwalk
          exact ⟨rfl, h t _ hP⟩
        · obtain rfl := Option.some.inj hwalk
          exact ⟨rfl, h t _ hP⟩
        · obtain rfl := Option.some.inj hwalk
          exact ⟨rfl, h t _ hP⟩
        · exact ih hwalk
      · rw [if_pos hP] at hwalk
        cases hwalk

theorem translate_mono {mem mem' : Mem} (h : ∀ t i, has (mem t i) flagP → mem' t i = mem t i)
    {levels : ℕ} {pmlt v : Word} {tr : Translation}
    (htr : translate mem levels pmlt v = some tr) : translate mem' levels pmlt v = some tr := by
  obtain ⟨leaf, hleaf, rfl⟩ := Option.map_eq_some_iff.mp htr
  obtain ⟨hleaf', hentry⟩ := hwWalk_mono h hleaf
  rw [translate, hleaf', Option.map_some, hentry]

/-- From `m` to `m'`, every translation that there was stays. -/
def Machine.KeepsLookups (la57 : Bool) (root : R → Word) (m m' : Machine σ) : Prop :=
  ∀ r v tr, m.lookup la57 root r v = some tr → m'.lookup la57 root r v = some tr

section MapPage

variable {src : FrameSource σ} {la57 : Bool} {root : R → Word} {m m' : Machine σ} {r : R}
  {v paddr flags : Word} (hF : Forest src root (upperLevels la57 + 1) m)

theorem aboveLeaf_length (flags : Word) (upper : List (BitVec 9)) (i2 : BitVec 9) :
    (aboveLeaf flags upper i2).length ≤ upper.length + 1 := by
  unfold aboveLeaf
  split_ifs <;> simp

include hF

/-- A call that faults has linked the table at -1. -/
theorem Forest.mapPageKept_error (hflags : PresentFlags flags) {e : Fault}
    (h : x86MapPageKept src la57 m (root r) v paddr flags = (.error e, m')) :
    ∃ m₁ t₁ i, Forest src root (upperLevels la57 + 1) m₁ ∧ m.writes <:+ m₁.writes ∧
      (∀ r' v', m₁.lookup la57 root r' v' = m.lookup la57 root r' v') ∧
      ¬ has (m₁.mem t₁ i) flagP ∧ m' = m₁.store t₁ i (-1) := by
  unfold x86MapPageKept mapPageKept at h
  rcases hd : descendAllKept src (linkExtra la57) flags m (root r)
    (aboveLeaf flags (upperIndices v (upperLevels la57)) (index 1 v)) with ⟨e₁ | t₁, m₁⟩ <;>
    simp only [hd] at h
  · obtain ⟨-, rfl⟩ := Prod.mk.inj h
    have hlen := aboveLeaf_length flags (upperIndices v (upperLevels la57)) (index 1 v)
    rw [upperIndices_length] at hlen
    obtain ⟨m₂, t₂, i, hF₂, hwrites, hslots, hP, rfl⟩ := hF.descendAllKept_error (p := []) hflags
      (linkExtra_within la57) rfl (by simpa using hlen) hd
    refine ⟨m₂, t₂, i, hF₂, hwrites, fun r' v' => ?_, hP, rfl⟩
    refine hF₂.translate_eq.trans (Eq.trans ?_ hF.translate_eq.symm)
    rw [slotOf, slotOf, hslots r' _ _ (by simp)]
  · cases h

/-- **A call that faults keeps the translations**: the entry of ones is written where none
was present. -/
theorem Forest.mapPageKept_lookup (hflags : PresentFlags flags) {e : Fault}
    (h : x86MapPageKept src la57 m (root r) v paddr flags = (.error e, m')) :
    m.KeepsLookups la57 root m' := by
  obtain ⟨m₁, t₁, i, -, -, hlookup, hP, rfl⟩ := hF.mapPageKept_error hflags h
  intro r' v' tr htr
  refine translate_mono (fun t j hj => ?_) ((hlookup r' v').trans htr)
  refine put_of_ne _ ?_
  by_contra hc
  push Not at hc
  obtain ⟨rfl, rfl⟩ := hc
  exact hP hj

theorem Forest.mapPageKept_error_not_clean (hflags : PresentFlags flags) {e : Fault}
    (h : x86MapPageKept src la57 m (root r) v paddr flags = (.error e, m')) : ¬ m.Clean m' := by
  obtain ⟨m₁, t₁, i, -, hwrites, -, -, rfl⟩ := hF.mapPageKept_error hflags h
  exact Machine.not_clean_store hwrites rfl

/-- **`map_page` returns exactly if there is a frame for every missing table.** -/
theorem Forest.mapPageKept_ok_iff (hflags : PresentFlags flags) (paddr : Word) :
    (∃ ptr m', x86MapPageKept src la57 m (root r) v paddr flags = (.ok ptr, m')) ↔
      src.Supplies (missingTables m.mem (root r)
        (aboveLeaf flags (upperIndices v (upperLevels la57)) (index 1 v))) m.pmm := by
  have hlen := aboveLeaf_length flags (upperIndices v (upperLevels la57)) (index 1 v)
  rw [upperIndices_length] at hlen
  rw [← hF.descendAll_ok_iff (p := []) hflags (linkExtra_within la57) rfl (by simpa using hlen)]
  unfold x86MapPageKept
  simp only [mapPageKept_eq_ok, mapPage_eq]
  constructor
  · rintro ⟨ptr, m', h⟩
    obtain ⟨⟨t, m₁⟩, h₁, -⟩ := Exec.bind_eq_ok.mp h
    exact ⟨t, m₁, h₁⟩
  · rintro ⟨t, m₁, h₁⟩
    exact ⟨_, _, by rw [h₁, Exec.ok_bind]⟩

/-- **The entries that `map_page` writes for a frame** are made of frames exactly if it does
not run out of them. -/
theorem Forest.mapPageKept_clean_iff (hm : Mappable paddr flags) :
    m.Clean (x86MapPageKept src la57 m (root r) v paddr flags).2 ↔
      src.Supplies (missingTables m.mem (root r)
        (aboveLeaf flags (upperIndices v (upperLevels la57)) (index 1 v))) m.pmm := by
  rw [← hF.mapPageKept_ok_iff hm.presentFlags paddr]
  rcases h : x86MapPageKept src la57 m (root r) v paddr flags with ⟨e | ptr, m'⟩
  · refine iff_of_false (hF.mapPageKept_error_not_clean hm.presentFlags h) ?_
    rintro ⟨ptr, m', hc⟩
    cases hc
  · refine iff_of_true ?_ ⟨ptr, m', rfl⟩
    rw [x86MapPageKept, mapPageKept_eq_ok, mapPage_eq] at h
    obtain ⟨⟨t, m₁⟩, h₁, h⟩ := Exec.bind_eq_ok.mp h
    obtain ⟨-, rfl⟩ := Prod.mk.inj (Except.ok.inj h)
    exact ((Machine.Clean.refl m).descendAll hm.flags_leaf (linkExtra_within la57) h₁).store
      hm.leaf_ne_ones

/-- A page at -1 is an entry of ones, if not a table was linked there before. -/
theorem Forest.mapPageKept_ones_not_clean (hflags : PresentFlags flags) :
    ¬ m.Clean (x86MapPageKept src la57 m (root r) v (-1) flags).2 := by
  rcases h : x86MapPageKept src la57 m (root r) v (-1) flags with ⟨e | ptr, m'⟩
  · exact hF.mapPageKept_error_not_clean hflags h
  · rw [x86MapPageKept, mapPageKept_eq_ok, mapPage_eq] at h
    obtain ⟨⟨t, m₁⟩, h₁, h⟩ := Exec.bind_eq_ok.mp h
    obtain ⟨-, rfl⟩ := Prod.mk.inj (Except.ok.inj h)
    obtain ⟨new, hnew, -⟩ := (Machine.Clean.refl m).descendAll hflags.flags_leaf
      (linkExtra_within la57) h₁
    exact Machine.not_clean_store ⟨new, hnew.symm⟩ (ones_or _)

end MapPage

/-! ### Page faults -/

section Fault

variable {fayt : PortalLib} {src : FrameSource σ} {la57 : Bool} {root : R → Word}
  {s s₁ : PortalState σ R} {r : R} {p : Portal} {v : Word}

/-- Taking a page of data leaves the tables alone that are there. -/
theorem Forest.missingTables_takePage {d : ℕ} {m : Machine σ} {f : Word} {x : σ}
    (hF : Forest src root d m) (ha : src.alloc m.pmm = some (f, x)) {q is : List (BitVec 9)}
    {t : Word} (ht : tableAt subtable m.mem (root r) q = some t) (hlen : q.length + is.length ≤ d) :
    missingTables (m.takePage f x).mem t is = missingTables m.mem t is := by
  induction is generalizing q t with
  | nil => rfl
  | cons i is ih =>
      rw [List.length_cons] at hlen
      rw [missingTables, missingTables, hF.takePage_mem ha (by omega) ht]
      split_ifs with hP
      · rcases is with - | ⟨j, is⟩
        · rfl
        · rw [List.length_cons] at hlen
          exact ih (hF.tableAt_of_present ht (by omega) hP) (by simp; omega)
      · rfl

theorem Forest.missingTables_allocPage {d : ℕ} {m : Machine σ} (hF : Forest src root d m)
    {is : List (BitVec 9)} (hlen : is.length ≤ d) :
    missingTables (allocPage src m).2.mem (root r) is = missingTables m.mem (root r) is := by
  unfold allocPage
  rcases ha : src.alloc m.pmm with - | ⟨f, x⟩
  · rfl
  · exact hF.missingTables_takePage (q := []) ha rfl (by simpa using hlen)

theorem allocPage_writes (m : Machine σ) : (allocPage src m).2.writes = m.writes := by
  unfold allocPage
  rcases src.alloc m.pmm with - | ⟨f, x⟩ <;> rfl

theorem allocPage_of_none {m : Machine σ} (ha : src.alloc m.pmm = none) :
    (allocPage src m).1 = -1 :=
  congrArg Prod.fst (allocPage_eq_of_none ha)

theorem writes_faultFrame {paddr : Word} (h : faultFrame fayt src s p v = some (paddr, s₁)) :
    (allocPage src s₁.machine).2.writes = s.machine.writes := by
  rw [allocPage_writes]
  rcases faultFrame_machine h with ⟨-, hm⟩ | ⟨-, hm⟩ <;> rw [hm]
  exact allocPage_writes _

theorem missingTables_faultFrame {paddr : Word}
    (hF : Forest src root (upperLevels la57 + 1) s.machine)
    (h : faultFrame fayt src s p v = some (paddr, s₁)) {is : List (BitVec 9)}
    (hlen : is.length ≤ upperLevels la57 + 1) :
    missingTables s₁.machine.mem (root r) is = missingTables s.machine.mem (root r) is := by
  rcases faultFrame_machine h with ⟨-, hm⟩ | ⟨-, hm⟩ <;> rw [hm]
  exact hF.missingTables_allocPage hlen

variable (fayt src la57 root s r) in
/-- There are frames for the page of the portal that a fault at `addr` finds, for the `paddr`
that is not used, and for the missing tables. -/
def PortalState.FramesFor (addr : Word) : Prop :=
  let v := addr &&& ~~~0xfff
  let missing := missingTables s.machine.mem (root r)
    (upperIndices v (upperLevels la57) ++ [index 1 v])
  ∀ p, (s.portals r).find addr = some p → s.Backable fayt p v →
    (s.FrameKnown p v → src.Supplies (missing + 1) s.machine.pmm) ∧
    (¬ s.FrameKnown p v → src.Supplies (missing + 2) s.machine.pmm)

/-- The frames of a fault, counted from where the page takes its own. -/
theorem supplies_faultFrame {paddr : Word} (h : faultFrame fayt src s p v = some (paddr, s₁))
    (n : ℕ) :
    ((s.FrameKnown p v → src.Supplies (n + 1) s.machine.pmm) ∧
      (¬ s.FrameKnown p v → src.Supplies (n + 2) s.machine.pmm)) ↔
    src.Supplies (n + 1) s₁.machine.pmm := by
  rcases faultFrame_machine h with ⟨hknown, hm⟩ | ⟨hknown, hm⟩ <;> rw [hm]
  · exact ⟨fun hs => hs.1 hknown, fun hs => ⟨fun _ => hs, fun hc => absurd hknown hc⟩⟩
  · have hfirst : src.Supplies (n + 2) s.machine.pmm ↔
        src.Supplies (n + 1) (allocPage src s.machine).2.pmm := by
      rcases ha : src.alloc s.machine.pmm with - | ⟨f, x⟩
      · -- when the first allocation fails, so does the next
        have hnone : ∀ k, ¬ src.Supplies (k + 1) s.machine.pmm := by
          rintro k ⟨f, x, hc, -⟩
          cases ha.symm.trans hc
        simp only [allocPage, ha]
        exact iff_of_false (hnone _) (hnone _)
      · simp only [allocPage, ha]
        constructor
        · rintro ⟨f', x', ha', hs⟩
          cases ha.symm.trans ha'
          exact hs
        · exact fun hs => ⟨f, x, ha, hs⟩
    exact ⟨fun hs => hfirst.mp (hs.2 hknown), fun hs => ⟨fun hc => absurd hc hknown,
      fun _ => hfirst.mpr hs⟩⟩

variable [DecidableEq R]

/-- What a fault does: nothing, without a portal or a page in its share point; else it takes
the frame for the page and calls `map_page`, and faults only where that does. -/
theorem portalFaultAnonKept_cases (fayt : PortalLib) (r : R) (addr : Word)
    (hF : Forest src root (upperLevels la57 + 1) s.machine) :
    (portalFaultAnonKept src fayt la57 root s r addr = (.ok (-1), s) ∧
      ∀ p, (s.portals r).find addr = some p → ¬ s.Backable fayt p (addr &&& ~~~0xfff)) ∨
    ∃ p paddr s₁ res, (s.portals r).find addr = some p ∧
      s.Backable fayt p (addr &&& ~~~0xfff) ∧
      faultFrame fayt src s p (addr &&& ~~~0xfff) = some (paddr, s₁) ∧
      Forest src root (upperLevels la57 + 1) (allocPage src s₁.machine).2 ∧
      x86MapPageKept src la57 (allocPage src s₁.machine).2 (root r) (addr &&& ~~~0xfff)
          (allocPage src s₁.machine).1 (portalTranslateProtections p.prot)
        = (res, (portalFaultAnonKept src fayt la57 root s r addr).2.machine) ∧
      ∀ e, (portalFaultAnonKept src fayt la57 root s r addr).1 = .error e → res = .error e := by
  unfold portalFaultAnonKept
  rcases hfind : (s.portals r).find addr with - | p
  · exact .inl ⟨rfl, fun p hp => by cases hp⟩
  · simp only [sub_offset]
    rcases hframe : faultFrame fayt src s p (addr &&& ~~~0xfff) with - | ⟨paddr, s₁⟩
    · refine .inl ⟨rfl, fun p' hp' => ?_⟩
      cases hp'
      intro hback
      have hsome : (faultFrame fayt src s p (addr &&& ~~~0xfff)).isSome :=
        faultFrame_isSome_iff.mpr hback
      rw [hframe] at hsome
      cases hsome
    · have hback : s.Backable fayt p (addr &&& ~~~0xfff) :=
        faultFrame_isSome_iff.mp (Option.isSome_iff_exists.mpr ⟨_, hframe⟩)
      obtain ⟨hF₂, -, -⟩ := (faultFrame_backed hF hframe).forest.allocPage_keeps
      simp only
      rcases hmap : x86MapPageKept src la57 (allocPage src s₁.machine).2 (root r)
        (addr &&& ~~~0xfff) (allocPage src s₁.machine).1 (portalTranslateProtections p.prot)
        with ⟨e | ptr, m⟩
      · exact .inr ⟨p, paddr, s₁, .error e, rfl, hback, hframe, hF₂, hmap,
          fun e' he => by cases he; rfl⟩
      · refine .inr ⟨p, paddr, s₁, .ok ptr, rfl, hback, hframe, hF₂, ?_, fun e' he => ?_⟩
        · rw [hmap]
          dsimp only
          split_ifs <;> rfl
        · dsimp only at he
          split_ifs at he

/-- **The entries that a fault writes** are made of frames exactly if there are frames for
all it needs. -/
theorem portalFaultAnonKept_clean_iff {addr : Word}
    (hF : Forest src root (upperLevels la57 + 1) s.machine) :
    s.machine.Clean (portalFaultAnonKept src fayt la57 root s r addr).2.machine ↔
      s.FramesFor fayt src la57 root r addr := by
  rcases portalFaultAnonKept_cases fayt r addr hF with
    ⟨hkept, hback⟩ | ⟨p, paddr, s₁, res, hfind, hback, hframe, hF₂, hkept, -⟩
  · rw [hkept]
    exact iff_of_true (.refl _) fun p hfind hc => absurd hc (hback p hfind)
  obtain ⟨hflags, hPS⟩ := portalTranslateProtections_flags p.prot
  have hlen : (upperIndices (addr &&& ~~~0xfff) (upperLevels la57)
      ++ [index 1 (addr &&& ~~~0xfff)]).length ≤ upperLevels la57 + 1 := by simp
  have hcond : s.FramesFor fayt src la57 root r addr ↔
      src.Supplies (missingTables s₁.machine.mem (root r)
        (upperIndices (addr &&& ~~~0xfff) (upperLevels la57) ++ [index 1 (addr &&& ~~~0xfff)]) + 1)
        s₁.machine.pmm := by
    rw [missingTables_faultFrame hF hframe hlen, ← supplies_faultFrame hframe]
    refine ⟨fun h => h p hfind hback, fun h p' hp' _ => ?_⟩
    cases hfind.symm.trans hp'
    exact h
  have hmachine := (Prod.ext_iff.mp hkept).2
  dsimp only at hmachine
  rw [hcond, ← hmachine, ← Machine.clean_congr (writes_faultFrame hframe)]
  rcases ha : src.alloc s₁.machine.pmm with - | ⟨f, x⟩
  · rw [allocPage_of_none ha]
    refine iff_of_false (hF₂.mapPageKept_ones_not_clean hflags) ?_
    rintro ⟨f, x, hc, -⟩
    cases ha.symm.trans hc
  · have halloc : (allocPage src s₁.machine).1 = f := congrArg Prod.fst (allocPage_eq_of_some ha)
    have hpmm : (allocPage src s₁.machine).2.pmm = x :=
      congrArg (fun page => page.2.pmm) (allocPage_eq_of_some ha)
    rw [halloc, hF₂.mapPageKept_clean_iff
      (portalTranslateProtections_mappable p.prot (src.alloc_frame ha)).1, aboveLeaf, if_neg hPS,
      (faultFrame_backed hF hframe).forest.missingTables_allocPage hlen, hpmm]
    constructor
    · exact fun hs => ⟨f, x, ha, hs⟩
    · rintro ⟨f', x', ha', hs⟩
      cases ha.symm.trans ha'
      exact hs

end Fault

/-! ### Running out of frames -/

section Withstands

variable (fayt : PortalLib) (src : FrameSource σ) (la57 : Bool) (root : R → Word) [DecidableEq R]

/-- **`map_page` withstands running out of frames**: it stores no entry made of -1, and if it
faults, the translations that there were are unchanged. -/
structure MapWithstands (m : Machine σ) (r : R) (v paddr flags : Word) : Prop where
  stores : m.Clean (x86MapPageKept src la57 m (root r) v paddr flags).2
  translations : ∀ e, (x86MapPageKept src la57 m (root r) v paddr flags).1 = .error e →
    m.KeepsLookups la57 root (x86MapPageKept src la57 m (root r) v paddr flags).2

/-- A fault at `addr` finds a portal, but no frame for its page. -/
def PortalState.NoFrame (s : PortalState σ R) (r : R) (addr : Word) : Prop :=
  ∃ p, (s.portals r).find addr = some p ∧ s.Backable fayt p (addr &&& ~~~0xfff) ∧
    s.Exhausted src p (addr &&& ~~~0xfff)

/-- **`portal_fault_anon` withstands running out of frames**: it stores no entry made of -1;
if it faults or has no frame for the page, the translations that there were are unchanged;
and it returns -1 if it has no frame for the page. -/
structure FaultWithstands (s : PortalState σ R) (r : R) (addr : Word) : Prop where
  stores : s.machine.Clean (portalFaultAnonKept src fayt la57 root s r addr).2.machine
  translations : (∃ e, (portalFaultAnonKept src fayt la57 root s r addr).1 = .error e) ∨
      s.NoFrame fayt src r addr →
    s.machine.KeepsLookups la57 root (portalFaultAnonKept src fayt la57 root s r addr).2.machine
  refused : s.NoFrame fayt src r addr →
    (portalFaultAnonKept src fayt la57 root s r addr).1 = .ok (-1)

end Withstands

section Main

variable {fayt : PortalLib} {src : FrameSource σ} {la57 : Bool} {root : R → Word} [DecidableEq R]
  {s : PortalState σ R} {r : R} {addr : Word}

/-- A fault that writes no entry of all ones has found a frame for the page, and returns. -/
theorem clean_returns (hF : Forest src root (upperLevels la57 + 1) s.machine)
    (h : s.machine.Clean (portalFaultAnonKept src fayt la57 root s r addr).2.machine) :
    ¬ s.NoFrame fayt src r addr ∧
      ∀ e, (portalFaultAnonKept src fayt la57 root s r addr).1 ≠ .error e := by
  rcases portalFaultAnonKept_cases fayt r addr hF with
    ⟨hkept, hback⟩ | ⟨p, paddr, s₁, res, hfind, -, hframe, hF₂, hkept, herr⟩
  · rw [hkept]
    exact ⟨fun ⟨p, hfind, hc, _⟩ => hback p hfind hc, fun e he => by cases he⟩
  have hflags := (portalTranslateProtections_flags p.prot).1
  rw [← Machine.clean_congr (writes_faultFrame hframe)] at h
  constructor
  · rintro ⟨p', hfind', -, hnone⟩
    cases hfind.symm.trans hfind'
    rw [exhausted_iff hframe] at hnone
    rw [allocPage_of_none hnone] at hkept
    refine hF₂.mapPageKept_ones_not_clean (r := r) (v := addr &&& ~~~0xfff) hflags ?_
    rw [hkept]
    exact h
  · intro e he
    rw [herr e he] at hkept
    exact hF₂.mapPageKept_error_not_clean hflags hkept h

/-- **Running out of frames.**  In every state of the page tables, at every address:
`map_page` withstands it exactly if there is a frame for every table that is missing on the
way, and `portal_fault_anon` exactly if there are frames for the page as well. -/
theorem withstands_iff (fayt : PortalLib)
    (hF : Forest src root (upperLevels la57 + 1) s.machine) (r : R)
    (addr : Word) :
    (∀ paddr flags, Mappable paddr flags →
      (MapWithstands src la57 root s.machine r addr paddr flags ↔
        src.Supplies (missingTables s.machine.mem (root r)
          (aboveLeaf flags (upperIndices addr (upperLevels la57)) (index 1 addr)))
          s.machine.pmm)) ∧
    (FaultWithstands fayt src la57 root s r addr ↔ s.FramesFor fayt src la57 root r addr) := by
  constructor
  · intro paddr flags hm
    rw [← hF.mapPageKept_clean_iff hm]
    refine ⟨fun h => h.stores, fun h => ⟨h, fun e he => ?_⟩⟩
    exact hF.mapPageKept_lookup hm.presentFlags (Prod.ext he rfl)
  · rw [← portalFaultAnonKept_clean_iff hF]
    refine ⟨fun h => h.stores, fun h => ?_⟩
    obtain ⟨hframe, hreturns⟩ := clean_returns hF h
    refine ⟨h, fun hc => ?_, fun hc => absurd hc hframe⟩
    rcases hc with ⟨e, he⟩ | hc
    · exact absurd he (hreturns e)
    · exact absurd hc hframe

end Main

theorem withstands_neighbours :
    MapWithstands .ofList false twoRoots neighbours.machine false 0x400123 0x300000
        (flagP ||| flagRW) ∧
      FaultWithstands portalLib .ofList false twoRoots neighbours false 0x400123 := by
  have hF : Forest .ofList twoRoots (upperLevels false + 1) neighbours.machine := twoTables_forest 3
  have hmissing : ∀ is, missingTables neighbours.machine.mem (twoRoots false) is = is.length :=
    missingTables_blank rfl
  have hframes : ∀ n ≤ 12, FrameSource.ofList.Supplies n neighbours.machine.pmm :=
    fun n hn => (FreeList.supplies twoTables.pmm).of_le hn
  obtain ⟨hmap, hfault⟩ := withstands_iff portalLib hF false 0x400123
  refine ⟨(hmap _ _ (by decide)).mpr ?_, hfault.mpr fun p _ _ => ⟨fun _ => ?_, fun _ => ?_⟩⟩
  · rw [hmissing]
    exact hframes _ (by decide +kernel)
  · rw [hmissing]
    exact hframes _ (by decide +kernel)
  · rw [hmissing]
    exact hframes _ (by decide +kernel)

/-- The two page tables, and three free frames. -/
def threeFrames : Machine FreeList :=
  { twoTables with pmm := ⟨[0x200000, 0x201000, 0x202000], by decide +kernel,
    List.forall_iff_forall_mem.mp (by decide +kernel)⟩ }

/-- The tables for the two neighbours of the first context have taken the last frames. -/
def spent : PortalState FreeList Bool :=
  { neighbours with machine := (x86MapPageKept .ofList false threeFrames (twoRoots false) 0x400000
      0x300000 (flagP ||| flagRW)).2 }

theorem spent_forest : Forest .ofList twoRoots 3 spent.machine := by
  have hF : Forest .ofList twoRoots 3 threeFrames := by
    refine Forest.init 3 (by decide) (fun _ => rfl) (by decide) (fun r => ?_) rfl
    show twoRoots r ∉ threeFrames.pmm.1
    cases r <;> decide +kernel
  have hmap : ∃ ptr m', x86MapPageKept .ofList false threeFrames (twoRoots false) 0x400000 0x300000
      (flagP ||| flagRW) = (.ok ptr, m') := by
    refine (Forest.mapPageKept_ok_iff hF ⟨by decide, by decide⟩ _).mpr ?_
    rw [missingTables_blank rfl]
    exact (FreeList.supplies threeFrames.pmm).of_le (by decide +kernel)
  obtain ⟨ptr, m', hmap⟩ := hmap
  have hspent : spent.machine = m' := (Prod.ext_iff.mp hmap).2
  rw [hspent]
  rw [x86MapPageKept, mapPageKept_eq_ok] at hmap
  refine (hF.slotOf_mapPage (k := 2) (r := false) ⟨by decide, by decide⟩ (linkExtra_within false)
    (fun _ => ?_) hmap).1
  rw [slotOf_empty (show threeFrames.mem (twoRoots false) = 0 from rfl) (by decide)]
  trivial

/-- With no frame left, a fault on the second neighbour maps the page at -1 and returns 0, and
`map_page` in the other context links a table at -1. -/
theorem spent_not_withstands :
    Forest .ofList twoRoots 3 spent.machine ∧ spent.NoFrame portalLib .ofList false 0x401123 ∧
      (portalFaultAnonKept .ofList portalLib false twoRoots spent false 0x401123).1 = .ok 0 ∧
      (portalFaultAnonKept .ofList portalLib false twoRoots spent false 0x401123).2.machine.mem
        0x202000 1 = -1 ∧
      ¬ FaultWithstands portalLib .ofList false twoRoots spent false 0x401123 ∧
      (x86MapPageKept .ofList false spent.machine (twoRoots true) 0x400000 0x300000
        (flagP ||| flagRW)).2.mem 0x102000 0 = -1 ∧
      ¬ MapWithstands .ofList false twoRoots spent.machine true 0x400000 0x300000
        (flagP ||| flagRW) := by
  have hempty : FrameSource.ofList.alloc spent.machine.pmm = none :=
    Option.isNone_iff_eq_none.mp (by decide +kernel)
  have hnone : spent.NoFrame portalLib .ofList false 0x401123 := by
    refine ⟨(anonReq 0x401000 portalProtRead).opened, by decide +kernel,
      fun hc => absurd hc (by decide), fun _ => hempty, fun _ => ?_⟩
    rw [allocPage_eq_of_none hempty, hempty]
  have hret : (portalFaultAnonKept .ofList portalLib false twoRoots spent false 0x401123).1
      = .ok 0 := by
    decide +kernel
  have hmissing : missingTables spent.machine.mem (twoRoots true) (aboveLeaf (flagP ||| flagRW)
      (upperIndices 0x400000 (upperLevels false)) (index 1 0x400000)) = 2 + 1 := by
    decide +kernel
  refine ⟨spent_forest, hnone, hret, by decide +kernel, fun h => ?_, by decide +kernel,
    fun h => ?_⟩
  · cases hret.symm.trans (h.refused hnone)
  · have hclean := h.stores
    rw [Forest.mapPageKept_clean_iff spent_forest (by decide), hmissing] at hclean
    obtain ⟨f, x, hc, -⟩ := hclean
    cases hempty.symm.trans hc

end Rock
