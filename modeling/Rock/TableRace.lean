/-
Rock/TableRace.lean

`map_page` and `unmap_page` as another processor sees them (kernel/arch/x86/paging.c).

The lock of a page table keeps the calls apart, but the processors that run with the table read
it at any time.  Here the calls are written out access by access, with the frames of new tables
cleared word by word, and `Walker` is a walk of the processor that makes one read at a time, so
that a walk may begin in one call and end in another.

A new table is cleared before it is linked, and linking it changes no translation: up to the last
write of a call the walk cannot tell that anything happens (`Quiet`).  The last write is the leaf
(`LeafWrite`).  A walk that has already passed an entry that a large page replaces ends in the
old page table.  That one still holds what it held: it is never freed, so no later call is given
its frame (`Outside`).

Main result: `walk_sees_some_moment`.
-/
import Rock.PageMap
import Rock.Stepwise

namespace Rock

open TableTree Prog

variable {σ : Type}

/-! ### The accesses of `map_page` -/

/-- The `n` words of the page `f` from the word `i` on, cleared one after the other. -/
def clearWords (f : Word) : (n i : ℕ) → Prog (Machine σ) Unit
  | 0, _ => pure ()
  | n + 1, i => do
      .store fun m => { m with mem := put m.mem f (BitVec.ofNat 9 i) 0 }
      clearWords f n (i + 1)

section Steps

variable (src : FrameSource σ)

/-- `pmm_alloc(1, 1)` up to the clearing; `none` is the returned -1. -/
def takeTable : Prog (Machine σ) (Option Word) :=
  .one fun m => .ok ((src.alloc m.pmm).elim (none, m) fun a =>
    (some a.1, { m with pmm := a.2, tables := a.1 :: m.tables }))

/-- What one level of `map_page` does when the entry is not present.  After a -1 the entry
refers to no memory, and the access that follows faults. -/
def linkTable (extra flags t : Word) (i : BitVec 9) : Option Word → Prog (Machine σ) Unit
  | none => do
      .store fun m => m.store t i (-1 ||| (flags &&& tableFlagsMask) ||| extra)
      .fail .wild
  | some f => do
      clearWords f 512 0
      .store fun m => m.store t i (f ||| (flags &&& tableFlagsMask) ||| extra)

/-- The `if` of one level of `map_page`, whose entry is `e`. -/
def ensureTable (extra flags t : Word) (i : BitVec 9) (e : Word) : Prog (Machine σ) Unit :=
  if has e flagP then pure ()
  else do
    let f ← takeTable src
    linkTable extra flags t i f

/-- One level of `map_page`.  The entry is read again after it was written. -/
def descendSteps (extra flags t : Word) (i : BitVec 9) : Prog (Machine σ) Word := do
  let e ← .load fun m => m.mem t i
  ensureTable src extra flags t i e
  let e ← .load fun m => m.mem t i
  pure (tableOf e)

/-- The levels above the page directory. -/
def descendAllSteps (extra flags t : Word) : List (BitVec 9) → Prog (Machine σ) Word
  | [] => pure t
  | i :: is => do
      let t' ← descendSteps src extra flags t i
      descendAllSteps extra flags t' is

/-- `map_page` between taking the lock of the page table and releasing it. -/
def mapPageSteps (extra pmlt : Word) (upper : List (BitVec 9)) (i2 i1 : BitVec 9)
    (paddr flags : Word) : Prog (Machine σ) (Option Ptr) := do
  let pml2 ← descendAllSteps src extra flags pmlt upper
  if has flags flagPS then do
    .store fun m => m.store pml2 i2 (paddr ||| flags)
    pure none
  else do
    let pml1 ← descendSteps src extra flags pml2 i2
    .store fun m => m.store pml1 i1 (paddr ||| flags)
    pure (some ⟨pml1, i1⟩)

/-- The accesses of `map_page` in the two backends. -/
def x86MapPageSteps (la57 : Bool) (pmlt vaddr paddr flags : Word) :
    Prog (Machine σ) (Option Ptr) :=
  let ix := computeTableIndices vaddr
  if la57 then
    mapPageSteps src 0 pmlt [ix.pml5Index, ix.pml4Index, ix.pml3Index] ix.pml2Index
      ix.pml1Index paddr flags
  else
    mapPageSteps src flagRW pmlt [ix.pml4Index, ix.pml3Index] ix.pml2Index ix.pml1Index paddr
      flags

end Steps

/-- The levels of `unmap_page` above the page directory.  Each entry is read twice. -/
def walkToSteps (t : Word) : List (BitVec 9) → Prog (Machine σ) (Option Word)
  | [] => pure (some t)
  | i :: is => do
      let e ← .load fun m => m.mem t i
      if has e flagP then do
        let e ← .load fun m => m.mem t i
        walkToSteps (tableOf e) is
      else pure none

/-- `table[i] &= ~(X86_FLAGS_P)`. -/
def clearPresent (t : Word) (i : BitVec 9) (size : ℕ) : Prog (Machine σ) ℕ := do
  let e ← .load fun m => m.mem t i
  .store fun m => m.store t i (e &&& ~~~flagP)
  pure size

/-- `unmap_page` from the page directory on. -/
def unmapDirectory (pml2 : Word) (i2 i1 : BitVec 9) : Prog (Machine σ) ℕ := do
  let e ← .load fun m => m.mem pml2 i2
  if has (e &&& 0xfff) flagPS then clearPresent pml2 i2 0x200000
  else do
    let e ← .load fun m => m.mem pml2 i2
    if has e flagP then do
      let e ← .load fun m => m.mem pml2 i2
      clearPresent (tableOf e) i1 0x1000
    else pure 0

/-- `unmap_page` between taking the lock of the page table and releasing it. -/
def unmapPageSteps (pmlt : Word) (upper : List (BitVec 9)) (i2 i1 : BitVec 9) :
    Prog (Machine σ) ℕ := do
  let pml2 ← walkToSteps pmlt upper
  pml2.elim (pure 0) fun pml2 => unmapDirectory pml2 i2 i1

/-- The accesses of `unmap_page` in the two backends; the one for five levels takes `pml4_index`
at the top. -/
def x86UnmapPageSteps (la57 : Bool) (pmlt vaddr : Word) : Prog (Machine σ) ℕ :=
  let ix := computeTableIndices vaddr
  if la57 then
    unmapPageSteps pmlt [ix.pml4Index, ix.pml4Index, ix.pml3Index] ix.pml2Index ix.pml1Index
  else unmapPageSteps pmlt [ix.pml4Index, ix.pml3Index] ix.pml2Index ix.pml1Index

/-! ### Without interruption -/

/-- The page `f` with the `n` words from `i` on zero. -/
def clearedMem (mem : Mem) (f : Word) (n i : ℕ) : Mem :=
  Function.update mem f fun j => if i ≤ j.toNat ∧ j.toNat < i + n then 0 else mem f j

theorem clearedMem_zero (mem : Mem) (f : Word) (i : ℕ) : clearedMem mem f 0 i = mem := by
  have hf : (fun j : BitVec 9 => if i ≤ j.toNat ∧ j.toNat < i + 0 then 0 else mem f j)
      = mem f := by
    funext j
    rw [if_neg (by omega)]
  rw [clearedMem, hf, Function.update_eq_self]

theorem clearedMem_succ (mem : Mem) (f : Word) {n i : ℕ} (hi : i < 512) :
    clearedMem (put mem f (BitVec.ofNat 9 i) 0) f n (i + 1) = clearedMem mem f (n + 1) i := by
  rw [clearedMem, clearedMem, put, Function.update_idem, Function.update_self]
  congr 1
  funext j
  rcases eq_or_ne j (BitVec.ofNat 9 i) with rfl | hj
  · have hval : (BitVec.ofNat 9 i).toNat = i := by
      rw [BitVec.toNat_ofNat]
      exact Nat.mod_eq_of_lt hi
    rw [Function.update_self, hval, if_pos (show i ≤ i ∧ i < i + (n + 1) by omega), ite_self]
  · have hne : j.toNat ≠ i := by
      rintro rfl
      exact hj (by simp)
    rw [Function.update_of_ne hj]
    exact if_congr (by omega) rfl rfl

theorem clearedMem_all (mem : Mem) (f : Word) :
    clearedMem mem f 512 0 = Function.update mem f 0 := by
  rw [clearedMem]
  congr 1
  funext j
  exact if_pos ⟨Nat.zero_le _, by simpa using j.isLt⟩

theorem run_clearWords (f : Word) {n i : ℕ} (h : i + n ≤ 512) (m : Machine σ) :
    run (clearWords f n i) m = .ok ((), { m with mem := clearedMem m.mem f n i }) := by
  induction n generalizing i m with
  | zero =>
    rw [clearWords, run_pure, clearedMem_zero]
  | succ n ih =>
    rw [clearWords, run_bind, run_store, Exec.ok_bind, ih (by omega),
      clearedMem_succ _ _ (by omega)]

variable (src : FrameSource σ)

theorem run_descendSteps (extra flags t : Word) (i : BitVec 9) (m : Machine σ) :
    run (descendSteps src extra flags t i) m = descend src extra flags m t i := by
  rw [descendSteps, descend]
  simp only [run_bind, run_load, Exec.ok_bind, ensureTable, run_ite, run_pure]
  by_cases hp : has (m.mem t i) flagP
  · simp only [if_pos hp, Exec.ok_bind]
  · simp only [if_neg hp, takeTable, run_one]
    rcases src.alloc m.pmm with - | ⟨f, s⟩
    · rfl
    · have hclear := run_clearWords f (n := 512) (i := 0) (le_refl 512)
        { m with pmm := s, tables := f :: m.tables }
      simp only [Option.elim_some, Exec.ok_bind, linkTable, run_bind, hclear, clearedMem_all,
        run_store]
      rfl

theorem run_descendAllSteps (extra flags : Word) (is : List (BitVec 9)) (t : Word)
    (m : Machine σ) :
    run (descendAllSteps src extra flags t is) m = descendAll src extra flags m t is := by
  induction is generalizing t m with
  | nil => rfl
  | cons i is ih =>
    rw [descendAllSteps, descendAll, run_bind, run_descendSteps]
    simp only [ih]

/-- **`map_page` without interruption.** -/
theorem run_mapPageSteps (extra pmlt : Word) (upper : List (BitVec 9)) (i2 i1 : BitVec 9)
    (paddr flags : Word) (m : Machine σ) :
    run (mapPageSteps src extra pmlt upper i2 i1 paddr flags) m
      = mapPage src extra m pmlt upper i2 i1 paddr flags := by
  rw [mapPageSteps, mapPage, run_bind, run_descendAllSteps]
  rcases descendAll src extra flags m pmlt upper with e | ⟨pml2, m₁⟩
  · rfl
  · simp only [Exec.ok_bind, run_ite, run_bind, run_store, run_pure, run_descendSteps]

theorem run_x86MapPageSteps (la57 : Bool) (pmlt v paddr flags : Word) (m : Machine σ) :
    run (x86MapPageSteps src la57 pmlt v paddr flags) m
      = (x86PagingInit src la57).mapPage m pmlt v paddr flags := by
  cases la57
  · exact run_mapPageSteps src _ _ _ _ _ _ _ m
  · exact run_mapPageSteps src _ _ _ _ _ _ _ m

theorem run_walkToSteps (is : List (BitVec 9)) (t : Word) (m : Machine σ) :
    run (walkToSteps t is) m = .ok (walkTo m.mem t is, m) := by
  induction is generalizing t with
  | nil => rfl
  | cons i is ih =>
    simp only [walkToSteps, walkTo, run_bind, run_load, Exec.ok_bind, run_ite, ih, run_pure]
    split_ifs <;> rfl

/-- **`unmap_page` without interruption.** -/
theorem run_unmapPageSteps (pmlt : Word) (upper : List (BitVec 9)) (i2 i1 : BitVec 9)
    (m : Machine σ) :
    run (unmapPageSteps pmlt upper i2 i1) m = .ok (unmapPage m pmlt upper i2 i1) := by
  simp only [unmapPageSteps, unmapPage, run_bind, run_walkToSteps, Exec.ok_bind]
  rcases walkTo m.mem pmlt upper with - | pml2
  · rfl
  · simp only [Option.elim_some, unmapDirectory, clearPresent, run_bind, run_load, run_store,
      Exec.ok_bind, run_ite, run_pure]
    split_ifs <;> rfl

theorem run_x86UnmapPageSteps (la57 : Bool) (pmlt v : Word) (m : Machine σ) :
    run (x86UnmapPageSteps la57 pmlt v) m = .ok ((x86PagingInit src la57).unmapPage m pmlt v) := by
  cases la57
  · exact run_unmapPageSteps _ _ _ _ m
  · exact run_unmapPageSteps _ _ _ _ m

/-! ### Accesses that no walk can tell -/

section Quiet

variable {R : Type*} {src : FrameSource σ} {root : R → Word} {k : ℕ} {A : Word → Prop}

/-- A frame that is in use, but not as a table that a walk can come to. -/
structure Outside (src : FrameSource σ) (root : R → Word) (k : ℕ) (m : Machine σ) (t : Word) :
    Prop where
  live : src.Live m.pmm t
  fresh : Fresh subtable root (k + 1) m.mem t

/-- A forest with some frames outside. -/
structure Stands (src : FrameSource σ) (root : R → Word) (k : ℕ) (A : Word → Prop)
    (m : Machine σ) : Prop where
  forest : Forest src root (k + 1) m
  outside : ∀ t, A t → Outside src root k m t

/-- The forest stays a forest, every table stays where it is, the frames outside keep their
contents, and every address keeps its translation. -/
structure Quiet (src : FrameSource σ) (root : R → Word) (k : ℕ) (A : Word → Prop)
    (m m' : Machine σ) : Prop where
  stands : Stands src root k A m'
  paths : ∀ {r q t}, q.length ≤ k + 1 → tableAt subtable m.mem (root r) q = some t →
    tableAt subtable m'.mem (root r) q = some t
  aside : ∀ t, A t → m'.mem t = m.mem t
  same : ∀ r v, translate m'.mem (k + 2) (root r) v = translate m.mem (k + 2) (root r) v

variable {m m' : Machine σ} {r : R} {p : List (BitVec 9)} {t : Word} {i : BitVec 9}
  {extra flags : Word}

theorem Quiet.refl (hS : Stands src root k A m) : Quiet src root k A m m :=
  ⟨hS, fun _ h => h, fun _ _ => rfl, fun _ _ => rfl⟩

/-- Taking a frame from the allocator. -/
theorem Quiet.take (hS : Stands src root k A m) {f : Word} {s : σ}
    (ha : src.alloc m.pmm = some (f, s)) :
    Quiet src root k A m { m with pmm := s, tables := f :: m.tables } := by
  refine ⟨⟨⟨hS.forest.sep, hS.forest.small, ?_, ?_⟩, ?_⟩, fun _ h => h, fun _ _ => rfl,
    fun _ _ => rfl⟩
  · intro r q t hq ht
    obtain ⟨hframe, hlive, howned⟩ := hS.forest.known hq ht
    exact ⟨hframe, src.alloc_mono ha hlive, howned.imp_right (List.mem_cons_of_mem _)⟩
  · intro w hw
    exact (hS.forest.writes w hw).imp_right (List.mem_cons_of_mem _)
  · intro t ht
    exact ⟨src.alloc_mono ha (hS.outside t ht).live, (hS.outside t ht).fresh⟩

/-- A write to a frame that is no table and not one of those outside. -/
theorem Quiet.update (hS : Stands src root k A m) {f : Word} (hA : ¬ A f)
    (hf : Fresh subtable root (k + 1) m.mem f) (page : BitVec 9 → Word) :
    Quiet src root k A m { m with mem := Function.update m.mem f page } := by
  have hF := hS.forest
  have hpath : ∀ {r q}, q.length ≤ k + 1 →
      tableAt subtable (Function.update m.mem f page) (root r) q
        = tableAt subtable m.mem (root r) q := fun hq => tableAt_update_fresh hf hq
  have hmem : ∀ {r q t}, q.length ≤ k + 1 → tableAt subtable m.mem (root r) q = some t →
      Function.update m.mem f page t = m.mem t := by
    intro r q t hq ht
    refine Function.update_of_ne ?_ _ _
    rintro rfl
    exact hf r q hq ht
  have hF' : Forest src root (k + 1) { m with mem := Function.update m.mem f page } := by
    refine ⟨hF.sep.update_fresh hf, ?_, ?_, hF.writes⟩
    · intro r q t i hq ht
      rw [hpath (by omega)] at ht
      show ¬ (has (Function.update m.mem f page t i) flagP ∧
        has (Function.update m.mem f page t i) flagPS)
      rw [hmem (by omega) ht]
      exact hF.small hq ht
    · intro r q t hq ht
      rw [hpath hq] at ht
      obtain ⟨hframe, hlive, howned⟩ := hF.known hq ht
      exact ⟨hframe, hlive, howned⟩
  refine ⟨⟨hF', fun t ht => ⟨(hS.outside t ht).live, fun r q hq hs => ?_⟩⟩,
    fun hq ht => (hpath hq).trans ht, fun t ht => ?_, fun r v => ?_⟩
  · exact (hS.outside t ht).fresh r q hq ((hpath hq).symm.trans hs)
  · refine Function.update_of_ne ?_ _ _
    rintro rfl
    exact hA ht
  · rw [hF'.translate_eq, hF.translate_eq, slotOf, slotOf]
    refine congrArg (Slot.translate (index 0 v)) (slotAt_congr (hpath (by simp)) ?_ ?_)
    · intro t ht
      exact congrFun (hmem (by simp) ht) _
    · intro t ht
      exact hmem (by simp) ht

/-- **Linking a table** changes no translation. -/
theorem Forest.translate_descend (hF : Forest src root (k + 1) m)
    (ht : tableAt subtable m.mem (root r) p = some t) (hp : p.length < k + 1)
    (hopen : ¬ (has (m.mem t i) flagP ∧ has (m.mem t i) flagPS)) (hflags : PresentFlags flags)
    (hextra : extra &&& flagRW = extra) {t' : Word}
    (h : descend src extra flags m t i = .ok (t', m')) (r' : R) (v : Word) :
    translate m'.mem (k + 2) (root r') v = translate m.mem (k + 2) (root r') v := by
  obtain ⟨hF', -, hsame, hslot⟩ :=
    hF.descend_spec ht hp hopen hflags.present hflags.flags_leaf hextra h
  rw [hF'.translate_eq, hF.translate_eq, slotOf, slotOf]
  by_cases hhere : r' = r ∧ upperIndices v k = p ∧ index 1 v = i
  · obtain ⟨rfl, rfl, rfl⟩ := hhere
    rw [hslot (by simp)]
    exact Slot.translate_pages ((slotAt_open ht).mpr hopen) _
  · rw [hsame r' _ _ (by simp) hhere]

theorem clearWords_traced {f : Word} {n j : ℕ} (hS : Stands src root k A m) (hA : ¬ A f)
    (hf : Fresh subtable root (k + 1) m.mem f) (hj : j + n ≤ 512) :
    Traced (Quiet src root k A)
      (fun _ m' => m' = { m with mem := clearedMem m.mem f n j }) (clearWords f n j) m := by
  induction n generalizing j m with
  | zero =>
    show m = _
    rw [clearedMem_zero]
  | succ n ih =>
    have hq := Quiet.update hS hA hf (Function.update (m.mem f) (BitVec.ofNat 9 j) 0)
    have hf' : Fresh subtable root (k + 1) (put m.mem f (BitVec.ofNat 9 j) 0) f := by
      intro r q hq' hs
      rw [put, tableAt_update_fresh hf hq'] at hs
      exact hf r q hq' hs
    refine Traced.bind (Traced.store hq ?_)
    refine (ih hq.stands hf' (by omega)).mono fun _ m' h' => ?_
    rw [h', ← clearedMem_succ _ _ (by omega)]
    rfl

/-- Entering a cleared frame in a table. -/
theorem Quiet.link (hS : Stands src root k A m)
    (ht : tableAt subtable m.mem (root r) p = some t) (hp : p.length < k + 1)
    (hpres : ¬ has (m.mem t i) flagP) (hflags : PresentFlags flags)
    (hextra : extra &&& flagRW = extra) {f : Word} {s : σ}
    (ha : src.alloc m.pmm = some (f, s)) :
    Quiet src root k A (m.grant f s)
      ((m.grant f s).store t i (Forest.linkEntry extra flags f)) := by
  have hF := hS.forest
  have hopen : ¬ (has (m.mem t i) flagP ∧ has (m.mem t i) flagPS) := fun hc => hpres hc.1
  have hold : subtable (m.mem t i) = none := if_neg fun hc => hpres hc.1
  have he := Forest.subtable_linkEntry (src.alloc_frame ha) hflags.present
    hflags.flags_leaf hextra
  have hdescend : descend src extra flags m t i
      = .ok (tableOf (((m.grant f s).store t i (Forest.linkEntry extra flags f)).mem t i),
          (m.grant f s).store t i (Forest.linkEntry extra flags f)) := by
    rw [descend, if_neg hpres, ha]
    rfl
  have hAf : ¬ A f := fun hc => src.alloc_fresh ha (hS.outside f hc).live
  have hAt : ∀ u, A u → u ≠ t := by
    rintro u hu rfl
    exact (hS.outside u hu).fresh r p hp.le ht
  refine ⟨⟨hF.grant ht hp ha he hold, fun u hu => ⟨?_, ?_⟩⟩, ?_, ?_, ?_⟩
  · exact src.alloc_mono ha (hS.outside u hu).live
  · intro r' q hq hs
    rcases (hF.tableAt_grant ht hp ha he hold hq).mp hs with ⟨-, -, rfl⟩ | hs'
    · exact hAf hu
    · exact (hS.outside u hu).fresh r' q hq hs'
  · intro r' q u hq hu
    refine (hF.tableAt_grant ht hp ha he hold hq).mpr (.inr ?_)
    rwa [Machine.grant, tableAt_update_fresh (hF.fresh ha) hq] at hu
  · intro u hu
    exact put_other_table _ _ (hAt u hu)
  · intro r' v
    exact (hF.translate_descend ht hp hopen hflags hextra hdescend r' v).trans
      ((Quiet.update hS hAf (hF.fresh ha) 0).same r' v).symm

/-- **One level of `map_page` is quiet**, if it succeeds. -/
theorem descendSteps_traced (hS : Stands src root k A m)
    (ht : tableAt subtable m.mem (root r) p = some t) (hp : p.length < k + 1)
    (hflags : PresentFlags flags) (hextra : extra &&& flagRW = extra) {t' : Word}
    (h : descend src extra flags m t i = .ok (t', m')) :
    Traced (Quiet src root k A) (fun a s => (a = t' ∧ s = m') ∧ Stands src root k A s)
      (descendSteps src extra flags t i) m := by
  refine Traced.bind (Traced.load (.refl hS) ?_)
  unfold descend at h
  by_cases hpres : has (m.mem t i) flagP
  · rw [if_pos hpres] at h
    rw [ensureTable, if_pos hpres]
    obtain ⟨rfl, rfl⟩ := Prod.mk.inj (Except.ok.inj h)
    exact ⟨.refl hS, ⟨rfl, rfl⟩, hS⟩
  · rw [if_neg hpres] at h
    rw [ensureTable, if_neg hpres]
    rcases ha : src.alloc m.pmm with - | ⟨f, s⟩
    · simp [ha] at h
    · simp only [ha, Except.ok.injEq, Prod.mk.injEq] at h
      obtain ⟨rfl, rfl⟩ := h
      have hA : ¬ A f := fun hc => src.alloc_fresh ha (hS.outside f hc).live
      have htake := Quiet.take hS ha
      have hlink := Quiet.link hS ht hp hpres hflags hextra ha
      refine Traced.bind (Traced.bind (Traced.one ?_ (.refl hS)))
      simp only [ha, Option.elim_some, Except.ok.injEq, Prod.mk.injEq]
      rintro a m₁ ⟨rfl, rfl⟩
      refine ⟨htake, Traced.bind
        ((clearWords_traced htake.stands hA (hS.forest.fresh ha) (le_refl _)).mono ?_)⟩
      rintro - m₂ rfl
      rw [clearedMem_all]
      refine Traced.store hlink (Traced.bind (Traced.load (.refl hlink.stands) ?_))
      exact ⟨⟨rfl, rfl⟩, hlink.stands⟩

theorem descendAllSteps_traced (hflags : PresentFlags flags) (hextra : extra &&& flagRW = extra)
    {is : List (BitVec 9)} (hS : Stands src root k A m)
    (ht : tableAt subtable m.mem (root r) p = some t) (hlen : p.length + is.length = k)
    {t' : Word} (h : descendAll src extra flags m t is = .ok (t', m')) :
    Traced (Quiet src root k A) (fun a s => (a = t' ∧ s = m') ∧ Stands src root k A s)
      (descendAllSteps src extra flags t is) m := by
  induction is generalizing m p t with
  | nil =>
    obtain ⟨rfl, rfl⟩ := Prod.mk.inj (Except.ok.inj h)
    exact ⟨⟨rfl, rfl⟩, hS⟩
  | cons i is ih =>
    rw [List.length_cons] at hlen
    rw [descendAll, Exec.bind_eq_ok] at h
    obtain ⟨⟨t₁, m₁⟩, h₁, h₂⟩ := h
    have hopen := hS.forest.small (i := i) (show p.length + 1 < k + 1 by omega) ht
    obtain ⟨-, ht₁, -, -⟩ := hS.forest.descend_spec ht (by omega) hopen hflags.present
      hflags.flags_leaf hextra h₁
    refine Traced.bind ((descendSteps_traced hS ht (by omega) hflags hextra h₁).mono ?_)
    rintro _ _ ⟨⟨rfl, rfl⟩, hS₁⟩
    exact ih hS₁ ht₁ (by simp; omega) h₂

/-! ### The last write -/

/-- The last write of a call: a leaf in a page table, or a large page in a directory. -/
inductive LeafWrite (root : R → Word) (k : ℕ) : Machine σ → Machine σ → Prop
  | small {m : Machine σ} {r : R} {p : List (BitVec 9)} {t : Word} {i : BitVec 9} {e : Word} :
      tableAt subtable m.mem (root r) p = some t → p.length = k + 1 →
      LeafWrite root k m (m.store t i e)
  | large {m : Machine σ} {r : R} {p : List (BitVec 9)} {t : Word} {i : BitVec 9} {e : Word} :
      tableAt subtable m.mem (root r) p = some t → p.length = k → has e flagPS →
      LeafWrite root k m (m.store t i e)

/-- **`map_page` switches** from the old translation to the new one by its last write. -/
theorem mapPageSteps_switches {upper : List (BitVec 9)} {i1 i2 : BitVec 9} {paddr : Word}
    (hS : Stands src root k A m) (hup : upper.length = k) (hflags : PresentFlags flags)
    (hextra : extra &&& flagRW = extra)
    (hopen : ¬ has flags flagPS → (slotAt m.mem (root r) upper i2).Open) {ptr : Option Ptr}
    (h : mapPage src extra m (root r) upper i2 i1 paddr flags = .ok (ptr, m')) :
    (mapPageSteps src extra (root r) upper i2 i1 paddr flags).Switches (Quiet src root k A)
      (LeafWrite root k) m := by
  rw [mapPage, Exec.bind_eq_ok] at h
  obtain ⟨⟨pml2, m₁⟩, h₁, h⟩ := h
  obtain ⟨-, ht₁, hslots⟩ := Forest.descendAll_spec (p := []) hflags.present hflags.flags_leaf
    hextra hS.forest rfl (by simpa using hup) h₁
  rw [List.nil_append] at ht₁
  refine Traced.switches
    ((descendAllSteps_traced (p := []) hflags hextra hS rfl (by simpa using hup) h₁).mono ?_)
  rintro _ _ ⟨⟨rfl, rfl⟩, hS₁⟩
  by_cases hPS : has flags flagPS
  · simp only [if_pos hPS]
    exact Switches.store none (.large ht₁ hup (has_or_right hPS))
  · simp only [if_neg hPS] at h ⊢
    obtain ⟨⟨pml1, m₂⟩, h₂, -⟩ := Exec.bind_eq_ok.mp h
    have hopen₁ := hopen hPS
    rw [← hslots r upper i2 (by omega), slotAt_open ht₁] at hopen₁
    obtain ⟨-, ht₂, -, -⟩ := hS₁.forest.descend_spec ht₁ (by omega) hopen₁ hflags.present
      hflags.flags_leaf hextra h₂
    refine Traced.switches ((descendSteps_traced hS₁ ht₁ (by omega) hflags hextra h₂).mono ?_)
    rintro _ _ ⟨⟨rfl, rfl⟩, -⟩
    exact Switches.store _ (.small ht₂ (by simp [hup]))

theorem walkToSteps_traced (hS : Stands src root k A m) (is : List (BitVec 9)) (t : Word) :
    Traced (Quiet src root k A) (fun a s => a = walkTo m.mem t is ∧ s = m)
      (walkToSteps t is) m := by
  induction is generalizing t with
  | nil => exact ⟨rfl, rfl⟩
  | cons i is ih =>
    refine Traced.bind (Traced.load (.refl hS) ?_)
    rw [walkTo]
    split_ifs with hpres
    · exact Traced.bind (Traced.load (.refl hS) (ih _))
    · exact ⟨rfl, rfl⟩

/-- **`unmap_page` switches** by its only write, if there is a page. -/
theorem unmapPageSteps_switches {upper : List (BitVec 9)} {i1 i2 : BitVec 9}
    (hS : Stands src root k A m) (hup : upper.length = k) :
    (unmapPageSteps (root r) upper i2 i1).Switches (Quiet src root k A) (LeafWrite root k) m := by
  refine Traced.switches ((walkToSteps_traced hS upper (root r)).mono ?_)
  rintro _ _ ⟨rfl, rfl⟩
  rw [hS.forest.walkTo_root (by omega)]
  rcases ht : tableAt subtable _ (root r) upper with - | pml2
  · exact .ret
  · refine Switches.load (.refl hS) ?_
    simp only [has_low_PS]
    split_ifs with hPS
    · exact Switches.load (.refl hS) (Switches.store _ (.large ht hup (has_clear_PS.mpr hPS)))
    · refine Switches.load (.refl hS) ?_
      split_ifs with hpres
      · refine Switches.load (.refl hS)
          (Switches.load (.refl hS) (Switches.store _ (.small (r := r) (p := upper ++ [i2]) ?_ ?_)))
        · rw [tableAt_snoc, ht]
          exact subtable_eq_some.mpr ⟨hpres, hPS, rfl⟩
        · simp [hup]
      · exact .ret

end Quiet

/-! ### The walk, one read at a time -/

/-- A walk of the processor: about to read a table of the level `j`, or done. -/
inductive Walker where
  | reading (j : ℕ) (t : Word)
  | done (result : Option Translation)

/-- The next read of a walk of `v`.  The cases are those of `hwWalk`. -/
def Walker.look (v : Word) (mem : Mem) : Walker → Walker
  | .reading 0 _ => .done none
  | .reading (k + 1) t =>
      let e := mem t (index k v)
      if ¬ has e flagP then .done none
      else if k = 0 then .done (some (decode .small e))
      else if has e flagPS then
        if k = 1 then .done (some (decode .large e))
        else if k = 2 then .done (some (decode .huge e))
        else .done none
      else .reading k (e &&& PageSize.small.frameMask)
  | .done result => .done result

/-- A read either settles the translation or leads to a table of the next level. -/
theorem Walker.look_reading (v : Word) (mem : Mem) (j : ℕ) (t : Word) :
    Walker.look v mem (.reading (j + 1) t) = .done (translate mem (j + 1) t v) ∨
      (j ≠ 0 ∧ has (mem t (index j v)) flagP ∧ ¬ has (mem t (index j v)) flagPS ∧
        Walker.look v mem (.reading (j + 1) t)
          = .reading j (mem t (index j v) &&& PageSize.small.frameMask) ∧
        translate mem (j + 1) t v
          = translate mem j (mem t (index j v) &&& PageSize.small.frameMask) v) := by
  simp only [Walker.look, translate, hwWalk]
  by_cases hP : has (mem t (index j v)) flagP
  · by_cases hj : j = 0
    · subst hj
      simp [hP]
    · by_cases hPS : has (mem t (index j v)) flagPS
      · left
        simp only [hP, hj, hPS, not_true_eq_false, if_true, if_false]
        split_ifs <;> rfl
      · right
        simp [hP, hj, hPS]
  · simp [hP]

/-- **The walk that nobody disturbs** is the walk of `translate`. -/
theorem Walker.look_iterate (v : Word) (mem : Mem) (j : ℕ) (t : Word) :
    (Walker.look v mem)^[j + 1] (.reading (j + 1) t) = .done (translate mem (j + 1) t v) := by
  have hdone : ∀ n r, (Walker.look v mem)^[n] (.done r) = .done r := fun n r =>
    Function.iterate_fixed rfl n
  induction j generalizing t with
  | zero =>
    rcases Walker.look_reading v mem 0 t with h | ⟨h, -⟩
    · exact h
    · exact absurd rfl h
  | succ j ih =>
    rw [Function.iterate_succ_apply]
    rcases Walker.look_reading v mem (j + 1) t with h | ⟨-, -, -, h, htr⟩
    · rw [h, hdone]
    · rw [h, ih, htr]

/-- The first `n` indices of `v`, in tables of `k + 2` levels. -/
def walkPath (v : Word) (k n : ℕ) : List (BitVec 9) :=
  (List.range n).map fun x => index (k + 1 - x) v

@[simp] theorem walkPath_length (v : Word) (k n : ℕ) : (walkPath v k n).length = n := by
  simp [walkPath]

theorem walkPath_succ (v : Word) (k n : ℕ) :
    walkPath v k (n + 1) = walkPath v k n ++ [index (k + 1 - n) v] := by
  simp [walkPath, List.range_succ]

section Race

variable {R : Type*} {src : FrameSource σ} {root : R → Word} {k : ℕ} {m m' : Machine σ} {r : R}
  {v : Word}

/-- The walk of `v` has come to a table that is in its place. -/
def Walker.Live (root : R → Word) (k : ℕ) (mem : Mem) (r : R) (v : Word) (w : Walker) : Prop :=
  ∃ n t, n ≤ k + 1 ∧ w = .reading (k + 2 - n) t ∧
    tableAt subtable mem (root r) (walkPath v k n) = some t

/-- What is left of the walk gives the translation of `v`. -/
theorem Forest.translate_walkPath (hF : Forest src root (k + 1) m) {n : ℕ} (hn : n ≤ k + 1)
    {t : Word} (ht : tableAt subtable m.mem (root r) (walkPath v k n) = some t) :
    translate m.mem (k + 2 - n) t v = translate m.mem (k + 2) (root r) v := by
  induction n generalizing t with
  | zero =>
    obtain rfl := Option.some.inj ht
    rfl
  | succ n ih =>
    rw [walkPath_succ, tableAt_snoc] at ht
    obtain ⟨u, hu, hsub⟩ := Option.bind_eq_some_iff.mp ht
    have hframe := (hF.known (by simpa using hn) (show tableAt subtable m.mem (root r)
      (walkPath v k (n + 1)) = some t by rw [walkPath_succ, tableAt_snoc, hu]; exact hsub)).frame
    obtain ⟨hP, hPS, rfl⟩ := subtable_eq_some.mp hsub
    rw [← ih (by omega) hu, show k + 2 - n = k + 1 - n + 1 by omega,
      show k + 2 - (n + 1) = k + 1 - n by omega]
    rcases Walker.look_reading v m.mem (k + 1 - n) u with h | ⟨-, -, -, -, htr⟩
    · simp [Walker.look, hP, hPS, show ¬ k + 1 - n = 0 by omega] at h
    · rw [htr, frame_of_tableOf hframe]

/-- **One read of a live walk** gives the translation of `v`, or the walk stays live. -/
theorem Walker.Live.look (hF : Forest src root (k + 1) m) {w : Walker}
    (h : w.Live root k m.mem r v) :
    w.look v m.mem = .done (translate m.mem (k + 2) (root r) v) ∨
      (w.look v m.mem).Live root k m.mem r v := by
  obtain ⟨n, t, hn, rfl, ht⟩ := h
  rw [show k + 2 - n = k + 1 - n + 1 by omega]
  rcases Walker.look_reading v m.mem (k + 1 - n) t with hdone | ⟨hne, hP, hPS, hnext, -⟩
  · left
    rw [hdone, ← hF.translate_walkPath hn ht, show k + 2 - n = k + 1 - n + 1 by omega]
  · right
    have hsub : tableAt subtable m.mem (root r) (walkPath v k (n + 1))
        = some (tableOf (m.mem t (index (k + 1 - n) v))) := by
      rw [walkPath_succ, tableAt_snoc, ht]
      exact subtable_eq_some.mpr ⟨hP, hPS, rfl⟩
    have hframe := (hF.known (by simp; omega) hsub).frame
    refine ⟨n + 1, _, by omega, ?_, hsub⟩
    rw [hnext, frame_of_tableOf hframe, show k + 2 - (n + 1) = k + 1 - n by omega]

/-! ### Calls and walks -/

/-- The walk is done with a translation of `seen`, it is live, or it is in a page table outside
the forest whose entry is one of `seen`. -/
inductive Walker.Sees (root : R → Word) (k : ℕ) (A : Word → Prop) (mem : Mem) (r : R) (v : Word)
    (seen : Set (Option Translation)) : Walker → Prop
  | done {result : Option Translation} : result ∈ seen → Sees root k A mem r v seen (.done result)
  | live {w : Walker} : w.Live root k mem r v → Sees root k A mem r v seen w
  | stale {t : Word} {result : Option Translation} : A t → result ∈ seen →
      Walker.look v mem (.reading 1 t) = .done result → Sees root k A mem r v seen (.reading 1 t)

variable {A : Word → Prop} {seen : Set (Option Translation)} {w : Walker}

theorem Walker.Sees.look (hF : Forest src root (k + 1) m)
    (hnow : translate m.mem (k + 2) (root r) v ∈ seen)
    (h : w.Sees root k A m.mem r v seen) : (w.look v m.mem).Sees root k A m.mem r v seen := by
  cases h with
  | done hres => exact .done hres
  | live hlive =>
    rcases hlive.look hF with hdone | hlive'
    · rw [hdone]
      exact .done hnow
    · exact .live hlive'
  | stale hA hres hlook =>
    rw [hlook]
    exact .done hres

/-- A step that keeps the paths and the frames outside. -/
theorem Walker.Sees.keep (h : w.Sees root k A m.mem r v seen)
    (hpaths : ∀ {q t}, q.length ≤ k + 1 → tableAt subtable m.mem (root r) q = some t →
      tableAt subtable m'.mem (root r) q = some t)
    (haside : ∀ t, A t → m'.mem t = m.mem t) : w.Sees root k A m'.mem r v seen := by
  cases h with
  | done hres => exact .done hres
  | live hlive =>
    obtain ⟨n, t, hn, rfl, ht⟩ := hlive
    exact .live ⟨n, t, hn, rfl, hpaths (by simpa using hn) ht⟩
  | @stale t result hA hres hlook =>
    refine .stale hA hres ?_
    rw [← hlook]
    simp only [Walker.look, haside t hA]

theorem Walker.Sees.mono (h : w.Sees root k A m.mem r v seen) {A' : Word → Prop}
    {seen' : Set (Option Translation)} (hA : ∀ t, A t → A' t) (hseen : seen ⊆ seen') :
    w.Sees root k A' m.mem r v seen' := by
  cases h with
  | done hres => exact .done (hseen hres)
  | live hlive => exact .live hlive
  | stale hAt hres hlook => exact .stale (hA _ hAt) (hseen hres) hlook

/-- **The last write and the tables**: they stay a forest, and frames outside stay outside. -/
theorem LeafWrite.stands (hS : Stands src root k A m) (hw : LeafWrite root k m m') :
    Forest src root (k + 1) m' ∧ (∀ t, A t → Outside src root k m' t) ∧
      ∀ t, A t → m'.mem t = m.mem t := by
  have hF := hS.forest
  have hne : ∀ {r p t u}, tableAt subtable m.mem (root r) p = some t → p.length ≤ k + 1 →
      A u → u ≠ t := by
    rintro r p t u ht hp hu rfl
    exact (hS.outside u hu).fresh r p hp ht
  cases hw with
  | small ht hp =>
    refine ⟨hF.store_last ht hp, fun u hu => ⟨(hS.outside u hu).live, fun r' q hq hs => ?_⟩,
      fun u hu => put_other_table _ _ (hne ht hp.le hu)⟩
    rw [Machine.store_mem, tableAt_put_last hF.sep ht hp hq] at hs
    exact (hS.outside u hu).fresh r' q hq hs
  | large ht hp he =>
    refine ⟨hF.store_large ht (by omega) he, fun u hu => ⟨(hS.outside u hu).live,
      fun r' q hq hs => ?_⟩, fun u hu => put_other_table _ _ (hne ht (by omega) hu)⟩
    have hs' := (tableAt_put_cut hF.sep ht (by omega) (subtable_of_PS he) hq).mp hs
    exact (hS.outside u hu).fresh r' q hq hs'.1

/-- A walk below an entry that a large page replaces is in a page table outside the forest, and
ends in the translation from before. -/
theorem Walker.Live.cut (hF : Forest src root (k + 1) m) {r₁ : R} {p : List (BitVec 9)}
    {s t : Word} {i : BitVec 9} {e : Word} {n : ℕ}
    (hs : tableAt subtable m.mem (root r₁) p = some s) (hp : p.length = k) (he : has e flagPS)
    (hn : n ≤ k + 1) (ht : tableAt subtable m.mem (root r) (walkPath v k n) = some t)
    (hthrough : r = r₁ ∧ p ++ [i] <+: walkPath v k n) :
    n = k + 1 ∧ Outside src root k (m.store s i e) t ∧
      Walker.look v (m.store s i e).mem (.reading 1 t)
        = .done (translate m.mem (k + 2) (root r) v) := by
  have hlen := hthrough.2.length_le
  simp only [List.length_append, List.length_singleton, walkPath_length, hp] at hlen
  obtain rfl : n = k + 1 := by omega
  refine ⟨rfl, ⟨(hF.known (by simp) ht).live, fun r' q hq hq' => ?_⟩, ?_⟩
  · obtain ⟨hold, hnot⟩ :=
      (tableAt_put_cut hF.sep hs (by omega) (subtable_of_PS he) hq).mp hq'
    obtain ⟨rfl, rfl⟩ := hF.sep hq (by simp) hold ht
    exact hnot hthrough
  · have hne : t ≠ s := hF.ne_of_length ht (by simp) hs (by omega) (by simp; omega)
    have hold := hF.translate_walkPath hn ht
    rw [show k + 2 - (k + 1) = 0 + 1 by omega] at hold
    rcases Walker.look_reading v m.mem 0 t with hdone | ⟨hcontra, -⟩
    · rw [← hold, ← hdone]
      simp only [Walker.look, Machine.store_mem, put_of_ne e (.inl hne)]
    · exact absurd rfl hcontra

/-- **The last write and a walk.** -/
theorem Walker.Sees.leafWrite (hS : Stands src root k A m)
    (hnow : translate m.mem (k + 2) (root r) v ∈ seen)
    (h : w.Sees root k A m.mem r v seen) (hw : LeafWrite root k m m') :
    w.Sees root k (Outside src root k m') m'.mem r v seen := by
  obtain ⟨-, hout, haside⟩ := hw.stands hS
  have hF := hS.forest
  cases h with
  | done hres => exact .done hres
  | @stale t result hA hres hlook =>
    refine .stale (hout t hA) hres ?_
    rw [← hlook]
    simp only [Walker.look, haside t hA]
  | live hlive =>
    obtain ⟨n, t, hn, rfl, ht⟩ := hlive
    cases hw with
    | @small r₁ p s i e hs hp =>
      refine .live ⟨n, t, hn, rfl, ?_⟩
      rw [Machine.store_mem, tableAt_put_last hF.sep hs hp (by simpa using hn)]
      exact ht
    | @large r₁ p s i e hs hp he =>
      by_cases hthrough : r = r₁ ∧ p ++ [i] <+: walkPath v k n
      · obtain ⟨rfl, hstale, hlook⟩ := Walker.Live.cut hF hs hp he hn ht hthrough
        rw [show k + 2 - (k + 1) = 1 by omega]
        exact .stale hstale hnow hlook
      · refine .live ⟨n, t, hn, rfl, ?_⟩
        exact (tableAt_put_cut hF.sep hs (by omega) (subtable_of_PS he) (by simpa using hn)).mpr
          ⟨ht, hthrough⟩

end Race

section System

variable {R : Type*} {src : FrameSource σ} {root : R → Word} {la57 : Bool}

/-- A call that a processor with the lock may begin: `map_page` with flags of a present page, frames
enough for the tables it makes and no large page in its way, or any `unmap_page`.  The code tests
none of this; a `map_page` inside a large page writes to its data. -/
inductive TableCall (src : FrameSource σ) (la57 : Bool) (root : R → Word) (m : Machine σ) :
    Prog (Machine σ) Unit → Prop
  | map {r : R} {v paddr flags : Word} {ptr : Option Ptr} {m' : Machine σ} :
      PresentFlags flags → Unobstructed m.mem (pagingLevels la57) (root r) v flags →
      (x86PagingInit src la57).mapPage m (root r) v paddr flags = .ok (ptr, m') →
      TableCall src la57 root m
        (x86MapPageSteps src la57 (root r) v paddr flags >>= fun _ => pure ())
  | unmap {r : R} {v : Word} :
      TableCall src la57 root m (x86UnmapPageSteps la57 (root r) v >>= fun _ => pure ())

/-- The call in progress, the machine, and a walk of another processor: its table, its address,
how far it is, and the translations that the tables gave for the address since it began. -/
structure RaceState (σ : Type) (R : Type*) where
  code : Option (Prog (Machine σ) Unit)
  machine : Machine σ
  table : R
  vaddr : Word
  walker : Walker
  seen : Set (Option Translation)

namespace RaceState

/-- No call in progress, and a walk that is about to begin. -/
def start (la57 : Bool) (root : R → Word) (m : Machine σ) (r : R) (v : Word) : RaceState σ R where
  code := none
  machine := m
  table := r
  vaddr := v
  walker := .reading (pagingLevels la57) (root r)
  seen := {translate m.mem (pagingLevels la57) (root r) v}

/-- One access of the call, one read of the walk, or the beginning or the end of either. -/
inductive Step (src : FrameSource σ) (la57 : Bool) (root : R → Word) :
    RaceState σ R → RaceState σ R → Prop
  | call {s : RaceState σ R} {p : Prog (Machine σ) Unit} :
      s.code = none → TableCall src la57 root s.machine p →
      Step src la57 root s { s with code := some p }
  | access {s : RaceState σ R} {f : Machine σ → Machine σ}
      {k : Machine σ → Prog (Machine σ) Unit} :
      s.code = some (.act f k) →
      Step src la57 root s { s with
        code := some (k s.machine)
        machine := f s.machine
        seen := insert
          (translate (f s.machine).mem (pagingLevels la57) (root s.table) s.vaddr) s.seen }
  | finish {s : RaceState σ R} :
      s.code = some (.ret ()) → Step src la57 root s { s with code := none }
  | walk {s : RaceState σ R} (r : R) (v : Word) :
      Step src la57 root s { s with
        table := r
        vaddr := v
        walker := .reading (pagingLevels la57) (root r)
        seen := {translate s.machine.mem (pagingLevels la57) (root r) v} }
  | look {s : RaceState σ R} :
      Step src la57 root s { s with walker := s.walker.look s.vaddr s.machine.mem }

/-- The invariant: the tables are a forest with the frames `A` outside, the call in progress has
only quiet accesses and a last write left, and the walk sees what it should. -/
structure Inv (src : FrameSource σ) (la57 : Bool) (root : R → Word) (A : Word → Prop)
    (s : RaceState σ R) : Prop where
  stands : Stands src root (upperLevels la57) A s.machine
  code : ∀ p, s.code = some p → p.Switches (Quiet src root (upperLevels la57) A)
    (LeafWrite root (upperLevels la57)) s.machine
  now : translate s.machine.mem (upperLevels la57 + 2) (root s.table) s.vaddr ∈ s.seen
  sees : s.walker.Sees root (upperLevels la57) A s.machine.mem s.table s.vaddr s.seen

variable {s s' : RaceState σ R} {A : Word → Prop}

/-- What a call has to do when it begins. -/
theorem switches_of_call {m : Machine σ} (hS : Stands src root (upperLevels la57) A m)
    {p : Prog (Machine σ) Unit} (h : TableCall src la57 root m p) :
    p.Switches (Quiet src root (upperLevels la57) A) (LeafWrite root (upperLevels la57)) m := by
  cases h with
  | @map r v paddr flags ptr m' hflags hun hmap =>
    have hopen : ¬ has flags flagPS → (slotOf m.mem (upperLevels la57) (root r) v).Open :=
      fun hPS => hS.forest.open_iff.mpr (hun hPS)
    have hsteps : x86MapPageSteps src la57 (root r) v paddr flags
        = mapPageSteps src (linkExtra la57) (root r) (upperIndices v (upperLevels la57))
            (index 1 v) (index 0 v) paddr flags := by
      cases la57 <;> rfl
    rw [x86PagingInit_mapPage] at hmap
    rw [hsteps]
    exact (mapPageSteps_switches hS (upperIndices_length _ _) hflags (linkExtra_within la57)
      hopen hmap).thenPure
  | @unmap r v =>
    cases la57
    · exact (unmapPageSteps_switches hS rfl).thenPure
    · exact (unmapPageSteps_switches hS rfl).thenPure

theorem Inv.step (h : s.Inv src la57 root A) (hs : Step src la57 root s s') :
    ∃ A', s'.Inv src la57 root A' := by
  cases hs with
  | @call p hnone hcall =>
    refine ⟨A, h.stands, ?_, h.now, h.sees⟩
    rintro _ ⟨⟩
    exact switches_of_call h.stands hcall
  | @access f k hcode =>
    have hsub : s.seen ⊆ insert
        (translate (f s.machine).mem (pagingLevels la57) (root s.table) s.vaddr) s.seen :=
      Set.subset_insert _ _
    cases h.code _ hcode with
    | quiet hq hrest =>
      refine ⟨A, hq.stands, ?_, Set.mem_insert _ _, ?_⟩
      · rintro _ ⟨⟩
        exact hrest
      · exact (h.sees.keep hq.paths hq.aside).mono (fun _ => id) hsub
    | switch hw hk =>
      obtain ⟨hF', -, -⟩ := hw.stands h.stands
      refine ⟨Outside src root (upperLevels la57) (f s.machine), ⟨hF', fun _ => id⟩, ?_,
        Set.mem_insert _ _, ?_⟩
      · rintro _ ⟨⟩
        rw [hk]
        exact .ret
      · exact (h.sees.leafWrite h.stands h.now hw).mono (fun _ => id) hsub
  | finish hcode =>
    refine ⟨A, h.stands, ?_, h.now, h.sees⟩
    rintro _ ⟨⟩
  | walk r v =>
    refine ⟨A, h.stands, h.code, rfl, .live ⟨0, _, Nat.zero_le _, rfl, rfl⟩⟩
  | look => exact ⟨A, h.stands, h.code, h.now, h.sees.look h.stands.forest h.now⟩

end RaceState

/-- **A walk beside `map_page` and `unmap_page` sees the tables of some moment.**  While
processors map and unmap pages in any of the tables, one call after the other, with frames enough
and no small page inside a present large one (`TableCall`), another processor
walks a table for any address, and its reads fall between the accesses of the calls in any way.
When the walk ends, its result is a translation that the tables gave for the address at some
moment since the walk began: it is never made up of parts of two mappings. -/
theorem walk_sees_some_moment {m : Machine σ} (hF : Forest src root (upperLevels la57 + 1) m)
    {r : R} {v : Word} {s : RaceState σ R}
    (h : Run (RaceState.Step src la57 root) (.start la57 root m r v) s)
    {result : Option Translation} (hdone : s.walker = .done result) : result ∈ s.seen := by
  have hstart : (RaceState.start la57 root m r v).Inv src la57 root (fun _ => False) :=
    ⟨⟨hF, fun _ => False.elim⟩, fun _ hp => (nomatch hp), rfl,
      .live ⟨0, _, Nat.zero_le _, rfl, rfl⟩⟩
  have hstep : ∀ s s' : RaceState σ R, (∃ A, s.Inv src la57 root A) →
      RaceState.Step src la57 root s s' → ∃ A, s'.Inv src la57 root A := by
    rintro s s' ⟨A, hi⟩ hs
    exact hi.step hs
  obtain ⟨A, hinv⟩ := Run.invariant hstep ⟨_, hstart⟩ h
  have hsees := hinv.sees
  rw [hdone] at hsees
  cases hsees with
  | done hres => exact hres
  | live hlive =>
    obtain ⟨_, _, _, hread, _⟩ := hlive
    exact nomatch hread

end System

/-- The empty table of `bootMachine`: a walk reads the top level when `map_page` has read it
too. -/
theorem walk_sees_some_moment_boot :
    ∃ s : RaceState FreeList Unit,
      Run (RaceState.Step .ofList true (single 0x101000))
        (.start true (single 0x101000) bootMachine () (highVma + 0x300000)) s ∧
      s.code.isSome ∧ s.walker = .done none ∧ none ∈ s.seen := by
  obtain ⟨ptr, m', h⟩ : ∃ ptr m', (x86PagingInit .ofList true).mapPage bootMachine
      (single 0x101000 ()) (highVma + 0x300000) 0x300000 portalFlags = .ok (ptr, m') :=
    mapPage_returns ⟨_, _, rfl, _, _, rfl, _, _, rfl, _, _, rfl, trivial⟩
  have hcall : TableCall .ofList true (single 0x101000) bootMachine _ :=
    .map ⟨by decide, by decide⟩ (bootMachine_unobstructed true _ _) h
  have h₁ : RaceState.Step .ofList true (single 0x101000)
      (.start true (single 0x101000) bootMachine () (highVma + 0x300000)) _ := .call rfl hcall
  have h₂ := Relation.ReflTransGen.tail (.single h₁) (.access rfl)
  have h₃ := h₂.tail .look
  exact ⟨_, h₃, rfl, rfl, walk_sees_some_moment
    (bootMachine_blank.forest (upperLevels true + 1)) h₃ rfl⟩

end Rock
