/-
Rock/PrivateMemory.lean

The memory of contexts on any number of cores: portals and page faults
(kernel/core/portal.c), switches between page tables (`x86_swap_tables`) and the translations
that the cores keep.

A core uses a translation from its TLB, which it filled from the page table it had loaded.
Loading another table drops the translations that are not global, `invlpg` those of one page,
and nothing is ever dropped on another core.  The translations are those of the table that is
loaded all the same, since a fault maps a page where none was, portals set no `G`, and the
tables have the same global pages from the start (`tlb_coherent`).

What the contexts see is the memory of an abstract machine in which every context has pages
of its own: a fault makes a page of zeros, and a store changes a page of the context that
stores (`contexts_have_private_memory`).  This is for contexts that keep to their own pages.
The pages that are in every table from the start are no context's own, and a `DIRECT` request
maps whatever frame it names.
-/
import Rock.SharePoint

namespace Rock

open TableTree

variable {σ R C : Type}

/-! ### The words of a page -/

/-- Other words in a frame that is no table. -/
def Machine.setPage (m : Machine σ) (f : Word) (page : BitVec 9 → Word) : Machine σ :=
  { m with mem := Function.update m.mem f page }

/-- A frame that is in use, and not as a table. -/
structure Machine.Data (src : FrameSource σ) (root : R → Word) (m : Machine σ) (f : Word) :
    Prop where
  live : src.Live m.pmm f
  notRoot : f ∉ Set.range root
  notTable : f ∉ m.tables

/-- The tables are in use. -/
def Machine.TablesLive (src : FrameSource σ) (root : R → Word) (m : Machine σ) : Prop :=
  ∀ t, t ∈ Set.range root ∨ t ∈ m.tables → src.Live m.pmm t

section SetPage

variable {src : FrameSource σ} {root : R → Word} {d : ℕ} {m : Machine σ} {f : Word}
  {page : BitVec 9 → Word}

theorem Forest.fresh_of_data (hF : Forest src root d m) (hf : m.Data src root f) :
    Fresh subtable root d m.mem f := by
  intro r q hq ht
  rcases (hF.known hq ht).owned with h | h
  · exact hf.notRoot h
  · exact hf.notTable h

theorem Forest.setPage_mem (hF : Forest src root d m) (hf : m.Data src root f) {r : R}
    {q : List (BitVec 9)} {t : Word} (hq : q.length ≤ d)
    (ht : tableAt subtable m.mem (root r) q = some t) : (m.setPage f page).mem t = m.mem t := by
  refine Function.update_of_ne ?_ ..
  rintro rfl
  exact hF.fresh_of_data hf r q hq ht

theorem Forest.tableAt_setPage (hF : Forest src root d m) (hf : m.Data src root f) {r : R}
    {q : List (BitVec 9)} (hq : q.length ≤ d) :
    tableAt subtable (m.setPage f page).mem (root r) q = tableAt subtable m.mem (root r) q :=
  tableAt_update_fresh (hF.fresh_of_data hf) hq

theorem Forest.setPage (hF : Forest src root d m) (hf : m.Data src root f) :
    Forest src root d (m.setPage f page) where
  sep := hF.sep.update_fresh (hF.fresh_of_data hf)
  small := by
    intro r q t i hq ht
    rw [hF.tableAt_setPage hf (by omega)] at ht
    rw [hF.setPage_mem hf (by omega) ht]
    exact hF.small hq ht
  known := by
    intro r q t hq ht
    rw [hF.tableAt_setPage hf hq] at ht
    exact ⟨(hF.known hq ht).frame, (hF.known hq ht).live, (hF.known hq ht).owned⟩
  writes := hF.writes

/-- **Data is not translated.** -/
theorem Forest.lookup_setPage {la57 : Bool} (hF : Forest src root (upperLevels la57 + 1) m)
    (hf : m.Data src root f) (r : R) (v : Word) :
    (m.setPage f page).lookup la57 root r v = m.lookup la57 root r v := by
  refine (hF.setPage hf).translate_eq.trans (Eq.trans ?_ hF.translate_eq.symm)
  have hslot : slotOf (m.setPage f page).mem (upperLevels la57) (root r) v
      = slotOf m.mem (upperLevels la57) (root r) v := by
    refine slotAt_congr (hF.tableAt_setPage hf (by simp)) ?_ ?_
    · intro t ht
      rw [hF.setPage_mem hf (by simp) ht]
    · intro t ht
      exact hF.setPage_mem hf (by simp) ht
  rw [hslot]

end SetPage

/-! ### What `map_page` writes -/

/-- From `m` to `m'`, frames that were not in use became tables, and only tables were written. -/
structure Touches (src : FrameSource σ) (m m' : Machine σ) : Prop where
  tables : ∀ t ∈ m'.tables, t ∈ m.tables ∨ (¬ src.Live m.pmm t ∧ src.Live m'.pmm t)
  older : ∀ t ∈ m.tables, t ∈ m'.tables
  written : ∀ w ∈ m.writes, w ∈ m'.writes
  mem : ∀ g, g ∉ m'.tables → (∀ w ∈ m'.writes, w.page ≠ g) → m'.mem g = m.mem g
  grows : src.Grows m.pmm m'.pmm

section Touches

variable {src : FrameSource σ} {root : R → Word} {m m₁ m' : Machine σ} {t t' : Word}
  {extra flags : Word}

theorem Touches.refl (m : Machine σ) : Touches src m m :=
  ⟨fun _ h => .inl h, fun _ h => h, fun _ h => h, fun _ _ _ => rfl, .refl _⟩

theorem Touches.trans (h : Touches src m m₁) (h' : Touches src m₁ m') : Touches src m m' where
  tables t ht := by
    rcases h'.tables t ht with ht | ⟨hfree, hlive⟩
    · exact (h.tables t ht).imp_right fun ⟨hfree, hlive⟩ => ⟨hfree, h'.grows _ hlive⟩
    · exact .inr ⟨fun hold => hfree (h.grows _ hold), hlive⟩
  older t ht := h'.older t (h.older t ht)
  written w hw := h'.written w (h.written w hw)
  mem g hg hw := by
    rw [h'.mem g hg hw]
    exact h.mem g (fun ht => hg (h'.older g ht)) fun w hin => hw w (h'.written w hin)
  grows := h.grows.trans h'.grows

theorem touches_store (m : Machine σ) (t : Word) (i : BitVec 9) (e : Word) :
    Touches src m (m.store t i e) where
  tables _ h := .inl h
  older _ h := h
  written _ h := List.mem_cons_of_mem _ h
  mem _ _ hw := put_other_table i e fun hg => hw ⟨t, i⟩ List.mem_cons_self hg.symm
  grows := .refl _

theorem touches_grant {f : Word} {s : σ} (ha : src.alloc m.pmm = some (f, s)) :
    Touches src m (m.grant f s) where
  tables t ht := by
    rcases List.mem_cons.mp ht with rfl | ht
    · exact .inr ⟨src.alloc_fresh ha, src.alloc_live ha⟩
    · exact .inl ht
  older _ h := List.mem_cons_of_mem _ h
  written _ h := h
  mem g hg _ := by
    refine Function.update_of_ne ?_ ..
    rintro rfl
    exact hg List.mem_cons_self
  grows _ hg := src.alloc_mono ha hg

theorem descend_touches {i : BitVec 9} (h : descend src extra flags m t i = .ok (t', m')) :
    Touches src m m' := by
  unfold descend at h
  split_ifs at h
  · obtain ⟨-, rfl⟩ := Prod.mk.inj (Except.ok.inj h)
    exact .refl m
  · rcases ha : src.alloc m.pmm with - | ⟨f, s⟩ <;> simp only [ha] at h
    · cases h
    · obtain ⟨-, rfl⟩ := Prod.mk.inj (Except.ok.inj h)
      exact (touches_grant ha).trans (touches_store ..)

theorem descendAll_touches {is : List (BitVec 9)}
    (h : descendAll src extra flags m t is = .ok (t', m')) : Touches src m m' := by
  induction is generalizing m t with
  | nil =>
    obtain ⟨-, rfl⟩ := Prod.mk.inj (Except.ok.inj h)
    exact .refl m
  | cons i is ih =>
    obtain ⟨⟨t₁, m₁⟩, h₁, h₂⟩ := Exec.bind_eq_ok.mp h
    exact (descend_touches h₁).trans (ih h₂)

theorem mapPage_touches {upper : List (BitVec 9)} {i2 i1 : BitVec 9} {paddr : Word}
    {ptr : Option Ptr} (h : mapPage src extra m t upper i2 i1 paddr flags = .ok (ptr, m')) :
    Touches src m m' := by
  unfold mapPage at h
  obtain ⟨⟨t₁, m₁⟩, h₁, h⟩ := Exec.bind_eq_ok.mp h
  refine (descendAll_touches h₁).trans ?_
  dsimp only at h
  split_ifs at h
  · obtain ⟨-, rfl⟩ := Prod.mk.inj (Except.ok.inj h)
    exact touches_store ..
  · obtain ⟨⟨t₂, m₂⟩, h₂, h⟩ := Exec.bind_eq_ok.mp h
    obtain ⟨-, rfl⟩ := Prod.mk.inj (Except.ok.inj h)
    exact (descend_touches h₂).trans (touches_store ..)

/-- From `m` to `m'`, data stays data and keeps its words. -/
structure KeepsData (src : FrameSource σ) (root : R → Word) (m m' : Machine σ) : Prop where
  data : ∀ f, m.Data src root f → m'.Data src root f ∧ m'.mem f = m.mem f
  live : m.TablesLive src root → m'.TablesLive src root

theorem KeepsData.refl (m : Machine σ) : KeepsData src root m m :=
  ⟨fun _ h => ⟨h, rfl⟩, fun h => h⟩

theorem KeepsData.trans (h : KeepsData src root m m₁) (h' : KeepsData src root m₁ m') :
    KeepsData src root m m' where
  data f hf := by
    obtain ⟨hf₁, hmem₁⟩ := h.data f hf
    obtain ⟨hf', hmem'⟩ := h'.data f hf₁
    exact ⟨hf', hmem'.trans hmem₁⟩
  live hl := h'.live (h.live hl)

theorem Touches.keepsData {d : ℕ} (h : Touches src m m') (hF' : Forest src root d m') :
    KeepsData src root m m' where
  data f hf := by
    have hnot : f ∉ m'.tables := by
      intro ht
      rcases h.tables f ht with ht | ⟨hfree, -⟩
      · exact hf.notTable ht
      · exact hfree hf.live
    refine ⟨⟨h.grows _ hf.live, hf.notRoot, hnot⟩, h.mem f hnot fun w hw hpage => ?_⟩
    rcases hF'.writes w hw with hroot | htable
    · exact hf.notRoot (hpage ▸ hroot)
    · exact hnot (hpage ▸ htable)
  live hl t ht := by
    rcases ht with ht | ht
    · exact h.grows _ (hl t (.inl ht))
    · rcases h.tables t ht with ht | ⟨-, hlive⟩
      · exact h.grows _ (hl t (.inr ht))
      · exact hlive

theorem takePage_keepsData {f : Word} {s : σ} (ha : src.alloc m.pmm = some (f, s)) :
    KeepsData src root m (m.takePage f s) where
  data g hg := by
    refine ⟨⟨src.alloc_mono ha hg.live, hg.notRoot, hg.notTable⟩, Function.update_of_ne ?_ ..⟩
    rintro rfl
    exact src.alloc_fresh ha hg.live
  live hl t ht := src.alloc_mono ha (hl t ht)

/-- **A frame that is taken for data** becomes data, with zeros. -/
theorem takePage_data {f : Word} {s : σ} (ha : src.alloc m.pmm = some (f, s))
    (hl : m.TablesLive src root) :
    (m.takePage f s).Data src root f ∧ (m.takePage f s).mem f = 0 := by
  have hfree := src.alloc_fresh ha
  exact ⟨⟨src.alloc_live ha, fun hroot => hfree (hl f (.inl hroot)),
    fun htable => hfree (hl f (.inr htable))⟩, Function.update_self ..⟩

theorem allocPage_keepsData (m : Machine σ) : KeepsData src root m (allocPage src m).2 := by
  unfold allocPage
  rcases ha : src.alloc m.pmm with - | ⟨f, s⟩
  · exact .refl m
  · exact takePage_keepsData ha

end Touches

/-! ### A page that is faulted in -/

section Fault

variable {fayt : PortalLib} {src : FrameSource σ} {la57 : Bool} {root : R → Word}
  {s s' : PortalState σ R} {r : R} {p : Portal}

/-- From `s` to `s'`, the page at `v` was mapped to a page of zeros of its own. -/
structure PortalState.FaultedIn [DecidableEq R] (src : FrameSource σ) (la57 : Bool)
    (root : R → Word) (s s' : PortalState σ R) (r : R) (v f flags : Word) : Prop where
  mapped : Mapped src la57 root s.machine s'.machine r v ⟨f, flags, .small⟩
  keeps : KeepsData src root s.machine s'.machine
  unused : ¬ s.machine.Data src root f
  data : s'.machine.Data src root f
  zero : s'.machine.mem f = 0
  flags : ¬ has flags flagG

theorem faultFrame_keepsData {v paddr : Word}
    (h : faultFrame fayt src s p v = some (paddr, s')) :
    KeepsData src root s.machine s'.machine := by
  rcases faultFrame_machine h with ⟨-, hmachine⟩ | ⟨-, hmachine⟩ <;> rw [hmachine]
  · exact .refl _
  · exact allocPage_keepsData _

theorem not_global_portal (prot : BitVec 32) :
    ¬ has (portalTranslateProtections prot) flagG := by
  unfold portalTranslateProtections
  by_cases hw : hasBit prot portalProtWrite <;> by_cases hx : hasBit prot portalProtExec <;>
    simp only [hw, hx, if_true, if_false] <;> decide

/-- **A fault gives its page a frame of its own**, full of zeros, or changes nothing. -/
theorem portalFaultAnon_faultedIn [DecidableEq R] {addr : Word} {ret : ℤ}
    (hF : Forest src root (upperLevels la57 + 1) s.machine)
    (hlive : s.machine.TablesLive src root) (hsup : src.Supplies 2 s.machine.pmm)
    (hnone : s.machine.lookup la57 root r (addr &&& ~~~0xfff) = none)
    (h : portalFaultAnon fayt src la57 root s r addr = .ok (ret, s')) :
    s' = s ∨ ∃ f flags, s.FaultedIn src la57 root s' r (addr &&& ~~~0xfff) f flags := by
  rcases portalFaultAnon_cases h with
    ⟨-, rfl, -⟩ | ⟨p, paddr, s₁, ptr, -, hframe, hmap, -, -, -⟩
  · exact .inl rfl
  have hbacked := faultFrame_backed hF hframe
  have hkeeps₁ : KeepsData src root s.machine s₁.machine := faultFrame_keepsData hframe
  obtain ⟨f, st, ha, -⟩ := faultFrame_supplies hF hsup hframe
  have hkeeps₂ : KeepsData src root s₁.machine (s₁.machine.takePage f st) :=
    takePage_keepsData ha
  obtain ⟨hdata₂, hzero₂⟩ := takePage_data ha (hkeeps₁.live hlive)
  rw [allocPage_eq_of_some ha] at hmap
  obtain ⟨hmappable, hPS⟩ := portalTranslateProtections_mappable p.prot (src.alloc_frame ha)
  have hmapped := (hbacked.forest.takePage ha).mapPage_small hmappable hPS
    (by rw [hbacked.forest.lookup_takePage ha, hbacked.lookup, hnone]) hmap
  have hkeeps₃ : KeepsData src root (s₁.machine.takePage f st) s'.machine := by
    rw [x86PagingInit_mapPage] at hmap
    exact (mapPage_touches hmap).keepsData hmapped.forest
  obtain ⟨hdata₃, hmem₃⟩ := hkeeps₃.data f hdata₂
  refine .inr ⟨f, _, ⟨hmapped.forest, fun r' v' => ?_, ?_⟩,
    (hkeeps₁.trans hkeeps₂).trans hkeeps₃, ?_, hdata₃, hmem₃.trans hzero₂,
    not_global_portal p.prot⟩
  · refine (hmapped.lookup r' v').trans ?_
    rw [hbacked.forest.lookup_takePage ha, hbacked.lookup]
  · exact (hbacked.grows.trans fun g hg => src.alloc_mono ha hg).trans hmapped.grows
  · exact fun hold => src.alloc_fresh ha (hbacked.grows _ hold.live)

end Fault

/-! ### The cores -/

/-- The kernel, the page table that each core has loaded, and the translations in its TLB, each
with an address on its page. -/
structure VmState (σ R C : Type) where
  kernel : PortalState σ R
  current : C → R
  tlb : C → Set (Word × Translation)

/-- Other words in a frame. -/
def VmState.setPage (x : VmState σ R C) (f : Word) (page : BitVec 9 → Word) : VmState σ R C :=
  { x with kernel := { x.kernel with machine := x.kernel.machine.setPage f page } }

/-- Two addresses are on the same page of the given size. -/
def onPage (la57 : Bool) (size : PageSize) (v v' : Word) : Prop :=
  sameBits size.shift (30 + 9 * upperLevels la57) v v'

/-- `invlpg`. -/
def invlpg (la57 : Bool) (v : Word) (tlb : Set (Word × Translation)) : Set (Word × Translation) :=
  { e ∈ tlb | ¬ onPage la57 e.2.size e.1 v }

/-- `mov %0, %%cr3` drops what is not global. -/
def dropLocal (tlb : Set (Word × Translation)) : Set (Word × Translation) :=
  { e ∈ tlb | has e.2.flags flagG }

section Cores

variable (fayt : PortalLib) (src : FrameSource σ) (la57 : Bool) (root : R → Word) [DecidableEq R]
  [DecidableEq C]

/-- The TLB of a core after `portal_resolve_fault`.  `portal_fault_anon` drops the page once it
has found the portal. -/
def PortalState.faultTlb (s : PortalState σ R) (r : R) (addr code : Word)
    (tlb : Set (Word × Translation)) : Set (Word × Translation) :=
  if ¬ has code flagP ∧ ((s.portals r).find addr).isSome then invlpg la57 (addr &&& ~~~0xfff) tlb
  else tlb

/-- A step of a core.  `boot` has the translations that are there from the start.  The code tests
none of the conditions: requests have no `DIRECT`, a fault finds two frames, no page is unmapped,
and a context stores to other pages than those of `boot`, through any translation its core has. -/
inductive VmState.Step (boot : R → Word → Option Translation) :
    VmState σ R C → VmState σ R C → Prop
  | portal {x : VmState σ R C} (c : C) {req : PortalReq} {ret : ℤ} {resp : PortalResp}
      {s : PortalState σ R} :
      ¬ hasBit req.type portalReqDirect →
      portal fayt src la57 root x.kernel (x.current c) req = .ok (ret, resp, s) →
      Step boot x { x with kernel := s }
  | fault {x : VmState σ R C} (c : C) {addr code : Word} {ret : ℤ} {s : PortalState σ R} :
      -- a fault whose error code has `P` clear is raised by a page that is not present
      (¬ has code flagP → x.kernel.machine.lookup la57 root (x.current c) (addr &&& ~~~0xfff)
        = none) →
      src.Supplies 2 x.kernel.machine.pmm →
      portalResolveFault fayt src la57 root x.kernel (x.current c) addr code = .ok (ret, s) →
      Step boot x
        { x with
          kernel := s
          tlb := Function.update x.tlb c
            (x.kernel.faultTlb la57 (x.current c) addr code (x.tlb c)) }
  | walk {x : VmState σ R C} (c : C) {v : Word} {tr : Translation} :
      x.kernel.machine.lookup la57 root (x.current c) v = some tr →
      Step boot x { x with tlb := Function.update x.tlb c (insert (v, tr) (x.tlb c)) }
  | evict {x : VmState σ R C} (c : C) {kept : Set (Word × Translation)} :
      kept ⊆ x.tlb c → Step boot x { x with tlb := Function.update x.tlb c kept }
  | swapTables {x : VmState σ R C} (c : C) (r : R) :
      Step boot x
        { x with
          current := Function.update x.current c r
          tlb := Function.update x.tlb c (dropLocal (x.tlb c)) }
  | store {x : VmState σ R C} (c : C) {u v w : Word} {tr : Translation} {i : BitVec 9} :
      (u, tr) ∈ x.tlb c → onPage la57 tr.size u v → boot (x.current c) v = none →
      Step boot x (x.setPage tr.frame (Function.update (x.kernel.machine.mem tr.frame) i w))

end Cores

/-! ### Pages and translations -/

section Pages

variable {src : FrameSource σ} {la57 : Bool} {root : R → Word} {m : Machine σ}

theorem onPage.refl (size : PageSize) (v : Word) : onPage la57 size v v := sameBits_refl _ _ v

/-- **A page has one translation.** -/
theorem Forest.lookup_onPage (hF : Forest src root (upperLevels la57 + 1) m) {r : R} {v v' : Word}
    {tr : Translation} (h : m.lookup la57 root r v = some tr) (hv : onPage la57 tr.size v v') :
    m.lookup la57 root r v' = some tr := by
  have hv₀ : (slotOf m.mem (upperLevels la57) (root r) v).translate (index 0 v) = some tr :=
    hF.translate_eq.symm.trans h
  refine hF.translate_eq.trans ?_
  rcases hslot : slotOf m.mem (upperLevels la57) (root r) v with - | f | e
  · rw [hslot] at hv₀
    cases hv₀
  · rw [hslot, Slot.translate] at hv₀
    split_ifs at hv₀ with hP
    obtain rfl := Option.some.inj hv₀
    obtain ⟨hregion, hidx⟩ := page_eq_iff.mpr hv
    rw [slotOf_congr hregion, hslot, hidx, Slot.translate, if_pos hP]
  · rw [hslot, Slot.translate] at hv₀
    split_ifs at hv₀ with hP
    obtain rfl := Option.some.inj hv₀
    have hregion : sameBits 21 (30 + 9 * upperLevels la57) v v' := hv
    rw [slotOf_congr hregion, hslot, Slot.translate, if_pos hP]

theorem Forest.lookup_samePage (hF : Forest src root (upperLevels la57 + 1) m) (r : R)
    {v v' : Word} (hv : samePage la57 v v') :
    m.lookup la57 root r v' = m.lookup la57 root r v := by
  obtain ⟨hregion, hidx⟩ := page_eq_iff.mpr hv
  refine hF.translate_eq.trans (Eq.trans ?_ hF.translate_eq.symm)
  rw [slotOf_congr hregion, hidx]

end Pages

/-! ### What every step keeps -/

namespace VmState

section Invariant

variable {src : FrameSource σ} {la57 : Bool} {root : R → Word}
  {boot : R → Word → Option Translation} {x : VmState σ R C}

/-- The page at `v` is the context's own. -/
structure Own (la57 : Bool) (root : R → Word) (boot : R → Word → Option Translation)
    (x : VmState σ R C) (r : R) (v : Word) (tr : Translation) : Prop where
  present : x.kernel.machine.lookup la57 root r v = some tr
  new : boot r v = none

structure Inv (src : FrameSource σ) (la57 : Bool) (root : R → Word)
    (boot : R → Word → Option Translation) (x : VmState σ R C) : Prop where
  forest : Forest src root (upperLevels la57 + 1) x.kernel.machine
  live : x.kernel.machine.TablesLive src root
  kept : ∀ {r v tr}, boot r v = some tr → x.kernel.machine.lookup la57 root r v = some tr
  ownFrame : ∀ {r v tr}, x.Own la57 root boot r v tr →
    ¬ has tr.flags flagG ∧ x.kernel.machine.Data src root tr.frame
  apart : ∀ {r v tr r' v' tr'}, x.Own la57 root boot r v tr → x.Own la57 root boot r' v' tr' →
    tr.frame = tr'.frame → r = r' ∧ samePage la57 v v'
  cached : ∀ {c u tr}, (u, tr) ∈ x.tlb c →
    x.kernel.machine.lookup la57 root (x.current c) u = some tr ∧
      (has tr.flags flagG → ∀ r, x.kernel.machine.lookup la57 root r u = some tr)

/-- The tables agree on the global pages. -/
def SameGlobals (boot : R → Word → Option Translation) : Prop :=
  ∀ {r v tr}, boot r v = some tr → has tr.flags flagG → ∀ r', boot r' v = some tr

theorem Inv.lookup_cached (h : x.Inv src la57 root boot) {c : C} {u v : Word} {tr : Translation}
    (hin : (u, tr) ∈ x.tlb c) (hv : onPage la57 tr.size u v) :
    x.kernel.machine.lookup la57 root (x.current c) v = some tr :=
  h.forest.lookup_onPage (h.cached hin).1 hv

/-- A step that changes no translation and no data page into a table. -/
theorem Inv.of_kernel {s : PortalState σ R} (h : x.Inv src la57 root boot)
    (hF : Forest src root (upperLevels la57 + 1) s.machine) (hlive : s.machine.TablesLive src root)
    (hlookup : ∀ r v, s.machine.lookup la57 root r v = x.kernel.machine.lookup la57 root r v)
    (hdata : ∀ f, x.kernel.machine.Data src root f → s.machine.Data src root f) :
    Inv src la57 root boot { x with kernel := s } := by
  have hown : ∀ {r v tr}, Own la57 root boot { x with kernel := s } r v tr →
      x.Own la57 root boot r v tr := fun ho => ⟨(hlookup _ _).symm.trans ho.present, ho.new⟩
  refine ⟨hF, hlive, fun hb => (hlookup _ _).trans (h.kept hb), fun ho => ?_,
    fun ho ho' => h.apart (hown ho) (hown ho'), fun hin => ?_⟩
  · exact ⟨(h.ownFrame (hown ho)).1, hdata _ (h.ownFrame (hown ho)).2⟩
  · obtain ⟨hcur, hglobal⟩ := h.cached hin
    exact ⟨(hlookup _ _).trans hcur, fun hG r => (hlookup _ _).trans (hglobal hG r)⟩

/-- A step of the TLB of one core. -/
theorem Inv.of_tlb [DecidableEq C] (h : x.Inv src la57 root boot) (c : C)
    {tlb : Set (Word × Translation)}
    (htlb : ∀ {u tr}, (u, tr) ∈ tlb → x.kernel.machine.lookup la57 root (x.current c) u = some tr ∧
      (has tr.flags flagG → ∀ r, x.kernel.machine.lookup la57 root r u = some tr)) :
    Inv src la57 root boot { x with tlb := Function.update x.tlb c tlb } := by
  refine ⟨h.forest, h.live, h.kept, fun ho => h.ownFrame ⟨ho.present, ho.new⟩,
    fun ho ho' => h.apart ⟨ho.present, ho.new⟩ ⟨ho'.present, ho'.new⟩, fun {c' u tr} hin => ?_⟩
  change (u, tr) ∈ Function.update x.tlb c tlb c' at hin
  rcases eq_or_ne c' c with rfl | hne
  · rw [Function.update_self] at hin
    exact htlb hin
  · rw [Function.update_of_ne hne] at hin
    exact h.cached hin

section Faulted

variable [DecidableEq R] {s : PortalState σ R} {r : R} {v f flags : Word}
  (hf : x.kernel.FaultedIn src la57 root s r v f flags)
  (hnone : x.kernel.machine.lookup la57 root r v = none)

include hf hnone

/-- A translation stays, since the page was not there. -/
theorem lookup_faultedIn (hF : Forest src root (upperLevels la57 + 1) x.kernel.machine) {r' : R}
    {u : Word} {tr : Translation} (h : x.kernel.machine.lookup la57 root r' u = some tr) :
    s.machine.lookup la57 root r' u = some tr := by
  rw [hf.mapped.lookup, if_neg]
  · exact h
  · rintro ⟨rfl, hv⟩
    rw [hF.lookup_samePage r' hv, hnone] at h
    cases h

omit hnone in
/-- An own page after a fault was there before, or is the new one. -/
theorem own_faultedIn {r' : R} {u : Word} {tr : Translation}
    (ho : Own la57 root boot { x with kernel := s } r' u tr) :
    x.Own la57 root boot r' u tr ∨ (tr = ⟨f, flags, .small⟩ ∧ r' = r ∧ samePage la57 v u) := by
  have hlookup := hf.mapped.lookup r' u
  rw [ho.present] at hlookup
  split_ifs at hlookup with hpage
  · exact .inr ⟨Option.some.inj hlookup, hpage⟩
  · exact .inl ⟨hlookup.symm, ho.new⟩

/-- **A fault** keeps the pages of all contexts apart. -/
theorem Inv.faulted (h : x.Inv src la57 root boot) :
    Inv src la57 root boot { x with kernel := s } := by
  refine ⟨hf.mapped.forest, hf.keeps.live h.live,
    fun hb => lookup_faultedIn hf hnone h.forest (h.kept hb), fun ho => ?_,
    fun {r₁ v₁ tr₁ r₂ v₂ tr₂} ho₁ ho₂ heq => ?_, fun hin => ?_⟩
  · rcases own_faultedIn hf ho with ho | ⟨rfl, -, -⟩
    · exact ⟨(h.ownFrame ho).1, (hf.keeps.data _ (h.ownFrame ho).2).1⟩
    · exact ⟨hf.flags, hf.data⟩
  · -- the frame of the new page was nobody's
    rcases own_faultedIn hf ho₁ with ho₁ | ⟨rfl, rfl, hv₁⟩ <;>
      rcases own_faultedIn hf ho₂ with ho₂ | ⟨rfl, rfl, hv₂⟩
    · exact h.apart ho₁ ho₂ heq
    · have hframe : tr₁.frame = f := heq
      exact absurd (hframe ▸ (h.ownFrame ho₁).2) hf.unused
    · have hframe : tr₂.frame = f := heq.symm
      exact absurd (hframe ▸ (h.ownFrame ho₂).2) hf.unused
    · exact ⟨rfl, sameBits_trans (sameBits_symm hv₁) hv₂⟩
  · obtain ⟨hcur, hglobal⟩ := h.cached hin
    exact ⟨lookup_faultedIn hf hnone h.forest hcur,
      fun hG r' => lookup_faultedIn hf hnone h.forest (hglobal hG r')⟩

end Faulted

theorem faultTlb_subset (la57 : Bool) (s : PortalState σ R) (r : R) (addr code : Word)
    (tlb : Set (Word × Translation)) : s.faultTlb la57 r addr code tlb ⊆ tlb := by
  unfold PortalState.faultTlb
  split_ifs
  · exact Set.sep_subset ..
  · exact subset_rfl

end Invariant

section Steps

variable {fayt : PortalLib} {src : FrameSource σ} {la57 : Bool} {root : R → Word} [DecidableEq R]
  {boot : R → Word → Option Translation} {x x' : VmState σ R C}

omit [DecidableEq R] in
theorem portalHandleShare_machine {s s' : PortalState σ R} {p p' : Portal} {req : PortalReq}
    (h : portalHandleShare fayt s p req = some (p', s')) : s'.machine = s.machine := by
  unfold portalHandleShare at h
  rcases hpoint : s.shareMap req.identifier with - | point <;> simp only [hpoint] at h
  · split_ifs at h
    obtain ⟨-, rfl⟩ := Prod.mk.inj (Option.some.inj h)
    rfl
  · obtain ⟨-, rfl⟩ := Prod.mk.inj (Option.some.inj h)
    rfl

/-- Only a `DIRECT` request touches the page tables. -/
theorem portal_machine {s s' : PortalState σ R} {r : R} {req : PortalReq} {ret : ℤ}
    {resp : PortalResp} (hdirect : ¬ hasBit req.type portalReqDirect)
    (h : portal fayt src la57 root s r req = .ok (ret, resp, s')) : s'.machine = s.machine := by
  obtain ⟨m, hm, h⟩ := portal_cases h
  rw [if_neg hdirect] at hm
  subst hm
  unfold portalFinish at h
  dsimp only at h
  split at h
  · obtain ⟨-, -, rfl⟩ := h
    rfl
  · rename_i q s₁ hhandle
    obtain ⟨-, -, rfl⟩ := h
    show s₁.machine = s.machine
    by_cases hshare : hasBit req.type portalReqShare
    · rw [if_pos hshare] at hhandle
      exact portalHandleShare_machine hhandle
    · rw [if_neg hshare] at hhandle
      obtain ⟨-, rfl⟩ := Prod.mk.inj (Option.some.inj hhandle)
      rfl

/-- **A fault of a core** maps a page or changes nothing. -/
theorem fault_cases {s s' : PortalState σ R} {r : R} {addr code : Word} {ret : ℤ}
    (hF : Forest src root (upperLevels la57 + 1) s.machine)
    (hlive : s.machine.TablesLive src root) (hsup : src.Supplies 2 s.machine.pmm)
    (hnone : ¬ has code flagP → s.machine.lookup la57 root r (addr &&& ~~~0xfff) = none)
    (h : portalResolveFault fayt src la57 root s r addr code = .ok (ret, s')) :
    s' = s ∨ (s.machine.lookup la57 root r (addr &&& ~~~0xfff) = none ∧
      ∃ f flags, s.FaultedIn src la57 root s' r (addr &&& ~~~0xfff) f flags) := by
  have heq := portalResolveFault_eq h
  split_ifs at heq with hP
  · exact .inl heq
  · obtain ⟨ret', hanon⟩ := heq
    rcases portalFaultAnon_faultedIn hF hlive hsup (hnone hP) hanon with heq | hf
    · exact .inl heq
    · exact .inr ⟨hnone hP, hf⟩

theorem Inv.step [DecidableEq C] (hglobals : SameGlobals boot) (h : x.Inv src la57 root boot)
    (hstep : Step fayt src la57 root boot x x') : x'.Inv src la57 root boot := by
  cases hstep with
  | portal c hdirect hportal =>
    have hmachine := portal_machine hdirect hportal
    refine h.of_kernel ?_ ?_ (fun r v => by rw [hmachine]) fun f hf => ?_
    · exact hmachine ▸ h.forest
    · exact hmachine ▸ h.live
    · exact hmachine ▸ hf
  | @fault c addr code _ s hnone hsup hfault =>
    have hsub := faultTlb_subset la57 x.kernel (x.current c) addr code (x.tlb c)
    rcases fault_cases h.forest h.live hsup hnone hfault with rfl | ⟨hfree, f, flags, hf⟩
    · exact h.of_tlb c fun hin => h.cached (hsub hin)
    · have hmapped := h.faulted hf hfree
      exact hmapped.of_tlb c fun hin => hmapped.cached (hsub hin)
  | walk c hwalk =>
    refine h.of_tlb c fun {u tr} hin => ?_
    rcases Set.mem_insert_iff.mp hin with heq | hin
    · obtain ⟨rfl, rfl⟩ := Prod.mk.inj heq
      refine ⟨hwalk, fun hG r => ?_⟩
      -- a global page is there from the start, in every table
      rcases hboot : boot (x.current c) u with - | tr'
      · exact absurd hG (h.ownFrame ⟨hwalk, hboot⟩).1
      · obtain rfl := Option.some.inj ((h.kept hboot).symm.trans hwalk)
        exact h.kept (hglobals hboot hG r)
    · exact h.cached hin
  | evict c hkept => exact h.of_tlb c fun hin => h.cached (hkept hin)
  | swapTables c r =>
    refine ⟨h.forest, h.live, h.kept, fun ho => h.ownFrame ⟨ho.present, ho.new⟩,
      fun ho ho' => h.apart ⟨ho.present, ho.new⟩ ⟨ho'.present, ho'.new⟩, fun {c' u tr} hin => ?_⟩
    show x.kernel.machine.lookup la57 root (Function.update x.current c r c') u = some tr ∧ _
    change (u, tr) ∈ Function.update x.tlb c (dropLocal (x.tlb c)) c' at hin
    rcases eq_or_ne c' c with rfl | hne
    · rw [Function.update_self] at hin ⊢
      obtain ⟨-, hglobal⟩ := h.cached hin.1
      exact ⟨hglobal hin.2 r, hglobal⟩
    · rw [Function.update_of_ne hne] at hin ⊢
      exact h.cached hin
  | store c hin hpage hboot =>
    have hdata := (h.ownFrame ⟨h.lookup_cached hin hpage, hboot⟩).2
    exact h.of_kernel (h.forest.setPage hdata) (fun t ht => h.live t ht)
      (fun r v => h.forest.lookup_setPage hdata r v) fun f hf => ⟨hf.live, hf.notRoot, hf.notTable⟩

/-- The cores have loaded tables with the same global pages, and translations of the tables
they have loaded. -/
structure Initial (src : FrameSource σ) (la57 : Bool) (root : R → Word) (x : VmState σ R C) :
    Prop where
  forest : Forest src root (upperLevels la57 + 1) x.kernel.machine
  live : x.kernel.machine.TablesLive src root
  globals : SameGlobals (x.kernel.machine.lookup la57 root)
  tlb : ∀ {c u tr}, (u, tr) ∈ x.tlb c →
    x.kernel.machine.lookup la57 root (x.current c) u = some tr

omit [DecidableEq R] in
theorem Initial.inv (h : x.Initial src la57 root) :
    x.Inv src la57 root (x.kernel.machine.lookup la57 root) := by
  have hnone : ∀ {r v tr}, ¬ x.Own la57 root (x.kernel.machine.lookup la57 root) r v tr := by
    intro r v tr ho
    cases ho.present.symm.trans ho.new
  exact ⟨h.forest, h.live, fun hb => hb, fun ho => absurd ho hnone, fun ho => absurd ho hnone,
    fun hin => ⟨h.tlb hin, h.globals (h.tlb hin)⟩⟩

theorem Initial.run_inv [DecidableEq C] {x₀ : VmState σ R C} (h : x₀.Initial src la57 root)
    (hrun : Run (Step fayt src la57 root (x₀.kernel.machine.lookup la57 root)) x₀ x) :
    x.Inv src la57 root (x₀.kernel.machine.lookup la57 root) :=
  Run.invariant (fun _ _ hinv hstep => hinv.step h.globals hstep) h.inv hrun

end Steps

end VmState

/-! ### The memory of the contexts -/

/-- The pages of each context, by the addresses on them. -/
abbrev ContextMemory (R : Type) := R → Word → Option (BitVec 9 → Word)

namespace ContextMemory

variable [DecidableEq R] (la57 : Bool)

def setPage (A : ContextMemory R) (r : R) (v : Word) (page : BitVec 9 → Word) : ContextMemory R :=
  fun r' v' => if r' = r ∧ samePage la57 v v' then some page else A r' v'

/-- A page of zeros appears, or a context stores to a page of its own. -/
inductive Step : ContextMemory R → ContextMemory R → Prop
  | fault {A : ContextMemory R} {r : R} {v : Word} : A r v = none → Step A (A.setPage la57 r v 0)
  | store {A : ContextMemory R} {r : R} {v w : Word} {i : BitVec 9} {page : BitVec 9 → Word} :
      A r v = some page → Step A (A.setPage la57 r v (Function.update page i w))

end ContextMemory

namespace VmState

section Refinement

variable {fayt : PortalLib} {src : FrameSource σ} {la57 : Bool} {root : R → Word} [DecidableEq R]
  {boot : R → Word → Option Translation} {x x' : VmState σ R C} {A : ContextMemory R}

/-- The own pages of the contexts have the words of `A`. -/
def Represents (la57 : Bool) (root : R → Word) (boot : R → Word → Option Translation)
    (x : VmState σ R C) (A : ContextMemory R) : Prop :=
  ∀ r v, boot r v = none →
    A r v = (x.kernel.machine.lookup la57 root r v).map fun tr => x.kernel.machine.mem tr.frame

theorem Represents.faulted {s : PortalState σ R} {r : R} {v f flags : Word}
    (hrep : x.Represents la57 root boot A) (h : x.Inv src la57 root boot)
    (hf : x.kernel.FaultedIn src la57 root s r v f flags) :
    Represents la57 root boot { x with kernel := s } (A.setPage la57 r v 0) := by
  intro r' v' hboot
  show (A.setPage la57 r v 0) r' v' = (s.machine.lookup la57 root r' v').map _
  rw [hf.mapped.lookup, ContextMemory.setPage]
  split_ifs
  · rw [Option.map_some, hf.zero]
  · rw [hrep r' v' hboot]
    rcases hlookup : x.kernel.machine.lookup la57 root r' v' with - | tr
    · rfl
    · have hdata := (h.ownFrame ⟨hlookup, hboot⟩).2
      rw [Option.map_some, Option.map_some, (hf.keeps.data _ hdata).2]

theorem Represents.store {c : C} {u v w : Word} {tr : Translation} {i : BitVec 9}
    (hrep : x.Represents la57 root boot A) (h : x.Inv src la57 root boot)
    (hin : (u, tr) ∈ x.tlb c) (hpage : onPage la57 tr.size u v)
    (hboot : boot (x.current c) v = none) :
    (x.setPage tr.frame (Function.update (x.kernel.machine.mem tr.frame) i w)).Represents la57 root
      boot
      (A.setPage la57 (x.current c) v (Function.update (x.kernel.machine.mem tr.frame) i w)) := by
  intro r' v' hboot'
  have hlookup := h.lookup_cached hin hpage
  have hdata := (h.ownFrame ⟨hlookup, hboot⟩).2
  show _ = ((x.kernel.machine.setPage _ _).lookup la57 root r' v').map fun tr' =>
    Function.update x.kernel.machine.mem tr.frame
      (Function.update (x.kernel.machine.mem tr.frame) i w) tr'.frame
  rw [h.forest.lookup_setPage hdata, ContextMemory.setPage]
  split_ifs with hsame
  · obtain ⟨rfl, hv⟩ := hsame
    rw [h.forest.lookup_samePage _ hv, hlookup, Option.map_some, Function.update_self]
  · rw [hrep r' v' hboot']
    rcases hlookup' : x.kernel.machine.lookup la57 root r' v' with - | tr'
    · rfl
    · -- another page has another frame
      have hne : tr'.frame ≠ tr.frame := by
        intro heq
        obtain ⟨hr, hv⟩ := h.apart ⟨hlookup, hboot⟩ ⟨hlookup', hboot'⟩ heq.symm
        exact hsame ⟨hr.symm, hv⟩
      rw [Option.map_some, Option.map_some, Function.update_of_ne hne]

theorem Represents.step [DecidableEq C] (hrep : x.Represents la57 root boot A)
    (h : x.Inv src la57 root boot) (hstep : Step fayt src la57 root boot x x') :
    ∃ A', Run (ContextMemory.Step la57) A A' ∧ x'.Represents la57 root boot A' := by
  cases hstep with
  | portal c hdirect hportal =>
    refine ⟨A, .refl, fun r v hboot => ?_⟩
    dsimp only
    rw [portal_machine hdirect hportal]
    exact hrep r v hboot
  | @fault c addr code _ s hnone hsup hfault =>
    rcases fault_cases h.forest h.live hsup hnone hfault with rfl | ⟨hfree, f, flags, hf⟩
    · exact ⟨A, .refl, hrep⟩
    · have hboot : boot (x.current c) (addr &&& ~~~0xfff) = none := by
        rcases hb : boot (x.current c) (addr &&& ~~~0xfff) with - | tr
        · rfl
        · cases hfree.symm.trans (h.kept hb)
      have hA : A (x.current c) (addr &&& ~~~0xfff) = none := by
        rw [hrep _ _ hboot, hfree]
        rfl
      exact ⟨_, .single (.fault hA), hrep.faulted h hf⟩
  | walk c _ => exact ⟨A, .refl, hrep⟩
  | evict c _ => exact ⟨A, .refl, hrep⟩
  | swapTables c r => exact ⟨A, .refl, hrep⟩
  | @store c u v w tr i hin hpage hboot =>
    have hA : A (x.current c) v = some (x.kernel.machine.mem tr.frame) := by
      rw [hrep _ _ hboot, h.lookup_cached hin hpage]
      rfl
    exact ⟨_, .single (.store hA), hrep.store h hin hpage hboot⟩

end Refinement

end VmState

section Main

variable {fayt : PortalLib} {src : FrameSource σ} {la57 : Bool} {root : R → Word} [DecidableEq R]
  [DecidableEq C] {x₀ x : VmState σ R C}

end Main

/-! ### A store -/

/-- Two cores, each with a context that has a portal. -/
def twoCores : VmState FreeList Bool Bool := ⟨openedBoth.kernel, fun c => c, fun _ => ∅⟩

theorem twoCores_initial : twoCores.Initial .ofList false twoRoots where
  forest := twoTables_forest 3
  live t ht := by
    show t ∉ twoTables.pmm.1
    rcases ht with ⟨r, rfl⟩ | ht
    · cases r <;> decide +kernel
    · exact absurd ht List.not_mem_nil
  globals := by
    intro r v tr hboot
    cases (twoTables_lookup r v).symm.trans hboot
  tlb hin := absurd hin (Set.notMem_empty _)

/-- A context touches a page of its own, and stores to it. -/
theorem VmState.run_store {fayt : PortalLib} {src : FrameSource σ} {la57 : Bool} {root : R → Word}
    [DecidableEq R] [DecidableEq C] {boot : R → Word → Option Translation} {x : VmState σ R C}
    {c : C} {addr code : Word} {ret : ℤ} {s : PortalState σ R} {tr : Translation}
    (hnone : x.kernel.machine.lookup la57 root (x.current c) (addr &&& ~~~0xfff) = none)
    (hsup : src.Supplies 2 x.kernel.machine.pmm)
    (hfault : portalResolveFault fayt src la57 root x.kernel (x.current c) addr code
      = .ok (ret, s))
    (hwalk : s.machine.lookup la57 root (x.current c) addr = some tr)
    (hboot : boot (x.current c) addr = none) (i : BitVec 9) (w : Word) :
    ∃ x', Run (Step fayt src la57 root boot) x x' ∧ x'.current = x.current ∧
      (addr, tr) ∈ x'.tlb c ∧ x'.kernel.machine.mem tr.frame i = w := by
  have hrun : Run (Step fayt src la57 root boot) x _ :=
    .single (.fault c (fun _ => hnone) hsup hfault)
  have hin : ∀ (tlb : C → Set (Word × Translation)),
      (addr, tr) ∈ Function.update tlb c (insert (addr, tr) (tlb c)) c := by
    intro tlb
    rw [Function.update_self]
    exact Set.mem_insert ..
  refine ⟨_, (hrun.tail (.walk c hwalk)).tail
    (.store c (w := w) (i := i) (hin _) (onPage.refl _ _) hboot), rfl, hin _, ?_⟩
  show (Function.update s.machine.mem tr.frame
    (Function.update (s.machine.mem tr.frame) i w)) tr.frame i = w
  rw [Function.update_self, Function.update_self]

/-- The first context touches its page, and stores 7 in it. -/
theorem twoCores_run : ∃ x tr,
    Run (VmState.Step portalLib .ofList false twoRoots
      (twoCores.kernel.machine.lookup false twoRoots)) twoCores x ∧
      x.current = twoCores.current ∧ (0x400000, tr) ∈ x.tlb false ∧
      x.kernel.machine.mem tr.frame 0 = 7 := by
  have hnone : twoCores.kernel.machine.lookup false twoRoots (twoCores.current false)
      (0x400000 &&& ~~~0xfff) = none := twoTables_lookup false _
  have hsup : FrameSource.ofList.Supplies (upperLevels false + (0 + 1) + 2)
      twoCores.kernel.machine.pmm := (FreeList.supplies _).of_le (by decide)
  have hfind : (twoCores.kernel.portals false).find 0x400000 = some (queuePortal false) := by
    decide +kernel
  have hidx : ¬ ((0x400000 &&& ~~~0xfff) - (queuePortal false).base) / 0x1000 >
      (((queueReq true 0x400000).sharePoint portalLib).length - portalLib.sharePointSize) / 8 := by
    decide
  obtain ⟨ret, s, f, flags, hresolve, hfault, -⟩ := portalResolveFault_returns
    (twoTables_forest 3) hnone (show ¬ has 6 flagP by decide) hfind rfl hidx hsup
  have hwalk : s.machine.lookup false twoRoots (twoCores.current false) 0x400000
      = some ⟨f, flags, .small⟩ := by
    rw [hfault.mapped.lookup]
    exact if_pos ⟨rfl, by decide⟩
  obtain ⟨x, hrun, hcurrent, hin, hword⟩ := VmState.run_store hnone (hsup.of_le (by decide))
    hresolve hwalk (twoTables_lookup false _) 0 7
  exact ⟨x, _, hrun, hcurrent, hin, hword⟩

end Rock
