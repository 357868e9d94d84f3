/-
Rock/PortalDestroy.lean

`portal_destroy` (kernel/core/portal.c): the end of a tree of portals.

The function goes through the tree from the leaves up.  Every page in the table of a portal
gives up its reference to a frame, and a frame without references goes back to `pmm_free`;
page, table and portal are freed.  Frames may be shared, between the pages of the tree and
with others.

Here portals, tables and pages are objects at addresses, so that a freed object is gone: an
access to it is wild, and so is a second visit.  The recursion is on pointers, with fuel for
its depth.  On a tree of distinct objects `portal_destroy` comes to its end
(`portalDestroy_eq`), and its counting is exact (`portal_destroy_exact`).
-/
import Mathlib.Data.List.ReduceOption
import Rock.Exec
import Rock.RefCount
import Rock.Portal

namespace Rock

/-! ### Objects -/

/-- `struct frame`, whose count is an `int`. -/
structure FrameObject where
  paddr : Word
  refcnt : ℤ

/-- `struct page`. -/
structure PageObject where
  vaddr : Word
  frame : ℕ

/-- `struct portal`, with its pointers. -/
structure PortalObject where
  portal : Portal
  pages : Option ℕ
  left : Option ℕ
  right : Option ℕ

/-- The objects in memory; a table is its slots.  `pmmFrees` lists the frames that `pmm_free`
was called with, and `portalVisits` and `pageVisits` the objects that were freed; the code
reads none of them. -/
@[ext]
structure PortalHeap where
  portals : ℕ → Option PortalObject
  tables : ℕ → Option (List (Option ℕ))
  pages : ℕ → Option PageObject
  frames : ℕ → FrameObject
  pmmFrees : List Word
  portalVisits : List ℕ
  pageVisits : List ℕ

/-- An access to the object at `a`. -/
def deref {β : Type} (m : ℕ → Option β) (a : ℕ) : Exec β :=
  match m a with
  | none => .error .wild
  | some x => .ok x

/-- The body of the loop of `portal_destroy`, for the page at `a`. -/
def destroyPage (h : PortalHeap) (a : ℕ) : Exec PortalHeap := do
  let page ← deref h.pages a
  let frame := h.frames page.frame
  let refcnt := frame.refcnt - 1
  .ok { h with
    frames := Function.update h.frames page.frame { frame with refcnt := refcnt }
    pmmFrees := if refcnt = 0 then h.pmmFrees ++ [frame.paddr] else h.pmmFrees
    pages := eraseAll h.pages [a]
    pageVisits := h.pageVisits ++ [a] }

/-- The loop over the slots of a table; its `int` counter does not wrap around here. -/
def destroyPages (h : PortalHeap) : List (Option ℕ) → Exec PortalHeap
  | [] => .ok h
  | none :: slots => destroyPages h slots
  | some a :: slots => do
      let h ← destroyPage h a
      destroyPages h slots

/-- `portal_destroy`; the fuel bounds the depth of the recursion.  The portal is read again
after each call. -/
def portalDestroy : ℕ → Option ℕ → PortalHeap → Exec PortalHeap
  | _, none, h => .ok h
  | 0, some _, _ => .error .hang
  | n + 1, some a, h => do
      let portal ← deref h.portals a
      let h ← portalDestroy n portal.left h
      let portal ← deref h.portals a
      let h ← portalDestroy n portal.right h
      let portal ← deref h.portals a
      match portal.pages with
      | none => .error .null
      | some t => do
          let slots ← deref h.tables t
          let h ← destroyPages h slots
          .ok { h with
            tables := eraseAll h.tables [t]
            portals := eraseAll h.portals [a]
            portalVisits := h.portalVisits ++ [a] }

/-! ### Trees of objects -/

/-- A tree of portals by their addresses, each with its table and the slots of that. -/
inductive PortalShape where
  | nil
  | node (addr table : ℕ) (slots : List (Option ℕ)) (left right : PortalShape)

namespace PortalShape

/-- The pointer to the tree. -/
def root : PortalShape → Option ℕ
  | nil => none
  | node a _ _ _ _ => some a

def depth : PortalShape → ℕ
  | nil => 0
  | node _ _ _ l r => max l.depth r.depth + 1

/-- The portals, in the order in which they are freed. -/
def addrs : PortalShape → List ℕ
  | nil => []
  | node a _ _ l r => l.addrs ++ r.addrs ++ [a]

/-- Their tables. -/
def tables : PortalShape → List ℕ
  | nil => []
  | node _ t _ l r => l.tables ++ r.tables ++ [t]

/-- The pages in the tables. -/
def pages : PortalShape → List ℕ
  | nil => []
  | node _ _ slots l r => l.pages ++ r.pages ++ slots.reduceOption

/-- No object is in the tree twice; in particular each portal has a table of its own. -/
structure Distinct (t : PortalShape) : Prop where
  addrs : t.addrs.Nodup
  tables : t.tables.Nodup
  pages : t.pages.Nodup

end PortalShape

/-- The tree is in memory. -/
def PortalHeap.HasShape (h : PortalHeap) : PortalShape → Prop
  | .nil => True
  | .node a t slots l r =>
      (∃ p, h.portals a = some ⟨p, some t, l.root, r.root⟩) ∧ h.tables t = some slots ∧
        (∀ x ∈ slots.reduceOption, (h.pages x).isSome) ∧ h.HasShape l ∧ h.HasShape r

namespace PortalHeap

/-- The frames that the pages refer to, with repetitions. -/
def refs (h : PortalHeap) (xs : List ℕ) : List ℕ :=
  xs.filterMap fun x => (h.pages x).map PageObject.frame

/-- The counts of the frames. -/
def counts (h : PortalHeap) : RefCounts ℕ := ⟨fun f => (h.frames f).refcnt, []⟩

/-- Memory after these portals, tables and pages were destroyed. -/
def released (h : PortalHeap) (as ts xs : List ℕ) : PortalHeap where
  portals := eraseAll h.portals as
  tables := eraseAll h.tables ts
  pages := eraseAll h.pages xs
  frames f := ⟨(h.frames f).paddr, (h.counts.releaseAll (h.refs xs)).count f⟩
  pmmFrees := h.pmmFrees ++
    (h.counts.releaseAll (h.refs xs)).freed.map fun f => (h.frames f).paddr
  portalVisits := h.portalVisits ++ as
  pageVisits := h.pageVisits ++ xs

end PortalHeap

/-- **The destruction is exact**: every portal and every page is visited once, the count of each
frame goes down by the number of the pages that refer to it, and the frames that lose their
last reference, and no others, go to `pmm_free` once. -/
structure DestroyedExactly (t : PortalShape) (h h' : PortalHeap) : Prop where
  portals : ∃ visits, h'.portalVisits = h.portalVisits ++ visits ∧
    ∀ a, visits.count a = if a ∈ t.addrs then 1 else 0
  pages : ∃ visits, h'.pageVisits = h.pageVisits ++ visits ∧
    ∀ x, visits.count x = if x ∈ t.pages then 1 else 0
  refcnt : ∀ f, (h'.frames f).refcnt = (h.frames f).refcnt - (h.refs t.pages).count f
  frees : ∃ back : List ℕ, h'.pmmFrees = h.pmmFrees ++ back.map (fun f => (h.frames f).paddr) ∧
    back.Nodup ∧ ∀ f, f ∈ back ↔ f ∈ h.refs t.pages ∧ (h'.frames f).refcnt = 0

/-! ### Composition -/

section Composition

variable {h : PortalHeap} {as ts xs as' ts' xs' : List ℕ}

theorem released_nil : h.released [] [] [] = h := by
  ext1
  · exact eraseAll_nil
  · exact eraseAll_nil
  · exact eraseAll_nil
  · rfl
  · exact List.append_nil _
  · exact List.append_nil _
  · exact List.append_nil _

/-- The pages that are left refer to the same frames. -/
theorem refs_released (hdisj : xs.Disjoint xs') :
    (h.released as ts xs).refs xs' = h.refs xs' := by
  apply List.filterMap_congr
  intro x hx
  exact congrArg _ (eraseAll_of_notMem fun hc => hdisj hc hx)

theorem refs_append : h.refs (xs ++ xs') = h.refs xs ++ h.refs xs' := List.filterMap_append

/-- **One part of the tree after the other.** -/
theorem released_released (hdisj : xs.Disjoint xs') :
    (h.released as ts xs).released as' ts' xs'
      = h.released (as ++ as') (ts ++ ts') (xs ++ xs') := by
  have hcounts : (h.released as ts xs).counts
      = ⟨(h.counts.releaseAll (h.refs xs)).count, []⟩ := rfl
  have hall : h.counts.releaseAll (h.refs (xs ++ xs'))
      = (h.counts.releaseAll (h.refs xs)).releaseAll (h.refs xs') := by
    rw [refs_append, RefCounts.releaseAll_append]
  have hcount : ∀ f, ((h.released as ts xs).counts.releaseAll (h.refs xs')).count f
      = (h.counts.releaseAll (h.refs (xs ++ xs'))).count f := by
    intro f
    rw [hall, hcounts, RefCounts.count_releaseAll,
      RefCounts.count_releaseAll (h.counts.releaseAll _)]
  ext1
  · exact eraseAll_append
  · exact eraseAll_append
  · exact eraseAll_append
  · funext f
    show FrameObject.mk _ _ = FrameObject.mk _ _
    rw [refs_released hdisj, hcount]
    rfl
  · show h.pmmFrees ++ _ ++ _ = h.pmmFrees ++ _
    rw [refs_released hdisj, hcounts, hall, RefCounts.freed_releaseAll (h.counts.releaseAll _),
      List.map_append, List.append_assoc]
    rfl
  · exact List.append_assoc _ _ _
  · exact List.append_assoc _ _ _

end Composition

/-! ### The pages of a portal -/

section Pages

variable {h : PortalHeap} {as ts xs : List ℕ} {a : ℕ}

theorem deref_of_some {β : Type} {m : ℕ → Option β} {x : β} (h : m a = some x) :
    deref m a = .ok x := by
  rw [deref, h]

/-- One page gives up its reference. -/
theorem destroyPage_eq (ha : (h.pages a).isSome) :
    destroyPage h a = .ok (h.released [] [] [a]) := by
  obtain ⟨page, hpage⟩ := Option.isSome_iff_exists.mp ha
  have hrefs : h.refs [a] = [page.frame] := by
    simp [PortalHeap.refs, hpage]
  refine Exec.bind_eq_ok.mpr ⟨page, deref_of_some hpage, congrArg _ ?_⟩
  ext1
  · exact eraseAll_nil.symm
  · exact eraseAll_nil.symm
  · rfl
  · funext f
    show _ = FrameObject.mk (h.frames f).paddr _
    rw [hrefs]
    show Function.update h.frames page.frame _ f
      = ⟨(h.frames f).paddr, Function.update h.counts.count page.frame _ f⟩
    rcases eq_or_ne f page.frame with rfl | hne
    · rw [Function.update_self, Function.update_self]
      rfl
    · rw [Function.update_of_ne hne, Function.update_of_ne hne]
      rfl
  · show _ = h.pmmFrees ++ _
    rw [hrefs]
    show (if (h.frames page.frame).refcnt - 1 = 0 then _ else _) = h.pmmFrees ++
      List.map _ (if (h.frames page.frame).refcnt - 1 = 0 then [] ++ [page.frame] else [])
    split_ifs
    · rfl
    · exact (List.append_nil _).symm
  · exact (List.append_nil _).symm
  · rfl

theorem isSome_released {x : ℕ} (hx : (h.pages x).isSome) (hnot : x ∉ xs) :
    ((h.released as ts xs).pages x).isSome := by
  show (eraseAll h.pages xs x).isSome
  rwa [eraseAll_of_notMem hnot]

/-- All pages of a table do. -/
theorem destroyPages_eq {slots : List (Option ℕ)}
    (hslots : ∀ x ∈ slots.reduceOption, (h.pages x).isSome) (hnodup : slots.reduceOption.Nodup) :
    destroyPages h slots = .ok (h.released [] [] slots.reduceOption) := by
  induction slots generalizing h with
  | nil => exact congrArg _ released_nil.symm
  | cons slot slots ih =>
      cases slot with
      | none =>
          rw [List.reduceOption_cons_of_none] at hslots hnodup ⊢
          exact ih hslots hnodup
      | some a =>
          rw [List.reduceOption_cons_of_some] at hslots hnodup ⊢
          obtain ⟨ha, hrest⟩ := List.forall_mem_cons.mp hslots
          obtain ⟨hnot, hnodup⟩ := List.nodup_cons.mp hnodup
          have hleft : ∀ x ∈ slots.reduceOption,
              ((h.released [] [] [a]).pages x).isSome := fun x hx =>
            isSome_released (hrest x hx) fun hc => hnot (List.mem_singleton.mp hc ▸ hx)
          have hdisj : [a].Disjoint slots.reduceOption :=
            List.singleton_disjoint.mpr hnot
          refine Exec.bind_eq_ok.mpr ⟨_, destroyPage_eq ha, (ih hleft hnodup).trans ?_⟩
          rw [released_released hdisj]
          rfl

end Pages

/-! ### The tree -/

section Tree

variable {h : PortalHeap} {as ts xs : List ℕ} {t : PortalShape}

/-- A tree stays in memory if other objects are destroyed. -/
theorem PortalHeap.HasShape.released (ht : h.HasShape t) (has : as.Disjoint t.addrs)
    (hts : ts.Disjoint t.tables) (hxs : xs.Disjoint t.pages) :
    (h.released as ts xs).HasShape t := by
  induction t with
  | nil => exact trivial
  | node a table slots l r ihl ihr =>
      obtain ⟨⟨p, hp⟩, htable, hpages, hl, hr⟩ := ht
      simp only [PortalShape.addrs, PortalShape.tables, PortalShape.pages,
        List.disjoint_append_right, List.disjoint_singleton] at has hts hxs
      refine ⟨⟨p, ?_⟩, ?_, fun x hx => ?_, ihl hl has.1.1 hts.1.1 hxs.1.1,
        ihr hr has.1.2 hts.1.2 hxs.1.2⟩
      · exact (eraseAll_of_notMem has.2).trans hp
      · exact (eraseAll_of_notMem hts.2).trans htable
      · exact isSome_released (hpages x hx) fun hc => hxs.2 hc hx

/-- The subtrees are of distinct objects and apart, and the node has none of theirs. -/
theorem PortalShape.Distinct.node {a table : ℕ} {slots : List (Option ℕ)} {l r : PortalShape}
    (hd : (PortalShape.node a table slots l r).Distinct) :
    l.Distinct ∧ r.Distinct ∧
      (l.addrs.Disjoint r.addrs ∧ l.tables.Disjoint r.tables ∧ l.pages.Disjoint r.pages) ∧
      a ∉ l.addrs ++ r.addrs ∧ table ∉ l.tables ++ r.tables ∧
      slots.reduceOption.Nodup ∧ (l.pages ++ r.pages).Disjoint slots.reduceOption := by
  obtain ⟨haddrs, htables, hpages⟩ := hd
  obtain ⟨hsub, -, ha⟩ := List.nodup_append'.mp haddrs
  obtain ⟨htsub, -, ht⟩ := List.nodup_append'.mp htables
  obtain ⟨hxsub, hslots, hx⟩ := List.nodup_append'.mp hpages
  obtain ⟨hl, hr, hdisj⟩ := List.nodup_append'.mp hsub
  obtain ⟨htl, htr, htdisj⟩ := List.nodup_append'.mp htsub
  obtain ⟨hxl, hxr, hxdisj⟩ := List.nodup_append'.mp hxsub
  exact ⟨⟨hl, htl, hxl⟩, ⟨hr, htr, hxr⟩, ⟨hdisj, htdisj, hxdisj⟩, List.disjoint_singleton.mp ha,
    List.disjoint_singleton.mp ht, hslots, hx⟩

/-- The call for one portal, if those for its subtrees return and leave it in memory. -/
theorem portalDestroy_node {n a table : ℕ} {slots : List (Option ℕ)} {p : Portal}
    {l r : Option ℕ} {h₁ h₂ : PortalHeap} (hp : h.portals a = some ⟨p, some table, l, r⟩)
    (hl : portalDestroy n l h = .ok h₁) (hp₁ : h₁.portals a = some ⟨p, some table, l, r⟩)
    (hr : portalDestroy n r h₁ = .ok h₂) (hp₂ : h₂.portals a = some ⟨p, some table, l, r⟩)
    (ht : h₂.tables table = some slots)
    (hslots : ∀ x ∈ slots.reduceOption, (h₂.pages x).isSome)
    (hnodup : slots.reduceOption.Nodup) :
    portalDestroy (n + 1) (some a) h = .ok (h₂.released [a] [table] slots.reduceOption) := by
  rw [portalDestroy]
  refine Exec.bind_eq_ok.mpr ⟨_, deref_of_some hp, ?_⟩
  refine Exec.bind_eq_ok.mpr ⟨_, hl, ?_⟩
  refine Exec.bind_eq_ok.mpr ⟨_, deref_of_some hp₁, ?_⟩
  refine Exec.bind_eq_ok.mpr ⟨_, hr, ?_⟩
  refine Exec.bind_eq_ok.mpr ⟨_, deref_of_some hp₂, ?_⟩
  refine Exec.bind_eq_ok.mpr ⟨_, deref_of_some ht, ?_⟩
  refine Exec.bind_eq_ok.mpr ⟨_, destroyPages_eq hslots hnodup, congrArg _ ?_⟩
  ext1
  · show eraseAll (eraseAll h₂.portals []) [a] = eraseAll h₂.portals [a]
    rw [eraseAll_nil]
  · show eraseAll (eraseAll h₂.tables []) [table] = eraseAll h₂.tables [table]
    rw [eraseAll_nil]
  · rfl
  · rfl
  · rfl
  · show h₂.portalVisits ++ [] ++ [a] = h₂.portalVisits ++ [a]
    rw [List.append_nil]
  · rfl

/-- **`portal_destroy` comes to its end** on a tree of distinct objects, and destroys these. -/
theorem portalDestroy_eq {n : ℕ} (ht : h.HasShape t) (hd : t.Distinct) (hn : t.depth ≤ n) :
    portalDestroy n t.root h = .ok (h.released t.addrs t.tables t.pages) := by
  induction t generalizing h n with
  | nil =>
      rw [PortalShape.root, portalDestroy]
      exact congrArg _ released_nil.symm
  | node a table slots l r ihl ihr =>
      obtain ⟨⟨p, hp⟩, htable, hpages, hl, hr⟩ := ht
      obtain ⟨hdl, hdr, ⟨haddrs, htables, hxs⟩, ha, hta, hslots, hself⟩ := hd.node
      cases n with
      | zero => exact absurd hn (Nat.not_succ_le_zero _)
      | succ n =>
          have hmax : max l.depth r.depth ≤ n := Nat.le_of_succ_le_succ hn
          have hleft := ihl hl hdl (le_of_max_le_left hmax)
          -- the right subtree is still there when the left one is gone
          have hright := ihr (hr.released haddrs htables hxs) hdr (le_of_max_le_right hmax)
          rw [released_released hxs] at hright
          have hkept := fun hc => ha (List.mem_append_left r.addrs hc)
          refine (portalDestroy_node hp hleft ((eraseAll_of_notMem hkept).trans hp) hright
            ((eraseAll_of_notMem ha).trans hp) ((eraseAll_of_notMem hta).trans htable)
            (fun x hx => isSome_released (hpages x hx) fun hc => hself hc hx) hslots).trans ?_
          rw [released_released hself]
          rfl

end Tree

/-! ### Exactness -/

/-- **The reference counting of `portal_destroy` is exact.**  On every tree of distinct objects
in memory, with counts that are not below the number of the references from the tree, it
comes to its end with fuel for the depth of the tree, and every portal, page and frame is
treated as often as it should be. -/
theorem portal_destroy_exact {h : PortalHeap} {t : PortalShape} (ht : h.HasShape t)
    (hd : t.Distinct) (hcnt : ∀ f, ((h.refs t.pages).count f : ℤ) ≤ (h.frames f).refcnt)
    {n : ℕ} (hn : t.depth ≤ n) :
    ∃ h', portalDestroy n t.root h = .ok h' ∧ DestroyedExactly t h h' := by
  have hcount : ∀ f, ((h.released t.addrs t.tables t.pages).frames f).refcnt
      = (h.frames f).refcnt - (h.refs t.pages).count f := fun f =>
    RefCounts.count_releaseAll h.counts _ f
  obtain ⟨back, hback, hnodup, hmem⟩ := RefCounts.exists_freed h.counts (h.refs t.pages) hcnt
  refine ⟨_, portalDestroy_eq ht hd hn, ⟨t.addrs, rfl, fun _ => hd.addrs.count⟩,
    ⟨t.pages, rfl, fun _ => hd.pages.count⟩, hcount, back, ?_, hnodup, fun f => ?_⟩
  · show h.pmmFrees ++ List.map _ _ = _
    rw [hback]
    rfl
  · rw [hmem f, hcount]
    refine and_congr_right fun _ => ?_
    show (h.frames f).refcnt = _ ↔ _
    omega

/-- Three portals with a page each.  Two of the pages share the frame 31; the third refers to
the frame 32, which has a reference from elsewhere. -/
def threeShape : PortalShape :=
  .node 1 11 [some 21, none] (.node 2 12 [some 22] .nil .nil) (.node 3 13 [none, some 23] .nil .nil)

def threeHeap : PortalHeap where
  portals a :=
    if a = 1 then some ⟨⟨0, 0, "", 0, 0, 0⟩, some 11, some 2, some 3⟩
    else if a = 2 ∨ a = 3 then some ⟨⟨0, 0, "", 0, 0, 0⟩, some (a + 10), none, none⟩
    else none
  tables t :=
    if t = 11 then some [some 21, none] else if t = 12 then some [some 22]
    else if t = 13 then some [none, some 23] else none
  pages x :=
    if x = 21 ∨ x = 22 then some ⟨0x400000, 31⟩ else if x = 23 then some ⟨0x400000, 32⟩ else none
  frames f := ⟨BitVec.ofNat 64 (f * 0x1000), if f = 31 ∨ f = 32 then 2 else 0⟩
  pmmFrees := []
  portalVisits := []
  pageVisits := []

theorem portal_destroy_exact_three :
    ∃ h', portalDestroy 2 (some 1) threeHeap = .ok h' ∧ DestroyedExactly threeShape threeHeap h' ∧
      (h'.frames 31).refcnt = 0 ∧ (h'.frames 32).refcnt = 1 := by
  have hrefs : threeHeap.refs threeShape.pages = [31, 32, 31] := rfl
  have hshape : threeHeap.HasShape threeShape :=
    ⟨⟨_, rfl⟩, rfl, by decide, ⟨⟨_, rfl⟩, rfl, by decide, trivial, trivial⟩,
      ⟨_, rfl⟩, rfl, by decide, trivial, trivial⟩
  have hcnt : ∀ f, ((threeHeap.refs threeShape.pages).count f : ℤ)
      ≤ (threeHeap.frames f).refcnt := by
    intro f
    rw [hrefs]
    by_cases h31 : f = 31
    · subst h31
      decide
    · by_cases h32 : f = 32
      · subst h32
        decide
      · have hzero : List.count f [31, 32, 31] = 0 :=
          List.count_eq_zero_of_not_mem (by simp [h31, h32])
        rw [hzero]
        show (0 : ℤ) ≤ if f = 31 ∨ f = 32 then 2 else 0
        split_ifs <;> decide
  obtain ⟨h', hcall, hexact⟩ := portal_destroy_exact hshape
    ⟨by decide, by decide, by decide⟩ hcnt (show threeShape.depth ≤ 2 by decide)
  refine ⟨h', hcall, hexact, ?_, ?_⟩
  · rw [hexact.refcnt, hrefs]
    decide
  · rw [hexact.refcnt, hrefs]
    decide

end Rock
