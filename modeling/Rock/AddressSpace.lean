/-
Rock/AddressSpace.lean

What page tables are for, and that the walks of `Rock.Paging` do it.

An address space is cut into regions of 2 MiB.  A region is a `Slot`: empty,
a table of 512 pages, or one large page (possibly a stale one, whose `P` was
cleared and whose `PS` was not).  `map_page`, `unmap_page` and `page_entry`
change or read one slot, and the functions of that name on `Slot` say how.

`slotAt` reads the slot of a region out of memory.  The invariant `Forest`
says that the tables of all roots form a forest of distinct frames, all taken
from the allocator, with large entries in page directories only.  Under it the
three walks act on the slots (`Forest.mapPage`, `Forest.unmapPage`,
`Forest.pageEntry_eq`) and the processor reads the same slots
(`Forest.translate_eq`).

The one proviso is that of `Slot.Open`: `map_page` of a small page must not meet
a large page that is present.
-/
import Rock.Paging

namespace Rock

open TableTree

/-! ### Slots -/

/-- The state of a region of 2 MiB. -/
inductive Slot where
  | absent
  | table (pages : BitVec 9 → Word)
  | large (entry : Word)

namespace Slot

/-- The page entries of a region, as a new table would hold them. -/
def pages : Slot → BitVec 9 → Word
  | .table f => f
  | _ => 0

def mapPage (s : Slot) (i : BitVec 9) (paddr flags : Word) : Slot :=
  if has flags flagPS then .large (paddr ||| flags)
  else .table (Function.update s.pages i (paddr ||| flags))

def unmapPage (i : BitVec 9) : Slot → ℕ × Slot
  | .absent => (0, .absent)
  | .table f => (0x1000, .table (Function.update f i (f i &&& ~~~flagP)))
  | .large e => (0x200000, .large (e &&& ~~~flagP))

/-- The entry `page_entry` points to. -/
def pageEntry (i : BitVec 9) : Slot → Option Word
  | .absent => none
  | .table f => some (f i)
  | .large e => some e

def translate (i : BitVec 9) : Slot → Option Translation
  | .absent => none
  | .table f => if has (f i) flagP then some (decode .small (f i)) else none
  | .large e => if has e flagP then some (decode .large e) else none

/-- The region is not a large page that is present. -/
def Open : Slot → Prop
  | .large e => ¬ has e flagP
  | _ => True

instance : DecidablePred Open := fun s =>
  match s with
  | .absent => inferInstanceAs (Decidable True)
  | .table _ => inferInstanceAs (Decidable True)
  | .large e => inferInstanceAs (Decidable (¬ has e flagP))

theorem size_translate {s : Slot} {i : BitVec 9} {tr : Translation}
    (h : s.translate i = some tr) : tr.size ≠ .huge := by
  rcases s with - | f | e
  · simp [translate] at h
  · obtain ⟨-, h⟩ := Option.ite_none_right_eq_some.mp h
    simp [← Option.some.inj h, decode]
  · obtain ⟨-, h⟩ := Option.ite_none_right_eq_some.mp h
    simp [← Option.some.inj h, decode]

/-- A slot is open exactly when no address of it is translated by a large page. -/
theorem open_iff {s : Slot} (i : BitVec 9) :
    s.Open ↔ ∀ tr, s.translate i = some tr → tr.size ≠ .large := by
  rcases s with - | f | e
  · simp [Open, translate]
  · by_cases h : has (f i) flagP <;> simp [Open, translate, h, decode]
  · by_cases h : has e flagP <;> simp [Open, translate, h, decode]

/-- An open slot keeps its translations when it is made a table. -/
theorem translate_pages {s : Slot} (hs : s.Open) (i : BitVec 9) :
    (Slot.table s.pages).translate i = s.translate i := by
  rcases s with - | f | e
  · simp [translate, pages]
  · rfl
  · have he : ¬ has e flagP := hs
    simp [translate, pages, he]

theorem translate_mapPage {s : Slot} {paddr flags : Word} (hP : has flags flagP)
    (hs : ¬ has flags flagPS → s.Open) (i j : BitVec 9) :
    (s.mapPage i paddr flags).translate j
      = if has flags flagPS ∨ j = i then some (decode (mappedSize flags) (paddr ||| flags))
        else s.translate j := by
  have hleaf : has (paddr ||| flags) flagP := has_or_right hP
  by_cases hPS : has flags flagPS
  · have hsize : mappedSize flags = .large := if_pos hPS
    simp [mapPage, translate, hPS, hleaf, hsize]
  · have hsize : mappedSize flags = .small := if_neg hPS
    rcases eq_or_ne j i with rfl | hj
    · simp [mapPage, translate, hPS, hleaf, hsize]
    · rw [if_neg (by simp [hPS, hj]), ← translate_pages (hs hPS) j]
      simp [mapPage, translate, hPS, hj]

/-- Unmapping takes away the page that translates the address, and no other. -/
theorem translate_unmapPage (s : Slot) (i j : BitVec 9) :
    (s.unmapPage i).2.translate j
      = if ∃ tr, s.translate i = some tr ∧ (tr.size = .large ∨ j = i) then none
        else s.translate j := by
  rcases s with - | f | e
  · simp [unmapPage, translate]
  · rcases eq_or_ne j i with rfl | hj
    · by_cases hf : has (f j) flagP <;> simp [unmapPage, translate, not_has_clear, hf]
    · by_cases hf : has (f i) flagP <;> simp [unmapPage, translate, hf, hj, decode]
  · by_cases he : has e flagP <;> simp [unmapPage, translate, not_has_clear, he, decode]

end Slot

/-! ### Slots in memory -/

/-- The table below an entry. -/
def subtable (e : Word) : Option Word :=
  if has e flagP ∧ ¬ has e flagPS then some (tableOf e) else none

theorem subtable_eq_some {e t : Word} :
    subtable e = some t ↔ has e flagP ∧ ¬ has e flagPS ∧ tableOf e = t := by
  unfold subtable
  split_ifs with h
  · simp [h]
  · constructor
    · exact fun hc => absurd hc (by simp)
    · exact fun hc => absurd ⟨hc.1, hc.2.1⟩ h

theorem subtable_of_PS {e : Word} (h : has e flagPS) : subtable e = none :=
  if_neg fun hc => hc.2 h

@[simp] theorem subtable_zero : subtable 0#64 = none := by
  simp [subtable]

/-- The slot a directory entry stands for. -/
def entrySlot (mem : Mem) (e : Word) : Slot :=
  if has e flagPS then .large e
  else if has e flagP then .table (mem (tableOf e))
  else .absent

/-- The slot of the region `upper`, `i` under the top-level table `t`. -/
def slotAt (mem : Mem) (t : Word) (upper : List (BitVec 9)) (i : BitVec 9) : Slot :=
  match tableAt subtable mem t upper with
  | none => .absent
  | some s => entrySlot mem (mem s i)

section SlotAt

variable {mem mem' : Mem} {t s : Word} {q : List (BitVec 9)} {j : BitVec 9}

theorem slotAt_some (h : tableAt subtable mem t q = some s) :
    slotAt mem t q j = entrySlot mem (mem s j) := by
  simp [slotAt, h]

theorem slotAt_none (h : tableAt subtable mem t q = none) : slotAt mem t q j = .absent := by
  simp [slotAt, h]

theorem slotAt_open (h : tableAt subtable mem t q = some s) :
    (slotAt mem t q j).Open ↔ ¬ (has (mem s j) flagP ∧ has (mem s j) flagPS) := by
  rw [slotAt_some h]
  unfold entrySlot
  split_ifs with h₁ h₂ <;> simp_all [Slot.Open]

/-- A slot depends on its directory entry and on the page table below it. -/
theorem slotAt_congr (hq : tableAt subtable mem' t q = tableAt subtable mem t q)
    (hentry : ∀ s, tableAt subtable mem t q = some s → mem' s j = mem s j)
    (hpages : ∀ u, tableAt subtable mem t (q ++ [j]) = some u → mem' u = mem u) :
    slotAt mem' t q j = slotAt mem t q j := by
  rcases hs : tableAt subtable mem t q with - | s
  · rw [slotAt_none hs, slotAt_none (hq.trans hs)]
  · rw [slotAt_some hs, slotAt_some (hq.trans hs), hentry s hs]
    unfold entrySlot
    split_ifs with h₁ h₂
    · rfl
    · rw [hpages (tableOf (mem s j))]
      rw [tableAt_snoc, hs]
      exact subtable_eq_some.mpr ⟨h₂, h₁, rfl⟩
    · rfl

/-- The slot above a page table holds its entries. -/
theorem slotAt_eq_table (h : tableAt subtable mem t (q ++ [j]) = some s) :
    slotAt mem t q j = .table (mem s) := by
  rw [tableAt_snoc] at h
  obtain ⟨u, hu, hs⟩ := Option.bind_eq_some_iff.mp h
  obtain ⟨hP, hPS, rfl⟩ := subtable_eq_some.mp hs
  rw [slotAt_some hu, entrySlot, if_neg hPS, if_pos hP]

end SlotAt

section Writes

variable {R : Type*} {root : R → Word} {d : ℕ} {mem : Mem} {r : R} {p : List (BitVec 9)}
  {t : Word} {i j : BitVec 9} {e : Word}

/-- A write in a page table changes the slot above it. -/
theorem slotAt_put_last (hsep : Separated subtable root d mem)
    (ht : tableAt subtable mem (root r) (p ++ [i]) = some t) (hp : p.length + 1 = d) :
    slotAt (put mem t j e) (root r) p i = .table (Function.update (mem t) j e) := by
  rw [← put_same_table]
  refine slotAt_eq_table ?_
  rw [tableAt_put_last hsep ht (by simpa using hp) (by simp [hp])]
  exact ht

theorem slotAt_put_last_frame (hsep : Separated subtable root d mem)
    (ht : tableAt subtable mem (root r) (p ++ [i]) = some t) (hp : p.length + 1 = d)
    {r' : R} {q : List (BitVec 9)} {k : BitVec 9} (hq : q.length + 1 = d)
    (hne : ¬ (r' = r ∧ q = p ∧ k = i)) :
    slotAt (put mem t j e) (root r') q k = slotAt mem (root r') q k := by
  have hlen : (p ++ [i]).length = d := by simpa using hp
  refine slotAt_congr (tableAt_put_last hsep ht hlen (by omega)) ?_ ?_
  · -- a directory is not a page table
    intro s hs
    refine put_of_ne e (.inl ?_)
    rintro rfl
    have := (hsep (by omega) hlen.le hs ht).2
    have := congrArg List.length this
    omega
  · intro u hu
    refine put_other_table _ _ ?_
    rintro rfl
    obtain ⟨hr, heq⟩ := hsep (by simp [hq]) hlen.le hu ht
    obtain ⟨hqp, hki⟩ := List.append_inj' heq rfl
    exact hne ⟨hr, hqp, by simpa using hki⟩

/-- A large entry in a directory is the whole slot. -/
theorem slotAt_put_cut (hsep : Separated subtable root d mem)
    (ht : tableAt subtable mem (root r) p = some t) (hp : p.length + 1 = d)
    (he : has e flagPS) :
    slotAt (put mem t i e) (root r) p i = .large e := by
  rw [slotAt_some (tableAt_put_self hsep ht (by omega)), put_self, entrySlot, if_pos he]

theorem slotAt_put_cut_frame (hsep : Separated subtable root d mem)
    (ht : tableAt subtable mem (root r) p = some t) (hp : p.length + 1 = d)
    {r' : R} {q : List (BitVec 9)} {k : BitVec 9} (hq : q.length + 1 = d)
    (hne : ¬ (r' = r ∧ q = p ∧ k = i)) :
    slotAt (put mem t i e) (root r') q k = slotAt mem (root r') q k := by
  refine slotAt_congr ?_ ?_ ?_
  · refine tableAt_put_aside hsep ht (by omega) (by omega) ?_
    rintro ⟨-, hpre⟩
    have := hpre.length_le
    simp at this
    omega
  · intro s hs
    refine put_of_ne e ?_
    by_contra hcon
    push Not at hcon
    obtain ⟨rfl, rfl⟩ := hcon
    obtain ⟨hr, hqp⟩ := hsep (by omega) (by omega) hs ht
    exact hne ⟨hr, hqp, rfl⟩
  · -- a page table is not a directory
    intro u hu
    refine put_other_table _ _ ?_
    rintro rfl
    have := (hsep (by simp [hq]) (by omega) hu ht).2
    have := congrArg List.length this
    simp at this
    omega

end Writes

/-! ### The forest of tables -/

variable {σ : Type} {R : Type*}

/-- A frame that may be written as a table: taken from the allocator, and a
top-level table or one that `map_page` allocated. -/
structure Known (src : FrameSource σ) (root : R → Word) (m : Machine σ) (t : Word) : Prop where
  frame : IsFrame .small t
  live : src.Live m.pmm t
  owned : t ∈ Set.range root ∨ t ∈ m.tables

/-- **The invariant of a set of page tables** with page tables at depth `d`. -/
structure Forest (src : FrameSource σ) (root : R → Word) (d : ℕ) (m : Machine σ) : Prop where
  sep : Separated subtable root d m.mem
  small : ∀ {r q t i}, q.length + 1 < d → tableAt subtable m.mem (root r) q = some t →
    ¬ (has (m.mem t i) flagP ∧ has (m.mem t i) flagPS)
  known : ∀ {r q t}, q.length ≤ d → tableAt subtable m.mem (root r) q = some t →
    Known src root m t
  writes : ∀ w ∈ m.writes, w.page ∈ Set.range root ∨ w.page ∈ m.tables

namespace Forest

variable {src : FrameSource σ} {root : R → Word} {d : ℕ} {m : Machine σ} {r : R}
  {p : List (BitVec 9)} {t : Word} {i : BitVec 9} {e : Word}

/-- A table at another depth is another frame. -/
theorem ne_of_length (hF : Forest src root d m) {r' : R} {q : List (BitVec 9)} {s : Word}
    (hs : tableAt subtable m.mem (root r') q = some s) (hq : q.length ≤ d)
    (ht : tableAt subtable m.mem (root r) p = some t) (hp : p.length ≤ d)
    (hlen : q.length ≠ p.length) : s ≠ t := by
  rintro rfl
  exact hlen (congrArg List.length (hF.sep hq hp hs ht).2)

/-- A write in a table that adds no path. -/
theorem store (hF : Forest src root d m) (ht : tableAt subtable m.mem (root r) p = some t)
    (hp : d ≤ p.length + 1) (hpd : p.length ≤ d)
    (hsep : Separated subtable root d (put m.mem t i e))
    (hold : ∀ {r' q s}, q.length ≤ d → tableAt subtable (put m.mem t i e) (root r') q = some s →
      tableAt subtable m.mem (root r') q = some s) :
    Forest src root d (m.store t i e) where
  sep := hsep
  small := by
    intro r' q s j hq hs
    have hs' := hold (by omega) hs
    have hne : s ≠ t := hF.ne_of_length hs' (by omega) ht hpd (by omega)
    rw [Machine.store_mem, put_of_ne e (.inl hne)]
    exact hF.small hq hs'
  known := by
    intro r' q s hq hs
    exact ⟨(hF.known hq (hold hq hs)).frame, (hF.known hq (hold hq hs)).live,
      (hF.known hq (hold hq hs)).owned⟩
  writes := by
    intro w hw
    rcases List.mem_cons.mp hw with rfl | hw
    · exact (hF.known hpd ht).owned
    · exact hF.writes w hw

/-- A write in a page table. -/
theorem store_last (hF : Forest src root d m) (ht : tableAt subtable m.mem (root r) p = some t)
    (hp : p.length = d) : Forest src root d (m.store t i e) := by
  refine hF.store ht (by omega) (by omega) (hF.sep.put_last ht hp) ?_
  intro r' q s hq hs
  rwa [tableAt_put_last hF.sep ht hp hq] at hs

/-- A write of a large entry in a page directory. -/
theorem store_large (hF : Forest src root d m) (ht : tableAt subtable m.mem (root r) p = some t)
    (hp : p.length + 1 = d) (he : has e flagPS) : Forest src root d (m.store t i e) := by
  have hcut := subtable_of_PS he
  refine hF.store ht (by omega) (by omega) (hF.sep.put_cut ht (by omega) hcut) ?_
  intro r' q s hq hs
  exact ((tableAt_put_cut hF.sep ht (by omega) hcut hq).mp hs).1

/-! ### Linking tables -/

section Link

variable {extra flags f : Word} {s : σ}

/-- The entry with which `map_page` links the table `f`. -/
def linkEntry (extra flags f : Word) : Word := f ||| (flags &&& tableFlagsMask) ||| extra

theorem subtable_linkEntry (hf : IsFrame .small f) (hP : has flags flagP)
    (hflags : flags &&& leafMask = flags) (hextra : extra &&& flagRW = extra) :
    subtable (linkEntry extra flags f) = some f :=
  subtable_eq_some.mpr
    ⟨has_link_P hf hP, not_has_link_PS hf hflags hextra, tableOf_link hf hflags hextra⟩

/-- A frame that the allocator returns is not a table yet. -/
theorem fresh (hF : Forest src root d m) (ha : src.alloc m.pmm = some (f, s)) :
    Fresh subtable root d m.mem f := by
  intro r' q hq hs
  exact src.alloc_fresh ha (hF.known hq hs).live

theorem blank (j : BitVec 9) : subtable ((0 : BitVec 9 → Word) j) = none := subtable_zero

variable (hF : Forest src root d m) (ht : tableAt subtable m.mem (root r) p = some t)
  (hp : p.length < d) (ha : src.alloc m.pmm = some (f, s))
  (he : subtable e = some f) (hold : subtable (m.mem t i) = none)

include hF ht hp ha he hold

/-- The paths after a table was linked. -/
theorem tableAt_grant {r' : R} {q : List (BitVec 9)} (hq : q.length ≤ d) {u : Word} :
    tableAt subtable ((m.grant f s).store t i e).mem (root r') q = some u ↔
      (r' = r ∧ q = p ++ [i] ∧ u = f) ∨ tableAt subtable m.mem (root r') q = some u :=
  tableAt_link hF.sep ht hp (hF.fresh ha) he blank hold hq

omit ht hp he hold in
/-- A table of the old forest other than `t` holds what it held. -/
theorem grant_mem_other {r' : R} {q : List (BitVec 9)} {u : Word} (hq : q.length ≤ d)
    (hu : tableAt subtable m.mem (root r') q = some u) (hne : u ≠ t) :
    ((m.grant f s).store t i e).mem u = m.mem u := by
  have huf : u ≠ f := by
    rintro rfl
    exact hF.fresh ha r' q hq hu
  show put (Function.update m.mem f 0) t i e u = m.mem u
  rw [put_other_table _ _ hne, Function.update_of_ne huf]

omit he hold in
theorem grant_mem_same {j : BitVec 9} (hj : j ≠ i) :
    ((m.grant f s).store t i e).mem t j = m.mem t j := by
  have htf : t ≠ f := by
    rintro rfl
    exact hF.fresh ha r p hp.le ht
  show put (Function.update m.mem f 0) t i e t j = m.mem t j
  rw [put_of_ne e (.inr hj), Function.update_of_ne htf]

omit he hold in
theorem grant_mem_new : ((m.grant f s).store t i e).mem f = 0 := by
  have hft : f ≠ t := by
    rintro rfl
    exact hF.fresh ha r p hp.le ht
  show put (Function.update m.mem f 0) t i e f = 0
  rw [put_other_table _ _ hft, Function.update_self]

/-- **Linking a fresh table keeps the forest.** -/
theorem grant : Forest src root d ((m.grant f s).store t i e) where
  sep := hF.sep.put_link ht hp (hF.fresh ha) he blank hold
  small := by
    intro r' q u j hq hu
    rcases (tableAt_grant hF ht hp ha he hold (by omega)).mp hu with ⟨-, -, rfl⟩ | hu'
    · -- the new table is blank
      rw [grant_mem_new hF ht hp ha]
      exact fun h => not_has_zero _ h.1
    · rcases eq_or_ne u t with rfl | hut
      · rcases eq_or_ne j i with rfl | hj
        · rw [Machine.store_mem, put_self]
          exact fun h => (subtable_eq_some.mp he).2.1 h.2
        · rw [grant_mem_same hF ht hp ha hj]
          exact hF.small hq hu'
      · rw [grant_mem_other hF ha (by omega) hu' hut]
        exact hF.small hq hu'
  known := by
    intro r' q u hq hu
    rcases (tableAt_grant hF ht hp ha he hold hq).mp hu with ⟨-, -, rfl⟩ | hu'
    · exact ⟨src.alloc_frame ha, src.alloc_live ha, .inr (List.mem_cons_self ..)⟩
    · have hk := hF.known hq hu'
      exact ⟨hk.frame, src.alloc_mono ha hk.live, hk.owned.imp_right (List.mem_cons_of_mem _)⟩
  writes := by
    intro w hw
    rcases List.mem_cons.mp hw with rfl | hw
    · exact (hF.known hp.le ht).owned.imp_right (List.mem_cons_of_mem _)
    · exact (hF.writes w hw).imp_right (List.mem_cons_of_mem _)

/-- Linking a table leaves the other slots alone. -/
theorem slotAt_grant_frame {r' : R} {q : List (BitVec 9)} {k : BitVec 9} (hq : q.length + 1 = d)
    (hne : ¬ (r' = r ∧ q = p ∧ k = i)) :
    slotAt ((m.grant f s).store t i e).mem (root r') q k = slotAt m.mem (root r') q k := by
  by_cases hnew : r' = r ∧ q = p ++ [i]
  · -- the new table is a directory: it was missing, and is empty
    obtain ⟨rfl, rfl⟩ := hnew
    have hsome := (tableAt_grant hF ht hp ha he hold (by omega)).mpr (.inl ⟨rfl, rfl, rfl⟩)
    have hnone : tableAt subtable m.mem (root r') (p ++ [i]) = none := by
      rw [tableAt_snoc, ht]
      exact hold
    rw [slotAt_some hsome, slotAt_none hnone, grant_mem_new hF ht hp ha]
    simp [entrySlot]
  · have hiff : ∀ u, tableAt subtable ((m.grant f s).store t i e).mem (root r') q = some u ↔
        tableAt subtable m.mem (root r') q = some u := by
      intro u
      rw [tableAt_grant hF ht hp ha he hold (by omega)]
      exact or_iff_right fun h => hnew ⟨h.1, h.2.1⟩
    refine slotAt_congr (Option.ext hiff) ?_ ?_
    · intro u hu
      rcases eq_or_ne u t with rfl | hut
      · obtain ⟨hr, hqp⟩ := hF.sep (by omega) hp.le hu ht
        exact grant_mem_same hF ht hp ha fun hk => hne ⟨hr, hqp, hk⟩
      · rw [grant_mem_other hF ha (by omega) hu hut]
    · intro u hu
      have hlen : (q ++ [k]).length = d := by simpa using hq
      exact grant_mem_other hF ha hlen.le hu
        (hF.ne_of_length hu hlen.le ht hp.le (by omega))

/-- A page table linked in a directory makes its slot a blank table. -/
theorem slotAt_grant (hpd : p.length + 1 = d) :
    slotAt ((m.grant f s).store t i e).mem (root r) p i = .table 0 := by
  have hnew := (tableAt_grant hF ht hp ha he hold (by simp [hpd])).mpr (.inl ⟨rfl, rfl, rfl⟩)
  rw [slotAt_eq_table hnew, grant_mem_new hF ht hp ha]

end Link

end Forest

/-! ### The walks act on slots -/

/-- Nothing changes but the slot of the region `p`, `i` of the root `r`. -/
def SameElsewhere (root : R → Word) (d : ℕ) (mem mem' : Mem) (r : R) (p : List (BitVec 9))
    (i : BitVec 9) : Prop :=
  ∀ r' q k, q.length + 1 = d → ¬ (r' = r ∧ q = p ∧ k = i) →
    slotAt mem' (root r') q k = slotAt mem (root r') q k

namespace Forest

variable {src : FrameSource σ} {root : R → Word} {d : ℕ} {m m' : Machine σ} {r : R}
  {p upper : List (BitVec 9)} {t t' : Word} {i i1 i2 : BitVec 9} {extra flags paddr : Word}

/-- **One level of `map_page`** ends in the table below the entry; in a
directory it makes the slot a table. -/
theorem descend_spec (hF : Forest src root d m)
    (ht : tableAt subtable m.mem (root r) p = some t) (hp : p.length < d)
    (hopen : ¬ (has (m.mem t i) flagP ∧ has (m.mem t i) flagPS)) (hP : has flags flagP)
    (hflags : flags &&& leafMask = flags) (hextra : extra &&& flagRW = extra)
    (h : descend src extra flags m t i = .ok (t', m')) :
    Forest src root d m' ∧ tableAt subtable m'.mem (root r) (p ++ [i]) = some t' ∧
      SameElsewhere root d m.mem m'.mem r p i ∧
      (p.length + 1 = d →
        slotAt m'.mem (root r) p i = .table (slotAt m.mem (root r) p i).pages) := by
  unfold descend at h
  by_cases hpres : has (m.mem t i) flagP
  · -- the table is there
    rw [if_pos hpres] at h
    obtain ⟨rfl, rfl⟩ := Prod.mk.injEq .. ▸ Except.ok.inj h
    have hsub : tableAt subtable m.mem (root r) (p ++ [i]) = some (tableOf (m.mem t i)) := by
      rw [tableAt_snoc, ht]
      exact subtable_eq_some.mpr ⟨hpres, fun hPS => hopen ⟨hpres, hPS⟩, rfl⟩
    refine ⟨hF, hsub, fun _ _ _ _ _ => rfl, fun _ => ?_⟩
    rw [slotAt_eq_table hsub]
    rfl
  · rw [if_neg hpres] at h
    rcases ha : src.alloc m.pmm with - | ⟨f, s⟩
    · simp [ha] at h
    · simp only [ha, Except.ok.injEq, Prod.mk.injEq] at h
      obtain ⟨rfl, rfl⟩ := h
      have he : subtable (linkEntry extra flags f) = some f :=
        subtable_linkEntry (src.alloc_frame ha) hP hflags hextra
      have hold : subtable (m.mem t i) = none := if_neg fun hc => hpres hc.1
      have htab : tableOf (((m.grant f s).store t i (linkEntry extra flags f)).mem t i) = f := by
        rw [Machine.store_mem, put_self]
        exact tableOf_link (src.alloc_frame ha) hflags hextra
      refine ⟨hF.grant ht hp ha he hold, ?_, ?_, ?_⟩
      · refine (hF.tableAt_grant ht hp ha he hold (by simp; omega)).mpr (.inl ⟨rfl, rfl, ?_⟩)
        exact htab
      · intro r' q k hq hne
        exact hF.slotAt_grant_frame ht hp ha he hold hq hne
      · intro hpd
        refine (hF.slotAt_grant ht hp ha he hold hpd).trans (congrArg Slot.table ?_)
        -- a slot whose entry is not present has no pages
        rw [slotAt_some ht]
        unfold entrySlot
        split_ifs <;> rfl

/-- The levels above the directory change no slot. -/
theorem descendAll_spec (hP : has flags flagP) (hflags : flags &&& leafMask = flags)
    (hextra : extra &&& flagRW = extra) {is : List (BitVec 9)} (hF : Forest src root d m)
    (ht : tableAt subtable m.mem (root r) p = some t) (hlen : p.length + is.length + 1 = d)
    (h : descendAll src extra flags m t is = .ok (t', m')) :
    Forest src root d m' ∧ tableAt subtable m'.mem (root r) (p ++ is) = some t' ∧
      ∀ r' q k, q.length + 1 = d → slotAt m'.mem (root r') q k = slotAt m.mem (root r') q k := by
  induction is generalizing m p t with
  | nil =>
      obtain ⟨rfl, rfl⟩ := Prod.mk.injEq .. ▸ Except.ok.inj h
      exact ⟨hF, by rwa [List.append_nil], fun _ _ _ _ => rfl⟩
  | cons i is ih =>
      rw [List.length_cons] at hlen
      rw [descendAll, Exec.bind_eq_ok] at h
      obtain ⟨⟨t₁, m₁⟩, h₁, h₂⟩ := h
      have hopen := hF.small (i := i) (show p.length + 1 < d by omega) ht
      obtain ⟨hF₁, ht₁, hsame, -⟩ :=
        hF.descend_spec ht (by omega) hopen hP hflags hextra h₁
      obtain ⟨hF₂, ht₂, hslots⟩ := ih hF₁ ht₁ (by simp; omega) h₂
      refine ⟨hF₂, by rwa [List.append_assoc] at ht₂, ?_⟩
      intro r' q k hq
      rw [hslots r' q k hq]
      refine hsame r' q k hq ?_
      rintro ⟨-, rfl, -⟩
      omega

/-- **`map_page` acts on one slot.** -/
theorem mapPage_spec (hF : Forest src root d m) (hup : upper.length + 1 = d)
    (hm : PresentFlags flags) (hextra : extra &&& flagRW = extra)
    (hopen : ¬ has flags flagPS → (slotAt m.mem (root r) upper i2).Open) {ptr : Option Ptr}
    (h : mapPage src extra m (root r) upper i2 i1 paddr flags = .ok (ptr, m')) :
    Forest src root d m' ∧
      slotAt m'.mem (root r) upper i2
        = (slotAt m.mem (root r) upper i2).mapPage i1 paddr flags ∧
      SameElsewhere root d m.mem m'.mem r upper i2 := by
  rw [mapPage, Exec.bind_eq_ok] at h
  obtain ⟨⟨pml2, m₁⟩, h₁, h⟩ := h
  obtain ⟨hF₁, ht₁, hslots⟩ :=
    descendAll_spec (p := []) hm.present hm.flags_leaf hextra hF rfl (by simpa using hup) h₁
  rw [List.nil_append] at ht₁
  by_cases hPS : has flags flagPS
  · -- a large page: the entry of the directory is the leaf
    simp only [if_pos hPS, Except.ok.injEq, Prod.mk.injEq] at h
    obtain ⟨-, rfl⟩ := h
    have hleaf : has (paddr ||| flags) flagPS := has_or_right hPS
    refine ⟨hF₁.store_large ht₁ hup hleaf, ?_, ?_⟩
    · rw [Slot.mapPage, if_pos hPS]
      exact slotAt_put_cut hF₁.sep ht₁ hup hleaf
    · intro r' q k hq hne
      rw [← hslots r' q k hq]
      exact slotAt_put_cut_frame hF₁.sep ht₁ hup hq hne
  · simp only [if_neg hPS] at h
    obtain ⟨⟨pml1, m₂⟩, h₂, h⟩ := Exec.bind_eq_ok.mp h
    simp only [Except.ok.injEq, Prod.mk.injEq] at h
    obtain ⟨-, rfl⟩ := h
    have hopen₁ := hopen hPS
    rw [← hslots r upper i2 hup, slotAt_open ht₁] at hopen₁
    obtain ⟨hF₂, ht₂, hsame, hslot⟩ :=
      hF₁.descend_spec ht₁ (by omega) hopen₁ hm.present hm.flags_leaf hextra h₂
    refine ⟨hF₂.store_last ht₂ (by simpa using hup), ?_, ?_⟩
    · have htable : (slotAt m.mem (root r) upper i2).pages = m₂.mem pml1 := by
        have h₃ := (hslot hup).symm.trans (slotAt_eq_table ht₂)
        rw [← hslots r upper i2 hup]
        exact Slot.table.inj h₃
      rw [Slot.mapPage, if_neg hPS, htable]
      exact slotAt_put_last hF₂.sep ht₂ hup
    · intro r' q k hq hne
      rw [← hslots r' q k hq, ← hsame r' q k hq hne]
      exact slotAt_put_last_frame hF₂.sep ht₂ hup hq hne

/-- Above the directories the kernel follows the tables of the forest. -/
theorem walkTo_eq {is : List (BitVec 9)} (hF : Forest src root d m)
    (ht : tableAt subtable m.mem (root r) p = some t) (hlen : p.length + is.length + 1 ≤ d) :
    walkTo m.mem t is = tableAt subtable m.mem t is := by
  induction is generalizing p t with
  | nil => rfl
  | cons i is ih =>
      rw [List.length_cons] at hlen
      have hsmall := hF.small (i := i) (show p.length + 1 < d by omega) ht
      rw [walkTo, tableAt]
      by_cases hpres : has (m.mem t i) flagP
      · have hsub : subtable (m.mem t i) = some (tableOf (m.mem t i)) :=
          subtable_eq_some.mpr ⟨hpres, fun hPS => hsmall ⟨hpres, hPS⟩, rfl⟩
        rw [if_pos hpres, hsub]
        refine ih (p := p ++ [i]) ?_ (by simp; omega)
        rw [tableAt_snoc, ht]
        exact hsub
      · rw [if_neg hpres, subtable, if_neg fun hc => hpres hc.1]
        rfl

theorem walkTo_root (hF : Forest src root d m) (hup : upper.length + 1 = d) :
    walkTo m.mem (root r) upper = tableAt subtable m.mem (root r) upper :=
  hF.walkTo_eq (p := []) rfl (by simp [hup])

/-- **`unmap_page` acts on one slot**, and returns the size of what it found. -/
theorem unmapPage_spec (hF : Forest src root d m) (hup : upper.length + 1 = d) (r : R)
    (i2 i1 : BitVec 9) :
    Forest src root d (unmapPage m (root r) upper i2 i1).2 ∧
      (unmapPage m (root r) upper i2 i1).1
        = ((slotAt m.mem (root r) upper i2).unmapPage i1).1 ∧
      slotAt (unmapPage m (root r) upper i2 i1).2.mem (root r) upper i2
        = ((slotAt m.mem (root r) upper i2).unmapPage i1).2 ∧
      SameElsewhere root d m.mem (unmapPage m (root r) upper i2 i1).2.mem r upper i2 := by
  unfold unmapPage
  rw [hF.walkTo_root hup]
  rcases ht : tableAt subtable m.mem (root r) upper with - | pml2
  · have habs : slotAt m.mem (root r) upper i2 = .absent := slotAt_none ht
    simp only [habs, Slot.unmapPage, true_and]
    exact ⟨hF, fun _ _ _ _ _ => rfl⟩
  · simp only [has_low_PS]
    by_cases hPS : has (m.mem pml2 i2) flagPS
    · have hslot : slotAt m.mem (root r) upper i2 = .large (m.mem pml2 i2) := by
        rw [slotAt_some ht, entrySlot, if_pos hPS]
      have hclear := has_clear_PS.mpr hPS
      rw [if_pos hPS, hslot]
      refine ⟨hF.store_large ht hup hclear, rfl, ?_, ?_⟩
      · exact slotAt_put_cut hF.sep ht hup hclear
      · intro r' q k hq hne
        exact slotAt_put_cut_frame hF.sep ht hup hq hne
    · by_cases hpres : has (m.mem pml2 i2) flagP
      · have hsub : tableAt subtable m.mem (root r) (upper ++ [i2])
            = some (tableOf (m.mem pml2 i2)) := by
          rw [tableAt_snoc, ht]
          exact subtable_eq_some.mpr ⟨hpres, hPS, rfl⟩
        rw [if_neg hPS, if_pos hpres, slotAt_eq_table hsub]
        refine ⟨hF.store_last hsub (by simpa using hup), rfl, ?_, ?_⟩
        · exact slotAt_put_last hF.sep hsub hup
        · intro r' q k hq hne
          exact slotAt_put_last_frame hF.sep hsub hup hq hne
      · have hslot : slotAt m.mem (root r) upper i2 = .absent := by
          rw [slotAt_some ht, entrySlot, if_neg hPS, if_neg hpres]
        rw [if_neg hPS, if_neg hpres, hslot]
        exact ⟨hF, rfl, rfl, fun _ _ _ _ _ => rfl⟩

/-- **`page_entry` reads the slot.** -/
theorem pageEntry_eq (hF : Forest src root d m) (hup : upper.length + 1 = d) :
    (pageEntry m (root r) upper i2 i1).map (fun w => m.mem w.page w.idx)
      = (slotAt m.mem (root r) upper i2).pageEntry i1 := by
  unfold pageEntry
  rw [hF.walkTo_root hup]
  rcases ht : tableAt subtable m.mem (root r) upper with - | pml2
  · rw [slotAt_none ht]
    rfl
  · rw [slotAt_some ht, entrySlot]
    dsimp only
    split_ifs <;> rfl

end Forest

/-! ### The processor reads the slots -/

/-- The indices of `vaddr` above the page directory, in tables of `k + 2` levels. -/
def upperIndices (vaddr : Word) : ℕ → List (BitVec 9)
  | 0 => []
  | k + 1 => index (k + 2) vaddr :: upperIndices vaddr k

@[simp] theorem upperIndices_length (vaddr : Word) (k : ℕ) :
    (upperIndices vaddr k).length = k := by
  induction k with
  | zero => rfl
  | succ k ih => rw [upperIndices, List.length_cons, ih]

/-- The slot of the region of `vaddr`. -/
def slotOf (mem : Mem) (k : ℕ) (pmlt vaddr : Word) : Slot :=
  slotAt mem pmlt (upperIndices vaddr k) (index 1 vaddr)

/-- The processor takes the address of a table where the kernel does. -/
theorem frame_of_tableOf {e : Word} (h : IsFrame .small (tableOf e)) :
    e &&& PageSize.small.frameMask = tableOf e := by
  rw [← h, tableOf, BitVec.and_assoc]
  rfl

namespace Forest

variable {src : FrameSource σ} {root : R → Word} {d k : ℕ} {m : Machine σ} {r : R}
  {p : List (BitVec 9)} {t vaddr : Word}

/-- The upper levels of the processor's walk. -/
theorem hwWalk_upper (hF : Forest src root d m)
    (ht : tableAt subtable m.mem (root r) p = some t) (hlen : p.length + k + 1 = d) :
    hwWalk m.mem vaddr (k + 2) t
      = (tableAt subtable m.mem t (upperIndices vaddr k)).bind (hwWalk m.mem vaddr 2) := by
  induction k generalizing p t with
  | zero => rfl
  | succ k ih =>
      have hsmall := hF.small (i := index (k + 2) vaddr) (show p.length + 1 < d by omega) ht
      rw [hwWalk, upperIndices, tableAt]
      by_cases hpres : has (m.mem t (index (k + 2) vaddr)) flagP
      · have hPS : ¬ has (m.mem t (index (k + 2) vaddr)) flagPS := fun h => hsmall ⟨hpres, h⟩
        have hsub := subtable_eq_some.mpr ⟨hpres, hPS, rfl⟩
        have ht' : tableAt subtable m.mem (root r) (p ++ [index (k + 2) vaddr])
            = some (tableOf (m.mem t (index (k + 2) vaddr))) := by
          rw [tableAt_snoc, ht]
          exact hsub
        have hframe := (hF.known (by simp; omega) ht').frame
        have hne : ¬ k + 2 = 0 := by omega
        simp only [hpres, not_true_eq_false, if_false, hPS, hne, hsub, frame_of_tableOf hframe]
        exact ih ht' (by simp; omega)
      · simp [hpres, subtable]

theorem hwWalk_root (hF : Forest src root (k + 1) m) :
    hwWalk m.mem vaddr (k + 2) (root r)
      = (tableAt subtable m.mem (root r) (upperIndices vaddr k)).bind (hwWalk m.mem vaddr 2) :=
  hF.hwWalk_upper (p := []) rfl (by simp)

/-- The last two levels of the processor's walk. -/
theorem hwWalk_directory (hF : Forest src root (k + 1) m) {s : Word}
    (hs : tableAt subtable m.mem (root r) (upperIndices vaddr k) = some s) :
    hwWalk m.mem vaddr 2 s
      = if ¬ has (m.mem s (index 1 vaddr)) flagP then none
        else if has (m.mem s (index 1 vaddr)) flagPS then some ⟨⟨s, index 1 vaddr⟩, .large⟩
        else if has (m.mem (tableOf (m.mem s (index 1 vaddr))) (index 0 vaddr)) flagP then
          some ⟨⟨tableOf (m.mem s (index 1 vaddr)), index 0 vaddr⟩, .small⟩
        else none := by
  rw [hwWalk]
  by_cases hpres : has (m.mem s (index 1 vaddr)) flagP
  · by_cases hPS : has (m.mem s (index 1 vaddr)) flagPS
    · simp [hpres, hPS]
    · have hsub : tableAt subtable m.mem (root r) (upperIndices vaddr k ++ [index 1 vaddr])
          = some (tableOf (m.mem s (index 1 vaddr))) := by
        rw [tableAt_snoc, hs]
        exact subtable_eq_some.mpr ⟨hpres, hPS, rfl⟩
      have hframe := (hF.known (by simp) hsub).frame
      simp [hpres, hPS, frame_of_tableOf hframe, hwWalk]
  · simp [hpres]

/-- **The processor translates by slots.** -/
theorem translate_eq (hF : Forest src root (k + 1) m) :
    translate m.mem (k + 2) (root r) vaddr
      = (slotOf m.mem k (root r) vaddr).translate (index 0 vaddr) := by
  rw [translate, hF.hwWalk_root, slotOf]
  rcases hs : tableAt subtable m.mem (root r) (upperIndices vaddr k) with - | s
  · rw [slotAt_none hs]
    rfl
  · rw [slotAt_some hs, entrySlot, Option.bind_some, hF.hwWalk_directory hs]
    by_cases hpres : has (m.mem s (index 1 vaddr)) flagP <;>
      by_cases hPS : has (m.mem s (index 1 vaddr)) flagPS <;>
      simp only [hpres, hPS, not_true_eq_false, not_false_eq_true, if_true, if_false,
        Slot.translate, Option.map_none, Option.map_some]
    split_ifs <;> rfl

/-- `page_entry` points to the leaf of a walk that translates, and to no
present entry otherwise. -/
theorem pageEntry_leaf (hF : Forest src root (k + 1) m) :
    (∀ leaf, hwWalk m.mem vaddr (k + 2) (root r) = some leaf →
      pageEntry m (root r) (upperIndices vaddr k) (index 1 vaddr) (index 0 vaddr)
        = some leaf.ptr) ∧
    (hwWalk m.mem vaddr (k + 2) (root r) = none → ∀ w,
      pageEntry m (root r) (upperIndices vaddr k) (index 1 vaddr) (index 0 vaddr) = some w →
        ¬ has (m.mem w.page w.idx) flagP) := by
  rw [hF.hwWalk_root, pageEntry, hF.walkTo_root (by simp)]
  rcases hs : tableAt subtable m.mem (root r) (upperIndices vaddr k) with - | s
  · simp
  · rw [Option.bind_some, hF.hwWalk_directory hs]
    by_cases hpres : has (m.mem s (index 1 vaddr)) flagP <;>
      by_cases hPS : has (m.mem s (index 1 vaddr)) flagPS <;>
      by_cases hleaf : has (m.mem (tableOf (m.mem s (index 1 vaddr))) (index 0 vaddr)) flagP <;>
      simp +contextual [hpres, hPS, hleaf, eq_comm]

end Forest

end Rock
