/-
Rock/Permissions.lean

The permissions of a page over runs of `map_page`.

The processor permits an access if every entry of the walk does.  `map_page` gives the flags
of the page to the entry of the page and to the tables it has to link, but the tables that
are there keep the entries they were linked with, which are those of whichever page came
first.  `NX` is never set in such an entry; `RW` and `US` may be missing (and the four-level
backend, which adds `RW`, can only miss `US`).

Main result: over every run of `map_page` the permissions of each address are those of the
last call that covers it, provided every call finds on its way only tables that permit
writes and user accesses if its flags do; and a call that does not finds its page with fewer
permissions (`permissions_last_iff`).
-/
import Rock.Access

namespace Rock

open TableTree

variable {σ : Type} {R : Type*}

/-! ### The walk to a leaf -/

/-- The indices of the walk of `v` down to the entry of a page of the given size. -/
def leafIndices (v : Word) (k : ℕ) : PageSize → List (BitVec 9)
  | .small => walkIndices v k
  | _ => upperIndices v k ++ [index 1 v]

theorem leafIndices_mapped (v : Word) (k : ℕ) (flags : Word) :
    aboveLeaf flags (upperIndices v k) (index 1 v) ++ [leafIndex flags (index 1 v) (index 0 v)]
      = leafIndices v k (mappedSize flags) := by
  unfold aboveLeaf leafIndex mappedSize
  split_ifs <;> rfl

theorem leafIndices_length (v : Word) (k : ℕ) (size : PageSize) :
    k + 1 ≤ (leafIndices v k size).length ∧ (leafIndices v k size).length ≤ k + 2 := by
  cases size <;> simp [leafIndices, walkIndices]

section LeafIndices

variable {k : ℕ} {v v' : Word}

theorem upperIndices_snoc_inj {i i' : BitVec 9} {l : List (BitVec 9)}
    (h : upperIndices v k ++ [i] <+: upperIndices v' k ++ [i'] ++ l) :
    upperIndices v k = upperIndices v' k ∧ i = i' := by
  have hpre := List.prefix_of_prefix_length_le h (List.prefix_append _ _) (by simp)
  have heq := hpre.eq_of_length (by simp)
  exact ⟨(List.append_inj' heq rfl).1, List.singleton_inj.mp (List.append_inj' heq rfl).2⟩

/-- The entry of a page is on the way of the addresses of the page only. -/
theorem sameBits_of_leafIndices {size size' : PageSize} (hsize : size ≠ .huge)
    (h : leafIndices v k size <+: leafIndices v' k size') :
    sameBits size.shift (30 + 9 * k) v v' := by
  rcases size with - | - | -
  · rcases size' with - | - | -
    · have heq := h.eq_of_length (by simp [leafIndices, walkIndices])
      obtain ⟨hregion, hidx⟩ := List.append_inj' heq rfl
      obtain ⟨hup, hi⟩ := List.append_inj' hregion rfl
      exact page_eq_iff.mp ⟨region_eq_iff.mp ⟨hup, List.singleton_inj.mp hi⟩,
        (List.singleton_inj.mp hidx).symm⟩
    · have := h.length_le
      simp [leafIndices, walkIndices] at this
    · have := h.length_le
      simp [leafIndices, walkIndices] at this
  · refine region_eq_iff.mp ?_
    rcases size' with - | - | -
    · exact upperIndices_snoc_inj h
    · exact upperIndices_snoc_inj (l := []) (by rwa [List.append_nil])
    · exact upperIndices_snoc_inj (l := []) (by rwa [List.append_nil])
  · exact absurd rfl hsize

theorem leafIndices_congr {size : PageSize} (hsize : size ≠ .huge)
    (h : sameBits size.shift (30 + 9 * k) v v') : leafIndices v' k size = leafIndices v k size := by
  rcases size with - | - | -
  · obtain ⟨hregion, hidx⟩ := page_eq_iff.mpr h
    obtain ⟨hup, hi⟩ := region_eq_iff.mpr hregion
    rw [leafIndices, leafIndices, walkIndices, walkIndices, hup, hi, hidx]
  · obtain ⟨hup, hi⟩ := region_eq_iff.mpr h
    show upperIndices v' k ++ [index 1 v'] = upperIndices v k ++ [index 1 v]
    rw [hup, hi]
  · exact absurd rfl hsize

end LeafIndices

theorem mappedSize_ne_huge (flags : Word) : mappedSize flags ≠ .huge := by
  unfold mappedSize
  split_ifs <;> decide

/-- The access that asks for nothing. -/
def Access.none : Access := ⟨false, false, false⟩

theorem Access.none_allowedBy (e : Word) : Access.none.AllowedBy e :=
  ⟨nofun, nofun, nofun⟩

/-- Without a request the walk goes through exactly if it ends at a page. -/
theorem hwPermits_none (mem : Mem) (v : Word) (n : ℕ) (t : Word) :
    hwPermits mem v .none n t ↔ (hwWalk mem v n t).isSome := by
  induction n generalizing t with
  | zero => simp [hwPermits, hwWalk]
  | succ k ih =>
      rw [hwPermits, hwWalk]
      have hnone := Access.none_allowedBy (mem t (index k v))
      by_cases hP : has (mem t (index k v)) flagP
      · simp only [hP, hnone, true_and, not_true_eq_false, if_false, ih]
        split_ifs <;> simp_all
      · simp [hP]

namespace Forest

variable {src : FrameSource σ} {root : R → Word} {k : ℕ} {m m' : Machine σ} {r : R} {v : Word}
  {a : Access} {tr : Translation}

/-- **The permissions of a page** are those of the entries down to it. -/
theorem hwPermits_leaf (hF : Forest src root (k + 1) m)
    (htr : translate m.mem (k + 2) (root r) v = some tr) :
    hwPermits m.mem v a (k + 2) (root r) ↔
      PathPermits a m.mem (root r) (leafIndices v k tr.size) := by
  have hF' : Forest src root (([] : List (BitVec 9)).length + k + 1) m := by simpa using hF
  rw [hF.translate_eq] at htr
  rcases hslot : slotOf m.mem k (root r) v with - | f | e <;> rw [hslot] at htr
  · cases htr
  · obtain ⟨-, htr⟩ := Option.ite_none_right_eq_some.mp htr
    obtain rfl := Option.some.inj htr
    have hopen : (slotOf m.mem k (root r) v).Open := by
      rw [hslot]
      trivial
    exact hF'.hwPermits_iff (p := []) rfl hopen
  · obtain ⟨-, htr⟩ := Option.ite_none_right_eq_some.mp htr
    obtain rfl := Option.some.inj htr
    exact hF'.hwPermits_large_iff (p := []) rfl hslot

/-- The entries down to a page are present. -/
theorem presentAt_leaf_path (hF : Forest src root (k + 1) m)
    (htr : translate m.mem (k + 2) (root r) v = some tr) {q : List (BitVec 9)} {j : BitVec 9}
    (hpre : q ++ [j] <+: leafIndices v k tr.size) :
    ∃ e, presentAt m.mem (root r) q j = some e := by
  have hwalk : (hwWalk m.mem v (k + 2) (root r)).isSome := by
    obtain ⟨leaf, hleaf, -⟩ := Option.map_eq_some_iff.mp htr
    rw [hleaf]
    rfl
  obtain ⟨e, he, -⟩ := (hF.hwPermits_leaf htr).mp ((hwPermits_none ..).mpr hwalk) q j hpre
  exact ⟨e, he⟩

/-! ### One call -/

section MapPage

variable {extra flags paddr : Word} {ptr : Option Ptr} (hF : Forest src root (k + 1) m)
  (hm : Mappable paddr flags) (hextra : extra &&& flagRW = extra)
  (hopen : ¬ has flags flagPS → (slotOf m.mem k (root r) v).Open)
  (h : mapPage src extra m (root r) (upperIndices v k) (index 1 v) (index 0 v) paddr flags
    = .ok (ptr, m'))

include hF hm hextra hopen h

/-- `map_page` leaves the entries down to another page alone. -/
theorem presentAt_mapPage_other {v' : Word}
    (htr : translate m.mem (k + 2) (root r) v' = some tr)
    (hother : ¬ sameBits (mappedSize flags).shift (30 + 9 * k) v v') {q : List (BitVec 9)}
    {j : BitVec 9} (hpre : q ++ [j] <+: leafIndices v' k tr.size) :
    presentAt m'.mem (root r) q j = presentAt m.mem (root r) q j := by
  obtain ⟨hframe, hpath, -⟩ := hF.mapPage_entries (by simp) hm.presentFlags hextra hopen h
  rw [leafIndices_mapped] at hframe
  have haway : ¬ leafIndices v k (mappedSize flags) <+: leafIndices v' k tr.size := fun hc =>
    hother (sameBits_of_leafIndices (mappedSize_ne_huge flags) hc)
  by_cases hway : q ++ [j] <+: leafIndices v k (mappedSize flags)
  · rw [← leafIndices_mapped, List.prefix_concat_iff, leafIndices_mapped] at hway
    rcases hway with heq | habove
    · exact absurd (heq ▸ hpre) haway
    · -- an entry that both walks share is there, and is kept
      obtain ⟨e, he, hkept⟩ := hpath q j habove
      obtain ⟨e', he'⟩ := hF.presentAt_leaf_path htr hpre
      rcases hkept with hold | ⟨hnone, -⟩
      · rw [he, hold]
      · cases hnone.symm.trans he'
  · have hq : q.length ≤ k + 1 := by
      have hlen := hpre.length_le.trans (leafIndices_length v' k tr.size).2
      rw [List.length_append, List.length_singleton] at hlen
      omega
    refine hframe r q j hq fun hc => ?_
    rcases hc.2 with hc | hc
    · exact hway hc
    · exact haway (hc.trans ((List.prefix_append q [j]).trans hpre))

variable [DecidableEq R]

/-- **`map_page` changes the permissions of its own page only.** -/
theorem hwPermits_mapPage_other {v' : Word}
    (htr : translate m.mem (k + 2) (root r) v' = some tr)
    (hother : ¬ sameBits (mappedSize flags).shift (30 + 9 * k) v v') :
    hwPermits m'.mem v' a (k + 2) (root r) ↔ hwPermits m.mem v' a (k + 2) (root r) := by
  have htr' := hF.translate_mapPage hm hextra hopen h r v'
  rw [if_neg fun hc => hother hc.2, htr] at htr'
  have hF' := (hF.slotOf_mapPage hm.presentFlags hextra hopen h).1
  rw [hF'.hwPermits_leaf htr', hF.hwPermits_leaf htr]
  refine forall_congr' fun q => forall_congr' fun j => forall_congr' fun hpre => ?_
  rw [hF.presentAt_mapPage_other hm hextra hopen h htr hother hpre]

/-- All addresses of the page have its permissions. -/
theorem hwPermits_mapPage_same {v' : Word}
    (hsame : sameBits (mappedSize flags).shift (30 + 9 * k) v v') :
    hwPermits m'.mem v' a (k + 2) (root r) ↔ hwPermits m'.mem v a (k + 2) (root r) := by
  have htr := fun v' => hF.translate_mapPage hm hextra hopen h r v'
  have hF' := (hF.slotOf_mapPage hm.presentFlags hextra hopen h).1
  rw [hF'.hwPermits_leaf ((htr v').trans (if_pos ⟨rfl, hsame⟩)),
    hF'.hwPermits_leaf ((htr v).trans (if_pos ⟨rfl, sameBits_refl _ _ _⟩)),
    leafIndices_congr (mappedSize_ne_huge flags) hsame]

end MapPage

end Forest

/-! ### Runs -/

/-- A page table, and for every address the flags of the last `map_page` that covers it. -/
structure FlagState (σ : Type) where
  machine : Machine σ
  last : Word → Option Word

/-- The flags after a call for the page of `v`. -/
def recordFlags (la57 : Bool) (last : Word → Option Word) (v flags : Word) : Word → Option Word :=
  fun v' =>
    if sameBits (mappedSize flags).shift (30 + 9 * upperLevels la57) v v' then some flags
    else last v'

/-- **The permissions are those of the last call**: the processor lets an access to a mapped
address through exactly if the flags of the last `map_page` that covers it do. -/
def FlagState.Exact (la57 : Bool) (pmlt : Word) (s : FlagState σ) : Prop :=
  ∀ v flags, s.last v = some flags →
    ∀ a, hwPermits s.machine.mem v a (pagingLevels la57) pmlt ↔ a.AllowedBy flags

/-- The entries that are present above the page permit writes if the flags do, and user
accesses if the flags do. -/
def TablesPermit (la57 : Bool) (mem : Mem) (pmlt v flags : Word) : Prop :=
  ∀ q j, q ++ [j] <+: aboveLeaf flags (upperIndices v (upperLevels la57)) (index 1 v) →
    ∀ e, presentAt mem pmlt q j = some e →
      (has flags flagRW → has e flagRW) ∧ (has flags flagUS → has e flagUS)

/-- The calls of `map_page`, each where no large page obstructs it and the tables permit
what its flags permit. -/
inductive FlagState.Step (src : FrameSource σ) (la57 : Bool) (pmlt : Word) :
    FlagState σ → FlagState σ → Prop
  | map {s : FlagState σ} {m' : Machine σ} {ptr : Option Ptr} (v paddr flags : Word) :
      Mappable paddr flags → Unobstructed s.machine.mem (pagingLevels la57) pmlt v flags →
      TablesPermit la57 s.machine.mem pmlt v flags →
      (x86PagingInit src la57).mapPage s.machine pmlt v paddr flags = .ok (ptr, m') →
      Step src la57 pmlt s ⟨m', recordFlags la57 s.last v flags⟩

/-- The tables are a forest, the addresses with flags are those that are mapped, no entry
that refers to a table has `NX`, and the permissions are those of the last call. -/
structure FlagState.Inv (src : FrameSource σ) (la57 : Bool) (pmlt : Word) (s : FlagState σ) :
    Prop where
  forest : Forest src (single pmlt) (upperLevels la57 + 1) s.machine
  mapped : ∀ v, (translate s.machine.mem (pagingLevels la57) pmlt v).map Translation.flags
    = s.last v
  nx : ∀ q j e, q.length < upperLevels la57 + 1 → presentAt s.machine.mem pmlt q j = some e →
    ¬ has e flagPS → ¬ has e flagNX
  exact : s.Exact la57 pmlt

section Runs

variable {src : FrameSource σ} {la57 : Bool} {pmlt : Word} {s : FlagState σ} {m' : Machine σ}
  {v paddr flags : Word} {ptr : Option Ptr}

/-- The entries above the leaf refer to tables. -/
theorem Forest.above_leaf {k : ℕ} {m : Machine σ} (hF : Forest src (single pmlt) (k + 1) m)
    (hopen : ¬ has flags flagPS → (slotOf m.mem k pmlt v).Open) {q : List (BitVec 9)}
    {j : BitVec 9} (hpre : q ++ [j] <+: aboveLeaf flags (upperIndices v k) (index 1 v)) {e : Word}
    (he : presentAt m.mem pmlt q j = some e) : q.length < k + 1 ∧ ¬ has e flagPS := by
  obtain ⟨u, hu, hue⟩ := Option.bind_eq_some_iff.mp he
  obtain ⟨hP, hue⟩ := Option.ite_none_right_eq_some.mp hue
  obtain rfl := Option.some.inj hue
  have hlen : q.length + 1 ≤ (aboveLeaf flags (upperIndices v k) (index 1 v)).length := by
    simpa using hpre.length_le
  unfold aboveLeaf at hpre hlen
  split_ifs at hpre hlen with hPS
  · rw [upperIndices_length] at hlen
    exact ⟨by omega, fun hc => hF.small (r := ()) (by omega) hu ⟨hP, hc⟩⟩
  · rw [List.length_append, upperIndices_length, List.length_singleton] at hlen
    refine ⟨by omega, fun hc => ?_⟩
    rcases (Nat.le_of_succ_le_succ hlen).eq_or_lt with heq | hlt
    · -- the entry of the directory, where no large page is present
      obtain ⟨rfl, rfl⟩ := Forest.eq_of_snoc_prefix (l := []) hpre (by simpa using heq)
      exact (slotAt_open hu).mp (hopen hPS) ⟨hP, hc⟩
    · exact hF.small (r := ()) (by omega) hu ⟨hP, hc⟩

section Call

variable (hI : s.Inv src la57 pmlt) (hm : Mappable paddr flags)
  (hun : Unobstructed s.machine.mem (pagingLevels la57) pmlt v flags)
  (h : (x86PagingInit src la57).mapPage s.machine pmlt v paddr flags = .ok (ptr, m'))

include hI hm hun h

/-- **The permissions of the page just mapped** are those of its flags exactly if the tables
above it permit as much. -/
theorem FlagState.Inv.permits_iff :
    (∀ a, hwPermits m'.mem v a (pagingLevels la57) pmlt ↔ a.AllowedBy flags) ↔
      TablesPermit la57 s.machine.mem pmlt v flags := by
  rw [x86PagingInit_mapPage] at h
  have hopen := hI.forest.unobstructed_iff.mp hun
  have hpermits := fun a => hI.forest.permits_mapped (r := ()) (a := a) hm.presentFlags
    (linkExtra_within la57) hopen h
  have hleaf : ∀ a : Access, a.AllowedBy (paddr ||| flags) ↔ a.AllowedBy flags := fun a =>
    Access.allowedBy_frame_or hm.small_frame
  constructor
  · intro hall q j hpre e he
    -- the entry permits every access that the flags permit
    have hentry : ∀ a : Access, a.AllowedBy flags → a.AllowedBy e := fun a ha =>
      ((hpermits a).mp ((hall a).mpr ha)).1 q j hpre e he
    exact ⟨fun hRW => (hentry ⟨true, false, false⟩ ⟨fun _ => hRW, nofun, nofun⟩).1 rfl,
      fun hUS => (hentry ⟨false, true, false⟩ ⟨nofun, fun _ => hUS, nofun⟩).2.1 rfl⟩
  · intro htables a
    refine (hpermits a).trans ⟨fun hc => (hleaf a).mp hc.2.1, fun ha => ⟨?_, (hleaf a).mpr ha, ?_⟩⟩
    · intro q j hpre e he
      obtain ⟨hq, hPS⟩ := hI.forest.above_leaf hopen hpre he
      obtain ⟨hRW, hUS⟩ := htables q j hpre e he
      exact ⟨fun hw => hRW (ha.1 hw), fun hu => hUS (ha.2.1 hu), fun _ => hI.nx q j e hq he hPS⟩
    · exact fun _ => ha.link (linkExtra_within la57)

/-- A call keeps the permissions of the other pages. -/
theorem FlagState.Inv.exact_iff :
    FlagState.Exact la57 pmlt ⟨m', recordFlags la57 s.last v flags⟩ ↔
      TablesPermit la57 s.machine.mem pmlt v flags := by
  rw [← hI.permits_iff hm hun h]
  rw [x86PagingInit_mapPage] at h
  have hopen := hI.forest.unobstructed_iff.mp hun
  constructor
  · intro hexact
    exact hexact v flags (if_pos (sameBits_refl _ _ _))
  · intro hpage v' flags' hlast a
    by_cases hsame : sameBits (mappedSize flags).shift (30 + 9 * upperLevels la57) v v'
    · obtain rfl := Option.some.inj ((if_pos hsame).symm.trans hlast)
      exact (hI.forest.hwPermits_mapPage_same (r := ()) hm (linkExtra_within la57) hopen h
        hsame).trans (hpage a)
    · replace hlast : s.last v' = some flags' := (if_neg hsame).symm.trans hlast
      have hmapped := hI.mapped v'
      rw [hlast] at hmapped
      obtain ⟨tr, htr, -⟩ := Option.map_eq_some_iff.mp hmapped
      exact (hI.forest.hwPermits_mapPage_other (r := ()) hm (linkExtra_within la57) hopen h htr
        hsame).trans (hI.exact v' flags' hlast a)

/-- A call links no table with `NX`. -/
theorem FlagState.Inv.nx_mapPage {q : List (BitVec 9)} {j : BitVec 9} {e : Word}
    (hq : q.length < upperLevels la57 + 1) (he : presentAt m'.mem pmlt q j = some e)
    (hPS : ¬ has e flagPS) : ¬ has e flagNX := by
  rw [x86PagingInit_mapPage] at h
  have hopen := hI.forest.unobstructed_iff.mp hun
  obtain ⟨hframe, hpath, hleaf⟩ := hI.forest.mapPage_entries (r := ()) (by simp) hm.presentFlags
    (linkExtra_within la57) hopen h
  rw [leafIndices_mapped] at hframe
  by_cases hway : q ++ [j] <+: leafIndices v (upperLevels la57) (mappedSize flags)
  · rw [← leafIndices_mapped, List.prefix_concat_iff] at hway
    rcases hway with heq | habove
    · -- the entry of the page itself: above the page tables it is that of a large page
      obtain ⟨rfl, hj⟩ := List.append_inj' heq rfl
      obtain rfl := List.singleton_inj.mp hj
      have hlarge : has flags flagPS := by
        by_contra hsmall
        rw [aboveLeaf, if_neg hsmall] at hq
        simp at hq
      cases he.symm.trans hleaf
      exact absurd (has_or_right hlarge) hPS
    · obtain ⟨e', he', hkept⟩ := hpath q j habove
      cases he.symm.trans he'
      rcases hkept with hold | ⟨-, -, f, hf, rfl⟩
      · exact hI.nx q j e hq hold hPS
      · rw [Forest.linkEntry, BitVec.or_assoc, has_frame_or hf (by decide)]
        exact not_has_link_NX (linkExtra_within la57)
  · refine hI.nx q j e hq ((hframe () q j hq.le ?_).symm.trans he) hPS
    rintro ⟨-, hc | hc⟩
    · exact hway hc
    · have := (leafIndices_length v (upperLevels la57) (mappedSize flags)).1.trans hc.length_le
      omega

/-- **A call keeps the invariant** if the tables on its way permit what its flags permit. -/
theorem FlagState.Inv.mapPage (htables : TablesPermit la57 s.machine.mem pmlt v flags) :
    FlagState.Inv src la57 pmlt ⟨m', recordFlags la57 s.last v flags⟩ := by
  refine ⟨(hI.forest.mapPage_call hm hun h).1, fun v' => ?_, fun q j e hq he hPS =>
    hI.nx_mapPage hm hun h hq he hPS, (hI.exact_iff hm hun h).mpr htables⟩
  rw [x86PagingInit_mapPage] at h
  have htr := hI.forest.translate_mapPage (r := ()) hm (linkExtra_within la57)
    (hI.forest.unobstructed_iff.mp hun) h () v'
  refine (congrArg (Option.map Translation.flags) htr).trans ?_
  simp only [true_and, recordFlags]
  split_ifs
  · rfl
  · exact hI.mapped v'

end Call

theorem FlagState.Inv.step (s s' : FlagState σ) (hI : s.Inv src la57 pmlt)
    (hs : FlagState.Step src la57 pmlt s s') : s'.Inv src la57 pmlt := by
  obtain ⟨v, paddr, flags, hm, hun, htables, h⟩ := hs
  exact hI.mapPage hm hun h htables

theorem FlagState.Inv.init {m₀ : Machine σ} (hblank : m₀.Blank src pmlt) :
    FlagState.Inv src la57 pmlt ⟨m₀, fun _ => none⟩ where
  forest := hblank.forest _
  mapped := by
    intro v
    have hnone : translate m₀.mem (pagingLevels la57) pmlt v = none := by
      refine ((hblank.forest _).translate_eq (r := ())).trans ?_
      rw [slotOf_empty (t := single pmlt ()) hblank.empty (by cases la57 <;> decide)]
      rfl
    rw [hnone]
    rfl
  nx := by
    intro q j e _ he
    cases (presentAt_empty hblank.empty).symm.trans he
  exact := nofun

/-- **The permissions of an address are those of the last `map_page` that covers it.**  For
both backends, over every run of calls that each find on their way only tables that permit
what their flags permit.  One more call leaves all permissions so exactly if it meets this
condition as well. -/
theorem permissions_last_iff {m₀ : Machine σ} (hblank : m₀.Blank src pmlt)
    (hrun : Run (FlagState.Step src la57 pmlt) ⟨m₀, fun _ => none⟩ s) :
    s.Exact la57 pmlt ∧
    ∀ v paddr flags ptr m', Mappable paddr flags →
      Unobstructed s.machine.mem (pagingLevels la57) pmlt v flags →
      (x86PagingInit src la57).mapPage s.machine pmlt v paddr flags = .ok (ptr, m') →
      (FlagState.Exact la57 pmlt ⟨m', recordFlags la57 s.last v flags⟩ ↔
        TablesPermit la57 s.machine.mem pmlt v flags) := by
  have hI := Run.invariant FlagState.Inv.step (FlagState.Inv.init hblank) hrun
  exact ⟨hI.exact, fun v paddr flags ptr m' hm hun h => hI.exact_iff hm hun h⟩

end Runs

/-! ### A user page among kernel pages -/

/-- Flags of a kernel page and of a user page. -/
def kernelPageFlags : Word := flagP ||| flagRW
def userPageFlags : Word := flagP ||| flagRW ||| flagUS

/-- A second user page behind the tables of the first one. -/
theorem permissions_last_second :
    ∃ ptr₁ m₁ ptr₂ m₂,
      (x86PagingInit .ofList true).mapPage bootMachine 0x101000 0x400000 0x300000 userPageFlags
        = .ok (ptr₁, m₁) ∧
      (x86PagingInit .ofList true).mapPage m₁ 0x101000 0x401000 0x301000 userPageFlags
        = .ok (ptr₂, m₂) ∧
      FlagState.Exact true 0x101000 ⟨m₂, recordFlags true
        (recordFlags true (fun _ => none) 0x400000 userPageFlags) 0x401000 userPageFlags⟩ := by
  have heval : (do
      let (_, m₁) ← (x86PagingInit .ofList true).mapPage bootMachine 0x101000 0x400000 0x300000
        userPageFlags
      let _ ← (x86PagingInit .ofList true).mapPage m₁ 0x101000 0x401000 0x301000 userPageFlags
      .ok (translate m₁.mem 5 0x101000 0x400000, translate m₁.mem 5 0x101000 0x401000) : Exec _)
      = .ok (some ⟨0x300000, userPageFlags, .small⟩, none) := by
    decide +kernel
  obtain ⟨⟨ptr₁, m₁⟩, h₁, heval⟩ := Exec.bind_eq_ok.mp heval
  obtain ⟨⟨ptr₂, m₂⟩, h₂, heval⟩ := Exec.bind_eq_ok.mp heval
  obtain ⟨hfirst, hsecond⟩ := Prod.mk.inj (Except.ok.inj heval)
  have hstep : FlagState.Step .ofList true 0x101000 ⟨bootMachine, fun _ => none⟩
      ⟨m₁, recordFlags true (fun _ => none) 0x400000 userPageFlags⟩ := by
    refine .map 0x400000 0x300000 userPageFlags (by decide +kernel)
      (bootMachine_unobstructed true _ _) (fun q j _ e he => ?_) h₁
    cases (presentAt_empty bootMachine_blank.empty).symm.trans he
  have hlast := permissions_last_iff bootMachine_blank (.single hstep)
  refine ⟨ptr₁, m₁, ptr₂, m₂, h₁, h₂, (hlast.2 _ _ _ _ _ (by decide +kernel)
    (fun _ tr htr => by cases hsecond.symm.trans htr) h₂).mpr ?_⟩
  -- the entries above the second page are those above the first, which users may write
  have hF := (FlagState.Inv.init bootMachine_blank).step _ _ hstep |>.forest
  have hflags : recordFlags true (fun _ => none) 0x400000 userPageFlags 0x400000
      = some userPageFlags := by decide
  have hpath := (hF.hwPermits_leaf (r := ()) (a := ⟨true, true, false⟩) hfirst).mp
    ((hlast.1 0x400000 userPageFlags hflags _).mpr (by decide))
  intro q j hpre e he
  obtain ⟨e', he', hallowed⟩ := hpath q j (hpre.trans ⟨[index 0 0x400000], rfl⟩)
  cases he.symm.trans he'
  exact ⟨fun _ => hallowed.1 rfl, fun _ => hallowed.2.1 rfl⟩

/-- **A user page that users cannot reach.**  A kernel page is mapped first, and its tables are
linked without `US`.  A user page behind the same tables has `US` in its own entry only. -/
theorem permissions_user_lost :
    ∃ ptr₁ m₁ ptr₂ m₂,
      (x86PagingInit .ofList false).mapPage bootMachine 0x101000 0x400000 0x300000 kernelPageFlags
        = .ok (ptr₁, m₁) ∧
      (x86PagingInit .ofList false).mapPage m₁ 0x101000 0x401000 0x301000 userPageFlags
        = .ok (ptr₂, m₂) ∧
      Mappable 0x300000 kernelPageFlags ∧ Mappable 0x301000 userPageFlags ∧
      translate m₁.mem 4 0x101000 0x401000 = none ∧
      translate m₂.mem 4 0x101000 0x401000 = some ⟨0x301000, userPageFlags, .small⟩ ∧
      Access.AllowedBy ⟨false, true, false⟩ userPageFlags ∧
      ¬ hwPermits m₂.mem 0x401000 ⟨false, true, false⟩ 4 0x101000 := by
  have heval : (do
      let (_, m₁) ← (x86PagingInit .ofList false).mapPage bootMachine 0x101000 0x400000 0x300000
        kernelPageFlags
      let (_, m₂) ← (x86PagingInit .ofList false).mapPage m₁ 0x101000 0x401000 0x301000
        userPageFlags
      .ok (translate m₁.mem 4 0x101000 0x401000, translate m₂.mem 4 0x101000 0x401000,
        decide (hwPermits m₂.mem 0x401000 ⟨false, true, false⟩ 4 0x101000)) : Exec _)
      = .ok (none, some ⟨0x301000, userPageFlags, .small⟩, false) := by
    decide +kernel
  obtain ⟨⟨ptr₁, m₁⟩, h₁, heval⟩ := Exec.bind_eq_ok.mp heval
  obtain ⟨⟨ptr₂, m₂⟩, h₂, heval⟩ := Exec.bind_eq_ok.mp heval
  simp only [Except.ok.injEq, Prod.mk.injEq] at heval
  obtain ⟨hnone, htr, hdenied⟩ := heval
  exact ⟨ptr₁, m₁, ptr₂, m₂, h₁, h₂, by decide +kernel, by decide +kernel, hnone, htr, by decide,
    of_decide_eq_false hdenied⟩

end Rock
