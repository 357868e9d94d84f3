/-
Rock/PagingBackends.lean

The four-level and the five-level backend as two implementations of one
address space.

`Space` is that address space: a slot for each region of 2 MiB of a 57-bit
address, with the three calls on slots.  A `Session` is a machine with the
calls made on one of its tables and the replies they gave: whether `map_page`
returned `NULL`, the size `unmap_page` returned, and the entry `page_entry`
points to.

The five-level `unmap_page` indexes its top level by bits 39 to 47 of the
address instead of bits 48 to 56.  Where the two agree (`TopAgrees`) it is the
walk it should be, and `pml5_agrees_pml4` says that then the two backends give
the same replies and the same translations.  Where they do not, an
`unmap_page` looks for the page under another top-level entry
(`pml5UnmapPage_keeps_page`).
-/
import Rock.PageMap

namespace Rock

open TableTree

/-! ### The address space -/

/-- A call on a page table. -/
inductive PagingCall where
  | mapPage (vaddr paddr flags : Word)
  | unmapPage (vaddr : Word)
  | pageEntry (vaddr : Word)
  deriving DecidableEq, Repr

def PagingCall.vaddr : PagingCall → Word
  | .mapPage v _ _ => v
  | .unmapPage v => v
  | .pageEntry v => v

/-- What a call returns: whether `map_page` returned `NULL`, the size that
`unmap_page` returned, and what `page_entry` points to. -/
inductive PagingReply where
  | mapped (null : Bool)
  | unmapped (size : ℕ)
  | entry (e : Option Word)
  deriving DecidableEq, Repr

/-- The region of 2 MiB of an address of 57 bits. -/
def regionOf (vaddr : Word) : BitVec 36 := vaddr.extractLsb' 21 36

/-- An address space: the slots of its regions. -/
abbrev Space := BitVec 36 → Slot

namespace Space

/-- The call `c` on an address space. -/
def call (A : Space) : PagingCall → PagingReply × Space
  | .mapPage v paddr flags =>
      (.mapped (decide (has flags flagPS)),
        Function.update A (regionOf v) ((A (regionOf v)).mapPage (index 0 v) paddr flags))
  | .unmapPage v =>
      (.unmapped ((A (regionOf v)).unmapPage (index 0 v)).1,
        Function.update A (regionOf v) ((A (regionOf v)).unmapPage (index 0 v)).2)
  | .pageEntry v => (.entry ((A (regionOf v)).pageEntry (index 0 v)), A)

/-- The replies to a sequence of calls on the empty address space, and what it
then is. -/
def run (calls : List PagingCall) : List PagingReply × Space :=
  calls.foldl (fun s c => (s.1 ++ [(call s.2 c).1], (call s.2 c).2)) ([], fun _ => .absent)

def translate (A : Space) (vaddr : Word) : Option Translation :=
  (A (regionOf vaddr)).translate (index 0 vaddr)

theorem run_append (calls : List PagingCall) (c : PagingCall) :
    run (calls ++ [c])
      = ((run calls).1 ++ [(call (run calls).2 c).1], (call (run calls).2 c).2) := by
  simp [run]

end Space

theorem regionOf_eq_iff {v v' : Word} : regionOf v = regionOf v' ↔ sameBits 21 57 v v' :=
  extractLsb_eq_iff

/-! ### Sessions -/

variable {σ : Type}

/-- A call on the table `pmlt` through a backend. -/
def Pager.call (pager : Pager σ) (pmlt : Word) (m : Machine σ) :
    PagingCall → Exec (PagingReply × Machine σ)
  | .mapPage v paddr flags => do
      let (ptr, m') ← pager.mapPage m pmlt v paddr flags
      .ok (.mapped ptr.isNone, m')
  | .unmapPage v =>
      .ok (.unmapped (pager.unmapPage m pmlt v).1, (pager.unmapPage m pmlt v).2)
  | .pageEntry v =>
      .ok (.entry ((pager.pageEntry m pmlt v).map fun w => m.mem w.page w.idx), m)

/-- A machine with the calls on one table and their replies, oldest first. -/
structure Session (σ : Type) where
  machine : Machine σ
  calls : List PagingCall
  replies : List PagingReply

/-- The addresses a backend is used with: those of 57 bits with five levels,
those of 48 bits with four. -/
def InRange (la57 : Bool) (v : Word) : Prop := la57 = false → sameBits 48 57 v 0

/-- Bits 48 to 56 of the address are its bits 39 to 47. -/
def TopAgrees (v : Word) : Prop := index 4 v = index 3 v

instance (v : Word) : Decidable (TopAgrees v) := inferInstanceAs (Decidable (_ = _))

/-- A call that is made where it may be: no small page into a large one, and no
five-level `unmap_page` that takes the wrong top-level entry. -/
def Admissible (la57 : Bool) (pmlt : Word) (m : Machine σ) : PagingCall → Prop
  | .mapPage v paddr flags =>
      Mappable paddr flags ∧ Unobstructed m.mem (pagingLevels la57) pmlt v flags
  | .unmapPage v => la57 = true → TopAgrees v
  | .pageEntry _ => True

/-- A session goes on by one call. -/
inductive Session.Step (src : FrameSource σ) (la57 : Bool) (pmlt : Word) :
    Session σ → Session σ → Prop
  | call {s : Session σ} {m' : Machine σ} {reply : PagingReply} (c : PagingCall) :
      InRange la57 c.vaddr → Admissible la57 pmlt s.machine c →
      (x86PagingInit src la57).call pmlt s.machine c = .ok (reply, m') →
      Step src la57 pmlt s ⟨m', s.calls ++ [c], s.replies ++ [reply]⟩

/-! ### The backends implement the address space -/

/-- The tables hold the slots of the address space `A`. -/
def Holds (la57 : Bool) (pmlt : Word) (m : Machine σ) (A : Space) : Prop :=
  ∀ v, InRange la57 v → slotOf m.mem (upperLevels la57) pmlt v = A (regionOf v)

/-- On the addresses of a backend, its walk tells regions apart as the address
space does. -/
theorem region_agrees {la57 : Bool} {v v' : Word} (hv : InRange la57 v) (hv' : InRange la57 v') :
    regionOf v = regionOf v' ↔ sameBits 21 (30 + 9 * upperLevels la57) v v' := by
  rw [regionOf_eq_iff]
  cases la57 with
  | true => exact Iff.rfl
  | false =>
      rw [sameBits_split (show 21 ≤ 48 by decide) (show 48 ≤ 57 by decide)]
      refine and_iff_left fun b hb hlo => ?_
      exact (hv rfl b hb hlo).trans (hv' rfl b hb hlo).symm

/-- A call that changes the slot of one region, on both sides. -/
theorem Holds.update {la57 : Bool} {pmlt v : Word} {m m' : Machine σ} {A : Space} {s : Slot}
    (hA : Holds la57 pmlt m A) (hv : InRange la57 v)
    (hslot : slotOf m'.mem (upperLevels la57) pmlt v = s)
    (hsame : ∀ v', ¬ sameBits 21 (30 + 9 * upperLevels la57) v v' →
      slotOf m'.mem (upperLevels la57) pmlt v' = slotOf m.mem (upperLevels la57) pmlt v') :
    Holds la57 pmlt m' (Function.update A (regionOf v) s) := by
  intro v' hv'
  by_cases hreg : regionOf v' = regionOf v
  · have hbits := (region_agrees hv hv').mp hreg.symm
    rw [hreg, Function.update_self, slotOf_congr hbits, hslot]
  · rw [Function.update_of_ne hreg, ← hA v' hv']
    exact hsame v' fun hbits => hreg ((region_agrees hv hv').mpr hbits).symm

/-- `map_page` returns `NULL` for large pages. -/
theorem mapPage_null {src : FrameSource σ} {extra t paddr flags : Word}
    {upper : List (BitVec 9)} {i2 i1 : BitVec 9} {m m' : Machine σ} {ptr : Option Ptr}
    (h : mapPage src extra m t upper i2 i1 paddr flags = .ok (ptr, m')) :
    ptr.isNone = decide (has flags flagPS) := by
  obtain ⟨⟨pml2, m₁⟩, -, h⟩ := Exec.bind_eq_ok.mp h
  by_cases hPS : has flags flagPS
  · simp only [if_pos hPS, Except.ok.injEq, Prod.mk.injEq] at h
    simp [← h.1, hPS]
  · simp only [if_neg hPS] at h
    obtain ⟨⟨pml1, m₂⟩, -, h⟩ := Exec.bind_eq_ok.mp h
    simp only [Except.ok.injEq, Prod.mk.injEq] at h
    simp [← h.1, hPS]

/-- Both backends walk by all indices of the address; the five-level
`unmap_page` does where its top indices agree. -/
theorem x86PagingInit_unmapPage {src : FrameSource σ} {la57 : Bool} {v : Word}
    (h : la57 = true → TopAgrees v) (m : Machine σ) (pmlt : Word) :
    (x86PagingInit src la57).unmapPage m pmlt v
      = unmapPage m pmlt (upperIndices v (upperLevels la57)) (index 1 v) (index 0 v) := by
  cases la57 with
  | false => rfl
  | true =>
      have htop : index 4 v = index 3 v := h rfl
      show unmapPage m pmlt [index 3 v, index 3 v, index 2 v] (index 1 v) (index 0 v)
        = unmapPage m pmlt [index 4 v, index 3 v, index 2 v] (index 1 v) (index 0 v)
      rw [htop]

theorem x86PagingInit_pageEntry (src : FrameSource σ) (la57 : Bool) (m : Machine σ)
    (pmlt v : Word) :
    (x86PagingInit src la57).pageEntry m pmlt v
      = pageEntry m pmlt (upperIndices v (upperLevels la57)) (index 1 v) (index 0 v) := by
  cases la57 <;> rfl

/-- **One call of a backend is the call on the address space.** -/
theorem Holds.call {src : FrameSource σ} {la57 : Bool} {pmlt : Word} {m m' : Machine σ}
    {A : Space} {c : PagingCall} {reply : PagingReply}
    (hF : Forest src (single pmlt) (upperLevels la57 + 1) m) (hA : Holds la57 pmlt m A)
    (hv : InRange la57 c.vaddr) (hc : Admissible la57 pmlt m c)
    (h : (x86PagingInit src la57).call pmlt m c = .ok (reply, m')) :
    Forest src (single pmlt) (upperLevels la57 + 1) m' ∧ reply = (A.call c).1 ∧
      Holds la57 pmlt m' (A.call c).2 := by
  cases c with
  | mapPage v paddr flags =>
      obtain ⟨⟨ptr, m₁⟩, hmap, h⟩ := Exec.bind_eq_ok.mp h
      simp only [Except.ok.injEq, Prod.mk.injEq] at h
      obtain ⟨rfl, rfl⟩ := h
      rw [x86PagingInit_mapPage] at hmap
      obtain ⟨hF', hslot, hsame⟩ := hF.slotOf_mapPage (r := ()) hc.1.presentFlags
        (linkExtra_within la57)
        (hF.unobstructed_iff.mp hc.2) hmap
      refine ⟨hF', congrArg PagingReply.mapped (mapPage_null hmap), ?_⟩
      refine hA.update hv ?_ fun v' hne => hsame () v' fun hc => hne hc.2
      rw [← hA v hv]
      exact hslot
  | unmapPage v =>
      simp only [Pager.call, Except.ok.injEq, Prod.mk.injEq] at h
      obtain ⟨rfl, rfl⟩ := h
      rw [x86PagingInit_unmapPage hc]
      obtain ⟨hF', hsize, hslot, hsame⟩ := hF.slotOf_unmapPage (r := ()) (v := v)
      refine ⟨hF', congrArg PagingReply.unmapped (hsize.trans ?_), ?_⟩
      · rw [← hA v hv]
        rfl
      · refine hA.update hv ?_ fun v' hne => hsame () v' fun hc => hne hc.2
        rw [← hA v hv]
        exact hslot
  | pageEntry v =>
      simp only [Pager.call, Except.ok.injEq, Prod.mk.injEq] at h
      obtain ⟨rfl, rfl⟩ := h
      refine ⟨hF, congrArg PagingReply.entry ?_, hA⟩
      rw [x86PagingInit_pageEntry, ← hA v hv]
      exact hF.pageEntry_eq (r := ()) (by simp)

/-- The tables hold the address space that the calls of a session make, and the
replies are its replies. -/
structure Session.Inv (src : FrameSource σ) (la57 : Bool) (pmlt : Word) (s : Session σ) :
    Prop where
  forest : Forest src (single pmlt) (upperLevels la57 + 1) s.machine
  holds : Holds la57 pmlt s.machine (Space.run s.calls).2
  replies : s.replies = (Space.run s.calls).1

theorem Session.Inv.step {src : FrameSource σ} {la57 : Bool} {pmlt : Word} (s s' : Session σ)
    (hI : s.Inv src la57 pmlt) (hs : Session.Step src la57 pmlt s s') :
    s'.Inv src la57 pmlt := by
  obtain ⟨c, hv, hc, h⟩ := hs
  obtain ⟨hF, hreply, hA⟩ := hI.holds.call hI.forest hv hc h
  refine ⟨hF, ?_, ?_⟩
  · rw [Space.run_append]
    exact hA
  · show s.replies ++ [_] = _
    rw [Space.run_append, hI.replies, hreply]

theorem Session.inv_of_run {src : FrameSource σ} {la57 : Bool} {pmlt : Word} {m₀ : Machine σ}
    {s : Session σ} (hblank : m₀.Blank src pmlt)
    (hrun : Run (Session.Step src la57 pmlt) ⟨m₀, [], []⟩ s) : s.Inv src la57 pmlt := by
  refine Run.invariant Session.Inv.step ⟨hblank.forest _, fun v _ => ?_, rfl⟩ hrun
  exact slotOf_empty hblank.empty (by cases la57 <;> decide) v

theorem Session.Inv.translate_eq {src : FrameSource σ} {la57 : Bool} {pmlt : Word}
    {s : Session σ} (hI : s.Inv src la57 pmlt) {v : Word} (hv : InRange la57 v) :
    translate s.machine.mem (pagingLevels la57) pmlt v
      = Space.translate (Space.run s.calls).2 v := by
  rw [Space.translate, ← hI.holds v hv]
  exact hI.forest.translate_eq (r := ())

/-- **The two backends agree.**  A five-level session whose `unmap_page` calls
have agreeing top indices replies and translates as the address space does, for
all addresses of 57 bits; and a four-level session with the same calls gives the
same replies and, on addresses of 48 bits, the same translations. -/
theorem pml5_agrees_pml4 {τ : Type} {src₅ : FrameSource σ} {src₄ : FrameSource τ}
    {pmlt₅ pmlt₄ : Word} {m₅ : Machine σ} {m₄ : Machine τ} {s₅ : Session σ} {s₄ : Session τ}
    (hblank₅ : m₅.Blank src₅ pmlt₅) (hblank₄ : m₄.Blank src₄ pmlt₄)
    (hrun₅ : Run (Session.Step src₅ true pmlt₅) ⟨m₅, [], []⟩ s₅)
    (hrun₄ : Run (Session.Step src₄ false pmlt₄) ⟨m₄, [], []⟩ s₄) :
    (s₅.replies = (Space.run s₅.calls).1 ∧
      ∀ v, translate s₅.machine.mem 5 pmlt₅ v = Space.translate (Space.run s₅.calls).2 v) ∧
    (s₄.calls = s₅.calls → s₄.replies = s₅.replies ∧
      ∀ v, sameBits 48 57 v 0 →
        translate s₄.machine.mem 4 pmlt₄ v = translate s₅.machine.mem 5 pmlt₅ v) := by
  have hI₅ := Session.inv_of_run hblank₅ hrun₅
  have hI₄ := Session.inv_of_run hblank₄ hrun₄
  have hspace₅ : ∀ v, translate s₅.machine.mem 5 pmlt₅ v
      = Space.translate (Space.run s₅.calls).2 v := fun v => hI₅.translate_eq (nofun)
  refine ⟨⟨hI₅.replies, hspace₅⟩, fun hcalls => ⟨?_, fun v hv => ?_⟩⟩
  · rw [hI₄.replies, hI₅.replies, hcalls]
  · rw [hspace₅ v, ← hcalls]
    exact hI₄.translate_eq fun _ => hv

/-- A session of two calls: a page is mapped at the bottom of the address space
and unmapped again. -/
theorem exists_session (la57 : Bool) :
    ∃ s, Run (Session.Step .ofList la57 0x101000) ⟨bootMachine, [], []⟩ s ∧
      s.calls = [.mapPage 0 0x300000 (flagP ||| flagRW), .unmapPage 0] := by
  have hret : (((x86PagingInit .ofList la57).call 0x101000 bootMachine
      (.mapPage 0 0x300000 (flagP ||| flagRW))).map fun _ => ()) = .ok () := by
    cases la57 <;> decide +kernel
  obtain ⟨⟨reply, m⟩, hcall, -⟩ := Exec.exists_of_map_eq_ok hret
  have hrange : InRange la57 0 := fun _ => sameBits_refl _ _ _
  have hmap : Admissible la57 0x101000 bootMachine (.mapPage 0 0x300000 (flagP ||| flagRW)) :=
    ⟨by decide +kernel, bootMachine_unobstructed la57 _ _⟩
  have htop : TopAgrees 0 := by decide +kernel
  have hstep := Session.Step.call (s := ⟨bootMachine, [], []⟩) _ hrange hmap hcall
  exact ⟨_, (Relation.ReflTransGen.single hstep).tail
    (.call (.unmapPage 0) hrange (fun _ => htop) rfl), rfl⟩

theorem pml5_agrees_pml4_boot :
    ∃ s₅ s₄, Run (Session.Step .ofList true 0x101000) ⟨bootMachine, [], []⟩ s₅ ∧
      Run (Session.Step .ofList false 0x101000) ⟨bootMachine, [], []⟩ s₄ ∧
      s₄.calls = s₅.calls ∧ s₅.calls.length = 2 ∧ s₄.replies = s₅.replies := by
  obtain ⟨s₅, hrun₅, hcalls₅⟩ := exists_session true
  obtain ⟨s₄, hrun₄, hcalls₄⟩ := exists_session false
  have hcalls : s₄.calls = s₅.calls := hcalls₄.trans hcalls₅.symm
  refine ⟨s₅, s₄, hrun₅, hrun₄, hcalls, by rw [hcalls₅]; rfl, ?_⟩
  exact ((pml5_agrees_pml4 bootMachine_blank bootMachine_blank hrun₅ hrun₄).2 hcalls).1

/-- A small page mapped in the empty table makes its region a table, and leaves
the others empty. -/
theorem bootMachine_mapPage (la57 : Bool) (v : Word) :
    ∃ ptr m, (x86PagingInit .ofList la57).mapPage bootMachine 0x101000 v 0x300000
        (flagP ||| flagRW) = .ok (ptr, m) ∧
      Forest .ofList (single 0x101000) (upperLevels la57 + 1) m ∧
      slotOf m.mem (upperLevels la57) 0x101000 v
        = Slot.absent.mapPage (index 0 v) 0x300000 (flagP ||| flagRW) ∧
      ∀ v', ¬ sameBits 21 (30 + 9 * upperLevels la57) v v' →
        slotOf m.mem (upperLevels la57) 0x101000 v' = .absent := by
  have hF := bootMachine_blank.forest (upperLevels la57 + 1)
  have hempty := slotOf_empty bootMachine_blank.empty
    (show upperLevels la57 ≠ 0 by cases la57 <;> decide)
  have hsup : FrameSource.ofList.Supplies (upperLevels la57 + 1) bootMachine.pmm :=
    (FreeList.supplies _).of_le (by cases la57 <;> decide)
  have hm : Mappable 0x300000 (flagP ||| flagRW) := by decide +kernel
  obtain ⟨ptr, m, h⟩ : ∃ ptr m, mapPage .ofList (linkExtra la57) bootMachine 0x101000
      (upperIndices v (upperLevels la57)) (index 1 v) (index 0 v) 0x300000 (flagP ||| flagRW)
      = .ok (ptr, m) := mapPage_returns (by simpa using hsup)
  obtain ⟨hF', hslot, hsame⟩ := hF.slotOf_mapPage (r := ()) hm.presentFlags (linkExtra_within la57)
    (hF.unobstructed_iff.mp (bootMachine_unobstructed la57 v _)) h
  refine ⟨ptr, m, (x86PagingInit_mapPage ..).trans h, hF', ?_, fun v' hne => ?_⟩
  · rw [← hempty v]
    exact hslot
  · rw [← hempty v']
    exact hsame () v' fun hc => hne hc.2

/-- **The five-level `unmap_page` misses the page.**  The address `0x8000000000`
has bits 48 to 56 zero and `pml4_index` 1.  After the same `map_page`, the
four-level `unmap_page` takes the page away and returns its size; the five-level
one looks under the top-level entry 1, returns 0 and leaves the page. -/
theorem pml5UnmapPage_keeps_page :
    ∃ ptr₄ m₄ ptr₅ m₅,
      pml4MapPage .ofList bootMachine 0x101000 0x8000000000 0x300000 (flagP ||| flagRW)
        = .ok (ptr₄, m₄) ∧
      pml5MapPage .ofList bootMachine 0x101000 0x8000000000 0x300000 (flagP ||| flagRW)
        = .ok (ptr₅, m₅) ∧
      (pml4UnmapPage m₄ 0x101000 0x8000000000).1 = 0x1000 ∧
      (pml5UnmapPage m₅ 0x101000 0x8000000000).1 = 0 ∧
      translate (pml4UnmapPage m₄ 0x101000 0x8000000000).2.mem 4 0x101000 0x8000000000 = none ∧
      translate (pml5UnmapPage m₅ 0x101000 0x8000000000).2.mem 5 0x101000 0x8000000000
        = some ⟨0x300000, flagP ||| flagRW, .small⟩ := by
  obtain ⟨ptr₄, m₄, h₄, hF₄, hslot₄, -⟩ := bootMachine_mapPage false 0x8000000000
  obtain ⟨ptr₅, m₅, h₅, hF₅, hslot₅, hempty₅⟩ := bootMachine_mapPage true 0x8000000000
  have hmap : Slot.absent.mapPage (index 0 0x8000000000) 0x300000 (flagP ||| flagRW)
      = .table (Function.update 0 0 (0x300000 ||| (flagP ||| flagRW))) :=
    if_neg (by decide)
  have htr : (Slot.table (Function.update 0 0 (0x300000 ||| (flagP ||| flagRW)))).translate
      (index 0 0x8000000000) = some ⟨0x300000, flagP ||| flagRW, .small⟩ := by
    decide +kernel
  rw [hmap] at hslot₄ hslot₅
  -- the five-level walk is the one of this other address
  have hother : pml5UnmapPage m₅ 0x101000 0x8000000000
      = unmapPage m₅ 0x101000 (upperIndices 0x1008000000000 3) (index 1 0x1008000000000)
          (index 0 0x1008000000000) := by
    have hpath : [index 3 0x8000000000, index 3 0x8000000000, index 2 0x8000000000]
        = upperIndices 0x1008000000000 3 := by decide +kernel
    rw [← hpath]
    rfl
  have hmiss : slotOf m₅.mem 3 0x101000 0x1008000000000 = .absent :=
    hempty₅ 0x1008000000000 (by decide +kernel)
  obtain ⟨-, hsize₄, -, -⟩ := hF₄.slotOf_unmapPage (r := ()) (v := 0x8000000000)
  obtain ⟨-, hsize₅, -, -⟩ := hF₅.slotOf_unmapPage (r := ()) (v := 0x1008000000000)
  have htr₄ := hF₄.translate_unmapPage (r := ()) (v := 0x8000000000) () 0x8000000000
  have htr₅ := hF₅.translate_unmapPage (r := ()) (v := 0x1008000000000) () 0x8000000000
  refine ⟨ptr₄, m₄, ptr₅, m₅, h₄, h₅, ?_, ?_, ?_, ?_⟩
  · refine hsize₄.trans ?_
    rw [show slotOf m₄.mem (upperLevels false) (single 0x101000 ()) _ = _ from hslot₄]
    rfl
  · rw [hother]
    refine hsize₅.trans ?_
    rw [show slotOf m₅.mem (upperLevels true) (single 0x101000 ()) _ = _ from hmiss]
    rfl
  · refine htr₄.trans (if_pos ⟨rfl, ⟨0x300000, flagP ||| flagRW, .small⟩, ?_, ?_⟩)
    · refine hF₄.translate_eq.trans ?_
      rw [show slotOf m₄.mem (upperLevels false) (single 0x101000 ()) _ = _ from hslot₄]
      exact htr
    · exact sameBits_refl _ _ _
  · rw [hother]
    refine htr₅.trans ((if_neg ?_).trans ?_)
    · rintro ⟨-, tr, htr', -⟩
      have hnone : translate m₅.mem 5 (single 0x101000 ()) 0x1008000000000 = _ :=
        hF₅.translate_eq
      rw [show slotOf m₅.mem (upperLevels true) (single 0x101000 ()) _ = _ from hmiss] at hnone
      exact absurd (htr'.symm.trans hnone) (by simp [Slot.translate])
    · refine hF₅.translate_eq.trans ?_
      rw [show slotOf m₅.mem (upperLevels true) (single 0x101000 ()) _ = _ from hslot₅]
      exact htr

end Rock
