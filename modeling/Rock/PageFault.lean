/-
Rock/PageFault.lean

Whether a page fault that `portal_resolve_fault` reports as resolved is resolved.

When it returns 0, `isr_handler_main` returns to the instruction that faulted.  The
access goes through then only if the walk of the page permits it.  Two things can
go wrong.  A fault on a present page (`P` set in the error code) has no handler
besides those of the software bits of the entry: 0 is returned and nothing was
done, so a write to a read-only page faults forever (`resolved_fault_repeats`).  And
a missing page is mapped with the protections of its portal whatever the access
was.  `resolved_fault_permits_iff` says exactly when the access goes through.
-/
import Rock.Access
import Rock.PagingBackends
import Rock.PortalFailure

namespace Rock

open TableTree

variable {σ R : Type}

/-! ### What the handler reads -/

/-- The walk of `v` in the page table `r` goes through for the access. -/
def Machine.Permits (la57 : Bool) (root : R → Word) (m : Machine σ) (r : R) (v : Word)
    (a : Access) : Prop :=
  hwPermits m.mem v a (pagingLevels la57) (root r)

/-- `portal_resolve_fault`, with its checks for `NULL`. -/
def resolveFault (fayt : PortalLib) (src : FrameSource σ) (la57 : Bool) (root : R → Word)
    [DecidableEq R] (context : Option (Option R)) (s : PortalState σ R) (addr code : Word) :
    Exec (ℤ × PortalState σ R) :=
  match context with
  | none => .ok (-1, s)
  | some none => .ok (-1, s)
  | some (some r) => portalResolveFault fayt src la57 root s r addr code

section Handler

variable (fayt : PortalLib) (src : FrameSource σ) (la57 : Bool) (root : R → Word)
  (s : PortalState σ R) (r : R) (p : Portal)

/-- The entry that `portal_resolve_fault` reads before the handlers run. -/
def PortalState.entryOf (addr : Word) : Word :=
  ((x86PagingInit src la57).pageEntry s.machine (root r) (addr &&& ~~~0xfff)).elim 0
    fun w => s.machine.mem w.page w.idx

/-- The entry has one of the bits whose handlers fail. -/
def Marked (e : Word) : Prop := has e pageFaultCow ∨ has e pageFaultShare ∨ has e pageFaultSp

instance (e : Word) : Decidable (Marked e) := inferInstanceAs (Decidable (_ ∨ _ ∨ _))

/-- The share point of the portal, if it has one, has the page at `v`. -/
def PortalState.Backable (v : Word) : Prop :=
  hasBit p.type portalReqShare → ∃ point, s.shareMap p.identifier = some point ∧
    ¬ (v - p.base) / 0x1000 > (point.length - fayt.sharePointSize) / 8

/-- No frame is left for the page at `v`. -/
def PortalState.Exhausted (v : Word) : Prop :=
  (s.FrameKnown p v → src.alloc s.machine.pmm = none) ∧
    (¬ s.FrameKnown p v → src.alloc (allocPage src s.machine).2.pmm = none)

/-- The entries that are present above the page at `v` permit the access. -/
def PortalState.UpperAllows (v : Word) (a : Access) : Prop :=
  ∀ q j, q ++ [j] <+: upperIndices v (upperLevels la57) ++ [index 1 v] →
    ∀ e, presentAt s.machine.mem (root r) q j = some e → a.AllowedBy e

end Handler

section Faults

variable {fayt : PortalLib} {src : FrameSource σ} {la57 : Bool} {root : R → Word}
  {s s' : PortalState σ R} {r : R} {p : Portal}

theorem faultFrame_isSome_iff {v : Word} :
    (faultFrame fayt src s p v).isSome ↔ s.Backable fayt p v := by
  unfold faultFrame PortalState.Backable
  by_cases hshare : hasBit p.type portalReqShare
  · rcases hpoint : s.shareMap p.identifier with - | point
    · simp [hshare]
    · simp only [hshare, if_true]
      constructor
      · intro hsome _
        refine ⟨point, rfl, fun hidx => ?_⟩
        rw [if_pos hidx] at hsome
        cases hsome
      · intro hback
        obtain ⟨point', hpoint', hidx⟩ := hback trivial
        cases hpoint'
        rw [if_neg hidx]
        split_ifs <;> rfl
  · simp [hshare]

/-- The handlers of marked entries, which all fail. -/
theorem marked_handlers {e : Word} {ret ret' : ℤ} {s₁ : PortalState σ R}
    (h : (if ret' = -1 then pure (-1, s₁)
      else if has e pageFaultCow ∧ portalFaultCow = -1 then pure (-1, s₁)
      else if has e pageFaultShare ∧ portalFaultShare = -1 then pure (-1, s₁)
      else if has e pageFaultSp ∧ portalFaultSp = -1 then pure (-1, s₁)
      else pure (0, s₁) : Exec (ℤ × PortalState σ R)) = .ok (ret, s')) :
    s₁ = s' ∧ ret = if ret' = -1 ∨ Marked e then -1 else 0 := by
  split_ifs at h with hret hcow hshare hsp <;> cases h
  · exact ⟨rfl, (if_pos (.inl hret)).symm⟩
  · exact ⟨rfl, (if_pos (.inr (.inl hcow.1))).symm⟩
  · exact ⟨rfl, (if_pos (.inr (.inr (.inl hshare.1)))).symm⟩
  · exact ⟨rfl, (if_pos (.inr (.inr (.inr hsp.1)))).symm⟩
  · refine ⟨rfl, (if_neg ?_).symm⟩
    rintro (hc | hc | hc | hc)
    · exact hret hc
    · exact hcow ⟨hc, rfl⟩
    · exact hshare ⟨hc, rfl⟩
    · exact hsp ⟨hc, rfl⟩

/-- **What `portal_resolve_fault` does**: the handler of missing pages, if `P` is clear,
and then it fails if the entry is marked. -/
theorem portalResolveFault_cases [DecidableEq R] {addr code : Word} {ret : ℤ}
    (h : portalResolveFault fayt src la57 root s r addr code = .ok (ret, s')) :
    (has code flagP ∧ s' = s ∧ ret = if Marked (s.entryOf src la57 root r addr) then -1 else 0) ∨
    (¬ has code flagP ∧ ∃ ret', portalFaultAnon fayt src la57 root s r addr = .ok (ret', s') ∧
      ret = if ret' = -1 ∨ Marked (s.entryOf src la57 root r addr) then -1 else 0) := by
  unfold portalResolveFault at h
  dsimp only at h
  by_cases hP : has code flagP
  · rw [if_neg (not_not_intro hP)] at h
    obtain ⟨⟨ret', s₁⟩, h₁, h⟩ := Exec.bind_eq_ok.mp h
    cases h₁
    obtain ⟨rfl, hret⟩ := marked_handlers h
    exact .inl ⟨hP, rfl,
      hret.trans (if_congr (or_iff_right (show ¬ (0 : ℤ) = -1 by decide)) rfl rfl)⟩
  · rw [if_pos hP] at h
    obtain ⟨⟨ret', s₁⟩, h₁, h⟩ := Exec.bind_eq_ok.mp h
    obtain ⟨rfl, hret⟩ := marked_handlers h
    exact .inr ⟨hP, ret', h₁, hret⟩

/-! ### The access after a missing page was mapped -/

/-- Taking a page of data changes no entry. -/
theorem Forest.presentAt_allocPage {m : Machine σ} (hF : Forest src root (upperLevels la57 + 1) m)
    {q : List (BitVec 9)} (hq : q.length ≤ upperLevels la57 + 1) (j : BitVec 9) :
    presentAt (allocPage src m).2.mem (root r) q j = presentAt m.mem (root r) q j := by
  unfold allocPage
  rcases ha : src.alloc m.pmm with - | ⟨f, s⟩
  · rfl
  · refine presentAt_congr (hF.tableAt_takePage ha hq) fun u hu => ?_
    rw [hF.takePage_mem ha hq hu]

theorem faultFrame_presentAt {v paddr : Word}
    (hF : Forest src root (upperLevels la57 + 1) s.machine)
    (h : faultFrame fayt src s p v = some (paddr, s')) {q : List (BitVec 9)}
    (hq : q.length ≤ upperLevels la57 + 1) (j : BitVec 9) :
    presentAt s'.machine.mem (root r) q j = presentAt s.machine.mem (root r) q j := by
  rcases faultFrame_machine h with ⟨-, hmachine⟩ | ⟨-, hmachine⟩ <;> rw [hmachine]
  exact hF.presentAt_allocPage hq j

theorem exhausted_iff {v paddr : Word} (h : faultFrame fayt src s p v = some (paddr, s')) :
    s.Exhausted src p v ↔ src.alloc s'.machine.pmm = none := by
  unfold PortalState.Exhausted
  rcases faultFrame_machine h with ⟨hknown, hmachine⟩ | ⟨hknown, hmachine⟩
  · simp [hknown, hmachine]
  · simp [hknown, hmachine]

/-- An entry with all bits permits everything but a fetch. -/
theorem Access.allowedBy_ones {a : Access} {flags : Word} :
    a.AllowedBy (-1 ||| flags) ↔ a.fetch = false := by
  have hones : (-1 : Word) ||| flags = -1 := by
    rw [show (-1 : Word) = BitVec.allOnes 64 from rfl, BitVec.allOnes_or]
  unfold Access.AllowedBy
  rw [hones]
  have hRW : has (-1 : Word) flagRW := by decide
  have hUS : has (-1 : Word) flagUS := by decide
  have hNX : has (-1 : Word) flagNX := by decide
  constructor
  · exact fun h => Bool.eq_false_iff.mpr fun hfetch => h.2.2 hfetch hNX
  · exact fun hfetch => ⟨fun _ => hRW, fun _ => hUS, fun hc => by rw [hfetch] at hc; cases hc⟩

/-- **The access to a page just mapped** goes through exactly if the entries above it
permit it and its portal does; the page without a frame permits all but a fetch. -/
theorem portalFaultAnon_permits [DecidableEq R] {addr paddr : Word} {s₁ : PortalState σ R}
    {ptr : Option Ptr} {a : Access} (hF : Forest src root (upperLevels la57 + 1) s.machine)
    (hnone : s.machine.lookup la57 root r (addr &&& ~~~0xfff) = none)
    (hframe : faultFrame fayt src s p (addr &&& ~~~0xfff) = some (paddr, s₁))
    (hmap : (x86PagingInit src la57).mapPage (allocPage src s₁.machine).2 (root r)
      (addr &&& ~~~0xfff) (allocPage src s₁.machine).1 (portalTranslateProtections p.prot)
      = .ok (ptr, s'.machine)) :
    s'.machine.Permits la57 root r (addr &&& ~~~0xfff) a ↔
      s.UpperAllows la57 root r (addr &&& ~~~0xfff) a ∧
      (s.Exhausted src p (addr &&& ~~~0xfff) → a.fetch = false) ∧
      (¬ s.Exhausted src p (addr &&& ~~~0xfff) →
        a.AllowedBy (portalTranslateProtections p.prot)) := by
  have hbacked := faultFrame_backed hF hframe
  obtain ⟨hF₂, hlookup₂, -⟩ := hbacked.forest.allocPage_keeps
  obtain ⟨hflags, hPS⟩ := portalTranslateProtections_flags p.prot
  rw [x86PagingInit_mapPage] at hmap
  have hopen : (slotOf (allocPage src s₁.machine).2.mem (upperLevels la57) (root r)
      (addr &&& ~~~0xfff)).Open := by
    refine hF₂.open_iff.mpr fun tr htr => ?_
    cases htr.symm.trans ((hlookup₂ r _).trans ((hbacked.lookup r _).trans hnone))
  have hpermits := hF₂.permits_mapPage (a := a) hflags hPS (linkExtra_within la57) hopen hmap
  obtain ⟨hpath, -⟩ := hF₂.mapPage_present (by simp) hflags hPS (linkExtra_within la57) hopen hmap
  -- the frames that were taken are no tables
  have hentries : ∀ q j, q ++ [j] <+: upperIndices (addr &&& ~~~0xfff) (upperLevels la57)
      ++ [index 1 (addr &&& ~~~0xfff)] →
      presentAt (allocPage src s₁.machine).2.mem (root r) q j
        = presentAt s.machine.mem (root r) q j := by
    intro q j hpre
    have hq : q.length ≤ upperLevels la57 + 1 := by
      have := hpre.length_le
      simp at this
      omega
    rw [hbacked.forest.presentAt_allocPage hq, faultFrame_presentAt hF hframe hq]
  have hupper : s.UpperAllows la57 root r (addr &&& ~~~0xfff) a ↔ ∀ q j, q ++ [j] <+:
      upperIndices (addr &&& ~~~0xfff) (upperLevels la57) ++ [index 1 (addr &&& ~~~0xfff)] →
      ∀ e, presentAt (allocPage src s₁.machine).2.mem (root r) q j = some e → a.AllowedBy e := by
    refine forall_congr' fun q => forall_congr' fun j => forall_congr' fun hpre => ?_
    rw [hentries q j hpre]
  refine hpermits.trans (and_congr hupper.symm ?_)
  rw [exhausted_iff hframe]
  rcases ha : src.alloc s₁.machine.pmm with - | ⟨f, x⟩
  · -- no frame is left, so no table was missing
    rw [allocPage_eq_of_none ha] at hpath ⊢
    rw [Access.allowedBy_ones]
    refine ⟨fun hc => ⟨fun _ => hc.1, fun hne => absurd rfl hne⟩, fun hc => ⟨hc.1 rfl, ?_⟩⟩
    rintro ⟨q, j, hpre, hmissing⟩
    obtain ⟨e, -, hkept⟩ := hpath q j hpre
    rcases hkept with hold | ⟨-, hsome, -⟩
    · cases hmissing.symm.trans hold
    · rw [ha] at hsome
      cases hsome
  · rw [allocPage_eq_of_some ha, Access.allowedBy_frame_or (src.alloc_frame ha)]
    have hleft : some (f, x) ≠ none := Option.some_ne_none _
    refine ⟨fun hc => ⟨fun hnone => absurd hnone hleft, fun _ => hc.1⟩, fun hc => ?_⟩
    exact ⟨hc.2 hleft, fun _ => (hc.2 hleft).link (linkExtra_within la57)⟩

/-- What a fault needs for the access to go through afterwards, if it is not refused: an
access to a present page is permitted already; for a missing page, the entries above it
and the protections of the portal that is found permit the access. -/
def PortalState.Settles (fayt : PortalLib) (src : FrameSource σ) (la57 : Bool) (root : R → Word)
    (s : PortalState σ R) (r : R) (addr code : Word) : Prop :=
  ¬ Marked (s.entryOf src la57 root r addr) →
    (has code flagP → s.machine.Permits la57 root r (addr &&& ~~~0xfff) (.ofCode code)) ∧
    (¬ has code flagP → ∀ p, (s.portals r).find addr = some p →
      s.Backable fayt p (addr &&& ~~~0xfff) →
      fayt.pushPageFails (s.pages r) (addr &&& ~~~0xfff) = false →
      s.UpperAllows la57 root r (addr &&& ~~~0xfff) (.ofCode code) ∧
      (s.Exhausted src p (addr &&& ~~~0xfff) → (Access.ofCode code).fetch = false) ∧
      (¬ s.Exhausted src p (addr &&& ~~~0xfff) →
        (Access.ofCode code).AllowedBy (portalTranslateProtections p.prot)))

/-- **When a resolved fault is resolved.**  For every fault, where an error code with `P`
clear means that the page is missing: that the access goes through if
`portal_resolve_fault` returns 0 is the same as `Settles`, which the state before the
fault decides. -/
theorem resolved_fault_permits_iff [DecidableEq R] {context : Option (Option R)}
    {addr code : Word} {ret : ℤ} (hF : Forest src root (upperLevels la57 + 1) s.machine)
    (hcode : ¬ has code flagP → ∀ r, context = some (some r) →
      s.machine.lookup la57 root r (addr &&& ~~~0xfff) = none)
    (h : resolveFault fayt src la57 root context s addr code = .ok (ret, s')) :
    (ret = 0 → ∀ r, context = some (some r) →
      s'.machine.Permits la57 root r (addr &&& ~~~0xfff) (.ofCode code)) ↔
    ∀ r, context = some (some r) → s.Settles fayt src la57 root r addr code := by
  rcases context with - | - | r
  · exact iff_of_true (fun _ _ => nofun) (fun _ => nofun)
  · exact iff_of_true (fun _ _ => nofun) (fun _ => nofun)
  have hone : ∀ {P : R → Prop}, (∀ r', some (some r) = some (some r') → P r') ↔ P r := by
    intro P
    simp
  rw [hone, hone]
  have hret : ∀ {P : Prop} [Decidable P], ((if P then -1 else 0 : ℤ) = 0) ↔ ¬ P := by
    intro P _
    split_ifs with hP <;> simp [hP]
  rcases portalResolveFault_cases h with ⟨hP, rfl, rfl⟩ | ⟨hP, ret', hanon, rfl⟩
  · rw [hret]
    exact forall_congr' fun _ => by simp [hP]
  · rw [hret]
    have hnone := hcode hP r rfl
    rcases portalFaultAnon_cases hanon with ⟨rfl, -, hlost⟩ |
      ⟨p, paddr, s₁, ptr, hfind, hframe, hmap, -, -, rfl⟩
    · refine iff_of_true (fun hc => absurd (.inl rfl) hc) fun _ => ⟨fun hc => absurd hc hP, ?_⟩
      intro _ p hfind hback _
      have hsome : (faultFrame fayt src s p (addr &&& ~~~0xfff)).isSome :=
        faultFrame_isSome_iff.mpr hback
      rw [hlost p hfind] at hsome
      cases hsome
    · have hpages := (faultFrame_backed hF hframe).pages
      have hback : s.Backable fayt p (addr &&& ~~~0xfff) := by
        have hsome : (faultFrame fayt src s p (addr &&& ~~~0xfff)).isSome := by
          rw [hframe]
          rfl
        exact faultFrame_isSome_iff.mp hsome
      rw [portalFaultAnon_permits hF hnone hframe hmap, hpages]
      constructor
      · intro hall hmarked
        refine ⟨fun hc => absurd hc hP, fun _ p' hfind' _ hpush => ?_⟩
        cases hfind.symm.trans hfind'
        refine hall ?_
        rintro (hc | hc)
        · rw [if_neg (by rw [hpush]; exact nofun)] at hc
          exact absurd hc (by decide)
        · exact hmarked hc
      · intro hsettles hok
        refine (hsettles fun hc => hok (.inr hc)).2 hP p hfind hback ?_
        by_contra hpush
        exact hok (.inl (if_pos (by simpa using hpush)))

end Faults

/-- A first touch of a page of the share point by a write from user mode. -/
theorem resolved_fault_permits_touched :
    ∃ s', resolveFault portalLib .ofList false twoRoots (some (some false)) openedBoth.kernel
        0x400000 6 = .ok (0, s') ∧
      openedBoth.kernel.Settles portalLib .ofList false twoRoots false 0x400000 6 ∧
      s'.machine.Permits false twoRoots false 0x400000 (.ofCode 6) := by
  have hnone : openedBoth.kernel.machine.lookup false twoRoots false (0x400000 &&& ~~~0xfff)
      = none :=
    twoTables_lookup false _
  have hfind : (openedBoth.kernel.portals false).find 0x400000 = some (queuePortal false) := by
    decide +kernel
  have hidx : ¬ ((0x400000 &&& ~~~0xfff) - (queuePortal false).base) / 0x1000 >
      ((49 : Word) - portalLib.sharePointSize) / 8 := by decide
  have hpoint : openedBoth.kernel.shareMap (queuePortal false).identifier
      = some ⟨"queue", 49, fun _ => 0⟩ := rfl
  have hF : Forest .ofList twoRoots (upperLevels false + 1) openedBoth.kernel.machine :=
    twoTables_forest 3
  have hsup : FrameSource.ofList.Supplies (upperLevels false + (0 + 1) + 2)
      openedBoth.kernel.machine.pmm := (FreeList.supplies _).of_le (by decide)
  obtain ⟨ret, s', f, flags, hresolve, -, -⟩ := portalResolveFault_returns hF hnone
    (show ¬ has 6 flagP by decide) hfind hpoint hidx hsup
  have hsome : (faultFrame portalLib .ofList openedBoth.kernel (queuePortal false)
      (0x400000 &&& ~~~0xfff)).isSome :=
    faultFrame_isSome_iff.mpr fun _ => ⟨_, hpoint, hidx⟩
  obtain rfl : ret = 0 := by
    rcases portalResolveFault_cases hresolve with ⟨hP, -⟩ | ⟨-, ret', hanon, hret⟩
    · exact absurd hP (by decide)
    · have hret' : ret' = 0 := by
        rcases portalFaultAnon_cases hanon with
          ⟨-, -, hlost⟩ | ⟨_, _, _, _, -, -, -, -, -, hret'⟩
        · rw [hlost _ hfind] at hsome
          cases hsome
        · exact hret'
      have hmarked :
          ¬ Marked (openedBoth.kernel.entryOf .ofList false twoRoots false 0x400000) := by
        decide +kernel
      exact hret.trans (if_neg fun hc => hc.elim (by rw [hret']; decide) hmarked)
  have hcall : resolveFault portalLib .ofList false twoRoots (some (some false)) openedBoth.kernel
      0x400000 6 = .ok (0, s') := hresolve
  have hsettles : openedBoth.kernel.Settles portalLib .ofList false twoRoots false 0x400000 6 := by
    refine fun _ => ⟨fun hP => absurd hP (by decide), fun _ p hp _ _ => ⟨?_, ?_, ?_⟩⟩
    · intro q j _ e he
      have hempty : openedBoth.kernel.machine.mem (twoRoots false) = 0 := rfl
      cases (presentAt_empty hempty).symm.trans he
    · exact fun _ => by decide
    · cases hfind.symm.trans hp
      exact fun _ => by decide
  refine ⟨s', hcall, hsettles, ?_⟩
  refine (resolved_fault_permits_iff hF (fun _ r _ => twoTables_lookup r _) hcall).mpr ?_ rfl
    false rfl
  rintro r hr
  cases hr
  exact hsettles

/-! ### A write to a read-only page -/

/-- The entry of a page that was just mapped is what was written. -/
theorem entryOf_mapPage {la57 : Bool} {src : FrameSource σ} {root : R → Word}
    {m : Machine σ} {s : PortalState σ R} {r : R} {addr paddr flags : Word} {ptr : Option Ptr}
    (hF : Forest src root (upperLevels la57 + 1) m) (hflags : PresentFlags flags)
    (hsmall : ¬ has flags flagPS) (hnone : m.lookup la57 root r (addr &&& ~~~0xfff) = none)
    (h : (x86PagingInit src la57).mapPage m (root r) (addr &&& ~~~0xfff) paddr flags
      = .ok (ptr, s.machine)) :
    s.entryOf src la57 root r addr = paddr ||| flags := by
  rw [x86PagingInit_mapPage] at h
  have hopen : ¬ has flags flagPS →
      (slotOf m.mem (upperLevels la57) (root r) (addr &&& ~~~0xfff)).Open := by
    refine fun _ => hF.open_iff.mpr fun tr htr => ?_
    cases htr.symm.trans hnone
  obtain ⟨hF', hslot, -⟩ := hF.slotOf_mapPage hflags (linkExtra_within la57) hopen h
  have hentry : ((x86PagingInit src la57).pageEntry s.machine (root r) (addr &&& ~~~0xfff)).map
      (fun w => s.machine.mem w.page w.idx) = some (paddr ||| flags) := by
    rw [x86PagingInit_pageEntry, hF'.pageEntry_eq (by simp)]
    refine (congrArg (Slot.pageEntry _) hslot).trans ?_
    rw [Slot.mapPage, if_neg hsmall]
    simp [Slot.pageEntry]
  obtain ⟨w, hw, hmem⟩ := Option.map_eq_some_iff.mp hentry
  rw [PortalState.entryOf, hw]
  exact hmem

/-- A fault on a present page whose entry is not marked is reported as resolved. -/
theorem portalResolveFault_present [DecidableEq R] {fayt : PortalLib} {la57 : Bool}
    {src : FrameSource σ} {root : R → Word} {s : PortalState σ R} {r : R} {addr code : Word}
    (hP : has code flagP) (hmarked : ¬ Marked (s.entryOf src la57 root r addr)) :
    portalResolveFault fayt src la57 root s r addr code = .ok (0, s) := by
  unfold Marked PortalState.entryOf at hmarked
  push Not at hmarked
  obtain ⟨hcow, hshare, hsp⟩ := hmarked
  unfold portalResolveFault
  dsimp only
  rw [if_neg (not_not_intro hP), pure_bind]
  dsimp only
  rw [if_neg (by decide), if_neg fun hc => hcow hc.1, if_neg fun hc => hshare hc.1,
    if_neg fun hc => hsp hc.1]
  rfl

/-- **A write to a read-only page faults forever.**  A page is mapped read-only by a
`DIRECT` request.  A write to it from user mode raises a fault with the error code 7;
`portal_resolve_fault` returns 0 without having changed anything, and the page does not
permit the write. -/
theorem resolved_fault_repeats :
    ∃ out s, portalCall portalLib .ofList false twoRoots true (some (some false)) closed.kernel
        (some (directReq portalReqDirect portalProtRead)) true = .ok (0, out, s) ∧
      s.machine.lookup false twoRoots false 0x400000
        = some ⟨0x500000, portalTranslateProtections portalProtRead, .small⟩ ∧
      resolveFault portalLib .ofList false twoRoots (some (some false)) s 0x400000 7
        = .ok (0, s) ∧
      ¬ s.machine.Permits false twoRoots false 0x400000 (.ofCode 7) := by
  obtain ⟨ptr, m, hmap, hdirect⟩ := directReq_maps portalReqDirect portalProtRead
  obtain ⟨hflags, hPS⟩ := portalTranslateProtections_flags portalProtRead
  have hF : Forest .ofList twoRoots (upperLevels false + 1) twoTables := twoTables_forest 3
  have hmapped := hF.mapPage_small (r := false)
    (portalTranslateProtections_mappable portalProtRead (by decide)).1 hPS
    (twoTables_lookup false _) hmap
  have hlookup : m.lookup false twoRoots false 0x400000
      = some ⟨0x500000, portalTranslateProtections portalProtRead, .small⟩ := by
    rw [hmapped.lookup, if_pos ⟨rfl, sameBits_refl _ _ _⟩]
  let s : PortalState FreeList Bool := { closed.kernel with
    machine := m
    portals := Function.update (fun _ => .nil) false
      (.node (directReq portalReqDirect portalProtRead).opened .nil .nil) }
  refine ⟨some ⟨0x400000, 0x1000, portalRespSuccess⟩, s, ?_, hlookup, ?_, ?_⟩
  · have hportal : portal portalLib .ofList false twoRoots closed.kernel false
        (directReq portalReqDirect portalProtRead)
        = .ok (0, ⟨0x400000, 0x1000, portalRespSuccess⟩, s) := by
      rw [portal, if_pos (by decide), portalHandleDirect]
      show (mapDirect .ofList false (twoRoots false) (portalTranslateProtections portalProtRead)
        twoTables 0x400000 _ >>= _) >>= _ = _
      rw [hdirect]
      rfl
    show (portal portalLib .ofList false twoRoots closed.kernel false _ >>= _) = _
    rw [hportal]
    rfl
  · have hentry : s.entryOf .ofList false twoRoots false 0x400000
        = 0x500000 ||| portalTranslateProtections portalProtRead :=
      entryOf_mapPage hF hflags hPS (twoTables_lookup false _) hmap
    have hresolve : portalResolveFault portalLib .ofList false twoRoots s false 0x400000 7
        = .ok (0, s) := by
      refine portalResolveFault_present (by decide) ?_
      rw [hentry]
      decide
    exact hresolve
  · intro hpermits
    have hopen : (slotOf twoTables.mem (upperLevels false) (twoRoots false) 0x400000).Open := by
      refine hF.open_iff.mpr fun tr htr => ?_
      cases htr.symm.trans (twoTables_lookup false _)
    have hleaf := ((hF.permits_mapPage hflags hPS (linkExtra_within false) hopen hmap).mp
      hpermits).2.1
    exact absurd hleaf (by decide)

end Rock
