/-
Rock/ShareBounds.lean

The bounds of a share point.

`struct portal_share_point` ends in a flexible array `paddr[]`, of one word for each page.  Its
creator allocates and measures it by

    share_point = alloc(sizeof(struct portal_share_point));
    share_point->length = sizeof(struct portal_share_point)
      + DIV_ROUNDUP(req->morphology.length, PAGE_SIZE);

so the array has no elements, and `length` counts a byte for each page.  A fault divides by the
size of an element all the same, and lets the end through:

    if(page_index > (share_point->length - sizeof(struct portal_share_point))
      / sizeof(uint64_t)) return -1;

Of `n` pages the first `n / 8 + 1` are accepted (`paddrAccess_eq`), whatever `n` is.

Main result (`share_index_bounds_iff`): in every run of `portal` and of page faults, with any
requests, a fault is within the bounds of its share point exactly if its index is positive and
at or above the number of pages: these are refused, as they should be.
-/
import Rock.PageFault
import Rock.SharePoint

namespace Rock

variable {σ R : Type}

/-! ### The array of a share point -/

/-- The index in a share point of the page that has faulted. -/
def Portal.pageIndex (p : Portal) (addr : Word) : Word := ((addr &&& ~~~0xfff) - p.base) / 0x1000

section Array

variable (fayt : PortalLib)

/-- The bytes that `portal_handle_share` allocates for a share point. -/
def sharePointBytes : Word := fayt.sharePointSize

/-- The elements of `paddr` in a share point of so many bytes. -/
def paddrSlots (bytes : Word) : ℕ := ((bytes - fayt.sharePointSize) / 8).toNat

/-- The element of `paddr` that a fault on the portal `p` reads and writes. -/
def paddrAccess (s : PortalState σ R) (p : Portal) (addr : Word) : Option ℕ :=
  match s.shareMap p.identifier with
  | none => none
  | some point =>
      if p.pageIndex addr > (point.length - fayt.sharePointSize) / 8 then none
      else some (p.pageIndex addr).toNat

end Array

section Access

variable {fayt : PortalLib} {src : FrameSource σ} {la57 : Bool} {root : R → Word}
  {s s' : PortalState σ R} {r : R} {p : Portal} {addr : Word}

theorem paddrAccess_isSome_iff (hshare : hasBit p.type portalReqShare) :
    (paddrAccess fayt s p addr).isSome ↔
      (faultFrame fayt src s p (addr &&& ~~~0xfff)).isSome := by
  rw [faultFrame_isSome_iff, PortalState.Backable, paddrAccess]
  rcases hpoint : s.shareMap p.identifier with - | point
  · simp [hshare]
  · simp only [hshare, forall_const, Option.some.injEq, exists_eq_left', Portal.pageIndex]
    split_ifs <;> simp

/-- A fault that uses no element is refused. -/
theorem portalFaultAnon_refused [DecidableEq R] (hfind : (s.portals r).find addr = some p)
    (hshare : hasBit p.type portalReqShare) (h : paddrAccess fayt s p addr = none) :
    portalFaultAnon fayt src la57 root s r addr = .ok (-1, s) := by
  have hframe : faultFrame fayt src s p (addr &&& ~~~0xfff) = none := by
    refine Option.not_isSome_iff_eq_none.mp fun hsome => ?_
    rw [← paddrAccess_isSome_iff hshare, h] at hsome
    cases hsome
  rw [portalFaultAnon, sub_offset]
  simp only [hfind, hframe]

end Access

/-! ### The length of a share point -/

/-- Any call of `portal`, and any page fault. -/
inductive ShareState.Call [DecidableEq R] (fayt : PortalLib) (src : FrameSource σ) (la57 : Bool)
    (root : R → Word) : ShareState σ R → ShareState σ R → Prop
  | portal {x : ShareState σ R} {r : R} {req : PortalReq} {ret : ℤ} {resp : PortalResp}
      {s : PortalState σ R} :
      portal fayt src la57 root x.kernel r req = .ok (ret, resp, s) →
      Call fayt src la57 root x (x.after req s)
  | fault {x : ShareState σ R} {r : R} {addr code : Word} {ret : ℤ} {s : PortalState σ R} :
      portalResolveFault fayt src la57 root x.kernel r addr code = .ok (ret, s) →
      Call fayt src la57 root x { x with kernel := s }

/-- Share points have the lengths that their creators have asked for. -/
def ShareState.Sized (fayt : PortalLib) (x : ShareState σ R) : Prop :=
  ∀ id, (x.kernel.shareMap id).map SharePoint.length
    = (x.created id).map fun req => (req.sharePoint fayt).length

section Lengths

variable {fayt : PortalLib} {src : FrameSource σ} {la57 : Bool} {root : R → Word}
  {s s' : PortalState σ R} {r : R} {req : PortalReq} {x x' : ShareState σ R}

/-- From `points` to `points'`, at most the share point of the request was created. -/
def Creates (fayt : PortalLib) (req : PortalReq) (points points' : String → Option SharePoint) :
    Prop :=
  points' = points ∨
    (points req.identifier = none ∧
      points' = Function.update points req.identifier (some (req.sharePoint fayt)))

theorem portalHandleShare_creates {p p' : Portal}
    (h : portalHandleShare fayt s p req = some (p', s')) :
    Creates fayt req s.shareMap s'.shareMap := by
  unfold portalHandleShare at h
  rcases hpoint : s.shareMap req.identifier with - | point <;> simp only [hpoint] at h
  · split_ifs at h with hcreate hpush
    obtain ⟨-, rfl⟩ := Prod.mk.inj (Option.some.inj h)
    exact .inr ⟨hpoint, rfl⟩
  · obtain ⟨-, rfl⟩ := Prod.mk.inj (Option.some.inj h)
    exact .inl rfl

/-- No share point exists yet. -/
structure ShareState.NoPoints (x : ShareState σ R) : Prop where
  points : ∀ id, x.kernel.shareMap id = none
  created : ∀ id, x.created id = none

theorem ShareState.NoPoints.sized (h : x.NoPoints) : x.Sized fayt := by
  intro id
  rw [h.points, h.created]
  rfl

theorem ShareState.Sized.after (h : x.Sized fayt)
    (hs : Creates fayt req x.kernel.shareMap s.shareMap) : (x.after req s).Sized fayt := by
  intro id
  rcases hs with hsame | ⟨hnone, hnew⟩
  · rw [x.after_of_shareMap_eq hsame]
    show (s.shareMap id).map _ = _
    rw [hsame]
    exact h id
  · have hcreated : (x.after req s).created
        = Function.update x.created req.identifier (some req) := by
      refine if_pos ⟨by rw [hnone]; rfl, ?_⟩
      rw [hnew, Function.update_self]
      rfl
    show (s.shareMap id).map _ = _
    rw [hcreated, hnew]
    rcases eq_or_ne id req.identifier with rfl | hne
    · rw [Function.update_self, Function.update_self]
      rfl
    · rw [Function.update_of_ne hne, Function.update_of_ne hne]
      exact h id

variable [DecidableEq R]

theorem portalFinish_creates {p : Portal} {ret : ℤ} {resp : PortalResp}
    (h : portalFinish fayt s r p req = (ret, resp, s')) :
    Creates fayt req s.shareMap s'.shareMap := by
  unfold portalFinish at h
  by_cases hshare : hasBit req.type portalReqShare
  · simp only [hshare, if_true] at h
    rcases hhandle : portalHandleShare fayt s
        (if hasBit req.type portalReqAnon then portalHandleAnon p else p) req with - | ⟨p', s₁⟩ <;>
      simp only [hhandle] at h
    · obtain ⟨-, -, rfl⟩ := h
      exact .inl rfl
    · obtain ⟨-, -, rfl⟩ := h
      exact (portalHandleShare_creates hhandle :)
  · simp only [hshare, if_false] at h
    obtain ⟨-, -, rfl⟩ := h
    exact .inl rfl

/-- **What `portal` does to share points.** -/
theorem portal_creates {ret : ℤ} {resp : PortalResp}
    (h : portal fayt src la57 root s r req = .ok (ret, resp, s')) :
    Creates fayt req s.shareMap s'.shareMap := by
  obtain ⟨m, -, hfinish⟩ := portal_cases h
  exact (portalFinish_creates hfinish :)

/-- A page fault changes no length. -/
theorem portalResolveFault_lengths {addr code : Word} {ret : ℤ}
    (h : portalResolveFault fayt src la57 root s r addr code = .ok (ret, s')) (id : String) :
    (s'.shareMap id).map SharePoint.length = (s.shareMap id).map SharePoint.length := by
  have hcases := portalResolveFault_eq h
  split_ifs at hcases with hP
  · rw [hcases]
  · obtain ⟨ret', hanon⟩ := hcases
    have hheader := congrArg (Option.map Prod.snd) ((portalFaultAnon_keeps hanon).2 id)
    simpa only [Option.map_map, Function.comp_def, SharePoint.header] using hheader

theorem ShareState.Sized.step (h : x.Sized fayt) (hs : ShareState.Call fayt src la57 root x x') :
    x'.Sized fayt := by
  cases hs with
  | portal hcall => exact h.after (portal_creates hcall)
  | fault hcall => exact fun id => (portalResolveFault_lengths hcall id).trans (h id)

end Lengths

/-! ### Indices and bounds -/

/-- **The index of a fault is in bounds**: an element of `paddr` that it uses belongs to a page of
the creator and was allocated, the pages of the creator are accepted, and all others are refused
with -1. -/
structure IndexInBounds [DecidableEq R] (fayt : PortalLib) (src : FrameSource σ) (la57 : Bool)
    (root : R → Word) (s : PortalState σ R) (r : R) (addr : Word) (p : Portal)
    (creator : PortalReq) : Prop where
  bounded : ∀ i, paddrAccess fayt s p addr = some i →
    i < pageCnt creator.length ∧ i < paddrSlots fayt (sharePointBytes fayt)
  accepted : (p.pageIndex addr).toNat < pageCnt creator.length →
    (paddrAccess fayt s p addr).isSome
  refused : pageCnt creator.length ≤ (p.pageIndex addr).toNat →
    portalFaultAnon fayt src la57 root s r addr = .ok (-1, s)

section Bounds

variable {fayt : PortalLib} {src : FrameSource σ} {la57 : Bool} {root : R → Word}
  {x x₀ : ShareState σ R} {r : R} {p : Portal} {addr : Word} {creator : PortalReq}

/-- Nothing is allocated for the array. -/
theorem paddrSlots_sharePoint : paddrSlots fayt (sharePointBytes fayt) = 0 := by
  rw [paddrSlots, sharePointBytes, BitVec.sub_self]
  rfl

theorem pageCnt_lt (length : Word) : pageCnt length < 2 ^ 52 := by
  rw [pageCnt, BitVec.toNat_udiv]
  have hlt := (length + 0xfff).isLt
  show _ / 4096 < _
  omega

/-- **The pages that are accepted** are those up to the eighth part of their number. -/
theorem paddrAccess_eq (h : x.Sized fayt) (hcreated : x.created p.identifier = some creator)
    (addr : Word) :
    paddrAccess fayt x.kernel p addr
      = if (p.pageIndex addr).toNat ≤ pageCnt creator.length / 8 then
          some (p.pageIndex addr).toNat
        else none := by
  have hsize := h p.identifier
  rw [hcreated] at hsize
  obtain ⟨point, hpoint, hlength⟩ := Option.map_eq_some_iff.mp hsize
  have hpages : ((point.length - fayt.sharePointSize) / 8).toNat = pageCnt creator.length / 8 := by
    have hbytes : point.length - fayt.sharePointSize
        = BitVec.ofNat 64 (pageCnt creator.length) := by
      rw [hlength]
      exact add_sub_cancel_left _ _
    rw [hbytes, BitVec.toNat_udiv, BitVec.toNat_ofNat,
      Nat.mod_eq_of_lt ((pageCnt_lt _).trans (by decide))]
    rfl
  rw [paddrAccess, hpoint]
  simp only [gt_iff_lt, BitVec.lt_def, hpages]
  split_ifs with hlt hle hle
  · omega
  · rfl
  · rfl
  · omega

variable [DecidableEq R]

/-- **The bounds of share points.**  In every run of `portal` and page faults, a fault on a
portal to a share point has its index in bounds exactly if the index is positive and not below
the number of pages of the creator. -/
theorem share_index_bounds_iff (hinit : x₀.NoPoints)
    (hrun : Run (ShareState.Call fayt src la57 root) x₀ x)
    (hfind : (x.kernel.portals r).find addr = some p) (hshare : hasBit p.type portalReqShare)
    (hcreated : x.created p.identifier = some creator) :
    IndexInBounds fayt src la57 root x.kernel r addr p creator ↔
      0 < (p.pageIndex addr).toNat ∧ pageCnt creator.length ≤ (p.pageIndex addr).toNat := by
  have hsized : x.Sized fayt := Run.invariant (fun _ _ h hs => h.step hs) hinit.sized hrun
  have haccess := paddrAccess_eq hsized hcreated addr
  constructor
  · intro h
    -- no index is below the number of elements, so the fault must use none
    have hnone : paddrAccess fayt x.kernel p addr = none := by
      refine Option.eq_none_iff_forall_ne_some.mpr fun i hi => ?_
      have hslot := (h.bounded i hi).2
      rw [paddrSlots_sharePoint] at hslot
      exact Nat.not_lt_zero i hslot
    have hge : pageCnt creator.length ≤ (p.pageIndex addr).toNat := by
      by_contra hlt
      have hsome := h.accepted (not_le.mp hlt)
      rw [hnone] at hsome
      cases hsome
    rw [hnone] at haccess
    split_ifs at haccess with hle
    exact ⟨by omega, hge⟩
  · rintro ⟨hpos, hge⟩
    have hnone : paddrAccess fayt x.kernel p addr = none := by
      rw [haccess]
      exact if_neg (by omega)
    refine ⟨fun i hi => ?_, fun hlt => absurd hge (not_le.mpr hlt), fun _ => ?_⟩
    · cases hnone.symm.trans hi
    · exact portalFaultAnon_refused hfind hshare hnone

end Bounds

/-! ### Share points of one and of two pages -/

/-- The end of the portal to a share point of one page is refused. -/
theorem share_index_bounds_end :
    Run (ShareState.Call portalLib .ofList false twoRoots) closed openedOne ∧
      IndexInBounds portalLib .ofList false twoRoots openedOne.kernel false 0x401000
        (queuePortal false) (queueReq true 0x400000) := by
  have hrun : Run (ShareState.Call portalLib .ofList false twoRoots) closed openedOne :=
    .single (.portal rfl)
  refine ⟨hrun, (share_index_bounds_iff ⟨fun _ => rfl, fun _ => rfl⟩ hrun ?_ ?_ ?_).mpr ?_⟩
  · decide +kernel
  · decide
  · rfl
  · decide

/-- A request for a share point of two pages. -/
def pairReq : PortalReq := { queueReq true 0x400000 with length := 0x2000 }

/-- The first context has created the share point of two pages. -/
def openedPair : ShareState FreeList Bool :=
  closed.after pairReq (portalFinish portalLib closed.kernel false
    ⟨0, portalProtWrite, "", 0x400000, 0x2000, 0⟩ pairReq).2.2

/-- **A share point without its pages.**  Of two pages, the first one uses `paddr[0]` where no
element was allocated, and the second one is refused. -/
theorem share_index_out_of_bounds :
    Run (ShareState.Call portalLib .ofList false twoRoots) closed openedPair ∧
      openedPair.created "queue" = some pairReq ∧ pageCnt pairReq.length = 2 ∧
      (openedPair.kernel.portals false).find 0x400123 = some pairReq.opened ∧
      (openedPair.kernel.portals false).find 0x401123 = some pairReq.opened ∧
      paddrAccess portalLib openedPair.kernel pairReq.opened 0x400123 = some 0 ∧
      paddrSlots portalLib (sharePointBytes portalLib) = 0 ∧
      portalFaultAnon portalLib .ofList false twoRoots openedPair.kernel false 0x401123
        = .ok (-1, openedPair.kernel) ∧
      ¬ IndexInBounds portalLib .ofList false twoRoots openedPair.kernel false 0x400123
        pairReq.opened pairReq ∧
      ¬ IndexInBounds portalLib .ofList false twoRoots openedPair.kernel false 0x401123
        pairReq.opened pairReq := by
  have hfirst : paddrAccess portalLib openedPair.kernel pairReq.opened 0x400123 = some 0 := by
    decide +kernel
  have hsecond : paddrAccess portalLib openedPair.kernel pairReq.opened 0x401123 = none := by
    decide +kernel
  have hfind : (openedPair.kernel.portals false).find 0x401123 = some pairReq.opened := by
    decide +kernel
  refine ⟨.single (.portal rfl), rfl, by decide, by decide +kernel, hfind, hfirst,
    paddrSlots_sharePoint, portalFaultAnon_refused hfind (by decide) hsecond, fun h => ?_,
    fun h => ?_⟩
  · have hslot := (h.bounded 0 hfirst).2
    rw [paddrSlots_sharePoint] at hslot
    exact Nat.not_lt_zero 0 hslot
  · have hsome := h.accepted (by decide)
    rw [hsecond] at hsome
    cases hsome

end Rock
