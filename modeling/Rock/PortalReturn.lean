/-
Rock/PortalReturn.lean

Whether `portal_destroy` returns the frames that page faults have installed.

`portal` allocates a portal and never sets its table of pages; `portal_fault_anon` records a
page in the table of the page table; and `portal_destroy` reads the table of the portal.  So
it goes through a null pointer at the first portal it comes to, and does not come to its end
on any tree that `portal` has made (`portalDestroy_made`).

Main result: the frames of a page table are returned exactly if no request was ever granted
(`destroy_returns_iff`); there are no frames to return then.
-/
import Rock.PortalDestroy
import Rock.PortalHistory

namespace Rock

variable {σ R : Type}

/-! ### The objects of a page table -/

/-- The object that `portal` makes: `alloc` clears it, and nothing sets `pages`. -/
def madePortal (p : Portal) (left right : Option ℕ) : PortalObject := ⟨p, none, left, right⟩

/-- The tree of portals is in memory, at `root`. -/
def PortalHeap.HoldsTree (h : PortalHeap) : Option ℕ → PortalTree → Prop
  | root, .nil => root = none
  | root, .node p l r => ∃ a left right, root = some a ∧
      h.portals a = some (madePortal p left right) ∧ h.HoldsTree left l ∧ h.HoldsTree right r

/-- A page that a fault has recorded is in memory, at `x`. -/
def PortalHeap.HoldsPage (h : PortalHeap) (x : ℕ) (page : Page) : Prop :=
  ∃ f, h.pages x = some ⟨page.vaddr, f⟩ ∧ h.frames f = ⟨page.frame.paddr, page.frame.refcnt⟩

/-- The portals and pages of all page tables are in memory: `roots` are the pointers
`portal_root`, and `recorded` are the pages in the tables of the page tables. -/
structure PortalHeap.Holds (h : PortalHeap) (roots : R → Option ℕ) (recorded : R → List ℕ)
    (s : PortalState σ R) : Prop where
  tree : ∀ r, h.HoldsTree (roots r) (s.portals r)
  pages : ∀ r, List.Forall₂ h.HoldsPage (recorded r) (s.pages r)

/-- **The frames of the page table `r` are returned**: `portal_destroy` comes to its end, the
count of a frame goes down once for each page of `r` with this frame, and the frame goes to
`pmm_free`, once, exactly if no other page table has it. -/
def PortalHeap.ReturnsFrames (h : PortalHeap) (roots : R → Option ℕ) (recorded : R → List ℕ)
    (r : R) : Prop :=
  ∃ n h' calls, portalDestroy n (roots r) h = .ok h' ∧ h'.pmmFrees = h.pmmFrees ++ calls ∧
    ∀ f ∈ h.refs (recorded r),
      (h'.frames f).refcnt = (h.frames f).refcnt - (h.refs (recorded r)).count f ∧
      calls.count (h.frames f).paddr ≤ 1 ∧
      ((h.frames f).paddr ∈ calls ↔ ∀ r' ≠ r, f ∉ h.refs (recorded r'))

/-! ### Portals without a table -/

/-- The access to an object that is there. -/
theorem deref_eq_ok {β : Type} {m : ℕ → Option β} {a : ℕ} {x y : β} (hx : m a = some x)
    (h : deref m a = .ok y) : x = y := by
  rw [deref_of_some hx] at h
  exact Except.ok.inj h

/-- The call for an empty tree does nothing. -/
theorem portalDestroy_nil {h h' : PortalHeap} {root : Option ℕ} {n : ℕ}
    (ht : h.HoldsTree root .nil) (hcall : portalDestroy n root h = .ok h') : h = h' := by
  obtain rfl : root = none := ht
  rw [portalDestroy] at hcall
  exact Except.ok.inj hcall

/-- **`portal_destroy` does not come to its end** on a tree that `portal` has made. -/
theorem portalDestroy_made {h h' : PortalHeap} {root : Option ℕ} {t : PortalTree} {n : ℕ}
    (ht : h.HoldsTree root t) (hcall : portalDestroy n root h = .ok h') : t = .nil := by
  induction t generalizing root n h' with
  | nil => rfl
  | node p l r ihl ihr =>
      obtain ⟨a, left, right, rfl, ha, hl, hr⟩ := ht
      cases n with
      | zero => cases hcall
      | succ n =>
          -- the calls for the subtrees return only if these are empty, and leave all as it is
          obtain ⟨o, ho, hcall⟩ := Exec.bind_eq_ok.mp hcall
          obtain rfl := deref_eq_ok ha ho
          obtain ⟨h₁, hleft, hcall⟩ := Exec.bind_eq_ok.mp hcall
          obtain rfl := ihl hl hleft
          obtain rfl := portalDestroy_nil hl hleft
          obtain ⟨o, ho, hcall⟩ := Exec.bind_eq_ok.mp hcall
          obtain rfl := deref_eq_ok ha ho
          obtain ⟨h₂, hright, hcall⟩ := Exec.bind_eq_ok.mp hcall
          obtain rfl := ihr hr hright
          obtain rfl := portalDestroy_nil hr hright
          obtain ⟨o, ho, hcall⟩ := Exec.bind_eq_ok.mp hcall
          obtain rfl := deref_eq_ok ha ho
          cases hcall

/-! ### Histories -/

section Histories

variable {fayt : PortalLib} {src : FrameSource σ} {la57 : Bool} {root : R → Word} [DecidableEq R]
  {s s₀ s' : PortalState σ R} {r r' : R} {reqs : List PortalReq}

omit [DecidableEq R] in
theorem portalHandleShare_keeps {p p' : Portal} {req : PortalReq}
    (h : portalHandleShare fayt s p req = some (p', s')) :
    s'.portals = s.portals ∧ s'.pages = s.pages := by
  unfold portalHandleShare at h
  rcases hpoint : s.shareMap req.identifier with - | point <;> simp only [hpoint] at h
  · split_ifs at h
    obtain ⟨-, rfl⟩ := Prod.mk.inj (Option.some.inj h)
    exact ⟨rfl, rfl⟩
  · obtain ⟨-, rfl⟩ := Prod.mk.inj (Option.some.inj h)
    exact ⟨rfl, rfl⟩

/-- A request records no page, and puts a portal into the tree of its page table if it is
granted. -/
theorem portalFinish_tree {p : Portal} {req : PortalReq} {ret : ℤ} {resp : PortalResp}
    (h : portalFinish fayt s r p req = (ret, resp, s')) :
    s'.pages = s.pages ∧ (ret ≠ 0 → s'.portals = s.portals) ∧
      (ret = 0 → ∃ q, s'.portals = Function.update s.portals r (fayt.insert (s.portals r) q)) := by
  unfold portalFinish at h
  dsimp only at h
  split at h
  · obtain ⟨rfl, -, rfl⟩ := h
    exact ⟨rfl, fun _ => rfl, fun hc => absurd hc (by decide)⟩
  · rename_i q s₁ hhandle
    obtain ⟨rfl, -, rfl⟩ := h
    have hkeeps : s₁.portals = s.portals ∧ s₁.pages = s.pages := by
      by_cases hshare : hasBit req.type portalReqShare
      · rw [if_pos hshare] at hhandle
        exact portalHandleShare_keeps hhandle
      · rw [if_neg hshare] at hhandle
        obtain ⟨-, rfl⟩ := Prod.mk.inj (Option.some.inj hhandle)
        exact ⟨rfl, rfl⟩
    refine ⟨hkeeps.2, fun hc => absurd rfl hc, fun _ => ?_⟩
    rw [← hkeeps.1]
    exact ⟨_, rfl⟩

theorem portal_tree {req : PortalReq} {ret : ℤ} {resp : PortalResp}
    (h : portal fayt src la57 root s r req = .ok (ret, resp, s')) :
    s'.pages = s.pages ∧ (ret ≠ 0 → s'.portals = s.portals) ∧
      (ret = 0 → ∃ q, s'.portals = Function.update s.portals r (fayt.insert (s.portals r) q)) := by
  obtain ⟨m, -, hfinish⟩ := portal_cases h
  exact (portalFinish_tree hfinish :)

/-- A fault records a page for its own page table only, and only if there is a portal. -/
theorem portalFaultAnon_pages {addr : Word} {ret : ℤ}
    (h : portalFaultAnon fayt src la57 root s r' addr = .ok (ret, s'))
    (hother : r' = r → (s.portals r).find addr = none) : s'.pages r = s.pages r := by
  unfold portalFaultAnon at h
  rcases hfind : (s.portals r').find addr with - | p <;> simp only [hfind] at h
  · obtain ⟨-, rfl⟩ := Prod.mk.inj (Except.ok.inj h)
    rfl
  have hne : r ≠ r' := by
    rintro rfl
    cases hfind.symm.trans (hother rfl)
  rcases hframe : faultFrame fayt src s p (addr - (addr &&& 0xfff)) with - | ⟨paddr, s₁⟩ <;>
    simp only [hframe] at h
  · obtain ⟨-, rfl⟩ := Prod.mk.inj (Except.ok.inj h)
    rfl
  obtain ⟨-, hpages, -⟩ := faultFrame_keeps hframe
  obtain ⟨⟨ptr, m⟩, -, h⟩ := Exec.bind_eq_ok.mp h
  split_ifs at h <;> obtain ⟨-, rfl⟩ := Prod.mk.inj (Except.ok.inj h)
  · exact congrFun hpages r
  · exact (Function.update_of_ne hne _ _).trans (congrFun hpages r)

/-- A page table has no portal and no page as long as no request was granted, and a portal
from then on. -/
theorem PortalState.Grants.tree_or_nil (hrun : s₀.Grants fayt src la57 root r reqs s)
    (hportals : s₀.portals r = .nil) (hpages : s₀.pages r = []) :
    (reqs = [] ∧ s.portals r = .nil ∧ s.pages r = []) ∨ (reqs ≠ [] ∧ s.portals r ≠ .nil) := by
  induction hrun with
  | start => exact .inl ⟨rfl, hportals, hpages⟩
  | @grant s₁ s₂ reqs req resp _ hcall ih =>
      refine .inr ⟨by simp, ?_⟩
      obtain ⟨q, hq⟩ := (portal_tree hcall).2.2 rfl
      rw [hq, Function.update_self]
      intro hnil
      have hmem : q ∈ (fayt.insert (s₁.portals r) q).toList := fayt.mem_insert.mpr (.inl rfl)
      rw [hnil] at hmem
      exact absurd hmem List.not_mem_nil
  | @other s₁ s₂ reqs r' req ret resp _ hother hcall ih =>
      obtain ⟨hkeep, hfailed, hgranted⟩ := portal_tree hcall
      have hsame : s₂.portals r = s₁.portals r := by
        by_cases hret : ret = 0
        · obtain ⟨q, hq⟩ := hgranted hret
          rw [hq, Function.update_of_ne (hother.resolve_right (not_not_intro hret)).symm]
        · exact congrFun (hfailed hret) r
      rwa [hsame, hkeep]
  | @fault s₁ s₂ reqs r' addr code ret _ hcall ih =>
      have hcases := portalResolveFault_eq hcall
      split_ifs at hcases with hP
      · rwa [hcases]
      · obtain ⟨ret', hanon⟩ := hcases
        rw [(portalFaultAnon_keeps hanon).1]
        refine ih.imp_left fun ⟨hnil, htree, hnone⟩ => ⟨hnil, htree, ?_⟩
        rw [portalFaultAnon_pages hanon fun _ => by rw [htree]; rfl, hnone]

end Histories

/-- **When the frames are returned.**  A page table starts without portals and pages; there are
requests and page faults, its own and those of others.  However the portals and pages are
laid out in memory, `portal_destroy` of its portals returns its frames exactly if none of its
requests was granted. -/
theorem destroy_returns_iff [DecidableEq R] {fayt : PortalLib} {src : FrameSource σ} {la57 : Bool}
    {root : R → Word} {s₀ s : PortalState σ R} {r : R} {reqs : List PortalReq}
    (hportals : s₀.portals r = .nil) (hpages : s₀.pages r = [])
    (hrun : s₀.Grants fayt src la57 root r reqs s) {h : PortalHeap} {roots : R → Option ℕ}
    {recorded : R → List ℕ} (hholds : h.Holds roots recorded s) :
    h.ReturnsFrames roots recorded r ↔ reqs = [] := by
  have htree := hholds.tree r
  rcases hrun.tree_or_nil hportals hpages with ⟨hreqs, hnil, hnone⟩ | ⟨hreqs, hsome⟩
  · refine iff_of_true ?_ hreqs
    rw [hnil] at htree
    have hroot : roots r = none := htree
    have hpages := hholds.pages r
    rw [hnone, List.forall₂_nil_right_iff] at hpages
    refine ⟨0, h, [], ?_, (List.append_nil _).symm, fun f hf => ?_⟩
    · rw [hroot, portalDestroy]
    · rw [hpages] at hf
      exact absurd hf List.not_mem_nil
  · refine iff_of_false ?_ hreqs
    rintro ⟨n, h', calls, hcall, -⟩
    exact hsome (portalDestroy_made htree hcall)

/-! ### One portal with a page -/

/-- The portal is at 1, and its page at 21 with the frame at 31. -/
def oneHeap : PortalHeap where
  portals a := if a = 1 then some (madePortal wideReq.opened none none) else none
  tables _ := none
  pages x := if x = 21 then some ⟨0x400000, 31⟩ else none
  frames f := ⟨if f = 31 then 0x201000 else 0, if f = 31 then 1 else 0⟩
  pmmFrees := []
  portalVisits := []
  pageVisits := []

/-- The portal belongs to the context `false`. -/
def oneRoot (r : Bool) : Option ℕ := if r then none else some 1

theorem oneHeap_tree (r : Bool) :
    oneHeap.HoldsTree (oneRoot r) ((granted [wideReq.opened]).portals r) := by
  cases r with
  | false => exact ⟨1, none, none, rfl, rfl, rfl, rfl⟩
  | true => rfl

/-- The other context was granted nothing, and has nothing to return. -/
theorem destroy_returns_other :
    oneHeap.ReturnsFrames oneRoot (fun _ => []) true := by
  have hrun : (granted []).Grants portalLib .ofList false twoRoots true []
      (granted [wideReq.opened]) :=
    .other .start (.inl Bool.false_ne_true) (granted_portal [] (show wideReq.type = _ from rfl))
  have hholds : oneHeap.Holds oneRoot (fun _ => []) (granted [wideReq.opened]) :=
    ⟨oneHeap_tree, fun _ => .nil⟩
  exact (destroy_returns_iff rfl rfl hrun hholds).mpr rfl

/-- **A page that is not returned.**  A portal is granted and a fault installs a page; then
`portal_destroy` goes through the null pointer. -/
theorem destroy_returns_nothing :
    ∃ s, (granted []).Grants portalLib .ofList false twoRoots false [wideReq] s ∧
      oneHeap.Holds oneRoot (fun r => if r then [] else [21]) s ∧
      portalDestroy 1 (oneRoot false) oneHeap = .error .null ∧
      ¬ oneHeap.ReturnsFrames oneRoot (fun r => if r then [] else [21]) false := by
  have heval : (do
      let (ret, s) ← portalResolveFault portalLib .ofList false twoRoots
        (granted [wideReq.opened]) false 0x400123 0
      .ok (ret, (s.pages false).map (fun page => (page.vaddr, page.frame.paddr, page.frame.refcnt)),
        (s.pages true).length) : Exec _) = .ok (0, [(0x400000, 0x201000, 1)], 0) := by
    decide +kernel
  obtain ⟨⟨ret, s⟩, hfault, heval⟩ := Exec.bind_eq_ok.mp heval
  simp only [Except.ok.injEq, Prod.mk.injEq] at heval
  obtain ⟨rfl, hpages, hother⟩ := heval
  have hnamed : (granted [wideReq.opened]).Named := fun id point hid =>
    absurd hid (Option.some_ne_none _).symm
  have hportals := (portalResolveFault_portals hnamed hfault).2
  refine ⟨s, .fault (granted_run rfl) hfault, ⟨fun r => ?_, fun r => ?_⟩, rfl, ?_⟩
  · rw [hportals]
    exact oneHeap_tree r
  · cases r with
    | false =>
        obtain ⟨page, hpage, hfields⟩ := List.map_eq_singleton_iff.mp hpages
        simp only [Prod.mk.injEq] at hfields
        obtain ⟨hvaddr, hpaddr, hrefcnt⟩ := hfields
        rw [hpage]
        refine .cons ⟨31, ?_, ?_⟩ .nil
        · rw [hvaddr]
          rfl
        · rw [hpaddr, hrefcnt]
          rfl
    | true =>
        rw [List.length_eq_zero_iff.mp hother]
        exact .nil
  · rintro ⟨n, h', calls, hcall, -⟩
    have hnil := portalDestroy_made (oneHeap_tree false) hcall
    exact absurd hnil (by decide)

end Rock
