/-
Rock/SharePoint.lean

Share points across contexts: which frames the page tables of several contexts
have for the pages of a share point.

A context attaches to a share point by a portal of its own, at an address of its
own, and its pages come one by one with its page faults.  The pages are shared if
the translations agree: the page `k` of a share point has one frame, wherever it
is present, and no other page has that frame (`ShareState.Shares`).

Each fault maps a frame that was in use nowhere, also when the share point knows
the frame of the page.  So the translations agree as long as no page is faulted
in twice, and none of a share point whose frames were given by its creator
(`Untouched`, `share_points_agree`): that is, as long as nothing is shared.  Two
contexts that touch the same page get different frames
(`share_point_not_shared`).

The code checks nothing of what a request asks for.  That its pages are distinct, not
present and in no other share portal, and that given frames are distinct and in no share
point, is part of the condition (`Opens`).
-/
import Rock.Exec
import Rock.Portal

namespace Rock

variable {σ R : Type}

/-! ### Pages of share points -/

/-- `p` is a portal of the page table `r` to a share point. -/
def PortalState.Attached (s : PortalState σ R) (r : R) (p : Portal) : Prop :=
  p ∈ (s.portals r).toList ∧ hasBit p.type portalReqShare

theorem PortalState.attached_congr {s s' : PortalState σ R} (h : s'.portals = s.portals) {r : R}
    {p : Portal} : s'.Attached r p ↔ s.Attached r p := by
  rw [PortalState.Attached, PortalState.Attached, h]

/-- The page with index `k` of the portal `p` is present in the page table `r`
and translates to `tr`. -/
structure PortalState.SharePage (la57 : Bool) (root : R → Word) (s : PortalState σ R) (r : R)
    (p : Portal) (k : ℕ) (tr : Translation) : Prop where
  attached : s.Attached r p
  index : k < p.pages
  present : s.machine.lookup la57 root r (pageAt p.base k) = some tr

/-- The kernel, with the request that created each share point; the code does not
keep the requests. -/
structure ShareState (σ R : Type) where
  kernel : PortalState σ R
  created : String → Option PortalReq

/-- **Share points share memory**: two pages of share points have the same frame
exactly if they are the same page of the same share point, and the frames of a
share point that was created as `DIRECT` are those of the request. -/
structure ShareState.Shares (la57 : Bool) (root : R → Word) (x : ShareState σ R) : Prop where
  agree : ∀ {r p k tr r' p' k' tr'}, x.kernel.SharePage la57 root r p k tr →
    x.kernel.SharePage la57 root r' p' k' tr' →
    (tr.frame = tr'.frame ↔ p.identifier = p'.identifier ∧ k = k')
  direct : ∀ {r p k tr req}, x.kernel.SharePage la57 root r p k tr →
    x.created p.identifier = some req → hasBit req.type portalReqDirect →
    tr.frame = req.paddr k

/-! ### Runs -/

/-- The request is for a window of distinct pages, none of which is present or
part of another portal to a share point. -/
structure PortalState.Placed (la57 : Bool) (root : R → Word) (s : PortalState σ R) (r : R)
    (req : PortalReq) : Prop where
  distinct : ∀ i < pageCnt req.length, ∀ j < pageCnt req.length,
    samePage la57 (pageAt req.addr i) (pageAt req.addr j) → i = j
  free : ∀ i < pageCnt req.length, s.machine.lookup la57 root r (pageAt req.addr i) = none
  apart : ∀ {q}, s.Attached r q → ∀ i < pageCnt req.length, ∀ j < q.pages,
    ¬ samePage la57 (pageAt req.addr i) (pageAt q.base j)

/-- The frames of a request that creates a share point: distinct frames that are
in use, but not for a share point. -/
structure PortalState.Given (src : FrameSource σ) (la57 : Bool) (root : R → Word)
    (s : PortalState σ R) (req : PortalReq) : Prop where
  frame : ∀ i < pageCnt req.length, IsFrame .small (req.paddr i)
  live : ∀ i < pageCnt req.length, src.Live s.machine.pmm (req.paddr i)
  distinct : ∀ i < pageCnt req.length, ∀ j < pageCnt req.length,
    req.paddr i = req.paddr j → i = j
  unused : ∀ i < pageCnt req.length, ∀ {r p k tr}, s.SharePage la57 root r p k tr →
    tr.frame ≠ req.paddr i

/-- The state after a `portal()` call with the request `req`, which may have
created its share point. -/
def ShareState.after (x : ShareState σ R) (req : PortalReq) (s : PortalState σ R) :
    ShareState σ R where
  kernel := s
  created :=
    if (x.kernel.shareMap req.identifier).isNone ∧ (s.shareMap req.identifier).isSome then
      Function.update x.created req.identifier (some req)
    else x.created

section Runs

variable (fayt : PortalLib) (src : FrameSource σ) (la57 : Bool) (root : R → Word) [DecidableEq R]

/-- Contexts open share points as `ANON|SHARE`, or create one as `DIRECT|SHARE`,
and take page faults; a request is made if `Opens`, and a fault on a missing page `v`
of the page table `r` is taken if `Allowed`. -/
inductive ShareState.Step (Opens : ShareState σ R → R → PortalReq → Prop)
    (Allowed : ShareState σ R → R → Word → Prop) : ShareState σ R → ShareState σ R → Prop
  | anon {x : ShareState σ R} {r : R} {req : PortalReq} {ret : ℤ} {resp : PortalResp}
      {s : PortalState σ R} :
      req.type = portalReqAnon ||| portalReqShare → Opens x r req →
      portal fayt src la57 root x.kernel r req = .ok (ret, resp, s) →
      Step Opens Allowed x (x.after req s)
  | direct {x : ShareState σ R} {r : R} {req : PortalReq} {ret : ℤ} {resp : PortalResp}
      {s : PortalState σ R} :
      req.type = portalReqDirect ||| portalReqShare → req.create = true →
      x.kernel.shareMap req.identifier = none → Opens x r req →
      portal fayt src la57 root x.kernel r req = .ok (ret, resp, s) →
      Step Opens Allowed x (x.after req s)
  | fault {x : ShareState σ R} {r : R} {addr code : Word} {ret : ℤ} {s : PortalState σ R} :
      -- a fault whose error code has `P` clear is raised by a page that is not present
      (¬ has code flagP → x.kernel.machine.lookup la57 root r (addr &&& ~~~0xfff) = none) →
      (¬ has code flagP → Allowed x r (addr &&& ~~~0xfff)) →
      src.Supplies 2 x.kernel.machine.pmm →
      portalResolveFault fayt src la57 root x.kernel r addr code = .ok (ret, s) →
      Step Opens Allowed x { x with kernel := s }

/-- **The condition on a request**: its pages are its own, and so are the frames that it
gives. -/
structure ShareState.Opens (x : ShareState σ R) (r : R) (req : PortalReq) : Prop where
  placed : x.kernel.Placed la57 root r req
  given : hasBit req.type portalReqDirect → x.kernel.Given src la57 root req

/-- The page at `v` is none of a share point, or one that is present nowhere and
whose frame was not given. -/
def ShareState.Untouched (x : ShareState σ R) (r : R) (v : Word) : Prop :=
  ∀ p, x.kernel.Attached r p → ∀ k < p.pages, samePage la57 v (pageAt p.base k) →
    (∀ r' p' tr, x.kernel.SharePage la57 root r' p' k tr → p'.identifier ≠ p.identifier) ∧
    ∀ req, x.created p.identifier = some req → ¬ hasBit req.type portalReqDirect

/-- No portal is open yet. -/
structure ShareState.Initial (x : ShareState σ R) : Prop where
  forest : Forest src root (upperLevels la57 + 1) x.kernel.machine
  portals : ∀ r, x.kernel.portals r = .nil
  points : ∀ id, x.kernel.shareMap id = none
  created : ∀ id, x.created id = none

end Runs

/-! ### The portals of a state -/

section Layout

variable {fayt : PortalLib} {la57 : Bool} {root : R → Word} {s s' : PortalState σ R} {r : R}
  {req : PortalReq}

/-- Portals name share points that exist, and have no page in common. -/
structure PortalState.Layout (la57 : Bool) (s : PortalState σ R) : Prop where
  named : s.Named
  registered : ∀ {r p}, s.Attached r p → (s.shareMap p.identifier).isSome
  apart : ∀ {r p q}, s.Attached r p → s.Attached r q → ∀ i < p.pages, ∀ j < q.pages,
    samePage la57 (pageAt p.base i) (pageAt q.base j) → p = q ∧ i = j

/-- The portals to share points after one more was opened. -/
theorem PortalState.Opened.attached [DecidableEq R] (h : PortalState.Opened fayt s s' r req)
    {r' : R} {p : Portal} (hp : s'.Attached r' p) :
    (r' = r ∧ p = req.sharePortal) ∨ s.Attached r' p := by
  obtain ⟨hmem, hshare⟩ := hp
  rw [h.portals] at hmem
  rcases eq_or_ne r' r with rfl | hne
  · rw [Function.update_self, fayt.mem_insert] at hmem
    exact hmem.imp (fun hp => ⟨rfl, hp⟩) fun hp => ⟨hp, hshare⟩
  · rw [Function.update_of_ne hne] at hmem
    exact .inr ⟨hmem, hshare⟩

theorem PortalState.Opened.isSome [DecidableEq R] (h : PortalState.Opened fayt s s' r req)
    {id : String} (hid : (s.shareMap id).isSome) : (s'.shareMap id).isSome := by
  rcases eq_or_ne id req.identifier with rfl | hne
  · exact h.there
  · rwa [h.others id hne]

theorem PortalState.Layout.opened [DecidableEq R] (hL : s.Layout la57)
    (hplaced : s.Placed la57 root r req) (h : PortalState.Opened fayt s s' r req) :
    s'.Layout la57 := by
  refine ⟨h.named, fun hp => ?_, fun hp hq i hi j hj hsame => ?_⟩
  · rcases h.attached hp with ⟨-, rfl⟩ | hp
    · exact h.there
    · exact h.isSome (hL.registered hp)
  · rcases h.attached hp with ⟨rfl, rfl⟩ | hp' <;> rcases h.attached hq with ⟨hr, rfl⟩ | hq'
    · exact ⟨rfl, hplaced.distinct i hi j hj hsame⟩
    · exact absurd hsame (hplaced.apart hq' i hi j hj)
    · subst hr
      exact absurd (sameBits_symm hsame) (hplaced.apart hp' j hj i hi)
    · exact hL.apart hp' hq' i hi j hj hsame

end Layout

/-! ### Each step keeps the pages apart -/

section Invariant

variable {fayt : PortalLib} {src : FrameSource σ} {la57 : Bool} {root : R → Word}
  {x : ShareState σ R} {s : PortalState σ R} {r : R} {req : PortalReq}

/-- What holds as long as no page is faulted in twice. -/
structure ShareState.Inv (src : FrameSource σ) (la57 : Bool) (root : R → Word)
    (x : ShareState σ R) : Prop where
  forest : Forest src root (upperLevels la57 + 1) x.kernel.machine
  layout : x.kernel.Layout la57
  live : ∀ {r p k tr}, x.kernel.SharePage la57 root r p k tr →
    src.Live x.kernel.machine.pmm tr.frame
  recorded : ∀ {id req}, x.created id = some req → (x.kernel.shareMap id).isSome
  shares : x.Shares la57 root

theorem ShareState.Initial.inv (h : x.Initial src la57 root) : x.Inv src la57 root := by
  have hdetached : ∀ {r p}, ¬ x.kernel.Attached r p := by
    rintro r p ⟨hmem, -⟩
    rw [h.portals r] at hmem
    cases hmem
  refine ⟨h.forest, ⟨?_, ?_, ?_⟩, ?_, ?_, ⟨?_, ?_⟩⟩
  · intro id point hid
    cases (h.points id).symm.trans hid
  · exact fun hp => absurd hp hdetached
  · exact fun hp => absurd hp hdetached
  · exact fun hpage => absurd hpage.attached hdetached
  · intro id req hid
    cases (h.created id).symm.trans hid
  · exact fun hpage => absurd hpage.attached hdetached
  · exact fun hpage => absurd hpage.attached hdetached

/-- The request that created a share point is that of the first call, or it was
recorded before. -/
theorem ShareState.created_after {id : String} {req' : PortalReq}
    (h : (x.after req s).created id = some req') :
    (id = req.identifier ∧ req' = req ∧ x.kernel.shareMap id = none ∧ (s.shareMap id).isSome) ∨
      x.created id = some req' := by
  unfold ShareState.after at h
  dsimp only at h
  split_ifs at h with hnew
  · rcases eq_or_ne id req.identifier with rfl | hne
    · rw [Function.update_self] at h
      exact .inl ⟨rfl, (Option.some.inj h).symm, Option.isNone_iff_eq_none.mp hnew.1, hnew.2⟩
    · rw [Function.update_of_ne hne] at h
      exact .inr h
  · exact .inr h

/-- A call that creates no share point leaves the record of creators alone. -/
theorem ShareState.after_of_shareMap_eq (h : s.shareMap = x.kernel.shareMap) :
    x.after req s = { x with kernel := s } := by
  unfold ShareState.after
  rw [if_neg]
  rintro ⟨hnone, hsome⟩
  rw [h, Option.isNone_iff_eq_none.mp hnone] at hsome
  cases hsome

/-- A state with the portals, share points and pages of share points of `x` keeps
the invariant. -/
theorem ShareState.Inv.of_pages (h : x.Inv src la57 root)
    (hF : Forest src root (upperLevels la57 + 1) s.machine)
    (hgrows : src.Grows x.kernel.machine.pmm s.machine.pmm)
    (hportals : s.portals = x.kernel.portals) (hpoints : s.shareMap = x.kernel.shareMap)
    (hpages : ∀ {r p k tr}, s.SharePage la57 root r p k tr →
      x.kernel.SharePage la57 root r p k tr) :
    ShareState.Inv src la57 root { x with kernel := s } := by
  have hattached : ∀ {r p}, s.Attached r p → x.kernel.Attached r p :=
    (PortalState.attached_congr hportals).mp
  refine ⟨hF, ⟨?_, ?_, ?_⟩, ?_, ?_, ⟨?_, ?_⟩⟩
  · intro id point hid
    exact h.layout.named id point (hpoints ▸ hid)
  · intro r p hp
    rw [hpoints]
    exact h.layout.registered (hattached hp)
  · exact fun hp hq => h.layout.apart (hattached hp) (hattached hq)
  · exact fun hpage => hgrows _ (h.live (hpages hpage))
  · intro id req hid
    rw [hpoints]
    exact h.recorded hid
  · exact fun hpage hpage' => h.shares.agree (hpages hpage) (hpages hpage')
  · exact fun hpage => h.shares.direct (hpages hpage)

variable [DecidableEq R]

theorem ShareState.Inv.recorded_after (h : x.Inv src la57 root)
    (hopened : PortalState.Opened fayt x.kernel s r req) {id : String} {req' : PortalReq}
    (hid : (x.after req s).created id = some req') : (s.shareMap id).isSome := by
  rcases created_after hid with ⟨-, -, -, hsome⟩ | hold
  · exact hsome
  · exact hopened.isSome (h.recorded hold)

/-- A request for a share point as `ANON` makes no page present. -/
theorem PortalState.Opened.sharePage_anon {s s' : PortalState σ R}
    (hplaced : s.Placed la57 root r req) (h : PortalState.Opened fayt s s' r req)
    (hmachine : s'.machine = s.machine) {r' : R}
    {p : Portal} {k : ℕ} {tr : Translation} (hpage : s'.SharePage la57 root r' p k tr) :
    s.SharePage la57 root r' p k tr := by
  have hpresent := hpage.present
  rw [hmachine] at hpresent
  rcases h.attached hpage.attached with ⟨rfl, rfl⟩ | hp
  · cases hpresent.symm.trans (hplaced.free k hpage.index)
  · exact ⟨hp, hpage.index, hpresent⟩

theorem ShareState.Inv.anon {ret : ℤ} {resp : PortalResp} (h : x.Inv src la57 root)
    (htype : req.type = portalReqAnon ||| portalReqShare)
    (hplaced : x.kernel.Placed la57 root r req)
    (hportal : portal fayt src la57 root x.kernel r req = .ok (ret, resp, s)) :
    (x.after req s).Inv src la57 root := by
  obtain ⟨hmachine, hcases⟩ := portal_share_spec h.layout.named (by rw [htype]; decide)
    (by rw [htype]; decide) hportal
  rw [if_neg (by rw [htype]; decide)] at hmachine
  rcases hcases with ⟨-, hportals, hpoints⟩ | ⟨-, hopened⟩
  · rw [after_of_shareMap_eq hpoints]
    refine h.of_pages (hmachine ▸ h.forest) (hmachine ▸ .refl _) hportals hpoints fun hpage => ?_
    exact ⟨(PortalState.attached_congr hportals).mp hpage.attached, hpage.index,
      hmachine ▸ hpage.present⟩
  have hpages : ∀ {r' p k tr}, s.SharePage la57 root r' p k tr → _ := fun hpage =>
    hopened.sharePage_anon hplaced hmachine hpage
  refine ⟨hmachine ▸ h.forest, h.layout.opened hplaced hopened, ?_, ?_, ⟨?_, ?_⟩⟩
  · intro r' p k tr hpage
    exact hmachine ▸ h.live (hpages hpage)
  · exact h.recorded_after hopened
  · intro r₁ p₁ k₁ tr₁ r₂ p₂ k₂ tr₂ hpage₁ hpage₂
    exact h.shares.agree (hpages hpage₁) (hpages hpage₂)
  · intro r' p k tr req' hpage hid hdirect
    rcases created_after hid with ⟨-, rfl, -, -⟩ | hold
    · rw [htype] at hdirect
      exact absurd hdirect (by decide)
    · exact h.shares.direct (hpages hpage) hold hdirect

/-- What a request with given frames maps. -/
theorem PortalState.Given.mapDirect {s : PortalState σ R} {m : Machine σ}
    (hF : Forest src root (upperLevels la57 + 1) s.machine)
    (hplaced : s.Placed la57 root r req) (hgiven : s.Given src la57 root req)
    (hmap : mapDirect src la57 (root r) (portalTranslateProtections req.prot) s.machine req.addr
      req.frames = .ok m) :
    Forest src root (upperLevels la57 + 1) m ∧ src.Grows s.machine.pmm m.pmm ∧
      (∀ k < pageCnt req.length, ∃ flags,
        m.lookup la57 root r (pageAt req.addr k) = some ⟨req.paddr k, flags, .small⟩) ∧
      ∀ r' v, (r' = r → ∀ i < pageCnt req.length, ¬ samePage la57 (pageAt req.addr i) v) →
        m.lookup la57 root r' v = s.machine.lookup la57 root r' v := by
  have hlength : req.frames.length = pageCnt req.length := by simp [PortalReq.frames]
  have hmappable : ∀ f ∈ req.frames, Mappable f (portalTranslateProtections req.prot) := by
    intro f hf
    obtain ⟨i, hi, rfl⟩ := List.mem_map.mp hf
    exact (portalTranslateProtections_mappable req.prot
      (hgiven.frame i (List.mem_range.mp hi))).1
  have hPS := (portalTranslateProtections_mappable req.prot (f := 0) (by decide)).2
  obtain ⟨hF', hgrows, hpages, hsame⟩ := hF.mapDirect_spec (r := r) hmappable hPS
    (by rw [hlength]; exact hplaced.free) (by rw [hlength]; exact hplaced.distinct) hmap
  rw [hlength] at hsame
  refine ⟨hF', hgrows, fun k hk => ⟨_, hpages k (req.paddr k) ?_⟩, hsame⟩
  simp [PortalReq.frames, hk]

/-- A page of a share point after a share point was created as `DIRECT`: one of
the new share point, with the frame given for it, or one that was there. -/
theorem PortalState.Opened.sharePage_direct {s s' : PortalState σ R}
    (hF : Forest src root (upperLevels la57 + 1) s.machine)
    (hplaced : s.Placed la57 root r req) (hgiven : s.Given src la57 root req)
    (hmap : Rock.mapDirect src la57 (root r) (portalTranslateProtections req.prot) s.machine
      req.addr req.frames = .ok s'.machine)
    (h : PortalState.Opened fayt s s' r req) {r' : R} {p : Portal} {k : ℕ} {tr : Translation}
    (hpage : s'.SharePage la57 root r' p k tr) :
    (p.identifier = req.identifier ∧ k < pageCnt req.length ∧ tr.frame = req.paddr k) ∨
      s.SharePage la57 root r' p k tr := by
  obtain ⟨-, -, hpages, hsame⟩ := Given.mapDirect hF hplaced hgiven hmap
  rcases h.attached hpage.attached with ⟨rfl, rfl⟩ | hp
  · obtain ⟨flags, hk⟩ := hpages k hpage.index
    cases hpage.present.symm.trans hk
    exact .inl ⟨rfl, hpage.index, rfl⟩
  · refine .inr ⟨hp, hpage.index, ?_⟩
    rw [← hsame r' _ ?_]
    · exact hpage.present
    · rintro rfl i hi
      exact hplaced.apart hp i hi k hpage.index

theorem ShareState.Inv.direct {ret : ℤ} {resp : PortalResp} (h : x.Inv src la57 root)
    (htype : req.type = portalReqDirect ||| portalReqShare)
    (hnew : x.kernel.shareMap req.identifier = none)
    (hplaced : x.kernel.Placed la57 root r req) (hgiven : x.kernel.Given src la57 root req)
    (hportal : portal fayt src la57 root x.kernel r req = .ok (ret, resp, s)) :
    (x.after req s).Inv src la57 root := by
  obtain ⟨hmap, hcases⟩ := portal_share_spec h.layout.named (by rw [htype]; decide)
    (by rw [htype]; decide) hportal
  rw [if_pos (by rw [htype]; decide)] at hmap
  obtain ⟨hF, hgrows, -, hsame⟩ := PortalState.Given.mapDirect h.forest hplaced hgiven hmap
  rcases hcases with ⟨-, hportals, hpoints⟩ | ⟨-, hopened⟩
  · -- the frames are mapped, but to pages of no share point
    rw [after_of_shareMap_eq hpoints]
    refine h.of_pages hF hgrows hportals hpoints fun hpage => ?_
    have hattached := (PortalState.attached_congr hportals).mp hpage.attached
    refine ⟨hattached, hpage.index, (hsame _ _ ?_).symm.trans hpage.present⟩
    rintro rfl i hi
    exact hplaced.apart hattached i hi _ hpage.index
  have hpages : ∀ {r' p k tr}, s.SharePage la57 root r' p k tr → _ := fun hpage =>
    hopened.sharePage_direct h.forest hplaced hgiven hmap hpage
  -- no page of the new share point was there
  have hothers : ∀ {r' p k tr}, x.kernel.SharePage la57 root r' p k tr →
      p.identifier ≠ req.identifier := by
    intro r' p k tr hpage hid
    have hsome := h.layout.registered hpage.attached
    rw [hid, hnew] at hsome
    cases hsome
  refine ⟨hF, h.layout.opened hplaced hopened, ?_, ?_, ⟨?_, ?_⟩⟩
  · intro r' p k tr hpage
    rcases hpages hpage with ⟨-, hk, hframe⟩ | hold
    · rw [hframe]
      exact hgrows _ (hgiven.live k hk)
    · exact hgrows _ (h.live hold)
  · exact h.recorded_after hopened
  · intro r₁ p₁ k₁ tr₁ r₂ p₂ k₂ tr₂ hpage₁ hpage₂
    rcases hpages hpage₁ with ⟨hid₁, hk₁, hframe₁⟩ | hold₁ <;>
      rcases hpages hpage₂ with ⟨hid₂, hk₂, hframe₂⟩ | hold₂
    · rw [hframe₁, hframe₂, hid₁, hid₂]
      exact ⟨fun hf => ⟨rfl, hgiven.distinct k₁ hk₁ k₂ hk₂ hf⟩, fun hk => hk.2 ▸ rfl⟩
    · refine iff_of_false ?_ ?_
      · rw [hframe₁]
        exact (hgiven.unused k₁ hk₁ hold₂).symm
      · exact fun hc => hothers hold₂ (hc.1 ▸ hid₁)
    · refine iff_of_false ?_ ?_
      · rw [hframe₂]
        exact hgiven.unused k₂ hk₂ hold₁
      · exact fun hc => hothers hold₁ (hc.1 ▸ hid₂)
    · exact h.shares.agree hold₁ hold₂
  · intro r' p k tr req' hpage hid hdirect
    rcases created_after hid with ⟨hself, rfl, -, -⟩ | hrecorded
    · rcases hpages hpage with ⟨-, -, hframe⟩ | hold
      · exact hframe
      · exact absurd hself (hothers hold)
    · rcases hpages hpage with ⟨hself, -, -⟩ | hold
      · have hsome := h.recorded hrecorded
        rw [hself, hnew] at hsome
        cases hsome
      · exact h.shares.direct hold hrecorded hdirect

/-- A page of a share point after a fault: the page that was faulted in, or one
that was there. -/
theorem PortalState.Faulted.sharePage {s s' : PortalState σ R} {v f flags : Word}
    (h : PortalState.Faulted src la57 root s s' r v f flags) {r' : R} {p : Portal} {k : ℕ}
    {tr : Translation} (hpage : s'.SharePage la57 root r' p k tr) :
    (r' = r ∧ s.Attached r p ∧ k < p.pages ∧ samePage la57 v (pageAt p.base k) ∧ tr.frame = f) ∨
      s.SharePage la57 root r' p k tr := by
  have hattached := (attached_congr h.portals).mp hpage.attached
  have hpresent := hpage.present
  rw [h.mapped.lookup] at hpresent
  split_ifs at hpresent with hv
  · obtain ⟨rfl, hsame⟩ := hv
    cases hpresent
    exact .inl ⟨rfl, hattached, hpage.index, hsame, rfl⟩
  · exact .inr ⟨hattached, hpage.index, hpresent⟩

/-- **A fault keeps the pages apart** if the page was untouched. -/
theorem ShareState.Inv.faulted {v f flags : Word} (h : x.Inv src la57 root)
    (huntouched : x.Untouched la57 root r v)
    (hfault : PortalState.Faulted src la57 root x.kernel s r v f flags) :
    ShareState.Inv src la57 root { x with kernel := s } := by
  have hattached : ∀ {r' p}, s.Attached r' p → x.kernel.Attached r' p :=
    (PortalState.attached_congr hfault.portals).mp
  have hsome := PortalState.isSome_of_points hfault.points
  -- the frame is that of no other page
  have hfresh : ∀ {r' p k tr}, x.kernel.SharePage la57 root r' p k tr → tr.frame ≠ f :=
    fun hpage hc => hfault.fresh (hc ▸ h.live hpage)
  refine ⟨hfault.mapped.forest, ⟨?_, ?_, ?_⟩, ?_, ?_, ⟨?_, ?_⟩⟩
  · exact h.layout.named.of_points hfault.points
  · intro r' p hp
    rw [hsome]
    exact h.layout.registered (hattached hp)
  · exact fun hp hq => h.layout.apart (hattached hp) (hattached hq)
  · intro r' p k tr hpage
    rcases hfault.sharePage hpage with ⟨-, -, -, -, hframe⟩ | hold
    · exact hframe ▸ hfault.live
    · exact hfault.mapped.grows _ (h.live hold)
  · intro id req hid
    rw [hsome]
    exact h.recorded hid
  · intro r₁ p₁ k₁ tr₁ r₂ p₂ k₂ tr₂ hpage₁ hpage₂
    rcases hfault.sharePage hpage₁ with ⟨rfl, hp₁, hk₁, hv₁, hframe₁⟩ | hold₁ <;>
      rcases hfault.sharePage hpage₂ with ⟨hr, hp₂, hk₂, hv₂, hframe₂⟩ | hold₂
    · -- one page of the table is one page of one portal
      obtain ⟨rfl, rfl⟩ := h.layout.apart hp₁ hp₂ k₁ hk₁ k₂ hk₂
        (sameBits_trans (sameBits_symm hv₁) hv₂)
      exact iff_of_true (hframe₁.trans hframe₂.symm) ⟨rfl, rfl⟩
    · refine iff_of_false (fun hc => hfresh hold₂ (hc ▸ hframe₁)) ?_
      rintro ⟨hid, rfl⟩
      exact (huntouched p₁ hp₁ k₁ hk₁ hv₁).1 _ _ _ hold₂ hid.symm
    · refine iff_of_false (fun hc => hfresh hold₁ (hc.trans hframe₂)) ?_
      rintro ⟨hid, rfl⟩
      subst hr
      exact (huntouched p₂ hp₂ k₁ hk₂ hv₂).1 _ _ _ hold₁ hid
    · exact h.shares.agree hold₁ hold₂
  · intro r' p k tr req hpage hid hdirect
    rcases hfault.sharePage hpage with ⟨-, hp, hk, hv, -⟩ | hold
    · exact absurd hdirect ((huntouched p hp k hk hv).2 req hid)
    · exact h.shares.direct hold hid hdirect

/-- **Every step keeps the invariant**, if requests ask for pages and frames of their own
and only untouched pages are faulted in. -/
theorem ShareState.Inv.step {x x' : ShareState σ R} (h : x.Inv src la57 root)
    (hstep : ShareState.Step fayt src la57 root (ShareState.Opens src la57 root)
      (ShareState.Untouched la57 root) x x') :
    x'.Inv src la57 root := by
  cases hstep with
  | anon htype hopens hportal => exact h.anon htype hopens.placed hportal
  | direct htype _ hnew hopens hportal =>
      exact h.direct htype hnew hopens.placed (hopens.given (by rw [htype]; decide)) hportal
  | @fault r addr code ret s hnone huntouched hsup hresolve =>
      have hcases := portalResolveFault_eq hresolve
      split_ifs at hcases with hP
      · exact hcases ▸ h
      · obtain ⟨ret', hanon⟩ := hcases
        rcases portalFaultAnon_spec h.forest hsup (hnone hP) hanon with
          ⟨-, rfl, -⟩ | ⟨p, f, -, -, hfault⟩
        · exact h
        · exact h.faulted (huntouched hP) hfault

end Invariant

/-- **Share points agree while nothing is shared.**  In every run in which requests ask
for pages and frames of their own, and a page of a share point is faulted in only if it is
present nowhere and its frame was not given by the creator, two pages of share points have the
same frame exactly if they are the same page of the same share point, and the frames of a share
point that was created as `DIRECT` are those of the request. -/
theorem share_points_agree [DecidableEq R] {fayt : PortalLib} {src : FrameSource σ} {la57 : Bool}
    {root : R → Word} {x₀ x : ShareState σ R} (hinit : x₀.Initial src la57 root)
    (hrun : Run (ShareState.Step fayt src la57 root (ShareState.Opens src la57 root)
      (ShareState.Untouched la57 root)) x₀ x) : x.Shares la57 root :=
  (Run.invariant (fun _ _ h hstep => h.step hstep) hinit.inv hrun).shares

/-! ### Two contexts at one share point -/

/-- A binary search tree by the base address. -/
def portalLib : PortalLib where
  sharePointSize := 48
  insert t p := t.insert p
  mem_insert := PortalTree.mem_insert
  pushPointFails _ _ := false
  pushPageFails _ _ := false

/-- The page tables of two contexts. -/
def twoRoots (r : Bool) : Word := if r then 0x102000 else 0x101000

/-- A machine with two empty page tables and twelve free frames. -/
def twoTables : Machine FreeList where
  mem := Mem.blank
  pmm := ⟨(List.range 12).map fun i => 0x200000 + 0x1000 * BitVec.ofNat 64 i, by decide +kernel,
    List.forall_iff_forall_mem.mp (by decide +kernel)⟩
  tables := []
  writes := []

theorem twoTables_forest (d : ℕ) : Forest .ofList twoRoots d twoTables := by
  refine Forest.init d (by decide) (fun _ => rfl) (by decide) ?_ rfl
  intro r
  cases r
  · show (0x101000 : Word) ∉ twoTables.pmm.1
    decide +kernel
  · show (0x102000 : Word) ∉ twoTables.pmm.1
    decide +kernel

theorem twoTables_lookup (r : Bool) (v : Word) : twoTables.lookup false twoRoots r v = none := by
  refine (twoTables_forest 3).translate_eq.trans ?_
  rw [slotOf_empty (show twoTables.mem (twoRoots r) = 0 from rfl) (by decide)]
  rfl

/-- A request for one page of the share point `queue`. -/
def queueReq (create : Bool) (addr : Word) : PortalReq where
  type := portalReqAnon ||| portalReqShare
  prot := portalProtWrite
  identifier := "queue"
  create := create
  addr := addr
  length := 0x1000
  paddr _ := 0

/-- Nothing is open yet. -/
def closed : ShareState FreeList Bool where
  kernel := ⟨twoTables, fun _ => .nil, fun _ => [], fun _ => none⟩
  created _ := none

/-- The first context has created the share point. -/
def openedOne : ShareState FreeList Bool :=
  closed.after (queueReq true 0x400000) (portalFinish portalLib closed.kernel false
    ⟨0, portalProtWrite, "", 0x400000, 0x1000, 0⟩ (queueReq true 0x400000)).2.2

/-- The second context has opened it, at another address. -/
def openedBoth : ShareState FreeList Bool :=
  openedOne.after (queueReq false 0x600000) (portalFinish portalLib openedOne.kernel true
    ⟨0, portalProtWrite, "", 0x600000, 0x1000, 0⟩ (queueReq false 0x600000)).2.2

theorem closed_initial : closed.Initial .ofList false twoRoots :=
  ⟨twoTables_forest _, fun _ => rfl, fun _ => rfl, fun _ => rfl⟩

theorem queueReq_placed {s : PortalState FreeList Bool} {r create : Bool} {addr : Word}
    (hmachine : s.machine = twoTables) (hnil : s.portals r = .nil) :
    s.Placed false twoRoots r (queueReq create addr) := by
  have hone : pageCnt (queueReq create addr).length = 1 := by
    show pageCnt 0x1000 = 1
    decide
  refine ⟨?_, ?_, ?_⟩
  · intro i hi j hj _
    omega
  · intro i _
    rw [hmachine]
    exact twoTables_lookup r _
  · rintro q ⟨hq, -⟩
    rw [hnil] at hq
    cases hq

theorem queueReq_opens {x : ShareState FreeList Bool} {r create : Bool} {addr : Word}
    (hmachine : x.kernel.machine = twoTables) (hnil : x.kernel.portals r = .nil) :
    x.Opens .ofList false twoRoots r (queueReq create addr) :=
  ⟨queueReq_placed hmachine hnil, fun hdirect => absurd hdirect (by
    show ¬ hasBit (portalReqAnon ||| portalReqShare) portalReqDirect
    decide)⟩

section

variable {Opens : ShareState FreeList Bool → Bool → PortalReq → Prop}

/-- Both contexts have opened the share point. -/
theorem openedBoth_run (Allowed : ShareState FreeList Bool → Bool → Word → Prop)
    (hone : Opens closed false (queueReq true 0x400000))
    (htwo : Opens openedOne true (queueReq false 0x600000)) :
    Run (ShareState.Step portalLib .ofList false twoRoots Opens Allowed) closed openedBoth := by
  have hfirst : ShareState.Step portalLib .ofList false twoRoots Opens Allowed closed openedOne :=
    .anon rfl hone rfl
  exact .tail (.single hfirst) (.anon rfl htwo rfl)

/-- The portals of the two contexts. -/
def queuePortal (r : Bool) : Portal :=
  if r then (queueReq false 0x600000).sharePortal else (queueReq true 0x400000).sharePortal

theorem openedBoth_attached (r : Bool) : openedBoth.kernel.Attached r (queuePortal r) := by
  cases r
  · exact ⟨List.mem_singleton_self _, by decide⟩
  · exact ⟨List.mem_singleton_self _, by decide⟩

/-- **A first touch**: in a state with the portals of `openedBoth`, a context that
does not have the page of the share point gets a fresh frame for it. -/
theorem queue_fault (Allowed : ShareState FreeList Bool → Bool → Word → Prop)
    {x : ShareState FreeList Bool} {r : Bool} {n : ℕ}
    (hF : Forest .ofList twoRoots 3 x.kernel.machine)
    (hportals : x.kernel.portals = openedBoth.kernel.portals)
    (hpoint : (x.kernel.shareMap "queue").map SharePoint.header = some ("queue", 49))
    (hnone : x.kernel.machine.lookup false twoRoots r (queuePortal r).base = none)
    (hallowed : Allowed x r (queuePortal r).base)
    (hsup : FrameSource.ofList.Supplies (n + 5) x.kernel.machine.pmm) :
    ∃ s f flags,
      ShareState.Step portalLib .ofList false twoRoots Opens Allowed x { x with kernel := s } ∧
      PortalState.Faulted .ofList false twoRoots x.kernel s r (queuePortal r).base f flags ∧
      FrameSource.ofList.Supplies n s.machine.pmm := by
  obtain ⟨point, hpoint, hheader⟩ := Option.map_eq_some_iff.mp hpoint
  have haligned : (queuePortal r).base &&& ~~~0xfff = (queuePortal r).base := by
    cases r <;> decide
  have hfind : (x.kernel.portals r).find (queuePortal r).base = some (queuePortal r) := by
    rw [hportals]
    cases r <;> decide +kernel
  have hid : (queuePortal r).identifier = "queue" := by
    cases r <;> rfl
  have hidx : ¬ (((queuePortal r).base &&& ~~~0xfff) - (queuePortal r).base) / 0x1000 >
      (point.length - portalLib.sharePointSize) / 8 := by
    rw [show point.length = 49 from congrArg Prod.snd hheader]
    cases r <;> decide
  have hsup' : FrameSource.ofList.Supplies (upperLevels false + (n + 1) + 2)
      x.kernel.machine.pmm := hsup.of_le (by simp [upperLevels]; omega)
  rw [← haligned] at hnone hallowed
  obtain ⟨ret, s, f, flags, hresolve, hfault, hleft⟩ := portalResolveFault_returns hF hnone
    (show ¬ has 6 flagP by decide) hfind (hid ▸ hpoint) hidx hsup'
  rw [haligned] at hfault
  exact ⟨s, f, flags, .fault (fun _ => hnone) (fun _ => hallowed) (hsup.of_le (by omega)) hresolve,
    hfault, hleft⟩

end

/-- A context has the page after it was faulted in. -/
theorem queue_sharePage {s s' : PortalState FreeList Bool} {r : Bool} {f flags : Word}
    (hportals : s.portals = openedBoth.kernel.portals)
    (hfault : PortalState.Faulted .ofList false twoRoots s s' r (queuePortal r).base f flags) :
    s'.SharePage false twoRoots r (queuePortal r) 0 ⟨f, flags, .small⟩ := by
  refine ⟨?_, ?_, ?_⟩
  · exact (PortalState.attached_congr (hfault.portals.trans hportals)).mpr (openedBoth_attached r)
  · cases r <;> decide
  · rw [pageAt_zero, hfault.mapped.lookup, if_pos ⟨rfl, sameBits_refl _ _ _⟩]

/-- One context touches the page that both have opened. -/
theorem share_points_agree_touched :
    ∃ x tr, closed.Initial .ofList false twoRoots ∧
      Run (ShareState.Step portalLib .ofList false twoRoots
        (ShareState.Opens .ofList false twoRoots) (ShareState.Untouched false twoRoots))
        closed x ∧
      x.kernel.SharePage false twoRoots false (queuePortal false) 0 tr ∧
      x.Shares false twoRoots := by
  have huntouched : openedBoth.Untouched false twoRoots false (queuePortal false).base := by
    intro p _ k _ _
    refine ⟨?_, ?_⟩
    · intro r' p' tr hpage
      cases (twoTables_lookup r' _).symm.trans hpage.present
    · intro req hreq
      rcases ShareState.created_after hreq with ⟨-, rfl, -, -⟩ | hreq
      · decide
      rcases ShareState.created_after hreq with ⟨-, rfl, -, -⟩ | hreq
      · decide
      · cases hreq
  obtain ⟨s, f, flags, hstep, hfault, -⟩ := queue_fault (ShareState.Untouched false twoRoots)
    (n := 0) (twoTables_forest 3) rfl rfl (twoTables_lookup false _) huntouched
    ((FreeList.supplies _).of_le (by decide))
  have hrun := (openedBoth_run (ShareState.Untouched false twoRoots) (queueReq_opens rfl rfl)
    (queueReq_opens rfl rfl)).tail hstep
  exact ⟨_, _, closed_initial, hrun, queue_sharePage rfl hfault,
    share_points_agree closed_initial hrun⟩

/-- **Share points do not share memory.**  Two contexts that have opened the same
share point and touch its first page have different frames for it. -/
theorem share_point_not_shared :
    ∃ x tr tr', closed.Initial .ofList false twoRoots ∧
      Run (ShareState.Step portalLib .ofList false twoRoots
        (ShareState.Opens .ofList false twoRoots) fun _ _ _ => True) closed x ∧
      (queuePortal false).identifier = (queuePortal true).identifier ∧
      x.kernel.SharePage false twoRoots false (queuePortal false) 0 tr ∧
      x.kernel.SharePage false twoRoots true (queuePortal true) 0 tr' ∧
      tr.frame ≠ tr'.frame ∧ ¬ x.Shares false twoRoots := by
  -- the first context touches the page
  obtain ⟨s₁, f₁, flags₁, hstep₁, hfault₁, hsup₁⟩ := queue_fault (fun _ _ _ => True) (n := 7)
    (twoTables_forest 3) rfl rfl (twoTables_lookup false _) trivial
    ((FreeList.supplies _).of_le (by decide))
  -- the second context does not have it yet
  have hnone : s₁.machine.lookup false twoRoots true (queuePortal true).base = none := by
    rw [hfault₁.mapped.lookup, if_neg (by simp)]
    exact twoTables_lookup true _
  obtain ⟨s₂, f₂, flags₂, hstep₂, hfault₂, -⟩ := queue_fault (fun _ _ _ => True) (n := 0)
    (x := { openedBoth with kernel := s₁ }) hfault₁.mapped.forest hfault₁.portals
    ((hfault₁.points "queue").trans rfl) hnone trivial (hsup₁.of_le (by decide))
  have hpage₁ := queue_sharePage rfl hfault₁
  have hpage₂ := queue_sharePage hfault₁.portals hfault₂
  -- the page of the first context is still there
  have hpage₁' : s₂.SharePage false twoRoots false (queuePortal false) 0 ⟨f₁, flags₁, .small⟩ := by
    refine ⟨?_, hpage₁.index, ?_⟩
    · exact (PortalState.attached_congr hfault₂.portals).mpr hpage₁.attached
    · rw [hfault₂.mapped.lookup, if_neg (by simp)]
      exact hpage₁.present
  have hne : f₁ ≠ f₂ := by
    rintro rfl
    exact hfault₂.fresh hfault₁.live
  refine ⟨{ openedBoth with kernel := s₂ }, _, _, closed_initial,
    ((openedBoth_run _ (queueReq_opens rfl rfl) (queueReq_opens rfl rfl)).tail hstep₁).tail hstep₂,
    rfl, hpage₁', hpage₂, hne, ?_⟩
  exact fun hshares => hne ((hshares.agree hpage₁' hpage₂).mpr ⟨rfl, rfl⟩)

end Rock
