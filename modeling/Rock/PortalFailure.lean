/-
Rock/PortalFailure.lean

What a failed `portal()` call leaves behind.

The handlers of a request run in a fixed order, `DIRECT` first and `SHARE` after
it, and the failure path frees the portal and writes the response.  It does not
take back what a handler has done.  Only `SHARE` can fail, and the only handler
with an effect before it is `DIRECT`: so a failed call changes nothing, except
that a refused `DIRECT|SHARE` request has mapped its frames
(`failed_portal_keeps_iff`, `failed_portal_maps`).
-/
import Rock.Portal
import Rock.SharePoint

namespace Rock

variable {σ R : Type}

/-! ### Calls -/

/-- The page table of a call: that of the current context, or `kernel_mappings` when
there is no context.  A context may have none. -/
def callerTable (kernel : R) : Option (Option R) → Option R
  | none => some kernel
  | some pageTable => pageTable

/-- `portal`, with its checks for `NULL`. -/
def portalCall (fayt : PortalLib) (src : FrameSource σ) (la57 : Bool) (root : R → Word)
    [DecidableEq R] (kernel : R) (context : Option (Option R)) (s : PortalState σ R)
    (req : Option PortalReq) (resp : Bool) : Exec (ℤ × Option PortalResp × PortalState σ R) :=
  match req with
  | none => .ok (-1, none, s)
  | some req =>
      if resp then
        match callerTable kernel context with
        | none => .ok (-1, some ⟨0, 0, portalRespFailure⟩, s)
        | some r => do
            let (ret, resp, s) ← portal fayt src la57 root s r req
            return (ret, some resp, s)
      else .ok (-1, none, s)

/-- From `s` to `s'`, the translations and portals of the page table `r` and the share
points are as before. -/
structure PortalState.Unchanged (la57 : Bool) (root : R → Word) (s s' : PortalState σ R)
    (r : R) : Prop where
  lookup : ∀ v, s'.machine.lookup la57 root r v = s.machine.lookup la57 root r v
  portals : s'.portals r = s.portals r
  points : s'.shareMap = s.shareMap

theorem PortalState.Unchanged.refl (la57 : Bool) (root : R → Word) (s : PortalState σ R) (r : R) :
    s.Unchanged la57 root s r :=
  ⟨fun _ => rfl, rfl, rfl⟩

/-! ### The translations after the loop over the frames -/

section Direct

variable {src : FrameSource σ} {la57 : Bool} {root : R → Word} {r : R} {flags : Word}

/-- The translation that an address `v'` has from the frames that were mapped from `v`
on: that of the last page with the address. -/
def directAt (la57 : Bool) (flags v' : Word) : Word → List Word → Option Translation
  | _, [] => none
  | v, f :: frames => (directAt la57 flags v' (v + 0x1000) frames).or
      (if samePage la57 v v' then some (decode .small (f ||| flags)) else none)

/-- The pages of a window may be mapped as small pages. -/
def Machine.OpenAt (la57 : Bool) (root : R → Word) (m : Machine σ) (r : R) (v : Word) : Prop :=
  ∀ tr, m.lookup la57 root r v = some tr → tr.size ≠ .large

/-- A small page that is mapped leaves the pages of a window open. -/
theorem Mapped.openAt [DecidableEq R] {m m' : Machine σ} {v v' e : Word}
    (h : Mapped src la57 root m m' r v (decode .small e)) (hopen : m.OpenAt la57 root r v') :
    m'.OpenAt la57 root r v' := by
  intro tr htr
  rw [h.lookup] at htr
  split_ifs at htr with hpage
  · obtain rfl := Option.some.inj htr
    exact nofun
  · exact hopen tr htr

/-- **The loop of `portal_handle_direct`** over any frames. -/
theorem Forest.lookup_mapDirect [DecidableEq R] (hflags : PresentFlags flags)
    (hPS : ¬ has flags flagPS) {frames : List Word} {m m' : Machine σ} {v : Word}
    (hF : Forest src root (upperLevels la57 + 1) m)
    (hopen : ∀ i < frames.length, m.OpenAt la57 root r (pageAt v i))
    (h : mapDirect src la57 (root r) flags m v frames = .ok m') (v' : Word) :
    m'.lookup la57 root r v'
      = (directAt la57 flags v' v frames).or (m.lookup la57 root r v') := by
  induction frames generalizing m v with
  | nil =>
      obtain rfl := Except.ok.inj h
      rfl
  | cons f frames ih =>
      obtain ⟨⟨ptr, m₁⟩, h₁, h₂⟩ := Exec.bind_eq_ok.mp h
      have hzero : m.OpenAt la57 root r v := by
        have hfirst := hopen 0 (Nat.succ_pos _)
        rwa [pageAt_zero] at hfirst
      have hmapped := hF.mapPage_decode hflags hPS hzero h₁
      have hopen₁ : ∀ i < frames.length, m₁.OpenAt la57 root r (pageAt (v + 0x1000) i) := by
        intro i hi
        rw [← pageAt_succ]
        exact hmapped.openAt (hopen (i + 1) (by simpa using hi))
      rw [ih hmapped.forest hopen₁ h₂, hmapped.lookup, directAt, Option.or_assoc]
      congr 1
      by_cases hpage : samePage la57 v v'
      · rw [if_pos ⟨rfl, hpage⟩, if_pos hpage, Option.some_or]
      · rw [if_neg fun hc => hpage hc.2, if_neg hpage, Option.none_or]

/-- The loop changes no other page table. -/
theorem Forest.lookup_mapDirect_other [DecidableEq R] (hflags : PresentFlags flags)
    (hPS : ¬ has flags flagPS) {frames : List Word} {m m' : Machine σ} {v : Word}
    (hF : Forest src root (upperLevels la57 + 1) m)
    (hopen : ∀ i < frames.length, m.OpenAt la57 root r (pageAt v i))
    (h : mapDirect src la57 (root r) flags m v frames = .ok m') {r' : R} (hr : r' ≠ r) (v' : Word) :
    m'.lookup la57 root r' v' = m.lookup la57 root r' v' := by
  induction frames generalizing m v with
  | nil =>
      obtain rfl := Except.ok.inj h
      rfl
  | cons f frames ih =>
      obtain ⟨⟨ptr, m₁⟩, h₁, h₂⟩ := Exec.bind_eq_ok.mp h
      have hzero := hopen 0 (Nat.succ_pos _)
      rw [pageAt_zero] at hzero
      have hmapped := hF.mapPage_decode hflags hPS hzero h₁
      rw [ih hmapped.forest ?_ h₂, hmapped.lookup, if_neg fun hc => hr hc.1]
      intro i hi
      rw [← pageAt_succ]
      exact hmapped.openAt (hopen (i + 1) (by simpa using hi))

/-- An address of no page of the window. -/
theorem directAt_of_none {v v' : Word} {frames : List Word}
    (h : ∀ i < frames.length, ¬ samePage la57 (pageAt v i) v') :
    directAt la57 flags v' v frames = none := by
  induction frames generalizing v with
  | nil => rfl
  | cons f frames ih =>
      have hfirst := h 0 (Nat.succ_pos _)
      rw [pageAt_zero] at hfirst
      rw [directAt, if_neg hfirst, ih, Option.or_none]
      intro i hi
      rw [← pageAt_succ]
      exact h (i + 1) (by simpa using hi)

/-- The last page of the window that has the address decides. -/
theorem directAt_of_last {v v' f : Word} {frames : List Word} {i : ℕ}
    (hf : frames[i]? = some f) (hpage : samePage la57 (pageAt v i) v')
    (hlast : ∀ j < frames.length, i < j → ¬ samePage la57 (pageAt v j) v') :
    directAt la57 flags v' v frames = some (decode .small (f ||| flags)) := by
  induction frames generalizing v i with
  | nil => cases hf
  | cons g frames ih =>
      have hrest : ∀ j < frames.length, i < j + 1 → ¬ samePage la57 (pageAt (v + 0x1000) j) v' := by
        intro j hj hij
        rw [← pageAt_succ]
        exact hlast (j + 1) (by simpa using hj) hij
      rw [directAt]
      rcases i with - | i
      · obtain rfl := Option.some.inj hf
        rw [pageAt_zero] at hpage
        rw [if_pos hpage, directAt_of_none fun j hj => hrest j hj (by omega), Option.none_or]
      · rw [pageAt_succ] at hpage
        rw [ih hf hpage fun j hj hij => hrest j hj (by omega), Option.some_or]

/-- Addresses of one page have one translation. -/
theorem Forest.lookup_congr {m : Machine σ} (hF : Forest src root (upperLevels la57 + 1) m)
    {v v' : Word} (h : samePage la57 v v') :
    m.lookup la57 root r v' = m.lookup la57 root r v := by
  obtain ⟨hregion, hindex⟩ := page_eq_iff.mpr h
  refine hF.translate_eq.trans (Eq.trans ?_ hF.translate_eq.symm)
  rw [slotOf_congr hregion, hindex]

end Direct

/-! ### What a refused request leaves behind -/

/-- The pages of the request are mapped already, each to the frame that the request
gives for it last. -/
def PortalState.Premapped (la57 : Bool) (root : R → Word) (s : PortalState σ R) (r : R)
    (req : PortalReq) : Prop :=
  ∀ i < pageCnt req.length,
    (∀ j < pageCnt req.length, i < j → ¬ samePage la57 (pageAt req.addr j) (pageAt req.addr i)) →
    s.machine.lookup la57 root r (pageAt req.addr i)
      = some (decode .small (req.paddr i ||| portalTranslateProtections req.prot))

section Refused

variable {fayt : PortalLib} {src : FrameSource σ} {la57 : Bool} {root : R → Word}
  {s : PortalState σ R} {r : R} {req : PortalReq}

theorem PortalReq.frames_length (req : PortalReq) : req.frames.length = pageCnt req.length := by
  simp [PortalReq.frames]

theorem PortalReq.frames_get {i : ℕ} (hi : i < pageCnt req.length) :
    req.frames[i]? = some (req.paddr i) := by
  simp [PortalReq.frames, hi]

theorem portalTranslateProtections_flags (prot : BitVec 32) :
    PresentFlags (portalTranslateProtections prot) ∧
      ¬ has (portalTranslateProtections prot) flagPS := by
  obtain ⟨hmappable, hPS⟩ := portalTranslateProtections_mappable prot (f := 0) (by decide)
  exact ⟨hmappable.presentFlags, hPS⟩

/-- The last page of the window that has an address of the page `i`. -/
theorem PortalState.Premapped.lookup (hF : Forest src root (upperLevels la57 + 1) s.machine)
    (h : s.Premapped la57 root r req) {i : ℕ} (hi : i < pageCnt req.length) {v : Word}
    (hv : samePage la57 (pageAt req.addr i) v) :
    ∃ j < pageCnt req.length, samePage la57 (pageAt req.addr j) v ∧
      (∀ k < pageCnt req.length, j < k → ¬ samePage la57 (pageAt req.addr k) v) ∧
      s.machine.lookup la57 root r v
        = some (decode .small (req.paddr j ||| portalTranslateProtections req.prot)) := by
  obtain ⟨j, hj, -, hpage, hlast⟩ :=
    exists_last (P := fun i => samePage la57 (pageAt req.addr i) v) hi hv
  refine ⟨j, hj, hpage, hlast, ?_⟩
  rw [hF.lookup_congr hpage]
  refine h j hj fun k hk hjk hc => hlast k hk hjk ?_
  exact sameBits_trans hc hpage

theorem PortalState.Premapped.openAt (hF : Forest src root (upperLevels la57 + 1) s.machine)
    (h : s.Premapped la57 root r req) {i : ℕ} (hi : i < pageCnt req.length) :
    s.machine.OpenAt la57 root r (pageAt req.addr i) := by
  obtain ⟨j, -, -, -, hlookup⟩ := h.lookup hF hi (sameBits_refl _ _ _)
  intro tr htr
  cases hlookup.symm.trans htr
  exact nofun

variable [DecidableEq R]

/-- **Mapping the frames of a request changes nothing** exactly if the pages are mapped
already. -/
theorem Forest.mapDirect_keeps_iff (hF : Forest src root (upperLevels la57 + 1) s.machine)
    (hopen : ∀ i < pageCnt req.length, s.machine.OpenAt la57 root r (pageAt req.addr i))
    {m : Machine σ} (h : mapDirect src la57 (root r) (portalTranslateProtections req.prot)
      s.machine req.addr req.frames = .ok m) :
    (∀ v, m.lookup la57 root r v = s.machine.lookup la57 root r v) ↔
      s.Premapped la57 root r req := by
  obtain ⟨hflags, hPS⟩ := portalTranslateProtections_flags req.prot
  have hlookup := hF.lookup_mapDirect hflags hPS (by rwa [req.frames_length]) h
  constructor
  · intro hsame i hi hlast
    rw [← hsame, hlookup, directAt_of_last (PortalReq.frames_get hi) (sameBits_refl _ _ _)]
    · rfl
    · rwa [req.frames_length]
  · intro hpre v
    rw [hlookup]
    by_cases hcover : ∃ i < pageCnt req.length, samePage la57 (pageAt req.addr i) v
    · obtain ⟨i, hi, hv⟩ := hcover
      obtain ⟨j, hj, hpage, hlast, hold⟩ := hpre.lookup hF hi hv
      rw [hold, directAt_of_last (PortalReq.frames_get hj) hpage]
      · rfl
      · rwa [req.frames_length]
    · rw [directAt_of_none, Option.none_or]
      intro i hi hv
      rw [req.frames_length] at hi
      exact hcover ⟨i, hi, hv⟩

/-- A call of `portal` that is refused as `DIRECT|SHARE` has only given pages that are
mapped already. -/
def Harmless (fayt : PortalLib) (la57 : Bool) (root : R → Word) (kernel : R)
    (context : Option (Option R)) (s : PortalState σ R) (req : Option PortalReq) (resp : Bool) :
    Prop :=
  ∀ q r, req = some q → resp = true → callerTable kernel context = some r →
    q.Refused fayt s → hasBit q.type portalReqDirect → s.Premapped la57 root r q

omit [DecidableEq R] in
theorem PortalReq.refused_machine {m : Machine σ} :
    req.Refused fayt { s with machine := m } ↔ req.Refused fayt s := Iff.rfl

/-- A refused request has its frames mapped, if it is `DIRECT`, and nothing else is
done. -/
theorem portal_failed {ret : ℤ} {out : PortalResp} {s' : PortalState σ R}
    (h : portal fayt src la57 root s r req = .ok (ret, out, s')) :
    (ret = -1 ∧ req.Refused fayt s ∧ s'.portals = s.portals ∧ s'.shareMap = s.shareMap ∧
      if hasBit req.type portalReqDirect then
        mapDirect src la57 (root r) (portalTranslateProtections req.prot) s.machine req.addr
          req.frames = .ok s'.machine
      else s'.machine = s.machine) ∨
    (ret = 0 ∧ ¬ req.Refused fayt s) := by
  obtain ⟨m, hm, h⟩ := portal_cases h
  rcases portalFinish_failed h with ⟨hret, rfl, hrefused⟩ | ⟨hret, hrefused⟩
  · exact .inl ⟨hret, PortalReq.refused_machine.mp hrefused, rfl, rfl, hm⟩
  · exact .inr ⟨hret, fun hc => hrefused (PortalReq.refused_machine.mpr hc)⟩

/-- A refused `DIRECT` request changes nothing exactly if its pages are mapped
already. -/
theorem portal_refused_unchanged_iff (hF : Forest src root (upperLevels la57 + 1) s.machine)
    {s' : PortalState σ R} (hportals : s'.portals = s.portals) (hpoints : s'.shareMap = s.shareMap)
    (hmap : mapDirect src la57 (root r) (portalTranslateProtections req.prot) s.machine req.addr
      req.frames = .ok s'.machine)
    (hopen : ∀ i < pageCnt req.length, s.machine.OpenAt la57 root r (pageAt req.addr i)) :
    s.Unchanged la57 root s' r ↔ s.Premapped la57 root r req := by
  rw [← hF.mapDirect_keeps_iff hopen hmap]
  constructor
  · exact fun hsame => hsame.lookup
  · exact fun hlookup => ⟨hlookup, by rw [hportals], hpoints⟩

/-- A call that passes the checks for `NULL`. -/
theorem portalCall_some {kernel : R} {context : Option (Option R)} {ret : ℤ}
    {out : Option PortalResp} {s' : PortalState σ R} (hr : callerTable kernel context = some r)
    (h : portalCall fayt src la57 root kernel context s (some req) true = .ok (ret, out, s')) :
    ∃ out', portal fayt src la57 root s r req = .ok (ret, out', s') := by
  simp only [portalCall, if_true, hr] at h
  obtain ⟨⟨ret', out', s₁⟩, hportal, h⟩ := Exec.bind_eq_ok.mp h
  cases h
  exact ⟨out', hportal⟩

/-- The checks for `NULL` fail and nothing is done, or the call is made. -/
theorem portalCall_cases {kernel : R} {context : Option (Option R)} {req : Option PortalReq}
    {resp : Bool} {ret : ℤ} {out : Option PortalResp} {s' : PortalState σ R}
    (h : portalCall fayt src la57 root kernel context s req resp = .ok (ret, out, s')) :
    s' = s ∨ ∃ q r, req = some q ∧ resp = true ∧ callerTable kernel context = some r := by
  unfold portalCall at h
  rcases req with - | q
  · cases h
    exact .inl rfl
  rcases resp with - | -
  · cases h
    exact .inl rfl
  rcases hcaller : callerTable kernel context with - | r
  · simp only [hcaller, if_true] at h
    cases h
    exact .inl rfl
  · exact .inr ⟨q, r, rfl, rfl, rfl⟩

/-- **What a failed call changes.**  A call of `portal` that fails leaves the translations
and portals of the caller and the share points as they were, if a request that is
refused as `DIRECT|SHARE` only gives pages that are mapped already.  Where no large page
is in the window of the request, it does so only then. -/
theorem failed_portal_keeps_iff {kernel : R} {context : Option (Option R)}
    {req : Option PortalReq} {resp : Bool} {ret : ℤ} {out : Option PortalResp}
    {s' : PortalState σ R} (hF : Forest src root (upperLevels la57 + 1) s.machine)
    (h : portalCall fayt src la57 root kernel context s req resp = .ok (ret, out, s')) :
    (Harmless fayt la57 root kernel context s req resp →
      ret = -1 → ∀ r, callerTable kernel context = some r → s.Unchanged la57 root s' r) ∧
    ((∀ q r, req = some q → callerTable kernel context = some r → ∀ i < pageCnt q.length,
        s.machine.OpenAt la57 root r (pageAt q.addr i)) →
      (ret = -1 → ∀ r, callerTable kernel context = some r → s.Unchanged la57 root s' r) →
      Harmless fayt la57 root kernel context s req resp) := by
  constructor
  · intro hharmless hret r hr
    rcases portalCall_cases h with rfl | ⟨q, r', rfl, rfl, hr'⟩
    · exact .refl ..
    cases hr.symm.trans hr'
    obtain ⟨out', hportal⟩ := portalCall_some hr h
    rcases portal_failed hportal with ⟨-, hrefused, hportals, hpoints, hmap⟩ | ⟨hret', -⟩
    · split_ifs at hmap with hdirect
      · have hpre := hharmless q r rfl rfl hr hrefused hdirect
        exact (portal_refused_unchanged_iff hF hportals hpoints hmap
          fun i hi => hpre.openAt hF hi).mpr hpre
      · exact ⟨fun v => by rw [hmap], by rw [hportals], hpoints⟩
    · cases hret.symm.trans hret'
  · intro hopen hkeeps q r hq hresp hr hrefused hdirect
    subst hq hresp
    obtain ⟨out', hportal⟩ := portalCall_some hr h
    rcases portal_failed hportal with ⟨hret, -, hportals, hpoints, hmap⟩ | ⟨-, hnot⟩
    · rw [if_pos hdirect] at hmap
      exact (portal_refused_unchanged_iff hF hportals hpoints hmap (hopen q r rfl hr)).mp
        (hkeeps hret r hr)
    · exact absurd hrefused hnot

end Refused

/-- A request to attach to a share point that is missing, without the frames, of a context
that is attached to another one. -/
theorem failed_portal_keeps_attached :
    portalCall portalLib .ofList false twoRoots true (some (some false)) openedBoth.kernel
        (some { queueReq false 0x402000 with identifier := "other" }) true
      = .ok (-1, some ⟨0, 0, portalRespFailure⟩, openedBoth.kernel) ∧
    Harmless portalLib false twoRoots true (some (some false)) openedBoth.kernel
      (some { queueReq false 0x402000 with identifier := "other" }) true ∧
    openedBoth.kernel.Unchanged false twoRoots openedBoth.kernel false := by
  have hcall : portalCall portalLib .ofList false twoRoots true (some (some false))
      openedBoth.kernel (some { queueReq false 0x402000 with identifier := "other" }) true
      = .ok (-1, some ⟨0, 0, portalRespFailure⟩, openedBoth.kernel) := rfl
  have hharmless : Harmless portalLib false twoRoots true (some (some false)) openedBoth.kernel
      (some { queueReq false 0x402000 with identifier := "other" }) true := by
    rintro q r hq - - - hdirect
    cases hq
    exact absurd hdirect (by decide)
  exact ⟨hcall, hharmless,
    (failed_portal_keeps_iff (twoTables_forest _) hcall).1 hharmless rfl false rfl⟩

/-! ### A refused request with frames -/

/-- A request with the frame of its one page. -/
def directReq (type prot : BitVec 32) : PortalReq where
  type := type
  prot := prot
  identifier := "queue"
  create := false
  addr := 0x400000
  length := 0x1000
  paddr _ := 0x500000

/-- The frame of the request is mapped. -/
theorem directReq_maps (type prot : BitVec 32) :
    ∃ ptr m, (x86PagingInit .ofList false).mapPage twoTables (twoRoots false) 0x400000 0x500000
        (portalTranslateProtections prot) = .ok (ptr, m) ∧
      mapDirect .ofList false (twoRoots false) (portalTranslateProtections prot) twoTables 0x400000
        (directReq type prot).frames = .ok m := by
  have hframes : (directReq type prot).frames = [0x500000] := by
    show (List.range (pageCnt 0x1000)).map (fun _ => (0x500000 : Word)) = _
    decide
  obtain ⟨ptr, m, hmap, -⟩ : ∃ ptr m, (x86PagingInit .ofList false).mapPage twoTables
      (twoRoots false) 0x400000 0x500000 (portalTranslateProtections prot)
        = .ok (ptr, m) ∧ FrameSource.ofList.Supplies 0 m.pmm := by
    simp only [x86PagingInit_mapPage]
    exact mapPage_supplies ((FreeList.supplies _).of_le (by decide))
  refine ⟨ptr, m, hmap, ?_⟩
  rw [hframes, mapDirect, hmap]
  rfl

/-- **A failed call may change the page table.**  The request fails, and the page that was
not present translates to the frame of the request. -/
theorem failed_portal_maps :
    ∃ out s', portalCall portalLib .ofList false twoRoots true (some (some false)) closed.kernel
        (some (directReq (portalReqDirect ||| portalReqShare) portalProtWrite)) true
        = .ok (-1, out, s') ∧
      closed.kernel.machine.lookup false twoRoots false 0x400000 = none ∧
      s'.machine.lookup false twoRoots false 0x400000
        = some ⟨0x500000, portalTranslateProtections portalProtWrite, .small⟩ ∧
      ¬ closed.kernel.Unchanged false twoRoots s' false := by
  obtain ⟨ptr, m, hmap, hdirect⟩ :=
    directReq_maps (portalReqDirect ||| portalReqShare) portalProtWrite
  have hmapped := (twoTables_forest 3).mapPage_small (r := false)
    (portalTranslateProtections_mappable portalProtWrite (by decide)).1
    (portalTranslateProtections_flags portalProtWrite).2 (twoTables_lookup false _) hmap
  have hnone : closed.kernel.machine.lookup false twoRoots false 0x400000 = none :=
    twoTables_lookup false _
  have hlookup : m.lookup false twoRoots false 0x400000
      = some ⟨0x500000, portalTranslateProtections portalProtWrite, .small⟩ := by
    rw [hmapped.lookup, if_pos ⟨rfl, sameBits_refl _ _ _⟩]
  refine ⟨some ⟨0, 0, portalRespFailure⟩, { closed.kernel with machine := m }, ?_, hnone, hlookup,
    fun hsame => ?_⟩
  · have hportal : portal portalLib .ofList false twoRoots closed.kernel false
        (directReq (portalReqDirect ||| portalReqShare) portalProtWrite)
        = .ok (-1, ⟨0, 0, portalRespFailure⟩, { closed.kernel with machine := m }) := by
      rw [portal, if_pos (by decide), portalHandleDirect]
      show (mapDirect .ofList false (twoRoots false) (portalTranslateProtections portalProtWrite)
        twoTables 0x400000 _ >>= _) >>= _ = _
      rw [hdirect]
      rfl
    show (portal portalLib .ofList false twoRoots closed.kernel false _ >>= _) = _
    rw [hportal]
    rfl
  · cases (hnone.symm.trans (hsame.lookup _).symm).trans hlookup

end Rock
