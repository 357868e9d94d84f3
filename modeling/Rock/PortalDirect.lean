/-
Rock/PortalDirect.lean

What a `DIRECT` request is granted (`portal_handle_direct` of kernel/core/portal.c).

The loop counts its pages from the length alone and maps one page for each element of
`paddr[]`, starting at the page of `addr`.  Nothing is checked:

* a window that does not start on a page reaches into one page more than is counted, so that
  its last bytes are not mapped;
* an element of `paddr[]` goes into the entry as it is, so that its low bits become flags and
  the bits above a physical address are lost;
* in a window that wraps around the address space the last element given for a page decides.

`direct_granted_iff` says that these are the only ways to get something else than was asked
for.  Pages outside the window are never changed (`Forest.mapDirect_outside`).
-/
import Rock.PortalFailure

namespace Rock

variable {σ R : Type}

/-! ### What is asked for, and when it is granted -/

/-- The bits of an entry that say what may be done with its page. -/
def permissionBits : Word := flagRW ||| flagUS ||| flagNX

/-- The address of byte `k` of the window. -/
def PortalReq.byteAddr (req : PortalReq) (k : ℕ) : Word := req.addr + BitVec.ofNat 64 k

/-- **The request is granted**: every byte of the window is mapped, each page to the frame of
its element of `paddr[]` with the permissions of `prot`, and nothing else has changed. -/
structure PortalState.GrantsWindow (la57 : Bool) (root : R → Word) (s s' : PortalState σ R) (r : R)
    (req : PortalReq) : Prop where
  covered : ∀ k < req.length.toNat, (s'.machine.lookup la57 root r (req.byteAddr k)).isSome
  pages : ∀ i < pageCnt req.length, ∃ tr,
    s'.machine.lookup la57 root r (pageAt req.addr i) = some tr ∧
      tr.frame = req.paddr i &&& ~~~0xfff ∧
      tr.flags &&& permissionBits = portalTranslateProtections req.prot &&& permissionBits
  others : ∀ r' v, (r' = r → ∀ k < req.length.toNat, ¬ samePage la57 (req.byteAddr k) v) →
    s'.machine.lookup la57 root r' v = s.machine.lookup la57 root r' v

/-- The element `j` is the last one that is given for the page with index `i`. -/
def PortalReq.LastFor (la57 : Bool) (req : PortalReq) (i j : ℕ) : Prop :=
  j < pageCnt req.length ∧ samePage la57 (pageAt req.addr j) (pageAt req.addr i) ∧
    ∀ k < pageCnt req.length, j < k → ¬ samePage la57 (pageAt req.addr k) (pageAt req.addr i)

/-- When a request is granted: bytes behind the pages that are counted are on one of these
pages all the same, or were mapped before; the last element for a page has the frame of each
element given for it; and no element makes a page writable. -/
structure PortalState.Grantable (la57 : Bool) (root : R → Word) (s : PortalState σ R) (r : R)
    (req : PortalReq) : Prop where
  tail : ∀ k < req.length.toNat,
    0x1000 * pageCnt req.length ≤ req.addr.toNat % 0x1000 + k →
      (∃ i < pageCnt req.length, samePage la57 (pageAt req.addr i) (req.byteAddr k)) ∨
        (s.machine.lookup la57 root r (req.byteAddr k)).isSome
  frames : ∀ i < pageCnt req.length, ∀ j, req.LastFor la57 i j →
    req.paddr j &&& PageSize.small.frameMask = req.paddr i &&& ~~~0xfff
  flags : ∀ j, req.LastFor la57 j j → has (req.paddr j) flagRW →
    hasBit req.prot portalProtWrite

/-! ### The window -/

section Window

variable {la57 : Bool} {req : PortalReq} {i k : ℕ}

/-- The pages that are counted begin inside the window. -/
theorem PortalReq.page_lt_length (hi : i < pageCnt req.length) :
    0x1000 * i < req.length.toNat := by
  have hlen := req.length.isLt
  have hcnt : pageCnt req.length = (req.length.toNat + 0xfff) % 2 ^ 64 / 0x1000 := by
    rw [pageCnt, BitVec.toNat_udiv, BitVec.toNat_add]
    rfl
  omega

/-- A byte is on the page that its distance from the start of the first page says. -/
theorem PortalReq.samePage_byteAddr (k : ℕ) :
    samePage la57 (pageAt req.addr ((req.addr.toNat % 0x1000 + k) / 0x1000)) (req.byteAddr k) := by
  have hbits : 30 + 9 * upperLevels la57 = 12 + (18 + 9 * upperLevels la57) := by omega
  rw [samePage, hbits, sameBits_iff_toNat, PortalReq.byteAddr, pageAt, BitVec.toNat_add,
    BitVec.toNat_add, BitVec.toNat_ofNat, BitVec.toNat_ofNat]
  cases la57 <;>
    simp only [upperLevels, if_true, if_false, Bool.false_eq_true] <;>
    omega

/-- A byte is covered by the pages that are counted, unless it is behind them. -/
theorem PortalReq.exists_page (hk : req.addr.toNat % 0x1000 + k < 0x1000 * pageCnt req.length) :
    ∃ i < pageCnt req.length, samePage la57 (pageAt req.addr i) (req.byteAddr k) :=
  ⟨_, Nat.div_lt_of_lt_mul hk, req.samePage_byteAddr k⟩

/-- Some element is the last one for a page. -/
theorem PortalReq.exists_lastFor (la57 : Bool) (hi : i < pageCnt req.length) :
    ∃ j, req.LastFor la57 i j := by
  obtain ⟨j, hj, -, hsame, hlast⟩ := exists_last
    (P := fun j => samePage la57 (pageAt req.addr j) (pageAt req.addr i)) hi (sameBits_refl _ _ _)
  exact ⟨j, hj, hsame, hlast⟩

/-- The last element for a page is the last one for its own. -/
theorem PortalReq.LastFor.self {j : ℕ} (h : req.LastFor la57 i j) : req.LastFor la57 j j := by
  obtain ⟨hj, hsame, hlast⟩ := h
  exact ⟨hj, sameBits_refl _ _ _, fun k hk hjk hc => hlast k hk hjk (sameBits_trans hc hsame)⟩

end Window

/-! ### Entries -/

section Entries

variable {f : Word} {prot : BitVec 32}

/-- The frame of an entry is what the element has of a frame. -/
theorem decode_frame (f : Word) (prot : BitVec 32) :
    (decode .small (f ||| portalTranslateProtections prot)).frame
      = f &&& PageSize.small.frameMask := by
  have hnone : portalTranslateProtections prot &&& PageSize.small.frameMask = 0#64 := by
    unfold portalTranslateProtections
    split_ifs <;> decide
  show (f ||| portalTranslateProtections prot) &&& PageSize.small.frameMask = _
  rw [BitVec.and_or_distrib_right, hnone, BitVec.or_zero]

/-- An element that has the form of a frame has no `NX`. -/
theorem nx_of_frame (hf : f &&& PageSize.small.frameMask = f &&& ~~~0xfff) :
    f &&& flagNX = 0#64 := by
  have hmask : PageSize.small.frameMask &&& flagNX = 0#64 := by decide
  have hhigh : ~~~0xfff &&& flagNX = flagNX := by decide
  calc f &&& flagNX = f &&& ~~~0xfff &&& flagNX := by rw [BitVec.and_assoc, hhigh]
    _ = f &&& (PageSize.small.frameMask &&& flagNX) := by rw [← hf, BitVec.and_assoc]
    _ = 0#64 := by rw [hmask, BitVec.and_zero]

theorem and_flag_cases (f : Word) (n : ℕ) :
    f &&& .twoPow 64 n = .twoPow 64 n ∨ f &&& .twoPow 64 n = 0#64 := by
  rw [BitVec.and_twoPow]
  split_ifs
  · exact .inl rfl
  · exact .inr rfl

/-- The permissions of an entry are those of `prot`, unless the element adds to them. -/
theorem decode_permissions (hnx : f &&& flagNX = 0#64) :
    (decode .small (f ||| portalTranslateProtections prot)).flags &&& permissionBits
        = portalTranslateProtections prot &&& permissionBits ↔
      (has f flagRW → hasBit prot portalProtWrite) := by
  have hsplit : (decode .small (f ||| portalTranslateProtections prot)).flags &&& permissionBits
      = f &&& flagRW ||| f &&& flagUS ||| portalTranslateProtections prot &&& permissionBits := by
    show (f ||| portalTranslateProtections prot) &&& leafMask &&& permissionBits = _
    rw [BitVec.and_assoc, show leafMask &&& permissionBits = permissionBits by decide,
      BitVec.and_or_distrib_right]
    congr 1
    rw [permissionBits, BitVec.and_or_distrib_left, BitVec.and_or_distrib_left, hnx, BitVec.or_zero]
  rw [hsplit, has]
  -- `US` is granted in any case, and `NX` is not in the element
  have hrw : f &&& flagRW = flagRW ∨ f &&& flagRW = 0#64 := and_flag_cases f 1
  have hus : f &&& flagUS = flagUS ∨ f &&& flagUS = 0#64 := and_flag_cases f 2
  rcases hrw with hrw | hrw <;> rcases hus with hus | hus <;> rw [hrw, hus] <;>
    unfold portalTranslateProtections <;> by_cases hw : hasBit prot portalProtWrite <;>
    by_cases hx : hasBit prot portalProtExec <;> simp only [hw, hx, if_true, if_false] <;> decide

end Entries

/-! ### The loop -/

section Loop

variable {src : FrameSource σ} {la57 : Bool} {root : R → Word} {s : PortalState σ R} {r : R}
  {req : PortalReq} {m : Machine σ} [DecidableEq R]
  (hF : Forest src root (upperLevels la57 + 1) s.machine)
  (hopen : ∀ k < req.length.toNat, s.machine.OpenAt la57 root r (req.byteAddr k))
  (h : mapDirect src la57 (root r) (portalTranslateProtections req.prot) s.machine req.addr
    req.frames = .ok m)

include hF hopen h

/-- A page of the window has the last element that is given for it. -/
theorem Forest.mapDirect_page {i j : ℕ} (hj : req.LastFor la57 i j) {v : Word}
    (hv : samePage la57 (pageAt req.addr i) v) :
    m.lookup la57 root r v
      = some (decode .small (req.paddr j ||| portalTranslateProtections req.prot)) := by
  obtain ⟨hflags, hPS⟩ := portalTranslateProtections_flags req.prot
  have hopen' : ∀ i < req.frames.length, s.machine.OpenAt la57 root r (pageAt req.addr i) := by
    intro i hi
    rw [req.frames_length] at hi
    exact hopen _ (PortalReq.page_lt_length hi)
  obtain ⟨hcnt, hsame, hlast⟩ := hj
  rw [hF.lookup_mapDirect hflags hPS hopen' h,
    directAt_of_last (PortalReq.frames_get hcnt) (sameBits_trans hsame hv), Option.some_or]
  intro k hk hjk hc
  rw [req.frames_length] at hk
  exact hlast k hk hjk (sameBits_trans hc (sameBits_symm hv))

/-- **Nothing outside the pages that are counted is changed.** -/
theorem Forest.mapDirect_outside {r' : R} {v : Word}
    (hv : r' = r → ∀ i < pageCnt req.length, ¬ samePage la57 (pageAt req.addr i) v) :
    m.lookup la57 root r' v = s.machine.lookup la57 root r' v := by
  obtain ⟨hflags, hPS⟩ := portalTranslateProtections_flags req.prot
  have hopen' : ∀ i < req.frames.length, s.machine.OpenAt la57 root r (pageAt req.addr i) := by
    intro i hi
    rw [req.frames_length] at hi
    exact hopen _ (PortalReq.page_lt_length hi)
  rcases eq_or_ne r' r with rfl | hr
  · rw [hF.lookup_mapDirect hflags hPS hopen' h, directAt_of_none, Option.none_or]
    rw [req.frames_length]
    exact hv rfl
  · exact hF.lookup_mapDirect_other hflags hPS hopen' h hr v

end Loop

/-! ### The request -/

section Request

variable {fayt : PortalLib} {src : FrameSource σ} {la57 : Bool} {root : R → Word}
  {s s' : PortalState σ R} {r : R} {req : PortalReq} {resp : PortalResp}

theorem portalHandleShare_machine {p p' : Portal}
    (h : portalHandleShare fayt s p req = some (p', s')) : s'.machine = s.machine := by
  unfold portalHandleShare at h
  rcases hpoint : s.shareMap req.identifier with - | point <;> simp only [hpoint] at h
  · split_ifs at h
    obtain ⟨-, rfl⟩ := Prod.mk.inj (Option.some.inj h)
    rfl
  · obtain ⟨-, rfl⟩ := Prod.mk.inj (Option.some.inj h)
    rfl

variable [DecidableEq R]

/-- The handlers after `DIRECT` leave the page tables alone. -/
theorem portalFinish_machine {p : Portal} {ret : ℤ}
    (h : portalFinish fayt s r p req = (ret, resp, s')) : s'.machine = s.machine := by
  unfold portalFinish at h
  by_cases hshare : hasBit req.type portalReqShare
  · simp only [hshare, if_true] at h
    rcases hhandle : portalHandleShare fayt s
        (if hasBit req.type portalReqAnon then portalHandleAnon p else p) req with - | ⟨p', s₁⟩ <;>
      simp only [hhandle] at h
    · obtain ⟨-, -, rfl⟩ := h
      rfl
    · obtain ⟨-, -, rfl⟩ := h
      exact (portalHandleShare_machine hhandle :)
  · simp only [hshare, if_false] at h
    obtain ⟨-, -, rfl⟩ := h
    rfl

/-- A `DIRECT` request leaves the page tables as its loop does. -/
theorem portal_direct_machine {ret : ℤ} (hdirect : hasBit req.type portalReqDirect)
    (h : portal fayt src la57 root s r req = .ok (ret, resp, s')) :
    mapDirect src la57 (root r) (portalTranslateProtections req.prot) s.machine req.addr
      req.frames = .ok s'.machine := by
  obtain ⟨m, hm, hfinish⟩ := portal_cases h
  rw [if_pos hdirect] at hm
  rw [portalFinish_machine hfinish]
  exact hm

section Granted

variable (hF : Forest src root (upperLevels la57 + 1) s.machine)
  (hopen : ∀ k < req.length.toNat, s.machine.OpenAt la57 root r (req.byteAddr k))
  (hmap : mapDirect src la57 (root r) (portalTranslateProtections req.prot) s.machine req.addr
    req.frames = .ok s'.machine)

include hF hopen hmap

/-- A page that is counted is mapped, and any other is as it was. -/
theorem Forest.mapDirect_isSome_iff (v : Word) :
    (s'.machine.lookup la57 root r v).isSome ↔
      (∃ i < pageCnt req.length, samePage la57 (pageAt req.addr i) v) ∨
        (s.machine.lookup la57 root r v).isSome := by
  by_cases hcounted : ∃ i < pageCnt req.length, samePage la57 (pageAt req.addr i) v
  · obtain ⟨i, hi, hv⟩ := id hcounted
    obtain ⟨j, hj⟩ := req.exists_lastFor la57 hi
    rw [hF.mapDirect_page hopen hmap hj hv]
    exact iff_of_true rfl (.inl hcounted)
  · rw [hF.mapDirect_outside hopen hmap fun _ i hi hc => hcounted ⟨i, hi, hc⟩,
      or_iff_right hcounted]

/-- A request that is granted was grantable. -/
theorem PortalState.GrantsWindow.grantable (h : s.GrantsWindow la57 root s' r req) :
    s.Grantable la57 root r req := by
  have hframes : ∀ i < pageCnt req.length, ∀ j, req.LastFor la57 i j →
      req.paddr j &&& PageSize.small.frameMask = req.paddr i &&& ~~~0xfff := by
    intro i hi j hj
    obtain ⟨tr, htr, hframe, -⟩ := h.pages i hi
    rw [hF.mapDirect_page hopen hmap hj (sameBits_refl _ _ _)] at htr
    obtain rfl := Option.some.inj htr
    rw [← hframe, decode_frame]
  refine ⟨fun k hk _ => ?_, hframes, fun j hj => ?_⟩
  · exact (hF.mapDirect_isSome_iff hopen hmap _).mp (h.covered k hk)
  · obtain ⟨tr, htr, -, hflags⟩ := h.pages j hj.1
    rw [hF.mapDirect_page hopen hmap hj (sameBits_refl _ _ _)] at htr
    obtain rfl := Option.some.inj htr
    -- an element that is its own frame has no `NX`, so only `RW` can be more than was asked for
    exact (decode_permissions (nx_of_frame (hframes j hj.1 j hj))).mp hflags

/-- A request that is grantable is granted. -/
theorem PortalState.Grantable.grants (h : s.Grantable la57 root r req) :
    s.GrantsWindow la57 root s' r req := by
  refine ⟨fun k hk => ?_, fun i hi => ?_, fun r' v hv => ?_⟩
  · rw [hF.mapDirect_isSome_iff hopen hmap]
    rcases Nat.lt_or_ge (req.addr.toNat % 0x1000 + k) (0x1000 * pageCnt req.length) with
      hlt | hge
    · exact .inl (PortalReq.exists_page hlt)
    · exact h.tail k hk hge
  · obtain ⟨j, hj⟩ := req.exists_lastFor la57 hi
    have hself := h.frames j hj.1 j hj.self
    refine ⟨_, hF.mapDirect_page hopen hmap hj (sameBits_refl _ _ _), ?_, ?_⟩
    · rw [decode_frame]
      exact h.frames i hi j hj
    · exact (decode_permissions (nx_of_frame hself)).mpr (h.flags j hj.self)
  · refine hF.mapDirect_outside hopen hmap fun hr i hi hc => ?_
    exact hv hr _ (PortalReq.page_lt_length hi) hc

end Granted

end Request

/-! ### Requests for one page -/

/-- A `DIRECT` request of a page in length, with one element. -/
def onePageReq (prot : BitVec 32) (addr paddr : Word) : PortalReq where
  type := portalReqDirect
  prot := prot
  identifier := ""
  create := false
  addr := addr
  length := 0x1000
  paddr _ := paddr

section OnePage

variable {prot : BitVec 32} {addr paddr : Word}

theorem onePageReq_pageCnt : pageCnt (onePageReq prot addr paddr).length = 1 := by
  show pageCnt 0x1000 = 1
  decide

theorem onePageReq_lastFor {j : ℕ} (h : j < 1) :
    (onePageReq prot addr paddr).LastFor false 0 j := by
  obtain rfl := Nat.lt_one_iff.mp h
  refine ⟨?_, sameBits_refl _ _ _, fun k hk hlt => ?_⟩
  · rw [onePageReq_pageCnt]
    exact Nat.one_pos
  · rw [onePageReq_pageCnt] at hk
    omega

theorem onePageReq_direct : hasBit (onePageReq prot addr paddr).type portalReqDirect := by
  show hasBit portalReqDirect portalReqDirect
  decide

variable (prot addr paddr) in
/-- With empty page tables the request succeeds. -/
theorem onePageReq_succeeds :
    ∃ resp s', portal portalLib .ofList false twoRoots closed.kernel false
      (onePageReq prot addr paddr) = .ok (0, resp, s') := by
  obtain ⟨ptr, m, hmap, -⟩ : ∃ ptr m, (x86PagingInit .ofList false).mapPage twoTables
      (twoRoots false) addr paddr (portalTranslateProtections prot)
        = .ok (ptr, m) ∧ FrameSource.ofList.Supplies 0 m.pmm := by
    simp only [x86PagingInit_mapPage]
    refine mapPage_supplies ((FreeList.supplies _).of_le ?_)
    show 3 ≤ 12
    decide
  have hframes : (onePageReq prot addr paddr).frames = [paddr] := by
    rw [PortalReq.frames, onePageReq_pageCnt]
    rfl
  have hdirect : mapDirect .ofList false (twoRoots false) (portalTranslateProtections prot)
      twoTables addr (onePageReq prot addr paddr).frames = .ok m := by
    rw [hframes, mapDirect, hmap]
    rfl
  have hhandle : portalHandleDirect .ofList false twoRoots closed.kernel false
      ⟨0, prot, "", addr, 0x1000, 0⟩ (onePageReq prot addr paddr)
        = .ok (Portal.mark ⟨0, prot, "", addr, 0x1000, 0⟩ portalReqDirect,
          { closed.kernel with machine := m }) :=
    Exec.bind_eq_ok.mpr ⟨m, hdirect, rfl⟩
  have hcall : portal portalLib .ofList false twoRoots closed.kernel false
      (onePageReq prot addr paddr) = .ok (portalFinish portalLib
        { closed.kernel with machine := m } false
        (Portal.mark ⟨0, prot, "", addr, 0x1000, 0⟩ portalReqDirect)
        (onePageReq prot addr paddr)) :=
    (if_pos onePageReq_direct).trans (Exec.bind_eq_ok.mpr ⟨_, hhandle, rfl⟩)
  rcases hfinish : portalFinish portalLib { closed.kernel with machine := m } false
      (Portal.mark ⟨0, prot, "", addr, 0x1000, 0⟩ portalReqDirect) (onePageReq prot addr paddr)
    with ⟨ret, resp, s'⟩
  rw [hfinish] at hcall
  rcases portalFinish_failed hfinish with ⟨-, -, hrefused⟩ | ⟨rfl, -⟩
  · exact absurd hrefused.1 (show ¬ hasBit portalReqDirect portalReqShare by decide)
  · exact ⟨resp, s', hcall⟩

theorem onePageReq_open (k : ℕ) :
    closed.kernel.machine.OpenAt false twoRoots false
      ((onePageReq prot addr paddr).byteAddr k) := by
  intro tr htr
  cases htr.symm.trans (twoTables_lookup false _)

end OnePage

end Rock
