/-
Rock/Portal.lean

Portals (kernel/core/portal.c): windows of an address space that are filled by
mapping given frames (`DIRECT`), lazily by page faults (`ANON`), and that may be
attached to a named share point (`SHARE`).

The kernel keeps one tree of portals per page table and one global table of
share points.  A page fault searches the tree of the current page table for an
`ANON` portal around the address and maps a page there.  For a `SHARE` portal it
first looks up the frame of the page in the share point, allocating it when it
is missing, and then maps a frame from a second `pmm_alloc`: the frame it has
looked up is not used (`faultFrame`).

The page tables are those of the paging backends, one root for each page table.
Of fayt, the tree insertion, the size of `struct portal_share_point` (which has a
fayt vector in it) and the failures of `hash_table_push` are parameters; the hash
tables are maps and lists.
Left out are the initial contents of a circular link, which `portal_handle_share`
writes into the shared memory itself, and the flushing of the TLB.
-/
import Rock.Exec
import Rock.PageMap

namespace Rock

open TableTree

/-! ### Requests and portals -/

def portalReqShare : BitVec 32 := 1 <<< 0
def portalReqDirect : BitVec 32 := 1 <<< 1
def portalReqAnon : BitVec 32 := 1 <<< 2
def portalReqCow : BitVec 32 := 1 <<< 3
def portalReqSp : BitVec 32 := 1 <<< 4

def portalRespFailure : Word := 1 <<< 0
def portalRespSuccess : Word := 1 <<< 1

def portalProtRead : BitVec 32 := 1 <<< 0
def portalProtWrite : BitVec 32 := 1 <<< 1
def portalProtExec : BitVec 32 := 1 <<< 2

def pageFaultCow : Word := 1 <<< 9
def pageFaultShare : Word := 1 <<< 10
def pageFaultSp : Word := 1 <<< 11

/-- The C test `t & f` on an `int`. -/
def hasBit (t f : BitVec 32) : Prop := t &&& f ≠ 0#32

instance (t f : BitVec 32) : Decidable (hasBit t f) := inferInstanceAs (Decidable (_ ≠ _))

/-- `struct portal_req`, with its `share` and `morphology`. -/
structure PortalReq where
  type : BitVec 32
  prot : BitVec 32
  identifier : String
  create : Bool
  addr : Word
  length : Word
  paddr : ℕ → Word

/-- `struct portal_resp`. -/
structure PortalResp where
  base : Word
  limit : Word
  flags : Word
  deriving DecidableEq, Repr

/-- `struct portal`. -/
structure Portal where
  type : BitVec 32
  prot : BitVec 32
  identifier : String
  base : Word
  limit : Word
  flags : Word
  deriving DecidableEq, Repr

/-- `DIV_ROUNDUP(length, PAGE_SIZE)`, which is a macro of fayt: below the last page of the address
space it can only be this, and there the sum wraps around. -/
def pageCnt (length : Word) : ℕ := ((length + 0xfff) / 0x1000).toNat

theorem pageCnt_eq_divRoundup (fayt : Fayt) {length : Word}
    (h : length.toNat + pageSize ≤ 2 ^ 64) :
    pageCnt length = fayt.divRoundup length.toNat pageSize := by
  rw [fayt.divRoundup_eq pageSize_pos h, pageCnt, BitVec.toNat_udiv, BitVec.toNat_add]
  show (length.toNat + 0xfff) % 2 ^ 64 / 0x1000 = _
  rw [pageSize] at h ⊢
  omega

/-- The number of pages of a portal. -/
def Portal.pages (p : Portal) : ℕ := pageCnt p.limit

/-- The address of the page with index `k` of a window at `base`. -/
def pageAt (base : Word) (k : ℕ) : Word := base + BitVec.ofNat 64 (0x1000 * k)

/-- The portals of a page table, linked by `left` and `right`. -/
inductive PortalTree where
  | nil
  | node (portal : Portal) (left right : PortalTree)
  deriving DecidableEq, Repr

/-- The portals of a tree, by their place. -/
def PortalTree.toList : PortalTree → List Portal
  | nil => []
  | node p l r => l.toList ++ p :: r.toList

/-- The search of `portal_fault_anon` for an `ANON` portal around `addr`. -/
def PortalTree.find (addr : Word) : PortalTree → Option Portal
  | nil => none
  | node p l r =>
      if hasBit p.type portalReqAnon ∧ p.base ≤ addr ∧ p.base + p.limit ≥ addr then some p
      else if p.base > addr then l.find addr
      else r.find addr

/-- Insertion by the base address. -/
def PortalTree.insert (p : Portal) : PortalTree → PortalTree
  | nil => node p nil nil
  | node q l r => if p.base < q.base then node q (l.insert p) r else node q l (r.insert p)

theorem PortalTree.mem_insert {p q : Portal} {t : PortalTree} :
    q ∈ (t.insert p).toList ↔ q = p ∨ q ∈ t.toList := by
  induction t with
  | nil => simp [PortalTree.insert, PortalTree.toList]
  | node x l r ihl ihr =>
      rw [PortalTree.insert]
      split_ifs
      · simp only [PortalTree.toList, List.mem_append, List.mem_cons, ihl]
        exact or_assoc
      · simp only [PortalTree.toList, List.mem_append, List.mem_cons, ihr]
        rw [or_left_comm (b := q = p), or_left_comm (b := q = p)]

/-! ### The state of the kernel -/

/-- `struct portal_share_point`. -/
structure SharePoint where
  identifier : String
  length : Word
  paddr : ℕ → Word

/-- `struct frame`. -/
structure PageFrame where
  paddr : Word
  refcnt : ℕ

/-- `struct page`. -/
structure Page where
  vaddr : Word
  frame : PageFrame

/-- What portal.c uses of fayt: the size of a share point, the insertion into a
tree of portals, and when a `hash_table_push` of a share point under its name, or
of a page under its address, returns -1 and leaves the table as it is. -/
structure PortalLib where
  sharePointSize : Word
  insert : PortalTree → Portal → PortalTree
  mem_insert : ∀ {t p q}, q ∈ (insert t p).toList ↔ q = p ∨ q ∈ t.toList
  pushPointFails : (String → Option SharePoint) → String → Bool
  pushPageFails : List Page → Word → Bool

/-- Physical memory, the portals and pages of each page table, and
`portal_share_map`. -/
structure PortalState (σ : Type) (R : Type) where
  machine : Machine σ
  portals : R → PortalTree
  pages : R → List Page
  shareMap : String → Option SharePoint

/-- `hash_table_push` of a share point under its name. -/
def PortalState.putPoint {σ R : Type} (s : PortalState σ R) (point : SharePoint) :
    PortalState σ R :=
  { s with shareMap := Function.update s.shareMap point.identifier (some point) }

/-- `portal_translate_protections`. -/
def portalTranslateProtections (prot : BitVec 32) : Word :=
  let ret := flagP ||| flagUS ||| flagNX
  let ret := if hasBit prot portalProtWrite then ret ||| flagRW else ret
  if hasBit prot portalProtExec then ret &&& ~~~flagNX else ret

variable {σ R : Type}

section Model

variable (fayt : PortalLib) (src : FrameSource σ) (la57 : Bool) (root : R → Word) [DecidableEq R]

/-- The machine after the frame `f` was taken for data, and cleared. -/
def Machine.takePage (m : Machine σ) (f : Word) (s : σ) : Machine σ :=
  { m with mem := Function.update m.mem f 0, pmm := s }

/-- `pmm_alloc(1, 1)` for a page of data; -1 when there is none. -/
def allocPage (m : Machine σ) : Word × Machine σ :=
  match src.alloc m.pmm with
  | none => (-1, m)
  | some (f, s) => (f, m.takePage f s)

/-- The loop of `portal_handle_direct` over the given frames. -/
def mapDirect (pmlt flags : Word) (m : Machine σ) (vaddr : Word) : List Word → Exec (Machine σ)
  | [] => .ok m
  | paddr :: rest => do
      let (_, m) ← (x86PagingInit src la57).mapPage m pmlt vaddr paddr flags
      mapDirect pmlt flags m (vaddr + 0x1000) rest

/-- The frames of the morphology. -/
def PortalReq.frames (req : PortalReq) : List Word :=
  (List.range (pageCnt req.length)).map req.paddr

/-- A handler that only marks the portal. -/
def Portal.mark (p : Portal) (bit : BitVec 32) : Portal := { p with type := p.type ||| bit }

def portalHandleAnon (p : Portal) : Portal := p.mark portalReqAnon
def portalHandleCow (p : Portal) : Portal := p.mark portalReqCow
def portalHandleSp (p : Portal) : Portal := p.mark portalReqSp

/-- `portal_handle_direct`. -/
def portalHandleDirect (s : PortalState σ R) (r : R) (p : Portal) (req : PortalReq) :
    Exec (Portal × PortalState σ R) := do
  let m ← mapDirect src la57 (root r) (portalTranslateProtections req.prot) s.machine req.addr
    req.frames
  return (p.mark portalReqDirect, { s with machine := m })

/-- A new share point; its frames are not known yet. -/
def PortalReq.sharePoint (req : PortalReq) : SharePoint where
  identifier := req.identifier
  length := fayt.sharePointSize + BitVec.ofNat 64 (pageCnt req.length)
  paddr _ := 0

/-- `portal_handle_share`; `none` is the returned -1. -/
def portalHandleShare (s : PortalState σ R) (p : Portal) (req : PortalReq) :
    Option (Portal × PortalState σ R) :=
  let p := p.mark portalReqShare
  match s.shareMap req.identifier with
  | some point => some ({ p with identifier := point.identifier }, s)
  | none =>
      if req.create then
        let point := req.sharePoint fayt
        if fayt.pushPointFails s.shareMap point.identifier then none
        else some ({ p with identifier := point.identifier }, s.putPoint point)
      else none

/-- The rest of `portal` after its `DIRECT` part: the other handlers, and the
insertion into the tree. -/
def portalFinish (s : PortalState σ R) (r : R) (p : Portal) (req : PortalReq) :
    ℤ × PortalResp × PortalState σ R :=
  let p := if hasBit req.type portalReqAnon then portalHandleAnon p else p
  match if hasBit req.type portalReqShare then portalHandleShare fayt s p req else some (p, s) with
  | none => (-1, ⟨0, 0, portalRespFailure ||| p.flags⟩, s)
  | some (p, s) =>
      let p := if hasBit req.type portalReqCow then portalHandleCow p else p
      let p := if hasBit req.type portalReqSp then portalHandleSp p else p
      (0, ⟨p.base, p.limit, portalRespSuccess ||| p.flags⟩,
        { s with portals := Function.update s.portals r (fayt.insert (s.portals r) p) })

/-- `portal`, called with the page table `r`: what it returns and its response. -/
def portal (s : PortalState σ R) (r : R) (req : PortalReq) :
    Exec (ℤ × PortalResp × PortalState σ R) :=
  let p : Portal := ⟨0, req.prot, "", req.addr, req.length, 0⟩
  if hasBit req.type portalReqDirect then do
    let (p, s) ← portalHandleDirect src la57 root s r p req
    return portalFinish fayt s r p req
  else
    return portalFinish fayt s r p req

/-- The frame that `portal_fault_anon` looks up or allocates as `paddr`; `none`
is the returned -1. -/
def faultFrame (s : PortalState σ R) (p : Portal) (vaddr : Word) :
    Option (Word × PortalState σ R) :=
  if hasBit p.type portalReqShare then
    match s.shareMap p.identifier with
    | none => none
    | some point =>
        let pageIndex := (vaddr - p.base) / 0x1000
        if pageIndex > (point.length - fayt.sharePointSize) / 8 then none
        else if point.paddr pageIndex.toNat = 0 then
          let (f, m) := allocPage src s.machine
          let point := { point with paddr := Function.update point.paddr pageIndex.toNat f }
          some (f, { s with
            machine := m
            shareMap := Function.update s.shareMap p.identifier (some point) })
        else some (point.paddr pageIndex.toNat, s)
  else
    let (f, m) := allocPage src s.machine
    some (f, { s with machine := m })

/-- `portal_fault_anon`.  The page is mapped to a frame of its own; `shared_frame`
is always `NULL` and `paddr` is not used. -/
def portalFaultAnon (s : PortalState σ R) (r : R) (addr : Word) :
    Exec (ℤ × PortalState σ R) :=
  match (s.portals r).find addr with
  | none => .ok (-1, s)
  | some p => do
      let vaddr := addr - (addr &&& 0xfff)
      match faultFrame fayt src s p vaddr with
      | none => .ok (-1, s)
      | some (_paddr, s) => do
          let (f, m) := allocPage src s.machine
          let page : Page := ⟨vaddr, ⟨f, 1⟩⟩
          let (_, m) ← (x86PagingInit src la57).mapPage m (root r) page.vaddr page.frame.paddr
            (portalTranslateProtections p.prot)
          if fayt.pushPageFails (s.pages r) page.vaddr then return (-1, { s with machine := m })
          else return (0, { s with
            machine := m
            pages := Function.update s.pages r (page :: s.pages r) })

/-- The handlers of other faults do nothing yet. -/
def portalFaultShare : ℤ := -1
def portalFaultSp : ℤ := -1
def portalFaultCow : ℤ := -1

/-- `portal_resolve_fault`. -/
def portalResolveFault (s : PortalState σ R) (r : R) (faultingAddress errorCode : Word) :
    Exec (ℤ × PortalState σ R) := do
  let faultingPage := faultingAddress &&& ~~~0xfff
  let pmlEntry := (x86PagingInit src la57).pageEntry s.machine (root r) faultingPage
  let pageEntry := pmlEntry.elim 0 fun w => s.machine.mem w.page w.idx
  let (ret, s) ←
    if ¬ has errorCode flagP then portalFaultAnon fayt src la57 root s r faultingAddress
    else pure (0, s)
  if ret = -1 then return (-1, s)
  if has pageEntry pageFaultCow ∧ portalFaultCow = -1 then return (-1, s)
  if has pageEntry pageFaultShare ∧ portalFaultShare = -1 then return (-1, s)
  if has pageEntry pageFaultSp ∧ portalFaultSp = -1 then return (-1, s)
  return (0, s)

end Model

/-! ### Allocating and mapping -/

/-- What was in use stays in use. -/
def FrameSource.Grows (src : FrameSource σ) (s s' : σ) : Prop :=
  ∀ g, src.Live s g → src.Live s' g

section Mapping

variable {src : FrameSource σ} {la57 : Bool} {root : R → Word}

theorem FrameSource.Grows.refl (s : σ) : src.Grows s s := fun _ h => h

theorem FrameSource.Grows.trans {s₁ s₂ s₃ : σ} (h : src.Grows s₁ s₂) (h' : src.Grows s₂ s₃) :
    src.Grows s₁ s₃ :=
  fun g hg => h' g (h g hg)

theorem descend_grows {extra flags t t' : Word} {i : BitVec 9} {m m' : Machine σ}
    (h : descend src extra flags m t i = .ok (t', m')) : src.Grows m.pmm m'.pmm := by
  unfold descend at h
  split_ifs at h with hpres
  · obtain ⟨-, rfl⟩ := Prod.mk.inj (Except.ok.inj h)
    exact .refl _
  · rcases ha : src.alloc m.pmm with - | ⟨f, s⟩ <;> rw [ha] at h
    · cases h
    · obtain ⟨-, rfl⟩ := Prod.mk.inj (Except.ok.inj h)
      exact fun g hg => src.alloc_mono ha hg

theorem descendAll_grows {extra flags t t' : Word} {is : List (BitVec 9)} {m m' : Machine σ}
    (h : descendAll src extra flags m t is = .ok (t', m')) : src.Grows m.pmm m'.pmm := by
  induction is generalizing m t with
  | nil =>
      obtain ⟨-, rfl⟩ := Prod.mk.inj (Except.ok.inj h)
      exact .refl _
  | cons i is ih =>
      obtain ⟨⟨t₁, m₁⟩, h₁, h₂⟩ := Exec.bind_eq_ok.mp h
      exact (descend_grows h₁).trans (ih h₂)

theorem mapPage_grows {extra t paddr flags : Word} {upper : List (BitVec 9)} {i2 i1 : BitVec 9}
    {ptr : Option Ptr} {m m' : Machine σ}
    (h : mapPage src extra m t upper i2 i1 paddr flags = .ok (ptr, m')) :
    src.Grows m.pmm m'.pmm := by
  obtain ⟨⟨t₁, m₁⟩, h₁, h⟩ := Exec.bind_eq_ok.mp h
  refine (descendAll_grows h₁).trans ?_
  dsimp only at h
  split_ifs at h with hPS
  · obtain ⟨-, rfl⟩ := Prod.mk.inj (Except.ok.inj h)
    exact .refl _
  · obtain ⟨⟨t₂, m₂⟩, h₂, h⟩ := Exec.bind_eq_ok.mp h
    obtain ⟨-, rfl⟩ := Prod.mk.inj (Except.ok.inj h)
    exact (descend_grows h₂ :)

/-- Two addresses are on the same page of the tables. -/
def samePage (la57 : Bool) (v v' : Word) : Prop := sameBits 12 (30 + 9 * upperLevels la57) v v'

instance (la57 : Bool) (v v' : Word) : Decidable (samePage la57 v v') :=
  inferInstanceAs (Decidable (sameBits _ _ _ _))

/-- The translation of an address by the page table `r`. -/
def Machine.lookup (la57 : Bool) (root : R → Word) (m : Machine σ) (r : R) (v : Word) :
    Option Translation :=
  translate m.mem (pagingLevels la57) (root r) v

/-- From `m` to `m'`, nothing but the page of `v` changes, which is mapped to
`tr`. -/
structure Mapped [DecidableEq R] (src : FrameSource σ) (la57 : Bool) (root : R → Word)
    (m m' : Machine σ) (r : R) (v : Word) (tr : Translation) : Prop where
  forest : Forest src root (upperLevels la57 + 1) m'
  lookup : ∀ r' v', m'.lookup la57 root r' v' =
    if r' = r ∧ samePage la57 v v' then some tr else m.lookup la57 root r' v'
  grows : src.Grows m.pmm m'.pmm

/-- **Mapping a small page** where no large page is. -/
theorem Forest.mapPage_decode [DecidableEq R] {m m' : Machine σ} {r : R} {v paddr flags : Word}
    {ptr : Option Ptr} (hF : Forest src root (upperLevels la57 + 1) m)
    (hm : PresentFlags flags) (hsmall : ¬ has flags flagPS)
    (hopen : ∀ tr, m.lookup la57 root r v = some tr → tr.size ≠ .large)
    (h : (x86PagingInit src la57).mapPage m (root r) v paddr flags = .ok (ptr, m')) :
    Mapped src la57 root m m' r v (decode .small (paddr ||| flags)) := by
  rw [x86PagingInit_mapPage] at h
  have hopen' : ¬ has flags flagPS → (slotOf m.mem (upperLevels la57) (root r) v).Open :=
    fun _ => hF.open_iff.mpr hopen
  have hsize : mappedSize flags = .small := if_neg hsmall
  refine ⟨(hF.slotOf_mapPage hm (linkExtra_within la57) hopen' h).1, fun r' v' => ?_,
    mapPage_grows h⟩
  have htr := hF.translate_mapPage_decode hm (linkExtra_within la57) hopen' h r' v'
  rw [hsize] at htr
  exact htr

/-- **Mapping a page where none is.** -/
theorem Forest.mapPage_small [DecidableEq R] {m m' : Machine σ} {r : R} {v paddr flags : Word}
    {ptr : Option Ptr} (hF : Forest src root (upperLevels la57 + 1) m)
    (hm : Mappable paddr flags) (hsmall : ¬ has flags flagPS)
    (hnone : m.lookup la57 root r v = none)
    (h : (x86PagingInit src la57).mapPage m (root r) v paddr flags = .ok (ptr, m')) :
    Mapped src la57 root m m' r v ⟨paddr, flags, .small⟩ := by
  have hsize : mappedSize flags = .small := if_neg hsmall
  have hdecode := hm.decode_eq
  rw [hsize] at hdecode
  rw [← hdecode]
  refine hF.mapPage_decode hm.presentFlags hsmall (fun tr htr => ?_) h
  cases htr.symm.trans hnone

/-- From `m` to `m'`, the frame `f` was taken from the allocator for data. -/
structure Allocated (src : FrameSource σ) (la57 : Bool) (root : R → Word) (m : Machine σ)
    (f : Word) (m' : Machine σ) : Prop where
  frame : IsFrame .small f
  fresh : ¬ src.Live m.pmm f
  live : src.Live m'.pmm f
  grows : src.Grows m.pmm m'.pmm
  forest : Forest src root (upperLevels la57 + 1) m'
  lookup : ∀ r v, m'.lookup la57 root r v = m.lookup la57 root r v

section TakePage

variable {m : Machine σ} {f : Word} {s : σ} {d : ℕ} (hF : Forest src root d m)
  (ha : src.alloc m.pmm = some (f, s))

include hF ha

theorem Forest.takePage_mem {r : R} {q : List (BitVec 9)} {t : Word} (hq : q.length ≤ d)
    (ht : tableAt subtable m.mem (root r) q = some t) : (m.takePage f s).mem t = m.mem t := by
  refine Function.update_of_ne ?_ ..
  rintro rfl
  exact hF.fresh ha r q hq ht

theorem Forest.tableAt_takePage {r : R} {q : List (BitVec 9)} (hq : q.length ≤ d) :
    tableAt subtable (m.takePage f s).mem (root r) q = tableAt subtable m.mem (root r) q :=
  tableAt_update_fresh (hF.fresh ha) hq

/-- A page of data is no table. -/
theorem Forest.takePage : Forest src root d (m.takePage f s) where
  sep := hF.sep.update_fresh (hF.fresh ha)
  small := by
    intro r q t i hq ht
    rw [hF.tableAt_takePage ha (by omega)] at ht
    rw [hF.takePage_mem ha (by omega) ht]
    exact hF.small hq ht
  known := by
    intro r q t hq ht
    rw [hF.tableAt_takePage ha hq] at ht
    have hk := hF.known hq ht
    exact ⟨hk.frame, src.alloc_mono ha hk.live, hk.owned⟩
  writes := hF.writes

end TakePage

theorem Forest.lookup_takePage {m : Machine σ} {f : Word} {s : σ}
    (hF : Forest src root (upperLevels la57 + 1) m) (ha : src.alloc m.pmm = some (f, s)) (r : R)
    (v : Word) : (m.takePage f s).lookup la57 root r v = m.lookup la57 root r v := by
  refine (hF.takePage ha).translate_eq.trans (Eq.trans ?_ hF.translate_eq.symm)
  have hslot : slotOf (m.takePage f s).mem (upperLevels la57) (root r) v
      = slotOf m.mem (upperLevels la57) (root r) v := by
    refine slotAt_congr (hF.tableAt_takePage ha (by simp)) ?_ ?_
    · intro t ht
      rw [hF.takePage_mem ha (by simp) ht]
    · intro t ht
      exact hF.takePage_mem ha (by simp) ht
  rw [hslot]

theorem allocPage_eq_of_some {m : Machine σ} {f : Word} {s : σ}
    (ha : src.alloc m.pmm = some (f, s)) : allocPage src m = (f, m.takePage f s) := by
  rw [allocPage, ha]

theorem allocPage_eq_of_none {m : Machine σ} (ha : src.alloc m.pmm = none) :
    allocPage src m = (-1, m) := by
  rw [allocPage, ha]

/-- Taking a page of data changes no translation, also when there is none left. -/
theorem Forest.allocPage_keeps {m : Machine σ} (hF : Forest src root (upperLevels la57 + 1) m) :
    Forest src root (upperLevels la57 + 1) (allocPage src m).2 ∧
      (∀ r v, (allocPage src m).2.lookup la57 root r v = m.lookup la57 root r v) ∧
      src.Grows m.pmm (allocPage src m).2.pmm := by
  unfold allocPage
  rcases ha : src.alloc m.pmm with - | ⟨f, s⟩
  · exact ⟨hF, fun _ _ => rfl, .refl _⟩
  · exact ⟨hF.takePage ha, hF.lookup_takePage ha, fun g hg => src.alloc_mono ha hg⟩

/-- **A page of data** comes from the allocator while it has frames. -/
theorem Forest.allocPage_spec {m : Machine σ} {n : ℕ}
    (hF : Forest src root (upperLevels la57 + 1) m) (hsup : src.Supplies (n + 1) m.pmm) :
    Allocated src la57 root m (allocPage src m).1 (allocPage src m).2 ∧
      src.Supplies n (allocPage src m).2.pmm := by
  obtain ⟨f, s, ha, hsup'⟩ := hsup
  rw [allocPage_eq_of_some ha]
  exact ⟨⟨src.alloc_frame ha, src.alloc_fresh ha, src.alloc_live ha,
    fun g hg => src.alloc_mono ha hg, hF.takePage ha, hF.lookup_takePage ha⟩, hsup'⟩

/-- The flags of a portal's pages are those of a small page. -/
theorem portalTranslateProtections_mappable (prot : BitVec 32) {f : Word}
    (hf : IsFrame .small f) :
    Mappable f (portalTranslateProtections prot) ∧
      ¬ has (portalTranslateProtections prot) flagPS := by
  have hflags : has (portalTranslateProtections prot) flagP ∧
      portalTranslateProtections prot &&& leafMask = portalTranslateProtections prot ∧
      ¬ has (portalTranslateProtections prot) flagPS := by
    unfold portalTranslateProtections
    by_cases hw : hasBit prot portalProtWrite <;> by_cases hx : hasBit prot portalProtExec <;>
      simp only [hw, hx, if_true, if_false] <;> decide
  obtain ⟨hP, hleaf, hPS⟩ := hflags
  refine ⟨⟨hP, hleaf, ?_⟩, hPS⟩
  rwa [mappedSize, if_neg hPS]

/-- The address of a page without its offset. -/
theorem sub_offset (addr : Word) : addr - (addr &&& 0xfff) = addr &&& ~~~0xfff := by
  have hdisj : (addr &&& ~~~0xfff) &&& (addr &&& 0xfff) = 0#64 := by
    rw [BitVec.and_assoc, ← BitVec.and_assoc _ addr, BitVec.and_comm _ addr, BitVec.and_assoc addr]
    simp
  have hunion : (addr &&& ~~~0xfff) ||| (addr &&& 0xfff) = addr := by
    ext k hk
    rw [BitVec.getElem_or, BitVec.getElem_and, BitVec.getElem_and, BitVec.getElem_not,
      ← Bool.and_or_distrib_left, Bool.not_or_self, Bool.and_true]
  have hsum : (addr &&& ~~~0xfff) + (addr &&& 0xfff) = addr :=
    (BitVec.add_eq_or_of_and_eq_zero _ _ hdisj).trans hunion
  calc addr - (addr &&& 0xfff)
      = (addr &&& ~~~0xfff) + (addr &&& 0xfff) - (addr &&& 0xfff) := by rw [hsum]
    _ = addr &&& ~~~0xfff := BitVec.add_sub_cancel _ _

section Direct

variable [DecidableEq R] {r : R} {flags : Word}

theorem pageAt_succ (base : Word) (k : ℕ) : pageAt base (k + 1) = pageAt (base + 0x1000) k := by
  unfold pageAt
  rw [show 0x1000 * (k + 1) = 0x1000 + 0x1000 * k by ring, BitVec.ofNat_add, ← BitVec.add_assoc]
  rfl

theorem pageAt_zero (base : Word) : pageAt base 0 = base := by
  simp [pageAt]

/-- **The loop of `portal_handle_direct`** maps each page of a window where no
page is, and nothing else. -/
theorem Forest.mapDirect_spec {frames : List Word} (hP : ∀ f ∈ frames, Mappable f flags)
    (hPS : ¬ has flags flagPS) {m m' : Machine σ} {v : Word}
    (hF : Forest src root (upperLevels la57 + 1) m)
    (hnone : ∀ i < frames.length, m.lookup la57 root r (pageAt v i) = none)
    (hdistinct : ∀ i < frames.length, ∀ j < frames.length,
      samePage la57 (pageAt v i) (pageAt v j) → i = j)
    (h : mapDirect src la57 (root r) flags m v frames = .ok m') :
    Forest src root (upperLevels la57 + 1) m' ∧ src.Grows m.pmm m'.pmm ∧
      (∀ i f, frames[i]? = some f →
        m'.lookup la57 root r (pageAt v i) = some ⟨f, flags, .small⟩) ∧
      ∀ r' v', (r' = r → ∀ i < frames.length, ¬ samePage la57 (pageAt v i) v') →
        m'.lookup la57 root r' v' = m.lookup la57 root r' v' := by
  induction frames generalizing m v with
  | nil =>
      obtain rfl := Except.ok.inj h
      exact ⟨hF, .refl _, nofun, fun _ _ _ => rfl⟩
  | cons f frames ih =>
      obtain ⟨⟨ptr, m₁⟩, h₁, h₂⟩ := Exec.bind_eq_ok.mp h
      have hlen : ∀ {i}, i < frames.length → i + 1 < (f :: frames).length := by simp
      have hzero : 0 < (f :: frames).length := by simp
      have hmapped := hF.mapPage_small (hP f List.mem_cons_self) hPS
        (by rw [← pageAt_zero v]; exact hnone 0 hzero) h₁
      -- the first page is none of the others
      have hfirst : ∀ i < frames.length, ¬ samePage la57 v (pageAt (v + 0x1000) i) := by
        intro i hi hsame
        rw [← pageAt_succ] at hsame
        nth_rewrite 1 [← pageAt_zero v] at hsame
        cases hdistinct 0 hzero (i + 1) (hlen hi) hsame
      have hnone₁ : ∀ i < frames.length,
          m₁.lookup la57 root r (pageAt (v + 0x1000) i) = none := by
        intro i hi
        rw [hmapped.lookup, if_neg fun hc => hfirst i hi hc.2, ← pageAt_succ]
        exact hnone (i + 1) (hlen hi)
      obtain ⟨hF', hgrows, hpages, hsame⟩ := ih (fun g hg => hP g (List.mem_cons_of_mem f hg))
        hmapped.forest hnone₁ (fun i hi j hj hij => by
          rw [← pageAt_succ, ← pageAt_succ] at hij
          exact Nat.succ.inj (hdistinct (i + 1) (hlen hi) (j + 1) (hlen hj) hij)) h₂
      refine ⟨hF', hmapped.grows.trans hgrows, ?_, ?_⟩
      · intro i g hi
        rcases i with - | i
        · obtain rfl := Option.some.inj hi
          have hother : ∀ i < frames.length, ¬ samePage la57 (pageAt (v + 0x1000) i) v :=
            fun i hi hc => hfirst i hi (sameBits_symm hc)
          rw [pageAt_zero, hsame r v fun _ => hother, hmapped.lookup,
            if_pos ⟨rfl, sameBits_refl _ _ _⟩]
        · rw [pageAt_succ]
          exact hpages i g hi
      · intro r' v' hv'
        rw [hsame r' v' fun hr i hi => pageAt_succ v i ▸ hv' hr (i + 1) (hlen hi),
          hmapped.lookup, if_neg]
        rintro ⟨hr, hpage⟩
        exact hv' hr 0 hzero (by rwa [pageAt_zero])

end Direct

end Mapping

/-! ### Page faults -/

section Faults

variable {fayt : PortalLib} {src : FrameSource σ} {la57 : Bool} {root : R → Word}
  {s s' : PortalState σ R} {r : R} {p : Portal}

/-- What `portal_fault_anon` does not change in a share point. -/
def SharePoint.header (point : SharePoint) : String × Word := (point.identifier, point.length)

/-- From `s` to `s'`, frames were taken for data and entered in share points. -/
structure PortalState.Backed (src : FrameSource σ) (la57 : Bool) (root : R → Word)
    (s s' : PortalState σ R) : Prop where
  forest : Forest src root (upperLevels la57 + 1) s'.machine
  lookup : ∀ r v, s'.machine.lookup la57 root r v = s.machine.lookup la57 root r v
  grows : src.Grows s.machine.pmm s'.machine.pmm
  portals : s'.portals = s.portals
  pages : s'.pages = s.pages
  points : ∀ id, (s'.shareMap id).map SharePoint.header = (s.shareMap id).map SharePoint.header

/-- Finding the frame of a fault changes no portal and no page, and of a share point
only the frames. -/
theorem faultFrame_keeps {vaddr paddr : Word}
    (h : faultFrame fayt src s p vaddr = some (paddr, s')) :
    s'.portals = s.portals ∧ s'.pages = s.pages ∧
      ∀ id, (s'.shareMap id).map SharePoint.header = (s.shareMap id).map SharePoint.header := by
  unfold faultFrame at h
  split_ifs at h with hshare
  · rcases hpoint : s.shareMap p.identifier with - | point <;> simp only [hpoint] at h
    · cases h
    split_ifs at h with hidx hzero
    · obtain ⟨-, rfl⟩ := Prod.mk.inj (Option.some.inj h)
      refine ⟨rfl, rfl, fun id => ?_⟩
      rcases eq_or_ne id p.identifier with rfl | hne
      · simp [hpoint, SharePoint.header]
      · simp [hne]
    · obtain ⟨-, rfl⟩ := Prod.mk.inj (Option.some.inj h)
      exact ⟨rfl, rfl, fun _ => rfl⟩
  · obtain ⟨-, rfl⟩ := Prod.mk.inj (Option.some.inj h)
    exact ⟨rfl, rfl, fun _ => rfl⟩

/-- The share point of the portal has a frame for the page at `vaddr`. -/
def PortalState.FrameKnown (s : PortalState σ R) (p : Portal) (vaddr : Word) : Prop :=
  hasBit p.type portalReqShare ∧ ∃ point, s.shareMap p.identifier = some point ∧
    point.paddr ((vaddr - p.base) / 0x1000).toNat ≠ 0

/-- A frame is taken for `paddr` unless the share point has one. -/
theorem faultFrame_machine {vaddr paddr : Word}
    (h : faultFrame fayt src s p vaddr = some (paddr, s')) :
    (s.FrameKnown p vaddr ∧ s'.machine = s.machine) ∨
      (¬ s.FrameKnown p vaddr ∧ s'.machine = (allocPage src s.machine).2) := by
  unfold faultFrame at h
  split_ifs at h with hshare
  · rcases hpoint : s.shareMap p.identifier with - | point <;> simp only [hpoint] at h
    · cases h
    split_ifs at h with hidx hzero
    · obtain ⟨-, rfl⟩ := Prod.mk.inj (Option.some.inj h)
      refine .inr ⟨?_, rfl⟩
      rintro ⟨-, point', hpoint', hne⟩
      cases hpoint.symm.trans hpoint'
      exact hne hzero
    · obtain ⟨-, rfl⟩ := Prod.mk.inj (Option.some.inj h)
      exact .inl ⟨⟨hshare, point, hpoint, hzero⟩, rfl⟩
  · obtain ⟨-, rfl⟩ := Prod.mk.inj (Option.some.inj h)
    exact .inr ⟨fun hknown => hshare hknown.1, rfl⟩

/-- **Finding the frame of a fault** changes no translation. -/
theorem faultFrame_backed {vaddr paddr : Word}
    (hF : Forest src root (upperLevels la57 + 1) s.machine)
    (h : faultFrame fayt src s p vaddr = some (paddr, s')) :
    PortalState.Backed src la57 root s s' := by
  obtain ⟨hF', hlookup, hgrows⟩ := hF.allocPage_keeps
  obtain ⟨hportals, hpages, hpoints⟩ := faultFrame_keeps h
  rcases faultFrame_machine h with ⟨-, hmachine⟩ | ⟨-, hmachine⟩
  · exact ⟨hmachine ▸ hF, fun _ _ => by rw [hmachine], hmachine ▸ .refl _, hportals, hpages,
      hpoints⟩
  · exact ⟨hmachine ▸ hF', fun r v => by rw [hmachine, hlookup], hmachine ▸ hgrows, hportals,
      hpages, hpoints⟩

theorem faultFrame_supplies {vaddr paddr : Word} {n : ℕ}
    (hF : Forest src root (upperLevels la57 + 1) s.machine)
    (hsup : src.Supplies (n + 1) s.machine.pmm)
    (h : faultFrame fayt src s p vaddr = some (paddr, s')) : src.Supplies n s'.machine.pmm := by
  rcases faultFrame_machine h with ⟨-, hmachine⟩ | ⟨-, hmachine⟩ <;> rw [hmachine]
  · exact hsup.pred
  · exact (hF.allocPage_spec hsup).2

/-- From `s` to `s'`, the page at `v` of the page table `r` was mapped to a frame
that was not in use. -/
structure PortalState.Faulted [DecidableEq R] (src : FrameSource σ) (la57 : Bool)
    (root : R → Word) (s s' : PortalState σ R) (r : R) (v f flags : Word) : Prop where
  mapped : Mapped src la57 root s.machine s'.machine r v ⟨f, flags, .small⟩
  fresh : ¬ src.Live s.machine.pmm f
  live : src.Live s'.machine.pmm f
  portals : s'.portals = s.portals
  points : ∀ id, (s'.shareMap id).map SharePoint.header = (s.shareMap id).map SharePoint.header

/-- **What `portal_fault_anon` does**: nothing, when it finds no portal or no frame
for `paddr`; otherwise it maps a page for the portal it finds. -/
theorem portalFaultAnon_cases [DecidableEq R] {addr : Word} {ret : ℤ}
    (h : portalFaultAnon fayt src la57 root s r addr = .ok (ret, s')) :
    (ret = -1 ∧ s' = s ∧ ∀ p, (s.portals r).find addr = some p →
        faultFrame fayt src s p (addr &&& ~~~0xfff) = none) ∨
      ∃ p paddr s₁ ptr, (s.portals r).find addr = some p ∧
        faultFrame fayt src s p (addr &&& ~~~0xfff) = some (paddr, s₁) ∧
        (x86PagingInit src la57).mapPage (allocPage src s₁.machine).2 (root r) (addr &&& ~~~0xfff)
          (allocPage src s₁.machine).1 (portalTranslateProtections p.prot)
          = .ok (ptr, s'.machine) ∧
        s'.portals = s₁.portals ∧ s'.shareMap = s₁.shareMap ∧
        ret = if fayt.pushPageFails (s₁.pages r) (addr &&& ~~~0xfff) then -1 else 0 := by
  unfold portalFaultAnon at h
  rw [sub_offset] at h
  rcases hfind : (s.portals r).find addr with - | p <;> simp only [hfind] at h
  · obtain ⟨rfl, rfl⟩ := Prod.mk.inj (Except.ok.inj h)
    exact .inl ⟨rfl, rfl, nofun⟩
  rcases hframe : faultFrame fayt src s p (addr &&& ~~~0xfff) with - | ⟨paddr, s₁⟩ <;>
    simp only [hframe] at h
  · obtain ⟨rfl, rfl⟩ := Prod.mk.inj (Except.ok.inj h)
    refine .inl ⟨rfl, rfl, fun q hq => ?_⟩
    obtain rfl := Option.some.inj hq
    exact hframe
  obtain ⟨⟨ptr, m⟩, hmap, h⟩ := Exec.bind_eq_ok.mp h
  refine .inr ⟨p, paddr, s₁, ptr, rfl, hframe, ?_⟩
  split_ifs at h with hpush
  · obtain ⟨rfl, rfl⟩ := Prod.mk.inj (Except.ok.inj h)
    exact ⟨hmap, rfl, rfl, (if_pos hpush).symm⟩
  · obtain ⟨rfl, rfl⟩ := Prod.mk.inj (Except.ok.inj h)
    exact ⟨hmap, rfl, rfl, (if_neg hpush).symm⟩

/-- A fault changes no portal, and of a share point only the frames. -/
theorem portalFaultAnon_keeps [DecidableEq R] {addr : Word} {ret : ℤ}
    (h : portalFaultAnon fayt src la57 root s r addr = .ok (ret, s')) :
    s'.portals = s.portals ∧
      ∀ id, (s'.shareMap id).map SharePoint.header = (s.shareMap id).map SharePoint.header := by
  rcases portalFaultAnon_cases h with
    ⟨-, rfl, -⟩ | ⟨p, paddr, s₁, ptr, -, hframe, -, hportals, hpoints, -⟩
  · exact ⟨rfl, fun _ => rfl⟩
  · obtain ⟨hportals₁, -, hpoints₁⟩ := faultFrame_keeps hframe
    exact ⟨hportals.trans hportals₁, fun id => hpoints ▸ hpoints₁ id⟩

/-- **A fault maps a fresh frame with the flags of the portal it finds**, or changes
nothing. -/
theorem portalFaultAnon_spec [DecidableEq R] {addr : Word} {ret : ℤ}
    (hF : Forest src root (upperLevels la57 + 1) s.machine)
    (hsup : src.Supplies 2 s.machine.pmm)
    (hnone : s.machine.lookup la57 root r (addr &&& ~~~0xfff) = none)
    (h : portalFaultAnon fayt src la57 root s r addr = .ok (ret, s')) :
    (ret = -1 ∧ s' = s ∧ ∀ p, (s.portals r).find addr = some p →
        faultFrame fayt src s p (addr &&& ~~~0xfff) = none) ∨
      ∃ p f, (s.portals r).find addr = some p ∧
        (faultFrame fayt src s p (addr &&& ~~~0xfff)).isSome ∧
        PortalState.Faulted src la57 root s s' r (addr &&& ~~~0xfff) f
          (portalTranslateProtections p.prot) := by
  refine (portalFaultAnon_cases h).imp_right ?_
  rintro ⟨p, paddr, s₁, ptr, hfind, hframe, hmap, hportals, hpoints, -⟩
  have hbacked := faultFrame_backed hF hframe
  obtain ⟨halloc, -⟩ := hbacked.forest.allocPage_spec (faultFrame_supplies hF hsup hframe)
  obtain ⟨hmappable, hPS⟩ := portalTranslateProtections_mappable p.prot halloc.frame
  have hmapped := halloc.forest.mapPage_small hmappable hPS
    (by rw [halloc.lookup, hbacked.lookup, hnone]) hmap
  refine ⟨p, (allocPage src s₁.machine).1, hfind, by rw [hframe]; rfl, ?_⟩
  refine ⟨⟨hmapped.forest, fun r' v' => ?_, ?_⟩, ?_, hmapped.grows _ halloc.live,
    hportals.trans hbacked.portals, fun id => hpoints ▸ hbacked.points id⟩
  · exact (hmapped.lookup r' v').trans (by rw [halloc.lookup, hbacked.lookup])
  · exact (hbacked.grows.trans halloc.grows).trans hmapped.grows
  · exact fun hlive => halloc.fresh (hbacked.grows _ hlive)

/-- `portal_resolve_fault` does what `portal_fault_anon` does when the page is
not present, and nothing otherwise. -/
theorem portalResolveFault_eq [DecidableEq R] {addr code : Word} {ret : ℤ}
    (h : portalResolveFault fayt src la57 root s r addr code = .ok (ret, s')) :
    if has code flagP then s' = s
    else ∃ ret', portalFaultAnon fayt src la57 root s r addr = .ok (ret', s') := by
  unfold portalResolveFault at h
  dsimp only at h
  -- whatever the other handlers say, they leave the state alone
  split_ifs with hP
  · rw [if_neg (not_not_intro hP)] at h
    obtain ⟨⟨ret₁, s₁⟩, h₁, h⟩ := Exec.bind_eq_ok.mp h
    obtain ⟨-, rfl⟩ := Prod.mk.inj (Except.ok.inj h₁)
    dsimp only at h
    split_ifs at h <;> exact (Prod.mk.inj (Except.ok.inj h)).2.symm
  · rw [if_pos hP] at h
    obtain ⟨⟨ret₁, s₁⟩, h₁, h⟩ := Exec.bind_eq_ok.mp h
    have hstate : s₁ = s' := by
      dsimp only at h
      split_ifs at h <;> exact (Prod.mk.inj (Except.ok.inj h)).2
    exact ⟨ret₁, hstate ▸ h₁⟩

/-- The frame of a fault is found in a share point that has the page. -/
theorem faultFrame_isSome {vaddr : Word} {point : SharePoint}
    (hpoint : s.shareMap p.identifier = some point)
    (hidx : ¬ (vaddr - p.base) / 0x1000 > (point.length - fayt.sharePointSize) / 8) :
    (faultFrame fayt src s p vaddr).isSome := by
  unfold faultFrame
  simp only [hpoint]
  split_ifs <;> rfl

/-- `portal_fault_anon` returns while there are frames. -/
theorem portalFaultAnon_returns [DecidableEq R] {addr : Word} {n : ℕ}
    (hF : Forest src root (upperLevels la57 + 1) s.machine)
    (hfind : (s.portals r).find addr = some p)
    (hsome : (faultFrame fayt src s p (addr &&& ~~~0xfff)).isSome)
    (hsup : src.Supplies (upperLevels la57 + (n + 1) + 2) s.machine.pmm) :
    ∃ ret s', portalFaultAnon fayt src la57 root s r addr = .ok (ret, s') ∧
      src.Supplies n s'.machine.pmm := by
  obtain ⟨⟨paddr, s₁⟩, hframe⟩ := Option.isSome_iff_exists.mp hsome
  have hbacked := faultFrame_backed hF hframe
  obtain ⟨-, hsup₂⟩ := hbacked.forest.allocPage_spec (faultFrame_supplies hF hsup hframe)
  obtain ⟨ptr, m, hmap, hsup₃⟩ : ∃ ptr m, (x86PagingInit src la57).mapPage
      (allocPage src s₁.machine).2 (root r) (addr &&& ~~~0xfff) (allocPage src s₁.machine).1
      (portalTranslateProtections p.prot) = .ok (ptr, m) ∧ src.Supplies n m.pmm := by
    simp only [x86PagingInit_mapPage]
    exact mapPage_supplies (by simpa using hsup₂)
  unfold portalFaultAnon
  simp only [hfind, sub_offset, hframe, hmap, Exec.ok_bind]
  split_ifs
  · exact ⟨_, _, rfl, hsup₃⟩
  · exact ⟨_, _, rfl, hsup₃⟩

/-- **Faults are resolved**: a fault on a missing page of a portal to a share point
that has the page is resolved while there are frames. -/
theorem portalResolveFault_returns [DecidableEq R] {addr code : Word} {point : SharePoint} {n : ℕ}
    (hF : Forest src root (upperLevels la57 + 1) s.machine)
    (hnone : s.machine.lookup la57 root r (addr &&& ~~~0xfff) = none)
    (hP : ¬ has code flagP) (hfind : (s.portals r).find addr = some p)
    (hpoint : s.shareMap p.identifier = some point)
    (hidx : ¬ ((addr &&& ~~~0xfff) - p.base) / 0x1000 > (point.length - fayt.sharePointSize) / 8)
    (hsup : src.Supplies (upperLevels la57 + (n + 1) + 2) s.machine.pmm) :
    ∃ ret s' f flags, portalResolveFault fayt src la57 root s r addr code = .ok (ret, s') ∧
      PortalState.Faulted src la57 root s s' r (addr &&& ~~~0xfff) f flags ∧
      src.Supplies n s'.machine.pmm := by
  have hsome : (faultFrame fayt src s p (addr &&& ~~~0xfff)).isSome :=
    faultFrame_isSome hpoint hidx
  obtain ⟨ret, s', hanon, hsup'⟩ := portalFaultAnon_returns hF hfind hsome hsup
  rcases portalFaultAnon_spec hF (hsup.of_le (by omega)) hnone hanon with
    ⟨-, -, hlost⟩ | ⟨p', f, -, -, hfault⟩
  · rw [hlost p hfind] at hsome
    cases hsome
  have hresolve : ∃ ret, portalResolveFault fayt src la57 root s r addr code = .ok (ret, s') := by
    unfold portalResolveFault
    dsimp only
    rw [if_pos hP, hanon, Exec.ok_bind]
    dsimp only
    split_ifs <;> exact ⟨_, rfl⟩
  obtain ⟨ret, hresolve⟩ := hresolve
  exact ⟨ret, s', f, _, hresolve, hfault, hsup'⟩

end Faults

/-! ### Opening a share point -/

section Open

variable {fayt : PortalLib} {src : FrameSource σ} {la57 : Bool} {root : R → Word}
  {s s' : PortalState σ R} {r : R} {req : PortalReq}

/-- The portal of a request for a share point. -/
def PortalReq.sharePortal (req : PortalReq) : Portal :=
  ⟨req.type, req.prot, req.identifier, req.addr, req.length, 0⟩

/-- Share points are stored under their names. -/
def PortalState.Named (s : PortalState σ R) : Prop :=
  ∀ id point, s.shareMap id = some point → point.identifier = id

theorem PortalState.Named.putPoint (h : s.Named) (point : SharePoint) :
    (s.putPoint point).Named := by
  intro id point' hid
  rcases eq_or_ne id point.identifier with rfl | hne
  · cases (Function.update_self ..).symm.trans hid
    rfl
  · exact h id point' ((Function.update_of_ne hne ..).symm.trans hid)

theorem PortalState.Named.of_points (h : s.Named)
    (hpoints : ∀ id, (s'.shareMap id).map SharePoint.header
      = (s.shareMap id).map SharePoint.header) : s'.Named := by
  intro id point hid
  have hpoint : (s.shareMap id).map SharePoint.header = some point.header := by
    rw [← hpoints, hid]
    rfl
  obtain ⟨point', hid', hheader⟩ := Option.map_eq_some_iff.mp hpoint
  exact (congrArg Prod.fst hheader).symm.trans (h id point' hid')

theorem PortalState.isSome_of_points
    (hpoints : ∀ id, (s'.shareMap id).map SharePoint.header
      = (s.shareMap id).map SharePoint.header) (id : String) :
    (s'.shareMap id).isSome = (s.shareMap id).isSome := by
  have h := congrArg Option.isSome (hpoints id)
  rwa [Option.isSome_map, Option.isSome_map] at h

/-- From `s` to `s'`, the request was attached to its share point, which is there
or is created. -/
structure PortalState.Opened [DecidableEq R] (fayt : PortalLib) (s s' : PortalState σ R) (r : R)
    (req : PortalReq) : Prop where
  portals : s'.portals =
    Function.update s.portals r (fayt.insert (s.portals r) req.sharePortal)
  named : s'.Named
  there : (s'.shareMap req.identifier).isSome
  others : ∀ id, id ≠ req.identifier → s'.shareMap id = s.shareMap id

theorem portalHandleShare_spec {p p' : Portal} (hnamed : s.Named)
    (h : portalHandleShare fayt s p req = some (p', s')) :
    p' = { p.mark portalReqShare with identifier := req.identifier } ∧
      s'.machine = s.machine ∧ s'.portals = s.portals ∧ s'.Named ∧
      (s'.shareMap req.identifier).isSome ∧
      ∀ id, id ≠ req.identifier → s'.shareMap id = s.shareMap id := by
  unfold portalHandleShare at h
  rcases hpoint : s.shareMap req.identifier with - | point <;> simp only [hpoint] at h
  · split_ifs at h with hcreate hpush
    obtain ⟨rfl, rfl⟩ := Prod.mk.inj (Option.some.inj h)
    refine ⟨rfl, rfl, rfl, hnamed.putPoint _, ?_, fun id hne => ?_⟩
    · rw [show (s.putPoint (req.sharePoint fayt)).shareMap req.identifier = _ from
        Function.update_self ..]
      rfl
    · exact Function.update_of_ne hne ..
  · obtain ⟨rfl, rfl⟩ := Prod.mk.inj (Option.some.inj h)
    refine ⟨?_, rfl, rfl, hnamed, by rw [hpoint]; rfl, fun _ _ => rfl⟩
    rw [hnamed _ _ hpoint]

/-- **`portal_handle_share` fails** exactly if the share point is missing and is not
created. -/
theorem portalHandleShare_eq_none {p : Portal} :
    portalHandleShare fayt s p req = none ↔ s.shareMap req.identifier = none ∧
      (req.create = false ∨ fayt.pushPointFails s.shareMap req.identifier = true) := by
  unfold portalHandleShare
  rcases hpoint : s.shareMap req.identifier with - | point
  · rcases hcreate : req.create with - | -
    · simp
    · rcases hpush : fayt.pushPointFails s.shareMap req.identifier with - | - <;>
        simp [PortalReq.sharePoint, hpush]
  · simp

variable [DecidableEq R]

/-- The handlers refuse a request for a share point that is missing and is not
created. -/
def PortalReq.Refused (fayt : PortalLib) (s : PortalState σ R) (req : PortalReq) : Prop :=
  hasBit req.type portalReqShare ∧ s.shareMap req.identifier = none ∧
    (req.create = false ∨ fayt.pushPointFails s.shareMap req.identifier = true)

/-- The portal of a request, before the handlers that follow `DIRECT`. -/
def PortalReq.draft (req : PortalReq) : Portal :=
  ⟨req.type &&& portalReqDirect, req.prot, "", req.addr, req.length, 0⟩

/-- The portal of a request. -/
def PortalReq.opened (req : PortalReq) : Portal :=
  ⟨req.type &&& 0x1f, req.prot, if hasBit req.type portalReqShare then req.identifier else "",
    req.addr, req.length, 0⟩

theorem and_eq_of_hasBit {t : BitVec 32} {n : ℕ} (h : hasBit t (.twoPow 32 n)) :
    t &&& .twoPow 32 n = .twoPow 32 n := by
  have hand := BitVec.and_twoPow (x := t) (i := n)
  split_ifs at hand with hbit
  · exact hand
  · exact absurd hand h

/-- A handler marks the portal with its bit of the request. -/
theorem mark_ite (t : BitVec 32) (n : ℕ) (p : Portal) :
    (if hasBit t (.twoPow 32 n) then p.mark (.twoPow 32 n) else p)
      = p.mark (t &&& .twoPow 32 n) := by
  by_cases hbit : hasBit t (.twoPow 32 n)
  · rw [if_pos hbit, and_eq_of_hasBit hbit]
  · rw [if_neg hbit, not_not.mp hbit]
    simp [Portal.mark]

/-- The marks of all handlers are the five bits of the request. -/
theorem marks_eq (t : BitVec 32) :
    t &&& portalReqDirect ||| t &&& portalReqAnon ||| t &&& portalReqShare ||| t &&& portalReqCow
      ||| t &&& portalReqSp = t &&& 0x1f := by
  simp only [← BitVec.and_or_distrib_left]
  rfl

theorem portalFinish_failed {p : Portal} {ret : ℤ} {resp : PortalResp}
    (h : portalFinish fayt s r p req = (ret, resp, s')) :
    (ret = -1 ∧ s' = s ∧ req.Refused fayt s) ∨ (ret = 0 ∧ ¬ req.Refused fayt s) := by
  unfold portalFinish at h
  by_cases hshare : hasBit req.type portalReqShare
  · simp only [hshare, if_true] at h
    rcases hhandle : portalHandleShare fayt s
        (if hasBit req.type portalReqAnon then portalHandleAnon p else p) req with - | ⟨p', s₁⟩ <;>
      simp only [hhandle] at h
    · obtain ⟨rfl, -, rfl⟩ := h
      exact .inl ⟨rfl, rfl, hshare, portalHandleShare_eq_none.mp hhandle⟩
    · obtain ⟨rfl, -, -⟩ := h
      refine .inr ⟨rfl, fun hrefused => ?_⟩
      cases hhandle.symm.trans (portalHandleShare_eq_none.mpr hrefused.2)
  · simp only [hshare, if_false] at h
    obtain ⟨rfl, -, -⟩ := h
    exact .inr ⟨rfl, fun hrefused => hshare hrefused.1⟩

/-- **The rest of `portal`** puts the portal of the request in the tree, unless the
request is refused. -/
theorem portalFinish_spec {ret : ℤ} {resp : PortalResp} (hnamed : s.Named)
    (hrefused : ¬ req.Refused fayt s) (h : portalFinish fayt s r req.draft req = (ret, resp, s')) :
    s'.machine = s.machine ∧
      s'.portals = Function.update s.portals r (fayt.insert (s.portals r) req.opened) ∧ s'.Named ∧
      (hasBit req.type portalReqShare → (s'.shareMap req.identifier).isSome) ∧
      ∀ id, (hasBit req.type portalReqShare → id ≠ req.identifier) →
        s'.shareMap id = s.shareMap id := by
  unfold portalFinish portalHandleAnon portalHandleCow portalHandleSp at h
  simp only [show portalReqAnon = .twoPow 32 2 from rfl, show portalReqCow = .twoPow 32 3 from rfl,
    show portalReqSp = .twoPow 32 4 from rfl, mark_ite] at h
  by_cases hshare : hasBit req.type portalReqShare
  · rw [if_pos hshare] at h
    rcases hhandle : portalHandleShare fayt s (req.draft.mark (req.type &&& .twoPow 32 2)) req
      with - | ⟨p, s₁⟩ <;> simp only [hhandle] at h
    · exact absurd ⟨hshare, portalHandleShare_eq_none.mp hhandle⟩ hrefused
    obtain ⟨-, -, rfl⟩ := h
    obtain ⟨rfl, hmachine, hportals, hnamed', hthere, hothers⟩ :=
      portalHandleShare_spec hnamed hhandle
    refine ⟨hmachine, ?_, hnamed', fun _ => hthere, fun id hid => hothers id (hid hshare)⟩
    have hbit : req.type &&& portalReqShare = portalReqShare := and_eq_of_hasBit hshare
    have hopened : req.opened = ⟨req.type &&& 0x1f, req.prot, req.identifier, req.addr,
        req.length, 0⟩ := by
      rw [PortalReq.opened, if_pos hshare]
    dsimp only
    rw [hportals, hopened, ← marks_eq, hbit]
    rfl
  · rw [if_neg hshare] at h
    obtain ⟨-, -, rfl⟩ := h
    have hbit : req.type &&& portalReqShare = 0#32 := not_not.mp hshare
    have hopened : req.opened = ⟨req.type &&& 0x1f, req.prot, "", req.addr, req.length, 0⟩ := by
      rw [PortalReq.opened, if_neg hshare]
    refine ⟨rfl, ?_, hnamed, fun hc => absurd hc hshare, fun _ _ => rfl⟩
    rw [hopened, ← marks_eq, hbit, BitVec.or_zero]
    rfl

/-- **What `portal` does**: it maps the frames of a `DIRECT` request, then the other
handlers follow. -/
theorem portal_cases {ret : ℤ} {resp : PortalResp}
    (h : portal fayt src la57 root s r req = .ok (ret, resp, s')) :
    ∃ m, (if hasBit req.type portalReqDirect then
        mapDirect src la57 (root r) (portalTranslateProtections req.prot) s.machine req.addr
          req.frames = .ok m
      else m = s.machine) ∧
      portalFinish fayt { s with machine := m } r req.draft req = (ret, resp, s') := by
  unfold portal at h
  split_ifs at h ⊢ with hdirect
  · obtain ⟨⟨p, s₁⟩, h₁, h⟩ := Exec.bind_eq_ok.mp h
    obtain ⟨m, hm, h₁⟩ := Exec.bind_eq_ok.mp h₁
    obtain ⟨rfl, rfl⟩ := Prod.mk.inj (Except.ok.inj h₁)
    refine ⟨m, hm, ?_⟩
    rw [← Except.ok.inj h, PortalReq.draft,
      show req.type &&& portalReqDirect = portalReqDirect from and_eq_of_hasBit hdirect]
    simp [Portal.mark]
  · refine ⟨s.machine, rfl, ?_⟩
    rw [← Except.ok.inj h, PortalReq.draft,
      show req.type &&& portalReqDirect = 0#32 from not_not.mp hdirect]
    rfl

/-- The portal of a request for a share point alone. -/
theorem PortalReq.opened_eq_sharePortal (hshare : hasBit req.type portalReqShare)
    (hbits : req.type &&& 0x1f = req.type) : req.opened = req.sharePortal := by
  rw [PortalReq.opened, if_pos hshare, hbits]
  rfl

/-- **A request for a share point** is refused, or attached to the share point. -/
theorem portal_share_spec {ret : ℤ} {resp : PortalResp} (hnamed : s.Named)
    (hshare : hasBit req.type portalReqShare) (hbits : req.type &&& 0x1f = req.type)
    (h : portal fayt src la57 root s r req = .ok (ret, resp, s')) :
    (if hasBit req.type portalReqDirect then
        mapDirect src la57 (root r) (portalTranslateProtections req.prot) s.machine req.addr
          req.frames = .ok s'.machine
      else s'.machine = s.machine) ∧
      ((ret = -1 ∧ s'.portals = s.portals ∧ s'.shareMap = s.shareMap) ∨
        (ret = 0 ∧ PortalState.Opened fayt s s' r req)) := by
  obtain ⟨m, hm, h⟩ := portal_cases h
  have hnamed' : PortalState.Named { s with machine := m } := hnamed
  rcases portalFinish_failed h with ⟨rfl, rfl, -⟩ | ⟨rfl, hrefused⟩
  · exact ⟨hm, .inl ⟨rfl, rfl, rfl⟩⟩
  · obtain ⟨hmachine, hportals, hnamed₁, hthere, hothers⟩ :=
      portalFinish_spec hnamed' hrefused h
    rw [PortalReq.opened_eq_sharePortal hshare hbits] at hportals
    refine ⟨?_, .inr ⟨rfl, hportals, hnamed₁, hthere hshare, fun id hid => hothers id fun _ => hid⟩⟩
    rw [hmachine]
    exact hm

end Open

end Rock
