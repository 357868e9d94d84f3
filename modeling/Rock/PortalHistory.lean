/-
Rock/PortalHistory.lean

Which portal a page fault finds, and whether a granted portal can be used.

`portal` rejects no overlaps, and a page fault finds its portal by a walk down a tree that
is ordered by the base addresses alone.  An insertion at a leaf never changes where the walk
of an address ends, so an address that is resolved once is resolved ever after.  But the walk
need not reach the new leaf: a portal that was granted before and begins inside the new one
sends it away (`find_insert`).  And it takes the range of a portal as closed,
`base + limit >= addr`, where the portal has `[base, base + limit)` (`Portal.Covers`).

What the walk finds is read off the history of the requests (`find_eq_some_iff`).  Main
results: when a fault maps the page as the portal around it asks (`fault_exact_iff`), and when
an `ANON` portal can be used at all its addresses, now and later (`granted_usable_iff`).
-/
import Rock.Portal
import Rock.SharePoint
import Rock.PageFault

namespace Rock

variable {σ R : Type}

/-! ### Ranges -/

/-- `addr` is in the range `[base, base + limit)` of the portal. -/
def Portal.Covers (p : Portal) (addr : Word) : Prop :=
  p.base ≤ addr ∧ addr.toNat < p.base.toNat + p.limit.toNat

def Portal.Anon (p : Portal) : Prop := hasBit p.type portalReqAnon

/-- `base + limit` does not wrap. -/
def Portal.Fits (p : Portal) : Prop := p.base.toNat + p.limit.toNat < 2 ^ 64

instance (p : Portal) (addr : Word) : Decidable (p.Covers addr) :=
  inferInstanceAs (Decidable (_ ∧ _))

instance (p : Portal) : Decidable p.Anon := inferInstanceAs (Decidable (hasBit _ _))

theorem Portal.Covers.closed {p : Portal} {addr : Word} (h : p.Covers addr) (hfits : p.Fits) :
    p.base ≤ addr ∧ p.base + p.limit ≥ addr := by
  refine ⟨h.1, ?_⟩
  show addr.toNat ≤ (p.base + p.limit).toNat
  rw [BitVec.toNat_add, Nat.mod_eq_of_lt hfits]
  exact h.2.le

/-! ### Ordered trees -/

/-- The tree is ordered by the base address, equal ones to the right. -/
def PortalTree.Ordered : PortalTree → Prop
  | .nil => True
  | .node p l r => (∀ q ∈ l.toList, q.base < p.base) ∧ (∀ q ∈ r.toList, p.base ≤ q.base) ∧
      l.Ordered ∧ r.Ordered

theorem PortalTree.Ordered.insert {t : PortalTree} (h : t.Ordered) (p : Portal) :
    (t.insert p).Ordered := by
  induction t with
  | nil => exact ⟨nofun, nofun, trivial, trivial⟩
  | node q l r ihl ihr =>
      obtain ⟨hleft, hright, hl, hr⟩ := h
      rw [PortalTree.insert]
      split_ifs with hlt
      · refine ⟨fun x hx => ?_, hright, ihl hl, hr⟩
        rcases PortalTree.mem_insert.mp hx with rfl | hx
        · exact hlt
        · exact hleft x hx
      · refine ⟨hleft, fun x hx => ?_, hl, ihr hr⟩
        rcases PortalTree.mem_insert.mp hx with rfl | hx
        · exact BitVec.not_lt.mp hlt
        · exact hright x hx

/-! ### What a fault should do -/

/-- **What a fault on a missing page should do**: map the page to a fresh frame with the
protections of the `ANON` portal that has the address, or nothing if there is none. -/
def PortalState.FaultExact [DecidableEq R] (src : FrameSource σ) (la57 : Bool) (root : R → Word)
    (s s' : PortalState σ R) (r : R) (addr : Word) : Prop :=
  (∃ p ∈ (s.portals r).toList, p.Anon ∧ p.Covers addr ∧ ∃ f,
    PortalState.Faulted src la57 root s s' r (addr &&& ~~~0xfff) f
      (portalTranslateProtections p.prot)) ∨
  ((∀ p ∈ (s.portals r).toList, p.Anon → ¬ p.Covers addr) ∧ s' = s)

/-! ### Two neighbours -/

/-- A request for one page at `addr`, filled by page faults. -/
def anonReq (addr : Word) (prot : BitVec 32) : PortalReq where
  type := portalReqAnon
  prot := prot
  identifier := ""
  create := false
  addr := addr
  length := 0x1000
  paddr _ := 0

/-- The tree of a writable portal with a read-only one right behind it. -/
def neighbourTree : PortalTree :=
  .node (anonReq 0x400000 portalProtWrite).opened .nil
    (.node (anonReq 0x401000 portalProtRead).opened .nil .nil)

/-- The context `false` has opened the writable portal first, then the read-only one. -/
def neighbours : PortalState FreeList Bool :=
  { closed.kernel with portals := Function.update (fun _ => .nil) false neighbourTree }

/-! ### The walk after an insertion -/

/-- The test of `portal_fault_anon` for the portal it is at. -/
def Portal.Answers (p : Portal) (addr : Word) : Prop :=
  p.Anon ∧ p.base ≤ addr ∧ p.base + p.limit ≥ addr

instance (p : Portal) (addr : Word) : Decidable (p.Answers addr) :=
  inferInstanceAs (Decidable (_ ∧ _))

/-- The portal `q` begins inside `p`, not behind `addr`: where the walk meets `q`, it turns
away from `p`. -/
def Portal.Diverts (q p : Portal) (addr : Word) : Prop := p.base < q.base ∧ q.base ≤ addr

instance (q p : Portal) (addr : Word) : Decidable (q.Diverts p addr) :=
  inferInstanceAs (Decidable (_ ∧ _))

/-- The portals of `ps` let the walk through to `p`. -/
def Portal.Serves (p : Portal) (ps : List Portal) (addr : Word) : Prop :=
  p.Answers addr ∧ ∀ q ∈ ps, ¬ q.Diverts p addr

instance (p : Portal) (ps : List Portal) (addr : Word) : Decidable (p.Serves ps addr) :=
  inferInstanceAs (Decidable (_ ∧ _))

/-- Only the portals that may be met decide. -/
theorem Portal.serves_congr {p : Portal} {ps qs : List Portal} {addr : Word}
    (h : p.base ≤ addr → ((∀ q ∈ ps, ¬ q.Diverts p addr) ↔ ∀ q ∈ qs, ¬ q.Diverts p addr)) :
    p.Serves ps addr ↔ p.Serves qs addr :=
  and_congr_right fun hans => h hans.2.1

section Subtrees

variable {p q : Portal} {l r : PortalTree} {addr : Word} (hord : (PortalTree.node q l r).Ordered)

include hord

/-- Below `q`, only the portals on the left can be in the way. -/
theorem PortalTree.Ordered.serves_left (hlt : addr < q.base) :
    p.Serves (PortalTree.node q l r).toList addr ↔ p.Serves l.toList addr := by
  refine Portal.serves_congr fun _ => ?_
  rw [PortalTree.toList, List.forall_mem_append, List.forall_mem_cons]
  refine and_iff_left ⟨fun hc => BitVec.not_le.mpr hlt hc.2, fun x hx hc => ?_⟩
  exact BitVec.not_le.mpr hlt (BitVec.le_trans (hord.2.1 x hx) hc.2)

/-- At `q` or above, with `p` on the right, only the portals there can be in the way. -/
theorem PortalTree.Ordered.serves_right (hle : q.base ≤ p.base) :
    p.Serves (PortalTree.node q l r).toList addr ↔ p.Serves r.toList addr := by
  refine Portal.serves_congr fun _ => ?_
  rw [PortalTree.toList, List.forall_mem_append, List.forall_mem_cons]
  have hleft : ∀ x ∈ l.toList, ¬ x.Diverts p addr := fun x hx hc =>
    BitVec.not_le.mpr (hord.1 x hx) (BitVec.le_trans hle (BitVec.le_of_lt hc.1))
  have hself : ¬ q.Diverts p addr := fun hc => BitVec.not_le.mpr hc.1 hle
  exact ⟨fun h => h.2.2, fun h => ⟨hleft, hself, h⟩⟩

end Subtrees

/-- **The walk after an insertion** ends where it ended before; otherwise it reaches the new
portal if no other sends it away. -/
theorem PortalTree.find_insert {t : PortalTree} (hord : t.Ordered) (p : Portal) (addr : Word) :
    (t.insert p).find addr
      = (t.find addr).or (if p.Serves t.toList addr then some p else none) := by
  induction t with
  | nil =>
      have hserves : p.Serves [] addr ↔ p.Answers addr := and_iff_left nofun
      show (if p.Answers addr then some p else if p.base > addr then none else none)
        = if p.Serves [] addr then some p else none
      rw [ite_self]
      exact if_congr hserves.symm rfl rfl
  | node q l r ihl ihr =>
      by_cases hhit : q.Answers addr
      · -- the walk ends at `q`, which stays where it is
        have hroot : ∀ l r, (PortalTree.node q l r).find addr = some q := fun l r => if_pos hhit
        rw [PortalTree.insert, hroot]
        split_ifs <;> exact hroot _ _
      by_cases hlt : addr < q.base
      · have hgo : ∀ l r, (PortalTree.node q l r).find addr = l.find addr := fun l r =>
          (if_neg hhit).trans (if_pos hlt)
        rw [hgo, if_congr (hord.serves_left hlt) rfl rfl, PortalTree.insert]
        split_ifs with hp hserves hserves
        · rw [hgo, ihl hord.2.2.1, if_pos hserves]
        · rw [hgo, ihl hord.2.2.1, if_neg hserves]
        · have hbase : q.base ≤ addr := BitVec.le_trans (BitVec.not_lt.mp hp) hserves.1.2.1
          exact absurd hbase (BitVec.not_le.mpr hlt)
        · rw [hgo, Option.or_none]
      · have hgo : ∀ l r, (PortalTree.node q l r).find addr = r.find addr := fun l r =>
          (if_neg hhit).trans (if_neg hlt)
        rw [hgo, PortalTree.insert]
        split_ifs with hp hserves hserves
        · -- `q` itself sends the walk away
          have hq : q ∈ (PortalTree.node q l r).toList := by simp [PortalTree.toList]
          exact absurd ⟨hp, BitVec.not_lt.mp hlt⟩ (hserves.2 q hq)
        · rw [hgo, Option.or_none]
        · rw [hgo, ihr hord.2.2.2,
            if_pos ((hord.serves_right (BitVec.not_lt.mp hp)).mp hserves)]
        · rw [hgo, ihr hord.2.2.2,
            if_neg fun hc => hserves ((hord.serves_right (BitVec.not_lt.mp hp)).mpr hc)]

/-! ### Histories -/

/-- The tree of portals that were granted in this order. -/
def PortalTree.ofList (ps : List Portal) : PortalTree := ps.foldl (fun t p => t.insert p) .nil

theorem PortalTree.ofList_concat (ps : List Portal) (p : Portal) :
    PortalTree.ofList (ps ++ [p]) = (PortalTree.ofList ps).insert p :=
  List.foldl_concat ..

theorem PortalTree.ofList_ordered (ps : List Portal) : (PortalTree.ofList ps).Ordered := by
  induction ps using List.reverseRecOn with
  | nil => exact trivial
  | append_singleton ps p ih =>
      rw [PortalTree.ofList_concat]
      exact ih.insert p

theorem PortalTree.mem_ofList {ps : List Portal} {q : Portal} :
    q ∈ (PortalTree.ofList ps).toList ↔ q ∈ ps := by
  induction ps using List.reverseRecOn with
  | nil => exact Iff.rfl
  | append_singleton ps p ih =>
      rw [PortalTree.ofList_concat, PortalTree.mem_insert, ih, List.mem_append,
        List.mem_singleton, or_comm]

/-- One of the portals passes the test for the address, and of those granted before it none
begins inside it at or below the address. -/
def Served (ps : List Portal) (addr : Word) : Prop :=
  ∃ before p after, ps = before ++ p :: after ∧ p.Serves before addr

/-- The first portal of the history that serves the address. -/
def ServedBy (ps : List Portal) (addr : Word) (p : Portal) : Prop :=
  ∃ before after, ps = before ++ p :: after ∧ p.Serves before addr ∧ ¬ Served before addr

theorem served_nil (addr : Word) : ¬ Served [] addr := by
  rintro ⟨before, p, after, h, -⟩
  simp at h

theorem ServedBy.answers {ps : List Portal} {addr : Word} {p : Portal} (h : ServedBy ps addr p) :
    p ∈ ps ∧ p.Answers addr := by
  obtain ⟨before, after, rfl, hserves, -⟩ := h
  exact ⟨by simp, hserves.1⟩

/-- An address that is served stays served, by the same portal. -/
theorem ServedBy.append {ps : List Portal} {addr : Word} {p : Portal} (h : ServedBy ps addr p)
    (qs : List Portal) : ServedBy (ps ++ qs) addr p := by
  obtain ⟨before, after, rfl, hp⟩ := h
  exact ⟨before, after ++ qs, by simp, hp⟩

/-- The first portal of all serves what passes its test. -/
theorem servedBy_head {p : Portal} {addr : Word} (h : p.Answers addr) (ps : List Portal) :
    ServedBy (p :: ps) addr p :=
  ⟨[], ps, rfl, ⟨h, nofun⟩, served_nil addr⟩

/-- A portal of a longer history is its last one, or one of those before. -/
theorem concat_eq_append_cons {ps before after : List Portal} {p q : Portal}
    (h : ps ++ [p] = before ++ q :: after) :
    (before = ps ∧ q = p) ∨ ∃ after', ps = before ++ q :: after' := by
  rcases List.eq_nil_or_concat after with rfl | ⟨after, x, rfl⟩
  · obtain ⟨rfl, hpq⟩ := List.append_inj' h rfl
    exact .inl ⟨rfl, (List.singleton_inj.mp hpq).symm⟩
  · rw [List.concat_eq_append, ← List.cons_append, ← List.append_assoc] at h
    exact .inr ⟨after, (List.append_inj' h rfl).1⟩

theorem served_concat {ps : List Portal} {p : Portal} {addr : Word} :
    Served (ps ++ [p]) addr ↔ Served ps addr ∨ p.Serves ps addr := by
  constructor
  · rintro ⟨before, q, after, h, hq⟩
    rcases concat_eq_append_cons h with ⟨rfl, rfl⟩ | ⟨after', rfl⟩
    · exact .inr hq
    · exact .inl ⟨before, q, after', rfl, hq⟩
  · rintro (⟨before, q, after, rfl, hq⟩ | h)
    · exact ⟨before, q, after ++ [p], by simp, hq⟩
    · exact ⟨ps, p, [], rfl, h⟩

theorem servedBy_concat {ps : List Portal} {p q : Portal} {addr : Word} :
    ServedBy (ps ++ [p]) addr q ↔
      ServedBy ps addr q ∨ ¬ Served ps addr ∧ p.Serves ps addr ∧ p = q := by
  constructor
  · rintro ⟨before, after, h, hq⟩
    rcases concat_eq_append_cons h with ⟨rfl, rfl⟩ | ⟨after', rfl⟩
    · exact .inr ⟨hq.2, hq.1, rfl⟩
    · exact .inl ⟨before, after', rfl, hq⟩
  · rintro (h | ⟨hfirst, hserves, rfl⟩)
    · exact h.append [p]
    · exact ⟨ps, [], rfl, hserves, hfirst⟩

/-- What the walk finds once more is granted. -/
theorem PortalTree.find_ofList_concat (ps : List Portal) (p : Portal) (addr : Word) :
    (PortalTree.ofList (ps ++ [p])).find addr
      = ((PortalTree.ofList ps).find addr).or (if p.Serves ps addr then some p else none) := by
  have hserves : p.Serves (PortalTree.ofList ps).toList addr ↔ p.Serves ps addr :=
    Portal.serves_congr fun _ => by simp only [PortalTree.mem_ofList]
  rw [PortalTree.ofList_concat, PortalTree.find_insert (PortalTree.ofList_ordered ps),
    if_congr hserves rfl rfl]

/-- The walk finds nothing exactly if the address is not served. -/
theorem PortalTree.find_eq_none_iff (ps : List Portal) (addr : Word) :
    (PortalTree.ofList ps).find addr = none ↔ ¬ Served ps addr := by
  induction ps using List.reverseRecOn with
  | nil => exact iff_of_true rfl (served_nil addr)
  | append_singleton ps p ih =>
      rw [PortalTree.find_ofList_concat, Option.or_eq_none_iff, ih, served_concat, not_or]
      refine and_congr_right fun _ => ?_
      split_ifs with h
      · exact iff_of_false nofun (not_not_intro h)
      · exact iff_of_true rfl h

/-- **The walk finds the portal that serves the address.** -/
theorem PortalTree.find_eq_some_iff (ps : List Portal) (addr : Word) (q : Portal) :
    (PortalTree.ofList ps).find addr = some q ↔ ServedBy ps addr q := by
  induction ps using List.reverseRecOn with
  | nil =>
      refine iff_of_false nofun ?_
      rintro ⟨before, after, h, -⟩
      simp at h
  | append_singleton ps p ih =>
      rw [PortalTree.find_ofList_concat, Option.or_eq_some_iff, ih, PortalTree.find_eq_none_iff,
        servedBy_concat]
      refine or_congr_right (and_congr_right fun _ => ?_)
      split_ifs with h
      · exact ⟨fun hq => ⟨h, Option.some.inj hq⟩, fun hq => congrArg some hq.2⟩
      · exact iff_of_false nofun fun hc => h hc.1

/-! ### Runs of requests -/

section Runs

variable (fayt : PortalLib) (src : FrameSource σ) (la57 : Bool) (root : R → Word) [DecidableEq R]

/-- From `s` to `s'`, the requests `reqs` of the page table `r` were granted in this order.
In between, requests of others are granted or refused, its own are refused, and there are
page faults. -/
inductive PortalState.Grants (r : R) (s : PortalState σ R) :
    List PortalReq → PortalState σ R → Prop
  | start : Grants r s [] s
  | grant {s₁ s₂ : PortalState σ R} {reqs : List PortalReq} {req : PortalReq} {resp : PortalResp} :
      Grants r s reqs s₁ → Rock.portal fayt src la57 root s₁ r req = .ok (0, resp, s₂) →
      Grants r s (reqs ++ [req]) s₂
  | other {s₁ s₂ : PortalState σ R} {reqs : List PortalReq} {r' : R} {req : PortalReq} {ret : ℤ}
      {resp : PortalResp} :
      Grants r s reqs s₁ → r' ≠ r ∨ ret ≠ 0 →
      Rock.portal fayt src la57 root s₁ r' req = .ok (ret, resp, s₂) → Grants r s reqs s₂
  | fault {s₁ s₂ : PortalState σ R} {reqs : List PortalReq} {r' : R} {addr code : Word} {ret : ℤ} :
      Grants r s reqs s₁ → portalResolveFault fayt src la57 root s₁ r' addr code = .ok (ret, s₂) →
      Grants r s reqs s₂

/-- **A fault at the address is resolved**: the walk reaches an `ANON` portal that contains
it. -/
def PortalState.Resolves (s : PortalState σ R) (r : R) (addr : Word) : Prop :=
  ∃ p, (s.portals r).find addr = some p ∧ p.Anon ∧ p.Covers addr

/-- **The portal can be used** from `s` on: its addresses are resolved, whatever is granted
later. -/
def PortalState.Usable (s : PortalState σ R) (r : R) (p : Portal) : Prop :=
  ∀ later s', s.Grants fayt src la57 root r later s' → ∀ addr, p.Covers addr → s'.Resolves r addr

end Runs

section Grants

variable {fayt : PortalLib} {src : FrameSource σ} {la57 : Bool} {root : R → Word} [DecidableEq R]
  {s s₀ s' : PortalState σ R} {r : R} {reqs : List PortalReq}

/-- A request that returns 0 puts its portal into the tree of its page table; any other one
leaves the trees alone. -/
theorem portal_portals (hnamed : s.Named) {req : PortalReq} {ret : ℤ} {resp : PortalResp}
    (h : portal fayt src la57 root s r req = .ok (ret, resp, s')) :
    s'.Named ∧ s'.portals =
      if ret = 0 then Function.update s.portals r (fayt.insert (s.portals r) req.opened)
      else s.portals := by
  obtain ⟨m, -, hfinish⟩ := portal_cases h
  have hnamed₁ : PortalState.Named { s with machine := m } := hnamed
  rcases portalFinish_failed hfinish with ⟨rfl, rfl, -⟩ | ⟨rfl, hrefused⟩
  · exact ⟨hnamed₁, (if_neg (by decide)).symm⟩
  · obtain ⟨-, hportals, hnamed', -⟩ := portalFinish_spec hnamed₁ hrefused hfinish
    exact ⟨hnamed', hportals.trans (if_pos rfl).symm⟩

/-- A page fault opens no portal. -/
theorem portalResolveFault_portals (hnamed : s.Named) {addr code : Word} {ret : ℤ}
    (h : portalResolveFault fayt src la57 root s r addr code = .ok (ret, s')) :
    s'.Named ∧ s'.portals = s.portals := by
  have hcases := portalResolveFault_eq h
  split_ifs at hcases with hP
  · exact ⟨hcases ▸ hnamed, by rw [hcases]⟩
  · obtain ⟨ret', hanon⟩ := hcases
    obtain ⟨hportals, hpoints⟩ := portalFaultAnon_keeps hanon
    exact ⟨hnamed.of_points hpoints, hportals⟩

/-- **The tree is the history**: what the granted requests have made of the tree. -/
theorem PortalState.Grants.tree (hinsert : ∀ t p, fayt.insert t p = t.insert p)
    (h : s.Grants fayt src la57 root r reqs s') {ps : List Portal} (hnamed : s.Named)
    (hps : s.portals r = PortalTree.ofList ps) :
    s'.Named ∧ s'.portals r = PortalTree.ofList (ps ++ reqs.map PortalReq.opened) := by
  induction h with
  | start => exact ⟨hnamed, by rw [hps, List.map_nil, List.append_nil]⟩
  | grant _ hcall ih =>
      obtain ⟨hnamed', hportals⟩ := portal_portals ih.1 hcall
      refine ⟨hnamed', ?_⟩
      rw [hportals, if_pos rfl, Function.update_self, hinsert, ih.2, List.map_append,
        ← List.append_assoc]
      exact (PortalTree.ofList_concat ..).symm
  | other _ hother hcall ih =>
      obtain ⟨hnamed', hportals⟩ := portal_portals ih.1 hcall
      refine ⟨hnamed', ?_⟩
      rw [hportals, ← ih.2]
      split_ifs with hret
      · exact Function.update_of_ne (hother.resolve_right (not_not_intro hret)).symm ..
      · rfl
  | fault _ hcall ih =>
      obtain ⟨hnamed', hportals⟩ := portalResolveFault_portals ih.1 hcall
      exact ⟨hnamed', (congrFun hportals r).trans ih.2⟩

/-- Which addresses are resolved after a history of requests. -/
theorem PortalState.Grants.resolves_iff (hinsert : ∀ t p, fayt.insert t p = t.insert p)
    (h : s.Grants fayt src la57 root r reqs s') {ps : List Portal} (hnamed : s.Named)
    (hps : s.portals r = PortalTree.ofList ps) (addr : Word) :
    s'.Resolves r addr ↔
      ∃ p, ServedBy (ps ++ reqs.map PortalReq.opened) addr p ∧ p.Covers addr := by
  unfold PortalState.Resolves
  rw [(h.tree hinsert hnamed hps).2]
  refine exists_congr fun p => ?_
  rw [PortalTree.find_eq_some_iff]
  exact and_congr_right fun hserved => and_iff_right hserved.answers.2.1

end Grants

/-! ### Faults -/

/-- **The history gives the page what its portal asks for**: the portal that serves the
address has the page, with the protections of an `ANON` portal around the address; or no
`ANON` portal is around it, and the one that serves it, if any, has no such page. -/
def PortalState.Matches (fayt : PortalLib) (s : PortalState σ R) (ps : List Portal)
    (addr : Word) : Prop :=
  (∃ p, ServedBy ps addr p ∧ s.Backable fayt p (addr &&& ~~~0xfff) ∧
    ∃ c ∈ ps, c.Anon ∧ c.Covers addr ∧
      portalTranslateProtections p.prot = portalTranslateProtections c.prot) ∨
  ((∀ c ∈ ps, c.Anon → ¬ c.Covers addr) ∧
    ∀ p, ServedBy ps addr p → ¬ s.Backable fayt p (addr &&& ~~~0xfff))

section Faults

variable [DecidableEq R] {src : FrameSource σ} {la57 : Bool} {root : R → Word}
  {s s' : PortalState σ R} {r : R} {v f f' flags flags' : Word}

/-- A fault that mapped a page has changed the state. -/
theorem PortalState.Faulted.ne (h : PortalState.Faulted src la57 root s s' r v f flags) :
    s' ≠ s := by
  rintro rfl
  exact h.fresh h.live

/-- The page has one kind of protections. -/
theorem PortalState.Faulted.flags_unique (h : PortalState.Faulted src la57 root s s' r v f flags)
    (h' : PortalState.Faulted src la57 root s s' r v f' flags') : flags = flags' := by
  have hlookup := (h.mapped.lookup r v).symm.trans (h'.mapped.lookup r v)
  rw [if_pos ⟨rfl, sameBits_refl _ _ _⟩, if_pos ⟨rfl, sameBits_refl _ _ _⟩] at hlookup
  exact congrArg Translation.flags (Option.some.inj hlookup)

/-- What a fault does, by the portal that serves the address. -/
theorem portalFaultAnon_served (fayt : PortalLib) {addr : Word} {ps : List Portal}
    (htree : s.portals r = PortalTree.ofList ps)
    (hF : Forest src root (upperLevels la57 + 1) s.machine)
    (hsup : src.Supplies (upperLevels la57 + 3) s.machine.pmm)
    (hnone : s.machine.lookup la57 root r (addr &&& ~~~0xfff) = none) :
    ∃ ret s', portalFaultAnon fayt src la57 root s r addr = .ok (ret, s') ∧
      ((s' = s ∧ ∀ p, ServedBy ps addr p → ¬ s.Backable fayt p (addr &&& ~~~0xfff)) ∨
        ∃ p f, ServedBy ps addr p ∧ s.Backable fayt p (addr &&& ~~~0xfff) ∧
          PortalState.Faulted src la57 root s s' r (addr &&& ~~~0xfff) f
            (portalTranslateProtections p.prot)) := by
  have hfind : ∀ {p}, (s.portals r).find addr = some p ↔ ServedBy ps addr p := by
    intro p
    rw [htree, PortalTree.find_eq_some_iff]
  by_cases hback : ∃ p, ServedBy ps addr p ∧ s.Backable fayt p (addr &&& ~~~0xfff)
  · obtain ⟨p, hserved, hback⟩ := hback
    have hsome : (faultFrame fayt src s p (addr &&& ~~~0xfff)).isSome :=
      faultFrame_isSome_iff.mpr hback
    obtain ⟨ret, s', hfault, -⟩ := portalFaultAnon_returns (n := 0) hF (hfind.mpr hserved) hsome
      hsup
    refine ⟨ret, s', hfault, .inr ?_⟩
    rcases portalFaultAnon_spec hF (hsup.of_le (by omega)) hnone hfault with
      ⟨-, -, hlost⟩ | ⟨p', f, hfind', hsome', hfaulted⟩
    · rw [hlost p (hfind.mpr hserved)] at hsome
      cases hsome
    · exact ⟨p', f, hfind.mp hfind', faultFrame_isSome_iff.mp hsome', hfaulted⟩
  · -- no portal, or none with a frame for the page: the call fails before it maps
    have hlost : ∀ p, ServedBy ps addr p → ¬ s.Backable fayt p (addr &&& ~~~0xfff) :=
      fun p hserved hc => hback ⟨p, hserved, hc⟩
    refine ⟨-1, s, ?_, .inl ⟨rfl, hlost⟩⟩
    unfold portalFaultAnon
    rcases hp : (s.portals r).find addr with - | p
    · rfl
    · have hframe : faultFrame fayt src s p (addr &&& ~~~0xfff) = none := by
        rw [← Option.not_isSome_iff_eq_none, faultFrame_isSome_iff]
        exact hlost p (hfind.mp hp)
      simp only [sub_offset, hframe]

end Faults

/-- **When a fault does what it should.**  A page table starts without portals, and the
requests `reqs` are granted in this order, with any other requests and faults in between.  A
fault on a missing page, with frames left, maps the page with the protections of an `ANON`
portal around the address, or does nothing if there is none, exactly if the history matches. -/
theorem fault_exact_iff [DecidableEq R] {fayt : PortalLib} {src : FrameSource σ} {la57 : Bool}
    {root : R → Word} {s₀ s : PortalState σ R} {r : R} {reqs : List PortalReq} {addr : Word}
    (hinsert : ∀ t p, fayt.insert t p = t.insert p) (hnamed : s₀.Named)
    (hempty : s₀.portals r = .nil) (hrun : s₀.Grants fayt src la57 root r reqs s)
    (hF : Forest src root (upperLevels la57 + 1) s.machine)
    (hsup : src.Supplies (upperLevels la57 + 3) s.machine.pmm)
    (hnone : s.machine.lookup la57 root r (addr &&& ~~~0xfff) = none) :
    (∃ ret s', portalFaultAnon fayt src la57 root s r addr = .ok (ret, s') ∧
      s.FaultExact src la57 root s' r addr) ↔
      s.Matches fayt (reqs.map PortalReq.opened) addr := by
  have hnil : s₀.portals r = PortalTree.ofList [] := hempty
  have htree := (hrun.tree hinsert hnamed hnil).2
  rw [List.nil_append] at htree
  have hmem : ∀ {c}, c ∈ (s.portals r).toList ↔ c ∈ reqs.map PortalReq.opened := by
    intro c
    rw [htree, PortalTree.mem_ofList]
  obtain ⟨ret, s', hfault, hdone⟩ := portalFaultAnon_served fayt htree hF hsup hnone
  have honce : (∃ ret s', portalFaultAnon fayt src la57 root s r addr = .ok (ret, s') ∧
      s.FaultExact src la57 root s' r addr) ↔ s.FaultExact src la57 root s' r addr := by
    refine ⟨?_, fun h => ⟨ret, s', hfault, h⟩⟩
    rintro ⟨ret₁, s₁, hfault₁, hexact⟩
    cases hfault.symm.trans hfault₁
    exact hexact
  rw [honce]
  rcases hdone with ⟨rfl, hlost⟩ | ⟨p, f, hserved, hback, hfaulted⟩
  · constructor
    · rintro (⟨c, -, -, -, f, hfaulted⟩ | ⟨hnot, -⟩)
      · exact absurd rfl hfaulted.ne
      · exact .inr ⟨fun c hc => hnot c (hmem.mpr hc), hlost⟩
    · rintro (⟨p, hserved, hback, -⟩ | ⟨hnot, -⟩)
      · exact absurd hback (hlost p hserved)
      · exact .inr ⟨fun c hc => hnot c (hmem.mp hc), rfl⟩
  · constructor
    · rintro (⟨c, hc, hanon, hcovers, f', hfaulted'⟩ | ⟨-, hsame⟩)
      · exact .inl ⟨p, hserved, hback, c, hmem.mp hc, hanon, hcovers,
          hfaulted.flags_unique hfaulted'⟩
      · exact absurd hsame hfaulted.ne
    · rintro (⟨p', hserved', -, c, hc, hanon, hcovers, hflags⟩ | ⟨-, hlost⟩)
      · have hsame : p = p' := Option.some.inj
          (((PortalTree.find_eq_some_iff ..).mpr hserved).symm.trans
            ((PortalTree.find_eq_some_iff ..).mpr hserved'))
        subst hsame
        exact .inl ⟨c, hmem.mpr hc, hanon, hcovers, f, hflags ▸ hfaulted⟩
      · exact absurd hback (hlost p hserved)

/-! ### Granted portals -/

/-- **When a granted portal can be used.**  A page table starts without portals, and the
requests `reqs` and then `req` are granted.  The addresses of the new portal are all
resolved, now and after any further requests, exactly if the portal of the history that
serves the address contains it, for each of them. -/
theorem granted_usable_iff [DecidableEq R] {fayt : PortalLib} {src : FrameSource σ} {la57 : Bool}
    {root : R → Word} {s₀ s s' : PortalState σ R} {r : R} {reqs : List PortalReq} {req : PortalReq}
    {resp : PortalResp} (hinsert : ∀ t p, fayt.insert t p = t.insert p) (hnamed : s₀.Named)
    (hempty : s₀.portals r = .nil) (hrun : s₀.Grants fayt src la57 root r reqs s)
    (h : portal fayt src la57 root s r req = .ok (0, resp, s')) :
    s'.Usable fayt src la57 root r req.opened ↔
      ∀ addr, req.opened.Covers addr →
        ∃ p, ServedBy ((reqs ++ [req]).map PortalReq.opened) addr p ∧ p.Covers addr := by
  have hnil : s₀.portals r = PortalTree.ofList [] := hempty
  obtain ⟨hnamed', htree⟩ := (hrun.grant h).tree hinsert hnamed hnil
  rw [List.nil_append] at htree
  constructor
  · intro husable addr hcovers
    have hstart : s'.Grants fayt src la57 root r [] s' := .start
    have hnow := (hstart.resolves_iff hinsert hnamed' htree addr).mp
      (husable [] s' hstart addr hcovers)
    rwa [List.map_nil, List.append_nil] at hnow
  · intro hserved later s'' hlater addr hcovers
    rw [hlater.resolves_iff hinsert hnamed' htree]
    obtain ⟨p, hp, hinside⟩ := hserved addr hcovers
    exact ⟨p, hp.append _, hinside⟩

/-! ### One portal inside another -/

/-- A request for the window `[0x400000, 0x408000)`. -/
def wideReq : PortalReq := { anonReq 0x400000 portalProtRead with length := 0x8000 }

/-- A request for one page inside it. -/
def innerReq : PortalReq := anonReq 0x402000 portalProtRead

/-- The context `false` was granted these portals. -/
def granted (ps : List Portal) : PortalState FreeList Bool :=
  { closed.kernel with portals := Function.update (fun _ => .nil) false (PortalTree.ofList ps) }

theorem granted_portal (ps : List Portal) {req : PortalReq} (htype : req.type = portalReqAnon) :
    portal portalLib .ofList false twoRoots (granted ps) false req
      = .ok (0, ⟨req.addr, req.length, portalRespSuccess⟩, granted (ps ++ [req.opened])) := by
  have hanon : hasBit portalReqAnon portalReqAnon := by decide
  have hother : ¬ hasBit portalReqAnon portalReqDirect ∧ ¬ hasBit portalReqAnon portalReqShare ∧
      ¬ hasBit portalReqAnon portalReqCow ∧ ¬ hasBit portalReqAnon portalReqSp := by decide
  have hmark : portalReqAnon &&& 0x1f = 0 ||| portalReqAnon := by decide
  have hstate : granted (ps ++ [req.opened]) = { granted ps with
      portals := Function.update (granted ps).portals false
        (((granted ps).portals false).insert req.opened) } := by
    simp only [granted, PortalTree.ofList_concat, Function.update_idem, Function.update_self]
  rw [hstate, PortalReq.opened]
  unfold portal portalFinish
  simp only [htype, hanon, hother, hmark, if_true, if_false, portalHandleAnon, Portal.mark,
    portalLib]
  rfl

theorem granted_named : (granted []).Named := fun _ _ hid =>
  absurd hid (Option.some_ne_none _).symm

theorem granted_run {req : PortalReq} (htype : req.type = portalReqAnon) :
    (granted []).Grants portalLib .ofList false twoRoots false [req] (granted [req.opened]) :=
  .grant .start (granted_portal [] htype)

/-- The page inside the window can be used, if the window was granted first: faults on it
find the window. -/
theorem inner_usable :
    (granted [wideReq.opened, innerReq.opened]).Usable portalLib .ofList false twoRoots false
      innerReq.opened := by
  have hcall := granted_portal [wideReq.opened] (show innerReq.type = portalReqAnon from rfl)
  refine (granted_usable_iff (fun _ _ => rfl) granted_named rfl (granted_run rfl) hcall).mpr
    fun addr hcovers => ?_
  have hwide : wideReq.opened.Covers addr :=
    ⟨BitVec.le_trans (show wideReq.addr ≤ innerReq.addr by decide) hcovers.1,
      hcovers.2.trans (show 0x403000 < 0x408000 by decide)⟩
  exact ⟨wideReq.opened, servedBy_head ⟨by decide, hwide.closed (show _ < _ by decide)⟩ _, hwide⟩

/-- **A window that cannot be used behind the page inside it**, if the page was granted
first: at the page the walk turns right, and the window is to its left. -/
theorem wide_unusable :
    (granted []).Grants portalLib .ofList false twoRoots false [innerReq]
        (granted [innerReq.opened]) ∧
      portal portalLib .ofList false twoRoots (granted [innerReq.opened]) false wideReq
        = .ok (0, ⟨0x400000, 0x8000, portalRespSuccess⟩,
            granted [innerReq.opened, wideReq.opened]) ∧
      wideReq.opened.Anon ∧ wideReq.opened.Fits ∧ wideReq.opened.Covers 0x405000 ∧
      ¬ (granted [innerReq.opened, wideReq.opened]).Resolves false 0x405000 := by
  refine ⟨granted_run rfl, granted_portal [innerReq.opened] rfl, by decide,
    show _ < _ by decide, by decide, ?_⟩
  rintro ⟨p, hfind, -⟩
  have hlost : (PortalTree.ofList [innerReq.opened, wideReq.opened]).find 0x405000 = none := by
    decide +kernel
  cases hlost.symm.trans hfind

/-! ### Two neighbours, in both orders -/

/-- A request for the writable page. -/
def lowReq : PortalReq := anonReq 0x400000 portalProtWrite

/-- A request for the read-only page right behind it. -/
def highReq : PortalReq := anonReq 0x401000 portalProtRead

theorem granted_pair {req req' : PortalReq} (htype : req.type = portalReqAnon)
    (htype' : req'.type = portalReqAnon) :
    (granted []).Grants portalLib .ofList false twoRoots false [req, req']
      (granted [req.opened, req'.opened]) :=
  .grant (granted_run htype) (granted_portal [req.opened] htype')

/-- What a fault in one of these states starts from. -/
theorem granted_machine (ps : List Portal) (addr : Word) :
    Forest .ofList twoRoots (upperLevels false + 1) (granted ps).machine ∧
      FrameSource.ofList.Supplies (upperLevels false + 3) (granted ps).machine.pmm ∧
      (granted ps).machine.lookup false twoRoots false addr = none :=
  ⟨twoTables_forest 3, (FreeList.supplies closed.kernel.machine.pmm).of_le (by decide),
    twoTables_lookup false _⟩

/-- A fault on the first address of the read-only page, if that page was granted first. -/
theorem fault_exact_behind :
    ∃ ret s', portalFaultAnon portalLib .ofList false twoRoots
        (granted [highReq.opened, lowReq.opened]) false 0x401000 = .ok (ret, s') ∧
      (granted [highReq.opened, lowReq.opened]).FaultExact .ofList false twoRoots s' false
        0x401000 := by
  obtain ⟨hF, hsup, hnone⟩ := granted_machine [highReq.opened, lowReq.opened]
    (0x401000 &&& ~~~0xfff)
  have hserved : ServedBy [highReq.opened, lowReq.opened] 0x401000 highReq.opened :=
    servedBy_head (by decide) _
  refine (fault_exact_iff (fun _ _ => rfl) granted_named rfl (granted_pair rfl rfl) hF hsup
    hnone).mpr (.inl ⟨highReq.opened, hserved, ?_, highReq.opened, ?_⟩)
  · exact fun hc => absurd hc (by decide)
  · exact ⟨List.mem_cons_self, by decide, by decide, rfl⟩

/-- **A page mapped for the neighbour**, if the writable page was granted first.  The
read-only page is faulted in at its first address: the walk meets the writable portal, which
ends there, and the page becomes writable. -/
theorem fault_finds_neighbour :
    ∃ ret s' f, (granted []).Grants portalLib .ofList false twoRoots false [lowReq, highReq]
        (granted [lowReq.opened, highReq.opened]) ∧
      highReq.opened.Covers 0x401000 ∧ ¬ lowReq.opened.Covers 0x401000 ∧
      portalFaultAnon portalLib .ofList false twoRoots (granted [lowReq.opened, highReq.opened])
        false 0x401000 = .ok (ret, s') ∧
      s'.machine.lookup false twoRoots false 0x401000
        = some ⟨f, portalTranslateProtections portalProtWrite, .small⟩ ∧
      ¬ (granted [lowReq.opened, highReq.opened]).FaultExact .ofList false twoRoots s' false
        0x401000 := by
  obtain ⟨hF, hsup, hnone⟩ := granted_machine [lowReq.opened, highReq.opened]
    (0x401000 &&& ~~~0xfff)
  have hlow : ServedBy [lowReq.opened, highReq.opened] 0x401000 lowReq.opened :=
    servedBy_head (by decide) _
  have honly : ∀ {p}, ServedBy [lowReq.opened, highReq.opened] 0x401000 p → p = lowReq.opened := by
    intro p hp
    rw [← PortalTree.find_eq_some_iff] at hp hlow
    exact Option.some.inj (hp.symm.trans hlow)
  obtain ⟨ret, s', hfault, ⟨-, hlost⟩ | ⟨p, f, hserved, -, hfaulted⟩⟩ :=
    portalFaultAnon_served portalLib (s := granted [lowReq.opened, highReq.opened])
      (r := false) rfl hF hsup hnone
  · exact absurd (fun hc => absurd hc (by decide)) (hlost lowReq.opened hlow)
  obtain rfl := honly hserved
  have hlookup := hfaulted.mapped.lookup false 0x401000
  rw [if_pos ⟨rfl, sameBits_refl _ _ _⟩] at hlookup
  refine ⟨ret, s', f, granted_pair rfl rfl, by decide, by decide, hfault, hlookup, ?_⟩
  rintro (⟨p, hp, -, hcovers, f', hfaulted'⟩ | ⟨-, hsame⟩)
  · -- only the read-only portal has the address
    obtain rfl : p = highReq.opened := by
      have htree : (PortalTree.ofList [lowReq.opened, highReq.opened]).toList
          = [lowReq.opened, highReq.opened] := rfl
      have hp : p ∈ [lowReq.opened, highReq.opened] := htree ▸ hp
      rcases List.mem_cons.mp hp with rfl | hp
      · exact absurd hcovers (by decide)
      · exact List.mem_singleton.mp hp
    exact absurd (hfaulted.flags_unique hfaulted') (by decide)
  · exact hfaulted.ne hsame

end Rock
