/-
Rock/FaultFrames.lean

The frames that page faults take.

A fault on an `ANON` portal without `SHARE` runs through two calls of `pmm_alloc(1, 1)`:

    } else paddr = pmm_alloc(1, 1);
    ...
    *page->frame = (struct frame) { .paddr = pmm_alloc(1, 1), .refcnt = 1 };

The page is mapped to the second frame, which is recorded.  Nothing refers to the first one
any more, so each fault loses a page.

`Takes` is the account of what a call has taken from the allocator, for tables and for data;
accounts of calls in a row add up.  Main result (`anon_faults_conserve_iff`): in every run of
such faults, a call takes the one frame that it records exactly if it takes and records
nothing, and the data frames of the run are those recorded exactly if this is so for all its
calls.
-/
import Rock.MapOwned
import Rock.PortalHistory
import Rock.SharePoint

namespace Rock

open TableTree

variable {σ R : Type}

/-! ### Accounts -/

/-- An allocator whose marks are its allocations. -/
structure FrameSource.Marks (src : FrameSource σ) (Marked : σ → Word → Prop) : Prop where
  alloc_iff : ∀ {s f s'}, src.alloc s = some (f, s') →
    ∀ g, IsFrame .small g → (Marked s' g ↔ Marked s g ∨ g = f)
  alloc_unmarked : ∀ {s f s'}, src.alloc s = some (f, s') → ¬ Marked s f

/-- From `m` to `m'`, the frames `ts` were taken for tables and the frames `ds` for data. -/
structure Takes (Marked : σ → Word → Prop) (m m' : Machine σ) (ts ds : List Word) : Prop where
  tables : m'.tables = ts ++ m.tables
  marked : ∀ g, IsFrame .small g → (Marked m'.pmm g ↔ Marked m.pmm g ∨ g ∈ ds ++ ts)
  frame : ∀ g ∈ ds ++ ts, IsFrame .small g
  fresh : ∀ g ∈ ds ++ ts, ¬ Marked m.pmm g
  apart : ds.Disjoint ts

/-- The frames that were taken for tables since `m`. -/
def Machine.tablesSince (m m' : Machine σ) : List Word :=
  m'.tables.take (m'.tables.length - m.tables.length)

/-- The frames that were marked since `m`, besides those of tables. -/
def Machine.dataSince (Marked : σ → Word → Prop) (m m' : Machine σ) : Set Word :=
  {f | IsFrame .small f ∧ Marked m'.pmm f ∧ ¬ Marked m.pmm f ∧ f ∉ m.tablesSince m'}

section Accounts

variable {src : FrameSource σ} {Marked : σ → Word → Prop} {m m' m₁ : Machine σ}
  {ts ds ts' ds' : List Word}

theorem Takes.refl (m : Machine σ) : Takes Marked m m [] [] where
  tables := rfl
  marked g _ := by simp
  frame := by simp
  fresh := by simp
  apart := by simp

/-- Accounts only depend on the allocator and the list of tables. -/
theorem Takes.congr (h : Takes Marked m m₁ ts ds) (hpmm : m'.pmm = m₁.pmm)
    (htables : m'.tables = m₁.tables) : Takes Marked m m' ts ds where
  tables := htables.trans h.tables
  marked := hpmm ▸ h.marked
  frame := h.frame
  fresh := h.fresh
  apart := h.apart

/-- **Accounts of calls in a row add up.** -/
theorem Takes.trans (h : Takes Marked m m₁ ts ds) (h' : Takes Marked m₁ m' ts' ds') :
    Takes Marked m m' (ts' ++ ts) (ds' ++ ds) := by
  have hmem : ∀ g, g ∈ (ds' ++ ds) ++ (ts' ++ ts) ↔ g ∈ ds' ++ ts' ∨ g ∈ ds ++ ts := by
    intro g
    simp only [List.mem_append]
    tauto
  -- what the second call takes was not marked, so the first has not taken it
  have hnew : ∀ g ∈ ds' ++ ts', ¬ Marked m.pmm g ∧ g ∉ ds ++ ts := by
    intro g hg
    have hfresh := h'.fresh g hg
    rwa [h.marked g (h'.frame g hg), not_or] at hfresh
  refine ⟨?_, ?_, ?_, ?_, ?_⟩
  · rw [h'.tables, h.tables, List.append_assoc]
  · intro g hg
    rw [h'.marked g hg, h.marked g hg, hmem, or_assoc, or_comm (a := g ∈ ds ++ ts)]
  · intro g hg
    exact ((hmem g).mp hg).elim (h'.frame g) (h.frame g)
  · intro g hg
    exact ((hmem g).mp hg).elim (fun hg' => (hnew g hg').1) (h.fresh g)
  · intro g hdata htable
    rcases List.mem_append.mp hdata with hd | hd <;> rcases List.mem_append.mp htable with ht | ht
    · exact h'.apart hd ht
    · exact (hnew g (List.mem_append_left _ hd)).2 (List.mem_append_right _ ht)
    · exact (hnew g (List.mem_append_right _ ht)).2 (List.mem_append_left _ hd)
    · exact h.apart hd ht

theorem Takes.tablesSince (h : Takes Marked m m' ts ds) : m.tablesSince m' = ts := by
  rw [Machine.tablesSince, h.tables, List.length_append, Nat.add_sub_cancel, List.take_left]

/-- The data frames of an account. -/
theorem Takes.dataSince (h : Takes Marked m m' ts ds) :
    m.dataSince Marked m' = {f | f ∈ ds} := by
  ext f
  show _ ∧ _ ∧ _ ∧ f ∉ m.tablesSince m' ↔ f ∈ ds
  rw [h.tablesSince]
  constructor
  · rintro ⟨hframe, hmark, hnot, htable⟩
    rw [h.marked f hframe] at hmark
    exact (List.mem_append.mp (hmark.resolve_left hnot)).resolve_right htable
  · intro hf
    have hmem : f ∈ ds ++ ts := List.mem_append_left ts hf
    refine ⟨h.frame f hmem, (h.marked f (h.frame f hmem)).mpr (.inr hmem), h.fresh f hmem, ?_⟩
    exact fun htable => h.apart hf htable

variable (hM : src.Marks Marked)

include hM

theorem takes_alloc {f : Word} {s : σ} (ha : src.alloc m.pmm = some (f, s)) :
    Takes Marked m (m.takePage f s) [] [f] where
  tables := rfl
  marked g hg := (hM.alloc_iff ha g hg).trans (by simp)
  frame := by simpa using src.alloc_frame ha
  fresh := by simpa using hM.alloc_unmarked ha
  apart := by simp

theorem takes_grant {f : Word} {s : σ} (ha : src.alloc m.pmm = some (f, s)) :
    Takes Marked m (m.grant f s) [f] [] where
  tables := rfl
  marked g hg := (hM.alloc_iff ha g hg).trans (by simp)
  frame := by simpa using src.alloc_frame ha
  fresh := by simpa using hM.alloc_unmarked ha
  apart := by simp

variable {extra flags t t' : Word}

theorem descend_takes {i : BitVec 9} (h : descend src extra flags m t i = .ok (t', m')) :
    ∃ ts, Takes Marked m m' ts [] := by
  unfold descend at h
  split_ifs at h with hP
  · obtain ⟨-, rfl⟩ := Prod.mk.inj (Except.ok.inj h)
    exact ⟨[], .refl m⟩
  · rcases ha : src.alloc m.pmm with - | ⟨f, s⟩ <;> rw [ha] at h
    · cases h
    · obtain ⟨-, rfl⟩ := Prod.mk.inj (Except.ok.inj h)
      exact ⟨[f], (takes_grant hM ha).congr rfl rfl⟩

theorem descendAll_takes {is : List (BitVec 9)}
    (h : descendAll src extra flags m t is = .ok (t', m')) : ∃ ts, Takes Marked m m' ts [] := by
  induction is generalizing m t with
  | nil =>
      obtain ⟨-, rfl⟩ := Prod.mk.inj (Except.ok.inj h)
      exact ⟨[], .refl m⟩
  | cons i is ih =>
      obtain ⟨⟨t₁, m₁⟩, h₁, h₂⟩ := Exec.bind_eq_ok.mp h
      obtain ⟨ts, hts⟩ := descend_takes hM h₁
      obtain ⟨ts', hts'⟩ := ih h₂
      exact ⟨ts' ++ ts, hts.trans hts'⟩

/-- **`map_page` takes frames for tables only.** -/
theorem mapPage_takes {upper : List (BitVec 9)} {i2 i1 : BitVec 9} {paddr : Word}
    {ptr : Option Ptr} (h : mapPage src extra m t upper i2 i1 paddr flags = .ok (ptr, m')) :
    ∃ ts, Takes Marked m m' ts [] := by
  rw [mapPage_eq] at h
  obtain ⟨⟨t₁, m₁⟩, h₁, h⟩ := Exec.bind_eq_ok.mp h
  obtain ⟨-, rfl⟩ := Prod.mk.inj (Except.ok.inj h)
  obtain ⟨ts, hts⟩ := descendAll_takes hM h₁
  exact ⟨ts, hts.congr rfl rfl⟩

/-- **A page of data** is one frame, or none if the allocator has none. -/
theorem allocPage_takes (m : Machine σ) :
    (src.alloc m.pmm = none ∧ allocPage src m = (-1, m)) ∨
      Takes Marked m (allocPage src m).2 [] [(allocPage src m).1] := by
  rcases ha : src.alloc m.pmm with - | ⟨f, s⟩
  · exact .inl ⟨rfl, allocPage_eq_of_none ha⟩
  · right
    rw [allocPage_eq_of_some ha]
    exact takes_alloc hM ha

end Accounts

/-! ### Faults -/

/-- A call of `portal_fault_anon` that has returned. -/
structure AnonCall (σ R : Type) where
  before : PortalState σ R
  table : R
  addr : Word
  ret : ℤ
  after : PortalState σ R

/-- The address of the page that has faulted. -/
def AnonCall.page (c : AnonCall σ R) : Word := c.addr &&& ~~~0xfff

section Calls

variable (fayt : PortalLib) (src : FrameSource σ) (Marked : σ → Word → Prop) (la57 : Bool)
  (root : R → Word)

/-- The call was made, for no portal to a share point. -/
structure AnonCall.Valid [DecidableEq R] (c : AnonCall σ R) : Prop where
  anon : ∀ p, (c.before.portals c.table).find c.addr = some p → ¬ hasBit p.type portalReqShare
  returns : portalFaultAnon fayt src la57 root c.before c.table c.addr = .ok (c.ret, c.after)

/-- The data frames that the call has taken. -/
def AnonCall.data (c : AnonCall σ R) : Set Word :=
  c.before.machine.dataSince Marked c.after.machine

/-- **The fault takes one frame**: if it returns 0, the page is mapped to this frame, which is
recorded with `refcnt` 1; if it returns -1, it takes none. -/
structure AnonCall.TakesOne (c : AnonCall σ R) : Prop where
  success : c.ret = 0 → ∃ f, c.data Marked = {f} ∧
    (∃ tr, c.after.machine.lookup la57 root c.table c.page = some tr ∧ tr.frame = f) ∧
    c.after.pages c.table = ⟨c.page, ⟨f, 1⟩⟩ :: c.before.pages c.table
  failure : c.ret = -1 → c.data Marked = ∅

/-- The fault takes and records nothing: there is no portal for it, or there is no frame and
the page cannot be recorded. -/
def AnonCall.Idle (c : AnonCall σ R) : Prop :=
  (c.before.portals c.table).find c.addr = none ∨
    (src.alloc c.before.machine.pmm = none ∧
      fayt.pushPageFails (c.before.pages c.table) c.page = true)

end Calls

section Outcome

variable {fayt : PortalLib} {src : FrameSource σ} {Marked : σ → Word → Prop} {la57 : Bool}
  {root : R → Word} [DecidableEq R] {c : AnonCall σ R}

/-- -1 is no frame. -/
theorem IsFrame.ne_ones {f : Word} (hf : IsFrame .small f) : f ≠ -1 := by
  rintro rfl
  exact absurd hf (by decide)

/-- What two calls of `pmm_alloc` have to do with the frame `f` of the second one: there was no
frame at all, or a frame other than `f` was taken. -/
structure TwoTaken (src : FrameSource σ) (s : σ) (f : Word) (ds : List Word) : Prop where
  empty : src.alloc s = none → f = -1 ∧ ds = []
  lost : src.alloc s ≠ none → (f = -1 ∨ f ∈ ds) ∧ ∃ g ∈ ds, g ≠ f

/-- **The two allocations of a fault.** -/
theorem allocPage_twice (hM : src.Marks Marked) (m : Machine σ) :
    ∃ ds, Takes Marked m (allocPage src (allocPage src m).2).2 [] ds ∧
      TwoTaken src m.pmm (allocPage src (allocPage src m).2).1 ds := by
  rcases allocPage_takes hM m with ⟨hnone, hpage⟩ | hfirst
  · rw [hpage, hpage]
    exact ⟨[], .refl m, fun _ => ⟨rfl, rfl⟩, fun hc => absurd hnone hc⟩
  have hsome : src.alloc m.pmm ≠ none := by
    intro hnone
    rw [allocPage_eq_of_none hnone] at hfirst
    exact (hfirst.frame (-1) (by simp)).ne_ones rfl
  have hframe := hfirst.frame _ (List.mem_append_left _ (List.mem_singleton_self _))
  rcases allocPage_takes hM (allocPage src m).2 with ⟨-, hpage⟩ | hsecond
  · rw [hpage]
    exact ⟨_, hfirst, fun hc => absurd hc hsome, fun _ => ⟨.inl rfl, _, by simp, hframe.ne_ones⟩⟩
  · refine ⟨_, hfirst.trans hsecond, fun hc => absurd hc hsome, fun _ =>
      ⟨.inr (by simp), (allocPage src m).1, by simp, fun hc => ?_⟩⟩
    -- the second frame was not marked after the first was taken
    have hmarked := (hfirst.marked _ hframe).mpr (.inr (by simp))
    exact hsecond.fresh _ (by simp) (hc ▸ hmarked)

/-- What a call has recorded for its page, if it was mapped to `f`. -/
structure AnonCall.Records (c : AnonCall σ R) (fayt : PortalLib) (f : Word) : Prop where
  failed : fayt.pushPageFails (c.before.pages c.table) c.page = true →
    c.ret = -1 ∧ c.after.pages = c.before.pages
  pushed : fayt.pushPageFails (c.before.pages c.table) c.page ≠ true →
    c.ret = 0 ∧ c.after.pages
      = Function.update c.before.pages c.table (⟨c.page, ⟨f, 1⟩⟩ :: c.before.pages c.table)

/-- **What a fault takes and records.** -/
theorem AnonCall.Valid.outcome (hM : src.Marks Marked) (h : c.Valid fayt src la57 root) :
    ((c.before.portals c.table).find c.addr = none ∧ c.ret = -1 ∧ c.after = c.before) ∨
      ((c.before.portals c.table).find c.addr ≠ none ∧
        ∃ f ts ds, Takes Marked c.before.machine c.after.machine ts ds ∧
          TwoTaken src c.before.machine.pmm f ds ∧ c.Records fayt f) := by
  obtain ⟨s, r, addr, ret, s'⟩ := c
  obtain ⟨hanon, hcall⟩ := h
  dsimp only at hanon hcall ⊢
  unfold portalFaultAnon at hcall
  rw [sub_offset] at hcall
  rcases hfind : (s.portals r).find addr with - | p <;> simp only [hfind] at hcall
  · obtain ⟨rfl, rfl⟩ := Prod.mk.inj (Except.ok.inj hcall)
    exact .inl ⟨rfl, rfl, rfl⟩
  have hframe : faultFrame fayt src s p (addr &&& ~~~0xfff)
      = some ((allocPage src s.machine).1, { s with machine := (allocPage src s.machine).2 }) :=
    if_neg (hanon p hfind)
  simp only [hframe] at hcall
  obtain ⟨⟨ptr, m⟩, hmap, hcall⟩ := Exec.bind_eq_ok.mp hcall
  rw [x86PagingInit_mapPage] at hmap
  obtain ⟨ds, hdata, htwo⟩ := allocPage_twice hM s.machine
  obtain ⟨ts, htables⟩ := mapPage_takes hM hmap
  have htakes : Takes Marked s.machine m ts ds := by
    simpa using hdata.trans htables
  refine .inr ⟨by simp, (allocPage src (allocPage src s.machine).2).1, ts, ds, ?_, htwo, ?_⟩
  · split_ifs at hcall <;> obtain ⟨-, rfl⟩ := Prod.mk.inj (Except.ok.inj hcall) <;> exact htakes
  · split_ifs at hcall with hpush <;> obtain ⟨rfl, rfl⟩ := Prod.mk.inj (Except.ok.inj hcall)
    · exact ⟨fun _ => ⟨rfl, rfl⟩, fun hc => absurd hpush hc⟩
    · exact ⟨fun hc => absurd hc hpush, fun _ => ⟨rfl, rfl⟩⟩

/-- **A fault takes one frame exactly if it takes and records nothing.** -/
theorem AnonCall.Valid.takesOne_iff (hM : src.Marks Marked) (h : c.Valid fayt src la57 root) :
    c.TakesOne Marked la57 root ↔ c.Idle fayt src := by
  rcases h.outcome hM with ⟨hfind, hret, hafter⟩ | ⟨hfind, f, ts, ds, htakes, htwo, hrecords⟩
  · -- no portal: -1 is returned at once
    refine iff_of_true ⟨fun hzero => ?_, fun _ => ?_⟩ (.inl hfind)
    · rw [hret] at hzero
      cases hzero
    · rw [AnonCall.data, hafter, (Takes.refl _).dataSince]
      simp
  have hdata : c.data Marked = {g | g ∈ ds} := htakes.dataSince
  by_cases halloc : src.alloc c.before.machine.pmm = none
  · obtain ⟨-, rfl⟩ := htwo.empty halloc
    by_cases hpush : fayt.pushPageFails (c.before.pages c.table) c.page = true
    · obtain ⟨hret, -⟩ := hrecords.failed hpush
      refine iff_of_true ⟨fun hzero => ?_, fun _ => ?_⟩ (.inr ⟨halloc, hpush⟩)
      · rw [hret] at hzero
        cases hzero
      · rw [hdata]
        simp
    · obtain ⟨hret, -⟩ := hrecords.pushed hpush
      refine iff_of_false (fun hone => ?_) (fun hidle => ?_)
      · obtain ⟨g, hg, -⟩ := hone.success hret
        have hmem : g ∈ c.data Marked := hg ▸ Set.mem_singleton g
        rw [hdata] at hmem
        cases hmem
      · exact hpush (hidle.resolve_left hfind).2
  · -- a frame is taken that is not recorded
    obtain ⟨-, g, hg, hne⟩ := htwo.lost halloc
    have hmem : g ∈ c.data Marked := by
      rw [hdata]
      exact hg
    refine iff_of_false (fun hone => ?_) (fun hidle => halloc (hidle.resolve_left hfind).1)
    by_cases hpush : fayt.pushPageFails (c.before.pages c.table) c.page = true
    · rw [hone.failure (hrecords.failed hpush).1] at hmem
      cases hmem
    · obtain ⟨hret, hpages⟩ := hrecords.pushed hpush
      obtain ⟨f', hf', -, hpage⟩ := hone.success hret
      rw [hpages, Function.update_self, List.cons.injEq] at hpage
      have hframe : f = f' := congrArg (fun page => page.frame.paddr) hpage.1
      rw [hf'] at hmem
      exact hne (hmem.trans hframe.symm)

end Outcome

/-! ### Runs of faults -/

/-- The frames of the pages that were recorded since `s`, with `refcnt` 1. -/
def PortalState.recordedSince (s s' : PortalState σ R) : Set Word :=
  {f | ∃ r, ∃ page ∈ (s'.pages r).take ((s'.pages r).length - (s.pages r).length),
    page.frame = ⟨f, 1⟩}

/-- A frame of `ds` is not recorded in `new`, or -1 is. -/
def Unbalanced (ds : List Word) (new : R → List Page) : Prop :=
  (∃ f ∈ ds, ∀ r, ∀ page ∈ new r, page.frame.paddr ≠ f) ∨
    ∃ r, ∃ page ∈ new r, page.frame.paddr = -1

/-- The account of faults from `s` to `s'`: the frames that they have taken, and the pages that
they have recorded. -/
structure Account (Marked : σ → Word → Prop) (s s' : PortalState σ R) (ts ds : List Word)
    (new : R → List Page) (idle : Prop) : Prop where
  takes : Takes Marked s.machine s'.machine ts ds
  pages : ∀ r, s'.pages r = new r ++ s.pages r
  records : ∀ r, ∀ page ∈ new r, page.frame.refcnt = 1 ∧
    (page.frame.paddr = -1 ∨ page.frame.paddr ∈ ds)
  balanced : idle → ds = [] ∧ ∀ r, new r = []
  unbalanced : ¬ idle → Unbalanced ds new

section Runs

variable {fayt : PortalLib} {src : FrameSource σ} {Marked : σ → Word → Prop} {la57 : Bool}
  {root : R → Word} {s s₁ s' : PortalState σ R} {ts ts' ds ds' : List Word}
  {new new' : R → List Page} {idle idle' : Prop}

theorem Account.refl (s : PortalState σ R) : Account Marked s s [] [] (fun _ => []) True where
  takes := .refl _
  pages _ := rfl
  records := by simp
  balanced _ := ⟨rfl, fun _ => rfl⟩
  unbalanced h := absurd trivial h

/-- What is lost in the first part is not recorded in the second, and what is lost in the
second was not recorded in the first. -/
theorem Account.trans (h : Account Marked s s₁ ts ds new idle)
    (h' : Account Marked s₁ s' ts' ds' new' idle') :
    Account Marked s s' (ts' ++ ts) (ds' ++ ds) (fun r => new' r ++ new r) (idle ∧ idle') := by
  have hframe : ∀ g ∈ ds, IsFrame .small g :=
    fun g hg => h.takes.frame g (List.mem_append_left _ hg)
  have hframe' : ∀ g ∈ ds', IsFrame .small g :=
    fun g hg => h'.takes.frame g (List.mem_append_left _ hg)
  have hapart : ∀ g ∈ ds, g ∉ ds' := by
    intro g hg hg'
    refine h'.takes.fresh g (List.mem_append_left _ hg') ?_
    exact (h.takes.marked g (hframe g hg)).mpr (.inr (List.mem_append_left _ hg))
  refine ⟨h.takes.trans h'.takes, fun r => ?_, fun r page hpage => ?_, fun hidle => ?_,
    fun hbusy => ?_⟩
  · rw [h'.pages, h.pages, List.append_assoc]
  · rcases List.mem_append.mp hpage with hp | hp
    · obtain ⟨hcnt, hpaddr⟩ := h'.records r page hp
      exact ⟨hcnt, hpaddr.imp_right (List.mem_append_left _)⟩
    · obtain ⟨hcnt, hpaddr⟩ := h.records r page hp
      exact ⟨hcnt, hpaddr.imp_right (List.mem_append_right _)⟩
  · obtain ⟨rfl, hnew⟩ := h.balanced hidle.1
    obtain ⟨rfl, hnew'⟩ := h'.balanced hidle.2
    exact ⟨rfl, fun r => by rw [hnew, hnew', List.append_nil]⟩
  · by_cases hidle : idle
    · rcases h'.unbalanced fun hc => hbusy ⟨hidle, hc⟩ with ⟨f, hf, hlost⟩ | ⟨r, page, hp, hones⟩
      · refine .inl ⟨f, List.mem_append_left _ hf, fun r page hpage => ?_⟩
        rcases List.mem_append.mp hpage with hp | hp
        · exact hlost r page hp
        · rintro rfl
          rcases (h.records r page hp).2 with hones | hmem
          · exact (hframe' _ hf).ne_ones hones
          · exact hapart _ hmem hf
      · exact .inr ⟨r, page, List.mem_append_left _ hp, hones⟩
    · rcases h.unbalanced hidle with ⟨f, hf, hlost⟩ | ⟨r, page, hp, hones⟩
      · refine .inl ⟨f, List.mem_append_right _ hf, fun r page hpage => ?_⟩
        rcases List.mem_append.mp hpage with hp | hp
        · rintro rfl
          rcases (h'.records r page hp).2 with hones | hmem
          · exact (hframe _ hf).ne_ones hones
          · exact hapart _ hf hmem
        · exact hlost r page hp
      · exact .inr ⟨r, page, List.mem_append_right _ hp, hones⟩

theorem Account.recordedSince (h : Account Marked s s' ts ds new idle) :
    s.recordedSince s' = {f | ∃ r, ∃ page ∈ new r, page.frame = ⟨f, 1⟩} := by
  have hnew : ∀ r, (s'.pages r).take ((s'.pages r).length - (s.pages r).length) = new r := by
    intro r
    rw [h.pages, List.length_append, Nat.add_sub_cancel, List.take_left]
  simp only [PortalState.recordedSince, hnew]

/-- **The data frames are those recorded exactly if there are none.** -/
theorem Account.conserves_iff (h : Account Marked s s' ts ds new idle) :
    s.machine.dataSince Marked s'.machine = s.recordedSince s' ↔ idle := by
  rw [h.takes.dataSince, h.recordedSince]
  constructor
  · intro heq
    by_contra hbusy
    rcases h.unbalanced hbusy with ⟨f, hf, hlost⟩ | ⟨r, page, hpage, hones⟩
    · obtain ⟨r, page, hpage, hframe⟩ := heq.subset hf
      exact hlost r page hpage (congrArg PageFrame.paddr hframe)
    · have hrecord : page.frame = ⟨-1, 1⟩ := by
        rw [← hones, ← (h.records r page hpage).1]
      have hmem : (-1 : Word) ∈ ds := heq.symm.subset ⟨r, page, hpage, hrecord⟩
      exact (h.takes.frame _ (List.mem_append_left _ hmem)).ne_ones rfl
  · intro hidle
    obtain ⟨rfl, hnew⟩ := h.balanced hidle
    ext f
    refine iff_of_false List.not_mem_nil ?_
    rintro ⟨r, page, hpage, -⟩
    rw [hnew r] at hpage
    cases hpage

variable [DecidableEq R] {c : AnonCall σ R}

theorem mem_update_singleton {r r' : R} {page page' : Page} :
    page' ∈ Function.update (fun _ => []) r [page] r' ↔ r' = r ∧ page' = page := by
  rcases eq_or_ne r' r with rfl | hne
  · simp
  · simp [hne]

/-- The account of one fault. -/
theorem AnonCall.Valid.account (hM : src.Marks Marked) (h : c.Valid fayt src la57 root) :
    ∃ ts ds new, Account Marked c.before c.after ts ds new (c.Idle fayt src) := by
  rcases h.outcome hM with ⟨hfind, -, hafter⟩ | ⟨hfind, f, ts, ds, htakes, htwo, hrecords⟩
  · refine ⟨[], [], fun _ => [], hafter ▸ .refl _, fun r => by rw [hafter]; rfl, by simp,
      fun _ => ⟨rfl, fun _ => rfl⟩, fun hc => absurd (.inl hfind) hc⟩
  by_cases hpush : fayt.pushPageFails (c.before.pages c.table) c.page = true
  · refine ⟨ts, ds, fun _ => [], htakes, fun r => ?_, by simp, fun hidle => ?_, fun hbusy => ?_⟩
    · rw [(hrecords.failed hpush).2]
      rfl
    · exact ⟨(htwo.empty (hidle.resolve_left hfind).1).2, fun _ => rfl⟩
    · obtain ⟨-, g, hg, -⟩ := htwo.lost fun hc => hbusy (.inr ⟨hc, hpush⟩)
      exact .inl ⟨g, hg, by simp⟩
  · refine ⟨ts, ds, Function.update (fun _ => []) c.table [⟨c.page, ⟨f, 1⟩⟩], htakes, fun r => ?_,
      fun r page hpage => ?_, fun hidle => ?_, fun _ => ?_⟩
    · rw [(hrecords.pushed hpush).2]
      rcases eq_or_ne r c.table with rfl | hne
      · simp
      · simp [hne]
    · obtain ⟨-, rfl⟩ := mem_update_singleton.mp hpage
      by_cases halloc : src.alloc c.before.machine.pmm = none
      · exact ⟨rfl, .inl (htwo.empty halloc).1⟩
      · exact ⟨rfl, (htwo.lost halloc).1⟩
    · exact absurd (hidle.resolve_left hfind).2 hpush
    · by_cases halloc : src.alloc c.before.machine.pmm = none
      · exact .inr ⟨c.table, _, mem_update_singleton.mpr ⟨rfl, rfl⟩, (htwo.empty halloc).1⟩
      · obtain ⟨-, g, hg, hne⟩ := htwo.lost halloc
        refine .inl ⟨g, hg, fun r page hpage => ?_⟩
        obtain ⟨-, rfl⟩ := mem_update_singleton.mp hpage
        exact hne.symm

/-- A run of faults from `s₀`, the last one first. -/
inductive AnonRun (fayt : PortalLib) (src : FrameSource σ) (la57 : Bool) (root : R → Word)
    (s₀ : PortalState σ R) : List (AnonCall σ R) → PortalState σ R → Prop
  | nil : AnonRun fayt src la57 root s₀ [] s₀
  | cons {calls : List (AnonCall σ R)} (c : AnonCall σ R) :
      AnonRun fayt src la57 root s₀ calls c.before → c.Valid fayt src la57 root →
      AnonRun fayt src la57 root s₀ (c :: calls) c.after

/-- The account of a run is that of its faults. -/
theorem AnonRun.account (hM : src.Marks Marked) {s₀ : PortalState σ R}
    {calls : List (AnonCall σ R)} (h : AnonRun fayt src la57 root s₀ calls s) :
    ∃ ts ds new, Account Marked s₀ s ts ds new (∀ c ∈ calls, c.Idle fayt src) := by
  induction h with
  | nil =>
      refine ⟨[], [], fun _ => [], ?_⟩
      convert Account.refl s₀
      simp
  | cons c _ hvalid ih =>
      obtain ⟨ts, ds, new, hrun⟩ := ih
      obtain ⟨ts', ds', new', hcall⟩ := hvalid.account hM
      refine ⟨ts' ++ ts, ds' ++ ds, fun r => new' r ++ new r, ?_⟩
      convert hrun.trans hcall using 1
      rw [List.forall_mem_cons, and_comm]

theorem AnonRun.valid {s₀ : PortalState σ R} {calls : List (AnonCall σ R)}
    (h : AnonRun fayt src la57 root s₀ calls s) : ∀ c ∈ calls, c.Valid fayt src la57 root := by
  induction h with
  | nil => simp
  | cons c _ hvalid ih => exact List.forall_mem_cons.mpr ⟨hvalid, ih⟩

end Runs

/-! ### The marks of the physical memory manager -/

namespace PmmState

variable {s : PmmState} {k : ℕ}

theorem Took.marked_iff {s' : PmmState} {a : ℕ} (h : s.Took a s') (hinv : s.Inv) :
    s'.Marked k ↔ s.Marked k ∨ k = a / pageSize := by
  have hpage : (⟨a / pageSize, 1⟩ : Block).Has k ↔ k = a / pageSize := by
    simp only [Block.Has]
    omega
  rw [h.physical.inv.marked_iff, hinv.marked_iff, h.live, List.exists_mem_cons_iff, hpage, or_comm]

end PmmState

/-- The frame is marked as allocated in the bitmap of its module. -/
def FrameMarked (s : PhysicalPmm) (f : Word) : Prop := s.1.Marked (f.toNat / pageSize)

/-- **`pmm_alloc(1, 1)` marks the frame that it returns**, and no other. -/
theorem pmmFrames_marks (fayt : Fayt) : (pmmFrames fayt).Marks FrameMarked where
  alloc_iff := by
    intro s f s' h g hg
    obtain ⟨a, rfl, htook⟩ := pmmAllocFrame_spec h
    rw [FrameMarked, htook.marked_iff s.2.inv, ← IsFrame.div_inj hg htook.isFrame, htook.toNat]
    rfl
  alloc_unmarked := by
    intro s f s' h hmarked
    obtain ⟨a, rfl, htook⟩ := pmmAllocFrame_spec h
    rw [FrameMarked, htook.toNat, s.2.inv.marked_iff] at hmarked
    obtain ⟨b, hb, hhas⟩ := hmarked
    exact htook.free b hb hhas

/-- **Page faults and their frames.**  In every run of faults on portals that are not shared,
a call takes the one frame that it maps and records (or none, if it fails) exactly if it takes
and records nothing; and the data frames that the run has taken are those that it has recorded
exactly if this is so for all its calls. -/
theorem anon_faults_conserve_iff [DecidableEq R] {lib : PortalLib} {fayt : Fayt} {la57 : Bool}
    {root : R → Word} {s₀ s : PortalState PhysicalPmm R} {calls : List (AnonCall PhysicalPmm R)}
    (h : AnonRun lib (pmmFrames fayt) la57 root s₀ calls s) :
    (∀ c ∈ calls, c.TakesOne FrameMarked la57 root ↔ c.Idle lib (pmmFrames fayt)) ∧
      (s₀.machine.dataSince FrameMarked s.machine = s₀.recordedSince s ↔
        ∀ c ∈ calls, c.Idle lib (pmmFrames fayt)) := by
  refine ⟨fun c hc => (h.valid c hc).takesOne_iff (pmmFrames_marks fayt), ?_⟩
  obtain ⟨ts, ds, new, haccount⟩ := h.account (pmmFrames_marks fayt)
  exact haccount.conserves_iff

/-! ### One fault -/

/-- A context with a portal of one page at 4 MiB. -/
def onePortal : PortalState PhysicalPmm Unit where
  machine := fewPages 16 (Nat.le_refl 16)
  portals _ := .node (anonReq 0x400000 portalProtWrite).opened .nil .nil
  pages _ := []
  shareMap _ := none

/-- A fault outside the portal takes nothing. -/
theorem anon_faults_conserve_outside :
    ∃ c : AnonCall PhysicalPmm Unit, c.before = onePortal ∧ c.addr = 0x500000 ∧
      AnonRun portalLib (pmmFrames .textbook) false (single 0x1000) onePortal [c] c.after ∧
      c.TakesOne FrameMarked false (single 0x1000) ∧
      onePortal.machine.dataSince FrameMarked c.after.machine
        = onePortal.recordedSince c.after := by
  let c : AnonCall PhysicalPmm Unit := ⟨onePortal, (), 0x500000, -1, onePortal⟩
  have hfind : (onePortal.portals ()).find 0x500000 = none := by decide
  have hvalid : c.Valid portalLib (pmmFrames .textbook) false (single 0x1000) := by
    refine ⟨fun p hp => ?_, ?_⟩
    · cases hfind.symm.trans hp
    · show portalFaultAnon _ _ _ _ onePortal () 0x500000 = _
      rw [portalFaultAnon, hfind]
  have hrun := AnonRun.cons c (.nil : AnonRun portalLib (pmmFrames .textbook) false (single 0x1000)
    onePortal [] onePortal) hvalid
  obtain ⟨hcall, hall⟩ := anon_faults_conserve_iff hrun
  refine ⟨c, rfl, rfl, hrun, (hcall c List.mem_cons_self).mpr (.inl hfind), hall.mpr ?_⟩
  intro c' hc'
  obtain rfl := List.mem_singleton.mp hc'
  exact .inl hfind

/-- **A fault that loses a frame.**  It returns 0 and has mapped and recorded the frame at
0x401000.  The frame at 0x400000 was marked for it as well, is no table, and is not recorded. -/
theorem anon_fault_loses_frame :
    ∃ c : AnonCall PhysicalPmm Unit, c.before = onePortal ∧ c.addr = 0x400123 ∧
      AnonRun portalLib (pmmFrames .textbook) false (single 0x1000) onePortal [c] c.after ∧
      c.ret = 0 ∧ (c.after.pages ()).map (fun page => page.frame.paddr) = [0x401000] ∧
      (0x400000 : Word) ∈ c.data FrameMarked ∧ (0x401000 : Word) ∈ c.data FrameMarked ∧
      ¬ c.TakesOne FrameMarked false (single 0x1000) ∧
      onePortal.machine.dataSince FrameMarked c.after.machine
        ≠ onePortal.recordedSince c.after := by
  have heval : (do
      let (ret, s) ← portalFaultAnon portalLib (pmmFrames .textbook) false (single 0x1000) onePortal
        () 0x400123
      .ok (ret, (s.pages ()).map (fun page => page.frame.paddr), s.machine.tables,
        decide (s.machine.pmm.1.Marked 0x400), decide (s.machine.pmm.1.Marked 0x401)) : Exec _)
      = .ok (0, [0x401000], [0x404000, 0x403000, 0x402000], true, true) := by
    decide +kernel
  obtain ⟨⟨ret, s⟩, hcall, heval⟩ := Exec.bind_eq_ok.mp heval
  simp only [Except.ok.injEq, Prod.mk.injEq, decide_eq_true_eq] at heval
  obtain ⟨rfl, hpages, htables, hfirst, hsecond⟩ := heval
  let c : AnonCall PhysicalPmm Unit := ⟨onePortal, (), 0x400123, 0, s⟩
  have hvalid : c.Valid portalLib (pmmFrames .textbook) false (single 0x1000) := by
    refine ⟨fun p hp => ?_, hcall⟩
    obtain rfl := Option.some.inj (hp.symm.trans (show (onePortal.portals ()).find 0x400123
      = some (anonReq 0x400000 portalProtWrite).opened by decide))
    decide
  have hdata : ∀ f : Word, IsFrame .small f → s.machine.pmm.1.Marked (f.toNat / pageSize) →
      ¬ onePortal.machine.pmm.1.Marked (f.toNat / pageSize) →
      f ∉ [0x404000, 0x403000, 0x402000] → f ∈ c.data FrameMarked := by
    intro f hf hmark hnot htable
    refine ⟨hf, hmark, hnot, ?_⟩
    show f ∉ onePortal.machine.tablesSince s.machine
    rw [Machine.tablesSince, htables]
    exact htable
  have hbusy : ¬ c.Idle portalLib (pmmFrames .textbook) := by
    rintro (hc | ⟨-, hc⟩)
    · exact absurd hc (show ¬ (onePortal.portals ()).find 0x400123 = none by decide)
    · cases hc
  refine ⟨c, rfl, rfl, .cons c .nil hvalid, rfl, hpages, ?_, ?_, ?_, ?_⟩
  · exact hdata _ (by decide) hfirst (by decide +kernel) (by decide)
  · exact hdata _ (by decide) hsecond (by decide +kernel) (by decide)
  · rwa [hvalid.takesOne_iff (pmmFrames_marks .textbook)]
  · obtain ⟨ts, ds, new, haccount⟩ := hvalid.account (pmmFrames_marks .textbook)
    exact fun heq => hbusy (haccount.conserves_iff.mp heq)

end Rock
