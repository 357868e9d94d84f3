/-
Rock/OpenTables.lean

What user code may do with the pages of `vmm_default_table` (kernel/core/virtual.c).

The table of every context starts with the kernel image and the direct map of physical memory,
both with `US` and `RW` and without `NX`.  `map_page` links its tables with the flags of the
page, so the entries above have the same flags, and an access of any kind goes through at every
address that is translated (`default_table_open`).  In particular user code reads and writes
all of physical memory at `HIGH_VMA`, the page tables included.
-/
import Rock.Access
import Rock.DirectMap

namespace Rock

open TableTree

variable {σ : Type}

/-! ### Entries that permit every access -/

/-- The entry permits every access. -/
def PermitsAll (e : Word) : Prop := ∀ a : Access, a.AllowedBy e

theorem permitsAll_iff {e : Word} :
    PermitsAll e ↔ has e flagRW ∧ has e flagUS ∧ ¬ has e flagNX := by
  constructor
  · intro h
    obtain ⟨hw, hu, hx⟩ := h ⟨true, true, true⟩
    exact ⟨hw rfl, hu rfl, hx rfl⟩
  · rintro ⟨hw, hu, hx⟩ a
    exact ⟨fun _ => hw, fun _ => hu, fun _ => hx⟩

/-- An address below the middle of the address space does not set `NX`. -/
theorem not_has_NX {x : Word} (h : x.toNat < 2 ^ 63) : ¬ has x flagNX := by
  refine not_not.mpr (BitVec.eq_of_getLsbD_eq fun i hi => ?_)
  rw [BitVec.getLsbD_and]
  rcases Nat.lt_or_ge i 63 with hlt | hge
  · have hmask : flagNX.getLsbD i = false := by
      rw [show flagNX = BitVec.twoPow 64 63 by decide, BitVec.getLsbD_twoPow]
      simp
      omega
    rw [hmask, Bool.and_false, BitVec.getLsbD_zero]
  · obtain rfl : i = 63 := by omega
    rw [BitVec.getLsbD, Nat.testBit_lt_two_pow h, Bool.false_and, BitVec.getLsbD_zero]

theorem PermitsAll.leaf {paddr flags : Word} (h : PermitsAll flags) (hp : ¬ has paddr flagNX) :
    PermitsAll (paddr ||| flags) := by
  obtain ⟨hw, hu, hx⟩ := permitsAll_iff.mp h
  refine permitsAll_iff.mpr ⟨has_or_right hw, has_or_right hu, ?_⟩
  unfold has at hp hx ⊢
  rw [or_and, not_not.mp hp, not_not.mp hx]
  simp

theorem PermitsAll.linkEntry {extra flags f : Word} (h : PermitsAll flags)
    (hextra : extra &&& flagRW = extra) (hf : IsFrame .small f) :
    PermitsAll (Forest.linkEntry extra flags f) := by
  intro a
  rw [Forest.linkEntry, BitVec.or_assoc, Access.allowedBy_frame_or hf]
  exact (h a).link hextra

/-! ### Tables of such entries -/

/-- A page table in which every present entry permits every access. -/
structure OpenTable (src : FrameSource σ) (la57 : Bool) (pmlt : Word) (m : Machine σ) : Prop where
  forest : Forest src (single pmlt) (upperLevels la57 + 1) m
  entries : ∀ {q j e}, q.length ≤ upperLevels la57 + 1 →
    presentAt m.mem pmlt q j = some e → PermitsAll e

section OpenTable

variable {src : FrameSource σ} {la57 : Bool} {pmlt : Word} {m m' : Machine σ}

/-- Nothing is below a large page. -/
theorem presentAt_below {mem : Mem} {t e : Word} {p q : List (BitVec 9)} {i j : BitVec 9}
    (hleaf : presentAt mem t p i = some e) (hPS : has e flagPS) (hq : p ++ [i] <+: q) :
    presentAt mem t q j = none := by
  obtain ⟨rest, rfl⟩ := hq
  refine presentAt_none ?_
  rw [List.append_assoc, tableAt_append]
  unfold presentAt at hleaf
  obtain ⟨u, hu, hleaf⟩ := Option.bind_eq_some_iff.mp hleaf
  split_ifs at hleaf
  obtain rfl := Option.some.inj hleaf
  rw [hu, Option.bind_some, List.singleton_append, tableAt, subtable_of_PS hPS, Option.bind_none]

/-- **`map_page` with open flags** keeps a table open. -/
theorem OpenTable.mapPage {v paddr flags : Word} {ptr : Option Ptr}
    (h : OpenTable src la57 pmlt m) (hflags : PresentFlags flags) (hall : PermitsAll flags)
    (hp : ¬ has paddr flagNX) (hun : Unobstructed m.mem (pagingLevels la57) pmlt v flags)
    (hmap : (x86PagingInit src la57).mapPage m pmlt v paddr flags = .ok (ptr, m')) :
    OpenTable src la57 pmlt m' := by
  refine ⟨(h.forest.mapPage_decodes hflags hun hmap).1, fun {q j e} hq he => ?_⟩
  rw [x86PagingInit_mapPage] at hmap
  have hopen := h.forest.unobstructed_iff.mp hun
  obtain ⟨hframe, hpath, hleaf⟩ := h.forest.mapPage_entries (r := ()) (by simp) hflags
    (linkExtra_within la57) hopen hmap
  by_cases hon : q ++ [j] <+: aboveLeaf flags (upperIndices v (upperLevels la57)) (index 1 v)
      ++ [leafIndex flags (index 1 v) (index 0 v)]
  · -- on the way to the page, or the page itself
    rcases List.prefix_concat_iff.mp hon with heq | hpre
    · obtain ⟨rfl, hj⟩ := List.append_inj' heq rfl
      obtain rfl := List.singleton_inj.mp hj
      obtain rfl := Option.some.inj (hleaf.symm.trans he)
      exact hall.leaf hp
    · obtain ⟨e', he', hkept⟩ := hpath q j hpre
      obtain rfl := Option.some.inj (he'.symm.trans he)
      rcases hkept with hold | ⟨-, -, f, hf, rfl⟩
      · exact h.entries hq hold
      · exact hall.linkEntry (linkExtra_within la57) hf
  · by_cases hbelow : aboveLeaf flags (upperIndices v (upperLevels la57)) (index 1 v)
        ++ [leafIndex flags (index 1 v) (index 0 v)] <+: q
    · by_cases hPS : has flags flagPS
      · cases (presentAt_below hleaf (has_or_right hPS) hbelow).symm.trans he
      · have hlen := hbelow.length_le
        simp [aboveLeaf, hPS] at hlen
        omega
    · have hsame := hframe () q j hq fun hc => hc.2.elim hon hbelow
      exact h.entries hq (hsame.symm.trans he)

/-- The calls of a loop, for large pages or where there are small pages only. -/
theorem OpenTable.mapConsecutive {flags step vaddr paddr : Word} {n : ℕ}
    (h : OpenTable src la57 pmlt m) (hflags : PresentFlags flags) (hall : PermitsAll flags)
    (hsize : has flags flagPS ∨ AllSmall la57 pmlt m)
    (hp : ∀ k < n, ¬ has (paddr + BitVec.ofNat 64 k * step) flagNX)
    (hrun : mapConsecutive src la57 pmlt flags step n vaddr paddr m = .ok m') :
    OpenTable src la57 pmlt m' := by
  induction n generalizing vaddr paddr m with
  | zero =>
    obtain rfl := Except.ok.inj hrun
    exact h
  | succ n ih =>
    obtain ⟨⟨ptr, m₁⟩, hmap, hrest⟩ := Exec.bind_eq_ok.mp hrun
    have hun : Unobstructed m.mem (pagingLevels la57) pmlt vaddr flags := by
      intro hPS tr htr
      rw [hsize.resolve_left hPS _ _ htr]
      exact PageSize.noConfusion
    have hfirst : ¬ has paddr flagNX := by simpa using hp 0 n.succ_pos
    refine ih (h.mapPage hflags hall hfirst hun hmap) ?_ (fun k hk => ?_) hrest
    · rcases hsize with hPS | hsmall
      · exact .inl hPS
      · by_cases hPS : has flags flagPS
        · exact .inl hPS
        refine .inr fun v tr htr => ?_
        rw [(h.forest.mapPage_decodes hflags hun hmap).2] at htr
        split_ifs at htr
        · obtain rfl := Option.some.inj htr
          exact if_neg hPS
        · exact hsmall v tr htr
    · have hnext : paddr + step + BitVec.ofNat 64 k * step
          = paddr + BitVec.ofNat 64 (k + 1) * step := by
        rw [BitVec.ofNat_add, BitVec.add_mul]
        simp [BitVec.add_assoc, BitVec.add_comm step]
      rw [hnext]
      exact hp (k + 1) (by omega)

/-- In an open table a walk that ends was permitted on the way. -/
theorem OpenTable.permits_from (h : OpenTable src la57 pmlt m) {v t : Word} {a : Access} {k : ℕ}
    {p : List (BitVec 9)} (ht : tableAt subtable m.mem pmlt p = some t)
    (hlen : p.length + k = upperLevels la57 + 2) (hwalk : (hwWalk m.mem v k t).isSome) :
    hwPermits m.mem v a k t := by
  induction k generalizing p t with
  | zero => cases hwalk
  | succ k ih =>
    rw [hwWalk] at hwalk
    by_cases hP : has (m.mem t (index k v)) flagP
    · rw [if_neg (not_not_intro hP)] at hwalk
      refine ⟨hP, h.entries (by omega) (presentAt_some ht hP) a, ?_⟩
      rcases Nat.eq_zero_or_pos k with rfl | hk
      · exact trivial
      rw [if_neg hk.ne'] at hwalk ⊢
      split_ifs at hwalk ⊢ with hPS h₁ h₂
      · exact .inl h₁
      · exact .inr h₂
      · cases hwalk
      · have ht' : tableAt subtable m.mem pmlt (p ++ [index k v])
            = some (tableOf (m.mem t (index k v))) := by
          rw [tableAt_snoc, ht]
          exact subtable_eq_some.mpr ⟨hP, hPS, rfl⟩
        have hframe := frame_of_tableOf (h.forest.known (r := ()) (by simp; omega) ht').frame
        rw [hframe] at hwalk ⊢
        exact ih ht' (by simp; omega) hwalk
    · rw [if_pos hP] at hwalk
      cases hwalk

/-- **Every address that an open table translates** may be read, written and executed, by user
code too. -/
theorem OpenTable.permits (h : OpenTable src la57 pmlt m) {v : Word} {tr : Translation}
    (htr : translate m.mem (pagingLevels la57) pmlt v = some tr) (a : Access) :
    hwPermits m.mem v a (pagingLevels la57) pmlt := by
  obtain ⟨leaf, hleaf, -⟩ := Option.map_eq_some_iff.mp htr
  exact h.permits_from (p := []) rfl (by simp [pagingLevels]) (by rw [hleaf]; rfl)

end OpenTable

/-! ### The default table -/

section DefaultTable

variable {fayt : Fayt} {src : FrameSource σ} {la57 : Bool} {pmlt kernelVaddr kernelPaddr : Word}
  {m m' : Machine σ} {mmap : List MemmapEntry}

theorem Machine.Blank.openTable (h : m.Blank src pmlt) : OpenTable src la57 pmlt m := by
  refine ⟨h.forest _, fun {q j e} _ he => ?_⟩
  rw [presentAt_empty h.empty] at he
  cases he

theorem OpenTable.mapDirectPages {n phys : ℕ} (h : OpenTable src la57 pmlt m)
    (htop : phys + n * largePage ≤ directTop)
    (hrun : mapDirectPages src la57 pmlt n (BitVec.ofNat 64 phys) m = .ok m') :
    OpenTable src la57 pmlt m' := by
  refine h.mapConsecutive ⟨by decide, by decide⟩ (permitsAll_iff.mpr (by decide))
    (.inl (by decide)) (fun k hk => not_has_NX ?_) hrun
  have hmul : (k + 1) * largePage ≤ n * largePage := Nat.mul_le_mul_right _ hk
  simp only [largePage, directTop] at hmul htop
  have hstep : (0x200000 : Word).toNat = 0x200000 := rfl
  rw [BitVec.toNat_add, BitVec.toNat_mul, BitVec.toNat_ofNat, BitVec.toNat_ofNat, hstep]
  omega

theorem OpenTable.mapEntries {es : List MemmapEntry} (h : OpenTable src la57 pmlt m)
    (htop : ∀ e ∈ es, e.base + e.length ≤ directTop)
    (hrun : mapEntries fayt src la57 pmlt es m = .ok m') : OpenTable src la57 pmlt m' := by
  induction es generalizing m with
  | nil =>
    obtain rfl := Except.ok.inj hrun
    exact h
  | cons e es ih =>
    rw [List.forall_mem_cons] at htop
    obtain ⟨m₁, hpages, hrest⟩ := Exec.bind_eq_ok.mp hrun
    exact ih (h.mapDirectPages (largePages_le htop.1) hpages) htop.2 hrest

theorem vmmDefaultTable_open (hwrites : m.writes = [])
    (himage : ImagePlaced kernelVaddr kernelPaddr)
    (hlow : highVma.toNat + 0x800 * largePage ≤ kernelVaddr.toNat)
    (hentries : ∀ e ∈ mmap, highVma.toNat + (e.base + e.length) ≤ kernelVaddr.toNat)
    (h : vmmDefaultTable fayt src la57 m kernelVaddr kernelPaddr mmap = .ok (pmlt, m')) :
    OpenTable src la57 pmlt m' := by
  have hhigh : highVma.toNat = 0xffff800000000000 := rfl
  have hktop := himage.vtop
  have htop : ∀ a, highVma.toNat + a ≤ kernelVaddr.toNat → a ≤ directTop := by
    intro a ha
    rw [directTop]
    omega
  unfold vmmDefaultTable at h
  rcases ha : src.alloc m.pmm with - | ⟨t, s⟩ <;> simp only [ha] at h
  · cases h
  obtain ⟨m₁, h₁, h⟩ := Exec.bind_eq_ok.mp h
  obtain ⟨m₂, h₂, h⟩ := Exec.bind_eq_ok.mp h
  obtain ⟨m₃, h₃, h⟩ := Exec.bind_eq_ok.mp h
  obtain ⟨rfl, rfl⟩ := Prod.mk.inj (Except.ok.inj h)
  have hblank : (m.grant t s).Blank src t :=
    ⟨Function.update_self .., src.alloc_frame ha, src.alloc_live ha, hwrites⟩
  have hsmall : AllSmall la57 t (m.grant t s) := by
    intro v tr htr
    have heq : translate (m.grant t s).mem (pagingLevels la57) t v = _ :=
      (hblank.forest (upperLevels la57 + 1)).translate_eq (r := ())
    rw [slotOf_empty (t := single t ()) hblank.empty (by cases la57 <;> decide)] at heq
    cases heq.symm.trans htr
  -- the image first, while there are small pages only
  have hopen₁ : OpenTable src la57 t m₁ := by
    refine hblank.openTable.mapConsecutive ⟨by decide, by decide⟩ (permitsAll_iff.mpr (by decide))
      (.inr hsmall) (fun k hk => not_has_NX ?_) h₁
    have hptop := himage.ptop
    simp only [imagePages, pageSize, physTop] at hk hptop
    have hstep : (0x1000 : Word).toNat = 0x1000 := rfl
    rw [BitVec.toNat_add, BitVec.toNat_mul, BitVec.toNat_ofNat, hstep]
    omega
  have hopen₂ : OpenTable src la57 t m₂ :=
    hopen₁.mapDirectPages (by rw [Nat.zero_add]; exact htop _ hlow) h₂
  exact hopen₂.mapEntries (fun e he => htop _ (hentries e he)) h₃

/-- **The default table is open to user code**: every address it translates may be read, written
and executed by any code, in particular all physical memory of the direct map. -/
theorem default_table_open (hwrites : m.writes = [])
    (himage : ImagePlaced kernelVaddr kernelPaddr)
    (hlow : highVma.toNat + 0x800 * largePage ≤ kernelVaddr.toNat)
    (hentries : ∀ e ∈ mmap, highVma.toNat + (e.base + e.length) ≤ kernelVaddr.toNat)
    (h : vmmDefaultTable fayt src la57 m kernelVaddr kernelPaddr mmap = .ok (pmlt, m')) :
    (∀ v tr a, translate m'.mem (pagingLevels la57) pmlt v = some tr →
      hwPermits m'.mem v a (pagingLevels la57) pmlt) ∧
    ∀ phys a, highVma.toNat + phys < kernelVaddr.toNat → DirectRange fayt mmap phys →
      translate m'.mem (pagingLevels la57) pmlt (directAddr phys) = some (directTranslation phys) ∧
        hwPermits m'.mem (directAddr phys) a (pagingLevels la57) pmlt := by
  have hopen := vmmDefaultTable_open hwrites himage hlow hentries h
  refine ⟨fun v tr a htr => hopen.permits htr a, fun phys a hphys hrange => ?_⟩
  have htr := vmmDefaultTable_translate hwrites himage hlow hentries h hphys
  rw [if_pos hrange] at htr
  exact ⟨htr, hopen.permits htr a⟩

end DefaultTable

/-- A user program may write to the first byte of physical memory. -/
theorem default_table_open_cold :
    ∃ pmlt m', vmmDefaultTable .textbook (.spaced .small) false coldMachine
        0xffffffff80000000 0x10000000 [] = .ok (pmlt, m') ∧
      translate m'.mem 4 pmlt (directAddr 0) = some (directTranslation 0) ∧
      hwPermits m'.mem (directAddr 0) ⟨true, true, false⟩ 4 pmlt := by
  have hreturns : ∃ pmlt m', vmmDefaultTable .textbook (.spaced .small) false coldMachine
      0xffffffff80000000 0x10000000 [] = .ok (pmlt, m') :=
    vmmDefaultTable_returns (FrameSource.spaced_supplies .small (by decide +kernel))
  obtain ⟨pmlt, m', h⟩ := hreturns
  refine ⟨pmlt, m', h, ?_⟩
  exact (default_table_open rfl imagePlaced_boot (by decide) (by simp) h).2 0 _ (by decide)
    (.inl (by decide))

end Rock
