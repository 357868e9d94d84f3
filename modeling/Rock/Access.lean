/-
Rock/Access.lean

Which accesses a page table permits.

A translation says where a page is; whether an access to it goes through also
depends on the entries above the page, since the processor takes the flags of
every entry of the walk together.  `hwPermits` is the processor's walk with these
checks, written from the architecture.  Supervisor writes obey `RW`, as they do
with `CR0.WP` set, which is how the boot loader leaves it; SMEP and SMAP are not
enabled by this kernel.

`map_page` keeps the entries that are present on its way and links the missing
tables with the flags of the page (`Forest.mapPage_entries`).  So what it permits
depends on the entries that were there and on the flags it was given
(`Forest.permits_mapped`).
-/
import Rock.PageMap

namespace Rock

open TableTree

/-! ### Accesses -/

/-- An access, as the error code of a page fault describes it. -/
structure Access where
  write : Bool
  user : Bool
  fetch : Bool
  deriving DecidableEq, Repr

/-- The bits `W/R`, `U/S` and `I/D` of an error code. -/
def Access.ofCode (code : Word) : Access where
  write := has code (1 <<< 1)
  user := has code (1 <<< 2)
  fetch := has code (1 <<< 4)

/-- The flags of the entry `e` permit the access. -/
def Access.AllowedBy (a : Access) (e : Word) : Prop :=
  (a.write = true → has e flagRW) ∧ (a.user = true → has e flagUS) ∧
    (a.fetch = true → ¬ has e flagNX)

instance (a : Access) (e : Word) : Decidable (a.AllowedBy e) :=
  inferInstanceAs (Decidable (_ ∧ _ ∧ _))

/-- The address of a frame has no flags. -/
theorem has_frame_or {f x b : Word} (hf : IsFrame .small f)
    (hb : PageSize.small.frameMask &&& b = 0#64) : has (f ||| x) b ↔ has x b := by
  unfold has
  rw [or_and, and_eq_zero_of_within hf hb, BitVec.zero_or]

theorem Access.allowedBy_frame_or {a : Access} {f x : Word} (hf : IsFrame .small f) :
    a.AllowedBy (f ||| x) ↔ a.AllowedBy x := by
  unfold Access.AllowedBy
  rw [has_frame_or hf (by decide), has_frame_or hf (by decide), has_frame_or hf (by decide)]

/-- A new link never has `NX`. -/
theorem not_has_link_NX {flags extra : Word} (hextra : extra &&& flagRW = extra) :
    ¬ has (flags &&& tableFlagsMask ||| extra) flagNX := by
  unfold has
  rw [or_and, BitVec.and_assoc, show tableFlagsMask &&& flagNX = 0#64 by decide,
    and_eq_zero_of_within hextra (by decide)]
  simp

/-- A new link permits what the page does. -/
theorem Access.AllowedBy.link {a : Access} {flags extra : Word} (h : a.AllowedBy flags)
    (hextra : extra &&& flagRW = extra) : a.AllowedBy (flags &&& tableFlagsMask ||| extra) := by
  have hkeep : ∀ {b : Word}, tableFlagsMask &&& b = b → has flags b →
      has (flags &&& tableFlagsMask ||| extra) b := by
    intro b hb hflag
    unfold has at hflag ⊢
    rw [or_and, BitVec.and_assoc, hb]
    exact fun hc => hflag (BitVec.or_eq_zero_iff.mp hc).1
  exact ⟨fun hw => hkeep (by decide) (h.1 hw), fun hu => hkeep (by decide) (h.2.1 hu),
    fun _ => not_has_link_NX hextra⟩

/-- **The processor's walk** of `vaddr` goes through for the access. -/
def hwPermits (mem : Mem) (vaddr : Word) (a : Access) : ℕ → Word → Prop
  | 0, _ => False
  | k + 1, t =>
      let e := mem t (index k vaddr)
      has e flagP ∧ a.AllowedBy e ∧
        if k = 0 then True
        else if has e flagPS then k = 1 ∨ k = 2
        else hwPermits mem vaddr a k (e &&& PageSize.small.frameMask)

instance hwPermits.decidable (mem : Mem) (vaddr : Word) (a : Access) :
    ∀ k t, Decidable (hwPermits mem vaddr a k t)
  | 0, _ => inferInstanceAs (Decidable False)
  | k + 1, t =>
      haveI := hwPermits.decidable mem vaddr a k
      inferInstanceAs (Decidable (has (mem t (index k vaddr)) flagP ∧
        a.AllowedBy (mem t (index k vaddr)) ∧ if k = 0 then True
          else if has (mem t (index k vaddr)) flagPS then k = 1 ∨ k = 2
          else hwPermits mem vaddr a k (mem t (index k vaddr) &&& PageSize.small.frameMask)))

/-! ### Present entries -/

/-- The entry `j` of the table that `q` leads to, if it is present. -/
def presentAt (mem : Mem) (t : Word) (q : List (BitVec 9)) (j : BitVec 9) : Option Word :=
  (tableAt subtable mem t q).bind fun u => if has (mem u j) flagP then some (mem u j) else none

section PresentAt

variable {mem : Mem} {t u e : Word} {q : List (BitVec 9)} {i j : BitVec 9}

theorem presentAt_some (h : tableAt subtable mem t q = some u) (hP : has (mem u j) flagP) :
    presentAt mem t q j = some (mem u j) := by
  rw [presentAt, h, Option.bind_some, if_pos hP]

theorem presentAt_absent (h : tableAt subtable mem t q = some u) (hP : ¬ has (mem u j) flagP) :
    presentAt mem t q j = none := by
  rw [presentAt, h, Option.bind_some, if_neg hP]

theorem presentAt_none (h : tableAt subtable mem t q = none) : presentAt mem t q j = none := by
  rw [presentAt, h, Option.bind_none]

theorem presentAt_cons :
    presentAt mem t (i :: q) j = (subtable (mem t i)).bind fun t' => presentAt mem t' q j := by
  unfold presentAt
  rw [tableAt, Option.bind_assoc]

/-- Entries are the same where the tables and what they hold are. -/
theorem presentAt_congr {mem' : Mem} (h : tableAt subtable mem' t q = tableAt subtable mem t q)
    (hentry : ∀ u, tableAt subtable mem t q = some u → mem' u j = mem u j) :
    presentAt mem' t q j = presentAt mem t q j := by
  rcases hu : tableAt subtable mem t q with - | u
  · rw [presentAt_none hu, presentAt_none (h.trans hu)]
  · rw [presentAt, presentAt, h, hu, Option.bind_some, Option.bind_some, hentry u hu]

/-- An empty top-level table has no entries. -/
theorem presentAt_empty (h : mem t = 0) : presentAt mem t q j = none := by
  rcases hu : tableAt subtable mem t q with - | u
  · exact presentAt_none hu
  · obtain ⟨rfl, rfl⟩ := (tableAt_empty h).mp hu
    refine presentAt_absent rfl ?_
    rw [h]
    exact not_has_zero _

end PresentAt

/-! ### The entries after `map_page` -/

variable {σ : Type} {R : Type*}

/-- The entry `e` was there, or it links a table that was missing. -/
def KeptOrLinked (src : FrameSource σ) (extra flags : Word) (m : Machine σ) (old : Option Word)
    (e : Word) : Prop :=
  old = some e ∨
    (old = none ∧ (src.alloc m.pmm).isSome ∧
      ∃ f, IsFrame .small f ∧ e = Forest.linkEntry extra flags f)

theorem KeptOrLinked.of_pmm {src : FrameSource σ} {extra flags e : Word} {m m₁ : Machine σ}
    {old : Option Word} (h : KeptOrLinked src extra flags m₁ old e)
    (hpmm : m₁ = m ∨ (src.alloc m.pmm).isSome) : KeptOrLinked src extra flags m old e := by
  rcases hpmm with rfl | hpmm
  · exact h
  · exact h.imp_right fun hlink => ⟨hlink.1, hpmm, hlink.2.2⟩

namespace Forest

variable {src : FrameSource σ} {root : R → Word} {d : ℕ} {m m' : Machine σ} {r : R}
  {p upper : List (BitVec 9)} {t t' : Word} {i i1 i2 : BitVec 9} {extra flags paddr : Word}

/-- Linking a table changes one entry. -/
theorem presentAt_grant {f e : Word} {s : σ} (hF : Forest src root d m)
    (ht : tableAt subtable m.mem (root r) p = some t) (hp : p.length < d)
    (ha : src.alloc m.pmm = some (f, s)) (he : subtable e = some f)
    (hold : ¬ has (m.mem t i) flagP) {r' : R} {q : List (BitVec 9)} {j : BitVec 9}
    (hq : q.length ≤ d) (hne : ¬ (r' = r ∧ q = p ∧ j = i)) :
    presentAt ((m.grant f s).store t i e).mem (root r') q j = presentAt m.mem (root r') q j := by
  have hcut : subtable (m.mem t i) = none := if_neg fun hc => hold hc.1
  by_cases hnew : r' = r ∧ q = p ++ [i]
  · -- the new table is blank
    obtain ⟨rfl, rfl⟩ := hnew
    have hsome := (hF.tableAt_grant ht hp ha he hcut hq).mpr (.inl ⟨rfl, rfl, rfl⟩)
    have hnone : tableAt subtable m.mem (root r') (p ++ [i]) = none := by
      rw [tableAt_snoc, ht]
      exact hcut
    rw [presentAt_none hnone]
    refine presentAt_absent hsome ?_
    rw [hF.grant_mem_new ht hp ha]
    exact not_has_zero _
  · have hiff : ∀ u, tableAt subtable ((m.grant f s).store t i e).mem (root r') q = some u ↔
        tableAt subtable m.mem (root r') q = some u := by
      intro u
      rw [hF.tableAt_grant ht hp ha he hcut hq]
      exact or_iff_right fun h => hnew ⟨h.1, h.2.1⟩
    refine presentAt_congr (Option.ext hiff) fun u hu => ?_
    rcases eq_or_ne u t with rfl | hut
    · obtain ⟨hr, hqp⟩ := hF.sep hq hp.le hu ht
      exact hF.grant_mem_same ht hp ha fun hj => hne ⟨hr, hqp, hj⟩
    · rw [hF.grant_mem_other ha hq hu hut]

/-- **One level of `map_page`** keeps the entry or links a table, and leaves the other
entries alone. -/
theorem descend_present (hF : Forest src root d m)
    (ht : tableAt subtable m.mem (root r) p = some t) (hp : p.length < d)
    (hflags : PresentFlags flags) (hextra : extra &&& flagRW = extra)
    (h : descend src extra flags m t i = .ok (t', m')) :
    (∀ r' q j, q.length ≤ d → ¬ (r' = r ∧ q = p ∧ j = i) →
      presentAt m'.mem (root r') q j = presentAt m.mem (root r') q j) ∧
    (∃ e, presentAt m'.mem (root r) p i = some e ∧
      KeptOrLinked src extra flags m (presentAt m.mem (root r) p i) e) ∧
    (m' = m ∨ (src.alloc m.pmm).isSome) := by
  unfold descend at h
  by_cases hpres : has (m.mem t i) flagP
  · rw [if_pos hpres] at h
    obtain ⟨-, rfl⟩ := Prod.mk.inj (Except.ok.inj h)
    have hthere := presentAt_some ht hpres
    exact ⟨fun _ _ _ _ _ => rfl, ⟨_, hthere, .inl hthere⟩, .inl rfl⟩
  · rw [if_neg hpres] at h
    rcases ha : src.alloc m.pmm with - | ⟨f, s⟩ <;> simp only [ha] at h
    · cases h
    obtain ⟨-, rfl⟩ := Prod.mk.inj (Except.ok.inj h)
    have hf := src.alloc_frame ha
    have he : subtable (linkEntry extra flags f) = some f :=
      subtable_linkEntry hf hflags.present hflags.flags_leaf hextra
    have hcut : subtable (m.mem t i) = none := if_neg fun hc => hpres hc.1
    have ht' := (hF.tableAt_grant ht hp ha he hcut hp.le).mpr (.inr ht)
    refine ⟨fun r' q j hq hne => hF.presentAt_grant ht hp ha he hpres hq hne,
      ⟨linkEntry extra flags f, ?_, .inr ⟨presentAt_absent ht hpres, by rw [ha]; rfl, f, hf, rfl⟩⟩,
      .inr rfl⟩
    have hP : has (((m.grant f s).store t i (linkEntry extra flags f)).mem t i) flagP := by
      rw [Machine.store_mem, put_self]
      exact has_link_P hf hflags.present
    refine (presentAt_some ht' hP).trans ?_
    rw [Machine.store_mem, put_self]

/-- The entry of a path at the end of its beginning `p`. -/
theorem eq_of_snoc_prefix {p q l : List (BitVec 9)} {i j : BitVec 9}
    (h : q ++ [j] <+: p ++ i :: l) (hlen : q.length = p.length) : q = p ∧ j = i := by
  have hq : q <+: p ++ i :: l := (List.prefix_append q [j]).trans h
  have hqp : q = p :=
    (List.prefix_of_prefix_length_le hq (List.prefix_append p _) hlen.le).eq_of_length hlen
  subst hqp
  rw [List.prefix_append_right_inj, List.cons_prefix_cons] at h
  exact ⟨rfl, h.1⟩

/-- The levels of `map_page` above the directory, from the table at `p` on. -/
theorem descendAll_present (hflags : PresentFlags flags) (hextra : extra &&& flagRW = extra)
    {is : List (BitVec 9)} (hF : Forest src root d m)
    (ht : tableAt subtable m.mem (root r) p = some t) (hlen : p.length + is.length + 1 = d)
    (h : descendAll src extra flags m t is = .ok (t', m')) :
    (∀ r' q j, q.length ≤ d → ¬ (r' = r ∧ p.length ≤ q.length ∧ q ++ [j] <+: p ++ is) →
      presentAt m'.mem (root r') q j = presentAt m.mem (root r') q j) ∧
    (∀ q j, p.length ≤ q.length → q ++ [j] <+: p ++ is →
      ∃ e, presentAt m'.mem (root r) q j = some e ∧
        KeptOrLinked src extra flags m (presentAt m.mem (root r) q j) e) ∧
    (m' = m ∨ (src.alloc m.pmm).isSome) := by
  induction is generalizing m p t with
  | nil =>
      obtain ⟨-, rfl⟩ := Prod.mk.inj (Except.ok.inj h)
      refine ⟨fun _ _ _ _ _ => rfl, fun q j hq hpre => ?_, .inl rfl⟩
      have := hpre.length_le
      simp at this
      omega
  | cons i is ih =>
      rw [List.length_cons] at hlen
      obtain ⟨⟨t₁, m₁⟩, h₁, h₂⟩ := Exec.bind_eq_ok.mp h
      have hopen := hF.small (i := i) (show p.length + 1 < d by omega) ht
      obtain ⟨hF₁, ht₁, -, -⟩ := hF.descend_spec ht (by omega) hopen hflags.present
        hflags.flags_leaf hextra h₁
      obtain ⟨hframe₁, ⟨e, he, hkept⟩, hpmm₁⟩ :=
        hF.descend_present ht (by omega) hflags hextra h₁
      obtain ⟨hframe₂, hpath₂, hpmm₂⟩ := ih hF₁ ht₁ (by simp; omega) h₂
      rw [List.append_assoc, List.singleton_append, List.length_append,
        List.length_singleton] at hframe₂ hpath₂
      refine ⟨fun r' q j hq hne => ?_, fun q j hq hpre => ?_, ?_⟩
      · rw [hframe₂ r' q j hq fun hc => hne ⟨hc.1, by omega, hc.2.2⟩]
        refine hframe₁ r' q j hq ?_
        rintro ⟨rfl, rfl, rfl⟩
        exact hne ⟨rfl, le_rfl, by simp⟩
      · rcases hq.eq_or_lt with heq | hlt
        · -- the entry of this level, which the levels below leave alone
          obtain ⟨rfl, rfl⟩ := eq_of_snoc_prefix hpre heq.symm
          refine ⟨e, ?_, hkept⟩
          rw [hframe₂ r q j (by omega) fun hc => by omega, he]
        · obtain ⟨e', he', hkept'⟩ := hpath₂ q j hlt hpre
          refine ⟨e', he', ?_⟩
          rw [hframe₁ r q j (by have := hpre.length_le; simp at this; omega)
            fun hc => by rw [hc.2.1] at hlt; omega] at hkept'
          exact hkept'.of_pmm hpmm₁
      · rcases hpmm₁ with rfl | hpmm₁
        · exact hpmm₂
        · exact .inr hpmm₁

/-- A write in a table leaves the entries alone that are neither it nor below it. -/
theorem presentAt_put (hF : Forest src root d m)
    (ht : tableAt subtable m.mem (root r) p = some t) (hp : p.length ≤ d) {e : Word} {r' : R}
    {q : List (BitVec 9)} {j : BitVec 9} (hq : q.length ≤ d) (hne : ¬ (r' = r ∧ q = p ∧ j = i))
    (hbelow : ¬ (r' = r ∧ p ++ [i] <+: q)) :
    presentAt (put m.mem t i e) (root r') q j = presentAt m.mem (root r') q j := by
  refine presentAt_congr (tableAt_put_aside hF.sep ht hp (by omega) hbelow) fun u hu => ?_
  refine put_of_ne e ?_
  by_contra hcon
  push Not at hcon
  obtain ⟨rfl, rfl⟩ := hcon
  obtain ⟨hr, hqp⟩ := hF.sep hq hp hu ht
  exact hne ⟨hr, hqp, rfl⟩

end Forest

/-- The indices above the entry that `map_page` writes for the page. -/
def aboveLeaf (flags : Word) (upper : List (BitVec 9)) (i2 : BitVec 9) : List (BitVec 9) :=
  if has flags flagPS then upper else upper ++ [i2]

/-- The index of this entry. -/
def leafIndex (flags : Word) (i2 i1 : BitVec 9) : BitVec 9 := if has flags flagPS then i2 else i1

namespace Forest

variable {src : FrameSource σ} {root : R → Word} {d : ℕ} {m m' : Machine σ} {r : R}
  {upper : List (BitVec 9)} {i1 i2 : BitVec 9} {extra flags paddr : Word} {ptr : Option Ptr}

/-- The entry of the page is written last, and all that is on the way to it stays. -/
theorem presentAt_leaf {p : List (BitVec 9)} {t e : Word} {i : BitVec 9} (hF : Forest src root d m)
    (ht : tableAt subtable m.mem (root r) p = some t) (hp : p.length ≤ d) (hP : has e flagP) :
    (∀ r' q j, q.length ≤ d → ¬ (r' = r ∧ (q ++ [j] <+: p ++ [i] ∨ p ++ [i] <+: q)) →
      presentAt (put m.mem t i e) (root r') q j = presentAt m.mem (root r') q j) ∧
    (∀ q j, q ++ [j] <+: p →
      presentAt (put m.mem t i e) (root r) q j = presentAt m.mem (root r) q j) ∧
    presentAt (put m.mem t i e) (root r) p i = some e := by
  refine ⟨fun r' q j hq hne => ?_, fun q j hpre => ?_, ?_⟩
  · refine hF.presentAt_put ht hp hq ?_ fun hc => hne ⟨hc.1, .inr hc.2⟩
    rintro ⟨hr, rfl, rfl⟩
    exact hne ⟨hr, .inl (List.prefix_refl _)⟩
  · have hlen : q.length + 1 ≤ p.length := by simpa using hpre.length_le
    refine hF.presentAt_put ht hp (by omega) (fun hc => ?_) fun hc => ?_
    · rw [hc.2.1] at hlen
      omega
    · have := hc.2.length_le
      simp at this
      omega
  · have hself := tableAt_put_self (i := i) (e := e) hF.sep ht hp
    have hput : put m.mem t i e t i = e := put_self ..
    rw [presentAt_some hself (by rwa [hput]), hput]

/-- **The entries after `map_page`**: those on its way were there or link a new table, the
last one is the page, and the others are as before unless they were below it. -/
theorem mapPage_entries (hF : Forest src root d m) (hup : upper.length + 1 = d)
    (hflags : PresentFlags flags) (hextra : extra &&& flagRW = extra)
    (hopen : ¬ has flags flagPS → (slotAt m.mem (root r) upper i2).Open)
    (h : mapPage src extra m (root r) upper i2 i1 paddr flags = .ok (ptr, m')) :
    (∀ r' q j, q.length ≤ d → ¬ (r' = r ∧
        (q ++ [j] <+: aboveLeaf flags upper i2 ++ [leafIndex flags i2 i1] ∨
          aboveLeaf flags upper i2 ++ [leafIndex flags i2 i1] <+: q)) →
      presentAt m'.mem (root r') q j = presentAt m.mem (root r') q j) ∧
    (∀ q j, q ++ [j] <+: aboveLeaf flags upper i2 → ∃ e, presentAt m'.mem (root r) q j = some e ∧
      KeptOrLinked src extra flags m (presentAt m.mem (root r) q j) e) ∧
    presentAt m'.mem (root r) (aboveLeaf flags upper i2) (leafIndex flags i2 i1)
      = some (paddr ||| flags) := by
  obtain ⟨⟨pml2, m₁⟩, h₁, h⟩ := Exec.bind_eq_ok.mp h
  obtain ⟨hF₁, ht₁, hslots⟩ := descendAll_spec (p := []) hflags.present hflags.flags_leaf hextra hF
    rfl (by simpa using hup) h₁
  obtain ⟨hframe₁, hpath₁, hpmm₁⟩ := descendAll_present (p := []) hflags hextra hF rfl
    (by simpa using hup) h₁
  rw [List.nil_append] at ht₁ hframe₁ hpath₁
  have hP : has (paddr ||| flags) flagP := has_or_right hflags.present
  unfold aboveLeaf leafIndex
  by_cases hPS : has flags flagPS
  · simp only [if_pos hPS] at h ⊢
    obtain ⟨-, rfl⟩ := Prod.mk.inj (Except.ok.inj h)
    obtain ⟨hframe, hsame, hleaf⟩ := hF₁.presentAt_leaf (i := i2) ht₁ (by omega) hP
    refine ⟨fun r' q j hq hne => ?_, fun q j hpre => ?_, hleaf⟩
    · refine (hframe r' q j hq hne).trans (hframe₁ r' q j hq fun hc => hne ⟨hc.1, .inl ?_⟩)
      exact hc.2.2.trans (List.prefix_append _ _)
    · rw [Machine.store_mem, hsame q j hpre]
      exact hpath₁ q j (Nat.zero_le _) hpre
  · simp only [if_neg hPS] at h ⊢
    obtain ⟨⟨pml1, m₂⟩, h₂, h⟩ := Exec.bind_eq_ok.mp h
    obtain ⟨-, rfl⟩ := Prod.mk.inj (Except.ok.inj h)
    have hopen₁ := hopen hPS
    rw [← hslots r upper i2 hup, slotAt_open ht₁] at hopen₁
    obtain ⟨hF₂, ht₂, -, -⟩ := hF₁.descend_spec ht₁ (by omega) hopen₁ hflags.present
      hflags.flags_leaf hextra h₂
    obtain ⟨hframe₂, ⟨e, he, hkept⟩, -⟩ := hF₁.descend_present ht₁ (by omega) hflags hextra h₂
    obtain ⟨hframe, hsame, hleaf⟩ := hF₂.presentAt_leaf (i := i1) ht₂ (by simp; omega) hP
    refine ⟨fun r' q j hq hne => ?_, fun q j hpre => ?_, hleaf⟩
    · have hne₂ : ¬ (r' = r ∧ q = upper ∧ j = i2) := by
        rintro ⟨hr, rfl, rfl⟩
        exact hne ⟨hr, .inl (List.prefix_append _ _)⟩
      refine (hframe r' q j hq hne).trans ((hframe₂ r' q j hq hne₂).trans ?_)
      refine hframe₁ r' q j hq fun hc => hne ⟨hc.1, .inl ?_⟩
      rw [List.append_assoc]
      exact hc.2.2.trans (List.prefix_append _ _)
    · rw [Machine.store_mem, hsame q j hpre]
      have hq : q.length ≤ upper.length := by simpa using hpre.length_le
      rcases hq.eq_or_lt with heq | hlt
      · obtain ⟨rfl, rfl⟩ := eq_of_snoc_prefix (l := []) hpre heq
        refine ⟨e, he, ?_⟩
        rw [hframe₁ r q j (by omega) fun hc => by have := hc.2.2.length_le; simp at this] at hkept
        exact hkept.of_pmm hpmm₁
      · have hpre' : q ++ [j] <+: upper :=
          List.prefix_of_prefix_length_le hpre (List.prefix_append _ _) (by simpa using hlt)
        obtain ⟨e', he', hkept'⟩ := hpath₁ q j (Nat.zero_le _) hpre'
        refine ⟨e', ?_, hkept'⟩
        rw [hframe₂ r q j (by omega) fun hc => by rw [hc.2.1] at hlt; omega, he']

/-- The entries after `map_page` of a small page. -/
theorem mapPage_present (hF : Forest src root d m) (hup : upper.length + 1 = d)
    (hflags : PresentFlags flags) (hsmall : ¬ has flags flagPS)
    (hextra : extra &&& flagRW = extra) (hopen : (slotAt m.mem (root r) upper i2).Open)
    (h : mapPage src extra m (root r) upper i2 i1 paddr flags = .ok (ptr, m')) :
    (∀ q j, q ++ [j] <+: upper ++ [i2] → ∃ e, presentAt m'.mem (root r) q j = some e ∧
      KeptOrLinked src extra flags m (presentAt m.mem (root r) q j) e) ∧
    presentAt m'.mem (root r) (upper ++ [i2]) i1 = some (paddr ||| flags) := by
  have hall := (hF.mapPage_entries hup hflags hextra (fun _ => hopen) h).2
  rwa [aboveLeaf, leafIndex, if_neg hsmall, if_neg hsmall] at hall

end Forest

/-! ### Accesses along a path -/

/-- All entries along a path are present and permit the access. -/
def PathPermits (a : Access) (mem : Mem) (t : Word) (is : List (BitVec 9)) : Prop :=
  ∀ q j, q ++ [j] <+: is → ∃ e, presentAt mem t q j = some e ∧ a.AllowedBy e

section PathPermits

variable {a : Access} {mem : Mem} {t t' : Word} {i : BitVec 9} {is : List (BitVec 9)}

theorem PathPermits.head (h : PathPermits a mem t (i :: is)) :
    has (mem t i) flagP ∧ a.AllowedBy (mem t i) := by
  obtain ⟨e, he, hallowed⟩ := h [] i (by simp)
  rw [presentAt, tableAt, Option.bind_some] at he
  split_ifs at he with hP
  obtain rfl := Option.some.inj he
  exact ⟨hP, hallowed⟩

theorem pathPermits_singleton :
    PathPermits a mem t [i] ↔ has (mem t i) flagP ∧ a.AllowedBy (mem t i) := by
  refine ⟨PathPermits.head, fun ⟨hP, hallowed⟩ q j hpre => ?_⟩
  have hlen := hpre.length_le
  rcases q with - | ⟨x, q⟩
  · obtain ⟨rfl, -⟩ := List.cons_prefix_cons.mp hpre
    exact ⟨_, presentAt_some rfl hP, hallowed⟩
  · simp at hlen

/-- The walk goes on in the table below the first entry. -/
theorem pathPermits_cons (h : subtable (mem t i) = some t') :
    PathPermits a mem t (i :: is) ↔ a.AllowedBy (mem t i) ∧ PathPermits a mem t' is := by
  constructor
  · refine fun hpath => ⟨hpath.head.2, fun q j hpre => ?_⟩
    obtain ⟨e, he, hallowed⟩ := hpath (i :: q) j (by simpa using hpre)
    rw [presentAt_cons, h, Option.bind_some] at he
    exact ⟨e, he, hallowed⟩
  · rintro ⟨hallowed, hpath⟩ q j hpre
    rcases q with - | ⟨x, q⟩
    · obtain ⟨rfl, -⟩ := List.cons_prefix_cons.mp hpre
      exact ⟨_, presentAt_some rfl (subtable_eq_some.mp h).1, hallowed⟩
    · obtain ⟨rfl, hrest⟩ := List.cons_prefix_cons.mp hpre
      obtain ⟨e, he, hallowed'⟩ := hpath q j hrest
      refine ⟨e, ?_, hallowed'⟩
      rw [presentAt_cons, h, Option.bind_some, he]

end PathPermits

/-- The indices of a walk down to the page. -/
def walkIndices (vaddr : Word) (k : ℕ) : List (BitVec 9) :=
  upperIndices vaddr k ++ [index 1 vaddr] ++ [index 0 vaddr]

namespace Forest

variable {src : FrameSource σ} {root : R → Word} {d k : ℕ} {m m' : Machine σ} {r : R}
  {p : List (BitVec 9)} {t vaddr : Word} {a : Access}

/-- One level of the processor's walk, in a table of the forest. -/
theorem hwPermits_level (hF : Forest src root d m)
    (ht : tableAt subtable m.mem (root r) p = some t) (hp : p.length < d)
    (hsmall : ¬ (has (m.mem t (index (k + 1) vaddr)) flagP ∧
      has (m.mem t (index (k + 1) vaddr)) flagPS)) {is : List (BitVec 9)}
    (ih : ∀ t', tableAt subtable m.mem (root r) (p ++ [index (k + 1) vaddr]) = some t' →
      (hwPermits m.mem vaddr a (k + 1) t' ↔ PathPermits a m.mem t' is)) :
    hwPermits m.mem vaddr a (k + 2) t ↔ PathPermits a m.mem t (index (k + 1) vaddr :: is) := by
  rw [hwPermits]
  by_cases hP : has (m.mem t (index (k + 1) vaddr)) flagP
  · have hPS : ¬ has (m.mem t (index (k + 1) vaddr)) flagPS := fun hc => hsmall ⟨hP, hc⟩
    have hsub := subtable_eq_some.mpr ⟨hP, hPS, rfl⟩
    have ht' : tableAt subtable m.mem (root r) (p ++ [index (k + 1) vaddr])
        = some (tableOf (m.mem t (index (k + 1) vaddr))) := by
      rw [tableAt_snoc, ht]
      exact hsub
    have hframe := (hF.known (by simp; omega) ht').frame
    rw [pathPermits_cons hsub, ← ih _ ht', ← frame_of_tableOf hframe]
    simp [hP, hPS]
  · refine iff_of_false (fun hc => hP hc.1) fun hc => hP hc.head.1

/-- **The processor permits by the entries of its path**, where no large page is. -/
theorem hwPermits_iff (hF : Forest src root (p.length + k + 1) m)
    (ht : tableAt subtable m.mem (root r) p = some t)
    (hopen : (slotAt m.mem (root r) (p ++ upperIndices vaddr k) (index 1 vaddr)).Open) :
    hwPermits m.mem vaddr a (k + 2) t ↔ PathPermits a m.mem t (walkIndices vaddr k) := by
  induction k generalizing p t with
  | zero =>
      refine hF.hwPermits_level ht (by omega) ?_ fun t' _ => ?_
      · rwa [upperIndices, List.append_nil, slotAt_open ht] at hopen
      · show _ ↔ PathPermits a m.mem t' [index 0 vaddr]
        rw [pathPermits_singleton, hwPermits]
        simp
  | succ k ih =>
      refine hF.hwPermits_level ht (by omega) (hF.small (by omega) ht) fun t' ht' => ?_
      refine ih (by simpa [Nat.add_assoc, Nat.add_comm 1] using hF) ht' ?_
      rwa [List.append_assoc, List.singleton_append]

/-- The same in the region of a large page, which is the last entry of the path. -/
theorem hwPermits_large_iff {e : Word} (hF : Forest src root (p.length + k + 1) m)
    (ht : tableAt subtable m.mem (root r) p = some t)
    (hlarge : slotAt m.mem (root r) (p ++ upperIndices vaddr k) (index 1 vaddr) = .large e) :
    hwPermits m.mem vaddr a (k + 2) t ↔
      PathPermits a m.mem t (upperIndices vaddr k ++ [index 1 vaddr]) := by
  induction k generalizing p t with
  | zero =>
      rw [upperIndices, List.append_nil, slotAt_some ht, entrySlot] at hlarge
      split_ifs at hlarge with hPS
      show _ ↔ PathPermits a m.mem t [index 1 vaddr]
      rw [pathPermits_singleton, hwPermits]
      simp [hPS]
  | succ k ih =>
      refine hF.hwPermits_level ht (by omega) (hF.small (by omega) ht) fun t' ht' => ?_
      refine ih (by simpa [Nat.add_assoc, Nat.add_comm 1] using hF) ht' ?_
      rwa [List.append_assoc, List.singleton_append]

section MapPage

variable {extra flags paddr : Word} {ptr : Option Ptr} (hF : Forest src root (k + 1) m)
  (hflags : PresentFlags flags) (hextra : extra &&& flagRW = extra)
  (hopen : ¬ has flags flagPS → (slotOf m.mem k (root r) vaddr).Open)
  (h : mapPage src extra m (root r) (upperIndices vaddr k) (index 1 vaddr) (index 0 vaddr) paddr
    flags = .ok (ptr, m'))

include hF hflags hextra hopen h

/-- After `map_page` the processor's walk ends at the entry that was written. -/
theorem hwPermits_mapPage :
    hwPermits m'.mem vaddr a (k + 2) (root r) ↔ PathPermits a m'.mem (root r)
      (aboveLeaf flags (upperIndices vaddr k) (index 1 vaddr)
        ++ [leafIndex flags (index 1 vaddr) (index 0 vaddr)]) := by
  obtain ⟨hF', hslot, -⟩ := hF.slotOf_mapPage hflags hextra hopen h
  have hF'' : Forest src root (([] : List (BitVec 9)).length + k + 1) m' := by simpa using hF'
  rw [Slot.mapPage] at hslot
  by_cases hPS : has flags flagPS
  · rw [if_pos hPS] at hslot
    rw [aboveLeaf, leafIndex, if_pos hPS, if_pos hPS,
      ← hF''.hwPermits_large_iff (p := []) rfl hslot]
  · rw [if_neg hPS] at hslot
    have hopen' : (slotOf m'.mem k (root r) vaddr).Open := by
      rw [hslot]
      trivial
    rw [aboveLeaf, leafIndex, if_neg hPS, if_neg hPS, hF''.hwPermits_iff (p := []) rfl hopen',
      walkIndices]

/-- **What `map_page` permits**: an access to the page goes through exactly if the entries
that were present on the way, the page itself and any new link permit it. -/
theorem permits_mapped :
    hwPermits m'.mem vaddr a (k + 2) (root r) ↔
      (∀ q j, q ++ [j] <+: aboveLeaf flags (upperIndices vaddr k) (index 1 vaddr) →
        (∀ e, presentAt m.mem (root r) q j = some e → a.AllowedBy e)) ∧
      a.AllowedBy (paddr ||| flags) ∧
      ((∃ q j, q ++ [j] <+: aboveLeaf flags (upperIndices vaddr k) (index 1 vaddr) ∧
        presentAt m.mem (root r) q j = none) →
        a.AllowedBy (flags &&& tableFlagsMask ||| extra)) := by
  obtain ⟨-, hpath, hpage⟩ := hF.mapPage_entries (by simp) hflags hextra hopen h
  rw [hF.hwPermits_mapPage hflags hextra hopen h]
  generalize aboveLeaf flags (upperIndices vaddr k) (index 1 vaddr) = above at *
  constructor
  · intro hall
    refine ⟨fun q j hpre e he => ?_, ?_, ?_⟩
    · obtain ⟨e', he', hkept⟩ := hpath q j hpre
      obtain ⟨e'', he'', hallowed⟩ := hall q j (hpre.trans (List.prefix_append _ _))
      cases he'.symm.trans he''
      rcases hkept with hold | ⟨hnone, -⟩
      · cases hold.symm.trans he
        exact hallowed
      · cases hnone.symm.trans he
    · obtain ⟨e, he, hallowed⟩ := hall _ _ (List.prefix_refl _)
      cases hpage.symm.trans he
      exact hallowed
    · rintro ⟨q, j, hpre, hnone⟩
      obtain ⟨e', he', hkept⟩ := hpath q j hpre
      obtain ⟨e'', he'', hallowed⟩ := hall q j (hpre.trans (List.prefix_append _ _))
      cases he'.symm.trans he''
      rcases hkept with hold | ⟨-, -, f, hf, rfl⟩
      · cases hnone.symm.trans hold
      · rwa [linkEntry, BitVec.or_assoc, Access.allowedBy_frame_or hf] at hallowed
  · rintro ⟨hold, hleaf, hlink⟩ q j hpre
    -- an entry of the walk is the page or one above it
    rcases List.prefix_concat_iff.mp hpre with heq | hpre'
    · obtain ⟨rfl, hj⟩ := List.append_inj' heq rfl
      obtain rfl := List.singleton_inj.mp hj
      exact ⟨_, hpage, hleaf⟩
    · obtain ⟨e, he, hkept⟩ := hpath q j hpre'
      refine ⟨e, he, ?_⟩
      rcases hkept with hsame | ⟨hnone, -, f, hf, rfl⟩
      · exact hold q j hpre' e hsame
      · rw [linkEntry, BitVec.or_assoc, Access.allowedBy_frame_or hf]
        exact hlink ⟨q, j, hpre', hnone⟩

end MapPage

/-- What `map_page` permits on a small page. -/
theorem permits_mapPage {extra flags paddr : Word} (hF : Forest src root (k + 1) m)
    (hflags : PresentFlags flags) (hsmall : ¬ has flags flagPS)
    (hextra : extra &&& flagRW = extra) (hopen : (slotOf m.mem k (root r) vaddr).Open)
    {ptr : Option Ptr}
    (h : mapPage src extra m (root r) (upperIndices vaddr k) (index 1 vaddr) (index 0 vaddr) paddr
      flags = .ok (ptr, m')) :
    hwPermits m'.mem vaddr a (k + 2) (root r) ↔
      (∀ q j, q ++ [j] <+: upperIndices vaddr k ++ [index 1 vaddr] →
        (∀ e, presentAt m.mem (root r) q j = some e → a.AllowedBy e)) ∧
      a.AllowedBy (paddr ||| flags) ∧
      ((∃ q j, q ++ [j] <+: upperIndices vaddr k ++ [index 1 vaddr] ∧
        presentAt m.mem (root r) q j = none) →
        a.AllowedBy (flags &&& tableFlagsMask ||| extra)) := by
  have hall := hF.permits_mapped (a := a) hflags hextra (fun _ => hopen) h
  rwa [aboveLeaf, if_neg hsmall] at hall

end Forest

end Rock
