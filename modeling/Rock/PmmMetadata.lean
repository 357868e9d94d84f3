/-
Rock/PmmMetadata.lean

Where `pmm_init` (kernel/core/physical.c) puts the allocator's own data.

The first pass counts two records and a bitmap for every usable entry; the third pass
puts a record and a bitmap for every entry that is left, and rounds the address of each
record up to a multiple of `sizeof(struct pmm_module)` before.  The rounding is not
counted.  What makes room for it is luck: the carved interval is rounded up to a page,
the host's bitmap shrinks with the host, and an entry below 1 MiB is counted and gets no
module.

Since every record is at a multiple of its size, a bitmap costs its own size rounded up
to that of a record, so where the last bitmap ends is a sum over the map (`recordAt`).
Main result: the metadata stays apart from what the modules manage exactly when that sum
is at most the size of the carved interval, and the entry that reaches across 1 MiB, whose
length is not reduced, does not run over it (`metadata_apart_iff`).
-/
import Rock.PmmInit

namespace Rock

/-! ### Rounding up -/

/-- The least multiple of `a` that is at least `x`. -/
def roundUp (x a : ℕ) : ℕ := (x + a - 1) / a * a

section Rounding

variable {x a : ℕ}

theorem le_roundUp (ha : 0 < a) : x ≤ roundUp x a := (Fayt.isLeast_roundup ha).1.2

theorem dvd_roundUp : a ∣ roundUp x a := dvd_mul_left _ _

theorem roundUp_lt (ha : 0 < a) : roundUp x a < x + a := by
  have hle := Nat.div_mul_le_self (x + a - 1) a
  unfold roundUp
  omega

/-- A multiple of `a` is rounded up with the rest. -/
theorem roundUp_add {k : ℕ} (ha : 0 < a) (hk : a ∣ k) : roundUp (k + x) a = k + roundUp x a := by
  obtain ⟨c, rfl⟩ := hk
  unfold roundUp
  rw [show a * c + x + a - 1 = a * c + (x + a - 1) by omega, Nat.mul_add_div ha, Nat.add_mul,
    mul_comm c a]

/-- A multiple of `a` less than `a` above `x` is `x` rounded up. -/
theorem eq_roundUp {c : ℕ} (ha : 0 < a) (hdvd : a ∣ c) (hle : x ≤ c) (hlt : c < x + a) :
    c = roundUp x a := by
  have hleast : roundUp x a ≤ c := (Fayt.isLeast_roundup ha).2 ⟨hdvd, hle⟩
  have hge : x ≤ roundUp x a := le_roundUp ha
  -- the difference is a multiple of `a` and less than `a`
  have hzero : c - roundUp x a = 0 :=
    Nat.eq_zero_of_dvd_of_lt (Nat.dvd_sub hdvd dvd_roundUp) (by omega)
  omega

theorem Fayt.alignUp_eq (fayt : Fayt) (ha : 0 < a) (h : x + a ≤ 2 ^ 64) :
    fayt.alignUp x a = roundUp x a := by
  have hlt : roundUp x a < x + a := roundUp_lt ha
  exact fayt.alignUp_least ha (Fayt.isLeast_roundup ha) (lt_of_lt_of_le hlt h)

end Rounding

/-! ### The layout -/

/-- The size of the bitmap for `length` bytes of memory. -/
def bitmapBytes (fayt : Fayt) (length : ℕ) : ℕ :=
  fayt.divRoundup (fayt.divRoundup length pageSize) 8

/-- The sizes of the bitmaps of the entries that get a module. -/
def bitmapSizes (fayt : Fayt) (es : List MemmapEntry) : List ℕ :=
  (es.filter fun e => e.type = .usable ∧ e.length ≠ 0).map fun e => bitmapBytes fayt e.length

theorem bitmapSizes_cons (fayt : Fayt) (e : MemmapEntry) (es : List MemmapEntry) :
    bitmapSizes fayt (e :: es) = if e.type = .usable ∧ e.length ≠ 0 then
      bitmapBytes fayt e.length :: bitmapSizes fayt es else bitmapSizes fayt es := by
  rw [bitmapSizes, List.filter_cons]
  simp only [decide_eq_true_eq]
  split_ifs <;> rfl

/-- Where the record of the `k`-th module is, if the metadata starts at `p`. -/
def recordAt (sizeofModule p : ℕ) (sizes : List ℕ) (k : ℕ) : ℕ :=
  roundUp p sizeofModule +
    ((sizes.take k).map fun b => sizeofModule * 2 + roundUp b sizeofModule).sum

/-- The record and the bitmap of the `k`-th module. -/
def placedAt (sizeofModule p : ℕ) (sizes : List ℕ) (k b : ℕ) : Block × Block :=
  (⟨recordAt sizeofModule p sizes k, sizeofModule⟩,
    ⟨recordAt sizeofModule p sizes k + sizeofModule * 2, b⟩)

/-- All records and bitmaps of the layout. -/
def layoutBlocks (sizeofModule p : ℕ) (sizes : List ℕ) : List Block :=
  (sizes.mapIdx (placedAt sizeofModule p sizes)).flatMap fun x => [x.1, x.2]

section Layout

variable {sizeofModule p : ℕ} {sizes : List ℕ}

theorem recordAt_zero : recordAt sizeofModule p sizes 0 = roundUp p sizeofModule := rfl

/-- After the first bitmap the layout goes on from its end. -/
theorem recordAt_cons (hs : 0 < sizeofModule) (b k : ℕ) :
    recordAt sizeofModule p (b :: sizes) (k + 1)
      = recordAt sizeofModule (roundUp p sizeofModule + sizeofModule * 2 + b) sizes k := by
  have hdvd : sizeofModule ∣ roundUp p sizeofModule + sizeofModule * 2 :=
    dvd_add dvd_roundUp (dvd_mul_right _ _)
  simp only [recordAt, List.take_succ_cons, List.map_cons, List.sum_cons, roundUp_add hs hdvd]
  omega

theorem recordAt_succ {k b : ℕ} (hk : sizes[k]? = some b) :
    recordAt sizeofModule p sizes (k + 1)
      = recordAt sizeofModule p sizes k + (sizeofModule * 2 + roundUp b sizeofModule) := by
  simp only [recordAt, List.take_add_one, hk, Option.toList_some, List.map_append, List.map_cons,
    List.map_nil, List.sum_append, List.sum_cons, List.sum_nil]
  omega

theorem recordAt_le_succ (k : ℕ) :
    recordAt sizeofModule p sizes k ≤ recordAt sizeofModule p sizes (k + 1) := by
  rcases hk : sizes[k]? with - | b
  · have hlen : sizes.length ≤ k := List.getElem?_eq_none_iff.mp hk
    rw [recordAt, recordAt, List.take_of_length_le hlen, List.take_of_length_le (by omega)]
  · rw [recordAt_succ hk]
    exact Nat.le_add_right _ _

theorem recordAt_mono : Monotone (recordAt sizeofModule p sizes) :=
  monotone_nat_of_le_succ recordAt_le_succ

/-- A later record is behind the bitmap. -/
theorem recordAt_bitmap (hs : 0 < sizeofModule) {i j b : ℕ} (hi : sizes[i]? = some b)
    (hlt : i < j) :
    recordAt sizeofModule p sizes i + sizeofModule * 2 + b ≤ recordAt sizeofModule p sizes j := by
  have hle : recordAt sizeofModule p sizes (i + 1) ≤ recordAt sizeofModule p sizes j :=
    recordAt_mono hlt
  have hround : b ≤ roundUp b sizeofModule := le_roundUp hs
  rw [recordAt_succ hi] at hle
  omega

/-- All bitmaps end where the last one ends, or before. -/
theorem recordAt_last (hs : 0 < sizeofModule) {k b last : ℕ} (hk : sizes[k]? = some b)
    (hlast : sizes.getLast? = some last) :
    recordAt sizeofModule p sizes k + sizeofModule * 2 + b
      ≤ recordAt sizeofModule p sizes (sizes.length - 1) + sizeofModule * 2 + last := by
  have hlt : k < sizes.length := (List.getElem?_eq_some_iff.mp hk).1
  rw [List.getLast?_eq_getElem?] at hlast
  rcases Nat.lt_or_ge k (sizes.length - 1) with hbefore | hafter
  · have hle := recordAt_bitmap (p := p) hs hk hbefore
    omega
  · obtain rfl : k = sizes.length - 1 := by omega
    cases hk.symm.trans hlast
    exact le_refl _

theorem mem_layoutBlocks {b : Block} :
    b ∈ layoutBlocks sizeofModule p sizes ↔ ∃ k n, sizes[k]? = some n ∧
      (b = (placedAt sizeofModule p sizes k n).1 ∨ b = (placedAt sizeofModule p sizes k n).2) := by
  simp only [layoutBlocks, List.mem_flatMap, List.mem_cons, List.not_mem_nil, or_false]
  constructor
  · rintro ⟨x, hx, hb⟩
    obtain ⟨k, hk⟩ := List.getElem?_of_mem hx
    rw [List.getElem?_mapIdx] at hk
    obtain ⟨n, hn, rfl⟩ := Option.map_eq_some_iff.mp hk
    exact ⟨k, n, hn, hb⟩
  · rintro ⟨k, n, hk, hb⟩
    refine ⟨placedAt sizeofModule p sizes k n, List.mem_of_getElem? (i := k) ?_, hb⟩
    rw [List.getElem?_mapIdx, hk]
    rfl

/-- Records and bitmaps are disjoint. -/
theorem layoutBlocks_apart (hs : 0 < sizeofModule) :
    (layoutBlocks sizeofModule p sizes).Pairwise Block.Apart := by
  refine List.pairwise_flatMap.mpr ⟨fun x hx => ?_, List.pairwise_iff_getElem.mpr ?_⟩
  · obtain ⟨k, hk⟩ := List.getElem?_of_mem hx
    rw [List.getElem?_mapIdx] at hk
    obtain ⟨n, -, rfl⟩ := Option.map_eq_some_iff.mp hk
    rw [List.pairwise_pair]
    rintro a ⟨hrecord, hbitmap⟩
    have hend : a < recordAt sizeofModule p sizes k + sizeofModule := hrecord.2
    have hstart : recordAt sizeofModule p sizes k + sizeofModule * 2 ≤ a := hbitmap.1
    omega
  · intro i j hi hj hlt x hx y hy
    simp only [List.getElem_mapIdx] at hx hy
    have hlen : i < sizes.length := by simpa using hi
    have hnext := recordAt_bitmap (p := p) hs (List.getElem?_eq_getElem hlen) hlt
    -- all of the one is before the record of the other
    have hbefore : x.first + x.len ≤ recordAt sizeofModule p sizes j := by
      simp only [placedAt, List.mem_cons, List.not_mem_nil, or_false] at hx
      rcases hx with rfl | rfl <;> dsimp only <;> omega
    have hafter : recordAt sizeofModule p sizes j ≤ y.first := by
      simp only [placedAt, List.mem_cons, List.not_mem_nil, or_false] at hy
      rcases hy with rfl | rfl <;> dsimp only <;> omega
    rintro a ⟨hxa, hya⟩
    have hend := hxa.2
    have hstart := hya.1
    omega

/-- The layout is between its start and the end of the last bitmap. -/
theorem layoutBlocks_inside (hs : 0 < sizeofModule) {b : Block}
    (hb : b ∈ layoutBlocks sizeofModule p sizes) :
    p ≤ b.first ∧ ∃ last, sizes.getLast? = some last ∧ b.first + b.len
      ≤ recordAt sizeofModule p sizes (sizes.length - 1) + sizeofModule * 2 + last := by
  obtain ⟨k, n, hk, hb⟩ := mem_layoutBlocks.mp hb
  have hstart : p ≤ recordAt sizeofModule p sizes k :=
    (le_roundUp hs).trans (recordAt_mono (Nat.zero_le k))
  obtain ⟨last, hlast⟩ : ∃ last, sizes.getLast? = some last := by
    rw [← Option.isSome_iff_exists, List.getLast?_isSome]
    rintro rfl
    cases hk
  have hend := recordAt_last (p := p) hs hk hlast
  refine ⟨?_, last, hlast, ?_⟩
  · rcases hb with rfl | rfl <;> simp only [placedAt] <;> omega
  · rcases hb with rfl | rfl <;> simp only [placedAt] <;> omega

end Layout

/-! ### What the third pass places -/

/-- The physical addresses of the record of a module. -/
def PmmModule.record (sizeofModule highVma : ℕ) (m : PmmModule) : Block :=
  ⟨usub m.node highVma, sizeofModule⟩

/-- The physical addresses of its bitmap. -/
def PmmModule.bitmapBlock (highVma : ℕ) (m : PmmModule) : Block :=
  ⟨usub m.bitmapPtr highVma, m.bitmapSize⟩

/-- All metadata of the allocator. -/
def metadataBlocks (sizeofModule highVma : ℕ) (ms : List PmmModule) : List Block :=
  ms.flatMap fun m => [m.record sizeofModule highVma, m.bitmapBlock highVma]

section Place

variable {fayt : Fayt} {sizeofModule highVma : ℕ}

/-- A higher-half address taken back to a physical one. -/
theorem usub_u64_add {x h : ℕ} (hx : x < 2 ^ 64) (hh : h < 2 ^ 64) : usub (u64 (x + h)) h = x := by
  unfold usub u64
  omega

theorem u64_u64_add (x h y : ℕ) : u64 (u64 (x + h) + y) = u64 (x + y + h) := by
  unfold u64
  omega

/-- **The third pass follows the layout**, the metadata starting at `p`. -/
theorem thirdPass_placed (hs : 0 < sizeofModule) (hvma : highVma < 2 ^ 64)
    (es : List MemmapEntry) (slot p k : ℕ)
    (hroom : p + sizeofModule + ((bitmapSizes fayt es).map fun b => sizeofModule * 3 + b).sum
      < 2 ^ 63) :
    (thirdPass fayt sizeofModule highVma es slot (u64 (p + highVma)))[k]?.map
        (fun m => (m.record sizeofModule highVma, m.bitmapBlock highVma))
      = (bitmapSizes fayt es)[k]?.map (placedAt sizeofModule p (bitmapSizes fayt es) k) := by
  induction es generalizing slot p k with
  | nil => simp [thirdPass, bitmapSizes]
  | cons e rest ih =>
      rw [thirdPass]
      split_ifs with hu
      · have hsizes : bitmapSizes fayt (e :: rest)
            = bitmapBytes fayt e.length :: bitmapSizes fayt rest := by
          rw [bitmapSizes_cons, if_pos hu]
        rw [hsizes, List.map_cons, List.sum_cons] at hroom
        have hlt : roundUp p sizeofModule < p + sizeofModule := roundUp_lt hs
        rw [usub_u64_add (by omega) hvma, fayt.alignUp_eq hs (by omega), hsizes]
        cases k with
        | zero =>
            simp only [pmmInitModule, List.getElem?_cons_zero, Option.map_some, placedAt,
              recordAt_zero, PmmModule.record, PmmModule.bitmapBlock, u64_u64_add]
            rw [usub_u64_add (by omega) hvma, usub_u64_add (by omega) hvma]
            rfl
        | succ k =>
            have hrest := ih (slot + 1) (roundUp p sizeofModule + sizeofModule * 2
              + bitmapBytes fayt e.length) k (by omega)
            simp only [pmmInitModule, List.getElem?_cons_succ, u64_u64_add]
            refine hrest.trans (congrArg (fun f => Option.map f _) ?_)
            funext b
            rw [placedAt, placedAt, recordAt_cons hs]
      · have hsizes : bitmapSizes fayt (e :: rest) = bitmapSizes fayt rest := by
          rw [bitmapSizes_cons, if_neg hu]
        rw [hsizes] at hroom ⊢
        exact ih (slot + 1) p k hroom

end Place

/-! ### The map that is left -/

section Left

variable (fayt : Fayt) (sizeofModule : ℕ) (mmap : List MemmapEntry)

/-- The size of the carved interval. -/
def carvedSize : ℕ := roundUp (metadataSize fayt sizeofModule mmap) pageSize

/-- What is left of entry `i`: nothing below 1 MiB, and the host without the carved interval. -/
def leftEntry (i : ℕ) (e : MemmapEntry) : MemmapEntry :=
  if e.Below then { e with length := 0 }
  else if host (metadataSize fayt sizeofModule mmap) mmap = some i then
    { e with base := max e.base lowMem + carvedSize fayt sizeofModule mmap,
             length := e.length - carvedSize fayt sizeofModule mmap }
  else { e with base := max e.base lowMem }

/-- The map that is left. -/
def leftMap : List MemmapEntry := mmap.mapIdx (leftEntry fayt sizeofModule mmap)

/-- The bitmaps there will be. -/
def leftSizes : List ℕ := bitmapSizes fayt (leftMap fayt sizeofModule mmap)

end Left

section LeftMap

variable {fayt : Fayt} {sizeofModule : ℕ} {mmap : List MemmapEntry}

theorem leftEntry_type (i : ℕ) (e : MemmapEntry) :
    (leftEntry fayt sizeofModule mmap i e).type = e.type := by
  unfold leftEntry
  split_ifs <;> rfl

variable (fayt sizeofModule mmap) in
theorem leftEntry_length_le (i : ℕ) (e : MemmapEntry) :
    (leftEntry fayt sizeofModule mmap i e).length ≤ e.length := by
  unfold leftEntry
  split_ifs
  · exact Nat.zero_le _
  · exact Nat.sub_le _ _
  · exact le_refl _

theorem trimLow_eq {e : MemmapEntry} (htop : e.base + e.length ≤ physTop) :
    trimLow e = if e.Below then { e with length := 0 }
      else { e with base := max e.base lowMem } := by
  split_ifs with hbelow
  · have hsub : usub lowMem e.base = lowMem - e.base := by
      unfold MemmapEntry.Below at hbelow
      exact usub_of_le (by omega) (by decide)
    unfold MemmapEntry.Below at hbelow
    unfold trimLow
    rw [if_pos (by omega), if_pos (by rw [hsub]; omega)]
  · exact trimLow_of_not_below hbelow htop

/-- The entry that hosts the metadata. -/
theorem host_spec {n i : ℕ} (hhost : host n mmap = some i) :
    ∃ e, mmap[i]? = some e ∧ e.type = .usable ∧ n ≤ e.length ∧ ¬ e.Below := by
  obtain ⟨hi, hp, -⟩ := List.findIdx?_eq_some_iff_getElem.mp hhost
  obtain ⟨⟨hu, hle⟩, hbelow⟩ := of_decide_eq_true hp
  exact ⟨mmap[i], List.getElem?_eq_getElem hi, hu, hle, hbelow⟩

theorem GoodMap.apart_of_ne (h : GoodMap fayt sizeofModule mmap) {i j : ℕ} {e e' : MemmapEntry}
    (he : mmap[i]? = some e) (he' : mmap[j]? = some e') (hne : i ≠ j) :
    e.extent.Apart e'.extent := by
  obtain ⟨hi, rfl⟩ := List.getElem?_eq_some_iff.mp he
  obtain ⟨hj, rfl⟩ := List.getElem?_eq_some_iff.mp he'
  have hpair := List.pairwise_iff_getElem.mp h.apart
  rcases Nat.lt_or_gt_of_ne hne with hlt | hlt
  · exact hpair i j hi hj hlt
  · exact (hpair j i hj hi hlt).symm

/-- The carved interval is part of the host. -/
theorem GoodMap.carvedSize_le (h : GoodMap fayt sizeofModule mmap) {e : MemmapEntry}
    (he : e ∈ mmap) (hu : e.type = .usable) (hle : metadataSize fayt sizeofModule mmap ≤ e.length) :
    carvedSize fayt sizeofModule mmap ≤ e.length :=
  (Fayt.isLeast_roundup pageSize_pos).2 ⟨(h.aligned e he hu).2, hle⟩

/-- **What `pmm_init` leaves of the map.** -/
theorem pmmInit_fst (highVma : ℕ) (h : GoodMap fayt sizeofModule mmap) (hs : 0 < sizeofModule) :
    (pmmInit fayt sizeofModule highVma mmap).1 = leftMap fayt sizeofModule mmap := by
  apply List.ext_getElem?
  intro i
  rw [pmmInit_getElem? highVma h hs, leftMap, List.getElem?_mapIdx]
  rcases he : mmap[i]? with - | e
  · rfl
  have hmem := List.mem_of_getElem? he
  have htop := h.top e hmem
  simp only [Option.map_some, Option.some.injEq]
  unfold leftEntry
  by_cases hhost : host (metadataSize fayt sizeofModule mmap) mmap = some i
  · obtain ⟨e', he', hu, hle, hbelow⟩ := host_spec hhost
    cases he.symm.trans he'
    obtain ⟨hb, hl⟩ := h.aligned e hmem hu
    obtain ⟨c, hdvd, hge, hlt, -, hcarve⟩ := carve_trimLow_spec hb hl htop hle hbelow
    obtain rfl : c = carvedSize fayt sizeofModule mmap := eq_roundUp pageSize_pos hdvd hge hlt
    rw [if_pos hhost, if_neg hbelow, if_pos hhost, hcarve]
  · rw [if_neg hhost, if_neg hhost, trimLow_eq htop]

theorem bitmapBytes_eq {l : ℕ} (hl : l ≤ physTop) :
    bitmapBytes fayt l = ((l + pageSize - 1) / pageSize + 8 - 1) / 8 := by
  have hpage : pageSize = 4096 := rfl
  unfold physTop at hl
  have hcnt : fayt.divRoundup l pageSize = (l + pageSize - 1) / pageSize :=
    fayt.divRoundup_eq pageSize_pos (by omega)
  rw [bitmapBytes, hcnt, fayt.divRoundup_eq (by decide) (by rw [hpage]; omega)]

theorem bitmapBytes_mono {l l' : ℕ} (hle : l ≤ l') (hl : l' ≤ physTop) :
    bitmapBytes fayt l ≤ bitmapBytes fayt l' := by
  rw [bitmapBytes_eq hl, bitmapBytes_eq (hle.trans hl)]
  have hpages : (l + pageSize - 1) / pageSize ≤ (l' + pageSize - 1) / pageSize :=
    Nat.div_le_div_right (by omega)
  exact Nat.div_le_div_right (by omega)

/-- Even with a whole record of rounding for each, the layout takes at most twice what
was counted. -/
theorem bitmapSizes_sum_le (fayt : Fayt) (sizeofModule : ℕ) {es' es : List MemmapEntry}
    (h : List.Forall₂ (fun e' e => e'.type = e.type ∧ e'.length ≤ e.length ∧ e.length ≤ physTop)
      es' es) :
    ((bitmapSizes fayt es').map fun b => sizeofModule * 3 + b).sum
      ≤ 2 * metadataSize fayt sizeofModule es := by
  induction h with
  | nil => exact Nat.zero_le _
  | @cons e' e es' es hhead _ ih =>
      obtain ⟨htype, hle, htop⟩ := hhead
      have hbytes : bitmapBytes fayt e'.length ≤ bitmapBytes fayt e.length :=
        bitmapBytes_mono hle htop
      have hsize : metadataSize fayt sizeofModule (e :: es) = (if e.type = .usable then
          sizeofModule * 2 + bitmapBytes fayt e.length else 0)
          + metadataSize fayt sizeofModule es := by
        by_cases hu : e.type = .usable <;> simp [metadataSize, metadataOf, bitmapBytes, hu]
      rw [hsize, bitmapSizes_cons, htype]
      split_ifs with hleft hu
      · rw [List.map_cons, List.sum_cons]
        omega
      · exact absurd hleft.1 hu
      · omega
      · omega

/-- The layout does not wrap. -/
theorem GoodMap.layout_lt (h : GoodMap fayt sizeofModule mmap) {e : MemmapEntry} (he : e ∈ mmap) :
    max e.base lowMem + sizeofModule
      + ((leftSizes fayt sizeofModule mmap).map fun b => sizeofModule * 3 + b).sum < 2 ^ 63 := by
  obtain ⟨r, hr, -, hroom⟩ := h.room
  have hleft : List.Forall₂ (fun e' e : MemmapEntry => e'.type = e.type ∧ e'.length ≤ e.length ∧
      e.length ≤ physTop) (leftMap fayt sizeofModule mmap) mmap := by
    refine List.forall₂_iff_get.mpr ⟨List.length_mapIdx, fun i h₁ h₂ => ?_⟩
    have htop := h.top _ (List.get_mem mmap ⟨i, h₂⟩)
    simp only [leftMap, List.get_eq_getElem, List.getElem_mapIdx] at htop ⊢
    exact ⟨leftEntry_type _ _, leftEntry_length_le _ _ _ _ _, by omega⟩
  have hsum := bitmapSizes_sum_le fayt sizeofModule hleft
  have hrecords := h.records_le
  have hrtop := h.top r hr
  have htop := h.top e he
  have hmax : max e.base lowMem ≤ e.base + lowMem := max_le (by omega) (by omega)
  have hlow : lowMem = 0x100000 := rfl
  unfold physTop at hrtop htop
  unfold leftSizes
  omega

end LeftMap

/-! ### Apart from the modules -/

section Modules

variable {fayt : Fayt} {sizeofModule highVma : ℕ} {mmap : List MemmapEntry}

theorem thirdPass_bitmapSizes (es : List MemmapEntry) (slot metaBuffer : ℕ) :
    (thirdPass fayt sizeofModule highVma es slot metaBuffer).map PmmModule.bitmapSize
      = bitmapSizes fayt es := by
  induction es generalizing slot metaBuffer with
  | nil => rfl
  | cons e rest ih =>
      rw [thirdPass, bitmapSizes_cons]
      split_ifs
      · exact congrArg _ (ih _ _)
      · exact ih _ _

/-- **The metadata of `pmm_init` is the layout**, which starts with the host. -/
theorem pmmInit_blocks (h : GoodMap fayt sizeofModule mmap) (hs : 0 < sizeofModule)
    (hvma : highVma < 2 ^ 64) {i : ℕ} {e : MemmapEntry}
    (hhost : host (metadataSize fayt sizeofModule mmap) mmap = some i) (he : mmap[i]? = some e) :
    metadataBlocks sizeofModule highVma (pmmInit fayt sizeofModule highVma mmap).2
      = layoutBlocks sizeofModule (max e.base lowMem) (leftSizes fayt sizeofModule mmap) := by
  obtain ⟨e', he', -, -, hbelow⟩ := host_spec hhost
  cases he.symm.trans he'
  have hsize : (firstPass fayt sizeofModule mmap 0).1 = metadataSize fayt sizeofModule mmap := by
    rw [firstPass_fst _ _ _ _ (by simpa using h.metadataSize_lt), zero_add]
  have hbuffer : (secondPass fayt highVma (metadataSize fayt sizeofModule mmap)
      (mmap.map trimLow)).1 = some (u64 (max e.base lowMem + highVma)) := by
    rw [← findIdx?_trimLow (h.metadataSize_pos hs) mmap h.top] at hhost
    rw [secondPass_fst fayt highVma hhost (e := trimLow e) (by rw [List.getElem?_map, he]; rfl),
      trimLow_of_not_below hbelow (h.top e (List.mem_of_getElem? he))]
  have hmodules : (pmmInit fayt sizeofModule highVma mmap).2 = thirdPass fayt sizeofModule highVma
      (leftMap fayt sizeofModule mmap) 0 (u64 (max e.base lowMem + highVma)) := by
    rw [← pmmInit_fst highVma h hs]
    simp only [pmmInit, hsize, firstPass_snd, hbuffer, Option.getD_some]
  have hplaced : (pmmInit fayt sizeofModule highVma mmap).2.map
      (fun m => (m.record sizeofModule highVma, m.bitmapBlock highVma))
      = (leftSizes fayt sizeofModule mmap).mapIdx
          (placedAt sizeofModule (max e.base lowMem) (leftSizes fayt sizeofModule mmap)) := by
    apply List.ext_getElem?
    intro k
    rw [List.getElem?_map, List.getElem?_mapIdx, hmodules]
    exact thirdPass_placed hs hvma _ 0 _ k (h.layout_lt (List.mem_of_getElem? he))
  rw [layoutBlocks, ← hplaced, List.flatMap_map]
  rfl

variable (highVma) in
/-- What a module manages is what is left of its entry. -/
theorem pmmInit_managed (h : GoodMap fayt sizeofModule mmap) (hs : 0 < sizeofModule)
    {m : PmmModule} (hm : m ∈ (pmmInit fayt sizeofModule highVma mmap).2) :
    ∃ e, mmap[m.slot]? = some e ∧ e.type = .usable ∧ ¬ e.Below ∧
      m.managed = (leftEntry fayt sizeofModule mmap m.slot e).extent := by
  obtain ⟨k, e', hk, hu, hl, hslot, hentry, hsize⟩ := mem_thirdPass fayt sizeofModule highVma hm
  rw [zero_add] at hslot
  subst hslot
  replace hk : (pmmInit fayt sizeofModule highVma mmap).1[m.slot]? = some e' := hk
  rw [pmmInit_fst highVma h hs, leftMap, List.getElem?_mapIdx] at hk
  obtain ⟨e, he, rfl⟩ := Option.map_eq_some_iff.mp hk
  rw [leftEntry_type] at hu
  have hmem := List.mem_of_getElem? he
  have hbelow : ¬ e.Below := by
    intro hbelow
    rw [leftEntry, if_pos hbelow] at hl
    exact hl rfl
  refine ⟨e, he, hu, hbelow, ?_⟩
  have hdvd : pageSize ∣ (leftEntry fayt sizeofModule mmap m.slot e).length := by
    have hpages := (h.aligned e hmem hu).2
    rw [leftEntry, if_neg hbelow]
    split_ifs
    · exact Nat.dvd_sub hpages dvd_roundUp
    · exact hpages
  obtain ⟨c, hc⟩ := hdvd
  have hle := leftEntry_length_le fayt sizeofModule mmap m.slot e
  have htop := h.top e hmem
  have hpage : pageSize = 4096 := rfl
  unfold physTop at htop
  have hround : m.bitmap.size * pageSize
      = (leftEntry fayt sizeofModule mmap m.slot e).length := by
    rw [hsize, hc, mul_comm pageSize c, fayt.divRoundup_mul pageSize_pos (by
      rw [mul_comm c, ← hc]
      omega)]
  unfold PmmModule.managed PmmModule.base PmmModule.bitmapEntryCnt
  rw [hround, hentry]
  rfl

variable (highVma) in
/-- An entry of which something is left has its module. -/
theorem exists_managed (h : GoodMap fayt sizeofModule mmap) (hs : 0 < sizeofModule) {j : ℕ}
    {e : MemmapEntry} (he : mmap[j]? = some e) (hu : e.type = .usable)
    (hl : (leftEntry fayt sizeofModule mmap j e).length ≠ 0) :
    ∃ m ∈ (pmmInit fayt sizeofModule highVma mmap).2,
      m.managed = (leftEntry fayt sizeofModule mmap j e).extent := by
  have hj : (pmmInit fayt sizeofModule highVma mmap).1[j]?
      = some (leftEntry fayt sizeofModule mmap j e) := by
    rw [pmmInit_fst highVma h hs, leftMap, List.getElem?_mapIdx, he]
    rfl
  obtain ⟨m, hm, hslot⟩ := exists_mem_thirdPass fayt sizeofModule highVma 0 _ hj
    ((leftEntry_type j e).trans hu) hl
  rw [zero_add] at hslot
  obtain ⟨e', he', -, -, hmanaged⟩ := pmmInit_managed highVma h hs hm
  rw [hslot, he] at he'
  cases he'
  exact ⟨m, hm, hslot ▸ hmanaged⟩

end Modules

/-- **The metadata is apart**: records and bitmaps are disjoint, lie in the interval that is
carved out of the host, and have no address of a module. -/
structure MetadataApart (fayt : Fayt) (sizeofModule highVma : ℕ) (mmap : List MemmapEntry) :
    Prop where
  disjoint : (metadataBlocks sizeofModule highVma
    (pmmInit fayt sizeofModule highVma mmap).2).Pairwise Block.Apart
  inside : ∀ b ∈ metadataBlocks sizeofModule highVma (pmmInit fayt sizeofModule highVma mmap).2,
    ∃ i e e', host (metadataSize fayt sizeofModule mmap) mmap = some i ∧ mmap[i]? = some e ∧
      (pmmInit fayt sizeofModule highVma mmap).1[i]? = some e' ∧
      (trimLow e).base ≤ b.first ∧ b.first + b.len ≤ e'.base
  unmanaged : ∀ b ∈ metadataBlocks sizeofModule highVma
      (pmmInit fayt sizeofModule highVma mmap).2,
    ∀ m ∈ (pmmInit fayt sizeofModule highVma mmap).2, b.Apart m.managed

/-- Entry `i` hosts the metadata, the last bitmap of the layout ends in the carved interval,
and where the host or another entry reaches across 1 MiB, the memory of the other entry,
from 1 MiB on and with its full length, has no record and no bitmap. -/
structure MetadataFits (fayt : Fayt) (sizeofModule : ℕ) (mmap : List MemmapEntry) (i : ℕ)
    (e : MemmapEntry) : Prop where
  host : host (metadataSize fayt sizeofModule mmap) mmap = some i
  entry : mmap[i]? = some e
  size : ∀ last, (leftSizes fayt sizeofModule mmap).getLast? = some last →
    recordAt sizeofModule (max e.base lowMem) (leftSizes fayt sizeofModule mmap)
        ((leftSizes fayt sizeofModule mmap).length - 1) + sizeofModule * 2 + last
      ≤ max e.base lowMem + carvedSize fayt sizeofModule mmap
  low : ∀ j e', mmap[j]? = some e' → e'.type = .usable → ¬ e'.Below → j ≠ i →
    e.Straddles ∨ e'.Straddles →
      ∀ b ∈ layoutBlocks sizeofModule (max e.base lowMem) (leftSizes fayt sizeofModule mmap),
        b.Apart ⟨max e'.base lowMem, e'.length⟩

section Fits

variable {fayt : Fayt} {sizeofModule highVma : ℕ} {mmap : List MemmapEntry}

/-- What is left of an entry that is not the host. -/
theorem leftEntry_of_ne {i j : ℕ} {e : MemmapEntry}
    (hhost : host (metadataSize fayt sizeofModule mmap) mmap = some i) (hne : j ≠ i)
    (hbelow : ¬ e.Below) :
    (leftEntry fayt sizeofModule mmap j e).extent = ⟨max e.base lowMem, e.length⟩ := by
  have hother : ¬ host (metadataSize fayt sizeofModule mmap) mmap = some j := by
    rw [hhost]
    exact fun hc => hne (Option.some.inj hc).symm
  rw [leftEntry, if_neg hbelow, if_neg hother]
  rfl

/-- What is left of the host. -/
theorem leftEntry_host {i : ℕ} {e : MemmapEntry}
    (hhost : host (metadataSize fayt sizeofModule mmap) mmap = some i) (hbelow : ¬ e.Below) :
    leftEntry fayt sizeofModule mmap i e
      = { e with base := max e.base lowMem + carvedSize fayt sizeofModule mmap,
                 length := e.length - carvedSize fayt sizeofModule mmap } := by
  rw [leftEntry, if_neg hbelow, if_pos hhost]

/-- The layout keeps to what was counted if the metadata is apart. -/
theorem MetadataApart.fits (h : GoodMap fayt sizeofModule mmap) (hs : 0 < sizeofModule)
    (hvma : highVma < 2 ^ 64) (hapart : MetadataApart fayt sizeofModule highVma mmap)
    (hsome : leftSizes fayt sizeofModule mmap ≠ []) :
    ∃ i e, MetadataFits fayt sizeofModule mmap i e := by
  -- there is a module, so there is a host
  obtain ⟨m, hm⟩ : ∃ m, m ∈ (pmmInit fayt sizeofModule highVma mmap).2 := by
    apply List.exists_mem_of_ne_nil
    intro hnil
    apply hsome
    rw [leftSizes, ← pmmInit_fst highVma h hs, ← thirdPass_bitmapSizes]
    exact congrArg _ hnil
  obtain ⟨i, e, -, hhost, he, -⟩ := hapart.inside (m.record sizeofModule highVma)
    (List.mem_flatMap.mpr ⟨m, hm, List.mem_cons_self⟩)
  obtain ⟨e', he', hu, -, hbelow⟩ := host_spec hhost
  cases he.symm.trans he'
  obtain ⟨-, hinside, hunmanaged⟩ := hapart
  rw [pmmInit_blocks h hs hvma hhost he] at hinside hunmanaged
  refine ⟨i, e, hhost, he, fun last hlast => ?_, fun j e' he' hu' hbelow' hne _ b hb => ?_⟩
  · rw [List.getLast?_eq_getElem?] at hlast
    obtain ⟨i', e₁, e₂, hhost', -, he₂, -, hend⟩ := hinside _
      (mem_layoutBlocks.mpr ⟨_, last, hlast, .inr rfl⟩)
    cases hhost.symm.trans hhost'
    rw [pmmInit_fst highVma h hs, leftMap, List.getElem?_mapIdx, he, Option.map_some,
      leftEntry_host hhost hbelow] at he₂
    obtain rfl := Option.some.inj he₂
    exact hend
  · by_cases hzero : e'.length = 0
    · rintro a ⟨-, hhas⟩
      simp only [Block.Has, hzero] at hhas
      omega
    have hleft : (leftEntry fayt sizeofModule mmap j e').extent
        = ⟨max e'.base lowMem, e'.length⟩ := leftEntry_of_ne hhost hne hbelow'
    obtain ⟨m', hm', hmanaged⟩ := exists_managed highVma h hs he' hu'
      (show (leftEntry fayt sizeofModule mmap j e').extent.len ≠ 0 by rwa [hleft])
    rw [hleft] at hmanaged
    exact hmanaged ▸ hunmanaged b hb m' hm'

/-- The metadata is apart if the layout keeps to what was counted. -/
theorem MetadataFits.apart (h : GoodMap fayt sizeofModule mmap) (hs : 0 < sizeofModule)
    (hvma : highVma < 2 ^ 64) {i : ℕ} {e : MemmapEntry}
    (hfits : MetadataFits fayt sizeofModule mmap i e) :
    MetadataApart fayt sizeofModule highVma mmap := by
  obtain ⟨hhost, he, hsize, hlow⟩ := hfits
  obtain ⟨e', he', hu, hle, hbelow⟩ := host_spec hhost
  cases he.symm.trans he'
  have hmem := List.mem_of_getElem? he
  have hinside : ∀ b ∈ layoutBlocks sizeofModule (max e.base lowMem)
      (leftSizes fayt sizeofModule mmap), max e.base lowMem ≤ b.first ∧
        b.first + b.len ≤ max e.base lowMem + carvedSize fayt sizeofModule mmap := by
    intro b hb
    obtain ⟨hstart, last, hlast, hend⟩ := layoutBlocks_inside hs hb
    exact ⟨hstart, hend.trans (hsize last hlast)⟩
  constructor <;> rw [pmmInit_blocks h hs hvma hhost he]
  case disjoint => exact layoutBlocks_apart hs
  case inside =>
    intro b hb
    refine ⟨i, e, leftEntry fayt sizeofModule mmap i e, hhost, he, ?_, ?_⟩
    · rw [pmmInit_fst highVma h hs, leftMap, List.getElem?_mapIdx, he]
      rfl
    · rw [trimLow_of_not_below hbelow (h.top e hmem), leftEntry_host hhost hbelow]
      exact hinside b hb
  case unmanaged =>
    intro b hb m hm
    obtain ⟨e', he', hu', hbelow', hmanaged⟩ := pmmInit_managed highVma h hs hm
    rw [hmanaged]
    rcases eq_or_ne m.slot i with hslot | hne
    · -- the host has what is behind the carved interval
      rw [hslot] at he' ⊢
      cases he.symm.trans he'
      rw [leftEntry_host hhost hbelow]
      rintro a ⟨hb', ha⟩
      have hend := hb'.2
      have hstart : max e.base lowMem + carvedSize fayt sizeofModule mmap ≤ a := ha.1
      have hlayout := (hinside b hb).2
      omega
    rw [leftEntry_of_ne hhost hne hbelow']
    by_cases hstr : e.Straddles ∨ e'.Straddles
    · exact hlow m.slot e' he' hu' hbelow' hne hstr b hb
    · -- both entries keep their extent, and the carved interval is part of the host
      have habove : ∀ {x : MemmapEntry}, ¬ x.Below → ¬ x.Straddles →
          max x.base lowMem = x.base := by
        intro x hx hxs
        refine max_eq_left (not_lt.mp fun hc => hxs ⟨hc, not_lt.mp hx⟩)
      push Not at hstr
      rw [habove hbelow' hstr.2]
      rw [habove hbelow hstr.1] at hinside hb
      have hwithin : b.Within e.extent := by
        have hcarved := h.carvedSize_le hmem hu hle
        have hb' := hinside b hb
        exact ⟨hb'.1, by show b.first + b.len ≤ e.base + e.length; omega⟩
      exact hwithin.apart (h.apart_of_ne he he' hne.symm)

end Fits

/-- **When the metadata is apart.**  If there is a module at all, there has to be a host, and
the layout, with the rounding that was not counted, has to keep to the carved interval and
to stay clear of the entry that reaches across 1 MiB. -/
theorem metadata_apart_iff (fayt : Fayt) {sizeofModule highVma : ℕ} {mmap : List MemmapEntry}
    (hs : 0 < sizeofModule) (hvma : highVma < 2 ^ 64) (h : GoodMap fayt sizeofModule mmap) :
    MetadataApart fayt sizeofModule highVma mmap ↔
      (leftSizes fayt sizeofModule mmap ≠ [] → ∃ i e, MetadataFits fayt sizeofModule mmap i e) := by
  refine ⟨fun hapart => hapart.fits h hs hvma, fun hfits => ?_⟩
  by_cases hnil : leftSizes fayt sizeofModule mmap = []
  · -- no module, and no metadata
    have hnone : (pmmInit fayt sizeofModule highVma mmap).2 = [] := by
      apply List.map_eq_nil_iff.mp
      rw [← hnil, leftSizes, ← pmmInit_fst highVma h hs]
      exact thirdPass_bitmapSizes _ _ _
    refine ⟨?_, ?_, ?_⟩ <;> rw [hnone]
    · exact .nil
    · exact nofun
    · exact nofun
  · obtain ⟨i, e, hfits⟩ := hfits hnil
    exact hfits.apart h hs hvma

/-! ### A page shared with the allocator -/

/-- One usable entry, whose metadata fills a page to the last byte. -/
def tightMap : List MemmapEntry := [⟨0x100000, 0x7c80000, .usable⟩]

/-- One usable entry of 2 MiB. -/
def looseMap : List MemmapEntry := [⟨0x100000, 0x200000, .usable⟩]

theorem goodMap_single {e : MemmapEntry} (hu : e.type = .usable)
    (hpages : pageSize ∣ e.base ∧ pageSize ∣ e.length) (htop : e.base + e.length ≤ physTop)
    (hroom : metadataSize .textbook 56 [e] ≤ e.length) : GoodMap .textbook 56 [e] where
  apart := List.pairwise_singleton _ _
  aligned := fun _ he' _ => List.mem_singleton.mp he' ▸ hpages
  top := fun _ he' => List.mem_singleton.mp he' ▸ htop
  room := ⟨e, List.mem_singleton_self e, hu, hroom⟩

/-- **A bitmap in a page that is handed out.**  The record goes to the next multiple of 56
behind 0x100000, so the bitmap ends 24 bytes behind the carved page, in the first page that
the module manages. -/
theorem metadata_overlaps :
    GoodMap .textbook 56 tightMap ∧
    metadataBlocks 56 0xffff800000000000 (pmmInit .textbook 56 0xffff800000000000 tightMap).2
      = [⟨0x100018, 56⟩, ⟨0x100088, 3984⟩] ∧
    (pmmInit .textbook 56 0xffff800000000000 tightMap).2.map PmmModule.managed
      = [⟨0x101000, 0x7c7f000⟩] ∧
    ¬ MetadataApart .textbook 56 0xffff800000000000 tightMap := by
  have hblocks : metadataBlocks 56 0xffff800000000000
      (pmmInit .textbook 56 0xffff800000000000 tightMap).2
      = [⟨0x100018, 56⟩, ⟨0x100088, 3984⟩] := by decide +kernel
  have hmanaged : (pmmInit .textbook 56 0xffff800000000000 tightMap).2.map PmmModule.managed
      = [⟨0x101000, 0x7c7f000⟩] := by decide +kernel
  refine ⟨goodMap_single rfl (by decide) (by decide) (by decide +kernel), hblocks, hmanaged, ?_⟩
  intro hapart
  obtain ⟨m, hm, hm'⟩ := List.mem_map.mp (hmanaged ▸ List.mem_singleton_self _)
  have hb := hapart.unmanaged ⟨0x100088, 3984⟩ (by rw [hblocks]; simp) m hm
  rw [hm'] at hb
  exact hb 0x101000 (by decide)

/-- An entry with a short bitmap has room for the rounding. -/
theorem metadata_apart_loose :
    MetadataApart .textbook 56 0xffff800000000000 looseMap := by
  refine (metadata_apart_iff .textbook (by decide) (by decide)
    (goodMap_single rfl (by decide) (by decide) (by decide +kernel))).mpr fun _ => ?_
  refine ⟨0, ⟨0x100000, 0x200000, .usable⟩, by decide +kernel, rfl, ?_, ?_⟩
  · have hsizes : leftSizes .textbook 56 looseMap = [64] := by decide +kernel
    rw [show leftSizes .textbook 56 [_] = _ from hsizes]
    decide +kernel
  · intro j e' he' _ _ hne
    cases j with
    | zero => exact absurd rfl hne
    | succ j => cases he'

end Rock
