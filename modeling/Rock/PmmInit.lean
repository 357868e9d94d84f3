/-
Rock/PmmInit.lean

`pmm_init` (kernel/core/physical.c): from the boot loader's memory map to the
list of allocator modules.

Three passes over the map.  The first sums up the size of the allocator's
metadata and trims every entry that starts below 1 MiB; the second carves the
metadata out of the first usable entry that is large enough; the third makes a
module of every usable entry that is left.  All three work on the map in
place, so the later ones see what the earlier ones wrote.

The trim of an entry that reaches across 1 MiB is

    mmap[i]->base += 0x100000 - mmap[i]->base;
    mmap[i]->length -= 0x100000 - mmap[i]->base;

and the second line reads the base the first one has just written: the base
moves up, the length stays (`trimLow_straddles`).  The module of such an entry
ends beyond the entry.  `pmmInit_honest_iff` says that these entries are the
only way in which `pmm_init` manages memory it was not given.
-/
import Rock.Pmm

namespace Rock

/-! ### The passes -/

/-- The 1 MiB line. -/
def lowMem : ℕ := 0x100000

/-- Physical addresses have at most 52 bits. -/
def physTop : ℕ := 2 ^ 52

/-- The addresses of a memory map entry. -/
def MemmapEntry.extent (e : MemmapEntry) : Block := ⟨e.base, e.length⟩

/-- The first pass on one entry: trim what lies below 1 MiB. -/
def trimLow (e : MemmapEntry) : MemmapEntry :=
  if e.base < lowMem then
    if e.length < usub lowMem e.base then { e with length := 0 }
    else
      let e := { e with base := u64 (e.base + usub lowMem e.base) }
      { e with length := usub e.length (usub lowMem e.base) }
  else e

section

variable (fayt : Fayt) (sizeofModule highVma : ℕ)

/-- What one usable entry adds to `buffer_size`. -/
def metadataOf (e : MemmapEntry) : ℕ :=
  sizeofModule * 2 + fayt.divRoundup (fayt.divRoundup e.length pageSize) 8

/-- The first pass: `buffer_size` and the trimmed map. -/
def firstPass : List MemmapEntry → ℕ → ℕ × List MemmapEntry
  | [], bufferSize => (bufferSize, [])
  | e :: rest, bufferSize =>
      let bufferSize :=
        if e.type = .usable then u64 (bufferSize + metadataOf fayt sizeofModule e)
        else bufferSize
      let (bufferSize, rest') := firstPass rest bufferSize
      (bufferSize, trimLow e :: rest')

/-- The entry that hosts the metadata, without it. -/
def carve (bufferSize : ℕ) (e : MemmapEntry) : MemmapEntry :=
  { e with
    base := fayt.alignUp (u64 (e.base + bufferSize)) pageSize
    length := usub e.length bufferSize / pageSize * pageSize }

/-- The test of the second pass. -/
def FitsMetadata (bufferSize : ℕ) (e : MemmapEntry) : Prop :=
  e.type = .usable ∧ bufferSize ≤ e.length

instance (bufferSize : ℕ) (e : MemmapEntry) : Decidable (FitsMetadata bufferSize e) :=
  inferInstanceAs (Decidable (_ ∧ _))

/-- The second pass: `meta_buffer` and the map without the metadata. -/
def secondPass (bufferSize : ℕ) : List MemmapEntry → Option ℕ × List MemmapEntry
  | [] => (none, [])
  | e :: rest =>
      if FitsMetadata bufferSize e then
        (some (u64 (e.base + highVma)), carve fayt bufferSize e :: rest)
      else
        let (metaBuffer, rest') := secondPass bufferSize rest
        (metaBuffer, e :: rest')

/-- `pmm_init_module`, on a record that `pmm_init` has cleared: the module and
the next free metadata address. -/
def pmmInitModule (node slot metaBuffer : ℕ) (e : MemmapEntry) : PmmModule × ℕ :=
  let pageCnt := fayt.divRoundup e.length pageSize
  let bitmapSize := fayt.divRoundup pageCnt 8
  ({ node := node, slot := slot, mmapEntry := e, bitmapSize := bitmapSize, lastFree := 0,
     bitmapPtr := metaBuffer, bitmap := ⟨pageCnt, fun _ => false⟩ },
   u64 (metaBuffer + bitmapSize))

/-- The third pass: a module for every usable entry that has a length. -/
def thirdPass : List MemmapEntry → (slot metaBuffer : ℕ) → List PmmModule
  | [], _, _ => []
  | e :: rest, slot, metaBuffer =>
      if e.type = .usable ∧ e.length ≠ 0 then
        let node := u64 (fayt.alignUp (usub metaBuffer highVma) sizeofModule + highVma)
        let (m, metaBuffer) :=
          pmmInitModule fayt node slot (u64 (node + sizeofModule * 2)) e
        m :: thirdPass rest (slot + 1) metaBuffer
      else thirdPass rest (slot + 1) metaBuffer

/-- `pmm_init`: the rewritten map and the list of modules. -/
def pmmInit (mmap : List MemmapEntry) : List MemmapEntry × List PmmModule :=
  let (bufferSize, mmap) := firstPass fayt sizeofModule mmap 0
  let (metaBuffer, mmap) := secondPass fayt highVma bufferSize mmap
  (mmap, thirdPass fayt sizeofModule highVma mmap 0 (metaBuffer.getD 0))

end

/-! ### Trimming -/

/-- The entry reaches across, or up to, the 1 MiB line from below. -/
def MemmapEntry.Straddles (e : MemmapEntry) : Prop :=
  e.base < lowMem ∧ lowMem ≤ e.base + e.length

/-- The entry ends below the 1 MiB line. -/
def MemmapEntry.Below (e : MemmapEntry) : Prop := e.base + e.length < lowMem

instance (e : MemmapEntry) : Decidable e.Straddles := inferInstanceAs (Decidable (_ ∧ _))

instance (e : MemmapEntry) : Decidable e.Below := inferInstanceAs (Decidable (_ < _))

section Trim

variable {e : MemmapEntry}

@[simp] theorem trimLow_type (e : MemmapEntry) : (trimLow e).type = e.type := by
  unfold trimLow
  split_ifs <;> rfl

theorem trimLow_above (h : lowMem ≤ e.base) : trimLow e = e := if_neg (not_lt.mpr h)

theorem trimLow_below (h : e.Below) : (trimLow e).length = 0 := by
  unfold MemmapEntry.Below lowMem at h
  have hsub : usub lowMem e.base = lowMem - e.base :=
    usub_of_le (by unfold lowMem; omega) (by decide)
  unfold trimLow
  rw [if_pos (by unfold lowMem; omega), if_pos (by rw [hsub]; unfold lowMem; omega)]

/-- The base moves up to 1 MiB and the length is not reduced. -/
theorem trimLow_straddles (h : e.Straddles) (htop : e.base + e.length ≤ physTop) :
    trimLow e = { e with base := lowMem } := by
  obtain ⟨h1, h2⟩ := h
  have hsub : usub lowMem e.base = lowMem - e.base := usub_of_le h1.le (by decide)
  have hbase : u64 (e.base + (lowMem - e.base)) = lowMem := by
    rw [Nat.add_sub_of_le h1.le]
    decide
  have hlen : usub e.length (usub lowMem lowMem) = e.length := by
    rw [show usub lowMem lowMem = 0 by decide, usub_of_le (Nat.zero_le _)]
    · rfl
    · unfold physTop at htop
      omega
  unfold trimLow
  rw [if_pos h1, if_neg (by rw [hsub]; omega)]
  simp only [hsub, hbase, hlen]

/-- An entry that does not end below 1 MiB starts there or higher up afterwards. -/
theorem trimLow_of_not_below (h : ¬ e.Below) (htop : e.base + e.length ≤ physTop) :
    trimLow e = { e with base := max e.base lowMem } := by
  by_cases habove : lowMem ≤ e.base
  · rw [trimLow_above habove, max_eq_left habove]
  · rw [trimLow_straddles ⟨not_le.mp habove, not_lt.mp h⟩ htop, max_eq_right (not_le.mp habove).le]

end Trim

/-! ### What the passes do to the map -/

section Passes

variable (fayt : Fayt) (sizeofModule highVma : ℕ)

/-- The size of the metadata, as a sum over the usable entries. -/
def metadataSize (mmap : List MemmapEntry) : ℕ :=
  ((mmap.filter fun e => e.type = .usable).map (metadataOf fayt sizeofModule)).sum

theorem firstPass_snd (es : List MemmapEntry) (n : ℕ) :
    (firstPass fayt sizeofModule es n).2 = es.map trimLow := by
  induction es generalizing n with
  | nil => rfl
  | cons e rest ih =>
      show trimLow e :: (firstPass fayt sizeofModule rest _).2 = _
      rw [ih]
      rfl

theorem firstPass_fst (es : List MemmapEntry) (n : ℕ)
    (h : n + metadataSize fayt sizeofModule es < 2 ^ 64) :
    (firstPass fayt sizeofModule es n).1 = n + metadataSize fayt sizeofModule es := by
  induction es generalizing n with
  | nil => rfl
  | cons e rest ih =>
      show (firstPass fayt sizeofModule rest _).1 = _
      by_cases hu : e.type = .usable
      · have hsum : metadataSize fayt sizeofModule (e :: rest)
            = metadataOf fayt sizeofModule e + metadataSize fayt sizeofModule rest := by
          simp [metadataSize, hu]
        rw [hsum] at h ⊢
        rw [if_pos hu, u64_of_lt (by omega), ih _ (by omega), Nat.add_assoc]
      · have hsum : metadataSize fayt sizeofModule (e :: rest)
            = metadataSize fayt sizeofModule rest := by
          simp [metadataSize, hu]
        rw [hsum] at h ⊢
        rw [if_neg hu, ih _ h]

/-- The second pass carves the first entry that fits and no other. -/
theorem secondPass_getElem? (n : ℕ) (es : List MemmapEntry) (i : ℕ) :
    (secondPass fayt highVma n es).2[i]? =
      if es.findIdx? (fun e => decide (FitsMetadata n e)) = some i then
        es[i]?.map (carve fayt n)
      else es[i]? := by
  induction es generalizing i with
  | nil => simp [secondPass]
  | cons e rest ih =>
      by_cases hf : FitsMetadata n e
      · rw [List.findIdx?_cons, if_pos (decide_eq_true hf), secondPass, if_pos hf]
        cases i with
        | zero => simp
        | succ i => simp
      · rw [List.findIdx?_cons, decide_eq_false hf, secondPass, if_neg hf]
        cases i with
        | zero => simp
        | succ i =>
            show (secondPass fayt highVma n rest).2[i]? = _
            rw [ih i]
            rcases rest.findIdx? (fun e => decide (FitsMetadata n e)) with - | j
            · simp
            · simp only [Bool.false_eq_true, if_false, Option.map_some, Option.some.injEq,
                Nat.add_right_cancel_iff, List.getElem?_cons_succ]

/-- The metadata starts where the entry that fits did. -/
theorem secondPass_fst {n : ℕ} {es : List MemmapEntry} {i : ℕ} {e : MemmapEntry}
    (hi : es.findIdx? (fun e => decide (FitsMetadata n e)) = some i) (he : es[i]? = some e) :
    (secondPass fayt highVma n es).1 = some (u64 (e.base + highVma)) := by
  induction es generalizing i with
  | nil => cases hi
  | cons e₀ rest ih =>
      by_cases hf : FitsMetadata n e₀
      · rw [List.findIdx?_cons, if_pos (decide_eq_true hf)] at hi
        obtain rfl := Option.some.inj hi
        obtain rfl : e₀ = e := by simpa using he
        rw [secondPass, if_pos hf]
      · rw [List.findIdx?_cons, decide_eq_false hf] at hi
        obtain ⟨j, hj, rfl⟩ := Option.map_eq_some_iff.mp hi
        rw [secondPass, if_neg hf]
        exact ih hj he

/-- Every module of the third pass comes from a usable entry with a length. -/
theorem mem_thirdPass {es : List MemmapEntry} {slot metaBuffer : ℕ} {m : PmmModule}
    (hm : m ∈ thirdPass fayt sizeofModule highVma es slot metaBuffer) :
    ∃ k e, es[k]? = some e ∧ e.type = .usable ∧ e.length ≠ 0 ∧ m.slot = slot + k ∧
      m.mmapEntry = e ∧ m.bitmap.size = fayt.divRoundup e.length pageSize := by
  induction es generalizing slot metaBuffer with
  | nil => cases hm
  | cons e rest ih =>
      rw [thirdPass] at hm
      split_ifs at hm with hu
      · rcases List.mem_cons.mp hm with rfl | hm
        · exact ⟨0, e, rfl, hu.1, hu.2, rfl, rfl, rfl⟩
        · obtain ⟨k, e', hk, hrest⟩ := ih hm
          exact ⟨k + 1, e', hk, hrest.1, hrest.2.1, by omega, hrest.2.2.2⟩
      · obtain ⟨k, e', hk, hrest⟩ := ih hm
        exact ⟨k + 1, e', hk, hrest.1, hrest.2.1, by omega, hrest.2.2.2⟩

/-- Every usable entry with a length has its module. -/
theorem exists_mem_thirdPass {es : List MemmapEntry} (slot metaBuffer : ℕ) {k : ℕ}
    {e : MemmapEntry} (hk : es[k]? = some e) (hu : e.type = .usable) (hl : e.length ≠ 0) :
    ∃ m ∈ thirdPass fayt sizeofModule highVma es slot metaBuffer, m.slot = slot + k := by
  induction es generalizing slot metaBuffer k with
  | nil => simp at hk
  | cons e₀ rest ih =>
      cases k with
      | zero =>
          obtain rfl : e₀ = e := by simpa using hk
          rw [thirdPass, if_pos ⟨hu, hl⟩]
          exact ⟨_, List.mem_cons_self, rfl⟩
      | succ k =>
          rw [thirdPass]
          split_ifs
          · obtain ⟨m, hm, hs⟩ := ih (slot + 1) _ (by simpa using hk)
            exact ⟨m, List.mem_cons_of_mem _ hm, by omega⟩
          · obtain ⟨m, hm, hs⟩ := ih (slot + 1) _ (by simpa using hk)
            exact ⟨m, hm, by omega⟩

theorem thirdPass_slots (es : List MemmapEntry) (slot metaBuffer : ℕ) :
    (thirdPass fayt sizeofModule highVma es slot metaBuffer).Pairwise
      fun m m' => m.slot < m'.slot := by
  induction es generalizing slot metaBuffer with
  | nil => exact List.Pairwise.nil
  | cons e rest ih =>
      rw [thirdPass]
      split_ifs
      · refine List.pairwise_cons.mpr ⟨fun m hm => ?_, ih _ _⟩
        obtain ⟨k, -, -, -, -, hs, -⟩ := mem_thirdPass fayt sizeofModule highVma hm
        show slot < m.slot
        omega
      · exact ih _ _

/-- The host gives up whole pages: its end stays where it was. -/
theorem carve_spec {n : ℕ} {e : MemmapEntry} (hb : pageSize ∣ e.base)
    (hl : pageSize ∣ e.length) (hn : n ≤ e.length) (htop : e.base + e.length ≤ 2 ^ 53) :
    ∃ c, pageSize ∣ c ∧ n ≤ c ∧ c < n + pageSize ∧ c ≤ e.length ∧
      carve fayt n e = { e with base := e.base + c, length := e.length - c } := by
  obtain ⟨b, hb⟩ := hb
  obtain ⟨l, hl⟩ := hl
  have hpage : pageSize = 4096 := rfl
  obtain ⟨hdvd, hle, hlt⟩ := fayt.alignUp_spec (x := e.base + n) (a := pageSize)
    pageSize_pos (by omega)
  obtain ⟨k, hk⟩ := hdvd
  have hcarve : carve fayt n e
      = { e with base := fayt.alignUp (e.base + n) pageSize,
                 length := (e.length - n) / pageSize * pageSize } := by
    unfold carve
    rw [u64_of_lt (by omega), usub_of_le hn (by omega)]
  generalize fayt.alignUp (e.base + n) pageSize = y at *
  rw [hpage] at hb hl hk hlt
  have hlen : (e.length - n) / pageSize * pageSize = e.length - (y - e.base) := by
    rw [hpage]
    omega
  refine ⟨y - e.base, ?_, by omega, by omega, by omega, ?_⟩
  · rw [hk, hb]
    exact Nat.dvd_sub (dvd_mul_right _ _) (dvd_mul_right _ _)
  rw [hcarve, hlen, Nat.add_sub_of_le (by omega)]

end Passes

/-! ### The final map -/

/-- What is asked of a memory map: extents that do not overlap, usable ones
made of whole pages, physical addresses, and a usable entry large enough for
the metadata. -/
structure GoodMap (fayt : Fayt) (sizeofModule : ℕ) (mmap : List MemmapEntry) : Prop where
  apart : mmap.Pairwise fun e e' => e.extent.Apart e'.extent
  aligned : ∀ e ∈ mmap, e.type = .usable → pageSize ∣ e.base ∧ pageSize ∣ e.length
  top : ∀ e ∈ mmap, e.base + e.length ≤ physTop
  room : ∃ e ∈ mmap, e.type = .usable ∧ metadataSize fayt sizeofModule mmap ≤ e.length

/-- The entry that will host metadata of size `n`: the first usable one that is
large enough and does not end below 1 MiB. -/
def host (n : ℕ) (mmap : List MemmapEntry) : Option ℕ :=
  mmap.findIdx? fun e => decide (FitsMetadata n e ∧ ¬ e.Below)

section Final

variable {fayt : Fayt} {sizeofModule : ℕ} {mmap : List MemmapEntry}

/-- Trimming decides by the original entry whether it can host. -/
theorem fitsMetadata_trimLow {n : ℕ} (hn : 0 < n) {e : MemmapEntry}
    (htop : e.base + e.length ≤ physTop) :
    FitsMetadata n (trimLow e) ↔ FitsMetadata n e ∧ ¬ e.Below := by
  unfold FitsMetadata
  rw [trimLow_type]
  by_cases hbelow : e.Below
  · rw [trimLow_below hbelow]
    exact ⟨fun h => by omega, fun h => absurd hbelow h.2⟩
  · by_cases habove : lowMem ≤ e.base
    · rw [trimLow_above habove]
      exact ⟨fun h => ⟨h, hbelow⟩, fun h => h.1⟩
    · rw [trimLow_straddles ⟨not_le.mp habove, not_lt.mp hbelow⟩ htop]
      exact ⟨fun h => ⟨h, hbelow⟩, fun h => h.1⟩

theorem findIdx?_trimLow {n : ℕ} (hn : 0 < n) (es : List MemmapEntry)
    (htop : ∀ e ∈ es, e.base + e.length ≤ physTop) :
    (es.map trimLow).findIdx? (fun e => decide (FitsMetadata n e)) = host n es := by
  induction es with
  | nil => rfl
  | cons e rest ih =>
      simp only [List.mem_cons, forall_eq_or_imp] at htop
      rw [host, List.map_cons, List.findIdx?_cons, List.findIdx?_cons, ih htop.2,
        decide_eq_decide.mpr (fitsMetadata_trimLow hn htop.1)]
      rfl

theorem GoodMap.metadataSize_lt (h : GoodMap fayt sizeofModule mmap) :
    metadataSize fayt sizeofModule mmap < 2 ^ 64 := by
  obtain ⟨e, he, -, hle⟩ := h.room
  have htop := h.top e he
  unfold physTop at htop
  omega

/-- Two records at least are counted. -/
theorem GoodMap.records_le (h : GoodMap fayt sizeofModule mmap) :
    sizeofModule * 2 ≤ metadataSize fayt sizeofModule mmap := by
  obtain ⟨e, he, hu, -⟩ := h.room
  have hmem : metadataOf fayt sizeofModule e ∈
      (mmap.filter fun e => e.type = .usable).map (metadataOf fayt sizeofModule) :=
    List.mem_map_of_mem (List.mem_filter.mpr ⟨he, by simpa using hu⟩)
  exact (Nat.le_add_right _ _).trans (List.le_sum_of_mem hmem)

theorem GoodMap.metadataSize_pos (h : GoodMap fayt sizeofModule mmap) (hs : 0 < sizeofModule) :
    0 < metadataSize fayt sizeofModule mmap := by
  have hle := h.records_le
  omega

/-- The host loses whole pages at its start. -/
theorem carve_trimLow_spec {n : ℕ} {e : MemmapEntry} (hb : pageSize ∣ e.base)
    (hl : pageSize ∣ e.length) (htop : e.base + e.length ≤ physTop) (hn : n ≤ e.length)
    (hbelow : ¬ e.Below) :
    ∃ c, pageSize ∣ c ∧ n ≤ c ∧ c < n + pageSize ∧ c ≤ e.length ∧
      carve fayt n (trimLow e)
        = { e with base := max e.base lowMem + c, length := e.length - c } := by
  have hmax : pageSize ∣ max e.base lowMem := by
    rcases max_choice e.base lowMem with hm | hm <;> rw [hm]
    · exact hb
    · decide
  rw [trimLow_of_not_below hbelow htop]
  refine carve_spec fayt (e := { e with base := max e.base lowMem }) hmax hl hn ?_
  have hle : max e.base lowMem ≤ e.base + lowMem := max_le (by omega) (by omega)
  have hlow : lowMem = 0x100000 := rfl
  unfold physTop at htop
  show max e.base lowMem + e.length ≤ 2 ^ 53
  omega

/-- What `pmm_init` leaves of entry `i`. -/
theorem pmmInit_getElem? (highVma : ℕ) (h : GoodMap fayt sizeofModule mmap)
    (hs : 0 < sizeofModule) (i : ℕ) :
    (pmmInit fayt sizeofModule highVma mmap).1[i]? =
      mmap[i]?.map fun e =>
        if host (metadataSize fayt sizeofModule mmap) mmap = some i then
          carve fayt (metadataSize fayt sizeofModule mmap) (trimLow e)
        else trimLow e := by
  have hsize : (firstPass fayt sizeofModule mmap 0).1 = metadataSize fayt sizeofModule mmap := by
    rw [firstPass_fst _ _ _ _ (by simpa using h.metadataSize_lt), zero_add]
  show (secondPass fayt highVma (firstPass fayt sizeofModule mmap 0).1
    (firstPass fayt sizeofModule mmap 0).2).2[i]? = _
  rw [hsize, firstPass_snd, secondPass_getElem?,
    findIdx?_trimLow (h.metadataSize_pos hs) mmap h.top, List.getElem?_map]
  split_ifs <;> rcases mmap[i]? with - | e <;> rfl

/-- A usable entry that does not end below 1 MiB starts there or higher up, and
loses whole pages at its start if it hosts the metadata; its length is reduced
by these pages only. -/
theorem pmmInit_entry (highVma : ℕ) (h : GoodMap fayt sizeofModule mmap)
    (hs : 0 < sizeofModule) {i : ℕ} {e : MemmapEntry} (he : mmap[i]? = some e)
    (hu : e.type = .usable) (hbelow : ¬ e.Below) :
    ∃ c, (pmmInit fayt sizeofModule highVma mmap).1[i]?
        = some { e with base := max e.base lowMem + c, length := e.length - c } ∧
      pageSize ∣ c ∧ c ≤ e.length ∧
      if host (metadataSize fayt sizeofModule mmap) mmap = some i then
        metadataSize fayt sizeofModule mmap ≤ c ∧
          c < metadataSize fayt sizeofModule mmap + pageSize
      else c = 0 := by
  have hmem := List.mem_of_getElem? he
  obtain ⟨hb, hl⟩ := h.aligned e hmem hu
  have htop := h.top e hmem
  rw [pmmInit_getElem? highVma h hs, he, Option.map_some]
  by_cases hhost : host (metadataSize fayt sizeofModule mmap) mmap = some i
  · simp only [if_pos hhost]
    have hfits : metadataSize fayt sizeofModule mmap ≤ e.length := by
      have hfound := (List.findIdx?_eq_some_iff_getElem.mp hhost)
      obtain ⟨hi, hp, -⟩ := hfound
      obtain rfl : mmap[i] = e := by simpa [List.getElem?_eq_getElem hi] using he
      exact (of_decide_eq_true hp).1.2
    obtain ⟨c, hc0, hc1, hc2, hc3, hcarve⟩ := carve_trimLow_spec hb hl htop hfits hbelow
    exact ⟨c, by rw [hcarve], hc0, hc3, hc1, hc2⟩
  · simp only [if_neg hhost, trimLow_of_not_below hbelow htop]
    exact ⟨0, by simp, dvd_zero _, Nat.zero_le _, rfl⟩

end Final

/-! ### Managing only what was given -/

/-- The addresses a module manages. -/
def PmmModule.managed (m : PmmModule) : Block := ⟨m.base, m.bitmapEntryCnt * pageSize⟩

/-- Every managed page lies in the original extent of the usable entry its
module was made from, none is below 1 MiB, and no two modules share one. -/
structure Honest (mmap : List MemmapEntry) (ms : List PmmModule) : Prop where
  given : ∀ m ∈ ms, ∃ e, mmap[m.slot]? = some e ∧ e.type = .usable ∧
    ∀ a, m.managed.Has a → e.extent.Has a
  above : ∀ m ∈ ms, ∀ a, m.managed.Has a → lowMem ≤ a
  disjoint : ms.Pairwise fun m m' => m.managed.Apart m'.managed

/-- A usable entry reaches across the 1 MiB line only if it hosts the metadata
and has less than a page left after it. -/
def LowClear (fayt : Fayt) (sizeofModule : ℕ) (mmap : List MemmapEntry) : Prop :=
  ∀ i e, mmap[i]? = some e → e.type = .usable → e.Straddles →
    host (metadataSize fayt sizeofModule mmap) mmap = some i ∧
      e.length < metadataSize fayt sizeofModule mmap + pageSize

section Honest

variable {fayt : Fayt} {sizeofModule highVma : ℕ} {mmap : List MemmapEntry}

/-- A module of `pmm_init` and the original entry behind it. -/
theorem mem_pmmInit (h : GoodMap fayt sizeofModule mmap) (hs : 0 < sizeofModule)
    {m : PmmModule} (hm : m ∈ (pmmInit fayt sizeofModule highVma mmap).2) :
    ∃ e c, mmap[m.slot]? = some e ∧ e.type = .usable ∧ ¬ e.Below ∧ c < e.length ∧
      pageSize ∣ c ∧ m.managed = ⟨max e.base lowMem + c, e.length - c⟩ ∧
      (host (metadataSize fayt sizeofModule mmap) mmap = some m.slot →
        metadataSize fayt sizeofModule mmap ≤ c) := by
  obtain ⟨k, e', hk, hu', hl', hslot, hentry, hsize⟩ :=
    mem_thirdPass fayt sizeofModule highVma hm
  rw [zero_add] at hslot
  subst hslot
  replace hk : (pmmInit fayt sizeofModule highVma mmap).1[m.slot]? = some e' := hk
  have hk' := hk
  rw [pmmInit_getElem? highVma h hs, Option.map_eq_some_iff] at hk'
  obtain ⟨e, he, hfinal⟩ := hk'
  have hu : e.type = .usable := by
    rw [← hfinal] at hu'
    split_ifs at hu' <;> simpa [carve] using hu'
  have hbelow : ¬ e.Below := by
    -- an entry that ends below 1 MiB has lost its length, and hosts nothing
    intro hbelow
    have hnot : host (metadataSize fayt sizeofModule mmap) mmap ≠ some m.slot := by
      intro hhost
      obtain ⟨hi, hp, -⟩ := List.findIdx?_eq_some_iff_getElem.mp hhost
      obtain rfl : mmap[m.slot] = e := by simpa [List.getElem?_eq_getElem hi] using he
      exact (of_decide_eq_true hp).2 hbelow
    rw [if_neg hnot] at hfinal
    rw [← hfinal, trimLow_below hbelow] at hl'
    exact hl' rfl
  obtain ⟨c, hc, hdvd, hle, hhost⟩ := pmmInit_entry highVma h hs he hu hbelow
  obtain rfl : { e with base := max e.base lowMem + c, length := e.length - c } = e' := by
    simpa using hc.symm.trans hk
  have hlt : c < e.length := Nat.lt_of_sub_ne_zero hl'
  refine ⟨e, c, he, hu, hbelow, hlt, hdvd, ?_, fun hh => ?_⟩
  · obtain ⟨k, hk⟩ := Nat.dvd_sub (h.aligned e (List.mem_of_getElem? he) hu).2 hdvd
    have htop := h.top e (List.mem_of_getElem? he)
    have hround : fayt.divRoundup (e.length - c) pageSize * pageSize = e.length - c := by
      rw [hk, mul_comm pageSize k, fayt.divRoundup_mul pageSize_pos]
      have hpage : pageSize = 4096 := rfl
      unfold physTop at htop
      rw [mul_comm k, ← hk]
      omega
    unfold PmmModule.managed PmmModule.base PmmModule.bitmapEntryCnt
    rw [hsize, hentry, hround]
  · rw [if_pos hh] at hhost
    exact hhost.1

/-- If no entry straddles the line the modules are honest. -/
theorem LowClear.honest (h : GoodMap fayt sizeofModule mmap) (hs : 0 < sizeofModule)
    (hlow : LowClear fayt sizeofModule mmap) :
    Honest mmap (pmmInit fayt sizeofModule highVma mmap).2 := by
  have hinside : ∀ m ∈ (pmmInit fayt sizeofModule highVma mmap).2, ∃ e,
      mmap[m.slot]? = some e ∧ e.type = .usable ∧ m.managed.Within e.extent ∧
      lowMem ≤ m.managed.first := by
    intro m hm
    obtain ⟨e, c, he, hu, hbelow, hlt, hdvd, hmanaged, hhost⟩ := mem_pmmInit h hs hm
    have habove : lowMem ≤ e.base := by
      by_contra hnot
      have hstr : e.Straddles := ⟨not_le.mp hnot, not_lt.mp hbelow⟩
      obtain ⟨hh, hshort⟩ := hlow m.slot e he hu hstr
      have hn := hhost hh
      -- whole pages only: less than a page left is nothing left
      obtain ⟨k, hk⟩ := Nat.dvd_sub (h.aligned e (List.mem_of_getElem? he) hu).2 hdvd
      have hpage : pageSize = 4096 := rfl
      rw [hpage] at hk hshort
      omega
    refine ⟨e, he, hu, ?_, ?_⟩
    · rw [hmanaged, max_eq_left habove]
      exact ⟨Nat.le_add_right _ _, by show e.base + c + (e.length - c) ≤ e.base + e.length; omega⟩
    · rw [hmanaged]
      exact le_trans (le_max_right _ _) (Nat.le_add_right _ _)
  refine ⟨?_, ?_, ?_⟩
  · intro m hm
    obtain ⟨e, he, hu, hin, -⟩ := hinside m hm
    exact ⟨e, he, hu, fun a ha => hin.has ha⟩
  · intro m hm a ha
    obtain ⟨e, -, -, -, hlo⟩ := hinside m hm
    exact hlo.trans ha.1
  · refine (thirdPass_slots fayt sizeofModule highVma _ _ _).imp_of_mem ?_
    intro m m' hm hm' hlt
    obtain ⟨e, he, -, hin, -⟩ := hinside m hm
    obtain ⟨e', he', -, hin', -⟩ := hinside m' hm'
    obtain ⟨hi, rfl⟩ := List.getElem?_eq_some_iff.mp he
    obtain ⟨hi', rfl⟩ := List.getElem?_eq_some_iff.mp he'
    have hap := List.pairwise_iff_getElem.mp h.apart m.slot m'.slot hi hi' hlt
    exact hin.apart (hin'.apart hap.symm).symm

/-- The module of an entry across the line manages addresses beyond it. -/
theorem Honest.lowClear (h : GoodMap fayt sizeofModule mmap) (hs : 0 < sizeofModule)
    (hon : Honest mmap (pmmInit fayt sizeofModule highVma mmap).2) :
    LowClear fayt sizeofModule mmap := by
  intro i e he hu hstr
  have hbelow : ¬ e.Below := not_lt.mpr hstr.2
  obtain ⟨c, hc, -, hle, hhost⟩ := pmmInit_entry highVma h hs he hu hbelow
  by_contra hnot
  have hlt : c < e.length := by
    split_ifs at hhost with hh
    · have hlong : ¬ e.length < metadataSize fayt sizeofModule mmap + pageSize :=
        fun hshort => hnot ⟨hh, hshort⟩
      omega
    · obtain ⟨h1, h2⟩ := hstr
      omega
  obtain ⟨m, hm, hslot⟩ := exists_mem_thirdPass fayt sizeofModule highVma
    0 _ hc hu (by show e.length - c ≠ 0; omega)
  rw [zero_add] at hslot
  obtain ⟨e₁, c₁, he₁, -, -, hlt₁, -, hmanaged, -⟩ := mem_pmmInit h hs hm
  obtain ⟨e₂, he₂, -, hin⟩ := hon.given m hm
  rw [hslot, he] at he₁ he₂
  obtain rfl := Option.some.inj he₁
  obtain rfl := Option.some.inj he₂
  -- the last managed address lies beyond the end of the entry
  have hlast := hin (lowMem + e.length - 1) (by
    rw [hmanaged, max_eq_right hstr.1.le]
    exact ⟨by show lowMem + c₁ ≤ lowMem + e.length - 1; omega,
      by show lowMem + e.length - 1 < lowMem + c₁ + (e.length - c₁); omega⟩)
  have hend : lowMem + e.length - 1 < e.base + e.length := hlast.2
  have hbase := hstr.1
  omega

end Honest

/-- **`pmm_init` manages only memory it was given, exactly when no usable entry
reaches across 1 MiB** (other than one whose rest is used up by the
metadata). -/
theorem pmmInit_honest_iff (fayt : Fayt) {sizeofModule : ℕ} (hs : 0 < sizeofModule)
    (highVma : ℕ) {mmap : List MemmapEntry} (h : GoodMap fayt sizeofModule mmap) :
    Honest mmap (pmmInit fayt sizeofModule highVma mmap).2 ↔
      LowClear fayt sizeofModule mmap :=
  ⟨fun hon => hon.lowClear h hs, fun hlow => hlow.honest h hs⟩

/-! ### A map with an entry across the line -/

/-- Three pages from 0xff000 on and, right behind them, 1 MiB. -/
def acrossMap : List MemmapEntry :=
  [⟨0xff000, 0x3000, .usable⟩, ⟨0x102000, 0x100000, .usable⟩]

/-- The same memory, split at the line. -/
def splitMap : List MemmapEntry :=
  [⟨0xff000, 0x0, .usable⟩, ⟨0x100000, 0x2000, .usable⟩, ⟨0x102000, 0x100000, .usable⟩]

theorem goodMap_acrossMap : GoodMap .textbook 56 acrossMap where
  apart := by
    refine List.pairwise_pair.mpr fun a ha => ?_
    have h1 : a < 0xff000 + 0x3000 := ha.1.2
    have h2 : 0x102000 ≤ a := ha.2.1
    omega
  aligned := by decide
  top := by decide
  room := ⟨⟨0xff000, 0x3000, .usable⟩, by decide, rfl, by decide +kernel⟩

/-- **Two modules own the same frames.**  The module of the first entry is
[0x101000, 0x103000): it starts behind the metadata but ends a page beyond the
entry, inside the second one. -/
theorem pmmInit_overlaps :
    GoodMap .textbook 56 acrossMap ∧
    (pmmInit .textbook 56 0xffff800000000000 acrossMap).2.map PmmModule.managed
      = [⟨0x101000, 0x2000⟩, ⟨0x102000, 0x100000⟩] ∧
    ¬ Honest acrossMap (pmmInit .textbook 56 0xffff800000000000 acrossMap).2 := by
  have hman : (pmmInit .textbook 56 0xffff800000000000 acrossMap).2.map PmmModule.managed
      = [⟨0x101000, 0x2000⟩, ⟨0x102000, 0x100000⟩] := by decide +kernel
  refine ⟨goodMap_acrossMap, hman, fun hon => ?_⟩
  have hdisj := List.pairwise_map.mpr hon.disjoint
  rw [hman] at hdisj
  exact List.pairwise_pair.mp hdisj 0x102000 (by decide)

/-- An entry that ends below the line, or starts on it, is no obstacle. -/
theorem pmmInit_honest_splitMap :
    Honest splitMap (pmmInit .textbook 56 0xffff800000000000 splitMap).2 := by
  have hgood : GoodMap .textbook 56 splitMap := by
    refine ⟨?_, by decide, by decide, ⟨⟨0x102000, 0x100000, .usable⟩, by decide, rfl,
      by decide +kernel⟩⟩
    simp only [splitMap, List.pairwise_cons, List.mem_cons, forall_eq_or_imp]
    refine ⟨⟨?_, ?_, by simp⟩, ⟨?_, by simp⟩, by simp⟩ <;>
      rintro a ⟨⟨h1, h2⟩, ⟨h3, h4⟩⟩ <;> simp only [MemmapEntry.extent] at h1 h2 h3 h4 <;> omega
  refine (pmmInit_honest_iff .textbook (by decide) _ hgood).mpr ?_
  intro i e he _ hstr
  have hall : ∀ e ∈ splitMap, ¬ e.Straddles := by decide
  exact absurd hstr (hall e (List.mem_of_getElem? he))

end Rock
