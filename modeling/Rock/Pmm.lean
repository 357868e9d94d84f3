/-
Rock/Pmm.lean

The physical memory manager over its list of modules (kernel/core/physical.c):
`pmm_alloc` and `pmm_free`.

`pmm_alloc` asks the modules one after the other and clears the frames it
returns.  `pmm_free` looks for the module of a block by

    base >= mmap->base && mmap->base + cnt * PAGE_SIZE
      <= mmap->base + bitmap_entry_cnt * PAGE_SIZE

which compares the *size* of the block with that of the module, not its end.
A module that lies below the block and is at least as large therefore takes
the release, wherever the block really is.  `Routed` says that no such module
stands in the list before the one that owns the block, and
`pmmFree_exact_iff` that this is exactly when a release does what it should:
otherwise the wrong module's bitmap is written outside its bounds.

Physical memory is kept as the 64-bit words of each page, the form the page
tables are read in.
-/
import Rock.PmmModule

namespace Rock

/-! ### Physical memory -/

/-- A 64-bit word. -/
abbrev Word := BitVec 64

/-- Physical memory: the words of the page at a page address. -/
abbrev Mem := Word → BitVec 9 → Word

/-- `memset64(addr, v, n)`: `n` words from the physical address `addr` on. -/
def memset64 (mem : Mem) (addr : ℕ) (v : Word) (n : ℕ) : Mem := fun p i =>
  if addr ≤ p.toNat + 8 * i.toNat ∧ p.toNat + 8 * i.toNat < addr + 8 * n then v else mem p i

/-! ### The module list -/

/-- The allocator: the list that starts at `root_module`, and physical memory. -/
structure Pmm where
  modules : List PmmModule
  mem : Mem

variable (fayt : Fayt)

/-- The loop of `pmm_alloc` over the modules. -/
def pmmAllocFrom : List PmmModule → ℕ → ℕ → Exec (Option ℕ × List PmmModule)
  | [], _, _ => .ok (none, [])
  | m :: rest, cnt, align => do
      let (alloc, m') ← pmmModuleAlloc fayt m cnt align
      match alloc with
      | some a => .ok (some a, m' :: rest)
      | none => do
          let (alloc, rest') ← pmmAllocFrom rest cnt align
          .ok (alloc, m' :: rest')

/-- `pmm_alloc`; `none` is the returned -1.  The loop looks at the root module
before it tests for the end of the list. -/
def pmmAlloc (s : Pmm) (cnt align : ℕ) : Exec (Option ℕ × Pmm) :=
  match s.modules with
  | [] => .error .null
  | ms => do
      let (alloc, ms') ← pmmAllocFrom fayt ms cnt align
      match alloc with
      | none => .ok (none, ⟨ms', s.mem⟩)
      | some a => .ok (some a, ⟨ms', memset64 s.mem a 0 (u64 (cnt * pageSize) / 8)⟩)

/-- The test by which `pmm_free` takes a module for the owner. -/
def PmmModule.Accepts (m : PmmModule) (base cnt : ℕ) : Prop :=
  m.base ≤ base ∧
    u64 (m.base + u64 (cnt * pageSize)) ≤ u64 (m.base + u64 (m.bitmapEntryCnt * pageSize))

instance (m : PmmModule) (base cnt : ℕ) : Decidable (m.Accepts base cnt) :=
  inferInstanceAs (Decidable (_ ∧ _))

/-- The loop of `pmm_free` over the modules. -/
def pmmFreeFrom : List PmmModule → ℕ → ℕ → Exec (List PmmModule)
  | [], _, _ => .ok []
  | m :: rest, base, cnt =>
      if m.Accepts base cnt then do
        let m' ← pmmModuleFree fayt m (usub base m.base) cnt
        .ok (m' :: rest)
      else do
        let rest' ← pmmFreeFrom rest base cnt
        .ok (m :: rest')

/-- `pmm_free`. -/
def pmmFree (s : Pmm) (base cnt : ℕ) : Exec Pmm :=
  match s.modules with
  | [] => .error .null
  | ms => do
      let ms' ← pmmFreeFrom fayt ms base cnt
      .ok ⟨ms', s.mem⟩

/-! ### The loops over the modules -/

/-- **`pmm_alloc` over the list**: -1 with every module as before, or an
address of one module, whose range alone is changed. -/
theorem pmmAllocFrom_spec {ms : List PmmModule} (hwf : ∀ m ∈ ms, m.Wf) {cnt align : ℕ}
    (hcnt : cnt < 2 ^ 64) (ha : ∀ m ∈ ms, m.Fits align) :
    pmmAllocFrom fayt ms cnt align = .ok (none, ms) ∨
    ∃ (before : List PmmModule) (m : PmmModule) (after : List PmmModule) (i hint : ℕ),
      ms = before ++ m :: after ∧ pmmAllocFrom fayt ms cnt align
        = .ok (some (m.base + i * pageSize), before ++ m.update i cnt true hint :: after) ∧
      align * pageSize ∣ m.base + i * pageSize ∧ 0 < cnt ∧ i + cnt ≤ m.bitmap.size ∧
      (∀ k, i ≤ k → k < i + cnt → m.bitmap.bits k = false) ∧ hint ≤ m.bitmap.size := by
  induction ms with
  | nil => exact .inl rfl
  | cons m rest ih =>
      simp only [List.mem_cons, forall_eq_or_imp] at hwf ha
      rw [pmmAllocFrom]
      rcases pmmModuleAlloc_spec fayt hwf.1 hcnt ha.1 with
        heq | ⟨i, hint, heq, hrest⟩
      · rw [heq, Exec.ok_bind]
        rcases ih hwf.2 ha.2 with hnone | ⟨before, m₁, after, i, hint, rfl, hsome, hrest⟩
        · exact .inl (by simp [hnone])
        · exact .inr ⟨m :: before, m₁, after, i, hint, rfl, by simp [hsome], hrest⟩
      · rw [heq, Exec.ok_bind]
        exact .inr ⟨[], m, rest, i, hint, rfl, rfl, hrest⟩

/-- The owner takes the release when no module before it accepts the block. -/
theorem pmmFreeFrom_append {before after : List PmmModule} {m m' : PmmModule} {base cnt : ℕ}
    (hbefore : ∀ e ∈ before, ¬ e.Accepts base cnt) (hm : m.Accepts base cnt)
    (hfree : pmmModuleFree fayt m (usub base m.base) cnt = .ok m') :
    pmmFreeFrom fayt (before ++ m :: after) base cnt = .ok (before ++ m' :: after) := by
  induction before with
  | nil => simp [pmmFreeFrom, hm, hfree]
  | cons e before ih =>
      simp only [List.mem_cons, forall_eq_or_imp] at hbefore
      rw [List.cons_append, pmmFreeFrom, if_neg hbefore.1, ih hbefore.2]
      rfl

/-- If every module that accepts the block faults on it, and one does accept
it, the release faults. -/
theorem pmmFreeFrom_wild {ms after : List PmmModule} {base cnt : ℕ}
    (hex : ∃ e ∈ ms, e.Accepts base cnt)
    (hwild : ∀ e ∈ ms, e.Accepts base cnt →
      pmmModuleFree fayt e (usub base e.base) cnt = .error .wild) :
    pmmFreeFrom fayt (ms ++ after) base cnt = .error .wild := by
  induction ms with
  | nil => simp at hex
  | cons e ms ih =>
      rw [List.cons_append, pmmFreeFrom]
      by_cases he : e.Accepts base cnt
      · rw [if_pos he, hwild e List.mem_cons_self he]
        rfl
      · rw [if_neg he, ih ?_ fun e' h' => hwild e' (List.mem_cons_of_mem _ h')]
        · rfl
        · obtain ⟨e', hmem, hacc⟩ := hex
          rcases List.mem_cons.mp hmem with rfl | hmem
          · exact absurd hacc he
          · exact ⟨e', hmem, hacc⟩

/-! ### Runs -/

/-- The allocator together with the blocks of frames that are allocated and not
freed yet. -/
structure PmmState where
  pmm : Pmm
  live : List Block

namespace PmmState

/-- The modules as `pmm_init` leaves them: `last_free` 0, zero bitmaps. -/
def init (ms : List PmmModule) (mem : Mem) : PmmState :=
  ⟨⟨ms.map fun m => (ModuleState.init m).module, mem⟩, []⟩

/-- No module that stands before the owner of `b` in the list lies below `b` and
has room for as many pages. -/
def Routed (s : PmmState) (b : Block) : Prop :=
  ∀ before m after, s.pmm.modules = before ++ m :: after → b.Within m.frames →
    ∀ e ∈ before, ¬ (e.base ≤ b.first * pageSize ∧ b.len ≤ e.bitmapEntryCnt)

/-- One call: an allocation of any size and any alignment that fits the modules,
or the release of a live block that is routed to its owner. -/
inductive Step : PmmState → PmmState → Prop
  | alloc {p p' : Pmm} {live : List Block} {cnt align : ℕ} {r : Option ℕ} :
      cnt < 2 ^ 64 → (∀ m ∈ p.modules, m.Fits align) →
      pmmAlloc fayt p cnt align = .ok (r, p') →
      Step ⟨p, live⟩ ⟨p', ModuleState.grant cnt live r⟩
  | free {p p' : Pmm} {live : List Block} {b : Block} :
      b ∈ live → Routed ⟨p, live⟩ b →
      pmmFree fayt p (b.first * pageSize) b.len = .ok p' →
      Step ⟨p, live⟩ ⟨p', live.erase b⟩

/-- The ranges of the modules. -/
def ranges (ms : List PmmModule) : List Block := ms.map PmmModule.frames

/-- The invariant of the allocator: the modules are disjoint, every bitmap
records the live blocks in its range, and every live block lies in a module. -/
structure Inv (s : PmmState) : Prop where
  wf : ∀ m ∈ s.pmm.modules, m.Wf
  disjoint : (ranges s.pmm.modules).Pairwise Block.Apart
  ledger : Ledger s.live
  tracks : ∀ m ∈ s.pmm.modules, m.bitmap.Tracks (m.base / pageSize) s.live
  inside : ∀ b ∈ s.live, ∃ f ∈ ranges s.pmm.modules, b.Within f
  room : ∀ b ∈ s.live, ∀ m ∈ s.pmm.modules, m.Fits 1

theorem inv_init {ms : List PmmModule} (mem : Mem) (hbase : ∀ m ∈ ms, pageSize ∣ m.base)
    (hdisj : (ranges ms).Pairwise Block.Apart) : (init ms mem).Inv where
  wf := by
    simp only [init, List.mem_map, forall_exists_index, and_imp, forall_apply_eq_imp_iff₂]
    exact fun m hm => ⟨hbase m hm, Nat.zero_le _⟩
  disjoint := by
    simp only [ranges, init, List.map_map]
    exact hdisj
  ledger := Ledger.nil
  tracks := by
    simp only [init, List.mem_map, forall_exists_index, and_imp, forall_apply_eq_imp_iff₂]
    exact fun m _ => Bitmap.tracks_nil _ _
  inside := by simp [init]
  room := by simp [init]

section Owner

variable {before after : List PmmModule} {m m' : PmmModule} {mem mem' : Mem}
  {live : List Block}

/-- What holds of the modules around one and of its replacement holds of the
whole new list. -/
theorem forall_mem_replace {P : PmmModule → Prop}
    (h : ∀ e, e ∈ before ∨ e ∈ after → P e) (hm' : P m') :
    ∀ e ∈ before ++ m' :: after, P e := by
  intro e he
  rcases List.mem_append.mp he with hb | hc
  · exact h e (.inl hb)
  · rcases List.mem_cons.mp hc with rfl | ha
    · exact hm'
    · exact h e (.inr ha)

theorem mem_around {e : PmmModule} (h : e ∈ before ∨ e ∈ after) :
    e ∈ before ++ m :: after := by
  rcases h with h | h <;> simp [h]

/-- The ranges do not change when a module is replaced by one with its range. -/
theorem ranges_replace (before after : List PmmModule) (hf : m'.frames = m.frames) :
    ranges (before ++ m' :: after) = ranges (before ++ m :: after) := by
  simp [ranges, hf]

/-- The modules around one of a disjoint list are apart from it. -/
theorem Inv.apart_around (h : Inv ⟨⟨before ++ m :: after, mem⟩, live⟩) {e : PmmModule}
    (he : e ∈ before ∨ e ∈ after) : m.frames.Apart e.frames := by
  have hd := h.disjoint
  simp only [ranges, List.pairwise_map] at hd
  obtain ⟨-, hcons, hcross⟩ := List.pairwise_append.mp hd
  rcases he with he | he
  · exact (hcross e he m List.mem_cons_self).symm
  · exact (List.pairwise_cons.mp hcons).1 e he

/-- The positions of a range of bits are frames of the module. -/
theorem within_frames {i n : ℕ} (hin : i + n ≤ m.bitmap.size) :
    Block.Within ⟨m.base / pageSize + i, n⟩ m.frames := by
  refine ⟨Nat.le_add_right _ _, ?_⟩
  rw [PmmModule.frames_first, PmmModule.frames_len, Nat.add_assoc]
  exact Nat.add_le_add_left hin _

/-- Entering a block of one module into the ledger and into that module's
bitmap keeps the invariant. -/
theorem Inv.enter (h : Inv ⟨⟨before ++ m :: after, mem⟩, live⟩) {i cnt hint : ℕ}
    (hpos : 0 < cnt) (hin : i + cnt ≤ m.bitmap.size)
    (hclear : ∀ k, i ≤ k → k < i + cnt → m.bitmap.bits k = false)
    (hhint : hint ≤ m.bitmap.size) (hroom : ∀ e ∈ before ++ m :: after, e.Fits 1) :
    Inv ⟨⟨before ++ m.update i cnt true hint :: after, mem'⟩,
      ⟨m.base / pageSize + i, cnt⟩ :: live⟩ := by
  have hm : m ∈ before ++ m :: after := by simp
  have hwithin := within_frames hin
  have hranges := ranges_replace before after (m.update_frames i cnt true hint)
  refine ⟨?_, hranges ▸ h.disjoint, ?_, ?_, ?_, fun _ _ => ?_⟩
  · exact forall_mem_replace (fun e he => h.wf e (mem_around he)) ((h.wf m hm).update hhint)
  · exact h.ledger.cons hpos fun c hc => (h.tracks m hm).apart_of_clear hin hclear hc
  · refine forall_mem_replace (fun e he => ?_) ((h.tracks m hm).enter i cnt)
    exact (h.tracks e (mem_around he)).enter_apart (hwithin.apart (h.apart_around he))
  · rw [hranges]
    intro b hb
    rcases List.mem_cons.mp hb with rfl | hb
    · exact ⟨m.frames, by simp [ranges], hwithin⟩
    · exact h.inside b hb
  · exact forall_mem_replace (fun e he => hroom e (mem_around he)) (hroom m hm)

/-- Striking a live block off the ledger and off its module's bitmap keeps the
invariant. -/
theorem Inv.strike (h : Inv ⟨⟨before ++ m :: after, mem⟩, live⟩) {i n : ℕ}
    (hb : (⟨m.base / pageSize + i, n⟩ : Block) ∈ live) (hin : i + n ≤ m.bitmap.size) :
    Inv ⟨⟨before ++ m.update i n false m.lastFree :: after, mem⟩,
      live.erase ⟨m.base / pageSize + i, n⟩⟩ := by
  have hm : m ∈ before ++ m :: after := by simp
  have hranges := ranges_replace before after (m.update_frames i n false m.lastFree)
  have hwf := h.wf m hm
  refine ⟨?_, hranges ▸ h.disjoint, h.ledger.erase _, ?_, ?_, fun b hb' => ?_⟩
  · exact forall_mem_replace (fun e he => h.wf e (mem_around he)) (hwf.update hwf.lastFree_le)
  · refine forall_mem_replace (fun e he => ?_) ((h.tracks m hm).strike h.ledger hb)
    exact (h.tracks e (mem_around he)).strike_apart h.ledger
      ((within_frames hin).apart (h.apart_around he))
  · rw [hranges]
    exact fun b hb' => h.inside b (List.mem_of_mem_erase hb')
  · have hr := h.room b (List.mem_of_mem_erase hb')
    exact forall_mem_replace (fun e he => hr e (mem_around he)) (hr m hm)

end Owner

/-! ### Allocation keeps the invariant -/

variable {fayt}

theorem Inv.alloc {p p' : Pmm} {live : List Block} (h : Inv ⟨p, live⟩) {cnt align : ℕ}
    {r : Option ℕ} (hcnt : cnt < 2 ^ 64) (ha : ∀ m ∈ p.modules, m.Fits align)
    (hr : pmmAlloc fayt p cnt align = .ok (r, p')) :
    Inv ⟨p', ModuleState.grant cnt live r⟩ := by
  obtain ⟨ms, mem⟩ := p
  rcases ms with - | ⟨m₀, rest⟩
  · cases hr
  · simp only [pmmAlloc] at hr
    rcases pmmAllocFrom_spec fayt h.wf hcnt ha with
      heq | ⟨before, m, after, i, hint, hms, heq, -, hpos, hin, hclear, hle⟩
    · rw [heq] at hr
      obtain ⟨rfl, rfl⟩ : none = r ∧ ⟨m₀ :: rest, mem⟩ = p' := by simpa using hr
      exact h
    · rw [heq] at hr
      obtain ⟨rfl, rfl⟩ : some (m.base + i * pageSize) = r ∧ _ = p' := by simpa using hr
      replace hms : m₀ :: rest = before ++ m :: after := hms
      rw [hms] at h ha
      simp only [ModuleState.grant, PmmModule.div_page]
      exact h.enter hpos hin hclear hle fun e he => (ha e he).one

/-! ### Which module takes a release -/

/-- A live block seen from the module that owns it. -/
theorem Inv.owner {s : PmmState} (h : s.Inv) {b : Block} (hb : b ∈ s.live) :
    ∃ (before : List PmmModule) (m : PmmModule) (after : List PmmModule) (i : ℕ),
      s.pmm.modules = before ++ m :: after ∧ b.Within m.frames ∧
      b.first = m.base / pageSize + i ∧ i + b.len ≤ m.bitmap.size := by
  obtain ⟨f, hf, hbf⟩ := h.inside b hb
  obtain ⟨m, hm, rfl⟩ := List.mem_map.mp hf
  obtain ⟨before, after, hms⟩ := List.append_of_mem hm
  obtain ⟨h1, h2⟩ := hbf
  obtain ⟨i, hi⟩ := Nat.exists_eq_add_of_le h1
  refine ⟨before, m, after, i, hms, ⟨h1, h2⟩, hi, ?_⟩
  rw [hi, PmmModule.frames_first, PmmModule.frames_len, Nat.add_assoc] at h2
  exact Nat.le_of_add_le_add_left h2

section Accepts

variable {m e : PmmModule} {b : Block}

/-- A block inside a module ends below the end of the address space. -/
theorem block_end_le (hm : m.Wf) (hfit : m.Fits 1) (hb : b.Within m.frames) :
    m.base ≤ b.first * pageSize ∧
      (b.first + b.len) * pageSize ≤ m.base + m.bitmap.size * pageSize ∧
      (b.first + b.len) * pageSize + pageSize ≤ 2 ^ 64 := by
  have h1 := Nat.mul_le_mul_right pageSize hb.1
  have h2 := Nat.mul_le_mul_right pageSize hb.2
  rw [PmmModule.frames_first, hm.base_eq] at h1
  rw [PmmModule.frames_first, PmmModule.frames_len, Nat.add_mul (m.base / pageSize),
    hm.base_eq] at h2
  have h3 := hfit.2
  exact ⟨h1, h2, by omega⟩

/-- Without wrapping, the test of `pmm_free` compares the module's base with
the block's and the module's size with the block's. -/
theorem accepts_iff (hm : m.Wf) (hfit : m.Fits 1) (hb : b.Within m.frames)
    (hefit : e.Fits 1) :
    e.Accepts (b.first * pageSize) b.len ↔
      e.base ≤ b.first * pageSize ∧ b.len ≤ e.bitmap.size := by
  obtain ⟨-, hend, htop⟩ := block_end_le hm hfit hb
  have he := hefit.2
  have hp := pageSize_pos
  rw [Nat.add_mul] at hend htop
  unfold PmmModule.Accepts PmmModule.bitmapEntryCnt
  refine and_congr_right fun hbase => ?_
  rw [u64_of_lt (x := b.len * pageSize) (by omega),
    u64_of_lt (x := e.bitmap.size * pageSize) (by omega),
    u64_of_lt (by omega), u64_of_lt (by omega), Nat.add_le_add_iff_left]
  exact Nat.mul_le_mul_right_iff pageSize_pos

/-- A module the block is apart from faults when it takes the release. -/
theorem free_wild (hm : m.Wf) (hfit : m.Fits 1) (hb : b.Within m.frames) (he : e.Wf)
    (hap : b.Apart e.frames) (hpos : 0 < b.len) (hbase : e.base ≤ b.first * pageSize) :
    pmmModuleFree fayt e (usub (b.first * pageSize) e.base) b.len = .error .wild := by
  obtain ⟨-, -, htop⟩ := block_end_le hm hfit hb
  have hp := pageSize_pos
  rw [Nat.add_mul] at htop
  have hle : e.base / pageSize ≤ b.first := Nat.div_le_of_le_mul (by rwa [mul_comm])
  obtain ⟨i, hi⟩ := Nat.exists_eq_add_of_le hle
  have hout : e.bitmap.size ≤ i := by
    by_contra hlt
    refine hap b.first ⟨Block.has_first hpos, hle, ?_⟩
    rw [PmmModule.frames_first, PmmModule.frames_len, hi]
    exact Nat.add_lt_add_left (not_le.mp hlt) _
  have hoff : b.first * pageSize - e.base = i * pageSize := by
    rw [hi, Nat.add_mul, he.base_eq, Nat.add_sub_cancel_left]
  rw [usub_of_le hbase (by omega), hoff]
  refine pmmModuleFree_wild fayt hpos hout ?_
  have hib : i ≤ b.first := by
    rw [hi]
    exact Nat.le_add_left _ _
  have := Nat.mul_le_mul_right pageSize hib
  rw [Nat.add_mul]
  omega

end Accepts

/-! ### Releases -/

/-- `pmm_free` undoes the allocation of `b`: it returns (so no bit outside a
bitmap is touched), the module that owns `b` has exactly the bits of `b`
cleared, every other module is as before, and so are the bits of every other
live block. -/
def ReleasesExactly (fayt : Fayt) (s : PmmState) (b : Block) : Prop :=
  ∃ before m after i, s.pmm.modules = before ++ m :: after ∧ b.Within m.frames ∧
    b.first = m.base / pageSize + i ∧
    pmmFree fayt s.pmm (b.first * pageSize) b.len
      = .ok ⟨before ++ m.update i b.len false m.lastFree :: after, s.pmm.mem⟩ ∧
    ∀ c ∈ s.live, c ≠ b → ∀ e ∈ before ++ m.update i b.len false m.lastFree :: after,
      ∀ k < e.bitmapEntryCnt, c.Has (e.base / pageSize + k) → e.bitmap.bits k = true

theorem pmmFree_eq {before after : List PmmModule} {m : PmmModule} {mem : Mem}
    {base cnt : ℕ} :
    pmmFree fayt ⟨before ++ m :: after, mem⟩ base cnt
      = (pmmFreeFrom fayt (before ++ m :: after) base cnt).map (Pmm.mk · mem) := by
  unfold pmmFree
  rcases e : before ++ m :: after with - | ⟨m₀, rest⟩
  · simp at e
  · simp only
    rcases pmmFreeFrom fayt (m₀ :: rest) base cnt with - | ms <;> rfl

/-- A routed release of a live block succeeds, with the owner's bits cleared. -/
theorem Inv.free_routed (fayt : Fayt) {s : PmmState} (h : s.Inv) {b : Block} (hb : b ∈ s.live)
    (hr : s.Routed b) :
    ∃ (before : List PmmModule) (m : PmmModule) (after : List PmmModule) (i : ℕ),
      s.pmm.modules = before ++ m :: after ∧ b.Within m.frames ∧
      b.first = m.base / pageSize + i ∧ i + b.len ≤ m.bitmap.size ∧
      pmmFree fayt s.pmm (b.first * pageSize) b.len
        = .ok ⟨before ++ m.update i b.len false m.lastFree :: after, s.pmm.mem⟩ := by
  obtain ⟨before, m, after, i, hms, hbm, hi, hin⟩ := h.owner hb
  have hroom := h.room b hb
  have hm : m ∈ s.pmm.modules := by simp [hms]
  have hacc : m.Accepts (b.first * pageSize) b.len := by
    refine (accepts_iff (h.wf m hm) (hroom m hm) hbm (hroom m hm)).mpr ⟨?_, by omega⟩
    exact (block_end_le (h.wf m hm) (hroom m hm) hbm).1
  have hbefore : ∀ e ∈ before, ¬ e.Accepts (b.first * pageSize) b.len := by
    intro e he hacc'
    have hroome := hroom e (by simp [hms, he])
    exact hr before m after hms hbm e he
      ((accepts_iff (h.wf m hm) (hroom m hm) hbm hroome).mp hacc')
  have hfree : pmmModuleFree fayt m (usub (b.first * pageSize) m.base) b.len
      = .ok (m.update i b.len false m.lastFree) := by
    obtain ⟨h1, -, h3⟩ := block_end_le (h.wf m hm) (hroom m hm) hbm
    have hp := pageSize_pos
    have hfit := (hroom m hm).2
    rw [Nat.add_mul] at h3
    rw [usub_of_le h1 (by omega), hi, Nat.add_mul, (h.wf m hm).base_eq,
      Nat.add_sub_cancel_left]
    exact pmmModuleFree_spec fayt hin (by omega)
  refine ⟨before, m, after, i, hms, hbm, hi, hin, ?_⟩
  rw [show s.pmm = ⟨before ++ m :: after, s.pmm.mem⟩ by rw [← hms], pmmFree_eq,
    pmmFreeFrom_append fayt hbefore hacc hfree]
  rfl

theorem Inv.free {p p' : Pmm} {live : List Block} (h : Inv ⟨p, live⟩) {b : Block}
    (hb : b ∈ live) (hr : Routed ⟨p, live⟩ b)
    (hfree : pmmFree fayt p (b.first * pageSize) b.len = .ok p') :
    Inv ⟨p', live.erase b⟩ := by
  obtain ⟨before, m, after, i, hms, -, hi, hin, heq⟩ := h.free_routed fayt hb hr
  rw [heq] at hfree
  obtain rfl := Except.ok.inj hfree
  obtain ⟨ms, mem⟩ := p
  replace hms : ms = before ++ m :: after := hms
  subst hms
  have hbe : b = ⟨m.base / pageSize + i, b.len⟩ := by rw [← hi]
  rw [hbe] at hb ⊢
  exact h.strike hb hin

theorem Inv.step {s s' : PmmState} (h : s.Inv) (hs : Step fayt s s') : s'.Inv := by
  cases hs with
  | alloc hcnt ha hr => exact h.alloc hcnt ha hr
  | free hb hr hfree => exact h.free hb hr hfree

/-- A routed release does exactly what it should. -/
theorem Inv.releasesExactly {s : PmmState} (h : s.Inv) {b : Block} (hb : b ∈ s.live)
    (hr : s.Routed b) : s.ReleasesExactly fayt b := by
  obtain ⟨before, m, after, i, hms, hbm, hi, hin, heq⟩ := h.free_routed fayt hb hr
  refine ⟨before, m, after, i, hms, hbm, hi, heq, fun c hc hne e he k hk hck => ?_⟩
  have h' : Inv ⟨_, s.live.erase b⟩ := h.free hb hr heq
  exact (h'.tracks e he k hk).mpr ⟨c, h.ledger.mem_erase_iff.mpr ⟨hne, hc⟩, hck⟩

/-- A release that is not routed to its owner faults in another module. -/
theorem Inv.free_misrouted (fayt : Fayt) {s : PmmState} (h : s.Inv) {b : Block} (hb : b ∈ s.live)
    (hr : ¬ s.Routed b) : pmmFree fayt s.pmm (b.first * pageSize) b.len = .error .wild := by
  unfold Routed at hr
  push Not at hr
  obtain ⟨before, m, after, hms, hbm, e, he, hbase, hlen⟩ := hr
  obtain ⟨⟨ms, mem⟩, live⟩ := s
  replace hms : ms = before ++ m :: after := hms
  subst hms
  have hm : m ∈ before ++ m :: after := by simp
  have hroom := h.room b hb
  have hacc : e.Accepts (b.first * pageSize) b.len :=
    (accepts_iff (h.wf m hm) (hroom m hm) hbm (hroom e (by simp [he]))).mpr ⟨hbase, hlen⟩
  have hwild : ∀ e ∈ before, e.Accepts (b.first * pageSize) b.len →
      pmmModuleFree fayt e (usub (b.first * pageSize) e.base) b.len = .error .wild := by
    intro e he hacc
    exact free_wild (h.wf m hm) (hroom m hm) hbm (h.wf e (by simp [he]))
      (hbm.apart (h.apart_around (.inl he))) (h.ledger.nonempty b hb) hacc.1
  rw [pmmFree_eq, pmmFreeFrom_wild fayt ⟨e, he, hacc⟩ hwild]
  rfl

end PmmState

open PmmState in
/-- **`pmm_free` undoes `pmm_alloc` exactly when the release is routed.**  Over
any modules with disjoint page ranges, in any order, in every state reached by
allocations and routed releases. -/
theorem pmmFree_exact_iff {ms : List PmmModule} (mem : Mem)
    (hbase : ∀ m ∈ ms, pageSize ∣ m.base) (hdisj : (ranges ms).Pairwise Block.Apart)
    {s : PmmState} (h : Run (Step fayt) (init ms mem) s) {b : Block} (hb : b ∈ s.live) :
    s.ReleasesExactly fayt b ↔ s.Routed b := by
  have hinv : s.Inv :=
    Run.invariant (fun _ _ hi hs => hi.step hs) (inv_init mem hbase hdisj) h
  constructor
  · rintro ⟨before, m, after, i, -, -, -, heq, -⟩
    by_contra hr
    rw [hinv.free_misrouted fayt hb hr] at heq
    cases heq
  · exact hinv.releasesExactly hb

/-! ### Two modules -/

/-- A module of `n` pages at `base`. -/
def pagesAt (base n : ℕ) : PmmModule :=
  ⟨0, 0, ⟨base, n * pageSize, .usable⟩, 1, 0, 0, ⟨n, fun _ => false⟩⟩

/-- Two pages at 1 MiB and two at 2 MiB. -/
def lowHigh : List PmmModule := [pagesAt 0x100000 2, pagesAt 0x200000 2]

/-- The same modules, the higher one first. -/
def highLow : List PmmModule := [pagesAt 0x200000 2, pagesAt 0x100000 2]

/-- What is left of a module when its bits are forgotten. -/
def PmmModule.shape (m : PmmModule) : ℕ × ℕ := (m.base, m.bitmap.size)

/-- Memory that holds nothing. -/
def Mem.blank : Mem := fun _ _ => 0

theorem ranges_apart_lowHigh : (PmmState.ranges lowHigh).Pairwise Block.Apart := by
  refine List.pairwise_pair.mpr fun k hk => ?_
  have h1 : k < 0x100 + 2 := hk.1.2
  have h2 : 0x200 ≤ k := hk.2.1
  omega

theorem ranges_apart_highLow : (PmmState.ranges highLow).Pairwise Block.Apart :=
  (List.pairwise_pair (R := Block.Apart)).mpr
    (List.pairwise_pair.mp ranges_apart_lowHigh).symm

open PmmState in
/-- If the allocator serves one page aligned to 2 MiB from the page at 2 MiB, a
run of one step makes that page live. -/
theorem run_aligned_page (ms : List PmmModule)
    (hfit : ∀ m ∈ (init ms .blank).pmm.modules, m.Fits 0x200)
    (hret : (pmmAlloc .textbook (init ms .blank).pmm 1 0x200).map
        (fun r => (r.1, r.2.modules.map PmmModule.shape))
      = .ok (some 0x200000, ms.map PmmModule.shape)) :
    ∃ p, p.modules.map PmmModule.shape = ms.map PmmModule.shape ∧
      Run (Step .textbook) (init ms .blank) ⟨p, [⟨0x200, 1⟩]⟩ := by
  rcases hcall : pmmAlloc .textbook (init ms .blank).pmm 1 0x200 with e | ⟨r, p⟩
  · simp [hcall, Except.map] at hret
  · obtain ⟨rfl, hshape⟩ : r = some 0x200000 ∧
        p.modules.map PmmModule.shape = ms.map PmmModule.shape := by
      simpa [hcall, Except.map] using hret
    exact ⟨p, hshape, .single (@Step.alloc _ _ _ [] _ _ _ (by decide) hfit hcall)⟩

open PmmState in
/-- **A release that corrupts another module.**  With a module at 1 MiB before
one at 2 MiB, the page at 2 MiB is live, but its release writes bit 256 of the
two-page bitmap of the module at 1 MiB. -/
theorem pmmFree_misroutes :
    (∀ m ∈ lowHigh, pageSize ∣ m.base) ∧ (ranges lowHigh).Pairwise Block.Apart ∧
    ∃ s : PmmState, Run (Step .textbook) (init lowHigh .blank) s ∧
      (⟨0x200, 1⟩ : Block) ∈ s.live ∧
      pmmFree .textbook s.pmm 0x200000 1 = .error .wild ∧
      ¬ s.ReleasesExactly .textbook ⟨0x200, 1⟩ := by
  have hbase : ∀ m ∈ lowHigh, pageSize ∣ m.base := by decide
  obtain ⟨p, hshape, hrun⟩ := run_aligned_page lowHigh (by decide +kernel) (by decide +kernel)
  have hinv : Inv ⟨p, [⟨0x200, 1⟩]⟩ :=
    Run.invariant (fun _ _ hi hs => hi.step hs) (inv_init _ hbase ranges_apart_lowHigh) hrun
  have hmis : ¬ Routed ⟨p, [⟨0x200, 1⟩]⟩ ⟨0x200, 1⟩ := by
    obtain ⟨ms, mem⟩ := p
    simp only [lowHigh, List.map_cons, List.map_nil, List.map_eq_cons_iff,
      List.map_eq_nil_iff] at hshape
    obtain ⟨m₀, _, rfl, h₀, m₁, _, rfl, h₁, rfl⟩ := hshape
    obtain ⟨hb₀, hs₀⟩ : m₀.base = 0x100000 ∧ m₀.bitmap.size = 2 := Prod.mk.inj h₀
    obtain ⟨hb₁, hs₁⟩ : m₁.base = 0x200000 ∧ m₁.bitmap.size = 2 := Prod.mk.inj h₁
    intro hr
    refine hr [m₀] m₁ [] rfl ?_ m₀ (by simp) ⟨?_, ?_⟩
    · simp [Block.Within, PmmModule.frames_first, PmmModule.frames_len, hb₁, hs₁, pageSize]
    · simp [hb₀, pageSize]
    · simp [PmmModule.bitmapEntryCnt, hs₀]
  have hwild := hinv.free_misrouted .textbook (by simp) hmis
  refine ⟨hbase, ranges_apart_lowHigh, _, hrun, by simp, hwild, ?_⟩
  rintro ⟨before, m, after, i, -, -, -, heq, -⟩
  rw [hwild] at heq
  cases heq

open PmmState in
/-- With the higher module first the same release is exact. -/
theorem pmmFree_exact_highLow :
    ∃ s : PmmState, Run (Step .textbook) (init highLow .blank) s ∧
      (⟨0x200, 1⟩ : Block) ∈ s.live ∧ s.ReleasesExactly .textbook ⟨0x200, 1⟩ := by
  obtain ⟨p, hshape, hrun⟩ := run_aligned_page highLow (by decide +kernel) (by decide +kernel)
  refine ⟨_, hrun, by simp, (pmmFree_exact_iff .textbook .blank (by decide)
    ranges_apart_highLow hrun (by simp)).mpr ?_⟩
  obtain ⟨ms, mem⟩ := p
  simp only [highLow, List.map_cons, List.map_nil, List.map_eq_cons_iff,
    List.map_eq_nil_iff] at hshape
  obtain ⟨m₀, _, rfl, h₀, m₁, _, rfl, h₁, rfl⟩ := hshape
  obtain ⟨hb₁, hs₁⟩ : m₁.base = 0x100000 ∧ m₁.bitmap.size = 2 := Prod.mk.inj h₁
  intro before m after hms hwithin e he
  -- only the first module can own the page, and nothing stands before it
  rcases before with - | ⟨a, before⟩
  · simp at he
  · exfalso
    obtain ⟨-, hm⟩ : m₀ = a ∧ [m₁] = before ++ m :: after := by simpa using hms
    have hmem : m ∈ [m₁] := by rw [hm]; simp
    obtain rfl := List.mem_singleton.mp hmem
    have hend := hwithin.2
    simp [PmmModule.frames_first, PmmModule.frames_len, hb₁, hs₁, pageSize] at hend

end Rock
