/-
Rock/PmmThreads.lean

`pmm_alloc` and `pmm_free` called by several processors at once (kernel/core/physical.c).

`pmm_module_alloc` and `pmm_module_free` are written out access by access, each between
`spinlock(&module->lock)` and `spinrelease(&module->lock)`; without interruption they are the
functions of Rock/PmmModule.lean (`run_pmmModuleAllocBody`, `run_pmmModuleFreeBody`).  What
`pmm_alloc` and `pmm_free` do around them holds no lock: the walk over the modules, which reads
only fields that never change, and the clearing of the new block, word by word.

The threads are any callers: each allocates and frees as it likes, and writes to the blocks it
owns.  What they ask for is a parameter (`PmmCallers`), and what it must keep to is a hypothesis of
the main result (`PmmCallers.Sound`): the code does not test it.  The invariant is the one of
the sequential allocator for the blocks of all threads together (`PmmState.Inv`), kept by whole
calls and carried to single accesses by the reduction of Rock/Spinlock.lean.

Main result: `pmm_threads_safe`.
-/
import Rock.Pmm
import Rock.Spinlock

namespace Rock

/-! ### The critical sections -/

/-- `BIT_TEST(module->bitmap, j)`. -/
def bitTest (j : ℕ) : Prog PmmModule Bool :=
  .one fun m => do
    let b ← m.bitmap.test j
    .ok (b, m)

/-- `BIT_SET(module->bitmap, j)` and `BIT_CLEAR(module->bitmap, j)`. -/
def bitPut (j : ℕ) (v : Bool) : Prog PmmModule Unit :=
  .one fun m => do
    let bitmap ← m.bitmap.put j v
    .ok ((), { m with bitmap := bitmap })

/-- The inner loop of `pmm_module_alloc`. -/
def probeBody (cnt : ℕ) : (n j count : ℕ) → Prog PmmModule Probe
  | 0, _, _ => pure .short
  | n + 1, j, count => do
      if ← bitTest j then pure .taken
      else if count + 1 = cnt then pure (.clear j (count + 1))
      else probeBody cnt n (j + 1) (count + 1)

/-- The outer loop; `size` is `module->bitmap_entry_cnt`. -/
def searchBody (size cnt align : ℕ) : (fuel i allocBase : ℕ) → Prog PmmModule (Option Found)
  | 0, i, _ => if i < size then .fail .hang else pure none
  | fuel + 1, i, allocBase =>
      if i < size then
        if size < u64 (i + cnt) then pure none
        else do
          match ← probeBody cnt (u64 (i + cnt) - i) i 0 with
          | .taken =>
              searchBody size cnt align fuel (u64 (i + align))
                (u64 (allocBase + u64 (align * pageSize)))
          | .short => searchBody size cnt align fuel (u64 (i + align)) allocBase
          | .clear j count => pure (some ⟨i, j, count, allocBase⟩)
      else pure none

/-- The loop that sets, or clears, `n` bits from `i` on. -/
def putRangeBody (v : Bool) : (n i : ℕ) → Prog PmmModule Unit
  | 0, _ => pure ()
  | n + 1, i => do
      bitPut i v
      putRangeBody v n (i + 1)

/-- The loop that looks for the next hint. -/
def hintBody : (n z : ℕ) → Prog PmmModule Unit
  | 0, _ => pure ()
  | n + 1, z => do
      if ← bitTest z then hintBody n (z + 1)
      else .store fun m => { m with lastFree := z }

variable (fayt : Fayt)

/-- `pmm_module_alloc` between taking the lock and releasing it. -/
def pmmModuleAllocBody (cnt align : ℕ) : Prog PmmModule (Option ℕ) := do
  let base ← .load PmmModule.base
  let lastFree ← .load PmmModule.lastFree
  let size ← .load PmmModule.bitmapEntryCnt
  let allocBase := fayt.alignUp (u64 (base + u64 (lastFree * pageSize))) (u64 (align * pageSize))
  match ← searchBody size cnt align size (usub allocBase base / pageSize) allocBase with
  | none => pure none
  | some f => do
      putRangeBody true f.count f.i
      .store fun m => { m with lastFree := 0 }
      hintBody (size - f.j) f.j
      pure (some f.allocBase)

/-- `pmm_module_free` between taking the lock and releasing it. -/
def pmmModuleFreeBody (base cnt : ℕ) : Prog PmmModule Unit :=
  let start := fayt.divRoundup base pageSize
  putRangeBody false (u64 (start + cnt) - start) start

/-! ### Without interruption -/

open Prog

@[simp] theorem run_bitTest (j : ℕ) (m : PmmModule) :
    run (bitTest j) m = m.bitmap.test j >>= fun b => .ok (b, m) := run_one _ m

@[simp] theorem run_bitPut (j : ℕ) (v : Bool) (m : PmmModule) :
    run (bitPut j v) m = m.bitmap.put j v >>= fun bm => .ok ((), { m with bitmap := bm }) :=
  run_one _ m

theorem run_probeBody (cnt n j count : ℕ) (m : PmmModule) :
    run (probeBody cnt n j count) m
      = probe m.bitmap cnt n j count >>= fun r => .ok (r, m) := by
  induction n generalizing j count with
  | zero => rfl
  | succ n ih =>
    rw [probeBody, probe]
    simp only [run_bind, run_bitTest]
    rcases m.bitmap.test j with e | b
    · rfl
    · simp only [Exec.ok_bind, run_ite, ih, run_pure]
      split_ifs <;> rfl

theorem run_searchBody (cnt align fuel i allocBase : ℕ) (m : PmmModule) :
    run (searchBody m.bitmap.size cnt align fuel i allocBase) m
      = search m.bitmap cnt align fuel i allocBase >>= fun r => .ok (r, m) := by
  induction fuel generalizing i allocBase with
  | zero =>
    rw [searchBody, search]
    split_ifs <;> rfl
  | succ fuel ih =>
    rw [searchBody, search]
    simp only [run_ite, run_bind, run_probeBody]
    split_ifs with hi hshort
    · rfl
    · rcases probe m.bitmap cnt (u64 (i + cnt) - i) i 0 with e | r
      · rfl
      · simp only [Exec.ok_bind]
        cases r with
        | taken => exact ih _ _
        | short => exact ih _ _
        | clear j count => rfl
    · rfl

theorem run_putRangeBody (v : Bool) (n i : ℕ) (m : PmmModule) :
    run (putRangeBody v n i) m
      = m.bitmap.putRange v n i >>= fun bm => .ok ((), { m with bitmap := bm }) := by
  induction n generalizing i m with
  | zero => rfl
  | succ n ih =>
    rw [putRangeBody, Bitmap.putRange]
    simp only [run_bind, run_bitPut]
    rcases m.bitmap.put i v with e | bm
    · rfl
    · simp only [Exec.ok_bind, ih]

theorem run_hintBody (n z : ℕ) (m : PmmModule) :
    run (hintBody n z) m
      = m.bitmap.findClear n z >>= fun r => .ok ((), { m with lastFree := r.getD m.lastFree }) := by
  induction n generalizing z with
  | zero => rfl
  | succ n ih =>
    rw [hintBody, Bitmap.findClear]
    simp only [run_bind, run_bitTest]
    rcases m.bitmap.test z with e | b
    · rfl
    · simp only [Exec.ok_bind, run_ite, ih, run_store]
      split_ifs <;> rfl

/-- **`pmm_module_alloc` without interruption.** -/
theorem run_pmmModuleAllocBody (cnt align : ℕ) (m : PmmModule) :
    run (pmmModuleAllocBody fayt cnt align) m = pmmModuleAlloc fayt m cnt align := by
  rw [pmmModuleAllocBody, pmmModuleAlloc]
  simp only [run_bind, run_load, Exec.ok_bind, run_searchBody]
  generalize search m.bitmap cnt align _ _ _ = found
  rcases found with e | - | f
  · rfl
  · rfl
  · simp only [Exec.ok_bind, run_bind, run_putRangeBody]
    rcases m.bitmap.putRange true f.count f.i with e | bm
    · rfl
    · simp only [Exec.ok_bind, run_store, run_hintBody]
      rcases bm.findClear (m.bitmap.size - f.j) f.j with e | z <;> rfl

/-- **`pmm_module_free` without interruption.** -/
theorem run_pmmModuleFreeBody (base cnt : ℕ) (m : PmmModule) :
    run (pmmModuleFreeBody fayt base cnt) m
      = pmmModuleFree fayt m base cnt >>= fun m' => .ok ((), m') := by
  rw [pmmModuleFreeBody, pmmModuleFree, run_putRangeBody]
  rcases m.bitmap.putRange false _ _ with e | bm <;> rfl

/-! ### The threads -/

/-- Where a thread is in its calls.  `allocating` and `freeing` walk the list of modules and
stand before the one with the number `next`; `clearing` has cleared `done` words. -/
inductive PmmPhase where
  | idle
  | allocating (cnt align next : ℕ)
  | clearing (a cnt done : ℕ)
  | freeing (b : Block) (next : ℕ)

/-- A thread: where it is, and the blocks it owns. -/
structure PmmThread where
  phase : PmmPhase
  owned : List Block

/-- The number of words `pmm_alloc` clears. -/
def pmmWords (cnt : ℕ) : ℕ := u64 (cnt * pageSize) / 8

/-- What the callers ask for: the sizes and alignments of `pmm_alloc`, and the blocks that are
given to `pmm_free`. -/
structure PmmCallers where
  allocs : ℕ → ℕ → Prop
  frees : Block → Prop

section Client

variable {n : ℕ} (callers : PmmCallers) (ms : Fin n → PmmModule)

/-- No module before the owner of `b` lies below `b` and has room for as many pages. -/
def RoutedIn (b : Block) : Prop :=
  ∀ l, b.Within (ms l).frames →
    ∀ e < l, ¬ ((ms e).base ≤ b.first * pageSize ∧ b.len ≤ (ms e).bitmapEntryCnt)

/-- The requests that these modules serve well: no search passes the top of the address space, and
`pmm_free` finds the module that a block came from. -/
structure PmmCallers.Sound : Prop where
  fits : ∀ cnt align, callers.allocs cnt align → ∀ l, (ms l).Fits align
  routed : ∀ b, callers.frees b → RoutedIn ms b

/-- What a thread does between critical sections.  An idle thread may write a word of a block it
owns, and calls `pmm_free` for such a block only. -/
inductive PmmThread.Plain : PmmThread → Mem → PmmThread → Mem → Prop
  | alloc {owned : List Block} {mem : Mem} {cnt align : ℕ} :
      cnt < 2 ^ 64 → callers.allocs cnt align →
      Plain ⟨.idle, owned⟩ mem ⟨.allocating cnt align 0, owned⟩ mem
  | exhausted {owned : List Block} {mem : Mem} {cnt align next : ℕ} :
      n ≤ next → Plain ⟨.allocating cnt align next, owned⟩ mem ⟨.idle, owned⟩ mem
  | clear {owned : List Block} {mem : Mem} {a cnt done : ℕ} :
      done < pmmWords cnt →
      Plain ⟨.clearing a cnt done, owned⟩ mem ⟨.clearing a cnt (done + 1), owned⟩
        (memset64 mem (a + 8 * done) 0 1)
  | cleared {owned : List Block} {mem : Mem} {a cnt done : ℕ} :
      pmmWords cnt ≤ done → Plain ⟨.clearing a cnt done, owned⟩ mem ⟨.idle, owned⟩ mem
  | write {owned : List Block} {mem : Mem} {b : Block} {addr : ℕ} (v : Word) :
      b ∈ owned → 8 ∣ addr → b.Has (addr / pageSize) →
      Plain ⟨.idle, owned⟩ mem ⟨.idle, owned⟩ (memset64 mem addr v 1)
  | free {owned : List Block} {mem : Mem} {b : Block} :
      b ∈ owned → callers.frees b → Plain ⟨.idle, owned⟩ mem ⟨.freeing b 0, owned⟩ mem
  | skip {owned : List Block} {mem : Mem} {b : Block} {l : Fin n} :
      ¬ (ms l).Accepts (b.first * pageSize) b.len →
      Plain ⟨.freeing b l, owned⟩ mem ⟨.freeing b (l + 1), owned⟩ mem
  | unknown {owned : List Block} {mem : Mem} {b : Block} {next : ℕ} :
      n ≤ next → Plain ⟨.freeing b next, owned⟩ mem ⟨.idle, owned⟩ mem

/-- `pmm_module_alloc`, as the loop of `pmm_alloc` goes on after it. -/
def allocCall (cnt align next : ℕ) (owned : List Block) : Prog PmmModule PmmThread := do
  let alloc ← pmmModuleAllocBody fayt cnt align
  pure (alloc.elim ⟨.allocating cnt align (next + 1), owned⟩
    fun a => ⟨.clearing a cnt 0, ⟨a / pageSize, cnt⟩ :: owned⟩)

/-- `pmm_module_free`, after which `pmm_free` returns. -/
def freeCall (l : Fin n) (b : Block) (owned : List Block) : Prog PmmModule PmmThread := do
  pmmModuleFreeBody fayt (usub (b.first * pageSize) (ms l).base) b.len
  pure ⟨.idle, owned.erase b⟩

/-- The critical sections. -/
inductive PmmThread.Call : PmmThread → Fin n → Prog PmmModule PmmThread → Prop
  | alloc {owned : List Block} {cnt align : ℕ} (l : Fin n) :
      Call ⟨.allocating cnt align l, owned⟩ l (allocCall fayt cnt align l owned)
  | free {owned : List Block} {b : Block} (l : Fin n) :
      (ms l).Accepts (b.first * pageSize) b.len →
      Call ⟨.freeing b l, owned⟩ l (freeCall fayt ms l b owned)

/-- Any callers of `pmm_alloc` and `pmm_free`; `ms` are the modules as `pmm_init` leaves them,
of which the threads read the fields that never change. -/
def pmmClient : Client (Fin n) (fun _ => PmmModule) Mem PmmThread where
  plain := PmmThread.Plain callers ms
  call := PmmThread.Call fayt ms

end Client

/-- The machine whose locks are the modules' and whose unguarded state is memory. -/
abbrev PmmFine (T : Type) (n : ℕ) := Fine T (fun _ : Fin n => PmmModule) Mem PmmThread

/-- The same at the level of whole calls of `pmm_module_alloc` and `pmm_module_free`. -/
abbrev PmmCoarse (T : Type) (n : ℕ) := Coarse T (fun _ : Fin n => PmmModule) Mem PmmThread

/-! ### Words of memory -/

/-- A word that a one-word write changes lies in the page of the write. -/
theorem memset64_one_of_page_ne {mem : Mem} {addr : ℕ} {v p : Word} {k : BitVec 9}
    (ha : 8 ∣ addr) (hne : (p.toNat + 8 * k.toNat) / pageSize ≠ addr / pageSize) :
    memset64 mem addr v 1 p k = mem p k := by
  rw [memset64, if_neg]
  rintro ⟨h1, h2⟩
  refine hne ?_
  simp only [pageSize]
  omega

/-- A block whose first `done` words from `a` on are zero. -/
def ClearedTo (mem : Mem) (a done : ℕ) : Prop :=
  ∀ (p : Word) (k : BitVec 9), a ≤ p.toNat + 8 * k.toNat →
    p.toNat + 8 * k.toNat < a + 8 * done → mem p k = 0

theorem ClearedTo.zero (mem : Mem) (a : ℕ) : ClearedTo mem a 0 := by
  intro p k h1 h2
  omega

theorem ClearedTo.succ {mem : Mem} {a done : ℕ} (h : ClearedTo mem a done) :
    ClearedTo (memset64 mem (a + 8 * done) 0 1) a (done + 1) := by
  intro p k h1 h2
  rw [memset64]
  split_ifs with hin
  · rfl
  · exact h p k h1 (by omega)

/-- A write to another block leaves the cleared words alone. -/
theorem ClearedTo.write {mem : Mem} {a cnt done addr : ℕ} {b : Block} {v : Word}
    (h : ClearedTo mem a done) (ha : pageSize ∣ a) (hdone : 8 * done ≤ cnt * pageSize)
    (hap : Block.Apart ⟨a / pageSize, cnt⟩ b) (haddr : 8 ∣ addr)
    (hb : b.Has (addr / pageSize)) : ClearedTo (memset64 mem addr v 1) a done := by
  intro p k h1 h2
  rw [memset64_one_of_page_ne haddr, h p k h1 h2]
  intro heq
  refine hap _ ⟨⟨Nat.div_le_div_right h1, ?_⟩, heq ▸ hb⟩
  obtain ⟨q, rfl⟩ := ha
  rw [Nat.mul_div_cancel_left q pageSize_pos]
  refine Nat.div_lt_of_lt_mul ?_
  calc p.toNat + 8 * k.toNat < pageSize * q + 8 * done := h2
    _ ≤ pageSize * q + cnt * pageSize := Nat.add_le_add_left hdone _
    _ = pageSize * (q + cnt) := by rw [Nat.mul_add, Nat.mul_comm cnt]

/-! ### What never changes about a module -/

namespace PmmModule

variable {m m' : PmmModule}

@[simp] theorem update_shape (m : PmmModule) (i n : ℕ) (v : Bool) (hint : ℕ) :
    (m.update i n v hint).shape = m.shape := rfl

theorem frames_of_shape (h : m.shape = m'.shape) : m.frames = m'.frames := by
  obtain ⟨hbase, hsize⟩ := Prod.mk.inj h
  rw [frames, frames, Bitmap.span, Bitmap.span, hbase, hsize]

theorem fits_of_shape (h : m.shape = m'.shape) {align : ℕ} (hf : m.Fits align) :
    m'.Fits align := by
  obtain ⟨hbase, hsize⟩ := Prod.mk.inj h
  rwa [Fits, ← hbase, ← hsize]

theorem accepts_of_shape (h : m.shape = m'.shape) {base cnt : ℕ} (ha : m.Accepts base cnt) :
    m'.Accepts base cnt := by
  obtain ⟨hbase, hsize⟩ := Prod.mk.inj h
  rwa [Accepts, bitmapEntryCnt, ← hbase, ← hsize]

end PmmModule

/-- Releasing a block through the module it lies in clears its bits. -/
theorem pmmModuleFree_within {m : PmmModule} (hm : m.Wf) (hfit : m.Fits 1) {b : Block}
    (hb : b.Within m.frames) :
    ∃ i, b.first = m.base / pageSize + i ∧ i + b.len ≤ m.bitmap.size ∧
      pmmModuleFree fayt m (usub (b.first * pageSize) m.base) b.len
        = .ok (m.update i b.len false m.lastFree) := by
  obtain ⟨h1, -, h3⟩ := PmmState.block_end_le hm hfit hb
  obtain ⟨i, hi⟩ := Nat.exists_eq_add_of_le hb.1
  have hp := pageSize_pos
  have hsize := hfit.2
  have hin : i + b.len ≤ m.bitmap.size := by
    have hend := hb.2
    rw [hi, PmmModule.frames_first, PmmModule.frames_len, Nat.add_assoc] at hend
    exact Nat.le_of_add_le_add_left hend
  rw [Nat.add_mul] at h3
  refine ⟨i, hi, hin, ?_⟩
  rw [usub_of_le h1 (by omega), hi, PmmModule.frames_first, Nat.add_mul, hm.base_eq,
    Nat.add_sub_cancel_left]
  exact pmmModuleFree_spec fayt hin (by omega)

/-- The list of all modules around the one with the number `l`. -/
theorem ofFn_update_split {α : Type} {n : ℕ} (g : Fin n → α) (l : Fin n) :
    ∃ before after, List.ofFn g = before ++ g l :: after ∧
      ∀ x, List.ofFn (Function.update g l x) = before ++ x :: after := by
  have hset : ∀ x, List.ofFn (Function.update g l x)
      = (List.ofFn g).take l ++ x :: (List.ofFn g).drop (l + 1) := by
    intro x
    have heq : List.ofFn (Function.update g l x) = (List.ofFn g).set l x := by
      refine List.ext_getElem (by simp) fun j _ _ => ?_
      simp only [List.getElem_ofFn, List.getElem_set, Function.update_apply, Fin.ext_iff, eq_comm]
    rw [heq, List.set_eq_take_append_cons_drop, if_pos (by simp)]
  refine ⟨_, _, ?_, hset⟩
  rw [← hset (g l), Function.update_eq_self]

/-! ### The invariant of whole calls -/

section Inv

variable {T : Type} {n : ℕ} {callers : PmmCallers} {ms : Fin n → PmmModule}

/-- What a thread may rely on where it is. -/
def PmmThread.Ok (ms : Fin n → PmmModule) (mem : Mem) (t : PmmThread) : Prop :=
  match t.phase with
  | .idle => True
  | .allocating cnt align _ => cnt < 2 ^ 64 ∧ ∀ l, (ms l).Fits align
  | .clearing a cnt done =>
      ⟨a / pageSize, cnt⟩ ∈ t.owned ∧ pageSize ∣ a ∧ cnt * pageSize < 2 ^ 64 ∧
        8 * done ≤ cnt * pageSize ∧ ClearedTo mem a done
  | .freeing b next =>
      b ∈ t.owned ∧ RoutedIn ms b ∧ ∀ l, b.Within (ms l).frames → next ≤ l

/-- The invariant: the blocks of all threads together are what the sequential allocator has
handed out, and no block has two owners. -/
structure PmmThreadsInv (ms : Fin n → PmmModule) (live : List Block) (d : PmmCoarse T n) :
    Prop where
  pmm : PmmState.Inv ⟨⟨List.ofFn d.guarded, d.shared⟩, live⟩
  shape : ∀ l, (d.guarded l).shape = (ms l).shape
  owner : ∀ b, b ∈ live ↔ ∃ i, b ∈ (d.here i).owned
  unique : ∀ i j b, b ∈ (d.here i).owned → b ∈ (d.here j).owned → i = j
  nodup : ∀ i, (d.here i).owned.Nodup
  ok : ∀ i, (d.here i).Ok ms d.shared

/-- A write to a block of somebody else. -/
theorem PmmThread.Ok.write {t : PmmThread} {mem : Mem} (h : t.Ok ms mem) {b : Block}
    {addr : ℕ} (v : Word) (hap : ∀ c ∈ t.owned, c.Apart b) (haddr : 8 ∣ addr)
    (hb : b.Has (addr / pageSize)) : t.Ok ms (memset64 mem addr v 1) := by
  obtain ⟨phase, owned⟩ := t
  cases phase with
  | idle => exact h
  | allocating => exact h
  | clearing a cnt done =>
    obtain ⟨hmem, ha, htop, hdone, hcl⟩ := h
    exact ⟨hmem, ha, htop, hdone, hcl.write ha hdone (hap _ hmem) haddr hb⟩
  | freeing => exact h

/-- **A step outside the critical sections**: the thread keeps its blocks, and it writes at most
one word, of a block of its own. -/
theorem PmmThread.Ok.plain {t t' : PmmThread} {mem mem' : Mem} (h : t.Ok ms mem)
    (hcallers : callers.Sound ms)
    (hacc : ∀ b ∈ t.owned, ∀ l, b.Within (ms l).frames →
      (ms l).Accepts (b.first * pageSize) b.len)
    (hs : PmmThread.Plain callers ms t mem t' mem') :
    t'.owned = t.owned ∧ t'.Ok ms mem' ∧
      (mem' = mem ∨ ∃ b ∈ t.owned, ∃ addr v, 8 ∣ addr ∧ b.Has (addr / pageSize) ∧
        mem' = memset64 mem addr v 1) := by
  cases hs with
  | alloc hcnt hask => exact ⟨rfl, ⟨hcnt, hcallers.fits _ _ hask⟩, .inl rfl⟩
  | exhausted => exact ⟨rfl, trivial, .inl rfl⟩
  | @clear owned mem a cnt done hlt =>
    obtain ⟨hmem, ⟨q, rfl⟩, htop, -, hcl⟩ := h
    have hwords : 8 * (done + 1) ≤ cnt * pageSize := by
      rw [pmmWords, u64_of_lt htop] at hlt
      omega
    refine ⟨rfl, ⟨hmem, ⟨q, rfl⟩, htop, hwords, hcl.succ⟩,
      .inr ⟨_, hmem, _, _, ?_, ?_, rfl⟩⟩
    · exact dvd_add (Dvd.dvd.mul_right (by decide) q) (Nat.dvd_mul_right 8 done)
    · rw [Nat.mul_div_cancel_left q pageSize_pos]
      simp only [Block.Has, pageSize] at hwords ⊢
      omega
  | cleared => exact ⟨rfl, trivial, .inl rfl⟩
  | @write owned mem b addr v hb haddr hin =>
    exact ⟨rfl, trivial, .inr ⟨b, hb, addr, v, haddr, hin, rfl⟩⟩
  | free hb hask =>
    exact ⟨rfl, ⟨hb, hcallers.routed _ hask, fun _ _ => Nat.zero_le _⟩, .inl rfl⟩
  | @skip owned mem b l hno =>
    obtain ⟨hmem, hr, hle⟩ := h
    refine ⟨rfl, ⟨hmem, hr, fun l' hl' => ?_⟩, .inl rfl⟩
    -- the owner accepts the block, so the module that was skipped is not the owner
    refine lt_of_le_of_ne (hle l' hl') fun heq => hno ?_
    rw [Fin.val_inj.mp heq]
    exact hacc b hmem l' hl'
  | unknown => exact ⟨rfl, trivial, .inl rfl⟩

namespace PmmThreadsInv

variable {live : List Block} {d d' : PmmCoarse T n}

theorem mem_live (h : PmmThreadsInv ms live d) {i : T} {b : Block}
    (hb : b ∈ (d.here i).owned) : b ∈ live := (h.owner b).mpr ⟨i, hb⟩

/-- Blocks of two threads, or two blocks of one, are apart. -/
theorem apart (h : PmmThreadsInv ms live d) {i j : T} {b c : Block}
    (hb : b ∈ (d.here i).owned) (hc : c ∈ (d.here j).owned) (hne : i ≠ j ∨ b ≠ c) :
    b.Apart c := by
  refine (h.pmm.ledger.eq_or_apart (h.mem_live hb) (h.mem_live hc)).resolve_left ?_
  rintro rfl
  rcases hne with hij | hbb
  · exact hij (h.unique i j b hb hc)
  · exact hbb rfl

theorem wf (h : PmmThreadsInv ms live d) (l : Fin n) : (d.guarded l).Wf :=
  h.pmm.wf _ (List.mem_ofFn.mpr ⟨l, rfl⟩)

/-- Once a block is live, every module ends a page below the top of the address space. -/
theorem fits (h : PmmThreadsInv ms live d) {b : Block} (hb : b ∈ live) (l : Fin n) :
    (d.guarded l).Fits 1 :=
  h.pmm.room b hb _ (List.mem_ofFn.mpr ⟨l, rfl⟩)

/-- The module a live block lies in. -/
theorem exists_within (h : PmmThreadsInv ms live d) {b : Block} (hb : b ∈ live) :
    ∃ l, b.Within (ms l).frames := by
  obtain ⟨f, hf, hbf⟩ := h.pmm.inside b hb
  obtain ⟨m, hm, rfl⟩ := List.mem_map.mp hf
  obtain ⟨l, rfl⟩ := List.mem_ofFn.mp hm
  exact ⟨l, PmmModule.frames_of_shape (h.shape l) ▸ hbf⟩

theorem accepts_iff (h : PmmThreadsInv ms live d) {b : Block} (hb : b ∈ live) (l : Fin n) :
    (ms l).Accepts (b.first * pageSize) b.len ↔
      (ms l).base ≤ b.first * pageSize ∧ b.len ≤ (ms l).bitmapEntryCnt := by
  obtain ⟨o, ho⟩ := h.exists_within hb
  rw [← PmmModule.frames_of_shape (h.shape o)] at ho
  have hiff := PmmState.accepts_iff (h.wf o) (h.fits hb o) ho (h.fits hb l)
  obtain ⟨hbase, hsize⟩ := Prod.mk.inj (h.shape l)
  rwa [PmmModule.Accepts, PmmModule.bitmapEntryCnt, hbase, hsize] at hiff

/-- The owner's module accepts a block. -/
theorem accepts_owner (h : PmmThreadsInv ms live d) {b : Block} (hb : b ∈ live) {l : Fin n}
    (hl : b.Within (ms l).frames) : (ms l).Accepts (b.first * pageSize) b.len := by
  rw [← PmmModule.frames_of_shape (h.shape l)] at hl
  refine PmmModule.accepts_of_shape (h.shape l) ?_
  refine (PmmState.accepts_iff (h.wf l) (h.fits hb l) hl (h.fits hb l)).mpr ⟨?_, ?_⟩
  · exact (PmmState.block_end_le (h.wf l) (h.fits hb l) hl).1
  · obtain ⟨h1, h2⟩ := hl
    rw [PmmModule.frames_len] at h2
    omega

variable [DecidableEq T]

/-- A thread moves on with the same blocks. -/
theorem rephase (h : PmmThreadsInv ms live d) {i : T} {t' : PmmThread} {mem' : Mem}
    (howned : t'.owned = (d.here i).owned) (hok : t'.Ok ms mem')
    (hothers : ∀ j, j ≠ i → (d.here j).Ok ms mem') :
    PmmThreadsInv ms live { d with shared := mem', here := Function.update d.here i t' } := by
  have hsame : ∀ j, (Function.update d.here i t' j).owned = (d.here j).owned := by
    intro j
    rcases eq_or_ne j i with rfl | hj
    · rw [Function.update_self, howned]
    · rw [Function.update_of_ne hj]
  refine ⟨⟨h.pmm.wf, h.pmm.disjoint, h.pmm.ledger, h.pmm.tracks, h.pmm.inside, h.pmm.room⟩,
    h.shape, ?_, ?_, ?_, ?_⟩
  · simpa only [hsame] using h.owner
  · simpa only [hsame] using h.unique
  · simpa only [hsame] using h.nodup
  · intro j
    rcases eq_or_ne j i with rfl | hj
    · simpa using hok
    · simpa [hj] using hothers j hj

theorem plain (h : PmmThreadsInv ms live d) (hcallers : callers.Sound ms) {i : T}
    {t' : PmmThread} {mem' : Mem}
    (hs : PmmThread.Plain callers ms (d.here i) d.shared t' mem') :
    PmmThreadsInv ms live { d with shared := mem', here := Function.update d.here i t' } := by
  obtain ⟨howned, hok, hmem⟩ := (h.ok i).plain hcallers
    (fun b hb l hl => h.accepts_owner (h.mem_live hb) hl) hs
  refine h.rephase howned hok fun j hj => ?_
  rcases hmem with rfl | ⟨b, hb, addr, v, haddr, hin, rfl⟩
  · exact h.ok j
  · exact (h.ok j).write v (fun c hc => h.apart hc hb (.inl hj)) haddr hin

/-- A module has handed out a block: its bits are set, and the thread owns it. -/
theorem grant (h : PmmThreadsInv ms live d) {i : T} {l : Fin n} {k cnt hint : ℕ}
    {phase : PmmPhase} (hpos : 0 < cnt) (hin : k + cnt ≤ (d.guarded l).bitmap.size)
    (hclear : ∀ j, k ≤ j → j < k + cnt → (d.guarded l).bitmap.bits j = false)
    (hhint : hint ≤ (d.guarded l).bitmap.size) (hroom : ∀ l, (d.guarded l).Fits 1)
    (hok : PmmThread.Ok ms d.shared
      ⟨phase, ⟨(d.guarded l).base / pageSize + k, cnt⟩ :: (d.here i).owned⟩) :
    PmmThreadsInv ms (⟨(d.guarded l).base / pageSize + k, cnt⟩ :: live)
      { d with
        guarded := Function.update d.guarded l ((d.guarded l).update k cnt true hint)
        here := Function.update d.here i
          ⟨phase, ⟨(d.guarded l).base / pageSize + k, cnt⟩ :: (d.here i).owned⟩ } := by
  obtain ⟨before, after, hlist, hupd⟩ := ofFn_update_split d.guarded l
  have hpmm := h.pmm
  rw [hlist] at hpmm
  have hroom' : ∀ e ∈ before ++ d.guarded l :: after, e.Fits 1 := by
    rw [← hlist]
    simpa [List.mem_ofFn] using hroom
  have hpmm' : PmmState.Inv ⟨⟨before ++ (d.guarded l).update k cnt true hint :: after, d.shared⟩,
      ⟨(d.guarded l).base / pageSize + k, cnt⟩ :: live⟩ :=
    hpmm.enter hpos hin hclear hhint hroom'
  generalize hb : (⟨(d.guarded l).base / pageSize + k, cnt⟩ : Block) = b at *
  have hnew : b ∉ live := (List.nodup_cons.mp hpmm'.ledger.nodup).1
  have hnone : ∀ j, b ∉ (d.here j).owned := fun j hj => hnew (h.mem_live hj)
  have hsub : ∀ j c, c ∈ (Function.update d.here i ⟨phase, b :: (d.here i).owned⟩ j).owned ↔
      (j = i ∧ c = b) ∨ c ∈ (d.here j).owned := by
    intro j c
    rcases eq_or_ne j i with rfl | hji
    · simp
    · simp [hji]
  refine ⟨by rw [hupd]; exact hpmm', ?_, ?_, ?_, ?_, ?_⟩
  · intro l'
    rcases eq_or_ne l' l with rfl | hl
    · simpa using h.shape l'
    · simpa [hl] using h.shape l'
  · intro c
    simp only [hsub, List.mem_cons, h.owner c, exists_or, exists_eq_left]
  · intro j j' c hj hj'
    rw [hsub] at hj hj'
    -- the new block belongs to nobody else
    rcases hj with ⟨rfl, rfl⟩ | hj <;> rcases hj' with ⟨rfl, hc⟩ | hj'
    · rfl
    · exact absurd hj' (hnone j')
    · exact absurd (hc ▸ hj) (hnone j)
    · exact h.unique j j' c hj hj'
  · intro j
    rcases eq_or_ne j i with rfl | hji
    · simpa using ⟨hnone j, h.nodup j⟩
    · simpa [hji] using h.nodup j
  · intro j
    rcases eq_or_ne j i with rfl | hji
    · simpa using hok
    · simpa [hji] using h.ok j

/-- A block has been given back: its bits are clear, and nobody owns it. -/
theorem release (h : PmmThreadsInv ms live d) {i : T} {l : Fin n} {k cnt : ℕ}
    (hb : (⟨(d.guarded l).base / pageSize + k, cnt⟩ : Block) ∈ (d.here i).owned)
    (hin : k + cnt ≤ (d.guarded l).bitmap.size) :
    PmmThreadsInv ms (live.erase ⟨(d.guarded l).base / pageSize + k, cnt⟩)
      { d with
        guarded := Function.update d.guarded l
          ((d.guarded l).update k cnt false (d.guarded l).lastFree)
        here := Function.update d.here i
          ⟨.idle, (d.here i).owned.erase ⟨(d.guarded l).base / pageSize + k, cnt⟩⟩ } := by
  obtain ⟨before, after, hlist, hupd⟩ := ofFn_update_split d.guarded l
  have hpmm := h.pmm
  rw [hlist] at hpmm
  have hpmm' := hpmm.strike (h.mem_live hb) hin
  generalize (⟨(d.guarded l).base / pageSize + k, cnt⟩ : Block) = b at *
  have hsub : ∀ j c, c ∈ (Function.update d.here i ⟨.idle, (d.here i).owned.erase b⟩ j).owned ↔
      c ≠ b ∧ c ∈ (d.here j).owned := by
    intro j c
    rcases eq_or_ne j i with rfl | hji
    · simpa using (h.nodup j).mem_erase_iff
    · simp only [Function.update_of_ne hji, ne_eq, iff_and_self]
      rintro hj rfl
      exact hji (h.unique j i c hj hb)
  refine ⟨by rw [hupd]; exact hpmm', ?_, ?_, ?_, ?_, ?_⟩
  · intro l'
    rcases eq_or_ne l' l with rfl | hl
    · simpa using h.shape l'
    · simpa [hl] using h.shape l'
  · intro c
    simp only [hsub, h.pmm.ledger.mem_erase_iff, h.owner c, exists_and_left]
  · intro j j' c hj hj'
    exact h.unique j j' c ((hsub j c).mp hj).2 ((hsub j' c).mp hj').2
  · intro j
    rcases eq_or_ne j i with rfl | hji
    · simpa using (h.nodup j).erase b
    · simpa [hji] using h.nodup j
  · intro j
    rcases eq_or_ne j i with rfl | hji
    · simp only [Function.update_self]
      trivial
    · simpa [hji] using h.ok j

/-- **A whole critical section** returns, and keeps the invariant. -/
theorem call (h : PmmThreadsInv ms live d) {i : T} {l : Fin n}
    {body : Prog PmmModule PmmThread} (hc : PmmThread.Call fayt ms (d.here i) l body) :
    ∃ t' m' live', body.run (d.guarded l) = .ok (t', m') ∧
      PmmThreadsInv ms live' { d with
        guarded := Function.update d.guarded l m'
        here := Function.update d.here i t' } := by
  have hok := h.ok i
  generalize ht : d.here i = t at hc
  rw [ht] at hok
  cases hc with
  | @alloc owned cnt align l =>
    obtain ⟨hcnt, hfit⟩ := hok
    have hfit' : ∀ l, (d.guarded l).Fits align := fun l =>
      PmmModule.fits_of_shape (h.shape l).symm (hfit l)
    have howned : (d.here i).owned = owned := by rw [ht]
    simp only [allocCall, run_bind, run_pmmModuleAllocBody]
    rcases pmmModuleAlloc_spec fayt (h.wf l) hcnt (hfit' l) with
      heq | ⟨k, hint, heq, hdvd, hpos, hin, hclear, hhint⟩
    · refine ⟨_, _, live, by rw [heq]; rfl, ?_⟩
      rw [Function.update_eq_self]
      exact h.rephase howned.symm ⟨hcnt, hfit⟩ fun j _ => h.ok j
    · refine ⟨_, _, ⟨(d.guarded l).base / pageSize + k, cnt⟩ :: live, by rw [heq]; rfl, ?_⟩
      have hroom : ∀ l, (d.guarded l).Fits 1 := fun l => (hfit' l).one
      simp only [Option.elim_some, PmmModule.div_page, ← howned]
      refine h.grant hpos hin hclear hhint hroom ⟨?_, ?_, ?_, Nat.zero_le _, ClearedTo.zero _ _⟩
      · rw [PmmModule.div_page]
        exact List.mem_cons_self
      · exact (dvd_mul_left pageSize align).trans hdvd
      · have hsize := (hroom l).2
        have := Nat.mul_le_mul_right pageSize (show cnt ≤ (d.guarded l).bitmap.size by omega)
        omega
  | @free owned b l hacc =>
    obtain ⟨hmem, hr, hle⟩ := hok
    have howned : (d.here i).owned = owned := by rw [ht]
    rw [← howned] at hmem
    have hlive := h.mem_live hmem
    -- the module that takes the release is the one the block lies in
    have hwithin : b.Within (ms l).frames := by
      obtain ⟨o, ho⟩ := h.exists_within hlive
      rcases lt_or_eq_of_le (show l ≤ o from hle o ho) with hlt | heq
      · exact absurd ((h.accepts_iff hlive l).mp hacc) (hr o ho l hlt)
      · exact heq ▸ ho
    rw [← PmmModule.frames_of_shape (h.shape l)] at hwithin
    obtain ⟨k, hk, hin, heq⟩ := pmmModuleFree_within fayt (h.wf l) (h.fits hlive l) hwithin
    have hbase : (ms l).base = (d.guarded l).base := (Prod.mk.inj (h.shape l)).1.symm
    have hbe : b = ⟨(d.guarded l).base / pageSize + k, b.len⟩ := by rw [← hk]
    refine ⟨⟨.idle, owned.erase b⟩, (d.guarded l).update k b.len false (d.guarded l).lastFree,
      live.erase b, by simp only [freeCall, run_bind, run_pmmModuleFreeBody, hbase, heq]; rfl, ?_⟩
    rw [← howned]
    rw [hbe] at hmem ⊢
    exact h.release hmem hin

theorem step (h : PmmThreadsInv ms live d) (hcallers : callers.Sound ms)
    (hs : Coarse.Step (pmmClient fayt callers ms) d d') :
    ∃ live', PmmThreadsInv ms live' d' := by
  cases hs with
  | plain hp => exact ⟨live, h.plain hcallers hp⟩
  | call hc hrun =>
    obtain ⟨t', m', live', heq, hinv⟩ := h.call fayt hc
    obtain ⟨rfl, rfl⟩ := Prod.mk.inj (Except.ok.inj (heq.symm.trans hrun))
    exact ⟨live', hinv⟩

omit [DecidableEq T] in
/-- Modules as `pmm_init` leaves them, and no thread in a call. -/
theorem init (ms : Fin n → PmmModule) (mem : Mem) (hbase : ∀ l, pageSize ∣ (ms l).base)
    (hdisj : ∀ l l', l ≠ l' → (ms l).frames.Apart (ms l').frames) :
    PmmThreadsInv (T := T) ms []
      ⟨fun l => (ModuleState.init (ms l)).module, mem, fun _ => ⟨.idle, []⟩⟩ where
  pmm := by
    have hlist : List.ofFn (fun l => (ModuleState.init (ms l)).module)
        = (List.ofFn ms).map fun m => (ModuleState.init m).module := by
      rw [List.map_ofFn]
      rfl
    rw [hlist]
    refine PmmState.inv_init mem ?_ ?_
    · simpa [List.mem_ofFn] using hbase
    · rw [PmmState.ranges, List.map_ofFn, List.pairwise_ofFn]
      exact fun l l' hlt => hdisj l l' hlt.ne
  shape _ := rfl
  owner := by simp
  unique := by simp
  nodup := by simp
  ok _ := trivial

end PmmThreadsInv

end Inv

/-! ### Every interleaving -/

section Safe

variable {T : Type} [DecidableEq T] {n : ℕ} {callers : PmmCallers}

/-- Before the first call: all modules unused and unlocked. -/
def pmmStart (T : Type) {n : ℕ} (ms : Fin n → PmmModule) (mem : Mem) : PmmFine T n :=
  .idle (fun l => (ModuleState.init (ms l)).module) mem fun _ => ⟨.idle, []⟩

/-- What is promised at every point of every interleaving. -/
structure PmmThreadsSafe (callers : PmmCallers) (ms : Fin n → PmmModule) (c : PmmFine T n) :
    Prop where
  /-- The blocks of different threads are disjoint, and so are the blocks of one. -/
  apart : ∀ i j, ∀ b ∈ (c.place i).vars.owned, ∀ b' ∈ (c.place j).vars.owned,
    i ≠ j ∨ b ≠ b' → b.Apart b'
  inside : ∀ i, ∀ b ∈ (c.place i).vars.owned, ∃ l, b.Within (ms l).frames
  /-- A block that `pmm_alloc` is about to return is the caller's, and it is zero, although it
  was cleared without a lock. -/
  cleared : ∀ i a cnt done owned, (c.place i).vars = ⟨.clearing a cnt done, owned⟩ →
    pmmWords cnt ≤ done → ⟨a / pageSize, cnt⟩ ∈ owned ∧
      ∀ (p : Word) (k : BitVec 9), a ≤ p.toNat + 8 * k.toNat →
        p.toNat + 8 * k.toNat < a + cnt * pageSize → c.shared p k = 0
  /-- `pmm_free` does not come to the end of the list. -/
  found : ∀ i b next owned, (c.place i).vars = ⟨.freeing b next, owned⟩ → next < n
  exclusive : ∀ i j q q' l rest rest', c.place i = .inside q l rest →
    c.place j = .inside q' l rest' → i = j
  /-- Whoever holds a lock comes to its release, without a fault and without anybody's help. -/
  returns : ∀ i q l rest, c.place i = .inside q l rest → ∃ q' m',
    Run (Fine.Step (pmmClient fayt callers ms)) c
      { c with
        owner := Function.update c.owner l none
        guarded := Function.update c.guarded l m'
        place := Function.update c.place i (.out q') }

variable {ms : Fin n → PmmModule} {c : PmmFine T n} {d : PmmCoarse T n} {live : List Block}

theorem PmmThreadsInv.safe (h : PmmThreadsInv ms live d)
    (hf : c.Follows (pmmClient fayt callers ms) d) : PmmThreadsSafe fayt callers ms c where
  apart := by
    intro i j b hb b' hb'
    rw [hf.here] at hb hb'
    exact h.apart hb hb'
  inside := by
    intro i b hb
    rw [hf.here] at hb
    exact h.exists_within (h.mem_live hb)
  cleared := by
    intro i a cnt done owned hi hdone
    have hok := h.ok i
    rw [← hf.here, hi] at hok
    obtain ⟨hmem, -, htop, -, hcl⟩ := hok
    refine ⟨hmem, fun p k h1 h2 => ?_⟩
    rw [hf.shared]
    refine hcl p k h1 (lt_of_lt_of_le h2 (Nat.add_le_add_left ?_ a))
    rw [pmmWords, u64_of_lt htop] at hdone
    simp only [pageSize] at hdone ⊢
    omega
  found := by
    intro i b next owned hi
    have hok := h.ok i
    have hown := hf.here i
    rw [← hown, hi] at hok
    obtain ⟨hmem, -, hle⟩ := hok
    obtain ⟨l, hl⟩ := h.exists_within (h.mem_live (i := i) (by rw [← hown, hi]; exact hmem))
    exact lt_of_le_of_lt (hle l hl) l.isLt
  exclusive := fun _ _ _ _ _ _ _ hi hj => hf.exclusive hi hj
  returns := by
    intro i q l rest hi
    obtain ⟨-, body, hb, hrun⟩ := hf.inside i q l rest hi
    rw [← hf.here_of_inside hi] at hb
    obtain ⟨q', m', -, heq, -⟩ := h.call fayt hb
    exact ⟨q', m', Fine.leaves_of_run hi (hrun.symm.trans heq)⟩

/-- **`pmm_alloc` and `pmm_free` on several processors.**  Over any modules with disjoint ranges,
any number of threads and any interleaving of their accesses, where threads free only blocks of
their own that are routed to their modules, and no search passes the top of the address space: no
two blocks in use overlap, a block is zero when it is returned, no access faults and no lock is
held for ever. -/
theorem pmm_threads_safe {ms : Fin n → PmmModule} (mem : Mem)
    (hbase : ∀ l, pageSize ∣ (ms l).base)
    (hdisj : ∀ l l', l ≠ l' → (ms l).frames.Apart (ms l').frames) (hcallers : callers.Sound ms)
    {c : PmmFine T n}
    (h : Run (Fine.Step (pmmClient fayt callers ms)) (pmmStart T ms mem) c) :
    PmmThreadsSafe fayt callers ms c := by
  obtain ⟨d, hd, hf⟩ := Fine.simulated (Fine.Follows.idle _ _ _) h
  have hstep : ∀ d d' : PmmCoarse T n, (∃ live, PmmThreadsInv ms live d) →
      Coarse.Step (pmmClient fayt callers ms) d d' → ∃ live, PmmThreadsInv ms live d' := by
    rintro d d' ⟨live, hi⟩ hs
    exact hi.step fayt hcallers hs
  obtain ⟨live, hinv⟩ :=
    Run.invariant hstep ⟨[], PmmThreadsInv.init ms mem hbase hdisj⟩ hd
  exact hinv.safe fayt hf

/-- A thread that nobody interrupts clears its new block and returns it. -/
theorem clear_run {c₀ : PmmFine T n} {a cnt : ℕ} {owned : List Block} {i : T}
    (hrun : Run (Fine.Step (pmmClient fayt callers ms)) c₀ c)
    (hi : c.place i = .out ⟨.clearing a cnt 0, owned⟩) :
    ∃ mem, Run (Fine.Step (pmmClient fayt callers ms)) c₀
      { c with shared := mem, place := Function.update c.place i (.out ⟨.idle, owned⟩) } := by
  have hwords : ∀ done ≤ pmmWords cnt, ∃ mem, Run (Fine.Step (pmmClient fayt callers ms)) c₀
      { c with
        shared := mem
        place := Function.update c.place i (.out ⟨.clearing a cnt done, owned⟩) } := by
    intro done hdone
    induction done with
    | zero =>
      refine ⟨c.shared, ?_⟩
      rw [← hi, Function.update_eq_self]
      exact hrun
    | succ done ih =>
      obtain ⟨mem, h⟩ := ih (Nat.le_of_succ_le hdone)
      have h' := h.tail (.plain (i := i) (Function.update_self ..) (.clear hdone))
      rw [Function.update_idem] at h'
      exact ⟨_, h'⟩
  obtain ⟨mem, h⟩ := hwords _ le_rfl
  have h' := h.tail (.plain (i := i) (Function.update_self ..) (.cleared le_rfl))
  rw [Function.update_idem] at h'
  exact ⟨mem, h'⟩

/-- Callers that ask for pages one by one, and free the first one. -/
def onePageCallers : PmmCallers := ⟨fun _ align => align = 1, fun b => b = ⟨0x100, 1⟩⟩

/-- Two threads over two modules: one has allocated a page and is inside `pmm_module_free` of it
while the other waits for the lock. -/
theorem pmm_threads_safe_freeing :
    ∃ (c : PmmFine Bool 2) (rest : Prog PmmModule PmmThread),
      Run (Fine.Step (pmmClient .textbook onePageCallers lowHigh.get))
        (pmmStart Bool lowHigh.get .blank) c ∧
      c.place false = .inside ⟨.freeing ⟨0x100, 1⟩ 0, [⟨0x100, 1⟩]⟩ 0 rest ∧
      c.place true = .out ⟨.allocating 1 1 0, []⟩ ∧
      PmmThreadsSafe .textbook onePageCallers lowHigh.get c := by
  have hcall : ∀ mem, PmmThread.Plain onePageCallers lowHigh.get ⟨.idle, []⟩ mem
      ⟨.allocating 1 1 0, []⟩ mem := fun mem => .alloc (by decide) rfl
  -- the page that the first thread gets, cleared word by word
  obtain ⟨m', halloc⟩ : ∃ m', (allocCall .textbook 1 1 0 []).run
      (ModuleState.init (lowHigh.get (0 : Fin 2))).module
      = .ok (⟨.clearing 0x100000 1 0, [⟨0x100, 1⟩]⟩, m') := by
    obtain ⟨⟨a, m'⟩, hbody, ha⟩ := Exec.exists_of_map_eq_ok
      (show (pmmModuleAlloc .textbook (ModuleState.init (lowHigh.get (0 : Fin 2))).module 1 1).map
        Prod.fst = .ok (some 0x100000) by decide +kernel)
    obtain rfl : a = some 0x100000 := ha
    refine ⟨m', ?_⟩
    rw [allocCall, Prog.run_bind, run_pmmModuleAllocBody, hbody]
    rfl
  have h₁ : Fine.Step (pmmClient .textbook onePageCallers lowHigh.get)
      (pmmStart Bool lowHigh.get .blank) _ := .plain (i := false) rfl (hcall _)
  have hbody : (pmmClient .textbook onePageCallers lowHigh.get).call ⟨.allocating 1 1 0, []⟩
      (0 : Fin 2) (allocCall .textbook 1 1 0 []) := PmmThread.Call.alloc (0 : Fin 2)
  have h₂ := Relation.ReflTransGen.tail (.single h₁) (.enter (i := false) rfl hbody rfl)
  have h₃ := h₂.trans (Fine.leaves_of_run (i := false) rfl halloc)
  obtain ⟨mem, h₄⟩ := clear_run .textbook h₃ (i := false) rfl
  have h₅ := (h₄.tail (.plain (i := true) rfl (hcall _))).tail
    (.plain (i := false) rfl (.free (List.mem_singleton_self _) rfl))
  have hfree : (pmmClient .textbook onePageCallers lowHigh.get).call
      ⟨.freeing ⟨0x100, 1⟩ 0, [⟨0x100, 1⟩]⟩ (0 : Fin 2) _ :=
    PmmThread.Call.free (0 : Fin 2) (by decide)
  have h₆ := h₅.tail (.enter (i := false) rfl hfree rfl)
  refine ⟨_, _, h₆, rfl, rfl, pmm_threads_safe .textbook .blank (by decide) ?_ ?_ h₆⟩
  · intro l l' hne
    have hap := List.pairwise_iff_get.mp (List.pairwise_map.mp ranges_apart_lowHigh)
    rcases lt_or_gt_of_ne hne with hlt | hlt
    · exact hap l l' hlt
    · exact (hap l' l hlt).symm
  · constructor
    · rintro cnt align rfl
      decide
    · rintro b rfl
      unfold RoutedIn
      decide

end Safe

end Rock
