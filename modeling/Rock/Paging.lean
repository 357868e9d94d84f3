/-
Rock/Paging.lean

The two x86 paging backends (kernel/arch/x86/paging.c): `map_page`,
`unmap_page` and `page_entry` for tables of four and of five levels.

The six functions are hand-written copies of three walks.  Here each walk is
one definition over the list of indices it uses on the way to the page
directory, and the six are that definition at their own indices.  Two things
differ between the copies: the four-level `map_page` adds `X86_FLAGS_RW` to
the entries it links tables with, and `pml5_unmap_page` takes `pml4_index`
where the other two take `pml5_index`.

A table is named by its physical page; the direct map at `HIGH_VMA`, through
which the kernel reaches it, is left out.  The frames come from a
`FrameSource`, which stands for `pmm_alloc(1, 1)`.

`hwWalk` is the walk of the processor, written from the architecture and not
from the kernel.
-/
import Rock.Exec
import Rock.Pmm
import Rock.TableTree
import Mathlib.Data.BitVec

namespace Rock

open TableTree

/-! ### Entries -/

def flagP : Word := 1 <<< 0
def flagRW : Word := 1 <<< 1
def flagUS : Word := 1 <<< 2
def flagPS : Word := 1 <<< 7
def flagG : Word := 1 <<< 8
def flagNX : Word := 1 <<< 63

/-- `HIGH_VMA`, where the direct map of physical memory begins. -/
def highVma : Word := 0xffff800000000000

/-- `PML5_FLAGS_MASK` to `PML2_FLAGS_MASK`, which are the same word. -/
def tableFlagsMask : Word := ~~~(flagPS ||| flagG ||| flagNX)

/-- The C test `e & f`. -/
def has (e f : Word) : Prop := e &&& f ≠ 0#64

instance (e f : Word) : Decidable (has e f) := inferInstanceAs (Decidable (_ ≠ _))

/-- `e & ~(0xfff)`: the table an entry leads the kernel to. -/
def tableOf (e : Word) : Word := e &&& ~~~0xfff

/-- The sizes of pages the processor knows. -/
inductive PageSize where
  | small
  | large
  | huge
  deriving DecidableEq, Repr

/-- The bit at which the page number begins. -/
def PageSize.shift : PageSize → ℕ
  | .small => 12
  | .large => 21
  | .huge => 30

/-- The bits of an entry that hold the address of the page. -/
def PageSize.frameMask : PageSize → Word
  | .small => 0x000ffffffffff000
  | .large => 0x000fffffffe00000
  | .huge => 0x000fffffc0000000

/-- The bits of an entry that hold its flags: the low twelve and `NX`. -/
def leafMask : Word := 0x8000000000000fff

/-- `x` is the physical address of a page of the given size. -/
def IsFrame (size : PageSize) (x : Word) : Prop := x &&& size.frameMask = x

/-- The indices of a virtual address, as `compute_table_indices` has them. -/
structure PmlIndices where
  pml5Index : BitVec 9
  pml4Index : BitVec 9
  pml3Index : BitVec 9
  pml2Index : BitVec 9
  pml1Index : BitVec 9
  deriving DecidableEq, Repr

/-- The nine bits of `vaddr` that index a table of level `k + 1`. -/
def index (k : ℕ) (vaddr : Word) : BitVec 9 := vaddr.extractLsb' (12 + 9 * k) 9

def computeTableIndices (vaddr : Word) : PmlIndices :=
  { pml5Index := index 4 vaddr
    pml4Index := index 3 vaddr
    pml3Index := index 2 vaddr
    pml2Index := index 1 vaddr
    pml1Index := index 0 vaddr }

/-! ### The machine -/

/-- The place of an entry: a `uint64_t*` into a table. -/
structure Ptr where
  page : Word
  idx : BitVec 9
  deriving DecidableEq, Repr

/-- `pmm_alloc(1, 1)`: a page of physical memory that is not in use.  `none` is
the returned -1. -/
structure FrameSource (σ : Type) where
  alloc : σ → Option (Word × σ)
  Live : σ → Word → Prop
  alloc_frame : ∀ {s f s'}, alloc s = some (f, s') → IsFrame .small f
  alloc_fresh : ∀ {s f s'}, alloc s = some (f, s') → ¬ Live s f
  alloc_live : ∀ {s f s'}, alloc s = some (f, s') → Live s' f
  alloc_mono : ∀ {s f s' g}, alloc s = some (f, s') → Live s g → Live s' g

/-- Physical memory and its allocator.  `tables` lists the frames that were
allocated as page tables and `writes` the entries that were written; the code
reads neither. -/
structure Machine (σ : Type) where
  mem : Mem
  pmm : σ
  tables : List Word
  writes : List Ptr

variable {σ : Type}

namespace Machine

/-- `table[i] = e`. -/
def store (m : Machine σ) (t : Word) (i : BitVec 9) (e : Word) : Machine σ :=
  { m with mem := put m.mem t i e, writes := ⟨t, i⟩ :: m.writes }

@[simp] theorem store_mem (m : Machine σ) (t : Word) (i : BitVec 9) (e : Word) :
    (m.store t i e).mem = put m.mem t i e := rfl

@[simp] theorem store_pmm (m : Machine σ) (t : Word) (i : BitVec 9) (e : Word) :
    (m.store t i e).pmm = m.pmm := rfl

@[simp] theorem store_tables (m : Machine σ) (t : Word) (i : BitVec 9) (e : Word) :
    (m.store t i e).tables = m.tables := rfl

@[simp] theorem store_writes (m : Machine σ) (t : Word) (i : BitVec 9) (e : Word) :
    (m.store t i e).writes = ⟨t, i⟩ :: m.writes := rfl

/-- The machine after `f` was taken from the allocator, which clears it. -/
def grant (m : Machine σ) (f : Word) (s : σ) : Machine σ :=
  { m with mem := Function.update m.mem f 0, pmm := s, tables := f :: m.tables }

end Machine

/-! ### The walks -/

section Walks

variable (src : FrameSource σ)

/-- One level of `map_page`: link a new table where there is none, and go to
the table the entry refers to.  When the allocator returns -1 the entry refers
to the page `0xfffffffffffff000`, and the access that follows goes through a
non-canonical address. -/
def descend (extra flags : Word) (m : Machine σ) (t : Word) (i : BitVec 9) :
    Exec (Word × Machine σ) :=
  if has (m.mem t i) flagP then .ok (tableOf (m.mem t i), m)
  else
    match src.alloc m.pmm with
    | none => .error .wild
    | some (f, s) =>
        let m' := (m.grant f s).store t i (f ||| (flags &&& tableFlagsMask) ||| extra)
        .ok (tableOf (m'.mem t i), m')

/-- The levels of `map_page` above the page directory. -/
def descendAll (extra flags : Word) (m : Machine σ) (t : Word) :
    List (BitVec 9) → Exec (Word × Machine σ)
  | [] => .ok (t, m)
  | i :: is => do
      let (t', m') ← descend src extra flags m t i
      descendAll extra flags m' t' is

/-- `map_page`, over the indices `upper` of the levels above the page
directory. -/
def mapPage (extra : Word) (m : Machine σ) (pmlt : Word) (upper : List (BitVec 9))
    (i2 i1 : BitVec 9) (paddr flags : Word) : Exec (Option Ptr × Machine σ) := do
  let (pml2, m) ← descendAll src extra flags m pmlt upper
  if has flags flagPS then
    .ok (none, m.store pml2 i2 (paddr ||| flags))
  else do
    let (pml1, m) ← descend src extra flags m pml2 i2
    .ok (some ⟨pml1, i1⟩, m.store pml1 i1 (paddr ||| flags))

end Walks

/-- The levels of `unmap_page` and `page_entry` above the page directory;
`none` where an entry is not present. -/
def walkTo (mem : Mem) (t : Word) : List (BitVec 9) → Option Word
  | [] => some t
  | i :: is => if has (mem t i) flagP then walkTo mem (tableOf (mem t i)) is else none

/-- `unmap_page`, and the size it returns. -/
def unmapPage (m : Machine σ) (pmlt : Word) (upper : List (BitVec 9)) (i2 i1 : BitVec 9) :
    ℕ × Machine σ :=
  match walkTo m.mem pmlt upper with
  | none => (0, m)
  | some pml2 =>
      let e := m.mem pml2 i2
      if has (e &&& 0xfff) flagPS then (0x200000, m.store pml2 i2 (e &&& ~~~flagP))
      else if has e flagP then
        (0x1000, m.store (tableOf e) i1 (m.mem (tableOf e) i1 &&& ~~~flagP))
      else (0, m)

/-- `page_entry`; `none` is `NULL`. -/
def pageEntry (m : Machine σ) (pmlt : Word) (upper : List (BitVec 9)) (i2 i1 : BitVec 9) :
    Option Ptr :=
  match walkTo m.mem pmlt upper with
  | none => none
  | some pml2 =>
      let e := m.mem pml2 i2
      if has e flagPS then some ⟨pml2, i2⟩
      else if has e flagP then some ⟨tableOf e, i1⟩
      else none

/-! ### The two backends -/

section Backends

variable (src : FrameSource σ)

def pml4MapPage (m : Machine σ) (pmlt vaddr paddr flags : Word) :
    Exec (Option Ptr × Machine σ) :=
  let ix := computeTableIndices vaddr
  mapPage src flagRW m pmlt [ix.pml4Index, ix.pml3Index] ix.pml2Index ix.pml1Index paddr flags

def pml4UnmapPage (m : Machine σ) (pmlt vaddr : Word) : ℕ × Machine σ :=
  let ix := computeTableIndices vaddr
  unmapPage m pmlt [ix.pml4Index, ix.pml3Index] ix.pml2Index ix.pml1Index

def pml4PageEntry (m : Machine σ) (pmlt vaddr : Word) : Option Ptr :=
  let ix := computeTableIndices vaddr
  pageEntry m pmlt [ix.pml4Index, ix.pml3Index] ix.pml2Index ix.pml1Index

def pml5MapPage (m : Machine σ) (pmlt vaddr paddr flags : Word) :
    Exec (Option Ptr × Machine σ) :=
  let ix := computeTableIndices vaddr
  mapPage src 0 m pmlt [ix.pml5Index, ix.pml4Index, ix.pml3Index] ix.pml2Index ix.pml1Index
    paddr flags

/-- `pml5_unmap_page`; its top level is indexed by `pml4_index`. -/
def pml5UnmapPage (m : Machine σ) (pmlt vaddr : Word) : ℕ × Machine σ :=
  let ix := computeTableIndices vaddr
  unmapPage m pmlt [ix.pml4Index, ix.pml4Index, ix.pml3Index] ix.pml2Index ix.pml1Index

def pml5PageEntry (m : Machine σ) (pmlt vaddr : Word) : Option Ptr :=
  let ix := computeTableIndices vaddr
  pageEntry m pmlt [ix.pml5Index, ix.pml4Index, ix.pml3Index] ix.pml2Index ix.pml1Index

/-- The function pointers of a `struct page_table`. -/
structure Pager (σ : Type) where
  mapPage : Machine σ → Word → Word → Word → Word → Exec (Option Ptr × Machine σ)
  unmapPage : Machine σ → Word → Word → ℕ × Machine σ
  pageEntry : Machine σ → Word → Word → Option Ptr

/-- `x86_paging_init`: the backend by the LA57 bit of cpuid. -/
def x86PagingInit (la57 : Bool) : Pager σ :=
  if la57 then ⟨pml5MapPage src, pml5UnmapPage, pml5PageEntry⟩
  else ⟨pml4MapPage src, pml4UnmapPage, pml4PageEntry⟩

end Backends

/-! ### The processor's walk -/

/-- Where a walk ends: the leaf entry and the size of its page. -/
structure Leaf where
  ptr : Ptr
  size : PageSize
  deriving DecidableEq, Repr

/-- What a leaf says: the address of the page, its flags and its size. -/
structure Translation where
  frame : Word
  flags : Word
  size : PageSize
  deriving DecidableEq, Repr

/-- The entry `e` as a leaf. -/
def decode (size : PageSize) (e : Word) : Translation :=
  ⟨e &&& size.frameMask, e &&& leafMask, size⟩

/-- **The processor's walk** of `vaddr` from the table `t` of a level.  An entry
with `PS` is a leaf at levels 2 and 3 and reserved above. -/
def hwWalk (mem : Mem) (vaddr : Word) : ℕ → Word → Option Leaf
  | 0, _ => none
  | k + 1, t =>
      let e := mem t (index k vaddr)
      if ¬ has e flagP then none
      else if k = 0 then some ⟨⟨t, index k vaddr⟩, .small⟩
      else if has e flagPS then
        if k = 1 then some ⟨⟨t, index k vaddr⟩, .large⟩
        else if k = 2 then some ⟨⟨t, index k vaddr⟩, .huge⟩
        else none
      else hwWalk mem vaddr k (e &&& PageSize.small.frameMask)

/-- The translation of `vaddr` by tables of the given number of levels. -/
def translate (mem : Mem) (levels : ℕ) (pmlt vaddr : Word) : Option Translation :=
  (hwWalk mem vaddr levels pmlt).map fun l => decode l.size (mem l.ptr.page l.ptr.idx)

/-! ### Words -/

/-- The size of the page that `map_page` makes. -/
def mappedSize (flags : Word) : PageSize := if has flags flagPS then .large else .small

/-- The arguments `map_page` is meant for: the address of a page of the size
asked for, and flags that make it present. -/
structure Mappable (paddr flags : Word) : Prop where
  present : has flags flagP
  flags_leaf : flags &&& leafMask = flags
  frame : IsFrame (mappedSize flags) paddr

/-- Flags that make a page present, for any address. -/
structure PresentFlags (flags : Word) : Prop where
  present : has flags flagP
  flags_leaf : flags &&& leafMask = flags

theorem Mappable.presentFlags {paddr flags : Word} (h : Mappable paddr flags) :
    PresentFlags flags :=
  ⟨h.present, h.flags_leaf⟩

theorem and_eq_zero_of_within {x a b : Word} (h : x &&& a = x) (hab : a &&& b = 0#64) :
    x &&& b = 0#64 := by
  rw [← h, BitVec.and_assoc, hab, BitVec.and_zero]

theorem and_eq_self_of_within {x a b : Word} (h : x &&& a = x) (hab : a &&& b = a) :
    x &&& b = x := by
  rw [← h, BitVec.and_assoc, hab]

theorem or_and (x y z : Word) : (x ||| y) &&& z = (x &&& z) ||| (y &&& z) := by
  ext k hk
  simp only [BitVec.getElem_and, BitVec.getElem_or]
  exact Bool.and_or_distrib_right _ _ _

theorem has_or_right {x y f : Word} (h : has y f) : has (x ||| y) f := by
  unfold has at h ⊢
  rw [or_and]
  exact fun hc => h (BitVec.or_eq_zero_iff.mp hc).2

@[simp] theorem not_has_zero (f : Word) : ¬ has 0#64 f := by
  simp [has]

/-- Clearing `P` leaves an entry that is not present. -/
theorem not_has_clear (e : Word) : ¬ has (e &&& ~~~flagP) flagP := by
  unfold has
  rw [BitVec.and_assoc, show ~~~flagP &&& flagP = 0#64 from by decide, BitVec.and_zero]
  simp

theorem has_clear_PS {e : Word} : has (e &&& ~~~flagP) flagPS ↔ has e flagPS := by
  unfold has
  rw [BitVec.and_assoc, show ~~~flagP &&& flagPS = flagPS from by decide]

/-- The mask of `unmap_page` before its `PS` test changes nothing. -/
theorem has_low_PS {e : Word} : has (e &&& 0xfff) flagPS ↔ has e flagPS := by
  unfold has
  rw [BitVec.and_assoc, show (0xfff : Word) &&& flagPS = flagPS from by decide]

section TableEntry

variable {f flags extra : Word} (hf : IsFrame .small f) (hflags : flags &&& leafMask = flags)
  (hextra : extra &&& flagRW = extra)

/-- The flags of an entry that links a table. -/
theorem link_flags_within (hflags : flags &&& leafMask = flags)
    (hextra : extra &&& flagRW = extra) :
    (flags &&& tableFlagsMask ||| extra) &&& 0xe7f = flags &&& tableFlagsMask ||| extra := by
  rw [or_and, and_eq_self_of_within hextra (by decide), BitVec.and_assoc, ← hflags]
  simp only [BitVec.and_assoc]
  rw [show leafMask &&& (tableFlagsMask &&& 0xe7f) = leafMask &&& tableFlagsMask from by decide]

include hf hflags hextra

theorem tableOf_link : tableOf (f ||| (flags &&& tableFlagsMask) ||| extra) = f := by
  have hlow := link_flags_within hflags hextra
  unfold tableOf
  rw [BitVec.or_assoc, or_and, and_eq_self_of_within hf (by decide),
    and_eq_zero_of_within hlow (by decide), BitVec.or_zero]

theorem not_has_link_PS : ¬ has (f ||| (flags &&& tableFlagsMask) ||| extra) flagPS := by
  have hlow := link_flags_within hflags hextra
  unfold has
  rw [BitVec.or_assoc, or_and, and_eq_zero_of_within hf (by decide),
    and_eq_zero_of_within hlow (by decide)]
  simp

omit hflags hextra in
theorem has_link_P (hP : has flags flagP) :
    has (f ||| (flags &&& tableFlagsMask) ||| extra) flagP := by
  have hflag : (flags &&& tableFlagsMask) &&& flagP = flags &&& flagP := by
    rw [BitVec.and_assoc, show tableFlagsMask &&& flagP = flagP from by decide]
  unfold has at hP ⊢
  rw [or_and, or_and, and_eq_zero_of_within hf (by decide), hflag, BitVec.zero_or]
  intro h
  exact hP (BitVec.or_eq_zero_iff.mp h).1

end TableEntry

namespace Mappable

variable {paddr flags : Word} (h : Mappable paddr flags)

include h

/-- The address of a page of any size is that of a small one. -/
theorem small_frame : IsFrame .small paddr := by
  have hframe := h.frame
  unfold IsFrame at hframe ⊢
  rcases hs : mappedSize flags <;> rw [hs] at hframe <;>
    exact and_eq_self_of_within hframe (by decide)

theorem frame_and_low {b : Word} (hb : PageSize.small.frameMask &&& b = 0#64) :
    paddr &&& b = 0#64 :=
  and_eq_zero_of_within h.small_frame hb

/-- A leaf reads back as the arguments it was made of. -/
theorem decode_eq :
    decode (mappedSize flags) (paddr ||| flags) = ⟨paddr, flags, mappedSize flags⟩ := by
  have hmask : flags &&& (mappedSize flags).frameMask = 0#64 := by
    rcases mappedSize flags <;> exact and_eq_zero_of_within h.flags_leaf (by decide)
  unfold decode
  rw [or_and, or_and, h.frame, hmask, h.frame_and_low (by decide), h.flags_leaf, BitVec.or_zero,
    BitVec.zero_or]

end Mappable

end Rock
