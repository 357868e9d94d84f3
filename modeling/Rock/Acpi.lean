/-
Rock/Acpi.lean

The search for an ACPI table, `acpi_find_sdt`.

The root table is an XSDT or an RSDT: a header of 36 bytes and an array of physical
addresses, of 8 bytes each in an XSDT and of 4 in an RSDT.  The two loops of the function
are one search here, with the size of an element as its parameter.

The bound of both loops is the length of the array in bytes, where it should be the number
of its elements.  A table that is listed is found before the difference matters; a search
for one that is not goes on behind the array.  So the search keeps to the listed tables if
and only if it ends early: the array has no bytes at all, or a listed table has the
signature and no table before it compares equal.
-/
import Rock.Bytes
import Rock.Pmm

namespace Rock

/-! ### Tables in memory -/

/-- The bytes at the virtual address `addr`. -/
def bytesFrom (mem : Word → BitVec 8) (addr : Word) : Bytes := fun k =>
  mem (addr + BitVec.ofNat 64 k)

/-- `sizeof(struct acpi_hdr)`. -/
def acpiHdrSize : ℕ := 36

/-- `acpi_hdr.length`. -/
def acpiLength (t : Bytes) : BitVec 32 := int32 t 4

/-- The bytes of a table behind the first `n`. -/
theorem toNat_lengthSub {length : BitVec 32} {n : ℕ} (h : n ≤ length.toNat) (hn : n < 2 ^ 64) :
    (length.setWidth 64 - BitVec.ofNat 64 n).toNat = length.toNat - n := by
  have hlt := length.isLt
  rw [BitVec.toNat_sub, BitVec.toNat_setWidth, BitVec.toNat_ofNat]
  omega

/-- The root tables: `struct xsdt` and `struct rsdt`. -/
inductive RootKind where
  | xsdt
  | rsdt
  deriving DecidableEq

/-- The size of an element of `acpi_ptr`. -/
def RootKind.ptrSize : RootKind → ℕ
  | .xsdt => 8
  | .rsdt => 4

/-- `acpi_ptr[i] + HIGH_VMA` of the root table `t`. -/
def sdtAddr (highVma : Word) (kind : RootKind) (t : Bytes) (i : ℕ) : Word :=
  BitVec.ofNat 64 (le t (acpiHdrSize + kind.ptrSize * i) kind.ptrSize) + highVma

/-- The bound of the loops, `acpi_hdr.length - sizeof(struct acpi_hdr)` as a `size_t`. -/
def sdtBound (t : Bytes) : Word := (acpiLength t).setWidth 64 - BitVec.ofNat 64 acpiHdrSize

/-- `strncmp(s, s', n) == 0`, from the character `i` on: the comparison ends after `n`
characters or behind a NUL. -/
def strncmpEq (s s' : Bytes) (i : ℕ) : ℕ → Bool
  | 0 => true
  | n + 1 => s i == s' i && (s i == 0 || strncmpEq s s' (i + 1) n)

/-! ### The search -/

/-- What a search returns, where `none` is `NULL`, and the elements of `acpi_ptr` that it
dereferenced. -/
structure SdtSearch where
  found : Option Word
  derefs : List (RootKind × ℕ)
  deriving DecidableEq

section Search

variable (mem : Word → BitVec 8) (highVma : Word) (signature : Bytes)

/-- The table at `addr` compares equal with the signature. -/
def comparesEqual (addr : Word) : Bool := strncmpEq (bytesFrom mem addr) signature 0 4

/-- The loop over `acpi_ptr` of the root table `t`, from the index `i` on for `n` rounds. -/
def sdtLoop (kind : RootKind) (t : Bytes) : ℕ → ℕ → SdtSearch
  | 0, _ => ⟨none, []⟩
  | n + 1, i =>
      let acpiHdr := sdtAddr highVma kind t i
      if comparesEqual mem signature acpiHdr then ⟨some acpiHdr, [(kind, i)]⟩
      else
        let rest := sdtLoop kind t n (i + 1)
        ⟨rest.found, (kind, i) :: rest.derefs⟩

/-- The search of one root table, which is skipped if it is `NULL`. -/
def sdtSearch (kind : RootKind) : Option Word → SdtSearch
  | none => ⟨none, []⟩
  | some root =>
      let t := bytesFrom mem root
      sdtLoop mem highVma signature kind t (sdtBound t).toNat 0

/-- `acpi_find_sdt`, with the global pointers `xsdt` and `rsdt`. -/
def acpiFindSdt (xsdt rsdt : Option Word) : SdtSearch :=
  let first := sdtSearch mem highVma signature .xsdt xsdt
  match first.found with
  | some acpiHdr => ⟨some acpiHdr, first.derefs⟩
  | none =>
      let second := sdtSearch mem highVma signature .rsdt rsdt
      ⟨second.found, first.derefs ++ second.derefs⟩

end Search

/-! ### What the search is for -/

/-- The root table of the machine: the kernel keeps the XSDT if there is one, and the RSDT
otherwise. -/
structure Root where
  kind : RootKind
  addr : Word

namespace Root

variable (root : Root) (mem : Word → BitVec 8) (highVma : Word) (signature : Bytes)

/-- The global `xsdt`. -/
def xsdt : Option Word := if root.kind = .xsdt then some root.addr else none

/-- The global `rsdt`. -/
def rsdt : Option Word := if root.kind = .rsdt then some root.addr else none

/-- The length of the root table. -/
def length : ℕ := (acpiLength (bytesFrom mem root.addr)).toNat

/-- The number of elements of the pointer array. -/
def count : ℕ := (root.length mem - acpiHdrSize) / root.kind.ptrSize

/-- The address of the `i`th listed table. -/
def table (i : ℕ) : Word := sdtAddr highVma root.kind (bytesFrom mem root.addr) i

end Root

/-- The table at `addr` has the signature: its first four bytes are those. -/
def HasSignature (mem : Word → BitVec 8) (signature : Bytes) (addr : Word) : Prop :=
  ∀ k < 4, bytesFrom mem addr k = signature k

instance (mem : Word → BitVec 8) (signature : Bytes) (addr : Word) :
    Decidable (HasSignature mem signature addr) :=
  inferInstanceAs (Decidable (∀ k < 4, _))

/-- The search returns the first listed table with the signature, and touches only the
elements of the pointer array. -/
structure SearchesListed (root : Root) (mem : Word → BitVec 8) (highVma : Word)
    (signature : Bytes) (r : SdtSearch) : Prop where
  found : r.found = ((List.range (root.count mem)).find?
    fun i => HasSignature mem signature (root.table mem highVma i)).map (root.table mem highVma)
  derefs : ∀ d ∈ r.derefs, d.1 = root.kind ∧ d.2 < root.count mem

/-! ### The loops -/

section

variable {mem : Word → BitVec 8} {highVma : Word} {signature : Bytes} {root : Root}

theorem strncmpEq_of_eq {s s' : Bytes} {i n : ℕ} (h : ∀ k < n, s (i + k) = s' (i + k)) :
    strncmpEq s s' i n = true := by
  induction n generalizing i with
  | zero => rfl
  | succ n ih =>
      have hrest : strncmpEq s s' (i + 1) n = true := by
        apply ih
        intro k hk
        rw [Nat.add_assoc, Nat.add_comm 1]
        exact h (k + 1) (Nat.succ_lt_succ hk)
      rw [strncmpEq, hrest, show s i = s' i from h 0 n.succ_pos]
      simp

/-- A table with the signature compares equal. -/
theorem comparesEqual_of_hasSignature {addr : Word} (h : HasSignature mem signature addr) :
    comparesEqual mem signature addr = true := by
  apply strncmpEq_of_eq
  intro k hk
  rw [Nat.zero_add]
  exact h k hk

/-- A loop that comes to a table that compares equal returns it. -/
theorem sdtLoop_of_first {kind : RootKind} {t : Bytes} {n i j : ℕ} (hj : j < n)
    (heq : comparesEqual mem signature (sdtAddr highVma kind t (i + j)) = true)
    (hbefore : ∀ k < j, comparesEqual mem signature (sdtAddr highVma kind t (i + k)) = false) :
    sdtLoop mem highVma signature kind t n i =
      ⟨some (sdtAddr highVma kind t (i + j)), (List.range' i (j + 1)).map (kind, ·)⟩ := by
  induction n generalizing i j with
  | zero => exact absurd hj (Nat.not_lt_zero j)
  | succ n ih =>
      rcases j with - | j
      · exact if_pos heq
      · have hthis : comparesEqual mem signature (sdtAddr highVma kind t i) = false :=
          hbefore 0 (Nat.succ_pos j)
        have hshift : ∀ k, i + (k + 1) = i + 1 + k := fun k => by omega
        rw [hshift] at heq
        rw [sdtLoop, hthis, ih (Nat.lt_of_succ_lt_succ hj) heq fun k hk => by
          rw [← hshift]
          exact hbefore (k + 1) (Nat.succ_lt_succ hk)]
        rw [hshift j]
        rfl

/-- A loop that comes to no such table runs through all its rounds. -/
theorem sdtLoop_of_none {kind : RootKind} {t : Bytes} {n i : ℕ}
    (hnone : ∀ k < n, comparesEqual mem signature (sdtAddr highVma kind t (i + k)) = false) :
    sdtLoop mem highVma signature kind t n i = ⟨none, (List.range' i n).map (kind, ·)⟩ := by
  induction n generalizing i with
  | zero => rfl
  | succ n ih =>
      have hthis : comparesEqual mem signature (sdtAddr highVma kind t i) = false :=
        hnone 0 (Nat.succ_pos n)
      rw [sdtLoop, hthis, ih fun k hk => by
        rw [Nat.add_assoc, Nat.add_comm 1]
        exact hnone (k + 1) (Nat.succ_lt_succ hk)]
      rfl

/-- The bound of the loop, where the length is not shorter than the header. -/
theorem toNat_sdtBound {t : Bytes} (h : acpiHdrSize ≤ (acpiLength t).toNat) :
    (sdtBound t).toNat = (acpiLength t).toNat - acpiHdrSize :=
  toNat_lengthSub h (by decide)

/-- With one root table, the search is the loop over that table. -/
theorem acpiFindSdt_root (h : acpiHdrSize ≤ root.length mem) :
    acpiFindSdt mem highVma signature root.xsdt root.rsdt =
      sdtLoop mem highVma signature root.kind (bytesFrom mem root.addr)
        (root.length mem - acpiHdrSize) 0 := by
  have hbound : (sdtBound (bytesFrom mem root.addr)).toNat = root.length mem - acpiHdrSize :=
    toNat_sdtBound h
  obtain ⟨kind, addr⟩ := root
  rcases kind with - | -
  · simp only [acpiFindSdt, Root.xsdt, Root.rsdt, sdtSearch, hbound, if_true, reduceCtorEq,
      if_false, List.append_nil]
    split
    · rename_i hfound
      rw [← hfound]
    · rename_i hfound
      rw [← hfound]
  · simp only [acpiFindSdt, Root.xsdt, Root.rsdt, sdtSearch, hbound, if_true, reduceCtorEq,
      if_false, List.nil_append]

/-- The elements end before the bytes do. -/
theorem Root.count_lt (h : 0 < root.length mem - acpiHdrSize) :
    root.count mem < root.length mem - acpiHdrSize := by
  apply Nat.div_lt_self h
  rcases root.kind with - | -
  · decide
  · decide

/-- A search that ends early: the pointer array has no bytes, or a listed table has the
signature and none before it compares equal. -/
def EndsInside (root : Root) (mem : Word → BitVec 8) (highVma : Word) (signature : Bytes) : Prop :=
  root.length mem = acpiHdrSize ∨
    ∃ i < root.count mem, HasSignature mem signature (root.table mem highVma i) ∧
      ∀ j < i, comparesEqual mem signature (root.table mem highVma j) = false

/-- The first listed table with the signature. -/
theorem find_hasSignature {n i : ℕ} (hi : i < n)
    (hsig : HasSignature mem signature (root.table mem highVma i))
    (hbefore : ∀ j < i, ¬ HasSignature mem signature (root.table mem highVma j)) :
    (List.range n).find? (fun i => HasSignature mem signature (root.table mem highVma i)) =
      some i := by
  rw [List.find?_range_eq_some]
  refine ⟨decide_eq_true hsig, List.mem_range.mpr hi, fun j hj => ?_⟩
  simpa using hbefore j hj

/-- What the search does with a table that compares equal, and none before it does. -/
theorem acpiFindSdt_of_first (h : acpiHdrSize ≤ root.length mem) {j : ℕ}
    (hj : j < root.length mem - acpiHdrSize)
    (heq : comparesEqual mem signature (root.table mem highVma j) = true)
    (hbefore : ∀ k < j, comparesEqual mem signature (root.table mem highVma k) = false) :
    acpiFindSdt mem highVma signature root.xsdt root.rsdt =
      ⟨some (root.table mem highVma j), (List.range (j + 1)).map (root.kind, ·)⟩ := by
  have hzero : ∀ k, root.table mem highVma k =
      sdtAddr highVma root.kind (bytesFrom mem root.addr) (0 + k) := fun k => by
    rw [Nat.zero_add]
    rfl
  simp only [hzero] at heq hbefore ⊢
  rw [acpiFindSdt_root h, sdtLoop_of_first hj heq hbefore, List.range_eq_range']

/-- What the search does if no table it comes to compares equal. -/
theorem acpiFindSdt_of_none (h : acpiHdrSize ≤ root.length mem)
    (hnone : ∀ k < root.length mem - acpiHdrSize,
      comparesEqual mem signature (root.table mem highVma k) = false) :
    acpiFindSdt mem highVma signature root.xsdt root.rsdt =
      ⟨none, (List.range (root.length mem - acpiHdrSize)).map (root.kind, ·)⟩ := by
  rw [acpiFindSdt_root h, sdtLoop_of_none, List.range_eq_range']
  intro k hk
  rw [Nat.zero_add]
  exact hnone k hk

/-- A search that ends early keeps to the listed tables. -/
theorem EndsInside.searchesListed (h : acpiHdrSize ≤ root.length mem)
    (hends : EndsInside root mem highVma signature) :
    SearchesListed root mem highVma signature
      (acpiFindSdt mem highVma signature root.xsdt root.rsdt) := by
  rcases hends with hempty | ⟨i, hi, hsig, hbefore⟩
  · have hcount : root.count mem = 0 := by
      rw [Root.count, hempty, Nat.sub_self, Nat.zero_div]
    rw [acpiFindSdt_of_none h fun k hk => by omega, hempty, Nat.sub_self]
    exact ⟨by rw [hcount]; rfl, fun d hd => by cases hd⟩
  · have hlt : i < root.length mem - acpiHdrSize := Nat.lt_of_lt_of_le hi (Nat.div_le_self _ _)
    rw [acpiFindSdt_of_first h hlt (comparesEqual_of_hasSignature hsig) hbefore]
    refine ⟨?_, fun d hd => ?_⟩
    · rw [find_hasSignature hi hsig fun j hj hj' => ?_]
      · rfl
      · exact Bool.false_ne_true
          ((hbefore j hj).symm.trans (comparesEqual_of_hasSignature hj'))
    · obtain ⟨j, hj, rfl⟩ := List.mem_map.mp hd
      have hle := List.mem_range.mp hj
      exact ⟨rfl, show j < root.count mem by omega⟩

/-- A search that keeps to the listed tables ends early. -/
theorem SearchesListed.endsInside (h : acpiHdrSize ≤ root.length mem)
    (hlisted : SearchesListed root mem highVma signature
      (acpiFindSdt mem highVma signature root.xsdt root.rsdt)) :
    EndsInside root mem highVma signature := by
  by_cases hsome : ∃ k, k < root.length mem - acpiHdrSize ∧
      comparesEqual mem signature (root.table mem highVma k) = true
  · -- the first table that compares equal is the one returned, so it has the signature
    have hfirst := Nat.find_spec hsome
    have hmin : ∀ k < Nat.find hsome,
        comparesEqual mem signature (root.table mem highVma k) = false := fun k hk => by
      rw [← Bool.not_eq_true]
      exact fun hk' => Nat.find_min hsome hk ⟨Nat.lt_trans hk hfirst.1, hk'⟩
    rw [acpiFindSdt_of_first h hfirst.1 hfirst.2 hmin] at hlisted
    have hlast : (root.kind, Nat.find hsome) ∈
        (List.range (Nat.find hsome + 1)).map (root.kind, ·) :=
      List.mem_map_of_mem (List.mem_range.mpr (Nat.lt_succ_self _))
    obtain ⟨i, hfind, haddr⟩ := Option.map_eq_some_iff.mp hlisted.found.symm
    have hsig := List.find?_some hfind
    rw [decide_eq_true_iff, haddr] at hsig
    exact .inr ⟨Nat.find hsome, (hlisted.derefs _ hlast).2, hsig, hmin⟩
  · -- the search goes on to the last byte, which is behind the last element
    have hnone : ∀ k < root.length mem - acpiHdrSize,
        comparesEqual mem signature (root.table mem highVma k) = false := fun k hk => by
      rw [← Bool.not_eq_true]
      exact fun hk' => hsome ⟨k, hk, hk'⟩
    rw [acpiFindSdt_of_none h hnone] at hlisted
    left
    by_contra hne
    have hlt : root.count mem < root.length mem - acpiHdrSize := Root.count_lt (by omega)
    have hbehind : (root.kind, root.count mem) ∈
        (List.range (root.length mem - acpiHdrSize)).map (root.kind, ·) :=
      List.mem_map_of_mem (List.mem_range.mpr hlt)
    exact Nat.lt_irrefl _ (hlisted.derefs _ hbehind).2

/-- **Where the search keeps to the listed tables.**  It returns the first listed table with
the signature and touches no pointer behind the array if and only if it ends early. -/
theorem searches_listed_iff (root : Root) (mem : Word → BitVec 8) (highVma : Word)
    (signature : Bytes) (h : acpiHdrSize ≤ root.length mem) :
    SearchesListed root mem highVma signature
        (acpiFindSdt mem highVma signature root.xsdt root.rsdt) ↔
      EndsInside root mem highVma signature :=
  ⟨fun hlisted => hlisted.endsInside h, fun hends => hends.searchesListed h⟩

end

/-! ### A root table with one entry -/

/-- `HIGH_VMA` of the examples. -/
def upperHalf : Word := 0xffff800000000000

/-- An XSDT that lists one table, with the signature `FACP`.  The eight bytes behind it are
the address of bytes that start with `APIC`. -/
def oneTable : Word → BitVec 8 := fun a =>
  bytesOf ([0x58, 0x53, 0x44, 0x54, 44, 0, 0, 0] ++ List.replicate 28 0 ++
    [52, 0, 0, 0, 0, 0, 0, 0] ++ [56, 0, 0, 0, 0, 0, 0, 0] ++
    [0x46, 0x41, 0x43, 0x50] ++ [0x41, 0x50, 0x49, 0x43]) (a - upperHalf).toNat

/-- The XSDT of `oneTable`. -/
def oneTableRoot : Root := ⟨.xsdt, upperHalf⟩

theorem searches_listed_facp :
    SearchesListed oneTableRoot oneTable upperHalf (bytesOf [0x46, 0x41, 0x43, 0x50])
      (acpiFindSdt oneTable upperHalf (bytesOf [0x46, 0x41, 0x43, 0x50]) (some upperHalf) none) :=
  (searches_listed_iff oneTableRoot oneTable upperHalf _ (by decide)).mpr
    (.inr ⟨0, by decide, by decide, fun j hj => absurd hj (Nat.not_lt_zero j)⟩)

/-- The bytes behind the array are taken for a second table. -/
theorem searches_behind_array :
    (acpiFindSdt oneTable upperHalf (bytesOf [0x41, 0x50, 0x49, 0x43]) (some upperHalf) none =
      ⟨some (upperHalf + 56), [(.xsdt, 0), (.xsdt, 1)]⟩) ∧
    oneTableRoot.count oneTable = 1 ∧
    ¬ SearchesListed oneTableRoot oneTable upperHalf (bytesOf [0x41, 0x50, 0x49, 0x43])
      (acpiFindSdt oneTable upperHalf (bytesOf [0x41, 0x50, 0x49, 0x43]) (some upperHalf)
        none) := by
  have hsearch : acpiFindSdt oneTable upperHalf (bytesOf [0x41, 0x50, 0x49, 0x43])
      (some upperHalf) none = ⟨some (upperHalf + 56), [(.xsdt, 0), (.xsdt, 1)]⟩ := by decide
  have hcount : oneTableRoot.count oneTable = 1 := by decide
  refine ⟨hsearch, hcount, fun hlisted => ?_⟩
  rw [hsearch] at hlisted
  have hlt := (hlisted.derefs (.xsdt, 1) (by decide)).2
  rw [hcount] at hlt
  exact absurd hlt (by decide)

end Rock
