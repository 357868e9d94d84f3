/-
Rock/Madt.lean

The Multiple APIC Description Table, and the loop of `apic_init` that collects its entries.

The table is a header of 44 bytes followed by entries: a type byte, a size byte that counts
both of them, and a payload.  One index walks over the entries; a round moves it three
times in its body and once in the loop header, and lands `entry_size` further.  The loop
is `StateTransition.eval` of one round, so that a loop without an end has no result.

* On a table that is a concatenation of well-sized entries the loop ends, and the five
  lists hold the payloads of the entries of their type, in table order.
* The loop compares only the start of an entry with the length of the table.  It ends and
  stays inside the table if and only if the entries do: `EntriesFit` asks for each entry
  the loop comes to that its payload ends in the table and that its size is not zero.
-/
import Rock.Exec
import Rock.Acpi

namespace Rock

open StateTransition

/-! ### Entries -/

/-- `struct madt_ent0`, a processor. -/
structure MadtEnt0 where
  acpiId : BitVec 8
  apicId : BitVec 8
  flags : BitVec 32
  deriving DecidableEq

/-- `struct madt_ent1`, an IOAPIC. -/
structure MadtEnt1 where
  ioapicId : BitVec 8
  reserved : BitVec 8
  ioapicAddr : BitVec 32
  gsiBase : BitVec 32
  deriving DecidableEq

/-- `struct madt_ent2`, an interrupt source override. -/
structure MadtEnt2 where
  busSrc : BitVec 8
  irqSrc : BitVec 8
  gsi : BitVec 32
  flags : BitVec 16
  deriving DecidableEq

/-- `struct madt_ent4`, a non-maskable interrupt. -/
structure MadtEnt4 where
  acpiId : BitVec 8
  flags : BitVec 16
  lint : BitVec 8
  deriving DecidableEq

/-- `struct madt_ent5`, an address override.  The source gives the address one byte. -/
structure MadtEnt5 where
  reserved : BitVec 16
  lapicOverride : BitVec 8
  deriving DecidableEq

section Read

variable (m : Bytes) (off : ℕ)

/-- `*(struct madt_ent0*)` at `off`. -/
def MadtEnt0.read : MadtEnt0 := ⟨m off, m (off + 1), int32 m (off + 2)⟩

/-- `*(struct madt_ent1*)` at `off`. -/
def MadtEnt1.read : MadtEnt1 := ⟨m off, m (off + 1), int32 m (off + 2), int32 m (off + 6)⟩

/-- `*(struct madt_ent2*)` at `off`. -/
def MadtEnt2.read : MadtEnt2 := ⟨m off, m (off + 1), int32 m (off + 2), int16 m (off + 6)⟩

/-- `*(struct madt_ent4*)` at `off`. -/
def MadtEnt4.read : MadtEnt4 := ⟨m off, int16 m (off + 1), m (off + 3)⟩

/-- `*(struct madt_ent5*)` at `off`. -/
def MadtEnt5.read : MadtEnt5 := ⟨int16 m off, m (off + 2)⟩

end Read

/-- The lists `madt_ent0_list` to `madt_ent5_list`. -/
@[ext]
structure MadtLists where
  ent0 : List MadtEnt0
  ent1 : List MadtEnt1
  ent2 : List MadtEnt2
  ent4 : List MadtEnt4
  ent5 : List MadtEnt5
  deriving DecidableEq

/-- The lists before `apic_init`. -/
def MadtLists.empty : MadtLists := ⟨[], [], [], [], []⟩

/-- `VECTOR_PUSH` of the entry of type `type` whose payload is at `off`. -/
def MadtLists.push (l : MadtLists) (type : BitVec 8) (m : Bytes) (off : ℕ) : MadtLists :=
  match type.toNat with
  | 0 => { l with ent0 := l.ent0 ++ [.read m off] }
  | 1 => { l with ent1 := l.ent1 ++ [.read m off] }
  | 2 => { l with ent2 := l.ent2 ++ [.read m off] }
  | 4 => { l with ent4 := l.ent4 ++ [.read m off] }
  | 5 => { l with ent5 := l.ent5 ++ [.read m off] }
  | _ => l

/-- The number of payload bytes the code reads: `sizeof` of the struct of the type. -/
def payloadRead (type : BitVec 8) : ℕ :=
  match type.toNat with
  | 0 => 6
  | 1 => 10
  | 2 => 8
  | 4 => 4
  | 5 => 3
  | _ => 0

/-- What is pushed depends on the bytes that are read. -/
theorem MadtLists.push_congr (l : MadtLists) {type : BitVec 8} {m m' : Bytes} {off off' : ℕ}
    (h : ∀ k < payloadRead type, m (off + k) = m' (off' + k)) :
    l.push type m off = l.push type m' off' := by
  have hnum : ∀ n i, i + n ≤ payloadRead type → le m (off + i) n = le m' (off' + i) n :=
    fun n i hin => le_shift fun k hk => by
      rw [Nat.add_assoc, Nat.add_assoc]
      exact h (i + k) (by omega)
  unfold payloadRead at h hnum
  unfold MadtLists.push
  split <;> rename_i htype <;> simp only [htype] at h hnum
  · have hread : MadtEnt0.read m off = .read m' off' := by
      simp only [MadtEnt0.read, int32, hnum 4 2 (by decide), h 1 (by decide)]
      rw [show m off = m' off' from h 0 (by decide)]
    rw [hread]
  · have hread : MadtEnt1.read m off = .read m' off' := by
      simp only [MadtEnt1.read, int32, hnum 4 2 (by decide), hnum 4 6 (by decide),
        h 1 (by decide)]
      rw [show m off = m' off' from h 0 (by decide)]
    rw [hread]
  · have hread : MadtEnt2.read m off = .read m' off' := by
      simp only [MadtEnt2.read, int32, int16, hnum 4 2 (by decide), hnum 2 6 (by decide),
        h 1 (by decide)]
      rw [show m off = m' off' from h 0 (by decide)]
    rw [hread]
  · have hread : MadtEnt4.read m off = .read m' off' := by
      simp only [MadtEnt4.read, int16, hnum 2 1 (by decide), h 3 (by decide)]
      rw [show m off = m' off' from h 0 (by decide)]
    rw [hread]
  · have hread : MadtEnt5.read m off = .read m' off' := by
      have hfirst : le m off 2 = le m' off' 2 := hnum 2 0 (by decide)
      simp only [MadtEnt5.read, int16, hfirst, h 2 (by decide)]
    rw [hread]
  · rfl

/-! ### The loop -/

/-- `sizeof(struct madt_hdr)`. -/
def madtHdrSize : ℕ := 44

/-- The bound of the loop, `acpi_hdr.length - sizeof(struct madt_hdr)` as a `size_t`. -/
def madtBound (t : Bytes) : Word :=
  (acpiLength t).setWidth 64 - BitVec.ofNat 64 madtHdrSize

/-- The loop of `apic_init`: its index, the lists, and the offsets in the table of the
bytes it has read as types, sizes and payloads. -/
structure MadtState where
  i : Word
  lists : MadtLists
  reads : List ℕ

/-- The loop before its first round. -/
def MadtState.start : MadtState := ⟨0, .empty, []⟩

/-- `&madt_hdr->entries[i]`, as an offset in the table. -/
def entryOff (i : Word) : ℕ := madtHdrSize + i.toNat

/-- One round of the loop.  `entry_size - 3` is an `int` that is sign-extended, which is the
subtraction in 64 bits. -/
def madtRound (t : Bytes) (s : MadtState) : Option MadtState :=
  if s.i < madtBound t then
    let entryType := t (entryOff s.i)
    let i := s.i + 1
    let entrySize := t (entryOff i)
    let i := i + 1
    some
      { i := i + (entrySize.setWidth 64 - 3) + 1
        lists := s.lists.push entryType t (entryOff i)
        reads := s.reads ++ [entryOff s.i, entryOff (s.i + 1)] ++
          (List.range (payloadRead entryType)).map (entryOff i + ·) }
  else none

/-! ### Rounds -/

/-- The type byte of the entry at `p`. -/
def entryType (t : Bytes) (p : ℕ) : BitVec 8 := t (madtHdrSize + p)

/-- The size byte of the entry at `p`. -/
def entrySize (t : Bytes) (p : ℕ) : BitVec 8 := t (madtHdrSize + p + 1)

/-- The offsets a round reads at the entry at `p`. -/
def entryReads (t : Bytes) (p : ℕ) : List ℕ :=
  [madtHdrSize + p, madtHdrSize + p + 1] ++
    (List.range (payloadRead (entryType t p))).map (madtHdrSize + p + 2 + ·)

section Rounds

variable {t : Bytes} {p : ℕ} {l : MadtLists} {r : List ℕ}

theorem entryOff_ofNat (hp : p < 2 ^ 64) : entryOff (BitVec.ofNat 64 p) = madtHdrSize + p := by
  rw [entryOff, BitVec.toNat_ofNat, Nat.mod_eq_of_lt hp]

/-- The bound of the loop, where the length is not shorter than the header. -/
theorem toNat_madtBound (h : madtHdrSize ≤ (acpiLength t).toNat) :
    (madtBound t).toNat = (acpiLength t).toNat - madtHdrSize :=
  toNat_lengthSub h (by decide)

/-- The loop ends at the first index that is not below the bound. -/
theorem madtRound_of_le (h : madtHdrSize ≤ (acpiLength t).toNat) (hp : p < 2 ^ 64)
    (hle : (acpiLength t).toNat - madtHdrSize ≤ p) :
    madtRound t ⟨BitVec.ofNat 64 p, l, r⟩ = none := by
  apply if_neg
  rw [BitVec.lt_def, toNat_madtBound h, BitVec.toNat_ofNat, Nat.mod_eq_of_lt hp]
  omega

/-- A round reads the entry at its index and moves on by the entry's size. -/
theorem madtRound_of_lt (h : madtHdrSize ≤ (acpiLength t).toNat)
    (hlt : p < (acpiLength t).toNat - madtHdrSize) :
    madtRound t ⟨BitVec.ofNat 64 p, l, r⟩ =
      some ⟨BitVec.ofNat 64 (p + (entrySize t p).toNat),
        l.push (entryType t p) t (madtHdrSize + p + 2), r ++ entryReads t p⟩ := by
  have hlen := (acpiLength t).isLt
  have hsucc : BitVec.ofNat 64 p + 1 = BitVec.ofNat 64 (p + 1) := (BitVec.ofNat_add p 1).symm
  have hsucc' : BitVec.ofNat 64 (p + 1) + 1 = BitVec.ofNat 64 (p + 2) :=
    (BitVec.ofNat_add (p + 1) 1).symm
  -- two post-increments, the jump and the increment of the `for`
  have hnext : BitVec.ofNat 64 (p + 2) + ((entrySize t p).setWidth 64 - 3) + 1 =
      BitVec.ofNat 64 (p + (entrySize t p).toNat) := by
    apply BitVec.eq_of_toNat_eq
    have hsize := (entrySize t p).isLt
    have hone : (1 : Word).toNat = 1 := rfl
    have hthree : (3 : Word).toNat = 3 := rfl
    simp only [BitVec.toNat_add, BitVec.toNat_sub, BitVec.toNat_setWidth, BitVec.toNat_ofNat,
      hone, hthree]
    omega
  rw [madtRound, if_pos]
  · simp only [hsucc, hsucc', entryOff_ofNat (show p < 2 ^ 64 by omega),
      entryOff_ofNat (show p + 1 < 2 ^ 64 by omega),
      entryOff_ofNat (show p + 2 < 2 ^ 64 by omega), ← Nat.add_assoc]
    rw [List.append_assoc]
    exact congrArg some (congrArg (MadtState.mk · _ _) hnext)
  · rw [BitVec.lt_def, toNat_madtBound h, BitVec.toNat_ofNat, Nat.mod_eq_of_lt (by omega)]
    exact hlt

end Rounds

/-! ### Tables of well-sized entries -/

/-- The size the ACPI specification gives to the entries of a type the code knows. -/
def acpiSize (type : BitVec 8) : Option ℕ :=
  match type.toNat with
  | 0 => some 8
  | 1 => some 12
  | 2 => some 10
  | 4 => some 6
  | 5 => some 12
  | _ => none

/-- An entry of the table: its size, with the two bytes before the payload, fits a byte and
is the one of its type. -/
structure MadtEntry where
  type : BitVec 8
  payload : List (BitVec 8)
  size_lt : payload.length + 2 < 2 ^ 8
  size_eq : ∀ n ∈ acpiSize type, payload.length + 2 = n

namespace MadtEntry

/-- The size of an entry. -/
def size (e : MadtEntry) : ℕ := e.payload.length + 2

/-- The bytes of an entry: type, size and payload. -/
def bytes (e : MadtEntry) : List (BitVec 8) :=
  e.type :: BitVec.ofNat 8 e.size :: e.payload

/-- The payload of an entry is not shorter than the struct of its type. -/
theorem payloadRead_le (e : MadtEntry) : payloadRead e.type ≤ e.payload.length := by
  have hsize := e.size_eq
  unfold acpiSize at hsize
  unfold payloadRead
  split <;> rename_i htype <;> simp only [htype, Option.mem_some_iff, forall_eq'] at hsize <;> omega

end MadtEntry

/-- The table holds the entries `es` and nothing else. -/
structure HoldsEntries (t : Bytes) (es : List MadtEntry) : Prop where
  length : (acpiLength t).toNat = madtHdrSize + (es.map MadtEntry.size).sum
  body : HasBytes t madtHdrSize (es.flatMap MadtEntry.bytes)

/-- The entries of type `type`, each payload read as the struct it is. -/
def payloads {α : Type} (read : Bytes → ℕ → α) (type : BitVec 8) (es : List MadtEntry) : List α :=
  (es.filter (·.type = type)).map fun e => read (bytesOf e.payload) 0

theorem payloads_cons {α : Type} (read : Bytes → ℕ → α) (type : BitVec 8) (e : MadtEntry)
    (es : List MadtEntry) :
    payloads read type (e :: es) =
      (if e.type = type then [read (bytesOf e.payload) 0] else []) ++ payloads read type es := by
  by_cases h : e.type = type
  · simp [payloads, h]
  · simp [payloads, h]

/-- The lists after the entries `es` were pushed. -/
def MadtLists.pushAll (l : MadtLists) (es : List MadtEntry) : MadtLists :=
  es.foldl (fun l e => l.push e.type (bytesOf e.payload) 0) l

/-- Each list holds the payloads of its type. -/
theorem MadtLists.pushAll_eq (l : MadtLists) (es : List MadtEntry) :
    l.pushAll es =
      ⟨l.ent0 ++ payloads .read 0 es, l.ent1 ++ payloads .read 1 es,
        l.ent2 ++ payloads .read 2 es, l.ent4 ++ payloads .read 4 es,
        l.ent5 ++ payloads .read 5 es⟩ := by
  induction es generalizing l with
  | nil => simp [pushAll, payloads]
  | cons e es ih =>
      have htype : ∀ type : BitVec 8, e.type = type ↔ e.type.toNat = type.toNat :=
        fun _ => BitVec.toNat_inj.symm
      rw [show l.pushAll (e :: es) = (l.push e.type (bytesOf e.payload) 0).pushAll es from rfl, ih]
      simp only [payloads_cons, htype, push]
      split
      case h_6 h₀ h₁ h₂ h₄ h₅ => simpa using ⟨h₀, h₁, h₂, h₄, h₅⟩
      all_goals
        rename_i hnat
        simp [hnat]

section Collect

variable {t : Bytes} {es : List MadtEntry}

/-- The round at an entry pushes that entry and moves on to the next. -/
theorem madtRound_entry (h : madtHdrSize ≤ (acpiLength t).toNat) {p : ℕ} {e : MadtEntry}
    (hlt : p < (acpiLength t).toNat - madtHdrSize) (hbytes : HasBytes t (madtHdrSize + p) e.bytes)
    (l : MadtLists) (r : List ℕ) :
    madtRound t ⟨BitVec.ofNat 64 p, l, r⟩ =
      some ⟨BitVec.ofNat 64 (p + e.size), l.push e.type (bytesOf e.payload) 0,
        r ++ entryReads t p⟩ := by
  have htype : entryType t p = e.type := hbytes.head
  have hsize : (entrySize t p).toNat = e.size := by
    rw [show entrySize t p = BitVec.ofNat 8 e.size from hbytes.tail.head, BitVec.toNat_ofNat]
    exact Nat.mod_eq_of_lt e.size_lt
  have hpush : l.push e.type t (madtHdrSize + p + 2) = l.push e.type (bytesOf e.payload) 0 := by
    apply l.push_congr
    intro k hk
    have hk' := Nat.lt_of_lt_of_le hk e.payloadRead_le
    rw [hasBytes_bytesOf e.payload k hk']
    exact hbytes.tail.tail k hk'
  rw [madtRound_of_lt h hlt, htype, hsize, hpush]

/-- The loop from an entry on. -/
theorem exists_mem_eval_madtRound (h : madtHdrSize ≤ (acpiLength t).toNat) {p : ℕ}
    (hend : (acpiLength t).toNat = madtHdrSize + p + (es.map MadtEntry.size).sum)
    (hbytes : HasBytes t (madtHdrSize + p) (es.flatMap MadtEntry.bytes)) (l : MadtLists)
    (r : List ℕ) :
    ∃ s ∈ eval (madtRound t) ⟨BitVec.ofNat 64 p, l, r⟩, s.lists = l.pushAll es := by
  induction es generalizing p l r with
  | nil =>
      refine ⟨_, mem_eval_self (madtRound_of_le h ?_ ?_), rfl⟩
      · have hlen := (acpiLength t).isLt
        simp only [List.map_nil, List.sum_nil] at hend
        omega
      · simp only [List.map_nil, List.sum_nil] at hend
        omega
  | cons e es ih =>
      rw [List.flatMap_cons] at hbytes
      rw [List.map_cons, List.sum_cons] at hend
      have hpos : 2 ≤ e.size := Nat.le_add_left 2 _
      have hround := madtRound_entry h (by omega) hbytes.left l r
      have hrest : HasBytes t (madtHdrSize + (p + e.size)) (es.flatMap MadtEntry.bytes) := by
        rw [← Nat.add_assoc]
        exact hbytes.right
      obtain ⟨s, hs, hlists⟩ := ih (by omega) hrest (l.push e.type (bytesOf e.payload) 0)
        (r ++ entryReads t p)
      rw [← eval_of_round hround] at hs
      exact ⟨s, hs, hlists⟩

/-- **Every entry is collected, in order.**  On a table of well-sized entries the loop ends,
and each list holds the payloads of the entries of its type. -/
theorem apic_init_collects (h : HoldsEntries t es) :
    ∃ s ∈ eval (madtRound t) .start,
      s.lists.ent0 = payloads MadtEnt0.read 0 es ∧
      s.lists.ent1 = payloads MadtEnt1.read 1 es ∧
      s.lists.ent2 = payloads MadtEnt2.read 2 es ∧
      s.lists.ent4 = payloads MadtEnt4.read 4 es ∧
      s.lists.ent5 = payloads MadtEnt5.read 5 es := by
  obtain ⟨s, hs, hlists⟩ := exists_mem_eval_madtRound (p := 0) (h.length ▸ Nat.le_add_right _ _)
    h.length h.body .empty []
  refine ⟨s, hs, ?_⟩
  rw [hlists, MadtLists.pushAll_eq]
  exact ⟨rfl, rfl, rfl, rfl, rfl⟩

end Collect

/-- A table of the entries `es`, whose header holds its length. -/
def madtOf (es : List MadtEntry) : Bytes :=
  putInt32 (fun k => bytesOf (es.flatMap MadtEntry.bytes) (k - madtHdrSize)) 4
    (BitVec.ofNat 32 (madtHdrSize + (es.map MadtEntry.size).sum))

theorem holdsEntries_madtOf (es : List MadtEntry)
    (h : madtHdrSize + (es.map MadtEntry.size).sum < 2 ^ 32) : HoldsEntries (madtOf es) es where
  length := by
    rw [acpiLength, madtOf, int32_putInt32, BitVec.toNat_ofNat, Nat.mod_eq_of_lt h]
  body := by
    intro k hk
    have houtside : 4 + 4 ≤ madtHdrSize + k := show 8 ≤ 44 + k by omega
    rw [madtOf, putInt32_of_outside (.inr houtside), Nat.add_sub_cancel_left,
      ← hasBytes_bytesOf _ k hk, Nat.zero_add]

/-- A processor, an entry of a type the code does not know, and an override. -/
def threeEntries : List MadtEntry :=
  [⟨0, [1, 2, 1, 0, 0, 0], by decide, by decide⟩, ⟨9, [], by decide, by decide⟩,
    ⟨2, [0, 9, 20, 0, 0, 0, 0x0f, 0], by decide, by decide⟩]

theorem apic_init_collects_three :
    ∃ s ∈ eval (madtRound (madtOf threeEntries)) .start,
      s.lists = ⟨[⟨1, 2, 1⟩], [], [⟨0, 9, 20, 0x0f⟩], [], []⟩ := by
  obtain ⟨s, hs, h₀, h₁, h₂, h₄, h₅⟩ := apic_init_collects
    (holdsEntries_madtOf threeEntries (by decide))
  refine ⟨s, hs, MadtLists.ext h₀ ?_ ?_ ?_ ?_⟩
  · rw [h₁]; rfl
  · rw [h₂]; rfl
  · rw [h₄]; rfl
  · rw [h₅]; rfl

/-! ### Any table -/

/-- The loop ends, and all it reads lies in the table. -/
def ParsesInside (t : Bytes) : Prop :=
  ∃ s ∈ eval (madtRound t) .start, ∀ k ∈ s.reads, k < (acpiLength t).toNat

/-- The entries from `p` on: what the code reads of each ends before `bound`, and none has
size zero. -/
inductive EntriesFit (t : Bytes) (bound : ℕ) : ℕ → Prop
  | done {p : ℕ} (h : bound ≤ p) : EntriesFit t bound p
  | entry {p : ℕ} (hfit : p + 2 + payloadRead (entryType t p) ≤ bound)
      (hsize : entrySize t p ≠ 0) (hrest : EntriesFit t bound (p + (entrySize t p).toNat)) :
      EntriesFit t bound p

section AnyTable

variable {t : Bytes}

theorem forall_mem_entryReads {n p : ℕ} :
    (∀ k ∈ entryReads t p, k < n) ↔ madtHdrSize + (p + 2 + payloadRead (entryType t p)) ≤ n := by
  constructor
  · intro h
    have hsizeByte : madtHdrSize + p + 1 < n := h _ (by simp [entryReads])
    rcases Nat.eq_zero_or_pos (payloadRead (entryType t p)) with hnone | hpos
    · omega
    · have hlast : madtHdrSize + p + 2 + (payloadRead (entryType t p) - 1) < n := by
        apply h
        apply List.mem_append_right
        exact List.mem_map_of_mem (List.mem_range.mpr (by omega))
      omega
  · intro h k hk
    simp only [entryReads, List.cons_append, List.nil_append, List.mem_cons, List.mem_map,
      List.mem_range] at hk
    rcases hk with rfl | rfl | ⟨j, hj, rfl⟩
    · omega
    · omega
    · omega

/-- What was read stays read. -/
theorem reads_of_mem_eval {a b : MadtState} (hb : b ∈ eval (madtRound t) a) {k : ℕ}
    (hk : k ∈ a.reads) : k ∈ b.reads := by
  have hround : ∀ s s', k ∈ s.reads → s' ∈ madtRound t s → k ∈ s'.reads := by
    intro s s' hs hstep
    rw [Option.mem_def, madtRound] at hstep
    split at hstep
    · cases hstep
      exact List.mem_append_left _ (List.mem_append_left _ hs)
    · cases hstep
  exact Run.invariant hround hk (mem_eval.mp hb).1

/-- The loop does not get past an entry of size zero. -/
theorem entrySize_ne_zero_of_mem_eval (h : madtHdrSize ≤ (acpiLength t).toNat) {p : ℕ}
    (hlt : p < (acpiLength t).toNat - madtHdrSize) {l : MadtLists} {r : List ℕ} {b : MadtState}
    (hb : b ∈ eval (madtRound t) ⟨BitVec.ofNat 64 p, l, r⟩) : entrySize t p ≠ 0 := by
  intro hzero
  have hstays : ∀ s : MadtState, s.i = BitVec.ofNat 64 p →
      ∃ s', madtRound t s = some s' ∧ s'.i = BitVec.ofNat 64 p := by
    rintro ⟨i, l', r'⟩ rfl
    refine ⟨_, madtRound_of_lt h hlt, ?_⟩
    rw [hzero]
    rfl
  exact not_mem_eval_of_invariant hstays rfl hb

/-- Entries that fit are parsed inside the table. -/
theorem EntriesFit.exists_mem_eval (h : madtHdrSize ≤ (acpiLength t).toNat) {p : ℕ}
    (hp : p < 2 ^ 33) (hfit : EntriesFit t ((acpiLength t).toNat - madtHdrSize) p) (l : MadtLists)
    {r : List ℕ} (hr : ∀ k ∈ r, k < (acpiLength t).toNat) :
    ∃ s ∈ eval (madtRound t) ⟨BitVec.ofNat 64 p, l, r⟩,
      ∀ k ∈ s.reads, k < (acpiLength t).toNat := by
  induction hfit generalizing l r with
  | done hle => exact ⟨_, mem_eval_self (madtRound_of_le h (by omega) hle), hr⟩
  | @entry p hfit hsize hrest ih =>
      have hlen := (acpiLength t).isLt
      have hbyte := (entrySize t p).isLt
      rw [eval_of_round (madtRound_of_lt h (by omega))]
      apply ih (by omega)
      intro k hk
      rcases List.mem_append.mp hk with hk | hk
      · exact hr k hk
      · exact forall_mem_entryReads.mpr (by omega) k hk

/-- A loop that ends inside the table has come to entries that fit. -/
theorem entriesFit_of_mem_eval (h : madtHdrSize ≤ (acpiLength t).toNat) {a b : MadtState}
    (hb : b ∈ eval (madtRound t) a) (hreads : ∀ k ∈ b.reads, k < (acpiLength t).toNat) :
    ∀ p < 2 ^ 33, a.i = BitVec.ofNat 64 p →
      EntriesFit t ((acpiLength t).toNat - madtHdrSize) p := by
  refine evalInduction hb fun a hb ih p hp ha => ?_
  obtain ⟨i, l, r⟩ := a
  obtain rfl : i = BitVec.ofNat 64 p := ha
  by_cases hle : (acpiLength t).toNat - madtHdrSize ≤ p
  · exact .done hle
  · have hlen := (acpiLength t).isLt
    have hbyte := (entrySize t p).isLt
    have hround := madtRound_of_lt (l := l) (r := r) h (Nat.lt_of_not_le hle)
    have hread : ∀ k ∈ entryReads t p, k < (acpiLength t).toNat := fun k hk =>
      hreads k (reads_of_mem_eval (eval_of_round hround ▸ hb) (List.mem_append_right r hk))
    have hfit := forall_mem_entryReads.mp hread
    exact .entry (by omega) (entrySize_ne_zero_of_mem_eval h (Nat.lt_of_not_le hle) hb)
      (ih _ hround _ (by omega) rfl)

/-- A length below the size of the header makes the bound wrap, and the first round reads
behind the table. -/
theorem not_parsesInside_of_short (h : (acpiLength t).toNat < madtHdrSize) : ¬ ParsesInside t := by
  rintro ⟨s, hs, hreads⟩
  have hlt : (0 : Word) < madtBound t := by
    have hlen := (acpiLength t).isLt
    rw [BitVec.lt_def, madtBound, BitVec.toNat_sub, BitVec.toNat_setWidth, BitVec.toNat_ofNat]
    unfold madtHdrSize at h ⊢
    show 0 < _
    omega
  have hround : madtRound t .start = some _ := if_pos hlt
  have hfirst : madtHdrSize ∈ s.reads :=
    reads_of_mem_eval (eval_of_round hround ▸ hs) (List.mem_cons_self ..)
  exact absurd (hreads _ hfirst) (by omega)

/-- **Where the loop stays in the table.**  It ends and reads nothing outside the table if
and only if the table is not shorter than its header and its entries fit. -/
theorem parses_inside_iff (t : Bytes) :
    ParsesInside t ↔ madtHdrSize ≤ (acpiLength t).toNat ∧
      EntriesFit t ((acpiLength t).toNat - madtHdrSize) 0 := by
  constructor
  · intro hinside
    have h : madtHdrSize ≤ (acpiLength t).toNat := by
      by_contra hshort
      exact not_parsesInside_of_short (Nat.lt_of_not_le hshort) hinside
    obtain ⟨s, hs, hreads⟩ := hinside
    exact ⟨h, entriesFit_of_mem_eval h hs hreads 0 (by decide) rfl⟩
  · rintro ⟨h, hfit⟩
    exact hfit.exists_mem_eval h (by decide) .empty fun k hk => by cases hk

end AnyTable

/-- A table with the length `length` whose first entry has the given type and size. -/
def oneEntry (length : BitVec 32) (type size : BitVec 8) : Bytes :=
  putInt32 (bytesOf (List.replicate madtHdrSize 0 ++ [type, size])) 4 length

theorem acpiLength_oneEntry (length : BitVec 32) (type size : BitVec 8) :
    acpiLength (oneEntry length type size) = length := int32_putInt32

/-- An entry of size zero, a processor whose payload is cut off, and a length below the size
of the header. -/
theorem parses_outside :
    ¬ ParsesInside (oneEntry 46 9 0) ∧ ¬ ParsesInside (oneEntry 46 0 8) ∧
      ¬ ParsesInside (oneEntry 43 9 2) := by
  refine ⟨?_, ?_, ?_⟩
  · rintro ⟨s, hs, -⟩
    have hlen : (acpiLength (oneEntry 46 9 0)).toNat = 46 := by rw [acpiLength_oneEntry]; rfl
    exact entrySize_ne_zero_of_mem_eval (p := 0) (hlen ▸ by decide) (hlen ▸ by decide) hs rfl
  · rintro ⟨s, hs, hreads⟩
    have hlen : (acpiLength (oneEntry 46 0 8)).toNat = 46 := by rw [acpiLength_oneEntry]; rfl
    -- the code reads six bytes of payload, and the table has none
    have hfit := entriesFit_of_mem_eval (hlen ▸ by decide) hs hreads 0 (by decide) rfl
    rw [hlen] at hfit
    rcases hfit with hdone | ⟨hfit, -, -⟩
    · exact absurd hdone (by decide)
    · exact absurd hfit (by decide)
  · apply not_parsesInside_of_short
    rw [acpiLength_oneEntry]
    decide

end Rock
