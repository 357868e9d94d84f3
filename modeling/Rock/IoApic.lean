/-
Rock/IoApic.lean

Interrupt redirection, `ioapic_set_irq_redirection`.

An interrupt line goes to a global system interrupt (GSI): the one of its override if the
MADT has one, and the one of the same number otherwise.  Each IOAPIC serves the interrupts
from its `gsi_base` to `gsi_base + maximum_redirection_entry`, one pin for each, and a pin
is programmed by two 32-bit registers.

The code keeps the interrupt in 8 bits, compares it with the number of pins without adding
the base, decodes polarity and trigger mode in one if/else chain, and shifts a 32-bit
destination into 8 bits.  Each of the four is a case in which the wrong entry is written,
or none, or one although no IOAPIC serves the interrupt; outside them the entry is right.
-/
import Rock.Madt

namespace Rock

/-! ### The registers -/

/-- What the function reads of a `struct ioapic`. -/
structure IoApic where
  maximumRedirectionEntry : BitVec 32
  madt1 : MadtEnt1
  deriving DecidableEq

/-- `ioapic_write`: the IOAPIC, by its place in `ioapic_list`, the register and the data. -/
structure IoapicWrite where
  ioapic : ℕ
  reg : BitVec 32
  data : BitVec 32
  deriving DecidableEq

/-- `ioapic_write_redirection_table`. -/
def ioapicWriteRedirectionTable (ioapic : ℕ) (redirectionEntry : BitVec 32) (data : Word) :
    List IoapicWrite :=
  [⟨ioapic, redirectionEntry + 0x10, (data &&& 0xffffffff).setWidth 32⟩,
    ⟨ioapic, redirectionEntry + 0x10 + 1, (data >>> 32 &&& 0xffffffff).setWidth 32⟩]

/-- `IOAPIC_INTPOL`. -/
def ioapicIntpol : Word := 1 <<< 13

/-- `IOAPIC_TRIGGER_MODE`. -/
def ioapicTriggerMode : Word := 1 <<< 15

/-- `IOAPIC_INT_MASK`. -/
def ioapicIntMask : Word := 1 <<< 16

/-! ### The function -/

/-- The flags of an override, by the if/else chain of the source. -/
def overrideFlags (madt2 : MadtEnt2) : Word :=
  if madt2.flags &&& 1 <<< 1 ≠ 0 then ioapicIntpol
  else if madt2.flags &&& 1 <<< 3 ≠ 0 then ioapicTriggerMode
  else 0

/-- The loop over `madt_ent2_list`: the flags and the new value of `irq`. -/
def overrideLoop (irq : BitVec 8) : List MadtEnt2 → Word × BitVec 8
  | [] => (0, irq)
  | madt2 :: rest =>
      if madt2.irqSrc ≠ irq then overrideLoop irq rest
      else (overrideFlags madt2, madt2.gsi.setWidth 8)

/-- The test of the second loop. -/
def IoApic.Accepts (ioapic : IoApic) (irq : BitVec 8) : Prop :=
  irq.setWidth 32 ≤ ioapic.maximumRedirectionEntry ∧ ioapic.madt1.gsiBase ≤ irq.setWidth 32

instance (ioapic : IoApic) (irq : BitVec 8) : Decidable (ioapic.Accepts irq) :=
  inferInstanceAs (Decidable (_ ∧ _))

/-- The loop over `ioapic_list`, of which `i` elements are done. -/
def ioapicLoop (irq : BitVec 8) (entry : Word) : ℕ → List IoApic → List IoapicWrite
  | _, [] => []
  | i, ioapic :: rest =>
      if ioapic.Accepts irq then
        ioapicWriteRedirectionTable i ((irq.setWidth 32 - ioapic.madt1.gsiBase) * 2) entry
      else ioapicLoop irq entry (i + 1) rest

/-- `vector | flags | ((uint64_t)lapic_id << 56)`. -/
def redirectionEntry (lapicId : BitVec 32) (vector : BitVec 8) (flags : Word) : Word :=
  vector.setWidth 64 ||| flags ||| lapicId.setWidth 64 <<< 56

/-- `ioapic_set_irq_redirection`: the value returned and the registers written. -/
def ioapicSetIrqRedirection (madtEnt2List : List MadtEnt2) (ioapicList : List IoApic)
    (lapicId : BitVec 32) (vector irq : BitVec 8) (mask : Bool) : BitVec 8 × List IoapicWrite :=
  let (flags, irq) := overrideLoop irq madtEnt2List
  let flags := if mask then flags ||| ioapicIntMask else flags
  (irq, ioapicLoop irq (redirectionEntry lapicId vector flags) 0 ioapicList)

/-! ### What it is for -/

/-- The GSIs an IOAPIC serves. -/
def IoApic.Covers (ioapic : IoApic) (gsi : ℕ) : Prop :=
  ioapic.madt1.gsiBase.toNat ≤ gsi ∧
    gsi ≤ ioapic.madt1.gsiBase.toNat + ioapic.maximumRedirectionEntry.toNat

/-- The override of an interrupt line. -/
def overrideOf (overrides : List MadtEnt2) (irq : BitVec 8) : Option MadtEnt2 :=
  overrides.find? (·.irqSrc = irq)

/-- The GSI of an interrupt line. -/
def gsiOf (overrides : List MadtEnt2) (irq : BitVec 8) : ℕ :=
  match overrideOf overrides irq with
  | some madt2 => madt2.gsi.toNat
  | none => irq.toNat

/-- The line is active low. -/
def activeLow (overrides : List MadtEnt2) (irq : BitVec 8) : Bool :=
  (overrideOf overrides irq).any (·.flags.getLsbD 1)

/-- The line is level triggered. -/
def levelTriggered (overrides : List MadtEnt2) (irq : BitVec 8) : Bool :=
  (overrideOf overrides irq).any (·.flags.getLsbD 3)

/-- The redirection entry the line should have: vector, polarity, trigger mode, mask and
destination. -/
def wantedEntry (overrides : List MadtEnt2) (lapicId : BitVec 32) (vector irq : BitVec 8)
    (mask : Bool) : ℕ :=
  vector.toNat + 2 ^ 13 * (activeLow overrides irq).toNat +
    2 ^ 15 * (levelTriggered overrides irq).toNat + 2 ^ 16 * mask.toNat + 2 ^ 56 * lapicId.toNat

/-- The writes program the pin of the GSI on the IOAPIC that serves it with the wanted
entry, and nothing else. -/
structure ProgramsPin (overrides : List MadtEnt2) (ioapics : List IoApic) (lapicId : BitVec 32)
    (vector irq : BitVec 8) (mask : Bool) (writes : List IoapicWrite) : Prop where
  served : ∀ k io, ioapics[k]? = some io → io.Covers (gsiOf overrides irq) →
    writes.map (fun w => (w.ioapic, w.reg.toNat, w.data.toNat)) =
      [(k, 0x10 + 2 * (gsiOf overrides irq - io.madt1.gsiBase.toNat),
          wantedEntry overrides lapicId vector irq mask % 2 ^ 32),
        (k, 0x11 + 2 * (gsiOf overrides irq - io.madt1.gsiBase.toNat),
          wantedEntry overrides lapicId vector irq mask / 2 ^ 32)]
  unserved : (∀ io ∈ ioapics, ¬ io.Covers (gsiOf overrides irq)) → writes = []

/-- The IOAPICs serve disjoint ranges. -/
def RangesDisjoint (ioapics : List IoApic) : Prop :=
  ∀ (k k' : ℕ) (io io' : IoApic) (gsi : ℕ), ioapics[k]? = some io → ioapics[k']? = some io' →
    io.Covers gsi → io'.Covers gsi → k = k'

/-! ### The entry -/

section Entry

variable {overrides : List MadtEnt2} {irq vector : BitVec 8} {lapicId : BitVec 32} {mask : Bool}

/-- The two bits of an override's flags, where the second is lost behind the first. -/
theorem toNat_overrideFlags (madt2 : MadtEnt2) :
    (overrideFlags madt2).toNat = 2 ^ 13 * (madt2.flags.getLsbD 1).toNat +
      2 ^ 15 * (!madt2.flags.getLsbD 1 && madt2.flags.getLsbD 3).toNat := by
  have hpol : madt2.flags &&& 1 <<< 1 = if madt2.flags.getLsbD 1 then BitVec.twoPow 16 1 else 0 :=
    BitVec.and_twoPow madt2.flags 1
  have htrig : madt2.flags &&& 1 <<< 3 = if madt2.flags.getLsbD 3 then BitVec.twoPow 16 3 else 0 :=
    BitVec.and_twoPow madt2.flags 3
  rw [overrideFlags, hpol, htrig]
  rcases madt2.flags.getLsbD 1 with - | -
  · rcases madt2.flags.getLsbD 3 with - | -
    · rfl
    · rfl
  · rfl

/-- The fields of a redirection entry do not overlap. -/
theorem toNat_redirectionEntry {flags : Word} {n : ℕ} (hflags : flags.toNat = 2 ^ 13 * n)
    (hn : n < 2 ^ 43) :
    (redirectionEntry lapicId vector flags).toNat =
      vector.toNat + flags.toNat + 2 ^ 56 * (lapicId.toNat % 2 ^ 8) := by
  have hvector := vector.isLt
  have hlapic := lapicId.isLt
  have hlow : vector.toNat ||| 2 ^ 13 * n = 2 ^ 13 * n + vector.toNat := by
    rw [Nat.or_comm]
    exact (Nat.two_pow_add_eq_or_of_lt (by omega) n).symm
  have hhigh : (lapicId.toNat <<< 56) % 2 ^ 64 = 2 ^ 56 * (lapicId.toNat % 2 ^ 8) := by
    rw [Nat.shiftLeft_eq]
    omega
  rw [redirectionEntry, BitVec.toNat_or, BitVec.toNat_or, BitVec.toNat_shiftLeft,
    BitVec.toNat_setWidth, BitVec.toNat_setWidth,
    Nat.mod_eq_of_lt (show vector.toNat < 2 ^ 64 by omega),
    Nat.mod_eq_of_lt (show lapicId.toNat < 2 ^ 64 by omega), hflags, hlow, hhigh, Nat.or_comm,
    ← Nat.two_pow_add_eq_or_of_lt (by omega)]
  omega

/-- The first loop finds the override of the line. -/
theorem overrideLoop_eq (irq : BitVec 8) (overrides : List MadtEnt2) :
    overrideLoop irq overrides =
      match overrideOf overrides irq with
      | some madt2 => (overrideFlags madt2, madt2.gsi.setWidth 8)
      | none => (0, irq) := by
  induction overrides with
  | nil => rfl
  | cons madt2 rest ih =>
      by_cases hsrc : madt2.irqSrc = irq
      · rw [overrideLoop, if_neg (not_not.mpr hsrc), overrideOf,
          List.find?_cons_of_pos (by simpa using hsrc)]
      · rw [overrideLoop, if_pos hsrc, ih, overrideOf, overrideOf,
          List.find?_cons_of_neg (by simpa using hsrc)]

/-- The entry the code writes. -/
def writtenEntry (overrides : List MadtEnt2) (lapicId : BitVec 32) (vector irq : BitVec 8)
    (mask : Bool) : ℕ :=
  vector.toNat + 2 ^ 13 * (activeLow overrides irq).toNat +
    2 ^ 15 * (!activeLow overrides irq && levelTriggered overrides irq).toNat +
    2 ^ 16 * mask.toNat + 2 ^ 56 * (lapicId.toNat % 2 ^ 8)

/-- The flags of an override and the mask bit do not overlap. -/
theorem toNat_maskedFlags {flags : Word} (low level mask : Bool)
    (hflags : flags.toNat = 2 ^ 13 * low.toNat + 2 ^ 15 * level.toNat) :
    (if mask then flags ||| ioapicIntMask else flags).toNat =
      2 ^ 13 * (low.toNat + 4 * level.toNat + 8 * mask.toNat) := by
  have hlow := Bool.toNat_le low
  have hlevel := Bool.toNat_le level
  rcases mask with - | -
  · show flags.toNat = 2 ^ 13 * (_ + 8 * 0)
    omega
  · show (flags ||| ioapicIntMask).toNat = 2 ^ 13 * (_ + 8 * 1)
    rw [BitVec.toNat_or, Nat.or_comm, show ioapicIntMask.toNat = 2 ^ 16 * 1 from rfl,
      ← Nat.two_pow_add_eq_or_of_lt (by omega)]
    omega

/-- The second loop gets the line's GSI, cut to 8 bits, and the entry. -/
theorem ioapicSetIrqRedirection_eq (overrides : List MadtEnt2) (ioapics : List IoApic)
    (lapicId : BitVec 32) (vector irq : BitVec 8) (mask : Bool) :
    ∃ irq' entry,
      (ioapicSetIrqRedirection overrides ioapics lapicId vector irq mask).2 =
        ioapicLoop irq' entry 0 ioapics ∧
      irq'.toNat = gsiOf overrides irq % 2 ^ 8 ∧
      entry.toNat = writtenEntry overrides lapicId vector irq mask := by
  refine ⟨_, _, rfl, ?_, ?_⟩
  · rw [overrideLoop_eq, gsiOf]
    rcases overrideOf overrides irq with - | madt2
    · exact (Nat.mod_eq_of_lt irq.isLt).symm
    · exact BitVec.toNat_setWidth 8 madt2.gsi
  · have hflags : (overrideLoop irq overrides).1.toNat =
        2 ^ 13 * (activeLow overrides irq).toNat +
          2 ^ 15 * (!activeLow overrides irq && levelTriggered overrides irq).toNat := by
      rw [overrideLoop_eq, activeLow, levelTriggered]
      rcases overrideOf overrides irq with - | madt2
      · rfl
      · exact toNat_overrideFlags madt2
    have hmasked := toNat_maskedFlags _ _ mask hflags
    have hlow := Bool.toNat_le (activeLow overrides irq)
    have hlevel := Bool.toNat_le (!activeLow overrides irq && levelTriggered overrides irq)
    have hmask := Bool.toNat_le mask
    rw [toNat_redirectionEntry hmasked (by omega), hmasked, writtenEntry]
    omega

/-- The code writes the wanted entry unless a level triggered line is active low or the
destination does not fit 8 bits. -/
theorem writtenEntry_eq_iff :
    writtenEntry overrides lapicId vector irq mask = wantedEntry overrides lapicId vector irq mask ↔
      (activeLow overrides irq && levelTriggered overrides irq) = false ∧
        lapicId.toNat < 2 ^ 8 := by
  have hlapic := lapicId.isLt
  unfold writtenEntry wantedEntry
  rcases activeLow overrides irq with - | - <;> rcases levelTriggered overrides irq with - | - <;>
    simp only [Bool.toNat_true, Bool.toNat_false, Bool.not_true, Bool.not_false, Bool.true_and,
      Bool.false_and, reduceCtorEq, true_and, false_and, iff_false] <;>
    omega

end Entry

/-! ### The pin -/

section Pin

variable {irq : BitVec 8} {entry : Word} {io : IoApic} {ioapics : List IoApic} {i k : ℕ}

theorem IoApic.accepts_iff : io.Accepts irq ↔
    irq.toNat ≤ io.maximumRedirectionEntry.toNat ∧ io.madt1.gsiBase.toNat ≤ irq.toNat := by
  have hirq := irq.isLt
  rw [IoApic.Accepts, BitVec.le_def, BitVec.le_def, BitVec.toNat_setWidth,
    Nat.mod_eq_of_lt (show irq.toNat < 2 ^ 32 by omega)]

/-- What an accepted interrupt gets written. -/
theorem ioapicWriteRedirectionTable_map (h : io.Accepts irq) :
    (ioapicWriteRedirectionTable k ((irq.setWidth 32 - io.madt1.gsiBase) * 2) entry).map
        (fun w => (w.ioapic, w.reg.toNat, w.data.toNat)) =
      [(k, 0x10 + 2 * (irq.toNat - io.madt1.gsiBase.toNat), entry.toNat % 2 ^ 32),
        (k, 0x11 + 2 * (irq.toNat - io.madt1.gsiBase.toNat), entry.toNat / 2 ^ 32)] := by
  have hirq := irq.isLt
  have hentry := entry.isLt
  have hbase := (IoApic.accepts_iff.mp h).2
  have hpin : ((irq.setWidth 32 - io.madt1.gsiBase) * 2).toNat =
      2 * (irq.toNat - io.madt1.gsiBase.toNat) := by
    rw [BitVec.toNat_mul, BitVec.toNat_sub, BitVec.toNat_setWidth,
      show (2 : BitVec 32).toNat = 2 from rfl]
    omega
  have hreg : ((irq.setWidth 32 - io.madt1.gsiBase) * 2 + 0x10).toNat =
      0x10 + 2 * (irq.toNat - io.madt1.gsiBase.toNat) := by
    rw [BitVec.toNat_add, hpin, show (0x10 : BitVec 32).toNat = 0x10 from rfl]
    omega
  have hreg' : ((irq.setWidth 32 - io.madt1.gsiBase) * 2 + 0x10 + 1).toNat =
      0x11 + 2 * (irq.toNat - io.madt1.gsiBase.toNat) := by
    rw [BitVec.toNat_add, hreg, show (1 : BitVec 32).toNat = 1 from rfl]
    omega
  have hcut : ∀ x : Word, ((x &&& 0xffffffff).setWidth 32).toNat = x.toNat % 2 ^ 32 := fun x => by
    rw [BitVec.toNat_setWidth, BitVec.toNat_and,
      show (0xffffffff : Word).toNat = 2 ^ 32 - 1 from rfl, Nat.and_two_pow_sub_one_eq_mod,
      Nat.mod_mod]
  have hhigh : (entry >>> 32).toNat % 2 ^ 32 = entry.toNat / 2 ^ 32 := by
    rw [BitVec.toNat_ushiftRight, Nat.shiftRight_eq_div_pow]
    omega
  simp only [ioapicWriteRedirectionTable, List.map_cons, List.map_nil, hreg, hreg', hcut, hhigh]

theorem ioapicLoop_of_none (h : ∀ io ∈ ioapics, ¬ io.Accepts irq) :
    ioapicLoop irq entry i ioapics = [] := by
  induction ioapics generalizing i with
  | nil => rfl
  | cons io rest ih =>
      rw [ioapicLoop, if_neg (h io (List.mem_cons_self ..))]
      exact ih fun io' hio' => h io' (List.mem_cons_of_mem _ hio')

/-- The second loop ends at the first IOAPIC that accepts the interrupt. -/
theorem ioapicLoop_of_first (hio : ioapics[k]? = some io) (hacc : io.Accepts irq)
    (hbefore : ∀ j < k, ∀ io', ioapics[j]? = some io' → ¬ io'.Accepts irq) :
    ioapicLoop irq entry i ioapics =
      ioapicWriteRedirectionTable (i + k) ((irq.setWidth 32 - io.madt1.gsiBase) * 2) entry := by
  induction ioapics generalizing i k with
  | nil => cases hio
  | cons io₀ rest ih =>
      rcases k with - | k
      · cases hio
        exact if_pos hacc
      · rw [ioapicLoop, if_neg (hbefore 0 (Nat.succ_pos k) io₀ rfl), ih hio fun j hj io' hio' =>
          hbefore (j + 1) (Nat.succ_lt_succ hj) io' hio', Nat.add_right_comm, Nat.add_assoc]

end Pin

/-! ### Where the pin is right -/

/-- The second loop takes the IOAPIC for the GSI `n`. -/
def IoApic.Takes (io : IoApic) (n : ℕ) : Prop :=
  n ≤ io.maximumRedirectionEntry.toNat ∧ io.madt1.gsiBase.toNat ≤ n

/-- The GSI that is served fits 8 bits and is not above the number of pins, its line is not
both active low and level triggered, and the destination fits 8 bits; a GSI that is not
served is not taken for one that is. -/
structure PinInReach (overrides : List MadtEnt2) (ioapics : List IoApic) (lapicId : BitVec 32)
    (irq : BitVec 8) : Prop where
  served : ∀ io ∈ ioapics, io.Covers (gsiOf overrides irq) →
    gsiOf overrides irq < 2 ^ 8 ∧ gsiOf overrides irq ≤ io.maximumRedirectionEntry.toNat ∧
      (activeLow overrides irq && levelTriggered overrides irq) = false ∧ lapicId.toNat < 2 ^ 8
  unserved : (∀ io ∈ ioapics, ¬ io.Covers (gsiOf overrides irq)) →
    ∀ io ∈ ioapics, ¬ io.Takes (gsiOf overrides irq % 2 ^ 8)

section Main

variable {overrides : List MadtEnt2} {ioapics : List IoApic} {lapicId : BitVec 32}
  {vector irq : BitVec 8} {mask : Bool} {k : ℕ} {io : IoApic}

theorem IoApic.Takes.covers {n : ℕ} (h : io.Takes n) : io.Covers n :=
  ⟨h.2, Nat.le_trans h.1 (Nat.le_add_left _ _)⟩

/-- Nothing is written if no IOAPIC is taken. -/
theorem redirection_of_none (h : ∀ io ∈ ioapics, ¬ io.Takes (gsiOf overrides irq % 2 ^ 8)) :
    (ioapicSetIrqRedirection overrides ioapics lapicId vector irq mask).2 = [] := by
  obtain ⟨irq', entry, hloop, hirq', -⟩ :=
    ioapicSetIrqRedirection_eq overrides ioapics lapicId vector irq mask
  rw [hloop]
  apply ioapicLoop_of_none
  intro io hio hacc
  rw [IoApic.accepts_iff, hirq'] at hacc
  exact h io hio hacc

/-- What is written if the IOAPIC `k` is the first that is taken. -/
theorem redirection_of_first (hio : ioapics[k]? = some io)
    (htakes : io.Takes (gsiOf overrides irq % 2 ^ 8))
    (hbefore : ∀ j < k, ∀ io', ioapics[j]? = some io' →
      ¬ io'.Takes (gsiOf overrides irq % 2 ^ 8))
    (lapicId : BitVec 32) (vector : BitVec 8) (mask : Bool) :
    (ioapicSetIrqRedirection overrides ioapics lapicId vector irq mask).2.map
        (fun w => (w.ioapic, w.reg.toNat, w.data.toNat)) =
      [(k, 0x10 + 2 * (gsiOf overrides irq % 2 ^ 8 - io.madt1.gsiBase.toNat),
          writtenEntry overrides lapicId vector irq mask % 2 ^ 32),
        (k, 0x11 + 2 * (gsiOf overrides irq % 2 ^ 8 - io.madt1.gsiBase.toNat),
          writtenEntry overrides lapicId vector irq mask / 2 ^ 32)] := by
  obtain ⟨irq', entry, hloop, hirq', hentry⟩ :=
    ioapicSetIrqRedirection_eq overrides ioapics lapicId vector irq mask
  have hacc : ∀ io : IoApic, io.Accepts irq' ↔ io.Takes (gsiOf overrides irq % 2 ^ 8) :=
    fun io => by
      rw [IoApic.accepts_iff, hirq']
      rfl
  rw [hloop, ioapicLoop_of_first hio ((hacc io).mpr htakes) fun j hj io' hio' hacc' =>
    hbefore j hj io' hio' ((hacc io').mp hacc'), Nat.zero_add,
    ioapicWriteRedirectionTable_map ((hacc io).mpr htakes), hirq', hentry]

/-- A pin that is programmed is in reach. -/
theorem ProgramsPin.inReach
    (h : ProgramsPin overrides ioapics lapicId vector irq mask
      (ioapicSetIrqRedirection overrides ioapics lapicId vector irq mask).2) :
    PinInReach overrides ioapics lapicId irq := by
  rcases forall_not_or_exists_first (IoApic.Takes · (gsiOf overrides irq % 2 ^ 8)) ioapics with
    hnone | ⟨k, io, hio, htakes, hbefore⟩
  · refine ⟨fun io hio hcovers => ?_, fun _ => hnone⟩
    -- something had to be written
    obtain ⟨k, hk⟩ := List.mem_iff_getElem?.mp hio
    have hserved := h.served k io hk hcovers
    rw [redirection_of_none hnone] at hserved
    cases hserved
  · have hwrites := redirection_of_first hio htakes hbefore lapicId vector mask
    refine ⟨fun io' hio' hcovers => ?_, fun hunserved => ?_⟩
    · obtain ⟨k', hk'⟩ := List.mem_iff_getElem?.mp hio'
      -- the two writes are the two that were wanted
      have hwanted := h.served k' io' hk' hcovers
      rw [hwrites] at hwanted
      simp only [List.cons.injEq, Prod.mk.injEq, and_true] at hwanted
      obtain ⟨⟨rfl, hreg, hlow⟩, -, hhigh⟩ := hwanted
      obtain rfl : io = io' := Option.some.inj (hio.symm.trans hk')
      have hentry : writtenEntry overrides lapicId vector irq mask =
          wantedEntry overrides lapicId vector irq mask := by omega
      have hgsi : gsiOf overrides irq % 2 ^ 8 = gsiOf overrides irq := by
        have hlo := htakes.2
        have hlo' := hcovers.1
        omega
      have hlt := Nat.mod_lt (gsiOf overrides irq) (show 0 < 2 ^ 8 by decide)
      rw [hgsi] at hlt htakes
      exact ⟨hlt, htakes.1, writtenEntry_eq_iff.mp hentry⟩
    · rw [h.unserved hunserved] at hwrites
      cases hwrites

/-- A pin in reach is programmed. -/
theorem PinInReach.programsPin (hdisjoint : RangesDisjoint ioapics)
    (h : PinInReach overrides ioapics lapicId irq) (vector : BitVec 8) (mask : Bool) :
    ProgramsPin overrides ioapics lapicId vector irq mask
      (ioapicSetIrqRedirection overrides ioapics lapicId vector irq mask).2 := by
  refine ⟨fun k io hio hcovers => ?_, fun hunserved => redirection_of_none (h.unserved hunserved)⟩
  obtain ⟨hlt, hpins, hentry⟩ := h.served io (List.mem_of_getElem? hio) hcovers
  have hgsi : gsiOf overrides irq % 2 ^ 8 = gsiOf overrides irq := Nat.mod_eq_of_lt hlt
  have htakes : io.Takes (gsiOf overrides irq % 2 ^ 8) := by
    rw [hgsi]
    exact ⟨hpins, hcovers.1⟩
  -- an IOAPIC that is taken serves the GSI, and there is only one that does
  rw [redirection_of_first hio htakes fun j hj io' hio' htakes' => ?_, hgsi,
    writtenEntry_eq_iff.mpr hentry]
  have hcovers' := htakes'.covers
  rw [hgsi] at hcovers'
  exact Nat.ne_of_lt hj (hdisjoint j k io' io _ hio' hio hcovers' hcovers)

/-- **Where the right pin is programmed.**  The redirection programs the pin of the line's
GSI with the wanted entry, and no other, if and only if the pin is in reach of the 8-bit
interrupt number, the comparison without the base, the if/else chain and the 8-bit
destination. -/
theorem programs_pin_iff (overrides : List MadtEnt2) (ioapics : List IoApic)
    (hdisjoint : RangesDisjoint ioapics) (lapicId : BitVec 32) (vector irq : BitVec 8)
    (mask : Bool) :
    ProgramsPin overrides ioapics lapicId vector irq mask
        (ioapicSetIrqRedirection overrides ioapics lapicId vector irq mask).2 ↔
      PinInReach overrides ioapics lapicId irq :=
  ⟨fun h => h.inReach, fun h => h.programsPin hdisjoint vector mask⟩

end Main

/-- Two IOAPICs: 24 pins from GSI 0 on, and 8 pins from GSI 24 on. -/
def twoIoApics : List IoApic :=
  [⟨23, ⟨0, 0, 0xfec00000, 0⟩⟩, ⟨7, ⟨1, 0, 0xfec10000, 24⟩⟩]

theorem rangesDisjoint_twoIoApics : RangesDisjoint twoIoApics := by
  intro k k' io io' gsi hio hio' hcovers hcovers'
  rcases k with - | - | k <;> rcases k' with - | - | k' <;>
    simp only [twoIoApics, List.getElem?_cons_zero, List.getElem?_cons_succ, List.getElem?_nil,
      Option.some.injEq, reduceCtorEq] at hio hio'
  · rfl
  · subst hio hio'
    exact absurd (Nat.le_trans hcovers'.1 hcovers.2) (by decide)
  · subst hio hio'
    exact absurd (Nat.le_trans hcovers.1 hcovers'.2) (by decide)
  · rfl

/-- The timer is rerouted from line 0 to GSI 2, the system control interrupt on line 9 is
active low and level triggered, and line 10 goes to the second IOAPIC. -/
def threeOverrides : List MadtEnt2 := [⟨0, 0, 2, 0⟩, ⟨0, 9, 9, 0x0f⟩, ⟨0, 10, 26, 0⟩]

theorem programs_pin_timer :
    ProgramsPin threeOverrides twoIoApics 0 0x20 0 true
      (ioapicSetIrqRedirection threeOverrides twoIoApics 0 0x20 0 true).2 := by
  refine (programs_pin_iff threeOverrides twoIoApics rangesDisjoint_twoIoApics 0 0x20 0 true).mpr
    ⟨?_, fun hunserved => ?_⟩
  · rw [twoIoApics, List.forall_mem_cons, List.forall_mem_singleton]
    refine ⟨fun _ => by decide, fun hcovers => absurd hcovers.1 (by decide)⟩
  · exact absurd ⟨by decide, by decide⟩ (hunserved _ (List.mem_cons_self ..))

/-- Line 9 gets an edge triggered entry, and line 10 gets none. -/
theorem programs_wrong_pin :
    RangesDisjoint twoIoApics ∧
    ¬ ProgramsPin threeOverrides twoIoApics 0 0x29 9 false
      (ioapicSetIrqRedirection threeOverrides twoIoApics 0 0x29 9 false).2 ∧
    ¬ ProgramsPin threeOverrides twoIoApics 0 0x2a 10 false
      (ioapicSetIrqRedirection threeOverrides twoIoApics 0 0x2a 10 false).2 := by
  refine ⟨rangesDisjoint_twoIoApics, fun h => ?_, fun h => ?_⟩
  · exact absurd (h.served 0 _ rfl ⟨by decide, by decide⟩) (by decide)
  · exact absurd (h.served 1 _ rfl ⟨by decide, by decide⟩) (by decide)

end Rock
