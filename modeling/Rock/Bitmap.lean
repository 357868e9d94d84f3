/-
Rock/Bitmap.lean

Bitmaps with a size, and the loops allocators run over them.

A bitmap is a size and a total assignment of bits; an access at or beyond the
size is a `Fault.wild`, so a proof that an operation returns is a proof that
it stays inside the bitmap.  The loops are the ones every bitmap allocator is
made of: set a range, clear a range, look for a clear bit, and look whether a
whole range is clear.

A `Ledger` is a list of nonempty, pairwise disjoint blocks of positions, and
`Tracks bm off bs` says that the bitmap, laid over the positions from `off` on,
has exactly the bits of the blocks `bs` set.  Setting a range enters a block
(`Tracks.enter`), clearing the range of a block strikes it off
(`Tracks.strike`), and a block elsewhere changes nothing (`Tracks.enter_apart`,
`Tracks.strike_apart`).  Several bitmaps can so share one ledger.
-/
import Rock.Exec
import Mathlib.Data.List.Pairwise
import Mathlib.Data.List.Nodup
import Mathlib.Tactic

namespace Rock

/-- `size` bits; what `bits` says beyond `size` is never accessible. -/
structure Bitmap where
  size : ℕ
  bits : ℕ → Bool

namespace Bitmap

/-! ### Single bits -/

/-- Read bit `j`. -/
def test (bm : Bitmap) (j : ℕ) : Exec Bool :=
  if j < bm.size then .ok (bm.bits j) else .error .wild

/-- Write bit `j`. -/
def put (bm : Bitmap) (j : ℕ) (v : Bool) : Exec Bitmap :=
  if j < bm.size then .ok { bm with bits := Function.update bm.bits j v }
  else .error .wild

theorem test_of_lt {bm : Bitmap} {j : ℕ} (h : j < bm.size) :
    bm.test j = .ok (bm.bits j) := if_pos h

theorem put_of_lt {bm : Bitmap} {j : ℕ} (h : j < bm.size) (v : Bool) :
    bm.put j v = .ok { bm with bits := Function.update bm.bits j v } := if_pos h

/-! ### Ranges -/

/-- The bitmap with the `n` bits from `i` on equal to `v`. -/
def fill (bm : Bitmap) (i n : ℕ) (v : Bool) : Bitmap :=
  { bm with bits := fun k => if i ≤ k ∧ k < i + n then v else bm.bits k }

@[simp] theorem fill_size (bm : Bitmap) (i n : ℕ) (v : Bool) :
    (bm.fill i n v).size = bm.size := rfl

theorem fill_bits (bm : Bitmap) (i n : ℕ) (v : Bool) (k : ℕ) :
    (bm.fill i n v).bits k = if i ≤ k ∧ k < i + n then v else bm.bits k := rfl

@[simp] theorem fill_zero (bm : Bitmap) (i : ℕ) (v : Bool) : bm.fill i 0 v = bm := by
  obtain ⟨size, bits⟩ := bm
  simp only [fill, mk.injEq, true_and]
  funext k
  rw [if_neg (by omega)]

/-- Filling one bit and then the rest of a range fills the range. -/
theorem fill_succ (bm : Bitmap) (i n : ℕ) (v : Bool) :
    (Bitmap.mk bm.size (Function.update bm.bits i v)).fill (i + 1) n v
      = bm.fill i (n + 1) v := by
  simp only [fill, mk.injEq, true_and]
  funext k
  by_cases hk : k = i
  · subst hk
    rw [if_neg (by omega), if_pos (by omega), Function.update_self]
  · rw [Function.update_of_ne hk]
    by_cases h : i + 1 ≤ k ∧ k < i + 1 + n
    · rw [if_pos h, if_pos (by omega)]
    · rw [if_neg h, if_neg (by omega)]

/-- Write `v` to the `n` bits from `i` on, one after the other. -/
def putRange (bm : Bitmap) (v : Bool) : (n i : ℕ) → Exec Bitmap
  | 0, _ => .ok bm
  | n + 1, i => do
      let bm' ← bm.put i v
      bm'.putRange v n (i + 1)

theorem putRange_eq {v : Bool} {n i : ℕ} {bm : Bitmap} (h : i + n ≤ bm.size) :
    bm.putRange v n i = .ok (bm.fill i n v) := by
  induction n generalizing i bm with
  | zero => simp [putRange]
  | succ n ih =>
      rw [putRange, put_of_lt (by omega), Exec.ok_bind, ih (by simp; omega)]
      rw [fill_succ]

/-- A range that reaches beyond the bitmap cannot be written. -/
theorem putRange_wild {v : Bool} {n i : ℕ} {bm : Bitmap} (hn : 0 < n)
    (h : bm.size < i + n) : bm.putRange v n i = .error .wild := by
  induction n generalizing i bm with
  | zero => omega
  | succ n ih =>
      by_cases hi : i < bm.size
      · rw [putRange, put_of_lt hi, Exec.ok_bind]
        exact ih (by omega) (by simp; omega)
      · rw [putRange, put, if_neg hi, Exec.error_bind]

/-- The first clear bit among the `n` bits from `j` on. -/
def findClear (bm : Bitmap) : (n j : ℕ) → Exec (Option ℕ)
  | 0, _ => .ok none
  | n + 1, j => do
      if ← bm.test j then bm.findClear n (j + 1) else .ok (some j)

/-- The search for a clear bit returns, with a position in the range. -/
theorem findClear_eq {n j : ℕ} {bm : Bitmap} (h : j + n ≤ bm.size) :
    ∃ r, bm.findClear n j = .ok r ∧ ∀ z, r = some z → j ≤ z ∧ z < j + n := by
  induction n generalizing j with
  | zero => exact ⟨none, rfl, by simp⟩
  | succ n ih =>
      rw [findClear, test_of_lt (by omega), Exec.ok_bind]
      cases hb : bm.bits j with
      | false => exact ⟨some j, rfl, by rintro z ⟨⟩; omega⟩
      | true =>
          obtain ⟨r, hr, hz⟩ := ih (j := j + 1) (by omega)
          refine ⟨r, hr, fun z hrz => ?_⟩
          have := hz z hrz
          omega

end Bitmap

/-! ### Ledgers of blocks -/

/-- A block of `len` consecutive positions starting at `first`. -/
structure Block where
  first : ℕ
  len : ℕ
  deriving DecidableEq, Repr

namespace Block

/-- Position `k` belongs to the block. -/
def Has (b : Block) (k : ℕ) : Prop := b.first ≤ k ∧ k < b.first + b.len

instance (b : Block) (k : ℕ) : Decidable (b.Has k) :=
  inferInstanceAs (Decidable (_ ∧ _))

/-- Two blocks have no position in common. -/
def Apart (b c : Block) : Prop := ∀ k, ¬ (b.Has k ∧ c.Has k)

/-- Every position of `b` is one of `c`. -/
def Within (b c : Block) : Prop := c.first ≤ b.first ∧ b.first + b.len ≤ c.first + c.len

instance (b c : Block) : Decidable (b.Within c) :=
  inferInstanceAs (Decidable (_ ∧ _))

theorem Apart.symm {b c : Block} (h : b.Apart c) : c.Apart b :=
  fun k hk => h k hk.symm

instance : Std.Symm Apart := ⟨fun _ _ h => h.symm⟩

theorem has_first {b : Block} (h : 0 < b.len) : b.Has b.first := ⟨le_refl _, by omega⟩

theorem Within.has {b c : Block} (h : b.Within c) {k : ℕ} (hk : b.Has k) : c.Has k :=
  ⟨h.1.trans hk.1, lt_of_lt_of_le hk.2 h.2⟩

theorem Within.apart {b c d : Block} (h : b.Within c) (hcd : c.Apart d) : b.Apart d :=
  fun k hk => hcd k ⟨h.has hk.1, hk.2⟩

/-- Nonempty blocks that are apart are different. -/
theorem Apart.ne {b c : Block} (hb : 0 < b.len) (h : b.Apart c) : b ≠ c := by
  rintro rfl
  exact h b.first ⟨has_first hb, has_first hb⟩

end Block

/-- Nonempty, pairwise disjoint blocks. -/
structure Ledger (bs : List Block) : Prop where
  nonempty : ∀ b ∈ bs, 0 < b.len
  apart : bs.Pairwise Block.Apart

namespace Ledger

variable {bs : List Block}

theorem nil : Ledger [] := ⟨by simp, List.Pairwise.nil⟩

theorem nodup (h : Ledger bs) : bs.Nodup :=
  h.apart.imp_of_mem fun hb _ hbc => hbc.ne (h.nonempty _ hb)

/-- Two blocks of a ledger are equal or apart. -/
theorem eq_or_apart (h : Ledger bs) {b c : Block} (hb : b ∈ bs) (hc : c ∈ bs) :
    b = c ∨ b.Apart c := by
  by_cases hbc : b = c
  · exact .inl hbc
  · exact .inr (h.apart.forall hb hc hbc)

theorem cons (h : Ledger bs) {b : Block} (hb : 0 < b.len)
    (hap : ∀ c ∈ bs, b.Apart c) : Ledger (b :: bs) where
  nonempty := by
    simp only [List.mem_cons, forall_eq_or_imp]
    exact ⟨hb, h.nonempty⟩
  apart := List.pairwise_cons.mpr ⟨hap, h.apart⟩

theorem erase (h : Ledger bs) (b : Block) : Ledger (bs.erase b) where
  nonempty := fun c hc => h.nonempty c (List.mem_of_mem_erase hc)
  apart := h.apart.sublist List.erase_sublist

theorem mem_erase_iff (h : Ledger bs) {b c : Block} :
    c ∈ bs.erase b ↔ c ≠ b ∧ c ∈ bs := h.nodup.mem_erase_iff

end Ledger

namespace Bitmap

/-- The positions a bitmap stands for when its bit 0 stands for `off`. -/
def span (bm : Bitmap) (off : ℕ) : Block := ⟨off, bm.size⟩

/-- Over the positions from `off` on, the set bits are exactly those of the
blocks `bs`. -/
def Tracks (bm : Bitmap) (off : ℕ) (bs : List Block) : Prop :=
  ∀ k < bm.size, bm.bits k = true ↔ ∃ b ∈ bs, b.Has (off + k)

theorem tracks_nil (n off : ℕ) : (Bitmap.mk n fun _ => false).Tracks off [] := by
  intro k _
  simp

namespace Tracks

variable {bm : Bitmap} {off : ℕ} {bs : List Block}

/-- Setting a range enters its block. -/
theorem enter (h : bm.Tracks off bs) (i n : ℕ) :
    (bm.fill i n true).Tracks off (⟨off + i, n⟩ :: bs) := by
  intro k hk
  rw [fill_bits]
  simp only [List.mem_cons, exists_eq_or_imp, Block.Has]
  by_cases hin : i ≤ k ∧ k < i + n
  · rw [if_pos hin]
    exact ⟨fun _ => .inl (by omega), fun _ => rfl⟩
  · rw [if_neg hin, h k hk]
    exact ⟨.inr, fun h' => h'.resolve_left (by omega)⟩

/-- A block outside the bitmap's span may be entered elsewhere. -/
theorem enter_apart (h : bm.Tracks off bs) {b : Block} (hb : b.Apart (bm.span off)) :
    bm.Tracks off (b :: bs) := by
  intro k hk
  have hno : ¬ b.Has (off + k) := fun hbk => hb (off + k) ⟨hbk, by simp [span, Block.Has, hk]⟩
  simp only [List.mem_cons, exists_eq_or_imp]
  rw [h k hk]
  exact ⟨.inr, fun h' => h'.resolve_left hno⟩

/-- A clear range meets no block. -/
theorem apart_of_clear (h : bm.Tracks off bs) {i n : ℕ} (hsize : i + n ≤ bm.size)
    (hclear : ∀ k, i ≤ k → k < i + n → bm.bits k = false) {b : Block} (hb : b ∈ bs) :
    Block.Apart ⟨off + i, n⟩ b := by
  rintro k ⟨⟨h1, h2⟩, hbk⟩
  simp only at h1 h2
  obtain ⟨d, rfl⟩ := Nat.exists_eq_add_of_le (show off ≤ k by omega)
  have hset := (h d (by omega)).mpr ⟨b, hb, hbk⟩
  rw [hclear d (by omega) (by omega)] at hset
  cases hset

/-- Clearing the range of a block strikes it off. -/
theorem strike (h : bm.Tracks off bs) (hl : Ledger bs) {i n : ℕ}
    (hb : (⟨off + i, n⟩ : Block) ∈ bs) :
    (bm.fill i n false).Tracks off (bs.erase ⟨off + i, n⟩) := by
  intro k hk
  rw [fill_bits]
  by_cases hin : i ≤ k ∧ k < i + n
  · have hbk : Block.Has ⟨off + i, n⟩ (off + k) := by simp only [Block.Has]; omega
    rw [if_pos hin]
    refine ⟨by simp, ?_⟩
    rintro ⟨c, hc, hck⟩
    obtain ⟨hne, hcbs⟩ := hl.mem_erase_iff.mp hc
    rcases hl.eq_or_apart hcbs hb with heq | hap
    · exact absurd heq hne
    · exact absurd ⟨hck, hbk⟩ (hap _)
  · rw [if_neg hin, h k hk]
    constructor
    · rintro ⟨c, hc, hck⟩
      refine ⟨c, hl.mem_erase_iff.mpr ⟨?_, hc⟩, hck⟩
      rintro rfl
      simp only [Block.Has] at hck
      omega
    · rintro ⟨c, hc, hck⟩
      exact ⟨c, (hl.mem_erase_iff.mp hc).2, hck⟩

/-- A block outside the bitmap's span may be struck off elsewhere. -/
theorem strike_apart (h : bm.Tracks off bs) (hl : Ledger bs) {b : Block}
    (hb : b.Apart (bm.span off)) : bm.Tracks off (bs.erase b) := by
  intro k hk
  rw [h k hk]
  constructor
  · rintro ⟨c, hc, hck⟩
    refine ⟨c, hl.mem_erase_iff.mpr ⟨?_, hc⟩, hck⟩
    rintro rfl
    exact hb _ ⟨hck, by simp [span, Block.Has, hk]⟩
  · rintro ⟨c, hc, hck⟩
    exact ⟨c, (hl.mem_erase_iff.mp hc).2, hck⟩

end Tracks

end Bitmap

end Rock
