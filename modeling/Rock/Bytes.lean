/-
Rock/Bytes.lean

Memory as bytes, and the little-endian numbers in it.

`le m off n` is the number in the `n` bytes at `off`, and `putLe m off n v` the memory
after `v` was written there.  A write comes with what it leaves alone, and `le_congr`
says that a number depends on its own bytes only.  `copyIn` is `memcpy` from an object
whose surroundings may be read too, and `HasBytes` says which list of bytes lies at an
offset.
-/
import Mathlib.Data.Int.Notation
import Mathlib.Logic.Function.Basic
import Mathlib.Tactic.Ring

namespace Rock

/-- A memory, or a file: the byte at every offset. -/
abbrev Bytes := ℕ → BitVec 8

/-! ### Numbers -/

/-- The little-endian number in the `n` bytes at `off`. -/
def le (m : Bytes) (off : ℕ) : ℕ → ℕ
  | 0 => 0
  | n + 1 => (m off).toNat + 256 * le m (off + 1) n

/-- The memory after the `n` bytes at `off` got the number `v`. -/
def putLe (m : Bytes) (off : ℕ) : ℕ → ℕ → Bytes
  | 0, _ => m
  | n + 1, v => putLe (Function.update m off (BitVec.ofNat 8 v)) (off + 1) n (v / 256)

section Numbers

variable {m m' : Bytes} {off n v : ℕ}

theorem le_congr (h : ∀ k, off ≤ k → k < off + n → m k = m' k) : le m off n = le m' off n := by
  induction n generalizing off with
  | zero => rfl
  | succ n ih =>
      rw [le, le, h off (le_refl _) (by omega)]
      exact congrArg _ (congrArg _ (ih fun k h₁ h₂ => h k (by omega) (by omega)))

/-- A number is the same wherever its bytes are. -/
theorem le_shift {off' : ℕ} (h : ∀ k < n, m (off + k) = m' (off' + k)) :
    le m off n = le m' off' n := by
  induction n generalizing off off' with
  | zero => rfl
  | succ n ih =>
      have hhead : m off = m' off' := h 0 n.succ_pos
      rw [le, le, hhead]
      apply congrArg _ (congrArg _ (ih fun k hk => ?_))
      rw [Nat.add_assoc, Nat.add_comm 1, Nat.add_assoc, Nat.add_comm 1]
      exact h (k + 1) (Nat.succ_lt_succ hk)

theorem le_lt (m : Bytes) (off n : ℕ) : le m off n < 256 ^ n := by
  induction n generalizing off with
  | zero => exact Nat.one_pos
  | succ n ih =>
      have hbyte := (m off).isLt
      have hrest := ih (off + 1)
      rw [le, Nat.pow_succ]
      omega

/-- A number is zero if and only if its bytes are. -/
theorem le_eq_zero_iff : le m off n = 0 ↔ ∀ k, off ≤ k → k < off + n → m k = 0 := by
  induction n generalizing off with
  | zero => exact iff_of_true rfl fun k h₁ h₂ => by omega
  | succ n ih =>
      have hhead : (m off).toNat = 0 ↔ m off = 0 :=
        ⟨fun h => BitVec.eq_of_toNat_eq h, fun h => congrArg BitVec.toNat h⟩
      rw [le, Nat.add_eq_zero_iff, hhead, Nat.mul_eq_zero, or_iff_right (by decide), ih]
      constructor
      · rintro ⟨h₀, hrest⟩ k h₁ h₂
        rcases Nat.eq_or_lt_of_le h₁ with rfl | hlt
        · exact h₀
        · exact hrest k hlt (by omega)
      · intro h
        exact ⟨h off (le_refl _) (by omega), fun k h₁ h₂ => h k (by omega) (by omega)⟩

/-- A write changes only its own bytes. -/
theorem putLe_of_outside {k : ℕ} (h : k < off ∨ off + n ≤ k) : putLe m off n v k = m k := by
  induction n generalizing m off v with
  | zero => rfl
  | succ n ih =>
      rw [putLe, ih (by omega), Function.update_of_ne (by omega)]

/-- What was written is read back. -/
theorem le_putLe (hv : v < 256 ^ n) : le (putLe m off n v) off n = v := by
  induction n generalizing m off v with
  | zero =>
      rw [Nat.pow_zero] at hv
      show 0 = v
      omega
  | succ n ih =>
      rw [Nat.pow_succ] at hv
      rw [le, putLe, ih (by omega), putLe_of_outside (.inl (by omega)), Function.update_self,
        BitVec.toNat_ofNat]
      omega

/-- A write elsewhere does not change a number. -/
theorem le_putLe_of_apart {off' n' : ℕ} (h : off' + n' ≤ off ∨ off + n ≤ off') :
    le (putLe m off n v) off' n' = le m off' n' :=
  le_congr fun k h₁ h₂ => putLe_of_outside (by omega)

end Numbers

/-- The 32-bit number at `off`. -/
def int32 (m : Bytes) (off : ℕ) : BitVec 32 := BitVec.ofNat 32 (le m off 4)

/-- Write a 32-bit number at `off`. -/
def putInt32 (m : Bytes) (off : ℕ) (v : BitVec 32) : Bytes := putLe m off 4 v.toNat

section Ints

variable {m : Bytes} {off : ℕ} {v : BitVec 32}

theorem int32_putInt32 : int32 (putInt32 m off v) off = v := by
  rw [int32, putInt32, le_putLe v.isLt, BitVec.ofNat_toNat, BitVec.setWidth_eq]

theorem int32_eq_zero_iff : int32 m off = 0 ↔ ∀ k, off ≤ k → k < off + 4 → m k = 0 := by
  rw [← le_eq_zero_iff]
  constructor
  · intro h
    have hlt : le m off 4 < 2 ^ 32 := le_lt m off 4
    have hnat := congrArg BitVec.toNat h
    rwa [int32, BitVec.toNat_ofNat, Nat.mod_eq_of_lt hlt] at hnat
  · intro h
    rw [int32, h]
    rfl

theorem int32_congr {m' : Bytes} (h : ∀ k, off ≤ k → k < off + 4 → m k = m' k) :
    int32 m off = int32 m' off := congrArg _ (le_congr h)

theorem putInt32_of_outside {k : ℕ} (h : k < off ∨ off + 4 ≤ k) : putInt32 m off v k = m k :=
  putLe_of_outside h

end Ints

/-- The 16-bit number at `off`. -/
def int16 (m : Bytes) (off : ℕ) : BitVec 16 := BitVec.ofNat 16 (le m off 2)

/-- A 64-bit number, taken as an `int`. -/
theorem toInt_setWidth (x : BitVec 64) : (x.setWidth 32).toInt =
    if x.toNat % 2 ^ 32 < 2 ^ 31 then (x.toNat % 2 ^ 32 : ℤ) else x.toNat % 2 ^ 32 - 2 ^ 32 := by
  rw [BitVec.toInt_eq_toNat_cond, BitVec.toNat_setWidth]
  split_ifs <;> omega

/-! ### Copies -/

/-- The memory around an object, by the offset from the object's start. -/
abbrev Image := ℤ → BitVec 8

/-- `memcpy`: the memory after `n` bytes of `image`, from `start` on, were copied to `dst`. -/
def copyIn (m : Bytes) (dst : ℕ) (image : Image) (start : ℤ) (n : ℕ) : Bytes := fun k =>
  if dst ≤ k ∧ k < dst + n then image (start + (k - dst : ℕ)) else m k

section Copies

variable {m : Bytes} {dst n k : ℕ} {image : Image} {start : ℤ}

theorem copyIn_of_outside (h : k < dst ∨ dst + n ≤ k) : copyIn m dst image start n k = m k := by
  apply if_neg
  rintro ⟨hlo, hhi⟩
  omega

/-- Nothing is copied. -/
theorem copyIn_zero (m : Bytes) (dst : ℕ) (image : Image) (start : ℤ) :
    copyIn m dst image start 0 = m := by
  funext k
  exact copyIn_of_outside (by omega)

theorem copyIn_inside (h : k < n) : copyIn m dst image start n (dst + k) = image (start + k) := by
  show (if dst ≤ dst + k ∧ dst + k < dst + n then _ else _) = _
  rw [if_pos ⟨Nat.le_add_right dst k, Nat.add_lt_add_left h dst⟩, Nat.add_sub_cancel_left]

end Copies

/-! ### Lists of bytes -/

/-- The bytes of `l` lie at `off`. -/
def HasBytes (m : Bytes) (off : ℕ) (l : List (BitVec 8)) : Prop :=
  ∀ k (h : k < l.length), m (off + k) = l[k]

/-- The memory that starts with `l`. -/
def bytesOf (l : List (BitVec 8)) : Bytes := fun k => l.getD k 0

section Lists

variable {m : Bytes} {off : ℕ} {a : BitVec 8} {l l' : List (BitVec 8)}

theorem hasBytes_bytesOf (l : List (BitVec 8)) : HasBytes (bytesOf l) 0 l := by
  intro k hk
  rw [Nat.zero_add, bytesOf, List.getD_eq_getElem?_getD, List.getElem?_eq_getElem hk,
    Option.getD_some]

theorem HasBytes.head (h : HasBytes m off (a :: l)) : m off = a :=
  h 0 (Nat.succ_pos _)

theorem HasBytes.tail (h : HasBytes m off (a :: l)) : HasBytes m (off + 1) l := by
  intro k hk
  have hcell := h (k + 1) (Nat.succ_lt_succ hk)
  rwa [← Nat.add_assoc, Nat.add_right_comm, List.getElem_cons_succ] at hcell

theorem HasBytes.left (h : HasBytes m off (l ++ l')) : HasBytes m off l := by
  intro k hk
  rw [h k (by rw [List.length_append]; omega), List.getElem_append_left hk]

theorem HasBytes.right (h : HasBytes m off (l ++ l')) : HasBytes m (off + l.length) l' := by
  intro k hk
  have hcell := h (l.length + k) (by rw [List.length_append]; omega)
  rwa [← Nat.add_assoc, List.getElem_append_right (Nat.le_add_right _ _),
    getElem_congr_idx (Nat.add_sub_cancel_left l.length k)] at hcell

end Lists

end Rock
