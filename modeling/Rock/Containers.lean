/-
Rock/Containers.lean

Two containers that can fail: a map whose operations may report an error instead of
answering, and a source of fresh numbers that can run out.

Each comes with what it stands for, `contents` and `used`, and with laws that say what an
operation does to that.  The laws leave open when an operation fails.
-/
import Mathlib.Data.Set.Insert
import Mathlib.Logic.Function.Basic

namespace Rock

/-! ### Maps -/

/-- A map from `K` to `V` with a representation `T`.  A search gives an error (`none`) or
what is stored; a push says whether it worked. -/
structure FallibleMap (K V T : Type) [DecidableEq K] where
  empty : T
  search : T → K → Option (Option V)
  push : T → K → V → Bool × T
  contents : T → K → Option V
  contents_empty : ∀ k, contents empty k = none
  search_eq : ∀ {t k r}, search t k = some r → r = contents t k
  push_true : ∀ {t k v}, (push t k v).1 = true → contents t k = none →
    contents (push t k v).2 = Function.update (contents t) k (some v)
  push_false : ∀ {t k v}, (push t k v).1 = false → contents (push t k v).2 = contents t

/-- The map that never fails. -/
def FallibleMap.function (K V : Type) [DecidableEq K] : FallibleMap K V (K → Option V) where
  empty _ := none
  search t k := some (t k)
  push t k v := (true, Function.update t k (some v))
  contents := id
  contents_empty _ := rfl
  search_eq h := (Option.some.inj h).symm
  push_true _ _ := rfl
  push_false h := Bool.noConfusion h

/-! ### Numbers -/

/-- A source of numbers with a representation `B`. -/
structure IdSource (B : Type) where
  empty : B
  alloc : B → Option (ℕ × B)
  used : B → Set ℕ
  alloc_fresh : ∀ {b i b'}, alloc b = some (i, b') → i ∉ used b
  alloc_used : ∀ {b i b'}, alloc b = some (i, b') → used b' = insert i (used b)

/-- The next number, if it is below `n`. -/
def nextBelow (n b : ℕ) : Option (ℕ × ℕ) := if b < n then some (b, b + 1) else none

theorem nextBelow_eq_some {n b i b' : ℕ} (h : nextBelow n b = some (i, b')) :
    i = b ∧ b' = b + 1 := by
  rw [nextBelow] at h
  split at h
  · cases h
    exact ⟨rfl, rfl⟩
  · cases h

theorem nextBelow_fresh {n b i b' : ℕ} (h : nextBelow n b = some (i, b')) : i ∉ {j | j < b} := by
  obtain ⟨rfl, rfl⟩ := nextBelow_eq_some h
  exact Nat.lt_irrefl i

theorem nextBelow_used {n b i b' : ℕ} (h : nextBelow n b = some (i, b')) :
    {j | j < b'} = insert i {j | j < b} := by
  obtain ⟨rfl, rfl⟩ := nextBelow_eq_some h
  ext j
  show j < i + 1 ↔ j = i ∨ j < i
  exact Nat.lt_succ_iff_lt_or_eq.trans or_comm

/-- The numbers below `n`, in order. -/
def IdSource.below (n : ℕ) : IdSource ℕ where
  empty := 0
  alloc := nextBelow n
  used b := {j | j < b}
  alloc_fresh := nextBelow_fresh
  alloc_used := nextBelow_used

end Rock
