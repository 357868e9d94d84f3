/-
Rock/RefCount.lean

Objects that are counted, and memories from which objects are taken.

`releaseAll` gives up references one after the other, and an object goes back when its last
one is given up.  If there are counts enough, the objects that go back are those whose count
is the number of the references given up, each of them once (`exists_freed`); the order of
the references does not matter.

`eraseAll` takes objects out of a partial memory.
-/
import Mathlib.Algebra.Group.Int.Defs
import Mathlib.Data.List.Induction
import Mathlib.Data.List.Nodup
import Mathlib.Tactic.SplitIfs

namespace Rock

/-! ### Reference counts -/

/-- The counts of references, with the objects that went back, oldest first. -/
structure RefCounts (α : Type) where
  count : α → ℤ
  freed : List α

namespace RefCounts

variable {α : Type} [DecidableEq α]

/-- A reference to `a` is given up. -/
def release (s : RefCounts α) (a : α) : RefCounts α where
  count := Function.update s.count a (s.count a - 1)
  freed := if s.count a - 1 = 0 then s.freed ++ [a] else s.freed

/-- The references of `as` are given up. -/
def releaseAll (s : RefCounts α) (as : List α) : RefCounts α := as.foldl release s

variable (s : RefCounts α) (as bs : List α) (a : α)

theorem releaseAll_append : s.releaseAll (as ++ bs) = (s.releaseAll as).releaseAll bs :=
  List.foldl_append

theorem releaseAll_concat : s.releaseAll (as ++ [a]) = (s.releaseAll as).release a :=
  releaseAll_append s as [a]

theorem count_releaseAll : (s.releaseAll as).count a = s.count a - as.count a := by
  induction as using List.reverseRecOn with
  | nil => exact (Int.sub_zero _).symm
  | append_singleton as b ih =>
      rw [releaseAll_concat, release, List.count_append, Int.natCast_add]
      dsimp only
      rcases eq_or_ne a b with rfl | hne
      · rw [Function.update_self, ih, List.count_singleton_self]
        omega
      · rw [Function.update_of_ne hne, ih, List.count_singleton, if_neg (by simpa using hne.symm)]
        omega

/-- What went back before stays in front. -/
theorem freed_releaseAll :
    (s.releaseAll as).freed = s.freed ++ (RefCounts.releaseAll ⟨s.count, []⟩ as).freed := by
  induction as using List.reverseRecOn with
  | nil => exact (List.append_nil _).symm
  | append_singleton as b ih =>
      have hcount :
          (s.releaseAll as).count b = (RefCounts.releaseAll ⟨s.count, []⟩ as).count b := by
        rw [count_releaseAll, count_releaseAll]
      rw [releaseAll_concat, releaseAll_concat, release, release, hcount]
      dsimp only
      split_ifs
      · rw [ih, List.append_assoc]
      · exact ih

/-- **What goes back**: the objects whose count is the number of references that are given up,
each of them once. -/
theorem exists_freed (hcount : ∀ a, (as.count a : ℤ) ≤ s.count a) :
    ∃ back, (s.releaseAll as).freed = s.freed ++ back ∧ back.Nodup ∧
      ∀ a, a ∈ back ↔ a ∈ as ∧ s.count a = as.count a := by
  induction as using List.reverseRecOn with
  | nil => exact ⟨[], (List.append_nil _).symm, List.nodup_nil, fun a => by simp⟩
  | append_singleton as b ih =>
      have hb := hcount b
      rw [List.count_append, List.count_singleton_self] at hb
      obtain ⟨back, hfreed, hnodup, hmem⟩ := ih fun a => by
        have ha := hcount a
        rw [List.count_append] at ha
        omega
      -- before the last reference the count of `b` was not used up
      have hnot : b ∉ back := fun hc => by
        have hc := ((hmem b).mp hc).2
        omega
      have hlast : (s.releaseAll as).count b - 1 = 0 ↔ s.count b = (as ++ [b]).count b := by
        rw [count_releaseAll, List.count_append, List.count_singleton_self]
        omega
      have hother : ∀ a ≠ b, (a ∈ as ++ [b] ↔ a ∈ as) ∧ (as ++ [b]).count a = as.count a := by
        intro a hne
        rw [List.mem_append, List.mem_singleton, List.count_append, List.count_singleton,
          if_neg (by simpa using hne.symm)]
        exact ⟨or_iff_left hne, rfl⟩
      rw [releaseAll_concat, release]
      dsimp only
      rw [hfreed]
      by_cases hzero : (s.releaseAll as).count b - 1 = 0
      · refine ⟨back ++ [b], ?_, ?_, fun a => ?_⟩
        · rw [if_pos hzero, List.append_assoc]
        · exact hnodup.append (List.nodup_singleton b) (List.disjoint_singleton.mpr hnot)
        · rcases eq_or_ne a b with rfl | hne
          · exact iff_of_true (by simp) ⟨by simp, hlast.mp hzero⟩
          · rw [(hother a hne).1, (hother a hne).2, ← hmem a, List.mem_append,
              List.mem_singleton, or_iff_left hne]
      · refine ⟨back, if_neg hzero, hnodup, fun a => ?_⟩
        rcases eq_or_ne a b with rfl | hne
        · exact iff_of_false hnot fun hc => hzero (hlast.mpr hc.2)
        · rw [(hother a hne).1, (hother a hne).2, hmem a]

end RefCounts

/-! ### Memories -/

section Memories

variable {α β : Type} [DecidableEq α] {m : α → Option β} {as bs : List α} {a : α}

/-- The memory without the objects at `as`. -/
def eraseAll (m : α → Option β) (as : List α) : α → Option β := fun a =>
  if a ∈ as then none else m a

theorem eraseAll_nil : eraseAll m [] = m := funext fun _ => if_neg List.not_mem_nil

theorem eraseAll_of_notMem (h : a ∉ as) : eraseAll m as a = m a := if_neg h

theorem eraseAll_append : eraseAll (eraseAll m as) bs = eraseAll m (as ++ bs) := by
  funext a
  by_cases hb : a ∈ bs
  · rw [eraseAll, if_pos hb, eraseAll, if_pos (List.mem_append_right _ hb)]
  · rw [eraseAll_of_notMem hb]
    exact if_congr (by simp [hb]) rfl rfl

end Memories

end Rock
