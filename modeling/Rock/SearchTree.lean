/-
Rock/SearchTree.lean

Binary trees ordered by a key, where several elements may have the same key.

`search` follows the order and visits both sides only at a node that has the key it looks
for; in an ordered tree it finds all elements with the key (`mem_search_iff`).  `first` is the
element at the end of the left spine, which has the least key (`OrderedOn.first_le`).  Whether
a tree is balanced does not matter here.
-/
import Mathlib.Data.List.Perm.Basic
import Mathlib.Order.Lattice

namespace Rock

/-- A binary tree. -/
inductive SearchTree (α : Type) where
  | nil
  | node (a : α) (l r : SearchTree α)

namespace SearchTree

variable {α : Type}

/-- The elements from left to right. -/
def toList : SearchTree α → List α
  | nil => []
  | node a l r => l.toList ++ a :: r.toList

/-- The element at the root. -/
def root : SearchTree α → Option α
  | nil => none
  | node a _ _ => some a

theorem root_eq_none_iff {t : SearchTree α} : t.root = none ↔ t = nil := by
  cases t with
  | nil => exact iff_of_true rfl rfl
  | node a l r => exact iff_of_false (fun h => by cases h) (fun h => by cases h)

/-- The first element from the left, and the tree to the right of it. -/
def first : SearchTree α → Option (α × SearchTree α)
  | nil => none
  | node a l r => l.first.or (some (a, r))

theorem first_node (a : α) (l r : SearchTree α) :
    (node a l r).first = l.first.or (some (a, r)) := rfl

theorem first_eq_none_iff {t : SearchTree α} : t.first = none ↔ t = nil := by
  cases t with
  | nil => exact iff_of_true rfl rfl
  | node a l r =>
      refine iff_of_false (fun h => ?_) (fun h => by cases h)
      rw [first_node, Option.or_eq_none_iff] at h
      cases h.2

theorem mem_node {a x : α} {l r : SearchTree α} :
    x ∈ (node a l r).toList ↔ x ∈ l.toList ∨ x = a ∨ x ∈ r.toList := by
  simp [toList]

/-- The shape of a red-black tree: whether its root is red, and the number of black nodes on
each way down. -/
inductive RedBlack : Bool → ℕ → SearchTree α → Prop
  | nil : RedBlack false 0 nil
  | red {h : ℕ} {a : α} {l r : SearchTree α} :
      RedBlack false h l → RedBlack false h r → RedBlack true h (node a l r)
  | black {c c' : Bool} {h : ℕ} {a : α} {l r : SearchTree α} :
      RedBlack c h l → RedBlack c' h r → RedBlack false (h + 1) (node a l r)

theorem RedBlack.eq_nil {t : SearchTree α} (h : RedBlack false 0 t) : t = .nil := by
  cases h
  rfl

/-- In a red-black tree, at most one element is below the first one. -/
theorem RedBlack.first_right {c : Bool} {h : ℕ} {t r : SearchTree α} {a : α} (ht : RedBlack c h t)
    (hfirst : t.first = some (a, r)) : r = .nil ∨ ∃ x, r = .node x .nil .nil := by
  induction ht with
  | nil => cases hfirst
  | @red h b l s hl hs ihl _ =>
      rcases hl' : l.first with - | p <;> rw [first_node, hl'] at hfirst
      · obtain rfl := first_eq_none_iff.mp hl'
        obtain ⟨-, rfl⟩ := Prod.mk.inj (Option.some.inj hfirst)
        cases hl
        exact .inl hs.eq_nil
      · exact ihl (hl'.trans hfirst)
  | @black c c' h b l s hl hs ihl _ =>
      rcases hl' : l.first with - | p <;> rw [first_node, hl'] at hfirst
      · obtain rfl := first_eq_none_iff.mp hl'
        obtain ⟨-, rfl⟩ := Prod.mk.inj (Option.some.inj hfirst)
        cases hl
        cases hs with
        | nil => exact .inl rfl
        | red hl₁ hr₁ =>
            rw [hl₁.eq_nil, hr₁.eq_nil]
            exact .inr ⟨_, rfl⟩
      · exact ihl (hl'.trans hfirst)

section Keys

variable {κ : Type} [LinearOrder κ] (key : α → κ)

/-- The keys do not decrease from left to right. -/
def OrderedOn : SearchTree α → Prop
  | nil => True
  | node a l r => (∀ x ∈ l.toList, key x ≤ key a) ∧ (∀ x ∈ r.toList, key a ≤ key x) ∧
      l.OrderedOn ∧ r.OrderedOn

/-- The elements with the key `k`, by the order. -/
def search (k : κ) : SearchTree α → List α
  | nil => []
  | node a l r =>
      if k < key a then l.search k
      else if key a < k then r.search k
      else l.search k ++ a :: r.search k

/-- Insert an element at a leaf, behind the elements with its key. -/
def insert (t : SearchTree α) (x : α) : SearchTree α :=
  match t with
  | nil => node x nil nil
  | node a l r => if key x < key a then node a (l.insert x) r else node a l (r.insert x)

variable {key}

/-- **The search finds exactly the elements with the key.** -/
theorem mem_search_iff {t : SearchTree α} (h : t.OrderedOn key) {k : κ} {x : α} :
    x ∈ t.search key k ↔ x ∈ t.toList ∧ key x = k := by
  induction t with
  | nil => exact iff_of_false List.not_mem_nil fun hc => List.not_mem_nil hc.1
  | node a l r ihl ihr =>
      obtain ⟨hleft, hright, hl, hr⟩ := h
      rw [search, mem_node]
      split_ifs with hlt hgt
      · -- the root and all to its right have a larger key
        rw [ihl hl]
        refine ⟨fun hx => ⟨.inl hx.1, hx.2⟩, ?_⟩
        rintro ⟨hx | rfl | hx, rfl⟩
        · exact ⟨hx, rfl⟩
        · exact absurd hlt (lt_irrefl _)
        · exact absurd (hright x hx) (not_le.mpr hlt)
      · rw [ihr hr]
        refine ⟨fun hx => ⟨.inr (.inr hx.1), hx.2⟩, ?_⟩
        rintro ⟨hx | rfl | hx, rfl⟩
        · exact absurd (hleft x hx) (not_le.mpr hgt)
        · exact absurd hgt (lt_irrefl _)
        · exact ⟨hx, rfl⟩
      · have hkey : key a = k := le_antisymm (not_lt.mp hlt) (not_lt.mp hgt)
        rw [List.mem_append, List.mem_cons, ihl hl, ihr hr]
        constructor
        · rintro (hx | rfl | hx)
          · exact ⟨.inl hx.1, hx.2⟩
          · exact ⟨.inr (.inl rfl), hkey⟩
          · exact ⟨.inr (.inr hx.1), hx.2⟩
        · rintro ⟨hx | rfl | hx, hk⟩
          · exact .inl ⟨hx, hk⟩
          · exact .inr (.inl rfl)
          · exact .inr (.inr ⟨hx, hk⟩)

theorem mem_of_first {t r : SearchTree α} {a : α} (h : t.first = some (a, r)) :
    a ∈ t.toList ∧ ∀ x ∈ r.toList, x ∈ t.toList := by
  induction t with
  | nil => cases h
  | node b l s ihl _ =>
      rw [first_node] at h
      rcases hl : l.first with - | p
      · rw [hl] at h
        obtain ⟨rfl, rfl⟩ := Prod.mk.inj (Option.some.inj h)
        exact ⟨mem_node.mpr (.inr (.inl rfl)), fun x hx => mem_node.mpr (.inr (.inr hx))⟩
      · rw [hl] at h
        obtain ⟨ha, hr⟩ := ihl (hl.trans h)
        exact ⟨mem_node.mpr (.inl ha), fun x hx => mem_node.mpr (.inl (hr x hx))⟩

/-- **The first element has the least key.** -/
theorem OrderedOn.first_le {t r : SearchTree α} {a : α} (ht : t.OrderedOn key)
    (h : t.first = some (a, r)) : ∀ x ∈ t.toList, key a ≤ key x := by
  induction t with
  | nil => cases h
  | node b l s ihl _ =>
      obtain ⟨hleft, hright, hl, -⟩ := ht
      rw [first_node] at h
      rcases hfirst : l.first with - | p
      · rw [hfirst] at h
        obtain ⟨rfl, rfl⟩ := Prod.mk.inj (Option.some.inj h)
        obtain rfl := first_eq_none_iff.mp hfirst
        intro x hx
        rcases mem_node.mp hx with hx | rfl | hx
        · cases hx
        · exact le_refl _
        · exact hright x hx
      · rw [hfirst] at h
        have hmin := ihl hl (hfirst.trans h)
        have hroot : key a ≤ key b := hleft a (mem_of_first (hfirst.trans h)).1
        intro x hx
        rcases mem_node.mp hx with hx | rfl | hx
        · exact hmin x hx
        · exact hroot
        · exact hroot.trans (hright x hx)

theorem insert_perm (t : SearchTree α) (x : α) : (t.insert key x).toList.Perm (x :: t.toList) := by
  induction t with
  | nil => exact .refl _
  | node a l r ihl ihr =>
      rw [insert]
      split_ifs
      · exact ihl.append_right _
      · refine ((ihr.cons a).append_left l.toList).trans ?_
        exact ((List.Perm.swap x a r.toList).append_left l.toList).trans List.perm_middle

theorem OrderedOn.insert {t : SearchTree α} (h : t.OrderedOn key) (x : α) :
    (t.insert key x).OrderedOn key := by
  induction t with
  | nil => exact ⟨nofun, nofun, trivial, trivial⟩
  | node a l r ihl ihr =>
      obtain ⟨hleft, hright, hl, hr⟩ := h
      rw [SearchTree.insert]
      split_ifs with hlt
      · refine ⟨fun y hy => ?_, hright, ihl hl, hr⟩
        rcases List.mem_cons.mp ((insert_perm l x).mem_iff.mp hy) with rfl | hy
        · exact hlt.le
        · exact hleft y hy
      · refine ⟨hleft, fun y hy => ?_, hl, ihr hr⟩
        rcases List.mem_cons.mp ((insert_perm r x).mem_iff.mp hy) with rfl | hy
        · exact not_lt.mp hlt
        · exact hright y hy

/-- A tree of the elements of a list. -/
def ofList (key : α → κ) : List α → SearchTree α
  | [] => nil
  | x :: xs => (ofList key xs).insert key x

theorem ofList_spec (xs : List α) :
    (ofList key xs).OrderedOn key ∧ (ofList key xs).toList.Perm xs := by
  induction xs with
  | nil => exact ⟨trivial, .refl _⟩
  | cons x xs ih => exact ⟨ih.1.insert x, (insert_perm _ x).trans (ih.2.cons x)⟩

end Keys

end SearchTree

end Rock
