/-
Rock/LinkedList.lean

Doubly linked lists: two partial maps `next` and `last` between nodes, and the list of nodes
that is met from a head along `next`.

`Linked` says this by recursion on the list and fixes both links of every node, so that one
induction gives what the links have to do with each other (`Linked.next_eq_iff`) and which
nodes are met from the head (`Linked.reaches_iff`).  A list is kept by a write to the links of
other nodes (`Linked.congr`) and grows at its front (`IsList.push`).
-/
import Mathlib.Data.List.Nodup
import Mathlib.Logic.Relation

namespace Rock

variable {α : Type*} {next last next' last' : α → Option α} {before head : Option α}
  {l : List α} {a b new : α}

/-- From `head` along `next` one meets the nodes `l` and then the end, and the `last` of each
is the one met before it; that of the first is `before`. -/
def Linked (next last : α → Option α) : Option α → Option α → List α → Prop
  | _, head, [] => head = none
  | before, head, a :: l => head = some a ∧ last a = before ∧ Linked next last (some a) (next a) l

/-- The doubly linked list from `head` is `l`, and no node is met twice. -/
structure IsList (next last : α → Option α) (head : Option α) (l : List α) : Prop where
  linked : Linked next last none head l
  nodup : l.Nodup

namespace Linked

theorem head_eq (h : Linked next last before head l) : head = l.head? := by
  cases l with
  | nil => exact h
  | cons a l => exact h.1

/-- The nodes of a list are those that are met from its head. -/
theorem reaches_iff (h : Linked next last before head l) :
    (∃ c, head = some c ∧ Relation.ReflTransGen (fun a b => next a = some b) c b) ↔ b ∈ l := by
  induction l generalizing before head with
  | nil =>
      refine iff_of_false ?_ List.not_mem_nil
      rintro ⟨c, hc, -⟩
      cases hc.symm.trans h
  | cons a l ih =>
      obtain ⟨hhead, -, htail⟩ := h
      rw [List.mem_cons, ← ih htail]
      constructor
      · rintro ⟨c, hc, hreach⟩
        obtain rfl := Option.some.inj (hc.symm.trans hhead)
        rcases hreach.cases_head with heq | ⟨d, hd, hreach⟩
        · exact .inl heq.symm
        · exact .inr ⟨d, hd, hreach⟩
      · rintro (rfl | ⟨d, hd, hreach⟩)
        · exact ⟨b, hhead, .refl⟩
        · exact ⟨a, hhead, .head hd hreach⟩

/-- Only the links of the nodes of a list matter to it. -/
theorem congr (h : Linked next last before head l) (hnext : ∀ a ∈ l, next' a = next a)
    (hlast : ∀ a ∈ l, last' a = last a) : Linked next' last' before head l := by
  induction l generalizing before head with
  | nil => exact h
  | cons a l ih =>
      obtain ⟨hhead, hbefore, htail⟩ := h
      refine ⟨hhead, (hlast a List.mem_cons_self).trans hbefore, ?_⟩
      rw [hnext a List.mem_cons_self]
      exact ih htail (fun b hb => hnext b (List.mem_cons_of_mem a hb))
        fun b hb => hlast b (List.mem_cons_of_mem a hb)

theorem last_of_next (h : Linked next last before head l) (ha : a ∈ l) (hab : next a = some b) :
    last b = some a := by
  induction l generalizing before head with
  | nil => exact absurd ha List.not_mem_nil
  | cons c l ih =>
      obtain ⟨-, -, htail⟩ := h
      rcases List.mem_cons.mp ha with rfl | ha
      · -- the successor of the first node is the first of the rest
        cases l with
        | nil => exact absurd (hab.symm.trans htail) (Option.some_ne_none b)
        | cons d l =>
            obtain rfl := Option.some.inj (hab.symm.trans htail.1)
            exact htail.2.1
      · exact ih htail ha

theorem next_of_last (h : Linked next last before head l) (hb : b ∈ l) (hba : last b = some a) :
    before = some a ∧ head = some b ∨ next a = some b := by
  induction l generalizing before head with
  | nil => exact absurd hb List.not_mem_nil
  | cons c l ih =>
      obtain ⟨hhead, hbefore, htail⟩ := h
      rcases List.mem_cons.mp hb with rfl | hb
      · exact .inl ⟨hbefore.symm.trans hba, hhead⟩
      · rcases ih htail hb with ⟨hca, hnext⟩ | hnext
        · obtain rfl := Option.some.inj hca
          exact .inr hnext
        · exact .inr hnext

/-- **The two links are inverse to each other.** -/
theorem next_eq_iff (h : Linked next last none head l) (ha : a ∈ l) (hb : b ∈ l) :
    next a = some b ↔ last b = some a := by
  refine ⟨h.last_of_next ha, fun hba => ?_⟩
  rcases h.next_of_last hb hba with ⟨hc, -⟩ | hnext
  · exact absurd hc (Option.some_ne_none a).symm
  · exact hnext

end Linked

namespace IsList

theorem nil : IsList next last none [] := ⟨rfl, List.nodup_nil⟩

theorem congr (h : IsList next last head l) (hnext : ∀ a ∈ l, next' a = next a)
    (hlast : ∀ a ∈ l, last' a = last a) : IsList next' last' head l :=
  ⟨h.linked.congr hnext hlast, h.nodup⟩

/-- **A node is put in front of a list**: it points to the old head, and the old head back
to it. -/
theorem push (h : IsList next last head l) (hnew : new ∉ l) (hfront : next' new = head)
    (hfirst : last' new = none) (hback : ∀ a, head = some a → last' a = some new)
    (hnext : ∀ a ∈ l, next' a = next a) (hlast : ∀ a ∈ l, head ≠ some a → last' a = last a) :
    IsList next' last' (some new) (new :: l) := by
  refine ⟨⟨rfl, hfirst, ?_⟩, List.nodup_cons.mpr ⟨hnew, h.nodup⟩⟩
  rw [hfront]
  cases l with
  | nil => exact h.linked
  | cons a l =>
      -- of the old nodes only the head gets another `last`
      obtain ⟨hhead, -, htail⟩ := h.linked
      have hne (b : α) (hb : b ∈ l) : head ≠ some b := by
        rw [hhead]
        rintro ⟨⟩
        exact (List.nodup_cons.mp h.nodup).1 hb
      refine ⟨hhead, hback a hhead, ?_⟩
      rw [hnext a List.mem_cons_self]
      exact htail.congr (fun b hb => hnext b (List.mem_cons_of_mem a hb))
        fun b hb => hlast b (List.mem_cons_of_mem a hb) (hne b hb)

end IsList

end Rock
