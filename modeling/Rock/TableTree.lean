/-
Rock/TableTree.lean

Trees of tables kept in a flat store of frames.

A store gives every frame a table of entries; an entry may refer to another
frame (`child`).  From a root, a list of indices leads to a table (`tableAt`),
and several roots make a forest.  Nothing in the store itself prevents two
paths from meeting in one frame, in which case a write below one of them is
seen below the other.  `Separated` excludes that: different paths (of at most
`d` indices) end in different frames.

Under `Separated` a write is local.  The three writes a page-table
walk makes are treated here:

* a write in a table at full depth changes that table only (`put_last`);
* a write of an entry without a child cuts off what was below it
  (`put_cut`);
* a write of an entry that refers to a fresh blank frame grows the forest by
  one table (`put_link`).

Each keeps `Separated` and says what every table of the new forest holds.
-/
import Mathlib.Data.List.Infix
import Mathlib.Logic.Function.Basic
import Mathlib.Tactic

namespace Rock

namespace TableTree

variable {R F I E : Type*} [DecidableEq F] [DecidableEq I]
variable (child : E → Option F)

/-! ### Paths -/

/-- The table that the indices `p` lead to from the table `t`. -/
def tableAt (mem : F → I → E) (t : F) : List I → Option F
  | [] => some t
  | i :: p => (child (mem t i)).bind fun t' => tableAt mem t' p

/-- Different paths of at most `d` indices end in different frames. -/
def Separated (root : R → F) (d : ℕ) (mem : F → I → E) : Prop :=
  ∀ ⦃r q r' q' t⦄, q.length ≤ d → q'.length ≤ d →
    tableAt child mem (root r) q = some t → tableAt child mem (root r') q' = some t →
    r = r' ∧ q = q'

/-- Write one entry. -/
def put (mem : F → I → E) (t : F) (i : I) (e : E) : F → I → E :=
  Function.update mem t (Function.update (mem t) i e)

@[simp] theorem put_self (mem : F → I → E) (t : F) (i : I) (e : E) :
    put mem t i e t i = e := by
  simp [put]

theorem put_of_ne {mem : F → I → E} {t s : F} {i j : I} (e : E)
    (h : s ≠ t ∨ j ≠ i) : put mem t i e s j = mem s j := by
  unfold put
  by_cases hs : s = t
  · subst hs
    rw [Function.update_self, Function.update_of_ne (h.resolve_left fun hn => hn rfl)]
  · rw [Function.update_of_ne hs]

theorem put_same_table (mem : F → I → E) (t : F) (i : I) (e : E) :
    put mem t i e t = Function.update (mem t) i e := by
  simp [put]

theorem put_other_table {mem : F → I → E} {t s : F} (i : I) (e : E) (h : s ≠ t) :
    put mem t i e s = mem s := by
  simp [put, h]

variable {child} {mem : F → I → E} {root : R → F} {d : ℕ}

omit [DecidableEq F] [DecidableEq I] in
theorem tableAt_append (t : F) (p q : List I) :
    tableAt child mem t (p ++ q)
      = (tableAt child mem t p).bind fun s => tableAt child mem s q := by
  induction p generalizing t with
  | nil => rfl
  | cons i p ih =>
      show (child (mem t i)).bind _ = ((child (mem t i)).bind _).bind _
      rcases child (mem t i) with - | s
      · rfl
      · exact ih s

omit [DecidableEq F] [DecidableEq I] in
theorem tableAt_snoc (t : F) (p : List I) (i : I) :
    tableAt child mem t (p ++ [i])
      = (tableAt child mem t p).bind fun s => child (mem s i) := by
  rw [tableAt_append]
  rcases tableAt child mem t p with - | s
  · rfl
  · show (child (mem s i)).bind some = child (mem s i)
    exact Option.bind_fun_some _

/-! ### Writes are local -/

section Put

variable {r : R} {p : List I} {t : F} {i : I} {e : E}

/-- A write at `(p, i)` is not seen on paths that do not continue there. -/
theorem tableAt_put_aside (hsep : Separated child root d mem)
    (ht : tableAt child mem (root r) p = some t) (hp : p.length ≤ d)
    {r' : R} {q : List I} (hq : q.length ≤ d + 1) (hpre : ¬ (r' = r ∧ p ++ [i] <+: q)) :
    tableAt child (put mem t i e) (root r') q = tableAt child mem (root r') q := by
  induction q using List.reverseRecOn with
  | nil => rfl
  | append_singleton q j ih =>
      have hlen : q.length ≤ d := by simpa using hq
      have hpre' : ¬ (r' = r ∧ p ++ [i] <+: q) := fun h =>
        hpre ⟨h.1, h.2.trans (List.prefix_append _ _)⟩
      rw [tableAt_snoc, tableAt_snoc, ih (by omega) hpre']
      rcases hs : tableAt child mem (root r') q with - | s
      · rfl
      · -- the entry read here is the written one only if the paths agree
        have hne : s ≠ t ∨ j ≠ i := by
          by_contra hcon
          push Not at hcon
          obtain ⟨rfl, rfl⟩ := hcon
          obtain ⟨rfl, rfl⟩ := hsep hlen hp hs ht
          exact hpre ⟨rfl, List.prefix_refl _⟩
        show child (put mem t i e s j) = child (mem s j)
        rw [put_of_ne e hne]

/-- A path up to the written entry is as before. -/
theorem tableAt_put_self (hsep : Separated child root d mem)
    (ht : tableAt child mem (root r) p = some t) (hp : p.length ≤ d) :
    tableAt child (put mem t i e) (root r) p = some t := by
  rw [tableAt_put_aside hsep ht hp (by omega), ht]
  rintro ⟨-, hpre⟩
  have := hpre.length_le
  simp at this

/-- Behind the written entry the path goes on where the entry says. -/
theorem tableAt_put_through (hsep : Separated child root d mem)
    (ht : tableAt child mem (root r) p = some t) (hp : p.length ≤ d) (q : List I) :
    tableAt child (put mem t i e) (root r) (p ++ i :: q)
      = (child e).bind fun s => tableAt child (put mem t i e) s q := by
  rw [tableAt_append, tableAt_put_self hsep ht hp]
  show (child (put mem t i e t i)).bind _ = _
  rw [put_self]

/-- A write in a table at full depth leaves every path of the forest alone. -/
theorem tableAt_put_last (hsep : Separated child root d mem)
    (ht : tableAt child mem (root r) p = some t) (hp : p.length = d)
    {r' : R} {q : List I} (hq : q.length ≤ d) :
    tableAt child (put mem t i e) (root r') q = tableAt child mem (root r') q := by
  refine tableAt_put_aside hsep ht hp.le (by omega) ?_
  rintro ⟨-, hpre⟩
  have := hpre.length_le
  simp at this
  omega

theorem Separated.put_last (hsep : Separated child root d mem)
    (ht : tableAt child mem (root r) p = some t) (hp : p.length = d) :
    Separated child root d (put mem t i e) := by
  intro r₁ q₁ r₂ q₂ s h₁ h₂ hs₁ hs₂
  rw [tableAt_put_last hsep ht hp h₁] at hs₁
  rw [tableAt_put_last hsep ht hp h₂] at hs₂
  exact hsep h₁ h₂ hs₁ hs₂

/-- An entry without a child cuts off the paths through it and no other. -/
theorem tableAt_put_cut (hsep : Separated child root d mem)
    (ht : tableAt child mem (root r) p = some t) (hp : p.length ≤ d) (he : child e = none)
    {r' : R} {q : List I} (hq : q.length ≤ d) {s : F} :
    tableAt child (put mem t i e) (root r') q = some s ↔
      tableAt child mem (root r') q = some s ∧ ¬ (r' = r ∧ p ++ [i] <+: q) := by
  by_cases hpre : r' = r ∧ p ++ [i] <+: q
  · obtain ⟨rfl, q', rfl⟩ := hpre
    rw [List.append_assoc, List.singleton_append, tableAt_put_through hsep ht hp, he]
    simp
  · rw [tableAt_put_aside hsep ht hp (by omega) hpre]
    exact ⟨fun h => ⟨h, hpre⟩, fun h => h.1⟩

theorem Separated.put_cut (hsep : Separated child root d mem)
    (ht : tableAt child mem (root r) p = some t) (hp : p.length ≤ d) (he : child e = none) :
    Separated child root d (put mem t i e) := by
  intro r₁ q₁ r₂ q₂ s h₁ h₂ hs₁ hs₂
  rw [tableAt_put_cut hsep ht hp he h₁] at hs₁
  rw [tableAt_put_cut hsep ht hp he h₂] at hs₂
  exact hsep h₁ h₂ hs₁.1 hs₂.1

end Put

/-! ### Fresh frames -/

/-- No path of the forest ends in the frame `f`. -/
def Fresh (child : E → Option F) (root : R → F) (d : ℕ) (mem : F → I → E) (f : F) : Prop :=
  ∀ r q, q.length ≤ d → tableAt child mem (root r) q ≠ some f

section Link

variable {r : R} {p : List I} {t f : F} {i : I} {e : E} {blank : I → E}

omit [DecidableEq I] in
/-- What a fresh frame holds does not matter to any path. -/
theorem tableAt_update_fresh (hf : Fresh child root d mem f) {r' : R} {q : List I}
    (hq : q.length ≤ d) :
    tableAt child (Function.update mem f blank) (root r') q = tableAt child mem (root r') q := by
  induction q using List.reverseRecOn with
  | nil => rfl
  | append_singleton q j ih =>
      have hlen : q.length ≤ d := by
        have : (q ++ [j]).length = q.length + 1 := by simp
        omega
      rw [tableAt_snoc, tableAt_snoc, ih hlen]
      rcases hs : tableAt child mem (root r') q with - | s
      · rfl
      · have hne : s ≠ f := by
          rintro rfl
          exact hf r' q hlen hs
        show child (Function.update mem f blank s j) = _
        rw [Function.update_of_ne hne]
        rfl

omit [DecidableEq I] in
theorem Separated.update_fresh (hsep : Separated child root d mem)
    (hf : Fresh child root d mem f) :
    Separated child root d (Function.update mem f blank) := by
  intro r₁ q₁ r₂ q₂ s h₁ h₂ hs₁ hs₂
  rw [tableAt_update_fresh hf h₁] at hs₁
  rw [tableAt_update_fresh hf h₂] at hs₂
  exact hsep h₁ h₂ hs₁ hs₂

/-- The store after a fresh blank frame has been entered at `(t, i)`. -/
def link (mem : F → I → E) (blank : I → E) (f t : F) (i : I) (e : E) : F → I → E :=
  put (Function.update mem f blank) t i e

variable (hsep : Separated child root d mem) (ht : tableAt child mem (root r) p = some t)
  (hp : p.length < d) (hf : Fresh child root d mem f) (he : child e = some f)
  (hblank : ∀ j, child (blank j) = none) (hold : child (mem t i) = none)

include hsep ht hp hf he hblank hold

/-- **Linking a fresh table** adds the one path to it. -/
theorem tableAt_link {r' : R} {q : List I} (hq : q.length ≤ d) {s : F} :
    tableAt child (link mem blank f t i e) (root r') q = some s ↔
      (r' = r ∧ q = p ++ [i] ∧ s = f) ∨ tableAt child mem (root r') q = some s := by
  have hsep' : Separated child root d (Function.update mem f blank) := hsep.update_fresh hf
  have ht' : tableAt child (Function.update mem f blank) (root r) p = some t := by
    rw [tableAt_update_fresh hf hp.le, ht]
  have htf : f ≠ t := by
    rintro rfl
    exact hf r p hp.le ht
  by_cases hpre : r' = r ∧ p ++ [i] <+: q
  · obtain ⟨rfl, q', rfl⟩ := hpre
    -- before the write nothing was below the entry
    have hnone : tableAt child mem (root r') (p ++ [i] ++ q') = none := by
      rw [tableAt_append, tableAt_snoc, ht]
      show ((child (mem t i)).bind _) = none
      rw [hold]
      rfl
    rw [hnone, link, List.append_assoc, List.singleton_append,
      tableAt_put_through hsep' ht' hp.le, he]
    cases q' with
    | nil =>
        show some f = some s ↔ _
        simp [eq_comm]
    | cons j q' =>
        -- the fresh table is blank: no path goes on from it
        show (child (put (Function.update mem f blank) t i e f j)).bind _ = some s ↔ _
        rw [put_of_ne e (.inl htf), Function.update_self, hblank j]
        simp
  · rw [link, tableAt_put_aside hsep' ht' hp.le (by omega) hpre,
      tableAt_update_fresh hf hq]
    constructor
    · exact .inr
    · rintro (⟨rfl, rfl, -⟩ | h)
      · exact absurd ⟨rfl, List.prefix_refl _⟩ hpre
      · exact h

theorem Separated.put_link : Separated child root d (link mem blank f t i e) := by
  intro r₁ q₁ r₂ q₂ s h₁ h₂ hs₁ hs₂
  rw [tableAt_link hsep ht hp hf he hblank hold h₁] at hs₁
  rw [tableAt_link hsep ht hp hf he hblank hold h₂] at hs₂
  rcases hs₁ with ⟨rfl, rfl, rfl⟩ | hs₁ <;> rcases hs₂ with ⟨rfl, rfl, h⟩ | hs₂
  · exact ⟨rfl, rfl⟩
  · exact absurd hs₂ (hf r₂ q₂ h₂)
  · subst h
    exact absurd hs₁ (hf r₁ q₁ h₁)
  · exact hsep h₁ h₂ hs₁ hs₂

end Link

end TableTree

end Rock
