/-
Rock/SchedChoice.lean

What a scheduler server chooses (servers/sched/sched.c): the thread that runs next
(`traverse_and_queue` and the refill loop of `sched`), and the core that a thread is offloaded to
(`notify_enqueue_thread`).

* `traverse_and_queue` goes down from the root to a leaf.  In a tree that is ordered by virtual
  runtime the comparison of the two children always says left, so the descent reaches the thread
  with the least virtual runtime, which is the first one; but there it goes on into the subtree
  to the right of it, if there is one.  For an empty tree it returns 0, with the null pointer.
* The walk over the descriptors keeps the one with the greater load.

Main results: in a red-black tree, the thread is one with the least virtual runtime if and only
if the first thread has nothing below it, or one thread with the same virtual runtime
(`picks_least_iff`); and the core is one with the least load if and only if all loads are the
same (`offloads_least_iff`).
-/
import Rock.SchedServer

namespace Rock

/-! ### The thread that runs next -/

/-- The loop of `traverse_and_queue`: from a node to one of its children, up to a leaf. -/
def traverse : SearchTree ThreadNode → Option ThreadNode
  | .nil => none
  | .node a l r =>
      match l.root, r.root with
      | some x, some y => if y.vruntime < x.vruntime then traverse r else traverse l
      | some _, none => traverse l
      | none, some _ => traverse r
      | none, none => some a

/-- `traverse_and_queue`: what is returned, and what is stored in `*thread`; `thread` is whether
the pointer is given. -/
def traverseAndQueue (tree : SearchTree ThreadNode) (thread : Bool) : ℤ × Option ThreadNode :=
  if thread then (0, traverse tree) else (-1, none)

/-- The refill loop of `sched` for `n` rounds: the arguments of the calls of
`circular_queue_push`.  `link` is whether `OPERATE_LINK` succeeds, `push` what the call after some
others returns. -/
def refill (link : Bool) (push : List (Option ThreadNode) → ℤ) (tree : SearchTree ThreadNode) :
    ℕ → List (Option ThreadNode) → List (Option ThreadNode)
  | 0, pushed => pushed
  | n + 1, pushed =>
      if link then
        let (ret, thread) := traverseAndQueue tree true
        if ret ≠ -1 then
          if push pushed = -1 then pushed ++ [thread]
          else refill link push tree n (pushed ++ [thread])
        else pushed
      else pushed

/-- **The thread with the least virtual runtime is picked**: from a tree with threads one of
them, and from an empty tree none, so that nothing is pushed. -/
structure PicksLeast (tree : SearchTree ThreadNode) : Prop where
  least : tree ≠ .nil → ∃ x ∈ tree.toList, traverseAndQueue tree true = (0, some x) ∧
    ∀ y ∈ tree.toList, x.vruntime ≤ y.vruntime
  empty : tree = .nil → (traverseAndQueue tree true).1 = -1 ∧
    ∀ link push n, refill link push tree n [] = []

section Traverse

variable {tree r : SearchTree ThreadNode} {a x : ThreadNode}

theorem traverse_mem (h : traverse tree = some x) : x ∈ tree.toList := by
  induction tree with
  | nil => cases h
  | node a l r ihl ihr =>
      rw [traverse] at h
      rw [SearchTree.mem_node]
      split at h
      · split_ifs at h
        · exact .inr (.inr (ihr h))
        · exact .inl (ihl h)
      · exact .inl (ihl h)
      · exact .inr (.inr (ihr h))
      · exact .inr (.inl (Option.some.inj h).symm)

theorem traverse_isSome (h : tree ≠ .nil) : (traverse tree).isSome := by
  induction tree with
  | nil => exact absurd rfl h
  | node a l r ihl ihr =>
      have hl : l.root.isSome → (traverse l).isSome := by
        intro hroot
        refine ihl fun hnil => ?_
        rw [SearchTree.root_eq_none_iff.mpr hnil] at hroot
        cases hroot
      have hr : r.root.isSome → (traverse r).isSome := by
        intro hroot
        refine ihr fun hnil => ?_
        rw [SearchTree.root_eq_none_iff.mpr hnil] at hroot
        cases hroot
      rw [traverse]
      split
      · next hx hy =>
          split_ifs
          · exact hr (by rw [hy]; rfl)
          · exact hl (by rw [hx]; rfl)
      · next hx _ => exact hl (by rw [hx]; rfl)
      · next _ hy => exact hr (by rw [hy]; rfl)
      · rfl

/-- A node with a left child is left to the left: that child is not greater than the node, and
the right child is not smaller. -/
theorem traverse_left {l : SearchTree ThreadNode}
    (ht : (SearchTree.node a l r).OrderedOn ThreadNode.vruntime) (hl : l ≠ .nil) :
    traverse (.node a l r) = traverse l := by
  obtain ⟨hleft, hright, -⟩ := ht
  cases l with
  | nil => exact absurd rfl hl
  | node b l' r' =>
      cases r with
      | nil => rfl
      | node c l'' r'' =>
          have hb : b.vruntime ≤ a.vruntime := hleft b (SearchTree.mem_node.mpr (.inr (.inl rfl)))
          have hc : a.vruntime ≤ c.vruntime := hright c (SearchTree.mem_node.mpr (.inr (.inl rfl)))
          exact if_neg (not_lt.mpr (hb.trans hc))

/-- **In an ordered tree** the descent goes left as long as it can, to the first thread, and from
there on into what is to the right of it. -/
theorem traverse_eq (ht : tree.OrderedOn ThreadNode.vruntime) (h : tree.first = some (a, r)) :
    traverse tree = (traverse r).or (some a) := by
  induction tree with
  | nil => cases h
  | node b l s ihl _ =>
      rw [SearchTree.first_node] at h
      by_cases hl : l = .nil
      · subst hl
        obtain ⟨rfl, rfl⟩ := Prod.mk.inj (Option.some.inj h)
        cases s with
        | nil => rfl
        | node c l' r' =>
            have hsome : (traverse (.node c l' r')).isSome := traverse_isSome fun hc => by cases hc
            rw [Option.or_of_isSome hsome]
            rfl
      · obtain ⟨p, hp⟩ := Option.ne_none_iff_exists'.mp (mt SearchTree.first_eq_none_iff.mp hl)
        rw [hp, Option.some_or] at h
        rw [traverse_left ht hl]
        exact ihl ht.2.2.1 (hp.trans h)

/-- **When the thread with the least virtual runtime is picked.**  For every red-black tree that
is ordered by virtual runtime: there is a first thread, and what is below it, one thread at
most, has the same virtual runtime. -/
theorem picks_least_iff {c : Bool} {h : ℕ} (hrb : tree.RedBlack c h)
    (ht : tree.OrderedOn ThreadNode.vruntime) :
    PicksLeast tree ↔ ∃ a r, tree.first = some (a, r) ∧
      ∀ x ∈ r.toList, x.vruntime = a.vruntime := by
  constructor
  · rintro ⟨hleast, hempty⟩
    by_cases hnil : tree = .nil
    · -- an empty tree is not told from one with threads
      exact absurd (hempty hnil).1 (show ¬ (0 : ℤ) = -1 by decide)
    obtain ⟨⟨a, r⟩, hfirst⟩ := Option.ne_none_iff_exists'.mp
      (mt SearchTree.first_eq_none_iff.mp hnil)
    refine ⟨a, r, hfirst, fun x hx => ?_⟩
    obtain ⟨y, hy, hret, hmin⟩ := hleast hnil
    have htraverse : traverse tree = some y := congrArg Prod.snd hret
    rw [traverse_eq ht hfirst] at htraverse
    rcases hrb.first_right hfirst with rfl | ⟨z, rfl⟩
    · cases hx
    · -- the descent ends at the one thread below the first
      obtain rfl : z = y := Option.some.inj htraverse
      obtain rfl : x = z := List.mem_singleton.mp hx
      exact le_antisymm (hmin a (SearchTree.mem_of_first hfirst).1) (ht.first_le hfirst x hy)
  · rintro ⟨a, r, hfirst, hright⟩
    have hnil : tree ≠ .nil := fun hnil => by
      rw [SearchTree.first_eq_none_iff.mpr hnil] at hfirst
      cases hfirst
    refine ⟨fun _ => ?_, fun h => absurd h hnil⟩
    obtain ⟨x, hx⟩ := Option.isSome_iff_exists.mp (traverse_isSome hnil)
    have hkey : x.vruntime = a.vruntime := by
      rw [traverse_eq ht hfirst] at hx
      rcases hr : traverse r with - | y
      · rw [hr, Option.none_or] at hx
        rw [Option.some.inj hx]
      · rw [hr, Option.some_or] at hx
        rw [← Option.some.inj hx]
        exact hright y (traverse_mem hr)
    refine ⟨x, traverse_mem hx, congrArg (Prod.mk 0) hx, fun y hy => ?_⟩
    rw [hkey]
    exact ht.first_le hfirst y hy

end Traverse

/-- A thread with this virtual runtime. -/
def threadWith (addr : ℕ) (vruntime : BitVec 32) : ThreadNode := ⟨addr, ⟨0, 0, 0, vruntime, 0⟩⟩

/-- Three threads, the first to the left of the root: it is picked. -/
theorem picks_least_three :
    PicksLeast (.node (threadWith 0 5) (.node (threadWith 1 3) .nil .nil)
      (.node (threadWith 2 8) .nil .nil)) := by
  have hred : ∀ x : ThreadNode, (SearchTree.node x .nil .nil).RedBlack true 0 := fun _ =>
    .red .nil .nil
  refine (picks_least_iff (.black (hred _) (hred _)) ?_).mpr
    ⟨threadWith 1 3, .nil, rfl, fun x hx => by cases hx⟩
  simp [SearchTree.OrderedOn, SearchTree.toList, threadWith, ThreadNode.vruntime]

/-- **A thread that is not the least**: the root has only a right child, and that is picked.  In
an empty tree the null pointer is picked, and pushed in each round. -/
theorem picks_greater :
    (SearchTree.node (threadWith 0 3) .nil (.node (threadWith 1 8) .nil .nil)).RedBlack false 1 ∧
    traverseAndQueue (.node (threadWith 0 3) .nil (.node (threadWith 1 8) .nil .nil)) true
      = (0, some (threadWith 1 8)) ∧
    ¬ PicksLeast (.node (threadWith 0 3) .nil (.node (threadWith 1 8) .nil .nil)) ∧
    traverseAndQueue .nil true = (0, none) ∧
    refill true (fun _ => 0) .nil 2 [] = [none, none] ∧ ¬ PicksLeast .nil := by
  refine ⟨.black .nil (.red .nil .nil), rfl, fun h => ?_, rfl, rfl, fun h => ?_⟩
  · obtain ⟨x, -, hx, hmin⟩ := h.least fun hc => by cases hc
    obtain rfl : threadWith 1 8 = x := Option.some.inj (congrArg Prod.snd hx)
    exact absurd (hmin (threadWith 0 3) (by simp [SearchTree.toList])) (by decide)
  · exact absurd (h.empty rfl).1 (by decide)

/-! ### The core that a thread is offloaded to -/

/-- The descriptor for an element that is best so far: `none` is the server's own. -/
def chosenFrom (own : ServerDescriptor) (m : Bytes) (best : Option ℕ) : ServerDescriptor :=
  (best.map (serverDescriptor m)).getD own

/-- **A thread is offloaded to a core with the least load**: the descriptor that is chosen has a
load that is not greater than any, and a request stays here if no load is less than the one
here. -/
structure OffloadsLeast (fayt : RbLib) (s : SchedServer) (own : ServerDescriptor)
    (config : SchedQueueConfig) : Prop where
  least : ∀ i < serverBound s.schedMeta,
    (chosenFrom own s.schedMeta (optimalSched s)).load.toInt
      ≤ (serverDescriptor s.schedMeta i).load.toInt
  kept : (∀ i < serverBound s.schedMeta,
      own.load.toInt ≤ (serverDescriptor s.schedMeta i).load.toInt) →
    notifyEnqueueThread fayt true s (some config) = (none, enqueueLocal fayt s config)

section Offload

variable {own : ServerDescriptor} {m : Bytes} {s : SchedServer} {config : SchedQueueConfig}

/-- One element of the walk. -/
theorem optimalFrom_cons (i : ℕ) (is : List ℕ) (best : Option ℕ) :
    optimalFrom (some own) m (i :: is) best =
      if (chosenFrom own m best).load.toInt < (serverDescriptor m i).load.toInt then
        optimalFrom (some own) m is (some i)
      else optimalFrom (some own) m is best := by
  cases best <;> rfl

/-- **The walk finds the greatest load**: no element has more than the one that is chosen, and
the one before the walk is kept if no element has more than that. -/
theorem optimalFrom_spec (own : ServerDescriptor) (m : Bytes) (is : List ℕ) (best : Option ℕ) :
    (chosenFrom own m best).load.toInt
        ≤ (chosenFrom own m (optimalFrom (some own) m is best)).load.toInt ∧
      (∀ i ∈ is, (serverDescriptor m i).load.toInt
        ≤ (chosenFrom own m (optimalFrom (some own) m is best)).load.toInt) ∧
      ((∀ i ∈ is, (serverDescriptor m i).load.toInt ≤ (chosenFrom own m best).load.toInt) →
        optimalFrom (some own) m is best = best) := by
  induction is generalizing best with
  | nil => exact ⟨le_refl _, fun i hi => absurd hi List.not_mem_nil, fun _ => rfl⟩
  | cons i is ih =>
      rw [optimalFrom_cons]
      split_ifs with hmore
      · obtain ⟨hge, hall, -⟩ := ih (some i)
        have hi : (serverDescriptor m i).load.toInt
            ≤ (chosenFrom own m (optimalFrom (some own) m is (some i))).load.toInt := hge
        refine ⟨hmore.le.trans hi, fun j hj => ?_, fun h => ?_⟩
        · rcases List.mem_cons.mp hj with rfl | hj
          · exact hi
          · exact hall j hj
        · exact absurd (h i List.mem_cons_self) (not_le.mpr hmore)
      · obtain ⟨hge, hall, hkept⟩ := ih best
        refine ⟨hge, fun j hj => ?_, fun h => ?_⟩
        · rcases List.mem_cons.mp hj with rfl | hj
          · exact (not_lt.mp hmore).trans hge
          · exact hall j hj
        · exact hkept fun j hj => h j (List.mem_cons_of_mem i hj)

/-- **When a thread is offloaded to a core with the least load.**  For every table, and every
descriptor of its own that is in the table: all loads are the same. -/
theorem offloads_least_iff (fayt : RbLib) (hown : s.schedDesc = some own)
    (hin : ∃ i < serverBound s.schedMeta, serverDescriptor s.schedMeta i = own)
    (hoff : config.offload ≠ 0) :
    OffloadsLeast fayt s own config ↔ ∀ i < serverBound s.schedMeta,
      (serverDescriptor s.schedMeta i).load.toInt = own.load.toInt := by
  obtain ⟨hown_le, hall, hkept⟩ :=
    optimalFrom_spec own s.schedMeta (List.range (serverBound s.schedMeta)) none
  have hopt : optimalSched s = optimalFrom (some own) s.schedMeta
      (List.range (serverBound s.schedMeta)) none := by
    rw [optimalSched, hown]
  rw [← hopt] at hown_le hall hkept
  have hown_le : own.load.toInt
    ≤ (chosenFrom own s.schedMeta (optimalSched s)).load.toInt := hown_le
  constructor
  · rintro ⟨hleast, -⟩ i hi
    obtain ⟨j, hj, rfl⟩ := hin
    have h₁ := hleast i hi
    have h₂ := hleast j hj
    have h₃ := hall i (List.mem_range.mpr hi)
    omega
  · intro hsame
    have hlocal : optimalSched s = none := hkept fun i hi => (hsame i (List.mem_range.mp hi)).le
    refine ⟨fun i hi => ?_, fun _ => ?_⟩
    · rw [hlocal]
      exact (hsame i hi).ge
    · rw [notifyEnqueueThread]
      simp only [hlocal, if_pos hoff, if_true]

end Offload

/-- A table of two descriptors with these loads, behind the header of the link. -/
def twoLoads (a b : BitVec 32) : Bytes :=
  putInt32 (putInt32 (putInt32 (fun _ => 0) linkDataLimit 32) (linkData + 8) a) (linkData + 24) b

/-- A server whose own descriptor is the first one. -/
def firstServer (a b : BitVec 32) : SchedServer :=
  { freshServer with
    schedDesc := some (serverDescriptor (twoLoads a b) 0)
    schedMeta := twoLoads a b }

/-- A request that may be offloaded. -/
def offloadConfig : SchedQueueConfig := ⟨7, 0, 0, 1⟩

/-- With the same load on both cores the request stays here. -/
theorem offloads_least_same :
    OffloadsLeast .plain (firstServer 4 4) (serverDescriptor (twoLoads 4 4) 0) offloadConfig :=
  (offloads_least_iff .plain rfl ⟨0, by decide, rfl⟩ (by decide)).mpr (by decide)

/-- **The core with the greater load gets the thread**: the loads are 1 here and 9 there. -/
theorem offloads_greatest :
    optimalSched (firstServer 1 9) = some 1 ∧
    (chosenFrom (serverDescriptor (twoLoads 1 9) 0) (twoLoads 1 9) (some 1)).load = 9 ∧
    ¬ OffloadsLeast .plain (firstServer 1 9) (serverDescriptor (twoLoads 1 9) 0) offloadConfig := by
  have hopt : optimalSched (firstServer 1 9) = some 1 := by decide +kernel
  refine ⟨hopt, by decide +kernel, fun h => ?_⟩
  have hleast := h.least 0 (by decide +kernel)
  rw [hopt] at hleast
  exact absurd hleast (by decide +kernel)

end Rock
