/-
Rock/UcontextPool.lean

The frames of handlers: which `ucontext` a dispatch takes (`get_ucontext` and
`notification_dispatch` of kernel/core/notification.c).

Rock/Notification.lean has the `ucontexts` of a context as a list of records.  Here they are
what the source has, a vector of pointers to objects in memory, so that the vector could hold
an object twice and two names could be the same object.  The list of records is what one
sees through the vector (`PoolContext.view`), and a dispatch does the same to both
(`poolDispatch_view`).

A dispatch takes an object that is not active, or a new one; it writes to no other, and the
vector never holds an object twice (`dispatch_spares_running`).
-/
import Rock.Exec
import Rock.Notification

namespace Rock

/-! ### Pointers to frames -/

/-- The fields of `struct context` that notifications use, and the memory of the `ucontext`s it
points to. -/
structure PoolContext where
  ustacks : List Ustack
  actions : Fin notificationMax → Word
  queue : Option NotificationQueue
  ucontexts : List ℕ
  ucontext : Option ℕ
  ucontextIdx : ℕ
  regs : Registers
  memory : ℕ → Ucontext

/-- `get_ucontext`: the position and the pointer.  `new` is the address that `alloc` returns,
and `fresh` what it has put there. -/
def poolUcontext (c : PoolContext) (new : ℕ) (fresh : Ucontext) : ℕ × ℕ × PoolContext :=
  match c.ucontexts.findIdx? fun p => !(c.memory p).active with
  | some i => (i, c.ucontexts.getD i new, c)
  | none => (c.ucontexts.length, new, { c with
      ucontexts := c.ucontexts ++ [new]
      memory := Function.update c.memory new fresh })

/-- What a dispatch leaves, as in `Dispatched`; `chosen` is its local variable `ucontext`. -/
structure PoolDispatched where
  ret : ℤ
  ctx : PoolContext
  handed : Option (ℕ × Registers)
  chosen : Option ℕ

/-- The handler of number `i + 1` is started in the `ucontext` at `u`. -/
def poolStart (c : PoolContext) (q : NotificationQueue) (u : ℕ) (i : Fin notificationMax) (id : ℕ)
    (stack : Ustack) : PoolDispatched :=
  let n := q.notes.getD id default
  let frame := handlerFrame (c.memory u).regs stack.userStack.sp (c.actions i) n.info n.vaddr
    (i.val + 1)
  { ret := 0
    ctx := { c with
      queue := some q
      memory := Function.update c.memory u ⟨some stack, frame, true⟩
      ucontext := some u }
    handed := some (id, frame)
    chosen := some u }

/-- The loop of `notification_dispatch` over the numbers. -/
def poolDispatchFrom (c : PoolContext) (q : NotificationQueue) (u : ℕ) :
    List (Fin notificationMax) → Exec PoolDispatched
  | [] => .ok ⟨0, { c with queue := some q }, none, some u⟩
  | i :: is =>
      if !q.isPending (i.val + 1) || q.isMasked (i.val + 1) then poolDispatchFrom c q u is
      else do
        let (id, q) ← q.pop i
        match c.ustacks.find? fun s => !s.active with
        | none => .ok ⟨0, { c with queue := some q }, none, some u⟩
        | some stack => .ok (poolStart c q u i id stack)

/-- `notification_dispatch`. -/
def poolDispatch (c : PoolContext) (new : ℕ) (fresh : Ucontext) : Exec PoolDispatched :=
  match c.queue with
  | none => .ok ⟨-1, c, none, none⟩
  | some q =>
      if !q.active then .ok ⟨-1, c, none, none⟩
      else if q.lock then .error .hang
      else if q.pending = 0#32 then .ok ⟨-1, c, none, none⟩
      else
        let (idx, u, c) := poolUcontext c new fresh
        poolDispatchFrom { c with ucontextIdx := idx } { q with lock := true } u
          (List.finRange notificationMax)

/-- `syscall_notification_return`; `none` is the returned -1. -/
def poolReturn (c : PoolContext) : Option (Registers × PoolContext) :=
  c.queue.map fun _ =>
    let memory :=
      match c.ucontext with
      | some u => Function.update c.memory u { c.memory u with active := false }
      | none => c.memory
    (c.regs, { c with memory := memory, ucontext := none })

/-! ### What is to be shown -/

/-- A step of a context.  `alloc` returns an address that is not in use, with an object that is
not active.  In between anything may happen to the context, also to the frames in memory,
as long as the vector is left alone. -/
inductive PoolContext.Step : PoolContext → PoolContext → Prop
  | dispatch {c : PoolContext} {new : ℕ} {fresh : Ucontext} {d : PoolDispatched} :
      new ∉ c.ucontexts → fresh.active = false → poolDispatch c new fresh = .ok d → Step c d.ctx
  | ret {c c' : PoolContext} {frame : Registers} : poolReturn c = some (frame, c') → Step c c'
  | other {c c' : PoolContext} : c'.ucontexts = c.ucontexts → Step c c'

/-- **The dispatch spares the running handlers**: the `ucontext` it has chosen was not active,
only its registers can be overwritten, `ucontext_idx` is its position, and no other one is
changed. -/
structure SparesRunning (c : PoolContext) (new : ℕ) (fresh : Ucontext) (d : PoolDispatched) :
    Prop where
  overwrites : d.handed ≠ none → d.chosen ≠ none ∧ d.ctx.ucontext = d.chosen
  inactive : ∀ u, d.chosen = some u →
    (u ∈ c.ucontexts ∧ (c.memory u).active = false) ∨
      (u ∉ c.ucontexts ∧ u = new ∧ fresh.active = false)
  keeps : ∀ u, d.chosen ≠ some u → d.ctx.memory u = c.memory u
  position : ∀ u, d.chosen = some u → d.ctx.ucontexts[d.ctx.ucontextIdx]? = some u
  nodup : d.ctx.ucontexts.Nodup

/-! ### What a dispatch does -/

section Dispatch

variable {c c' : PoolContext} {q : NotificationQueue} {new u idx : ℕ} {fresh : Ucontext}
  {d : PoolDispatched}

/-- **What `get_ucontext` can do**: find the first `ucontext` that is not active, or make one. -/
theorem poolUcontext_cases (h : poolUcontext c new fresh = (idx, u, c')) :
    ((c.ucontexts.findIdx? fun p => !(c.memory p).active) = some idx ∧
        c.ucontexts[idx]? = some u ∧ (c.memory u).active = false ∧ c' = c) ∨
      ((c.ucontexts.findIdx? fun p => !(c.memory p).active) = none ∧
        idx = c.ucontexts.length ∧ u = new ∧ c' = { c with
          ucontexts := c.ucontexts ++ [new]
          memory := Function.update c.memory new fresh }) := by
  unfold poolUcontext at h
  rcases hfind : c.ucontexts.findIdx? fun p => !(c.memory p).active with - | i <;>
    simp only [hfind, Prod.mk.injEq] at h
  · obtain ⟨rfl, rfl, rfl⟩ := h
    exact .inr ⟨rfl, rfl, rfl, rfl⟩
  · obtain ⟨rfl, rfl, rfl⟩ := h
    obtain ⟨hi, hactive, -⟩ := List.findIdx?_eq_some_iff_getElem.mp hfind
    have hget : c.ucontexts[i]? = some (c.ucontexts.getD i new) := by
      rw [List.getD_eq_getElem?_getD, List.getElem?_eq_getElem hi, Option.getD_some]
    have hsame : c.ucontexts[i] = c.ucontexts.getD i new :=
      Option.some.inj ((List.getElem?_eq_getElem hi).symm.trans hget)
    refine .inl ⟨rfl, hget, ?_, rfl⟩
    rw [← hsame]
    simpa using hactive

/-- What `get_ucontext` gives: a `ucontext` that is not active, at its position in a vector that
still holds no object twice; memory is as it was everywhere else. -/
theorem poolUcontext_spec (hnodup : c.ucontexts.Nodup) (hnew : new ∉ c.ucontexts)
    (h : poolUcontext c new fresh = (idx, u, c')) :
    ((u ∈ c.ucontexts ∧ (c.memory u).active = false) ∨ (u ∉ c.ucontexts ∧ u = new)) ∧
      c'.ucontexts[idx]? = some u ∧ c'.ucontexts.Nodup ∧ ∀ v ≠ u, c'.memory v = c.memory v := by
  rcases poolUcontext_cases h with ⟨-, hget, hactive, rfl⟩ | ⟨-, rfl, rfl, rfl⟩
  · exact ⟨.inl ⟨List.mem_of_getElem? hget, hactive⟩, hget, hnodup, fun _ _ => rfl⟩
  · -- the new one is the last of the vector
    refine ⟨.inr ⟨hnew, rfl⟩, List.getElem?_concat_length, ?_,
      fun v hv => Function.update_of_ne hv _ _⟩
    show (c.ucontexts ++ [u]).Nodup
    rw [← List.concat_eq_append]
    exact hnodup.concat hnew

/-- **What the loop can do**: it ends without a handler, or starts one in the `ucontext`. -/
theorem poolDispatchFrom_cases {is : List (Fin notificationMax)}
    (h : poolDispatchFrom c q u is = .ok d) :
    (∃ q', d = ⟨0, { c with queue := some q' }, none, some u⟩) ∨
      ∃ i id q' stack, d = poolStart c q' u i id stack := by
  induction is with
  | nil => exact .inl ⟨q, (Except.ok.inj h).symm⟩
  | cons i is ih =>
      rw [poolDispatchFrom] at h
      split at h
      · exact ih h
      · obtain ⟨⟨id, q'⟩, -, h⟩ := Exec.bind_eq_ok.mp h
        rcases hs : c.ustacks.find? fun s => !s.active with - | stack <;>
          simp only [hs, Except.ok.injEq] at h
        · exact .inl ⟨q', h.symm⟩
        · exact .inr ⟨i, id, q', stack, h.symm⟩

/-- **What a dispatch can do**: return at once, or go through the numbers with a `ucontext`. -/
theorem poolDispatch_cases (h : poolDispatch c new fresh = .ok d) :
    d = ⟨-1, c, none, none⟩ ∨ ∃ q idx u c', poolUcontext c new fresh = (idx, u, c') ∧
      poolDispatchFrom { c' with ucontextIdx := idx } q u (List.finRange notificationMax)
        = .ok d := by
  unfold poolDispatch at h
  rcases hq : c.queue with - | q <;> simp only [hq] at h
  · exact .inl (Except.ok.inj h).symm
  · split_ifs at h with hactive hlock hpending
    · exact .inl (Except.ok.inj h).symm
    · exact .inl (Except.ok.inj h).symm
    · exact .inr ⟨_, _, _, _, rfl, h⟩

/-- The loop writes to its `ucontext` only. -/
theorem poolDispatchFrom_keeps {is : List (Fin notificationMax)}
    (h : poolDispatchFrom c q u is = .ok d) :
    d.chosen = some u ∧ d.ctx.ucontexts = c.ucontexts ∧ d.ctx.ucontextIdx = c.ucontextIdx ∧
      (d.handed ≠ none → d.ctx.ucontext = some u) ∧
      ∀ v ≠ u, d.ctx.memory v = c.memory v := by
  rcases poolDispatchFrom_cases h with ⟨q', rfl⟩ | ⟨i, id, q', stack, rfl⟩
  · exact ⟨rfl, rfl, rfl, fun hc => absurd rfl hc, fun _ _ => rfl⟩
  · exact ⟨rfl, rfl, rfl, fun _ => rfl, fun v hv => Function.update_of_ne hv _ _⟩

/-- **One dispatch**, from any vector that holds no object twice. -/
theorem poolDispatch_spares (hnodup : c.ucontexts.Nodup) (hnew : new ∉ c.ucontexts)
    (hfresh : fresh.active = false) (h : poolDispatch c new fresh = .ok d) :
    SparesRunning c new fresh d := by
  rcases poolDispatch_cases h with rfl | ⟨q, idx, u, c', hu, h⟩
  · have hnone (u : ℕ) : (none : Option ℕ) ≠ some u := (Option.some_ne_none u).symm
    exact ⟨fun hc => absurd rfl hc, fun u hc => absurd hc (hnone u), fun _ _ => rfl,
      fun u hc => absurd hc (hnone u), hnodup⟩
  obtain ⟨hinactive, hget, hvector, hsame⟩ := poolUcontext_spec hnodup hnew hu
  obtain ⟨hchosen, hucontexts, hidx, hcurrent, hkeeps⟩ := poolDispatchFrom_keeps h
  refine ⟨fun hhanded => ?_, fun v hv => ?_, fun v hv => ?_, fun v hv => ?_, ?_⟩
  · rw [hchosen]
    exact ⟨Option.some_ne_none u, hcurrent hhanded⟩
  · obtain rfl := Option.some.inj (hchosen.symm.trans hv)
    exact hinactive.imp_right fun ⟨hnot, hv⟩ => ⟨hnot, hv, hfresh⟩
  · have hne : v ≠ u := fun hc => hv (hc ▸ hchosen)
    exact (hkeeps v hne).trans (hsame v hne)
  · rw [hucontexts, hidx, ← hv, hchosen]
    exact hget
  · rw [hucontexts]
    exact hvector

end Dispatch

/-! ### The list of records behind the vector -/

section View

/-- The context as Rock/Notification.lean has it: the records the vector points to, and the
current one by its position. -/
def PoolContext.view (c : PoolContext) : Context where
  ustacks := c.ustacks
  actions := c.actions
  queue := c.queue
  ucontexts := c.ucontexts.map c.memory
  ucontext := c.ucontext.map fun u => c.ucontexts.idxOf u
  ucontextIdx := c.ucontextIdx
  regs := c.regs

def PoolDispatched.view (d : PoolDispatched) : Dispatched := ⟨d.ret, d.ctx.view, d.handed⟩

/-- The current `ucontext` is one of the vector. -/
def PoolContext.Owned (c : PoolContext) : Prop := ∀ u ∈ c.ucontext, u ∈ c.ucontexts

variable {c : PoolContext} {q : NotificationQueue} {new u idx : ℕ}

/-- A write to one object changes one record, as the vector holds the object once. -/
theorem map_update_eq_set {l : List ℕ} (hnodup : l.Nodup) (hget : l[idx]? = some u)
    (memory : ℕ → Ucontext) (x : Ucontext) :
    l.map (Function.update memory u x) = (l.map memory).set idx x := by
  obtain ⟨hidx, hu⟩ := List.getElem?_eq_some_iff.mp hget
  apply List.ext_getElem
  · simp
  intro j hj _
  have hj : j < l.length := by simpa using hj
  rw [List.getElem_map, List.getElem_set, List.getElem_map]
  by_cases h : idx = j
  · subst h
    rw [if_pos rfl, hu, Function.update_self]
  · rw [if_neg h, Function.update_of_ne]
    exact fun hc => h (hnodup.getElem_inj_iff.mp (hu.trans hc.symm))

theorem idxOf_vector {l : List ℕ} (hnodup : l.Nodup) (hget : l[idx]? = some u) :
    l.idxOf u = idx := by
  obtain ⟨hidx, rfl⟩ := List.getElem?_eq_some_iff.mp hget
  exact hnodup.idxOf_getElem idx hidx

theorem poolStart_view (hnodup : c.ucontexts.Nodup) (hget : c.ucontexts[idx]? = some u)
    (i : Fin notificationMax) (id : ℕ) (stack : Ustack) :
    (poolStart c q u i id stack).view = startHandler c.view q idx i id stack := by
  have hrecord : (c.ucontexts.map c.memory).getD idx default = c.memory u := by
    rw [List.getD_eq_getElem?_getD, List.getElem?_map, hget]
    rfl
  simp only [poolStart, PoolDispatched.view, startHandler, PoolContext.view, hrecord,
    map_update_eq_set hnodup hget, Option.map_some, idxOf_vector hnodup hget]

/-- The loop does to the records what it does to the objects. -/
theorem poolDispatchFrom_view (hnodup : c.ucontexts.Nodup) (hget : c.ucontexts[idx]? = some u)
    (is : List (Fin notificationMax)) :
    PoolDispatched.view <$> poolDispatchFrom c q u is = dispatchFrom c.view q idx is := by
  induction is with
  | nil => rfl
  | cons i is ih =>
      rw [poolDispatchFrom, dispatchFrom]
      split
      · exact ih
      · -- the pop is the same call on both sides
        rw [map_bind]
        refine bind_congr ?_
        rintro ⟨id, q'⟩
        have hstacks : c.view.ustacks = c.ustacks := rfl
        rcases hs : c.ustacks.find? fun s => !s.active with - | stack <;>
          simp only [hstacks, hs]
        · rfl
        · exact congrArg Except.ok (poolStart_view hnodup hget i id stack)

/-- What is seen of a context whose vector has got a new object. -/
theorem view_alloc (howned : c.Owned) (hnew : new ∉ c.ucontexts) (fresh : Ucontext) :
    PoolContext.view { c with
        ucontexts := c.ucontexts ++ [new]
        memory := Function.update c.memory new fresh
        ucontextIdx := idx } =
      { c.view with ucontexts := c.view.ucontexts ++ [fresh], ucontextIdx := idx } := by
  have hmap : (c.ucontexts ++ [new]).map (Function.update c.memory new fresh) =
      c.ucontexts.map c.memory ++ [fresh] := by
    rw [List.map_append, List.map_singleton, Function.update_self]
    refine congrArg (· ++ [fresh]) (List.map_congr_left fun p hp => ?_)
    exact Function.update_of_ne (ne_of_mem_of_not_mem hp hnew) _ _
  -- the current one keeps its position, as it is not the new one
  have hcurrent : (c.ucontext.map fun u => (c.ucontexts ++ [new]).idxOf u) =
      c.ucontext.map fun u => c.ucontexts.idxOf u := by
    rcases hu : c.ucontext with - | u
    · rfl
    · exact congrArg some (List.idxOf_append_of_mem (howned u hu))
  simp only [PoolContext.view, hmap, hcurrent]

/-- **A dispatch does the same to the objects and to the records**, with a new object as
Rock/Notification.lean has it. -/
theorem poolDispatch_view (hnodup : c.ucontexts.Nodup) (howned : c.Owned)
    (hnew : new ∉ c.ucontexts) :
    PoolDispatched.view <$> poolDispatch c new default = notificationDispatch c.view := by
  unfold poolDispatch notificationDispatch
  rcases hq : c.queue with - | q
  · have hview : c.view.queue = none := hq
    rw [hview]
    rfl
  have hview : c.view.queue = some q := hq
  have hlength : c.view.ucontexts.length = c.ucontexts.length := List.length_map _
  have hfind : (c.view.ucontexts.findIdx? fun u => !u.active) =
      c.ucontexts.findIdx? fun p => !(c.memory p).active := List.findIdx?_map
  rw [hview]
  dsimp only
  rw [← hview]
  split_ifs
  · rfl
  · rfl
  · rfl
  rcases hu : poolUcontext c new default with ⟨idx, u, c'⟩
  obtain ⟨-, hget, hvector, -⟩ := poolUcontext_spec hnodup hnew hu
  have hloop := poolDispatchFrom_view (c := { c' with ucontextIdx := idx })
    (q := { q with lock := true }) hvector hget (List.finRange notificationMax)
  rcases poolUcontext_cases hu with ⟨hsome, -, -, rfl⟩ | ⟨hnone, rfl, rfl, rfl⟩
  · -- the first record that is not active, at the same position
    have hrecords : getUcontext c'.view.ucontexts = (idx, c'.view.ucontexts) := by
      simp only [getUcontext, hfind, hsome]
    rw [hrecords]
    exact hloop
  · -- a new record at the end
    have hrecords : getUcontext c.view.ucontexts =
        (c.ucontexts.length, c.view.ucontexts ++ [default]) := by
      simp only [getUcontext, hfind, hnone, hlength]
    rw [hrecords, ← view_alloc howned hnew]
    exact hloop

/-- **So does a return.** -/
theorem poolReturn_view (hnodup : c.ucontexts.Nodup) (howned : c.Owned) :
    (poolReturn c).map (Prod.map id PoolContext.view) = notificationReturn c.view := by
  unfold poolReturn notificationReturn
  have hqueue : c.view.queue = c.queue := rfl
  rw [hqueue, Option.map_map]
  refine congrArg (c.queue.map ·) (funext fun _ => ?_)
  rcases hu : c.ucontext with - | u
  · simp only [Function.comp_apply, Prod.map_apply, id_eq, PoolContext.view, hu, Option.map_none]
  · obtain ⟨idx, hidx, hget⟩ := List.getElem_of_mem (howned u hu)
    have hget : c.ucontexts[idx]? = some u := List.getElem?_eq_some_iff.mpr ⟨hidx, hget⟩
    simp only [Function.comp_apply, Prod.map_apply, id_eq, PoolContext.view, hu, Option.map_some,
      Option.map_none, idxOf_vector hnodup hget, map_update_eq_set hnodup hget]
    rw [List.modify_eq_set_getElem?, List.getElem?_map, hget]
    rfl

/-- What the two ask for is kept by both, so they apply again to what is left. -/
theorem poolDispatch_owned (howned : c.Owned) {fresh : Ucontext} {d : PoolDispatched}
    (h : poolDispatch c new fresh = .ok d) : d.ctx.Owned := by
  rcases poolDispatch_cases h with rfl | ⟨q, idx, u, c', hu, h⟩
  · exact howned
  have hc' : c'.Owned ∧ u ∈ c'.ucontexts := by
    rcases poolUcontext_cases hu with ⟨-, hget, -, rfl⟩ | ⟨-, -, rfl, rfl⟩
    · exact ⟨howned, List.mem_of_getElem? hget⟩
    · exact ⟨fun v hv => List.mem_append_left _ (howned v hv), List.mem_append_right _ (by simp)⟩
  rcases poolDispatchFrom_cases h with ⟨q', rfl⟩ | ⟨i, id, q', stack, rfl⟩
  · exact hc'.1
  · rintro v hv
    obtain rfl := Option.some.inj hv
    exact hc'.2

theorem poolReturn_owned {c' : PoolContext} {frame : Registers}
    (h : poolReturn c = some (frame, c')) : c'.Owned := by
  obtain ⟨q, -, h⟩ := Option.map_eq_some_iff.mp h
  obtain ⟨-, rfl⟩ := Prod.mk.inj h
  exact fun v hv => absurd hv (Option.not_mem_none v)

end View

/-! ### Runs -/

theorem poolReturn_ucontexts {c c' : PoolContext} {frame : Registers}
    (h : poolReturn c = some (frame, c')) : c'.ucontexts = c.ucontexts := by
  obtain ⟨q, -, h⟩ := Option.map_eq_some_iff.mp h
  obtain ⟨-, rfl⟩ := Prod.mk.inj h
  rfl

/-- No step puts an object into the vector twice. -/
theorem PoolContext.Step.nodup (c c' : PoolContext) (hnodup : c.ucontexts.Nodup)
    (hstep : c.Step c') : c'.ucontexts.Nodup := by
  cases hstep with
  | dispatch hnew hfresh hcall => exact (poolDispatch_spares hnodup hnew hfresh hcall).nodup
  | ret hcall => rwa [poolReturn_ucontexts hcall]
  | other hsame => rwa [hsame]

/-- **No dispatch reuses the frame of a running handler.**  After every run of dispatches and
returns, with whatever else happens to the context in between, the vector holds no object
twice, and the next dispatch spares the running handlers. -/
theorem dispatch_spares_running {c₀ c : PoolContext} (hnodup : c₀.ucontexts.Nodup)
    (hrun : Run PoolContext.Step c₀ c) :
    c.ucontexts.Nodup ∧
      ∀ new fresh d, new ∉ c.ucontexts → fresh.active = false →
        poolDispatch c new fresh = .ok d → SparesRunning c new fresh d := by
  have hvector : c.ucontexts.Nodup := Run.invariant PoolContext.Step.nodup hnodup hrun
  exact ⟨hvector, fun new fresh d hnew hfresh hcall =>
    poolDispatch_spares hvector hnew hfresh hcall⟩

/-- A context with one stack, no frame yet, and a notification of number 1 that waits. -/
def waitingContext : PoolContext where
  ustacks := [⟨⟨0x9000, 0x10000⟩, ⟨0x7000, 0x1000⟩, false⟩]
  actions := fun _ => 0x400000
  queue := some ⟨fun n => if n.val = 0 then some 0 else none, 0, true, 1, false,
    [⟨1, 0x5000, 0, none, none⟩]⟩
  ucontexts := []
  ucontext := none
  ucontextIdx := 0
  regs := default
  memory := fun _ => default

/-- The first handler of `waitingContext` runs in the `ucontext` at 7, and the next notification
waits. -/
def handlingContext : PoolContext :=
  { waitingContext with
    ucontexts := [7]
    ucontext := some 7
    memory := Function.update waitingContext.memory 7 ⟨none, default, true⟩ }

theorem dispatch_spares_running_second :
    ∃ d, Run PoolContext.Step waitingContext handlingContext ∧
      (handlingContext.memory 7).active = true ∧ poolDispatch handlingContext 9 default = .ok d ∧
      d.chosen = some 9 ∧ d.handed.isSome ∧ SparesRunning handlingContext 9 default d := by
  obtain ⟨first, hfirst, hvector⟩ :
      ∃ d, poolDispatch waitingContext 7 default = .ok d ∧ d.ctx.ucontexts = [7] := ⟨_, rfl, rfl⟩
  obtain ⟨second, hsecond, hchosen, hhanded⟩ :
      ∃ d, poolDispatch handlingContext 9 default = .ok d ∧ d.chosen = some 9 ∧
        d.handed.isSome := ⟨_, rfl, rfl, rfl⟩
  have hrun : Run PoolContext.Step waitingContext handlingContext :=
    (Relation.ReflTransGen.single (.dispatch List.not_mem_nil rfl hfirst)).tail
      (.other hvector.symm)
  have hspares := (dispatch_spares_running List.nodup_nil hrun).2 9 default second (by decide) rfl
    hsecond
  exact ⟨second, hrun, rfl, hsecond, hchosen, hhanded, hspares⟩

end Rock
