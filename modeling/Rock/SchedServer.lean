/-
Rock/SchedServer.lean

The run tree of a scheduler server (servers/sched/sched.c): `notify_enqueue_thread` and
`notify_dequeue_thread`.

A thread that is enqueued goes into `thread_tree`, ordered by its virtual runtime.  A
request to dequeue looks the thread up in `thread_table`; but nothing is ever pushed to that
table, so no thread is found and none is deleted (`SchedServer.Inv.dequeue`).  Main
result: after any sequence of local requests the tree has exactly the threads that are
enqueued if and only if none of the requests was to dequeue one of them
(`run_tree_tracks_iff`).

`RbLib` is what the server relies on of the red-black trees of the fayt library, which is
not part of the source tree.
-/
import Rock.SchedMeta
import Rock.SearchTree

namespace Rock

/-! ### The server -/

/-- `struct thread`, without the links of the tree. -/
structure SchedThread where
  cid : BitVec 32
  cgroup : BitVec 32
  weight : BitVec 32
  vruntime : BitVec 32
  runtime : BitVec 32
  deriving DecidableEq, Repr

/-- A `struct thread` in memory, at the address that `alloc` gave it. -/
structure ThreadNode where
  addr : ℕ
  thread : SchedThread
  deriving DecidableEq, Repr

/-- The fields that the tree can be ordered by. -/
def ThreadNode.vruntime (x : ThreadNode) : ℤ := x.thread.vruntime.toInt

def ThreadNode.runtime (x : ThreadNode) : ℤ := x.thread.runtime.toInt

/-- `struct sched_queue_config`. -/
structure SchedQueueConfig where
  cid : BitVec 32
  cgroup : BitVec 32
  nice : BitVec 32
  offload : BitVec 32
  deriving DecidableEq, Repr

/-- The trees of the fayt library: `RB_GENERIC_INSERT` and `RB_GENERIC_DELETE` on a key,
with what they return. -/
structure RbLib where
  insert : (ThreadNode → ℤ) → SearchTree ThreadNode → ThreadNode → ℤ × SearchTree ThreadNode
  delete : (ThreadNode → ℤ) → SearchTree ThreadNode → ThreadNode → ℤ × SearchTree ThreadNode
  /-- A new node is inserted, and the tree stays ordered. -/
  insert_spec : ∀ {key t x}, t.OrderedOn key → x ∉ t.toList → (insert key t x).1 = 0 ∧
    (insert key t x).2.OrderedOn key ∧ (insert key t x).2.toList.Perm (x :: t.toList)
  /-- A node of a tree that is ordered by the key is deleted, and the tree stays ordered. -/
  delete_spec : ∀ {key t x}, t.OrderedOn key → x ∈ t.toList → (delete key t x).1 = 0 ∧
    (delete key t x).2.OrderedOn key ∧ (delete key t x).2.toList.Perm (t.toList.erase x)

/-- Trees without balance meet the contract. -/
def RbLib.plain : RbLib where
  insert key t x := (0, t.insert key x)
  delete key t x := (0, .ofList key (t.toList.erase x))
  insert_spec h _ := ⟨rfl, h.insert _, SearchTree.insert_perm _ _⟩
  delete_spec _ _ := ⟨rfl, SearchTree.ofList_spec _⟩

/-- The state of a server: `thread_tree`, `thread_table`, the descriptor `sched_desc` of its
own, the region `sched_meta`, and the next address that `alloc` returns. -/
structure SchedServer where
  threadTree : SearchTree ThreadNode
  threadTable : BitVec 32 → Option ThreadNode
  schedDesc : Option ServerDescriptor
  schedMeta : Bytes
  next : ℕ

/-- The notification that offloads a thread: the context it goes to. -/
structure Offload where
  cid : BitVec 32
  deriving DecidableEq, Repr

/-- The walk over the table for an offload, with the element that is best so far: `none` is
`sched_desc`. -/
def optimalFrom (own : Option ServerDescriptor) (m : Bytes) :
    List ℕ → Option ℕ → Option ℕ
  | [], best => best
  | i :: is, best =>
      match best.map (serverDescriptor m) <|> own with
      | none => optimalFrom own m is (some i)
      | some desc =>
          if desc.load.toInt < (serverDescriptor m i).load.toInt then
            optimalFrom own m is (some i)
          else optimalFrom own m is best

/-- `optimal_sched` after the walk. -/
def optimalSched (s : SchedServer) : Option ℕ :=
  optimalFrom s.schedDesc s.schedMeta (List.range (serverBound s.schedMeta)) none

/-- The thread that is made for a request; the processor takes the count of a shift modulo
32. -/
def threadOf (config : SchedQueueConfig) : SchedThread where
  cid := config.cid
  cgroup := config.cgroup
  weight := 1024 * (1 <<< ((19 - config.nice).toNat % 32))
  vruntime := 0
  runtime := 0

section Handlers

variable (fayt : RbLib)

/-- The end of `notify_enqueue_thread`, from `exit` on. -/
def enqueueLocal (s : SchedServer) (config : SchedQueueConfig) : SchedServer :=
  let x : ThreadNode := ⟨s.next, threadOf config⟩
  { s with threadTree := (fayt.insert ThreadNode.vruntime s.threadTree x).2, next := s.next + 1 }

/-- `notify_enqueue_thread`; `link` is whether `OPERATE_LINK` succeeds. -/
def notifyEnqueueThread (link : Bool) (s : SchedServer) (config : Option SchedQueueConfig) :
    Option Offload × SchedServer :=
  match config with
  | none => (none, s)
  | some config =>
      if config.offload ≠ 0 then
        if link then
          match optimalSched s with
          | none => (none, enqueueLocal fayt s config)
          | some i => (some ⟨(serverDescriptor s.schedMeta i).cid⟩, s)
        else (none, s)
      else (none, enqueueLocal fayt s config)

/-- `notify_dequeue_thread`. -/
def notifyDequeueThread (s : SchedServer) (config : Option SchedQueueConfig) : SchedServer :=
  match config with
  | none => s
  | some config =>
      match s.threadTable config.cid with
      | none => s
      | some x => { s with threadTree := (fayt.delete ThreadNode.runtime s.threadTree x).2 }

/-- The notifications a server gets. -/
inductive SchedRequest where
  | enqueue (config : Option SchedQueueConfig)
  | dequeue (config : Option SchedQueueConfig)
  deriving DecidableEq, Repr

/-- One notification. -/
def handle (link : Bool) (s : SchedServer) : SchedRequest → SchedServer
  | .enqueue config => (notifyEnqueueThread fayt link s config).2
  | .dequeue config => notifyDequeueThread fayt s config

/-- A sequence of notifications. -/
def serve (link : Bool) (s : SchedServer) (reqs : List SchedRequest) : SchedServer :=
  reqs.foldl (handle fayt link) s

end Handlers

/-- A server that has just started. -/
structure SchedServer.Initial (s : SchedServer) : Prop where
  tree : s.threadTree = .nil
  table : ∀ cid, s.threadTable cid = none

/-! ### What is enqueued -/

/-- What is enqueued after a request. -/
def SchedRequest.update (live : List SchedQueueConfig) : SchedRequest → List SchedQueueConfig
  | .enqueue (some config) => config :: live
  | .dequeue (some config) => live.filter fun c => c.cid ≠ config.cid
  | .enqueue none | .dequeue none => live

/-- What is enqueued after a sequence of requests. -/
def enqueued (live : List SchedQueueConfig) (reqs : List SchedRequest) : List SchedQueueConfig :=
  reqs.foldl SchedRequest.update live

/-- The thread `cid` is enqueued. -/
def IsLive (live : List SchedQueueConfig) (cid : BitVec 32) : Prop := ∃ c ∈ live, c.cid = cid

/-- No thread is enqueued twice without being dequeued in between. -/
def EnqueuesOnce : List SchedQueueConfig → List SchedRequest → Prop
  | _, [] => True
  | live, req :: reqs =>
      (∀ config, req = .enqueue (some config) → ¬ IsLive live config.cid) ∧
        EnqueuesOnce (req.update live) reqs

/-- No request is to dequeue a thread that is enqueued. -/
def NeverDequeues : List SchedQueueConfig → List SchedRequest → Prop
  | _, [] => True
  | live, req :: reqs =>
      (∀ config, req = .dequeue (some config) → ¬ IsLive live config.cid) ∧
        NeverDequeues (req.update live) reqs

/-- **The tree tracks the requests**: it has the threads that are enqueued, each once and
where the search by virtual runtime finds it, and to dequeue another one leaves it
unchanged. -/
structure Tracks (fayt : RbLib) (s : SchedServer) (live : List SchedQueueConfig) : Prop where
  threads : (s.threadTree.toList.map ThreadNode.thread).Perm (live.map threadOf)
  once : (s.threadTree.toList.map fun x => x.thread.cid).Nodup
  found : ∀ x ∈ s.threadTree.toList, x ∈ s.threadTree.search ThreadNode.vruntime x.vruntime
  others : ∀ config, ¬ IsLive live config.cid →
    (notifyDequeueThread fayt s (some config)).threadTree = s.threadTree

/-! ### The handlers -/

section Run

variable (fayt : RbLib) (link : Bool) {s : SchedServer} {live : List SchedQueueConfig}
  {config : SchedQueueConfig} {reqs : List SchedRequest}

/-- What holds after any requests: the tree is ordered, its nodes are allocated, and the
table is empty. -/
structure SchedServer.Inv (s : SchedServer) : Prop where
  ordered : s.threadTree.OrderedOn ThreadNode.vruntime
  allocated : ∀ x ∈ s.threadTree.toList, x.addr < s.next
  table : ∀ cid, s.threadTable cid = none

/-- **No thread is ever deleted.** -/
theorem SchedServer.Inv.dequeue (h : s.Inv) (config : Option SchedQueueConfig) :
    notifyDequeueThread fayt s config = s := by
  rcases config with - | config
  · rfl
  · simp only [notifyDequeueThread, h.table config.cid]

/-- A thread is added. -/
theorem SchedServer.Inv.of_enqueueLocal (h : s.Inv) (config : SchedQueueConfig) :
    (enqueueLocal fayt s config).Inv ∧
      ((enqueueLocal fayt s config).threadTree.toList.map ThreadNode.thread).Perm
        (threadOf config :: s.threadTree.toList.map ThreadNode.thread) := by
  have hfresh : (⟨s.next, threadOf config⟩ : ThreadNode) ∉ s.threadTree.toList :=
    fun hmem => absurd (h.allocated _ hmem) (lt_irrefl _)
  obtain ⟨-, hordered, hperm⟩ := fayt.insert_spec h.ordered hfresh
  refine ⟨⟨hordered, fun x hx => ?_, h.table⟩, hperm.map ThreadNode.thread⟩
  rcases List.mem_cons.mp (hperm.mem_iff.mp hx) with rfl | hx
  · exact Nat.lt_succ_self _
  · exact Nat.lt_succ_of_lt (h.allocated x hx)

/-- A local request is not offloaded. -/
theorem notifyEnqueueThread_local (hlocal : config.offload = 0) :
    notifyEnqueueThread fayt link s (some config) = (none, enqueueLocal fayt s config) := by
  rw [notifyEnqueueThread, if_neg (not_not_intro hlocal)]

/-- What one local request does to the threads of the tree. -/
theorem SchedServer.Inv.of_handle (h : s.Inv) {req : SchedRequest}
    (hlocal : ∀ config, req = .enqueue (some config) → config.offload = 0) :
    (handle fayt link s req).Inv ∧
      ((handle fayt link s req).threadTree.toList.map ThreadNode.thread).Perm
        ((match req with
          | .enqueue (some config) => [threadOf config]
          | _ => []) ++ s.threadTree.toList.map ThreadNode.thread) := by
  rcases req with (- | config) | config
  · exact ⟨h, .refl _⟩
  · rw [handle, notifyEnqueueThread_local fayt link (hlocal config rfl)]
    exact h.of_enqueueLocal fayt config
  · rw [handle, h.dequeue fayt config]
    exact ⟨h, .refl _⟩

theorem SchedServer.Initial.inv (h : s.Initial) : s.Inv := by
  refine ⟨?_, ?_, h.table⟩ <;> rw [h.tree]
  · trivial
  · exact nofun

/-- Over requests none of which dequeues a thread that is enqueued, the tree has the
threads that are enqueued. -/
theorem SchedServer.Inv.of_serve (h : s.Inv)
    (hlocal : ∀ config, .enqueue (some config) ∈ reqs → config.offload = 0)
    (hnever : NeverDequeues live reqs)
    (hperm : (s.threadTree.toList.map ThreadNode.thread).Perm (live.map threadOf)) :
    (serve fayt link s reqs).Inv ∧
      ((serve fayt link s reqs).threadTree.toList.map ThreadNode.thread).Perm
        ((enqueued live reqs).map threadOf) := by
  induction reqs generalizing s live with
  | nil => exact ⟨h, hperm⟩
  | cons req reqs ih =>
      obtain ⟨hreq, hnever⟩ := hnever
      have hhead : ∀ config, req = .enqueue (some config) → config.offload = 0 :=
        fun config hc => hlocal config (hc ▸ List.mem_cons_self)
      obtain ⟨h', hstep⟩ := h.of_handle fayt link hhead
      refine ih h' (fun config hc => hlocal config (List.mem_cons_of_mem _ hc)) hnever ?_
      refine hstep.trans ?_
      rcases req with (- | config) | (- | config)
      · exact hperm
      · exact hperm.cons _
      · exact hperm
      · -- nothing with this cid is enqueued, so nothing is taken out
        have hsame : live.filter (fun c => c.cid ≠ config.cid) = live := by
          refine List.filter_eq_self.mpr fun c hc => decide_eq_true ?_
          exact fun heq => hreq config rfl ⟨c, hc, heq⟩
        show (s.threadTree.toList.map ThreadNode.thread).Perm _
        rw [SchedRequest.update, hsame]
        exact hperm

/-- What is enqueued has different cids. -/
theorem EnqueuesOnce.nodup (h : EnqueuesOnce live reqs)
    (hnodup : (live.map SchedQueueConfig.cid).Nodup) :
    ((enqueued live reqs).map SchedQueueConfig.cid).Nodup := by
  induction reqs generalizing live with
  | nil => exact hnodup
  | cons req reqs ih =>
      obtain ⟨hreq, hrest⟩ := h
      refine ih hrest ?_
      rcases req with (- | config) | (- | config)
      · exact hnodup
      · refine List.nodup_cons.mpr ⟨fun hmem => ?_, hnodup⟩
        obtain ⟨c, hc, hcid⟩ := List.mem_map.mp hmem
        exact hreq config rfl ⟨c, hc, hcid⟩
      · exact hnodup
      · exact hnodup.sublist (List.filter_sublist.map _)

/-! ### A dequeue that is lost -/

/-- How many threads of the tree have the cid. -/
def SchedServer.copies (s : SchedServer) (cid : BitVec 32) : ℕ :=
  (s.threadTree.toList.map ThreadNode.thread).countP fun x => x.cid = cid

/-- How often the cid is enqueued. -/
def liveCopies (live : List SchedQueueConfig) (cid : BitVec 32) : ℕ :=
  live.countP fun c => c.cid = cid

/-- A tree that tracks the requests has a thread as often as it is enqueued. -/
theorem Tracks.copies {fayt : RbLib} (h : Tracks fayt s live) (cid : BitVec 32) :
    s.copies cid = liveCopies live cid := by
  rw [SchedServer.copies, h.threads.countP_eq, List.countP_map]
  rfl

/-- What a request does to the copies: an enqueue adds one to both, and a dequeue takes away
what is enqueued and leaves the tree. -/
theorem SchedServer.Inv.copies_handle (h : s.Inv) (live : List SchedQueueConfig)
    {req : SchedRequest} (hlocal : ∀ config, req = .enqueue (some config) → config.offload = 0)
    (cid : BitVec 32) :
    ∃ n, (handle fayt link s req).copies cid = s.copies cid + n ∧
      liveCopies (req.update live) cid ≤ liveCopies live cid + n := by
  have hcopies := (h.of_handle fayt link hlocal).2.countP_eq fun x => decide (x.cid = cid)
  rw [List.countP_append, Nat.add_comm] at hcopies
  refine ⟨_, hcopies, ?_⟩
  rcases req with (- | config) | (- | config)
  · exact Nat.le_add_right _ _
  · show ([config] ++ live).countP _ ≤ _
    rw [List.countP_append, Nat.add_comm]
    rfl
  · exact Nat.le_add_right _ _
  · exact (List.filter_sublist.countP_le).trans (Nat.le_add_right _ _)

/-- A thread too many stays. -/
theorem SchedServer.Inv.copies_serve (h : s.Inv)
    (hlocal : ∀ config, .enqueue (some config) ∈ reqs → config.offload = 0) {cid : BitVec 32}
    (hmore : liveCopies live cid < s.copies cid) :
    liveCopies (enqueued live reqs) cid < (serve fayt link s reqs).copies cid := by
  induction reqs generalizing s live with
  | nil => exact hmore
  | cons req reqs ih =>
      have hhead : ∀ config, req = .enqueue (some config) → config.offload = 0 :=
        fun config hc => hlocal config (hc ▸ List.mem_cons_self)
      obtain ⟨n, hcopies, hlive⟩ := h.copies_handle fayt link live hhead cid
      refine ih (h.of_handle fayt link hhead).1
        (fun config hc => hlocal config (List.mem_cons_of_mem _ hc)) ?_
      omega

/-- **If the tree tracks the requests, none was to dequeue a thread that is enqueued.** -/
theorem SchedServer.Inv.neverDequeues (h : s.Inv)
    (hlocal : ∀ config, .enqueue (some config) ∈ reqs → config.offload = 0)
    (hleast : ∀ cid, liveCopies live cid ≤ s.copies cid)
    (htracks : Tracks fayt (serve fayt link s reqs) (enqueued live reqs)) :
    NeverDequeues live reqs := by
  induction reqs generalizing s live with
  | nil => trivial
  | cons req reqs ih =>
      have hhead : ∀ config, req = .enqueue (some config) → config.offload = 0 :=
        fun config hc => hlocal config (hc ▸ List.mem_cons_self)
      have htail : ∀ config, .enqueue (some config) ∈ reqs → config.offload = 0 :=
        fun config hc => hlocal config (List.mem_cons_of_mem _ hc)
      have h' := (h.of_handle fayt link hhead).1
      refine ⟨?_, ih h' htail (fun cid => ?_) htracks⟩
      · rintro config rfl ⟨c, hc, hcid⟩
        -- the thread stays in the tree and is not enqueued any more
        have hpos : 0 < liveCopies live config.cid :=
          List.countP_pos_iff.mpr ⟨c, hc, decide_eq_true hcid⟩
        have hnone : liveCopies (SchedRequest.update live (.dequeue (some config))) config.cid
            = 0 := by
          refine List.countP_eq_zero.mpr fun c hc => ?_
          have hne := (List.mem_filter.mp hc).2
          simpa using hne
        have hmore : liveCopies (SchedRequest.update live (.dequeue (some config))) config.cid
            < (handle fayt link s (.dequeue (some config))).copies config.cid := by
          rw [hnone, handle, h.dequeue]
          exact hpos.trans_le (hleast config.cid)
        exact absurd (htracks.copies config.cid) (h'.copies_serve fayt link htail hmore).ne'
      · obtain ⟨n, hcopies, hlive⟩ := h.copies_handle fayt link live hhead cid
        have hle := hleast cid
        omega

end Run

/-- **When the run tree tracks the requests.**  After every sequence of local requests in
which no thread is enqueued twice without a dequeue in between: the tree has exactly the
threads that are enqueued, and they are found by their virtual runtime, if and only if no
request was to dequeue a thread that was enqueued. -/
theorem run_tree_tracks_iff (fayt : RbLib) (link : Bool) {s : SchedServer}
    {reqs : List SchedRequest} (hinit : s.Initial)
    (hlocal : ∀ config, .enqueue (some config) ∈ reqs → config.offload = 0)
    (honce : EnqueuesOnce [] reqs) :
    Tracks fayt (serve fayt link s reqs) (enqueued [] reqs) ↔ NeverDequeues [] reqs := by
  have hempty : s.threadTree.toList = [] := by
    rw [hinit.tree]
    rfl
  constructor
  · intro htracks
    exact hinit.inv.neverDequeues fayt link hlocal (fun cid => Nat.zero_le _) htracks
  · intro hnever
    obtain ⟨h, hperm⟩ := hinit.inv.of_serve fayt link hlocal hnever (by
      rw [hempty]
      exact .refl _)
    refine ⟨hperm, ?_, fun x hx => ?_, fun config _ => ?_⟩
    · -- the cids of the tree are those that are enqueued
      have hcids := hperm.map SchedThread.cid
      rw [List.map_map, List.map_map] at hcids
      exact hcids.nodup_iff.mpr (honce.nodup List.nodup_nil)
    · exact (SearchTree.mem_search_iff h.ordered).mpr ⟨hx, rfl⟩
    · rw [h.dequeue]

/-! ### A thread that cannot be removed -/

/-- A server that has just started. -/
def freshServer : SchedServer := ⟨.nil, fun _ => none, none, fun _ => 0, 0⟩

theorem freshServer_initial : freshServer.Initial := ⟨rfl, fun _ => rfl⟩

/-- A local request for a thread. -/
def localConfig (cid nice : BitVec 32) : SchedQueueConfig := ⟨cid, 0, nice, 0⟩

/-- Two threads are enqueued, and one that is not is dequeued. -/
theorem run_tree_tracks_two :
    Tracks .plain (serve .plain true freshServer
      [.enqueue (some (localConfig 7 0)), .dequeue (some (localConfig 9 0)),
        .enqueue (some (localConfig 8 5))])
      [localConfig 8 5, localConfig 7 0] := by
  refine (run_tree_tracks_iff .plain true freshServer_initial ?_ ?_).mpr ?_
  · rintro config hmem
    simp only [List.mem_cons, SchedRequest.enqueue.injEq, Option.some.injEq, reduceCtorEq,
      false_or, List.not_mem_nil, or_false] at hmem
    rcases hmem with rfl | rfl <;> rfl
  all_goals
    simp only [EnqueuesOnce, NeverDequeues, SchedRequest.update, IsLive]
    simp [localConfig]

/-- **A thread that stays.**  The thread 7 is enqueued and dequeued, and is still in the
tree. -/
theorem run_tree_keeps_thread :
    EnqueuesOnce [] [.enqueue (some (localConfig 7 0)), .dequeue (some (localConfig 7 0))] ∧
    enqueued [] [.enqueue (some (localConfig 7 0)), .dequeue (some (localConfig 7 0))] = [] ∧
    (serve .plain true freshServer [.enqueue (some (localConfig 7 0)),
      .dequeue (some (localConfig 7 0))]).threadTree.toList.map ThreadNode.thread
        = [threadOf (localConfig 7 0)] ∧
    ¬ Tracks .plain (serve .plain true freshServer [.enqueue (some (localConfig 7 0)),
      .dequeue (some (localConfig 7 0))]) [] := by
  have htree : (serve .plain true freshServer [.enqueue (some (localConfig 7 0)),
      .dequeue (some (localConfig 7 0))]).threadTree.toList.map ThreadNode.thread
        = [threadOf (localConfig 7 0)] := rfl
  refine ⟨?_, rfl, htree, fun h => ?_⟩
  · simp only [EnqueuesOnce, SchedRequest.update, IsLive]
    simp
  · have hperm := h.threads
    rw [htree] at hperm
    exact absurd hperm.length_eq (by decide)

end Rock
