/-
Rock/Routing.lean

Where a notification goes: `syscall_notify` (kernel/core/notification.c), the directory of the
contexts (`NEW_CONTEXT` and `SEARCH_CONTEXT` of kernel/core/server.h) and the registry of the
servers.

A context gets a number when it is made, and is entered in a table under it.  A sender names the
target by this number, or by the names of a server and of its namespace; without a namespace it
means its own.  The table and the bitmap of the numbers are those of fayt, as in the registry.

Whatever is created, made and attached, and in whatever order, and whichever of the calls fail, a
number means one context only, and the one it was given to; a pair of names means the context of
the server that was created under them (`notify_routes`).  The namespace of a context however is
never set: a sender that leaves it out goes through a null pointer.
-/
import Rock.Notification
import Rock.ServerRegistry

namespace Rock

/-! ### The directory -/

/-- `comms` of a context, without the name of its server, which nothing reads. -/
structure Comms where
  ns : Option String
  cid : ℤ
  deriving DecidableEq, Inhabited

/-- The containers of fayt for the contexts. -/
structure ContextTables (D A : Type) where
  table : FallibleMap ℤ ℕ D
  bitmap : IdSource A

/-- `context_table` and `cid_bitmap`, and the `comms` of the contexts in memory. -/
structure Directory (D A : Type) where
  contextTable : D
  cidBitmap : A
  comms : ℕ → Comms

variable {T U B D A : Type}

/-- `NEW_CONTEXT`: whether it gives 0. -/
def newContext (M : ContextTables D A) (d : Directory D A) (context : ℕ) :
    Bool × Directory D A :=
  match M.bitmap.alloc d.cidBitmap with
  | none => (false, d)
  | some (cid, cidBitmap) =>
      let pushed := M.table.push d.contextTable cid context
      (pushed.1,
        { contextTable := pushed.2
          cidBitmap := cidBitmap
          comms := Function.update d.comms context { d.comms context with cid := cid } })

/-- `SEARCH_CONTEXT`: an error, or what is stored. -/
def searchContext (M : ContextTables D A) (d : Directory D A) (cid : ℤ) : Option (Option ℕ) :=
  M.table.search d.contextTable cid

/-! ### The call -/

/-- `struct comm_bridge`, without the data. -/
structure CommBridge where
  not : ℤ
  cid : ℤ
  weight : BitVec 32
  ns : Option String
  destination : Option String
  deriving DecidableEq

/-- The registry with the servers created so far, the directory, and the contexts for which
`NEW_CONTEXT` gave 0. -/
structure Post (T U B D A : Type) where
  registry : History T U B
  directory : Directory D A
  made : List ℕ

section Calls

variable (L : FaytTables T U B) (M : ContextTables D A)

/-- The context that `syscall_notify` sends to, if it does not return -1 before. -/
def notifyDestination (s : Post T U B D A) (context : ℕ) (bridge : CommBridge) :
    Exec (Option ℕ) :=
  match bridge.destination with
  | some destination =>
      -- `strlen` of the namespace is taken without a check
      match bridge.ns.or (s.directory.comms context).ns with
      | none => .error .null
      | some ns =>
          match findServer L s.registry.reg ns destination with
          | none => .ok none
          | some server => .ok (s.registry.reg.servers server).context
  | none =>
      match searchContext M s.directory bridge.cid with
      | some destination => .ok destination
      | none => .ok none

/-- `syscall_notify`, called by `context`. -/
def syscallNotify (w : NotifyWeights) (s : Post T U B D A) (contexts : ℕ → Context)
    (context : ℕ) (bridge : Option CommBridge) (info : Word) : Exec Sent :=
  match bridge with
  | none => .ok ⟨-1, none, none, false, false⟩
  | some bridge => do
      match ← notifyDestination L M s context bridge with
      | none => .ok ⟨-1, none, none, false, false⟩
      | some destination =>
          notificationSend w (some context) (some (contexts destination)) bridge.not bridge.weight
            info

/-! ### Histories -/

/-- What happens: a call that changes the registry, `create_blank_context` for a context that was
just allocated, or `server->context = context`. -/
inductive RouteEvent where
  | registry (call : RegistryCall)
  | launch (context : ℕ)
  | attach (server context : ℕ)

def RouteEvent.call? : RouteEvent → Option RegistryCall
  | registry call => some call
  | _ => none

def RouteEvent.launched? : RouteEvent → Option ℕ
  | launch context => some context
  | _ => none

/-- The directory once a context is allocated. -/
def Directory.allocated (d : Directory D A) (context : ℕ) : Directory D A :=
  { d with comms := Function.update d.comms context (allocCleared Comms) }

def Post.step (s : Post T U B D A) : RouteEvent → Post T U B D A
  | .registry call => { s with registry := s.registry.step L call }
  | .launch context =>
      let made := newContext M (s.directory.allocated context) context
      { s with directory := made.2, made := if made.1 then s.made ++ [context] else s.made }
  | .attach server context =>
      { s with registry.reg.servers := Function.update s.registry.reg.servers server
                { s.registry.reg.servers server with context := some context } }

/-- At boot, in a memory that holds anything. -/
def Post.boot (namespaces : ℕ → Namespace U B) (servers : ℕ → Server) (comms : ℕ → Comms) :
    Post T U B D A :=
  ⟨.boot L namespaces servers, ⟨M.table.empty, M.bitmap.empty, comms⟩, []⟩

def Post.runs (s : Post T U B D A) (events : List RouteEvent) : Post T U B D A :=
  events.foldl (Post.step L M) s

end Calls

/-! ### What the directory holds -/

/-- The table has the contexts that were made, each under its own number, which is taken in the
bitmap; and none of them has a namespace. -/
structure Directed (M : ContextTables D A) (s : Post T U B D A) (launched : List ℕ) : Prop where
  table : ∀ cid x, M.table.contents s.directory.contextTable cid = some x ↔
    x ∈ s.made ∧ (s.directory.comms x).cid = cid
  used : ∀ x ∈ s.made, ∃ n : ℕ, (s.directory.comms x).cid = n ∧
    n ∈ M.bitmap.used s.directory.cidBitmap
  ns : ∀ x ∈ s.made, (s.directory.comms x).ns = none
  launched : s.made ⊆ launched

section Directed

variable {L : FaytTables T U B} {M : ContextTables D A} {s : Post T U B D A} {launched : List ℕ}

theorem directed_boot (namespaces : ℕ → Namespace U B) (servers : ℕ → Server) (comms : ℕ → Comms) :
    Directed M (.boot L M namespaces servers comms) [] where
  table cid x := by
    show M.table.contents M.table.empty cid = some x ↔ x ∈ [] ∧ _
    simp [M.table.contents_empty]
  used _ hx := absurd hx List.not_mem_nil
  ns _ hx := absurd hx List.not_mem_nil
  launched := List.nil_subset _

/-- Two contexts that were made have different numbers. -/
theorem Directed.cid_inj (h : Directed M s launched) {x y : ℕ} (hx : x ∈ s.made) (hy : y ∈ s.made)
    (hcid : (s.directory.comms x).cid = (s.directory.comms y).cid) : x = y := by
  have hx' := (h.table _ x).mpr ⟨hx, hcid⟩
  have hy' := (h.table _ y).mpr ⟨hy, rfl⟩
  exact Option.some.inj (hx'.symm.trans hy')

/-- A directory with the same contexts. -/
theorem Directed.keeps (h : Directed M s launched) {d : Directory D A} {launched' : List ℕ}
    (hcontents : M.table.contents d.contextTable = M.table.contents s.directory.contextTable)
    (hused : M.bitmap.used s.directory.cidBitmap ⊆ M.bitmap.used d.cidBitmap)
    (hcomms : ∀ y ∈ s.made, d.comms y = s.directory.comms y) (hsub : launched ⊆ launched') :
    Directed M { s with directory := d } launched' where
  table cid y := by
    show M.table.contents d.contextTable cid = some y ↔ y ∈ s.made ∧ (d.comms y).cid = cid
    rw [hcontents, h.table]
    exact and_congr_right fun hy => by rw [hcomms y hy]
  used y hy := by
    obtain ⟨n, hn, hmem⟩ := h.used y hy
    exact ⟨n, (congrArg Comms.cid (hcomms y hy)).trans hn, hused hmem⟩
  ns y hy := (congrArg Comms.ns (hcomms y hy)).trans (h.ns y hy)
  launched := fun _ hy => hsub (h.launched hy)

/-- A directory with one context more, under a number that was not taken. -/
theorem Directed.adds (h : Directed M s launched) {d : Directory D A} {x cid : ℕ}
    (hx : x ∉ launched) (hfresh : cid ∉ M.bitmap.used s.directory.cidBitmap)
    (hcontents : M.table.contents d.contextTable =
      Function.update (M.table.contents s.directory.contextTable) (cid : ℤ) (some x))
    (hused : M.bitmap.used d.cidBitmap = insert cid (M.bitmap.used s.directory.cidBitmap))
    (hcomms : ∀ y ∈ s.made, d.comms y = s.directory.comms y) (hself : d.comms x = ⟨none, cid⟩) :
    Directed M { s with directory := d, made := s.made ++ [x] } (launched ++ [x]) where
  table c y := by
    show M.table.contents d.contextTable c = some y ↔ y ∈ s.made ++ [x] ∧ (d.comms y).cid = c
    rw [hcontents, List.mem_append, List.mem_singleton]
    by_cases hc : c = cid
    · -- nobody else has the new number
      have hnobody : ∀ y ∈ s.made, (d.comms y).cid ≠ cid := fun y hy heq => by
        obtain ⟨n, hn, hmem⟩ := h.used y hy
        rw [hcomms y hy, hn] at heq
        exact hfresh (Int.ofNat_inj.mp heq ▸ hmem)
      rw [hc, Function.update_self, Option.some.injEq]
      constructor
      · rintro rfl
        exact ⟨.inr rfl, congrArg Comms.cid hself⟩
      · rintro ⟨hy | hy, hcid⟩
        · exact absurd hcid (hnobody y hy)
        · exact hy.symm
    · rw [Function.update_of_ne hc, h.table]
      constructor
      · rintro ⟨hy, hcid⟩
        exact ⟨.inl hy, by rw [hcomms y hy, hcid]⟩
      · rintro ⟨hy | rfl, hcid⟩
        · exact ⟨hy, by rw [← hcomms y hy, hcid]⟩
        · exact absurd (hcid.symm.trans (congrArg Comms.cid hself)) hc
  used y hy := by
    show ∃ n : ℕ, (d.comms y).cid = n ∧ n ∈ M.bitmap.used d.cidBitmap
    rw [hused]
    rcases List.mem_append.mp hy with hy | hy
    · obtain ⟨n, hn, hmem⟩ := h.used y hy
      exact ⟨n, (congrArg Comms.cid (hcomms y hy)).trans hn, Set.mem_insert_of_mem _ hmem⟩
    · rw [List.mem_singleton.mp hy, hself]
      exact ⟨cid, rfl, Set.mem_insert ..⟩
  ns y hy := by
    rcases List.mem_append.mp hy with hy | hy
    · exact (congrArg Comms.ns (hcomms y hy)).trans (h.ns y hy)
    · rw [List.mem_singleton.mp hy]
      exact congrArg Comms.ns hself
  launched := fun y hy => by
    rcases List.mem_append.mp hy with hy | hy
    · exact List.mem_append_left _ (h.launched hy)
    · exact List.mem_append_right _ hy

/-- A new context, for which the steps of `NEW_CONTEXT` may fail. -/
theorem Directed.launch (h : Directed M s launched) {x : ℕ} (hx : x ∉ launched) :
    Directed M (s.step L M (.launch x)) (launched ++ [x]) := by
  have hsub : launched ⊆ launched ++ [x] := List.subset_append_left _ _
  have hcomms : ∀ (c : Comms) y, y ∈ s.made →
      Function.update s.directory.comms x c y = s.directory.comms y := fun c y hy =>
    Function.update_of_ne (show y ≠ x from fun heq => hx (heq ▸ h.launched hy)) ..
  rw [Post.step]
  rcases halloc : M.bitmap.alloc s.directory.cidBitmap with - | ⟨cid, cidBitmap⟩
  · have hfails : newContext M (s.directory.allocated x) x = (false, s.directory.allocated x) := by
      simp only [newContext, Directory.allocated, halloc]
    rw [hfails]
    exact h.keeps rfl subset_rfl (hcomms _) hsub
  · have hused := M.bitmap.alloc_used halloc
    have hfresh := M.bitmap.alloc_fresh halloc
    obtain ⟨pushed, table, hpush⟩ :
        ∃ pushed table, M.table.push s.directory.contextTable cid x = (pushed, table) := ⟨_, _, rfl⟩
    have hnew : newContext M (s.directory.allocated x) x =
        (pushed, ⟨table, cidBitmap, Function.update s.directory.comms x ⟨none, cid⟩⟩) := by
      simp only [newContext, Directory.allocated, halloc, hpush, Function.update_self,
        Function.update_idem]
      rfl
    rw [hnew]
    rcases pushed with - | -
    · have hcontents := M.table.push_false (congrArg Prod.fst hpush)
      rw [hpush] at hcontents
      refine h.keeps hcontents ?_ (hcomms _) hsub
      show M.bitmap.used s.directory.cidBitmap ⊆ M.bitmap.used cidBitmap
      rw [hused]
      exact Set.subset_insert ..
    · have habsent : M.table.contents s.directory.contextTable cid = none := by
        rcases hfound : M.table.contents s.directory.contextTable cid with - | y
        · rfl
        · obtain ⟨hy, hcid⟩ := (h.table _ y).mp hfound
          obtain ⟨n, hn, hmem⟩ := h.used y hy
          exact absurd hmem (Int.ofNat_inj.mp (hn.symm.trans hcid) ▸ hfresh)
      have hcontents := M.table.push_true (congrArg Prod.fst hpush) habsent
      rw [hpush] at hcontents
      exact h.adds hx hfresh hcontents hused (hcomms _) (Function.update_self ..)

end Directed

/-! ### Runs -/

section Runs

variable {L : FaytTables T U B} {M : ContextTables D A} {s₀ s : Post T U B D A}
  {events : List RouteEvent}

/-- The calls of the registry, and the contexts launched. -/
def registryCalls (events : List RouteEvent) : List RegistryCall :=
  events.filterMap RouteEvent.call?

def launchedContexts (events : List RouteEvent) : List ℕ := events.filterMap RouteEvent.launched?

theorem Post.runs_concat (s : Post T U B D A) (events : List RouteEvent) (e : RouteEvent) :
    s.runs L M (events ++ [e]) = (s.runs L M events).step L M e := by
  rw [runs, List.foldl_append]
  rfl

/-- The registry and the directory agree with what happened. -/
theorem recorded_directed_runs (hrec : Recorded L s₀.registry []) (hdir : Directed M s₀ [])
    (hnames : (registryCalls events).Pairwise fun c c' => ¬ c.Clash c')
    (hfresh : (launchedContexts events).Nodup) :
    Recorded L (s₀.runs L M events).registry (registryCalls events) ∧
      Directed M (s₀.runs L M events) (launchedContexts events) := by
  induction events using List.reverseRecOn with
  | nil => exact ⟨hrec, hdir⟩
  | append_singleton events e ih =>
      rw [registryCalls, List.filterMap_append] at hnames ⊢
      rw [launchedContexts, List.filterMap_append] at hfresh ⊢
      obtain ⟨hnames', -, hlast⟩ := List.pairwise_append.mp hnames
      obtain ⟨hfresh', -, hnew⟩ := List.nodup_append.mp hfresh
      obtain ⟨hrec', hdir'⟩ := ih hnames' hfresh'
      rw [Post.runs_concat]
      cases e with
      | registry call =>
          have hcall : ∀ c' ∈ registryCalls events, ¬ c'.Clash call := fun c' hc' =>
            hlast c' hc' call (List.mem_singleton_self call)
          refine ⟨?_, ?_⟩
          · rcases call with name | ⟨ns, name, ptr⟩
            · exact hrec'.namespace fun hmem => hcall _ hmem rfl
            · exact hrec'.server fun ptr' hmem => hcall _ hmem ⟨rfl, rfl⟩
          · rw [show [RouteEvent.registry call].filterMap RouteEvent.launched? = [] from rfl,
              List.append_nil]
            exact ⟨hdir'.table, hdir'.used, hdir'.ns, hdir'.launched⟩
      | launch x =>
          refine ⟨?_, hdir'.launch fun hmem => ?_⟩
          · rw [show [RouteEvent.launch x].filterMap RouteEvent.call? = [] from rfl,
              List.append_nil]
            exact hrec'
          · exact hnew x hmem x (List.mem_singleton_self x) rfl
      | attach server x =>
          -- the tables are not touched
          refine ⟨?_, ?_⟩
          · rw [show [RouteEvent.attach server x].filterMap RouteEvent.call? = [] from rfl,
              List.append_nil]
            exact ⟨hrec'.named, hrec'.inj, hrec'.table, hrec'.logged, hrec'.nid_used,
              hrec'.nid_inj⟩
          · rw [show [RouteEvent.attach server x].filterMap RouteEvent.launched? = [] from rfl,
              List.append_nil]
            exact ⟨hdir'.table, hdir'.used, hdir'.ns, hdir'.launched⟩

end Runs

/-! ### Main result -/

/-- A server that is found was created under these names. -/
theorem Recorded.createdAs_of_find {L : FaytTables T U B} {h : History T U B}
    {done : List RegistryCall} (hrec : Recorded L h done) {ns name : String} {server : ℕ}
    (hfind : findServer L h.reg ns name = some server) :
    createdAs h.log ns name = some server := by
  rw [findServer] at hfind
  split at hfind
  next p hp =>
    obtain ⟨r, hr, hserver⟩ := Option.bind_eq_some_iff.mp hfind
    rw [← hrec.table (L.namespaces.search_eq hp).symm, ← L.servers.search_eq hr]
    exact hserver
  next => cases hfind

/-- **Where notifications go.**  The number of a bridge without a destination means the one context
it was given to; a destination in a namespace means the context of the server that was created
there under its name; and a destination without a namespace goes through a null pointer. -/
structure Routes (L : FaytTables T U B) (M : ContextTables D A) (s : Post T U B D A) : Prop where
  unique : ∀ x ∈ s.made, ∀ y ∈ s.made,
    (s.directory.comms x).cid = (s.directory.comms y).cid → x = y
  byNumber : ∀ context bridge x, bridge.destination = none →
    notifyDestination L M s context bridge = .ok (some x) →
    x ∈ s.made ∧ (s.directory.comms x).cid = bridge.cid
  numberReaches : ∀ context bridge, ∀ x ∈ s.made, bridge.destination = none →
    (s.directory.comms x).cid = bridge.cid → searchContext M s.directory bridge.cid ≠ none →
    notifyDestination L M s context bridge = .ok (some x)
  byName : ∀ context bridge name ns x, bridge.destination = some name → bridge.ns = some ns →
    notifyDestination L M s context bridge = .ok (some x) →
    ∃ server, createdAs s.registry.log ns name = some server ∧
      (s.registry.reg.servers server).context = some x
  nameReaches : s.registry.Answers L → ∀ context bridge name ns server,
    bridge.destination = some name → bridge.ns = some ns →
    createdAs s.registry.log ns name = some server →
    notifyDestination L M s context bridge = .ok (s.registry.reg.servers server).context
  noNamespace : ∀ context ∈ s.made, ∀ bridge name, bridge.destination = some name →
    bridge.ns = none → ∀ w contexts info,
    syscallNotify L M w s contexts context (some bridge) info = .error .null

section Main

variable {L : FaytTables T U B} {M : ContextTables D A} {s : Post T U B D A} {context : ℕ}
  {bridge : CommBridge}

theorem notifyDestination_number (h : bridge.destination = none) :
    notifyDestination L M s context bridge = .ok (searchContext M s.directory bridge.cid).join := by
  rw [notifyDestination, h]
  rcases searchContext M s.directory bridge.cid with - | r
  · rfl
  · rfl

theorem notifyDestination_name {name ns : String} (h : bridge.destination = some name)
    (hns : bridge.ns = some ns) :
    notifyDestination L M s context bridge =
      .ok ((findServer L s.registry.reg ns name).bind fun server =>
        (s.registry.reg.servers server).context) := by
  simp only [notifyDestination, h, hns, Option.some_or]
  rcases findServer L s.registry.reg ns name with - | server
  · rfl
  · rfl

theorem routes_of_recorded {done : List RegistryCall} {launched : List ℕ}
    (hrec : Recorded L s.registry done) (hdir : Directed M s launched) : Routes L M s where
  unique _ hx _ hy hcid := hdir.cid_inj hx hy hcid
  byNumber context bridge x hdest hok := by
    rw [notifyDestination_number hdest] at hok
    obtain ⟨r, hr, hx⟩ := Option.bind_eq_some_iff.mp (Except.ok.inj hok)
    have hcontents := M.table.search_eq hr
    exact (hdir.table _ x).mp (hcontents.symm.trans hx)
  numberReaches context bridge x hx hdest hcid hsearch := by
    rw [notifyDestination_number hdest]
    obtain ⟨r, hr⟩ := Option.ne_none_iff_exists'.mp hsearch
    have hcontents := M.table.search_eq hr
    rw [hr, hcontents, (hdir.table _ x).mpr ⟨hx, hcid⟩]
    rfl
  byName context bridge name ns x hdest hns hok := by
    rw [notifyDestination_name hdest hns] at hok
    obtain ⟨server, hfind, hx⟩ := Option.bind_eq_some_iff.mp (Except.ok.inj hok)
    exact ⟨server, hrec.createdAs_of_find hfind, hx⟩
  nameReaches hans context bridge name ns server hdest hns hcreated := by
    rw [notifyDestination_name hdest hns, hrec.findServer_eq hans, hcreated]
    rfl
  noNamespace context hmade bridge name hdest hns w contexts info := by
    simp only [syscallNotify, notifyDestination, hdest, hns, hdir.ns context hmade,
      Option.or_none, Exec.error_bind]

/-- Notifications are routed exactly over every history in which no names are used twice and every
context is launched once. -/
theorem notify_routes (L : FaytTables T U B) (M : ContextTables D A)
    (namespaces : ℕ → Namespace U B) (servers : ℕ → Server) (comms : ℕ → Comms)
    (events : List RouteEvent)
    (hnames : (registryCalls events).Pairwise fun c c' => ¬ c.Clash c')
    (hfresh : (launchedContexts events).Nodup) :
    Routes L M ((Post.boot L M namespaces servers comms).runs L M events) := by
  obtain ⟨hrec, hdir⟩ := recorded_directed_runs (recorded_boot namespaces servers)
    (directed_boot (L := L) (M := M) namespaces servers comms) hnames hfresh
  exact routes_of_recorded hrec hdir

end Main

/-- Tables that do not fail, and four numbers. -/
def smallContexts : ContextTables (ℤ → Option ℕ) ℕ :=
  ⟨FallibleMap.function ℤ ℕ, IdSource.below 4⟩

/-- A server with its context, and a context without a server. -/
def vfsEvents : List RouteEvent :=
  [.registry (.namespace "IO"), .registry (.server "IO" "vfs" 5), .launch 9, .attach 5 9,
    .launch 11]

def vfsPost : Post (String → Option ℕ) (String → Option ℕ) ℕ (ℤ → Option ℕ) ℕ :=
  (Post.boot (smallTables 2) smallContexts (fun _ => ⟨⟨0, ""⟩, 0, 0, fun _ => none⟩)
    (fun _ => ⟨none, ⟨0, 0⟩, none, none⟩) fun _ => ⟨some "", 0⟩).runs (smallTables 2) smallContexts
    vfsEvents

theorem notify_routes_vfs :
    notifyDestination (smallTables 2) smallContexts vfsPost 11 ⟨7, 0, 1, some "IO", some "vfs"⟩ =
        .ok (some 9) ∧
      notifyDestination (smallTables 2) smallContexts vfsPost 9 ⟨7, 1, 1, none, none⟩ =
        .ok (some 11) ∧
      ∀ w contexts info, syscallNotify (smallTables 2) smallContexts w vfsPost contexts 9
        (some ⟨7, 1, 1, none, some "vfs"⟩) info = .error .null := by
  have hcalls : registryCalls vfsEvents = [.namespace "IO", .server "IO" "vfs" 5] := rfl
  have hlaunched : launchedContexts vfsEvents = [9, 11] := rfl
  have hroutes : Routes (smallTables 2) smallContexts vfsPost :=
    notify_routes (smallTables 2) smallContexts _ _ _ vfsEvents
      (by rw [hcalls]; simp [RegistryCall.Clash]) (by rw [hlaunched]; decide)
  have hmade : vfsPost.made = [9, 11] := rfl
  refine ⟨rfl, ?_, ?_⟩
  · exact hroutes.numberReaches 9 _ 11 (by simp [hmade]) rfl rfl (Option.some_ne_none _)
  · exact hroutes.noNamespace 9 (by simp [hmade]) _ "vfs" rfl rfl

end Rock
