/-
Rock/ServerLaunch.lean

The launch of the servers at boot: `launch_servers` and `launch_schedulers`.

Both create a server and then launch it.  `launch_schedulers` stores the module in the
record after `create_server`; `launch_servers` stores it before.  Since `create_server`
assigns the whole record, the second loses the module, and `launch_server` goes through a
null pointer.

Every call of `launch_server` is logged with the record as it is then.  What the kernel does
besides (the launch of a server that has a module, the portal, the link and the
notification) is left to an environment that may do anything, and so are the tables and
bitmaps.  Each scheduler is launched with its module and its own copy of its name, whatever
fails on the way; so all servers are if and only if the first server of the second loop does
not get as far as its launch.
-/
import Rock.ServerRegistry

namespace Rock

/-! ### State -/

/-- `struct limine_file`: where it is, and its command line. -/
structure LimineFile where
  addr : ℕ
  cmdline : String

/-- A call of `launch_server`: the server, its record at the time, the module it was created
for, and the name with the buffer that was passed to `create_server`. -/
structure Launch where
  server : ℕ
  record : Server
  file : ℕ
  buffer : ℕ
  text : String
  deriving DecidableEq

/-- The rest of the kernel, with its state `κ`: `launch_server` on a server with a module (the
new context, or -1), and whether `portal`, `sched_establish_shared_link` and
`notification_send` work. -/
structure LaunchEnv (κ : Type) where
  launch : κ → ℕ → Option ℕ × κ
  portal : κ → Bool × κ
  link : κ → Bool × κ
  notify : κ → Bool × κ

/-- The registry, the rest of the kernel, `master_scheduler`, the log of launches, and whether
the kernel has stopped at a null pointer. -/
structure LaunchState (T U B κ : Type) where
  reg : Registry T U B
  env : κ
  masterScheduler : Option ℕ
  launches : List Launch
  stopped : Bool

variable {T U B κ : Type}

namespace LaunchState

variable (s : LaunchState T U B κ)

/-- `alloc`, which returns `s.reg.heap`. -/
def alloc : LaunchState T U B κ := { s with reg := { s.reg with heap := s.reg.heap + 1 } }

/-- A write to the record of a server. -/
def modify (server : ℕ) (f : Server → Server) : LaunchState T U B κ :=
  { s with reg := { s.reg with
    servers := Function.update s.reg.servers server (f (s.reg.servers server)) } }

end LaunchState

/-- How a call of `launch_server` ends. -/
inductive LaunchResult where
  | null
  | failed
  | launched
  deriving DecidableEq

/-- A server that is created and not yet launched. -/
structure Prepared where
  server : ℕ
  buffer : ℕ
  text : String

/-! ### The functions -/

section Functions

variable (L : FaytTables T U B) (E : LaunchEnv κ)

/-- `launch_server`, which starts with `server->file->address`. -/
def launchServer (s : LaunchState T U B κ) (file : ℕ) (q : Prepared) :
    LaunchResult × LaunchState T U B κ :=
  let record := s.reg.servers q.server
  let s := { s with launches := s.launches ++ [Launch.mk q.server record file q.buffer q.text] }
  match record.file with
  | none => (.null, { s with stopped := true })
  | some _ =>
      match E.launch s.env q.server with
      | (none, env) => (.failed, { s with env := env })
      | (some context, env) => (.launched,
          { s with env := env }.modify q.server fun r => { r with context := some context })

/-- A round of the first loop of `launch_schedulers`: the server of processor `i`, or a
failure. -/
def createScheduler (file i : ℕ) (s : LaunchState T U B κ) :
    Option Prepared × LaunchState T U B κ :=
  let server := s.reg.heap
  let s := { s.alloc with masterScheduler := some server }
  let buffer := s.reg.heap
  let s := s.alloc
  let text := "SCHEDULER CORE" ++ toString i
  let created := createServer L s.reg "SCHEDULER" text server
  let s := { s with reg := created.2 }
  if created.1 then
    (some ⟨server, buffer, text⟩, s.modify server fun r => { r with file := some file })
  else (none, s)

/-- The first loop of `launch_schedulers`, from `i` on for `n` processors. -/
def createSchedulers (file : ℕ) : ℕ → ℕ → LaunchState T U B κ →
    Option (List Prepared) × LaunchState T U B κ
  | 0, _, s => (some [], s)
  | n + 1, i, s =>
      match createScheduler L file i s with
      | (none, s) => (none, s)
      | (some q, s) =>
          let rest := createSchedulers file n (i + 1) s
          (rest.1.map (q :: ·), rest.2)

/-- The second loop of `launch_schedulers`. -/
def launchPrepared (file : ℕ) : List Prepared → LaunchState T U B κ → LaunchState T U B κ
  | [], s => s
  | q :: rest, s =>
      let launched := launchServer E s file q
      match launched.1 with
      | .null => launched.2
      | .failed => launchPrepared file rest launched.2
      | .launched =>
          let linked := E.link launched.2.env
          if linked.1 then launchPrepared file rest { launched.2 with env := linked.2 }
          else { launched.2 with env := linked.2 }

/-- `launch_schedulers`, with `bootable_processor_cnt` processors. -/
def launchSchedulerServers (cnt file : ℕ) (s : LaunchState T U B κ) : LaunchState T U B κ :=
  let made := createNamespace L s.reg "SCHEDULER"
  let s := { s with reg := made.2 }
  if made.1 then
    match createSchedulers L file cnt 0 s with
    | (none, s) => s
    | (some servers, s) =>
        let portal := E.portal s.env
        let s := { s with env := portal.2 }
        if portal.1 then launchPrepared E file servers s else s
  else s

/-- The first loop of `launch_servers`. -/
def schedulerLoop (cnt : ℕ) : List LimineFile → LaunchState T U B κ → LaunchState T U B κ
  | [], s => s
  | file :: rest, s =>
      if s.stopped then s
      else if file.cmdline = "scheduler" then
        schedulerLoop cnt rest (launchSchedulerServers L E cnt file.addr s)
      else schedulerLoop cnt rest s

/-- The command lines of the second loop. -/
def ioNames : List String := ["vfs", "device", "ahci", "nvme", "block", "ext"]

/-- The second loop of `launch_servers` up to `create_server`: the new server with its buffer,
and the memory with the module in the record. -/
def prepareIo (file : LimineFile) (s : LaunchState T U B κ) : Prepared × LaunchState T U B κ :=
  let server := s.reg.heap
  let s := s.alloc.modify server fun r => { r with file := some file.addr }
  (⟨server, s.reg.heap, file.cmdline⟩, s.alloc)

/-- The second loop of `launch_servers`. -/
def ioLoop : List LimineFile → LaunchState T U B κ → LaunchState T U B κ
  | [], s => s
  | file :: rest, s =>
      if file.cmdline ∉ ioNames then ioLoop rest s
      else
        let prepared := prepareIo file s
        let q := prepared.1
        let created := createServer L prepared.2.reg "IO" q.text q.server
        let s := { prepared.2 with reg := created.2 }
        if created.1 then
          let launched := launchServer E s file.addr q
          match launched.1, launched.2.masterScheduler with
          | .null, _ => launched.2
          | .failed, _ => launched.2
          | .launched, none => { launched.2 with stopped := true }
          | .launched, some _ =>
              let notified := E.notify launched.2.env
              if notified.1 then ioLoop rest { launched.2 with env := notified.2 }
              else { launched.2 with env := notified.2 }
        else s

/-- The state after `create_namespace("IO")`. -/
def ioStart (s : LaunchState T U B κ) : LaunchState T U B κ :=
  { s with reg := (createNamespace L s.reg "IO").2 }

/-- `launch_servers`.  The response of the boot loader may be missing. -/
def launchServers (cnt : ℕ) (modules : Option (List LimineFile)) (s : LaunchState T U B κ) :
    LaunchState T U B κ :=
  match modules with
  | none => s
  | some modules =>
      let s := schedulerLoop L E cnt modules s
      if s.stopped then s
      else if (createNamespace L s.reg "IO").1 then ioLoop L E modules (ioStart L s)
      else ioStart L s

end Functions

/-! ### What a launch needs -/

/-- The server has the module it was created for, and a copy of its name that is not the
buffer. -/
def Launch.Own (l : Launch) : Prop :=
  l.record.file = some l.file ∧ ∃ a, l.record.name = some ⟨a, l.text⟩ ∧ a ≠ l.buffer

/-- Where the name of a server is. -/
def Server.nameAddr (r : Server) : Option ℕ := r.name.map NameCopy.addr

/-- Every server was launched with its own module and name, and no two share a name. -/
structure LaunchesOwn (launches : List Launch) : Prop where
  own : ∀ l ∈ launches, l.Own
  apart : launches.Pairwise (·.record.nameAddr ≠ ·.record.nameAddr)

/-- The second loop gets to the launch of its first server: the boot loader has given a module
for it, and its namespace and the server itself are created. -/
def ReachesIo (L : FaytTables T U B) (E : LaunchEnv κ) (cnt : ℕ)
    (modules : Option (List LimineFile)) (s : LaunchState T U B κ) : Prop :=
  ∃ files, modules = some files ∧ ∃ file, files.find? (·.cmdline ∈ ioNames) = some file ∧
    let s := schedulerLoop L E cnt files s
    let prepared := prepareIo file (ioStart L s)
    (createNamespace L s.reg "IO").1 = true ∧
      (createServer L prepared.2.reg "IO" prepared.1.text prepared.1.server).1 = true

/-! ### Records -/

section Records

variable {L : FaytTables T U B} {s : Registry T U B} {ns name : String} {ptr : ℕ}

/-- What `create_server` leaves in the record: its own copy of the name, a number, and nothing
else. -/
theorem servers_createServer (hok : (createServer L s ns name ptr).1 = true) :
    ∃ id, (createServer L s ns name ptr).2.servers =
      Function.update s.servers ptr ⟨some ⟨s.heap, name⟩, id, none, none⟩ := by
  by_cases hfound : ∃ p, L.namespaces.search s.namespaceTable ns = some (some p)
  · obtain ⟨p, hp⟩ := hfound
    rw [createServer_found hp]
    exact ⟨_, rfl⟩
  · rw [createServer_missing (not_exists.mp hfound)] at hok
    cases hok

/-- `create_server` writes no other record. -/
theorem servers_createServer_of_ne (L : FaytTables T U B) (s : Registry T U B) (ns name : String)
    {ptr p : ℕ} (hne : p ≠ ptr) : (createServer L s ns name ptr).2.servers p = s.servers p := by
  rw [createServer]
  split
  · exact Function.update_of_ne hne ..
  · rfl

theorem heap_le_createServer (L : FaytTables T U B) (s : Registry T U B) (ns name : String)
    (ptr : ℕ) : s.heap ≤ (createServer L s ns name ptr).2.heap := by
  rw [createServer]
  split
  · exact Nat.le_succ s.heap
  · exact Nat.le_refl s.heap

theorem heap_createServer (hok : (createServer L s ns name ptr).1 = true) :
    (createServer L s ns name ptr).2.heap = s.heap + 1 := by
  by_cases hfound : ∃ p, L.namespaces.search s.namespaceTable ns = some (some p)
  · obtain ⟨p, hp⟩ := hfound
    rw [createServer_found hp]
    rfl
  · rw [createServer_missing (not_exists.mp hfound)] at hok
    cases hok

end Records

/-! ### The schedulers -/

/-- New memory is taken, and nothing that was there changes. -/
structure LaunchState.Grows (s s' : LaunchState T U B κ) : Prop where
  heap : s.reg.heap ≤ s'.reg.heap
  launches : s'.launches = s.launches
  stopped : s'.stopped = s.stopped
  servers : ∀ p < s.reg.heap, s'.reg.servers p = s.reg.servers p

namespace LaunchState.Grows

variable {s s' s'' : LaunchState T U B κ}

theorem refl (s : LaunchState T U B κ) : s.Grows s := ⟨Nat.le_refl _, rfl, rfl, fun _ _ => rfl⟩

theorem trans (h : s.Grows s') (h' : s'.Grows s'') : s.Grows s'' where
  heap := Nat.le_trans h.heap h'.heap
  launches := h'.launches.trans h.launches
  stopped := h'.stopped.trans h.stopped
  servers p hp := (h'.servers p (Nat.lt_of_lt_of_le hp h.heap)).trans (h.servers p hp)

end LaunchState.Grows

/-- A server that can be launched: it has the module and its own copy of the name, at an address
from `lo` on. -/
structure Ready (s : LaunchState T U B κ) (lo file : ℕ) (q : Prepared) : Prop where
  server : q.server < s.reg.heap
  file : (s.reg.servers q.server).file = some file
  name : ∃ a, (s.reg.servers q.server).name = some ⟨a, q.text⟩ ∧ a ≠ q.buffer ∧ lo ≤ a ∧
    a < s.reg.heap

theorem Ready.grows {s s' : LaunchState T U B κ} {lo file : ℕ} {q : Prepared}
    (h : Ready s lo file q) (hgrows : s.Grows s') : Ready s' lo file q where
  server := Nat.lt_of_lt_of_le h.server hgrows.heap
  file := by
    rw [hgrows.servers _ h.server]
    exact h.file
  name := by
    obtain ⟨a, hname, hne, hlo, hhi⟩ := h.name
    rw [hgrows.servers _ h.server]
    exact ⟨a, hname, hne, hlo, Nat.lt_of_lt_of_le hhi hgrows.heap⟩

theorem Ready.mono {s : LaunchState T U B κ} {lo lo' file : ℕ} {q : Prepared}
    (h : Ready s lo file q) (hle : lo' ≤ lo) : Ready s lo' file q := by
  obtain ⟨a, hname, hne, hlo, hhi⟩ := h.name
  exact ⟨h.server, h.file, a, hname, hne, Nat.le_trans hle hlo, hhi⟩

section Schedulers

variable {L : FaytTables T U B} {E : LaunchEnv κ}

/-- One round of the first loop. -/
theorem createScheduler_spec (L : FaytTables T U B) (file i : ℕ) (s : LaunchState T U B κ) :
    s.Grows (createScheduler L file i s).2 ∧
    ∀ q, (createScheduler L file i s).1 = some q →
      Ready (createScheduler L file i s).2 s.reg.heap file q := by
  have hheap : ∀ {text}, s.reg.heap ≤
      (createServer L s.alloc.alloc.reg "SCHEDULER" text s.reg.heap).2.heap := fun {text} =>
    Nat.le_trans (Nat.le_add_right _ 2)
      (heap_le_createServer L s.alloc.alloc.reg "SCHEDULER" text s.reg.heap)
  have hold : ∀ {text}, ∀ p < s.reg.heap,
      (createServer L s.alloc.alloc.reg "SCHEDULER" text s.reg.heap).2.servers p =
        s.reg.servers p :=
    fun p hp => servers_createServer_of_ne L _ _ _ (Nat.ne_of_lt hp)
  simp only [createScheduler]
  split
  · rename_i hok
    refine ⟨⟨hheap, rfl, rfl, fun p hp =>
      (Function.update_of_ne (Nat.ne_of_lt hp) ..).trans (hold p hp)⟩, fun q hq => ?_⟩
    obtain rfl := Option.some.inj hq
    -- the record as `create_server` has left it, with the module
    obtain ⟨id, hservers⟩ := servers_createServer hok
    have hend := heap_createServer hok
    simp only [LaunchState.modify, hservers, Function.update_self]
    have hlt : s.reg.heap + 2 <
        (createServer L s.alloc.alloc.reg "SCHEDULER" _ s.reg.heap).2.heap :=
      Nat.lt_of_lt_of_eq (Nat.lt_succ_self _) hend.symm
    refine ⟨Nat.lt_trans (Nat.lt_add_of_pos_right (by decide)) hlt, ?_, s.reg.heap + 2, ?_, ?_,
      Nat.le_add_right _ 2, hlt⟩
    · simp
    · simp [LaunchState.alloc]
    · exact Nat.ne_of_gt (Nat.lt_succ_self _)
  · exact ⟨⟨hheap, rfl, rfl, hold⟩, fun q hq => by cases hq⟩

/-- The first loop of `launch_schedulers`: what it returns can be launched, and no two servers
share a name. -/
theorem createSchedulers_spec (L : FaytTables T U B) (file n i : ℕ) (s : LaunchState T U B κ) :
    s.Grows (createSchedulers L file n i s).2 ∧
    ∀ qs, (createSchedulers L file n i s).1 = some qs →
      (∀ q ∈ qs, Ready (createSchedulers L file n i s).2 s.reg.heap file q) ∧
      qs.Pairwise fun q q' =>
        ((createSchedulers L file n i s).2.reg.servers q.server).nameAddr ≠
          ((createSchedulers L file n i s).2.reg.servers q'.server).nameAddr := by
  induction n generalizing i s with
  | zero =>
      refine ⟨.refl s, fun qs hqs => ?_⟩
      obtain rfl : [] = qs := Option.some.inj hqs
      exact ⟨fun q hq => absurd hq List.not_mem_nil, List.Pairwise.nil⟩
  | succ n ih =>
      obtain ⟨hgrows, hready⟩ := createScheduler_spec L file i s
      rw [createSchedulers]
      generalize createScheduler L file i s = round at hgrows hready ⊢
      obtain ⟨- | q, s₁⟩ := round <;> dsimp only at hgrows hready ⊢
      · exact ⟨hgrows, fun qs hqs => by cases hqs⟩
      · obtain ⟨hgrows', hrest⟩ := ih (i + 1) s₁
        refine ⟨hgrows.trans hgrows', fun qs hqs => ?_⟩
        obtain ⟨rest, hsome, rfl⟩ := Option.map_eq_some_iff.mp hqs
        obtain ⟨hall, hpairs⟩ := hrest rest hsome
        have hq := (hready q rfl).grows hgrows'
        refine ⟨List.forall_mem_cons.mpr ⟨hq, fun q' hq' => (hall q' hq').mono hgrows.heap⟩,
          List.pairwise_cons.mpr ⟨fun q' hq' heq => ?_, hpairs⟩⟩
        -- the name of the first server was there before those of the others
        obtain ⟨a, hname, -, -, hlt⟩ := (hready q rfl).name
        obtain ⟨a', hname', -, hle, -⟩ := (hall q' hq').name
        rw [hgrows'.servers _ (hready q rfl).server] at heq
        simp only [Server.nameAddr, hname, hname', Option.map_some, Option.some.injEq] at heq
        exact absurd hlt (Nat.not_lt_of_le (heq ▸ hle))

/-- What a launch leaves as it is: the modules and names of all servers. -/
structure SameNames (s s' : LaunchState T U B κ) : Prop where
  heap : s'.reg.heap = s.reg.heap
  file : ∀ p, (s'.reg.servers p).file = (s.reg.servers p).file
  name : ∀ p, (s'.reg.servers p).name = (s.reg.servers p).name

theorem Ready.sameNames {s s' : LaunchState T U B κ} {lo file : ℕ} {q : Prepared}
    (h : Ready s lo file q) (hsame : SameNames s s') : Ready s' lo file q := by
  obtain ⟨hserver, hfile, a, hname, hne, hlo, hhi⟩ := h
  refine ⟨hsame.heap ▸ hserver, (hsame.file _).trans hfile, a, (hsame.name _).trans hname, hne, hlo,
    hsame.heap ▸ hhi⟩

/-- A server with a module is logged and launched, or its launch fails. -/
theorem launchServer_spec (E : LaunchEnv κ) {s : LaunchState T U B κ} (file : ℕ) {q : Prepared}
    (hfile : (s.reg.servers q.server).file ≠ none) :
    (launchServer E s file q).1 ≠ .null ∧ SameNames s (launchServer E s file q).2 ∧
      (launchServer E s file q).2.launches =
        s.launches ++ [⟨q.server, s.reg.servers q.server, file, q.buffer, q.text⟩] ∧
      (launchServer E s file q).2.stopped = s.stopped := by
  obtain ⟨m, hm⟩ := Option.ne_none_iff_exists'.mp hfile
  simp only [launchServer, hm]
  rcases E.launch s.env q.server with ⟨- | context, env⟩
  · exact ⟨fun hc => LaunchResult.noConfusion hc, ⟨rfl, fun _ => rfl, fun _ => rfl⟩, rfl, rfl⟩
  · refine ⟨fun hc => LaunchResult.noConfusion hc, ⟨rfl, fun p => ?_, fun p => ?_⟩, rfl, rfl⟩ <;>
      by_cases hp : p = q.server
    · subst hp
      simp [LaunchState.modify]
    · simp [LaunchState.modify, hp]
    · subst hp
      simp [LaunchState.modify]
    · simp [LaunchState.modify, hp]

/-- The log so far: every server was launched with its module and its own name, and the names
are in memory that is taken. -/
structure Launched (s : LaunchState T U B κ) : Prop where
  own : LaunchesOwn s.launches
  below : ∀ l ∈ s.launches, ∀ a ∈ l.record.nameAddr, a < s.reg.heap

theorem Launched.grows {s s' : LaunchState T U B κ} (h : Launched s) (hgrows : s.Grows s') :
    Launched s' where
  own := hgrows.launches ▸ h.own
  below l hl a ha := Nat.lt_of_lt_of_le (h.below l (hgrows.launches ▸ hl) a ha) hgrows.heap

/-- The launch of a server that is ready goes well with a log in which its name is not. -/
theorem Launched.launchServer (E : LaunchEnv κ) {s : LaunchState T U B κ} (h : Launched s)
    {lo file : ℕ} {q : Prepared} (hready : Ready s lo file q)
    (hnew : ∀ l ∈ s.launches, l.record.nameAddr ≠ (s.reg.servers q.server).nameAddr) :
    Launched (launchServer E s file q).2 := by
  have hfile : (s.reg.servers q.server).file ≠ none := by
    rw [hready.file]
    exact Option.some_ne_none file
  obtain ⟨-, hsame, hlaunches, -⟩ := launchServer_spec E file hfile
  obtain ⟨a, hname, hne, -, hlt⟩ := hready.name
  refine ⟨⟨?_, ?_⟩, ?_⟩ <;> rw [hlaunches]
  · intro l hl
    rcases List.mem_append.mp hl with hl | hl
    · exact h.own.own l hl
    · obtain rfl := List.mem_singleton.mp hl
      exact ⟨hready.file, a, hname, hne⟩
  · refine List.pairwise_append.mpr
      ⟨h.own.apart, List.pairwise_singleton _ _, fun l hl l' hl' => ?_⟩
    obtain rfl := List.mem_singleton.mp hl'
    exact hnew l hl
  · intro l hl a' ha'
    rw [hsame.heap]
    rcases List.mem_append.mp hl with hl | hl
    · exact h.below l hl a' ha'
    · obtain rfl := List.mem_singleton.mp hl
      simp only [Server.nameAddr, hname, Option.map_some, Option.mem_some_iff] at ha'
      exact ha' ▸ hlt

/-- The second loop of `launch_schedulers`. -/
theorem Launched.launchPrepared (E : LaunchEnv κ) {lo file : ℕ} {qs : List Prepared}
    {s : LaunchState T U B κ} (h : Launched s) (hready : ∀ q ∈ qs, Ready s lo file q)
    (hpairs : qs.Pairwise fun q q' =>
      (s.reg.servers q.server).nameAddr ≠ (s.reg.servers q'.server).nameAddr)
    (hnew : ∀ q ∈ qs, ∀ l ∈ s.launches,
      l.record.nameAddr ≠ (s.reg.servers q.server).nameAddr) :
    Launched (launchPrepared E file qs s) ∧ (launchPrepared E file qs s).stopped = s.stopped := by
  induction qs generalizing s with
  | nil => exact ⟨h, rfl⟩
  | cons q rest ih =>
      obtain ⟨hq, hrest⟩ := List.forall_mem_cons.mp hready
      obtain ⟨hfirst, hpairs⟩ := List.pairwise_cons.mp hpairs
      obtain ⟨hqnew, hnew⟩ := List.forall_mem_cons.mp hnew
      have hfile : (s.reg.servers q.server).file ≠ none := by
        rw [hq.file]
        exact Option.some_ne_none file
      have hlaunched := h.launchServer E hq hqnew
      obtain ⟨hnull, hsame, hlaunches, hstopped⟩ := launchServer_spec E file hfile
      have haddr : ∀ p, ((Rock.launchServer E s file q).2.reg.servers p).nameAddr =
          (s.reg.servers p).nameAddr := fun p => congrArg (Option.map _) (hsame.name p)
      -- the rest of the loop, whatever the kernel does in between
      have hgo : ∀ env,
          Launched (Rock.launchPrepared E file rest
            { (Rock.launchServer E s file q).2 with env := env }) ∧
          (Rock.launchPrepared E file rest
            { (Rock.launchServer E s file q).2 with env := env }).stopped = s.stopped := by
        intro env
        rw [← hstopped]
        refine ih (s := { (Rock.launchServer E s file q).2 with env := env })
          ⟨hlaunched.own, hlaunched.below⟩ (fun q' hq' => ?_) ?_ fun q' hq' l hl => ?_
        · exact (hrest q' hq').sameNames ⟨hsame.heap, hsame.file, hsame.name⟩
        · simpa only [haddr] using hpairs
        · rw [haddr]
          rw [hlaunches] at hl
          rcases List.mem_append.mp hl with hl | hl
          · exact hnew q' hq' l hl
          · obtain rfl := List.mem_singleton.mp hl
            exact hfirst q' hq'
      rw [Rock.launchPrepared]
      dsimp only
      split
      · rename_i hret
        exact absurd hret hnull
      · exact hgo (Rock.launchServer E s file q).2.env
      · split
        · exact hgo _
        · exact ⟨⟨hlaunched.own, hlaunched.below⟩, hstopped⟩

/-- `launch_schedulers` launches every scheduler with its module and name. -/
theorem Launched.launchSchedulerServers {s : LaunchState T U B κ} (h : Launched s)
    (L : FaytTables T U B) (E : LaunchEnv κ) (cnt file : ℕ) :
    Launched (launchSchedulerServers L E cnt file s) ∧
      (launchSchedulerServers L E cnt file s).stopped = s.stopped := by
  have hmade : s.Grows { s with reg := (createNamespace L s.reg "SCHEDULER").2 } :=
    ⟨Nat.le_add_right _ 2, rfl, rfl, fun _ _ => rfl⟩
  have h₁ := h.grows hmade
  rw [Rock.launchSchedulerServers]
  dsimp only
  split
  · obtain ⟨hgrows, hspec⟩ := createSchedulers_spec L file cnt 0
      { s with reg := (createNamespace L s.reg "SCHEDULER").2 }
    have h₂ := h₁.grows hgrows
    split
    · rename_i s₂ hcreate
      rw [hcreate] at hgrows h₂
      exact ⟨h₂, hgrows.stopped⟩
    · rename_i servers s₂ hcreate
      rw [hcreate] at hgrows h₂ hspec
      obtain ⟨hready, hpairs⟩ := hspec servers rfl
      split
      · have hready' : ∀ q ∈ servers, Ready { s₂ with env := (E.portal s₂.env).2 }
            (createNamespace L s.reg "SCHEDULER").2.heap file q :=
          fun q hq => (hready q hq).sameNames ⟨rfl, fun _ => rfl, fun _ => rfl⟩
        -- the names in the log are older than those of the new servers
        have hnew : ∀ q ∈ servers, ∀ l ∈ s₂.launches,
            l.record.nameAddr ≠ (s₂.reg.servers q.server).nameAddr := by
          intro q hq l hl heq
          obtain ⟨a, hname, -, hlo, -⟩ := (hready q hq).name
          have hmem : a ∈ l.record.nameAddr := by
            rw [heq, Server.nameAddr, hname]
            rfl
          exact absurd (h₁.below l (hgrows.launches ▸ hl) a hmem) (Nat.not_lt_of_le hlo)
        have h₃ : Launched { s₂ with env := (E.portal s₂.env).2 } := ⟨h₂.own, h₂.below⟩
        have hlaunch := h₃.launchPrepared E hready' hpairs hnew
        exact ⟨hlaunch.1, hlaunch.2.trans hgrows.stopped⟩
      · exact ⟨⟨h₂.own, h₂.below⟩, hgrows.stopped⟩
  · exact ⟨h₁, rfl⟩

/-- The first loop of `launch_servers`. -/
theorem Launched.schedulerLoop {s : LaunchState T U B κ} (h : Launched s) (L : FaytTables T U B)
    (E : LaunchEnv κ) (cnt : ℕ) (files : List LimineFile) :
    Launched (schedulerLoop L E cnt files s) ∧
      (schedulerLoop L E cnt files s).stopped = s.stopped := by
  induction files generalizing s with
  | nil => exact ⟨h, rfl⟩
  | cons file rest ih =>
      rw [Rock.schedulerLoop]
      split
      · exact ⟨h, rfl⟩
      · split
        · obtain ⟨hlaunched, hstopped⟩ := h.launchSchedulerServers L E cnt file.addr
          obtain ⟨hrest, hstopped'⟩ := ih hlaunched
          exact ⟨hrest, hstopped'.trans hstopped⟩
        · exact ih h

end Schedulers

/-! ### The servers of the second loop -/

section Io

variable {L : FaytTables T U B} {E : LaunchEnv κ} {s : LaunchState T U B κ}

/-- The second loop without a server to launch. -/
theorem ioLoop_of_none {files : List LimineFile}
    (hnone : files.find? (·.cmdline ∈ ioNames) = none) : ioLoop L E files s = s := by
  induction files with
  | nil => rfl
  | cons file rest ih =>
      rw [List.find?_eq_none] at hnone
      obtain ⟨hfile, hrest⟩ := List.forall_mem_cons.mp hnone
      rw [ioLoop, if_pos (by simpa using hfile)]
      exact ih (List.find?_eq_none.mpr hrest)

/-- The second loop starts with the first server. -/
theorem ioLoop_of_first (L : FaytTables T U B) (E : LaunchEnv κ) (s : LaunchState T U B κ)
    {files : List LimineFile} {file : LimineFile}
    (hfirst : files.find? (·.cmdline ∈ ioNames) = some file) :
    ∃ rest, ioLoop L E files s = ioLoop L E (file :: rest) s ∧ file.cmdline ∈ ioNames := by
  induction files with
  | nil => cases hfirst
  | cons file' rest ih =>
      by_cases hfile : file'.cmdline ∈ ioNames
      · rw [List.find?_cons_of_pos (by simpa using hfile)] at hfirst
        cases hfirst
        exact ⟨rest, rfl, hfile⟩
      · rw [List.find?_cons_of_neg (by simpa using hfile)] at hfirst
        obtain ⟨rest', heq, hmem⟩ := ih hfirst
        refine ⟨rest', ?_, hmem⟩
        rw [ioLoop, if_pos hfile]
        exact heq

/-- A server without a module stops the kernel. -/
theorem launchServer_null (E : LaunchEnv κ) {file : ℕ} {q : Prepared}
    (hfile : (s.reg.servers q.server).file = none) :
    launchServer E s file q = (.null,
      { s with
        launches := s.launches ++ [⟨q.server, s.reg.servers q.server, file, q.buffer, q.text⟩]
        stopped := true }) := by
  simp only [launchServer, hfile]

/-- The first server of the second loop is launched without a module, if it is created. -/
theorem launches_ioLoop (L : FaytTables T U B) (E : LaunchEnv κ) (s : LaunchState T U B κ)
    {file : LimineFile} (hfile : file.cmdline ∈ ioNames) (rest : List LimineFile) :
    if (createServer L (prepareIo file s).2.reg "IO" (prepareIo file s).1.text
        (prepareIo file s).1.server).1 = true then
      ∃ l, (ioLoop L E (file :: rest) s).launches = s.launches ++ [l] ∧ l.record.file = none
    else (ioLoop L E (file :: rest) s).launches = s.launches := by
  rw [ioLoop, if_neg (not_not.mpr hfile)]
  dsimp only
  split
  · rename_i hok
    obtain ⟨id, hservers⟩ := servers_createServer hok
    rw [launchServer_null]
    · exact ⟨_, rfl, by dsimp only; rw [hservers, Function.update_self]⟩
    · dsimp only
      rw [hservers, Function.update_self]
  · rfl

end Io

/-! ### Where every server runs its own module -/

section Main

variable {L : FaytTables T U B} {E : LaunchEnv κ} {s : LaunchState T U B κ} {cnt : ℕ}
  {modules : Option (List LimineFile)}

/-- A server of the second loop that is launched has lost its module. -/
theorem ReachesIo.exists_launch (hstopped : s.stopped = false) (h : Launched s)
    (hreach : ReachesIo L E cnt modules s) :
    ∃ l ∈ (launchServers L E cnt modules s).launches, l.record.file = none := by
  obtain ⟨files, rfl, file, hfirst, hmade, hcreated⟩ := hreach
  have hgoes := (h.schedulerLoop L E cnt files).2.trans hstopped
  obtain ⟨rest, heq, hmem⟩ :=
    ioLoop_of_first L E (ioStart L (schedulerLoop L E cnt files s)) hfirst
  have hlaunches := launches_ioLoop L E (ioStart L (schedulerLoop L E cnt files s)) hmem rest
  rw [if_pos hcreated] at hlaunches
  obtain ⟨l, hl, hfile⟩ := hlaunches
  refine ⟨l, ?_, hfile⟩
  simp only [launchServers, hgoes, hmade, Bool.false_eq_true, if_false, if_true]
  rw [heq, hl]
  exact List.mem_append_right _ (List.mem_singleton_self l)

/-- Without such a server, only schedulers are launched. -/
theorem own_of_not_reachesIo (hstopped : s.stopped = false) (h : Launched s)
    (hreach : ¬ ReachesIo L E cnt modules s) :
    LaunchesOwn (launchServers L E cnt modules s).launches := by
  rcases modules with - | files
  · exact h.own
  · obtain ⟨hloop, hgoes⟩ := h.schedulerLoop L E cnt files
    rw [hstopped] at hgoes
    simp only [launchServers, hgoes, Bool.false_eq_true, if_false]
    split
    · rename_i hmade
      rcases hfirst : files.find? (·.cmdline ∈ ioNames) with - | file
      · rw [ioLoop_of_none hfirst]
        exact hloop.own
      · obtain ⟨rest, heq, hmem⟩ :=
          ioLoop_of_first L E (ioStart L (schedulerLoop L E cnt files s)) hfirst
        have hlaunches := launches_ioLoop L E (ioStart L (schedulerLoop L E cnt files s)) hmem rest
        rw [if_neg fun hcreated => hreach ⟨files, rfl, file, hfirst, hmade, hcreated⟩] at hlaunches
        rw [heq, hlaunches]
        exact hloop.own
    · exact hloop.own

/-- **Where every server runs its own module.**  Each call of `launch_server` gets a record with
the module the server was created for and its own copy of the name, if and only if no server
of the second loop is launched.  What `create_server` leaves of the other fields of a record
is what it would write there. -/
theorem launches_own_iff (L : FaytTables T U B) (E : LaunchEnv κ) (cnt : ℕ)
    (modules : Option (List LimineFile)) (reg : Registry T U B) (env : κ)
    (master : Option ℕ) :
    (LaunchesOwn (launchServers L E cnt modules ⟨reg, env, master, [], false⟩).launches ↔
      ¬ ReachesIo L E cnt modules ⟨reg, env, master, [], false⟩) ∧
    ∀ (s : Registry T U B) (p : ℕ) (name : String) (ptr : ℕ),
      (((createServerIn L s p name ptr).2.servers ptr).context = (s.servers ptr).context ∧
        ((createServerIn L s p name ptr).2.servers ptr).file = (s.servers ptr).file) ↔
      (s.servers ptr).context = none ∧ (s.servers ptr).file = none := by
  have hboot : Launched (⟨reg, env, master, [], false⟩ : LaunchState T U B κ) :=
    ⟨⟨fun l hl => absurd hl List.not_mem_nil, List.Pairwise.nil⟩,
      fun l hl => absurd hl List.not_mem_nil⟩
  refine ⟨⟨fun hown hreach => ?_, own_of_not_reachesIo rfl hboot⟩, fun s p name ptr => ?_⟩
  · obtain ⟨l, hl, hfile⟩ := hreach.exists_launch rfl hboot
    have hmodule := (hown.own l hl).1
    rw [hfile] at hmodule
    cases hmodule
  · have hrecord : (createServerIn L s p name ptr).2.servers ptr = ⟨some ⟨s.heap, name⟩, ⟨_, _⟩,
        none, none⟩ := Function.update_self ..
    rw [hrecord, eq_comm (a := none), eq_comm (a := none)]

end Main

/-- A kernel in which everything works. -/
def quietEnv : LaunchEnv Unit where
  launch _ _ := (some 1, ())
  portal _ := (true, ())
  link _ := (true, ())
  notify _ := (true, ())

/-- The only module is `vfs`: its server is launched without a module. -/
theorem launches_without_module :
    (launchServers (smallTables 4) quietEnv 1 (some [⟨7, "vfs"⟩])
      ⟨(smallBoot 4).reg, (), none, [], false⟩).launches =
        [⟨3, ⟨some ⟨5, "vfs"⟩, ⟨0, 0⟩, none, none⟩, 7, 4, "vfs"⟩] ∧
    ¬ LaunchesOwn (launchServers (smallTables 4) quietEnv 1 (some [⟨7, "vfs"⟩])
      ⟨(smallBoot 4).reg, (), none, [], false⟩).launches := by
  have hlaunches : (launchServers (smallTables 4) quietEnv 1 (some [⟨7, "vfs"⟩])
      ⟨(smallBoot 4).reg, (), none, [], false⟩).launches =
        [⟨3, ⟨some ⟨5, "vfs"⟩, ⟨0, 0⟩, none, none⟩, 7, 4, "vfs"⟩] := by decide
  refine ⟨hlaunches, fun hown => ?_⟩
  rw [hlaunches] at hown
  have hfile := (hown.own _ (List.mem_singleton_self _)).1
  cases hfile

end Rock
