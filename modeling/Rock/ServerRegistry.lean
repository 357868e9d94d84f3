/-
Rock/ServerRegistry.lean

The registry of servers (kernel/core/server.c): `create_namespace`, `create_server` and
`find_server`.

A namespace has a number, a bitmap of the numbers of its servers and a table of its servers
by name; a global table holds the namespaces by name.  The bitmaps and the hash tables are
those of fayt: a bitmap gives a fresh number or fails, a table fails or behaves as a map.

A history is the registry together with the list of the servers that were created.  The
tables always agree with that list (`Recorded`), whatever fails.  The numbers do not: both
functions go on with the number -1 when the bitmap is exhausted, and both keep the number
when the table refuses the entry.  So the registry is faithful if and only if no call has
exactly one of its two steps fail, no server is created in a namespace with the number -1,
and no search for a registered server fails.
-/
import Rock.Containers
import Mathlib.Data.List.Infix

namespace Rock

/-! ### The registry -/

/-- `struct server_id`. -/
structure ServerId where
  nid : ℤ
  sid : ℤ
  deriving DecidableEq

/-- A copy of a name, made by `alloc` and `strcpy`. -/
structure NameCopy where
  addr : ℕ
  text : String
  deriving DecidableEq

/-- `struct server`, without the lock.  The context and the module are pointers. -/
structure Server where
  name : Option NameCopy
  id : ServerId
  context : Option ℕ
  file : Option ℕ
  deriving DecidableEq

/-- `struct namespace`. -/
structure Namespace (U B : Type) where
  name : NameCopy
  nid : ℤ
  sidBitmap : B
  serverTable : U

/-- The containers of fayt: a table of namespaces, a table of servers and a bitmap. -/
structure FaytTables (T U B : Type) where
  namespaces : FallibleMap String ℕ T
  servers : FallibleMap String ℕ U
  bitmap : IdSource B

/-- The global table and bitmap, the namespaces and servers in memory, and the next address
that `alloc` returns. -/
structure Registry (T U B : Type) where
  namespaceTable : T
  nidBitmap : B
  namespaces : ℕ → Namespace U B
  servers : ℕ → Server
  heap : ℕ

variable {T U B : Type}

/-- `({ int id; int ret = bitmap_alloc(&bitmap, &id); ret == -1 ? ret : id; })`, and the
bitmap after it. -/
def IdSource.take (src : IdSource B) (b : B) : ℤ × B :=
  match src.alloc b with
  | some (i, b') => (i, b')
  | none => (-1, b)

section Calls

variable (L : FaytTables T U B) (s : Registry T U B)

/-- `create_namespace`: whether it returns 0. -/
def createNamespace (name : String) : Bool × Registry T U B :=
  let ptr := s.heap
  let nid := L.bitmap.take s.nidBitmap
  let pushed := L.namespaces.push s.namespaceTable name ptr
  (pushed.1,
    { s with
      namespaceTable := pushed.2
      nidBitmap := nid.2
      namespaces := Function.update s.namespaces ptr
        ⟨⟨s.heap + 1, name⟩, nid.1, L.bitmap.empty, L.servers.empty⟩
      heap := s.heap + 2 })

/-- `create_server` once the namespace is found.  The whole record is assigned. -/
def createServerIn (p : ℕ) (name : String) (server : ℕ) : Bool × Registry T U B :=
  let ns := s.namespaces p
  let sid := L.bitmap.take ns.sidBitmap
  let pushed := L.servers.push ns.serverTable name server
  (pushed.1,
    { s with
      namespaces := Function.update s.namespaces p
        { ns with sidBitmap := sid.2, serverTable := pushed.2 }
      servers := Function.update s.servers server
        { name := some ⟨s.heap, name⟩, id := ⟨ns.nid, sid.1⟩, context := none, file := none }
      heap := s.heap + 1 })

/-- `create_server`: whether it returns 0. -/
def createServer (namespaceName name : String) (server : ℕ) : Bool × Registry T U B :=
  match L.namespaces.search s.namespaceTable namespaceName with
  | some (some p) => createServerIn L s p name server
  | _ => (false, s)

/-- `find_server`. -/
def findServer (namespaceName serverName : String) : Option ℕ :=
  match L.namespaces.search s.namespaceTable namespaceName with
  | some (some p) => ((L.servers.search (s.namespaces p).serverTable serverName)).join
  | _ => none

end Calls

/-! ### Histories -/

/-- A call of one of the two functions that change the registry. -/
inductive RegistryCall where
  | namespace (name : String)
  | server (namespaceName name : String) (ptr : ℕ)

/-- Two calls with the same name. -/
def RegistryCall.Clash : RegistryCall → RegistryCall → Prop
  | .namespace name, .namespace name' => name = name'
  | .server ns name _, .server ns' name' _ => ns = ns' ∧ name = name'
  | _, _ => False

/-- A call of `create_server` that returned 0, with the number it produced. -/
structure Created where
  ns : String
  name : String
  server : ℕ
  id : ServerId
  deriving DecidableEq

/-- The registry and the servers created so far. -/
structure History (T U B : Type) where
  reg : Registry T U B
  log : List Created

section Histories

variable (L : FaytTables T U B)

/-- Whether the call returns 0, and the registry after it. -/
def RegistryCall.run (s : Registry T U B) : RegistryCall → Bool × Registry T U B
  | .namespace name => createNamespace L s name
  | .server ns name ptr => createServer L s ns name ptr

/-- The server a call creates. -/
def RegistryCall.created (s : Registry T U B) : RegistryCall → List Created
  | .namespace _ => []
  | .server ns name ptr =>
      let r := createServer L s ns name ptr
      if r.1 then [⟨ns, name, ptr, (r.2.servers ptr).id⟩] else []

/-- A call and its entry in the log. -/
def History.step (h : History T U B) (c : RegistryCall) : History T U B :=
  ⟨(c.run L h.reg).2, h.log ++ c.created L h.reg⟩

/-- The registry at boot, in a memory that holds anything. -/
def History.boot (namespaces : ℕ → Namespace U B) (servers : ℕ → Server) : History T U B :=
  ⟨⟨L.namespaces.empty, L.bitmap.empty, namespaces, servers, 1⟩, []⟩

/-- A sequence of calls. -/
def History.runs (h : History T U B) (calls : List RegistryCall) : History T U B :=
  calls.foldl (History.step L) h

end Histories

/-- The server created under a pair of names. -/
def createdAs (log : List Created) (ns name : String) : Option ℕ :=
  (log.find? fun e => e.ns = ns ∧ e.name = name).map Created.server

/-- No number is taken from one registry to the next. -/
def SameIds (L : FaytTables T U B) (s s' : Registry T U B) : Prop :=
  L.bitmap.used s'.nidBitmap = L.bitmap.used s.nidBitmap ∧
  ∀ ns p, L.namespaces.contents s.namespaceTable ns = some p →
    L.bitmap.used (s'.namespaces p).sidBitmap = L.bitmap.used (s.namespaces p).sidBitmap

/-- The registry is a faithful map with unique numbers along the calls: the numbers of the
servers are not negative and differ, a server is found exactly under the names it was
created with, and a failed call changes nothing. -/
structure Faithful (L : FaytTables T U B) (h₀ : History T U B) (calls : List RegistryCall) :
    Prop where
  ids_nonneg : ∀ e ∈ (h₀.runs L calls).log, 0 ≤ e.id.nid ∧ 0 ≤ e.id.sid
  ids_ne : (h₀.runs L calls).log.Pairwise (·.id ≠ ·.id)
  finds : ∀ pre, pre <+: calls → ∀ ns name,
    findServer L (h₀.runs L pre).reg ns name = createdAs (h₀.runs L pre).log ns name
  failures : ∀ pre c, pre ++ [c] <+: calls → (c.run L (h₀.runs L pre).reg).1 = false →
    (∀ ns name, findServer L (c.run L (h₀.runs L pre).reg).2 ns name =
      findServer L (h₀.runs L pre).reg ns name) ∧
    SameIds L (h₀.runs L pre).reg (c.run L (h₀.runs L pre).reg).2

/-! ### Where it is faithful -/

/-- Either both steps of a call work, or both fail; and a server is not created in a
namespace without a number. -/
def RegistryCall.Clean (L : FaytTables T U B) (s : Registry T U B) : RegistryCall → Prop
  | .namespace name =>
      L.bitmap.alloc s.nidBitmap = none ∨
        (L.namespaces.push s.namespaceTable name s.heap).1 = true
  | .server ns name ptr => ∀ p, L.namespaces.search s.namespaceTable ns = some (some p) →
      (L.bitmap.alloc (s.namespaces p).sidBitmap = none ∧
        (L.servers.push (s.namespaces p).serverTable name ptr).1 = false) ∨
      (L.bitmap.alloc (s.namespaces p).sidBitmap ≠ none ∧
        (L.servers.push (s.namespaces p).serverTable name ptr).1 = true ∧
        0 ≤ (s.namespaces p).nid)

/-- The searches for a registered server do not fail. -/
def History.Answers (L : FaytTables T U B) (h : History T U B) : Prop :=
  ∀ e ∈ h.log, L.namespaces.search h.reg.namespaceTable e.ns ≠ none ∧
    ∀ p, L.namespaces.search h.reg.namespaceTable e.ns = some (some p) →
      L.servers.search (h.reg.namespaces p).serverTable e.name ≠ none

/-- Every call is clean, and every registered server can be searched for at any time. -/
structure CleanRun (L : FaytTables T U B) (h₀ : History T U B) (calls : List RegistryCall) :
    Prop where
  clean : ∀ pre c, pre ++ [c] <+: calls → c.Clean L (h₀.runs L pre).reg
  answers : ∀ pre, pre <+: calls → (h₀.runs L pre).Answers L

/-! ### Numbers -/

section Numbers

variable {src : IdSource B} {b : B}

theorem IdSource.take_of_some {i : ℕ} {b' : B} (h : src.alloc b = some (i, b')) :
    src.take b = ((i : ℤ), b') := by
  rw [take, h]

theorem IdSource.take_of_none (h : src.alloc b = none) : src.take b = (-1, b) := by
  rw [take, h]

/-- Numbers stay taken. -/
theorem IdSource.used_subset_take (src : IdSource B) (b : B) :
    src.used b ⊆ src.used (src.take b).2 := by
  rcases h : src.alloc b with - | ⟨i, b'⟩
  · rw [take_of_none h]
  · rw [take_of_some h, src.alloc_used h]
    exact Set.subset_insert i _

/-- A number that is not negative is taken now and was not before. -/
theorem IdSource.take_nonneg (h : 0 ≤ (src.take b).1) :
    (src.take b).1.toNat ∈ src.used (src.take b).2 ∧ (src.take b).1.toNat ∉ src.used b := by
  rcases halloc : src.alloc b with - | ⟨i, b'⟩
  · rw [take_of_none halloc] at h
    exact absurd h (show ¬ (0 : ℤ) ≤ -1 by decide)
  · rw [take_of_some halloc, src.alloc_used halloc]
    exact ⟨Set.mem_insert i _, src.alloc_fresh halloc⟩

end Numbers

/-! ### Calls -/

section Effects

variable {L : FaytTables T U B} {s : Registry T U B} {ns : String} {p p' : ℕ}

theorem createServer_found (hfound : L.namespaces.search s.namespaceTable ns = some (some p))
    (name : String) (ptr : ℕ) :
    createServer L s ns name ptr = createServerIn L s p name ptr := by
  rw [createServer, hfound]

theorem createServer_missing
    (hmissing : ∀ p, L.namespaces.search s.namespaceTable ns ≠ some (some p)) (name : String)
    (ptr : ℕ) : createServer L s ns name ptr = (false, s) := by
  rw [createServer]
  split
  · rename_i p hfound
    exact absurd hfound (hmissing p)
  · rfl

/-- `create_namespace` writes one namespace, at a new address. -/
theorem namespaces_createNamespace (s : Registry T U B) (name : String) (hp : p < s.heap) :
    (createNamespace L s name).2.namespaces p = s.namespaces p :=
  Function.update_of_ne (Nat.ne_of_lt hp) ..

/-- `create_server` returns what the push into the table of its namespace returns. -/
theorem createServerIn_fst (s : Registry T U B) (p : ℕ) (name : String) (ptr : ℕ) :
    (createServerIn L s p name ptr).1 =
      (L.servers.push (s.namespaces p).serverTable name ptr).1 := rfl

/-- `create_server` changes the bitmap and the table of its namespace. -/
theorem namespaces_createServerIn (s : Registry T U B) (p : ℕ) (name : String) (ptr : ℕ) :
    (createServerIn L s p name ptr).2.namespaces p =
      { s.namespaces p with
        sidBitmap := (L.bitmap.take (s.namespaces p).sidBitmap).2
        serverTable := (L.servers.push (s.namespaces p).serverTable name ptr).2 } :=
  Function.update_self ..

theorem namespaces_createServerIn_of_ne (s : Registry T U B) (name : String) (ptr : ℕ)
    (hne : p' ≠ p) : (createServerIn L s p name ptr).2.namespaces p' = s.namespaces p' :=
  Function.update_of_ne hne ..

theorem nid_createServerIn (s : Registry T U B) (p : ℕ) (name : String) (ptr p' : ℕ) :
    ((createServerIn L s p name ptr).2.namespaces p').nid = (s.namespaces p').nid := by
  by_cases hne : p' = p
  · rw [hne, namespaces_createServerIn]
  · rw [namespaces_createServerIn_of_ne s name ptr hne]

theorem used_createServerIn (s : Registry T U B) (p : ℕ) (name : String) (ptr p' : ℕ) :
    L.bitmap.used (s.namespaces p').sidBitmap ⊆
      L.bitmap.used ((createServerIn L s p name ptr).2.namespaces p').sidBitmap := by
  by_cases hne : p' = p
  · rw [hne, namespaces_createServerIn]
    exact L.bitmap.used_subset_take _
  · rw [namespaces_createServerIn_of_ne s name ptr hne]

/-- The number `create_server` writes into the record. -/
theorem id_createServerIn (s : Registry T U B) (p : ℕ) (name : String) (ptr : ℕ) :
    ((createServerIn L s p name ptr).2.servers ptr).id =
      ⟨(s.namespaces p).nid, (L.bitmap.take (s.namespaces p).sidBitmap).1⟩ := by
  show (Function.update s.servers ptr _ ptr).id = _
  rw [Function.update_self]

end Effects

section Steps

variable (L : FaytTables T U B) (h : History T U B)

theorem History.step_namespace (name : String) :
    h.step L (.namespace name) = ⟨(createNamespace L h.reg name).2, h.log⟩ := by
  show History.mk _ (h.log ++ []) = _
  rw [List.append_nil]
  rfl

/-- `create_server` in a namespace that is found. -/
theorem History.step_server_found {ns : String} {p : ℕ}
    (hfound : L.namespaces.search h.reg.namespaceTable ns = some (some p)) (name : String)
    (ptr : ℕ) :
    h.step L (.server ns name ptr) =
      ⟨(createServerIn L h.reg p name ptr).2,
        if (createServerIn L h.reg p name ptr).1 then
          h.log ++ [⟨ns, name, ptr, ⟨(h.reg.namespaces p).nid,
            (L.bitmap.take (h.reg.namespaces p).sidBitmap).1⟩⟩]
        else h.log⟩ := by
  simp only [step, RegistryCall.run, RegistryCall.created, createServer_found hfound,
    id_createServerIn]
  split
  · rfl
  · rw [List.append_nil]

/-- `create_server` in a namespace that is not found. -/
theorem History.step_server_missing {ns : String}
    (hmissing : ∀ p, L.namespaces.search h.reg.namespaceTable ns ≠ some (some p)) (name : String)
    (ptr : ℕ) : h.step L (.server ns name ptr) = h := by
  simp [step, RegistryCall.run, RegistryCall.created, createServer_missing hmissing]

end Steps

/-! ### What the tables hold -/

/-- The tables agree with the log, and numbers that are not negative are in the bitmaps. -/
structure Recorded (L : FaytTables T U B) (h : History T U B) (done : List RegistryCall) :
    Prop where
  named : ∀ {ns p}, L.namespaces.contents h.reg.namespaceTable ns = some p →
    p < h.reg.heap ∧ .namespace ns ∈ done
  inj : ∀ {ns ns' p}, L.namespaces.contents h.reg.namespaceTable ns = some p →
    L.namespaces.contents h.reg.namespaceTable ns' = some p → ns = ns'
  table : ∀ {ns p}, L.namespaces.contents h.reg.namespaceTable ns = some p →
    ∀ name, L.servers.contents (h.reg.namespaces p).serverTable name = createdAs h.log ns name
  logged : ∀ e ∈ h.log, .server e.ns e.name e.server ∈ done ∧
    ∃ p, L.namespaces.contents h.reg.namespaceTable e.ns = some p ∧
      e.id.nid = (h.reg.namespaces p).nid ∧
      (0 ≤ e.id.sid → e.id.sid.toNat ∈ L.bitmap.used (h.reg.namespaces p).sidBitmap)
  nid_used : ∀ {ns p}, L.namespaces.contents h.reg.namespaceTable ns = some p →
    0 ≤ (h.reg.namespaces p).nid → (h.reg.namespaces p).nid.toNat ∈ L.bitmap.used h.reg.nidBitmap
  nid_inj : ∀ {ns ns' p p'}, L.namespaces.contents h.reg.namespaceTable ns = some p →
    L.namespaces.contents h.reg.namespaceTable ns' = some p' → 0 ≤ (h.reg.namespaces p).nid →
    (h.reg.namespaces p).nid = (h.reg.namespaces p').nid → ns = ns'

theorem createdAs_eq_none {log : List Created} {ns name : String}
    (h : ∀ e ∈ log, e.ns = ns → e.name ≠ name) : createdAs log ns name = none := by
  rw [createdAs, List.find?_eq_none.mpr]
  · rfl
  · intro e he
    simpa using h e he

theorem createdAs_append {log : List Created} {e : Created} (ns name : String)
    (h : createdAs log e.ns e.name = none) :
    createdAs (log ++ [e]) ns name =
      if e.ns = ns ∧ e.name = name then some e.server else createdAs log ns name := by
  rw [createdAs, createdAs, List.find?_append]
  split
  · rename_i heq
    obtain ⟨rfl, rfl⟩ := heq
    rw [createdAs, Option.map_eq_none_iff] at h
    rw [h]
    simp
  · rename_i hne
    simp [hne]

section Recorded

variable {L : FaytTables T U B} {h : History T U B} {done : List RegistryCall}

theorem recorded_boot (namespaces : ℕ → Namespace U B) (servers : ℕ → Server) :
    Recorded L (.boot L namespaces servers) [] := by
  have hnone : ∀ {ns p}, L.namespaces.contents L.namespaces.empty ns ≠ some p := by
    intro ns p hp
    rw [L.namespaces.contents_empty] at hp
    cases hp
  exact ⟨fun hp => absurd hp hnone, fun hp => absurd hp hnone, fun hp => absurd hp hnone,
    fun e he => absurd he List.not_mem_nil, fun hp => absurd hp hnone, fun hp => absurd hp hnone⟩

/-- A namespace is in the table after `create_namespace` if it was before, or if it is the
new one and the push worked. -/
theorem contents_createNamespace (hrec : Recorded L h done) {name : String}
    (hnew : RegistryCall.namespace name ∉ done) {ns : String} {p : ℕ} :
    L.namespaces.contents (createNamespace L h.reg name).2.namespaceTable ns = some p ↔
      L.namespaces.contents h.reg.namespaceTable ns = some p ∨
        (createNamespace L h.reg name).1 = true ∧ ns = name ∧ p = h.reg.heap := by
  have habsent : L.namespaces.contents h.reg.namespaceTable name = none := by
    rcases hname : L.namespaces.contents h.reg.namespaceTable name with - | p
    · rfl
    · exact absurd (hrec.named hname).2 hnew
  show L.namespaces.contents (L.namespaces.push h.reg.namespaceTable name h.reg.heap).2 ns = _ ↔
    _ ∨ (L.namespaces.push h.reg.namespaceTable name h.reg.heap).1 = true ∧ _
  rcases hpush : (L.namespaces.push h.reg.namespaceTable name h.reg.heap).1 with - | -
  · rw [L.namespaces.push_false hpush]
    simp
  · rw [L.namespaces.push_true hpush habsent]
    by_cases hns : ns = name
    · subst hns
      simp [habsent, eq_comm]
    · simp [hns]

/-- `create_namespace` keeps the tables and the log in agreement. -/
theorem Recorded.namespace (hrec : Recorded L h done) {name : String}
    (hnew : RegistryCall.namespace name ∉ done) :
    Recorded L (h.step L (.namespace name)) (done ++ [.namespace name]) := by
  have hcontents := @contents_createNamespace _ _ _ L h done hrec name hnew
  have hfresh : (createNamespace L h.reg name).2.namespaces h.reg.heap =
      ⟨⟨h.reg.heap + 1, name⟩, (L.bitmap.take h.reg.nidBitmap).1, L.bitmap.empty,
        L.servers.empty⟩ := Function.update_self ..
  have hold : ∀ {ns p}, L.namespaces.contents h.reg.namespaceTable ns = some p →
      (createNamespace L h.reg name).2.namespaces p = h.reg.namespaces p :=
    fun hp => namespaces_createNamespace h.reg name (hrec.named hp).1
  have hused := L.bitmap.used_subset_take h.reg.nidBitmap
  -- the number of the new namespace is not one of the old ones
  have hnid : ∀ {ns p}, L.namespaces.contents h.reg.namespaceTable ns = some p →
      0 ≤ (h.reg.namespaces p).nid →
      (h.reg.namespaces p).nid ≠ (L.bitmap.take h.reg.nidBitmap).1 := by
    intro ns p hp hnonneg heq
    rw [heq] at hnonneg
    apply (IdSource.take_nonneg hnonneg).2
    rw [← heq]
    exact hrec.nid_used hp (heq ▸ hnonneg)
  rw [History.step_namespace]
  refine ⟨fun hp => ?_, fun hp hp' => ?_, fun hp name' => ?_, fun e he => ?_, fun hp hnonneg => ?_,
    fun hp hp' hnonneg heq => ?_⟩
  · rcases hcontents.mp hp with hp | ⟨-, rfl, rfl⟩
    · obtain ⟨hlt, hdone⟩ := hrec.named hp
      exact ⟨Nat.lt_add_right 2 hlt, List.mem_append_left _ hdone⟩
    · exact ⟨Nat.lt_add_of_pos_right (by decide),
        List.mem_append_right _ (List.mem_singleton_self _)⟩
  · rcases hcontents.mp hp with hq | ⟨-, rfl, rfl⟩ <;>
      rcases hcontents.mp hp' with hq' | ⟨-, rfl, hheap⟩
    · exact hrec.inj hq hq'
    · exact absurd hheap (Nat.ne_of_lt (hrec.named hq).1)
    · exact absurd (hrec.named hq').1 (Nat.lt_irrefl _)
    · rfl
  · rcases hcontents.mp hp with hp | ⟨-, rfl, rfl⟩
    · rw [hold hp]
      exact hrec.table hp name'
    · rw [hfresh, L.servers.contents_empty, createdAs_eq_none]
      intro e he hns
      obtain ⟨-, p, hp, -⟩ := hrec.logged e he
      exact absurd (hns ▸ (hrec.named hp).2) hnew
  · obtain ⟨hdone, p, hp, hnid, hsid⟩ := hrec.logged e he
    refine ⟨List.mem_append_left _ hdone, p, hcontents.mpr (.inl hp), ?_⟩
    rw [hold hp]
    exact ⟨hnid, hsid⟩
  · rcases hcontents.mp hp with hp | ⟨-, rfl, rfl⟩
    · rw [hold hp] at hnonneg ⊢
      exact hused (hrec.nid_used hp hnonneg)
    · rw [hfresh] at hnonneg ⊢
      exact (IdSource.take_nonneg hnonneg).1
  · rcases hcontents.mp hp with hq | ⟨-, rfl, rfl⟩ <;>
      rcases hcontents.mp hp' with hq' | ⟨-, rfl, rfl⟩
    · rw [hold hq] at hnonneg heq
      rw [hold hq'] at heq
      exact hrec.nid_inj hq hq' hnonneg heq
    · rw [hold hq] at hnonneg heq
      rw [hfresh] at heq
      exact absurd heq (hnid hq hnonneg)
    · rw [hold hq'] at heq
      rw [hfresh] at hnonneg heq
      exact absurd heq.symm (hnid hq' (heq ▸ hnonneg))
    · rfl

theorem Recorded.mono {done' : List RegistryCall} (hrec : Recorded L h done) (hsub : done ⊆ done') :
    Recorded L h done' where
  named hp := ⟨(hrec.named hp).1, hsub (hrec.named hp).2⟩
  inj := hrec.inj
  table := hrec.table
  logged e he := ⟨hsub (hrec.logged e he).1, (hrec.logged e he).2⟩
  nid_used := hrec.nid_used
  nid_inj := hrec.nid_inj

/-- What the table of a namespace holds after `create_server`. -/
theorem contents_createServerIn (hrec : Recorded L h done) {ns name : String} {p ptr : ℕ}
    (hp : L.namespaces.contents h.reg.namespaceTable ns = some p)
    (habsent : createdAs h.log ns name = none) {ns' : String} {p' : ℕ}
    (hp' : L.namespaces.contents h.reg.namespaceTable ns' = some p') (name' : String) :
    L.servers.contents ((createServerIn L h.reg p name ptr).2.namespaces p').serverTable name' =
      if (createServerIn L h.reg p name ptr).1 = true ∧ ns = ns' ∧ name = name' then some ptr
      else createdAs h.log ns' name' := by
  by_cases hne : p' = p
  · subst hne
    obtain rfl : ns = ns' := hrec.inj hp hp'
    rw [namespaces_createServerIn, createServerIn_fst]
    dsimp only
    by_cases hpush : (L.servers.push (h.reg.namespaces p').serverTable name ptr).1 = true
    · rw [L.servers.push_true hpush ((hrec.table hp name).trans habsent)]
      by_cases hname : name' = name
      · subst hname
        rw [Function.update_self, if_pos ⟨hpush, rfl, rfl⟩]
      · rw [Function.update_of_ne hname, if_neg fun hc => hname hc.2.2.symm]
        exact hrec.table hp name'
    · -- the table has refused the server
      rw [L.servers.push_false (Bool.not_eq_true _ ▸ hpush), if_neg fun hc => hpush hc.1]
      exact hrec.table hp name'
  · rw [namespaces_createServerIn_of_ne h.reg name ptr hne, if_neg fun hc => ?_]
    · exact hrec.table hp' name'
    · obtain rfl : ns = ns' := hc.2.1
      exact hne (Option.some.inj (hp'.symm.trans hp))

/-- `create_server` in a registered namespace keeps the tables and the log in agreement. -/
theorem Recorded.serverIn (hrec : Recorded L h done) {ns name : String} {p ptr : ℕ}
    (hp : L.namespaces.contents h.reg.namespaceTable ns = some p)
    (hnew : ∀ ptr', RegistryCall.server ns name ptr' ∉ done) :
    Recorded L
      ⟨(createServerIn L h.reg p name ptr).2,
        if (createServerIn L h.reg p name ptr).1 then
          h.log ++ [⟨ns, name, ptr, ⟨(h.reg.namespaces p).nid,
            (L.bitmap.take (h.reg.namespaces p).sidBitmap).1⟩⟩]
        else h.log⟩
      (done ++ [.server ns name ptr]) := by
  have hnid := nid_createServerIn (L := L) h.reg p name ptr
  have habsent : createdAs h.log ns name = none := createdAs_eq_none fun e he hns hname =>
    hnew e.server (hns ▸ hname ▸ (hrec.logged e he).1)
  have hkept : ∀ e ∈ h.log, RegistryCall.server e.ns e.name e.server ∈
        done ++ [.server ns name ptr] ∧
      ∃ p', L.namespaces.contents h.reg.namespaceTable e.ns = some p' ∧
        e.id.nid = ((createServerIn L h.reg p name ptr).2.namespaces p').nid ∧
        (0 ≤ e.id.sid → e.id.sid.toNat ∈
          L.bitmap.used ((createServerIn L h.reg p name ptr).2.namespaces p').sidBitmap) := by
    intro e he
    obtain ⟨hdone, p', hp', hnid', hsid'⟩ := hrec.logged e he
    exact ⟨List.mem_append_left _ hdone, p', hp', hnid'.trans (hnid p').symm,
      fun hs => used_createServerIn h.reg p name ptr p' (hsid' hs)⟩
  refine ⟨fun hq => ?_, fun hq hq' => hrec.inj hq hq', fun hq name' => ?_, fun e he => ?_,
    fun hq hnonneg => ?_, fun hq hq' hnonneg heq => ?_⟩
  · exact ⟨Nat.lt_succ_of_lt (hrec.named hq).1, List.mem_append_left _ (hrec.named hq).2⟩
  · refine (contents_createServerIn hrec hp habsent hq name').trans ?_
    rcases (createServerIn L h.reg p name ptr).1 with - | -
    · simp
    · simp only [true_and, if_true]
      refine Eq.symm (createdAs_append _ _ ?_)
      exact habsent
  · rcases hpush : (createServerIn L h.reg p name ptr).1 with - | -
    · rw [hpush, if_neg Bool.false_ne_true] at he
      exact hkept e he
    · rw [hpush, if_pos rfl] at he
      rcases List.mem_append.mp he with he | he
      · exact hkept e he
      · -- the new server
        obtain rfl := List.mem_singleton.mp he
        refine ⟨List.mem_append_right _ (List.mem_singleton_self _), p, hp, (hnid p).symm,
          fun hs => ?_⟩
        show _ ∈ L.bitmap.used ((createServerIn L h.reg p name ptr).2.namespaces p).sidBitmap
        rw [namespaces_createServerIn]
        exact (IdSource.take_nonneg hs).1
  · rw [hnid] at hnonneg ⊢
    exact hrec.nid_used hq hnonneg
  · rw [hnid] at hnonneg heq
    rw [hnid] at heq
    exact hrec.nid_inj hq hq' hnonneg heq

/-- `create_server` keeps the tables and the log in agreement. -/
theorem Recorded.server (hrec : Recorded L h done) {ns name : String} {ptr : ℕ}
    (hnew : ∀ ptr', RegistryCall.server ns name ptr' ∉ done) :
    Recorded L (h.step L (.server ns name ptr)) (done ++ [.server ns name ptr]) := by
  by_cases hfound : ∃ p, L.namespaces.search h.reg.namespaceTable ns = some (some p)
  · obtain ⟨p, hp⟩ := hfound
    rw [History.step_server_found L h hp]
    exact hrec.serverIn (L.namespaces.search_eq hp).symm hnew
  · rw [History.step_server_missing L h (not_exists.mp hfound)]
    exact hrec.mono (List.subset_append_left _ _)

end Recorded

/-! ### Runs -/

section Runs

variable {L : FaytTables T U B} {h₀ : History T U B} {calls pre : List RegistryCall}
  {c : RegistryCall}

theorem History.runs_concat (h₀ : History T U B) (pre : List RegistryCall) (c : RegistryCall) :
    h₀.runs L (pre ++ [c]) = (h₀.runs L pre).step L c := by
  rw [runs, List.foldl_append]
  rfl

/-- The log only grows. -/
theorem History.log_runs_append (h₀ : History T U B) (pre post : List RegistryCall) :
    (h₀.runs L pre).log <+: (h₀.runs L (pre ++ post)).log := by
  induction post using List.reverseRecOn with
  | nil =>
      rw [List.append_nil]
  | append_singleton post c ih =>
      rw [← List.append_assoc, runs_concat]
      exact ih.trans (List.prefix_append _ _)

/-- The tables agree with the log at any time, if no name is used twice. -/
theorem recorded_runs (hboot : Recorded L h₀ [])
    (hdistinct : pre.Pairwise fun c c' => ¬ c.Clash c') :
    Recorded L (h₀.runs L pre) pre := by
  induction pre using List.reverseRecOn with
  | nil => exact hboot
  | append_singleton pre c ih =>
      obtain ⟨hpre, -, hlast⟩ := List.pairwise_append.mp hdistinct
      have hnew : ∀ c' ∈ pre, ¬ c'.Clash c := fun c' hc' =>
        hlast c' hc' c (List.mem_singleton_self c)
      rw [History.runs_concat]
      rcases c with name | ⟨ns, name, ptr⟩
      · exact (ih hpre).namespace fun hmem => hnew _ hmem rfl
      · exact (ih hpre).server fun ptr' hmem => hnew _ hmem ⟨rfl, rfl⟩

/-- A server is found under its names if the searches answer. -/
theorem Recorded.findServer_eq {h : History T U B} {done : List RegistryCall}
    (hrec : Recorded L h done) (hans : h.Answers L) (ns name : String) :
    findServer L h.reg ns name = createdAs h.log ns name := by
  rw [findServer]
  split
  · rename_i p hp
    rcases hsearch : L.servers.search (h.reg.namespaces p).serverTable name with - | r
    · rw [createdAs_eq_none]
      · rfl
      · rintro e he rfl rfl
        exact (hans e he).2 p hp hsearch
    · rw [← hrec.table (L.namespaces.search_eq hp).symm, ← L.servers.search_eq hsearch]
      rfl
  · rename_i hmissing
    rw [createdAs_eq_none]
    rintro e he rfl -
    -- the namespace of a registered server is in the table
    obtain ⟨-, p, hp, -⟩ := hrec.logged e he
    rcases hsearch : L.namespaces.search h.reg.namespaceTable e.ns with - | r
    · exact (hans e he).1 hsearch
    · rw [← L.namespaces.search_eq hsearch] at hp
      exact hmissing p (hsearch.trans (congrArg some hp))

/-- A server that is found can be searched for. -/
theorem answers_of_finds {h : History T U B}
    (hfinds : ∀ ns name, findServer L h.reg ns name = createdAs h.log ns name) : h.Answers L := by
  intro e he
  have hfound : findServer L h.reg e.ns e.name ≠ none := by
    rw [hfinds, createdAs, Ne, Option.map_eq_none_iff, List.find?_eq_none]
    intro hnone
    simpa using hnone e he
  rw [findServer] at hfound
  split at hfound
  · rename_i p hp
    refine ⟨by rw [hp]; exact Option.some_ne_none _, fun p' hp' hsearch => ?_⟩
    obtain rfl : p = p' := Option.some.inj (Option.some.inj (hp.symm.trans hp'))
    rw [hsearch] at hfound
    exact hfound rfl
  · exact absurd rfl hfound

end Runs

/-! ### Where the registry is faithful -/

section Main

variable {L : FaytTables T U B} {h h₀ : History T U B} {calls done : List RegistryCall}
  {c : RegistryCall}

/-- A call that returns -1 is not logged. -/
theorem RegistryCall.created_of_failure {s : Registry T U B} (hfail : (c.run L s).1 = false) :
    c.created L s = [] := by
  rcases c with name | ⟨ns, name, ptr⟩
  · rfl
  · have hret : (createServer L s ns name ptr).1 = false := hfail
    simp only [RegistryCall.created, hret]
    rfl

/-- A clean call that returns -1 takes no number. -/
theorem RegistryCall.Clean.sameIds (hrec : Recorded L h done) (hclean : c.Clean L h.reg)
    (hfail : (c.run L h.reg).1 = false) : SameIds L h.reg (c.run L h.reg).2 := by
  rcases c with name | ⟨ns, name, ptr⟩
  · rcases hclean with hnone | hpush
    · refine ⟨?_, fun ns p hp => ?_⟩
      · show L.bitmap.used (L.bitmap.take h.reg.nidBitmap).2 = _
        rw [IdSource.take_of_none hnone]
      · show L.bitmap.used ((createNamespace L h.reg name).2.namespaces p).sidBitmap = _
        rw [namespaces_createNamespace h.reg name (hrec.named hp).1]
    · exact absurd (hpush.symm.trans hfail) Bool.true_eq_false.mp
  · by_cases hfound : ∃ p, L.namespaces.search h.reg.namespaceTable ns = some (some p)
    · obtain ⟨p, hp⟩ := hfound
      rw [RegistryCall.run, createServer_found hp] at hfail ⊢
      rcases hclean p hp with ⟨hnone, -⟩ | ⟨-, hpush, -⟩
      · refine ⟨rfl, fun ns' p' _ => ?_⟩
        by_cases hne : p' = p
        · subst hne
          rw [namespaces_createServerIn, IdSource.take_of_none hnone]
        · rw [namespaces_createServerIn_of_ne h.reg name ptr hne]
      · exact absurd (hpush.symm.trans hfail) Bool.true_eq_false.mp
    · rw [RegistryCall.run, createServer_missing (not_exists.mp hfound)]
      exact ⟨rfl, fun _ _ _ => rfl⟩

/-- A number that was taken shows in the bitmap. -/
theorem IdSource.used_take_ne {src : IdSource B} {b : B} (hsome : src.alloc b ≠ none) :
    src.used (src.take b).2 ≠ src.used b := by
  rcases halloc : src.alloc b with - | ⟨i, b'⟩
  · exact absurd halloc hsome
  · rw [take_of_some halloc, src.alloc_used halloc]
    intro hsame
    exact src.alloc_fresh halloc (hsame ▸ Set.mem_insert i _)

/-- The number of a new server is not negative and not one of the logged ones, if the call is
clean. -/
theorem Recorded.new_id (hrec : Recorded L h done) {ns : String} {p : ℕ}
    (hp : L.namespaces.contents h.reg.namespaceTable ns = some p)
    (hsome : L.bitmap.alloc (h.reg.namespaces p).sidBitmap ≠ none)
    (hnid : 0 ≤ (h.reg.namespaces p).nid) :
    0 ≤ (L.bitmap.take (h.reg.namespaces p).sidBitmap).1 ∧
      ∀ e ∈ h.log, e.id ≠ ⟨(h.reg.namespaces p).nid,
        (L.bitmap.take (h.reg.namespaces p).sidBitmap).1⟩ := by
  have hsid : 0 ≤ (L.bitmap.take (h.reg.namespaces p).sidBitmap).1 := by
    rcases halloc : L.bitmap.alloc (h.reg.namespaces p).sidBitmap with - | ⟨i, b'⟩
    · exact absurd halloc hsome
    · rw [IdSource.take_of_some halloc]
      exact Int.natCast_nonneg i
  refine ⟨hsid, fun e he heq => ?_⟩
  obtain ⟨-, p', hp', hnid', hsid'⟩ := hrec.logged e he
  rw [heq] at hnid' hsid'
  -- the same namespace, since its number is not negative
  obtain rfl : ns = e.ns := hrec.nid_inj hp hp' hnid hnid'
  obtain rfl : p' = p := Option.some.inj (hp'.symm.trans hp)
  exact (IdSource.take_nonneg hsid).2 (hsid' hsid)

/-- The numbers in the log of a clean run. -/
theorem CleanRun.ids (hboot : Recorded L h₀ []) (hlog : h₀.log = [])
    (hdistinct : calls.Pairwise fun c c' => ¬ c.Clash c') (hclean : CleanRun L h₀ calls)
    {pre : List RegistryCall} (hpre : pre <+: calls) :
    (∀ e ∈ (h₀.runs L pre).log, 0 ≤ e.id.nid ∧ 0 ≤ e.id.sid) ∧
      (h₀.runs L pre).log.Pairwise (·.id ≠ ·.id) := by
  induction pre using List.reverseRecOn with
  | nil =>
      rw [History.runs, List.foldl_nil, hlog]
      exact ⟨fun e he => absurd he List.not_mem_nil, List.Pairwise.nil⟩
  | append_singleton pre c ih =>
      have hpre' : pre <+: calls := (List.prefix_append pre [c]).trans hpre
      obtain ⟨hnonneg, hne⟩ := ih hpre'
      have hrec := recorded_runs hboot (hdistinct.sublist hpre'.sublist)
      have hc := hclean.clean pre c hpre
      rw [History.runs_concat]
      rcases c with name | ⟨ns, name, ptr⟩
      · rw [History.step_namespace]
        exact ⟨hnonneg, hne⟩
      · by_cases hfound : ∃ p, L.namespaces.search (h₀.runs L pre).reg.namespaceTable ns =
            some (some p)
        · obtain ⟨p, hp⟩ := hfound
          rw [History.step_server_found L _ hp]
          rcases hc p hp with ⟨-, hpush⟩ | ⟨hsome, hpush, hnid⟩
          · rw [createServerIn_fst, hpush, if_neg Bool.false_ne_true]
            exact ⟨hnonneg, hne⟩
          · rw [createServerIn_fst, hpush, if_pos rfl]
            obtain ⟨hsid, hfresh⟩ := hrec.new_id (L.namespaces.search_eq hp).symm hsome hnid
            refine ⟨fun e he => ?_, List.pairwise_append.mpr ⟨hne, List.pairwise_singleton _ _,
              fun e he e' he' => ?_⟩⟩
            · rcases List.mem_append.mp he with he | he
              · exact hnonneg e he
              · obtain rfl := List.mem_singleton.mp he
                exact ⟨hnid, hsid⟩
            · obtain rfl := List.mem_singleton.mp he'
              exact hfresh e he
        · rw [History.step_server_missing L _ (not_exists.mp hfound)]
          exact ⟨hnonneg, hne⟩

/-- A clean run is faithful. -/
theorem CleanRun.faithful (hboot : Recorded L h₀ []) (hlog : h₀.log = [])
    (hdistinct : calls.Pairwise fun c c' => ¬ c.Clash c') (hclean : CleanRun L h₀ calls) :
    Faithful L h₀ calls := by
  have hfinds : ∀ pre, pre <+: calls → ∀ ns name,
      findServer L (h₀.runs L pre).reg ns name = createdAs (h₀.runs L pre).log ns name :=
    fun pre hpre => (recorded_runs hboot (hdistinct.sublist hpre.sublist)).findServer_eq
      (hclean.answers pre hpre)
  obtain ⟨hnonneg, hne⟩ := hclean.ids hboot hlog hdistinct (List.prefix_refl calls)
  refine ⟨hnonneg, hne, hfinds, fun pre c hpre hfail => ⟨fun ns name => ?_, ?_⟩⟩
  · have hpre' : pre <+: calls := (List.prefix_append pre [c]).trans hpre
    have hafter := hfinds (pre ++ [c]) hpre ns name
    rw [History.runs_concat, History.step, RegistryCall.created_of_failure hfail,
      List.append_nil] at hafter
    exact hafter.trans (hfinds pre hpre' ns name).symm
  · have hpre' : pre <+: calls := (List.prefix_append pre [c]).trans hpre
    exact (hclean.clean pre c hpre).sameIds
      (recorded_runs hboot (hdistinct.sublist hpre'.sublist)) hfail

/-- A namespace is created cleanly if a failure takes no number. -/
theorem clean_namespace {s : Registry T U B} {name : String}
    (hfail : (createNamespace L s name).1 = false → SameIds L s (createNamespace L s name).2) :
    (RegistryCall.namespace name).Clean L s := by
  by_cases hnone : L.bitmap.alloc s.nidBitmap = none
  · exact .inl hnone
  · right
    rcases hpush : (L.namespaces.push s.namespaceTable name s.heap).1 with - | -
    · exact absurd (hfail hpush).1 (IdSource.used_take_ne hnone)
    · rfl

/-- A server is created cleanly if a failure takes no number and a number that is produced is
not negative. -/
theorem clean_server {s : Registry T U B} {ns name : String} {ptr : ℕ}
    (hfail : (createServer L s ns name ptr).1 = false →
      SameIds L s (createServer L s ns name ptr).2)
    (hok : (createServer L s ns name ptr).1 = true →
      0 ≤ ((createServer L s ns name ptr).2.servers ptr).id.nid ∧
        0 ≤ ((createServer L s ns name ptr).2.servers ptr).id.sid) :
    (RegistryCall.server ns name ptr).Clean L s := by
  intro p hp
  rw [createServer_found hp, createServerIn_fst] at hfail hok
  rw [id_createServerIn] at hok
  rcases hpush : (L.servers.push (s.namespaces p).serverTable name ptr).1 with - | -
  · left
    refine ⟨?_, rfl⟩
    by_contra hsome
    have hsame := (hfail hpush).2 ns p (L.namespaces.search_eq hp).symm
    rw [namespaces_createServerIn] at hsame
    exact IdSource.used_take_ne hsome hsame
  · right
    obtain ⟨hnid, hsid⟩ := hok hpush
    refine ⟨fun hnone => ?_, rfl, hnid⟩
    rw [IdSource.take_of_none hnone] at hsid
    exact absurd hsid (show ¬ (0 : ℤ) ≤ -1 by decide)

/-- A faithful run is clean. -/
theorem Faithful.cleanRun (hfaithful : Faithful L h₀ calls) : CleanRun L h₀ calls := by
  refine ⟨fun pre c hpre => ?_, fun pre hpre => answers_of_finds (hfaithful.finds pre hpre)⟩
  have hfail := fun hret => (hfaithful.failures pre c hpre hret).2
  rcases c with name | ⟨ns, name, ptr⟩
  · exact clean_namespace hfail
  · refine clean_server hfail fun hret => ?_
    -- the server is in the log of the whole run
    obtain ⟨post, rfl⟩ := hpre
    apply hfaithful.ids_nonneg ⟨ns, name, ptr,
      ((createServer L (h₀.runs L pre).reg ns name ptr).2.servers ptr).id⟩
    apply (History.log_runs_append h₀ _ post).subset
    rw [History.runs_concat]
    apply List.mem_append_right
    simp only [RegistryCall.created, hret, if_true]
    exact List.mem_singleton_self _

/-- **Where the registry is faithful.**  Along calls that use no name twice, the registry is a
map with unique numbers if and only if the run is clean. -/
theorem registry_faithful_iff (L : FaytTables T U B) (namespaces : ℕ → Namespace U B)
    (servers : ℕ → Server) (calls : List RegistryCall)
    (hdistinct : calls.Pairwise fun c c' => ¬ c.Clash c') :
    Faithful L (.boot L namespaces servers) calls ↔ CleanRun L (.boot L namespaces servers) calls :=
  ⟨fun hfaithful => hfaithful.cleanRun, fun hclean =>
    hclean.faithful (recorded_boot namespaces servers) rfl hdistinct⟩

end Main

/-! ### Numbers that run out -/

/-- Tables that never fail, and bitmaps of `n` bits. -/
def smallTables (n : ℕ) : FaytTables (String → Option ℕ) (String → Option ℕ) ℕ :=
  ⟨.function String ℕ, .function String ℕ, .below n⟩

/-- The registry at boot, in a memory of zeros. -/
def smallBoot (n : ℕ) : History (String → Option ℕ) (String → Option ℕ) ℕ :=
  .boot (smallTables n) (fun _ => ⟨⟨0, ""⟩, 0, 0, fun _ => none⟩)
    fun _ => ⟨none, ⟨0, 0⟩, none, none⟩

/-- A namespace and two servers in it. -/
def threeCalls : List RegistryCall :=
  [.namespace "IO", .server "IO" "vfs" 100, .server "IO" "nvme" 101]

theorem threeCalls_distinct : threeCalls.Pairwise fun c c' => ¬ c.Clash c' := by
  simp [threeCalls, RegistryCall.Clash]

theorem registry_faithful_two : Faithful (smallTables 2) (smallBoot 2) threeCalls := by
  refine (registry_faithful_iff (smallTables 2) _ _ threeCalls threeCalls_distinct).mpr
    ⟨fun pre c hpre => ?_,
      fun pre _ e _ => ⟨Option.some_ne_none _, fun _ _ => Option.some_ne_none _⟩⟩
  rw [← List.mem_inits] at hpre
  simp only [threeCalls, List.inits, List.map_cons, List.map_nil, List.mem_cons,
    List.append_eq_nil_iff, List.cons_ne_self, and_false, false_or, List.not_mem_nil,
    or_false] at hpre
  rcases hpre with hpre | hpre | hpre
  · obtain ⟨rfl, hc⟩ := List.append_inj' (show pre ++ [c] = [] ++ [_] from hpre) rfl
    cases hc
    exact .inr rfl
  · obtain ⟨rfl, hc⟩ := List.append_inj' (show pre ++ [c] = [_] ++ [_] from hpre) rfl
    cases hc
    intro p hp
    obtain rfl : 1 = p := Option.some.inj (Option.some.inj hp)
    exact .inr ⟨Option.some_ne_none _, rfl, by decide⟩
  · obtain ⟨rfl, hc⟩ := List.append_inj' (show pre ++ [c] = [_, _] ++ [_] from hpre) rfl
    cases hc
    intro p hp
    obtain rfl : 1 = p := Option.some.inj (Option.some.inj hp)
    exact .inr ⟨Option.some_ne_none _, rfl, by decide⟩

/-- With one bit, the second server gets the number -1. -/
theorem registry_unfaithful_one : ¬ Faithful (smallTables 1) (smallBoot 1) threeCalls := by
  have hlog : ((smallBoot 1).runs (smallTables 1) threeCalls).log =
      [⟨"IO", "vfs", 100, ⟨0, 0⟩⟩, ⟨"IO", "nvme", 101, ⟨0, -1⟩⟩] := by decide
  intro hfaithful
  have hnonneg := hfaithful.ids_nonneg ⟨"IO", "nvme", 101, ⟨0, -1⟩⟩ (by rw [hlog]; decide)
  exact absurd hnonneg.2 (by decide)

end Rock
