import Daf.Memories
import Daf.OrderedMap
import Daf.Runs
import Mathlib.Data.Set.Card

/-!
The three stores of memories: the hash map of the process, and the ordered byte maps of sled and of RocksDB with
the JSON of each memory under the bytes of its id. Each of them holds the map from ids to memories that the calls
made, and lists what is live.
-/
namespace Daf.MemoryBackends
open Daf.Memories Daf.OrderedMap Daf.Runs Daf.UuidText

inductive MemoryError where
  | NotFound (id : Uuid)
  | SerializationError (message : String)
deriving DecidableEq,Repr

abbrev MemoryResult := Except MemoryError

/-- What a store does, in a state of type `σ`. -/
structure MemoryStore (F σ : Type) where
  store : σ → Memory F → MemoryResult σ
  retrieve : σ → Uuid → MemoryResult (Option (Memory F))
  search : σ → String → Nat → MemoryResult (List (Memory F))
  update : σ → Memory F → MemoryResult σ
  delete : σ → Uuid → MemoryResult σ
  list_by_tag : σ → String → Nat → MemoryResult (List (Memory F))
  list_all : σ → Nat → MemoryResult (List (Memory F))

section
variable {F : Type} (contains_text : String → Json.Value → Bool)

/-! ### The store in memory -/

def InMemoryStore (key : Uuid → Nat) : MemoryStore F (Store F) where
  store s memory := .ok (s.insert memory)
  retrieve s id := .ok (s.retrieve id)
  search s query limit := .ok (s.list_by key limit fun m => contains_text query m.content)
  update s memory := if !s.contains_key memory.id then .error (.NotFound memory.id) else .ok (s.insert memory)
  delete s id := .ok (s.remove id)
  list_by_tag s tag limit := .ok (s.list_by key limit fun m => m.tags.any (· = tag))
  list_all s limit := .ok (s.list_all key limit)

/-! ### The stores on disk -/

abbrev Bytes := List (Fin 256)

abbrev Db := SortedMap Bytes Bytes

/-- The JSON of memories, written and read. -/
structure Serde (F : Type) where
  to_vec : Memory F → Bytes
  from_slice : Bytes → Except String (Memory F)

def Serde.Lossless (serde : Serde F) (m : Memory F) : Prop := serde.from_slice (serde.to_vec m) = .ok m

def bigEndian : Nat → Nat → Bytes
  | 0,_ => []
  | width + 1,n => bigEndian width (n / 256) ++ [Fin.ofNat 256 n]

def key (id : Uuid) : Bytes := bigEndian 16 id.toNat

variable (serde : Serde F)

def serialize (memory : Memory F) : Bytes := serde.to_vec memory

def deserialize (bytes : Bytes) : MemoryResult (Memory F) :=
  match serde.from_slice bytes with
  | .ok memory => .ok memory
  | .error e => .error (.SerializationError ("failed to deserialize memory: " ++ e))

/-- The loop over the entries that collects the wanted memories until the limit is reached. -/
def scan (limit : Nat) (wanted : Memory F → Bool) : List (Bytes × Bytes) → List (Memory F) → MemoryResult (List (Memory F))
  | [],results => .ok results
  | (_,value) :: rest,results =>
    if limit ≤ results.length then .ok results else
    match deserialize serde value with
    | .ok memory => scan limit wanted rest (if wanted memory then results ++ [memory] else results)
    | .error e => .error e

def SledStore : MemoryStore F Db where
  store db memory := .ok (db.insert (key memory.id) (serialize serde memory))
  retrieve db id :=
    match db.get (key id) with
    | some bytes => (deserialize serde bytes).map some
    | none => .ok none
  search db query limit := scan serde limit (fun m => contains_text query m.content) db.entries []
  update db memory :=
    if !db.contains_key (key memory.id) then .error (.NotFound memory.id) else .ok (db.insert (key memory.id) (serialize serde memory))
  delete db id := .ok (db.remove (key id))
  list_by_tag db tag limit := scan serde limit (fun m => m.tags.any (· = tag)) db.entries []
  list_all db limit := scan serde limit (fun _ => true) db.entries []

def RocksStore : MemoryStore F Db where
  store db memory := .ok (db.insert (key memory.id) (serialize serde memory))
  retrieve db id :=
    match db.get (key id) with
    | some bytes => (deserialize serde bytes).map some
    | none => .ok none
  search db query limit := scan serde limit (fun m => contains_text query m.content) db.entries []
  update db memory :=
    if (db.get (key memory.id)).isNone then .error (.NotFound memory.id) else .ok (db.insert (key memory.id) (serialize serde memory))
  delete db id := .ok (db.remove (key id))
  list_by_tag db tag limit := scan serde limit (fun m => m.tags.any (· = tag)) db.entries []
  list_all db limit := scan serde limit (fun _ => true) db.entries []

/-- The two stores on disk do the same, whichever way they ask whether a memory is there. -/
theorem rocks_sled : RocksStore contains_text serde = SledStore contains_text serde := by
  unfold RocksStore SledStore
  congr
  funext db memory
  unfold SortedMap.contains_key
  cases db.get (key memory.id) <;> rfl

end

/-! ### Calls -/

inductive Call (F : Type) where
  | store (memory : Memory F)
  | update (memory : Memory F)
  | delete (id : Uuid)

section
variable {F σ : Type}

def MemoryStore.call (M : MemoryStore F σ) (s : σ) : Call F → MemoryResult σ
  | .store memory => M.store s memory
  | .update memory => M.update s memory
  | .delete id => M.delete s id

/-- The state after a call, which is the state before it when the call fails. -/
def MemoryStore.after (M : MemoryStore F σ) (s : σ) (call : Call F) : σ :=
  match M.call s call with
  | .ok t => t
  | .error _ => s

/-- What the call writes is such a memory. -/
def Call.Writes (good : Memory F → Prop) : Call F → Prop
  | .store memory => good memory
  | .update memory => good memory
  | .delete _ => True

/-- What the calls make of a store: a map from ids to the memories that are live. -/
abbrev Live (F : Type) := Uuid → Option (Memory F)

def Live.after (live : Live F) : Call F → Live F
  | .store memory => Function.update live memory.id (some memory)
  | .update memory => if live memory.id = none then live else Function.update live memory.id (some memory)
  | .delete id => Function.update live id none

def Live.memories (live : Live F) : Set (Memory F) := {m | live m.id = some m}

/-- A list of what is live. -/
structure Lists (live : Live F) (memories : List (Memory F)) : Prop where
  distinct : (memories.map Memory.id).Nodup
  mem : ∀ m, m ∈ memories ↔ m ∈ live.memories

/-- In related states, a store does to what it holds what the calls do to the live memories, as long as it can write them, and lists them. -/
structure Refines (contains_text : String → Json.Value → Bool) (good : Memory F → Prop) (M : MemoryStore F σ) (R : σ → Live F → Prop) : Prop where
  store : ∀ s live m, R s live → good m → ∃ t, M.store s m = .ok t ∧ R t (Live.after live (.store m))
  retrieve : ∀ s live id, R s live → M.retrieve s id = .ok (live id)
  update : ∀ s live m, R s live → good m → live m.id ≠ none → ∃ t, M.update s m = .ok t ∧ R t (Live.after live (.update m))
  update_missing : ∀ s live m, R s live → live m.id = none → M.update s m = .error (.NotFound m.id)
  delete : ∀ s live id, R s live → ∃ t, M.delete s id = .ok t ∧ R t (Live.after live (.delete id))
  listed : ∀ s live, R s live → ∃ memories, Lists live memories ∧ (∀ limit, M.list_all s limit = .ok (memories.take limit)) ∧
    ∀ query limit, M.search s query limit = .ok ((memories.filter fun m => contains_text query m.content).take limit)

/-- What was asked of a store by a sequence of calls is what is live after them. -/
theorem Refines.run {contains_text : String → Json.Value → Bool} {good : Memory F → Prop} {M : MemoryStore F σ} {R : σ → Live F → Prop}
    (refines : Refines contains_text good M R) {s : σ} {live : Live F} (related : R s live) {calls : List (Call F)}
    (writes : ∀ call ∈ calls, call.Writes good) : R (Runs.run M.after s calls) (Runs.run Live.after live calls) := by
  induction calls generalizing s live with
  | nil => exact related
  | cons call calls ih =>
    refine ih ?_ fun later member => writes later (List.mem_cons_of_mem call member)
    have first := writes call List.mem_cons_self
    cases call with
    | store m =>
      obtain ⟨t,done,related'⟩ := refines.store s live m related first
      show R (match M.store s m with | .ok t => t | .error _ => s) _
      rw [done]
      exact related'
    | update m =>
      show R (match M.update s m with | .ok t => t | .error _ => s) _
      by_cases missing : live m.id = none
      · rw [refines.update_missing s live m related missing]
        simpa only [Live.after,if_pos missing] using related
      · obtain ⟨t,done,related'⟩ := refines.update s live m related first missing
        rw [done]
        exact related'
    | delete id =>
      obtain ⟨t,done,related'⟩ := refines.delete s live id related
      show R (match M.delete s id with | .ok t => t | .error _ => s) _
      rw [done]
      exact related'

/-! ### The store in memory refines the calls -/

theorem retrieve_insert (s : Store F) (m : Memory F) : (s.insert m).retrieve = Function.update s.retrieve m.id (some m) := by
  funext id
  by_cases same : id = m.id
  · subst same
    rw [retrieve_insert_self,Function.update_self]
  · rw [retrieve_insert_ne same,Function.update_of_ne same]

theorem retrieve_remove (s : Store F) (id : Uuid) : (s.remove id).retrieve = Function.update s.retrieve id none := by
  funext other
  by_cases same : other = id
  · subst same
    rw [retrieve_remove_self,Function.update_self]
  · rw [retrieve_remove_ne same,Function.update_of_ne same]

variable (contains_text : String → Json.Value → Bool)

theorem in_memory_refines (order : Uuid → Nat) : Refines contains_text (fun _ => True) (InMemoryStore contains_text order)
    fun s (live : Live F) => s.retrieve = live where
  store s live m related _ := by
    refine ⟨_,rfl,?_⟩
    subst related
    exact retrieve_insert s m
  retrieve s live id related := by rw [← related]; rfl
  update s live m related _ there := by
    subst related
    have stored : s.contains_key m.id = true := contains_key_iff.mpr there
    refine ⟨s.insert m,by simp [InMemoryStore,stored],?_⟩
    rw [Live.after,if_neg there]
    exact retrieve_insert s m
  update_missing s live m related missing := by
    subst related
    simp [InMemoryStore,Store.contains_key,missing]
  delete s live id related := by
    refine ⟨_,rfl,?_⟩
    subst related
    exact retrieve_remove s id
  listed s live related := by
    subst related
    refine ⟨s.iter order,⟨iter_distinct s order,fun m => ?_⟩,fun limit => rfl,fun query limit => rfl⟩
    rw [mem_iter]
    constructor
    · intro stored
      exact retrieve_of_mem stored
    · intro found
      exact retrieve_mem found

/-! ### The stores on disk refine the calls -/

theorem bigEndian_inj {width a b : Nat} (low : a < 256 ^ width) (low' : b < 256 ^ width) (same : bigEndian width a = bigEndian width b) : a = b := by
  induction width generalizing a b with
  | zero => omega
  | succ width ih =>
    obtain ⟨high,last⟩ := List.append_inj' same rfl
    have quotients := ih (Nat.div_lt_of_lt_mul (by rwa [Nat.pow_succ'] at low)) (Nat.div_lt_of_lt_mul (by rwa [Nat.pow_succ'] at low')) high
    have remainders : a % 256 = b % 256 := congrArg Fin.val (List.singleton_inj.mp last)
    omega

theorem key_inj {id other : Uuid} (same : key id = key other) : id = other :=
  BitVec.eq_of_toNat_eq (bigEndian_inj id.isLt other.isLt same)

variable (serde : Serde F)

def entry (m : Memory F) : Bytes × Bytes := (key m.id,serialize serde m)

/-- The entries of the database are those of the live memories, each of which is live under its own id. -/
structure Holds (db : Db) (live : Live F) : Prop where
  entries : ∀ e, e ∈ db.entries ↔ ∃ m ∈ live.memories, entry serde m = e
  keyed : ∀ id m, live id = some m → m.id = id
  lossless : ∀ m ∈ live.memories, serde.Lossless m

variable {serde}

theorem deserialize_serialize {m : Memory F} (lossless : serde.Lossless m) : deserialize serde (serialize serde m) = .ok m := by
  unfold deserialize serialize
  rw [lossless]

/-- What is read back is what was written. -/
theorem entry_inj {a b : Memory F} (lossless : serde.Lossless a) (lossless' : serde.Lossless b) (same : entry serde a = entry serde b) : a = b := by
  have read := deserialize_serialize lossless
  rw [show serialize serde a = serialize serde b from (Prod.mk.inj same).2,deserialize_serialize lossless'] at read
  exact (Except.ok.inj read).symm

theorem holds_get {db : Db} {live : Live F} (holds : Holds serde db live) (id : Uuid) : db.get (key id) = (live id).map (serialize serde) := by
  ext value
  rw [get_eq_some,holds.entries,Option.map_eq_some_iff]
  constructor
  · rintro ⟨m,there,same⟩
    obtain ⟨same_key,rfl⟩ := Prod.mk.inj same
    exact ⟨m,key_inj same_key ▸ there,rfl⟩
  · rintro ⟨m,there,rfl⟩
    have own := holds.keyed id m there
    exact ⟨m,by rw [← own] at there; exact there,by rw [entry,own]⟩

theorem memories_update (live : Live F) (m : Memory F) : Live.memories (Function.update live m.id (some m)) ⊆ insert m live.memories := by
  intro other there
  have there' : Function.update live m.id (some m) other.id = some other := there
  by_cases same : other.id = m.id
  · rw [same,Function.update_self] at there'
    exact .inl (Option.some.inj there').symm
  · rw [Function.update_of_ne same] at there'
    exact .inr there'

theorem memories_forget (live : Live F) (id : Uuid) : Live.memories (Function.update live id none) ⊆ live.memories := by
  intro other there
  have there' : Function.update live id none other.id = some other := there
  by_cases same : other.id = id
  · rw [same,Function.update_self] at there'
    exact absurd there'.symm (Option.some_ne_none other)
  · rw [Function.update_of_ne same] at there'
    exact there'

theorem holds_insert {db : Db} {live : Live F} (holds : Holds serde db live) {m : Memory F} (lossless : serde.Lossless m) :
    Holds serde (db.insert (key m.id) (serialize serde m)) (Function.update live m.id (some m)) where
  entries e := by
    rw [OrderedMap.mem_insert,holds.entries]
    constructor
    · rintro (rfl | ⟨⟨other,there,rfl⟩,differs⟩)
      · exact ⟨m,Function.update_self ..,rfl⟩
      · have apart : other.id ≠ m.id := fun same => differs (congrArg key same)
        exact ⟨other,(Function.update_of_ne apart ..).trans there,rfl⟩
    · rintro ⟨other,there,rfl⟩
      by_cases same : other.id = m.id
      · have there' : Function.update live m.id (some m) other.id = some other := there
        rw [same,Function.update_self] at there'
        exact .inl (by rw [← Option.some.inj there']; rfl)
      · have there' : Function.update live m.id (some m) other.id = some other := there
        rw [Function.update_of_ne same] at there'
        exact .inr ⟨⟨other,there',rfl⟩,fun same_key => same (key_inj same_key)⟩
  keyed id other there := by
    by_cases same : id = m.id
    · subst same
      rw [Function.update_self] at there
      rw [Option.some.inj there]
    · rw [Function.update_of_ne same] at there
      exact holds.keyed id other there
  lossless other there := by
    rcases memories_update live m there with rfl | old
    · exact lossless
    · exact holds.lossless other old

theorem holds_remove {db : Db} {live : Live F} (holds : Holds serde db live) (id : Uuid) :
    Holds serde (db.remove (key id)) (Function.update live id none) where
  entries e := by
    rw [OrderedMap.mem_remove,holds.entries]
    constructor
    · rintro ⟨⟨m,there,rfl⟩,differs⟩
      have apart : m.id ≠ id := fun same => differs (congrArg key same)
      exact ⟨m,(Function.update_of_ne apart ..).trans there,rfl⟩
    · rintro ⟨m,there,rfl⟩
      have there' : Function.update live id none m.id = some m := there
      by_cases same : m.id = id
      · rw [same,Function.update_self] at there'
        exact absurd there'.symm (Option.some_ne_none m)
      · rw [Function.update_of_ne same] at there'
        exact ⟨⟨m,there',rfl⟩,fun same_key => same (key_inj same_key)⟩
  keyed other m there := by
    by_cases same : other = id
    · subst same
      rw [Function.update_self] at there
      exact absurd there.symm (Option.some_ne_none m)
    · rw [Function.update_of_ne same] at there
      exact holds.keyed other m there
  lossless m there := holds.lossless m (memories_forget live id there)

/-- The loop reads the wanted memories up to the limit. -/
theorem scan_entries {limit : Nat} (wanted : Memory F → Bool) {memories results : List (Memory F)} (lossless : ∀ m ∈ memories, serde.Lossless m)
    (room : results.length ≤ limit) : scan serde limit wanted (memories.map (entry serde)) results = .ok ((results ++ memories.filter wanted).take limit) := by
  induction memories generalizing results with
  | nil =>
    rw [List.filter_nil,List.append_nil,List.take_of_length_le room]
    rfl
  | cons m memories ih =>
    rw [List.map_cons,entry,scan,deserialize_serialize (lossless m List.mem_cons_self)]
    have lossless' : ∀ later ∈ memories, serde.Lossless later := fun later member => lossless later (List.mem_cons_of_mem m member)
    by_cases full : limit ≤ results.length
    · rw [if_pos full,List.take_append_of_le_length full,List.take_of_length_le room]
    · rw [if_neg full]
      show scan serde limit wanted _ (if wanted m then results ++ [m] else results) = _
      cases keep : wanted m with
      | false =>
        rw [if_neg Bool.false_ne_true,List.filter_cons_of_neg (by simp [keep])]
        exact ih lossless' room
      | true =>
        have room' : (results ++ [m]).length ≤ limit := by
          rw [List.length_append,List.length_singleton]
          omega
        rw [if_pos rfl,List.filter_cons_of_pos keep,List.append_cons results m (memories.filter wanted)]
        exact ih lossless' room'

theorem holds_listed {db : Db} {live : Live F} (holds : Holds serde db live) :
    ∃ memories, Lists live memories ∧ db.entries = memories.map (entry serde) := by
  have images : db.entries ∈ Set.range (List.map fun m : live.memories => entry serde m.val) := by
    rw [Set.range_list_map]
    intro e member
    obtain ⟨m,there,same⟩ := (holds.entries e).mp member
    exact ⟨⟨m,there⟩,same⟩
  obtain ⟨listed,same⟩ := images
  have entries : db.entries = (listed.map Subtype.val).map (entry serde) := by rw [← same,List.map_map]; rfl
  have distinct := keys_distinct db
  rw [entries,List.map_map] at distinct
  refine ⟨listed.map Subtype.val,⟨?_,fun m => ?_⟩,entries⟩
  · refine List.Nodup.of_map key ?_
    rw [List.map_map]
    exact distinct
  constructor
  · intro member
    obtain ⟨m',-,rfl⟩ := List.mem_map.mp member
    exact m'.property
  · intro there
    have member := (holds.entries (entry serde m)).mpr ⟨m,there,rfl⟩
    rw [entries] at member
    obtain ⟨other,listed',equal⟩ := List.mem_map.mp member
    obtain ⟨m',-,rfl⟩ := List.mem_map.mp listed'
    exact entry_inj (holds.lossless m'.val m'.property) (holds.lossless m there) equal ▸ listed'

theorem sled_refines : Refines contains_text serde.Lossless (SledStore contains_text serde) (Holds serde) where
  store db live m holds lossless := ⟨_,rfl,holds_insert holds lossless⟩
  retrieve db live id holds := by
    show (match db.get (key id) with | some bytes => (deserialize serde bytes).map some | none => .ok none) = _
    rw [holds_get holds]
    cases found : live id with
    | none => rfl
    | some m =>
      have own : live m.id = some m := by rw [holds.keyed id m found,found]
      show (deserialize serde (serialize serde m)).map some = _
      rw [deserialize_serialize (holds.lossless m own)]
      rfl
  update db live m holds lossless there := by
    have stored : db.contains_key (key m.id) = true := by
      rw [SortedMap.contains_key,holds_get holds,Option.isSome_map]
      exact Option.isSome_iff_ne_none.mpr there
    refine ⟨_,by simp only [SledStore,stored]; rfl,?_⟩
    rw [Live.after,if_neg there]
    exact holds_insert holds lossless
  update_missing db live m holds missing := by
    have absent : db.contains_key (key m.id) = false := by
      rw [SortedMap.contains_key,holds_get holds,missing]
      rfl
    simp only [SledStore,absent]
    rfl
  delete db live id holds := ⟨_,rfl,holds_remove holds id⟩
  listed db live holds := by
    obtain ⟨memories,lists,same⟩ := holds_listed holds
    have lossless : ∀ m ∈ memories, serde.Lossless m := fun m member => holds.lossless m ((lists.mem m).mp member)
    refine ⟨memories,lists,fun limit => ?_,fun query limit => ?_⟩
    · show scan serde limit _ db.entries [] = _
      rw [same,scan_entries _ lossless (Nat.zero_le limit),List.nil_append,List.filter_true]
    · show scan serde limit _ db.entries [] = _
      rw [same,scan_entries _ lossless (Nat.zero_le limit),List.nil_append]

theorem rocks_refines : Refines contains_text serde.Lossless (RocksStore contains_text serde) (Holds serde) := by
  rw [rocks_sled]
  exact sled_refines contains_text

/-! ### After all sequences of calls -/

def Live.run (calls : List (Call F)) : Live F := Runs.run Live.after (fun _ => none) calls

/-- A call makes at most one more memory live. -/
theorem ncard_after (live : Live F) (call : Call F) (finite : live.memories.Finite) :
    (live.after call).memories.Finite ∧ (live.after call).memories.ncard ≤ live.memories.ncard + 1 := by
  have written : ∀ m : Memory F, (Live.memories (Function.update live m.id (some m))).Finite ∧
      (Live.memories (Function.update live m.id (some m))).ncard ≤ live.memories.ncard + 1 := by
    intro m
    have finite' := finite.insert m
    exact ⟨finite'.subset (memories_update live m),(Set.ncard_le_ncard (memories_update live m) finite').trans (Set.ncard_insert_le m _)⟩
  cases call with
  | store m => exact written m
  | update m =>
    unfold Live.after
    dsimp only
    split_ifs with missing
    · exact ⟨finite,Nat.le_succ _⟩
    · exact written m
  | delete id =>
    exact ⟨finite.subset (memories_forget live id),(Set.ncard_le_ncard (memories_forget live id) finite).trans (Nat.le_succ _)⟩

/-- At most as many memories are live as there were calls. -/
theorem ncard_run (calls : List (Call F)) : (Live.run calls).memories.Finite ∧ (Live.run calls).memories.ncard ≤ calls.length := by
  induction calls using List.reverseRecOn with
  | nil =>
    have none_live : (Live.run ([] : List (Call F))).memories = ∅ := Set.eq_empty_of_forall_notMem fun m there => Option.some_ne_none m there.symm
    rw [none_live]
    exact ⟨Set.finite_empty,by simp⟩
  | append_singleton calls call ih =>
    rw [Live.run,run_snoc,List.length_append,List.length_singleton]
    obtain ⟨finite,count⟩ := ncard_after (Live.run calls) call ih.1
    exact ⟨finite,count.trans (Nat.succ_le_succ ih.2)⟩

theorem holds_empty (serde : Serde F) : Holds serde .empty fun _ => none where
  lossless m there := absurd there.symm (Option.some_ne_none m)
  entries e := by
    constructor
    · intro member
      exact absurd member List.not_mem_nil
    · rintro ⟨m,there,-⟩
      exact absurd there.symm (Option.some_ne_none m)
  keyed id m there := absurd there.symm (Option.some_ne_none m)

/-! ### The backends -/

inductive Backend (F : Type) where
  | InMemory (order : Uuid → Nat)
  | Sled (serde : Serde F)
  | Rocks (serde : Serde F)

def Backend.State : Backend F → Type
  | .InMemory _ => Store F
  | .Sled _ => Db
  | .Rocks _ => Db

def Backend.trait : (backend : Backend F) → MemoryStore F backend.State
  | .InMemory order => InMemoryStore contains_text order
  | .Sled serde => SledStore contains_text serde
  | .Rocks serde => RocksStore contains_text serde

def Backend.new : (backend : Backend F) → backend.State
  | .InMemory _ => (⟨[],List.nodup_nil⟩ : Store F)
  | .Sled _ => (.empty : Db)
  | .Rocks _ => (.empty : Db)

/-- The backend after a sequence of calls, empty at first. -/
def Backend.after (backend : Backend F) (calls : List (Call F)) : backend.State :=
  Runs.run (backend.trait contains_text).after backend.new calls

/-- The backend can write the memory and read it back. -/
def Backend.Lossless : Backend F → Memory F → Prop
  | .InMemory _ => fun _ => True
  | .Sled serde => serde.Lossless
  | .Rocks serde => serde.Lossless

def Backend.Holds : (backend : Backend F) → backend.State → Live F → Prop
  | .InMemory _ => fun (s : Store F) live => s.retrieve = live
  | .Sled serde => MemoryBackends.Holds serde
  | .Rocks serde => MemoryBackends.Holds serde

theorem backend_refines (backend : Backend F) : Refines contains_text backend.Lossless (backend.trait contains_text) backend.Holds := by
  cases backend with
  | InMemory order => exact in_memory_refines contains_text order
  | Sled serde => exact sled_refines contains_text
  | Rocks serde => exact rocks_refines contains_text

theorem backend_new (backend : Backend F) : backend.Holds backend.new fun _ => none := by
  cases backend with
  | InMemory order => rfl
  | Sled serde => exact holds_empty serde
  | Rocks serde => exact holds_empty serde

theorem backend_holds (backend : Backend F) {calls : List (Call F)} (lossless : ∀ call ∈ calls, call.Writes backend.Lossless) :
    backend.Holds (backend.after contains_text calls) (Live.run calls) :=
  (backend_refines contains_text backend).run (backend_new backend) lossless

end
end Daf.MemoryBackends
