import Daf.AgentInventory
import Daf.CapabilitySets
import Daf.MissionPlan
import Daf.TopK
import Daf.UuidText
import Mathlib.Algebra.Order.Field.Rat
import Mathlib.Tactic.GCongr

/-!
The registry of agents with their capabilities, and the discovery of those that meet requirements, best first.
Scores are exact.
-/
namespace Daf.Discovery
open Daf.AgentInventory Daf.CapabilitySets Daf.MissionPlan Daf.TopK Daf.UuidText Daf.Versions

/-! ### Scores -/

structure MatchScore where
  agent_index : Nat
  required_score : Rat
  optional_score : Rat
  total_score : Rat
  missing_required : List String
  missing_optional : List String
deriving DecidableEq,Repr

def MatchScore.all_required_met (score : MatchScore) : Bool := score.missing_required.isEmpty

/-- The requirement is met by one of the capabilities. -/
def met (caps : CapabilitySet) (req : CapabilityRequirement) : Bool := (caps.find_match req).isSome

/-- What is counted over the requirements. -/
structure Tally where
  required_met : Nat
  required_total : Nat
  optional_met : Nat
  optional_total : Nat
  missing_required : List String
  missing_optional : List String

def Tally.count (caps : CapabilitySet) (tally : Tally) (req : CapabilityRequirement) : Tally :=
  if req.required then
    if met caps req then { tally with required_total := tally.required_total + 1, required_met := tally.required_met + 1 }
    else { tally with required_total := tally.required_total + 1, missing_required := tally.missing_required ++ [req.name] }
  else
    if met caps req then { tally with optional_total := tally.optional_total + 1, optional_met := tally.optional_met + 1 }
    else { tally with optional_total := tally.optional_total + 1, missing_optional := tally.missing_optional ++ [req.name] }

/-- Required capabilities weigh three times as much as optional ones. -/
def score_capabilities (caps : CapabilitySet) (requirements : List CapabilityRequirement) : MatchScore :=
  let tally := requirements.foldl (Tally.count caps) ⟨0,0,0,0,[],[]⟩
  let required_score : Rat := if 0 < tally.required_total then tally.required_met / tally.required_total else 1
  let optional_score : Rat := if 0 < tally.optional_total then tally.optional_met / tally.optional_total else 0
  ⟨0,required_score,optional_score,(required_score * 3 + optional_score) / 4,tally.missing_required,tally.missing_optional⟩

/-! ### The registry -/

structure AgentCapability where
  name : String
  version : String
  description : String
deriving DecidableEq,Repr

structure AgentManifest where
  id : AgentId
  kind : AgentKind
  name : String
  capabilities : List AgentCapability
  metadata : AList fun _ : String => String

structure RegistryEntry where
  manifest : AgentManifest
  capabilities : CapabilitySet

/-- The version of a capability, which is 0.0.0 when it is no version. -/
def parsed (version : String) : SemVer :=
  match SemVer.from_str version.toList with
  | .ok v => v
  | .error _ => .new 0 0 0

def parse_capabilities (manifest : AgentManifest) : CapabilitySet :=
  .from_capabilities (manifest.capabilities.map fun c => .new c.name (parsed c.version) c.description)

def RegistryEntry.new (manifest : AgentManifest) : RegistryEntry := ⟨manifest,parse_capabilities manifest⟩

/-- The agents, each of them under its own id. -/
structure Registry where
  agents : AList fun _ : AgentId => RegistryEntry
  keyed : ∀ id entry, agents.lookup id = some entry → entry.manifest.id = id

theorem keyed_insert {agents : AList fun _ : AgentId => RegistryEntry} (keyed : ∀ id entry, agents.lookup id = some entry → entry.manifest.id = id)
    (entry : RegistryEntry) : ∀ id other, (agents.insert entry.manifest.id entry).lookup id = some other → other.manifest.id = id := by
  intro id other found
  by_cases same : id = entry.manifest.id
  · subst same
    rw [AList.lookup_insert] at found
    rw [Option.some.inj found]
  · rw [AList.lookup_insert_ne same] at found
    exact keyed id other found

def Registry.register_agent (r : Registry) (manifest : AgentManifest) : Except DafError Registry :=
  match r.agents.lookup manifest.id with
  | some _ => .error (.AgentError (some manifest.id.uuid) ("agent " ++ toText manifest.id.uuid ++ " is already registered"))
  | none => .ok ⟨r.agents.insert manifest.id (.new manifest),keyed_insert r.keyed (.new manifest)⟩

/-- The agents in the order in which the map is iterated. -/
def Registry.entries (order : AgentId → Nat) (r : Registry) : List (AgentId × RegistryEntry) :=
  (r.agents.entries.map fun e => (e.1,e.2)).insertionSort fun a b => order a.1 ≤ order b.1

def scored (requirements : List CapabilityRequirement) (item : (AgentId × RegistryEntry) × Nat) : Option (RegistryEntry × MatchScore) :=
  let score := { score_capabilities item.1.2.capabilities requirements with agent_index := item.2 }
  if score.all_required_met then some (item.1.2,score) else none

def Registry.discover (order : AgentId → Nat) (requirements : List CapabilityRequirement) (r : Registry) : List (RegistryEntry × MatchScore) :=
  ((r.entries order).zipIdx.filterMap (scored requirements)).mergeSort fun a b => b.2.total_score ≤ a.2.total_score

/-! ### What a score says -/

section
variable (caps : CapabilitySet)

theorem met_iff {caps : CapabilitySet} {req : CapabilityRequirement} : met caps req = true ↔ ∃ c ∈ caps.get req.name, req.satisfied c = true := find_match_isSome

theorem tally_count (requirements : List CapabilityRequirement) (tally : Tally) :
    requirements.foldl (Tally.count caps) tally =
      ⟨tally.required_met + requirements.countP (fun req => req.required && met caps req),
        tally.required_total + requirements.countP (fun req => req.required),
        tally.optional_met + requirements.countP (fun req => !req.required && met caps req),
        tally.optional_total + requirements.countP (fun req => !req.required),
        tally.missing_required ++ (requirements.filter fun req => req.required && !met caps req).map CapabilityRequirement.name,
        tally.missing_optional ++ (requirements.filter fun req => !req.required && !met caps req).map CapabilityRequirement.name⟩ := by
  induction requirements generalizing tally with
  | nil => simp
  | cons req requirements ih =>
    rw [List.foldl_cons,ih,Tally.count]
    cases required : req.required <;> cases matched : met caps req <;> simp [required,matched,Nat.add_assoc,Nat.add_comm]

/-- All required capabilities are met when each required one is. -/
theorem all_required_met_iff {caps : CapabilitySet} {requirements : List CapabilityRequirement} :
    (score_capabilities caps requirements).all_required_met = true ↔ ∀ req ∈ requirements, req.required = true → met caps req = true := by
  unfold score_capabilities MatchScore.all_required_met
  rw [tally_count]
  simp [List.filter_eq_nil_iff]

theorem total_score_eq (requirements : List CapabilityRequirement) :
    (score_capabilities caps requirements).total_score =
      ((if 0 < requirements.countP (fun req => req.required) then
          (requirements.countP (fun req => req.required && met caps req) : Rat) / requirements.countP (fun req => req.required) else 1) * 3 +
        if 0 < requirements.countP (fun req => !req.required) then
          (requirements.countP (fun req => !req.required && met caps req) : Rat) / requirements.countP (fun req => !req.required) else 0) / 4 := by
  unfold score_capabilities
  rw [tally_count]
  simp

/-- What is met by a set is met by it with another capability. -/
theorem met_insert {caps : CapabilitySet} {req : CapabilityRequirement} (matched : met caps req = true) (cap : Capability) : met (caps.insert cap) req = true := by
  obtain ⟨c,listed,good⟩ := met_iff.mp matched
  rw [met_iff,get_insert]
  split_ifs with same
  · rcases placed_keeps cap listed with kept | ⟨new,version⟩
    · exact ⟨c,kept,good⟩
    · refine ⟨cap,new,?_⟩
      rw [CapabilityRequirement.satisfied,← satisfies_eq version]
      exact good
  · exact ⟨c,listed,good⟩

/-- Another capability does not lower a score. -/
theorem total_score_insert (requirements : List CapabilityRequirement) (cap : Capability) :
    (score_capabilities caps requirements).total_score ≤ (score_capabilities (caps.insert cap) requirements).total_score := by
  have required : requirements.countP (fun req => req.required && met caps req) ≤
      requirements.countP (fun req => req.required && met (caps.insert cap) req) := by
    refine List.countP_mono_left fun req _ counted => ?_
    rw [Bool.and_eq_true] at counted ⊢
    exact ⟨counted.1,met_insert counted.2 cap⟩
  have optional : requirements.countP (fun req => !req.required && met caps req) ≤
      requirements.countP (fun req => !req.required && met (caps.insert cap) req) := by
    refine List.countP_mono_left fun req _ counted => ?_
    rw [Bool.and_eq_true] at counted ⊢
    exact ⟨counted.1,met_insert counted.2 cap⟩
  rw [total_score_eq,total_score_eq]
  split_ifs <;> gcongr

end

/-! ### What is discovered -/

theorem entries_perm (order : AgentId → Nat) (r : Registry) : (r.entries order).Perm (r.agents.entries.map fun e => (e.1,e.2)) :=
  List.perm_insertionSort _ _

theorem mem_entries {order : AgentId → Nat} {r : Registry} {id : AgentId} {entry : RegistryEntry} :
    (id,entry) ∈ r.entries order ↔ r.agents.lookup id = some entry := by
  rw [(entries_perm order r).mem_iff]
  show _ ↔ entry ∈ r.agents.lookup id
  rw [AList.mem_lookup_iff,List.mem_map]
  constructor
  · rintro ⟨⟨id',entry'⟩,member,same⟩
    obtain ⟨rfl,rfl⟩ := Prod.mk.inj same
    exact member
  · intro member
    exact ⟨⟨id,entry⟩,member,rfl⟩

theorem entries_distinct (order : AgentId → Nat) (r : Registry) : (r.entries order).Pairwise fun a b => a.1 ≠ b.1 := by
  have keys : ((r.agents.entries.map fun e => (e.1,e.2)).map Prod.fst).Nodup := by
    rw [List.map_map]
    exact r.agents.nodupKeys
  exact List.pairwise_map.mp (((entries_perm order r).map Prod.fst).nodup_iff.mpr keys)

theorem scored_some {requirements : List CapabilityRequirement} {item : (AgentId × RegistryEntry) × Nat} {found : RegistryEntry × MatchScore} :
    scored requirements item = some found ↔
      (score_capabilities item.1.2.capabilities requirements).all_required_met = true ∧
        found = (item.1.2,{ score_capabilities item.1.2.capabilities requirements with agent_index := item.2 }) := by
  unfold scored
  dsimp only
  split_ifs with good
  · rw [Option.some.injEq,eq_comm]
    exact (and_iff_right good).symm
  · exact iff_of_false not_false fun both => good both.1

/-- Found is who is registered and meets what is required, with the score of the capabilities. -/
theorem mem_discover {order : AgentId → Nat} {requirements : List CapabilityRequirement} {r : Registry} {found : RegistryEntry × MatchScore}
    (member : found ∈ r.discover order requirements) :
    r.agents.lookup found.1.manifest.id = some found.1 ∧ (score_capabilities found.1.capabilities requirements).all_required_met = true ∧
      found.2.total_score = (score_capabilities found.1.capabilities requirements).total_score := by
  obtain ⟨⟨⟨id,entry⟩,index⟩,listed,good⟩ := List.mem_filterMap.mp (List.mem_mergeSort.mp member)
  obtain ⟨met,rfl⟩ := Iff.mp scored_some good
  have registered := Iff.mp mem_entries (List.fst_mem_of_mem_zipIdx listed)
  refine ⟨?_,met,rfl⟩
  show r.agents.lookup entry.manifest.id = some entry
  rw [r.keyed id entry registered]
  exact registered

theorem discovered {order : AgentId → Nat} {requirements : List CapabilityRequirement} {r : Registry} {entry : RegistryEntry}
    (registered : r.agents.lookup entry.manifest.id = some entry)
    (good : (score_capabilities entry.capabilities requirements).all_required_met = true) :
    ∃ score, (entry,score) ∈ r.discover order requirements := by
  have listed : (entry.manifest.id,entry) ∈ ((r.entries order).zipIdx).map Prod.fst := by
    rw [List.zipIdx_map_fst]
    exact mem_entries.mpr registered
  obtain ⟨⟨item,index⟩,member,same⟩ := List.mem_map.mp listed
  obtain rfl : item = (entry.manifest.id,entry) := same
  exact ⟨_,List.mem_mergeSort.mpr (List.mem_filterMap.mpr ⟨_,member,Iff.mpr scored_some ⟨good,rfl⟩⟩)⟩

theorem discover_ranked (order : AgentId → Nat) (requirements : List CapabilityRequirement) (r : Registry) :
    (r.discover order requirements).Pairwise fun a b => b.2.total_score ≤ a.2.total_score :=
  @sorted_by (RegistryEntry × MatchScore) Rat _ (fun found => found.2.total_score) _ (fun _ _ => decide_eq_true_iff) _

theorem discover_distinct (order : AgentId → Nat) (requirements : List CapabilityRequirement) (r : Registry) :
    ((r.discover order requirements).map fun found => found.1.manifest.id).Nodup := by
  refine ((List.mergeSort_perm _ _).map _).nodup_iff.mpr (List.pairwise_map.mpr (List.pairwise_filterMap.mpr ?_))
  have items : ((r.entries order).zipIdx).Pairwise fun a b => a.1.1 ≠ b.1.1 := by
    have distinct := entries_distinct order r
    rw [← List.zipIdx_map_fst 0 (r.entries order),List.pairwise_map] at distinct
    exact distinct
  refine items.imp_of_mem fun {a b} first second differs found good found' good' => ?_
  obtain ⟨-,rfl⟩ := scored_some.mp good
  obtain ⟨-,rfl⟩ := scored_some.mp good'
  have own := r.keyed a.1.1 a.1.2 (mem_entries.mp (List.fst_mem_of_mem_zipIdx first))
  have own' := r.keyed b.1.1 b.1.2 (mem_entries.mp (List.fst_mem_of_mem_zipIdx second))
  show a.1.2.manifest.id ≠ b.1.2.manifest.id
  rw [own,own']
  exact differs

/-! ### Sets and their matches -/

/-- A set is a finite map from names and versions up to build metadata, with no name listed empty, and finds the best match. -/
structure Exact (s : CapabilitySet) : Prop where
  entries : ∀ c, c ∈ s.get c.name ↔ s.entry c.name c.version = some c
  keyed : ∀ name version c, s.entry name version = some c → c ∈ s.get c.name ∧ c.name = name ∧ c.version.eq version = true
  named : ∀ name, s.contains name = true ↔ ∃ version c, s.entry name version = some c
  best : ∀ req c, s.find_match req = some c → BestMatch s req c
  found : ∀ req, (s.find_match req).isSome = true ↔ ∃ c ∈ s.get req.name, req.satisfied c = true

theorem exact_of_wellFormed {s : CapabilitySet} (whole : WellFormed s) : Exact s where
  entries c := by
    rw [entry_iff whole]
    exact (and_iff_left (eq_refl c.version)).symm
  keyed name version c found := by
    obtain ⟨listed,same⟩ := (entry_iff whole).mp found
    have own := whole.named name c listed
    exact ⟨own ▸ listed,own,same⟩
  named name := by
    rw [contains_iff whole]
    constructor
    · rintro ⟨c,listed⟩
      exact ⟨c.version,c,(entry_iff whole).mpr ⟨listed,eq_refl c.version⟩⟩
    · rintro ⟨version,c,found⟩
      exact ⟨c,((entry_iff whole).mp found).1⟩
  best req c found := find_match_some found
  found req := find_match_isSome

/-- The operations: what they write wins, and they keep the keys that they say. -/
structure Operations (order : String → Nat) (s t : CapabilitySet) : Prop where
  insert : ∀ cap name version, (s.insert cap).entry name version = if name = cap.name ∧ cap.version.eq version = true then some cap else s.entry name version
  remove : ∀ removed name version, (s.remove removed).2.entry name version = if name = removed then none else s.entry name version
  union : ∀ name version, (s.union order t).entry name version = (s.entry name version).or (t.entry name version)
  intersection : ∀ name version, (s.intersection order t).entry name version = if t.contains name then s.entry name version else none
  difference : ∀ name version, (s.difference order t).entry name version = if t.contains name then none else s.entry name version

/-- The registry with another capability of a registered agent. -/
def Registry.grant (r : Registry) (entry : RegistryEntry) (cap : Capability) : Registry :=
  ⟨r.agents.insert entry.manifest.id { entry with capabilities := entry.capabilities.insert cap },
    keyed_insert r.keyed { entry with capabilities := entry.capabilities.insert cap }⟩

/-- What is discovered: exactly the agents that meet what is required, each once, the best first. -/
structure Discovers (order : AgentId → Nat) (requirements : List CapabilityRequirement) (r : Registry) : Prop where
  met : ∀ entry, (∃ score, (entry,score) ∈ r.discover order requirements) ↔ r.agents.lookup entry.manifest.id = some entry ∧
    ∀ req ∈ requirements, req.required = true → ∃ c ∈ entry.capabilities.get req.name, req.satisfied c = true
  once : ((r.discover order requirements).map fun found => found.1.manifest.id).Nodup
  ranked : (r.discover order requirements).Pairwise fun a b => b.2.total_score ≤ a.2.total_score
  granted : ∀ found ∈ r.discover order requirements, ∀ cap, ∃ score,
    ({ found.1 with capabilities := found.1.capabilities.insert cap },score) ∈ (r.grant found.1 cap).discover order requirements ∧
      found.2.total_score ≤ score.total_score

theorem discovers (order : AgentId → Nat) (requirements : List CapabilityRequirement) (r : Registry) : Discovers order requirements r where
  met entry := by
    have required : (score_capabilities entry.capabilities requirements).all_required_met = true ↔
        ∀ req ∈ requirements, req.required = true → ∃ c ∈ entry.capabilities.get req.name, req.satisfied c = true := by
      rw [all_required_met_iff]
      simp only [met_iff]
    rw [← required]
    constructor
    · rintro ⟨score,member⟩
      obtain ⟨registered,good,-⟩ := mem_discover member
      exact ⟨registered,good⟩
    · rintro ⟨registered,good⟩
      exact discovered registered good
  once := discover_distinct order requirements r
  ranked := discover_ranked order requirements r
  granted found member cap := by
    obtain ⟨-,good,score⟩ := mem_discover member
    have good' : (score_capabilities (found.1.capabilities.insert cap) requirements).all_required_met = true :=
      all_required_met_iff.mpr fun req listed required => met_insert (all_required_met_iff.mp good req listed required) cap
    have registered : (r.grant found.1 cap).agents.lookup found.1.manifest.id = some { found.1 with capabilities := found.1.capabilities.insert cap } :=
      AList.lookup_insert r.agents
    have listed : ∃ score, ({ found.1 with capabilities := found.1.capabilities.insert cap },score) ∈ (r.grant found.1 cap).discover order requirements :=
      discovered registered good'
    obtain ⟨score',member'⟩ := listed
    refine ⟨score',member',?_⟩
    rw [score,(mem_discover member').2.2]
    exact total_score_insert found.1.capabilities requirements cap

/-- Every set of capabilities that the operations reach is exact, and so are they and discovery. -/
theorem capabilities_exact :
    (∀ s, Reachable s → Exact s) ∧ (∀ order s t, Reachable s → Reachable t → Operations order s t) ∧
      ∀ order requirements r, Discovers order requirements r := by
  refine ⟨fun s reachable => exact_of_wellFormed reachable.wellFormed,fun order s t reachable _ => ?_,discovers⟩
  exact ⟨entry_insert s,entry_remove s,entry_union order reachable.wellFormed,entry_intersection order reachable.wellFormed,
    entry_difference order reachable.wellFormed⟩

end Daf.Discovery
