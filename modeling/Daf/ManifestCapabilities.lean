import Daf.Discovery

/-!
Manifest files of agents: their validation, what is registered of them, and whether the capabilities that they
declare are those that are found. A version that cannot be read becomes 0.0.0.
-/
namespace Daf.ManifestCapabilities
open Daf.AgentInventory Daf.CapabilitySets Daf.Discovery Daf.DottedPaths Daf.MissionPlan Daf.Versions

structure CapabilityDecl where
  name : String
  version : String
  description : String
deriving DecidableEq,Repr

structure ManifestFile where
  name : String
  kind : AgentKind
  version : String
  capabilities : List CapabilityDecl
  metadata : AList fun _ : String => String
  description : Option String

inductive ValidationError where
  | MissingField (field : String)
  | InvalidField (field reason : String)
  | DuplicateCapability (name : String)
deriving DecidableEq,Repr

/-- What is wrong with the declarations, behind those whose names were seen. -/
def capability_errors : List CapabilityDecl → List String → List ValidationError
  | [],_ => []
  | cap :: rest,seen =>
    (if seen.contains cap.name then [.DuplicateCapability cap.name] else []) ++
      (if cap.name.isEmpty then [.MissingField "capabilities[].name"] else []) ++ capability_errors rest (cap.name :: seen)

def from_str_checked (s : String) : Except VersionParseError SemVer := SemVer.from_str s.toList

def manifest_errors (manifest : ManifestFile) : List ValidationError :=
  (if manifest.name.isEmpty then [.MissingField "name"] else []) ++
    (if manifest.name.toList.any is_whitespace then [.InvalidField "name" "must not contain whitespace"] else []) ++
    capability_errors manifest.capabilities [] ++
    (if (from_str_checked manifest.version).isOk then [] else [.InvalidField "version" ("'" ++ manifest.version ++ "' is not a valid semver")])

def validate_manifest (manifest : ManifestFile) : Except (List ValidationError) Unit :=
  if (manifest_errors manifest).isEmpty then .ok () else .error (manifest_errors manifest)

/-- The manifest of a file, with the id that is drawn for it. -/
def manifest_from_file (drawn : AgentId) (file : ManifestFile) : AgentManifest where
  id := drawn
  kind := file.kind
  name := file.name
  capabilities := file.capabilities.map fun c => ⟨c.name,c.version,c.description⟩
  metadata := match file.description with | some desc => file.metadata.insert "description" desc | none => file.metadata

/-! ### What is accepted -/

theorem no_capability_errors {caps : List CapabilityDecl} {seen : List String} (none_wrong : capability_errors caps seen = []) :
    (caps.map CapabilityDecl.name).Nodup ∧ ∀ cap ∈ caps, cap.name ∉ seen := by
  induction caps generalizing seen with
  | nil => exact ⟨List.nodup_nil,by simp⟩
  | cons cap rest ih =>
    rw [capability_errors,List.append_eq_nil_iff,List.append_eq_nil_iff] at none_wrong
    obtain ⟨⟨fresh,-⟩,rest_right⟩ := none_wrong
    obtain ⟨distinct,apart⟩ := ih rest_right
    have unseen : cap.name ∉ seen := by
      intro there
      rw [if_pos (List.contains_iff_mem.mpr there)] at fresh
      exact absurd fresh (by simp)
    constructor
    · rw [List.map_cons,List.nodup_cons]
      refine ⟨fun again => ?_,distinct⟩
      obtain ⟨other,member,same⟩ := List.mem_map.mp again
      exact apart other member (same ▸ List.mem_cons_self)
    · intro other member
      rcases List.mem_cons.mp member with rfl | later
      · exact unseen
      · exact fun there => apart other later (List.mem_cons_of_mem cap.name there)

theorem accepted_distinct {file : ManifestFile} (accepted : validate_manifest file = .ok ()) : (file.capabilities.map CapabilityDecl.name).Nodup := by
  unfold validate_manifest at accepted
  split_ifs at accepted with right
  rw [List.isEmpty_iff,manifest_errors,List.append_eq_nil_iff,List.append_eq_nil_iff] at right
  exact (no_capability_errors right.1.2).1

/-! ### What is registered -/

/-- The capability that is made of a declaration. -/
def registered (decl : CapabilityDecl) : Capability := .new decl.name (parsed decl.version) decl.description

theorem parse_manifest (drawn : AgentId) (file : ManifestFile) :
    parse_capabilities (manifest_from_file drawn file) = .from_capabilities (file.capabilities.map registered) := by
  unfold parse_capabilities manifest_from_file registered
  rw [List.map_map]
  rfl

/-- Capabilities of different names are each the only one of theirs. -/
theorem get_inserts {caps : List Capability} (distinct : (caps.map Capability.name).Nodup) (s : CapabilitySet) (fresh : ∀ cap ∈ caps, s.get cap.name = []) :
    (∀ cap ∈ caps, (caps.foldl CapabilitySet.insert s).get cap.name = [cap]) ∧
      ∀ name, name ∉ caps.map Capability.name → (caps.foldl CapabilitySet.insert s).get name = s.get name := by
  induction caps generalizing s with
  | nil => exact ⟨by simp,fun name _ => rfl⟩
  | cons cap caps ih =>
    rw [List.map_cons,List.nodup_cons] at distinct
    have fresh' : ∀ other ∈ caps, (s.insert cap).get other.name = [] := by
      intro other member
      have differs : other.name ≠ cap.name := fun same => distinct.1 (same ▸ List.mem_map_of_mem member)
      rw [get_insert,if_neg differs]
      exact fresh other (List.mem_cons_of_mem cap member)
    obtain ⟨single,others⟩ := ih distinct.2 (s.insert cap) fresh'
    constructor
    · intro other member
      rcases List.mem_cons.mp member with rfl | later
      · rw [List.foldl_cons,others other.name distinct.1,get_insert,if_pos rfl,fresh other List.mem_cons_self]
        rfl
      · exact single other later
    · intro name absent
      rw [List.map_cons,List.mem_cons,not_or] at absent
      rw [List.foldl_cons,others name absent.2,get_insert,if_neg absent.1]

section
variable {file : ManifestFile} (accepted : validate_manifest file = .ok ())
include accepted

/-- Each declaration has its capability, and no other is there. -/
theorem registered_capabilities (drawn : AgentId) :
    (∀ decl ∈ file.capabilities, (parse_capabilities (manifest_from_file drawn file)).get decl.name = [registered decl]) ∧
      ∀ name, name ∉ file.capabilities.map CapabilityDecl.name → (parse_capabilities (manifest_from_file drawn file)).get name = [] := by
  have names : (file.capabilities.map registered).map Capability.name = file.capabilities.map CapabilityDecl.name := by
    rw [List.map_map]
    rfl
  obtain ⟨single,others⟩ := get_inserts (names ▸ accepted_distinct accepted) .new fun cap _ => rfl
  rw [parse_manifest]
  constructor
  · intro decl member
    exact single (registered decl) (List.mem_map_of_mem member)
  · intro name absent
    exact others name (by rw [names]; exact absent)

end

/-- The entry has exactly the declared capabilities, each with the version that was declared. -/
structure Declares (file : ManifestFile) (entry : RegistryEntry) : Prop where
  declared : ∀ decl ∈ file.capabilities, ∃ v, SemVer.from_str decl.version.toList = .ok v ∧
    entry.capabilities.get decl.name = [.new decl.name v decl.description]
  only : ∀ name, name ∉ file.capabilities.map CapabilityDecl.name → entry.capabilities.get name = []

/-- The agent is found for a single required capability when it declares a version of it that satisfies the constraint. -/
def Discovered (file : ManifestFile) (id : AgentId) (r : Registry) : Prop :=
  ∀ order name constraint, (∃ found ∈ r.discover order [⟨name,constraint,true⟩], found.1.manifest.id = id) ↔
    ∃ decl ∈ file.capabilities, decl.name = name ∧ ∃ v, SemVer.from_str decl.version.toList = .ok v ∧ constraint.satisfies v = true

/-- All declared versions can be read. -/
def Readable (file : ManifestFile) : Prop := ∀ decl ∈ file.capabilities, ∃ v, SemVer.from_str decl.version.toList = .ok v

theorem registered_read {decl : CapabilityDecl} {v : SemVer} (read : SemVer.from_str decl.version.toList = .ok v) :
    registered decl = .new decl.name v decl.description := by
  rw [registered,parsed,read]

theorem declares_iff {file : ManifestFile} (accepted : validate_manifest file = .ok ()) (drawn : AgentId) :
    Declares file (.new (manifest_from_file drawn file)) ↔ Readable file := by
  obtain ⟨single,others⟩ := registered_capabilities accepted drawn
  constructor
  · intro declares decl member
    obtain ⟨v,read,-⟩ := declares.declared decl member
    exact ⟨v,read⟩
  · intro readable
    refine ⟨fun decl member => ?_,others⟩
    obtain ⟨v,read⟩ := readable decl member
    exact ⟨v,read,registered_read read ▸ single decl member⟩

/-- A single required capability finds the agent when one of its capabilities of the name satisfies the constraint. -/
theorem discover_single {r : Registry} (entry : RegistryEntry) (held : r.agents.lookup entry.manifest.id = some entry) (order : AgentId → Nat) (name : String)
    (constraint : VersionConstraint) :
    (∃ found ∈ r.discover order [⟨name,constraint,true⟩], found.1.manifest.id = entry.manifest.id) ↔
      ∃ c ∈ entry.capabilities.get name, constraint.satisfies c.version = true := by
  have required : (score_capabilities entry.capabilities [⟨name,constraint,true⟩]).all_required_met = true ↔
      ∃ c ∈ entry.capabilities.get name, constraint.satisfies c.version = true := by
    rw [all_required_met_iff]
    simp [met_iff,CapabilityRequirement.satisfied]
  rw [← required]
  constructor
  · rintro ⟨found,member,same⟩
    obtain ⟨registered,good,-⟩ := mem_discover member
    rw [same,held] at registered
    exact Option.some.inj registered ▸ good
  · intro good
    obtain ⟨score,member⟩ := discovered held good
    exact ⟨(entry,score),member,rfl⟩

theorem discovered_readable {file : ManifestFile} (accepted : validate_manifest file = .ok ()) {drawn : AgentId} {r : Registry}
    (held : r.agents.lookup drawn = some (.new (manifest_from_file drawn file))) (readable : Readable file) : Discovered file drawn r := by
  obtain ⟨single,others⟩ := registered_capabilities accepted drawn
  intro order name constraint
  refine Iff.trans (discover_single (.new (manifest_from_file drawn file)) held order name constraint) ?_
  show (∃ c ∈ (parse_capabilities (manifest_from_file drawn file)).get name, constraint.satisfies c.version = true) ↔ _
  constructor
  · rintro ⟨c,listed,good⟩
    by_cases declared : name ∈ file.capabilities.map CapabilityDecl.name
    · obtain ⟨decl,member,rfl⟩ := List.mem_map.mp declared
      obtain ⟨v,read⟩ := readable decl member
      rw [single decl member,List.mem_singleton] at listed
      rw [listed,registered_read read] at good
      exact ⟨decl,member,rfl,v,read,good⟩
    · rw [others name declared] at listed
      exact absurd listed List.not_mem_nil
  · rintro ⟨decl,member,rfl,v,read,good⟩
    refine ⟨registered decl,?_,?_⟩
    · rw [single decl member]
      exact List.mem_singleton_self (registered decl)
    · rw [registered_read read]
      exact good

/-- What a manifest file declares is what is registered, exactly when all of its declared versions can be read. -/
theorem manifest_declares (file : ManifestFile) (accepted : validate_manifest file = .ok ()) (drawn : AgentId) (r r' : Registry)
    (done : r.register_agent (manifest_from_file drawn file) = .ok r') :
    ∃ entry, r'.agents.lookup drawn = some entry ∧ (Declares file entry ∧ Discovered file drawn r' ↔ Readable file) := by
  have held : r'.agents.lookup drawn = some (.new (manifest_from_file drawn file)) := by
    unfold Registry.register_agent at done
    cases before : r.agents.lookup (manifest_from_file drawn file).id with
    | some entry =>
      rw [before] at done
      exact absurd done (by simp)
    | none =>
      rw [before] at done
      rw [← Except.ok.inj done]
      exact AList.lookup_insert r.agents
  refine ⟨_,held,⟨fun both => (declares_iff accepted drawn).mp both.1,fun readable => ?_⟩⟩
  exact ⟨(declares_iff accepted drawn).mpr readable,discovered_readable accepted held readable⟩

/-! ### A version that is none -/

def reviewer (version : String) : ManifestFile := ⟨"reviewer",.Worker,"1.0.0",[⟨"lint",version,"Lint code"⟩],∅,none⟩

def emptyRegistry : Registry := ⟨∅,fun id entry found => absurd found.symm (by rw [AList.lookup_empty]; exact Option.some_ne_none entry)⟩

theorem reviewer_declares : ∃ r' entry, emptyRegistry.register_agent (manifest_from_file ⟨1⟩ (reviewer "1.2.0")) = .ok r' ∧
    r'.agents.lookup ⟨1⟩ = some entry ∧ (Declares (reviewer "1.2.0") entry ∧ Discovered (reviewer "1.2.0") ⟨1⟩ r' ↔ Readable (reviewer "1.2.0")) := by
  have accepted : validate_manifest (reviewer "1.2.0") = .ok () := by decide
  obtain ⟨entry,held,exactly⟩ := manifest_declares (reviewer "1.2.0") accepted ⟨1⟩ emptyRegistry
    ⟨emptyRegistry.agents.insert ⟨1⟩ (.new (manifest_from_file ⟨1⟩ (reviewer "1.2.0"))),keyed_insert emptyRegistry.keyed
      (.new (manifest_from_file ⟨1⟩ (reviewer "1.2.0")))⟩ rfl
  exact ⟨_,entry,rfl,held,exactly⟩

/-- A manifest with a version that is none is accepted, and its agent is found where a version below 1.0.0 is required. -/
theorem version_lost : validate_manifest (reviewer "2") = .ok () ∧ (∃ e, SemVer.from_str "2".toList = .error e) ∧
    ∃ r' entry, emptyRegistry.register_agent (manifest_from_file ⟨1⟩ (reviewer "2")) = .ok r' ∧ r'.agents.lookup ⟨1⟩ = some entry ∧
      entry.capabilities.get "lint" = [.new "lint" (.new 0 0 0) "Lint code"] ∧ ¬ Declares (reviewer "2") entry ∧
      ∃ found ∈ r'.discover (fun _ => 0) [⟨"lint",.Lt (.new 1 0 0),true⟩], found.1.manifest.id = ⟨1⟩ := by
  have held : ((⟨emptyRegistry.agents.insert ⟨1⟩ (.new (manifest_from_file ⟨1⟩ (reviewer "2"))),
      keyed_insert emptyRegistry.keyed (.new (manifest_from_file ⟨1⟩ (reviewer "2")))⟩ : Registry).agents).lookup ⟨1⟩ =
        some (.new (manifest_from_file ⟨1⟩ (reviewer "2"))) := AList.lookup_insert _
  have capability : (RegistryEntry.new (manifest_from_file ⟨1⟩ (reviewer "2"))).capabilities.get "lint" = [.new "lint" (.new 0 0 0) "Lint code"] := rfl
  have unread : ∃ e, SemVer.from_str "2".toList = .error e := ⟨_,rfl⟩
  refine ⟨by decide,unread,_,_,rfl,held,capability,fun declares => ?_,?_⟩
  · obtain ⟨e,unread⟩ := unread
    obtain ⟨v,read,-⟩ := declares.declared ⟨"lint","2","Lint code"⟩ List.mem_cons_self
    exact absurd (unread.symm.trans read) (by simp)
  refine (discover_single (.new (manifest_from_file ⟨1⟩ (reviewer "2"))) held _ "lint" _).mpr ⟨.new "lint" (.new 0 0 0) "Lint code",?_,by decide⟩
  rw [capability]
  exact List.mem_singleton_self _

end Daf.ManifestCapabilities
