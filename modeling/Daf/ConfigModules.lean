import Mathlib.Algebra.Ring.Nat
import Daf.Assignments
import Daf.SimpleTemplates

/-!
The modules of a play. Each compares its arguments with the state of an agent and reports whether it has something to change; the caller then
changes the state as the arguments say, and the same arguments are to find nothing more to change.
-/
namespace Daf.ConfigModules
open Daf.Json Daf.DottedPaths Daf.Assignments Daf.SimpleTemplates

structure ModuleContext where
  vars : Vars
  current_config : String → Option Value
  current_capabilities : List String

structure ModuleResult where
  changed : Bool
  output : Value
  message : String
  warnings : List String

inductive ModuleError where
  | MissingArgument (key : String)
  | InvalidArgument (key reason : String)
deriving DecidableEq,Repr

/-- Nothing has changed. -/
def okResult (message : String) : ModuleResult := ⟨false,.object [],message,[]⟩

def changedResult (message : String) (output : Value) : ModuleResult := ⟨true,output,message,[]⟩

/-! ### Arguments -/

def as_object : Value → Option (List (String × Value))
  | .object fields => some fields
  | _ => none

/-- The items under a key, none where there is no array. -/
def items (args : Value) (key : String) : List Value := ((args.get key).bind Value.as_array).getD []

/-- The texts among the items. -/
def names (args : Value) (key : String) : List String := (items args key).filterMap Value.as_str

def texts (all : List String) : Value := .array (all.map .string)

/-! ### The modules -/

/-- What is to be set. -/
def settings (args : Value) : List (String × Value) := ((args.get "set").bind as_object).getD []

/-- The settings that are not there yet. -/
def unset (config : String → Option Value) (key : String → String) (fields : List (String × Value)) (change : String → String) : List String :=
  fields.filterMap fun e => if agrees Value.eq (config (key e.1)) (some e.2) then none else some (change e.1)

def configChanges (args : Value) (config : String → Option Value) : List String :=
  unset config id (settings args) ("set " ++ ·) ++
    (names args "remove").filterMap fun key => if (config key).isSome then some ("remove " ++ key) else none

def ConfigModule (args : Value) (context : ModuleContext) : Except ModuleError ModuleResult :=
  let changes := configChanges args context.current_config
  if changes = [] then .ok (okResult "configuration already matches desired state")
  else .ok (changedResult ("applied " ++ toString changes.length ++ " config changes") (.object [("changes",texts changes)]))

def capabilityName (cap : Value) : Except ModuleError String :=
  match (cap.get "name").bind Value.as_str with
  | some name => .ok name
  | none => .error (.InvalidArgument "add[].name" "capability must have a name")

def CapabilityModule (args : Value) (context : ModuleContext) : Except ModuleError ModuleResult := do
  let add ← (items args "add").mapM capabilityName
  let added := add.filter fun name => !context.current_capabilities.contains name
  let removed := (names args "remove").filter fun name => context.current_capabilities.contains name
  if added = [] ∧ removed = [] then .ok (okResult "capabilities already match desired state")
  else .ok (changedResult ("added " ++ toString added.length ++ ", removed " ++ toString removed.length ++ " capabilities")
    (.object [("added",texts added),("removed",texts removed)]))

def channelActions (args : Value) : List String :=
  (names args "subscribe").map ("subscribe:" ++ ·) ++ (names args "unsubscribe").map ("unsubscribe:" ++ ·) ++
    ((args.get "create").bind fun create => (create.get "name").bind Value.as_str).toList.map ("create:" ++ ·)

/-- The state of the agent is not looked at. -/
def ChannelModule (args : Value) (_context : ModuleContext) : Except ModuleError ModuleResult :=
  let actions := channelActions args
  if actions = [] then .ok (okResult "no channel changes required")
  else .ok (changedResult (toString actions.length ++ " channel operations") (.object [("actions",texts actions)]))

/-- An entry with its key, and the value if it has one. -/
def memoryEntry (entry : Value) : Except ModuleError (String × Option Value) :=
  match (entry.get "key").bind Value.as_str with
  | some key => .ok (key,entry.get "value")
  | none => .error (.InvalidArgument "entries[].key" "each memory entry must have a key")

/-- The entry is not there with its value. -/
def unmet (config : String → Option Value) (entry : String × Option Value) : Bool :=
  match config entry.1 with
  | some existing => !agrees Value.eq entry.2 (some existing)
  | none => true

def MemoryModule (args : Value) (context : ModuleContext) : Except ModuleError ModuleResult := do
  let entries ← (items args "entries").mapM memoryEntry
  let seeded : Nat := entries.foldl (fun seeded entry => if unmet context.current_config entry then (seeded + 1) % 2^32 else seeded) 0
  let cleared : Nat := (items args "clear_tags").length % 2^32
  if seeded = 0 ∧ cleared = 0 then .ok (okResult "memory already contains desired entries")
  else .ok (changedResult ("seeded " ++ toString seeded ++ " entries, cleared " ++ toString cleared ++ " tag groups")
    (.object [("seeded",.number (.int seeded)),("cleared",.number (.int cleared))]))

def HealthModule (args : Value) (context : ModuleContext) : Except ModuleError ModuleResult :=
  match as_object args with
  | none => .error (.InvalidArgument "args" "health module expects an object")
  | some desired =>
    let changes := unset context.current_config ("health." ++ ·) desired ("health." ++ ·)
    if changes = [] then .ok (okResult "health configuration already matches")
    else .ok (changedResult ("updated " ++ toString changes.length ++ " health parameters") (.object [("updated",texts changes)]))

def TemplateModule (serde : Serde) (args : Value) (context : ModuleContext) : Except ModuleError ModuleResult :=
  match (args.get "src").bind Value.as_str with
  | none => .error (.MissingArgument "src")
  | some src =>
    match (args.get "dest").bind Value.as_str with
    | none => .error (.MissingArgument "dest")
    | some dest =>
      let rendered := String.ofList (render_simple_template serde context.vars src.toList)
      if (context.current_config dest).bind Value.as_str = some rendered then .ok (okResult ("template output at '" ++ dest ++ "' already matches"))
      else .ok (changedResult ("rendered template to '" ++ dest ++ "'") (.object [("dest",.string dest),("content",.string rendered)]))

inductive Builtin where
  | config | capability | channel | memory | health | template
deriving DecidableEq,Repr

def execute (serde : Serde) : Builtin → Value → ModuleContext → Except ModuleError ModuleResult
  | .config => ConfigModule
  | .capability => CapabilityModule
  | .channel => ChannelModule
  | .memory => MemoryModule
  | .health => HealthModule
  | .template => TemplateModule serde

/-! ### What the arguments say -/

def configOps (args : Value) : List (Op String Value) :=
  (settings args).map (fun e => ⟨e.1,some e.2⟩) ++ (names args "remove").map fun key => ⟨key,none⟩

/-- The names of the capabilities to be added. -/
def additions (args : Value) : List String := (items args "add").filterMap fun cap => (cap.get "name").bind Value.as_str

/-- Capabilities are listed once when they are added, and removed wherever they are. -/
def changeCapabilities (args : Value) (capabilities : List String) : List String :=
  (names args "remove").foldl (fun capabilities name => capabilities.filter fun other => decide (other ≠ name))
    ((additions args).foldl (fun capabilities name => if name ∈ capabilities then capabilities else capabilities ++ [name]) capabilities)

/-- The entries with their keys and values; one without a key is not accepted. -/
def entries (args : Value) : List (String × Option Value) :=
  (items args "entries").filterMap fun entry => ((entry.get "key").bind Value.as_str).map fun key => (key,entry.get "value")

/-- The entries that have a value, in their order. -/
def seedOps (entries : List (String × Option Value)) : List (Op String Value) := entries.filterMap fun e => e.2.map fun value => ⟨e.1,some value⟩

def healthOps (args : Value) : List (Op String Value) := ((as_object args).getD []).map fun e => ⟨"health." ++ e.1,some e.2⟩

def templateOps (serde : Serde) (args : Value) (context : ModuleContext) : List (Op String Value) :=
  match (args.get "src").bind Value.as_str,(args.get "dest").bind Value.as_str with
  | some src,some dest => [⟨dest,some (.string (String.ofList (render_simple_template serde context.vars src.toList)))⟩]
  | _,_ => []

/-- The state when the arguments have been carried out. Subscriptions and tags are no part of it. -/
def update (serde : Serde) (m : Builtin) (args : Value) (context : ModuleContext) : ModuleContext :=
  match m with
  | .config => { context with current_config := apply (configOps args) context.current_config }
  | .capability => { context with current_capabilities := changeCapabilities args context.current_capabilities }
  | .channel => context
  | .memory => { context with current_config := apply (seedOps (entries args)) context.current_config }
  | .health => { context with current_config := apply (healthOps args) context.current_config }
  | .template => { context with current_config := apply (templateOps serde args context) context.current_config }

/-- The same state, values compared as the modules do. -/
structure Same (a b : ModuleContext) : Prop where
  vars : a.vars = b.vars
  current_config : ∀ key, agrees Value.eq (a.current_config key) (b.current_config key) = true
  current_capabilities : a.current_capabilities = b.current_capabilities

/-- A second run reports no change, and a first one does so only where nothing is to be changed. -/
structure Idempotent (run : ModuleContext → Except ModuleError ModuleResult) (before after : ModuleContext) : Prop where
  second : ∃ result, run after = .ok result ∧ result.changed = false
  first : ∀ result, run before = .ok result → result.changed = false → Same after before

/-- The entry has no value, or another one than the last entry with a value under its key. -/
def contradicted (entries : List (String × Option Value)) (entry : String × Option Value) : Bool :=
  entry.2.isNone || !agrees Value.eq entry.2 ((lastFor entry.1 (seedOps entries)).bind Op.target)

/-- The counters of the memory module stay at zero, or come back to it after 2^32 entries or tags. -/
structure Seeds (entries : List (String × Option Value)) (tags : Nat) (config : String → Option Value) : Prop where
  tags : tags % 2^32 = 0
  agree : (entries.filter (contradicted entries)).length % 2^32 = 0
  counted : (entries.filter (unmet config)).length % 2^32 = 0 → ∀ key op, lastFor key (seedOps entries) = some op → Met Value.eq config op

def Condition (args : Value) (context : ModuleContext) : Builtin → Prop
  | .config => ∀ e ∈ settings args, e.1 ∉ names args "remove"
  | .capability => ∀ name ∈ additions args, name ∉ names args "remove"
  | .channel => names args "subscribe" = [] ∧ names args "unsubscribe" = [] ∧ ((args.get "create").bind fun create => (create.get "name").bind Value.as_str) = none
  | .memory => Seeds (entries args) (items args "clear_tags").length context.current_config
  | .health | .template => True

def Distinct : Value → Prop
  | .object fields => (fields.map Prod.fst).Nodup
  | _ => True

/-- The keys of JSON objects are distinct. -/
structure Keys (args : Value) : Prop where
  top : Distinct args
  below : ∀ key value, args.get key = some value → Distinct value

theorem equal : Equal Value.eq := ⟨Value.eq_refl,Value.eq_symm,Value.eq_trans⟩

/-! ### Assignments to the configuration -/

section
variable {run : ModuleContext → Except ModuleError ModuleResult} {ops : List (Op String Value)} {before : ModuleContext} {args : Value}

/-- The module accepts its arguments, and reports no change exactly where this holds. -/
def Reports (run : ModuleContext → Except ModuleError ModuleResult) (context : ModuleContext) (nothing : Prop) : Prop :=
  ∃ result, run context = .ok result ∧ (result.changed = false ↔ nothing)

theorem reported (nothing : Prop) [Decidable nothing] (message text : String) (output : Value) :
    ∃ result, (if nothing then .ok (okResult message) else .ok (changedResult text output) : Except ModuleError ModuleResult) = .ok result ∧
      (result.changed = false ↔ nothing) := by
  split
  next none => exact ⟨_,rfl,iff_of_true rfl none⟩
  next some => exact ⟨_,rfl,iff_of_false (by simp [changedResult]) some⟩

theorem idempotent_reports {after : ModuleContext} {nothing nothing' : Prop} (first : Reports run before nothing) (second : Reports run after nothing') :
    Idempotent run before after ↔ nothing' ∧ (nothing → Same after before) := by
  obtain ⟨result,ran,unchanged⟩ := first
  obtain ⟨result',ran',unchanged'⟩ := second
  constructor
  · rintro ⟨⟨other,again,same⟩,kept⟩
    obtain rfl : result' = other := by
      rw [ran'] at again
      exact Except.ok.inj again
    exact ⟨unchanged'.mp same,fun none => kept result ran (unchanged.mpr none)⟩
  · rintro ⟨none,kept⟩
    refine ⟨⟨result',ran',unchanged'.mpr none⟩,fun other once same => kept ?_⟩
    obtain rfl : result = other := by
      rw [ran] at once
      exact Except.ok.inj once
    exact unchanged.mp same

/-- A module that looks whether all of its assignments are done is idempotent exactly where no two of them contradict each other. -/
theorem idempotent_ops (looks : ∀ config, Reports run { before with current_config := config } (∀ op ∈ ops, Met Value.eq config op)) :
    Idempotent run before { before with current_config := apply ops before.current_config } ↔ Consistent Value.eq ops := by
  rw [idempotent_reports (looks before.current_config) (looks _),met_apply_iff equal]
  exact and_iff_left fun met => ⟨rfl,fun key => apply_of_met equal met key,rfl⟩

theorem unset_iff {config : String → Option Value} (key change : String → String) (fields : List (String × Value)) :
    unset config key fields change = [] ↔ ∀ op ∈ fields.map (fun e => (⟨key e.1,some e.2⟩ : Op String Value)), Met Value.eq config op := by
  rw [unset,List.filterMap_eq_nil_iff,List.forall_mem_map]
  refine forall₂_congr fun e _ => ?_
  simp [Met]

theorem configChanges_iff (args : Value) (config : String → Option Value) :
    configChanges args config = [] ↔ ∀ op ∈ configOps args, Met Value.eq config op := by
  rw [configChanges,configOps,List.append_eq_nil_iff,List.forall_mem_append]
  refine and_congr (unset_iff id _ _) ?_
  rw [List.filterMap_eq_nil_iff,List.forall_mem_map]
  refine forall₂_congr fun key _ => ?_
  cases there : config key <;> simp [Met,agrees,there]

theorem config_reports (args : Value) (context : ModuleContext) :
    Reports (ConfigModule args) context (∀ op ∈ configOps args, Met Value.eq context.current_config op) := by
  obtain ⟨result,ran,unchanged⟩ := reported (configChanges args context.current_config = []) _ _ _
  exact ⟨result,ran,unchanged.trans (configChanges_iff args _)⟩

theorem health_reports (context : ModuleContext) {fields : List (String × Value)} (desired : as_object args = some fields) :
    Reports (HealthModule args) context (∀ op ∈ healthOps args, Met Value.eq context.current_config op) := by
  obtain ⟨result,ran,unchanged⟩ := reported (unset context.current_config ("health." ++ ·) fields ("health." ++ ·) = []) _ _ _
  refine ⟨result,?_,unchanged.trans ?_⟩
  · rw [HealthModule,desired]
    exact ran
  · rw [healthOps,desired]
    exact unset_iff _ _ fields

theorem template_reports (serde : Serde) (context : ModuleContext) {src dest : String} (source : (args.get "src").bind Value.as_str = some src)
    (destination : (args.get "dest").bind Value.as_str = some dest) :
    Reports (TemplateModule serde args) context (∀ op ∈ templateOps serde args context, Met Value.eq context.current_config op) := by
  obtain ⟨result,ran,unchanged⟩ := reported
    ((context.current_config dest).bind Value.as_str = some (String.ofList (render_simple_template serde context.vars src.toList))) _ _ _
  refine ⟨result,?_,unchanged.trans ?_⟩
  · rw [TemplateModule,source,destination]
    exact ran
  · rw [templateOps,source,destination]
    simp only [List.mem_singleton,forall_eq,Met]
    cases context.current_config dest with
    | none => simp [agrees]
    | some current => cases current <;> simp [agrees,Value.as_str,Value.eq]

/-! ### Assignments that do not contradict each other -/

theorem settings_apart {key : String → String} (injective : Function.Injective key) {fields : List (String × Value)} (distinct : (fields.map Prod.fst).Nodup) :
    Consistent Value.eq (fields.map fun e => (⟨key e.1,some e.2⟩ : Op String Value)) := by
  intro a here b there together
  obtain ⟨e,inside,rfl⟩ := List.mem_map.mp here
  obtain ⟨f,inside',rfl⟩ := List.mem_map.mp there
  have same : e = f := List.inj_on_of_nodup_map distinct inside inside' (injective together)
  rw [same]
  exact equal.agrees_refl _

theorem Keys.settings (keys : Keys args) : ((settings args).map Prod.fst).Nodup := by
  rw [ConfigModules.settings]
  cases there : args.get "set" with
  | none => simp
  | some value =>
    have distinct := keys.below _ _ there
    cases value with
    | object fields => exact distinct
    | null | bool | number | string | array => simp [as_object]

theorem config_apart_iff (keys : Keys args) : Consistent Value.eq (configOps args) ↔ ∀ e ∈ settings args, e.1 ∉ names args "remove" := by
  constructor
  · intro consistent e set removed
    have both := consistent ⟨e.1,some e.2⟩ (List.mem_append_left _ (List.mem_map.mpr ⟨e,set,rfl⟩)) ⟨e.1,none⟩
      (List.mem_append_right _ (List.mem_map.mpr ⟨e.1,removed,rfl⟩)) rfl
    cases both
  · intro apart a here b there together
    rcases List.mem_append.mp here with set | removed <;> rcases List.mem_append.mp there with set' | removed'
    · exact settings_apart Function.injective_id keys.settings a set b set' together
    · obtain ⟨e,inside,rfl⟩ := List.mem_map.mp set
      obtain ⟨key,member,rfl⟩ := List.mem_map.mp removed'
      have same : e.1 = key := together
      exact absurd member (same ▸ apart e inside)
    · obtain ⟨e,inside,rfl⟩ := List.mem_map.mp set'
      obtain ⟨key,member,rfl⟩ := List.mem_map.mp removed
      have same : key = e.1 := together
      exact absurd member (same ▸ apart e inside)
    · obtain ⟨key,-,rfl⟩ := List.mem_map.mp removed
      obtain ⟨key',-,rfl⟩ := List.mem_map.mp removed'
      rfl

theorem health_apart (keys : Keys args) : Consistent Value.eq (healthOps args) := by
  have injective : Function.Injective ("health." ++ · : String → String) := fun a b same => (String.append_right_inj _).mp same
  refine settings_apart injective ?_
  have distinct := keys.top
  cases args with
  | object fields => exact distinct
  | null | bool | number | string | array => exact List.nodup_nil

theorem template_apart (serde : Serde) (args : Value) (context : ModuleContext) : Consistent Value.eq (templateOps serde args context) := by
  rw [templateOps]
  split
  · intro a here b there _
    rw [List.mem_singleton.mp here,List.mem_singleton.mp there]
    exact equal.agrees_refl _
  · exact nofun

/-! ### Capabilities -/

/-- Where all items are accepted, the results are those of the items. -/
theorem mapM_ok {α β ε : Type} {f : α → Except ε β} {g : α → Option β} (accepts : ∀ a b, f a = .ok b → g a = some b) {l : List α} :
    ∀ {results : List β}, l.mapM f = .ok results → l.filterMap g = results := by
  induction l with
  | nil =>
    intro results accepted
    exact Except.ok.inj accepted
  | cons a l ih =>
    intro results accepted
    rw [List.mapM_cons] at accepted
    cases first : f a with
    | error e =>
      rw [first] at accepted
      cases accepted
    | ok b =>
      cases later : l.mapM f with
      | error e =>
        simp only [first,later,bind,Except.bind] at accepted
        cases accepted
      | ok bs =>
        simp only [first,later,bind,Except.bind] at accepted
        rw [List.filterMap_cons_some (accepts a b first),ih later]
        exact Except.ok.inj accepted

theorem names_added {add : List String} (accepted : (items args "add").mapM capabilityName = .ok add) : additions args = add := by
  refine mapM_ok (fun cap name named => ?_) accepted
  unfold capabilityName at named
  split at named
  next there => rw [there,Except.ok.inj named]
  next => cases named

theorem mem_added (additions capabilities : List String) (name : String) :
    name ∈ additions.foldl (fun capabilities name => if name ∈ capabilities then capabilities else capabilities ++ [name]) capabilities ↔
      name ∈ capabilities ∨ name ∈ additions := by
  induction additions generalizing capabilities with
  | nil => simp
  | cons first additions ih =>
    rw [List.foldl_cons,ih]
    split
    next there =>
      by_cases same : name = first
      · simp [same,there]
      · simp [same]
    next => simp [or_assoc]

theorem mem_removed (removed capabilities : List String) (name : String) :
    name ∈ removed.foldl (fun capabilities name => capabilities.filter fun other => decide (other ≠ name)) capabilities ↔ name ∈ capabilities ∧ name ∉ removed := by
  induction removed generalizing capabilities with
  | nil => simp
  | cons first removed ih =>
    rw [List.foldl_cons,ih]
    simp [and_assoc]

theorem changeCapabilities_same {capabilities : List String} (present : ∀ name ∈ additions args, name ∈ capabilities)
    (absent : ∀ name ∈ names args "remove", name ∉ capabilities) : changeCapabilities args capabilities = capabilities := by
  rw [changeCapabilities]
  have added : ∀ additions : List String, (∀ name ∈ additions, name ∈ capabilities) →
      additions.foldl (fun capabilities name => if name ∈ capabilities then capabilities else capabilities ++ [name]) capabilities = capabilities := by
    intro additions there
    induction additions with
    | nil => rfl
    | cons first additions ih =>
      rw [List.foldl_cons,if_pos (there first List.mem_cons_self)]
      exact ih fun name member => there name (List.mem_cons_of_mem _ member)
  have removed : ∀ removed : List String, (∀ name ∈ removed, name ∉ capabilities) →
      removed.foldl (fun capabilities name => capabilities.filter fun other => decide (other ≠ name)) capabilities = capabilities := by
    intro removed gone
    induction removed with
    | nil => rfl
    | cons first removed ih =>
      have same : (capabilities.filter fun other => decide (other ≠ first)) = capabilities :=
        List.filter_eq_self.mpr fun other member => decide_eq_true fun equal => gone first List.mem_cons_self (equal ▸ member)
      rw [List.foldl_cons,same]
      exact ih fun name member => gone name (List.mem_cons_of_mem _ member)
  rw [added _ present,removed _ absent]

/-- No change is reported exactly where what is to be added is there, and what is to be removed is not. -/
theorem capability_reports (context : ModuleContext) {add : List String} (accepted : (items args "add").mapM capabilityName = .ok add) :
    Reports (CapabilityModule args) context
      ((∀ name ∈ additions args, name ∈ context.current_capabilities) ∧ ∀ name ∈ names args "remove", name ∉ context.current_capabilities) := by
  obtain ⟨result,ran,unchanged⟩ := reported ((add.filter fun name => !context.current_capabilities.contains name) = [] ∧
    ((names args "remove").filter fun name => context.current_capabilities.contains name) = []) _ _ _
  refine ⟨result,?_,unchanged.trans ?_⟩
  · rw [CapabilityModule,accepted]
    exact ran
  · rw [names_added accepted]
    simp [List.filter_eq_nil_iff]

theorem capability_idempotent {before : ModuleContext} {add : List String} (accepted : (items args "add").mapM capabilityName = .ok add) :
    Idempotent (CapabilityModule args) before { before with current_capabilities := changeCapabilities args before.current_capabilities } ↔
      ∀ name ∈ additions args, name ∉ names args "remove" := by
  rw [idempotent_reports (capability_reports before accepted) (capability_reports _ accepted)]
  simp only [changeCapabilities,mem_removed,mem_added]
  constructor
  · rintro ⟨⟨added,-⟩,-⟩ name there
    exact (added name there).2
  · intro apart
    refine ⟨⟨fun name added => ⟨.inr added,apart name added⟩,fun name removed both => both.2 removed⟩,?_⟩
    rintro ⟨present,absent⟩
    exact ⟨rfl,fun key => equal.agrees_refl _,changeCapabilities_same present absent⟩

/-! ### Memory -/

theorem entries_accepted {accepted : List (String × Option Value)} (all : (items args "entries").mapM memoryEntry = .ok accepted) : entries args = accepted := by
  refine mapM_ok (fun entry e read => ?_) all
  unfold memoryEntry at read
  split at read
  next there => rw [there,← Except.ok.inj read]; rfl
  next => cases read

/-- Counting modulo 2^32 gives the number of entries, up to a multiple of it. -/
theorem counted (config : String → Option Value) (entries : List (String × Option Value)) (from_ : Nat) (small : from_ < 2^32) :
    entries.foldl (fun seeded entry => if unmet config entry then (seeded + 1) % 2^32 else seeded) from_ = (from_ + (entries.filter (unmet config)).length) % 2^32 := by
  induction entries generalizing from_ with
  | nil => exact (Nat.mod_eq_of_lt small).symm
  | cons entry entries ih =>
    rw [List.foldl_cons]
    cases here : unmet config entry with
    | true =>
      rw [if_pos rfl,ih _ (Nat.mod_lt _ (by omega)),List.filter_cons_of_pos here,List.length_cons]
      omega
    | false => rw [if_neg (by simp),ih _ small,List.filter_cons_of_neg (by simp [here])]

theorem memory_reports (context : ModuleContext) {accepted : List (String × Option Value)} (all : (items args "entries").mapM memoryEntry = .ok accepted) :
    Reports (MemoryModule args) context
      (((entries args).filter (unmet context.current_config)).length % 2^32 = 0 ∧ (items args "clear_tags").length % 2^32 = 0) := by
  have total := counted context.current_config accepted 0 (by omega)
  rw [Nat.zero_add] at total
  obtain ⟨result,ran,unchanged⟩ := reported (((accepted.filter (unmet context.current_config)).length % 2^32 = 0 ∧ (items args "clear_tags").length % 2^32 = 0)) _ _ _
  refine ⟨result,?_,unchanged.trans (by rw [entries_accepted all])⟩
  rw [MemoryModule,all]
  simp only [bind,Except.bind,total]
  exact ran

/-- Behind the entries just those are not there that the last entry under their key contradicts. -/
theorem unmet_behind (entries : List (String × Option Value)) (config : String → Option Value) {entry : String × Option Value} (member : entry ∈ entries) :
    unmet (apply (seedOps entries) config) entry = contradicted entries entry := by
  rw [unmet,contradicted]
  cases given : entry.2 with
  | none => cases apply (seedOps entries) config entry.1 <;> simp [agrees]
  | some value =>
    have seeded : (⟨entry.1,some value⟩ : Op String Value) ∈ seedOps entries := List.mem_filterMap.mpr ⟨entry,member,by rw [given]; rfl⟩
    obtain ⟨last,found⟩ := lastFor_exists seeded
    obtain ⟨inside,-⟩ := lastFor_mem found
    obtain ⟨e,-,op⟩ := List.mem_filterMap.mp inside
    obtain ⟨v,-,rfl⟩ := Option.map_eq_some_iff.mp op
    simp only at found
    rw [apply_last found,found]
    rfl

theorem memory_idempotent {before : ModuleContext} {accepted : List (String × Option Value)} (all : (items args "entries").mapM memoryEntry = .ok accepted) :
    Idempotent (MemoryModule args) before { before with current_config := apply (seedOps (entries args)) before.current_config } ↔
      Seeds (entries args) (items args "clear_tags").length before.current_config := by
  have behind : (entries args).filter (unmet (apply (seedOps (entries args)) before.current_config)) = (entries args).filter (contradicted (entries args)) :=
    List.filter_congr fun entry member => unmet_behind _ _ member
  rw [idempotent_reports (memory_reports before all) (memory_reports _ all)]
  simp only [behind]
  have kept : Same { before with current_config := apply (seedOps (entries args)) before.current_config } before ↔
      ∀ key op, lastFor key (seedOps (entries args)) = some op → Met Value.eq before.current_config op := by
    rw [← apply_same_iff equal]
    exact ⟨Same.current_config,fun same => ⟨rfl,same,rfl⟩⟩
  rw [kept]
  constructor
  · rintro ⟨⟨agree,tags⟩,first⟩
    exact ⟨tags,agree,fun none => first ⟨none,tags⟩⟩
  · rintro ⟨tags,agree,counted⟩
    exact ⟨⟨agree,tags⟩,fun none => counted none.1⟩

/-- With fewer than 2^32 entries and tags the counters do not come back to zero. -/
theorem seeds_iff {entries : List (String × Option Value)} {tags : Nat} (few : entries.length < 2^32) (few_tags : tags < 2^32) (config : String → Option Value) :
    Seeds entries tags config ↔ tags = 0 ∧ ∀ entry ∈ entries, contradicted entries entry = false := by
  have none_of : ∀ p : String × Option Value → Bool, (entries.filter p).length % 2^32 = 0 → ∀ entry ∈ entries, p entry = false := by
    intro p multiple entry member
    have short : (entries.filter p).length < 2^32 := Nat.lt_of_le_of_lt (List.length_filter_le p entries) few
    rw [Nat.mod_eq_of_lt short,List.length_eq_zero_iff,List.filter_eq_nil_iff] at multiple
    simpa using multiple entry member
  constructor
  · rintro ⟨none_left,agree,-⟩
    rw [Nat.mod_eq_of_lt few_tags] at none_left
    exact ⟨none_left,none_of _ agree⟩
  · rintro ⟨rfl,agree⟩
    have empty : entries.filter (contradicted entries) = [] := List.filter_eq_nil_iff.mpr fun entry member => by simp [agree entry member]
    refine ⟨rfl,by rw [empty]; rfl,fun multiple key op last => ?_⟩
    obtain ⟨inside,-⟩ := lastFor_mem last
    obtain ⟨e,member,op⟩ := List.mem_filterMap.mp inside
    obtain ⟨v,value,rfl⟩ := Option.map_eq_some_iff.mp op
    have there := none_of _ multiple e member
    rw [unmet,value] at there
    cases held : config e.1 with
    | none => simp [held] at there
    | some existing =>
      rw [held] at there
      rw [Met,held]
      exact equal.agrees_symm (by simpa using there)

/-! ### Channels -/

theorem channel_reports (args : Value) (context : ModuleContext) : Reports (ChannelModule args) context (channelActions args = []) := reported _ _ _ _

theorem channelActions_iff (args : Value) : channelActions args = [] ↔ Condition args before .channel := by
  simp [channelActions,Condition]

theorem Same.refl (context : ModuleContext) : Same context context := ⟨rfl,fun _ => equal.agrees_refl _,rfl⟩

end

/-- For all arguments that a module accepts and every state it is idempotent exactly under its condition. -/
theorem idempotent_iff (serde : Serde) (m : Builtin) (args : Value) (context : ModuleContext) (result : ModuleResult) (keys : Keys args)
    (accepted : execute serde m args context = .ok result) :
    Idempotent (execute serde m args) context (update serde m args context) ↔ Condition args context m := by
  cases m with
  | config => exact (idempotent_ops fun config => config_reports args _).trans (config_apart_iff keys)
  | capability =>
    cases all : (items args "add").mapM capabilityName with
    | ok add => exact capability_idempotent all
    | error e =>
      rw [execute,CapabilityModule,all] at accepted
      cases accepted
  | channel =>
    rw [← channelActions_iff]
    exact (idempotent_reports (channel_reports args context) (channel_reports args context)).trans (and_iff_left fun _ => Same.refl context)
  | memory =>
    cases all : (items args "entries").mapM memoryEntry with
    | ok add => exact memory_idempotent all
    | error e =>
      rw [execute,MemoryModule,all] at accepted
      cases accepted
  | health =>
    cases desired : as_object args with
    | some fields => exact (idempotent_ops fun config => health_reports _ desired).trans (iff_of_true (health_apart keys) trivial)
    | none =>
      rw [execute,HealthModule,desired] at accepted
      cases accepted
  | template =>
    rw [execute,TemplateModule] at accepted
    split at accepted
    · cases accepted
    next source =>
      split at accepted
      · cases accepted
      next destination =>
        exact (idempotent_ops fun config => template_reports serde { context with current_config := config } source destination).trans
          (iff_of_true (template_apart serde args context) trivial)

/-! ### Runs on a new agent -/

def newAgent : ModuleContext := ⟨∅,fun _ => none,[]⟩

/-- One setting. -/
theorem setting_idempotent :
    let args : Value := .object [("set",.object [("k",.number (.int 1))])]
    Idempotent (ConfigModule args) newAgent (update strings .config args newAgent) := by
  intro args
  have keys : Keys args := by
    refine ⟨List.nodup_singleton _,fun key value there => ?_⟩
    by_cases set : "set" = key
    · have same : some (.object [("k",.number (.int 1))]) = some value := by simpa [args,Value.get,set] using there
      rw [← Option.some.inj same]
      exact List.nodup_singleton _
    · simp [args,Value.get,set] at there
  refine (idempotent_iff strings .config args newAgent _ keys rfl).mpr fun e member removed => ?_
  cases removed

/-- A key that is set and removed, a capability that is added and removed, a subscription, and tags to be cleared are changes at every run. -/
theorem changed_again :
    let changed (m : Builtin) (args : Value) : Prop := (execute strings m args (update strings m args newAgent)).map ModuleResult.changed = .ok true
    changed .config (.object [("set",.object [("k",.number (.int 1))]),("remove",.array [.string "k"])]) ∧
      changed .capability (.object [("add",.array [.object [("name",.string "c")]]),("remove",.array [.string "c"])]) ∧
        changed .channel (.object [("subscribe",.array [.string "alerts"])]) ∧ changed .memory (.object [("clear_tags",.array [.string "stale"])]) :=
  ⟨rfl,rfl,rfl,rfl⟩

end Daf.ConfigModules
