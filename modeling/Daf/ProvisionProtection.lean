import Daf.PlanShape
import Daf.ProvisionSteps

/-!
Protected resources over rounds of plan and apply. The recorded lifecycle is always the
default one, so `prevent_destroy` protects a resource only as long as it stays desired with
the type and the provider that are recorded.
-/
namespace Daf.ProvisionProtection
open Daf.Json Daf.MissionPlan Daf.ProvisionPlan Daf.ProvisionApply Daf.ProvisionSteps Daf.PlanShape

/-- The spec under which each resource was last created or updated. -/
abbrev Ledger := String → Option ResourceSpec

def Protected (ledger : Ledger) (name : String) : Prop := ∃ spec, ledger name = some spec ∧ spec.lifecycle.prevent_destroy = true

/-- The desired spec of a name. -/
def specOf (desired : List ResourceSpec) (name : String) : Option ResourceSpec := desired.find? (·.name = name)

/-- What a call does to the ledger. -/
def note (desired : List ResourceSpec) (ledger : Ledger) : Event → Ledger
  | .create _ name _ (.ok _) => fun other => if other = name then specOf desired name else ledger other
  | .update name _ _ (.ok _) => fun other => if other = name then specOf desired name else ledger other
  | _ => ledger

def notes (desired : List ResourceSpec) (ledger : Ledger) (es : List Event) : Ledger := es.foldl (note desired) ledger

/-- A delete that is not part of a rollback is not called for a protected resource. -/
def Spares (ledger : Ledger) : Event → Prop
  | .delete name _ _ false _ => ¬ Protected ledger name
  | _ => True

/-- All calls of a round spare what is protected when they are made. -/
def Honoured (desired : List ResourceSpec) (ledger : Ledger) : List Event → Prop
  | [] => True
  | e :: later => Spares ledger e ∧ Honoured desired (note desired ledger e) later

/-- One round of plan and apply. -/
structure Round where
  env : Env
  options : ApplyOptions
  it : Iteration
  desired : List ResourceSpec

/-- The recorded state between the rounds, with the ledger. -/
structure History where
  state : ProvisionState
  ledger : Ledger

def History.empty : History := ⟨.new,fun _ => none⟩

/-- The end of a round; without a plan nothing happens. -/
def Round.exec (round : Round) (h : History) : Exec :=
  match plan round.it h.state round.desired with
  | .error _ => ⟨h.state,0,[]⟩
  | .ok p => (apply round.env round.options p ⟨h.state,0,[]⟩).2

def Round.next (round : Round) (h : History) : History :=
  ⟨(round.exec h).state,notes round.desired h.ledger (round.exec h).trace⟩

/-- In every round, the deletes spare what is protected. -/
def HonouredRun (h : History) : List Round → Prop
  | [] => True
  | round :: later => Honoured round.desired h.ledger (round.exec h).trace ∧ HonouredRun (round.next h) later

/-- A protected resource stays desired, with the type and the provider that are recorded. -/
def Keeps (h : History) (round : Round) : Prop :=
  round.options.dry_run = true ∨ ∀ name r, h.state.resources.lookup name = some r → Protected h.ledger name →
    ∃ spec ∈ round.desired, spec.name = name ∧ spec.type_ = r.spec.type_ ∧ spec.provider = r.spec.provider

def KeepsRun (h : History) : List Round → Prop
  | [] => True
  | round :: later => Keeps h round ∧ KeepsRun (round.next h) later

/-! ### One round -/

section
variable {desired : List ResourceSpec} {ledger : Ledger}

theorem honoured_append {es fs : List Event} (first : Honoured desired ledger es) (second : Honoured desired (notes desired ledger es) fs) :
    Honoured desired ledger (es ++ fs) := by
  induction es generalizing ledger with
  | nil => exact second
  | cons e later ih => exact ⟨first.1,ih first.2 second⟩

theorem notes_append (es fs : List Event) : notes desired ledger (es ++ fs) = notes desired (notes desired ledger es) fs := by
  simp [notes]

variable {env : Env} {tick : Nat} {name provider : String} {config : Value} {before after : Option Resource} {action : Action} {ok : Bool}
  {es : List Event}

/-- The calls of one change only note its own resource. -/
theorem did_notes (did : Did env tick name provider config before action ok es after) {other : String} (apart : other ≠ name) :
    notes desired ledger es other = ledger other := by
  have early : ∀ es, Gone env tick name provider before es → notes desired ledger es = ledger := by
    intro es gone
    cases gone <;> rfl
  cases did with
  | refused => rfl
  | noop => rfl
  | create_failed => rfl
  | created => simp [notes,note,apart]
  | update_failed => rfl
  | updated => simp [notes,note,apart]
  | delete_failed => rfl
  | destroyed _ _ gone => rw [early _ gone]
  | replaced _ _ _ _ gone =>
    rw [notes_append,early _ gone]
    simp [notes,note,apart]
  | cut _ _ gone =>
    rw [notes_append,early _ gone]
    rfl

/-- Only a destroy or a replacement deletes, and it deletes its own resource. -/
theorem did_honoured (did : Did env tick name provider config before action ok es after)
    (free : action = .Destroy ∨ action = .Replace → ¬ Protected ledger name) : Honoured desired ledger es := by
  have early : ∀ es, Gone env tick name provider before es → ¬ Protected ledger name → Honoured desired ledger es := by
    intro es gone spared
    cases gone with
    | unrecorded => trivial
    | idless => trivial
    | deleted => exact ⟨spared,trivial⟩
  cases did with
  | refused => trivial
  | noop => trivial
  | create_failed => exact ⟨trivial,trivial⟩
  | created => exact ⟨trivial,trivial⟩
  | update_failed => exact ⟨trivial,trivial⟩
  | updated => exact ⟨trivial,trivial⟩
  | delete_failed _ _ _ _ kind => exact ⟨free kind,trivial⟩
  | destroyed _ _ gone => exact early _ gone (free (.inl rfl))
  | replaced _ _ _ _ gone => exact honoured_append (early _ gone (free (.inr rfl))) ⟨trivial,trivial⟩
  | cut _ _ gone => exact honoured_append (early _ gone (free (.inr rfl))) ⟨trivial,trivial⟩

theorem undid_honoured (undid : Undid env name before es after) : Honoured desired ledger es := by
  cases undid with
  | untouched => trivial
  | delete_failed => exact ⟨trivial,trivial⟩
  | deleted => exact ⟨trivial,trivial⟩
  | forgotten => trivial

variable {options : ApplyOptions} {dep_map : AList (fun _ : String => List String)}

theorem walk_honoured (wet : options.dry_run = false) (empty : ∀ name, (dep_map.lookup name).getD [] = []) (changes : List ResourceChange) :
    ∀ w : Walk, (changes.map (·.resource_name)).Nodup → Honoured desired ledger w.exec.trace →
      (∀ change ∈ changes, change.action = .Destroy ∨ change.action = .Replace →
        ¬ Protected (notes desired ledger w.exec.trace) change.resource_name) →
      Honoured desired ledger (changes.foldl (applyNext env options dep_map) w).exec.trace := by
  induction changes with
  | nil => exact fun w _ honoured _ => honoured
  | cons change later ih =>
    intro w nodup honoured free
    rw [List.map_cons,List.nodup_cons] at nodup
    obtain ⟨ok,es,next⟩ := applyNext_next env wet empty w change
    refine ih _ nodup.2 ?_ ?_
    · rw [next.step.trace]
      exact honoured_append honoured (did_honoured next.did (free change List.mem_cons_self))
    · intro c there kind
      have apart : c.resource_name ≠ change.resource_name := fun same => nodup.1 (same ▸ List.mem_map_of_mem there)
      have before := free c (List.mem_cons_of_mem _ there) kind
      rw [next.step.trace,notes_append]
      rintro ⟨spec,noted,prevent⟩
      rw [did_notes next.did apart] at noted
      exact before ⟨spec,noted,prevent⟩

theorem rollback_honoured (entries : List ApplyProgress) : ∀ x : Exec, Honoured desired ledger x.trace →
    Honoured desired ledger (entries.foldl (rollbackEntry env) x).trace := by
  induction entries with
  | nil => exact fun x honoured => honoured
  | cons entry later ih =>
    intro x honoured
    obtain ⟨es,step,undid⟩ := rollbackEntry_undid env x entry
    refine ih _ ?_
    rw [step.trace]
    exact honoured_append honoured (undid_honoured undid)

end

/-- The plan of a round neither destroys nor replaces what is protected. -/
theorem planned_free {h : History} {round : Round} {p : Plan} (planned : plan round.it h.state round.desired = .ok p)
    (keeps : ∀ name r, h.state.resources.lookup name = some r → Protected h.ledger name →
      ∃ spec ∈ round.desired, spec.name = name ∧ spec.type_ = r.spec.type_ ∧ spec.provider = r.spec.provider)
    {change : ResourceChange} (there : change ∈ p.changes) (kind : change.action = .Destroy ∨ change.action = .Replace) :
    ¬ Protected h.ledger change.resource_name := by
  intro guarded
  have shape := plan_shape planned
  rcases (shape.mem change).1 there with ⟨spec,inside,rfl⟩ | ⟨name,r,stored,absent,-,rfl⟩
  · rw [changeFor_action] at kind
    rw [changeFor_name] at guarded
    cases stored : h.state.resources.lookup spec.name with
    | none =>
      rw [stored] at kind
      simp [actionFor] at kind
    | some r =>
      obtain ⟨spec',inside',named,type_,provider⟩ := keeps spec.name r stored guarded
      have same := List.inj_on_of_nodup_map shape.distinct inside' inside named
      subst same
      rw [stored] at kind
      have unchanged : ¬ (r.spec.type_ ≠ spec'.type_ ∨ r.spec.provider ≠ spec'.provider) := by simp [type_,provider]
      simp only [actionFor,unchanged,if_false] at kind
      split at kind <;> simp at kind
  · obtain ⟨spec,inside,named,-⟩ := keeps name r stored guarded
    exact absent (named ▸ List.mem_map_of_mem inside)

theorem round_honoured (h : History) (round : Round) (keeps : Keeps h round) : Honoured round.desired h.ledger (round.exec h).trace := by
  unfold Round.exec
  cases planned : plan round.it h.state round.desired with
  | error e => trivial
  | ok p =>
    rcases keeps with dry | keeps
    · simp only [apply_dry dry]
      trivial
    cases wet : round.options.dry_run with
    | true =>
      simp only [apply_dry wet]
      trivial
    | false =>
      have shape := plan_shape planned
      have part : (p.mutating_changes.map (·.resource_name)).Nodup := shape.nodup.sublist (List.filter_sublist.map _)
      have walked : Honoured round.desired h.ledger (walk round.env round.options p ⟨h.state,0,[]⟩).exec.trace := by
        refine walk_honoured wet (dependency_map_empty p) p.mutating_changes ⟨[],[],⟨h.state,0,[]⟩⟩ part trivial ?_
        intro change there kind
        exact planned_free planned keeps (List.mem_of_mem_filter there) kind
      rcases apply_exec round.env round.options p ⟨h.state,0,[]⟩ with ended | ended
      · simp only [ended]
        exact walked
      · simp only [ended]
        exact rollback_honoured _ _ walked

-- Kept closed, or the elaborator evaluates the round where it only has to name its trace.
attribute [local irreducible] Round.exec in
theorem run_honoured (rounds : List Round) : ∀ h : History, KeepsRun h rounds → HonouredRun h rounds := by
  induction rounds with
  | nil => exact fun _ _ => trivial
  | cons round later ih =>
    intro h keeps
    exact ⟨round_honoured h round keeps.1,ih (round.next h) keeps.2⟩

/-- From an empty state, when every protected resource stays desired with the recorded type and provider in every round
    that is not a dry run, no round deletes a protected resource but to roll back. -/
theorem protected_spared (rounds : List Round) (keeps : KeepsRun .empty rounds) : HonouredRun .empty rounds :=
  run_honoured rounds .empty keeps

/-! ### Fixed rounds -/

/-- Every provider is registered and every call succeeds. -/
def willing : Env where
  registered _ := true
  validate _ := []
  create _ _ := .ok ⟨"pool",[]⟩
  update _ := .ok ⟨"pool",[]⟩
  delete _ := .ok ()
  save _ := .ok ()

def roundOf (desired : List ResourceSpec) : Round := ⟨willing,⟨false,true⟩,⟨fun keys => keys,fun _ => .refl _⟩,desired⟩

/-- A pool that must not be destroyed. -/
def guardedPool (size : Int) : ResourceSpec := ⟨.AgentPool,"db","agent_pool",.object [("count",.number (.int size))],[],⟨false,true,[]⟩⟩

theorem resized_keeps : KeepsRun .empty [roundOf [guardedPool 1],roundOf [guardedPool 2]] := by
  refine ⟨.inr (fun name r stored => by cases stored),.inr (fun name r stored _ => ?_),trivial⟩
  have keys : ((roundOf [guardedPool 1]).next .empty).state.resources.keys = ["db"] := by decide
  have kind : (((roundOf [guardedPool 1]).next .empty).state.resources.lookup "db").map (fun r => (r.spec.type_,r.spec.provider)) =
      some (.AgentPool,"agent_pool") := by decide
  have named : name = "db" := by
    have there : name ∈ ((roundOf [guardedPool 1]).next .empty).state.resources := AList.lookup_isSome.1 (by rw [stored]; rfl)
    rw [AList.mem_keys,keys] at there
    exact List.mem_singleton.1 there
  subst named
  rw [stored] at kind
  have same : r.spec.type_ = .AgentPool ∧ r.spec.provider = "agent_pool" := by simpa using kind
  exact ⟨guardedPool 2,List.mem_cons_self,rfl,same.1.symm,same.2.symm⟩

theorem resized_spared :
    ((roundOf [guardedPool 2]).next ((roundOf [guardedPool 1]).next .empty)).state.resources.keys = ["db"] ∧
      HonouredRun .empty [roundOf [guardedPool 1],roundOf [guardedPool 2]] :=
  ⟨by decide,protected_spared _ resized_keeps⟩

/-- A protected pool that is left out of the next desired list is deleted. -/
theorem dropped_deleted : ¬ HonouredRun .empty [roundOf [guardedPool 1],roundOf []] := by
  rintro ⟨-,honoured,-⟩
  have calls : ((roundOf []).exec ((roundOf [guardedPool 1]).next .empty)).trace = [.delete "db" "agent_pool" "pool" false (.ok ())] := rfl
  rw [calls] at honoured
  exact honoured.1 ⟨guardedPool 1,rfl,rfl⟩

end Daf.ProvisionProtection
