import Daf.ProvisionSteps
import Mathlib.Data.Set.Insert

/-!
Agreement of the recorded state with the providers. Every recorded id stands for a resource
that exists, and what an apply creates and does not delete is recorded, unless a replacement
stops between its delete and its create, or a resource is created over one of the same apply.
-/
namespace Daf.ProvisionAgreement
open Daf.Json Daf.MissionPlan Daf.ProvisionPlan Daf.ProvisionApply Daf.ProvisionSteps

/-- A resource at its provider: the provider and the id there. -/
abbrev Place := String × String

/-- The resource that a record stands for. -/
def place (r : Resource) : Option Place := r.physical_id.map (fun pid => (r.spec.provider,pid))

/-- The resources that exist after a call. -/
def liveStep (live : Set Place) : Event → Set Place
  | .create _ _ provider (.ok result) => insert (provider,result.physical_id) live
  | .delete _ provider pid _ (.ok ()) => live \ {(provider,pid)}
  | _ => live

/-- The resources that exist after the calls, when `start` existed before. -/
def liveAfter (start : Set Place) (trace : List Event) : Set Place := trace.foldl liveStep start

/-- The calls created this resource. -/
def Made (trace : List Event) (pl : Place) : Prop :=
  ∃ call name result, Event.create call name pl.1 (.ok result) ∈ trace ∧ result.physical_id = pl.2

/-- The state agrees with the providers. -/
structure Agrees (start : Set Place) (x : Exec) : Prop where
  recorded : ∀ name r pl, record x name = some r → place r = some pl → pl ∈ liveAfter start x.trace
  tracked : ∀ pl, Made x.trace pl → pl ∈ liveAfter start x.trace → ∃ name r, record x name = some r ∧ place r = some pl

/-- No two records stand for one resource. -/
def Distinct (x : Exec) : Prop :=
  ∀ n m r q pl, record x n = some r → record x m = some q → place r = some pl → place q = some pl → n = m

/-- Providers give every resource an id of its own. -/
structure Unique (env : Env) (start : Set Place) : Prop where
  once : ∀ i j provider a b, env.create i provider = .ok a → env.create j provider = .ok b → a.physical_id = b.physical_id → i = j
  new : ∀ i provider a, env.create i provider = .ok a → (provider,a.physical_id) ∉ start

theorem liveAfter_append (start : Set Place) (trace es : List Event) : liveAfter start (trace ++ es) = liveAfter (liveAfter start trace) es := by
  simp [liveAfter]

theorem made_append {trace es : List Event} {pl : Place} : Made (trace ++ es) pl ↔ Made trace pl ∨ Made es pl := by
  constructor
  · rintro ⟨call,name,result,there,id⟩
    rcases List.mem_append.1 there with there | there
    · exact .inl ⟨call,name,result,there,id⟩
    · exact .inr ⟨call,name,result,there,id⟩
  · rintro (⟨call,name,result,there,id⟩ | ⟨call,name,result,there,id⟩)
    · exact ⟨call,name,result,List.mem_append_left _ there,id⟩
    · exact ⟨call,name,result,List.mem_append_right _ there,id⟩

theorem made_one {call : Nat} {name provider : String} {result : ProviderResult} {pl : Place}
    (made : Made [.create call name provider (.ok result)] pl) : pl = (provider,result.physical_id) := by
  obtain ⟨_,_,_,there,id⟩ := made
  cases List.mem_singleton.1 there
  exact Prod.ext rfl id.symm

/-- What exists was there before or was created. -/
theorem live_or_made (start : Set Place) (trace : List Event) : ∀ pl ∈ liveAfter start trace, pl ∈ start ∨ Made trace pl := by
  induction trace using List.reverseRecOn with
  | nil => exact fun pl live => .inl live
  | append_singleton trace e ih =>
    intro pl live
    rw [liveAfter_append] at live
    have step : pl ∈ liveAfter start trace ∨ Made [e] pl := by
      cases e with
      | create call name provider result =>
        cases result with
        | error e => exact .inl live
        | ok result =>
          rcases live with same | live
          · exact .inr ⟨call,name,result,by simp [same],by rw [same]⟩
          · exact .inl live
      | update name provider pid result => exact .inl live
      | delete name provider pid rollback result =>
        cases result with
        | error e => exact .inl live
        | ok u => exact .inl live.1
    rcases step with old | made
    · rcases ih pl old with before | made
      · exact .inl before
      · exact .inr (made_append.2 (.inl made))
    · exact .inr (made_append.2 (.inr made))

/-! ### What the changes keep -/

section
variable (env : Env) (start : Set Place)

/-- Agreement, with what it takes to keep it. -/
structure Sound (x : Exec) : Prop where
  agrees : Agrees start x
  distinct : Distinct x
  calls : ∀ call n p result, Event.create call n p result ∈ x.trace → call < x.tick ∧ env.create call p = result ∧ env.registered p = true

end

section
variable {env : Env} {start : Set Place} {name : String} {x y : Exec} {es : List Event}

/-- The resource that the record of a name stands for. -/
def placeOf (x : Exec) (name : String) : Option Place := (record x name).bind place

theorem placeOf_eq {pl : Place} : placeOf x name = some pl ↔ ∃ r, record x name = some r ∧ place r = some pl := by
  simp [placeOf,Option.bind_eq_some_iff]

theorem Sound.live (sound : Sound env start x) {n : String} {pl : Place} (here : placeOf x n = some pl) : pl ∈ liveAfter start x.trace := by
  obtain ⟨r,found,at_pl⟩ := placeOf_eq.1 here
  exact sound.agrees.recorded n r pl found at_pl

theorem Sound.same (sound : Sound env start x) {n m : String} {pl : Place} (first : placeOf x n = some pl) (second : placeOf x m = some pl) : n = m := by
  obtain ⟨r,found,at_pl⟩ := placeOf_eq.1 first
  obtain ⟨q,found',at_pl'⟩ := placeOf_eq.1 second
  exact sound.distinct n m r q pl found found' at_pl at_pl'

/-- What a change may do to the resources and to the record of its name. -/
structure Moves (start : Set Place) (name : String) (x y : Exec) (es : List Event) : Prop where
  /-- Only the resource of this record may go. -/
  goes : ∀ pl ∈ liveAfter start x.trace, pl ∈ liveAfter start y.trace ∨ placeOf x name = some pl
  /-- The record keeps its resource or gets a new one. -/
  comes : ∀ pl, placeOf y name = some pl → pl ∈ liveAfter start y.trace ∧ (placeOf x name = some pl ∨ pl ∉ liveAfter start x.trace)
  only : ∀ pl ∈ liveAfter start y.trace, pl ∈ liveAfter start x.trace ∨ placeOf y name = some pl
  /-- What the change creates and leaves is recorded. -/
  makes : ∀ pl, Made es pl → pl ∈ liveAfter start y.trace → placeOf y name = some pl
  /-- What was created before and is left stays recorded. -/
  stays : ∀ pl, placeOf x name = some pl → Made x.trace pl → pl ∈ liveAfter start y.trace → placeOf y name = some pl

theorem Sound.moved (sound : Sound env start x) (step : Step env name x y es) (moves : Moves start name x y es)
    (known : ∀ call n p result, Event.create call n p result ∈ es → env.registered p = true) : Sound env start y := by
  have others : ∀ n, n ≠ name → placeOf y n = placeOf x n := fun n other => by rw [placeOf,placeOf,step.frame n other]
  refine ⟨⟨?_,?_⟩,?_,?_⟩
  · intro n r pl found at_pl
    have here : placeOf y n = some pl := placeOf_eq.2 ⟨r,found,at_pl⟩
    by_cases own : n = name
    · subst own
      exact (moves.comes pl here).1
    · rw [others n own] at here
      rcases moves.goes pl (sound.live here) with live | gone
      · exact live
      · exact absurd (sound.same here gone) own
  · intro pl made live
    rw [step.trace] at made
    have recorded : ∃ n, placeOf y n = some pl := by
      rcases made_append.1 made with before | now
      · rcases moves.only pl live with old | own
        · obtain ⟨n,r,found,at_pl⟩ := sound.agrees.tracked pl before old
          have here : placeOf x n = some pl := placeOf_eq.2 ⟨r,found,at_pl⟩
          by_cases own : n = name
          · subst own
            exact ⟨n,moves.stays pl here before live⟩
          · exact ⟨n,(others n own).trans here⟩
        · exact ⟨name,own⟩
      · exact ⟨name,moves.makes pl now live⟩
    obtain ⟨n,here⟩ := recorded
    obtain ⟨r,found,at_pl⟩ := placeOf_eq.1 here
    exact ⟨n,r,found,at_pl⟩
  · intro n m r q pl found found' at_pl at_pl'
    have first : placeOf y n = some pl := placeOf_eq.2 ⟨r,found,at_pl⟩
    have second : placeOf y m = some pl := placeOf_eq.2 ⟨q,found',at_pl'⟩
    -- a new resource is not recorded under another name
    have clash : ∀ k, k ≠ name → placeOf y k = some pl → placeOf y name = some pl → False := by
      intro k other there own
      rw [others k other] at there
      rcases (moves.comes pl own).2 with old | new
      · exact other (sound.same there old)
      · exact new (sound.live there)
    by_cases left : n = name
    · by_cases right : m = name
      · rw [left,right]
      · exact absurd (left ▸ first) (fun own => clash m right second own)
    · by_cases right : m = name
      · exact absurd (right ▸ second) (fun own => clash n left first own)
      · rw [others n left] at first
        rw [others m right] at second
        exact sound.same first second
  · intro call n p result there
    rw [step.trace] at there
    have later := step.ticks
    rcases List.mem_append.1 there with there | there
    · obtain ⟨early,answer,registered⟩ := sound.calls call n p result there
      exact ⟨by omega,answer,registered⟩
    · obtain ⟨⟨_,early⟩,answer⟩ := step.calls call n p result there
      exact ⟨early,answer,known call n p result there⟩

/-- A change that leaves the resources and the place of its record as they are. -/
theorem moves_idle (step : Step env name x y es) (quiet : ∀ live : Set Place, liveAfter live es = live) (silent : ∀ pl, ¬ Made es pl)
    (kept : placeOf y name = placeOf x name) (live : ∀ pl, placeOf x name = some pl → pl ∈ liveAfter start x.trace) :
    Moves start name x y es := by
  have same : liveAfter start y.trace = liveAfter start x.trace := by rw [step.trace,liveAfter_append,quiet]
  refine ⟨?_,?_,?_,?_,?_⟩
  · exact fun pl there => .inl (same ▸ there)
  · intro pl here
    rw [kept] at here
    exact ⟨same ▸ live pl here,.inl here⟩
  · exact fun pl there => .inl (same ▸ there)
  · exact fun pl made => absurd made (silent pl)
  · exact fun pl here _ _ => kept.trans here

theorem Sound.fresh (sound : Sound env start x) (unique : Unique env start) {call : Nat} (late : x.tick ≤ call) {provider : String}
    {result : ProviderResult} (answer : env.create call provider = .ok result) : (provider,result.physical_id) ∉ liveAfter start x.trace := by
  intro live
  rcases live_or_made start x.trace _ live with before | ⟨call',n,result',there,id⟩
  · exact unique.new call provider result answer before
  · obtain ⟨early,answer',-⟩ := sound.calls call' n provider _ there
    have same := unique.once call' call provider result' result answer' answer id
    omega

/-- The old resource goes and no new one is recorded. -/
theorem moves_deleted {pl : Place} (old : placeOf x name = some pl) (live : liveAfter start y.trace = liveAfter start x.trace \ {pl})
    (erased : placeOf y name = none) (silent : ∀ pl, ¬ Made es pl) : Moves start name x y es := by
  refine ⟨?_,?_,?_,?_,?_⟩
  · intro q there
    by_cases same : q = pl
    · exact .inr (same ▸ old)
    · exact .inl (live ▸ ⟨there,same⟩)
  · intro q here
    rw [erased] at here
    cases here
  · intro q there
    rw [live] at there
    exact .inl there.1
  · exact fun q made => absurd made (silent q)
  · intro q here _ there
    rw [live] at there
    cases old.symm.trans here
    exact absurd rfl there.2

/-- A new resource is recorded; the old one, if there is one, goes or was not created here. -/
theorem moves_created {new : Place} (fresh : new ∉ liveAfter start x.trace) (recorded : placeOf y name = some new) (only : ∀ pl, Made es pl → pl = new)
    (gone : Set Place) (live : liveAfter start y.trace = insert new (liveAfter start x.trace \ gone))
    (own : ∀ pl ∈ gone, placeOf x name = some pl) (stray : ∀ pl, placeOf x name = some pl → Made x.trace pl → pl ∈ gone) :
    Moves start name x y es := by
  refine ⟨?_,?_,?_,?_,?_⟩
  · intro pl there
    by_cases dropped : pl ∈ gone
    · exact .inr (own pl dropped)
    · exact .inl (live ▸ .inr ⟨there,dropped⟩)
  · intro pl here
    cases recorded.symm.trans here
    exact ⟨live ▸ .inl rfl,.inr fresh⟩
  · intro pl there
    rw [live] at there
    rcases there with rfl | there
    · exact .inr recorded
    · exact .inl there.1
  · intro pl made _
    rw [only pl made]
    exact recorded
  · intro pl here made there
    rw [live] at there
    rcases there with rfl | there
    · exact recorded
    · exact absurd (stray pl here made) there.2

/-! ### When the changes keep it -/

/-- A replacement that deletes the old resource gets a new one, and nothing is created over a resource of the same apply. -/
def Careful (env : Env) (x : Exec) (change : ResourceChange) : Prop :=
  ∀ r pid, record x change.resource_name = some r → r.physical_id = some pid → env.registered r.spec.provider = true →
    (change.action = .Replace → env.delete x.tick = .ok () → (env.create (x.tick + 1) r.spec.provider).isOk = true) ∧
    (change.action = .Create → env.validate x.tick = [] → (env.create (x.tick + 1) r.spec.provider).isOk = true →
      ¬ Made x.trace (r.spec.provider,pid))

theorem did_provider {tick : Nat} {provider : String} {config : Value} {before after : Option Resource} {action : Action} {ok : Bool}
    (did : Did env tick name provider config before action ok es after) {call : Nat} {n p : String} {result : Except DafError ProviderResult}
    (there : Event.create call n p result ∈ es) : p = provider := by
  have early : ∀ es, Gone env tick name provider before es → Event.create call n p result ∉ es := by
    intro es gone
    cases gone <;> simp
  cases did with
  | refused => simp at there
  | noop => simp at there
  | create_failed => simp_all
  | created => simp_all
  | update_failed => simp at there
  | updated => simp at there
  | delete_failed => simp at there
  | destroyed _ _ gone => exact absurd there (early _ gone)
  | replaced _ es' _ _ gone =>
    rcases List.mem_append.1 there with there | there
    · exact absurd there (early _ gone)
    · simp_all
  | cut es' _ gone =>
    rcases List.mem_append.1 there with there | there
    · exact absurd there (early _ gone)
    · simp_all

/-- A change that leaves the resources and its record as they are. -/
theorem moves_left (sound : Sound env start x) (step : Step env name x y es) (quiet : ∀ live : Set Place, liveAfter live es = live)
    (silent : ∀ pl, ¬ Made es pl) (same : record y name = record x name) : Moves start name x y es :=
  moves_idle step quiet silent (by rw [placeOf,placeOf,same]) fun _ => sound.live

theorem placeOf_record {r : Resource} {pid : String} (found : record x name = some r) (id : r.physical_id = some pid) :
    placeOf x name = some (r.spec.provider,pid) := by
  rw [placeOf,found]
  simp [place,id]

theorem placeOf_idless {r : Resource} (found : record x name = some r) (id : r.physical_id = none) : placeOf x name = none := by
  rw [placeOf,found]
  simp [place,id]

theorem placeOf_created {provider : String} {config : Value} {result : ProviderResult}
    (made : record y name = some (createdResource name provider config result)) : placeOf y name = some (provider,result.physical_id) := by
  rw [placeOf_record made (createdResource_id ..),createdResource_spec]

/-- Nothing is created before the old resource is gone. -/
theorem gone_silent {tick : Nat} {provider : String} {before : Option Resource} (gone : Gone env tick name provider before es) (pl : Place) :
    ¬ Made es pl := by
  rintro ⟨_,_,_,there,_⟩
  cases gone <;> simp at there

/-- The old resource, where there is one, goes, and its record with it. -/
theorem destroyed_moves {tick : Nat} {before : Option Resource} (sound : Sound env start x) (step : Step env name x y es)
    (found : record x name = before) (left : record y name = none) (gone : Gone env tick name (providerOf before) before es) :
    Moves start name x y es := by
  have silent := gone_silent gone
  have erased : placeOf y name = none := by rw [placeOf,left]; rfl
  cases gone with
  | unrecorded => exact moves_left sound step (fun _ => rfl) silent (left.trans found.symm)
  | idless r id => exact moves_idle step (fun _ => rfl) silent (erased.trans (placeOf_idless found id).symm) fun _ => sound.live
  | deleted r pid id answer =>
    refine moves_deleted (placeOf_record found id) ?_ erased silent
    rw [step.trace,liveAfter_append]
    rfl

/-- The old resource, where there is one, goes, and a new one is recorded. -/
theorem replaced_moves {tick call : Nat} {before : Option Resource} {config : Value} {result : ProviderResult}
    (step : Step env name x y (es ++ [.create call name (providerOf before) (.ok result)])) (found : record x name = before)
    (left : record y name = some (createdResource name (providerOf before) config result))
    (fresh : (providerOf before,result.physical_id) ∉ liveAfter start x.trace) (gone : Gone env tick name (providerOf before) before es) :
    Moves start name x y (es ++ [.create call name (providerOf before) (.ok result)]) := by
  have after : liveAfter start y.trace =
      liveAfter (liveAfter start x.trace) (es ++ [Event.create call name (providerOf before) (.ok result)]) := by
    rw [step.trace,liveAfter_append]
  have only : ∀ pl, Made (es ++ [Event.create call name (providerOf before) (.ok result)]) pl → pl = (providerOf before,result.physical_id) := by
    intro pl made
    rcases made_append.1 made with early | made
    · exact absurd early (gone_silent gone pl)
    · exact made_one made
  cases gone with
  | unrecorded =>
    refine moves_created fresh (placeOf_created left) only ∅ (by rw [after]; simp [liveAfter,liveStep]) (by simp) ?_
    intro pl here
    rw [placeOf,found] at here
    cases here
  | idless r id =>
    refine moves_created fresh (placeOf_created left) only ∅ (by rw [after]; simp [liveAfter,liveStep]) (by simp) ?_
    intro pl here
    rw [placeOf_idless found id] at here
    cases here
  | deleted r pid id deleted =>
    have old := placeOf_record found id
    refine moves_created fresh (placeOf_created left) only {(r.spec.provider,pid)}
      (by rw [after]; simp [liveAfter,liveStep,providerOf]) ?_ ?_
    · rintro pl rfl
      exact old
    · intro pl here _
      cases old.symm.trans here
      rfl

/-- The calls of a change that is done with care keep the agreement. -/
theorem did_moves {change : ResourceChange} {ok : Bool} (sound : Sound env start x) (unique : Unique env start)
    (step : Step env change.resource_name x y es) (known : es = [] ∨ env.registered (providerOf (record x change.resource_name)) = true)
    (did : Did env x.tick change.resource_name (providerOf (record x change.resource_name)) (change.after.getD .null)
      (record x change.resource_name) change.action ok es (record y change.resource_name))
    (careful : Careful env x change) : Moves start change.resource_name x y es := by
  have calls := step.calls
  generalize before_eq : record x change.resource_name = before at did known
  generalize after_eq : record y change.resource_name = left at did
  generalize action_eq : change.action = action at did
  have untouched : left = before → (∀ live : Set Place, liveAfter live es = live) → (∀ pl, ¬ Made es pl) →
      Moves start change.resource_name x y es :=
    fun same quiet silent => moves_left sound step quiet silent (after_eq.trans (same.trans before_eq.symm))
  cases did with
  | refused => exact untouched rfl (fun _ => rfl) (by rintro pl ⟨_,_,_,there,_⟩; cases there)
  | noop => exact untouched rfl (fun _ => rfl) (by rintro pl ⟨_,_,_,there,_⟩; cases there)
  | create_failed call e => exact untouched rfl (fun _ => rfl) (by rintro pl ⟨_,_,_,there,_⟩; simp at there)
  | update_failed r pid e => exact untouched rfl (fun _ => rfl) (by rintro pl ⟨_,_,_,there,_⟩; simp at there)
  | delete_failed _ r pid e => exact untouched rfl (fun _ => rfl) (by rintro pl ⟨_,_,_,there,_⟩; simp at there)
  | updated r pid result _ found id =>
    refine moves_idle step (fun _ => rfl) (by rintro pl ⟨_,_,_,there,_⟩; simp at there) ?_ fun _ => sound.live
    rw [placeOf,placeOf,after_eq,before_eq,found]
    simp [place,updatedResource_id,updatedResource_spec]
  | created result _ valid =>
    obtain ⟨⟨late,-⟩,answer⟩ := calls _ _ _ _ List.mem_cons_self
    have registered : env.registered (providerOf before) = true := by
      rcases known with none | registered
      · cases none
      · exact registered
    refine moves_created (sound.fresh unique late answer) (placeOf_created after_eq) (fun pl => made_one) ∅
      (by rw [step.trace,liveAfter_append]; simp [liveAfter,liveStep]) (by simp) ?_
    intro pl here made
    obtain ⟨r,found,at_pl⟩ := placeOf_eq.1 here
    obtain ⟨pid,id,rfl⟩ := Option.map_eq_some_iff.1 at_pl
    have same : providerOf before = r.spec.provider := by rw [← before_eq,found]; rfl
    rw [same] at registered answer
    exact absurd made ((careful r pid found id registered).2 action_eq valid (by rw [answer]; rfl))
  | destroyed _ _ gone => exact destroyed_moves sound step before_eq after_eq gone
  | replaced _ es' call result gone =>
    obtain ⟨⟨late,-⟩,answer⟩ := calls call change.resource_name _ _ (List.mem_append_right _ List.mem_cons_self)
    exact replaced_moves step before_eq after_eq (sound.fresh unique late answer) gone
  | cut es' e gone =>
    cases gone with
    | unrecorded => exact untouched rfl (fun _ => rfl) (by rintro pl ⟨_,_,_,there,_⟩; simp at there)
    | idless r id => exact untouched rfl (fun _ => rfl) (by rintro pl ⟨_,_,_,there,_⟩; simp at there)
    | deleted r pid id answer =>
      -- the replacement stopped half way
      obtain ⟨-,failed⟩ := calls _ _ _ _ (List.mem_append_right _ List.mem_cons_self)
      have registered : env.registered r.spec.provider = true := by
        rcases known with none | registered
        · simp at none
        · exact registered
      have made := (careful r pid before_eq id registered).1 action_eq answer
      have failed : env.create (x.tick + 1) r.spec.provider = .error e := failed
      rw [failed] at made
      cases made

variable {options : ApplyOptions} {dep_map : AList (fun _ : String => List String)}

variable (env options dep_map) in
/-- Every change is done with care, in the state in which its turn comes. -/
def CarefulWalk (w : Walk) : List ResourceChange → Prop
  | [] => True
  | change :: later => Careful env w.exec change ∧ CarefulWalk (applyNext env options dep_map w change) later

theorem Next.sound {change : ResourceChange} {w w' : Walk} {ok : Bool} (next : Next env change w w' ok es) (sound : Sound env start w.exec)
    (unique : Unique env start) (careful : Careful env w.exec change) : Sound env start w'.exec := by
  refine sound.moved next.step (did_moves sound unique next.step next.known next.did careful) ?_
  intro call n p result there
  rcases next.known with none | registered
  · rw [none] at there
    cases there
  · rw [did_provider next.did there]
    exact registered

theorem walk_sound (wet : options.dry_run = false) (empty : ∀ name, (dep_map.lookup name).getD [] = []) (unique : Unique env start)
    (changes : List ResourceChange) : ∀ w : Walk, Sound env start w.exec → CarefulWalk env options dep_map w changes →
      Sound env start (changes.foldl (applyNext env options dep_map) w).exec := by
  induction changes with
  | nil => exact fun w sound _ => sound
  | cons change later ih =>
    intro w sound careful
    obtain ⟨ok,es,next⟩ := applyNext_next env wet empty w change
    exact ih _ (Next.sound next sound unique careful.1) careful.2

/-! ### Rollback -/

theorem undid_silent {before after : Option Resource} (undid : Undid env name before es after) {call : Nat} {n p : String}
    {result : Except DafError ProviderResult} : Event.create call n p result ∉ es := by
  cases undid <;> simp

theorem rollbackEntry_sound (sound : Sound env start x) (entry : ApplyProgress) : Sound env start (rollbackEntry env x entry) := by
  obtain ⟨es,step,undid⟩ := rollbackEntry_undid env x entry
  have after : liveAfter start (rollbackEntry env x entry).trace = liveAfter (liveAfter start x.trace) es := by rw [step.trace,liveAfter_append]
  have silent : ∀ call n p result, Event.create call n p result ∉ es := fun _ _ _ _ => undid_silent undid
  have unmade : ∀ pl, ¬ Made es pl := by
    rintro pl ⟨call,n,result,there,-⟩
    exact silent call n pl.1 _ there
  refine sound.moved step ?_ (fun call n p result there => absurd there (silent call n p result))
  have live := @Sound.live env start x sound entry.resource_name
  generalize before_eq : record x entry.resource_name = before at undid
  generalize after_eq : record (rollbackEntry env x entry) entry.resource_name = left at undid
  cases undid with
  | untouched => exact moves_idle step (fun _ => rfl) unmade (by rw [placeOf,placeOf,after_eq,before_eq]) (fun pl => live)
  | delete_failed r pid e => exact moves_idle step (fun _ => rfl) unmade (by rw [placeOf,placeOf,after_eq,before_eq]) (fun pl => live)
  | deleted r pid found id =>
    refine moves_deleted ?_ (by rw [after]; rfl) (by rw [placeOf,after_eq]; rfl) unmade
    rw [placeOf,before_eq,found]
    simp [place,id]
  | forgotten unknown =>
    have erased : placeOf (rollbackEntry env x entry) entry.resource_name = none := by rw [placeOf,after_eq]; rfl
    refine ⟨fun pl there => .inl (after ▸ there),fun pl here => ?_,fun pl there => .inl (after ▸ there),fun pl made => absurd made (unmade pl),?_⟩
    · rw [erased] at here
      cases here
    · -- what was created here has a registered provider, so it is not just forgotten
      intro pl here made there
      obtain ⟨r,found,at_pl⟩ := placeOf_eq.1 here
      obtain ⟨pid,id,rfl⟩ := Option.map_eq_some_iff.1 at_pl
      obtain ⟨call,n,result,event,-⟩ := made
      have registered := (sound.calls call n _ _ event).2.2
      rw [unknown r pid (before_eq ▸ found) id] at registered
      cases registered

theorem rollback_sound (entries : List ApplyProgress) : ∀ x : Exec, Sound env start x → Sound env start (entries.foldl (rollbackEntry env) x) := by
  induction entries with
  | nil => exact fun x sound => sound
  | cons entry later ih => exact fun x sound => ih _ (rollbackEntry_sound sound entry)

/-! ### A replacement that stops half way -/

/-- The record stands for a resource that is gone for good: it existed before, and ids are not used again. -/
def Lost (start : Set Place) (name : String) (x : Exec) : Prop :=
  ∃ pl, placeOf x name = some pl ∧ pl ∈ start ∧ pl ∉ liveAfter start x.trace

theorem Lost.not_agrees (lost : Lost start name x) : ¬ Agrees start x := by
  intro agrees
  obtain ⟨pl,here,-,dead⟩ := lost
  obtain ⟨r,found,at_pl⟩ := placeOf_eq.1 here
  exact dead (agrees.recorded name r pl found at_pl)

theorem dead_stays {pl : Place} (old : pl ∈ start) : ∀ (live : Set Place), pl ∉ live →
    (∀ call n p result, Event.create call n p (.ok result) ∈ es → (p,result.physical_id) ∉ start) → pl ∉ liveAfter live es := by
  induction es with
  | nil => exact fun live dead _ => dead
  | cons e later ih =>
    intro live dead new
    refine ih (liveStep live e) ?_ (fun call n p result there => new call n p result (List.mem_cons_of_mem _ there))
    cases e with
    | create call n p result =>
      cases result with
      | error e => exact dead
      | ok result =>
        rintro (same | there)
        · exact new call n p result List.mem_cons_self (same ▸ old)
        · exact dead there
    | update n p pid result => exact dead
    | delete n p pid rollback result =>
      cases result with
      | error e => exact dead
      | ok done => exact fun there => dead there.1

theorem Lost.step {other : String} (lost : Lost start name x) (unique : Unique env start) (step : Step env other x y es) (apart : name ≠ other) :
    Lost start name y := by
  obtain ⟨pl,here,old,dead⟩ := lost
  refine ⟨pl,?_,old,?_⟩
  · rw [placeOf,step.frame name apart]
    exact here
  · rw [step.trace,liveAfter_append]
    refine dead_stays old _ dead ?_
    intro call n p result there
    exact unique.new call p result (step.calls call n p _ there).2

theorem Lost.walk (wet : options.dry_run = false) (empty : ∀ name, (dep_map.lookup name).getD [] = []) (unique : Unique env start)
    (changes : List ResourceChange) : ∀ w : Walk, name ∉ changes.map (·.resource_name) → Lost start name w.exec →
      Lost start name (changes.foldl (applyNext env options dep_map) w).exec := by
  induction changes with
  | nil => exact fun w _ lost => lost
  | cons change later ih =>
    intro w away lost
    rw [List.map_cons,List.mem_cons,not_or] at away
    obtain ⟨ok,es,next⟩ := applyNext_next env wet empty w change
    exact ih _ away.2 (lost.step unique next.step away.1)

theorem Lost.rollback (unique : Unique env start) (entries : List ApplyProgress) : ∀ x : Exec,
    (∀ entry ∈ entries, entry.action = .Create → name ≠ entry.resource_name) → Lost start name x →
      Lost start name (entries.foldl (rollbackEntry env) x) := by
  induction entries with
  | nil => exact fun x _ lost => lost
  | cons entry later ih =>
    intro x apart lost
    refine ih _ (fun e there => apart e (List.mem_cons_of_mem _ there)) ?_
    by_cases create : entry.action = .Create
    · obtain ⟨es,step,-⟩ := rollbackEntry_undid env x entry
      exact lost.step unique step (apart entry List.mem_cons_self create)
    · rw [rollbackEntry_other create]
      exact lost

/-- The delete succeeds and the create fails. -/
theorem replace_cut (wet : options.dry_run = false) (empty : ∀ name, (dep_map.lookup name).getD [] = []) {w : Walk} {change : ResourceChange}
    {r : Resource} {pid : String} {e : DafError} (replace : change.action = .Replace) (found : record w.exec change.resource_name = some r)
    (id : r.physical_id = some pid) (registered : env.registered r.spec.provider = true) (deleted : env.delete w.exec.tick = .ok ())
    (failed : env.create (w.exec.tick + 1) r.spec.provider = .error e) :
    record (applyNext env options dep_map w change).exec change.resource_name = some r ∧
      (applyNext env options dep_map w change).exec.trace = w.exec.trace ++
        [.delete change.resource_name r.spec.provider pid false (.ok ()),
         .create (w.exec.tick + 1) change.resource_name r.spec.provider (.error e)] := by
  have found' : w.exec.state.resources.lookup change.resource_name = some r := found
  have asked : providerName w.exec.state change = some r.spec.provider := by simp [providerName,ProvisionState.get_resource,found']
  unfold applyNext
  rw [if_neg (by simp [empty])]
  simp [apply_single_change,wet,asked,registered,applyAction,replace,applyReplace,deleteExisting,ProvisionState.get_resource,found',id,
    callDelete,deleted,createAndRecord,callCreate,failed,record]

theorem not_careful_lost (wet : options.dry_run = false) (empty : ∀ name, (dep_map.lookup name).getD [] = []) (unique : Unique env start)
    (changes : List ResourceChange) : ∀ w : Walk, (changes.map (·.resource_name)).Nodup → Sound env start w.exec →
      (∀ change ∈ changes, ∀ pl, placeOf w.exec change.resource_name = some pl → pl ∈ start) →
      ¬ CarefulWalk env options dep_map w changes →
      ∃ change ∈ changes, change.action = .Replace ∧
        Lost start change.resource_name (changes.foldl (applyNext env options dep_map) w).exec := by
  induction changes with
  | nil => exact fun w _ _ _ careless => absurd trivial careless
  | cons change later ih =>
    intro w nodup sound old careless
    rw [List.map_cons,List.nodup_cons] at nodup
    by_cases careful : Careful env w.exec change
    · obtain ⟨ok,es,next⟩ := applyNext_next env wet empty w change
      have untouched : ∀ c ∈ later, ∀ pl, placeOf (applyNext env options dep_map w change).exec c.resource_name = some pl → pl ∈ start := by
        intro c there pl here
        have other : c.resource_name ≠ change.resource_name := fun same => nodup.1 (same ▸ List.mem_map_of_mem there)
        rw [placeOf,next.step.frame _ other] at here
        exact old c (List.mem_cons_of_mem _ there) pl here
      obtain ⟨c,there,replace,lost⟩ := ih _ nodup.2 (Next.sound next sound unique careful) untouched (fun rest => careless ⟨careful,rest⟩)
      exact ⟨c,List.mem_cons_of_mem _ there,replace,lost⟩
    · simp only [Careful] at careful
      push Not at careful
      obtain ⟨r,pid,found,id,registered,broken⟩ := careful
      have here : placeOf w.exec change.resource_name = some (r.spec.provider,pid) := placeOf_eq.2 ⟨r,found,by simp [place,id]⟩
      have existed : (r.spec.provider,pid) ∈ start := old change List.mem_cons_self _ here
      by_cases cut : change.action = .Replace ∧ env.delete w.exec.tick = .ok () ∧ (env.create (w.exec.tick + 1) r.spec.provider).isOk ≠ true
      · obtain ⟨replace,deleted,notCreated⟩ := cut
        cases failed : env.create (w.exec.tick + 1) r.spec.provider with
        | ok result =>
          rw [failed] at notCreated
          exact absurd rfl notCreated
        | error e =>
          obtain ⟨kept,calls⟩ := replace_cut wet empty replace found id registered deleted failed
          refine ⟨change,List.mem_cons_self,replace,?_⟩
          refine Lost.walk wet empty unique later _ nodup.1 ⟨(r.spec.provider,pid),placeOf_eq.2 ⟨r,kept,by simp [place,id]⟩,existed,?_⟩
          rw [calls,liveAfter_append]
          rintro ⟨-,other⟩
          exact other rfl
      · obtain ⟨-,-,-,call,n,result,there,same⟩ := broken (fun replace deleted => by
          by_contra notCreated
          exact cut ⟨replace,deleted,notCreated⟩)
        -- what this apply created did not exist before
        have answer := (sound.calls call n _ _ there).2.1
        have new := unique.new call _ result answer
        rw [same] at new
        exact absurd existed new

theorem walk_entries (wet : options.dry_run = false) (empty : ∀ name, (dep_map.lookup name).getD [] = []) (changes : List ResourceChange) :
    ∀ w : Walk, ∀ entry ∈ (changes.foldl (applyNext env options dep_map) w).progress, entry ∈ w.progress ∨
      ∃ change ∈ changes, entry.resource_name = change.resource_name ∧ entry.action = change.action := by
  induction changes with
  | nil => exact fun w entry there => .inl there
  | cons change later ih =>
    intro w entry there
    obtain ⟨ok,es,next⟩ := applyNext_next env wet empty w change
    obtain ⟨status,grown,-⟩ := next.entry
    rcases ih _ entry there with there | ⟨c,inside,same⟩
    · rw [grown,List.mem_append,List.mem_singleton] at there
      rcases there with there | rfl
      · exact .inl there
      · exact .inr ⟨change,List.mem_cons_self,rfl,rfl⟩
    · exact .inr ⟨c,List.mem_cons_of_mem _ inside,same⟩

/-! ### The whole apply -/

variable (env options) in
/-- A dry run makes no calls; otherwise every change is done with care. -/
def CarefulApply (plan : Plan) (x : Exec) : Prop :=
  options.dry_run = true ∨ CarefulWalk env options (build_dependency_map plan) ⟨[],[],x⟩ plan.mutating_changes

/-- From a state that agrees with the providers, an apply in which every replaced resource that is deleted is also
    created, and nothing is created over a resource of the same apply, leads to a state that agrees. When the plan names
    each resource once, no other apply does. -/
theorem agreement (env : Env) (options : ApplyOptions) (plan : Plan) (x : Exec) (begins : x.trace = []) (agrees : Agrees start x)
    (distinct : Distinct x) (unique : Unique env start) :
    (CarefulApply env options plan x → Agrees start (apply env options plan x).2) ∧
      ((plan.changes.map (·.resource_name)).Nodup → Agrees start (apply env options plan x).2 → CarefulApply env options plan x) := by
  have sound : Sound env start x := ⟨agrees,distinct,by simp [begins]⟩
  constructor
  · rintro (dry | careful)
    · rw [apply_dry dry]
      exact agrees
    · cases wet : options.dry_run with
      | true =>
        rw [apply_dry wet]
        exact agrees
      | false =>
        have walked : Sound env start (walk env options plan x).exec := walk_sound wet (dependency_map_empty plan) unique _ _ sound careful
        rcases apply_exec env options plan x with ended | ended
        · rw [ended]
          exact walked.agrees
        · rw [ended]
          exact (rollback_sound _ _ walked).agrees
  · intro nodup after
    cases wet : options.dry_run with
    | true => exact .inl wet
    | false =>
      right
      by_contra careless
      have part : (plan.mutating_changes.map (·.resource_name)).Nodup := nodup.sublist (List.filter_sublist.map _)
      have old : ∀ change ∈ plan.mutating_changes, ∀ pl, placeOf x change.resource_name = some pl → pl ∈ start := by
        intro change _ pl here
        have live := sound.live here
        rw [begins] at live
        exact live
      obtain ⟨change,there,replace,lost⟩ := not_careful_lost wet (dependency_map_empty plan) unique _ ⟨[],[],x⟩ part sound old careless
      rcases apply_exec env options plan x with ended | ended
      · exact lost.not_agrees (ended ▸ after)
      · have kept : Lost start change.resource_name (apply env options plan x).2 := by
          rw [ended]
          refine lost.rollback unique _ _ ?_
          intro entry inside create same
          rcases walk_entries wet (dependency_map_empty plan) _ _ entry (List.mem_reverse.1 inside) with none | ⟨c,inC,named,action⟩
          · cases none
          · have one := List.inj_on_of_nodup_map part inC there (named.symm.trans same.symm)
            rw [create,one,replace] at action
            cases action
        exact kept.not_agrees after

end

/-! ### Fixed plans -/

def options : ApplyOptions := ⟨false,true⟩

/-- One create succeeds, at the second call; deletes and saves succeed. -/
def once : Env where
  registered _ := true
  validate _ := []
  create call _ := if call = 1 then .ok ⟨"pool-1",[]⟩ else .error (.ResourceExhausted "pools")
  update _ := .error (.Internal "update")
  delete _ := .ok ()
  save _ := .ok ()

theorem once_unique (start : Set Place) (new : ∀ provider, (provider,"pool-1") ∉ start) : Unique once start := by
  have called : ∀ i provider a, once.create i provider = .ok a → i = 1 ∧ a.physical_id = "pool-1" := by
    intro i provider a answer
    by_cases first : i = 1
    · subst first
      cases answer
      exact ⟨rfl,rfl⟩
    · simp [once,first] at answer
  constructor
  · intro i j provider a b first second _
    rw [(called i provider a first).1,(called j provider b second).1]
  · intro i provider a answer
    rw [(called i provider a answer).2]
    exact new provider

/-- Two resources are created; the second create fails, and the first is rolled back. -/
def twoCreates : Plan := .from_changes
  [⟨"first",.Create,none,some (.object []),"resource does not exist"⟩,⟨"second",.Create,none,some (.object []),"resource does not exist"⟩] []

def nothing : Exec := ⟨.new,0,[]⟩

theorem nothing_agrees (start : Set Place) : Agrees start nothing ∧ Distinct nothing := by
  have unrecorded : ∀ name, record nothing name = none := fun _ => rfl
  refine ⟨⟨fun name r pl found => ?_,fun pl made => ?_⟩,fun n m r q pl found => ?_⟩
  · rw [unrecorded] at found
    cases found
  · obtain ⟨_,_,_,there,_⟩ := made
    cases there
  · rw [unrecorded] at found
    cases found

theorem twoCreates_agreement :
    (twoCreates.changes.map (·.resource_name)).Nodup ∧ ((apply once options twoCreates nothing).1.failed = 1 ∧
        (apply once options twoCreates nothing).1.rollback_attempted = true) ∧
      (CarefulApply once options twoCreates nothing ↔ Agrees ∅ (apply once options twoCreates nothing).2) := by
  have both := agreement once options twoCreates nothing rfl (nothing_agrees ∅).1 (nothing_agrees ∅).2
    (once_unique ∅ (fun _ there => there))
  have nodup : (twoCreates.changes.map (·.resource_name)).Nodup := by decide
  exact ⟨nodup,by decide,⟨both.1,both.2 nodup⟩⟩

/-- A recorded pool, and a replacement for it. -/
def store : Resource := ⟨⟨.AgentPool,"store","agent_pool",.object [],[],.default⟩,.Created,some "pool-0",∅⟩

def stored : Exec := ⟨⟨0,(∅ : AList (fun _ : String => Resource)).insert "store" store⟩,0,[]⟩

def replaceStore : Plan := .from_changes [⟨"store",.Replace,some (.object []),some (.object []),"configuration changed"⟩] []

/-- No create succeeds. -/
def full : Env := { once with create := fun _ _ => .error (.ResourceExhausted "pools") }

theorem stored_record (name : String) (r : Resource) (found : record stored name = some r) : name = "store" ∧ r = store := by
  by_cases same : name = "store"
  · subst same
    cases found
    exact ⟨rfl,rfl⟩
  · rw [record,stored,AList.lookup_insert_ne same] at found
    cases found

/-- The old pool is deleted, no new one is created, and the record still names the old one. -/
theorem replaceStore_disagrees :
    Agrees {("agent_pool","pool-0")} stored ∧ Distinct stored ∧ Unique full {("agent_pool","pool-0")} ∧
      ¬ Agrees {("agent_pool","pool-0")} (apply full options replaceStore stored).2 := by
  refine ⟨⟨fun name r pl found at_pl => ?_,fun pl made => ?_⟩,fun n m r q pl first second _ _ => ?_,⟨?_,?_⟩,fun agrees => ?_⟩
  · obtain ⟨rfl,rfl⟩ := stored_record name r found
    cases at_pl
    exact rfl
  · obtain ⟨_,_,_,there,_⟩ := made
    cases there
  · rw [(stored_record n r first).1,(stored_record m q second).1]
  · intro i j provider a b answer
    cases answer
  · intro i provider a answer
    cases answer
  · have still := agrees.recorded "store" store ("agent_pool","pool-0") rfl rfl
    have calls : (apply full options replaceStore stored).2.trace = [.delete "store" "agent_pool" "pool-0" false (.ok ()),
        .create 1 "store" "agent_pool" (.error (.ResourceExhausted "pools"))] := rfl
    rw [calls] at still
    exact still.2 rfl

end Daf.ProvisionAgreement
