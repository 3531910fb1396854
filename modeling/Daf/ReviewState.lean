import Daf.ReviewRun

/-!
Consistent states of a review: what every state file satisfies that a review writes. A
consistent state passes the checks of the next invocation, and the changes that a worker
makes to its attempt keep it consistent.
-/
namespace Daf.ReviewState
open Daf.Json Daf.ReviewOutput Daf.ReviewRun

/-! ### Maps -/

theorem lookup_isSome {α : Type} (m : List (String × α)) (k : String) : (m.lookup k).isSome = true ↔ k ∈ m.map (·.1) := by
  rw [List.lookup_isSome_iff,List.mem_map]
  constructor
  · rintro ⟨entry,member,same⟩
    exact ⟨entry,member,(beq_iff_eq.mp same).symm⟩
  · rintro ⟨entry,member,rfl⟩
    exact ⟨entry,member,beq_self_eq_true _⟩

theorem lookup_of_mem {α : Type} {m : List (String × α)} (distinct : (m.map (·.1)).Nodup) {k : String} {v : α} (member : (k,v) ∈ m) :
    m.lookup k = some v := by
  induction m with
  | nil => cases member
  | cons entry later ih =>
    rcases entry with ⟨k',v'⟩
    rw [List.map_cons,List.nodup_cons] at distinct
    rcases List.mem_cons.mp member with same | later_member
    · cases same
      simp
    · have other : (k == k') = false := by
        simp only [beq_eq_false_iff_ne,ne_eq]
        rintro rfl
        exact distinct.1 (List.mem_map.mpr ⟨_,later_member,rfl⟩)
      rw [List.lookup_cons,other]
      exact ih distinct.2 later_member

theorem lookup_mapValues {α β : Type} (f : α → β) (m : List (String × α)) (k : String) :
    (m.map (fun entry => (entry.1,f entry.2))).lookup k = (m.lookup k).map f := by
  induction m with
  | nil => rfl
  | cons entry later ih =>
    rcases entry with ⟨k',v⟩
    simp only [List.map_cons,List.lookup_cons]
    split <;> simp [ih]

theorem insertKey_mapValues {α β : Type} (f : α → β) (k : String) (v : α) (m : List (String × α)) :
    (insertKey k v m).map (fun entry => (entry.1,f entry.2)) = insertKey k (f v) (m.map (fun entry => (entry.1,f entry.2))) := by
  induction m with
  | nil => rfl
  | cons entry later ih =>
    rcases entry with ⟨k',v'⟩
    simp only [insertKey,List.map_cons]
    split_ifs <;> simp [ih]

theorem insertKey_perm {α : Type} {k : String} {v : α} {m : List (String × α)} (new : k ∉ m.map (·.1)) :
    (insertKey k v m).Perm ((k,v) :: m) := by
  induction m with
  | nil => exact List.Perm.refl _
  | cons entry later ih =>
    rcases entry with ⟨k',v'⟩
    simp only [List.map_cons,List.mem_cons,not_or] at new
    rw [insertKey,if_neg new.1]
    split_ifs
    · exact List.Perm.refl _
    · exact ((ih new.2).cons (k',v')).trans (List.Perm.swap _ _ _)

/-! ### Attempts -/

theorem countRole_concat (attempts : List Attempt) (a : Attempt) (role : String) :
    countRole (attempts ++ [a]) role = countRole attempts role + if a.role = role then 1 else 0 := by
  unfold countRole
  rw [List.filter_append,List.length_append,List.filter_singleton]
  by_cases same : a.role = role
  · simp [same]
  · have other : (a.role == role) = false := by simpa using same
    simp [other,same]

theorem countRole_map {f : Attempt → Attempt} (keeps : ∀ a, (f a).role = a.role) (attempts : List Attempt) (role : String) :
    countRole (attempts.map f) role = countRole attempts role := by
  unfold countRole
  rw [List.filter_map,List.length_map]
  congr 2
  funext a
  simp [keeps]

theorem succeededOf_concat (attempts : List Attempt) (a : Attempt) (role : String) :
    succeededOf (attempts ++ [a]) role = succeededOf attempts role + if a.role = role ∧ a.status = "succeeded" then 1 else 0 := by
  unfold succeededOf
  rw [List.filter_append,List.length_append,List.filter_singleton]
  by_cases same : a.role = role ∧ a.status = "succeeded"
  · simp [same]
  · rw [if_neg same]
    have no : (a.role == role && a.status == "succeeded") = false := by simpa using same
    simp [no]

/-- An attempt with the number that it has after others. -/
structure Fits (max_retries : Nat) (before : List Attempt) (a : Attempt) : Prop where
  role : a.role ∈ ROLES
  status : a.status ∈ STATUSES
  number : a.number = countRole before a.role + 1
  budget : a.number ≤ max_retries + 1

/-- The attempts of each role are numbered in order and within the budget. -/
def Sequenced (max_retries : Nat) (attempts : List Attempt) : Prop :=
  ∀ before a later, attempts = before ++ a :: later → Fits max_retries before a

section
variable {max_retries : Nat} {attempts : List Attempt}

theorem sequenced_concat {a : Attempt} : Sequenced max_retries (attempts ++ [a]) ↔ Sequenced max_retries attempts ∧ Fits max_retries attempts a := by
  constructor
  · intro seq
    refine ⟨fun before b later same => seq before b (later ++ [a]) (by rw [same]; simp),seq attempts a [] rfl⟩
  · rintro ⟨seq,fits⟩ before b later same
    rcases List.eq_nil_or_concat later with rfl | ⟨rest,last,rfl⟩
    · obtain ⟨rfl,single⟩ := List.append_inj' same rfl
      cases single
      exact fits
    · rw [List.concat_eq_append,← List.cons_append,← List.append_assoc] at same
      exact seq before b rest (List.append_inj' same rfl).1

theorem Sequenced.map (seq : Sequenced max_retries attempts) {f : Attempt → Attempt} (role : ∀ a, (f a).role = a.role)
    (number : ∀ a, (f a).number = a.number) (status : ∀ a, a.status ∈ STATUSES → (f a).status ∈ STATUSES) :
    Sequenced max_retries (attempts.map f) := by
  intro before b later same
  obtain ⟨first,rest,rfl,rfl,mapped⟩ := List.map_eq_append_iff.mp same
  obtain ⟨a,others,rfl,rfl,rfl⟩ := List.map_eq_cons_iff.mp mapped
  have fits := seq first a others rfl
  refine ⟨by rw [role]; exact fits.role,status a fits.status,?_,by rw [number]; exact fits.budget⟩
  rw [number,role,countRole_map role]
  exact fits.number

theorem checkAttempts_ok {setup : Setup} (before : List Attempt) (seq : Sequenced setup.max_retries (before ++ attempts)) :
    checkAttempts setup before attempts = .ok () := by
  induction attempts generalizing before with
  | nil => rfl
  | cons a later ih =>
    have fits := seq before a later rfl
    have number := fits.number
    have budget := fits.budget
    rw [checkAttempts,if_neg (by simp [fits.role,fits.status]),if_neg (by omega)]
    exact ih (before ++ [a]) (by simpa using seq)

end

/-! ### Consistent states -/

structure Sound (setup : Setup) (s : State) : Prop where
  version : s.version = VERSION
  fingerprint : s.report.fingerprint = setup.fingerprint
  workflow : s.report.workflow_version = VERSION
  provider : s.report.provider_identity = setup.provider_identity
  files : s.report.files = setup.files.map (·.1)
  sequenced : Sequenced setup.max_retries s.report.attempts
  evidence : ∀ role, succeededOf s.report.attempts role = if s.hasOutput role = true then 1 else 0
  completed : s.report.completed_roles.Nodup
  roles : ∀ role, role ∈ s.report.completed_roles ↔ s.hasOutput role = true
  keys : (s.outputs.map (·.1)).Nodup
  outputs : ∀ output ∈ s.outputs, output.1 ∈ ROLES ∧ ∃ again, validate_output setup.texts (outputOf output.2) setup.files = .ok again
  hashes : s.output_hashes = s.outputs.map (fun output => (output.1,setup.hash output.2))

section
variable {setup : Setup} {s : State}

theorem sound_fresh : Sound setup (.fresh setup) where
  version := rfl
  fingerprint := rfl
  workflow := rfl
  provider := rfl
  files := rfl
  sequenced before a later same := by simp [State.fresh] at same
  evidence role := rfl
  completed := List.nodup_nil
  roles role := by simp [State.fresh,State.hasOutput]
  keys := List.nodup_nil
  outputs output member := absurd member List.not_mem_nil
  hashes := rfl

/-- A succeeded attempt has an output. -/
theorem Sound.hasOutput_of_succeeded (sound : Sound setup s) {a : Attempt} (member : a ∈ s.report.attempts)
    (succeeded : a.status = "succeeded") : s.hasOutput a.role = true := by
  have found : 0 < succeededOf s.report.attempts a.role :=
    List.length_pos_of_mem (List.mem_filter.mpr ⟨member,by simp [succeeded]⟩)
  rw [sound.evidence a.role] at found
  split_ifs at found with has
  · exact has
  · omega

theorem checkOutputs_ok (sound : Sound setup s) {outputs : List (String × List Finding)} (part : ∀ output ∈ outputs, output ∈ s.outputs) :
    checkOutputs setup s.output_hashes outputs = .ok () := by
  induction outputs with
  | nil => rfl
  | cons output later ih =>
    rcases output with ⟨role,findings⟩
    have member := part (role,findings) List.mem_cons_self
    obtain ⟨known,again,valid⟩ := sound.outputs _ member
    have hash : s.output_hashes.lookup role = some (setup.hash findings) := by
      rw [sound.hashes,lookup_mapValues,lookup_of_mem sound.keys member]
      rfl
    rw [checkOutputs,if_neg (by simp [hash]),if_neg (by simpa using known)]
    simp only [valid]
    exact ih (fun output later_member => part output (List.mem_cons_of_mem _ later_member))

/-- A consistent state passes the checks. -/
theorem Sound.checks (sound : Sound setup s) : checks setup s = .ok () := by
  have attempts : checkAttempts setup [] s.report.attempts = .ok () := checkAttempts_ok [] sound.sequenced
  have cached : s.report.attempts.any (fun a => a.status == "succeeded" && !s.hasOutput a.role) = false := by
    rw [List.any_eq_false]
    intro a member bad
    simp only [Bool.and_eq_true,beq_iff_eq,Bool.not_eq_true'] at bad
    rw [sound.hasOutput_of_succeeded member bad.1] at bad
    cases bad.2
  have evidence : s.report.completed_roles.any (fun role =>
      s.report.completed_roles.count role != 1 || succeededOf s.report.attempts role != 1) = false := by
    rw [List.any_eq_false]
    intro role member bad
    have one := List.count_eq_one_of_mem sound.completed member
    have attempt := sound.evidence role
    rw [if_pos ((sound.roles role).mp member)] at attempt
    simp [one,attempt] at bad
  have sizes : s.output_hashes.length = s.outputs.length := by rw [sound.hashes,List.length_map]
  have outputs : checkOutputs setup s.output_hashes s.outputs = .ok () := checkOutputs_ok sound (fun _ member => member)
  have backed : s.report.completed_roles.any (fun role => !s.hasOutput role) = false := by
    rw [List.any_eq_false]
    intro role member bad
    rw [(sound.roles role).mp member] at bad
    cases bad
  have reported : s.outputs.any (fun output => !s.report.completed_roles.contains output.1) = false := by
    rw [List.any_eq_false]
    intro output member bad
    have complete := (sound.roles output.1).mpr ((lookup_isSome s.outputs output.1).mpr (List.mem_map_of_mem member))
    simp [complete] at bad
  unfold ReviewRun.checks
  rw [attempts]
  simp only [cached,evidence,sizes,outputs,backed,reported,sound.workflow,sound.provider,sound.files,ne_eq,not_true_eq_false,or_self,
    if_false,Bool.false_eq_true]
  rfl

theorem settle_role (a : Attempt) : a.settle.role = a.role := by
  unfold Attempt.settle
  split_ifs <;> rfl

theorem settle_number (a : Attempt) : a.settle.number = a.number := by
  unfold Attempt.settle
  split_ifs <;> rfl

theorem settle_succeeded (a : Attempt) : a.settle.status = "succeeded" ↔ a.status = "succeeded" := by
  unfold Attempt.settle
  split_ifs with running
  · simp [running]
  · rfl

theorem settle_status (a : Attempt) (known : a.status ∈ STATUSES) : a.settle.status ∈ STATUSES := by
  unfold Attempt.settle
  split_ifs
  · show "interrupted" ∈ STATUSES
    decide
  · exact known

theorem Sound.adopt (sound : Sound setup s) : Sound setup s.adopt := { sound with
  sequenced := sound.sequenced.map settle_role settle_number settle_status
  evidence := fun role => by
    rw [show s.adopt.hasOutput role = s.hasOutput role from rfl,← sound.evidence role]
    show succeededOf (s.report.attempts.map Attempt.settle) role = _
    unfold succeededOf
    rw [List.filter_map,List.length_map]
    congr 2
    funext a
    have same : (a.settle.status == "succeeded") = (a.status == "succeeded") := by
      rw [Bool.eq_iff_iff,beq_iff_eq,beq_iff_eq]
      exact settle_succeeded a
    simp [settle_role,same] }

/-- A state file of an acceptable size is resumed. -/
theorem Sound.resume (sound : Sound setup s) (size : setup.encodedLen s ≤ 4194303) : resume setup (some s) = .ok s.adopt := by
  have loaded : load setup (some s) = .ok s := by
    rw [load,if_neg (by omega),if_neg (by simp [sound.version,sound.fingerprint])]
  unfold ReviewRun.resume
  rw [loaded]
  show (ReviewRun.checks setup s >>= fun _ => Except.ok s.adopt) = _
  rw [sound.checks]
  rfl

/-! ### The changes of a worker -/

/-- What the next state file must keep of the last one. -/
structure Extends (old new : State) : Prop where
  attempts : ∀ role, countRole old.report.attempts role ≤ countRole new.report.attempts role
  outputs : ∀ role, old.hasOutput role = true → new.hasOutput role = true

theorem Extends.refl (s : State) : Extends s s := ⟨fun _ => le_rfl,fun _ has => has⟩

theorem Extends.trans {a b c : State} (first : Extends a b) (second : Extends b c) : Extends a c :=
  ⟨fun role => (first.attempts role).trans (second.attempts role),fun role has => second.outputs role (first.outputs role has)⟩

theorem extends_adopt (s : State) : Extends s s.adopt :=
  ⟨fun role => (countRole_map settle_role s.report.attempts role).symm.le,fun _ has => has⟩

theorem extends_start (s : State) (role : String) : Extends s (s.start role) :=
  ⟨fun other => by simp [State.start,countRole_concat],fun _ has => has⟩

theorem Sound.start (sound : Sound setup s) {role : String} (known : role ∈ ROLES)
    (budget : countRole s.report.attempts role ≤ setup.max_retries) : Sound setup (s.start role) := { sound with
  sequenced := sequenced_concat.mpr ⟨sound.sequenced,known,by simp [STATUSES],rfl,Nat.succ_le_succ budget⟩
  evidence := fun other => by
    rw [show (s.start role).hasOutput other = s.hasOutput other from rfl,← sound.evidence other]
    simp [State.start,succeededOf_concat] }

variable {init : List Attempt} {a : Attempt}

theorem modify_last (init : List Attempt) (a : Attempt) (f : Attempt → Attempt) : (init ++ [a]).modify init.length f = init ++ [f a] := by
  induction init with
  | nil => rfl
  | cons b later ih => simpa using ih

/-- The last attempt is changed. -/
theorem onAttempt_attempts (last : s.report.attempts = init ++ [a]) (f : Attempt → Attempt) :
    (s.onAttempt init.length f).report.attempts = init ++ [f a] := by
  show s.report.attempts.modify init.length f = _
  rw [last,modify_last]

theorem extends_onAttempt (last : s.report.attempts = init ++ [a]) {f : Attempt → Attempt} (role : (f a).role = a.role) :
    Extends s (s.onAttempt init.length f) :=
  ⟨fun other => by rw [onAttempt_attempts last,last,countRole_concat,countRole_concat,role],fun _ has => has⟩

theorem Fits.change {max_retries : Nat} (fits : Fits max_retries init a) {b : Attempt} (role : b.role = a.role) (number : b.number = a.number)
    (status : b.status ∈ STATUSES) : Fits max_retries init b :=
  ⟨by rw [role]; exact fits.role,status,by rw [number,role]; exact fits.number,by rw [number]; exact fits.budget⟩

theorem Sound.onAttempt (sound : Sound setup s) (last : s.report.attempts = init ++ [a]) (unfinished : a.status ≠ "succeeded")
    {f : Attempt → Attempt} (role : (f a).role = a.role) (number : (f a).number = a.number) (status : (f a).status ∈ STATUSES)
    (still : (f a).status ≠ "succeeded") : Sound setup (s.onAttempt init.length f) := by
  have seq := sound.sequenced
  rw [last,sequenced_concat] at seq
  exact { sound with
    sequenced := by
      rw [onAttempt_attempts last]
      exact sequenced_concat.mpr ⟨seq.1,seq.2.change role number status⟩
    evidence := fun other => by
      rw [show (s.onAttempt init.length f).hasOutput other = s.hasOutput other from rfl,← sound.evidence other,
        onAttempt_attempts last,last,succeededOf_concat,succeededOf_concat]
      simp [unfinished,still] }

theorem not_mem_of_absent {role : String} (absent : s.hasOutput role = false) : role ∉ s.outputs.map (·.1) := by
  rw [← lookup_isSome,show (s.outputs.lookup role).isSome = false from absent]
  exact Bool.false_ne_true

/-- A role has an output after its success, and the others as before. -/
theorem succeed_hasOutput {role : String} (findings : List Finding) (absent : s.hasOutput role = false) (index : Nat) (other : String) :
    (s.succeed setup role index findings).hasOutput other = true ↔ other = role ∨ s.hasOutput other = true := by
  have new := not_mem_of_absent absent
  have perm : ((insertKey role findings s.outputs).map (·.1)).Perm (role :: s.outputs.map (·.1)) := (insertKey_perm new).map _
  rw [State.hasOutput,State.hasOutput,lookup_isSome,lookup_isSome]
  exact (perm.mem_iff).trans List.mem_cons

theorem succeed_attempts (role : String) (findings : List Finding) (last : s.report.attempts = init ++ [a]) :
    (s.succeed setup role init.length findings).report.attempts = init ++ [{ a with status := "succeeded" }] :=
  onAttempt_attempts last _

theorem extends_succeed {role : String} (findings : List Finding) (absent : s.hasOutput role = false)
    (last : s.report.attempts = init ++ [a]) : Extends s (s.succeed setup role init.length findings) :=
  ⟨fun other => by rw [succeed_attempts role findings last,last,countRole_concat,countRole_concat],
    fun other has => (succeed_hasOutput findings absent init.length other).mpr (.inr has)⟩

theorem Sound.succeed (sound : Sound setup s) {role : String} (known : role ∈ ROLES) (absent : s.hasOutput role = false)
    (last : s.report.attempts = init ++ [a]) (own : a.role = role) (unfinished : a.status ≠ "succeeded") {findings : List Finding}
    {again : List Finding} (valid : validate_output setup.texts (outputOf findings) setup.files = .ok again) :
    Sound setup (s.succeed setup role init.length findings) := by
  have seq := sound.sequenced
  rw [last,sequenced_concat] at seq
  have new := not_mem_of_absent absent
  have perm := insertKey_perm (v := findings) new
  have has := @succeed_hasOutput setup _ _ findings absent init.length
  exact { sound with
    sequenced := by
      rw [succeed_attempts role findings last]
      exact sequenced_concat.mpr ⟨seq.1,seq.2.change rfl rfl (show "succeeded" ∈ STATUSES by decide)⟩
    evidence := fun other => by
      have before := sound.evidence other
      rw [last,succeededOf_concat] at before
      simp only [unfinished,and_false,if_false,add_zero] at before
      rw [succeed_attempts role findings last,succeededOf_concat,before]
      simp only [has other,own,and_true]
      by_cases same : role = other
      · subst same
        simp [absent]
      · simp [same,Ne.symm same]
    completed := by
      show (s.report.completed_roles ++ [role]).Nodup
      refine List.nodup_append.mpr ⟨sound.completed,List.nodup_singleton role,?_⟩
      rintro other old last single rfl
      rw [List.mem_singleton.mp single] at old
      rw [(sound.roles role).mp old] at absent
      cases absent
    roles := fun other => by
      show other ∈ s.report.completed_roles ++ [role] ↔ _
      rw [has other,List.mem_append,List.mem_singleton,sound.roles other,or_comm]
    keys := (perm.map _).nodup_iff.mpr (List.nodup_cons.mpr ⟨new,sound.keys⟩)
    outputs := fun output member => by
      rcases List.mem_cons.mp (perm.mem_iff.mp member) with rfl | old
      · exact ⟨known,again,valid⟩
      · exact sound.outputs output old
    hashes := by
      show insertKey role (setup.hash findings) s.output_hashes = (insertKey role findings s.outputs).map _
      rw [sound.hashes,insertKey_mapValues] }

/-! ### Unknown outcomes -/

theorem unknownOutcome_false : s.unknownOutcome = false ↔ ∀ a ∈ s.report.attempts, a.status = "interrupted" → s.hasOutput a.role = true := by
  unfold State.unknownOutcome
  rw [List.any_eq_false]
  constructor
  · intro none a member interrupted
    by_contra absent
    exact none a member (by simp [interrupted,absent])
  · intro all a member bad
    simp only [Bool.and_eq_true,beq_iff_eq,Bool.not_eq_true'] at bad
    rw [all a member bad.1] at bad
    cases bad.2

/-- A last attempt that is not interrupted hides no unknown outcome. -/
theorem unknownOutcome_change {t : State} (settled : s.unknownOutcome = false) (last : s.report.attempts = init ++ [a]) {b : Attempt}
    (changed : t.report.attempts = init ++ [b]) (known : b.status ≠ "interrupted") (outputs : ∀ role, s.hasOutput role = true → t.hasOutput role = true) :
    t.unknownOutcome = false := by
  rw [unknownOutcome_false] at settled ⊢
  rw [changed]
  intro c member interrupted
  rcases List.mem_append.mp member with old | new
  · exact outputs c.role (settled c (by rw [last]; exact List.mem_append_left _ old) interrupted)
  · rw [List.mem_singleton.mp new] at interrupted
    exact absurd interrupted known

theorem unknownOutcome_start (settled : s.unknownOutcome = false) (role : String) : (s.start role).unknownOutcome = false := by
  rw [unknownOutcome_false] at settled ⊢
  intro c member interrupted
  rcases List.mem_append.mp member with old | new
  · exact settled c old interrupted
  · rw [List.mem_singleton.mp new] at interrupted
    simp at interrupted

end
end Daf.ReviewState
