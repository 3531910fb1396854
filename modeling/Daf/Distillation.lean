import Daf.ConsolidationSteps

/-!
Distilling happens at most once: over any runs of consolidation and compaction nothing but the first distilling of an episode
makes a memory that carries its tag, and whatever becomes of the two memories, their origin stays the same.
-/
namespace Daf.Distillation
open Daf.UuidText Daf.Memories Daf.Runs Daf.Consolidation Daf.ConsolidationSteps

section
variable {F : Type}

/-- A memory that was distilled from an episode. -/
structure Distilled (d episode : Memory F) : Prop where
  kind : d.kind = .Semantic
  source_agent : d.source_agent = episode.source_agent
  source_conversation : d.source_conversation = episode.source_conversation
  created_at : d.created_at = episode.created_at
  ttl : d.ttl = episode.ttl

/-- The memory has one that was distilled from it. -/
def has_distilled (s : Store F) (m : Memory F) : Bool := s.memories.any fun d => d.tags.contains (distilled_from m.id)

/-- Nothing in the store was distilled. -/
def Undistilled (s : Store F) : Prop := ∀ m ∈ s.memories, ∀ tag ∈ m.tags, isProvenance tag = false

/-- What the first store had as an episode, and what the store has of it now. -/
structure Once (first s : Store F) : Prop where
  episodes : ∀ e ∈ s.memories, e.kind = .Episodic → ∃ episode ∈ first.memories, episode.id = e.id ∧ SameOrigin e episode
  distilled : ∀ d ∈ s.memories, provenance d ≠ [] →
    ∃ episode ∈ first.memories, episode.kind = .Episodic ∧ provenance d = [distilled_from episode.id] ∧ Distilled d episode
  alone : ∀ d ∈ s.memories, ∀ d' ∈ s.memories, provenance d = provenance d' → provenance d = [] ∨ d = d'

variable {first s : Store F} {m m' : Memory F}

theorem SameOrigin.trans {a b c : Memory F} (one : SameOrigin a b) (other : SameOrigin b c) : SameOrigin a c :=
  ⟨one.kind.trans other.kind,one.source_agent.trans other.source_agent,one.source_conversation.trans other.source_conversation,
    one.provenance.trans other.provenance,one.created_at.trans other.created_at,one.ttl.trans other.ttl⟩

theorem Distilled.of_origin {d d' episode : Memory F} (distilled : Distilled d episode) (same : SameOrigin d' d) : Distilled d' episode :=
  ⟨same.kind.trans distilled.kind,same.source_agent.trans distilled.source_agent,same.source_conversation.trans distilled.source_conversation,
    same.created_at.trans distilled.created_at,same.ttl.trans distilled.ttl⟩

theorem mem_provenance {m : Memory F} {id : Uuid} : distilled_from id ∈ provenance m ↔ distilled_from id ∈ m.tags := by
  rw [provenance,List.mem_filter,and_iff_left (isProvenance_distilled_from id)]

theorem Undistilled.provenance (clean : Undistilled s) (stored : m ∈ s.memories) : provenance m = [] :=
  List.filter_eq_nil_iff.mpr fun tag member => by simp [clean m stored tag member]

theorem Undistilled.once (clean : Undistilled first) : Once first first where
  episodes e stored _ := ⟨e,stored,rfl,rfl,rfl,rfl,rfl,rfl,rfl⟩
  distilled _ stored tagged := absurd (clean.provenance stored) tagged
  alone _ stored _ _ _ := .inl (clean.provenance stored)

/-- A rewrite that leaves the origin of a memory. -/
theorem Once.rewrite (once : Once first s) (stored : s.retrieve m.id = some m) (id : m'.id = m.id) (same : SameOrigin m' m) : Once first (s.insert m') := by
  have there := retrieve_mem stored
  have apart : ∀ d ∈ s.memories, d.id ≠ m'.id → d ≠ m := fun d _ differs equal => differs (by rw [equal,id])
  constructor
  · intro e member episodic
    rcases mem_insert.mp member with rfl | ⟨old,-⟩
    · obtain ⟨episode,origin,named,as_it_was⟩ := once.episodes m there (same.kind ▸ episodic)
      exact ⟨episode,origin,named.trans id.symm,SameOrigin.trans same as_it_was⟩
    · exact once.episodes e old episodic
  · intro d member tagged
    rcases mem_insert.mp member with rfl | ⟨old,-⟩
    · rw [same.provenance] at tagged ⊢
      obtain ⟨episode,origin,kind,tags,distilled⟩ := once.distilled m there tagged
      exact ⟨episode,origin,kind,tags,distilled.of_origin same⟩
    · exact once.distilled d old tagged
  · intro d member d' member' equal
    rcases mem_insert.mp member with rfl | ⟨old,differs⟩ <;> rcases mem_insert.mp member' with rfl | ⟨old',differs'⟩
    · exact .inr rfl
    · rw [same.provenance] at equal ⊢
      exact .inl ((once.alone m there d' old' equal).resolve_right fun both => apart d' old' differs' both.symm)
    · rw [same.provenance] at equal
      exact .inl ((once.alone d old m there equal).resolve_right (apart d old differs))
    · exact once.alone d old d' old' equal

theorem Once.remove (once : Once first s) (id : Uuid) : Once first (s.remove id) where
  episodes e stored := once.episodes e (mem_remove.mp stored).1
  distilled d stored := once.distilled d (mem_remove.mp stored).1
  alone d stored d' stored' := once.alone d (mem_remove.mp stored).1 d' (mem_remove.mp stored').1

section
variable [LinearOrder F] {scores : Scores F} {config : ConsolidationConfig F} {manager : ManagerConfig F}

/-- What is distilled of an episode of the first store is the only memory with its tag, whichever id was drawn for it. -/
theorem Once.create {now : Int} {drawn : Uuid} {episode : Memory F} (once : Once first s) (clean : Undistilled first) (wanted : Wanted scores s m)
    (origin : episode ∈ first.memories) (named : episode.id = m.id) (same : SameOrigin m episode) : Once first (s.insert (distillate scores now drawn m)) := by
  have tags : provenance (distillate scores now drawn m) = [distilled_from m.id] := by
    have none : m.tags.filter isProvenance = [] := same.provenance.trans (clean.provenance origin)
    have added : (distillate scores now drawn m).tags = m.tags ++ [distilled_from m.id] := rfl
    rw [provenance,added,List.filter_append,none,List.nil_append,List.filter_cons_of_pos (isProvenance_distilled_from m.id),List.filter_nil]
  have new : ∀ old ∈ s.memories, provenance old ≠ [distilled_from m.id] := by
    intro old stored equal
    exact wanted.first old stored (mem_provenance.mp (by rw [equal]; exact List.mem_singleton_self _))
  constructor
  · intro e member episodic
    rcases mem_insert.mp member with rfl | ⟨old,-⟩
    · cases episodic
    · exact once.episodes e old episodic
  · intro d member tagged
    rcases mem_insert.mp member with rfl | ⟨old,-⟩
    · exact ⟨episode,origin,same.kind.symm.trans wanted.kind,by rw [tags,named],rfl,same.source_agent,same.source_conversation,same.created_at,same.ttl⟩
    · exact once.distilled d old tagged
  · intro d member d' member' equal
    rcases mem_insert.mp member with rfl | ⟨old,-⟩ <;> rcases mem_insert.mp member' with rfl | ⟨old',-⟩
    · exact .inr rfl
    · exact absurd (equal.symm.trans tags) (new d' old')
    · exact absurd (equal.trans tags) (new d old)
    · exact once.alone d old d' old' equal

/-- No two memories that were distilled are merged: what is merged was not, and leaves the origin of its keeper. -/
theorem once_pair {memories : List (Memory F)} {before : Store F} (known : Once first before) (stored : ∀ m ∈ memories, m ∈ before.memories) :
    PairKeeps scores config (Once first) memories := by
  intro s i first_one j second apart similar kept read once
  simp only [alike,Bool.and_eq_true,decide_eq_true_eq] at similar
  have none : provenance j = [] := by
    rw [← similar.1.2]
    exact (known.alone i (stored i first_one) j (stored j second) similar.1.2).resolve_right fun equal => apart (by rw [equal])
  have tags : provenance (absorb kept j) = provenance kept := by
    refine provenance_unionTags fun tag member tagged => ?_
    have listed : tag ∈ provenance j := List.mem_filter.mpr ⟨member,tagged⟩
    rw [none] at listed
    cases listed
  have current : s.retrieve kept.id = some kept := by rw [retrieve_id read,read]
  have absorbed : Once first (s.insert (absorb kept j)) := once.rewrite current rfl ⟨rfl,rfl,rfl,tags,rfl,rfl⟩
  exact absorbed.remove j.id

theorem once_step {k : Knowledge F} (clean : Undistilled first) (event : Event) (once : Once first k.store) :
    Once first (k.step scores config manager event).store := by
  cases event with
  | compact out =>
    exact compact_keeps (fun s m _ _ once => once.remove m.id) (fun s m stored once => once.rewrite stored rfl ⟨rfl,rfl,rfl,rfl,rfl,rfl⟩) once
  | consolidate out =>
    have reviewed : ∀ m ∈ recent scores config out k.store, m ∈ k.store.memories := fun m member => retrieve_mem (recent_stored member)
    have distilled : Once first (mergeStart scores config out k).store := by
      refine distill_keeps (fun s m member wanted once' => ?_) once
      obtain ⟨episode,origin,named,same⟩ := once.episodes m (reviewed m member) wanted.kind
      exact once'.create clean wanted origin named same
    refine consolidate_keeps (fun s m stored once => once.rewrite stored rfl ⟨rfl,rfl,rfl,rfl,rfl,rfl⟩) ?_
    exact merge_keeps (once_pair once reviewed) (recent_distinct scores config out k.store) distilled

omit [LinearOrder F] in
/-- Of an episode that was stored at first there is at most one memory that was distilled from it, and it is what was. -/
theorem Once.unique (once : Once first s) {episode d : Memory F} (origin : episode ∈ first.memories) (stored : d ∈ s.memories)
    (tagged : distilled_from episode.id ∈ d.tags) : Distilled d episode ∧ ∀ d' ∈ s.memories, distilled_from episode.id ∈ d'.tags → d' = d := by
  have own : ∀ d ∈ s.memories, distilled_from episode.id ∈ d.tags → provenance d = [distilled_from episode.id] ∧ Distilled d episode := by
    intro d stored tagged
    have listed := mem_provenance.mpr tagged
    obtain ⟨other,origin',-,tags,distilled⟩ := once.distilled d stored (List.ne_nil_of_mem listed)
    rw [tags,List.mem_singleton] at listed
    obtain rfl := List.inj_on_of_nodup_map first.distinct origin origin' (distilled_from_injective listed)
    exact ⟨tags,distilled⟩
  obtain ⟨tags,distilled⟩ := own d stored tagged
  refine ⟨distilled,fun d' stored' tagged' => ?_⟩
  obtain ⟨tags',-⟩ := own d' stored' tagged'
  refine (once.alone d' stored' d stored (tags'.trans tags.symm)).resolve_left fun none => ?_
  rw [none] at tags'
  cases tags'

/-- A batch is as if it were without the memories that have one already, when the ids that are drawn are not in use. -/
theorem distill_again {out : Surroundings} {memories : List (Memory F)} (unused : ∀ m ∈ memories, s.retrieve (out.draw m.id) = none) :
    distill_batch scores out s memories = distill_batch scores out s (memories.filter fun m => !has_distilled s m) := by
  have loop : ∀ state : Store F × List Uuid, (∀ d ∈ s.memories, d ∈ state.1.memories) →
      memories.foldl (distillOne scores out) state = (memories.filter fun m => !has_distilled s m).foldl (distillOne scores out) state := by
    induction memories with
    | nil => exact fun _ _ => rfl
    | cons m memories ih =>
      intro state there
      have later := ih fun m member => unused m (List.mem_cons_of_mem _ member)
      cases has : has_distilled s m with
      | true =>
        obtain ⟨d,stored,tagged⟩ := List.any_eq_true.mp has
        have skips : distillOne scores out state m = state := distillOne_skips fun wanted =>
          wanted.first d (there d stored) (List.contains_iff_mem.mp tagged)
        rw [List.foldl_cons,skips,later state there,List.filter_cons_of_neg (by simp [has])]
      | false =>
        rw [List.filter_cons_of_pos (by simp [has]),List.foldl_cons,List.foldl_cons]
        refine later _ fun d stored => ?_
        by_cases wanted : Wanted scores state.1 m
        · rw [distillOne_wanted wanted]
          refine mem_insert.mpr (.inr ⟨there d stored,fun equal => ?_⟩)
          have found := retrieve_of_mem stored
          rw [equal,show (distillate scores out.now (out.draw m.id) m).id = out.draw m.id from rfl,unused m List.mem_cons_self] at found
          cases found
        · rw [distillOne_skips wanted]
          exact there d stored
  exact loop (s,[]) fun d stored => stored

/-- Of every episode that is or was stored there is at most one memory with its tag, of the episode's origin, and distilling again
    creates nothing for those that have one. The ids that are drawn for it are not in use. -/
structure AtMostOnce (scores : Scores F) (before after : Store F) : Prop where
  unique : ∀ e, e.kind = .Episodic → e ∈ before.memories ∨ e ∈ after.memories → ∀ d ∈ after.memories, distilled_from e.id ∈ d.tags →
    Distilled d e ∧ ∀ d' ∈ after.memories, distilled_from e.id ∈ d'.tags → d' = d
  again : ∀ out memories, (∀ m ∈ memories, after.retrieve (out.draw m.id) = none) →
    distill_batch scores out after memories = distill_batch scores out after (memories.filter fun m => !has_distilled after m)

end
end

/-- Over any runs of consolidation and compaction an episode is distilled at most once. -/
theorem distilled_once {F : Type} [LinearOrder F] (scores : Scores F) (config : ConsolidationConfig F) (manager : ManagerConfig F) (k : Knowledge F)
    (clean : Undistilled k.store) (events : List Event) : AtMostOnce scores k.store (run (Knowledge.step scores config manager) k events).store := by
  have once : Once k.store (run (Knowledge.step scores config manager) k events).store :=
    invariant (I := fun after : Knowledge F => Once k.store after.store) (fun after event once => once_step clean event once) clean.once events
  refine ⟨fun e episodic stored d there tagged => ?_,fun out memories unused => distill_again unused⟩
  have known : ∃ episode ∈ k.store.memories, episode.id = e.id ∧ SameOrigin e episode := by
    rcases stored with before | after
    · exact ⟨e,before,rfl,rfl,rfl,rfl,rfl,rfl,rfl⟩
    · exact once.episodes e after episodic
  obtain ⟨episode,origin,named,same⟩ := known
  rw [← named] at tagged ⊢
  obtain ⟨distilled,unique⟩ := once.unique origin there tagged
  exact ⟨⟨distilled.kind,distilled.source_agent.trans same.source_agent.symm,distilled.source_conversation.trans same.source_conversation.symm,
    distilled.created_at.trans same.created_at.symm,distilled.ttl.trans same.ttl.symm⟩,unique⟩

def episode : Memory Nat := ⟨1,.Episodic,.Warm,.string "saw it",0,0,2,50,["seen"],none,none,none⟩
def diary : Store Nat := ⟨[episode],by decide⟩

theorem diary_once : AtMostOnce plainScores diary (run (Knowledge.step plainScores plainConsolidation plainManager) ⟨diary,[],0⟩
    [.consolidate (at_time 5),.compact (at_time 6),.consolidate (at_time 7)]).store :=
  distilled_once plainScores plainConsolidation plainManager ⟨diary,[],0⟩ (by unfold Undistilled; decide) _

example : (distill_batch plainScores (at_time 5) diary diary.memories).2 = [101] := by
  have wanted : Wanted plainScores diary episode := ⟨rfl,by decide,by decide⟩
  have creates : distillOne plainScores (at_time 5) (diary,[]) episode = _ := distillOne_wanted wanted
  exact congrArg Prod.snd creates

end Daf.Distillation
