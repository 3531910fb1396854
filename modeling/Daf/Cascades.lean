import Mathlib.Data.List.Nodup
import Mathlib.Data.Set.Basic
import Mathlib.Logic.Function.Basic
import Mathlib.Order.Bounds.Basic

/-!
Cascades over nodes with states. A node that has ended may strike others, and a waiting node that is struck falls, which
may strike others in turn. The nodes that fall are the least set that the rule closes. Nodes may end one after the other
with a cascade after each, or all before one cascade: the states are the same as long as no node ends that has ended before.
-/
namespace Daf.Cascades
universe u v

structure Rule (α : Type u) (σ : Type v) where
  waits : σ → Prop
  ended : σ → Prop
  /-- The state of a node that fell. -/
  fallen : σ
  /-- The first node, in this state, strikes the second. -/
  strikes : α → α → σ → Prop
  fallen_ended : ended fallen
  not_ended : ∀ s, waits s → ¬ ended s
  strikes_ended : ∀ a b s, strikes a b s → ended s

section
variable {α : Type u} {σ : Type v} (r : Rule α σ)

/-- A waiting node is struck by one that has ended, or by one of the set when it falls. -/
def Hit (s : α → σ) (S : Set α) (b : α) : Prop := r.waits (s b) ∧ ∃ a, r.strikes a b (s a) ∨ a ∈ S ∧ r.strikes a b r.fallen

def Closed (s : α → σ) (S : Set α) : Prop := ∀ b, Hit r s S b → b ∈ S

inductive Falls (s : α → σ) : α → Prop where
  | struck {a b : α} (waits : r.waits (s b)) (strikes : r.strikes a b (s a)) : Falls s b
  | next {a b : α} (waits : r.waits (s b)) (falls : Falls s a) (strikes : r.strikes a b r.fallen) : Falls s b

variable {r} {s t w w' : α → σ} {S : Set α} {a : α}

theorem Falls.waits (falls : Falls r s a) : r.waits (s a) := by
  cases falls with
  | struck waits _ => exact waits
  | next waits _ _ => exact waits

/-- What is struck by a node that has ended or that falls, falls. -/
theorem falls_of_hit (hit : Hit r s {b | Falls r s b} a) : Falls r s a := by
  obtain ⟨waits,b,strikes | ⟨falls,strikes⟩⟩ := hit
  · exact .struck waits strikes
  · exact .next waits falls strikes

theorem Falls.mem (falls : Falls r s a) (closed : Closed r s S) : a ∈ S := by
  induction falls with
  | struck waits strikes => exact closed _ ⟨waits,_,.inl strikes⟩
  | next waits _ strikes ih => exact closed _ ⟨waits,_,.inr ⟨ih,strikes⟩⟩

/-- The nodes that fall are the least closed set of waiting nodes. -/
theorem falls_isLeast (s : α → σ) : IsLeast {S : Set α | (∀ b ∈ S, r.waits (s b)) ∧ Closed r s S} {b | Falls r s b} :=
  ⟨⟨fun _ falls => falls.waits,fun _ hit => falls_of_hit hit⟩,fun _ closed _ falls => falls.mem closed.2⟩

theorem not_waits_fallen : ¬ r.waits r.fallen := fun waits => r.not_ended _ waits r.fallen_ended

variable (r) in
open Classical in
/-- The states when the cascade has come to rest. -/
noncomputable def spread (s : α → σ) (a : α) : σ := if Falls r s a then r.fallen else s a

theorem spread_falls (falls : Falls r s a) : spread r s a = r.fallen := if_pos falls

theorem spread_stays (stays : ¬ Falls r s a) : spread r s a = s a := if_neg stays

theorem spread_ended (ended : r.ended (s a)) : spread r s a = s a := spread_stays fun falls => r.not_ended _ falls.waits ended

/-- Nothing falls after a cascade. -/
theorem not_falls_spread (a : α) : ¬ Falls r (spread r s) a := by
  have unstruck : ∀ {a b}, r.waits (spread r s b) → ¬ r.strikes a b (spread r s a) := by
    intro a b waits strikes
    have stays : ¬ Falls r s b := fun falls => not_waits_fallen (spread_falls falls ▸ waits)
    rw [spread_stays stays] at waits
    by_cases falls : Falls r s a
    · rw [spread_falls falls] at strikes
      exact stays (.next waits falls strikes)
    · rw [spread_stays falls] at strikes
      exact stays (.struck waits strikes)
  intro falls
  induction falls with
  | struck waits strikes => exact unstruck waits strikes
  | next _ _ _ ih => exact ih

theorem spread_spread (s : α → σ) : spread r (spread r s) = spread r s := funext fun a => spread_stays (not_falls_spread a)

variable (r) in
/-- The nodes of a set end in states that are written before a cascade or after it, and none of them has ended by then. -/
structure Early (s w w' : α → σ) (U : Set α) : Prop where
  opened : ∀ b ∈ U, ¬ r.ended (spread r s b)
  same : ∀ b ∈ U, w' b = w b
  before : ∀ b, b ∉ U → w b = s b
  after : ∀ b, b ∉ U → w' b = spread r s b

section
variable {U : Set α} {b : α}

theorem Early.untouched (early : Early r s w w' U) (falls : Falls r s b) : b ∉ U :=
  fun inside => early.opened b inside (spread_falls falls ▸ r.fallen_ended)

theorem Early.outside (early : Early r s w w' U) (ended : r.ended (s b)) : b ∉ U :=
  fun inside => early.opened b inside (spread_ended ended ▸ ended)

theorem Early.fallen (early : Early r s w w' U) (falls : Falls r s b) : w' b = r.fallen := by
  rw [early.after b (early.untouched falls),spread_falls falls]

theorem Early.alike (early : Early r s w w' U) (stays : ¬ Falls r s b) : w' b = w b := by
  by_cases inside : b ∈ U
  · exact early.same b inside
  · rw [early.before b inside,early.after b inside,spread_stays stays]

/-- A node that waits after the early cascade did not fall in it. -/
theorem Early.stays (early : Early r s w w' U) (waits : r.waits (w' b)) : ¬ Falls r s b := by
  intro falls
  rw [early.fallen falls] at waits
  exact not_waits_fallen waits

theorem Early.falls (early : Early r s w w' U) (falls : Falls r s b) : Falls r w b := by
  induction falls with
  | struck waits strikes =>
    refine .struck ?_ (early.before _ (early.outside (r.strikes_ended _ _ _ strikes)) ▸ strikes)
    exact early.before _ (early.untouched (.struck waits strikes)) ▸ waits
  | next waits falls strikes ih =>
    refine .next ?_ ih strikes
    exact early.before _ (early.untouched (.next waits falls strikes)) ▸ waits

/-- What falls in the second cascade falls in the only one. -/
theorem Early.falls_later (early : Early r s w w' U) (falls : Falls r w' b) : Falls r w b := by
  induction falls with
  | @struck a b waits strikes =>
    rw [early.alike (early.stays waits)] at waits
    by_cases before : Falls r s a
    · rw [early.fallen before] at strikes
      exact .next waits (early.falls before) strikes
    · exact .struck waits (early.alike before ▸ strikes)
  | next waits _ strikes ih => exact .next (early.alike (early.stays waits) ▸ waits) ih strikes

/-- What falls in the only cascade falls in one of the two. -/
theorem Early.falls_either (early : Early r s w w' U) (falls : Falls r w b) : Falls r s b ∨ Falls r w' b := by
  induction falls with
  | @struck a b waits strikes =>
    by_cases before : Falls r s b
    · exact .inl before
    · rw [← early.alike before] at waits
      have stays : ¬ Falls r s a := by
        intro falls
        rw [early.before a (early.untouched falls)] at strikes
        exact r.not_ended _ falls.waits (r.strikes_ended _ _ _ strikes)
      exact .inr (.struck waits ((early.alike stays).symm ▸ strikes))
  | @next a b waits _ strikes ih =>
    by_cases before : Falls r s b
    · exact .inl before
    · rw [← early.alike before] at waits
      rcases ih with earlier | later
      · refine .inr (.struck waits (a := a) ?_)
        rw [early.fallen earlier]
        exact strikes
      · exact .inr (.next waits later strikes)

/-- A cascade before other nodes end changes nothing in the end, if none of these nodes has ended or fallen by then. -/
theorem Early.spread_eq (early : Early r s w w' U) : spread r w' = spread r w := by
  funext b
  by_cases before : Falls r s b
  · have there : w' b = r.fallen := early.fallen before
    rw [spread_falls (early.falls before),spread_ended (there ▸ r.fallen_ended),there]
  · by_cases falls : Falls r w b
    · rw [spread_falls falls,spread_falls ((early.falls_either falls).resolve_left before)]
    · rw [spread_stays falls,spread_stays fun later => falls (early.falls_later later),early.alike before]

end

end

/-! ### Nodes that end one after the other -/

section
variable {α : Type u} {σ : Type v} [DecidableEq α] {r : Rule α σ} {s : α → σ} {done other : List (α × σ)} {c : α × σ} {a : α}

/-- Write the states of nodes that end, one after the other. -/
def record (s : α → σ) (done : List (α × σ)) : α → σ := done.foldl (fun s c => Function.update s c.1 c.2) s

variable (r) in
/-- A cascade after each node that ends. -/
noncomputable def each (s : α → σ) (done : List (α × σ)) : α → σ := done.foldl (fun s c => spread r (Function.update s c.1 c.2)) s

variable (r) in
/-- Every node ends once, and before a cascade reaches it. -/
def Fresh (s : α → σ) : List (α × σ) → Prop
  | [] => True
  | c :: later => ¬ r.ended (s c.1) ∧ r.ended c.2 ∧ Fresh (spread r (Function.update s c.1 c.2)) later

theorem record_other (s : α → σ) (outside : a ∉ done.map (·.1)) : record s done a = s a := by
  induction done generalizing s with
  | nil => rfl
  | cons c later ih =>
    rw [List.map_cons,List.mem_cons,not_or] at outside
    obtain ⟨apart,rest⟩ := outside
    rw [record,List.foldl_cons]
    exact (ih _ rest).trans (Function.update_of_ne apart _ _)

theorem record_mem (s : α → σ) (distinct : (done.map (·.1)).Nodup) (member : c ∈ done) : record s done c.1 = c.2 := by
  induction done generalizing s with
  | nil => cases member
  | cons d later ih =>
    obtain ⟨fresh,distinct⟩ := List.nodup_cons.mp distinct
    rw [record,List.foldl_cons]
    rcases List.mem_cons.mp member with rfl | deeper
    · exact (record_other _ fresh).trans (Function.update_self _ _ _)
    · exact ih _ distinct deeper

/-- The order in which distinct nodes end does not matter for what is written. -/
theorem record_perm (s : α → σ) (distinct : (done.map (·.1)).Nodup) (perm : done.Perm other) : record s done = record s other := by
  funext a
  by_cases inside : a ∈ done.map (·.1)
  · obtain ⟨c,member,rfl⟩ := List.mem_map.mp inside
    rw [record_mem s distinct member,record_mem s ((perm.map (·.1)).nodup_iff.mp distinct) (perm.mem_iff.mp member)]
  · rw [record_other s inside,record_other s fun there => inside ((perm.map (·.1)).mem_iff.mpr there)]

/-- An end is recorded for nodes only that have not ended yet. -/
theorem Fresh.opened (fresh : Fresh r s done) : ∀ c ∈ done, ¬ r.ended (s c.1) := by
  induction done generalizing s with
  | nil => exact fun _ member => absurd member List.not_mem_nil
  | cons d later ih =>
    obtain ⟨here,ends,rest⟩ := fresh
    intro c member
    rcases List.mem_cons.mp member with rfl | deeper
    · exact here
    · intro ended
      have after := ih rest c deeper
      by_cases same : c.1 = d.1
      · exact here (same ▸ ended)
      · have kept : Function.update s d.1 d.2 c.1 = s c.1 := Function.update_of_ne same _ _
        rw [spread_ended (kept ▸ ended),kept] at after
        exact after ended

theorem Fresh.distinct (fresh : Fresh r s done) : (done.map (·.1)).Nodup := by
  induction done generalizing s with
  | nil => exact List.nodup_nil
  | cons d later ih =>
    obtain ⟨-,ends,rest⟩ := fresh
    refine List.nodup_cons.mpr ⟨fun again => ?_,ih rest⟩
    obtain ⟨c,member,same⟩ := List.mem_map.mp again
    have written : Function.update s d.1 d.2 c.1 = d.2 := by rw [same,Function.update_self]
    have ended : r.ended (Function.update s d.1 d.2 c.1) := by rw [written]; exact ends
    have after := rest.opened c member
    rw [spread_ended ended] at after
    exact after ended

/-- One cascade after all nodes have ended gives the states of a cascade after each. -/
theorem Fresh.each_eq (fresh : Fresh r s done) (nonempty : done ≠ []) : each r s done = spread r (record s done) := by
  induction done generalizing s with
  | nil => exact absurd rfl nonempty
  | cons c later ih =>
    obtain ⟨-,-,rest⟩ := fresh
    rcases eq_or_ne later [] with rfl | more
    · rfl
    · have last : each r s (c :: later) = spread r (record (spread r (Function.update s c.1 c.2)) later) := ih rest more
      rw [last]
      have early : Early r (Function.update s c.1 c.2) (record (Function.update s c.1 c.2) later)
          (record (spread r (Function.update s c.1 c.2)) later) {a | a ∈ later.map (·.1)} := by
        refine ⟨?_,?_,fun a outside => record_other _ outside,fun a outside => record_other _ outside⟩
        · intro a member
          obtain ⟨d,listed,rfl⟩ := List.mem_map.mp member
          exact rest.opened d listed
        · intro a member
          obtain ⟨d,listed,rfl⟩ := List.mem_map.mp member
          rw [record_mem _ rest.distinct listed]
          exact (record_mem _ rest.distinct listed).symm
      exact early.spread_eq

/-- Two orders in which the same nodes end give the same states. -/
theorem Fresh.order (first : Fresh r s done) (second : Fresh r s other) (perm : done.Perm other) : each r s done = each r s other := by
  rcases eq_or_ne done [] with rfl | nonempty
  · rw [perm.nil_eq]
  · have filled : other ≠ [] := fun empty => nonempty (empty ▸ perm).eq_nil
    rw [first.each_eq nonempty,second.each_eq filled,record_perm s first.distinct perm]

end
end Daf.Cascades
