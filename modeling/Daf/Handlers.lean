import Mathlib.Data.Finset.Insert
import Mathlib.Data.List.AList
import Daf.Json
import Daf.Runs

/-!
Handlers that run once after a play if they have been notified, by their names or by events they listen to.
What is pending is kept by name, so that handlers with one name run together.
-/
namespace Daf.Handlers
open Daf.Json Daf.Runs

structure Handler where
  name : String
  module : String
  args : Value
  /-- More names that the handler responds to. -/
  listen : List String

def Handler.matches (h : Handler) (notification : String) : Bool := h.name = notification || h.listen.any (· = notification)

theorem matches_iff (h : Handler) (notification : String) : h.matches notification ↔ notification = h.name ∨ notification ∈ h.listen := by
  rw [Handler.matches,Bool.or_eq_true,decide_eq_true_iff,List.any_eq_true,eq_comm]
  simp

abbrev Index := AList fun _ : String => List Nat

def places (name_index : Index) (name : String) : List Nat := (name_index.lookup name).getD []

def Index.enter (name_index : Index) (name : String) (idx : Nat) : Index := name_index.insert name (places name_index name ++ [idx])

/-- The index leads from a notification to the handlers that match it. -/
structure HandlerChain where
  handlers : List Handler
  pending : Finset String
  name_index : Index
  indexed : ∀ name idx, idx ∈ places name_index name ↔ ∃ h, handlers[idx]? = some h ∧ h.matches name

theorem places_enter (name_index : Index) (name other : String) (idx place : Nat) :
    place ∈ places (name_index.enter name idx) other ↔ place ∈ places name_index other ∨ place = idx ∧ other = name := by
  rw [Index.enter,places]
  by_cases same : other = name
  · subst same
    simp [AList.lookup_insert]
  · rw [AList.lookup_insert_ne same]
    simp [places,same]

theorem places_listen (listen : List String) (name_index : Index) (other : String) (idx place : Nat) :
    place ∈ places (listen.foldl (fun index event => index.enter event idx) name_index) other ↔
      place ∈ places name_index other ∨ place = idx ∧ other ∈ listen := by
  induction listen generalizing name_index with
  | nil => simp
  | cons event listen ih =>
    rw [List.foldl_cons,ih,places_enter,List.mem_cons]
    tauto

namespace HandlerChain

def new : HandlerChain := ⟨[],∅,∅,fun name idx => by simp [places]⟩

def add (c : HandlerChain) (handler : Handler) : HandlerChain where
  handlers := c.handlers ++ [handler]
  pending := c.pending
  name_index := handler.listen.foldl (fun index event => index.enter event c.handlers.length) (c.name_index.enter handler.name c.handlers.length)
  indexed := by
    intro name idx
    rw [places_listen,places_enter,c.indexed name idx]
    rcases Nat.lt_trichotomy idx c.handlers.length with old | rfl | beyond
    · rw [List.getElem?_append_left old]
      simp [Nat.ne_of_lt old]
    · simp [matches_iff]
    · have none_there : (c.handlers ++ [handler])[idx]? = none := by simp; omega
      have none_before : c.handlers[idx]? = none := by simp; omega
      simp [none_there,none_before,Nat.ne_of_gt beyond]

def from_handlers (handlers : List Handler) : HandlerChain := handlers.foldl add new

/-- The handlers at the places of the index; there is one at each of them. -/
def notify (c : HandlerChain) (name : String) : HandlerChain where
  handlers := c.handlers
  pending :=
    match c.name_index.lookup name with
    | some indices => indices.foldl (fun pending idx => c.handlers[idx]?.elim pending fun h => insert h.name pending) c.pending
    | none => c.pending
  name_index := c.name_index
  indexed := c.indexed

def flush (c : HandlerChain) : List Handler × HandlerChain := (c.handlers.filter fun h => h.name ∈ c.pending,{ c with pending := ∅ })

def force_flush (c : HandlerChain) : List Handler × HandlerChain := (c.handlers.filter fun h => h.name ∈ c.pending,{ c with pending := ∅ })

end HandlerChain

inductive Request where
  | notify (name : String)
  | flush
  | force_flush

def perform (c : HandlerChain) : Request → HandlerChain
  | .notify name => c.notify name
  | .flush => c.flush.2
  | .force_flush => c.force_flush.2

/-- The notifications after the last time that everything was flushed. -/
def since (requests : List Request) : List String :=
  requests.foldl (fun names request => match request with | .notify name => names ++ [name] | .flush => [] | .force_flush => []) []

/-- Some notification is for the handler. -/
def Notified (names : List String) (h : Handler) : Prop := ∃ name ∈ names, h.matches name

instance (names : List String) : DecidablePred (Notified names) := fun h => inferInstanceAs (Decidable (∃ name ∈ names, h.matches name))

/-! ### What is pending -/

theorem mem_pending (handlers : List Handler) (indices : List Nat) (pending : Finset String) (name : String) :
    name ∈ indices.foldl (fun pending idx => handlers[idx]?.elim pending fun h => insert h.name pending) pending ↔
      name ∈ pending ∨ ∃ idx ∈ indices, ∃ h, handlers[idx]? = some h ∧ h.name = name := by
  induction indices generalizing pending with
  | nil => simp
  | cons idx indices ih =>
    rw [List.foldl_cons,ih]
    simp only [List.exists_mem_cons_iff]
    cases here : handlers[idx]? with
    | none => simp
    | some h =>
      simp only [Option.elim_some,Finset.mem_insert,Option.some.injEq,exists_eq_left',eq_comm (b := name)]
      tauto

/-- A notification makes the names of the handlers that match it pending. -/
theorem mem_notify (c : HandlerChain) (notification name : String) :
    name ∈ (c.notify notification).pending ↔ name ∈ c.pending ∨ ∃ h ∈ c.handlers, h.matches notification ∧ h.name = name := by
  have indexed := c.indexed notification
  rw [HandlerChain.notify]
  cases found : c.name_index.lookup notification with
  | none =>
    have unmatched : ¬ ∃ h ∈ c.handlers, h.matches notification ∧ h.name = name := by
      rintro ⟨h,member,matched,-⟩
      obtain ⟨idx,here⟩ := List.mem_iff_getElem?.mp member
      have place := (indexed idx).mpr ⟨h,here,matched⟩
      simp [places,found] at place
    simp [unmatched]
  | some indices =>
    simp only [mem_pending]
    refine or_congr Iff.rfl ?_
    have place (idx : Nat) : idx ∈ indices ↔ ∃ h, c.handlers[idx]? = some h ∧ h.matches notification := by
      simpa [places,found] using indexed idx
    constructor
    · rintro ⟨idx,member,h,here,named⟩
      obtain ⟨h',here',matched⟩ := (place idx).mp member
      obtain rfl := Option.some.inj (here.symm.trans here')
      exact ⟨h,List.mem_of_getElem? here,matched,named⟩
    · rintro ⟨h,member,matched,named⟩
      obtain ⟨idx,here⟩ := List.mem_iff_getElem?.mp member
      exact ⟨idx,(place idx).mpr ⟨h,here,matched⟩,h,here,named⟩

theorem from_handlers_handlers (handlers : List Handler) :
    (HandlerChain.from_handlers handlers).handlers = handlers ∧ (HandlerChain.from_handlers handlers).pending = ∅ := by
  have added (c : HandlerChain) : (handlers.foldl HandlerChain.add c).handlers = c.handlers ++ handlers ∧
    (handlers.foldl HandlerChain.add c).pending = c.pending := by
    induction handlers generalizing c with
    | nil => simp
    | cons h handlers ih =>
      rw [List.foldl_cons]
      obtain ⟨all,pending⟩ := ih (c.add h)
      exact ⟨by rw [all]; simp [HandlerChain.add],pending⟩
  exact added HandlerChain.new

theorem since_snoc (requests : List Request) (request : Request) :
    since (requests ++ [request]) = match request with | .notify name => since requests ++ [name] | .flush => [] | .force_flush => [] := by
  rw [since,List.foldl_append]
  rfl

/-- In every run the handlers stay, and pending are the names of those that a notification was for. -/
theorem run_pending (handlers : List Handler) (requests : List Request) :
    (run perform (HandlerChain.from_handlers handlers) requests).handlers = handlers ∧
    ∀ name, name ∈ (run perform (HandlerChain.from_handlers handlers) requests).pending ↔ ∃ h ∈ handlers, Notified (since requests) h ∧ h.name = name := by
  induction requests using List.reverseRecOn with
  | nil =>
    obtain ⟨all,pending⟩ := from_handlers_handlers handlers
    exact ⟨all,fun name => by simp [run,pending,since,Notified]⟩
  | append_singleton requests request ih =>
    obtain ⟨all,pending⟩ := ih
    rw [run_snoc,since_snoc]
    cases request with
    | notify notification =>
      refine ⟨all,fun name => ?_⟩
      rw [perform,mem_notify,pending,all]
      constructor
      · rintro (⟨h,member,⟨other,inside,matched⟩,named⟩ | ⟨h,member,matched,named⟩)
        · exact ⟨h,member,⟨other,List.mem_append_left _ inside,matched⟩,named⟩
        · exact ⟨h,member,⟨notification,by simp,matched⟩,named⟩
      · rintro ⟨h,member,⟨other,inside,matched⟩,named⟩
        rcases List.mem_append.mp inside with before | now
        · exact .inl ⟨h,member,⟨other,before,matched⟩,named⟩
        · obtain rfl := List.mem_singleton.mp now
          exact .inr ⟨h,member,matched,named⟩
    | flush => exact ⟨all,fun name => by simp [perform,HandlerChain.flush,Notified]⟩
    | force_flush => exact ⟨all,fun name => by simp [perform,HandlerChain.force_flush,Notified]⟩

/-- No handler that nothing was notified for has the name of one that something was notified for. -/
def NamesApart (handlers : List Handler) (names : List String) : Prop :=
  ∀ h ∈ handlers, ∀ other ∈ handlers, other.name = h.name → Notified names other → Notified names h

/-- A flush after any run leaves nothing pending, and returns exactly the handlers that were notified since the last one, in their order,
where no other handler has the name of one of them. -/
theorem flush_exact (handlers : List Handler) (requests : List Request) :
    let c := run perform (HandlerChain.from_handlers handlers) requests
    (c.flush.1 = handlers.filter (Notified (since requests)) ↔ NamesApart handlers (since requests)) ∧
    (c.force_flush.1 = handlers.filter (Notified (since requests)) ↔ NamesApart handlers (since requests)) ∧
    c.flush.2.pending = ∅ ∧ c.force_flush.2.pending = ∅ := by
  intro c
  obtain ⟨all,pending⟩ := run_pending handlers requests
  have exact_iff : c.flush.1 = handlers.filter (Notified (since requests)) ↔ NamesApart handlers (since requests) := by
    have flushed : c.flush.1 = handlers.filter fun h => h.name ∈ c.pending := by
      show c.handlers.filter _ = _
      rw [all]
    rw [flushed]
    constructor
    · intro same h member other member' named notified
      have inside : h ∈ handlers.filter fun h => h.name ∈ c.pending :=
        List.mem_filter.mpr ⟨member,decide_eq_true ((pending h.name).mpr ⟨other,member',notified,named⟩)⟩
      rw [same] at inside
      exact of_decide_eq_true (List.mem_filter.mp inside).2
    · intro apart
      refine List.filter_congr fun h member => decide_eq_decide.mpr ?_
      rw [pending h.name]
      constructor
      · rintro ⟨other,member',notified,named⟩
        exact apart h member other member' named notified
      · exact fun notified => ⟨h,member,notified,rfl⟩
  exact ⟨exact_iff,exact_iff,rfl,rfl⟩

/-- Two handlers of one name, of which one listens to an event. -/
def twins : List Handler := [⟨"x","command",.null,["e"]⟩,⟨"x","command",.null,[]⟩]

/-- Both are returned when the event is notified. -/
theorem twin_unnotified : ¬ ∀ (handlers : List Handler) (requests : List Request),
    let c := run perform (HandlerChain.from_handlers handlers) requests
    c.flush.1 = handlers.filter (Notified (since requests)) ∧ c.force_flush.1 = handlers.filter (Notified (since requests)) ∧
    c.flush.2.pending = ∅ ∧ c.force_flush.2.pending = ∅ := by
  intro claim
  have returned := congrArg List.length (claim twins [.notify "e"]).1
  exact absurd returned (by decide)

end Daf.Handlers
