import Mathlib.Data.Finset.Card
import Mathlib.Data.List.Nodup
import Mathlib.Logic.Relation
import Mathlib.Order.Lattice.Nat

/-!
Walks through a graph, one node after the other, with a queue that marks a node when it is put in and with a stack that marks it
when it is taken out. Both go to every node that can be reached from the start exactly once, the queue in the order of their
distance. The relation of the edges is arbitrary; the walks end where finitely many nodes are reached.
-/
namespace Daf.Traversals
universe u v w

/-! ### Distance -/

section
variable {α : Type u} (step : α → α → Prop) (start : α → Prop)

/-- So many steps away from a start. -/
inductive Away : Nat → α → Prop where
  | start {a : α} (here : start a) : Away 0 a
  | step {n : Nat} {a b : α} (away : Away n a) (edge : step a b) : Away (n+1) b

def Reached (a : α) : Prop := ∃ n, Away step start n a

/-- The fewest steps from a start. -/
noncomputable def distance (a : α) : Nat := sInf {n | Away step start n a}

variable {step start} {n : Nat} {a b : α}

theorem reached_iff : Reached step start a ↔ ∃ s, start s ∧ Relation.ReflTransGen step s a := by
  constructor
  · rintro ⟨n,away⟩
    induction away with
    | start here => exact ⟨_,here,.refl⟩
    | step _ edge ih =>
      obtain ⟨s,here,path⟩ := ih
      exact ⟨s,here,path.tail edge⟩
  · rintro ⟨s,here,path⟩
    induction path with
    | refl => exact ⟨0,.start here⟩
    | tail _ edge ih =>
      obtain ⟨n,away⟩ := ih
      exact ⟨n+1,.step away edge⟩

theorem Reached.next (reached : Reached step start a) (edge : step a b) : Reached step start b := by
  obtain ⟨n,away⟩ := reached
  exact ⟨n+1,.step away edge⟩

theorem Away.distance_le (away : Away step start n a) : distance step start a ≤ n := Nat.sInf_le away

theorem Reached.away (reached : Reached step start a) : Away step start (distance step start a) a := Nat.sInf_mem reached

theorem Reached.distance_next (reached : Reached step start a) (edge : step a b) : distance step start b ≤ distance step start a + 1 :=
  (reached.away.step edge).distance_le

/-- A node is a start, or follows one that is nearer. -/
theorem Reached.nearer (reached : Reached step start a) :
    start a ∨ ∃ b, Reached step start b ∧ step b a ∧ distance step start b < distance step start a := by
  have away := reached.away
  cases split : distance step start a with
  | zero =>
    rw [split] at away
    cases away with
    | start here => exact .inl here
  | succ n =>
    rw [split] at away
    cases away with
    | step before edge => exact .inr ⟨_,⟨n,before⟩,edge,Nat.lt_succ_of_le before.distance_le⟩

/-- A relation that carries starts and steps over carries distances over. -/
theorem Away.lift {β : Type v} {step' : β → β → Prop} {start' : β → Prop} {R : α → β → Prop}
    (starts : ∀ a, start a → ∃ b, R a b ∧ start' b) (steps : ∀ a a' b, R a b → step a a' → ∃ b', R a' b' ∧ step' b b')
    (away : Away step start n a) : ∃ b, R a b ∧ Away step' start' n b := by
  induction away with
  | start here =>
    obtain ⟨b,related,there⟩ := starts _ here
    exact ⟨b,related,.start there⟩
  | step _ edge ih =>
    obtain ⟨b,related,away⟩ := ih
    obtain ⟨b',related',edge'⟩ := steps _ _ b related edge
    exact ⟨b',related',.step away edge'⟩

end

/-! ### Taking one after the other -/

section
variable {α : Type u} {σ : Type v} (advance : σ → Option (α × σ))

/-- What comes out in so many steps, and the state behind them. -/
def collect : Nat → σ → List α × σ
  | 0,s => ([],s)
  | n+1,s =>
    match advance s with
    | none => ([],s)
    | some (a,s) => (a :: (collect n s).1,(collect n s).2)

variable {advance} {s : σ} {n : Nat}

theorem collect_none (ended : advance s = none) (n : Nat) : collect advance n s = ([],s) := by
  cases n with
  | zero => rfl
  | succ n => rw [collect,ended]

theorem collect_some {a : α} {s' : σ} (moved : advance s = some (a,s')) (n : Nat) :
    collect advance (n+1) s = (a :: (collect advance n s').1,(collect advance n s').2) := by
  rw [collect,moved]

/-- What every step keeps of what has come out and of the state, all steps keep. -/
theorem collect_induction {P : List α → σ → Prop} (step : ∀ done s a s', P done s → advance s = some (a,s') → P (done ++ [a]) s')
    (n : Nat) {done : List α} (now : P done s) : P (done ++ (collect advance n s).1) (collect advance n s).2 := by
  induction n generalizing s done with
  | zero =>
    exact (List.append_nil done).symm ▸ now
  | succ n ih =>
    cases moved : advance s with
    | none =>
      rw [collect_none moved,List.append_nil]
      exact now
    | some next =>
      have later := ih (step done s next.1 next.2 now moved)
      rw [List.append_assoc] at later
      rw [collect_some moved]
      exact later

/-- Unless the steps came to an end, each has brought one thing. -/
theorem collect_length (n : Nat) (s : σ) : advance (collect advance n s).2 = none ∨ (collect advance n s).1.length = n := by
  induction n generalizing s with
  | zero => exact .inr rfl
  | succ n ih =>
    cases moved : advance s with
    | none =>
      rw [collect_none moved]
      exact .inl moved
    | some next =>
      rw [collect_some moved]
      exact (ih next.2).imp_right fun size => by rw [List.length_cons,size]

/-- More steps than are needed change nothing. -/
theorem collect_more (ended : advance (collect advance n s).2 = none) (more : Nat) : collect advance (n + more) s = collect advance n s := by
  induction n generalizing s with
  | zero =>
    rw [Nat.zero_add]
    exact collect_none ended more
  | succ n ih =>
    rw [Nat.add_right_comm]
    cases moved : advance s with
    | none => rw [collect_none moved,collect_none moved]
    | some next =>
      rw [collect_some moved] at ended
      rw [collect_some moved,collect_some moved,ih ended]

/-- What is carried along beside a state changes nothing about the steps. -/
theorem collect_image {τ : Type w} {advance' : τ → Option (α × τ)} (f : σ → τ)
    (same : ∀ s, advance' (f s) = (advance s).map fun moved => (moved.1,f moved.2)) (n : Nat) (s : σ) :
    collect advance' n (f s) = ((collect advance n s).1,f (collect advance n s).2) := by
  induction n generalizing s with
  | zero => rfl
  | succ n ih =>
    cases moved : advance s with
    | none => rw [collect_none moved,collect_none (by rw [same,moved]; rfl)]
    | some next =>
      have image : advance' (f s) = some (next.1,f next.2) := by
        rw [same,moved]
        rfl
      rw [collect_some moved,collect_some image,ih next.2]

/-- Distinct things from a finite set come to an end within as many steps as the set has elements. -/
theorem collect_ends [DecidableEq α] {P : List α → σ → Prop} (step : ∀ done s a s', P done s → advance s = some (a,s') → P (done ++ [a]) s')
    (now : P [] s) {all : Finset α} (distinct : ∀ done s, P done s → done.Nodup ∧ ∀ a ∈ done, a ∈ all) (enough : all.card < n) :
    advance (collect advance n s).2 = none := by
  refine (collect_length n s).resolve_right fun size => ?_
  have kept := collect_induction step n now
  rw [List.nil_append] at kept
  obtain ⟨once,inside⟩ := distinct _ _ kept
  have few : (collect advance n s).1.toFinset ⊆ all := fun a member => inside a (List.mem_toFinset.mp member)
  have bound := Finset.card_le_card few
  rw [List.toFinset_card_of_nodup once,size] at bound
  omega

end

/-! ### A queue -/

section
variable {α : Type u} [DecidableEq α]

structure Breadth (α : Type u) where
  queue : List α
  visited : Finset α

/-- Put a node in that has not been seen. -/
def Breadth.push (s : Breadth α) (b : α) : Breadth α := if b ∈ s.visited then s else ⟨s.queue ++ [b],insert b s.visited⟩

def Breadth.advance (next : α → List α) (s : Breadth α) : Option (α × Breadth α) :=
  match s.queue with
  | [] => none
  | a :: rest => some (a,(next a).foldl Breadth.push { s with queue := rest })

def Breadth.begin (roots : List α) : Breadth α := roots.foldl Breadth.push ⟨[],∅⟩

/-- Of the nodes that are put in, those that have not been seen join the queue, each once. -/
theorem pushes (bs : List α) (s : Breadth α) : ∃ new, (bs.foldl Breadth.push s).queue = s.queue ++ new ∧ new.Nodup ∧
    (∀ b, b ∈ new ↔ b ∈ bs ∧ b ∉ s.visited) ∧ ∀ b, b ∈ (bs.foldl Breadth.push s).visited ↔ b ∈ s.visited ∨ b ∈ new := by
  induction bs generalizing s with
  | nil => exact ⟨[],by simp,List.nodup_nil,by simp,by simp⟩
  | cons b later ih =>
    rw [List.foldl_cons,Breadth.push]
    split_ifs with seen
    · obtain ⟨new,queue,distinct,fresh,visited⟩ := ih s
      refine ⟨new,queue,distinct,fun c => ?_,visited⟩
      rw [fresh c,List.mem_cons]
      constructor
      · exact fun ⟨member,unseen⟩ => ⟨.inr member,unseen⟩
      · rintro ⟨rfl | member,unseen⟩
        · exact absurd seen unseen
        · exact ⟨member,unseen⟩
    · obtain ⟨new,queue,distinct,fresh,visited⟩ := ih ⟨s.queue ++ [b],insert b s.visited⟩
      simp only [Finset.mem_insert,not_or] at fresh visited
      refine ⟨b :: new,by rw [queue]; simp,List.nodup_cons.mpr ⟨fun again => ((fresh b).mp again).2.1 rfl,distinct⟩,fun c => ?_,fun c => ?_⟩
      · rw [List.mem_cons,List.mem_cons,fresh c]
        constructor
        · rintro (rfl | ⟨member,-,unseen⟩)
          · exact ⟨.inl rfl,seen⟩
          · exact ⟨.inr member,unseen⟩
        · rintro ⟨rfl | member,unseen⟩
          · exact .inl rfl
          · by_cases same : c = b
            · exact .inl same
            · exact .inr ⟨member,same,unseen⟩
      · rw [visited c,List.mem_cons]
        constructor
        · rintro ((rfl | old) | new)
          · exact .inr (.inl rfl)
          · exact .inl old
          · exact .inr (.inr new)
        · rintro (old | rfl | new)
          · exact .inl (.inr old)
          · exact .inl (.inl rfl)
          · exact .inr new

variable (next : α → List α) (roots : List α)

abbrev Edge (a b : α) : Prop := b ∈ next a
abbrev Root (a : α) : Prop := a ∈ roots

/-- Of a walk with a queue: what has come out and what waits are the nodes that have been seen, in the order of their distance, of which
    those that wait have at most two that follow each other; what follows a node that has come out has been seen. -/
structure Spread (done : List α) (s : Breadth α) : Prop where
  visited : ∀ a, a ∈ s.visited ↔ a ∈ done ∨ a ∈ s.queue
  distinct : (done ++ s.queue).Nodup
  reached : ∀ a ∈ done ++ s.queue, Reached (Edge next) (Root roots) a
  started : ∀ a ∈ roots, a ∈ s.visited
  closed : ∀ a ∈ done, ∀ b ∈ next a, b ∈ s.visited
  sorted : (done ++ s.queue).Pairwise fun a b => distance (Edge next) (Root roots) a ≤ distance (Edge next) (Root roots) b
  band : ∀ a ∈ s.queue, ∀ b ∈ s.queue, distance (Edge next) (Root roots) b ≤ distance (Edge next) (Root roots) a + 1

variable {next roots} {done : List α} {s s' : Breadth α} {a b : α}

omit [DecidableEq α] in
/-- What is nearer than the first that waits has come out. -/
theorem Spread.settled (spread : Spread next roots done s) {rest : List α} (queue : s.queue = a :: rest) (n : Nat) :
    ∀ b, distance (Edge next) (Root roots) b = n → Reached (Edge next) (Root roots) b → n < distance (Edge next) (Root roots) a → b ∈ done := by
  induction n using Nat.strongRecOn with
  | _ n ih =>
    rintro b rfl reached near
    have seen : b ∈ s.visited := by
      rcases reached.nearer with root | ⟨c,before,edge,nearer⟩
      · exact spread.started b root
      · exact spread.closed c (ih _ nearer c rfl before (nearer.trans near)) b edge
    refine ((spread.visited b).mp seen).resolve_right fun waits => ?_
    have ordered := (List.pairwise_append.mp spread.sorted).2.1
    rw [queue] at waits ordered
    rcases List.mem_cons.mp waits with rfl | later
    · exact Nat.lt_irrefl _ near
    · exact Nat.not_lt.mpr ((List.pairwise_cons.mp ordered).1 b later) near

omit [DecidableEq α] in
/-- The first that waits is the nearest of those that wait. -/
theorem Spread.first (spread : Spread next roots done s) {rest : List α} (queue : s.queue = a :: rest) :
    ∀ b ∈ s.queue, distance (Edge next) (Root roots) a ≤ distance (Edge next) (Root roots) b := by
  intro b waits
  have ordered := (List.pairwise_append.mp spread.sorted).2.1
  rw [queue] at waits ordered
  rcases List.mem_cons.mp waits with rfl | later
  · exact Nat.le_refl _
  · exact (List.pairwise_cons.mp ordered).1 b later

omit [DecidableEq α] in
/-- Nothing that has been seen is two steps farther away than the first that waits. -/
theorem Spread.bound (spread : Spread next roots done s) {rest : List α} (queue : s.queue = a :: rest) :
    ∀ b ∈ done ++ s.queue, distance (Edge next) (Root roots) b ≤ distance (Edge next) (Root roots) a + 1 := by
  intro b there
  have waits : a ∈ s.queue := by rw [queue]; exact List.mem_cons_self
  rcases List.mem_append.mp there with out | later
  · exact ((List.pairwise_append.mp spread.sorted).2.2 b out a waits).trans (Nat.le_succ _)
  · exact spread.band a waits b later

omit [DecidableEq α] in
/-- What follows the first that waits and has not been seen is one step farther away. -/
theorem Spread.farther (spread : Spread next roots done s) {rest : List α} (queue : s.queue = a :: rest) (edge : b ∈ next a) (unseen : b ∉ s.visited) :
    Reached (Edge next) (Root roots) b ∧ distance (Edge next) (Root roots) b = distance (Edge next) (Root roots) a + 1 := by
  have reached := spread.reached a (List.mem_append_right _ (by rw [queue]; exact List.mem_cons_self))
  have reached' : Reached (Edge next) (Root roots) b := reached.next edge
  refine ⟨reached',Nat.le_antisymm (reached.distance_next edge) ?_⟩
  by_contra near
  rcases reached'.nearer with root | ⟨c,before,follows,nearer⟩
  · exact unseen (spread.started b root)
  · exact unseen (spread.closed c (spread.settled queue _ c rfl before (by omega)) b follows)

theorem Spread.advance (spread : Spread next roots done s) (moved : s.advance next = some (a,s')) : Spread next roots (done ++ [a]) s' := by
  cases queue : s.queue with
  | nil => simp [Breadth.advance,queue] at moved
  | cons head rest =>
    simp only [Breadth.advance,queue,Option.some.injEq,Prod.mk.injEq] at moved
    obtain ⟨rfl,rfl⟩ := moved
    obtain ⟨new,queue',distinct,fresh,visited⟩ := pushes (next head) { s with queue := rest }
    simp only at queue' fresh visited
    have all : done ++ [head] ++ ((next head).foldl Breadth.push { s with queue := rest }).queue = done ++ s.queue ++ new := by
      rw [queue',queue]
      simp
    have bound := spread.bound queue
    have farther := fun b there => spread.farther queue ((fresh b).mp there).1 ((fresh b).mp there).2
    refine ⟨fun b => ?_,?_,?_,?_,?_,?_,?_⟩
    · rw [visited b,spread.visited b,queue',queue]
      simp only [List.mem_append,List.mem_cons,List.not_mem_nil,or_false]
      tauto
    · rw [all]
      refine List.nodup_append.mpr ⟨spread.distinct,distinct,?_⟩
      rintro b old c there rfl
      exact ((fresh b).mp there).2 ((spread.visited b).mpr (List.mem_append.mp old))
    · intro b there
      rw [all] at there
      rcases List.mem_append.mp there with old | there
      · exact spread.reached b old
      · exact (farther b there).1
    · exact fun b root => (visited b).mpr (.inl (spread.started b root))
    · intro b out c edge
      rw [visited c]
      rcases List.mem_append.mp out with out | last
      · exact .inl (spread.closed b out c edge)
      · cases List.mem_singleton.mp last
        by_cases seen : c ∈ s.visited
        · exact .inl seen
        · exact .inr ((fresh c).mpr ⟨edge,seen⟩)
    · rw [all]
      refine List.pairwise_append.mpr ⟨spread.sorted,List.pairwise_of_forall_mem_list fun b there c later => ?_,fun b old c there => ?_⟩
      · rw [(farther b there).2,(farther c later).2]
      · rw [(farther c there).2]
        exact bound b old
    · -- Those that wait now are as far away as the node that came out, or one step farther.
      have range : ∀ b ∈ ((next head).foldl Breadth.push { s with queue := rest }).queue,
          distance (Edge next) (Root roots) head ≤ distance (Edge next) (Root roots) b ∧
            distance (Edge next) (Root roots) b ≤ distance (Edge next) (Root roots) head + 1 := by
        intro b there
        rw [queue'] at there
        rcases List.mem_append.mp there with old | there
        · have waits : b ∈ s.queue := queue ▸ List.mem_cons_of_mem head old
          exact ⟨spread.first queue b waits,bound b (List.mem_append_right _ waits)⟩
        · rw [(farther b there).2]
          exact ⟨Nat.le_succ _,Nat.le_refl _⟩
      intro b first c second
      have low := (range b first).1
      have high := (range c second).2
      omega

theorem Spread.begin (next : α → List α) (roots : List α) : Spread next roots [] (Breadth.begin roots) := by
  obtain ⟨new,queue,distinct,fresh,visited⟩ := pushes roots ⟨[],∅⟩
  simp only [List.nil_append,Finset.notMem_empty,not_false_eq_true,and_true,false_or] at queue fresh visited
  have root : ∀ a ∈ (Breadth.begin roots).queue, Away (Edge next) (Root roots) 0 a := by
    intro a there
    rw [Breadth.begin,queue] at there
    exact .start ((fresh a).mp there)
  refine ⟨fun a => ?_,?_,?_,?_,?_,?_,?_⟩
  · rw [Breadth.begin,visited,queue]
    simp
  · rw [Breadth.begin,queue]
    exact distinct
  · exact fun a there => ⟨0,root a there⟩
  · exact fun a member => (visited a).mpr ((fresh a).mpr member)
  · exact fun a out => absurd out List.not_mem_nil
  · refine List.pairwise_of_forall_mem_list fun a first b second => ?_
    exact (root a first).distance_le.trans (Nat.zero_le _)
  · exact fun a _ b second => (root b second).distance_le.trans (Nat.zero_le _)

theorem Breadth.ended (ended : s.advance next = none) : s.queue = [] := by
  cases queue : s.queue with
  | nil => rfl
  | cons head rest => simp [Breadth.advance,queue] at ended

/-- At the end everything that can be reached has come out. -/
theorem Spread.complete (spread : Spread next roots done s) (ended : s.advance next = none) (a : α) :
    a ∈ done ↔ Reached (Edge next) (Root roots) a := by
  have empty := Breadth.ended ended
  have out : ∀ b, b ∈ s.visited → b ∈ done := by
    intro b seen
    simpa [empty] using (spread.visited b).mp seen
  constructor
  · exact fun there => spread.reached a (List.mem_append_left _ there)
  · rintro ⟨n,away⟩
    induction away with
    | start here => exact out _ (spread.started _ here)
    | step _ edge ih => exact out _ (spread.closed _ ih _ edge)

/-- A walk with a queue ends, goes to all that can be reached and to each once, and to the nearest first. -/
theorem breadth_exact (next : α → List α) (roots : List α) {all : Finset α} (inside : ∀ a, Reached (Edge next) (Root roots) a → a ∈ all)
    {n : Nat} (enough : all.card < n) :
    (Breadth.advance next) (collect (Breadth.advance next) n (Breadth.begin roots)).2 = none ∧
    Spread next roots (collect (Breadth.advance next) n (Breadth.begin roots)).1 (collect (Breadth.advance next) n (Breadth.begin roots)).2 := by
  have step : ∀ done s a s', Spread next roots done s → Breadth.advance next s = some (a,s') → Spread next roots (done ++ [a]) s' :=
    fun _ _ _ _ spread moved => spread.advance moved
  refine ⟨collect_ends step (Spread.begin next roots) (fun done s spread => ?_) enough,?_⟩
  · exact ⟨(List.nodup_append.mp spread.distinct).1,fun a out => inside a (spread.reached a (List.mem_append_left _ out))⟩
  · have kept := collect_induction step n (Spread.begin next roots)
    rw [List.nil_append] at kept
    exact kept

/-- What a walk with a queue has seen at its end is what can be reached. -/
theorem breadth_visited (next : α → List α) (roots : List α) {all : Finset α} (inside : ∀ a, Reached (Edge next) (Root roots) a → a ∈ all)
    {n : Nat} (enough : all.card < n) (a : α) :
    a ∈ (collect (Breadth.advance next) n (Breadth.begin roots)).2.visited ↔ Reached (Edge next) (Root roots) a := by
  obtain ⟨ended,spread⟩ := breadth_exact next roots inside enough
  rw [← spread.complete ended,spread.visited,Breadth.ended ended]
  simp

end

/-! ### A stack -/

section
variable {α : Type u} [DecidableEq α]

/-- The stack stands with its top in front. -/
structure Depth (α : Type u) where
  stack : List α
  visited : Finset α

/-- Put a node on top that has not been seen. -/
def pile (visited : Finset α) (stack : List α) (b : α) : List α := if b ∈ visited then stack else b :: stack

/-- Take nodes off until one has not been seen; the first of those that follow it comes to lie on top. -/
def takeOff (next : α → List α) (visited : Finset α) : List α → Option (α × Depth α)
  | [] => none
  | a :: rest =>
    if a ∈ visited then takeOff next visited rest
    else some (a,⟨(next a).reverse.foldl (pile (insert a visited)) rest,insert a visited⟩)

def Depth.advance (next : α → List α) (s : Depth α) : Option (α × Depth α) := takeOff next s.visited s.stack

theorem mem_foldl_pile (visited : Finset α) (bs : List α) (stack : List α) (x : α) :
    x ∈ bs.foldl (pile visited) stack ↔ x ∈ stack ∨ x ∈ bs ∧ x ∉ visited := by
  induction bs generalizing stack with
  | nil => simp
  | cons b later ih =>
    rw [List.foldl_cons,ih,pile]
    split_ifs with seen
    · rw [List.mem_cons]
      constructor
      · exact Or.imp_right fun ⟨member,unseen⟩ => ⟨.inr member,unseen⟩
      · rintro (old | ⟨rfl | member,unseen⟩)
        · exact .inl old
        · exact absurd seen unseen
        · exact .inr ⟨member,unseen⟩
    · rw [List.mem_cons,List.mem_cons]
      constructor
      · rintro ((rfl | old) | ⟨member,unseen⟩)
        · exact .inr ⟨.inl rfl,seen⟩
        · exact .inl old
        · exact .inr ⟨.inr member,unseen⟩
      · rintro (old | ⟨rfl | member,unseen⟩)
        · exact .inl (.inr old)
        · exact .inl (.inl rfl)
        · exact .inr ⟨member,unseen⟩

variable (next : α → List α) (roots : List α)

/-- Of a walk with a stack: what has come out is what has been seen, and what follows it has come out or lies on the stack. -/
structure Deep (done : List α) (s : Depth α) : Prop where
  visited : ∀ a, a ∈ s.visited ↔ a ∈ done
  distinct : done.Nodup
  reached : ∀ a, a ∈ done ∨ a ∈ s.stack → Reached (Edge next) (Root roots) a
  started : ∀ a ∈ roots, a ∈ done ∨ a ∈ s.stack
  closed : ∀ a ∈ done, ∀ b ∈ next a, b ∈ done ∨ b ∈ s.stack

variable {next roots} {done stack : List α} {s s' : Depth α} {visited : Finset α} {a : α}

theorem takeOff_none (empty : takeOff next visited stack = none) : ∀ a ∈ stack, a ∈ visited := by
  induction stack with
  | nil => exact fun _ member => absurd member List.not_mem_nil
  | cons b rest ih =>
    rw [takeOff] at empty
    split_ifs at empty with seen
    exact List.forall_mem_cons.mpr ⟨seen,ih empty⟩

/-- What is taken off has not been seen, and all that lay above it has. -/
theorem takeOff_some (moved : takeOff next visited stack = some (a,s')) : a ∉ visited ∧ ∃ above rest, stack = above ++ a :: rest ∧
    (∀ b ∈ above, b ∈ visited) ∧ s' = ⟨(next a).reverse.foldl (pile (insert a visited)) rest,insert a visited⟩ := by
  induction stack with
  | nil => cases moved
  | cons b rest ih =>
    rw [takeOff] at moved
    split_ifs at moved with seen
    · obtain ⟨unseen,above,below,rfl,old,after⟩ := ih moved
      exact ⟨unseen,b :: above,below,rfl,List.forall_mem_cons.mpr ⟨seen,old⟩,after⟩
    · cases moved
      exact ⟨seen,[],rest,rfl,fun _ member => absurd member List.not_mem_nil,rfl⟩

theorem Deep.advance (deep : Deep next roots done s) (moved : s.advance next = some (a,s')) : Deep next roots (done ++ [a]) s' := by
  obtain ⟨unseen,above,rest,stack,old,rfl⟩ := takeOff_some moved
  have member : a ∈ s.stack := by simp [stack]
  have reached := deep.reached a (.inr member)
  -- What lay on the stack has come out or is still there.
  have kept : ∀ b, b ∈ s.stack → b ∈ done ++ [a] ∨ b ∈ (next a).reverse.foldl (pile (insert a s.visited)) rest := by
    intro b there
    rw [stack] at there
    rcases List.mem_append.mp there with higher | there
    · exact .inl (List.mem_append_left _ ((deep.visited b).mp (old b higher)))
    · rcases List.mem_cons.mp there with rfl | under
      · exact .inl (by simp)
      · exact .inr ((mem_foldl_pile _ _ _ _).mpr (.inl under))
  refine ⟨fun b => ?_,?_,?_,?_,?_⟩
  · rw [Finset.mem_insert,deep.visited b,List.mem_append,List.mem_singleton]
    exact or_comm
  · refine List.nodup_append.mpr ⟨deep.distinct,List.nodup_singleton a,?_⟩
    rintro b out c last rfl
    cases List.mem_singleton.mp last
    exact unseen ((deep.visited a).mpr out)
  · rintro b (out | there)
    · rcases List.mem_append.mp out with out | last
      · exact deep.reached b (.inl out)
      · cases List.mem_singleton.mp last
        exact reached
    · rcases (mem_foldl_pile _ _ _ _).mp there with under | ⟨follows,-⟩
      · exact deep.reached b (.inr (by simp [stack,under]))
      · exact reached.next (List.mem_reverse.mp follows)
  · intro b root
    rcases deep.started b root with out | there
    · exact .inl (List.mem_append_left _ out)
    · exact kept b there
  · intro b out c edge
    rcases List.mem_append.mp out with out | last
    · rcases deep.closed b out c edge with out | there
      · exact .inl (List.mem_append_left _ out)
      · exact kept c there
    · cases List.mem_singleton.mp last
      by_cases seen : c ∈ insert a s.visited
      · refine .inl (List.mem_append.mpr ?_)
        rcases Finset.mem_insert.mp seen with rfl | seen
        · exact .inr (List.mem_singleton.mpr rfl)
        · exact .inl ((deep.visited c).mp seen)
      · exact .inr ((mem_foldl_pile _ _ _ _).mpr (.inr ⟨List.mem_reverse.mpr edge,seen⟩))

omit [DecidableEq α] in
theorem Deep.begin (next : α → List α) (roots : List α) : Deep next roots [] ⟨roots,∅⟩ where
  visited _ := by simp
  distinct := List.nodup_nil
  reached a there := ⟨0,.start (there.resolve_left List.not_mem_nil)⟩
  started _ root := .inr root
  closed _ out := absurd out List.not_mem_nil

theorem Deep.complete (deep : Deep next roots done s) (ended : s.advance next = none) (a : α) : a ∈ done ↔ Reached (Edge next) (Root roots) a := by
  have out : ∀ b, b ∈ done ∨ b ∈ s.stack → b ∈ done := by
    rintro b (out | there)
    · exact out
    · exact (deep.visited b).mp (takeOff_none ended b there)
  constructor
  · exact fun there => deep.reached a (.inl there)
  · rintro ⟨n,away⟩
    induction away with
    | start here => exact out _ (deep.started _ here)
    | step _ edge ih => exact out _ (deep.closed _ ih _ edge)

/-- A walk with a stack ends, and goes to all that can be reached and to each once. -/
theorem depth_exact (next : α → List α) (roots : List α) {all : Finset α} (inside : ∀ a, Reached (Edge next) (Root roots) a → a ∈ all)
    {n : Nat} (enough : all.card < n) :
    (Depth.advance next) (collect (Depth.advance next) n ⟨roots,∅⟩).2 = none ∧
    Deep next roots (collect (Depth.advance next) n ⟨roots,∅⟩).1 (collect (Depth.advance next) n ⟨roots,∅⟩).2 := by
  have step : ∀ done s a s', Deep next roots done s → Depth.advance next s = some (a,s') → Deep next roots (done ++ [a]) s' :=
    fun _ _ _ _ deep moved => deep.advance moved
  refine ⟨collect_ends step (Deep.begin next roots) (fun done s deep => ?_) enough,?_⟩
  · exact ⟨deep.distinct,fun a out => inside a (deep.reached a (.inl out))⟩
  · have kept := collect_induction step n (Deep.begin next roots)
    rw [List.nil_append] at kept
    exact kept

end
end Daf.Traversals
