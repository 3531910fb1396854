import Daf.Runs
import Mathlib.Data.List.AList
import Mathlib.Data.String.Basic
import Mathlib.Tactic.SplitIfs
import Mathlib.Data.List.Range
import Mathlib.Data.List.Induction

/-!
The bus of in-process channels: the first call for two names makes a channel and leaves its other end
for the second call.
-/
namespace Daf.InProcBus
open Daf.Runs

def sort (a b : String) : String × String := if b < a then (b,a) else (a,b)

/-- The two names in order, each with its length in bytes before it. -/
def channelKey (a b : String) : List Char :=
  let parts := sort a b
  Nat.toDigits 10 parts.1.utf8ByteSize ++ ':' :: (parts.1.toList ++ (Nat.toDigits 10 parts.2.utf8ByteSize ++ ':' :: parts.2.toList))

/-- One side of a channel, by the wires that it sends on and listens to. -/
structure InProcConnection where
  tx : Nat
  rx : Nat
  peer_addr : String
deriving DecidableEq,Repr

structure Bus where
  /-- The ends that are not claimed. -/
  pending : AList (fun _ : List Char => InProcConnection)
  /-- How many pairs have been made. -/
  pairs : Nat

def Bus.new : Bus := ⟨∅,0⟩

/-- A matched pair, on two wires of its own. -/
def pair (n : Nat) : InProcConnection × InProcConnection := (⟨2 * n,2 * n + 1,"inproc:a"⟩,⟨2 * n + 1,2 * n,"inproc:b"⟩)

def Bus.connect (bus : Bus) (name peer : String) : InProcConnection × Bus :=
  let key := channelKey name peer
  match bus.pending.lookup key with
  | some conn => (conn,{ bus with pending := bus.pending.erase key })
  | none =>
    let (a,b) := pair bus.pairs
    (a,⟨bus.pending.insert key b,bus.pairs + 1⟩)

def Bus.pendingCount (bus : Bus) : Nat := bus.pending.keys.length

/-! ### Calls one after another -/

abbrev Call := String × String

structure World where
  bus : Bus
  /-- The calls so far, with the ends that they were given. -/
  handed : List (Call × InProcConnection)

def World.empty : World := ⟨Bus.new,[]⟩

def World.step (w : World) (c : Call) : World :=
  let (conn,bus) := w.bus.connect c.1 c.2
  ⟨bus,w.handed ++ [(c,conn)]⟩

def World.run (calls : List Call) : World := Runs.run World.step World.empty calls

/-- What one sends the other reads. -/
def Joined (e f : InProcConnection) : Prop := e.tx = f.rx ∧ f.tx = e.rx

/-! ### The key names the two agents -/

theorem digits_ne_colon {n : Nat} : ∀ c ∈ Nat.toDigits 10 n, c ≠ ':' := by
  intro c inside same
  have digit := Nat.isDigit_of_mem_toDigits (by decide) (by decide) inside
  rw [same] at digit
  exact absurd digit (by decide)

theorem digits_inj {m n : Nat} {r s : List Char} (same : Nat.toDigits 10 m ++ ':' :: r = Nat.toDigits 10 n ++ ':' :: s) : m = n ∧ r = s := by
  have takes : ∀ (k : Nat) (rest : List Char), (Nat.toDigits 10 k ++ ':' :: rest).takeWhile (· ≠ ':') = Nat.toDigits 10 k := by
    intro k rest
    rw [List.takeWhile_append_of_pos (by simpa using digits_ne_colon)]
    simp
  have digits : Nat.toDigits 10 m = Nat.toDigits 10 n := by rw [← takes m r,← takes n s,same]
  constructor
  · have numbers := congrArg (Nat.ofDigitChars 10 · 0) digits
    simpa only [Nat.ofDigitChars_ten_toDigits] using numbers
  · rw [digits] at same
    exact (List.cons.inj (List.append_cancel_left same)).2

theorem append_eq_of_size {a b : String} {c : List Char} (sizes : a.utf8ByteSize = b.utf8ByteSize) (longer : b.toList = a.toList ++ c) : c = [] := by
  have text : b = a ++ String.ofList c := by
    rw [← String.toList_inj,String.toList_append,String.toList_ofList,longer]
  have size := congrArg String.utf8ByteSize text
  rw [String.utf8ByteSize_append] at size
  have none : String.ofList c = "" := String.utf8ByteSize_eq_zero_iff.mp (by omega)
  rw [← String.toList_ofList (l := c),none]
  rfl

theorem prefix_inj {a b : String} {r s : List Char} (sizes : a.utf8ByteSize = b.utf8ByteSize) (same : a.toList ++ r = b.toList ++ s) : a = b ∧ r = s := by
  rcases List.append_eq_append_iff.mp same with ⟨c,longer,rest⟩ | ⟨c,longer,rest⟩
  · have none := append_eq_of_size sizes longer
    subst none
    exact ⟨String.toList_inj.mp (by simpa using longer.symm),rest⟩
  · have none := append_eq_of_size sizes.symm longer
    subst none
    exact ⟨String.toList_inj.mp (by simpa using longer),rest.symm⟩

theorem part_inj {a b : String} {r s : List Char}
    (same : Nat.toDigits 10 a.utf8ByteSize ++ ':' :: (a.toList ++ r) = Nat.toDigits 10 b.utf8ByteSize ++ ':' :: (b.toList ++ s)) : a = b ∧ r = s := by
  obtain ⟨sizes,texts⟩ := digits_inj same
  exact prefix_inj sizes texts

/-- Calls with the names that way round or the other. -/
def SameNames (c d : String × String) : Prop := d = c ∨ d = c.swap

theorem sort_eq_iff (c d : String × String) : sort c.1 c.2 = sort d.1 d.2 ↔ SameNames c d := by
  obtain ⟨a,b⟩ := c
  obtain ⟨a',b'⟩ := d
  unfold sort SameNames
  constructor
  · intro same
    split_ifs at same <;> cases same
    · exact .inl rfl
    · exact .inr rfl
    · exact .inr rfl
    · exact .inl rfl
  · rintro (same | same)
    · cases same
      rfl
    · cases same
      rcases lt_trichotomy a b with below | rfl | above
      · simp [below,lt_asymm below]
      · rfl
      · simp [above,lt_asymm above]

theorem channelKey_eq_iff (c d : String × String) : channelKey c.1 c.2 = channelKey d.1 d.2 ↔ SameNames c d := by
  rw [← sort_eq_iff]
  constructor
  · intro same
    obtain ⟨first,rest⟩ := part_inj same
    obtain ⟨second,-⟩ := part_inj (r := []) (s := []) (by simpa using rest)
    exact Prod.ext first second
  · intro same
    unfold channelKey
    rw [same]

/-! ### Every end is handed out once or still waits -/

/-- All the ends made so far. -/
def ends (n : Nat) : List InProcConnection := (List.range n).flatMap (fun k => [(pair k).1,(pair k).2])

/-- An end was handed out once, or is not claimed yet. -/
def Kept (w : World) : Prop := List.Perm (w.handed.map Prod.snd ++ w.bus.pending.entries.map Sigma.snd) (ends w.bus.pairs)

theorem ends_succ (n : Nat) : ends (n + 1) = ends n ++ [(pair n).1,(pair n).2] := by
  unfold ends
  rw [List.range_succ,List.flatMap_append]
  simp

theorem ends_tx (n : Nat) : (ends n).map InProcConnection.tx = List.range (2 * n) := by
  induction n with
  | zero => rfl
  | succ n ih =>
    rw [ends_succ,List.map_append,ih]
    show List.range (2 * n) ++ [2 * n,2 * n + 1] = List.range (2 * n + 1 + 1)
    rw [List.range_succ,List.range_succ,List.append_assoc]
    rfl

theorem ends_nodup (n : Nat) : (ends n).Nodup := List.Nodup.of_map InProcConnection.tx (by rw [ends_tx]; exact List.nodup_range)

theorem tx_lt {n : Nat} {e : InProcConnection} (made : e ∈ ends n) : e.tx < 2 * n := by
  have inside := List.mem_map_of_mem (f := InProcConnection.tx) made
  rw [ends_tx] at inside
  exact List.mem_range.mp inside

theorem end_of_tx {n : Nat} {e f : InProcConnection} (made : e ∈ ends n) (made' : f ∈ ends n) (same : e.tx = f.tx) : e = f :=
  List.inj_on_of_nodup_map (by rw [ends_tx]; exact List.nodup_range) made made' same

/-- A call claims the end that waits for it, or makes a pair and leaves one end. -/
theorem step_cases (w : World) (c : Call) :
    (∃ e, w.bus.pending.lookup (channelKey c.1 c.2) = some e ∧
      w.step c = ⟨{ w.bus with pending := w.bus.pending.erase (channelKey c.1 c.2) },w.handed ++ [(c,e)]⟩) ∨
    (w.bus.pending.lookup (channelKey c.1 c.2) = none ∧
      w.step c = ⟨⟨w.bus.pending.insert (channelKey c.1 c.2) (pair w.bus.pairs).2,w.bus.pairs + 1⟩,w.handed ++ [(c,(pair w.bus.pairs).1)]⟩) := by
  unfold World.step Bus.connect
  cases found : w.bus.pending.lookup (channelKey c.1 c.2) with
  | some e => exact .inl ⟨e,rfl,by simp only [found]⟩
  | none => exact .inr ⟨rfl,by simp only [found]⟩

theorem entries_erase {pending : AList (fun _ : List Char => InProcConnection)} {key : List Char} {e : InProcConnection} (found : pending.lookup key = some e) :
    List.Perm (pending.entries.map Sigma.snd) (e :: (pending.erase key).entries.map Sigma.snd) := by
  have inside : key ∈ pending.entries.keys := AList.lookup_isSome.mp (by rw [found]; rfl)
  obtain ⟨b,before,after,-,whole,rest⟩ := List.exists_of_kerase inside
  have same : b = e := by
    have member : (⟨key,b⟩ : Sigma fun _ : List Char => InProcConnection) ∈ pending.entries := whole ▸ by simp
    exact Option.some.inj ((AList.mem_lookup_iff.mpr member).symm.trans found)
  subst same
  have erased : (pending.erase key).entries = before ++ after := rest
  rw [erased,whole,List.map_append,List.map_append,List.map_cons]
  exact List.perm_middle

theorem kept_step {w : World} (kept : Kept w) (c : Call) : Kept (w.step c) := by
  unfold Kept at kept ⊢
  rcases step_cases w c with ⟨e,found,after⟩ | ⟨none,after⟩
  · rw [after]
    refine List.Perm.trans ?_ kept
    simp only [List.map_append,List.map_cons,List.map_nil,List.append_assoc,List.singleton_append]
    exact List.Perm.append_left _ (entries_erase found).symm
  · rw [after]
    have absent : channelKey c.1 c.2 ∉ w.bus.pending := AList.lookup_eq_none.mp none
    simp only [AList.entries_insert_of_notMem absent,List.map_append,List.map_cons,List.map_nil,List.append_assoc,List.singleton_append]
    rw [ends_succ]
    refine List.Perm.trans ?_ (List.Perm.append_right _ kept)
    rw [List.append_assoc]
    refine List.Perm.append_left _ ?_
    show List.Perm ([(pair w.bus.pairs).1,(pair w.bus.pairs).2] ++ w.bus.pending.entries.map Sigma.snd) _
    exact List.perm_append_comm

/-! ### Who waits for whom -/

instance (c d : Call) : Decidable (SameNames c d) := inferInstanceAs (Decidable (_ ∨ _))

/-- Of the calls so far for the two names, the one that was not joined by another. -/
def waiter (calls : List Call) (c : Call) : Option Call :=
  calls.foldl (fun waiting d => if SameNames c d then (if waiting.isSome then none else some d) else waiting) none

/-- A call that meets another one waiting is from the other side. -/
def Alternating (calls : List Call) : Prop := ∀ before c after, calls = before ++ c :: after → ∀ d, waiter before c = some d → d = c.swap

/-- Ends that are joined were given to the two sides. -/
def Paired (w : World) : Prop := ∀ c e d f, (c,e) ∈ w.handed → (d,f) ∈ w.handed → Joined e f → d = c.swap

theorem SameNames.symm {c d : Call} (same : SameNames c d) : SameNames d c := by
  rcases same with rfl | rfl
  · exact .inl rfl
  · exact .inr rfl

theorem SameNames.trans {c d e : Call} (first : SameNames c d) (second : SameNames d e) : SameNames c e := by
  rcases first with rfl | rfl
  · exact second
  · rcases second with rfl | rfl
    · exact .inr rfl
    · exact .inl rfl

theorem waiter_snoc (calls : List Call) (c d : Call) : waiter (calls ++ [d]) c =
    if SameNames c d then (if (waiter calls c).isSome then none else some d) else waiter calls c := by
  unfold waiter
  rw [List.foldl_append]
  rfl

theorem waiter_congr {c c' : Call} (same : SameNames c c') (calls : List Call) : waiter calls c = waiter calls c' := by
  induction calls using List.reverseRecOn with
  | nil => rfl
  | append_singleton calls d ih =>
    have both : SameNames c d ↔ SameNames c' d := ⟨fun h => same.symm.trans h,fun h => same.trans h⟩
    rw [waiter_snoc,waiter_snoc,ih]
    simp only [both]

theorem alternating_snoc (calls : List Call) (c : Call) : Alternating (calls ++ [c]) ↔
    Alternating calls ∧ ∀ d, waiter calls c = some d → d = c.swap := by
  constructor
  · intro alternating
    refine ⟨fun before d after split => ?_,alternating calls c [] rfl⟩
    exact alternating before d (after ++ [c]) (by rw [split,List.append_assoc]; rfl)
  · rintro ⟨alternating,last⟩ before d after split
    rcases List.eq_nil_or_concat after with rfl | ⟨after,e,rfl⟩
    · obtain ⟨same,one⟩ := List.append_inj' split rfl
      cases one
      subst same
      exact last
    · rw [List.concat_eq_append] at split
      have shift : before ++ d :: (after ++ [e]) = (before ++ d :: after) ++ [e] := by rw [List.append_assoc]; rfl
      obtain ⟨same,-⟩ := List.append_inj' (split.trans shift) rfl
      exact alternating before d after same

/-- What holds after some calls. -/
structure Inv (calls : List Call) (w : World) : Prop where
  kept : Kept w
  called : w.handed.map Prod.fst = calls
  /-- The end that waits under a key is joined to that of the call that waits. -/
  waiting : ∀ c e, w.bus.pending.lookup (channelKey c.1 c.2) = some e →
    ∃ d f, waiter calls c = some d ∧ SameNames c d ∧ (d,f) ∈ w.handed ∧ Joined f e
  idle : ∀ c, w.bus.pending.lookup (channelKey c.1 c.2) = none → waiter calls c = none
  names : ∀ c e d f, (c,e) ∈ w.handed → (d,f) ∈ w.handed → Joined e f → SameNames c d
  paired : Paired w ↔ Alternating calls

theorem Kept.made {w : World} (kept : Kept w) {c : Call} {e : InProcConnection} (inside : (c,e) ∈ w.handed) : e ∈ ends w.bus.pairs :=
  kept.mem_iff.mp (List.mem_append_left _ (List.mem_map_of_mem (f := Prod.snd) inside))

theorem Kept.pending {w : World} (kept : Kept w) {key : List Char} {e : InProcConnection} (found : w.bus.pending.lookup key = some e) :
    e ∈ ends w.bus.pairs :=
  kept.mem_iff.mp (List.mem_append_right _ (List.mem_map_of_mem (f := Sigma.snd) (AList.mem_lookup_iff.mp found)))

/-- An end is given to one call. -/
theorem Kept.owner {w : World} (kept : Kept w) {c d : Call} {e : InProcConnection} (inside : (c,e) ∈ w.handed) (inside' : (d,e) ∈ w.handed) : c = d := by
  have distinct : (w.handed.map Prod.snd).Nodup := (kept.nodup_iff.mpr (ends_nodup _)).of_append_left
  exact (Prod.mk.inj (List.inj_on_of_nodup_map distinct inside inside' rfl)).1

theorem not_joined_self (e : InProcConnection) (n : Nat) (made : e ∈ ends n) : ¬ Joined e e := by
  intro joined
  obtain ⟨k,-,inside⟩ := List.mem_flatMap.mp made
  have wires : e.tx ≠ e.rx := by
    rcases List.mem_pair.mp inside with rfl | rfl <;> simp [pair]
  exact wires joined.1

theorem Joined.symm {e f : InProcConnection} (joined : Joined e f) : Joined f e := ⟨joined.2,joined.1⟩

/-- With one more end handed out, the new pairs are those with the call that waited. -/
theorem handed_snoc {w w' : World} {c : Call} {e : InProcConnection} (after : w'.handed = w.handed ++ [(c,e)]) (alone : ¬ Joined e e)
    {P : Call → Call → Prop} (swapped : ∀ {a b}, P a b → P b a) (mate : ∀ d f, (d,f) ∈ w.handed → Joined e f → P c d)
    (old : ∀ a x b y, (a,x) ∈ w.handed → (b,y) ∈ w.handed → Joined x y → P a b) :
    ∀ a x b y, (a,x) ∈ w'.handed → (b,y) ∈ w'.handed → Joined x y → P a b := by
  intro a x b y inside inside' joined
  rw [after] at inside inside'
  rcases List.mem_append.mp inside with first | first
  · rcases List.mem_append.mp inside' with second | second
    · exact old a x b y first second joined
    · cases List.mem_singleton.mp second
      exact swapped (mate a x first joined.symm)
  · cases List.mem_singleton.mp first
    rcases List.mem_append.mp inside' with second | second
    · exact mate b y second joined
    · cases List.mem_singleton.mp second
      exact absurd joined alone

theorem swap_symm {a b : Call} (same : b = a.swap) : a = b.swap := by rw [same,Prod.swap_swap]

section
variable {calls : List Call} {w w' : World} {c c' : Call} {e : InProcConnection}

/-- A call for other names leaves what waits as it is. -/
theorem Inv.waiting_away (inv : Inv calls w) {given : Call × InProcConnection} (handed : w'.handed = w.handed ++ [given])
    (away : ¬ SameNames c' c) (found : w.bus.pending.lookup (channelKey c'.1 c'.2) = some e) :
    ∃ d f, waiter (calls ++ [c]) c' = some d ∧ SameNames c' d ∧ (d,f) ∈ w'.handed ∧ Joined f e := by
  obtain ⟨d,f,waits,same,inside,joined⟩ := inv.waiting c' e found
  refine ⟨d,f,?_,same,?_,joined⟩
  · rw [waiter_snoc,if_neg away,waits]
  · rw [handed]
    exact List.mem_append_left _ inside

theorem Inv.idle_away (inv : Inv calls w) (away : ¬ SameNames c' c) (absent : w.bus.pending.lookup (channelKey c'.1 c'.2) = none) :
    waiter (calls ++ [c]) c' = none := by
  rw [waiter_snoc,if_neg away,inv.idle c' absent]

/-- The ends stay paired when the call that waited, and no other one, has the end that is joined to the new one. -/
theorem Inv.paired_snoc (inv : Inv calls w) (handed : w'.handed = w.handed ++ [(c,e)]) (alone : ¬ Joined e e)
    (mates : ∀ d g, (d,g) ∈ w.handed → Joined e g → waiter calls c = some d)
    (waited : ∀ d, waiter calls c = some d → ∃ f, (d,f) ∈ w.handed ∧ Joined e f) : Paired w' ↔ Alternating (calls ++ [c]) := by
  have old : ∀ {given}, given ∈ w.handed → given ∈ w'.handed := fun inside => by rw [handed]; exact List.mem_append_left _ inside
  rw [alternating_snoc,← inv.paired]
  constructor
  · intro paired
    refine ⟨fun a x b y first second pair => paired a x b y (old first) (old second) pair,fun d waits => ?_⟩
    obtain ⟨f,given,joined⟩ := waited d waits
    exact paired c e d f (by rw [handed]; simp) (old given) joined
  · rintro ⟨paired,sides⟩
    exact handed_snoc handed alone swap_symm (fun d g inside pair => sides d (mates d g inside pair)) paired

/-- A call takes the end that waits for it. -/
theorem Inv.taken (inv : Inv calls w) (found : w.bus.pending.lookup (channelKey c.1 c.2) = some e)
    (after : w.step c = ⟨{ w.bus with pending := w.bus.pending.erase (channelKey c.1 c.2) },w.handed ++ [(c,e)]⟩) :
    Inv (calls ++ [c]) (w.step c) := by
  obtain ⟨d,f,waits,same,given,joined⟩ := inv.waiting c e found
  have mate : ∀ d' g, (d',g) ∈ w.handed → Joined e g → d' = d := by
    intro d' g inside pair
    have ends : g = f := end_of_tx (inv.kept.made inside) (inv.kept.made given) (by rw [pair.2,joined.1])
    subst ends
    exact inv.kept.owner inside given
  have alone : ¬ Joined e e := not_joined_self e _ (inv.kept.pending found)
  have handed : (w.step c).handed = w.handed ++ [(c,e)] := by rw [after]
  have others : ∀ c', ¬ SameNames c' c → (w.step c).bus.pending.lookup (channelKey c'.1 c'.2) = w.bus.pending.lookup (channelKey c'.1 c'.2) := by
    intro c' other
    rw [after]
    exact AList.lookup_erase_ne (fun keys => other ((channelKey_eq_iff c' c).mp keys))
  refine ⟨kept_step inv.kept c,by rw [handed,List.map_append,inv.called]; rfl,?_,?_,?_,?_⟩
  · intro c' e' found'
    by_cases names : SameNames c' c
    · rw [after,(channelKey_eq_iff c' c).mpr names] at found'
      simp at found'
    · exact inv.waiting_away handed names (others c' names ▸ found')
  · intro c' none'
    by_cases names : SameNames c' c
    · rw [waiter_snoc,if_pos names,waiter_congr names,waits]
      rfl
    · exact inv.idle_away names (others c' names ▸ none')
  · refine handed_snoc handed alone SameNames.symm (fun d' g inside pair => ?_) inv.names
    rw [mate d' g inside pair]
    exact same
  · refine inv.paired_snoc handed alone (fun d' g inside pair => mate d' g inside pair ▸ waits) fun d' waits' => ?_
    cases waits.symm.trans waits'
    exact ⟨f,given,joined.symm⟩

/-- A call that nobody waits for leaves one end of a new pair. -/
theorem Inv.offered (inv : Inv calls w) (none : w.bus.pending.lookup (channelKey c.1 c.2) = none)
    (after : w.step c = ⟨⟨w.bus.pending.insert (channelKey c.1 c.2) (pair w.bus.pairs).2,w.bus.pairs + 1⟩,w.handed ++ [(c,(pair w.bus.pairs).1)]⟩) :
    Inv (calls ++ [c]) (w.step c) := by
  have idle := inv.idle c none
  have handed : (w.step c).handed = w.handed ++ [(c,(pair w.bus.pairs).1)] := by rw [after]
  have fresh : ∀ d' g, (d',g) ∈ w.handed → ¬ Joined (pair w.bus.pairs).1 g := by
    intro d' g inside joined
    have below := tx_lt (inv.kept.made inside)
    have wire : g.tx = 2 * w.bus.pairs + 1 := joined.2
    omega
  have alone : ¬ Joined (pair w.bus.pairs).1 (pair w.bus.pairs).1 := not_joined_self _ (w.bus.pairs + 1) (by rw [ends_succ]; simp)
  have others : ∀ c', ¬ SameNames c' c → (w.step c).bus.pending.lookup (channelKey c'.1 c'.2) = w.bus.pending.lookup (channelKey c'.1 c'.2) := by
    intro c' other
    rw [after]
    exact AList.lookup_insert_ne (fun keys => other ((channelKey_eq_iff c' c).mp keys))
  refine ⟨kept_step inv.kept c,by rw [handed,List.map_append,inv.called]; rfl,?_,?_,?_,?_⟩
  · intro c' e' found'
    by_cases names : SameNames c' c
    · rw [after,(channelKey_eq_iff c' c).mpr names,AList.lookup_insert] at found'
      cases found'
      refine ⟨c,(pair w.bus.pairs).1,?_,names,by rw [handed]; simp,⟨rfl,rfl⟩⟩
      rw [waiter_snoc,if_pos names,waiter_congr names,idle]
      rfl
    · exact inv.waiting_away handed names (others c' names ▸ found')
  · intro c' none'
    by_cases names : SameNames c' c
    · rw [after,(channelKey_eq_iff c' c).mpr names,AList.lookup_insert] at none'
      cases none'
    · exact inv.idle_away names (others c' names ▸ none')
  · exact handed_snoc handed alone SameNames.symm (fun d' g inside pair => absurd pair (fresh d' g inside)) inv.names
  · refine inv.paired_snoc handed alone (fun d' g inside pair => absurd pair (fresh d' g inside)) fun d' waits' => ?_
    rw [idle] at waits'
    cases waits'

theorem inv_step (inv : Inv calls w) (c : Call) : Inv (calls ++ [c]) (w.step c) := by
  rcases step_cases w c with ⟨e,found,after⟩ | ⟨none,after⟩
  · exact inv.taken found after
  · exact inv.offered none after

end

theorem inv_empty : Inv [] World.empty := by
  refine ⟨List.Perm.refl _,rfl,?_,fun _ _ => rfl,by simp [World.empty],?_⟩
  · intro c e found
    simp [World.empty,Bus.new] at found
  · refine ⟨fun _ before c after split => ?_,fun _ => by simp [Paired,World.empty]⟩
    cases before <;> cases split

theorem run_inv (calls : List Call) : Inv calls (World.run calls) := by
  induction calls using List.reverseRecOn with
  | nil => exact inv_empty
  | append_singleton calls c ih =>
    unfold World.run at ih ⊢
    rw [run_snoc]
    exact inv_step ih c

/-- Every end is handed out once or still waits, joined ends were asked for under the same two names, and
they were asked for by the two sides exactly when no call meets one from its own side. -/
theorem connects (calls : List Call) :
    Kept (World.run calls) ∧ (World.run calls).handed.map Prod.fst = calls ∧
      (∀ c e d f, (c,e) ∈ (World.run calls).handed → (d,f) ∈ (World.run calls).handed → Joined e f → SameNames c d) ∧
        (Paired (World.run calls) ↔ Alternating calls) := by
  have inv := run_inv calls
  exact ⟨inv.kept,inv.called,inv.names,inv.paired⟩

/-- An agent that connects again before its peer does is connected to itself. -/
theorem reconnect_unpaired : ¬ Paired (World.run [("a","b"),("a","b")]) := by
  rw [(run_inv _).paired]
  intro alternating
  exact absurd (alternating [("a","b")] ("a","b") [] rfl ("a","b") (by decide)) (by decide)

end Daf.InProcBus
