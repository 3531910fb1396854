import Mathlib.Data.List.AList
import Mathlib.Data.List.Dedup
import Mathlib.Data.List.Flatten
import Mathlib.Data.List.Nodup
import Mathlib.Data.List.Perm.Lattice

/-!
A map from owners to lists of rows, as a store of one row for each owner and key: no list is empty, each row is
in the list of its owner, and no two rows of a list have one key. A row is replaced where it is, appended, or
dropped; an owner goes with its last row.
-/
namespace Daf.Buckets

abbrev Table (α V : Type) := AList (fun _ : α => List V)

section
variable {α κ V : Type} [DecidableEq α] [DecidableEq κ]

/-- The row replaces the first row with its key, or is appended. -/
def upsert (key : V → κ) (row : V) : List V → List V
  | [] => [row]
  | r :: rows => if key r = key row then row :: rows else r :: upsert key row rows

/-- The rows of the owner from now on; without rows there is no owner. -/
def setRows (m : Table α V) (a : α) (rows : List V) : Table α V := if rows.isEmpty then m.erase a else m.insert a rows

def some_left (rows : List V) : Option (List V) := if rows.isEmpty then none else some rows

/-- What is left of the entries when only some rows stay. -/
def retained (p : V → Bool) (entries : List (Σ _ : α, List V)) : List (Σ _ : α, List V) :=
  entries.filterMap fun e => (some_left (e.2.filter p)).map (Sigma.mk e.1)

theorem some_left_eq {l found : List V} : some_left l = some found ↔ l = found ∧ found ≠ [] := by
  cases l with
  | nil => simp [some_left,eq_comm]
  | cons r rows =>
    simp only [some_left,List.isEmpty_cons,Bool.false_eq_true,if_false,Option.some.injEq]
    exact ⟨fun same => ⟨same,same ▸ List.cons_ne_nil r rows⟩,And.left⟩

theorem some_left_bind {β : Type} (l : List V) (f : List V → Option β) (nothing : f [] = none) : (some_left l).bind f = f l := by
  cases l with
  | nil => exact nothing.symm
  | cons r rows => rfl

omit [DecidableEq α] in
theorem retained_keys (p : V → Bool) (entries : List (Σ _ : α, List V)) : ((retained p entries).keys).Sublist entries.keys := by
  induction entries with
  | nil => exact List.Sublist.slnil
  | cons e later ih =>
    rw [retained,List.filterMap_cons]
    cases some_left (e.2.filter p) with
    | none => exact ih.cons e.1
    | some left => exact ih.cons_cons e.1

def retain (p : V → Bool) (m : Table α V) : Table α V := ⟨retained p m.entries,(retained_keys p m.entries).nodup m.nodupKeys⟩

/-- All rows. -/
def rows (m : Table α V) : List V := m.entries.flatMap Sigma.snd

def rowAt (key : V → κ) (m : Table α V) (a : α) (k : κ) : Option V := (m.lookup a).bind fun rows => rows.find? fun r => key r = k

structure Kept (owner : V → α) (key : V → κ) (m : Table α V) : Prop where
  filled : ∀ a rows, m.lookup a = some rows → rows ≠ []
  own : ∀ a rows, m.lookup a = some rows → ∀ r ∈ rows, owner r = a
  distinct : ∀ a rows, m.lookup a = some rows → (rows.map key).Nodup

/-! ### Lists of rows -/

variable {owner : V → α} {key : V → κ} {m : Table α V} {l : List V} {p : V → Bool}

theorem upsert_cons (row first : V) (rest : List V) :
    upsert key row (first :: rest) = if key first = key row then row :: rest else first :: upsert key row rest := rfl

theorem mem_upsert {row r : V} (there : r ∈ upsert key row l) : r = row ∨ r ∈ l := by
  induction l with
  | nil => exact .inl (List.mem_singleton.mp there)
  | cons first rest ih =>
    rw [upsert_cons] at there
    split_ifs at there
    · rcases List.mem_cons.mp there with same | later
      · exact .inl same
      · exact .inr (List.mem_cons_of_mem first later)
    · rcases List.mem_cons.mp there with same | later
      · exact .inr (same ▸ List.mem_cons_self)
      · exact (ih later).imp id (List.mem_cons_of_mem first)

theorem upsert_ne_nil (row : V) : upsert key row l ≠ [] := by
  cases l with
  | nil => exact List.cons_ne_nil row []
  | cons first rest =>
    rw [upsert_cons]
    split_ifs <;> exact List.cons_ne_nil _ _

theorem upsert_keys (row : V) : (upsert key row l).map key = if key row ∈ l.map key then l.map key else l.map key ++ [key row] := by
  induction l with
  | nil => rfl
  | cons first rest ih =>
    rw [upsert_cons]
    split_ifs with here listed listed
    · simp [here]
    · exact absurd (by simp [here]) listed
    · have inside : key row ∈ rest.map key := by simpa [Ne.symm here] using listed
      rw [List.map_cons,ih,if_pos inside,List.map_cons]
    · have outside : key row ∉ rest.map key := fun inside => listed (List.mem_cons_of_mem _ inside)
      rw [List.map_cons,ih,if_neg outside,List.map_cons,List.cons_append]

theorem upsert_distinct (row : V) (distinct : (l.map key).Nodup) : ((upsert key row l).map key).Nodup := by
  rw [upsert_keys]
  split_ifs with listed
  · exact distinct
  · exact List.nodup_append.mpr ⟨distinct,List.nodup_singleton _,fun k old k' new same => listed (by
      rw [← List.mem_singleton.mp new,← same]
      exact old)⟩

theorem find?_upsert (row : V) (k : κ) :
    ((upsert key row l).find? fun r => key r = k) = if key row = k then some row else l.find? fun r => key r = k := by
  induction l with
  | nil =>
    by_cases here : key row = k <;> simp [upsert,here]
  | cons first rest ih =>
    rw [upsert_cons]
    split_ifs with replaced here here
    · simp [here]
    · simp [here,replaced]
    · have other : key first ≠ k := fun same => replaced (same.trans here.symm)
      rw [List.find?_cons,ih,if_pos here]
      simp [other]
    · rw [List.find?_cons,List.find?_cons,ih,if_neg here]

/-- The only row with a key stays, or none does. -/
theorem find?_filter (distinct : (l.map key).Nodup) (k : κ) :
    ((l.filter p).find? fun r => key r = k) = (l.find? fun r => key r = k).filter p := by
  induction l with
  | nil => rfl
  | cons first rest ih =>
    rw [List.map_cons,List.nodup_cons] at distinct
    by_cases here : key first = k
    · have alone : (rest.filter p).find? (fun r => decide (key r = k)) = none := by
        rw [List.find?_eq_none]
        intro r member
        have listed : key r ∈ rest.map key := List.mem_map_of_mem (List.mem_filter.mp member).1
        simpa using fun same : key r = k => distinct.1 (here.trans same.symm ▸ listed)
      have found : ∀ later, (first :: later).find? (fun r => decide (key r = k)) = some first :=
        fun later => List.find?_cons_of_pos (by simpa using here)
      rw [List.filter_cons,found,Option.filter_some]
      split_ifs
      · exact found _
      · exact alone
    · have passed : ∀ later, (first :: later).find? (fun r => decide (key r = k)) = later.find? (fun r => decide (key r = k)) :=
        fun later => List.find?_cons_of_neg (by simpa using here)
      rw [List.filter_cons,passed,← ih distinct.2]
      split_ifs
      · exact passed _
      · rfl

/-! ### One owner -/

theorem lookup_setRows (m : Table α V) (a : α) (rows : List V) (b : α) :
    (setRows m a rows).lookup b = if b = a then some_left rows else m.lookup b := by
  unfold setRows some_left
  by_cases same : b = a
  · subst same
    rw [if_pos rfl]
    split_ifs
    · exact AList.lookup_erase b m
    · exact AList.lookup_insert m
  · rw [if_neg same]
    split_ifs
    · exact AList.lookup_erase_ne same
    · exact AList.lookup_insert_ne same

theorem rowAt_setRows (m : Table α V) (a : α) (rows : List V) (b : α) (k : κ) :
    rowAt key (setRows m a rows) b k = if b = a then rows.find? (fun r => key r = k) else rowAt key m b k := by
  rw [rowAt,lookup_setRows]
  by_cases same : b = a
  · rw [if_pos same,if_pos same]
    exact some_left_bind rows _ rfl
  · rw [if_neg same,if_neg same,rowAt]

omit [DecidableEq κ] in
theorem Kept.setRows (kept : Kept owner key m) {a : α} {rows : List V} (own : ∀ r ∈ rows, owner r = a) (distinct : (rows.map key).Nodup) :
    Kept owner key (setRows m a rows) := by
  have cases : ∀ b found, (Buckets.setRows m a rows).lookup b = some found → b = a ∧ found = rows ∧ rows ≠ [] ∨ m.lookup b = some found := by
    intro b found there
    rw [lookup_setRows] at there
    split_ifs at there with same
    · obtain ⟨rfl,filled⟩ := some_left_eq.mp there
      exact .inl ⟨same,rfl,filled⟩
    · exact .inr there
  refine ⟨fun b found there => ?_,fun b found there => ?_,fun b found there => ?_⟩
  · rcases cases b found there with ⟨-,rfl,filled⟩ | old
    · exact filled
    · exact kept.filled b found old
  · rcases cases b found there with ⟨rfl,rfl,-⟩ | old
    · exact own
    · exact kept.own b found old
  · rcases cases b found there with ⟨-,rfl,-⟩ | old
    · exact distinct
    · exact kept.distinct b found old

omit [DecidableEq κ] in
theorem Kept.empty : Kept owner key (∅ : Table α V) := ⟨nofun,nofun,nofun⟩

theorem setRows_nil (m : Table α V) (a : α) : setRows m a [] = m.erase a := rfl

/-! ### All owners -/

omit [DecidableEq κ] in
theorem lookup_retain (p : V → Bool) (m : Table α V) (a : α) :
    (retain p m).lookup a = (m.lookup a).bind fun rows => some_left (rows.filter p) := by
  obtain ⟨entries,distinct⟩ := m
  show (retained p entries).dlookup a = (entries.dlookup a).bind _
  induction entries with
  | nil => rfl
  | cons e later ih =>
    obtain ⟨b,rows⟩ := e
    have apart := List.nodupKeys_cons.mp distinct
    rw [retained,List.filterMap_cons]
    by_cases same : a = b
    · subst same
      have gone : (retained p later).dlookup a = none :=
        List.dlookup_eq_none.mpr fun listed => apart.1 ((retained_keys p later).subset listed)
      rw [List.dlookup_cons_eq,Option.bind_some]
      cases some_left (rows.filter p) with
      | none => exact gone
      | some left => exact List.dlookup_cons_eq _ _ _
    · rw [List.dlookup_cons_ne _ _ same,← ih apart.2]
      cases some_left (rows.filter p) with
      | none => rfl
      | some left => exact List.dlookup_cons_ne _ _ same

theorem rowAt_retain (kept : Kept owner key m) (p : V → Bool) (a : α) (k : κ) : rowAt key (retain p m) a k = (rowAt key m a k).filter p := by
  rw [rowAt,rowAt,lookup_retain]
  cases found : m.lookup a with
  | none => rfl
  | some rows =>
    rw [Option.bind_some,Option.bind_some,← find?_filter (kept.distinct a rows found)]
    exact some_left_bind _ _ rfl

omit [DecidableEq κ] in
theorem Kept.retain (kept : Kept owner key m) (p : V → Bool) : Kept owner key (retain p m) := by
  have cases : ∀ a found, (Buckets.retain p m).lookup a = some found → ∃ rows, m.lookup a = some rows ∧ found = rows.filter p ∧ found ≠ [] := by
    intro a found there
    rw [lookup_retain] at there
    obtain ⟨rows,old,left⟩ := Option.bind_eq_some_iff.mp there
    obtain ⟨same,filled⟩ := some_left_eq.mp left
    exact ⟨rows,old,same.symm,filled⟩
  refine ⟨fun a found there => ?_,fun a found there => ?_,fun a found there => ?_⟩
  · obtain ⟨-,-,-,filled⟩ := cases a found there
    exact filled
  · obtain ⟨rows,old,rfl,-⟩ := cases a found there
    exact fun r member => kept.own a rows old r (List.mem_filter.mp member).1
  · obtain ⟨rows,old,rfl,-⟩ := cases a found there
    exact (List.filter_sublist.map key).nodup (kept.distinct a rows old)

/-! ### The finite map -/

abbrev Pairs (α κ V : Type) := AList (fun _ : α × κ => V)

def keep (p : V → Bool) (map : Pairs α κ V) : Pairs α κ V :=
  ⟨map.entries.filter fun e => p e.2,(List.filter_sublist.map Sigma.fst).nodup map.nodupKeys⟩

def dropOwner (a : α) (map : Pairs α κ V) : Pairs α κ V :=
  ⟨map.entries.filter fun e => e.1.1 ≠ a,(List.filter_sublist.map Sigma.fst).nodup map.nodupKeys⟩

omit [DecidableEq α] [DecidableEq κ] in
/-- Of a list with distinct keys some entries stay. -/
theorem dlookup_filter {ι : Type} [DecidableEq ι] {entries : List (Σ _ : ι, V)} (distinct : entries.NodupKeys) (q : (Σ _ : ι, V) → Bool) (i : ι) :
    (entries.filter q).dlookup i = (entries.dlookup i).filter fun v => q ⟨i,v⟩ := by
  induction entries with
  | nil => rfl
  | cons e later ih =>
    obtain ⟨j,v⟩ := e
    obtain ⟨fresh,distinct⟩ := List.nodupKeys_cons.mp distinct
    rw [List.filter_cons]
    by_cases same : i = j
    · subst same
      rw [List.dlookup_cons_eq]
      split_ifs with stays
      · rw [List.dlookup_cons_eq,Option.filter_some,if_pos stays]
      · have gone : i ∉ (later.filter q).keys := fun listed => fresh ((List.filter_sublist.map Sigma.fst).subset listed)
        rw [List.dlookup_eq_none.mpr gone,Option.filter_some,if_neg stays]
    · rw [List.dlookup_cons_ne _ _ same,← ih distinct]
      split_ifs
      · exact List.dlookup_cons_ne _ _ same
      · rfl

theorem lookup_keep (p : V → Bool) (map : Pairs α κ V) (i : α × κ) : (keep p map).lookup i = (map.lookup i).filter p :=
  dlookup_filter map.nodupKeys _ i

theorem not_mem_keep {p : V → Bool} {map : Pairs α κ V} {e : Σ _ : α × κ, V} (there : e ∈ map.entries) : e.1 ∉ keep p map ↔ p e.2 = false := by
  have found : map.lookup e.1 = some e.2 := List.mem_dlookup map.nodupKeys there
  rw [← AList.lookup_isSome,lookup_keep,found,Option.filter_some]
  split_ifs with stays <;> simp [stays]

theorem lookup_dropOwner (a : α) (map : Pairs α κ V) (i : α × κ) : (dropOwner a map).lookup i = if i.1 = a then none else map.lookup i := by
  refine (dlookup_filter map.nodupKeys _ i).trans ?_
  show (map.lookup i).filter _ = _
  by_cases same : i.1 = a
  · rw [if_pos same]
    cases map.lookup i <;> simp [same]
  · rw [if_neg same]
    cases map.lookup i <;> simp [same]

/-- The rows are the values of the map. -/
structure Shows (owner : V → α) (key : V → κ) (m : Table α V) (map : Pairs α κ V) : Prop where
  kept : Kept owner key m
  same : ∀ a k, rowAt key m a k = map.lookup (a,k)

omit [DecidableEq κ] in
theorem mem_rows {r : V} : r ∈ rows m ↔ ∃ a l, m.lookup a = some l ∧ r ∈ l := by
  rw [rows,List.mem_flatMap]
  constructor
  · rintro ⟨⟨a,l⟩,there,member⟩
    exact ⟨a,l,List.mem_dlookup m.nodupKeys there,member⟩
  · rintro ⟨a,l,found,member⟩
    exact ⟨⟨a,l⟩,List.of_mem_dlookup found,member⟩

theorem Kept.mem_iff (kept : Kept owner key m) {r : V} : r ∈ rows m ↔ rowAt key m (owner r) (key r) = some r := by
  rw [mem_rows]
  constructor
  · rintro ⟨a,l,found,member⟩
    rw [kept.own a l found r member,rowAt,found,Option.bind_some]
    have distinct := kept.distinct a l found
    clear found
    induction l with
    | nil => cases member
    | cons first rest ih =>
      rw [List.map_cons,List.nodup_cons] at distinct
      rcases List.mem_cons.mp member with rfl | later
      · simp
      · have other : key first ≠ key r := fun same => distinct.1 (same ▸ List.mem_map_of_mem later)
        simpa [other] using ih later distinct.2
  · intro found
    obtain ⟨l,there,member⟩ := Option.bind_eq_some_iff.mp found
    exact ⟨owner r,l,there,List.mem_of_find?_eq_some member⟩

theorem Kept.rowAt_own (kept : Kept owner key m) {a : α} {k : κ} {r : V} (found : rowAt key m a k = some r) : owner r = a ∧ key r = k := by
  obtain ⟨l,there,member⟩ := Option.bind_eq_some_iff.mp found
  exact ⟨kept.own a l there r (List.mem_of_find?_eq_some member),by simpa using List.find?_some member⟩

omit [DecidableEq κ] in
theorem Kept.rows_nodup (kept : Kept owner key m) : (rows m).Nodup := by
  rw [rows,List.nodup_flatMap]
  constructor
  · rintro ⟨a,l⟩ there
    exact List.Nodup.of_map key (kept.distinct a l (List.mem_dlookup m.nodupKeys there))
  · have apart : m.entries.Pairwise fun d e => d.1 ≠ e.1 := List.nodupKeys_iff_pairwise.mp m.nodupKeys
    refine apart.imp_of_mem ?_
    rintro ⟨a,l⟩ ⟨b,l'⟩ first second differ
    refine List.disjoint_left.mpr fun r inside again => ?_
    exact differ ((kept.own a l (List.mem_dlookup m.nodupKeys first) r inside).symm.trans
      (kept.own b l' (List.mem_dlookup m.nodupKeys second) r again))

/-- Each value of the map is at its own pair. -/
theorem Shows.own {map : Pairs α κ V} (shows : Shows owner key m map) : ∀ e ∈ map.entries, e.1 = (owner e.2,key e.2) := by
  rintro ⟨⟨a,k⟩,r⟩ there
  obtain ⟨rfl,rfl⟩ := shows.kept.rowAt_own ((shows.same a k).trans (List.mem_dlookup map.nodupKeys there))
  rfl

theorem Shows.perm {map : Pairs α κ V} (shows : Shows owner key m map) : (rows m).Perm (map.entries.map Sigma.snd) := by
  have own := shows.own
  have distinct : (map.entries.map Sigma.snd).Nodup := by
    refine List.Nodup.map_on ?_ (List.Nodup.of_map Sigma.fst map.nodupKeys)
    rintro ⟨i,r⟩ there ⟨j,r'⟩ again same
    have equal : r = r' := same
    subst equal
    have indices : i = j := (own _ there).trans (own _ again).symm
    subst indices
    rfl
  refine (List.perm_ext_iff_of_nodup shows.kept.rows_nodup distinct).mpr fun r => ?_
  rw [shows.kept.mem_iff,shows.same,List.mem_map]
  constructor
  · intro there
    exact ⟨⟨(owner r,key r),r⟩,List.of_mem_dlookup there,rfl⟩
  · rintro ⟨e,there,rfl⟩
    rw [← own e there]
    exact List.mem_dlookup map.nodupKeys there

/-! ### Calls on the store and on the map -/

theorem rowAt_getD (m : Table α V) (a : α) (k : κ) : (((m.lookup a).getD []).find? fun r => key r = k) = rowAt key m a k := by
  rw [rowAt]
  cases m.lookup a <;> rfl

omit [DecidableEq κ] in
theorem Kept.own_getD (kept : Kept owner key m) (a : α) : (∀ r ∈ (m.lookup a).getD [], owner r = a) ∧ (((m.lookup a).getD []).map key).Nodup := by
  cases found : m.lookup a with
  | none => exact ⟨nofun,List.nodup_nil⟩
  | some rows => exact ⟨kept.own a rows found,kept.distinct a rows found⟩

variable {map : Pairs α κ V}

theorem Shows.empty : Shows owner key (∅ : Table α V) (∅ : Pairs α κ V) := ⟨.empty,fun _ _ => rfl⟩

theorem Shows.insert (shows : Shows owner key m map) (row : V) :
    Shows owner key (setRows m (owner row) (upsert key row ((m.lookup (owner row)).getD []))) (map.insert (owner row,key row) row) := by
  obtain ⟨own,distinct⟩ := shows.kept.own_getD (owner row)
  refine ⟨shows.kept.setRows (fun r member => ?_) (upsert_distinct row distinct),fun a k => ?_⟩
  · rcases mem_upsert member with rfl | old
    · rfl
    · exact own r old
  · rw [rowAt_setRows,find?_upsert,rowAt_getD]
    by_cases here : (a,k) = (owner row,key row)
    · obtain ⟨rfl,rfl⟩ := Prod.mk.inj here
      rw [if_pos rfl,if_pos rfl,AList.lookup_insert]
    · rw [AList.lookup_insert_ne here,← shows.same]
      split_ifs with same this
      · exact absurd (Prod.ext same this.symm) here
      · rw [same]
      · rfl

/-- Without the row of this key. -/
theorem Shows.remove (shows : Shows owner key m map) (a : α) (k : κ) :
    Shows owner key (setRows m a (((m.lookup a).getD []).filter fun r => key r ≠ k)) (map.erase (a,k)) := by
  obtain ⟨own,distinct⟩ := shows.kept.own_getD a
  refine ⟨shows.kept.setRows (fun r member => own r (List.mem_filter.mp member).1) ((List.filter_sublist.map key).nodup distinct),fun b l => ?_⟩
  rw [rowAt_setRows,find?_filter distinct,rowAt_getD]
  by_cases here : (b,l) = (a,k)
  · obtain ⟨rfl,rfl⟩ := Prod.mk.inj here
    rw [if_pos rfl,AList.lookup_erase,Option.filter_eq_none_iff]
    intro r found
    simpa using (shows.kept.rowAt_own found).2
  · rw [AList.lookup_erase_ne here,← shows.same]
    split_ifs with same
    · subst same
      cases found : rowAt key m b l with
      | none => rfl
      | some r =>
        have at_l := (shows.kept.rowAt_own found).2
        rw [Option.filter_some,if_pos (by simpa [at_l] using fun equal : l = k => here (by rw [equal]))]
    · rfl

/-- A row that is not there cannot be removed. -/
theorem Shows.remove_absent (shows : Shows owner key m map) {a : α} (nothing : m.lookup a = none) (k : κ) : Shows owner key m (map.erase (a,k)) := by
  refine ⟨shows.kept,fun b l => ?_⟩
  by_cases here : (b,l) = (a,k)
  · obtain ⟨rfl,rfl⟩ := Prod.mk.inj here
    rw [AList.lookup_erase,rowAt,nothing]
    rfl
  · rw [AList.lookup_erase_ne here,← shows.same]

theorem Shows.dropOwner (shows : Shows owner key m map) (a : α) : Shows owner key (m.erase a) (dropOwner a map) := by
  rw [← setRows_nil]
  refine ⟨shows.kept.setRows nofun List.nodup_nil,fun b k => ?_⟩
  rw [rowAt_setRows,lookup_dropOwner,shows.same]
  rfl

theorem Shows.keep (shows : Shows owner key m map) (p : V → Bool) : Shows owner key (retain p m) (keep p map) := by
  refine ⟨shows.kept.retain p,fun a k => ?_⟩
  rw [rowAt_retain shows.kept,lookup_keep,shows.same]

end
end Daf.Buckets
