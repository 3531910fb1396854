import Daf.LedgerKeys
import Daf.LogEntries
import Daf.LogSinks
import Daf.Numerals
import Daf.OrderedMap
import Daf.Runs

/-!
The log in an ordered store of bytes. An entry is kept under a text key of its conversation, its turn and its id, and a conversation is read
by a scan of the keys that begin with it.
-/
namespace Daf.LogKeys
open Daf.LogEntries (LogEntry)
open Daf.LogSinks (LoggerError)
open Daf.Numerals Daf.OrderedMap Daf.Runs Daf.UuidText
open scoped List

abbrev Bytes := List (Fin 256)

def utf8 (text : List Char) : Bytes := (LedgerKeys.utf8 text).map UInt8.toFin

/-- The JSON of entries, written and read. -/
structure Serde where
  to_vec : LogEntry → Except String Bytes
  from_slice : Bytes → Except String LogEntry

/-- The entry is read back as it was written. -/
def Serde.Restores (serde : Serde) (entry : LogEntry) : Prop := ∀ bytes, serde.to_vec entry = .ok bytes → serde.from_slice bytes = .ok entry

structure RocksWriter where
  db : SortedMap Bytes Bytes
  closed : Bool

def RocksWriter.new : RocksWriter := ⟨.empty,false⟩

/-- `{conversation_id}/{turn_number:010}/{id}` -/
def entry_key (entry : LogEntry) : List Char :=
  toChars entry.conversation_id ++ '/' :: (padded 10 entry.turn_number.toNat ++ '/' :: toChars entry.id)

section
variable (serde : Serde)

/-- The loop of a read, which ends at the first key that does not begin with the prefix. -/
def read_from (start : Bytes) : List (Bytes × Bytes) → Except LoggerError (List LogEntry)
  | [] => .ok []
  | (key,value) :: rest =>
    if !decide (start <+: key) then .ok []
    else
      match serde.from_slice value with
      | .error e => .error (.Serde e)
      | .ok entry => (read_from start rest).map (entry :: ·)

def RocksWriter.read_conversation (w : RocksWriter) (conversation_id : Uuid) : Except LoggerError (List LogEntry) :=
  let start := utf8 (toChars conversation_id ++ ['/'])
  read_from serde start (w.db.from_key start)

/-- What the store says to a write. -/
abbrev Fate := Except String Unit

def RocksWriter.write_entry (w : RocksWriter) (entry : LogEntry) (fate : Fate) : Except LoggerError Unit × RocksWriter :=
  if w.closed then (.error .WriterClosed,w)
  else
    match serde.to_vec entry with
    | .error e => (.error (.Serde e),w)
    | .ok value =>
      match fate with
      | .error e => (.error (.Storage e),w)
      | .ok () => (.ok (),{ w with db := w.db.insert (utf8 (entry_key entry)) value })

def batch : List LogEntry → Except LoggerError (List (Bytes × Bytes))
  | [] => .ok []
  | entry :: entries =>
    match serde.to_vec entry with
    | .error e => .error (.Serde e)
    | .ok value => (batch entries).map ((utf8 (entry_key entry),value) :: ·)

/-- The store takes the whole batch or nothing of it. -/
def RocksWriter.write_batch (w : RocksWriter) (entries : List LogEntry) (fate : Fate) : Except LoggerError Unit × RocksWriter :=
  if w.closed then (.error .WriterClosed,w)
  else
    match batch serde entries with
    | .error e => (.error e,w)
    | .ok puts =>
      match fate with
      | .error e => (.error (.Storage e),w)
      | .ok () => (.ok (),{ w with db := puts.foldl (fun db put => db.insert put.1 put.2) w.db })

def RocksWriter.flush (w : RocksWriter) (fate : Fate) : Except LoggerError Unit × RocksWriter :=
  match fate with
  | .error e => (.error (.Storage e),w)
  | .ok () => (.ok (),w)

def RocksWriter.rotate (w : RocksWriter) : Except LoggerError Unit × RocksWriter := (.ok (),w)

/-- The writer is closed even if the flush fails. -/
def RocksWriter.close (w : RocksWriter) (fate : Fate) : Except LoggerError Unit × RocksWriter :=
  let w := { w with closed := true }
  match fate with
  | .error e => (.error (.Storage e),w)
  | .ok () => (.ok (),w)

/-! ### Calls one after another -/

inductive Call where
  | write_entry (entry : LogEntry) (fate : Fate)
  | write_batch (entries : List LogEntry) (fate : Fate)
  | flush (fate : Fate)
  | rotate
  | close (fate : Fate)
  /-- The store is opened again. -/
  | reopen

def Call.entries : Call → List LogEntry
  | .write_entry entry _ => [entry]
  | .write_batch entries _ => entries
  | .flush _ => []
  | .rotate => []
  | .close _ => []
  | .reopen => []

def RocksWriter.call (w : RocksWriter) : Call → Except LoggerError Unit × RocksWriter
  | .write_entry entry fate => w.write_entry serde entry fate
  | .write_batch entries fate => w.write_batch serde entries fate
  | .flush fate => w.flush fate
  | .rotate => w.rotate
  | .close fate => w.close fate
  | .reopen => (.ok (),{ w with closed := false })

/-- The writer with the entries of the calls that returned `Ok`. -/
structure World where
  writer : RocksWriter
  written : List LogEntry

def World.step (w : World) (call : Call) : World :=
  match w.writer.call serde call with
  | (.ok (),writer) => ⟨writer,w.written ++ call.entries⟩
  | (.error _,writer) => { w with writer }

def World.new : World := ⟨RocksWriter.new,[]⟩

def World.run (calls : List Call) : World := Runs.run (World.step serde) World.new calls

end

/-! ### The keys -/

section
variable {e f : LogEntry} {text other : List Char}

theorem toChars_length (uuid : Uuid) : (toChars uuid).length = 36 := by
  simp [toChars,hyphenated,hexDigits_length]

theorem hexDigits_ascii (width n : Nat) : ∀ c ∈ hexDigits width n, c.toNat < 128 := by
  induction width generalizing n with
  | zero => simp [hexDigits]
  | succ width ih =>
    intro c inside
    rcases List.mem_append.mp inside with high | last
    · exact ih _ c high
    · have all : ∀ d < 16, (hexDigit d).toNat < 128 := by decide
      rw [List.mem_singleton.mp last]
      exact all _ (Nat.mod_lt n (by decide))

theorem toChars_ascii (uuid : Uuid) : ∀ c ∈ toChars uuid, c.toNat < 128 := by
  intro c inside
  have digits := hexDigits_ascii 32 uuid.toNat
  have hyphen : ('-').toNat < 128 := by decide
  simp only [toChars,hyphenated,List.mem_append,List.mem_cons] at inside
  rcases inside with (((first | rfl | second) | rfl | third) | rfl | fourth) | rfl | fifth
  · exact digits c (List.mem_of_mem_take first)
  · exact hyphen
  · exact digits c (List.mem_of_mem_drop (List.mem_of_mem_take second))
  · exact hyphen
  · exact digits c (List.mem_of_mem_drop (List.mem_of_mem_take third))
  · exact hyphen
  · exact digits c (List.mem_of_mem_drop (List.mem_of_mem_take fourth))
  · exact hyphen
  · exact digits c (List.mem_of_mem_drop fifth)

theorem entry_key_ascii (entry : LogEntry) : ∀ c ∈ entry_key entry, c.toNat < 128 := by
  intro c inside
  have slash : ('/').toNat < 128 := by decide
  simp only [entry_key,List.mem_append,List.mem_cons] at inside
  rcases inside with conversation | rfl | turn | rfl | id
  · exact toChars_ascii _ c conversation
  · exact slash
  · have digit := digit_range (padded_digits _ _ c turn)
    omega
  · exact slash
  · exact toChars_ascii _ c id

theorem utf8_append (text other : List Char) : utf8 (text ++ other) = utf8 text ++ utf8 other := by
  simp [utf8,LedgerKeys.utf8]

theorem utf8_cons_ascii {c : Char} (low : c.toNat < 128) (text : List Char) : utf8 (c :: text) = Fin.ofNat 256 c.toNat :: utf8 text := by
  have size : c.utf8Size = 1 := by
    have small : c.val ≤ 127 := UInt32.le_iff_toNat_le.mpr (Nat.le_of_lt_succ low)
    simp [Char.utf8Size,small]
  rw [← List.singleton_append,utf8_append]
  simp only [utf8,LedgerKeys.utf8,List.flatMap_singleton,String.utf8EncodeChar_eq_singleton size,List.map_singleton,List.singleton_append]
  have byte : c.val.toUInt8.toFin = Fin.ofNat 256 c.toNat := Fin.ext (UInt32.toNat_toUInt8 c.val)
  rw [byte]

/-- Texts of ASCII characters are in the order of their bytes. -/
theorem utf8_lt (ascii : ∀ c ∈ text, c.toNat < 128) (ascii' : ∀ c ∈ other, c.toNat < 128) : utf8 text < utf8 other ↔ text < other := by
  induction text generalizing other with
  | nil =>
    cases other with
    | nil => exact ⟨fun less => absurd less (List.not_lt_nil _),fun less => absurd less (List.not_lt_nil _)⟩
    | cons d other =>
      rw [utf8_cons_ascii (ascii' d List.mem_cons_self)]
      exact ⟨fun _ => List.nil_lt_cons d other,fun _ => List.nil_lt_cons _ _⟩
  | cons c text ih =>
    have low := ascii c List.mem_cons_self
    rw [utf8_cons_ascii low]
    cases other with
    | nil => exact ⟨fun less => absurd less (List.not_lt_nil _),fun less => absurd less (List.not_lt_nil _)⟩
    | cons d other =>
      have low' := ascii' d List.mem_cons_self
      have tails := ih (fun c inside => ascii c (List.mem_cons_of_mem _ inside)) (fun c inside => ascii' c (List.mem_cons_of_mem _ inside))
      have less : Fin.ofNat 256 c.toNat < Fin.ofNat 256 d.toNat ↔ c < d := by
        show c.toNat % 256 < d.toNat % 256 ↔ c.toNat < d.toNat
        omega
      have same : Fin.ofNat 256 c.toNat = Fin.ofNat 256 d.toNat ↔ c = d := by
        rw [Fin.ext_iff,← Char.toNat_inj]
        show c.toNat % 256 = d.toNat % 256 ↔ _
        omega
      rw [utf8_cons_ascii low',List.cons_lt_cons_iff,List.cons_lt_cons_iff,less,same,tails]

theorem utf8_inj (same : utf8 text = utf8 other) : text = other := by
  apply LedgerKeys.utf8_inj
  apply List.map_injective_iff.mpr ?_ same
  intro a b equal
  exact UInt8.toNat_inj.mp (congrArg Fin.val equal)

theorem key_inj (same : utf8 (entry_key e) = utf8 (entry_key f)) : e.id = f.id := by
  have texts := utf8_inj same
  simp only [entry_key,← List.cons_append,← List.append_assoc] at texts
  have ends : ∀ entry : LogEntry, toChars entry.conversation_id ++ '/' :: padded 10 entry.turn_number.toNat ++ '/' :: toChars entry.id =
      (toChars entry.conversation_id ++ '/' :: padded 10 entry.turn_number.toNat ++ ['/']) ++ toChars entry.id := fun entry => by simp
  rw [ends,ends] at texts
  exact toChars_inj (List.append_inj' texts (by rw [toChars_length,toChars_length])).2

/-- The keys that begin with a conversation are those of its entries. -/
theorem prefix_iff {c : Uuid} : utf8 (toChars c ++ ['/']) <+: utf8 (entry_key e) ↔ e.conversation_id = c := by
  have key : utf8 (entry_key e) = utf8 (toChars e.conversation_id ++ ['/']) ++ utf8 (padded 10 e.turn_number.toNat ++ '/' :: toChars e.id) := by
    rw [← utf8_append]
    simp [entry_key]
  rw [key]
  constructor
  · rintro ⟨rest,same⟩
    have length : ∀ u : Uuid, (utf8 (toChars u ++ ['/'])).length = 37 := by
      intro u
      have ascii : ∀ text : List Char, (∀ c ∈ text, c.toNat < 128) → (utf8 text).length = text.length := by
        intro text low
        induction text with
        | nil => rfl
        | cons d text ih =>
          rw [utf8_cons_ascii (low d List.mem_cons_self),List.length_cons,List.length_cons,ih fun c inside => low c (List.mem_cons_of_mem _ inside)]
      rw [ascii]
      · simp [toChars_length]
      · intro d inside
        rcases List.mem_append.mp inside with uuid | slash
        · exact toChars_ascii u d uuid
        · rw [List.mem_singleton.mp slash]
          decide
    have heads := (List.append_inj same (by rw [length,length])).1
    exact (toChars_inj (List.append_inj (utf8_inj heads) (by rw [toChars_length,toChars_length])).1).symm
  · rintro rfl
    exact List.prefix_append _ _

/-- How many digits a turn is written with. -/
def width (turn : UInt64) : Nat := max 10 (Nat.toDigits 10 turn.toNat).length

theorem key_lt (together : e.conversation_id = f.conversation_id) (less : e.turn_number < f.turn_number) :
    utf8 (entry_key e) < utf8 (entry_key f) ↔ e.turn_number.toNat ≤ f.turn_number.toNat / 10 ^ (width f.turn_number - width e.turn_number) := by
  rw [utf8_lt (entry_key_ascii e) (entry_key_ascii f),entry_key,entry_key,together,append_lt_append rfl]
  rw [List.cons_lt_cons_iff,padded_lt (by decide) (UInt64.lt_iff_toNat_lt.mp less),padded_length,padded_length]
  simp [width]

end

/-! ### What the store holds -/

section
variable {serde : Serde} {written : List LogEntry} {db : SortedMap Bytes Bytes}

/-- The store holds what was written, each entry under its key. -/
structure Stored (serde : Serde) (written : List LogEntry) (db : SortedMap Bytes Bytes) : Prop where
  puts : ∀ key bytes, (key,bytes) ∈ db.entries ↔ ∃ e ∈ written, key = utf8 (entry_key e) ∧ serde.to_vec e = .ok bytes
  writable : ∀ e ∈ written, ∃ bytes, serde.to_vec e = .ok bytes

theorem Stored.put (stored : Stored serde written db) {e : LogEntry} {value : Bytes} (wrote : serde.to_vec e = .ok value)
    (new : ∀ f ∈ written, f.id ≠ e.id) : Stored serde (written ++ [e]) (db.insert (utf8 (entry_key e)) value) where
  puts key bytes := by
    rw [mem_insert,stored.puts,Prod.mk.injEq]
    constructor
    · rintro (⟨here,same⟩ | ⟨⟨f,inside,found⟩,-⟩)
      · exact ⟨e,by simp,here,by rw [wrote,same]⟩
      · exact ⟨f,List.mem_append_left _ inside,found⟩
    · rintro ⟨f,inside,key,bytes⟩
      rcases List.mem_append.mp inside with before | last
      · right
        refine ⟨⟨f,before,key,bytes⟩,?_⟩
        intro same
        exact new f before (key_inj (key.symm.trans same))
      · left
        obtain rfl := List.mem_singleton.mp last
        rw [wrote] at bytes
        exact ⟨key,(Except.ok.inj bytes).symm⟩
  writable f inside := by
    rcases List.mem_append.mp inside with before | last
    · exact stored.writable f before
    · exact ⟨value,by rw [List.mem_singleton.mp last]; exact wrote⟩

theorem Stored.batch {entries : List LogEntry} {puts : List (Bytes × Bytes)} (stored : Stored serde written db)
    (wrote : batch serde entries = .ok puts) (distinct : ((written ++ entries).map LogEntry.id).Nodup) :
    Stored serde (written ++ entries) (puts.foldl (fun db put => db.insert put.1 put.2) db) := by
  induction entries generalizing written db puts with
  | nil =>
    cases wrote
    rw [List.append_nil]
    exact stored
  | cons e entries ih =>
    unfold LogKeys.batch at wrote
    split at wrote
    · cases wrote
    · rename_i value bytes
      cases rest : LogKeys.batch serde entries with
      | error e =>
        rw [rest] at wrote
        cases wrote
      | ok puts' =>
        rw [rest] at wrote
        cases wrote
        have new : ∀ f ∈ written, f.id ≠ e.id := by
          intro f inside
          rw [List.map_append,List.nodup_append] at distinct
          exact distinct.2.2 f.id (List.mem_map_of_mem inside) e.id (by simp)
        have next := ih (stored.put bytes new) rest (by simpa using distinct)
        simpa using next

theorem batch_one {e : LogEntry} {value : Bytes} (wrote : serde.to_vec e = .ok value) :
    batch serde [e] = .ok [(utf8 (entry_key e),value)] := by
  simp [batch,wrote,Except.map]

/-- A call writes all its entries and returns `Ok`, or it writes none. -/
theorem call_cases (serde : Serde) (w : RocksWriter) (call : Call) :
    ((w.call serde call).1 = .ok () ∧ ∃ puts, batch serde call.entries = .ok puts ∧
      (w.call serde call).2.db = puts.foldl (fun db put => db.insert put.1 put.2) w.db) ∨
    (∃ e, (w.call serde call).1 = .error e) ∧ (w.call serde call).2.db = w.db := by
  have nothing : batch serde [] = .ok [] := rfl
  cases call with
  | write_entry e fate =>
    simp only [RocksWriter.call,RocksWriter.write_entry,Call.entries]
    split_ifs
    · exact .inr ⟨⟨_,rfl⟩,rfl⟩
    · cases wrote : serde.to_vec e with
      | error _ => exact .inr ⟨⟨_,rfl⟩,rfl⟩
      | ok value =>
        cases fate with
        | error _ => exact .inr ⟨⟨_,rfl⟩,rfl⟩
        | ok _ => exact .inl ⟨rfl,_,batch_one wrote,by simp only [List.foldl_cons,List.foldl_nil]⟩
  | write_batch entries fate =>
    simp only [RocksWriter.call,RocksWriter.write_batch,Call.entries]
    split_ifs
    · exact .inr ⟨⟨_,rfl⟩,rfl⟩
    · cases wrote : batch serde entries with
      | error _ => exact .inr ⟨⟨_,rfl⟩,rfl⟩
      | ok puts =>
        cases fate with
        | error _ => exact .inr ⟨⟨_,rfl⟩,rfl⟩
        | ok _ => exact .inl ⟨rfl,puts,rfl,rfl⟩
  | flush fate =>
    cases fate with
    | error _ => exact .inr ⟨⟨_,rfl⟩,rfl⟩
    | ok _ => exact .inl ⟨rfl,[],nothing,rfl⟩
  | rotate => exact .inl ⟨rfl,[],nothing,rfl⟩
  | close fate =>
    cases fate with
    | error _ => exact .inr ⟨⟨_,rfl⟩,rfl⟩
    | ok _ => exact .inl ⟨rfl,[],nothing,rfl⟩
  | reopen => exact .inl ⟨rfl,[],nothing,rfl⟩

theorem stored_step {w : World} (stored : (w.written.map LogEntry.id).Nodup → Stored serde w.written w.writer.db) (call : Call)
    (distinct : ((w.step serde call).written.map LogEntry.id).Nodup) : Stored serde (w.step serde call).written (w.step serde call).writer.db := by
  rcases call_cases serde w.writer call with ⟨ok,puts,batched,db⟩ | ⟨⟨e,failed⟩,db⟩
  · have after : w.step serde call = ⟨(w.writer.call serde call).2,w.written ++ call.entries⟩ := by
      simp only [World.step]
      rw [show w.writer.call serde call = (.ok (),(w.writer.call serde call).2) from Prod.ext ok rfl]
    rw [after] at distinct ⊢
    rw [db]
    refine (stored ?_).batch batched distinct
    rw [List.map_append] at distinct
    exact (List.nodup_append.mp distinct).1
  · have after : w.step serde call = ⟨(w.writer.call serde call).2,w.written⟩ := by
      simp only [World.step]
      rw [show w.writer.call serde call = (.error e,(w.writer.call serde call).2) from Prod.ext failed rfl]
    rw [after] at distinct ⊢
    rw [db]
    exact stored distinct

theorem stored_run (calls : List Call) :
    ((World.run serde calls).written.map LogEntry.id).Nodup → Stored serde (World.run serde calls).written (World.run serde calls).writer.db := by
  have initial : Stored serde [] (.empty : SortedMap Bytes Bytes) := by
    constructor
    · intro key bytes
      constructor
      · intro inside
        cases inside
      · rintro ⟨e,inside,-⟩
        cases inside
    · intro e inside
      cases inside
  exact invariant (I := fun w : World => (w.written.map LogEntry.id).Nodup → Stored serde w.written w.writer.db)
    (fun w call stored distinct => stored_step stored call distinct) (fun _ => initial) calls

end

/-! ### Reading a conversation -/

section
variable {serde : Serde} {written : List LogEntry} {db : SortedMap Bytes Bytes} {c : Uuid}

/-- The entry that a binding of the store is read as. -/
def Serde.decoded (serde : Serde) (put : Bytes × Bytes) : Option LogEntry := (serde.from_slice put.2).toOption

theorem Stored.decoded (stored : Stored serde written db) (restored : ∀ e ∈ written, serde.Restores e) {put : Bytes × Bytes}
    (inside : put ∈ db.entries) : ∃ e ∈ written, put.1 = utf8 (entry_key e) ∧ serde.from_slice put.2 = .ok e := by
  obtain ⟨e,member,key,wrote⟩ := (stored.puts put.1 put.2).mp inside
  exact ⟨e,member,key,restored e member put.2 wrote⟩

theorem read_from_eq (start : Bytes) (puts : List (Bytes × Bytes)) (reads : ∀ put ∈ puts, ∃ e, serde.from_slice put.2 = .ok e) :
    read_from serde start puts = .ok ((puts.takeWhile fun put => start <+: put.1).filterMap serde.decoded) := by
  induction puts with
  | nil => rfl
  | cons put puts ih =>
    obtain ⟨key,value⟩ := put
    obtain ⟨e,read⟩ := reads (key,value) List.mem_cons_self
    have rest := ih fun other inside => reads other (List.mem_cons_of_mem _ inside)
    by_cases begins : start <+: key
    · have one : serde.decoded (key,value) = some e := by simp [Serde.decoded,read,Except.toOption]
      rw [List.takeWhile_cons_of_pos (by simpa using begins),List.filterMap_cons_some one]
      simp [read_from,begins,read,rest,Except.map]
    · rw [List.takeWhile_cons_of_neg (by simpa using begins)]
      simp [read_from,begins]

/-- The entries of the conversation that the store holds, in the order of its keys. -/
def inOrder (serde : Serde) (db : SortedMap Bytes Bytes) (c : Uuid) : List LogEntry :=
  (db.entries.filter fun put => utf8 (toChars c ++ ['/']) <+: put.1).filterMap serde.decoded

theorem Stored.read (stored : Stored serde written db) (restored : ∀ e ∈ written, serde.Restores e) (closed : Bool) :
    (RocksWriter.mk db closed).read_conversation serde c = .ok (inOrder serde db c) := by
  rw [RocksWriter.read_conversation,read_from_eq,takeWhile_from_key]
  · rfl
  · intro put inside
    obtain ⟨e,-,-,read⟩ := stored.decoded restored ((List.dropWhile_sublist _).subset inside)
    exact ⟨e,read⟩

theorem Stored.mem_inOrder (stored : Stored serde written db) (restored : ∀ e ∈ written, serde.Restores e) {e : LogEntry} :
    e ∈ inOrder serde db c ↔ e ∈ written ∧ e.conversation_id = c := by
  rw [inOrder,List.mem_filterMap]
  constructor
  · rintro ⟨put,inside,decoded⟩
    obtain ⟨held,begins⟩ := List.mem_filter.mp inside
    obtain ⟨f,member,key,read⟩ := stored.decoded restored held
    have same : f = e := by simpa [Serde.decoded,read,Except.toOption] using decoded
    subst same
    rw [decide_eq_true_eq,key] at begins
    exact ⟨member,prefix_iff.mp begins⟩
  · rintro ⟨member,here⟩
    obtain ⟨bytes,wrote⟩ := stored.writable e member
    have held : (utf8 (entry_key e),bytes) ∈ db.entries := (stored.puts _ _).mpr ⟨e,member,rfl,wrote⟩
    refine ⟨(utf8 (entry_key e),bytes),List.mem_filter.mpr ⟨held,?_⟩,?_⟩
    · simpa using prefix_iff.mpr here
    · simp [Serde.decoded,restored e member bytes wrote,Except.toOption]

theorem Stored.ascending (stored : Stored serde written db) (restored : ∀ e ∈ written, serde.Restores e) :
    (inOrder serde db c).Pairwise fun e f => utf8 (entry_key e) < utf8 (entry_key f) := by
  have keyed : ∀ put ∈ db.entries, ∀ e ∈ serde.decoded put, put.1 = utf8 (entry_key e) := by
    intro put inside e decoded
    obtain ⟨f,-,key,read⟩ := stored.decoded restored inside
    have same : f = e := by simpa [Serde.decoded,read,Except.toOption] using decoded
    rw [key,same]
  apply List.Pairwise.filterMap _ _ ((List.Pairwise.and_mem.mp db.ascending).filter _)
  rintro put put' ⟨inside,inside',less⟩ e decoded f decoded'
  rw [← keyed put inside e decoded,← keyed put' inside' f decoded']
  exact less

theorem Stored.perm (stored : Stored serde written db) (restored : ∀ e ∈ written, serde.Restores e)
    (distinct : (written.map LogEntry.id).Nodup) : inOrder serde db c ~ written.filter fun e => e.conversation_id = c := by
  apply (List.perm_ext_iff_of_nodup _ (distinct.of_map _ |>.filter _)).mpr
  · intro e
    rw [stored.mem_inOrder restored,List.mem_filter,decide_eq_true_eq]
  · exact (stored.ascending restored).imp fun less same => by
      subst same
      exact lt_irrefl _ less

/-- A list in the order of one measure is in the order of another if and only if the measures agree on its members. -/
theorem sorted_iff {A B : Type} [LinearOrder A] [LinearOrder B] {f : LogEntry → A} {g : LogEntry → B} {es : List LogEntry}
    (ascending : es.Pairwise fun a b => f a < f b) :
    (es.Pairwise fun a b => g a ≤ g b) ↔ ∀ a ∈ es, ∀ b ∈ es, g a < g b → f a < f b := by
  constructor
  · intro sorted a inside b inside'
    have forwards : es.Pairwise fun a b => g a < g b → f a < f b := by
      apply ascending.imp
      intro x y before _
      exact before
    have backwards : es.Pairwise (flip fun a b => g a < g b → f a < f b) := by
      apply sorted.imp
      intro x y le less
      exact absurd less (not_lt.mpr le)
    exact forwards.forall_of_forall_of_flip (fun x _ less => absurd less (lt_irrefl _)) backwards inside inside'
  · intro agree
    apply (List.Pairwise.and_mem.mp ascending).imp
    rintro a b ⟨inside,inside',before⟩
    by_contra less
    exact absurd (agree b inside' a inside (not_le.mp less)) before.not_gt

end

/-- The turns of two entries are in the order of their numbers also by as many digits as the shorter one has. -/
def TurnsAgree (e f : LogEntry) : Prop :=
  e.turn_number < f.turn_number → e.turn_number.toNat ≤ f.turn_number.toNat / 10 ^ (width f.turn_number - width e.turn_number)

section
variable {serde : Serde} {written : List LogEntry} {db : SortedMap Bytes Bytes} {c : Uuid}

theorem Stored.in_turn_iff (stored : Stored serde written db) (restored : ∀ e ∈ written, serde.Restores e) :
    ((inOrder serde db c).Pairwise fun e f => e.turn_number ≤ f.turn_number) ↔
      ∀ e ∈ written, ∀ f ∈ written, e.conversation_id = c → f.conversation_id = c → TurnsAgree e f := by
  have numbers := sorted_iff (g := fun e => e.turn_number.toNat) (stored.ascending (c := c) restored)
  simp only [← UInt64.le_iff_toNat_le,← UInt64.lt_iff_toNat_lt] at numbers
  rw [numbers]
  constructor
  · intro agree e member f member' here here' less
    have before := agree e ((stored.mem_inOrder restored).mpr ⟨member,here⟩) f ((stored.mem_inOrder restored).mpr ⟨member',here'⟩) less
    exact (key_lt (here.trans here'.symm) less).mp before
  · intro agree e inside f inside' less
    obtain ⟨member,here⟩ := (stored.mem_inOrder restored).mp inside
    obtain ⟨member',here'⟩ := (stored.mem_inOrder restored).mp inside'
    exact (key_lt (here.trans here'.symm) less).mpr (agree e member f member' here here' less)

end

section
open Daf.MissionPlan (AgentId)

/-- A note in conversation 7. -/
def note (id : Uuid) (turn : UInt64) : LogEntry :=
  ⟨id,0,⟨1⟩,none,7,turn,.Text,.string "hi",.object [],[],.Info,""⟩

/-- The JSON that serde writes of a note, behind its id. -/
def noteRest (turn : UInt64) : List Char :=
  ("\",\"timestamp\":\"1970-01-01T00:00:00Z\"," ++
    "\"source_agent\":\"00000000-0000-0000-0000-000000000001\",\"target_agent\":null," ++
    "\"conversation_id\":\"00000000-0000-0000-0000-000000000007\",\"turn_number\":").toList ++ Nat.toDigits 10 turn.toNat ++
    ",\"content_type\":\"text\",\"content\":\"hi\",\"metadata\":\x7b\x7d,\"tags\":[],\"level\":\"info\",\"content_hash\":\"\"\x7d".toList

/-- The JSON that serde writes of a note. -/
def noteText (id : Uuid) (turn : UInt64) : List Char := "\x7b\"id\":\"".toList ++ (toChars id ++ noteRest turn)

theorem noteText_length (id : Uuid) (turn : UInt64) : 0 < (noteText id turn).length := by
  have long := toChars_length id
  unfold noteText
  rw [List.length_append,List.length_append]
  omega

def noteJson (id : Uuid) (turn : UInt64) : Bytes := utf8 (noteText id turn)

/-- The JSON of two notes with the ids 1 and 2. -/
def noteSerde (turn turn' : UInt64) : Serde where
  to_vec entry :=
    if entry = note 1 turn then .ok (noteJson 1 turn)
    else if entry = note 2 turn' then .ok (noteJson 2 turn')
    else .error "key must be a string"
  from_slice bytes :=
    if bytes = noteJson 1 turn then .ok (note 1 turn)
    else if bytes = noteJson 2 turn' then .ok (note 2 turn')
    else .error "expected value"

theorem noteText_apart (turn turn' : UInt64) : noteText 2 turn' ≠ noteText 1 turn := by
  intro same
  have rest : toChars 2 ++ noteRest turn' = toChars 1 ++ noteRest turn := List.append_cancel_left same
  have ids := (List.append_inj rest (by rw [toChars_length,toChars_length])).1
  exact absurd (toChars_inj ids) (by decide)

theorem noteJson_apart (turn turn' : UInt64) : noteJson 2 turn' ≠ noteJson 1 turn := by
  unfold noteJson
  exact fun same => noteText_apart turn turn' (utf8_inj same)

theorem note_apart (turn turn' : UInt64) : note 2 turn' ≠ note 1 turn := by
  intro same
  have ids : (2 : Uuid) = 1 := congrArg LogEntry.id same
  exact absurd ids (by decide)

/-- Two notes written in one batch. -/
def twoNotes (turn turn' : UInt64) : List Call := [.write_batch [note 1 turn,note 2 turn'] (.ok ())]

theorem twoNotes_written (turn turn' : UInt64) :
    (World.run (noteSerde turn turn') (twoNotes turn turn')).written = [note 1 turn,note 2 turn'] := by
  have first : (noteSerde turn turn').to_vec (note 1 turn) = .ok (noteJson 1 turn) := by
    unfold noteSerde
    dsimp only
    rw [if_pos rfl]
  have second : (noteSerde turn turn').to_vec (note 2 turn') = .ok (noteJson 2 turn') := by
    unfold noteSerde
    dsimp only
    rw [if_neg (note_apart turn turn'),if_pos rfl]
  have puts : batch (noteSerde turn turn') [note 1 turn,note 2 turn'] =
      .ok [(utf8 (entry_key (note 1 turn)),noteJson 1 turn),(utf8 (entry_key (note 2 turn')),noteJson 2 turn')] := by
    rw [batch,first,batch_one second]
    rfl
  simp only [World.run,twoNotes,Runs.run,List.foldl_cons,List.foldl_nil,World.step,RocksWriter.call,RocksWriter.write_batch,World.new,RocksWriter.new,
    Bool.false_eq_true,if_false,puts,Call.entries,List.nil_append]

theorem twoNotes_distinct (turn turn' : UInt64) :
    ((World.run (noteSerde turn turn') (twoNotes turn turn')).written.map LogEntry.id).Nodup := by
  rw [twoNotes_written]
  show ([1,2] : List Uuid).Nodup
  decide

theorem twoNotes_restored (turn turn' : UInt64) :
    ∀ e ∈ (World.run (noteSerde turn turn') (twoNotes turn turn')).written, (noteSerde turn turn').Restores e := by
  rw [twoNotes_written]
  intro e inside bytes wrote
  rcases List.mem_pair.mp inside with rfl | rfl
  · have same : noteJson 1 turn = bytes := by
      unfold noteSerde at wrote
      dsimp only at wrote
      rw [if_pos rfl] at wrote
      exact Except.ok.inj wrote
    rw [← same]
    unfold noteSerde
    dsimp only
    rw [if_pos rfl]
  · have same : noteJson 2 turn' = bytes := by
      unfold noteSerde at wrote
      dsimp only at wrote
      rw [if_neg (note_apart turn turn'),if_pos rfl] at wrote
      exact Except.ok.inj wrote
    rw [← same]
    unfold noteSerde
    dsimp only
    rw [if_neg (noteJson_apart turn turn'),if_pos rfl]

end
end Daf.LogKeys
