import Daf.LogEntries
import Mathlib.Data.List.Forall2

/-!
The sink that redacts secrets, and what two entries have to share for it to forward the same.
-/
namespace Daf.Redaction
open Daf.Json Daf.LogEntries

def patterns : List String := ["password","secret","token","api_key","apikey","api-key","authorization","credential"]

section
variable (to_lowercase : String → String)

/-- The text contains one of the patterns, whatever its case. -/
def sensitive (text : String) : Bool := patterns.any (contains (to_lowercase text))

def redactContent (entry : LogEntry) : LogEntry :=
  match entry.content with
  | .string s =>
    if sensitive to_lowercase s then
      { entry with content := .string "[REDACTED: contains sensitive content]",tags := entry.tags ++ ["redacted"] }
    else entry
  | _ => entry

abbrev Fields := List (String × Value)

/-- The map with another value at one of its keys. -/
def insert (map : Fields) (key : String) (value : Value) : Fields := map.map fun field => if field.1 = key then (key,value) else field

/-- What is done for one key of the metadata: the new map so far, and whether it has changed. -/
def visit (redacted : Fields × Bool) (key : String) : Fields × Bool :=
  if sensitive to_lowercase key then (insert redacted.1 key (.string "[REDACTED]"),true) else redacted

def redactMetadata (entry : LogEntry) : LogEntry :=
  match entry.metadata with
  | .object map =>
    let redacted := (map.map Prod.fst).foldl (visit to_lowercase) (map,false)
    if redacted.2 then { entry with metadata := .object redacted.1 } else entry
  | _ => entry

def redact (entry : LogEntry) : LogEntry := redactMetadata to_lowercase (redactContent to_lowercase entry)

/-- The sink hands on what it has redacted. -/
def process {Outcome : Type} (downstream : LogEntry → Outcome) (entry : LogEntry) : Outcome := downstream (redact to_lowercase entry)

end

/-! ### Entries that differ in secrets -/

/-- The entries that can be made. -/
inductive Built (digest : Digest) : LogEntry → Prop
  | new (id timestamp source_agent target_agent conversation_id turn_number content_type content level) :
    Built digest (LogEntry.new digest id timestamp source_agent target_agent conversation_id turn_number content_type content level)
  | with_tag {entry : LogEntry} (tag : String) (built : Built digest entry) : Built digest (entry.with_tag tag)
  | with_metadata {entry : LogEntry} (metadata : Value) (built : Built digest entry) : Built digest (entry.with_metadata metadata)

section
variable (secret : String → Bool)

mutual

/-- The same values, but for what is under secret keys at any depth. -/
def Alike : Value → Value → Prop
  | .array as,.array bs => AlikeItems as bs
  | .object as,.object bs => AlikeFields as bs
  | a,b => a = b

def AlikeItems : List Value → List Value → Prop
  | [],[] => True
  | a :: as,b :: bs => Alike a b ∧ AlikeItems as bs
  | _,_ => False

def AlikeFields : Fields → Fields → Prop
  | [],[] => True
  | (k,a) :: as,(l,b) :: bs => k = l ∧ (secret k ∨ Alike a b) ∧ AlikeFields as bs
  | _,_ => False

end

/-- Contents that differ in secrets: two secret texts, or values under secret keys. -/
inductive AlikeContent : Value → Value → Prop
  | text {s t : String} (left : secret s) (right : secret t) : AlikeContent (.string s) (.string t)
  | structured {a b : Value} (alike : Alike secret a b) : AlikeContent a b

/-- The same values, but for what is under the secret keys of the whole. -/
def AlikeOutside : Value → Value → Prop
  | .object as,.object bs => List.Forall₂ (fun a b => a.1 = b.1 ∧ (secret a.1 ∨ a.2 = b.2)) as bs
  | a,b => a = b

/-- Entries that are the same but for secrets in their content and metadata. The hash goes with the content. -/
structure Differ (e f : LogEntry) : Prop where
  id : e.id = f.id
  timestamp : e.timestamp = f.timestamp
  source_agent : e.source_agent = f.source_agent
  target_agent : e.target_agent = f.target_agent
  conversation_id : e.conversation_id = f.conversation_id
  turn_number : e.turn_number = f.turn_number
  content_type : e.content_type = f.content_type
  tags : e.tags = f.tags
  level : e.level = f.level
  content : AlikeContent secret e.content f.content
  metadata : Alike secret e.metadata f.metadata

end

theorem Built.hash {digest : Digest} {entry : LogEntry} (built : Built digest entry) : entry.content_hash = digest.of entry.content := by
  induction built with
  | new => rfl
  | with_tag _ _ ih => exact ih
  | with_metadata _ _ ih => exact ih

/-- Every entry that can be made verifies. -/
theorem Built.verifies {digest : Digest} {entry : LogEntry} (built : Built digest entry) : entry.verify_integrity digest = true :=
  decide_eq_true built.hash.symm

/-! ### What is forwarded -/

section
variable {to_lowercase : String → String}

/-- A field with its value redacted. -/
def maskField (to_lowercase : String → String) (field : String × Value) : String × Value :=
  if sensitive to_lowercase field.1 then (field.1,.string "[REDACTED]") else field

def maskMetadata (to_lowercase : String → String) : Value → Value
  | .object map => .object (map.map (maskField to_lowercase))
  | other => other

/-- The keys that have been visited are redacted. -/
theorem visit_all (keys : List String) (map : Fields) (changed : Bool) :
    keys.foldl (visit to_lowercase) (map,changed) =
      (map.map (fun field => if field.1 ∈ keys then maskField to_lowercase field else field),changed || keys.any (sensitive to_lowercase)) := by
  induction keys generalizing map changed with
  | nil => simp
  | cons key keys ih =>
    rw [List.foldl_cons,visit]
    cases found : sensitive to_lowercase key with
    | false =>
      rw [if_neg (by simp),ih,List.any_cons,found,Bool.false_or]
      refine Prod.ext (List.map_congr_left fun field _ => ?_) rfl
      by_cases same : field.1 = key
      · have plain : maskField to_lowercase field = field := by simp [maskField,same,found]
        simp [plain]
      · simp [same]
    | true =>
      rw [if_pos rfl,ih,List.any_cons,found,insert,List.map_map]
      refine Prod.ext (List.map_congr_left fun field _ => ?_) (by simp)
      by_cases same : field.1 = key
      · have masked : maskField to_lowercase field = (key,.string "[REDACTED]") := by simp [maskField,same,found]
        have again : maskField to_lowercase (key,.string "[REDACTED]") = (key,.string "[REDACTED]") := by simp [maskField,found]
        simp [same,masked,again]
      · simp [same]

theorem redactMetadata_eq (entry : LogEntry) :
    redactMetadata to_lowercase entry = { entry with metadata := maskMetadata to_lowercase entry.metadata } := by
  obtain ⟨id,timestamp,source,target,conversation,turn,type,content,metadata,tags,level,hash⟩ := entry
  cases metadata with
  | object map =>
    have keys : map.map (fun field => if field.1 ∈ map.map Prod.fst then maskField to_lowercase field else field) = map.map (maskField to_lowercase) :=
      List.map_congr_left fun field inside => if_pos (List.mem_map_of_mem inside)
    simp only [redactMetadata,maskMetadata,visit_all,keys,Bool.false_or]
    split
    · rfl
    · next none_found =>
      have same : map.map (maskField to_lowercase) = map := by
        refine (List.map_congr_left fun field inside => ?_).trans (List.map_id map)
        have plain : ¬ sensitive to_lowercase field.1 := fun found => none_found (List.any_eq_true.mpr ⟨_,List.mem_map_of_mem inside,found⟩)
        exact if_neg plain
      rw [same]
  | _ => rfl

theorem maskField_eq_iff (a b : String × Value) :
    maskField to_lowercase a = maskField to_lowercase b ↔ a.1 = b.1 ∧ (sensitive to_lowercase a.1 ∨ a.2 = b.2) := by
  obtain ⟨k,v⟩ := a
  obtain ⟨l,w⟩ := b
  have keys (field : String × Value) : (maskField to_lowercase field).1 = field.1 := by
    unfold maskField
    split <;> rfl
  constructor
  · intro same
    have key := congrArg Prod.fst same
    rw [keys,keys] at key
    change k = l at key
    subst key
    refine ⟨rfl,?_⟩
    by_cases found : sensitive to_lowercase k
    · exact .inl found
    · simp only [maskField,if_neg found] at same
      exact .inr (congrArg Prod.snd same)
  · rintro ⟨key,found | value⟩
    · change k = l at key
      subst key
      simp only [maskField,if_pos found]
    · rw [show (k,v) = (l,w) from Prod.ext key value]

theorem maskMetadata_eq_iff (a b : Value) : maskMetadata to_lowercase a = maskMetadata to_lowercase b ↔ AlikeOutside (sensitive to_lowercase) a b := by
  cases a <;> cases b <;> simp only [maskMetadata,AlikeOutside,reduceCtorEq]
  case object.object as bs =>
    rw [Value.object.injEq,← List.forall₂_eq_eq_eq,List.forall₂_map_left_iff,List.forall₂_map_right_iff]
    simp only [maskField_eq_iff]

/-- The hash is forwarded as it is, and with it what tells the contents apart. -/
theorem content_of_forwarded {digest : Digest} {e f : LogEntry} (built : Built digest e) (built' : Built digest f)
    (collision_free : digest.of e.content = digest.of f.content → e.content = f.content)
    (same : redact to_lowercase e = redact to_lowercase f) : e.content = f.content := by
  have kept (entry : LogEntry) : (redact to_lowercase entry).content_hash = entry.content_hash := by
    rw [redact,redactMetadata_eq,redactContent]
    split
    · split <;> rfl
    · rfl
  have hashes := congrArg LogEntry.content_hash same
  rw [kept,kept,built.hash,built'.hash] at hashes
  exact collision_free hashes

end

/-- Of two entries that differ in secrets the same is forwarded exactly where their contents are equal and
their metadata differ only under secret keys of the whole. -/
theorem redaction_exact (to_lowercase : String → String) (digest : Digest) (e f : LogEntry) (built : Built digest e) (built' : Built digest f)
    (collision_free : digest.of e.content = digest.of f.content → e.content = f.content) (differ : Differ (sensitive to_lowercase) e f) :
    redact to_lowercase e = redact to_lowercase f ↔ e.content = f.content ∧ AlikeOutside (sensitive to_lowercase) e.metadata f.metadata := by
  have metadata (entry : LogEntry) : (redact to_lowercase entry).metadata = maskMetadata to_lowercase entry.metadata := by
    rw [redact,redactMetadata_eq,redactContent]
    split
    · split <;> rfl
    · rfl
  constructor
  · intro same
    refine ⟨content_of_forwarded built built' collision_free same,?_⟩
    rw [← maskMetadata_eq_iff,← metadata,← metadata,same]
  · rintro ⟨content,outside⟩
    have hash : e.content_hash = f.content_hash := by rw [built.hash,built'.hash,content]
    have masked := (maskMetadata_eq_iff _ _).mpr outside
    obtain ⟨id,timestamp,source,target,conversation,turn,type,value,meta',tags,level,hash'⟩ := e
    obtain ⟨id',timestamp',source',target',conversation',turn',type',value',meta'',tags',level',hash''⟩ := f
    obtain ⟨rfl,rfl,rfl,rfl,rfl,rfl,rfl,rfl,rfl,-,-⟩ := differ
    cases content
    cases hash
    change maskMetadata to_lowercase meta' = maskMetadata to_lowercase meta'' at masked
    simp only [redact,redactMetadata_eq,redactContent]
    cases value with
    | string s =>
      simp only
      split <;> simp only [masked]
    | _ => simp only [masked]

/-! ### A secret in each place -/

/-- The bytes of a text are its hash. -/
def textDigest : Digest where
  to_vec
    | .string s => s.toUTF8.toList
    | _ => []
  hash bytes := String.ofList (bytes.map fun byte => Char.ofNat byte.toNat)

def sample (content metadata : Value) : LogEntry := (LogEntry.new textDigest 1 0 ⟨2⟩ none 3 0 .Structured content .Info).with_metadata metadata

def credentials (value : String) : Value := .object [("password",.string value)]

theorem sample_built (content metadata : Value) : Built textDigest (sample content metadata) := .with_metadata metadata (.new ..)

theorem sample_differ {content content' metadata metadata' : Value} (contents : AlikeContent (sensitive id) content content')
    (alike : Alike (sensitive id) metadata metadata') : Differ (sensitive id) (sample content metadata) (sample content' metadata') where
  id := rfl
  timestamp := rfl
  source_agent := rfl
  target_agent := rfl
  conversation_id := rfl
  turn_number := rfl
  content_type := rfl
  tags := rfl
  level := rfl
  content := contents
  metadata := alike

/-- A value under a secret key of the metadata is not forwarded. -/
theorem password_redacted : redact id (sample .null (credentials "a")) = redact id (sample .null (credentials "b")) := by
  have differ := sample_differ (.structured (show Alike (sensitive id) .null .null from rfl))
    (show Alike (sensitive id) (credentials "a") (credentials "b") from ⟨rfl,.inl (by decide),trivial⟩)
  refine (redaction_exact id textDigest (sample .null (credentials "a")) (sample .null (credentials "b")) (sample_built ..) (sample_built ..)
    (fun _ => rfl) differ).mpr ⟨rfl,?_⟩
  exact .cons ⟨rfl,.inl (by decide)⟩ .nil

/-- Two texts with passwords, two values under a key of the content, and two values under a key inside the metadata. -/
theorem passwords_forwarded :
    (Differ (sensitive id) (sample (.string "password a") .null) (sample (.string "password b") .null) ∧
      redact id (sample (.string "password a") .null) ≠ redact id (sample (.string "password b") .null)) ∧
    (Differ (sensitive id) (sample (credentials "a") .null) (sample (credentials "b") .null) ∧
      redact id (sample (credentials "a") .null) ≠ redact id (sample (credentials "b") .null)) ∧
    Differ (sensitive id) (sample .null (.array [credentials "a"])) (sample .null (.array [credentials "b"])) ∧
      redact id (sample .null (.array [credentials "a"])) ≠ redact id (sample .null (.array [credentials "b"])) := by
  have alike : Alike (sensitive id) (credentials "a") (credentials "b") := ⟨rfl,.inl (by decide),trivial⟩
  refine ⟨⟨sample_differ (.text (by decide) (by decide)) rfl,by decide +kernel⟩,⟨sample_differ (.structured alike) rfl,by decide⟩,?_,by decide⟩
  exact sample_differ (.structured rfl) ⟨alike,trivial⟩

end Daf.Redaction
