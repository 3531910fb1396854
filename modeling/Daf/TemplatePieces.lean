import Daf.Templates

/-!
A template taken apart: texts, and references between braces. Rendering replaces each reference where it
stands, and asks the vault for the names of secrets that are written in the template.
-/
namespace Daf.TemplatePieces
open Daf.Json Daf.Search Daf.DottedPaths Daf.Variables Daf.Templates

/-- A reference with the text before it. -/
structure Piece where
  literal : List Char
  /-- What is written between the braces. -/
  raw : List Char

/-- The reference as it is written. -/
def Piece.written (p : Piece) : List Char := opens ++ p.raw ++ closes

/-- The text and the reference end where they first can. -/
structure Piece.Clear (p : Piece) : Prop where
  literal : ¬ opens <:+: p.literal ++ opens.dropLast
  raw : ¬ closes <:+: p.raw ++ closes.dropLast

/-- No reference that is begun in the text is ended. -/
def Unclosed (last : List Char) : Prop := ∀ before after, last = before ++ opens ++ after → ¬ closes <:+: after

def source (pieces : List Piece) (last : List Char) : List Char := pieces.flatMap (fun p => p.literal ++ p.written) ++ last

/-- The template is these references with the text before each, and the text after the last of them. -/
structure Divides (template : List Char) (pieces : List Piece) (last : List Char) : Prop where
  whole : template = source pieces last
  clear : ∀ p ∈ pieces, p.Clear
  unclosed : Unclosed last

/-! ### Keys -/

/-- The text that a key is replaced by, if it stands for a secret or a variable. -/
def key_text (serde : Serde) (vars : Vars) (vault_resolver : VaultResolver) (key : List Char) : Option (List Char) :=
  match key.dropPrefix? vault with
  | some secret_name => vault_resolver.bind fun resolver => resolver (trim secret_name)
  | none => (resolve vars key).map (value_to_string serde)

/-- The key as the reference to it is written again. -/
def norm (key : List Char) : List Char :=
  match key.dropPrefix? vault with
  | some secret_name => vault ++ trim secret_name
  | none => key

/-- The name that a vault is asked for. -/
def asked (vault_resolver : VaultResolver) (key : List Char) : List (List Char) :=
  match key.dropPrefix? vault with
  | some secret_name => if vault_resolver.isSome then [trim secret_name] else []
  | none => []

/-- `resolve_template_key`, with the names the vault is asked for on the way. -/
def resolve_asking (serde : Serde) (vars : Vars) (vault_resolver : VaultResolver) (key : List Char) : List Char × List (List Char) :=
  match key.dropPrefix? vault with
  | some secret_name =>
    match vault_resolver with
    | some resolver =>
      match resolver (trim secret_name) with
      | some value => (value,[trim secret_name])
      | none => (reference (vault ++ trim secret_name),[trim secret_name])
    | none => (reference (vault ++ trim secret_name),[])
  | none =>
    match resolve vars key with
    | some value => (value_to_string serde value,[])
    | none => (reference key,[])

/-- `render_template_with_vars`, with the names the vault is asked for on the way. -/
def render_asking (serde : Serde) (vars : Vars) (vault_resolver : VaultResolver) (template : List Char) : List Char × List (List Char) :=
  match _start : template.dropInfix? opens with
  | none => (template,[])
  | some (before,after_open) =>
    match _end : after_open.dropInfix? closes with
    | some (raw_key,remaining) =>
      let (replacement,names) := resolve_asking serde vars vault_resolver (trim raw_key)
      let (rest,later) := render_asking serde vars vault_resolver remaining
      (before ++ replacement ++ rest,names ++ later)
    | none =>
      let (rest,later) := render_asking serde vars vault_resolver after_open
      (before ++ opens ++ rest,later)
termination_by template.length
decreasing_by
  all_goals
    have sizes := found_length _start
    have some_left : opens.length = 2 := rfl
    try have sizes' := found_length _end
    omega

section
variable {serde : Serde} {vars : Vars} {vault_resolver : VaultResolver} {template last : List Char} {pieces : List Piece}

theorem resolve_text (key : List Char) :
    resolve_template_key serde vars vault_resolver key = (key_text serde vars vault_resolver key).getD (reference (norm key)) := by
  rw [resolve_template_key,key_text,norm]
  cases key.dropPrefix? vault with
  | some secret_name =>
    cases found : vault_resolver.bind fun resolver => resolver (trim secret_name) with
    | some value => simp [found]
    | none => simp [found]
  | none =>
    cases resolve vars key with
    | some value => rfl
    | none => rfl

theorem resolve_asking_eq (key : List Char) :
    resolve_asking serde vars vault_resolver key = (resolve_template_key serde vars vault_resolver key,asked vault_resolver key) := by
  rw [resolve_asking,resolve_template_key,asked]
  cases key.dropPrefix? vault with
  | some secret_name =>
    cases vault_resolver with
    | some resolver =>
      cases found : resolver (trim secret_name) with
      | some value => simp [found]
      | none => simp [found]
    | none => rfl
  | none =>
    cases resolve vars key with
    | some value => rfl
    | none => rfl

/-! ### One step of the renderer -/

theorem render_absent (absent : template.dropInfix? opens = none) : render_template_with_vars serde vars vault_resolver template = template := by
  rw [render_template_with_vars]
  split
  case h_1 => rfl
  case h_2 found => exact nomatch absent.symm.trans found

theorem render_found {before after_open raw_key remaining : List Char} (start : template.dropInfix? opens = some (before,after_open))
    (closed : after_open.dropInfix? closes = some (raw_key,remaining)) :
    render_template_with_vars serde vars vault_resolver template =
      before ++ resolve_template_key serde vars vault_resolver (trim raw_key) ++ render_template_with_vars serde vars vault_resolver remaining := by
  rw [render_template_with_vars]
  split
  case h_1 absent => exact nomatch start.symm.trans absent
  case h_2 found =>
    obtain ⟨rfl,rfl⟩ := Prod.mk.inj (Option.some.inj (start.symm.trans found))
    split
    case h_1 found' =>
      obtain ⟨rfl,rfl⟩ := Prod.mk.inj (Option.some.inj (closed.symm.trans found'))
      rfl
    case h_2 absent => exact nomatch closed.symm.trans absent

theorem render_unclosed {before after_open : List Char} (start : template.dropInfix? opens = some (before,after_open))
    (unclosed : after_open.dropInfix? closes = none) :
    render_template_with_vars serde vars vault_resolver template = before ++ opens ++ render_template_with_vars serde vars vault_resolver after_open := by
  rw [render_template_with_vars]
  split
  case h_1 absent => exact absurd (start.symm.trans absent) (Option.some_ne_none _)
  case h_2 found =>
    obtain ⟨rfl,rfl⟩ := Prod.mk.inj (Option.some.inj (start.symm.trans found))
    split
    case h_1 found' => exact absurd (found'.symm.trans unclosed) (Option.some_ne_none _)
    case h_2 => rfl

/-- The names are noted beside the text, which is the same. -/
theorem render_asking_fst (template : List Char) :
    (render_asking serde vars vault_resolver template).1 = render_template_with_vars serde vars vault_resolver template := by
  fun_induction render_asking serde vars vault_resolver template with
  | case1 template absent => exact (render_absent absent).symm
  | case2 template before after_open start raw_key remaining closed replacement names resolved rest later rendered ih =>
    rw [render_found start closed,← ih,rendered]
    rw [resolve_asking_eq] at resolved
    rw [(Prod.mk.inj resolved).1]
  | case3 template before after_open start unclosed rest later rendered ih =>
    rw [render_unclosed start unclosed,← ih,rendered]

/-! ### Taking a template apart -/

theorem source_cons (p : Piece) (pieces : List Piece) (last : List Char) :
    source (p :: pieces) last = p.literal ++ opens ++ (p.raw ++ closes ++ source pieces last) := by simp [source,Piece.written]

theorem source_start {p : Piece} (clear : p.Clear) :
    (source (p :: pieces) last).dropInfix? opens = some (p.literal,p.raw ++ closes ++ source pieces last) :=
  (first_iff opens_ne_nil).mpr ⟨source_cons p pieces last,clear.literal⟩

theorem source_end {p : Piece} (clear : p.Clear) (rest : List Char) : (p.raw ++ closes ++ rest).dropInfix? closes = some (p.raw,rest) :=
  (first_iff closes_ne_nil).mpr ⟨rfl,clear.raw⟩

/-- A template has been taken apart when no reference begins in it, or none is ended. -/
theorem divides_nil (unclosed : Unclosed template) : Divides template [] template := ⟨rfl,nofun,unclosed⟩

theorem unclosed_of_absent (absent : template.dropInfix? opens = none) : Unclosed template := by
  rintro before after rfl
  exact absurd ⟨before,after,rfl⟩ (absent_iff.mp absent)

theorem unclosed_of_first {before after_open : List Char} (start : template.dropInfix? opens = some (before,after_open))
    (absent : after_open.dropInfix? closes = none) : Unclosed template := by
  rintro other after split inside
  obtain ⟨whole,first⟩ := found_iff.mp start
  have suffix_after : after <:+ after_open := by
    have sizes := congrArg List.length (whole.symm.trans split)
    have least := first other after split
    simp only [List.length_append] at sizes
    have behind : after <:+ template := split ▸ List.suffix_append _ _
    exact List.suffix_of_suffix_length_le behind (whole ▸ List.suffix_append _ _) (by omega)
  exact absent_iff.mp absent (inside.trans suffix_after.isInfix)

theorem divides_absent (divides : Divides template pieces last) (absent : template.dropInfix? opens = none) : pieces = [] ∧ template = last := by
  cases pieces with
  | nil => exact ⟨rfl,divides.whole⟩
  | cons p pieces =>
    rw [divides.whole,source_start (divides.clear p List.mem_cons_self)] at absent
    exact nomatch absent

theorem divides_found {before after_open raw_key remaining : List Char} (divides : Divides template pieces last)
    (start : template.dropInfix? opens = some (before,after_open)) (closed : after_open.dropInfix? closes = some (raw_key,remaining)) :
    ∃ later, pieces = ⟨before,raw_key⟩ :: later ∧ Divides remaining later last := by
  cases pieces with
  | nil =>
    have inside : closes <:+: after_open := ⟨raw_key,remaining,(found_iff.mp closed).1.symm⟩
    exact absurd inside (divides.unclosed before after_open (divides.whole.symm.trans (found_iff.mp start).1))
  | cons p pieces =>
    have clear := divides.clear p List.mem_cons_self
    rw [divides.whole,source_start clear] at start
    obtain ⟨rfl,rfl⟩ := Prod.mk.inj (Option.some.inj start)
    rw [source_end clear] at closed
    obtain ⟨rfl,rfl⟩ := Prod.mk.inj (Option.some.inj closed)
    exact ⟨pieces,rfl,rfl,fun q member => divides.clear q (List.mem_cons_of_mem _ member),divides.unclosed⟩

theorem divides_unclosed {before after_open : List Char} (divides : Divides template pieces last)
    (start : template.dropInfix? opens = some (before,after_open)) (absent : after_open.dropInfix? closes = none) : pieces = [] ∧ template = last := by
  cases pieces with
  | nil => exact ⟨rfl,divides.whole⟩
  | cons p pieces =>
    have clear := divides.clear p List.mem_cons_self
    rw [divides.whole,source_start clear] at start
    obtain ⟨rfl,rfl⟩ := Prod.mk.inj (Option.some.inj start)
    rw [source_end clear] at absent
    exact nomatch absent

/-- Every template can be taken apart. -/
theorem divides_exists (template : List Char) : ∃ pieces last, Divides template pieces last := by
  cases start : template.dropInfix? opens with
  | none => exact ⟨[],template,divides_nil (unclosed_of_absent start)⟩
  | some parts =>
    cases closed : parts.2.dropInfix? closes with
    | none => exact ⟨[],template,divides_nil (unclosed_of_first start closed)⟩
    | some parts' =>
      obtain ⟨whole,first⟩ := (first_iff opens_ne_nil).mp start
      obtain ⟨whole',first'⟩ := (first_iff closes_ne_nil).mp closed
      have shorter := found_length start
      have shorter' := found_length closed
      obtain ⟨pieces,last,divides⟩ := divides_exists parts'.2
      refine ⟨⟨parts.1,parts'.1⟩ :: pieces,last,?_,List.forall_mem_cons.mpr ⟨⟨first,first'⟩,divides.clear⟩,divides.unclosed⟩
      rw [source_cons,← divides.whole,← whole',whole]
termination_by template.length
decreasing_by
  have some_left : opens.length = 2 := rfl
  have some_left' : closes.length = 2 := rfl
  omega

/-- What rendering makes of the pieces, and the names it asks the vault for. -/
def rendered (serde : Serde) (vars : Vars) (vault_resolver : VaultResolver) (pieces : List Piece) (last : List Char) : List Char :=
  pieces.flatMap (fun p => p.literal ++ resolve_template_key serde vars vault_resolver (trim p.raw)) ++ last

def names (vault_resolver : VaultResolver) (pieces : List Piece) : List (List Char) := pieces.flatMap fun p => asked vault_resolver (trim p.raw)

theorem render_divides (divides : Divides template pieces last) :
    render_asking serde vars vault_resolver template = (rendered serde vars vault_resolver pieces last,names vault_resolver pieces) := by
  fun_induction render_asking serde vars vault_resolver template generalizing pieces last with
  | case1 template absent =>
    obtain ⟨rfl,rfl⟩ := divides_absent divides absent
    rfl
  | case2 template before after_open start raw_key remaining closed replacement asked_now resolved rest later whole ih =>
    obtain ⟨pieces,rfl,remains⟩ := divides_found divides start closed
    rw [resolve_asking_eq] at resolved
    obtain ⟨rfl,rfl⟩ := Prod.mk.inj resolved
    obtain ⟨rfl,rfl⟩ := Prod.mk.inj (whole.symm.trans (ih remains))
    simp [rendered,names]
  | case3 template before after_open start absent rest later whole ih =>
    obtain ⟨rfl,rfl⟩ := divides_unclosed divides start absent
    have none_left : Unclosed after_open := fun other after split inside =>
      absent_iff.mp absent (inside.trans (split ▸ (List.suffix_append _ _).isInfix))
    obtain ⟨rfl,rfl⟩ := Prod.mk.inj (whole.symm.trans (ih (divides_nil none_left)))
    simp [rendered,names,(found_iff.mp start).1]

/-! ### Keys in a template -/

theorem trim_inside (text : List Char) : trim text <:+: text := by
  have back : ((text.dropWhile is_whitespace).reverse.dropWhile is_whitespace).reverse <+: text.dropWhile is_whitespace := by
    rw [← List.reverse_suffix,List.reverse_reverse]
    exact List.dropWhile_suffix _
  exact back.isInfix.trans (List.dropWhile_suffix _).isInfix

theorem vault_split {key secret_name : List Char} (secret : key.dropPrefix? vault = some secret_name) : key = vault ++ secret_name := by
  obtain ⟨front,split,same⟩ := List.dropPrefix?_eq_some_iff.mp secret
  rw [split,beq_iff_eq.mp same]

theorem asked_inside {key name : List Char} (member : name ∈ asked vault_resolver key) : name <:+: key := by
  rw [asked] at member
  cases secret : key.dropPrefix? vault with
  | none => simp [secret] at member
  | some secret_name =>
    rw [secret] at member
    simp only at member
    split at member
    · obtain rfl := List.mem_singleton.mp member
      exact (trim_inside secret_name).trans (vault_split secret ▸ (List.suffix_append _ _).isInfix)
    · exact nomatch member

/-- A key without closing braces has none when it is written again. -/
theorem norm_closed {key : List Char} (closed : ¬ closes <:+: key) : ¬ closes <:+: norm key := by
  rw [norm]
  cases secret : key.dropPrefix? vault with
  | none => exact closed
  | some secret_name =>
    have inside : trim secret_name <:+: key := (trim_inside secret_name).trans (vault_split secret ▸ (List.suffix_append _ _).isInfix)
    simp only
    rw [closes,pair_append]
    rintro (front | back | ⟨colon,-⟩)
    · exact absurd front (by decide)
    · exact closed (back.trans inside)
    · exact absurd colon (by decide)

/-- A reference written again is the one that was written only where both have the same between the braces. -/
theorem rewritten_iff {p : Piece} (clear : p.Clear) {rest rest' : List Char} :
    reference (norm (trim p.raw)) ++ rest = p.written ++ rest' ↔ p.raw = ' ' :: norm (trim p.raw) ++ [' '] ∧ rest = rest' := by
  constructor
  · intro same
    have open_raw : ¬ closes <:+: p.raw := fun inside => clear.raw (inside.trans (List.prefix_append _ _).isInfix)
    have closed : ¬ closes <:+: norm (trim p.raw) := norm_closed fun inside => open_raw (inside.trans (trim_inside p.raw))
    have behind : (' ' :: norm (trim p.raw) ++ [' ']) ++ closes ++ rest = p.raw ++ closes ++ rest' := by
      simpa [reference,Piece.written] using same
    have first : (p.raw ++ closes ++ rest').dropInfix? closes = some (' ' :: norm (trim p.raw) ++ [' '],rest) :=
      (first_iff closes_ne_nil).mpr ⟨behind.symm,spaced_closes closed⟩
    obtain ⟨raw,same_rest⟩ := Prod.mk.inj (Option.some.inj ((source_end clear rest').symm.trans first))
    exact ⟨raw,same_rest.symm⟩
  · rintro ⟨raw,rfl⟩
    rw [reference,Piece.written,← raw]

/-- The template with the references that stand for something replaced, and all else as it is written. -/
def expected (serde : Serde) (vars : Vars) (vault_resolver : VaultResolver) (pieces : List Piece) (last : List Char) : List Char :=
  pieces.flatMap (fun p => p.literal ++ (key_text serde vars vault_resolver (trim p.raw)).getD p.written) ++ last

/-- References that stand for nothing are written with one space on each side of the key. -/
def Spaced (serde : Serde) (vars : Vars) (vault_resolver : VaultResolver) (pieces : List Piece) : Prop :=
  ∀ p ∈ pieces, key_text serde vars vault_resolver (trim p.raw) = none → p.raw = ' ' :: norm (trim p.raw) ++ [' ']

theorem rendered_iff (last : List Char) (clear : ∀ p ∈ pieces, p.Clear) :
    rendered serde vars vault_resolver pieces last = expected serde vars vault_resolver pieces last ↔ Spaced serde vars vault_resolver pieces := by
  induction pieces with
  | nil => exact ⟨fun _ => nofun,fun _ => rfl⟩
  | cons p pieces ih =>
    have later := ih fun q member => clear q (List.mem_cons_of_mem _ member)
    rw [rendered,expected,List.flatMap_cons,List.flatMap_cons,List.append_assoc,List.append_assoc,List.append_assoc,List.append_assoc,
      List.append_cancel_left_eq,Spaced,List.forall_mem_cons,resolve_text]
    rw [rendered,expected] at later
    cases here : key_text serde vars vault_resolver (trim p.raw) with
    | some text => simpa [Spaced] using later
    | none =>
      simp only [Option.getD_none,true_implies]
      rw [rewritten_iff (clear p List.mem_cons_self),later]
      rfl

/-- The names the vault is asked for are written in the template. -/
theorem names_written (divides : Divides template pieces last) {name : List Char} (member : name ∈ names vault_resolver pieces) : name <:+: template := by
  obtain ⟨p,inside,here⟩ := List.mem_flatMap.mp member
  obtain ⟨before,after,rfl⟩ := List.append_of_mem inside
  have raw : p.raw <:+: template := by
    refine ⟨before.flatMap (fun p => p.literal ++ p.written) ++ p.literal ++ opens,
      closes ++ after.flatMap (fun p => p.literal ++ p.written) ++ last,?_⟩
    rw [divides.whole]
    simp [source,Piece.written]
  exact ((asked_inside here).trans (trim_inside p.raw)).trans raw

/-- Rendering as it is described: only the references that stand for something are replaced, each once and by its text alone,
and the vault is asked for names that are written in the template. -/
structure SinglePass (serde : Serde) (m : VarManager) (vault_resolver : VaultResolver) (template : List Char) (pieces : List Piece) (last : List Char) : Prop where
  text : render_template serde m template vault_resolver = expected serde m.merged vault_resolver pieces last
  asks : (render_asking serde m.merged vault_resolver template).2 = names vault_resolver pieces
  written : ∀ name ∈ names vault_resolver pieces, name <:+: template

theorem render_pieces {m : VarManager} (divides : Divides template pieces last) :
    render_template serde m template vault_resolver = rendered serde m.merged vault_resolver pieces last := by
  rw [render_template,← render_asking_fst,render_divides divides]

end

/-- Every template is made of references and the texts between them; rendering is as described exactly where the references
that stand for nothing are written with one space on each side. -/
theorem single_pass (serde : Serde) (m : VarManager) (vault_resolver : VaultResolver) (template : List Char) :
    (∃ pieces last, Divides template pieces last) ∧
    ∀ pieces last, Divides template pieces last →
      (SinglePass serde m vault_resolver template pieces last ↔ Spaced serde m.merged vault_resolver pieces) := by
  refine ⟨divides_exists template,fun pieces last divides => ?_⟩
  rw [← rendered_iff last divides.clear,← render_pieces divides]
  exact ⟨SinglePass.text,fun text => ⟨text,by rw [render_divides divides],fun name => names_written divides⟩⟩

/-- A reference to a variable that is not there stays as it is with its spaces, and not without them. -/
theorem single_pass_spaced : SinglePass ⟨fun _ => [],fun _ => none⟩ VarManager.new none ("a{{ x }}".toList) [⟨['a'],[' ','x',' ']⟩] [] := by
  have divides : Divides ("a{{ x }}".toList) [⟨['a'],[' ','x',' ']⟩] [] := ⟨rfl,by simpa using Piece.Clear.mk (by decide) (by decide),unclosed_of_absent rfl⟩
  refine ((single_pass _ _ _ _).2 _ _ divides).mpr fun p member _ => ?_
  rw [List.mem_singleton.mp member]
  decide

theorem divides_unspaced : Divides ("{{x}}".toList) [⟨[],['x']⟩] [] :=
  ⟨rfl,by simpa using Piece.Clear.mk (by decide) (by decide),unclosed_of_absent rfl⟩

theorem unresolved_not_kept : ¬ ∀ (serde : Serde) (m : VarManager) (vault_resolver : VaultResolver) (template : List Char) (pieces : List Piece)
    (last : List Char), Divides template pieces last → SinglePass serde m vault_resolver template pieces last := by
  intro claim
  have text := (claim ⟨fun _ => [],fun _ => none⟩ VarManager.new none _ _ _ divides_unspaced).text
  rw [render_pieces divides_unspaced] at text
  exact absurd text (by decide)

end Daf.TemplatePieces
