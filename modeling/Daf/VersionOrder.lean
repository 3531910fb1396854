import Daf.Versions
import Daf.Wildcards

/-!
The order of versions. It is total, and the precedence of semantic versioning but for some pre-releases:
their identifiers are compared as one text.
-/
namespace Daf.VersionOrder
open Daf.Versions

/-! ### A total order -/

/-- The order of pre-releases, with the release above them. -/
def pre_cmp : Option (List Char) → Option (List Char) → Ordering
  | none,none => .eq
  | some _,none => .lt
  | none,some _ => .gt
  | some a,some b => text_cmp a b

instance : Std.TransCmp text_cmp := inferInstanceAs (Std.TransCmp (List.compareLex compare))

instance : Std.LawfulEqCmp text_cmp := inferInstanceAs (Std.LawfulEqCmp (List.compareLex compare))

theorem text_cmp_swap (a b : List Char) : text_cmp a b = (text_cmp b a).swap := Std.OrientedCmp.eq_swap

theorem pre_cmp_swap (a b : Option (List Char)) : pre_cmp a b = (pre_cmp b a).swap := by
  cases a with
  | none => cases b <;> rfl
  | some a =>
    cases b with
    | none => rfl
    | some b => exact text_cmp_swap a b

theorem pre_cmp_trans {a b c : Option (List Char)} (first : (pre_cmp a b).isLE) (second : (pre_cmp b c).isLE) : (pre_cmp a c).isLE := by
  cases c with
  | none => cases a <;> rfl
  | some c =>
    cases b with
    | none => exact absurd second (by simp [pre_cmp])
    | some b =>
      cases a with
      | none => exact absurd first (by simp [pre_cmp])
      | some a =>
        have below : (text_cmp a c).isLE := Std.TransCmp.isLE_trans (b := b) first second
        exact below

/-- The order of the pre-releases of two versions. -/
def tag_cmp (v w : SemVer) : Ordering := pre_cmp v.pre_release w.pre_release

instance : Std.TransCmp tag_cmp where
  eq_swap := pre_cmp_swap _ _
  isLE_trans := pre_cmp_trans

instance : Std.TransCmp SemVer.numeric_cmp :=
  inferInstanceAs (Std.TransCmp (compareLex (compareOn SemVer.major) (compareLex (compareOn SemVer.minor) (compareOn SemVer.patch))))

/-- Versions are compared by their numbers, and then by their pre-releases. -/
theorem cmp_then (v w : SemVer) : v.cmp w = (v.numeric_cmp w).then (tag_cmp v w) := by
  rw [SemVer.cmp]
  cases v.numeric_cmp w with
  | lt => rfl
  | gt => rfl
  | eq => rw [tag_cmp]; cases v.pre_release <;> cases w.pre_release <;> rfl

instance : Std.TransCmp SemVer.cmp := by
  have both : SemVer.cmp = compareLex SemVer.numeric_cmp tag_cmp := funext fun v => funext fun w => cmp_then v w
  rw [both]
  infer_instance

theorem numeric_cmp_eq (v w : SemVer) : v.numeric_cmp w = .eq ↔ v.major = w.major ∧ v.minor = w.minor ∧ v.patch = w.patch := by
  simp [SemVer.numeric_cmp]

theorem pre_cmp_eq (a b : Option (List Char)) : pre_cmp a b = .eq ↔ a = b := by
  cases a <;> cases b <;> simp [pre_cmp]

theorem cmp_eq (v w : SemVer) : v.cmp w = .eq ↔ v.eq w := by
  rw [cmp_then,Ordering.then_eq_eq,numeric_cmp_eq,tag_cmp,pre_cmp_eq,SemVer.eq]
  simp [and_assoc]

/-! ### Precedence -/

def identifiers (pre : List Char) : List (List Char) := pre.splitOn '.'

/-- The value of an identifier of digits. -/
def numeric (identifier : List Char) : Option Nat :=
  if identifier ≠ [] ∧ identifier.all Char.isDigit then some (Nat.ofDigitChars 10 identifier 0) else none

/-- Numbers by their values and below the others, which are ordered as texts. -/
def id_cmp (a b : List Char) : Ordering :=
  match numeric a,numeric b with
  | some m,some n => compare m n
  | some _,none => .lt
  | none,some _ => .gt
  | none,none => text_cmp a b

/-- From left to right; a shorter list is below a longer one that begins with it. -/
def ids_cmp : List (List Char) → List (List Char) → Ordering := List.compareLex id_cmp

/-- The precedence of semantic versioning. -/
def precedence (v w : SemVer) : Ordering :=
  (v.numeric_cmp w).then <|
    match v.pre_release,w.pre_release with
    | none,none => .eq
    | some _,none => .lt
    | none,some _ => .gt
    | some a,some b => ids_cmp (identifiers a) (identifiers b)

/-- The other identifier goes on with a character below the dot, which stands behind this one. -/
def Undercut (identifier other : List Char) (more : List (List Char)) : Prop := more ≠ [] ∧ ∃ c rest, other = identifier ++ c :: rest ∧ c < '.'

/-- At the first place where they differ, the order of the identifiers is that of the texts they stand in. -/
def Agrees : List (List Char) → List (List Char) → Prop
  | a :: as,b :: bs =>
    if a = b then Agrees as bs
    else
      match numeric a,numeric b with
      -- numbers of one value leave it to the later identifiers
      | some m,some n => text_cmp a b = (compare m n).then (ids_cmp as bs)
      | some _,none => text_cmp a b = .lt ∧ ¬ Undercut a b as
      | none,some _ => text_cmp a b = .gt ∧ ¬ Undercut b a bs
      | none,none => ¬ Undercut a b as ∧ ¬ Undercut b a bs
  | _,_ => True

/-- The identifiers with a dot before each. -/
def behind : List (List Char) → List Char
  | [] => []
  | a :: as => '.' :: (a ++ behind as)

theorem behind_identifiers (pre : List Char) : ∃ a as, identifiers pre = a :: as ∧ pre = a ++ behind as ∧ ∀ b ∈ identifiers pre, '.' ∉ b := by
  induction pre with
  | nil => exact ⟨[],[],rfl,rfl,by simp [identifiers]⟩
  | cons c pre ih =>
    obtain ⟨a,as,split,whole,dotless⟩ := ih
    rw [identifiers] at *
    by_cases dot : c = '.'
    · subst dot
      refine ⟨[],a :: as,by rw [Wildcards.splitOn_star,split],by rw [whole]; rfl,?_⟩
      rw [Wildcards.splitOn_star]
      exact List.forall_mem_cons.mpr ⟨List.not_mem_nil,dotless⟩
    · have own : (c :: pre).splitOn '.' = (pre.splitOn '.').modifyHead (c :: ·) := Wildcards.splitOn_own dot
      rw [split,List.modifyHead_cons] at own
      refine ⟨c :: a,as,own,by rw [whole]; rfl,?_⟩
      rw [split] at dotless
      rw [own]
      obtain ⟨first,later⟩ := List.forall_mem_cons.mp dotless
      exact List.forall_mem_cons.mpr ⟨fun inside => (List.mem_cons.mp inside).elim (fun same => dot same.symm) first,later⟩

theorem text_cmp_cons (c d : Char) (s t : List Char) : text_cmp (c :: s) (d :: t) = (compare c d).then (text_cmp s t) := List.compareLex_cons_cons

theorem text_cmp_append (p s t : List Char) : text_cmp (p ++ s) (p ++ t) = text_cmp s t := by
  induction p with
  | nil => rfl
  | cons c p ih =>
    have same : compare c c = .eq := Std.ReflCmp.compare_self
    rw [List.cons_append,List.cons_append,text_cmp_cons,same,ih]
    rfl

theorem char_lt (c d : Char) : compare c d = .lt ↔ c < d := compareOfLessAndEq_eq_lt

theorem char_gt (c d : Char) : compare c d = .gt ↔ d < c := by
  rw [← char_lt,← Ordering.swap_eq_gt,← Std.OrientedOrd.eq_swap]

theorem text_cmp_self (s : List Char) : text_cmp s s = .eq := Std.ReflCmp.compare_self

/-- Two texts differ at some place, or one goes on behind the other. -/
theorem diverge (a b : List Char) : a = b ∨ (∃ p c d s t, a = p ++ c :: s ∧ b = p ++ d :: t ∧ c ≠ d) ∨ (∃ d t, b = a ++ d :: t) ∨ ∃ c s, a = b ++ c :: s := by
  induction a generalizing b with
  | nil =>
    cases b with
    | nil => exact .inl rfl
    | cons d t => exact .inr (.inr (.inl ⟨d,t,rfl⟩))
  | cons c s ih =>
    cases b with
    | nil => exact .inr (.inr (.inr ⟨c,s,rfl⟩))
    | cons d t =>
      by_cases same : c = d
      · subst same
        rcases ih t with rfl | ⟨p,e,f,s',t',rfl,rfl,other⟩ | ⟨e,t',rfl⟩ | ⟨e,s',rfl⟩
        · exact .inl rfl
        · exact .inr (.inl ⟨c :: p,e,f,s',t',rfl,rfl,other⟩)
        · exact .inr (.inr (.inl ⟨e,t',rfl⟩))
        · exact .inr (.inr (.inr ⟨e,s',rfl⟩))
      · exact .inr (.inl ⟨[],c,d,s,t,rfl,rfl,same⟩)

theorem not_undercut_of_diverge {a b p s t : List Char} {c d : Char} {more : List (List Char)} (left : a = p ++ c :: s) (right : b = p ++ d :: t)
    (other : c ≠ d) : ¬ Undercut a b more := by
  rintro ⟨-,e,rest,split,-⟩
  rw [right,left,List.append_assoc,List.append_cancel_left_eq] at split
  exact other (List.cons.inj split).1.symm

theorem not_undercut_of_longer {a b s : List Char} {c : Char} {more : List (List Char)} (longer : b = a ++ c :: s) : ¬ Undercut b a more := by
  rintro ⟨-,e,rest,split,-⟩
  have sizes := congrArg List.length split
  rw [longer] at sizes
  simp at sizes

/-- An identifier that the other goes on from is below it, unless the other goes on with less than the dot behind the first. -/
theorem longer_cmp {a b s : List Char} {c : Char} (longer : b = a ++ c :: s) (dotless : '.' ∉ b) (as : List (List Char)) (rest : List Char) :
    (Undercut a b as → text_cmp (a ++ behind as) (b ++ rest) = .gt) ∧ (¬ Undercut a b as → text_cmp (a ++ behind as) (b ++ rest) = .lt) := by
  subst longer
  have other : c ≠ '.' := by
    rintro rfl
    exact dotless (by simp)
  rw [List.append_assoc,text_cmp_append]
  cases as with
  | nil => exact ⟨fun undercut => absurd rfl undercut.1,fun _ => rfl⟩
  | cons next later =>
    rw [behind,List.cons_append,text_cmp_cons]
    constructor
    · rintro ⟨-,d,rest,split,below⟩
      obtain ⟨rfl,-⟩ := List.cons.inj (List.append_cancel_left split)
      rw [(char_gt _ _).mpr below]
      rfl
    · intro clear
      have above : '.' < c := by
        rcases lt_or_gt_of_ne other with below | above
        · exact absurd ⟨List.cons_ne_nil _ _,c,s,rfl,below⟩ clear
        · exact above
      rw [(char_lt _ _).mpr above]
      rfl

/-- How identifiers that differ are ordered in the texts they stand in. -/
theorem head_cmp {a b : List Char} (other : a ≠ b) (dotless : '.' ∉ a) (dotless' : '.' ∉ b) (as bs : List (List Char)) :
    (Undercut a b as ∧ text_cmp a b = .lt ∧ text_cmp (a ++ behind as) (b ++ behind bs) = .gt) ∨
    (Undercut b a bs ∧ text_cmp a b = .gt ∧ text_cmp (a ++ behind as) (b ++ behind bs) = .lt) ∨
    (¬ Undercut a b as ∧ ¬ Undercut b a bs ∧ text_cmp (a ++ behind as) (b ++ behind bs) = text_cmp a b) := by
  rcases diverge a b with same | ⟨p,c,d,s,t,left,right,apart⟩ | ⟨d,t,longer⟩ | ⟨c,s,longer⟩
  · exact absurd same other
  · refine .inr (.inr ⟨not_undercut_of_diverge left right apart,not_undercut_of_diverge right left (Ne.symm apart),?_⟩)
    rw [left,right,List.append_assoc,List.append_assoc,text_cmp_append,text_cmp_append,List.cons_append,List.cons_append,text_cmp_cons,text_cmp_cons]
    cases order : compare c d with
    | lt => rfl
    | gt => rfl
    | eq => exact absurd (Std.LawfulEqOrd.eq_of_compare order) apart
  · have below : text_cmp a b = .lt := by
      have cancel := text_cmp_append a [] (d :: t)
      rw [List.append_nil] at cancel
      rw [longer,cancel]
      rfl
    obtain ⟨cut,uncut⟩ := longer_cmp longer dotless' as (behind bs)
    by_cases undercut : Undercut a b as
    · exact .inl ⟨undercut,below,cut undercut⟩
    · exact .inr (.inr ⟨undercut,not_undercut_of_longer longer,(uncut undercut).trans below.symm⟩)
  · have above : text_cmp a b = .gt := by
      have cancel := text_cmp_append b (c :: s) []
      rw [List.append_nil] at cancel
      rw [longer,cancel]
      rfl
    obtain ⟨cut,uncut⟩ := longer_cmp longer dotless bs (behind as)
    rw [text_cmp_swap (a ++ behind as)]
    by_cases undercut : Undercut b a bs
    · exact .inr (.inl ⟨undercut,above,by rw [cut undercut]; rfl⟩)
    · exact .inr (.inr ⟨not_undercut_of_longer longer,undercut,by rw [uncut undercut,above]; rfl⟩)

theorem id_cmp_self (a : List Char) : id_cmp a a = .eq := by
  rw [id_cmp]
  cases numeric a with
  | none => exact text_cmp_self a
  | some n => exact Nat.compare_eq_eq.mpr rfl

/-- No identifier is undercut by a number: digits are above the dot. -/
theorem numeric_not_undercut {a b : List Char} {n : Nat} (number : numeric b = some n) (as : List (List Char)) : ¬ Undercut a b as := by
  rintro ⟨-,c,rest,rfl,below⟩
  rw [numeric] at number
  split_ifs at number with digits
  have digit : c.isDigit := List.all_eq_true.mp digits.2 c (by simp)
  have low : c.val.toNat < 46 := UInt32.lt_iff_toNat_lt.mp below
  have high : 48 ≤ c.val.toNat := by
    rw [Char.isDigit,Bool.and_eq_true,decide_eq_true_eq] at digit
    exact UInt32.le_iff_toNat_le.mp digit.1
  omega

/-- What it takes for identifiers that differ. -/
theorem heads_agree {a b : List Char} (other : a ≠ b) (dotless : '.' ∉ a) (dotless' : '.' ∉ b) (as bs : List (List Char)) :
    text_cmp (a ++ behind as) (b ++ behind bs) = ids_cmp (a :: as) (b :: bs) ↔ Agrees (a :: as) (b :: bs) := by
  have apart : text_cmp a b ≠ .eq := fun same => other (Std.LawfulEqCmp.eq_of_compare same)
  have ids : ids_cmp (a :: as) (b :: bs) = (id_cmp a b).then (ids_cmp as bs) := List.compareLex_cons_cons
  rw [ids,id_cmp,Agrees,if_neg other]
  cases left : numeric a with
  | some m =>
    have uncut' := numeric_not_undercut left (a := b) bs
    cases right : numeric b with
    | some n =>
      have uncut := numeric_not_undercut right (a := a) as
      rcases head_cmp other dotless dotless' as bs with ⟨undercut,-⟩ | ⟨undercut,-⟩ | ⟨-,-,order⟩
      · exact absurd undercut uncut
      · exact absurd undercut uncut'
      · rw [order]
    | none =>
      rcases head_cmp other dotless dotless' as bs with ⟨undercut,-,order⟩ | ⟨undercut,-⟩ | ⟨uncut,-,order⟩
      · simp [order,undercut]
      · exact absurd undercut uncut'
      · simp [order,uncut]
  | none =>
    cases right : numeric b with
    | some n =>
      have uncut := numeric_not_undercut right (a := a) as
      rcases head_cmp other dotless dotless' as bs with ⟨undercut,-⟩ | ⟨undercut,-,order⟩ | ⟨-,uncut',order⟩
      · exact absurd undercut uncut
      · simp [order,undercut]
      · simp [order,uncut']
    | none =>
      rcases head_cmp other dotless dotless' as bs with ⟨undercut,below,order⟩ | ⟨undercut,above,order⟩ | ⟨uncut,uncut',order⟩
      · simp [order,undercut,below]
      · simp [order,undercut,above]
      · cases order' : text_cmp a b with
        | lt => simp [order,order',uncut,uncut']
        | gt => simp [order,order',uncut,uncut']
        | eq => exact absurd order' apart

/-- The same identifier in front changes nothing. -/
theorem same_head (a : List Char) (as bs : List (List Char)) :
    (text_cmp (a ++ behind as) (a ++ behind bs) = ids_cmp (a :: as) (a :: bs) ↔ Agrees (a :: as) (a :: bs)) ↔
      (text_cmp (behind as) (behind bs) = ids_cmp as bs ↔ Agrees as bs) := by
  have ids : ids_cmp (a :: as) (a :: bs) = (id_cmp a a).then (ids_cmp as bs) := List.compareLex_cons_cons
  rw [text_cmp_append,ids,id_cmp_self,Agrees,if_pos rfl]
  rfl

/-- The order of the texts is the precedence of the identifiers exactly where they agree at the first place where they differ. -/
theorem texts_agree (a b : List Char) (as bs : List (List Char)) (dotless : ∀ c ∈ a :: as, '.' ∉ c) (dotless' : ∀ c ∈ b :: bs, '.' ∉ c) :
    text_cmp (a ++ behind as) (b ++ behind bs) = ids_cmp (a :: as) (b :: bs) ↔ Agrees (a :: as) (b :: bs) := by
  induction as generalizing a b bs with
  | nil =>
    by_cases same : a = b
    · subst same
      rw [same_head]
      cases bs with
      | nil => exact ⟨fun _ => trivial,fun _ => rfl⟩
      | cons b bs => exact ⟨fun _ => trivial,fun _ => rfl⟩
    · exact heads_agree same (dotless a List.mem_cons_self) (dotless' b List.mem_cons_self) [] bs
  | cons next as ih =>
    by_cases same : a = b
    · subst same
      rw [same_head]
      cases bs with
      | nil => exact ⟨fun _ => trivial,fun _ => rfl⟩
      | cons next' bs =>
        have later := ih next next' bs (fun c member => dotless c (List.mem_cons_of_mem _ member)) (fun c member => dotless' c (List.mem_cons_of_mem _ member))
        rw [← later,behind,behind,text_cmp_cons]
        rfl
    · exact heads_agree same (dotless a List.mem_cons_self) (dotless' b List.mem_cons_self) (next :: as) bs

/-- Where the numbers differ, or one of the versions is a release, the order of versions is the precedence. -/
def Ordered (v w : SemVer) : Prop :=
  v.numeric_cmp w = .eq → ∀ a ∈ v.pre_release, ∀ b ∈ w.pre_release, Agrees (identifiers a) (identifiers b)

theorem cmp_precedence (v w : SemVer) : v.cmp w = precedence v w ↔ Ordered v w := by
  rw [cmp_then,precedence,Ordered,tag_cmp]
  cases v.numeric_cmp w with
  | lt => simp
  | gt => simp
  | eq =>
    cases v.pre_release with
    | none => cases w.pre_release <;> simp [pre_cmp]
    | some a =>
      cases w.pre_release with
      | none => simp [pre_cmp]
      | some b =>
        obtain ⟨first,later,split,whole,dotless⟩ := behind_identifiers a
        obtain ⟨first',later',split',whole',dotless'⟩ := behind_identifiers b
        rw [split] at dotless
        rw [split'] at dotless'
        have agree := texts_agree first first' later later' dotless dotless'
        rw [← whole,← whole',← split,← split'] at agree
        simpa [pre_cmp] using agree

/-- The order of versions is total and has the versions that are equal together, without a look at the build; it is the precedence
exactly where the pre-releases are ordered alike. -/
theorem version_order (v w : SemVer) : (v.cmp w = .eq ↔ v.eq w) ∧ v.cmp w = (w.cmp v).swap ∧
    (∀ u : SemVer, (v.cmp w).isLE → (w.cmp u).isLE → (v.cmp u).isLE) ∧
    (∀ build build' : Option (List Char), { v with build_metadata := build }.cmp { w with build_metadata := build' } = v.cmp w) ∧
    (v.cmp w = precedence v w ↔ Ordered v w) :=
  ⟨cmp_eq v w,Std.OrientedCmp.eq_swap,fun _ => Std.TransCmp.isLE_trans,fun _ _ => rfl,cmp_precedence v w⟩

theorem version_order_release : ((SemVer.new 1 0 0).cmp (SemVer.new 2 0 0)).isLE :=
  (version_order (SemVer.new 1 0 0) (SemVer.new 1 0 1)).2.2.1 (SemVer.new 2 0 0) (by decide) (by decide)

/-- A pre-release with no empty identifiers. -/
def WellFormed (v : SemVer) : Prop := ∀ pre ∈ v.pre_release, ∀ identifier ∈ identifiers pre, identifier ≠ []

/-- alpha.10 is below alpha.9. -/
theorem ten_below_nine : ¬ ∀ v w : SemVer, WellFormed v → WellFormed w → v.cmp w = precedence v w := by
  intro claim
  have formed (last : List Char) (plain : identifiers ("alpha.".toList ++ last) = ["alpha".toList,last]) (nonempty : last ≠ []) :
      WellFormed { SemVer.new 1 0 0 with pre_release := some ("alpha.".toList ++ last) } := by
    rintro _ ⟨⟩ identifier member
    rw [plain] at member
    rcases List.mem_cons.mp member with rfl | member
    · exact List.cons_ne_nil _ _
    · exact List.mem_singleton.mp member ▸ nonempty
  have same := claim _ _ (formed ['1','0'] (by decide) (List.cons_ne_nil _ _)) (formed ['9'] (by decide) (List.cons_ne_nil _ _))
  exact absurd same (by decide)

end Daf.VersionOrder
