/-!
JSON values as the serializers of the source build them: an integer or a binary
floating point number, and objects with their fields in key order.
-/
namespace Daf.Json

inductive Number where
  | int (value : Int)
  /-- A double, by its bits. -/
  | float (bits : UInt64)
deriving DecidableEq,Repr

inductive Value where
  | null
  | bool (value : Bool)
  | number (value : Number)
  | string (value : String)
  | array (items : List Value)
  | object (fields : List (String × Value))

/-- Numbers of one kind are compared, doubles with the two zeros equal. No double here is NaN. -/
def Number.eq : Number → Number → Bool
  | .int a,.int b => a = b
  | .float a,.float b => a = b ∨ (a <<< 1 = 0 ∧ b <<< 1 = 0)
  | _,_ => false

mutual

def Value.eq : Value → Value → Bool
  | .null,.null => true
  | .bool a,.bool b => a = b
  | .number a,.number b => a.eq b
  | .string a,.string b => a = b
  | .array a,.array b => Value.eqItems a b
  | .object a,.object b => Value.eqFields a b
  | _,_ => false

def Value.eqItems : List Value → List Value → Bool
  | [],[] => true
  | a :: as,b :: bs => a.eq b && Value.eqItems as bs
  | _,_ => false

def Value.eqFields : List (String × Value) → List (String × Value) → Bool
  | [],[] => true
  | (k,a) :: as,(l,b) :: bs => k = l && a.eq b && Value.eqFields as bs
  | _,_ => false

end

theorem Number.eq_refl (n : Number) : n.eq n := by
  cases n <;> simp [Number.eq]

mutual

theorem Value.eq_refl : ∀ v : Value, v.eq v
  | .null => rfl
  | .bool _ => by simp [Value.eq]
  | .number n => by simp [Value.eq,Number.eq_refl n]
  | .string _ => by simp [Value.eq]
  | .array items => by simp [Value.eq,Value.eqItems_refl items]
  | .object fields => by simp [Value.eq,Value.eqFields_refl fields]

theorem Value.eqItems_refl : ∀ items : List Value, Value.eqItems items items
  | [] => rfl
  | v :: later => by simp [Value.eqItems,Value.eq_refl v,Value.eqItems_refl later]

theorem Value.eqFields_refl : ∀ fields : List (String × Value), Value.eqFields fields fields
  | [] => rfl
  | (_,v) :: later => by simp [Value.eqFields,Value.eq_refl v,Value.eqFields_refl later]

end

theorem Number.eq_symm {a b : Number} (same : a.eq b = true) : b.eq a = true := by
  cases a with
  | int a => cases b with
    | int b => simpa [Number.eq,eq_comm] using same
    | float b => cases same
  | float a => cases b with
    | int b => cases same
    | float b =>
      simp only [Number.eq,decide_eq_true_eq] at same ⊢
      rcases same with rfl | ⟨zero,zero'⟩
      · exact .inl rfl
      · exact .inr ⟨zero',zero⟩

theorem Number.eq_trans {a b c : Number} (first : a.eq b = true) (second : b.eq c = true) : a.eq c = true := by
  cases a <;> cases b <;> cases c <;> simp_all [Number.eq]
  rcases first with rfl | ⟨zero,zero'⟩
  · exact second
  · rcases second with rfl | ⟨-,last⟩
    · exact .inr ⟨zero,zero'⟩
    · exact .inr ⟨zero,last⟩

mutual

theorem Value.eq_symm : ∀ {a b : Value}, a.eq b = true → b.eq a = true
  | .null,.null,_ => rfl
  | .bool a,.bool b,same => by simpa [Value.eq,eq_comm] using same
  | .number a,.number b,same => Number.eq_symm same
  | .string a,.string b,same => by simpa [Value.eq,eq_comm] using same
  | .array as,.array bs,same => Value.eqItems_symm same
  | .object as,.object bs,same => Value.eqFields_symm same

theorem Value.eqItems_symm : ∀ {as bs : List Value}, Value.eqItems as bs = true → Value.eqItems bs as = true
  | [],[],_ => rfl
  | a :: as,b :: bs,same => by
    obtain ⟨first,later⟩ := Bool.and_eq_true_iff.mp same
    exact Bool.and_eq_true_iff.mpr ⟨Value.eq_symm first,Value.eqItems_symm later⟩

theorem Value.eqFields_symm : ∀ {as bs : List (String × Value)}, Value.eqFields as bs = true → Value.eqFields bs as = true
  | [],[],_ => rfl
  | (k,a) :: as,(l,b) :: bs,same => by
    simp only [Value.eqFields,Bool.and_eq_true,decide_eq_true_eq] at same ⊢
    exact ⟨⟨same.1.1.symm,Value.eq_symm same.1.2⟩,Value.eqFields_symm same.2⟩

end
mutual

theorem Value.eq_trans : ∀ {a b c : Value}, a.eq b = true → b.eq c = true → a.eq c = true
  | .null,.null,.null,_,_ => rfl
  | .bool a,.bool b,.bool c,first,second => by simp_all [Value.eq]
  | .number a,.number b,.number c,first,second => Number.eq_trans first second
  | .string a,.string b,.string c,first,second => by simp_all [Value.eq]
  | .array as,.array bs,.array cs,first,second => Value.eqItems_trans first second
  | .object as,.object bs,.object cs,first,second => Value.eqFields_trans first second

theorem Value.eqItems_trans : ∀ {as bs cs : List Value}, Value.eqItems as bs = true → Value.eqItems bs cs = true → Value.eqItems as cs = true
  | [],[],[],_,_ => rfl
  | a :: as,b :: bs,c :: cs,first,second => by
    obtain ⟨here,later⟩ := Bool.and_eq_true_iff.mp first
    obtain ⟨here',later'⟩ := Bool.and_eq_true_iff.mp second
    exact Bool.and_eq_true_iff.mpr ⟨Value.eq_trans here here',Value.eqItems_trans later later'⟩

theorem Value.eqFields_trans :
    ∀ {as bs cs : List (String × Value)}, Value.eqFields as bs = true → Value.eqFields bs cs = true → Value.eqFields as cs = true
  | [],[],[],_,_ => rfl
  | (k,a) :: as,(l,b) :: bs,(m,c) :: cs,first,second => by
    simp only [Value.eqFields,Bool.and_eq_true,decide_eq_true_eq] at first second ⊢
    exact ⟨⟨first.1.1.trans second.1.1,Value.eq_trans first.1.2 second.1.2⟩,Value.eqFields_trans first.2 second.2⟩

end

mutual

/-- Whether two values are the same, the sign of a zero included. -/
def Value.same : Value → Value → Bool
  | .null,.null => true
  | .bool a,.bool b => a = b
  | .number a,.number b => a = b
  | .string a,.string b => a = b
  | .array a,.array b => Value.sameItems a b
  | .object a,.object b => Value.sameFields a b
  | _,_ => false

def Value.sameItems : List Value → List Value → Bool
  | [],[] => true
  | a :: as,b :: bs => a.same b && Value.sameItems as bs
  | _,_ => false

def Value.sameFields : List (String × Value) → List (String × Value) → Bool
  | [],[] => true
  | (k,a) :: as,(l,b) :: bs => k = l && a.same b && Value.sameFields as bs
  | _,_ => false

end

mutual

theorem Value.same_iff : ∀ a b : Value, a.same b ↔ a = b
  | .array as,b => by cases b <;> simp [Value.same,Value.sameItems_iff as]
  | .object as,b => by cases b <;> simp [Value.same,Value.sameFields_iff as]
  | .null,b => by cases b <;> simp [Value.same]
  | .bool _,b => by cases b <;> simp [Value.same]
  | .number _,b => by cases b <;> simp [Value.same]
  | .string _,b => by cases b <;> simp [Value.same]

theorem Value.sameItems_iff : ∀ as bs : List Value, Value.sameItems as bs ↔ as = bs
  | [],bs => by cases bs <;> simp [Value.sameItems]
  | a :: as,bs => by cases bs <;> simp [Value.sameItems,Value.same_iff a,Value.sameItems_iff as]

theorem Value.sameFields_iff : ∀ as bs : List (String × Value), Value.sameFields as bs ↔ as = bs
  | [],bs => by cases bs <;> simp [Value.sameFields]
  | (_,a) :: as,bs => by cases bs <;> simp [Value.sameFields,Value.same_iff a,Value.sameFields_iff as,Prod.ext_iff,and_assoc]

end

instance : DecidableEq Value := fun a b => decidable_of_iff (a.same b) (Value.same_iff a b)

end Daf.Json
