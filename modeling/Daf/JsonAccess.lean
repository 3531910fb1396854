import Mathlib.Algebra.Ring.Int.Defs
import Daf.Json

/-!
Reading JSON values: the fields of objects, and values of the kind that is asked for.
-/
namespace Daf.Json

/-- The field of an object. -/
def Value.get : Value → String → Option Value
  | .object fields,key => (fields.find? fun entry => entry.1 = key).map Prod.snd
  | _,_ => none

def Value.as_str : Value → Option String
  | .string s => some s
  | _ => none

def Value.as_array : Value → Option (List Value)
  | .array items => some items
  | _ => none

def Value.is_number : Value → Bool
  | .number _ => true
  | _ => false

def Value.as_u64 : Value → Option Nat
  | .number (.int n) => if 0 ≤ n ∧ n < 2^64 then some n.toNat else none
  | _ => none

end Daf.Json
