namespace OutOfLine

inductive Number where
  | integer (value : Int)
  /-- The digits times a power of ten. -/
  | decimal (isNegative : Bool) (digits : Nat) (exponent : Int)
deriving DecidableEq, Repr

inductive Value where
  | null
  | bool (value : Bool)
  | number (value : Number)
  | string (value : String)
  | array (items : List Value)
  | object (fields : List (String × Value))
deriving Repr, Inhabited

namespace Value

def field? (key : String) : Value → Option Value
  | .object fields => fields.lookup key
  | _ => none

end Value

end OutOfLine
