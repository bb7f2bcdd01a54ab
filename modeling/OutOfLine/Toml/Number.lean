import OutOfLine.Toml.Quoted
import OutOfLine.Value

/-!
Numbers of TOML: signed integers of 64 bits in four bases, and decimals in the range of double
precision. Not-a-number and infinities have no value.
-/

namespace OutOfLine.Toml.Numeral

open Reader

/-- Reads on in a run of digits, which single underscores may divide. `read` holds the digits
before, the last one first. -/
def digitRun (isDigit : Char → Bool) (read : Text) : Text → Text × Text
  | [] => (read.reverse, [])
  | '_' :: c :: rest =>
      if isDigit c then digitRun isDigit (c :: read) rest else (read.reverse, '_' :: c :: rest)
  | c :: rest =>
      if isDigit c then digitRun isDigit (c :: read) rest else (read.reverse, c :: rest)

def natValue (base : Nat) (digits : Text) : Nat :=
  digits.foldl (fun value c => value * base + ((Quoted.hexValue? c).getD 0)) 0

def digits (isDigit : Char → Bool) : Reader Text := do
  match ← get with
  | c :: rest =>
      if isDigit c then do
        let (run, rest) := digitRun isDigit [c] rest
        set rest
        return run
      else failure
  | [] => failure

/-- The whole part of a number; only zero itself starts with a zero. -/
def wholePart : Reader Text := do
  match ← get with
  | '0' :: rest => do
      set rest
      return ['0']
  | _ => digits Char.isDigit

def sign : Reader (Option Char) := do
  match ← get with
  | c :: rest =>
      if c = '+' || c = '-' then do
        set rest
        return some c
      else return none
  | [] => return none

def integer? (value : Int) : Option Value :=
  if -9223372036854775808 ≤ value && value ≤ 9223372036854775807 then
    some (.number (.integer value))
  else none

/-- Half a unit above the largest number of double precision: from here on numbers round to
infinity. -/
def overflowBound : Nat := Nat.pow 2 1024 - Nat.pow 2 970

def overflows (digits : Nat) (exponent : Int) : Bool :=
  let magnitude := ((toString digits).length : Int) + exponent
  if digits = 0 || magnitude < 300 then false
  else if 320 < magnitude then true
  else if 0 ≤ exponent then overflowBound ≤ digits * Nat.pow 10 exponent.toNat
  else overflowBound * Nat.pow 10 (-exponent).toNat ≤ digits

/-- Too large a number is refused, too small a one has no value. -/
def decimal? (isNegative : Bool) (digits : Nat) (exponent : Int) : Option Value :=
  if overflows digits exponent then if isNegative then some .null else none
  else some (.number (.decimal isNegative digits exponent))

def fractionPart : Reader (Option Text) := do
  if ← takes '.' then return some (← digits Char.isDigit) else return none

def exponentPart : Reader (Option Int) := do
  match ← get with
  | c :: rest =>
      if c = 'e' || c = 'E' then do
        set rest
        let isNegative := (← sign) = some '-'
        let value : Int := natValue 10 (← digits Char.isDigit)
        return some (if isNegative then -value else value)
      else return none
  | [] => return none

def basedDigit (base : Nat) (c : Char) : Bool :=
  match Quoted.hexValue? c with
  | some value => value < base
  | none => false

def based (base : Nat) (rest : Text) : Reader Value := do
  set rest
  integer? (natValue base (← digits (basedDigit base)))

def special : Reader Value := do
  match ← get with
  | 'i' :: 'n' :: 'f' :: rest => do
      set rest
      return .null
  | 'n' :: 'a' :: 'n' :: rest => do
      set rest
      return .null
  | _ => failure

def signed : Reader Value := do
  let isNegative := (← sign) = some '-'
  let next ← front?
  if next = some 'i' || next = some 'n' then
    special
  else
    let whole ← wholePart
    let fraction ← fractionPart
    let exponent ← exponentPart
    if fraction.isNone && exponent.isNone then
      let value : Int := natValue 10 whole
      integer? (if isNegative then -value else value)
    else
      let decimals := fraction.getD []
      decimal? isNegative (natValue 10 (whole ++ decimals))
        (exponent.getD 0 - decimals.length)

def number : Reader Value := do
  match ← get with
  | '0' :: 'x' :: rest => based 16 rest
  | '0' :: 'o' :: rest => based 8 rest
  | '0' :: 'b' :: rest => based 2 rest
  | _ => signed

end OutOfLine.Toml.Numeral
