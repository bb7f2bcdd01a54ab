import OutOfLine.Toml.Reader

/-!
Dates and times of TOML and their normal form: `T` between date and time, `Z` or a signed offset
at the end, and a fraction of at most nine digits without zeros at its end.
-/

namespace OutOfLine.Toml

structure Date where
  year : Nat
  month : Nat
  day : Nat

structure Time where
  hour : Nat
  minute : Nat
  second : Nat
  nanosecond : Nat

inductive Offset where
  | utc
  | minutes (isNegative : Bool) (count : Nat)

inductive Moment where
  | dateOnly (date : Date)
  | timeOnly (time : Time)
  | dateTime (date : Date) (time : Time) (offset : Option Offset)

def padded (width value : Nat) : String :=
  let digits := toString value
  String.ofList (List.replicate (width - digits.length) '0') ++ digits

def Date.daysInMonth (year month : Nat) : Nat :=
  if month = 2 then
    if year % 4 = 0 && (year % 100 ≠ 0 || year % 400 = 0) then 29 else 28
  else if month = 4 || month = 6 || month = 9 || month = 11 then 30
  else 31

def Date.isValid (date : Date) : Bool :=
  1 ≤ date.month && date.month ≤ 12 && 1 ≤ date.day &&
    date.day ≤ Date.daysInMonth date.year date.month

def Date.render (date : Date) : String :=
  padded 4 date.year ++ "-" ++ padded 2 date.month ++ "-" ++ padded 2 date.day

/-- A minute may have a leap second. -/
def Time.isValid (time : Time) : Bool :=
  time.hour ≤ 23 && time.minute ≤ 59 && time.second ≤ 60

def Time.render (time : Time) : String :=
  let fraction :=
    if time.nanosecond = 0 then ""
    else "." ++ String.ofList
      (Text.dropEndWhile (· = '0') (padded 9 time.nanosecond).toList)
  padded 2 time.hour ++ ":" ++ padded 2 time.minute ++ ":" ++ padded 2 time.second ++ fraction

def Offset.render : Offset → String
  | .utc => "Z"
  | .minutes isNegative count =>
      (if isNegative && count ≠ 0 then "-" else "+") ++
        padded 2 (count / 60) ++ ":" ++ padded 2 (count % 60)

def Moment.render : Moment → String
  | .dateOnly date => date.render
  | .timeOnly time => time.render
  | .dateTime date time offset =>
      date.render ++ "T" ++ time.render ++ (offset.map Offset.render).getD ""

namespace Moment

open Reader

def digits : (count : Nat) → (value : Nat) → Reader Nat
  | 0, value => return value
  | count + 1, value => do
      match ← get with
      | c :: rest =>
          if c.isDigit then do
            set rest
            digits count (value * 10 + (c.toNat - 48))
          else failure
      | [] => failure

/-- Digits after the ninth do not count. -/
def fraction : Reader Nat := do
  match ← get with
  | '.' :: rest =>
      let written := rest.takeWhile Char.isDigit
      if written.isEmpty then failure
      set (rest.drop written.length)
      let counted := (written ++ List.replicate 9 '0').take 9
      return counted.foldl (fun value c => value * 10 + (c.toNat - 48)) 0
  | _ => return 0

def time : Reader Time := do
  let hour ← digits 2 0
  char ':'
  let minute ← digits 2 0
  char ':'
  let second ← digits 2 0
  let time := { hour, minute, second, nanosecond := ← fraction : Time }
  if time.isValid then return time else failure

def date : Reader Date := do
  let year ← digits 4 0
  char '-'
  let month ← digits 2 0
  char '-'
  let date := { year, month, day := ← digits 2 0 : Date }
  if date.isValid then return date else failure

def signedOffset (isNegative : Bool) : Reader Offset := do
  let hour ← digits 2 0
  char ':'
  let minute ← digits 2 0
  if hour ≤ 23 && minute ≤ 59 then return .minutes isNegative (hour * 60 + minute) else failure

def offset? : Reader (Option Offset) := do
  match ← get with
  | c :: rest =>
      if c = 'Z' || c = 'z' then do
        set rest
        return some .utc
      else if c = '+' || c = '-' then do
        set rest
        return some (← signedOffset (c = '-'))
      else return none
  | [] => return none

/-- Whether a text starts like a date, so that it can be nothing else. -/
def startsDate : Text → Bool
  | a :: b :: c :: d :: '-' :: _ => a.isDigit && b.isDigit && c.isDigit && d.isDigit
  | _ => false

def startsTime : Text → Bool
  | a :: b :: ':' :: _ => a.isDigit && b.isDigit
  | _ => false

/-- A date may be followed by a time after a `T` or a space. -/
def afterDate (date : Date) : Reader Moment := do
  match ← get with
  | c :: rest =>
      if (c = 'T' || c = 't' || c = ' ') && startsTime rest then do
        set rest
        let time ← time
        return .dateTime date time (← offset?)
      else return .dateOnly date
  | [] => return .dateOnly date

def moment : Reader Moment := do
  if startsDate (← get) then
    afterDate (← date)
  else
    return .timeOnly (← time)

end Moment

end OutOfLine.Toml
