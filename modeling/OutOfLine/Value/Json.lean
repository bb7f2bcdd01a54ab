import OutOfLine.Value

namespace OutOfLine

namespace Number

/-- A decimal keeps its exponent, so that it is never taken for an integer. -/
def toJson : Number → String
  | .integer value => toString value
  | .decimal isNegative digits exponent =>
      (if isNegative then "-" else "") ++ toString digits ++ "e" ++ toString exponent

end Number

namespace Value

def hexDigit (value : Nat) : Char :=
  if value < 10 then Char.ofNat (48 + value) else Char.ofNat (87 + value)

def writeChar (out : String) (c : Char) : String :=
  if c = '"' || c = '\\' then (out.push '\\').push c
  else if c.toNat < 0x20 then
    ((out ++ "\\u00").push (hexDigit (c.toNat / 16))).push (hexDigit (c.toNat % 16))
  else out.push c

def writeString (out : String) (text : String) : String :=
  (text.toList.foldl writeChar (out.push '"')).push '"'

mutual

def write (out : String) : Value → String
  | .null => out ++ "null"
  | .bool value => out ++ if value then "true" else "false"
  | .number value => out ++ value.toJson
  | .string text => writeString out text
  | .array items => (writeItems (out.push '[') items).push ']'
  | .object fields => (writeFields (out.push '\x7b') fields).push '\x7d'

def writeItems (out : String) : List Value → String
  | [] => out
  | [last] => write out last
  | first :: second :: others => writeItems ((write out first).push ',') (second :: others)

def writeFields (out : String) : List (String × Value) → String
  | [] => out
  | [(key, last)] => write ((writeString out key).push ':') last
  | (key, first) :: second :: others =>
      writeFields ((write ((writeString out key).push ':') first).push ',') (second :: others)

end

def toJson (value : Value) : String :=
  value.write ""

end Value

end OutOfLine
