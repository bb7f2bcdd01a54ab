import OutOfLine.Toml.Reader

namespace OutOfLine.Toml.Quoted

def hexValue? (c : Char) : Option Nat :=
  if '0' ≤ c && c ≤ '9' then some (c.toNat - 48)
  else if 'a' ≤ c && c ≤ 'f' then some (c.toNat - 87)
  else if 'A' ≤ c && c ≤ 'F' then some (c.toNat - 55)
  else none

/-- The character with a hexadecimal code point. Surrogates are no characters. -/
def codePoint? (digits : Text) : Option Char := do
  let point ← digits.foldlM (fun total c => (hexValue? c).map (total * 16 + ·)) 0
  if point < 0xD800 || (0xDFFF < point && point < 0x110000) then
    return Char.ofNat point
  none

def escaped? : Char → Option Char
  | 'b' => some '\x08'
  | 't' => some '\t'
  | 'n' => some '\n'
  | 'f' => some '\x0c'
  | 'r' => some '\r'
  | '"' => some '"'
  | '\\' => some '\\'
  | _ => none

/-- The rest of a basic string after its opening quote. `read` holds the characters before, the
last one first. -/
def basicBody (read : Text) : Text → Option (Text × Text)
  | [] => none
  | '"' :: rest => some (read.reverse, rest)
  | '\\' :: 'u' :: a :: b :: c :: d :: rest =>
      match codePoint? [a, b, c, d] with
      | some point => basicBody (point :: read) rest
      | none => none
  | '\\' :: 'U' :: a :: b :: c :: d :: e :: f :: g :: h :: rest =>
      match codePoint? [a, b, c, d, e, f, g, h] with
      | some point => basicBody (point :: read) rest
      | none => none
  | '\\' :: c :: rest =>
      match escaped? c with
      | some value => basicBody (value :: read) rest
      | none => none
  | c :: rest => if Reader.isPrintable c && c ≠ '\\' then basicBody (c :: read) rest else none

def blankToLineEnd (text : Text) : Bool :=
  (Reader.afterNewline? (text.dropWhile Reader.isBlank)).isSome

/-- Up to two quotes may stand directly before the three that end a string on several lines. -/
def closeMany (quote : Char) (read : Text) : Text → Text × Text
  | c :: d :: rest =>
      if c = quote then
        if d = quote then ((d :: c :: read).reverse, rest) else ((c :: read).reverse, d :: rest)
      else (read.reverse, c :: d :: rest)
  | [c] => if c = quote then ((c :: read).reverse, []) else (read.reverse, [c])
  | [] => (read.reverse, [])

/-- The rest of a basic string on several lines. While `skipping` is set, blanks and line ends
are left out, as after a backslash that ends its line. -/
def basicLines (skipping : Bool) (read : Text) : Text → Option (Text × Text)
  | [] => none
  | '"' :: '"' :: '"' :: rest => some (closeMany '"' read rest)
  | '\\' :: 'u' :: a :: b :: c :: d :: rest =>
      match codePoint? [a, b, c, d] with
      | some point => basicLines false (point :: read) rest
      | none => none
  | '\\' :: 'U' :: a :: b :: c :: d :: e :: f :: g :: h :: rest =>
      match codePoint? [a, b, c, d, e, f, g, h] with
      | some point => basicLines false (point :: read) rest
      | none => none
  | '\\' :: c :: rest =>
      if blankToLineEnd (c :: rest) then basicLines true read (c :: rest)
      else
        match escaped? c with
        | some value => basicLines false (value :: read) rest
        | none => none
  | '\r' :: '\n' :: rest => basicLines skipping (if skipping then read else '\n' :: read) rest
  | '\n' :: rest => basicLines skipping (if skipping then read else '\n' :: read) rest
  | c :: rest =>
      if skipping && Reader.isBlank c then basicLines true read rest
      else if Reader.isPrintable c && c ≠ '\\' then basicLines false (c :: read) rest
      else none

def literalLines (read : Text) : Text → Option (Text × Text)
  | [] => none
  | '\'' :: '\'' :: '\'' :: rest => some (closeMany '\'' read rest)
  | '\r' :: '\n' :: rest => literalLines ('\n' :: read) rest
  | '\n' :: rest => literalLines ('\n' :: read) rest
  | c :: rest => if Reader.isPrintable c then literalLines (c :: read) rest else none

/-- A string on several lines starts after a line end that directly follows its quotes. -/
def dropFirstNewline (text : Text) : Text :=
  (Reader.afterNewline? text).getD text

def basic : Reader String := do
  Reader.char '"'
  let (value, rest) ← basicBody [] (← get)
  set rest
  return String.ofList value

def literal : Reader String := do
  Reader.char '\''
  let text ← get
  let value := text.takeWhile fun c => Reader.isPrintable c && c ≠ '\''
  set (text.drop value.length)
  Reader.char '\''
  return String.ofList value

def string : Reader String := do
  match ← get with
  | '"' :: '"' :: '"' :: rest => do
      let (value, rest) ← basicLines false [] (dropFirstNewline rest)
      set rest
      return String.ofList value
  | '\'' :: '\'' :: '\'' :: rest => do
      let (value, rest) ← literalLines [] (dropFirstNewline rest)
      set rest
      return String.ofList value
  | '"' :: _ => basic
  | _ => literal

end OutOfLine.Toml.Quoted
