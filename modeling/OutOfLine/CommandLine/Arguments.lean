/-!
The arguments of a command line. They are read from left to right up to the first that asks for
help or the version, or that is wrong; what has to be given together is checked at the end.
-/

namespace OutOfLine.CommandLine

structure Arguments where
  file : Option String := none
  line : Option Nat := none
  column : Option Nat := none
  anchorLine : Option Nat := none
  anchorColumn : Option Nat := none
  selection : Option String := none
  magic : Bool := false
  config : Option String := none
  verbose : Bool := false
  logFile : Option String := none
  printSchema : Bool := false
deriving DecidableEq, Repr

inductive Request where
  | help
  | version
  | run (arguments : Arguments)
deriving DecidableEq, Repr

inductive Flag where
  | magic | verbose | printSchema | help | version
deriving DecidableEq, Repr

inductive Parameter where
  | file | line | column | anchorLine | anchorColumn | selection | config | logFile
deriving DecidableEq, Repr

def Flag.ofName? : String → Option Flag
  | "magic" => some .magic
  | "verbose" => some .verbose
  | "print-schema" => some .printSchema
  | "help" => some .help
  | "version" => some .version
  | _ => none

def Flag.ofLetter? : Char → Option Flag
  | 'v' => some .verbose
  | 'h' => some .help
  | 'V' => some .version
  | _ => none

def Parameter.ofName? : String → Option Parameter
  | "file" => some .file
  | "line" => some .line
  | "column" => some .column
  | "anchor-line" => some .anchorLine
  | "anchor-column" => some .anchorColumn
  | "selection" => some .selection
  | "config" => some .config
  | "log-file" => some .logFile
  | _ => none

inductive Step where
  | stop (request : Request)
  | go (arguments : Arguments)

namespace Arguments

/-- A decimal number from 1 to 4294967295, with an optional sign. -/
def ordinal? (text : String) : Option Nat :=
  let (isNegative, digits) :=
    match text.toList with
    | '+' :: digits => (false, digits)
    | '-' :: digits => (true, digits)
    | digits => (false, digits)
  let value := digits.foldl (fun value c => value * 10 + (c.toNat - 48)) 0
  if digits.isEmpty || !digits.all Char.isDigit || isNegative || value < 1 ||
      4294967295 < value then
    none
  else some value

def path? (text : String) : Option String :=
  if text.isEmpty then none else some text

/-- Gives an option its value; the second value of an option is wrong. -/
def once? {α : Type} (current : Option α) (value : Option α) : Option (Option α) :=
  if current.isSome then none else value.map some

def set? (arguments : Arguments) (text : String) : Parameter → Option Arguments
  | .file => do return { arguments with file := ← once? arguments.file (path? text) }
  | .line => do return { arguments with line := ← once? arguments.line (ordinal? text) }
  | .column => do return { arguments with column := ← once? arguments.column (ordinal? text) }
  | .anchorLine => do
      return { arguments with anchorLine := ← once? arguments.anchorLine (ordinal? text) }
  | .anchorColumn => do
      return { arguments with anchorColumn := ← once? arguments.anchorColumn (ordinal? text) }
  | .selection => do
      return { arguments with selection := ← once? arguments.selection (some text) }
  | .config => do return { arguments with config := ← once? arguments.config (path? text) }
  | .logFile => do return { arguments with logFile := ← once? arguments.logFile (path? text) }

def raise? (arguments : Arguments) : Flag → Option Step
  | .magic => if arguments.magic then none else some (.go { arguments with magic := true })
  | .verbose => if arguments.verbose then none else some (.go { arguments with verbose := true })
  | .printSchema =>
      if arguments.printSchema then none else some (.go { arguments with printSchema := true })
  | .help => some (.stop .help)
  | .version => some (.stop .version)

def raiseLetters? (arguments : Arguments) : List Char → Option Step
  | [] => some (.go arguments)
  | letter :: letters => do
      match ← arguments.raise? (← Flag.ofLetter? letter) with
      | .stop request => return .stop request
      | .go arguments => arguments.raiseLetters? letters

/-- Both parts of an anchor have to be given, and a cursor unless the schema is asked for. -/
def isComplete (arguments : Arguments) : Bool :=
  arguments.anchorLine.isSome == arguments.anchorColumn.isSome &&
    (arguments.printSchema || (arguments.line.isSome && arguments.column.isSome))

/-- Whether an argument can only be an option, and so not the value of the one before. -/
def isOption (argument : String) : Bool :=
  argument.startsWith "-" && argument ≠ "-"

/-- The name in an argument such as `--name=value`, and the value if there is one. -/
def splitLong (argument : String) : String × Option String :=
  match (argument.toList.drop 2).span (· ≠ '=') with
  | (name, []) => (String.ofList name, none)
  | (name, _ :: value) => (String.ofList name, some (String.ofList value))

def finish? (arguments : Arguments) : Option Request :=
  if arguments.isComplete then some (.run arguments) else none

def read? (arguments : Arguments) : List String → Option Request
  | [] => arguments.finish?
  | argument :: others =>
      if argument = "--" then
        if others.isEmpty then arguments.finish? else none
      else if argument.startsWith "--" then
        let (name, attached) := splitLong argument
        match Parameter.ofName? name, attached, others with
        | some parameter, some value, others => do
            (← arguments.set? value parameter).read? others
        | some parameter, none, value :: others =>
            if isOption value then none
            else do (← arguments.set? value parameter).read? others
        | some _, none, [] => none
        | none, some _, _ => none
        | none, none, others => do
            match ← arguments.raise? (← Flag.ofName? name) with
            | .stop request => return request
            | .go arguments => arguments.read? others
      else if isOption argument then do
        match ← arguments.raiseLetters? (argument.toList.drop 1) with
        | .stop request => return request
        | .go arguments => arguments.read? others
      else none

end Arguments

def Request.ofArguments? (arguments : List String) : Option Request :=
  Arguments.read? {} arguments

end OutOfLine.CommandLine
