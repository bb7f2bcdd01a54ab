import OutOfLine.CommandLine.Arguments
import OutOfLine.Document
import OutOfLine.LogLine
import OutOfLine.Settings.Schema
import OutOfLine.Settings.Source

namespace OutOfLine.CommandLine

variable {m : Type → Type} [Monad m]

structure Surroundings (m : Type → Type) where
  /-- The absolute path of the working directory. -/
  workingDirectory : Path
  files : Files m
  input : m ByteArray
  clock : m String
  report : List LogLine → m Unit

structure Outcome where
  exitCode : UInt32
  output : String

def versionText : String :=
  "cpp-definer 0.1.4\n"

def helpText : String :=
  "Turns C++ method declarations into out-of-line definitions\n" ++
  "\n" ++
  "Usage: cpp-definer [OPTIONS]\n" ++
  "\n" ++
  "Options:\n" ++
  "      --file <FILE>                    " ++
    "Source file. The document is read from stdin when omitted\n" ++
  "      --line <LINE>                    1-based cursor line\n" ++
  "      --column <COLUMN>                1-based cursor column\n" ++
  "      --anchor-line <ANCHOR_LINE>      " ++
    "1-based line where the selection starts. The selection runs from the anchor to the " ++
    "cursor; without an anchor it is empty\n" ++
  "      --anchor-column <ANCHOR_COLUMN>  1-based column where the selection starts\n" ++
  "      --selection <SELECTION>          " ++
    "Declaration text to convert. Defaults to the selected text, or the line under the cursor " ++
    "when nothing is selected\n" ++
  "      --magic                          " ++
    "Generate definitions only for a right-to-left selection and copy the selection unchanged " ++
    "otherwise\n" ++
  "      --config <CONFIG>                " ++
    "Settings file. Defaults to the nearest `cppdef.toml` above `--file`\n" ++
  "  -v, --verbose                        \n" ++
  "      --log-file <LOG_FILE>            \n" ++
  "      --print-schema                   Print the settings documentation and exit\n" ++
  "  -h, --help                           Print help\n" ++
  "  -V, --version                        Print version\n"

/-- The definitions were printed. -/
def exitDone : UInt32 := 0

/-- The selection was printed as it is. -/
def exitCopied : UInt32 := 1

/-- Nothing could be done with what was given. -/
def exitUsage : UInt32 := 2

/-- The log file could not be opened. -/
def exitAborted : UInt32 := 101

def defaultLogName : String := "cpp-definer.log"

def logTarget (argument : String) : Path :=
  let path := Path.ofString argument
  (path.parent?.getD (.ofString ".")).join (path.fileName?.getD defaultLogName)

def openLog (surroundings : Surroundings m) : Option Path → m Bool
  | none => return true
  | some target => surroundings.files.prepare target

/-- Shows those of the events, given in order, that a filter lets through, and writes them down. -/
def noteAll (surroundings : Surroundings m) (target : Option Path) (limit : Level)
    (events : List Event) : m Unit := do
  match events.filter (Event.shownAt limit) with
  | [] => return
  | shown => do
      let time ← surroundings.clock
      let lines := shown.map (LogLine.mk time)
      surroundings.report lines
      match target with
      | none => return
      | some target =>
          surroundings.files.append target (String.join (lines.map LogLine.render)).toUTF8

def loadSettings (surroundings : Surroundings m) (note : Event → m Unit)
    (arguments : Arguments) : m Settings :=
  match arguments.config, arguments.file with
  | some config, _ => Settings.Source.fromFile surroundings.files note (.ofString config)
  | none, some file => Settings.Source.discover surroundings.files note (.ofString file)
  | none, none =>
      Settings.Source.discover surroundings.files note surroundings.workingDirectory

def readDocument? (surroundings : Surroundings m) (arguments : Arguments) :
    m (Option Document) := do
  match arguments.file with
  | some file => return (← surroundings.files.readText? (.ofString file)).map Document.mk
  | none => return (String.fromUTF8? (← surroundings.input)).map fun text => ⟨text.toList⟩

/-- Arguments count lines and columns from one. -/
def selectionOf (line column : Nat) (arguments : Arguments) : Selection :=
  let active : Position := ⟨line - 1, column - 1⟩
  match arguments.anchorLine, arguments.anchorColumn with
  | some anchorLine, some anchorColumn => ⟨⟨anchorLine - 1, anchorColumn - 1⟩, active⟩
  | _, _ => ⟨active, active⟩

def contextOf? (document : Document) (selection : Selection) (arguments : Arguments) :
    Option Context :=
  match arguments.selection with
  | some text => do return ⟨text.toList, ← document.textBefore? selection.active⟩
  | none => document.context? selection

def answer (style : Style) (arguments : Arguments) (document : Option Document) :
    UInt32 × Text × Log :=
  match document, arguments.line, arguments.column with
  | some document, some line, some column =>
      let selection := selectionOf line column arguments
      match contextOf? document selection arguments with
      | none => (exitUsage, [], [.selectionOutsideDocument])
      | some context =>
          if arguments.magic && !selection.isReversed then
            (exitCopied, context.selection, [.selectionNotReversed])
          else
            match Definition.ofSelection? style context.selection context.before [] with
            | (some definitions, log) => (exitDone, definitions, log)
            | (none, log) => (exitCopied, context.selection, .selectionCopied :: log)
  | _, _, _ => (exitUsage, [], [.documentUnreadable])

/-- The settings are loaded under the first level, and all else happens under the one they give,
unless the run is verbose. -/
def runArguments (surroundings : Surroundings m) (arguments : Arguments) : m Outcome := do
  let target := arguments.logFile.map logTarget
  if !(← openLog surroundings target) then
    return ⟨exitAborted, ""⟩
  let noteAll := noteAll surroundings target
  let firstLevel := if arguments.verbose then .debug else Level.default
  let settings ← loadSettings surroundings (fun event => noteAll firstLevel [event]) arguments
  let level := if arguments.verbose then firstLevel else settings.level
  noteAll level [.settingsLoaded]
  let document ← readDocument? surroundings arguments
  let (exitCode, output, log) := answer settings.style arguments document
  noteAll level log.reverse
  return ⟨exitCode, String.ofList output⟩

def run (surroundings : Surroundings m) (arguments : List String) : m Outcome :=
  match Request.ofArguments? arguments with
  | none => return ⟨exitUsage, ""⟩
  | some .help => return ⟨0, helpText⟩
  | some .version => return ⟨0, versionText⟩
  | some (.run arguments) =>
      if arguments.printSchema then return ⟨0, Settings.Schema.markdown⟩
      else runArguments surroundings arguments

end OutOfLine.CommandLine
