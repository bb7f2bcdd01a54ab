import OutOfLine.Definition
import OutOfLine.Value

/-!
Settings and the patches that change them. A payload is read twice, as a patch of its own and
through its section; a patch that is malformed in one field changes nothing at all.
-/

namespace OutOfLine

structure Settings where
  style : Style
  level : Level
deriving DecidableEq, Repr

namespace Settings

def default : Settings :=
  ⟨.default, .default⟩

/-- The member of a payload that may hold the settings instead of the payload itself. -/
def sectionKey : String := "cpp-def-paster"

structure Patch where
  afterDefinition : Option Text
  betweenDefinitions : Option Text
  afterDefinitions : Option Text
  discarded : Option (List Text)
  level : Option Level
deriving DecidableEq, Repr

namespace Patch

/-- A member that may be missing or null; otherwise `read` has to accept it. -/
def member? {α : Type} (read : Value → Option α) (key : String) (payload : Value) :
    Option (Option α) :=
  match payload.field? key with
  | none | some .null => some none
  | some value => (read value).map some

def text? : Value → Option Text
  | .string text => some text.toList
  | _ => none

def texts? : Value → Option (List Text)
  | .array items => items.mapM text?
  | _ => none

/-- A level by its name, or as an object with that name as its only key and no value. -/
def level? : Value → Option Level
  | .string name => Level.ofName? name
  | .object [(name, .null)] => Level.ofName? name
  | _ => none

def loggedLevel? (value : Value) : Option (Option Level) :=
  match value with
  | .object _ => member? level? "level" value
  | _ => none

/-- The patch in a payload, unless it is malformed. Unknown keys do not matter. -/
def ofValue? (payload : Value) : Option Patch :=
  match payload with
  | .object _ => do
      let logging ← member? loggedLevel? "logging" payload
      return {
        afterDefinition := ← member? text? "textAfterDef" payload
        betweenDefinitions := ← member? text? "textBetweenMultipleDefs" payload
        afterDefinitions := ← member? text? "textAfterMultipleDefs" payload
        discarded := ← member? texts? "discardedSegments" payload
        level := logging.join }
  | _ => none

end Patch

def apply (settings : Settings) (patch : Patch) : Settings where
  style := {
    afterDefinition := patch.afterDefinition.getD settings.style.afterDefinition
    betweenDefinitions := patch.betweenDefinitions.getD settings.style.betweenDefinitions
    afterDefinitions := patch.afterDefinitions.getD settings.style.afterDefinitions
    discarded := (patch.discarded.map WordSet.ofList).getD settings.style.discarded }
  level := patch.level.getD settings.level

/-- Entries are compared with whole segments, so that blanks around them and empty entries could
never match. -/
def normalizeWords (words : WordSet) : WordSet :=
  .ofList ((words.words.map Text.trim).filter (!·.isEmpty))

def normalize (settings : Settings) : Settings :=
  { settings with
    style := { settings.style with discarded := normalizeWords settings.style.discarded } }

/-- The payload itself, then its section. -/
def candidates (payload : Value) : List Value :=
  payload :: (payload.field? sectionKey).toList

def applyCandidate (state : Settings × Log) (candidate : Value) : Settings × Log :=
  match Patch.ofValue? candidate with
  | some patch => (state.1.apply patch, state.2)
  | none => (state.1, .malformedSettingsPayload :: state.2)

def merge (settings : Settings) (payload : Value) (log : Log) : Settings × Log :=
  let (merged, log) := (candidates payload).foldl applyCandidate (settings, log)
  (merged.normalize, log)

def ofPayload (payload : Option Value) (log : Log) : Settings × Log :=
  match payload with
  | none => (default, log)
  | some payload => default.merge payload log

end Settings

end OutOfLine
