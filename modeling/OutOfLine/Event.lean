namespace OutOfLine

/-- Levels from the most to the least severe. -/
inductive Level where
  | error | warn | info | debug | trace
deriving DecidableEq, Repr

namespace Level

def all : List Level := [.error, .warn, .info, .debug, .trace]

def name : Level → String
  | .error => "error"
  | .warn => "warn"
  | .info => "info"
  | .debug => "debug"
  | .trace => "trace"

def ofName? (text : String) : Option Level :=
  all.find? (·.name == text)

/-- The filter that shows this level and the more severe ones. -/
def directive (level : Level) : String :=
  "cpp_definer=" ++ level.name

def default : Level := .info

def verbosity : Level → Nat
  | .error => 0
  | .warn => 1
  | .info => 2
  | .debug => 3
  | .trace => 4

end Level

inductive Event where
  | restoreWithoutCheckpoint
  | discardWithoutCheckpoint
  | isolatedParseLeftInput
  | commaListTooLong
  | classHeadTooLong
  | noDeclaratorSegment
  | declaratorWithParameters
  | declaratorWithoutParameters
  | scopeScanAborted
  | classScopeOpened
  | noEnclosingClass
  | noDeclarationSelected
  | noDefinitionRendered
  | definitionsRendered
  | declaratorGuessed
  | malformedSettingsPayload
  | configFileUnreadable (path : String)
  | malformedConfigFile (path : String)
  | configSyntaxError (description : String)
  | configFileUsed (path : String)
  | settingsLoaded
  | documentUnreadable
  | selectionOutsideDocument
  | selectionNotReversed
  | selectionCopied
deriving DecidableEq, Repr

namespace Event

def level : Event → Level
  | .restoreWithoutCheckpoint | .discardWithoutCheckpoint | .documentUnreadable
  | .selectionOutsideDocument => .error
  | .malformedSettingsPayload | .configFileUnreadable _ | .malformedConfigFile _ => .warn
  | .selectionCopied => .info
  | .noDeclaratorSegment | .scopeScanAborted | .noEnclosingClass | .noDeclarationSelected
  | .noDefinitionRendered | .definitionsRendered | .declaratorGuessed | .configSyntaxError _
  | .configFileUsed _ | .settingsLoaded | .selectionNotReversed => .debug
  | .isolatedParseLeftInput | .commaListTooLong | .classHeadTooLong
  | .declaratorWithParameters | .declaratorWithoutParameters | .classScopeOpened => .trace

def message : Event → String
  | .restoreWithoutCheckpoint => "tokenizer restore without a saved checkpoint"
  | .discardWithoutCheckpoint => "tokenizer discard without a saved checkpoint"
  | .isolatedParseLeftInput => "isolated parse left trailing input"
  | .commaListTooLong => "comma list too long"
  | .classHeadTooLong => "class head too long"
  | .noDeclaratorSegment => "no declarator segment found"
  | .declaratorWithParameters => "declarator with parameter list"
  | .declaratorWithoutParameters => "declarator without parameter list"
  | .scopeScanAborted => "scope scan aborted, input too long"
  | .classScopeOpened => "class scope opened"
  | .noEnclosingClass => "no enclosing class before the cursor"
  | .noDeclarationSelected => "selection holds no method declaration"
  | .noDefinitionRendered => "no definition could be rendered"
  | .definitionsRendered => "definitions rendered"
  | .declaratorGuessed => "declarator guessed without a parameter list"
  | .malformedSettingsPayload => "ignoring malformed settings payload"
  | .configFileUnreadable _ => "cannot read config file"
  | .malformedConfigFile _ => "ignoring malformed config file"
  | .configSyntaxError _ => "config toml parse failed"
  | .configFileUsed _ => "using config file"
  | .settingsLoaded => "settings loaded"
  | .documentUnreadable => "cannot read document"
  | .selectionOutsideDocument => "selection is outside the document"
  | .selectionNotReversed => "not a right-to-left selection, copying as is"
  | .selectionCopied => "no definition generated, copying the selection as is"

def details : Event → List (String × String)
  | .configFileUnreadable path | .malformedConfigFile path | .configFileUsed path =>
      [("path", path)]
  | .configSyntaxError description => [("error", description)]
  | _ => []

def shownAt (limit : Level) (event : Event) : Bool :=
  event.level.verbosity ≤ limit.verbosity

/-- A checkpoint was asked for when none was there. -/
def isFault : Event → Bool
  | .restoreWithoutCheckpoint | .discardWithoutCheckpoint => true
  | _ => false

end Event

/-- The events of a run, the newest first. -/
abbrev Log := List Event

namespace Log

/-- Events came to the log, and none of them is a fault. -/
def Grows (before after : Log) : Prop :=
  ∃ events, after = events ++ before ∧ ∀ event ∈ events, event.isFault = false

theorem Grows.refl (log : Log) : Grows log log :=
  ⟨[], rfl, by simp⟩

theorem Grows.trans {first second third : Log} (left : Grows first second)
    (right : Grows second third) : Grows first third := by
  obtain ⟨early, rfl, earlySound⟩ := left
  obtain ⟨late, rfl, lateSound⟩ := right
  refine ⟨late ++ early, by rw [List.append_assoc], fun event member => ?_⟩
  rcases List.mem_append.mp member with member | member
  · exact lateSound event member
  · exact earlySound event member

theorem grows_cons {event : Event} (sound : event.isFault = false) (log : Log) :
    Grows log (event :: log) :=
  ⟨[event], rfl, by simpa using sound⟩

theorem not_grows_fault {event : Event} (fault : event.isFault = true) (log : Log) :
    ¬ Grows log (event :: log) := by
  rintro ⟨events, same, sound⟩
  obtain rfl : events = [event] := List.append_cancel_right same.symm
  simp [fault] at sound

end Log

end OutOfLine
