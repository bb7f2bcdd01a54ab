import OutOfLine.Tokenizer

/-!
A tokenizer compared with two plainer machines that take the same commands. A buffer is one text and a
stack of texts. The other machine counts bytes: it keeps whole texts and the offsets up to which they
were read, and is stuck where an offset falls inside a character or behind the end of its text. All
three show the same after every command, so no offset ever does.
-/

namespace OutOfLine

namespace Tokenizer

/-- What can be seen of a state. -/
structure View where
  remaining : Text
  isEmpty : Bool
  depth : Nat
deriving DecidableEq, Repr

/-- Something that carries out commands and can be looked at. Either may be impossible. -/
structure Machine (σ : Type) where
  perform : Command → σ → Option (Reply × σ)
  view : σ → Option View

namespace Machine

variable {σ τ : Type}

/-- The replies to commands, each with what can be seen after it. -/
def transcript (machine : Machine σ) : List Command → σ → Option (List (Reply × View))
  | [], _ => some []
  | command :: commands, state => do
      let (reply, next) ← machine.perform command state
      let view ← machine.view next
      return (reply, view) :: (← machine.transcript commands next)

/-- The states of one machine stand for states of another, which behave alike. -/
structure Represents (left : Machine σ) (right : Machine τ) (image : σ → τ) : Prop where
  perform : ∀ command state,
    right.perform command (image state) = (left.perform command state).map (Prod.map id image)
  view : ∀ state, right.view (image state) = left.view state

theorem Represents.transcript {left : Machine σ} {right : Machine τ} {image : σ → τ}
    (represents : Represents left right image) (commands : List Command) (state : σ) :
    right.transcript commands (image state) = left.transcript commands state := by
  induction commands generalizing state with
  | nil => rfl
  | cons command commands ih =>
      rw [Machine.transcript, Machine.transcript, represents.perform]
      cases left.perform command state with
      | none => rfl
      | some performed =>
          obtain ⟨reply, next⟩ := performed
          simp only [Option.map_some, Prod.map_apply, id_eq, Option.bind_eq_bind, Option.bind_some,
            represents.view, ih]

end Machine

def view (tokenizer : Tokenizer) : View :=
  ⟨tokenizer.remaining, tokenizer.isEmpty, tokenizer.depth⟩

def machine : Machine Tokenizer where
  perform command tokenizer := some (tokenizer.perform command)
  view tokenizer := some tokenizer.view

theorem transcript_cons (command : Command) (commands : List Command) (tokenizer : Tokenizer) :
    machine.transcript (command :: commands) tokenizer =
      (machine.transcript commands (tokenizer.perform command).2).map
        (((tokenizer.perform command).1, (tokenizer.perform command).2.view) :: ·) := by
  rw [Option.map_eq_bind]
  rfl

/-- A tokenizer carries out every command. -/
theorem transcript_exists (commands : List Command) (tokenizer : Tokenizer) :
    ∃ seen, machine.transcript commands tokenizer = some seen ∧ seen.length = commands.length := by
  induction commands generalizing tokenizer with
  | nil => exact ⟨[], rfl, rfl⟩
  | cons command commands ih =>
      obtain ⟨seen, shown, length⟩ := ih (tokenizer.perform command).2
      have whole := transcript_cons command commands tokenizer
      rw [shown, Option.map_some] at whole
      exact ⟨_, whole, by rw [List.length_cons, List.length_cons, length]⟩

end Tokenizer

/-- A text to read from and copies of it, the latest first. -/
structure Buffer where
  text : Text
  saved : List Text
deriving DecidableEq, Repr

namespace Buffer

def ofText (text : Text) : Buffer :=
  ⟨text, []⟩

def perform (command : Tokenizer.Command) (buffer : Buffer) : Tokenizer.Reply × Buffer :=
  match command with
  | .next =>
      match Token.cut? buffer.text with
      | none => (.token none, buffer)
      | some (token, rest) => (.token (some token), { buffer with text := rest })
  | .pushBack value => (.done, { buffer with text := value ++ buffer.text })
  | .save => (.done, { buffer with saved := buffer.text :: buffer.saved })
  | .restore =>
      match buffer.saved with
      | [] => (.refused .restoreWithoutCheckpoint, buffer)
      | copy :: saved => (.done, ⟨copy, saved⟩)
  | .discard =>
      match buffer.saved with
      | [] => (.refused .discardWithoutCheckpoint, buffer)
      | _ :: saved => (.done, { buffer with saved })

def machine : Tokenizer.Machine Buffer where
  perform command buffer := some (buffer.perform command)
  view buffer := some ⟨buffer.text, buffer.text.isEmpty, buffer.saved.length⟩

/-- What a tokenizer has still to read, with what its checkpoints had. -/
def ofTokenizer (tokenizer : Tokenizer) : Buffer :=
  ⟨tokenizer.remaining, tokenizer.checkpoints.map (·.remaining)⟩

theorem ofTokenizer_pushBack (value : Text) (tokenizer : Tokenizer) :
    ofTokenizer (tokenizer.pushBack value) =
      { ofTokenizer tokenizer with text := value ++ tokenizer.remaining } := by
  simp [ofTokenizer]

theorem perform_ofTokenizer (command : Tokenizer.Command) (tokenizer : Tokenizer) :
    (ofTokenizer tokenizer).perform command =
      ((tokenizer.perform command).1, ofTokenizer (tokenizer.perform command).2) := by
  obtain ⟨⟨passed, remaining⟩, checkpoints⟩ := tokenizer
  cases command with
  | next =>
      simp only [perform, Tokenizer.perform, Tokenizer.next, Cursor.next, ofTokenizer,
        Tokenizer.remaining]
      cases Token.cut? remaining with
      | none => rfl
      | some pair => rfl
  | pushBack value =>
      rw [Tokenizer.perform, ofTokenizer_pushBack]
      rfl
  | save => rfl
  | restore =>
      cases checkpoints with
      | nil => rfl
      | cons _ _ => rfl
  | discard =>
      cases checkpoints with
      | nil => rfl
      | cons _ _ => rfl

theorem represents_tokenizer : Tokenizer.Machine.Represents Tokenizer.machine machine ofTokenizer where
  perform command tokenizer := congrArg some (perform_ofTokenizer command tokenizer)
  view tokenizer := by
    simp [machine, Tokenizer.machine, Tokenizer.view, ofTokenizer, Tokenizer.isEmpty, Tokenizer.depth]

end Buffer

/-- A text that was read up to an offset in bytes. -/
structure Place where
  text : Text
  offset : Nat
deriving DecidableEq, Repr

namespace Place

def split? (place : Place) : Option (Text × Text) :=
  Text.splitAtByte? place.offset place.text

def next? (place : Place) : Option (Option Token × Place) := do
  let (_, rest) ← place.split?
  match Token.cut? rest with
  | none => return (none, place)
  | some (token, _) =>
      return (some token, { place with offset := place.offset + Text.byteSize token.text })

/-- Goes back over a value that stands before the place, else starts a new text with it. -/
def pushBack? (value : Text) (place : Place) : Option Place := do
  let (passed, rest) ← place.split?
  if value.isSuffixOf passed then
    return { place with offset := place.offset - Text.byteSize value }
  else
    return ⟨value ++ rest, 0⟩

def ofCursor (cursor : Cursor) : Place :=
  ⟨cursor.text, cursor.offset⟩

theorem split?_ofCursor (cursor : Cursor) :
    (ofCursor cursor).split? = some (cursor.passed.reverse, cursor.remaining) := by
  rw [split?, ofCursor, Cursor.offset, Cursor.text, ← Text.byteSize_reverse]
  exact Text.splitAtByte?_append _ _

theorem next?_ofCursor (cursor : Cursor) :
    (ofCursor cursor).next? = some (cursor.next.1, ofCursor cursor.next.2) := by
  rw [next?, split?_ofCursor, Cursor.next]
  cases cut : Token.cut? cursor.remaining with
  | none => simp [cut]
  | some pair =>
      obtain ⟨token, rest⟩ := pair
      have whole := Token.cut?_append cut
      simp [cut, ofCursor, Cursor.text, Cursor.offset, List.reverseAux_eq, whole, Nat.add_comm]

theorem pushBack?_ofCursor (value : Text) (cursor : Cursor) :
    (ofCursor cursor).pushBack? value = some (ofCursor (cursor.pushBack value)) := by
  obtain ⟨passed, remaining⟩ := cursor
  rw [pushBack?, split?_ofCursor, Cursor.pushBack]
  have test : value.isSuffixOf passed.reverse = value.reverse.isPrefixOf passed := by
    rw [List.isSuffixOf, List.reverse_reverse]
  simp only [Option.bind_eq_bind, Option.bind_some, test]
  by_cases fast : value.reverse.isPrefixOf passed = true
  · -- What stands before the cursor is some text and then the value.
    obtain ⟨earlier, rfl⟩ := List.isPrefixOf_iff_prefix.mp fast
    simp [ofCursor, Cursor.text, Cursor.offset]
  · simp [fast, ofCursor, Cursor.text, Cursor.offset]

end Place

/-- A place in a text and places in it or in other texts, the latest first. -/
structure Places where
  here : Place
  saved : List Place
deriving DecidableEq, Repr

namespace Places

def ofText (text : Text) : Places :=
  ⟨⟨text, 0⟩, []⟩

def perform? (command : Tokenizer.Command) (places : Places) : Option (Tokenizer.Reply × Places) :=
  match command with
  | .next => do
      let (token, here) ← places.here.next?
      return (.token token, { places with here })
  | .pushBack value => do return (.done, { places with here := ← places.here.pushBack? value })
  | .save => some (.done, { places with saved := places.here :: places.saved })
  | .restore =>
      match places.saved with
      | [] => some (.refused .restoreWithoutCheckpoint, places)
      | here :: saved => some (.done, ⟨here, saved⟩)
  | .discard =>
      match places.saved with
      | [] => some (.refused .discardWithoutCheckpoint, places)
      | _ :: saved => some (.done, { places with saved })

def view? (places : Places) : Option Tokenizer.View := do
  let (_, remaining) ← places.here.split?
  return ⟨remaining, Text.byteSize places.here.text ≤ places.here.offset, places.saved.length⟩

def machine : Tokenizer.Machine Places where
  perform := perform?
  view := view?

def ofTokenizer (tokenizer : Tokenizer) : Places :=
  ⟨.ofCursor tokenizer.cursor, tokenizer.checkpoints.map .ofCursor⟩

theorem perform?_ofTokenizer (command : Tokenizer.Command) (tokenizer : Tokenizer) :
    (ofTokenizer tokenizer).perform? command =
      some ((tokenizer.perform command).1, ofTokenizer (tokenizer.perform command).2) := by
  obtain ⟨cursor, checkpoints⟩ := tokenizer
  cases command with
  | next => simp [perform?, ofTokenizer, Place.next?_ofCursor, Tokenizer.perform, Tokenizer.next]
  | pushBack value =>
      simp [perform?, ofTokenizer, Place.pushBack?_ofCursor, Tokenizer.perform, Tokenizer.pushBack]
  | save => rfl
  | restore =>
      cases checkpoints with
      | nil => rfl
      | cons _ _ => rfl
  | discard =>
      cases checkpoints with
      | nil => rfl
      | cons _ _ => rfl

/-- Nothing remains exactly when the offset is the size of the text. -/
theorem isEmpty_eq (tokenizer : Tokenizer) :
    decide (Text.byteSize tokenizer.cursor.text ≤ tokenizer.cursor.offset) = tokenizer.isEmpty := by
  have ends : Text.byteSize tokenizer.cursor.text ≤ tokenizer.cursor.offset ↔
      tokenizer.remaining = [] := by
    rw [← Text.byteSize_eq_zero_iff, Tokenizer.remaining, Cursor.text, Cursor.offset,
      Text.byteSize_append, Text.byteSize_reverse]
    omega
  rw [Bool.eq_iff_iff, decide_eq_true_iff, ends, Tokenizer.isEmpty, List.isEmpty_iff]

theorem view?_ofTokenizer (tokenizer : Tokenizer) :
    (ofTokenizer tokenizer).view? = some tokenizer.view := by
  rw [view?, ofTokenizer, Place.split?_ofCursor]
  simp only [Option.bind_eq_bind, Option.bind_some, Option.pure_def, List.length_map, Option.some.injEq]
  exact congrArg (Tokenizer.View.mk tokenizer.remaining · tokenizer.depth) (isEmpty_eq tokenizer)

theorem represents_tokenizer : Tokenizer.Machine.Represents Tokenizer.machine machine ofTokenizer where
  perform command tokenizer := perform?_ofTokenizer command tokenizer
  view tokenizer := view?_ofTokenizer tokenizer

end Places

/-- A tokenizer shows after every command what a buffer and a machine of offsets show, none of which
is ever stuck. It makes no difference whether text is pushed back by moving the cursor or by making
a new text. -/
theorem Tokenizer.transcript_eq_buffer (text : Text) (commands : List Command) :
    (∃ seen, seen.length = commands.length ∧
      machine.transcript commands (.ofText text) = some seen ∧
      Buffer.machine.transcript commands (.ofText text) = some seen ∧
      Places.machine.transcript commands (.ofText text) = some seen) ∧
    ∀ (tokenizer : Tokenizer) (value : Text),
      machine.transcript commands (tokenizer.pushBack value) =
        machine.transcript commands
          { tokenizer with cursor := .ofText (value ++ tokenizer.remaining) } := by
  constructor
  · obtain ⟨seen, shown, length⟩ := transcript_exists commands (.ofText text)
    refine ⟨seen, length, shown, ?_, ?_⟩
    · rw [← shown]
      exact Buffer.represents_tokenizer.transcript commands (.ofText text)
    · rw [← shown]
      exact Places.represents_tokenizer.transcript commands (.ofText text)
  · intro tokenizer value
    have same : Buffer.ofTokenizer (tokenizer.pushBack value) =
        Buffer.ofTokenizer { tokenizer with cursor := .ofText (value ++ tokenizer.remaining) } :=
      Buffer.ofTokenizer_pushBack value tokenizer
    rw [← Buffer.represents_tokenizer.transcript, same, Buffer.represents_tokenizer.transcript]

end OutOfLine
