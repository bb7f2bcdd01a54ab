import OutOfLine.Event
import OutOfLine.Token.Lexer

/-!
A tokenizer is a cursor in a text together with a stack of saved cursors. Reading moves the
cursor over one token. Text can be pushed back; when it is what was read last, the cursor only
moves back.
-/

namespace OutOfLine

structure Cursor where
  /-- What was read, the last character first. -/
  passed : Text
  remaining : Text
deriving DecidableEq, Repr

structure Tokenizer where
  cursor : Cursor
  /-- The saved cursors, the latest first. -/
  checkpoints : List Cursor
deriving DecidableEq, Repr

namespace Cursor

def text (cursor : Cursor) : Text :=
  cursor.passed.reverse ++ cursor.remaining

def offset (cursor : Cursor) : Nat :=
  Text.byteSize cursor.passed

def ofText (text : Text) : Cursor :=
  ⟨[], text⟩

def pushBack (value : Text) (cursor : Cursor) : Cursor :=
  if value.reverse.isPrefixOf cursor.passed then
    ⟨cursor.passed.drop value.length, value ++ cursor.remaining⟩
  else
    ⟨[], value ++ cursor.remaining⟩

def next (cursor : Cursor) : Option Token × Cursor :=
  match Token.cut? cursor.remaining with
  | none => (none, cursor)
  | some (token, rest) => (some token, ⟨token.text.reverseAux cursor.passed, rest⟩)

@[simp]
theorem remaining_pushBack (value : Text) (cursor : Cursor) :
    (cursor.pushBack value).remaining = value ++ cursor.remaining := by
  unfold pushBack
  split <;> rfl

end Cursor

namespace Tokenizer

def ofText (text : Text) : Tokenizer :=
  ⟨.ofText text, []⟩

def remaining (tokenizer : Tokenizer) : Text :=
  tokenizer.cursor.remaining

def isEmpty (tokenizer : Tokenizer) : Bool :=
  tokenizer.remaining.isEmpty

def depth (tokenizer : Tokenizer) : Nat :=
  tokenizer.checkpoints.length

def next (tokenizer : Tokenizer) : Option Token × Tokenizer :=
  let (token, cursor) := tokenizer.cursor.next
  (token, { tokenizer with cursor })

def pushBack (value : Text) (tokenizer : Tokenizer) : Tokenizer :=
  { tokenizer with cursor := tokenizer.cursor.pushBack value }

def save (tokenizer : Tokenizer) : Tokenizer :=
  { tokenizer with checkpoints := tokenizer.cursor :: tokenizer.checkpoints }

def restore? (tokenizer : Tokenizer) : Option Tokenizer :=
  match tokenizer.checkpoints with
  | [] => none
  | cursor :: checkpoints => some ⟨cursor, checkpoints⟩

def discard? (tokenizer : Tokenizer) : Option Tokenizer :=
  match tokenizer.checkpoints with
  | [] => none
  | _ :: checkpoints => some { tokenizer with checkpoints }

inductive Command where
  | next
  | pushBack (value : Text)
  | save
  | restore
  | discard
deriving DecidableEq, Repr

inductive Reply where
  | token (token : Option Token)
  | done
  | refused (event : Event)
deriving DecidableEq, Repr

/-- Carries out one command. A refused command changes nothing. -/
def perform (command : Command) (tokenizer : Tokenizer) : Reply × Tokenizer :=
  match command with
  | .next =>
      let (token, tokenizer) := tokenizer.next
      (.token token, tokenizer)
  | .pushBack value => (.done, tokenizer.pushBack value)
  | .save => (.done, tokenizer.save)
  | .restore =>
      match tokenizer.restore? with
      | some restored => (.done, restored)
      | none => (.refused .restoreWithoutCheckpoint, tokenizer)
  | .discard =>
      match tokenizer.discard? with
      | some discarded => (.done, discarded)
      | none => (.refused .discardWithoutCheckpoint, tokenizer)

@[simp]
theorem remaining_pushBack (value : Text) (tokenizer : Tokenizer) :
    (tokenizer.pushBack value).remaining = value ++ tokenizer.remaining :=
  Cursor.remaining_pushBack value tokenizer.cursor

@[simp]
theorem checkpoints_pushBack (value : Text) (tokenizer : Tokenizer) :
    (tokenizer.pushBack value).checkpoints = tokenizer.checkpoints :=
  rfl

@[simp]
theorem checkpoints_next (tokenizer : Tokenizer) :
    tokenizer.next.2.checkpoints = tokenizer.checkpoints :=
  rfl

/-- Reading takes the token off the front of what remains. -/
theorem next_append {tokenizer : Tokenizer} {token : Token}
    (read : tokenizer.next.1 = some token) :
    token.text ++ tokenizer.next.2.remaining = tokenizer.remaining := by
  cases cut : Token.cut? tokenizer.remaining with
  | none =>
      simp only [next, Cursor.next, remaining] at read cut
      simp [cut] at read
  | some pair =>
      obtain ⟨first, rest⟩ := pair
      have whole := Token.cut?_append cut
      simp only [next, Cursor.next, remaining] at read cut whole ⊢
      simp only [cut, Option.some.injEq] at read ⊢
      subst read
      exact whole

theorem next_text_ne_nil {tokenizer : Tokenizer} {token : Token}
    (read : tokenizer.next.1 = some token) : token.text ≠ [] := by
  cases cut : Token.cut? tokenizer.remaining with
  | none =>
      simp only [next, Cursor.next, remaining] at read cut
      simp [cut] at read
  | some pair =>
      obtain ⟨first, rest⟩ := pair
      have nonempty := Token.cut?_text_ne_nil cut
      simp only [next, Cursor.next, remaining] at read cut
      simp only [cut, Option.some.injEq] at read
      subst read
      exact nonempty

/-- Nothing is read exactly at the end, and then nothing changes. -/
theorem next_of_none {tokenizer : Tokenizer} (ended : tokenizer.next.1 = none) :
    tokenizer.next.2 = tokenizer ∧ tokenizer.remaining = [] := by
  cases cut : Token.cut? tokenizer.remaining with
  | none =>
      have empty := Token.cut?_eq_none_iff.mp cut
      refine ⟨?_, empty⟩
      simp only [next, Cursor.next, remaining] at cut ⊢
      rw [cut]
  | some pair =>
      simp only [next, Cursor.next, remaining] at ended cut
      simp [cut] at ended

end Tokenizer

end OutOfLine
