import OutOfLine.Tokenizer

/-!
The state of a parser: a tokenizer and the log of what happened so far.

Two relations compare states. `Follows` says that the checkpoints are as they were, that what remains
is an end of what remained before, and that no checkpoint was missing on the way. `Advances` says that
something has been read as well.
-/

namespace OutOfLine

structure Parser where
  tokenizer : Tokenizer
  log : Log
deriving DecidableEq, Repr

namespace Parser

def ofText (text : Text) (log : Log) : Parser :=
  ⟨.ofText text, log⟩

def remaining (parser : Parser) : Text :=
  parser.tokenizer.remaining

def note (event : Event) (parser : Parser) : Parser :=
  { parser with log := event :: parser.log }

def pushBack (value : Text) (parser : Parser) : Parser :=
  { parser with tokenizer := parser.tokenizer.pushBack value }

def next (parser : Parser) : Option Token × Parser :=
  let (token, tokenizer) := parser.tokenizer.next
  (token, { parser with tokenizer })

def save (parser : Parser) : Parser :=
  { parser with tokenizer := parser.tokenizer.save }

def restore (parser : Parser) : Parser :=
  match parser.tokenizer.restore? with
  | some tokenizer => { parser with tokenizer }
  | none => parser.note .restoreWithoutCheckpoint

def discard (parser : Parser) : Parser :=
  match parser.tokenizer.discard? with
  | some tokenizer => { parser with tokenizer }
  | none => parser.note .discardWithoutCheckpoint

theorem restore_of_saved {parser : Parser} {cursor : Cursor} {checkpoints : List Cursor}
    (saved : parser.tokenizer.checkpoints = cursor :: checkpoints) :
    parser.restore = { parser with tokenizer := ⟨cursor, checkpoints⟩ } := by
  simp only [restore, Tokenizer.restore?, saved]

theorem discard_of_saved {parser : Parser} {cursor : Cursor} {checkpoints : List Cursor}
    (saved : parser.tokenizer.checkpoints = cursor :: checkpoints) :
    parser.discard = { parser with tokenizer := ⟨parser.tokenizer.cursor, checkpoints⟩ } := by
  simp only [discard, Tokenizer.discard?, saved]

theorem remaining_discard (parser : Parser) : parser.discard.remaining = parser.remaining := by
  unfold discard Tokenizer.discard?
  cases checkpoints : parser.tokenizer.checkpoints <;> rfl

structure Follows (before after : Parser) : Prop where
  checkpoints : after.tokenizer.checkpoints = before.tokenizer.checkpoints
  remaining : after.remaining <:+ before.remaining
  log : Log.Grows before.log after.log

structure Advances (before after : Parser) : Prop extends Follows before after where
  shorter : after.remaining.length < before.remaining.length

theorem Follows.refl (parser : Parser) : Follows parser parser :=
  ⟨rfl, List.suffix_refl _, .refl _⟩

theorem Follows.trans {first second third : Parser}
    (left : Follows first second) (right : Follows second third) : Follows first third :=
  ⟨right.checkpoints.trans left.checkpoints, right.remaining.trans left.remaining,
    left.log.trans right.log⟩

theorem Follows.length_le {before after : Parser} (follows : Follows before after) :
    after.remaining.length ≤ before.remaining.length :=
  follows.remaining.length_le

theorem Follows.trans_advances {first second third : Parser}
    (left : Follows first second) (right : Advances second third) : Advances first third :=
  ⟨left.trans right.toFollows, Nat.lt_of_lt_of_le right.shorter left.length_le⟩

theorem Advances.trans_follows {first second third : Parser}
    (left : Advances first second) (right : Follows second third) : Advances first third :=
  ⟨left.toFollows.trans right, Nat.lt_of_le_of_lt right.length_le left.shorter⟩

theorem Advances.trans {first second third : Parser}
    (left : Advances first second) (right : Advances second third) : Advances first third :=
  left.trans_follows right.toFollows

theorem follows_note {event : Event} (sound : event.isFault = false) (parser : Parser) :
    Follows parser (parser.note event) :=
  ⟨rfl, List.suffix_refl _, Log.grows_cons sound parser.log⟩

@[simp]
theorem remaining_pushBack (value : Text) (parser : Parser) :
    (parser.pushBack value).remaining = value ++ parser.remaining :=
  Tokenizer.remaining_pushBack value parser.tokenizer

theorem pushBack_follows (value : Text) (parser : Parser) :
    Follows (parser.pushBack value) parser :=
  ⟨rfl, by rw [remaining_pushBack]; exact List.suffix_append _ _, .refl _⟩

theorem pushBack_advances {value : Text} (nonempty : value ≠ []) (parser : Parser) :
    Advances (parser.pushBack value) parser :=
  ⟨pushBack_follows value parser, by
    have positive := List.length_pos_iff.mpr nonempty
    simp only [remaining_pushBack, List.length_append]
    omega⟩

theorem next_some {parser after : Parser} {token : Token}
    (read : parser.next = (some token, after)) :
    Follows parser (after.pushBack token.text) ∧ token.text ≠ [] := by
  simp only [next, Prod.mk.injEq] at read
  obtain ⟨first, rest⟩ := read
  subst rest
  refine ⟨⟨rfl, ?_, .refl _⟩, Tokenizer.next_text_ne_nil first⟩
  have whole : token.text ++ parser.tokenizer.next.2.remaining = parser.remaining :=
    Tokenizer.next_append first
  rw [remaining_pushBack, ← whole]
  exact List.suffix_refl _

theorem next_some_advances {parser after : Parser} {token : Token}
    (read : parser.next = (some token, after)) : Advances parser after :=
  (next_some read).1.trans_advances (pushBack_advances (next_some read).2 after)

theorem next_none {parser after : Parser} (read : parser.next = (none, after)) :
    after = parser ∧ parser.remaining = [] := by
  simp only [next, Prod.mk.injEq] at read
  obtain ⟨first, rest⟩ := read
  have ended := Tokenizer.next_of_none first
  subst rest
  rw [ended.1]
  exact ⟨rfl, ended.2⟩

/-- The next token that is neither white space nor a comment. -/
def nextSignificant (parser : Parser) : Option Token × Parser :=
  match _read : parser.next with
  | (none, after) => (none, after)
  | (some token, after) =>
      if token.kind.isTrivia then nextSignificant after else (some token, after)
termination_by parser.remaining.length
decreasing_by exact (next_some_advances _read).shorter

theorem nextSignificant_some {parser after : Parser} {token : Token}
    (read : parser.nextSignificant = (some token, after)) :
    Follows parser (after.pushBack token.text) ∧ token.text ≠ [] ∧
      token.kind.isTrivia = false := by
  fun_induction nextSignificant parser with
  | case1 parser ended first => simp at read
  | case2 parser skipped rest first trivia ih =>
      obtain ⟨follows, nonempty, significant⟩ := ih read
      exact ⟨(next_some_advances first).toFollows.trans follows, nonempty, significant⟩
  | case3 parser found rest first significant =>
      simp only [Prod.mk.injEq, Option.some.injEq] at read
      obtain ⟨rfl, rfl⟩ := read
      exact ⟨(next_some first).1, (next_some first).2, by simpa using significant⟩

theorem nextSignificant_none {parser after : Parser}
    (read : parser.nextSignificant = (none, after)) :
    Follows parser after ∧ after.remaining = [] := by
  fun_induction nextSignificant parser with
  | case1 parser ended first =>
      simp only [Prod.mk.injEq, true_and] at read
      subst read
      obtain ⟨rfl, empty⟩ := next_none first
      exact ⟨Follows.refl _, empty⟩
  | case2 parser skipped rest first trivia ih =>
      exact ⟨(next_some_advances first).toFollows.trans (ih read).1, (ih read).2⟩
  | case3 parser found rest first significant => simp at read

theorem nextSignificant_some_advances {parser after : Parser} {token : Token}
    (read : parser.nextSignificant = (some token, after)) : Advances parser after :=
  (nextSignificant_some read).1.trans_advances
    (pushBack_advances (nextSignificant_some read).2.1 after)

theorem nextSignificant_follows (parser : Parser) : Follows parser parser.nextSignificant.2 := by
  rcases read : parser.nextSignificant with ⟨_ | token, after⟩
  · exact (nextSignificant_none read).1
  · exact (nextSignificant_some_advances read).toFollows

end Parser

end OutOfLine
