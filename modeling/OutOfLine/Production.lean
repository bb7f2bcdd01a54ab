import OutOfLine.Parser

/-!
Productions: steps that read a result off the front of what remains, or fail. A production that
fails keeps the state it failed in; `attempt` puts the text back.

`Keeps` and `Progresses` say what every production of this library does to the state: it leaves
the checkpoints alone and only reads on, and where it succeeds it has read something. A checkpoint
that it asks for is one that it has saved.
-/

namespace OutOfLine

def Production (α : Type) : Type :=
  Parser → Option α × Parser

namespace Production

open OutOfLine.Parser

variable {α β : Type}

instance : Monad Production where
  pure result := fun parser => (some result, parser)
  bind parse onward := fun parser =>
    match parse parser with
    | (none, after) => (none, after)
    | (some result, after) => onward result after

def fail : Production α :=
  fun parser => (none, parser)

def maybe (parse : Production α) : Production (Option α) :=
  fun parser =>
    let (result, after) := parse parser
    (some result, after)

def note (event : Event) : Production Unit :=
  fun parser => (some (), parser.note event)

def noteWhen (condition : Bool) (event : Event) : Production Unit :=
  if condition then note event else return ()

def token : Production Token :=
  Parser.nextSignificant

def Keeps (parse : Production α) : Prop :=
  ∀ parser, Follows parser (parse parser).2

def Progresses (parse : Production α) : Prop :=
  ∀ (parser after : Parser) (result : α), parse parser = (some result, after) →
    Advances parser after

theorem pure_keeps (result : α) : Keeps (pure result : Production α) :=
  fun parser => Follows.refl parser

theorem fail_keeps : Keeps (fail : Production α) :=
  fun parser => Follows.refl parser

theorem fail_progresses : Progresses (fail : Production α) := by
  intro parser after result parsed
  simp [fail] at parsed

theorem note_keeps {event : Event} (sound : event.isFault = false) : Keeps (note event) :=
  fun parser => follows_note sound parser

theorem ite_keeps {condition : Prop} [Decidable condition] {left right : Production α}
    (leftKeeps : Keeps left) (rightKeeps : Keeps right) :
    Keeps (if condition then left else right) := by
  by_cases holds : condition
  · rwa [if_pos holds]
  · rwa [if_neg holds]

theorem noteWhen_keeps (condition : Bool) {event : Event} (sound : event.isFault = false) :
    Keeps (noteWhen condition event) :=
  ite_keeps (note_keeps sound) (pure_keeps _)

theorem bind_eq (parse : Production α) (onward : α → Production β) (parser : Parser) :
    (parse >>= onward) parser =
      match parse parser with
      | (none, after) => (none, after)
      | (some result, after) => onward result after :=
  rfl

theorem bind_some {parse : Production α} {onward : α → Production β} {parser after : Parser}
    {result : β} (parsed : (parse >>= onward) parser = (some result, after)) :
    ∃ first between, parse parser = (some first, between) ∧
      onward first between = (some result, after) := by
  rw [bind_eq] at parsed
  rcases read : parse parser with ⟨_ | first, between⟩ <;> simp only [read] at parsed
  · simp at parsed
  · exact ⟨first, between, rfl, parsed⟩

theorem Keeps.bind {parse : Production α} {onward : α → Production β}
    (first : Keeps parse) (second : ∀ result, Keeps (onward result)) :
    Keeps (parse >>= onward) := by
  intro parser
  have start := first parser
  rw [bind_eq]
  rcases read : parse parser with ⟨_ | result, after⟩ <;> rw [read] at start
  · exact start
  · exact start.trans (second result after)

theorem Keeps.maybe {parse : Production α} (keeps : Keeps parse) : Keeps (maybe parse) :=
  keeps

theorem Progresses.bind {parse : Production α} {onward : α → Production β}
    (first : Progresses parse) (second : ∀ result, Keeps (onward result)) :
    Progresses (parse >>= onward) := by
  intro parser after result parsed
  obtain ⟨found, between, read, rest⟩ := bind_some parsed
  have kept := second found between
  rw [rest] at kept
  exact (first _ _ _ read).trans_follows kept

theorem token_keeps : Keeps token :=
  nextSignificant_follows

theorem token_progresses : Progresses token :=
  fun _ _ _ read => nextSignificant_some_advances read

/-- The kind of the next significant token, which stays unread. Trivia before it is gone. -/
def peek : Production (Option Token.Kind) :=
  fun parser =>
    match parser.nextSignificant with
    | (none, after) => (some none, after)
    | (some token, after) => (some (some token.kind), after.pushBack token.text)

/-- The next significant token if it passes the test; else it stays unread. -/
def eatIf (accepts : Token → Bool) : Production Token :=
  fun parser =>
    match parser.nextSignificant with
    | (none, after) => (none, after)
    | (some token, after) =>
        if accepts token then (some token, after) else (none, after.pushBack token.text)

def eat (kind : Token.Kind) : Production Token :=
  eatIf (·.kind = kind)

theorem peek_keeps : Keeps peek := by
  intro parser
  unfold peek
  split
  · rename_i after read
    exact (nextSignificant_none read).1
  · rename_i token after read
    exact (nextSignificant_some read).1

theorem eatIf_keeps (accepts : Token → Bool) : Keeps (eatIf accepts) := by
  intro parser
  unfold eatIf
  split
  · rename_i after read
    exact (nextSignificant_none read).1
  · rename_i token after read
    split
    · exact (nextSignificant_some_advances read).toFollows
    · exact (nextSignificant_some read).1

theorem eatIf_progresses (accepts : Token → Bool) : Progresses (eatIf accepts) := by
  intro parser after token eaten
  unfold eatIf at eaten
  split at eaten
  · simp at eaten
  · rename_i found rest read
    split at eaten
    · simp only [Prod.mk.injEq, Option.some.injEq] at eaten
      obtain ⟨rfl, rfl⟩ := eaten
      exact nextSignificant_some_advances read
    · simp at eaten

theorem eat_keeps (kind : Token.Kind) : Keeps (eat kind) :=
  eatIf_keeps _

theorem eat_progresses (kind : Token.Kind) : Progresses (eat kind) :=
  eatIf_progresses _

/-- Runs a production on trial: where it fails, the text is as it was before. -/
def attempt (parse : Production α) : Production α :=
  fun parser =>
    match parse parser.save with
    | (some result, after) => (some result, after.discard)
    | (none, after) => (none, after.restore)

theorem attempt_some {parse : Production α} {parser after : Parser} {result : α}
    (parsed : attempt parse parser = (some result, after)) :
    ∃ inner, parse parser.save = (some result, inner) ∧ after = inner.discard := by
  unfold attempt at parsed
  split at parsed
  · rename_i found inner read
    simp only [Prod.mk.injEq, Option.some.injEq] at parsed
    obtain ⟨rfl, rfl⟩ := parsed
    exact ⟨inner, read, rfl⟩
  · simp at parsed

theorem attempt_none {parse : Production α} {parser after : Parser}
    (failed : attempt parse parser = (none, after)) :
    ∃ inner, parse parser.save = (none, inner) ∧ after = inner.restore := by
  unfold attempt at failed
  split at failed
  · simp at failed
  · rename_i inner read
    simp only [Prod.mk.injEq, true_and] at failed
    exact ⟨inner, read, failed.symm⟩

/-- A failed attempt changes nothing but the log. -/
theorem attempt_none_tokenizer {parse : Production α} {parser after : Parser}
    (balanced : (parse parser.save).2.tokenizer.checkpoints = parser.save.tokenizer.checkpoints)
    (failed : attempt parse parser = (none, after)) : after.tokenizer = parser.tokenizer := by
  obtain ⟨inner, read, rfl⟩ := attempt_none failed
  rw [read] at balanced
  rw [restore_of_saved balanced]

theorem attempt_follows {parse : Production α} {parser : Parser}
    (follows : Follows parser.save (parse parser.save).2) :
    Follows parser (attempt parse parser).2 := by
  rcases parsed : attempt parse parser with ⟨_ | result, after⟩
  · obtain ⟨inner, read, rfl⟩ := attempt_none parsed
    rw [read] at follows
    rw [restore_of_saved follows.checkpoints]
    exact ⟨rfl, List.suffix_refl _, follows.log⟩
  · obtain ⟨inner, read, rfl⟩ := attempt_some parsed
    rw [read] at follows
    rw [discard_of_saved follows.checkpoints]
    exact ⟨rfl, follows.remaining, follows.log⟩

theorem Keeps.attempt {parse : Production α} (keeps : Keeps parse) : Keeps (attempt parse) :=
  fun parser => attempt_follows (keeps parser.save)

theorem Progresses.attempt {parse : Production α} (progresses : Progresses parse)
    (keeps : Keeps parse) : Progresses (attempt parse) := by
  intro parser after result parsed
  have kept := keeps.attempt parser
  rw [parsed] at kept
  obtain ⟨inner, read, rfl⟩ := attempt_some parsed
  refine ⟨kept, ?_⟩
  rw [remaining_discard]
  exact (progresses _ _ _ read).shorter

/-- Runs a production on a text of its own, all of which it has to use up. The text at hand is
not touched. -/
def isolated (parse : Production α) (text : Text) : Production (Option α) :=
  fun parser =>
    match parse (.ofText text parser.log) with
    | (none, after) => (some none, { parser with log := after.log })
    | (some result, after) =>
        match after.nextSignificant with
        | (none, after) => (some (some result), { parser with log := after.log })
        | (some _, after) =>
            (some none, { parser with log := .isolatedParseLeftInput :: after.log })

theorem isolated_tokenizer (parse : Production α) (text : Text) (parser : Parser) :
    (isolated parse text parser).2.tokenizer = parser.tokenizer := by
  unfold isolated
  split
  · rfl
  · split <;> rfl

theorem isolated_log {parse : Production α} (keeps : Keeps parse) (text : Text) (parser : Parser) :
    Log.Grows parser.log (isolated parse text parser).2.log := by
  have inner := (keeps (.ofText text parser.log)).log
  unfold isolated
  split
  · rename_i after parsed
    rwa [parsed] at inner
  · rename_i result after parsed
    rw [parsed] at inner
    have ended := inner.trans (nextSignificant_follows after).log
    split
    · rename_i last read
      rwa [read] at ended
    · rename_i extra last read
      rw [read] at ended
      exact ended.trans (Log.grows_cons rfl _)

theorem isolated_keeps {parse : Production α} (keeps : Keeps parse) (text : Text) :
    Keeps (isolated parse text) := by
  intro parser
  have same := isolated_tokenizer parse text parser
  refine ⟨by rw [same], ?_, isolated_log keeps text parser⟩
  simp only [remaining, same]
  exact List.suffix_refl _

/-- At least one and at most `room` items with commas between them. -/
def commaListWithin (item : Production α) : (room : Nat) → Production (List α)
  | 0 => do
      note .commaListTooLong
      fail
  | room + 1 => do
      let first ← item
      match ← maybe (eat .comma) with
      | none => return [first]
      | some _ => return first :: (← commaListWithin item room)

def itemLimit : Nat := 99

def commaList (item : Production α) : Production (List α) :=
  commaListWithin item itemLimit

theorem commaListWithin_keeps {item : Production α} (keeps : Keeps item) (room : Nat) :
    Keeps (commaListWithin item room) := by
  induction room with
  | zero => exact (note_keeps rfl).bind fun _ => fail_keeps
  | succ room ih =>
      refine keeps.bind fun first => (eat_keeps .comma).maybe.bind fun comma => ?_
      cases comma with
      | none => exact pure_keeps _
      | some _ => exact ih.bind fun _ => pure_keeps _

theorem commaList_keeps {item : Production α} (keeps : Keeps item) : Keeps (commaList item) :=
  commaListWithin_keeps keeps itemLimit

/-- Collects tokens up to the closer that matches an opener already read. Only the two kinds
given count; `depth` inner openers are waiting. `read` holds the texts, the last one first. -/
def bracketBody (opener closer : Token.Kind) (depth : Nat) (read : List Text) (parser : Parser) :
    Option Text × Parser :=
  match _first : parser.next with
  | (none, after) => (none, after)
  | (some token, after) =>
      if token.kind = opener then bracketBody opener closer (depth + 1) (token.text :: read) after
      else if token.kind = closer then
        match depth with
        | 0 => (some (token.text :: read).reverse.flatten, after)
        | depth + 1 => bracketBody opener closer depth (token.text :: read) after
      else bracketBody opener closer depth (token.text :: read) after
termination_by parser.remaining.length
decreasing_by all_goals exact (next_some_advances _first).shorter

def bracketRun (opener closer : Token.Kind) : Production Text := do
  let first ← token
  if first.kind = opener then bracketBody opener closer 0 [first.text] else fail

theorem bracketBody_follows (opener closer : Token.Kind) (depth : Nat) (read : List Text)
    (parser : Parser) : Follows parser (bracketBody opener closer depth read parser).2 := by
  fun_induction bracketBody opener closer depth read parser with
  | case1 depth read parser after first =>
      obtain ⟨rfl, _⟩ := next_none first
      exact Follows.refl _
  | case3 read parser token after first => exact (next_some_advances first).toFollows
  | case2 depth read parser token after first _ ih =>
      exact (next_some_advances first).toFollows.trans ih
  | case4 read parser token after first _ _ depth ih =>
      exact (next_some_advances first).toFollows.trans ih
  | case5 depth read parser token after first _ _ ih =>
      exact (next_some_advances first).toFollows.trans ih

theorem bracketRun_keeps (opener closer : Token.Kind) : Keeps (bracketRun opener closer) :=
  token_keeps.bind fun first =>
    ite_keeps (bracketBody_follows opener closer 0 [first.text]) fail_keeps

theorem bracketRun_progresses (opener closer : Token.Kind) :
    Progresses (bracketRun opener closer) :=
  token_progresses.bind fun first =>
    ite_keeps (bracketBody_follows opener closer 0 [first.text]) fail_keeps

end Production

end OutOfLine
