import Mathlib.Data.List.Forall2
import OutOfLine.Production
import OutOfLine.Proofs.Relexing

/-!
Productions seen on tokens. What a production does depends on nothing but the tokens of the text
that remains; a reading is that dependence, as a function on lists of tokens. It records besides
whether a token was asked for when none was left.

`Reads` says that a production does what a reading says.
-/

namespace OutOfLine

structure Outcome (α : Type) where
  result : Option α
  rest : List Token
  /-- Whether a token was asked for at the end, also in an attempt that was given up. -/
  reachedEnd : Bool
deriving DecidableEq, Repr

def Reading (α : Type) : Type :=
  List Token → Outcome α

namespace Reading

open OutOfLine.Parser

variable {α β γ δ : Type}

instance : Monad Reading where
  pure result := fun tokens => ⟨some result, tokens, false⟩
  bind reading onward := fun tokens =>
    match reading tokens with
    | ⟨none, rest, reachedEnd⟩ => ⟨none, rest, reachedEnd⟩
    | ⟨some result, rest, reachedEnd⟩ =>
        let later := onward result rest
        { later with reachedEnd := reachedEnd || later.reachedEnd }

def fail : Reading α :=
  fun tokens => ⟨none, tokens, false⟩

def maybe (reading : Reading α) : Reading (Option α) :=
  fun tokens =>
    let outcome := reading tokens
    { outcome with result := some outcome.result }

/-- Where the reading fails, its tokens are there again; that the end was seen stays on record. -/
def attempt (reading : Reading α) : Reading α :=
  fun tokens =>
    match reading tokens with
    | ⟨some result, rest, reachedEnd⟩ => ⟨some result, rest, reachedEnd⟩
    | ⟨none, _, reachedEnd⟩ => ⟨none, tokens, reachedEnd⟩

/-- What the first reading finds, else what the second one finds from where the first stopped. -/
def orElse (first second : Reading α) : Reading α := do
  match ← maybe first with
  | some result => return result
  | none => second

/-- The next significant token. -/
def token : Reading Token
  | [] => ⟨none, [], true⟩
  | first :: tokens =>
      if first.kind.isTrivia then token tokens else ⟨some first, tokens, false⟩

def peek : Reading (Option Token.Kind) :=
  fun tokens =>
    match token tokens with
    | ⟨none, rest, reachedEnd⟩ => ⟨some none, rest, reachedEnd⟩
    | ⟨some found, rest, reachedEnd⟩ => ⟨some (some found.kind), found :: rest, reachedEnd⟩

def eatIf (accepts : Token → Bool) : Reading Token :=
  fun tokens =>
    match token tokens with
    | ⟨none, rest, reachedEnd⟩ => ⟨none, rest, reachedEnd⟩
    | ⟨some found, rest, reachedEnd⟩ =>
        if accepts found then ⟨some found, rest, reachedEnd⟩
        else ⟨none, found :: rest, reachedEnd⟩

def eat (kind : Token.Kind) : Reading Token :=
  eatIf (·.kind = kind)

def commaListWithin (item : Reading α) : (room : Nat) → Reading (List α)
  | 0 => fail
  | room + 1 => do
      let first ← item
      match ← maybe (eat .comma) with
      | none => return [first]
      | some _ => return first :: (← commaListWithin item room)

def commaList (item : Reading α) : Reading (List α) :=
  commaListWithin item Production.itemLimit

theorem related_at {relates : α → β → Prop} {left : List α} {right : List β}
    (related : List.Forall₂ relates left right) {index : Nat} {item : α}
    (here : left[index]? = some item) : ∃ other, right[index]? = some other ∧ relates item other := by
  induction related generalizing index with
  | nil => simp at here
  | cons first _ ih =>
      cases index with
      | zero =>
          obtain rfl := Option.some.inj here
          exact ⟨_, rfl, first⟩
      | succ index => exact ih here

theorem related_of_mem {relates : α → β → Prop} {left : List α} {right : List β}
    (related : List.Forall₂ relates left right) {item : α} (member : item ∈ left) :
    ∃ other ∈ right, relates item other := by
  obtain ⟨index, here⟩ := List.mem_iff_getElem?.mp member
  obtain ⟨other, there, both⟩ := related_at related here
  exact ⟨other, List.mem_of_getElem? there, both⟩

/-- A run of a production and the outcome of a reading, compared. -/
structure Agrees (relates : α → β → Prop) (run : Option α × Parser) (outcome : Outcome β) :
    Prop where
  result : Option.Rel relates run.1 outcome.result
  rest : Token.lex run.2.remaining = outcome.rest

def Reads (relates : α → β → Prop) (parse : Production α) (reading : Reading β) : Prop :=
  ∀ parser, Agrees relates (parse parser) (reading (Token.lex parser.remaining))

theorem Agrees.of_none {relates : α → β → Prop} {run : Option α × Parser} {rest : List Token}
    {reachedEnd : Bool} (agrees : Agrees relates run ⟨none, rest, reachedEnd⟩) :
    ∃ after, run = (none, after) ∧ Token.lex after.remaining = rest := by
  obtain ⟨found, after⟩ := run
  obtain ⟨result, remains⟩ := agrees
  cases result
  exact ⟨after, rfl, remains⟩

theorem Agrees.of_some {relates : α → β → Prop} {run : Option α × Parser} {seen : β}
    {rest : List Token} {reachedEnd : Bool} (agrees : Agrees relates run ⟨some seen, rest, reachedEnd⟩) :
    ∃ found after, run = (some found, after) ∧ relates found seen ∧
      Token.lex after.remaining = rest := by
  obtain ⟨found, after⟩ := run
  obtain ⟨result, remains⟩ := agrees
  cases result with
  | some related => exact ⟨_, after, rfl, related, remains⟩

theorem Agrees.imp {relates weaker : α → β → Prop} {run : Option α × Parser} {outcome : Outcome β}
    (agrees : Agrees relates run outcome) (weakens : ∀ left right, relates left right → weaker left right) :
    Agrees weaker run outcome := by
  obtain ⟨result, rest⟩ := agrees
  refine ⟨?_, rest⟩
  generalize run.1 = found, outcome.result = seen at result ⊢
  cases result with
  | some related => exact .some (weakens _ _ related)
  | none => exact .none

theorem Reads.imp {relates weaker : α → β → Prop} {parse : Production α} {reading : Reading β}
    (reads : Reads relates parse reading)
    (weakens : ∀ left right, relates left right → weaker left right) : Reads weaker parse reading :=
  fun parser => (reads parser).imp weakens

theorem Agrees.result_eq {run : Option α × Parser} {outcome : Outcome α}
    (agrees : Agrees Eq run outcome) : run.1 = outcome.result := by
  have result := agrees.result
  generalize run.1 = found, outcome.result = seen at result ⊢
  cases result with
  | some same => rw [same]
  | none => rfl

/-- A production with a reading depends on the text that remains and on nothing else. -/
theorem Reads.same_of_remaining {parse : Production α} {reading : Reading α}
    (reads : Reads Eq parse reading) {left right : Parser} (same : left.remaining = right.remaining) :
    (parse left).1 = (parse right).1 ∧ (parse left).2.remaining = (parse right).2.remaining := by
  have agrees := reads left
  rw [same] at agrees
  exact ⟨agrees.result_eq.trans (reads right).result_eq.symm,
    Token.lex_injective (agrees.rest.trans (reads right).rest.symm)⟩

theorem bind_of_none {reading : Reading α} {tokens rest : List Token} {reachedEnd : Bool}
    (read : reading tokens = ⟨none, rest, reachedEnd⟩) (later : α → Reading β) :
    (reading >>= later) tokens = ⟨none, rest, reachedEnd⟩ := by
  simp only [Bind.bind, read]

theorem bind_of_some {reading : Reading α} {tokens rest : List Token} {result : α}
    {reachedEnd : Bool} (read : reading tokens = ⟨some result, rest, reachedEnd⟩)
    (later : α → Reading β) :
    (reading >>= later) tokens = ⟨(later result rest).result, (later result rest).rest,
      reachedEnd || (later result rest).reachedEnd⟩ := by
  simp only [Bind.bind, read]

theorem bind_result {reading : Reading α} {later : α → Reading β} {tokens : List Token} {result : β}
    (found : ((reading >>= later) tokens).result = some result) :
    ∃ first rest reachedEnd, reading tokens = ⟨some first, rest, reachedEnd⟩ ∧
      (later first rest).result = some result ∧
      ((reading >>= later) tokens).rest = (later first rest).rest := by
  rcases read : reading tokens with ⟨_ | first, rest, reachedEnd⟩
  · simp [bind_of_none read] at found
  · rw [bind_of_some read] at found ⊢
    exact ⟨first, rest, reachedEnd, rfl, found, rfl⟩

theorem orElse_of_none {first : Reading α} {tokens rest : List Token} {reachedEnd : Bool}
    (read : first tokens = ⟨none, rest, reachedEnd⟩) (second : Reading α) :
    first.orElse second tokens =
      ⟨(second rest).result, (second rest).rest, reachedEnd || (second rest).reachedEnd⟩ := by
  have tried : maybe first tokens = ⟨some none, rest, reachedEnd⟩ := by simp only [maybe, read]
  rw [orElse, bind_of_some tried]

theorem orElse_of_some {first : Reading α} {tokens rest : List Token} {result : α}
    {reachedEnd : Bool} (read : first tokens = ⟨some result, rest, reachedEnd⟩)
    (second : Reading α) : first.orElse second tokens = ⟨some result, rest, reachedEnd⟩ := by
  have tried : maybe first tokens = ⟨some (some result), rest, reachedEnd⟩ := by
    simp only [maybe, read]
  rw [orElse, bind_of_some tried]
  simp [Pure.pure]

theorem attempt_of_none {reading : Reading α} {tokens rest : List Token} {reachedEnd : Bool}
    (read : reading tokens = ⟨none, rest, reachedEnd⟩) :
    attempt reading tokens = ⟨none, tokens, reachedEnd⟩ := by
  simp only [attempt, read]

theorem attempt_of_some {reading : Reading α} {tokens rest : List Token} {result : α}
    {reachedEnd : Bool} (read : reading tokens = ⟨some result, rest, reachedEnd⟩) :
    attempt reading tokens = ⟨some result, rest, reachedEnd⟩ := by
  simp only [attempt, read]

theorem eatIf_of_none {tokens rest : List Token} {reachedEnd : Bool}
    (read : token tokens = ⟨none, rest, reachedEnd⟩) (accepts : Token → Bool) :
    eatIf accepts tokens = ⟨none, rest, reachedEnd⟩ := by
  simp only [eatIf, read]

theorem eatIf_of_some {tokens rest : List Token} {found : Token} {reachedEnd : Bool}
    (read : token tokens = ⟨some found, rest, reachedEnd⟩) (accepts : Token → Bool) :
    eatIf accepts tokens =
      if accepts found then ⟨some found, rest, reachedEnd⟩
      else ⟨none, found :: rest, reachedEnd⟩ := by
  simp only [eatIf, read]

theorem peek_of_none {tokens rest : List Token} {reachedEnd : Bool}
    (read : token tokens = ⟨none, rest, reachedEnd⟩) :
    peek tokens = ⟨some none, rest, reachedEnd⟩ := by
  simp only [peek, read]

theorem peek_of_some {tokens rest : List Token} {found : Token} {reachedEnd : Bool}
    (read : token tokens = ⟨some found, rest, reachedEnd⟩) :
    peek tokens = ⟨some (some found.kind), found :: rest, reachedEnd⟩ := by
  simp only [peek, read]

section List

variable {item : Reading α} {one : α} {items : List α} {tokens between rest : List Token}
  {mark : Token} {early late reachedEnd : Bool} {room : Nat}

theorem maybe_eat_comma (kind : mark.kind = .comma) (rest : List Token) :
    maybe (eat .comma) (mark :: rest) = ⟨some (some mark), rest, false⟩ := by
  simp [maybe, eat, eatIf, token, kind, Token.Kind.isTrivia]

theorem commaListWithin_last (here : item tokens = ⟨some one, between, early⟩)
    (noComma : maybe (eat .comma) between = ⟨some none, rest, late⟩) (room : Nat) :
    commaListWithin item (room + 1) tokens = ⟨some [one], rest, early || late⟩ := by
  rw [commaListWithin, bind_of_some here, bind_of_some noComma]
  simp [Pure.pure]

theorem commaListWithin_more (here : item tokens = ⟨some one, between, early⟩)
    (comma : maybe (eat .comma) between = ⟨some (some mark), rest, late⟩) (room : Nat) :
    commaListWithin item (room + 1) tokens =
      ⟨(commaListWithin item room rest).result.map (one :: ·), (commaListWithin item room rest).rest,
        early || (late || (commaListWithin item room rest).reachedEnd)⟩ := by
  rw [commaListWithin, bind_of_some here, bind_of_some comma]
  rcases behind : commaListWithin item room rest with ⟨_ | later, left, last⟩
  · simp only [bind_of_none behind]
    rfl
  · simp only [bind_of_some behind]
    simp [Pure.pure]

/-- The room for a list matters only as far as the list fits into it. -/
theorem commaListWithin_room
    (read : commaListWithin item room tokens = ⟨some items, rest, reachedEnd⟩) :
    items ≠ [] ∧ items.length ≤ room ∧ ∀ other, items.length ≤ other →
      commaListWithin item other tokens = ⟨some items, rest, reachedEnd⟩ := by
  induction room generalizing tokens rest items reachedEnd with
  | zero => simp [commaListWithin, fail] at read
  | succ room ih =>
      rcases here : item tokens with ⟨_ | one, between, early⟩
      · simp [commaListWithin, bind_of_none here] at read
      rcases comma : maybe (eat .comma) between with ⟨_ | _ | mark, after, late⟩
      · simp [maybe] at comma
      · rw [commaListWithin_last here comma] at read
        simp only [Outcome.mk.injEq, Option.some.injEq] at read
        obtain ⟨rfl, rfl, rfl⟩ := read
        refine ⟨by simp, by simp, fun other enough => ?_⟩
        obtain ⟨other, rfl⟩ := Nat.exists_eq_succ_of_ne_zero (Nat.ne_of_gt enough)
        exact commaListWithin_last here comma other
      · rw [commaListWithin_more here comma] at read
        rcases behind : commaListWithin item room after with ⟨_ | later, left, last⟩ <;>
          simp only [behind, Option.map_none, Option.map_some, Outcome.mk.injEq, Option.some.injEq,
            reduceCtorEq, false_and] at read
        obtain ⟨rfl, rfl, rfl⟩ := read
        obtain ⟨_, fits, same⟩ := ih behind
        refine ⟨by simp, Nat.succ_le_succ fits, fun other enough => ?_⟩
        rw [List.length_cons] at enough
        obtain ⟨other, rfl⟩ := Nat.exists_eq_succ_of_ne_zero (by omega : other ≠ 0)
        rw [commaListWithin_more here comma, same other (by omega)]
        rfl

end List

theorem Reads.pure {relates : α → β → Prop} {left : α} {right : β} (related : relates left right) :
    Reads relates (Pure.pure left) (Pure.pure right) :=
  fun _ => ⟨.some related, rfl⟩

theorem Reads.fail {relates : α → β → Prop} : Reads relates Production.fail Reading.fail :=
  fun _ => ⟨.none, rfl⟩

theorem Reads.bind {relates : α → β → Prop} {relatesThen : γ → δ → Prop} {parse : Production α}
    {reading : Reading β} {onward : α → Production γ} {later : β → Reading δ}
    (first : Reads relates parse reading)
    (second : ∀ left right, relates left right → Reads relatesThen (onward left) (later right)) :
    Reads relatesThen (parse >>= onward) (reading >>= later) := by
  intro parser
  have agrees := first parser
  rw [Production.bind_eq]
  rcases outcome : reading (Token.lex parser.remaining) with ⟨_ | seen, tokens, reachedEnd⟩ <;>
    rw [outcome] at agrees
  · obtain ⟨after, run, rest⟩ := agrees.of_none
    rw [bind_of_none outcome, run]
    exact ⟨.none, rest⟩
  · obtain ⟨found, after, run, related, rest⟩ := agrees.of_some
    obtain ⟨next, last⟩ := second _ _ related after
    rw [rest] at next last
    rw [bind_of_some outcome, run]
    exact ⟨next, last⟩

/-- What needs no tokens of its own stands on the side of the reading as a value. -/
theorem Reads.bindValue {relates : α → β → Prop} {relatesThen : γ → δ → Prop} {parse : Production α}
    {value : β} {onward : α → Production γ} {later : Reading δ}
    (first : Reads relates parse (Pure.pure value))
    (second : ∀ left, relates left value → Reads relatesThen (onward left) later) :
    Reads relatesThen (parse >>= onward) later := by
  intro parser
  obtain ⟨found, after, run, related, rest⟩ := (first parser).of_some
  have agrees := second found related after
  rw [rest] at agrees
  rw [Production.bind_eq, run]
  exact agrees

theorem Reads.noted {relates : α → β → Prop} {parse : Production α} {reading : Reading β}
    (reads : Reads relates parse reading) (event : Event) :
    Reads relates (Production.note event >>= fun _ => parse) reading :=
  fun parser => reads (parser.note event)

theorem Reads.notedWhen {relates : α → β → Prop} {parse : Production α} {reading : Reading β}
    (reads : Reads relates parse reading) (condition : Bool) (event : Event) :
    Reads relates (Production.noteWhen condition event >>= fun _ => parse) reading := by
  intro parser
  cases condition with
  | true => exact reads (parser.note event)
  | false => exact reads parser

theorem Agrees.ite {relates : α → β → Prop} {condition : Prop} [Decidable condition]
    {left right : Production α} {leftReading rightReading : Reading β} {parser : Parser}
    {tokens : List Token} (whenTrue : condition → Agrees relates (left parser) (leftReading tokens))
    (whenFalse : ¬ condition → Agrees relates (right parser) (rightReading tokens)) :
    Agrees relates ((if condition then left else right) parser)
      ((if condition then leftReading else rightReading) tokens) := by
  by_cases holds : condition
  · rw [if_pos holds, if_pos holds]
    exact whenTrue holds
  · rw [if_neg holds, if_neg holds]
    exact whenFalse holds

theorem Reads.ite {relates : α → β → Prop} {condition : Prop} [Decidable condition]
    {left right : Production α} {leftReading rightReading : Reading β}
    (whenTrue : Reads relates left leftReading) (whenFalse : Reads relates right rightReading) :
    Reads relates (if condition then left else right)
      (if condition then leftReading else rightReading) :=
  fun parser => .ite (fun _ => whenTrue parser) (fun _ => whenFalse parser)

theorem Reads.maybe {relates : α → β → Prop} {parse : Production α} {reading : Reading β}
    (reads : Reads relates parse reading) :
    Reads (Option.Rel relates) (Production.maybe parse) (Reading.maybe reading) :=
  fun parser => ⟨.some (reads parser).result, (reads parser).rest⟩

/-- Results that are the same need no names on both sides. -/
theorem Reads.andThen {relatesThen : γ → δ → Prop} {parse : Production α} {reading : Reading α}
    {onward : α → Production γ} {later : α → Reading δ} (first : Reads Eq parse reading)
    (second : ∀ result, Reads relatesThen (onward result) (later result)) :
    Reads relatesThen (parse >>= onward) (reading >>= later) :=
  first.bind fun left _ same => same ▸ second left

theorem Reads.maybeSame {parse : Production α} {reading : Reading α} (reads : Reads Eq parse reading) :
    Reads Eq (Production.maybe parse) (Reading.maybe reading) := by
  refine reads.maybe.imp fun left right same => ?_
  cases same with
  | none => rfl
  | some same => rw [same]

theorem Reads.attempt {relates : α → β → Prop} {parse : Production α} {reading : Reading β}
    (reads : Reads relates parse reading) (keeps : Production.Keeps parse) :
    Reads relates (Production.attempt parse) (Reading.attempt reading) := by
  intro parser
  obtain ⟨result, rest⟩ := reads parser.save
  change Option.Rel relates _ (reading (Token.lex parser.remaining)).result at result
  change _ = (reading (Token.lex parser.remaining)).rest at rest
  rcases tried : Production.attempt parse parser with ⟨_ | found, after⟩
  · have same := Production.attempt_none_tokenizer (keeps parser.save).checkpoints tried
    obtain ⟨inner, run, rfl⟩ := Production.attempt_none tried
    rw [run] at result
    rcases outcome : reading (Token.lex parser.remaining) with ⟨seen, tokens, reachedEnd⟩
    rw [outcome] at result
    cases result
    rw [attempt_of_none outcome]
    exact ⟨.none, by simp only [remaining, same]⟩
  · obtain ⟨inner, run, rfl⟩ := Production.attempt_some tried
    rw [run] at result rest
    rcases outcome : reading (Token.lex parser.remaining) with ⟨seen, tokens, reachedEnd⟩
    rw [outcome] at result rest
    cases result with
    | some related =>
        rw [attempt_of_some outcome]
        exact ⟨.some related, by rw [remaining_discard]; exact rest⟩

theorem next_some_cut {parser after : Parser} {found : Token}
    (read : parser.next = (some found, after)) :
    Token.cut? parser.remaining = some (found, after.remaining) := by
  simp only [next, Tokenizer.next, Cursor.next, Prod.mk.injEq] at read
  cases cut : Token.cut? parser.remaining with
  | none =>
      simp only [remaining, Tokenizer.remaining] at cut
      simp [cut] at read
  | some pair =>
      simp only [remaining, Tokenizer.remaining] at cut ⊢
      simp only [cut, Option.some.injEq] at read
      obtain ⟨rfl, rfl⟩ := read
      rfl

/-- Reading the next significant token: there is none, or it can be read again once its text is
pushed back. -/
inductive Next (parser : Parser) : Option Token × Parser → Outcome Token → Prop where
  | ended {after : Parser} (empty : after.remaining = []) : Next parser (none, after) ⟨none, [], true⟩
  | found {after : Parser} {found : Token}
      (again : Token.lex (found.text ++ after.remaining) = found :: Token.lex after.remaining)
      (member : found ∈ Token.lex parser.remaining) (significant : found.kind.isTrivia = false) :
      Next parser (some found, after) ⟨some found, Token.lex after.remaining, false⟩

theorem nextSignificant_next (parser : Parser) :
    Next parser parser.nextSignificant (token (Token.lex parser.remaining)) := by
  fun_induction nextSignificant parser with
  | case1 parser after read =>
      obtain ⟨rfl, empty⟩ := next_none read
      rw [empty, Token.lex_nil]
      exact .ended empty
  | case2 parser skipped after read trivia ih =>
      have lexed := Token.lex_of_cut (next_some_cut read)
      rw [lexed, token, if_pos trivia]
      generalize nextSignificant after = run, token (Token.lex after.remaining) = outcome at ih
      cases ih with
      | ended empty => exact .ended empty
      | found again member significant =>
          exact .found again (by rw [lexed]; exact List.mem_cons_of_mem _ member) significant
  | case3 parser found after read significant =>
      have cut := next_some_cut read
      have lexed := Token.lex_of_cut cut
      rw [lexed, token, if_neg significant]
      exact .found (by rw [Token.cut?_append cut, lexed]) (by rw [lexed]; simp) (by simpa using significant)

theorem token_of_ended {parser after : Parser} (ended : parser.nextSignificant = (none, after)) :
    token (Token.lex parser.remaining) = ⟨none, [], true⟩ ∧ after.remaining = [] := by
  have next := nextSignificant_next parser
  rw [ended] at next
  generalize token (Token.lex parser.remaining) = outcome at next ⊢
  cases next with
  | ended empty => exact ⟨rfl, empty⟩

theorem token_of_found {parser after : Parser} {found : Token}
    (first : parser.nextSignificant = (some found, after)) :
    token (Token.lex parser.remaining) = ⟨some found, Token.lex after.remaining, false⟩ ∧
      Token.lex (found.text ++ after.remaining) = found :: Token.lex after.remaining := by
  have next := nextSignificant_next parser
  rw [first] at next
  generalize token (Token.lex parser.remaining) = outcome at next ⊢
  cases next with
  | found again member significant => exact ⟨rfl, again⟩

theorem token_next (parser : Parser) :
    Next parser (Production.token parser) (token (Token.lex parser.remaining)) :=
  nextSignificant_next parser

theorem token_reads :
    Reads (fun left right => left = right ∧ Token.Genuine left) Production.token token := by
  intro parser
  have next := token_next parser
  generalize Production.token parser = run, token (Token.lex parser.remaining) = outcome at next ⊢
  cases next with
  | ended empty => exact ⟨.none, by simp [empty]⟩
  | found again member significant => exact ⟨.some ⟨rfl, Token.genuine_of_mem_lex member⟩, rfl⟩

theorem peek_reads : Reads Eq Production.peek peek := by
  intro parser
  have next := nextSignificant_next parser
  unfold Production.peek peek
  generalize parser.nextSignificant = run, token (Token.lex parser.remaining) = outcome at next ⊢
  cases next with
  | ended empty => exact ⟨.some rfl, by simp [empty]⟩
  | found again member significant => exact ⟨.some rfl, by simpa using again⟩

theorem eatIf_reads (accepts : Token → Bool) :
    Reads (fun left right => left = right ∧ accepts left ∧ Token.Genuine left)
      (Production.eatIf accepts) (eatIf accepts) := by
  intro parser
  have next := nextSignificant_next parser
  unfold Production.eatIf eatIf
  generalize parser.nextSignificant = run, token (Token.lex parser.remaining) = outcome at next ⊢
  cases next with
  | ended empty => exact ⟨.none, by simp [empty]⟩
  | @found after found again member significant =>
      by_cases accepted : accepts found = true
      · simp only [accepted, if_true]
        exact ⟨.some ⟨rfl, accepted, Token.genuine_of_mem_lex member⟩, rfl⟩
      · simp only [accepted, if_false, Bool.false_eq_true]
        exact ⟨.none, by simpa using again⟩

theorem eat_reads (kind : Token.Kind) : Reads Eq (Production.eat kind) (eat kind) :=
  (eatIf_reads _).imp fun _ _ related => related.1

theorem commaListWithin_reads {relates : α → β → Prop} {item : Production α} {reading : Reading β}
    (reads : Reads relates item reading) (room : Nat) :
    Reads (List.Forall₂ relates) (Production.commaListWithin item room)
      (commaListWithin reading room) := by
  induction room with
  | zero => exact Reads.fail.noted _
  | succ room ih =>
      refine reads.bind fun first firstSeen related => (eat_reads .comma).maybe.bind ?_
      intro comma commaSeen same
      cases same with
      | none => exact .pure (.cons related .nil)
      | some _ => exact ih.bind fun items itemsSeen relatedAll => .pure (.cons related relatedAll)

theorem commaList_reads {relates : α → β → Prop} {item : Production α} {reading : Reading β}
    (reads : Reads relates item reading) :
    Reads (List.Forall₂ relates) (Production.commaList item) (commaList reading) :=
  commaListWithin_reads reads Production.itemLimit

theorem commaList_readsSame {item : Production α} {reading : Reading α}
    (reads : Reads Eq item reading) : Reads Eq (Production.commaList item) (commaList reading) :=
  (commaList_reads reads).imp fun _ _ same => by rwa [List.forall₂_eq_eq_eq] at same

/-- A reading takes tokens off the front, and unless it asked for a token at the end it does the
same with more tokens behind. -/
structure Steady (reading : Reading α) : Prop where
  suffix : ∀ tokens, (reading tokens).rest <:+ tokens
  append : ∀ tokens more, (reading tokens).reachedEnd = false →
    reading (tokens ++ more) = ⟨(reading tokens).result, (reading tokens).rest ++ more, false⟩

/-- Where it succeeds, the reading has taken a token. -/
def Shortens (reading : Reading α) : Prop :=
  ∀ tokens result, (reading tokens).result = some result →
    (reading tokens).rest.length < tokens.length

theorem Steady.length_le {reading : Reading α} (steady : Steady reading) (tokens : List Token) :
    (reading tokens).rest.length ≤ tokens.length :=
  (steady.suffix tokens).length_le

theorem Steady.pure (result : α) : Steady (Pure.pure result) :=
  ⟨fun _ => List.suffix_refl _, fun _ _ _ => rfl⟩

theorem Steady.fail : Steady (Reading.fail : Reading α) :=
  ⟨fun _ => List.suffix_refl _, fun _ _ _ => rfl⟩

theorem Steady.bind {reading : Reading α} {later : α → Reading β} (first : Steady reading)
    (second : ∀ result, Steady (later result)) : Steady (reading >>= later) := by
  constructor
  · intro tokens
    have start := first.suffix tokens
    rcases read : reading tokens with ⟨_ | result, rest, reachedEnd⟩ <;> rw [read] at start
    · rw [bind_of_none read]
      exact start
    · rw [bind_of_some read]
      exact ((second result).suffix rest).trans start
  · intro tokens more ended
    have start := first.append tokens more
    rcases read : reading tokens with ⟨_ | result, rest, reachedEnd⟩ <;> rw [read] at start
    · rw [bind_of_none read] at ended ⊢
      rw [bind_of_none (start ended)]
    · rw [bind_of_some read] at ended ⊢
      obtain ⟨noEnd, noEndLater⟩ := Bool.or_eq_false_iff.mp ended
      rw [bind_of_some (start noEnd), (second result).append rest more noEndLater]
      rfl

theorem Steady.maybe {reading : Reading α} (steady : Steady reading) :
    Steady (Reading.maybe reading) := by
  constructor
  · exact steady.suffix
  · intro tokens more ended
    simp only [Reading.maybe] at ended ⊢
    rw [steady.append tokens more ended]

theorem Steady.attempt {reading : Reading α} (steady : Steady reading) :
    Steady (Reading.attempt reading) := by
  constructor
  · intro tokens
    have start := steady.suffix tokens
    rcases read : reading tokens with ⟨_ | result, rest, reachedEnd⟩ <;> rw [read] at start
    · simpa only [attempt_of_none read] using List.suffix_refl tokens
    · rw [attempt_of_some read]
      exact start
  · intro tokens more ended
    have start := steady.append tokens more
    rcases read : reading tokens with ⟨_ | result, rest, reachedEnd⟩ <;> rw [read] at start
    · rw [attempt_of_none read] at ended ⊢
      rw [attempt_of_none (start ended)]
    · rw [attempt_of_some read] at ended ⊢
      rw [attempt_of_some (start ended)]

theorem Steady.orElse {first second : Reading α} (firstSteady : Steady first)
    (secondSteady : Steady second) : Steady (first.orElse second) := by
  refine firstSteady.maybe.bind fun found => ?_
  cases found with
  | some result => exact .pure result
  | none => exact secondSteady

theorem Steady.ite {condition : Prop} [Decidable condition] {left right : Reading α}
    (whenTrue : Steady left) (whenFalse : Steady right) :
    Steady (if condition then left else right) := by
  by_cases holds : condition
  · rwa [if_pos holds]
  · rwa [if_neg holds]

theorem Shortens.bind {reading : Reading α} {later : α → Reading β} (first : Shortens reading)
    (second : ∀ result, Steady (later result)) : Shortens (reading >>= later) := by
  intro tokens result found
  have start := first tokens
  rcases read : reading tokens with ⟨_ | middle, rest, reachedEnd⟩ <;> rw [read] at start
  · simp [bind_of_none read] at found
  · rw [bind_of_some read]
    exact Nat.lt_of_le_of_lt ((second middle).length_le rest) (start middle rfl)

theorem Shortens.attempt {reading : Reading α} (shortens : Shortens reading) :
    Shortens (Reading.attempt reading) := by
  intro tokens result found
  have start := shortens tokens
  rcases read : reading tokens with ⟨_ | other, rest, reachedEnd⟩ <;> rw [read] at start
  · simp [attempt_of_none read] at found
  · rw [attempt_of_some read]
    exact start other rfl

theorem Shortens.orElse {first second : Reading α} (shortens : Shortens first)
    (steady : Steady first) (secondShortens : Shortens second) :
    Shortens (first.orElse second) := by
  intro tokens result found
  have start := shortens tokens
  have kept := steady.length_le tokens
  rcases read : first tokens with ⟨_ | other, rest, reachedEnd⟩ <;> rw [read] at start kept
  · rw [orElse_of_none read] at found ⊢
    exact Nat.lt_of_lt_of_le (secondShortens rest result found) kept
  · rw [orElse_of_some read]
    exact start other rfl

theorem token_suffix (tokens : List Token) : (token tokens).rest <:+ tokens := by
  induction tokens with
  | nil => exact List.suffix_refl _
  | cons first tokens ih =>
      unfold token
      split
      · exact ih.trans (List.suffix_cons _ _)
      · exact List.suffix_cons _ _

theorem token_steady : Steady token := by
  refine ⟨token_suffix, fun tokens more ended => ?_⟩
  induction tokens with
  | nil => simp [token] at ended
  | cons first tokens ih =>
      unfold token at ended
      rw [List.cons_append, token, token]
      split <;> rename_i trivia
      · rw [if_pos trivia] at ended
        exact ih ended
      · rfl

/-- A token that was found is the first of an end of the tokens. -/
theorem token_some {tokens : List Token} {found : Token} (read : (token tokens).result = some found) :
    found :: (token tokens).rest <:+ tokens := by
  induction tokens with
  | nil => simp [token] at read
  | cons first tokens ih =>
      unfold token at read ⊢
      split <;> rename_i trivia
      · rw [if_pos trivia] at read
        exact (ih read).trans (List.suffix_cons _ _)
      · rw [if_neg trivia] at read
        simp only [Option.some.injEq] at read
        subst read
        exact List.suffix_refl _

theorem token_shortens : Shortens token := by
  intro tokens found read
  have shorter := (token_some read).length_le
  simp only [List.length_cons] at shorter
  omega

theorem peek_steady : Steady peek := by
  constructor
  · intro tokens
    have start := token_steady.suffix tokens
    have seen := @token_some tokens
    rcases read : token tokens with ⟨_ | found, rest, reachedEnd⟩ <;> rw [read] at start seen
    · rw [peek_of_none read]
      exact start
    · rw [peek_of_some read]
      exact seen rfl
  · intro tokens more ended
    have start := token_steady.append tokens more
    rcases read : token tokens with ⟨_ | found, rest, reachedEnd⟩ <;> rw [read] at start
    · rw [peek_of_none read] at ended ⊢
      rw [peek_of_none (start ended)]
    · rw [peek_of_some read] at ended ⊢
      rw [peek_of_some (start ended)]
      rfl

theorem eatIf_steady (accepts : Token → Bool) : Steady (eatIf accepts) := by
  constructor
  · intro tokens
    have start := token_steady.suffix tokens
    have seen := @token_some tokens
    rcases read : token tokens with ⟨_ | found, rest, reachedEnd⟩ <;> rw [read] at start seen
    · rw [eatIf_of_none read]
      exact start
    · rw [eatIf_of_some read]
      split
      · exact start
      · exact seen rfl
  · intro tokens more ended
    have start := token_steady.append tokens more
    rcases read : token tokens with ⟨_ | found, rest, reachedEnd⟩ <;> rw [read] at start
    · rw [eatIf_of_none read] at ended ⊢
      rw [eatIf_of_none (start ended)]
    · rw [eatIf_of_some read] at ended ⊢
      have noEnd : reachedEnd = false := by
        split at ended <;> exact ended
      rw [eatIf_of_some (start noEnd)]
      split <;> rfl

theorem eatIf_shortens (accepts : Token → Bool) : Shortens (eatIf accepts) := by
  intro tokens result found
  have shorter := token_shortens tokens
  rcases read : token tokens with ⟨_ | first, rest, reachedEnd⟩ <;> rw [read] at shorter
  · simp [eatIf_of_none read] at found
  · rw [eatIf_of_some read] at found ⊢
    split <;> rename_i accepted
    · exact shorter first rfl
    · simp [accepted] at found

theorem eat_steady (kind : Token.Kind) : Steady (eat kind) :=
  eatIf_steady _

theorem commaListWithin_steady {item : Reading α} (steady : Steady item) (room : Nat) :
    Steady (commaListWithin item room) := by
  induction room with
  | zero => exact .fail
  | succ room ih =>
      refine steady.bind fun first => (eat_steady .comma).maybe.bind fun comma => ?_
      cases comma with
      | none => exact .pure _
      | some _ => exact ih.bind fun _ => .pure _

theorem commaList_steady {item : Reading α} (steady : Steady item) : Steady (commaList item) :=
  commaListWithin_steady steady Production.itemLimit

end Reading

end OutOfLine
