import OutOfLine.Proofs.Reading
import OutOfLine.Segment.Parser

namespace OutOfLine

/-- A segment as the list of its tokens. -/
structure Phrase where
  kind : Segment.Kind
  tokens : List Token
deriving DecidableEq, Repr

namespace Phrase

/-- The segment in writing. -/
def segment (phrase : Phrase) : Segment :=
  ⟨phrase.kind, Token.spell phrase.tokens⟩

/-- The text of the segment is cut into the tokens of the phrase wherever it is put. -/
structure Spells (segment : Segment) (phrase : Phrase) : Prop where
  kind : segment.kind = phrase.kind
  settled : Token.Settled segment.text phrase.tokens

theorem Spells.eq_segment {segment : Segment} {phrase : Phrase} (spells : Spells segment phrase) :
    segment = phrase.segment := by
  obtain ⟨kind, settled⟩ := spells
  cases segment
  simp only [Phrase.segment, Segment.mk.injEq]
  exact ⟨kind, settled.spell_eq.symm⟩

theorem segments_eq {segments : List Segment} {phrases : List Phrase}
    (spelled : List.Forall₂ Spells segments phrases) : segments = phrases.map Phrase.segment := by
  induction spelled with
  | nil => rfl
  | cons first _ ih => rw [List.map_cons, ← ih, ← first.eq_segment]

end Phrase

namespace Outcome

def map {α β : Type} (transform : α → β) (outcome : Outcome α) : Outcome β :=
  ⟨outcome.result.map transform, outcome.rest, outcome.reachedEnd⟩

theorem map_id {α : Type} (outcome : Outcome α) : outcome.map id = outcome := by
  simp [map]

end Outcome

namespace Reading

open OutOfLine.Parser

/-- Reads on in a qualified name. Reading a name never fails, it may be empty. -/
def nameBody : Option Token.Kind → Reading (List Token)
  | _, [] => ⟨some [], [], true⟩
  | last, first :: tokens =>
      if first.kind.isTrivia then nameBody last tokens
      else if Production.continuesName last first.kind then
        (nameBody (some first.kind) tokens).map (first :: ·)
      else ⟨some [], first :: tokens, false⟩

def qualifiedName : Reading (List Token) := do
  let name ← nameBody none
  if name.isEmpty then fail else return name

/-- How many inner openers wait after one more token, or nothing if it closes the run. -/
def depthAfter? (opener closer : Token.Kind) (depth : Nat) (kind : Token.Kind) : Option Nat :=
  if kind = opener then some (depth + 1)
  else if kind = closer then
    match depth with
    | 0 => none
    | depth + 1 => some depth
  else some depth

def bracketBody (opener closer : Token.Kind) : Nat → Reading (List Token)
  | _, [] => ⟨none, [], true⟩
  | depth, first :: tokens =>
      match depthAfter? opener closer depth first.kind with
      | none => ⟨some [first], tokens, false⟩
      | some depth => (bracketBody opener closer depth tokens).map (first :: ·)

def bracketRun (opener closer : Token.Kind) : Reading (List Token) := do
  let first ← token
  if first.kind = opener then return first :: (← bracketBody opener closer 0) else fail

def afterName (name : List Token) (opener : Token.Kind) : Reading Phrase :=
  match Production.bracketKind? opener, opener.closing? with
  | some kind, some closer => do
      let run ← bracketRun opener closer
      return ⟨kind, name ++ run⟩
  | _, _ => return ⟨.plain, name⟩

def namedSegment : Reading Phrase := do
  let name ← qualifiedName
  match ← peek with
  | none => return ⟨.plain, name⟩
  | some opener => afterName name opener

def attributeSegment : Reading Phrase := do
  let run ← bracketRun .openBracket .closeBracket
  return ⟨.attribute, run⟩

def symbolSegment : Reading Phrase := do
  let symbol ← eatIf Production.isSymbol
  return ⟨.symbol, [symbol]⟩

def segment : Reading Phrase :=
  orElse (attempt namedSegment) (orElse (attempt attributeSegment) (attempt symbolSegment))

/-- Tokens that make a name after a token of the kind `last`. -/
def IsName : Option Token.Kind → List Token → Prop
  | _, [] => True
  | last, first :: name =>
      Token.Genuine first ∧ Production.continuesName last first.kind ∧ IsName (some first.kind) name

theorem apart_of_mark {kind : Token.Kind} {mark : Text} (marked : kind.mark? = some mark)
    (rest : Text) : Token.Apart (mark ++ rest) := by
  cases kind <;> simp only [Token.Kind.mark?, Option.some.injEq, reduceCtorEq] at marked <;>
    subst marked <;> exact Token.apart_cons (by decide) _

/-- What follows a word in a name is no word. -/
theorem IsName.apart {name : List Token} (isName : IsName (some .word) name) {follow : Text}
    (apart : Token.Apart follow) : Token.Apart (Token.spell name ++ follow) := by
  cases name with
  | nil => exact apart
  | cons first name =>
      obtain ⟨genuine, continues, _⟩ := isName
      have colons : first.kind = .doubleColon := by
        cases kind : first.kind <;> simp [kind, Production.continuesName] at continues ⊢
      have marked : first.kind.mark? = some [':', ':'] := by rw [colons]; rfl
      rw [Token.spell_cons, Token.text_of_mark genuine marked, List.append_assoc]
      exact apart_of_mark marked _

theorem IsName.settled {last : Option Token.Kind} {name : List Token} (isName : IsName last name) :
    Token.Settled (Token.spell name) name := by
  induction name generalizing last with
  | nil => exact Token.sealed_nil.settled
  | cons first name ih =>
      obtain ⟨genuine, continues, later⟩ := isName
      by_cases word : first.kind = .word
      · rw [word] at later
        intro follow apart
        rw [Token.spell_cons, List.append_assoc,
          Token.lex_of_cut (Token.cut_word genuine word (later.apart apart)), ih later _ apart]
        rfl
      · obtain ⟨mark, marked, alone⟩ :
            ∃ mark, first.kind.mark? = some mark ∧ first.kind ≠ .colon := by
          cases kind : first.kind <;> simp_all [Production.continuesName, Token.Kind.mark?]
        have spelled := Token.text_of_mark genuine marked
        have whole : first = ⟨first.kind, mark⟩ := by rw [← spelled]
        have both := (Token.sealed_mark marked alone).before (ih later)
        rw [← whole] at both
        rwa [Token.spell_cons, spelled]

theorem nameBody_eq (last : Option Token.Kind) (tokens : List Token) :
    nameBody last tokens =
      match token tokens with
      | ⟨none, rest, reachedEnd⟩ => ⟨some [], rest, reachedEnd⟩
      | ⟨some found, rest, reachedEnd⟩ =>
          if Production.continuesName last found.kind then
            (nameBody (some found.kind) rest).map (found :: ·)
          else ⟨some [], found :: rest, reachedEnd⟩ := by
  induction tokens with
  | nil => rfl
  | cons first tokens ih =>
      rw [nameBody, token]
      by_cases trivia : first.kind.isTrivia = true
      · rw [if_pos trivia, if_pos trivia, ih]
      · rw [if_neg trivia, if_neg trivia]

/-- The name that is read on, with what was read before it in front. -/
theorem nameBody_reads (last : Option Token.Kind) (read : List Text) (parser : Parser) :
    ∃ name, (nameBody last (Token.lex parser.remaining)).result = some name ∧ IsName last name ∧
      (Production.nameBody last read parser).1 = read.reverse.flatten ++ Token.spell name ∧
      Token.lex (Production.nameBody last read parser).2.remaining =
        (nameBody last (Token.lex parser.remaining)).rest := by
  fun_induction Production.nameBody last read parser with
  | case1 last read parser after ended =>
      have next := nextSignificant_next parser
      rw [nameBody_eq]
      rw [ended] at next
      generalize token (Token.lex parser.remaining) = outcome at next ⊢
      cases next with
      | ended empty => exact ⟨[], rfl, trivial, by simp, by simp [empty]⟩
  | case2 last read parser found after first fits ih =>
      have next := nextSignificant_next parser
      rw [nameBody_eq]
      rw [first] at next
      generalize token (Token.lex parser.remaining) = outcome at next ⊢
      cases next with
      | found again member significant =>
          obtain ⟨name, result, isName, text, rest⟩ := ih
          refine ⟨found :: name, by simp [fits, Outcome.map, result],
            ⟨Token.genuine_of_mem_lex member, fits, isName⟩, by simp [text], ?_⟩
          simp [fits, Outcome.map, rest]
  | case3 last read parser found after first misfit =>
      have next := nextSignificant_next parser
      rw [nameBody_eq]
      rw [first] at next
      generalize token (Token.lex parser.remaining) = outcome at next ⊢
      cases next with
      | found again member significant =>
          exact ⟨[], by simp [misfit], trivial, by simp, by simpa [misfit] using again⟩

theorem IsName.spell_ne_nil {last : Option Token.Kind} {name : List Token} (isName : IsName last name)
    (nonempty : name ≠ []) : Token.spell name ≠ [] := by
  cases name with
  | nil => contradiction
  | cons first name =>
      obtain ⟨⟨rest, cut⟩, _⟩ := isName
      simp [Token.cut?_text_ne_nil cut]

theorem qualifiedName_reads :
    Reads (fun name tokens => IsName none tokens ∧ name = Token.spell tokens)
      Production.qualifiedName qualifiedName := by
  intro parser
  obtain ⟨name, result, isName, text, rest⟩ := nameBody_reads none [] parser
  unfold Production.qualifiedName qualifiedName
  rcases run : Production.nameBody none [] parser with ⟨written, after⟩
  rcases outcome : nameBody none (Token.lex parser.remaining) with ⟨seen, tokens, reachedEnd⟩
  simp only [run, outcome, List.reverse_nil, List.flatten_nil, List.nil_append] at result text rest
  subst result text
  rw [bind_of_some outcome]
  cases name with
  | nil => exact ⟨.none, rest⟩
  | cons first name =>
      obtain ⟨c, more, spelled⟩ := List.exists_cons_of_ne_nil (isName.spell_ne_nil (by simp))
      rw [spelled]
      exact ⟨.some ⟨isName, spelled.symm⟩, rest⟩

theorem kind_of_depthAfter?_none {opener closer kind : Token.Kind} {depth : Nat}
    (ends : depthAfter? opener closer depth kind = none) : kind = closer := by
  unfold depthAfter? at ends
  split at ends
  · simp at ends
  split at ends
  · assumption
  · simp at ends

/-- What is read of a bracket run are neighbouring tokens up to the closer. -/
theorem bracketBody_some {opener closer : Token.Kind} {depth : Nat} {tokens run : List Token}
    (read : (bracketBody opener closer depth tokens).result = some run) :
    tokens = run ++ (bracketBody opener closer depth tokens).rest ∧
      ∃ front last, run = front ++ [last] ∧ last.kind = closer := by
  induction tokens generalizing depth run with
  | nil => simp [bracketBody] at read
  | cons first tokens ih =>
      unfold bracketBody at read ⊢
      cases step : depthAfter? opener closer depth first.kind with
      | none =>
          simp only [step, Option.some.injEq] at read ⊢
          subst read
          exact ⟨rfl, [], first, rfl, kind_of_depthAfter?_none step⟩
      | some inner =>
          simp only [step, Outcome.map] at read ⊢
          obtain ⟨later, result, rfl⟩ := Option.map_eq_some_iff.mp read
          obtain ⟨whole, front, last, rfl, closes⟩ := ih result
          exact ⟨by rw [List.cons_append, ← whole], first :: front, last, rfl, closes⟩

theorem Agrees.cons {first : Token} {read : List Text} {run : Option Text × Parser}
    {outcome : Outcome (List Token)}
    (agrees : Agrees
      (fun content tokens => content = (first.text :: read).reverse.flatten ++ Token.spell tokens)
      run outcome) :
    Agrees (fun content tokens => content = read.reverse.flatten ++ Token.spell tokens) run
      (outcome.map (first :: ·)) := by
  obtain ⟨result, rest⟩ := agrees
  obtain ⟨found, after⟩ := run
  obtain ⟨seen, tokens, reachedEnd⟩ := outcome
  cases result with
  | none => exact ⟨.none, rest⟩
  | some related => exact ⟨.some (by simp [related]), rest⟩

theorem bracketBody_reads (opener closer : Token.Kind) (depth : Nat) (read : List Text)
    (parser : Parser) :
    Agrees (fun content tokens => content = read.reverse.flatten ++ Token.spell tokens)
      (Production.bracketBody opener closer depth read parser)
      (bracketBody opener closer depth (Token.lex parser.remaining)) := by
  fun_induction Production.bracketBody opener closer depth read parser with
  | case1 depth read parser after ended =>
      obtain ⟨rfl, empty⟩ := next_none ended
      rw [empty, Token.lex_nil, bracketBody]
      exact ⟨.none, by simp [empty]⟩
  | case2 depth read parser first after found opens ih =>
      rw [Token.lex_of_cut (next_some_cut found), bracketBody]
      simp only [depthAfter?, if_pos opens]
      exact ih.cons
  | case3 read parser first after found opens closes =>
      rw [Token.lex_of_cut (next_some_cut found), bracketBody]
      simp only [depthAfter?, if_neg opens, if_pos closes]
      exact ⟨.some (by simp), rfl⟩
  | case4 read parser first after found opens closes depth ih =>
      rw [Token.lex_of_cut (next_some_cut found), bracketBody]
      simp only [depthAfter?, if_neg opens, if_pos closes]
      exact ih.cons
  | case5 depth read parser first after found opens closes ih =>
      rw [Token.lex_of_cut (next_some_cut found), bracketBody]
      simp only [depthAfter?, if_neg opens, if_neg closes]
      exact ih.cons

/-- A bracket run as written: it keeps its tokens and lengthens no word before it. -/
structure Encloses (content : Text) (run : List Token) : Prop where
  closed : Token.Sealed content run
  apart : Token.Apart content
  nonempty : content ≠ []

theorem bracketBody_encloses {opener closer : Token.Kind} {opening closing : Text} {first : Token}
    {after : Parser} (opens : opener.mark? = some opening) (closes : closer.mark? = some closing)
    (alone : closer ≠ .colon) (begins : first.text = opening)
    (again : Token.lex (first.text ++ after.remaining) = first :: Token.lex after.remaining) :
    Agrees Encloses (Production.bracketBody opener closer 0 [first.text] after)
      ((bracketBody opener closer 0 >>= fun body => return first :: body)
        (Token.lex after.remaining)) := by
  have agrees := bracketBody_reads opener closer 0 [first.text] after
  have inner := @bracketBody_some opener closer 0 (Token.lex after.remaining)
  rcases outcome : bracketBody opener closer 0 (Token.lex after.remaining) with
    ⟨_ | body, tokens, reachedEnd⟩ <;> rw [outcome] at agrees inner
  · obtain ⟨last, run, rest⟩ := agrees.of_none
    rw [bind_of_none outcome, run]
    exact ⟨.none, rest⟩
  · obtain ⟨content, last, run, related, rest⟩ := agrees.of_some
    rw [bind_of_some outcome, run]
    obtain ⟨whole, front, closer, rfl, closed⟩ := inner rfl
    have spelled : content = Token.spell (first :: front ++ [closer]) := by
      simpa using related
    subst spelled
    have lexed : Token.lex (first.text ++ after.remaining) = first :: front ++ closer :: tokens := by
      rw [again, whole]
      simp
    refine ⟨.some ⟨?_, ?_, ?_⟩, rest⟩
    · exact Token.sealed_run lexed (closed ▸ closes) (closed ▸ alone)
    · rw [List.cons_append, Token.spell_cons, begins]
      exact apart_of_mark opens _
    · simp [begins, (Token.mark_ne opens).1]

theorem bracketRun_reads {opener closer : Token.Kind} {opening closing : Text}
    (opens : opener.mark? = some opening) (closes : closer.mark? = some closing)
    (alone : closer ≠ .colon) :
    Reads Encloses (Production.bracketRun opener closer) (bracketRun opener closer) := by
  intro parser
  have next := token_next parser
  unfold Production.bracketRun bracketRun
  rw [Production.bind_eq]
  generalize run : Production.token parser = run, read : token (Token.lex parser.remaining) = outcome
    at next ⊢
  cases next with
  | ended empty =>
      rw [bind_of_none read]
      exact ⟨.none, by simp [empty]⟩
  | @found after first again member significant =>
      rw [bind_of_some read]
      have body := Agrees.ite
        (fun fits : first.kind = opener => bracketBody_encloses opens closes alone
          (Token.text_of_mark (Token.genuine_of_mem_lex member) (fits ▸ opens)) again)
        (fun _ => Reads.fail after)
      exact ⟨body.result, body.rest⟩

theorem afterName_reads {name : List Token} (isName : IsName none name) (opener : Token.Kind) :
    Reads Phrase.Spells (Production.afterName (Token.spell name) opener) (afterName name opener) := by
  have plain : Phrase.Spells ⟨.plain, Token.spell name⟩ ⟨.plain, name⟩ := ⟨rfl, isName.settled⟩
  have bracketed : ∀ {opener closer : Token.Kind} {opening closing : Text} (kind : Segment.Kind),
      opener.mark? = some opening → closer.mark? = some closing → closer ≠ .colon →
      Reads Phrase.Spells
        (Production.bracketRun opener closer >>= fun content => return ⟨kind, Token.spell name ++ content⟩)
        (bracketRun opener closer >>= fun run => return ⟨kind, name ++ run⟩) := by
    intro opener closer opening closing kind opens closes alone
    refine (bracketRun_reads opens closes alone).bind fun content run encloses => .pure ⟨rfl, ?_⟩
    exact isName.settled.before encloses.apart encloses.nonempty encloses.closed.settled
  unfold Production.afterName afterName
  cases opener with
  | openParen => exact bracketed .paren rfl rfl (by decide)
  | less => exact bracketed .angle rfl rfl (by decide)
  | openBracket => exact bracketed .bracket rfl rfl (by decide)
  | _ => exact .pure plain

theorem namedSegment_reads : Reads Phrase.Spells Production.namedSegment namedSegment := by
  refine qualifiedName_reads.bind fun text name named => ?_
  obtain ⟨isName, rfl⟩ := named
  refine peek_reads.bind fun opener seen same => ?_
  subst same
  cases opener with
  | none => exact .pure ⟨rfl, isName.settled⟩
  | some opener => exact afterName_reads isName opener

theorem attributeSegment_reads :
    Reads Phrase.Spells Production.attributeSegment attributeSegment :=
  (bracketRun_reads rfl rfl (by decide)).bind fun _ _ encloses => .pure ⟨rfl, encloses.closed.settled⟩

theorem symbolSegment_reads : Reads Phrase.Spells Production.symbolSegment symbolSegment := by
  refine (eatIf_reads _).bind fun symbol seen accepted => ?_
  obtain ⟨rfl, isSymbol, genuine⟩ := accepted
  obtain ⟨mark, marked, alone⟩ :
      ∃ mark, symbol.kind.mark? = some mark ∧ symbol.kind ≠ .colon := by
    cases kind : symbol.kind <;> simp_all [Production.isSymbol, Token.Kind.mark?]
  have spelled := Token.text_of_mark genuine marked
  have whole : symbol = ⟨symbol.kind, mark⟩ := by rw [← spelled]
  refine .pure ⟨rfl, ?_⟩
  rw [whole]
  exact (Token.sealed_mark marked alone).settled

theorem segment_reads : Reads Phrase.Spells Production.segment segment := by
  refine (namedSegment_reads.attempt Production.namedSegment_keeps).maybe.bind fun named seen same => ?_
  cases same with
  | some related => exact .pure related
  | none =>
      refine (attributeSegment_reads.attempt Production.attributeSegment_keeps).maybe.bind
        fun bracketed seen same => ?_
      cases same with
      | some related => exact .pure related
      | none => exact symbolSegment_reads.attempt Production.symbolSegment_keeps

theorem nameBody_steady (last : Option Token.Kind) : Steady (nameBody last) := by
  constructor
  · intro tokens
    induction tokens generalizing last with
    | nil => exact List.suffix_refl _
    | cons first tokens ih =>
        unfold nameBody
        split
        · exact (ih last).trans (List.suffix_cons _ _)
        split
        · exact (ih (some first.kind)).trans (List.suffix_cons _ _)
        · exact List.suffix_refl _
  · intro tokens more ended
    induction tokens generalizing last with
    | nil => simp [nameBody] at ended
    | cons first tokens ih =>
        rw [List.cons_append]
        unfold nameBody at ended ⊢
        by_cases trivia : first.kind.isTrivia = true
        · simp only [trivia, if_true] at ended ⊢
          exact ih last ended
        by_cases continues : Production.continuesName last first.kind = true
        · simp only [trivia, continues, if_true, if_false, Bool.false_eq_true, Outcome.map] at ended ⊢
          rw [ih (some first.kind) ended]
        · simp only [trivia, continues, if_false, Bool.false_eq_true]
          rfl

/-- A name that is not empty has taken a token. -/
theorem nameBody_shorter {last : Option Token.Kind} {tokens : List Token} {first : Token}
    {name : List Token} (read : (nameBody last tokens).result = some (first :: name)) :
    (nameBody last tokens).rest.length < tokens.length := by
  induction tokens with
  | nil => simp [nameBody] at read
  | cons next tokens ih =>
      unfold nameBody at read ⊢
      by_cases trivia : next.kind.isTrivia = true
      · simp only [trivia, if_true, List.length_cons] at read ⊢
        exact Nat.lt_succ_of_lt (ih read)
      by_cases continues : Production.continuesName last next.kind = true
      · simp only [trivia, continues, if_true, if_false, Bool.false_eq_true, Outcome.map,
          List.length_cons]
        exact Nat.lt_succ_of_le ((nameBody_steady _).length_le tokens)
      · simp [trivia, continues] at read

theorem qualifiedName_steady : Steady qualifiedName :=
  (nameBody_steady none).bind fun _ => .ite .fail (.pure _)

theorem qualifiedName_shortens : Shortens qualifiedName := by
  intro tokens name found
  have shorter := @nameBody_shorter none tokens
  unfold qualifiedName at found ⊢
  rcases read : nameBody none tokens with ⟨_ | body, rest, reachedEnd⟩ <;> rw [read] at shorter
  · simp [bind_of_none read] at found
  · rw [bind_of_some read] at found ⊢
    cases body with
    | nil => simp [fail] at found
    | cons first body => exact shorter rfl

theorem bracketBody_steady (opener closer : Token.Kind) (depth : Nat) :
    Steady (bracketBody opener closer depth) := by
  constructor
  · intro tokens
    induction tokens generalizing depth with
    | nil => exact List.suffix_refl _
    | cons first tokens ih =>
        unfold bracketBody
        split
        · exact List.suffix_cons _ _
        · exact (ih _).trans (List.suffix_cons _ _)
  · intro tokens more ended
    induction tokens generalizing depth with
    | nil => simp [bracketBody] at ended
    | cons first tokens ih =>
        rw [List.cons_append]
        unfold bracketBody at ended ⊢
        cases step : depthAfter? opener closer depth first.kind with
        | none => rfl
        | some inner =>
            simp only [step, Outcome.map] at ended ⊢
            rw [ih inner ended]

theorem bracketRun_steady (opener closer : Token.Kind) : Steady (bracketRun opener closer) :=
  token_steady.bind fun _ => .ite ((bracketBody_steady opener closer 0).bind fun _ => .pure _) .fail

theorem bracketRun_shortens (opener closer : Token.Kind) : Shortens (bracketRun opener closer) :=
  token_shortens.bind fun _ => .ite ((bracketBody_steady opener closer 0).bind fun _ => .pure _) .fail

theorem afterName_steady (name : List Token) (opener : Token.Kind) :
    Steady (afterName name opener) := by
  unfold afterName
  split
  · exact (bracketRun_steady _ _).bind fun _ => .pure _
  · exact .pure _

private theorem namedSegment_rest_steady (name : List Token) :
    Steady (peek >>= fun opener =>
      match opener with
      | none => return ⟨.plain, name⟩
      | some opener => afterName name opener) := by
  refine peek_steady.bind fun opener => ?_
  cases opener with
  | none => exact .pure _
  | some opener => exact afterName_steady name opener

theorem namedSegment_steady : Steady namedSegment :=
  qualifiedName_steady.bind namedSegment_rest_steady

theorem namedSegment_shortens : Shortens namedSegment :=
  qualifiedName_shortens.bind namedSegment_rest_steady

theorem attributeSegment_steady : Steady attributeSegment :=
  (bracketRun_steady _ _).bind fun _ => .pure _

theorem attributeSegment_shortens : Shortens attributeSegment :=
  (bracketRun_shortens _ _).bind fun _ => .pure _

theorem symbolSegment_steady : Steady symbolSegment :=
  (eatIf_steady _).bind fun _ => .pure _

theorem symbolSegment_shortens : Shortens symbolSegment :=
  (eatIf_shortens _).bind fun _ => .pure _

theorem segment_steady : Steady segment :=
  namedSegment_steady.attempt.orElse
    (attributeSegment_steady.attempt.orElse symbolSegment_steady.attempt)

theorem segment_shortens : Shortens segment :=
  namedSegment_shortens.attempt.orElse namedSegment_steady.attempt
    (attributeSegment_shortens.attempt.orElse attributeSegment_steady.attempt
      symbolSegment_shortens.attempt)

end Reading

end OutOfLine
