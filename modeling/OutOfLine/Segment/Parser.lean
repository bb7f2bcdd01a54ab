import OutOfLine.ClassName.Parser
import OutOfLine.Segment

namespace OutOfLine.Production

open OutOfLine.Parser

/-- The kind of the segment that a name makes with a bracket run after it. -/
def bracketKind? : Token.Kind → Option Segment.Kind
  | .openParen => some .paren
  | .less => some .angle
  | .openBracket => some .bracket
  | _ => none

/-- The rest of a segment that starts with a name, before a token of the kind `opener`. -/
def afterName (name : Text) (opener : Token.Kind) : Production Segment :=
  match bracketKind? opener, opener.closing? with
  | some kind, some closer => do
      let content ← bracketRun opener closer
      return ⟨kind, name ++ content⟩
  | _, _ => return ⟨.plain, name⟩

/-- `EXPORT`, `f(int a)`, `std::vector<int>`, `values[8]`. -/
def namedSegment : Production Segment := do
  let name ← qualifiedName
  match ← peek with
  | none => return ⟨.plain, name⟩
  | some opener => afterName name opener

/-- `[[nodiscard]]` -/
def attributeSegment : Production Segment := do
  let content ← bracketRun .openBracket .closeBracket
  return ⟨.attribute, content⟩

def isSymbol (token : Token) : Bool :=
  token.kind = .ampersand || token.kind = .star || token.kind = .comma || token.kind = .equal

def symbolSegment : Production Segment := do
  let symbol ← eatIf isSymbol
  return ⟨.symbol, symbol.text⟩

def segment : Production Segment := do
  if let some named ← maybe (attempt namedSegment) then
    return named
  if let some bracketed ← maybe (attempt attributeSegment) then
    return bracketed
  attempt symbolSegment

theorem afterName_keeps (name : Text) (opener : Token.Kind) : Keeps (afterName name opener) := by
  unfold afterName
  split
  · exact (bracketRun_keeps _ _).bind fun _ => pure_keeps _
  · exact pure_keeps _

private theorem namedSegment_rest_keeps (name : Text) :
    Keeps (peek >>= fun opener =>
      match opener with
      | none => return ⟨.plain, name⟩
      | some opener => afterName name opener) := by
  refine peek_keeps.bind fun opener => ?_
  cases opener with
  | none => exact pure_keeps _
  | some opener => exact afterName_keeps name opener

theorem namedSegment_keeps : Keeps namedSegment :=
  qualifiedName_keeps.bind namedSegment_rest_keeps

theorem namedSegment_progresses : Progresses namedSegment :=
  qualifiedName_progresses.bind namedSegment_rest_keeps

theorem attributeSegment_keeps : Keeps attributeSegment :=
  (bracketRun_keeps _ _).bind fun _ => pure_keeps _

theorem attributeSegment_progresses : Progresses attributeSegment :=
  (bracketRun_progresses _ _).bind fun _ => pure_keeps _

theorem symbolSegment_keeps : Keeps symbolSegment :=
  (eatIf_keeps _).bind fun _ => pure_keeps _

theorem symbolSegment_progresses : Progresses symbolSegment :=
  (eatIf_progresses _).bind fun _ => pure_keeps _

theorem segment_keeps : Keeps segment := by
  refine namedSegment_keeps.attempt.maybe.bind fun named => ?_
  cases named with
  | some _ => exact pure_keeps _
  | none =>
      refine attributeSegment_keeps.attempt.maybe.bind fun bracketed => ?_
      cases bracketed with
      | some _ => exact pure_keeps _
      | none => exact symbolSegment_keeps.attempt

/-- The three ways a segment is found, each after the ones before it have failed. -/
theorem segment_eq (parser : Parser) :
    segment parser =
      match attempt namedSegment parser with
      | (some named, after) => (some named, after)
      | (none, second) =>
          match attempt attributeSegment second with
          | (some bracketed, after) => (some bracketed, after)
          | (none, third) => attempt symbolSegment third := by
  rcases first : attempt namedSegment parser with ⟨_ | named, second⟩
  · rcases next : attempt attributeSegment second with ⟨_ | bracketed, third⟩ <;>
      simp [segment, bind_eq, maybe, first, next, pure]
  · simp [segment, bind_eq, maybe, first, pure]

theorem segment_progresses : Progresses segment := by
  intro parser after result parsed
  rw [segment_eq] at parsed
  have kept := namedSegment_keeps.attempt parser
  rcases first : attempt namedSegment parser with ⟨_ | named, second⟩ <;>
    rw [first] at kept <;> simp only [first] at parsed
  · have keptAgain := attributeSegment_keeps.attempt second
    rcases next : attempt attributeSegment second with ⟨_ | bracketed, third⟩ <;>
      rw [next] at keptAgain <;> simp only [next] at parsed
    · exact (kept.trans keptAgain).trans_advances
        (symbolSegment_progresses.attempt symbolSegment_keeps _ _ _ parsed)
    · simp only [Prod.mk.injEq] at parsed
      obtain ⟨_, rfl⟩ := parsed
      exact kept.trans_advances (attributeSegment_progresses.attempt attributeSegment_keeps _ _ _ next)
  · simp only [Prod.mk.injEq] at parsed
    obtain ⟨_, rfl⟩ := parsed
    exact namedSegment_progresses.attempt namedSegment_keeps _ _ _ first

/-- A segment that is not recognised leaves the text as it was. -/
theorem segment_none_tokenizer {parser after : Parser}
    (failed : segment parser = (none, after)) : after.tokenizer = parser.tokenizer := by
  rw [segment_eq] at failed
  rcases first : attempt namedSegment parser with ⟨_ | named, second⟩ <;>
    simp only [first] at failed
  · have same := attempt_none_tokenizer (namedSegment_keeps parser.save).checkpoints first
    rcases next : attempt attributeSegment second with ⟨_ | bracketed, third⟩ <;>
      simp only [next] at failed
    · rw [attempt_none_tokenizer (symbolSegment_keeps third.save).checkpoints failed,
        attempt_none_tokenizer (attributeSegment_keeps second.save).checkpoints next, same]
    · simp at failed
  · simp at failed

end OutOfLine.Production
