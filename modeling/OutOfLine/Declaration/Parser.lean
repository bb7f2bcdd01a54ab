import OutOfLine.Declaration
import OutOfLine.Segment.Parser

/-!
Productions for declarations: segments up to a semicolon. The declarator is the last name with a
parenthesis whose text can be read again as a name with parameters.
-/

namespace OutOfLine.Production

open OutOfLine.Parser

def opensNesting : Token.Kind → Bool
  | .openParen | .openBracket | .openBrace | .less => true
  | _ => false

def closesNesting : Token.Kind → Bool
  | .closeParen | .closeBracket | .closeBrace | .greater => true
  | _ => false

def endsParameter (kind : Token.Kind) : Bool :=
  kind = .closeParen || kind = .comma

/-- Reads up to the `,` or `)` that ends a parameter. All brackets count alike; `depth` of them
are open. -/
def skipDefault (depth : Nat) (parser : Parser) : Option Unit × Parser :=
  match _first : parser.nextSignificant with
  | (none, after) => (none, after)
  | (some token, after) =>
      if opensNesting token.kind then skipDefault (depth + 1) after
      else
        match depth with
        | 0 =>
            if endsParameter token.kind then (some (), after.pushBack token.text)
            else skipDefault 0 after
        | depth + 1 =>
            skipDefault (if closesNesting token.kind then depth else depth + 1) after
termination_by parser.remaining.length
decreasing_by all_goals exact (nextSignificant_some_advances _first).shorter

theorem skipDefault_follows (depth : Nat) (parser : Parser) :
    Follows parser (skipDefault depth parser).2 := by
  fun_induction skipDefault depth parser with
  | case1 depth parser after first => exact (nextSignificant_none first).1
  | case2 depth parser token after first _ ih =>
      exact (nextSignificant_some_advances first).toFollows.trans ih
  | case3 parser token after first => exact (nextSignificant_some first).1
  | case4 parser token after first _ _ ih =>
      exact (nextSignificant_some_advances first).toFollows.trans ih
  | case5 parser token after first _ depth ih =>
      exact (nextSignificant_some_advances first).toFollows.trans ih

/-- The words of a parameter as its text. A parameter has at least one. -/
def parameterOf (words : List Text) : Production Text :=
  if words.isEmpty then fail else return Text.join [' '] words

/-- Reads on in a parameter of which `read` holds the words, the last one first. -/
def parameterBody (read : List Text) (parser : Parser) : Option Text × Parser :=
  match _peeked : peek parser with
  | (some (some kind), here) =>
      if endsParameter kind then parameterOf read.reverse here
      else
        match _word : segment here with
        | (none, after) => (none, after)
        | (some word, after) =>
            if word.isAssignment && !read.isEmpty then
              match skipDefault 0 after with
              | (none, after) => (none, after)
              | (some _, after) => parameterOf read.reverse after
            else parameterBody (word.text :: read) after
  | (_, after) => (none, after)
termination_by parser.remaining.length
decreasing_by
  have here := peek_keeps parser
  rw [_peeked] at here
  exact (here.trans_advances (segment_progresses _ _ _ _word)).shorter

/-- One parameter up to its `,` or `)`. What follows an `=` after the first word is dropped. -/
def parameter : Production Text :=
  parameterBody []

theorem parameterOf_keeps (words : List Text) : Keeps (parameterOf words) :=
  ite_keeps fail_keeps (pure_keeps _)

theorem parameterBody_follows (read : List Text) (parser : Parser) :
    Follows parser (parameterBody read parser).2 := by
  fun_induction parameterBody read parser with
  | case1 read parser kind here peeked ends =>
      have start := peek_keeps parser
      rw [peeked] at start
      exact start.trans (parameterOf_keeps _ here)
  | case2 read parser kind here peeked ends after word =>
      have start := peek_keeps parser
      rw [peeked] at start
      have next := segment_keeps here
      rw [word] at next
      exact start.trans next
  | case3 read parser kind here peeked ends found after word assigns rest skipped =>
      have start := peek_keeps parser
      rw [peeked] at start
      have tail := skipDefault_follows 0 after
      rw [skipped] at tail
      exact (start.trans_advances (segment_progresses _ _ _ word)).toFollows.trans tail
  | case4 read parser kind here peeked ends found after word assigns _ rest skipped =>
      have start := peek_keeps parser
      rw [peeked] at start
      have tail := skipDefault_follows 0 after
      rw [skipped] at tail
      exact ((start.trans_advances (segment_progresses _ _ _ word)).toFollows.trans tail).trans
        (parameterOf_keeps _ rest)
  | case5 read parser kind here peeked ends found after word plain ih =>
      have start := peek_keeps parser
      rw [peeked] at start
      exact (start.trans_advances (segment_progresses _ _ _ word)).toFollows.trans ih
  | case6 read parser result after ended peeked =>
      have start := peek_keeps parser
      rw [peeked] at start
      exact start

theorem parameter_keeps : Keeps parameter :=
  parameterBody_follows []

/-- `name(int a, int b = 1)` as its parameters. -/
def declaratorParameters : Production (List Text) := do
  let _ ← qualifiedName
  let _ ← eat .openParen
  if (← maybe (eat .closeParen)).isSome then
    return []
  let parameters ← commaList parameter
  let _ ← eat .closeParen
  return parameters

theorem declaratorParameters_keeps : Keeps declaratorParameters :=
  qualifiedName_keeps.bind fun _ => (eat_keeps _).bind fun _ =>
    (eat_keeps _).maybe.bind fun _ => ite_keeps (pure_keeps _) <|
      (commaList_keeps parameter_keeps).bind fun _ => (eat_keeps _).bind fun _ => pure_keeps _

def readableDeclarator : List (Segment × Nat) → Production (Option (Nat × List Text))
  | [] => return none
  | (candidate, index) :: others => do
      match ← isolated declaratorParameters candidate.text with
      | some parameters => do
          note .declaratorWithParameters
          return some (index, parameters)
      | none => readableDeclarator others

def declaratorCandidates (segments : List Segment) : List (Segment × Nat) :=
  (segments.zipIdx.filter (·.1.kind = .paren)).reverse

/-- The declarator among segments: the last readable candidate, else the last one. -/
def chooseDeclarator (segments : List Segment) :
    Production (Option Nat × Option (List Text)) := do
  let candidates := declaratorCandidates segments
  if let some (index, parameters) ← readableDeclarator candidates then
    return (some index, some parameters)
  match candidates with
  | (_, index) :: _ => do
      note .declaratorWithoutParameters
      return (some index, none)
  | [] => return (none, none)

/-- Reads segments through the semicolon after them. `read` holds those before, the last one
first. -/
def segmentsThroughSemicolon (read : List Segment) (parser : Parser) :
    Option (List Segment) × Parser :=
  match _found : segment parser with
  | (none, after) => (none, after)
  | (some found, after) =>
      match _ended : eat .semicolon after with
      | (some _, after) => (some (found :: read).reverse, after)
      | (none, after) => segmentsThroughSemicolon (found :: read) after
termination_by parser.remaining.length
decreasing_by
  have here := eat_keeps .semicolon (segment parser).2
  rw [_found] at here
  simp only [_ended] at here
  exact ((segment_progresses _ _ _ _found).trans_follows here).shorter

def declarationBody : Production Declaration := do
  let segments ← segmentsThroughSemicolon []
  let (declaratorIndex, parameters) ← chooseDeclarator segments
  noteWhen declaratorIndex.isNone .noDeclaratorSegment
  return { declaratorIndex, segments, parameters }

def declaration : Production Declaration :=
  attempt declarationBody

theorem segmentsThroughSemicolon_follows (read : List Segment) (parser : Parser) :
    Follows parser (segmentsThroughSemicolon read parser).2 := by
  fun_induction segmentsThroughSemicolon read parser with
  | case1 read parser after found =>
      have kept := segment_keeps parser
      rw [found] at kept
      exact kept
  | case2 read parser word after found semicolon rest ended =>
      exact ((segment_progresses _ _ _ found).trans (eat_progresses _ _ _ _ ended)).toFollows
  | case3 read parser word after found rest ended ih =>
      have kept := eat_keeps .semicolon after
      rw [ended] at kept
      exact ((segment_progresses _ _ _ found).toFollows.trans kept).trans ih

theorem segmentsThroughSemicolon_progresses (read : List Segment) :
    Progresses (segmentsThroughSemicolon read) := by
  intro parser after result parsed
  rw [segmentsThroughSemicolon] at parsed
  split at parsed
  · simp at parsed
  · rename_i word between found
    have kept := eat_keeps .semicolon between
    split at parsed
    · rename_i semicolon rest ended
      simp only [Prod.mk.injEq] at parsed
      obtain ⟨_, rfl⟩ := parsed
      exact (segment_progresses _ _ _ found).trans (eat_progresses _ _ _ _ ended)
    · rename_i rest ended
      rw [ended] at kept
      have tail := segmentsThroughSemicolon_follows (word :: read) rest
      rw [parsed] at tail
      exact ((segment_progresses _ _ _ found).trans_follows kept).trans_follows tail

theorem readableDeclarator_keeps (candidates : List (Segment × Nat)) :
    Keeps (readableDeclarator candidates) := by
  induction candidates with
  | nil => exact pure_keeps _
  | cons candidate others ih =>
      refine (isolated_keeps declaratorParameters_keeps _).bind fun parameters => ?_
      cases parameters with
      | none => exact ih
      | some _ => exact (note_keeps rfl).bind fun _ => pure_keeps _

theorem chooseDeclarator_keeps (segments : List Segment) : Keeps (chooseDeclarator segments) := by
  refine (readableDeclarator_keeps _).bind fun readable => ?_
  cases readable with
  | some pair => exact pure_keeps _
  | none =>
      cases declaratorCandidates segments with
      | nil => exact pure_keeps _
      | cons candidate others => exact (note_keeps rfl).bind fun _ => pure_keeps _

private theorem declarationBody_rest_keeps (segments : List Segment) :
    Keeps (chooseDeclarator segments >>= fun (declaratorIndex, parameters) => do
      noteWhen declaratorIndex.isNone .noDeclaratorSegment
      return ({ declaratorIndex, segments, parameters } : Declaration)) :=
  (chooseDeclarator_keeps segments).bind fun _ => (noteWhen_keeps _ rfl).bind fun _ => pure_keeps _

theorem declarationBody_keeps : Keeps declarationBody :=
  Keeps.bind (segmentsThroughSemicolon_follows []) declarationBody_rest_keeps

theorem declarationBody_progresses : Progresses declarationBody :=
  (segmentsThroughSemicolon_progresses []).bind declarationBody_rest_keeps

theorem declaration_keeps : Keeps declaration :=
  declarationBody_keeps.attempt

theorem declaration_progresses : Progresses declaration :=
  declarationBody_progresses.attempt declarationBody_keeps

/-- Reads declarations as long as there are any. `read` holds those before, the last one first. -/
def declarationsOnto (read : List Declaration) (parser : Parser) : List Declaration × Parser :=
  match _found : declaration parser with
  | (none, after) => (read.reverse, after)
  | (some found, after) => declarationsOnto (found :: read) after
termination_by parser.remaining.length
decreasing_by exact (declaration_progresses _ _ _ _found).shorter

def declarations : Production (List Declaration) :=
  fun parser =>
    match declarationsOnto [] parser with
    | ([], after) => (none, after)
    | (found, after) => (some found, after)

theorem declarationsOnto_follows (read : List Declaration) (parser : Parser) :
    Follows parser (declarationsOnto read parser).2 := by
  fun_induction declarationsOnto read parser with
  | case1 read parser after failed =>
      have kept := declaration_keeps parser
      rwa [failed] at kept
  | case2 read parser first after found ih =>
      exact (declaration_progresses _ _ _ found).toFollows.trans ih

theorem declarations_snd (parser : Parser) :
    (declarations parser).2 = (declarationsOnto [] parser).2 := by
  unfold declarations
  split <;> rename_i read <;> rw [read]

theorem declarations_keeps : Keeps declarations := by
  intro parser
  rw [declarations_snd]
  exact declarationsOnto_follows [] parser

end OutOfLine.Production
