import OutOfLine.Proofs.Reading.Declaration
import OutOfLine.Proofs.Scan

/-!
The loops of a parser as rounds that are repeated, with nothing said about how many. A loop comes to
its end after finitely many rounds wherever every round that goes on has read something. Class names,
which nest, recur on what is left after a name and a bracket.
-/

namespace OutOfLine.Production

open OutOfLine.Parser

variable {σ α β : Type}

/-- A number of rounds, of which the last one fails or gives the result. -/
inductive Repeats (body : σ → Production (σ ⊕ α)) :
    Nat → σ → Parser → Option α × Parser → Prop where
  | failed {state : σ} {parser after : Parser} (read : body state parser = (none, after)) :
      Repeats body 1 state parser (none, after)
  | done {state : σ} {parser after : Parser} {result : α}
      (read : body state parser = (some (.inr result), after)) :
      Repeats body 1 state parser (some result, after)
  | more {rounds : Nat} {state next : σ} {parser between : Parser} {outcome : Option α × Parser}
      (read : body state parser = (some (.inl next), between))
      (later : Repeats body rounds next between outcome) :
      Repeats body (rounds + 1) state parser outcome

/-- From every state the rounds come to an end with what `run` gives, and there is at most one more of
them than characters remain. -/
def Ends (body : σ → Production (σ ⊕ α)) (run : σ → Production α) : Prop :=
  ∀ state parser, ∃ rounds, rounds ≤ parser.remaining.length + 1 ∧
    Repeats body rounds state parser (run state parser)

/-- Where it goes on, it has read something. -/
def GoesOn (parse : Production (σ ⊕ α)) : Prop :=
  ∀ parser next after, parse parser = (some (.inl next), after) → Advances parser after

/-- What a round leads to. -/
def afterRound (run : σ → Production α) : Option (σ ⊕ α) × Parser → Option α × Parser
  | (none, after) => (none, after)
  | (some (.inl next), after) => run next after
  | (some (.inr result), after) => (some result, after)

theorem bind_elim_eq (parse : Production (σ ⊕ α)) (run : σ → Production α) (parser : Parser) :
    (parse >>= Sum.elim run Pure.pure) parser = afterRound run (parse parser) := by
  rw [bind_eq]
  rcases parse parser with ⟨_ | next | result, after⟩
  · rfl
  · rfl
  · rfl

theorem ends_of_goesOn {body : σ → Production (σ ⊕ α)} {run : σ → Production α}
    (unfolds : ∀ state parser, run state parser = afterRound run (body state parser))
    (goesOn : ∀ state, GoesOn (body state)) : Ends body run := by
  intro state parser
  induction size : parser.remaining.length using Nat.strongRecOn generalizing state parser with
  | ind size ih =>
      rw [unfolds]
      rcases read : body state parser with ⟨_ | next | result, after⟩
      · exact ⟨1, by omega, .failed read⟩
      · have shorter := (goesOn state parser next after read).shorter
        obtain ⟨rounds, few, later⟩ := ih _ (size ▸ shorter) next after rfl
        exact ⟨rounds + 1, by omega, .more read later⟩
      · exact ⟨1, by omega, .done read⟩

section GoesOn

theorem Progresses.goesOn {parse : Production (σ ⊕ α)} (progresses : Progresses parse) : GoesOn parse :=
  fun _ _ _ read => progresses _ _ _ read

theorem goesOn_fail : GoesOn (fail : Production (σ ⊕ α)) :=
  fail_progresses.goesOn

theorem goesOn_noteFail (event : Event) :
    GoesOn (note event >>= fun _ => (fail : Production (σ ⊕ α))) := by
  intro parser next after read
  simp [bind_eq, note, fail] at read

theorem goesOn_pure (result : α) : GoesOn (Pure.pure (.inr result) : Production (σ ⊕ α)) := by
  intro parser next after read
  simp [Pure.pure] at read

theorem goesOn_inr (parse : Production α) :
    GoesOn (parse >>= fun result => (Pure.pure (.inr result) : Production (σ ⊕ α))) := by
  intro parser next after read
  obtain ⟨result, between, _, done⟩ := bind_some read
  simp [Pure.pure] at done

theorem goesOn_ite {condition : Prop} [Decidable condition] {left right : Production (σ ⊕ α)}
    (whenTrue : GoesOn left) (whenFalse : GoesOn right) :
    GoesOn (if condition then left else right) := by
  by_cases holds : condition
  · rwa [if_pos holds]
  · rwa [if_neg holds]

theorem Keeps.bind_goesOn {parse : Production β} {onward : β → Production (σ ⊕ α)}
    (keeps : Keeps parse) (goesOn : ∀ result, GoesOn (onward result)) : GoesOn (parse >>= onward) := by
  intro parser next after read
  obtain ⟨result, between, first, rest⟩ := bind_some read
  have kept := keeps parser
  rw [first] at kept
  exact kept.trans_advances (goesOn result between next after rest)

/-- What is tried has read something where it is found. -/
theorem Progresses.maybe_goesOn {parse : Production β} {onward : Option β → Production (σ ⊕ α)}
    (progresses : Progresses parse) (keeps : Keeps parse) (missed : GoesOn (onward none))
    (found : ∀ result, Keeps (onward (some result))) : GoesOn (maybe parse >>= onward) := by
  intro parser next after read
  obtain ⟨result, between, tried, rest⟩ := bind_some read
  simp only [maybe, Prod.mk.injEq, Option.some.injEq] at tried
  obtain ⟨first, rfl⟩ := tried
  cases result with
  | none => exact (keeps parser).trans_advances (missed _ next after rest)
  | some result =>
      have kept := found result (parse parser).2
      rw [rest] at kept
      exact (progresses parser _ result (Prod.ext first rfl)).trans_follows kept

end GoesOn

/-- The next token, white space and comments too. -/
def anyToken : Production Token :=
  Parser.next

theorem anyToken_progresses : Progresses anyToken :=
  fun _ _ _ read => next_some_advances read

/-- One round of looking for a significant token. -/
def triviaStep (_ : Unit) : Production (Unit ⊕ Token) := do
  let found ← anyToken
  if found.kind.isTrivia then
    return .inl ()
  return .inr found

theorem trivia_ends : Ends triviaStep fun _ => token := by
  refine ends_of_goesOn (fun _ parser => ?_) fun _ => ?_
  · rw [token, nextSignificant, triviaStep, bind_eq, anyToken]
    split
    · rename_i read
      simp only [read, afterRound]
    · rename_i found after read
      simp only [read]
      split
      · rfl
      · rfl
  · exact (anyToken_progresses.bind fun _ => ite_keeps (pure_keeps _) (pure_keeps _)).goesOn

/-- One round of a qualified name. -/
def nameStep (state : Option Token.Kind × List Text) :
    Production ((Option Token.Kind × List Text) ⊕ Text) := do
  match ← maybe (eatIf (continuesName state.1 ·.kind)) with
  | none => return .inr state.2.reverse.flatten
  | some found => return .inl (some found.kind, found.text :: state.2)

def nameFrom (state : Option Token.Kind × List Text) : Production Text :=
  fun parser => (some (nameBody state.1 state.2 parser).1, (nameBody state.1 state.2 parser).2)

theorem name_ends : Ends nameStep nameFrom := by
  refine ends_of_goesOn (fun state parser => ?_) fun state => ?_
  · rw [nameFrom, nameBody_eq, nameStep, bind_eq, maybe, eatIf]
    rcases parser.nextSignificant with ⟨_ | found, after⟩
    · rfl
    · by_cases fits : continuesName state.1 found.kind = true
      · simp only [fits, if_true]
        rfl
      · simp only [fits, if_false, Bool.false_eq_true]
        rfl
  · exact (eatIf_progresses _).maybe_goesOn (eatIf_keeps _) (goesOn_pure _) fun _ => pure_keeps _

/-- One round of a bracket run. -/
def bracketStep (opener closer : Token.Kind) (state : Nat × List Text) :
    Production ((Nat × List Text) ⊕ Text) := do
  let found ← anyToken
  match Reading.depthAfter? opener closer state.1 found.kind with
  | none => return .inr (found.text :: state.2).reverse.flatten
  | some depth => return .inl (depth, found.text :: state.2)

def bracketFrom (opener closer : Token.Kind) (state : Nat × List Text) : Production Text :=
  bracketBody opener closer state.1 state.2

theorem bracketStep_goesOn (opener closer : Token.Kind) (state : Nat × List Text) :
    GoesOn (bracketStep opener closer state) := by
  refine (anyToken_progresses.bind fun found => ?_).goesOn
  split
  · exact pure_keeps _
  · exact pure_keeps _

theorem bracket_ends (opener closer : Token.Kind) :
    Ends (bracketStep opener closer) (bracketFrom opener closer) := by
  refine ends_of_goesOn (fun state parser => ?_) (bracketStep_goesOn opener closer)
  obtain ⟨depth, read⟩ := state
  rw [bracketFrom, bracketBody, bracketStep, bind_eq, anyToken]
  split
  · rename_i first
    simp only [first, afterRound]
  · rename_i found after first
    simp only [first, Reading.depthAfter?]
    by_cases opens : found.kind = opener
    · simp only [if_pos opens]
      rfl
    by_cases closes : found.kind = closer
    · simp only [if_neg opens, if_pos closes]
      cases depth with
      | zero => rfl
      | succ depth => rfl
    · simp only [if_neg opens, if_neg closes]
      rfl

/-- One round of a default value. -/
def defaultStep (depth : Nat) : Production (Nat ⊕ Unit) :=
  fun parser =>
    match parser.nextSignificant with
    | (none, after) => (none, after)
    | (some found, after) =>
        match Reading.nestingAfter? depth found.kind with
        | none => (some (.inr ()), after.pushBack found.text)
        | some deeper => (some (.inl deeper), after)

theorem default_ends : Ends defaultStep skipDefault := by
  refine ends_of_goesOn (fun depth parser => ?_) fun depth parser next after round => ?_
  · rw [skipDefault, defaultStep]
    split
    · rename_i after first
      simp only [first, afterRound]
    · rename_i found after first
      simp only [first, Reading.nestingAfter?]
      by_cases opens : opensNesting found.kind = true
      · simp only [if_pos opens]
        rfl
      · simp only [if_neg opens]
        cases depth with
        | zero =>
            by_cases ends : endsParameter found.kind = true
            · simp only [if_pos ends]
              rfl
            · simp only [if_neg ends]
              rfl
        | succ depth => rfl
  · unfold defaultStep at round
    split at round
    · simp at round
    · rename_i found rest first
      split at round <;> simp only [Prod.mk.injEq, Option.some.injEq, reduceCtorEq, false_and] at round
      obtain ⟨_, rfl⟩ := round
      exact nextSignificant_some_advances first

theorem parameterStep_goesOn (read : List Text) : GoesOn (parameterStep read) := by
  refine peek_keeps.bind_goesOn fun kind => ?_
  cases kind with
  | none => exact goesOn_fail
  | some kind =>
      refine goesOn_ite (goesOn_inr _) (Progresses.goesOn ?_)
      refine segment_progresses.bind fun word => ite_keeps ?_ (pure_keeps _)
      exact Keeps.bind (skipDefault_follows 0) fun _ => (parameterOf_keeps _).bind fun _ => pure_keeps _

theorem parameter_ends : Ends parameterStep parameterBody :=
  ends_of_goesOn (fun read parser => (parameterBody_eq read parser).trans (bind_elim_eq ..))
    parameterStep_goesOn

theorem segmentsStep_goesOn (read : List Segment) : GoesOn (segmentsStep read) := by
  refine Progresses.goesOn (segment_progresses.bind fun found => (eat_keeps _).maybe.bind fun mark => ?_)
  cases mark with
  | none => exact pure_keeps _
  | some _ => exact pure_keeps _

theorem segments_end : Ends segmentsStep segmentsThroughSemicolon :=
  ends_of_goesOn (fun read parser => (segmentsThroughSemicolon_eq read parser).trans (bind_elim_eq ..))
    segmentsStep_goesOn

theorem declarations_end : Ends declarationsStep declarationsFrom :=
  ends_of_goesOn (fun read parser => (declarationsFrom_eq read parser).trans (bind_elim_eq ..))
    fun _ => declaration_progresses.maybe_goesOn declaration_keeps (goesOn_pure _) fun _ => pure_keeps _

/-- One round of a list with commas, where there is room for so many items more. -/
def commaStep (item : Production α) : Nat × List α → Production ((Nat × List α) ⊕ List α)
  | (0, _) => do
      note .commaListTooLong
      fail
  | (room + 1, read) => do
      let first ← item
      match ← maybe (eat .comma) with
      | none => return .inr (read.reverse ++ [first])
      | some _ => return .inl (room, first :: read)

def commaFrom (item : Production α) (state : Nat × List α) : Production (List α) := do
  return state.2.reverse ++ (← commaListWithin item state.1)

theorem bind_onto (parse : Production (List α)) (first : α) (read : List α) (parser : Parser) :
    ((parse >>= fun others => Pure.pure (first :: others)) >>= fun all =>
        Pure.pure (read.reverse ++ all)) parser =
      (parse >>= fun others => Pure.pure ((first :: read).reverse ++ others)) parser := by
  rw [bind_eq, bind_eq, bind_eq]
  rcases parse parser with ⟨_ | others, after⟩
  · rfl
  · simp [Pure.pure]

theorem commaStep_goesOn {item : Production α} (keeps : Keeps item) (state : Nat × List α) :
    GoesOn (commaStep item state) := by
  obtain ⟨_ | room, read⟩ := state
  · exact goesOn_noteFail _
  · exact keeps.bind_goesOn fun first =>
      (eat_progresses .comma).maybe_goesOn (eat_keeps .comma) (goesOn_pure _) fun _ => pure_keeps _

theorem commaList_ends {item : Production α} (keeps : Keeps item) :
    Ends (commaStep item) (commaFrom item) := by
  refine ends_of_goesOn (fun state parser => ?_) (commaStep_goesOn keeps)
  obtain ⟨_ | room, read⟩ := state
  · rfl
  · simp only [commaFrom, commaStep, commaListWithin, bind_eq]
    rcases item parser with ⟨_ | first, after⟩
    · rfl
    · simp only [maybe]
      rcases eat .comma after with ⟨_ | comma, behind⟩
      · rfl
      · exact bind_onto (commaListWithin item room) first read behind

/-- One round of the segments of a class head, where there is room for so many more. -/
def headStep : Nat × List Segment → Production ((Nat × List Segment) ⊕ List Segment)
  | (0, read) => do
      if ← atHeadEnd then
        return .inr read.reverse
      note .classHeadTooLong
      fail
  | (room + 1, read) => do
      if ← atHeadEnd then
        return .inr read.reverse
      let first ← segment
      return .inl (room, first :: read)

def headFrom (state : Nat × List Segment) : Production (List Segment) := do
  return state.2.reverse ++ (← headSegments state.1)

theorem headStep_goesOn (state : Nat × List Segment) : GoesOn (headStep state) := by
  obtain ⟨_ | room, read⟩ := state
  · exact atHeadEnd_keeps.bind_goesOn fun ended => goesOn_ite (goesOn_pure _) (goesOn_noteFail _)
  · exact atHeadEnd_keeps.bind_goesOn fun ended =>
      goesOn_ite (goesOn_pure _) (segment_progresses.bind fun _ => pure_keeps _).goesOn

theorem head_ends : Ends headStep headFrom := by
  refine ends_of_goesOn (fun state parser => ?_) headStep_goesOn
  obtain ⟨_ | room, read⟩ := state
  · simp only [headFrom, headStep, headSegments, bind_eq]
    rcases atHeadEnd parser with ⟨_ | _ | _, after⟩
    · rfl
    · rfl
    · simp [afterRound, Pure.pure]
  · simp only [headFrom, headStep, headSegments, bind_eq]
    rcases atHeadEnd parser with ⟨_ | _ | _, after⟩
    · rfl
    · simp only [Bool.false_eq_true, if_false, bind_eq]
      rcases segment after with ⟨_ | first, behind⟩
      · rfl
      · exact bind_onto (headSegments room) first read behind
    · simp [afterRound, Pure.pure]

/-- One round of the scan for the enclosing class. -/
def scanStep (state : List (Option ClassHead) × Nat) :
    Production ((List (Option ClassHead) × Nat) ⊕ ClassHead) :=
  fun parser =>
    match parser.next with
    | (none, after) => ((state.1.findSome? id).map .inr, after)
    | (some token, after) =>
        if scanLimit ≤ state.2 then (none, after.note .scopeScanAborted)
        else
          match token.kind with
          | .classKeyword =>
              match classHeadFrom token after with
              | (some head, after) =>
                  (some (.inl (some head :: state.1, state.2 + 1)), after.note .classScopeOpened)
              | (none, after) => (some (.inl (state.1, state.2 + 1)), after)
          | .openBrace => (some (.inl (none :: state.1, state.2 + 1)), after)
          | .closeBrace => (some (.inl (state.1.tail, state.2 + 1)), after)
          | _ => (some (.inl (state.1, state.2 + 1)), after)

def scanFrom (state : List (Option ClassHead) × Nat) : Production ClassHead :=
  scan state.1 state.2

theorem classHeadFrom_advances {parser start : Parser} {keyword : Token}
    (read : parser.next = (some keyword, start)) : Advances parser (classHeadFrom keyword start).2 := by
  refine ⟨classHeadFrom_follows read, ?_⟩
  rcases opened : classHeadFrom keyword start with ⟨_ | head, after⟩
  · have same := classHeadFrom_none_tokenizer opened
    simp only [remaining, same]
    exact (next_some_advances read).shorter
  · exact classHeadFrom_some_shorter read opened

theorem scanStep_goesOn (state : List (Option ClassHead) × Nat) : GoesOn (scanStep state) := by
  intro parser next after round
  unfold scanStep at round
  split at round
  · cases found : state.1.findSome? id with
    | none => simp [found] at round
    | some head => simp [found] at round
  · rename_i found start read
    have head := classHeadFrom_advances read
    split at round
    · simp at round
    · split at round
      · split at round <;> rename_i tried <;> rw [tried] at head <;>
          simp only [Prod.mk.injEq] at round <;> obtain ⟨_, rfl⟩ := round
        · exact head.trans_follows (follows_note rfl _)
        · exact head
      all_goals
        simp only [Prod.mk.injEq] at round
        obtain ⟨_, rfl⟩ := round
        exact next_some_advances read

theorem scan_ends : Ends scanStep scanFrom := by
  refine ends_of_goesOn (fun state parser => ?_) scanStep_goesOn
  obtain ⟨levels, scanned⟩ := state
  rw [scanFrom, scanStep]
  rcases read : parser.next with ⟨_ | token, after⟩
  · rw [Scan.scan_ended read]
    cases levels.findSome? id with
    | none => rfl
    | some head => rfl
  · by_cases limit : scanLimit ≤ scanned
    · rw [Scan.scan_aborted read limit]
      simp only [if_pos limit]
      rfl
    · rw [Scan.scan_going read (Nat.lt_of_not_le limit)]
      simp only [if_neg limit]
      cases token.kind with
      | classKeyword =>
          rcases classHeadFrom token after with ⟨_ | head, after⟩
          · rfl
          · rfl
      | _ => rfl

section Nesting

theorem bind_congr {parse other : Production α} {onward onwardOther : α → Production β}
    {parser : Parser} (first : parse parser = other parser)
    (second : ∀ result after, parse parser = (some result, after) →
      onward result after = onwardOther result after) :
    (parse >>= onward) parser = (other >>= onwardOther) parser := by
  rw [bind_eq, bind_eq, ← first]
  rcases read : parse parser with ⟨_ | result, after⟩
  · rfl
  · exact second result after read

theorem Keeps.length_le {parse : Production α} (keeps : Keeps parse) {parser after : Parser}
    {result : Option α} (read : parse parser = (result, after)) :
    after.remaining.length ≤ parser.remaining.length := by
  have kept := keeps parser
  rw [read] at kept
  exact kept.length_le

variable {parser : Parser} {limit : Nat}

theorem commaListWithin_congr {item other : Production α} (keeps : Keeps item)
    (same : ∀ parser : Parser, parser.remaining.length < limit → item parser = other parser) (room : Nat)
    (short : parser.remaining.length < limit) :
    commaListWithin item room parser = commaListWithin other room parser := by
  induction room generalizing parser with
  | zero => rfl
  | succ room ih =>
      refine bind_congr (same parser short) fun first after found =>
        bind_congr rfl fun comma behind tried => ?_
      cases comma with
      | none => rfl
      | some _ =>
          have left := keeps.length_le found
          have leftAgain := (eat_keeps .comma).maybe.length_le tried
          exact bind_congr (ih (by omega)) fun _ _ _ => rfl

theorem maybe_some_shorter {parse : Production α} (progresses : Progresses parse) {after : Parser}
    {found : α} (tried : maybe parse parser = (some (some found), after)) :
    after.remaining.length < parser.remaining.length := by
  simp only [maybe, Prod.mk.injEq, Option.some.injEq] at tried
  exact (progresses parser after found (Prod.ext tried.1 tried.2)).shorter

/-- The arguments of a class name are read where less remains. -/
theorem classNameTail_congr {name : Text} {argument other : Production ClassName} (keeps : Keeps argument)
    (same : ∀ later : Parser, later.remaining.length < parser.remaining.length →
      argument later = other later) :
    classNameTail name argument parser = classNameTail name other parser := by
  refine bind_congr rfl fun less after opened => ?_
  cases less with
  | none => rfl
  | some mark =>
      have shorter := maybe_some_shorter (eat_progresses .less) opened
      refine bind_congr rfl fun greater behind closed => ?_
      cases greater with
      | some _ => rfl
      | none =>
          have left := (eat_keeps .greater).maybe.length_le closed
          exact bind_congr (commaListWithin_congr keeps same _ (by omega)) fun _ _ _ => rfl

/-- Any room is enough that is not shorter than what remains. -/
theorem classNameWithin_agree {room other : Text} (nonempty : room ≠ []) (nonemptyOther : other ≠ [])
    (enough : parser.remaining.length ≤ room.length)
    (enoughOther : parser.remaining.length ≤ other.length) :
    classNameWithin room parser = classNameWithin other parser := by
  induction room generalizing other parser with
  | nil => contradiction
  | cons _ room ih =>
      cases other with
      | nil => contradiction
      | cons _ other =>
          simp only [List.length_cons] at enough enoughOther
          refine bind_congr rfl fun name after named =>
            classNameTail_congr (classNameWithin_keeps room) fun later less => ?_
          have shorter := (qualifiedName_progresses _ _ _ named).shorter
          refine ih (List.length_pos_iff.mp ?_) (List.length_pos_iff.mp ?_) ?_ ?_ <;> omega

theorem qualifiedName_of_empty (empty : parser.remaining = []) :
    qualifiedName parser = (none, parser) := by
  have ended : parser.nextSignificant = (none, parser) := by
    rw [nextSignificant]
    split
    · rename_i read
      rw [(next_none read).1]
    · rename_i read
      have shorter := (next_some_advances read).shorter
      simp [empty] at shorter
  rw [qualifiedName, nameBody_eq, ended]
  rfl

theorem classNameWithin_eq {room : Text} (nonempty : room ≠ [])
    (enough : parser.remaining.length ≤ room.length) :
    classNameWithin room parser = className parser := by
  rw [className]
  by_cases empty : parser.remaining = []
  · cases room with
    | nil => contradiction
    | cons c room =>
        have failed : classNameWithin (c :: room) parser = (none, parser) := by
          rw [classNameWithin, bind_eq, qualifiedName_of_empty empty]
        rw [empty, failed]
        rfl
  · exact classNameWithin_agree nonempty empty enough (Nat.le_refl _)

/-- A class name in terms of the class names that are its arguments. -/
theorem className_eq (parser : Parser) :
    className parser = (qualifiedName >>= fun name => classNameTail name className) parser := by
  have room : classNameWithin (' ' :: parser.remaining) parser = className parser :=
    classNameWithin_eq (List.cons_ne_nil _ _) (by simp)
  rw [← room]
  refine bind_congr rfl fun name after named =>
    classNameTail_congr (classNameWithin_keeps _) fun later less => ?_
  have shorter := (qualifiedName_progresses _ _ _ named).shorter
  exact classNameWithin_eq (List.length_pos_iff.mp (by omega)) (by omega)

end Nesting

/-- Nothing in the parser runs on for ever: every loop comes to its end, whatever it is entered with,
and class names nest no deeper than the text is long. -/
structure Terminates : Prop where
  trivia : Ends triviaStep fun _ => token
  name : Ends nameStep nameFrom
  bracket (opener closer : Token.Kind) : Ends (bracketStep opener closer) (bracketFrom opener closer)
  defaultValue : Ends defaultStep skipDefault
  parameter : Ends parameterStep parameterBody
  commaList {ι : Type} {item : Production ι} : Keeps item → Ends (commaStep item) (commaFrom item)
  segments : Ends segmentsStep segmentsThroughSemicolon
  declarations : Ends declarationsStep declarationsFrom
  head : Ends headStep headFrom
  scan : Ends scanStep scanFrom
  nested (parser : Parser) :
    className parser = (qualifiedName >>= fun name => classNameTail name className) parser
  depth {room : Text} {parser : Parser} : room ≠ [] → parser.remaining.length ≤ room.length →
    classNameWithin room parser = className parser

theorem terminates : Terminates where
  trivia := trivia_ends
  name := name_ends
  bracket := bracket_ends
  defaultValue := default_ends
  parameter := parameter_ends
  commaList := commaList_ends
  segments := segments_end
  declarations := declarations_end
  head := head_ends
  scan := scan_ends
  nested := className_eq
  depth := classNameWithin_eq

end OutOfLine.Production
