import OutOfLine.Proofs.Reading.ClassHead
import OutOfLine.Scope

/-!
The scan for the enclosing class as a sequence of steps. Where a step leads does not depend on the
levels that are open, so a scan is the list of its steps; the levels follow from the steps.
-/

namespace OutOfLine.Scan

open OutOfLine.Parser

/-- What a scan meets in one step. -/
inductive Step where
  /-- A class head, with the brace at its end. -/
  | head (head : ClassHead)
  /-- Any other opening brace. -/
  | opened
  | closed
  /-- Any other token, among them a class keyword that starts no head. -/
  | passed
deriving Repr

namespace Step

def opens : Step → Bool
  | .head _ | .opened => true
  | _ => false

def closes : Step → Bool
  | .closed => true
  | _ => false

/-- The open levels after the step, the innermost first. -/
def apply (levels : List (Option ClassHead)) : Step → List (Option ClassHead)
  | .head found => some found :: levels
  | .opened => none :: levels
  | .closed => levels.tail
  | .passed => levels

end Step

/-- The first step of the scan of a text, and the text where the scan goes on. -/
def advance? (text : Text) : Option (Step × Text) :=
  match Token.cut? text with
  | none => none
  | some (token, after) =>
      match token.kind with
      | .classKeyword =>
          match Production.classHead (.ofText text []) with
          | (some head, parser) => some (.head head, parser.remaining)
          | (none, _) => some (.passed, after)
      | .openBrace => some (.opened, after)
      | .closeBrace => some (.closed, after)
      | _ => some (.passed, after)

theorem advance?_shorter {text rest : Text} {step : Step} (next : advance? text = some (step, rest)) :
    rest.length < text.length := by
  unfold advance? at next
  split at next
  · simp at next
  · rename_i token after cut
    have shorter := Token.cut?_length_lt cut
    split at next
    · split at next
      · rename_i head parser accepted
        simp only [Option.some.injEq, Prod.mk.injEq] at next
        obtain ⟨_, rfl⟩ := next
        exact (Production.classHead_progresses _ _ _ accepted).shorter
      · simp_all
    all_goals simp_all

/-- The steps of the scan of a text. -/
def steps (text : Text) : List Step :=
  match _next : advance? text with
  | none => []
  | some (step, rest) => step :: steps rest
termination_by text.length
decreasing_by exact advance?_shorter _next

/-- The open levels after some steps. -/
def levelsAfter (levels : List (Option ClassHead)) (taken : List Step) : List (Option ClassHead) :=
  taken.foldl Step.apply levels

theorem advance?_eq_none_iff {text : Text} : advance? text = none ↔ text = [] := by
  constructor
  · intro ended
    unfold advance? at ended
    split at ended
    · rename_i cut
      exact Token.cut?_eq_none_iff.mp cut
    · split at ended
      · split at ended <;> simp at ended
      all_goals simp at ended
  · rintro rfl
    rfl

theorem steps_of_advance? {text rest : Text} {step : Step} (next : advance? text = some (step, rest)) :
    steps text = step :: steps rest := by
  rw [steps]
  split
  · simp_all
  · simp_all

@[simp]
theorem steps_nil : steps [] = [] := by
  rw [steps]
  split
  · rfl
  · rename_i next
    simp [advance?_eq_none_iff.mpr] at next

/-- Every text is at its end or leads a scan one step on. -/
@[elab_as_elim]
theorem advance_induction {motive : Text → Prop} (nil : motive [])
    (advance : ∀ text step rest, advance? text = some (step, rest) → motive rest → motive text)
    (text : Text) : motive text := by
  induction size : text.length using Nat.strongRecOn generalizing text with
  | ind size ih =>
      cases next : advance? text with
      | none =>
          rw [advance?_eq_none_iff.mp next]
          exact nil
      | some pair =>
          obtain ⟨step, rest⟩ := pair
          exact advance text step rest next (ih _ (size ▸ advance?_shorter next) rest rfl)

/-- The first step of a scan, seen on tokens. -/
def advanceTokens? : List Token → Option (Step × List Token)
  | [] => none
  | token :: after =>
      match token.kind with
      | .classKeyword =>
          match Reading.classHead (token :: after) with
          | ⟨some head, rest, _⟩ => some (.head head, rest)
          | ⟨none, _, _⟩ => some (.passed, after)
      | .openBrace => some (.opened, after)
      | .closeBrace => some (.closed, after)
      | _ => some (.passed, after)

theorem advance?_tokens (text : Text) :
    (advance? text).map (Prod.map id Token.lex) = advanceTokens? (Token.lex text) := by
  unfold advance?
  cases cut : Token.cut? text with
  | none => simp [Token.cut?_eq_none_iff.mp cut, advanceTokens?]
  | some pair =>
      obtain ⟨token, after⟩ := pair
      simp only [Token.lex_of_cut cut, advanceTokens?]
      cases kind : token.kind with
      | classKeyword =>
          have agrees := Reading.classHead_reads (.ofText text [])
          have lexed : Token.lex (Parser.ofText text []).remaining = token :: Token.lex after :=
            Token.lex_of_cut cut
          rw [lexed] at agrees
          rcases outcome : Reading.classHead (token :: Token.lex after) with
            ⟨_ | seen, tokens, reachedEnd⟩ <;> rw [outcome] at agrees
          · obtain ⟨parser, run, _⟩ := agrees.of_none
            simp [run]
          · obtain ⟨found, parser, run, ⟨rfl, _⟩, rest⟩ := agrees.of_some
            simp [run, rest]
      | _ => rfl

theorem advance?_of_tokens {text : Text} {step : Step} {rest : List Token}
    (next : advanceTokens? (Token.lex text) = some (step, rest)) :
    ∃ after, advance? text = some (step, after) ∧ Token.lex after = rest := by
  rw [← advance?_tokens] at next
  obtain ⟨⟨found, after⟩, advanced, same⟩ := Option.map_eq_some_iff.mp next
  simp only [Prod.map, id_eq, Prod.mk.injEq] at same
  obtain ⟨rfl, rest⟩ := same
  exact ⟨after, advanced, rest⟩

/-- A step takes at least the first token and leaves what is behind. -/
theorem advanceTokens?_leaves {tokens rest : List Token} {step : Step}
    (next : advanceTokens? tokens = some (step, rest)) :
    ∃ first others, tokens = first :: others ∧ rest <:+ others := by
  cases tokens with
  | nil => simp [advanceTokens?] at next
  | cons token after =>
      refine ⟨token, after, rfl, ?_⟩
      have short := Reading.classHead_shortens (token :: after)
      have suffix := Reading.classHead_steady.suffix (token :: after)
      rw [advanceTokens?] at next
      split at next
      · split at next
        · rename_i head found reachedEnd outcome
          rw [outcome] at short suffix
          simp only [Option.some.injEq, Prod.mk.injEq] at next
          obtain ⟨_, rfl⟩ := next
          rcases List.suffix_cons_iff.mp suffix with whole | behind
          · exact absurd (short head rfl) (by rw [whole]; exact Nat.lt_irrefl _)
          · exact behind
        · simp_all
      all_goals simp_all

theorem advanceTokens?_shorter {tokens rest : List Token} {step : Step}
    (next : advanceTokens? tokens = some (step, rest)) : rest.length < tokens.length := by
  obtain ⟨first, others, rfl, suffix⟩ := advanceTokens?_leaves next
  exact Nat.lt_succ_of_le suffix.length_le

theorem length_steps_le (text : Text) : (steps text).length ≤ (Token.lex text).length := by
  induction text using advance_induction with
  | nil => simp
  | advance text step rest next ih =>
      have tokens := advance?_tokens text
      rw [next] at tokens
      have shorter := advanceTokens?_shorter tokens.symm
      rw [steps_of_advance? next, List.length_cons]
      omega

section

open OutOfLine.Production

variable {levels : List (Option ClassHead)} {scanned : Nat} {parser start after : Parser}
  {token : Token}

theorem scan_ended (read : parser.next = (none, after)) :
    scan levels scanned parser = (levels.findSome? id, after) := by
  rw [scan]
  split
  · simp_all
  · simp_all

theorem scan_aborted (read : parser.next = (some token, after)) (limit : scanLimit ≤ scanned) :
    scan levels scanned parser = (none, after.note .scopeScanAborted) := by
  rw [scan]
  split
  · simp_all
  · simp_all

theorem scan_going (read : parser.next = (some token, after)) (within : scanned < scanLimit) :
    scan levels scanned parser =
      match token.kind with
      | .classKeyword =>
          match classHeadFrom token after with
          | (some head, after) =>
              scan (some head :: levels) (scanned + 1) (after.note .classScopeOpened)
          | (none, after) => scan levels (scanned + 1) after
      | .openBrace => scan (none :: levels) (scanned + 1) after
      | .closeBrace => scan levels.tail (scanned + 1) after
      | _ => scan levels (scanned + 1) after := by
  rw [scan]
  split
  · simp_all
  · rename_i found rest again
    obtain ⟨rfl, rfl⟩ : token = found ∧ after = rest := by simpa using read.symm.trans again
    rw [if_neg (Nat.not_le.mpr within)]
    cases kind : token.kind with
    | classKeyword =>
        simp only
        split <;> rename_i tried <;> rw [tried]
    | _ => rfl

theorem classHead_again (read : parser.next = (some token, start)) :
    (classHead (start.save.pushBack token.text)).1 = (classHead (.ofText parser.remaining [])).1 ∧
      (classHead (start.save.pushBack token.text)).2.remaining =
        (classHead (.ofText parser.remaining [])).2.remaining := by
  have reads := Reading.classHead_reads.imp fun _ _ related => related.1
  have whole : token.text ++ start.remaining = parser.remaining :=
    Token.cut?_append (Reading.next_some_cut read)
  refine reads.same_of_remaining ?_
  rw [remaining_pushBack]
  exact whole

/-- A class head that is rejected leaves the scan just after its keyword. -/
theorem scan_rejected (read : parser.next = (some token, start)) (keyword : token.kind = .classKeyword)
    (within : scanned < scanLimit) (rejected : (classHead (.ofText parser.remaining [])).1 = none) :
    ∃ log, scan levels scanned parser = scan levels (scanned + 1) ⟨start.tokenizer, log⟩ := by
  rw [scan_going read within, keyword]
  rcases tried : classHeadFrom token start with ⟨_ | head, after⟩
  · have same := classHeadFrom_none_tokenizer tried
    exact ⟨after.log, by rw [← same]⟩
  · obtain ⟨inner, parsed, _⟩ := attempt_some tried
    have again := (classHead_again read).1
    rw [parsed, rejected] at again
    contradiction

theorem scan_accepted {head : ClassHead} (read : parser.next = (some token, start))
    (keyword : token.kind = .classKeyword) (within : scanned < scanLimit)
    (accepted : classHead (.ofText parser.remaining []) = (some head, after)) :
    ∃ onward, onward.remaining = after.remaining ∧
      scan levels scanned parser = scan (some head :: levels) (scanned + 1) onward := by
  have again := classHead_again read
  rw [accepted] at again
  rw [scan_going read within, keyword]
  rcases tried : classHeadFrom token start with ⟨_ | found, onward⟩
  · obtain ⟨inner, parsed, _⟩ := attempt_none tried
    rw [parsed] at again
    simp at again
  · obtain ⟨inner, parsed, rfl⟩ := attempt_some tried
    rw [parsed] at again
    obtain ⟨same, rest⟩ := again
    cases same
    exact ⟨inner.discard.note .classScopeOpened, (remaining_discard inner).trans rest, rfl⟩

theorem scan_step {step : Step} {rest : Text} (next : advance? parser.remaining = some (step, rest))
    (within : scanned < scanLimit) :
    ∃ onward, onward.remaining = rest ∧
      scan levels scanned parser = scan (step.apply levels) (scanned + 1) onward := by
  rcases read : parser.next with ⟨_ | token, start⟩
  · rw [(next_none read).2] at next
    simp [advance?, Token.cut?] at next
  · have going : scan levels scanned parser = _ := scan_going read within
    unfold advance? at next
    rw [Reading.next_some_cut read] at next
    cases kind : token.kind with
    | classKeyword =>
        rcases tried : classHead (.ofText parser.remaining []) with ⟨_ | head, after⟩
        · obtain ⟨log, same⟩ : ∃ log, scan levels scanned parser =
              scan levels (scanned + 1) ⟨start.tokenizer, log⟩ :=
            scan_rejected read kind within (by rw [tried])
          simp only [kind, tried, Option.some.injEq, Prod.mk.injEq] at next
          obtain ⟨rfl, rfl⟩ := next
          exact ⟨⟨start.tokenizer, log⟩, rfl, same⟩
        · simp only [kind, tried, Option.some.injEq, Prod.mk.injEq] at next
          obtain ⟨rfl, rfl⟩ := next
          exact scan_accepted read kind within tried
    | _ =>
        simp only [kind, Option.some.injEq, Prod.mk.injEq] at next going
        obtain ⟨rfl, rfl⟩ := next
        exact ⟨start, rfl, going⟩

/-- What a scan finds, by its steps: the innermost class level that they leave open. -/
theorem scan_eq_steps (within : scanned ≤ scanLimit) :
    (scan levels scanned parser).1 =
      if scanned + (steps parser.remaining).length ≤ scanLimit then
        (levelsAfter levels (steps parser.remaining)).findSome? id
      else none := by
  induction text : parser.remaining using advance_induction generalizing levels scanned parser with
  | nil =>
      rcases read : parser.next with ⟨_ | token, after⟩
      · rw [scan_ended read, steps_nil]
        simp [levelsAfter, within]
      · have shorter := (next_some_advances read).shorter
        simp [text] at shorter
  | advance before step rest next ih =>
      rw [steps_of_advance? next]
      rcases Nat.lt_or_ge scanned scanLimit with room | limit
      · rw [← text] at next
        obtain ⟨onward, remaining, same⟩ : ∃ onward, onward.remaining = rest ∧
            scan levels scanned parser = scan (step.apply levels) (scanned + 1) onward :=
          scan_step next room
        have found : (scan (step.apply levels) (scanned + 1) onward).1 = _ := ih room remaining
        have count : scanned + (step :: steps rest).length = scanned + 1 + (steps rest).length := by
          simp only [List.length_cons]
          omega
        rw [same, found, count]
        rfl
      · rcases read : parser.next with ⟨_ | token, after⟩
        · rw [← text, (next_none read).2, advance?_eq_none_iff.mpr rfl] at next
          simp at next
        · have exceeded : ¬ scanned + (step :: steps rest).length ≤ scanLimit := by
            simp only [List.length_cons]
            omega
          rw [scan_aborted read limit, if_neg exceeded]

theorem enclosingClass_eq_steps (text : Text) (log : Log) :
    (OutOfLine.enclosingClass text log).1 =
      if (steps text).length ≤ scanLimit then (levelsAfter [] (steps text)).findSome? id
      else none := by
  have run : (scan [] 0 (.ofText text log)).1 = _ := scan_eq_steps (Nat.zero_le _)
  rw [Nat.zero_add] at run
  exact run

theorem mem_levelsAfter {level : Option ClassHead} {taken : List Step}
    (member : level ∈ levelsAfter levels taken) :
    level ∈ levels ∨ ∀ head, level = some head → .head head ∈ taken := by
  induction taken generalizing levels with
  | nil => exact .inl member
  | cons step rest ih =>
      rcases ih member with applied | later
      · cases step with
        | head found =>
            rcases List.mem_cons.mp applied with rfl | before
            · exact .inr fun head same => by cases same; exact List.mem_cons_self
            · exact .inl before
        | opened =>
            rcases List.mem_cons.mp applied with rfl | before
            · exact .inr fun head same => by cases same
            · exact .inl before
        | closed => exact .inl (List.mem_of_mem_tail applied)
        | passed => exact .inl applied
      · exact .inr fun head same => List.mem_cons_of_mem _ (later head same)

theorem accepted_of_advance? {text rest : Text} {head : ClassHead}
    (next : advance? text = some (.head head, rest)) :
    (classHead (.ofText text [])).1 = some head := by
  unfold advance? at next
  split at next
  · simp at next
  · split at next
    · split at next
      · rename_i found parser accepted
        simp only [Option.some.injEq, Prod.mk.injEq, Step.head.injEq] at next
        rw [accepted, next.1]
      · simp at next
    all_goals simp at next

theorem settled_of_mem_steps {text : Text} {head : ClassHead} (member : .head head ∈ steps text) :
    ∃ tokens, Token.Settled head.name tokens := by
  induction text using advance_induction with
  | nil => simp at member
  | advance text step rest next ih =>
      rw [steps_of_advance? next] at member
      rcases List.mem_cons.mp member with rfl | later
      · have settled := (Reading.classHead_reads (.ofText text [])).result
        rw [accepted_of_advance? next] at settled
        generalize (Reading.classHead _).result = seen at settled
        cases settled with
        | some related => exact related.2
      · exact ih later

/-- The class that is found was met on the way. -/
theorem mem_steps_of_enclosingClass {text : Text} {log : Log} {head : ClassHead}
    (found : (OutOfLine.enclosingClass text log).1 = some head) : .head head ∈ steps text := by
  rw [enclosingClass_eq_steps] at found
  split at found
  · obtain ⟨level, member, same⟩ := List.exists_of_findSome?_eq_some found
    rcases mem_levelsAfter member with none | met
    · simp at none
    · exact met head same
  · simp at found

/-- The name of the class that is found keeps its tokens wherever it is put. -/
theorem enclosingClass_settled {text : Text} {log : Log} {head : ClassHead}
    (found : (OutOfLine.enclosingClass text log).1 = some head) :
    ∃ tokens, Token.Settled head.name tokens :=
  settled_of_mem_steps (mem_steps_of_enclosingClass found)

end

end OutOfLine.Scan
