import OutOfLine.Proofs.Scan

namespace OutOfLine.Scan

/-- The texts that the scan of a text comes to. -/
def visited (text : Text) : List Text :=
  match _next : advance? text with
  | none => [text]
  | some (_, rest) => text :: visited rest
termination_by text.length
decreasing_by exact advance?_shorter _next

def startsWithKeyword (text : Text) : Bool :=
  (Token.lex text).head?.any (·.kind = .classKeyword)

/-- The texts at which the scan tries a class head. -/
def attempted (text : Text) : List Text :=
  (visited text).filter startsWithKeyword

/-- Scanned from no open level, the steps close no brace but their own, and all of these. -/
structure Complete (taken : List Step) : Prop where
  ownBraces : ∀ front, front ++ [.closed] <+: taken → levelsAfter [] front ≠ []
  allClosed : levelsAfter [] taken = []

theorem complete_iff (taken : List Step) :
    Complete taken ↔
      (∀ index < taken.length, (taken[index]?).any Step.closes →
        levelsAfter [] (taken.take index) ≠ []) ∧ levelsAfter [] taken = [] := by
  constructor
  · rintro ⟨ownBraces, allClosed⟩
    refine ⟨fun index short closes => ownBraces _ ?_, allClosed⟩
    have here : taken[index]? = some .closed := by
      cases found : taken[index]? with
      | none => simp [found] at closes
      | some step => cases step <;> simp_all [Step.closes]
    have next : taken.take (index + 1) = taken.take index ++ [.closed] := by
      rw [List.take_add_one, here]
      rfl
    rw [← next]
    exact List.take_prefix _ _
  · rintro ⟨ownBraces, allClosed⟩
    refine ⟨fun front fronts => ?_, allClosed⟩
    obtain ⟨rest, rfl⟩ := fronts
    have here := ownBraces front.length (by simp) (by simp [Step.closes])
    simpa using here

instance (taken : List Step) : Decidable (Complete taken) :=
  decidable_of_iff' _ (complete_iff taken)

theorem visited_of_advance? {text rest : Text} {step : Step}
    (next : advance? text = some (step, rest)) : visited text = text :: visited rest := by
  rw [visited]
  split
  · simp_all
  · simp_all

theorem advanceTokens?_append {tokens rest : List Token} {step : Step} (more : List Token)
    (decided : ∀ token ∈ tokens.head?, token.kind = .classKeyword →
      (Reading.classHead tokens).reachedEnd = false)
    (next : advanceTokens? tokens = some (step, rest)) :
    advanceTokens? (tokens ++ more) = some (step, rest ++ more) := by
  cases tokens with
  | nil => simp [advanceTokens?] at next
  | cons token after =>
      simp only [List.cons_append, advanceTokens?] at next ⊢
      cases kind : token.kind with
      | classKeyword =>
          have steady := Reading.classHead_steady.append (token :: after) more (decided token rfl kind)
          rw [List.cons_append] at steady
          rcases outcome : Reading.classHead (token :: after) with ⟨_ | head, left, reachedEnd⟩
          · simp only [kind, outcome, Option.some.injEq, Prod.mk.injEq] at next
            obtain ⟨rfl, rfl⟩ := next
            simp only [steady, outcome]
          · simp only [kind, outcome, Option.some.injEq, Prod.mk.injEq] at next
            obtain ⟨rfl, rfl⟩ := next
            simp only [steady, outcome]
      | _ =>
          simp only [kind, Option.some.injEq, Prod.mk.injEq] at next ⊢
          exact ⟨next.1, by rw [next.2]⟩

theorem advance?_append {front back rest : Text} {step : Step}
    (apart : Token.lex (front ++ back) = Token.lex front ++ Token.lex back)
    (decided : startsWithKeyword front → (Reading.classHead (Token.lex front)).reachedEnd = false)
    (next : advance? front = some (step, rest)) :
    advance? (front ++ back) = some (step, rest ++ back) ∧
      Token.lex (rest ++ back) = Token.lex rest ++ Token.lex back := by
  have tokens := advance?_tokens front
  rw [next] at tokens
  have decidedTokens : ∀ token ∈ (Token.lex front).head?, token.kind = .classKeyword →
      (Reading.classHead (Token.lex front)).reachedEnd = false := by
    intro token first keyword
    rw [Option.mem_def] at first
    exact decided (by simp [startsWithKeyword, first, keyword])
  have whole : advanceTokens? (Token.lex (front ++ back)) = _ :=
    apart ▸ advanceTokens?_append (Token.lex back) decidedTokens tokens.symm
  obtain ⟨onward, advanced, lexed⟩ := advance?_of_tokens whole
  have spelled : onward = rest ++ back := by
    rw [← Token.spell_lex onward, lexed]
    simp
  subst spelled
  exact ⟨advanced, lexed⟩

theorem steps_append {front back : Text}
    (apart : Token.lex (front ++ back) = Token.lex front ++ Token.lex back)
    (decided : ∀ start ∈ attempted front,
      (Reading.classHead (Token.lex start)).reachedEnd = false) :
    steps (front ++ back) = steps front ++ steps back := by
  induction front using advance_induction with
  | nil => simp
  | advance front step rest next ih =>
      rw [attempted, visited_of_advance? next] at decided
      have first : startsWithKeyword front →
          (Reading.classHead (Token.lex front)).reachedEnd = false := by
        intro keyword
        exact decided front (by simp [keyword])
      obtain ⟨advanced, apartRest⟩ := advance?_append apart first next
      have later := ih apartRest fun start tried =>
        decided start (List.mem_filter.mpr
          ⟨List.mem_cons_of_mem _ (List.mem_filter.mp tried).1, (List.mem_filter.mp tried).2⟩)
      rw [steps_of_advance? advanced, steps_of_advance? next, later, List.cons_append]

/-- As long as the steps close only what is open above the levels, the levels stay. -/
theorem levelsAfter_above {inner : List (Option ClassHead)} {taken : List Step}
    (levels : List (Option ClassHead))
    (ownBraces : ∀ front, front ++ [.closed] <+: taken → levelsAfter inner front ≠ []) :
    levelsAfter (inner ++ levels) taken = levelsAfter inner taken ++ levels := by
  induction taken generalizing inner with
  | nil => rfl
  | cons step rest ih =>
      have later : ∀ front, front ++ [.closed] <+: rest →
          levelsAfter (step.apply inner) front ≠ [] :=
        fun front fronts => ownBraces (step :: front) (List.cons_prefix_cons.mpr ⟨rfl, fronts⟩)
      have above : step.apply (inner ++ levels) = step.apply inner ++ levels := by
        cases step with
        | closed =>
            have nonempty : inner ≠ [] := ownBraces [] (by simp)
            exact List.tail_append_of_ne_nil nonempty
        | _ => rfl
      rw [levelsAfter, List.foldl_cons, above]
      exact ih later

theorem Complete.levelsAfter_eq {taken : List Step} (complete : Complete taken)
    (levels : List (Option ClassHead)) : levelsAfter levels taken = levels := by
  have above := levelsAfter_above levels complete.ownBraces
  rwa [complete.allClosed] at above

/-- Complete code between a class head and the end of a text does not change the enclosing class. -/
theorem enclosingClass_append_complete {front back : Text} (log : Log)
    (apart : Token.lex (front ++ back) = Token.lex front ++ Token.lex back)
    (decided : ∀ start ∈ attempted front,
      (Reading.classHead (Token.lex start)).reachedEnd = false)
    (complete : Complete (steps back))
    (within : (Token.lex (front ++ back)).length ≤ Production.scanLimit) :
    (enclosingClass (front ++ back) log).1 = (enclosingClass front log).1 := by
  have whole : (steps (front ++ back)).length ≤ Production.scanLimit :=
    Nat.le_trans (length_steps_le _) within
  have split := steps_append apart decided
  have start : (steps front).length ≤ Production.scanLimit := by
    rw [split, List.length_append] at whole
    omega
  have levels : levelsAfter [] (steps (front ++ back)) = levelsAfter [] (steps front) := by
    rw [split, levelsAfter, List.foldl_append]
    exact complete.levelsAfter_eq _
  rw [enclosingClass_eq_steps, enclosingClass_eq_steps, if_pos whole, if_pos start, levels]

theorem enclosingClass_append_complete_nested :
    let front := "class A : public B \x7b int x; ".toList
    let back := "void f() \x7b g(\"\x7d\"); \x7d struct C \x7b \x7d; // \x7d".toList
    Token.lex (front ++ back) = Token.lex front ++ Token.lex back ∧
      (∀ start ∈ attempted front, (Reading.classHead (Token.lex start)).reachedEnd = false) ∧
      Complete (steps back) ∧ (Token.lex (front ++ back)).length ≤ Production.scanLimit ∧
      (enclosingClass (front ++ back) []).1 = (enclosingClass front []).1 ∧
      (enclosingClass front []).1.map (·.name) = some "A".toList := by
  intro front back
  have apart : Token.lex (front ++ back) = Token.lex front ++ Token.lex back := by decide +kernel
  have decided : ∀ start ∈ attempted front,
      (Reading.classHead (Token.lex start)).reachedEnd = false := by decide +kernel
  have complete : Complete (steps back) := by decide +kernel
  have within : (Token.lex (front ++ back)).length ≤ Production.scanLimit := by decide +kernel
  exact ⟨apart, decided, complete, within,
    enclosingClass_append_complete [] apart decided complete within, by decide +kernel⟩

end OutOfLine.Scan
