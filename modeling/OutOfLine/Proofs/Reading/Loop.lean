import OutOfLine.Proofs.Reading

/-!
Readings that repeat a step. A step goes on with a new state or ends with a result. Where every step
that goes on has taken a token, the room that bounds the repetition does not show.
-/

namespace OutOfLine.Reading

variable {σ τ α β : Type}

def loopWithin (step : σ → Reading (σ ⊕ α)) : (room : Nat) → σ → Reading α
  | 0, _ => fail
  | room + 1, state => do
      match ← step state with
      | .inl next => loopWithin step room next
      | .inr result => return result

def loop (step : σ → Reading (σ ⊕ α)) (state : σ) : Reading α :=
  fun tokens => loopWithin step (tokens.length + 1) state tokens

/-- Where the result passes the test, the reading has taken a token. -/
def ShortensOn (test : α → Bool) (reading : Reading α) : Prop :=
  ∀ tokens result, (reading tokens).result = some result → test result →
    (reading tokens).rest.length < tokens.length

/-- A step that goes on has taken a token. -/
def Falls (step : σ → Reading (σ ⊕ α)) : Prop :=
  ∀ state, ShortensOn Sum.isLeft (step state)

theorem Shortens.on {reading : Reading α} (shortens : Shortens reading) (test : α → Bool) :
    ShortensOn test reading :=
  fun tokens result found _ => shortens tokens result found

theorem ShortensOn.pure {test : α → Bool} {result : α} (fails : test result = false) :
    ShortensOn test (Pure.pure result) := by
  intro tokens found same passes
  cases same
  simp [fails] at passes

theorem ShortensOn.fail {test : α → Bool} : ShortensOn test Reading.fail := by
  intro tokens found same
  simp [Reading.fail] at same

theorem ShortensOn.ite {test : α → Bool} {condition : Prop} [Decidable condition]
    {left right : Reading α} (whenTrue : ShortensOn test left) (whenFalse : ShortensOn test right) :
    ShortensOn test (if condition then left else right) := by
  split
  · exact whenTrue
  · exact whenFalse

theorem Steady.bindOn {test : β → Bool} {reading : Reading α} {later : α → Reading β}
    (first : Steady reading) (second : ∀ result, ShortensOn test (later result)) :
    ShortensOn test (reading >>= later) := by
  intro tokens result found passes
  obtain ⟨between, rest, reachedEnd, read, found, same⟩ := bind_result found
  have start := first.length_le tokens
  have shorter := second between rest result found passes
  rw [read] at start
  rw [same]
  exact Nat.lt_of_lt_of_le shorter start

variable {step : σ → Reading (σ ⊕ α)} {state next : σ} {tokens rest : List Token}
  {reachedEnd : Bool} {result : α}

theorem loopWithin_of_more (read : step state tokens = ⟨some (.inl next), rest, reachedEnd⟩)
    (room : Nat) :
    loopWithin step (room + 1) state tokens =
      ⟨(loopWithin step room next rest).result, (loopWithin step room next rest).rest,
        reachedEnd || (loopWithin step room next rest).reachedEnd⟩ := by
  rw [loopWithin, bind_of_some read]

theorem loop_of_none (read : step state tokens = ⟨none, rest, reachedEnd⟩) :
    loop step state tokens = ⟨none, rest, reachedEnd⟩ := by
  rw [loop, loopWithin, bind_of_none read]

theorem loop_of_done (read : step state tokens = ⟨some (.inr result), rest, reachedEnd⟩) :
    loop step state tokens = ⟨some result, rest, reachedEnd⟩ := by
  rw [loop, loopWithin, bind_of_some read]
  simp [Pure.pure]

theorem loopWithin_agree (falls : Falls step) {room other : Nat} (enough : tokens.length < room)
    (enoughOther : tokens.length < other) :
    loopWithin step room state tokens = loopWithin step other state tokens := by
  induction room generalizing other state tokens with
  | zero => omega
  | succ room ih =>
      cases other with
      | zero => omega
      | succ other =>
          have fall := falls state
          rcases read : step state tokens with ⟨_ | next | result, rest, reachedEnd⟩
          · rw [loopWithin, loopWithin, bind_of_none read, bind_of_none read]
          · have shorter := fall tokens (.inl next) (by rw [read]) rfl
            rw [read] at shorter
            simp only at shorter
            rw [loopWithin_of_more read, loopWithin_of_more read,
              ih (by omega) (by omega : rest.length < other)]
          · rw [loopWithin, loopWithin, bind_of_some read, bind_of_some read]

theorem loop_of_more (falls : Falls step)
    (read : step state tokens = ⟨some (.inl next), rest, reachedEnd⟩) :
    loop step state tokens =
      ⟨(loop step next rest).result, (loop step next rest).rest,
        reachedEnd || (loop step next rest).reachedEnd⟩ := by
  have shorter := falls state tokens (.inl next) (by rw [read]) rfl
  rw [read] at shorter
  have room : loopWithin step tokens.length next rest = loop step next rest :=
    loopWithin_agree falls shorter (Nat.lt_succ_self _)
  rw [← room]
  exact loopWithin_of_more read tokens.length

/-- Induction along the steps of a loop. -/
@[elab_as_elim]
theorem loop_induction (falls : Falls step) {motive : σ → List Token → Outcome α → Prop}
    (failed : ∀ state tokens rest reachedEnd, step state tokens = ⟨none, rest, reachedEnd⟩ →
      motive state tokens ⟨none, rest, reachedEnd⟩)
    (done : ∀ state tokens result rest reachedEnd,
      step state tokens = ⟨some (.inr result), rest, reachedEnd⟩ →
      motive state tokens ⟨some result, rest, reachedEnd⟩)
    (more : ∀ state tokens next rest reachedEnd later,
      step state tokens = ⟨some (.inl next), rest, reachedEnd⟩ → motive next rest later →
      motive state tokens ⟨later.result, later.rest, reachedEnd || later.reachedEnd⟩)
    (state : σ) (tokens : List Token) : motive state tokens (loop step state tokens) := by
  induction size : tokens.length using Nat.strongRecOn generalizing state tokens with
  | ind size ih =>
      have fall := falls state
      rcases read : step state tokens with ⟨_ | next | result, rest, reachedEnd⟩
      · rw [loop_of_none read]
        exact failed _ _ _ _ read
      · have shorter := fall tokens (.inl next) (by rw [read]) rfl
        rw [read] at shorter
        rw [loop_of_more falls read]
        exact more _ _ _ _ _ _ read (ih _ (size ▸ shorter) next rest rfl)
      · rw [loop_of_done read]
        exact done _ _ _ _ _ read

theorem loop_shortens (shortens : ∀ state, Shortens (step state)) (state : σ) :
    Shortens (loop step state) := by
  intro tokens
  refine loop_induction (fun state => (shortens state).on _) (motive := fun state tokens outcome =>
    ∀ result, outcome.result = some result → outcome.rest.length < tokens.length) ?_ ?_ ?_ state tokens
  · intro state tokens rest reachedEnd read result found
    simp at found
  · intro state tokens result rest reachedEnd read same _
    have shorter := shortens state tokens (.inr result) (by rw [read])
    rwa [read] at shorter
  · intro state tokens next rest reachedEnd later read ih result found
    have shorter := shortens state tokens (.inl next) (by rw [read])
    rw [read] at shorter
    exact Nat.lt_trans (ih result found) shorter

/-- A production that repeats a body agrees with a loop whose steps agree with the body. -/
theorem loop_reads {related : τ → σ → Prop} {relates : β → α → Prop}
    {body : τ → Production (τ ⊕ β)} {run : τ → Production β} (falls : Falls step)
    (unfolds : ∀ start parser, run start parser = (body start >>= Sum.elim run Pure.pure) parser)
    (reads : ∀ start state, related start state →
      Reads (Sum.LiftRel related relates) (body start) (step state))
    {start : τ} (begins : related start state) : Reads relates (run start) (loop step state) := by
  -- The induction is on the reading: what a step leaves is what the body leaves.
  refine fun parser => loop_induction falls (motive := fun state tokens outcome =>
    ∀ start, related start state → ∀ parser, Token.lex parser.remaining = tokens →
      Agrees relates (run start parser) outcome) ?_ ?_ ?_ state _ start begins parser rfl
  · intro state tokens rest reachedEnd read start begins parser lexed
    obtain ⟨after, parsed, remains⟩ := (read ▸ lexed ▸ reads start state begins parser).of_none
    rw [unfolds, Production.bind_eq, parsed]
    exact ⟨.none, remains⟩
  · intro state tokens result rest reachedEnd read start begins parser lexed
    obtain ⟨found, after, parsed, lifted, remains⟩ :=
      (read ▸ lexed ▸ reads start state begins parser).of_some
    rw [unfolds, Production.bind_eq, parsed]
    cases lifted with
    | inr related => exact ⟨.some related, remains⟩
  · intro state tokens next rest reachedEnd later read ih start begins parser lexed
    obtain ⟨found, after, parsed, lifted, remains⟩ :=
      (read ▸ lexed ▸ reads start state begins parser).of_some
    rw [unfolds, Production.bind_eq, parsed]
    cases lifted with
    | inl related =>
        obtain ⟨last, left⟩ := ih _ related after remains
        exact ⟨last, left⟩

end OutOfLine.Reading
