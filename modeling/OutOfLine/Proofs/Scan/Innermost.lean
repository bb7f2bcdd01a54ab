import OutOfLine.Proofs.Scan

/-!
Which class a scan finds. A class head counts as open at the end of a text when the braces met after
it are matched among themselves: no prefix of the later steps closes more braces than it opens. The
scan finds the last such head.
-/

namespace OutOfLine.Scan

def openers (taken : List Step) : Nat :=
  taken.countP Step.opens

def closers (taken : List Step) : Nat :=
  taken.countP Step.closes

/-- Every closing brace met closes a brace opened before it within the same steps. -/
def StillOpen (later : List Step) : Prop :=
  ∀ front, front <+: later → closers front ≤ openers front

/-- The head is met, and after `later`, the steps after it, its brace is open. -/
def OpenHead (taken : List Step) (head : ClassHead) (later : List Step) : Prop :=
  ∃ earlier, taken = earlier ++ .head head :: later ∧ StillOpen later

/-- The number of levels from before the steps that the steps close, if there are enough. -/
def excess : List Step → Nat
  | [] => 0
  | .head _ :: rest | .opened :: rest => excess rest - 1
  | .closed :: rest => excess rest + 1
  | .passed :: rest => excess rest

/-- The last head that is open at the end. -/
def innermost? : List Step → Option ClassHead
  | [] => none
  | .head head :: rest => (innermost? rest).or (if excess rest = 0 then some head else none)
  | _ :: rest => innermost? rest

@[simp]
theorem openers_cons (step : Step) (rest : List Step) :
    openers (step :: rest) = openers rest + step.opens.toNat := by
  cases step <;> simp [openers, List.countP_cons, Step.opens]

@[simp]
theorem closers_cons (step : Step) (rest : List Step) :
    closers (step :: rest) = closers rest + step.closes.toNat := by
  cases step <;> simp [closers, List.countP_cons, Step.closes]

theorem closers_le_iff_excess (taken : List Step) (room : Nat) :
    (∀ front, front <+: taken → closers front ≤ openers front + room) ↔ excess taken ≤ room := by
  induction taken generalizing room with
  | nil => simp [excess, closers, openers]
  | cons step rest ih =>
      have atStep : (∀ front, front <+: step :: rest → closers front ≤ openers front + room) ↔
          ∀ front, front <+: rest →
            closers front + step.closes.toNat ≤ openers front + step.opens.toNat + room := by
        constructor
        · intro all front fronts
          simpa using all (step :: front) (List.cons_prefix_cons.mpr ⟨rfl, fronts⟩)
        · intro all front fronts
          rcases List.prefix_cons_iff.mp fronts with rfl | ⟨tail, rfl, tails⟩
          · exact Nat.zero_le _
          · simpa using all tail tails
      rw [atStep]
      cases step with
      | head _ | opened =>
          refine (forall₂_congr fun front _ => ?_).trans ((ih (room + 1)).trans ?_)
          · simp only [Step.opens, Step.closes, Bool.toNat_true, Bool.toNat_false]
            omega
          · simp only [excess]
            omega
      | closed =>
          cases room with
          | zero =>
              -- The brace itself closes more than its prefix opens.
              refine iff_of_false (fun all => ?_) (by simp [excess])
              have first := all [] List.nil_prefix
              simp [closers, openers, Step.opens, Step.closes] at first
          | succ room =>
              refine (forall₂_congr fun front _ => ?_).trans ((ih room).trans ?_)
              · simp only [Step.opens, Step.closes, Bool.toNat_true, Bool.toNat_false]
                omega
              · simp only [excess]
                omega
      | passed =>
          simpa [Step.opens, Step.closes, excess] using ih room

theorem stillOpen_iff (later : List Step) : StillOpen later ↔ excess later = 0 := by
  rw [← Nat.le_zero, ← closers_le_iff_excess]
  rfl

theorem openHead_cons {step : Step} {rest later : List Step} {head : ClassHead} :
    OpenHead (step :: rest) head later ↔
      OpenHead rest head later ∨ step = .head head ∧ rest = later ∧ StillOpen later := by
  constructor
  · rintro ⟨earlier, split, stillOpen⟩
    cases earlier with
    | nil =>
        obtain ⟨rfl, rfl⟩ := List.cons.inj split
        exact .inr ⟨rfl, rfl, stillOpen⟩
    | cons first earlier =>
        exact .inl ⟨earlier, (List.cons.inj split).2, stillOpen⟩
  · rintro (⟨earlier, rfl, stillOpen⟩ | ⟨rfl, rfl, stillOpen⟩)
    · exact ⟨step :: earlier, rfl, stillOpen⟩
    · exact ⟨[], rfl, stillOpen⟩

theorem not_openHead_nil {head : ClassHead} {later : List Step} : ¬ OpenHead [] head later := by
  rintro ⟨earlier, split, _⟩
  simp at split

theorem innermost?_eq_none_iff (taken : List Step) :
    innermost? taken = none ↔ ∀ head later, ¬ OpenHead taken head later := by
  induction taken with
  | nil => simp [innermost?, not_openHead_nil]
  | cons step rest ih =>
      cases step with
      | head found =>
          simp only [innermost?, Option.or_eq_none_iff, ih, openHead_cons, stillOpen_iff]
          constructor
          · rintro ⟨none, hidden⟩ head later (earlier | ⟨_, rfl, stillOpen⟩)
            · exact none head later earlier
            · simp [stillOpen] at hidden
          · intro none
            refine ⟨fun head later earlier => none head later (.inl earlier), ?_⟩
            exact if_neg fun closed => none found rest (.inr ⟨rfl, rfl, closed⟩)
      | _ => simp [innermost?, ih, openHead_cons]

theorem innermost?_eq_some_iff (taken : List Step) (head : ClassHead) :
    innermost? taken = some head ↔
      ∃ later, OpenHead taken head later ∧ ∀ inner after, ¬ OpenHead later inner after := by
  induction taken with
  | nil => simp [innermost?, not_openHead_nil]
  | cons step rest ih =>
      cases step with
      | head found =>
          simp only [innermost?, Option.or_eq_some_iff, ih, openHead_cons, stillOpen_iff]
          constructor
          · rintro (⟨later, earlier, last⟩ | ⟨none, here⟩)
            · exact ⟨later, .inl earlier, last⟩
            · obtain ⟨closed, same⟩ := Option.ite_none_right_eq_some.mp here
              cases same
              exact ⟨rest, .inr ⟨rfl, rfl, closed⟩, (innermost?_eq_none_iff rest).mp none⟩
          · rintro ⟨later, earlier | ⟨same, rfl, closed⟩, last⟩
            · exact .inl ⟨later, earlier, last⟩
            · cases same
              exact .inr ⟨(innermost?_eq_none_iff rest).mpr last, if_pos closed⟩
      | _ => simp [innermost?, ih, openHead_cons]

theorem findSome?_levelsAfter (levels : List (Option ClassHead)) (taken : List Step) :
    (levelsAfter levels taken).findSome? id =
      (innermost? taken).or ((levels.drop (excess taken)).findSome? id) := by
  induction taken generalizing levels with
  | nil => rfl
  | cons step rest ih =>
      rw [levelsAfter, List.foldl_cons]
      refine (ih (step.apply levels)).trans ?_
      cases step with
      | head _ | opened =>
          simp only [innermost?, Step.apply, excess]
          cases excess rest with
          | zero => simp
          | succ more => simp
      | closed => simp [innermost?, Step.apply, excess]
      | passed => rfl

/-- Resolving a scope finds the innermost class that is still open: the class whose head was met
last among those whose brace is open at the end of the text. Where a head is rejected, the scan goes
on just after its keyword; a brace that ends no head opens a level of no class. -/
theorem enclosingClass_innermost (text : Text) (log : Log)
    (within : (steps text).length ≤ Production.scanLimit) :
    (∀ head, (enclosingClass text log).1 = some head ↔
      ∃ later, OpenHead (steps text) head later ∧ ∀ inner after, ¬ OpenHead later inner after) ∧
    ((enclosingClass text log).1 = none ↔ ∀ head later, ¬ OpenHead (steps text) head later) ∧
    (∀ levels scanned parser keyword after, parser.next = (some keyword, after) →
      keyword.kind = .classKeyword → scanned < Production.scanLimit →
      (Production.classHead (.ofText parser.remaining [])).1 = none →
      ∃ log, Production.scan levels scanned parser =
        Production.scan levels (scanned + 1) ⟨after.tokenizer, log⟩) ∧
    (∀ levels scanned parser brace after, parser.next = (some brace, after) →
      brace.kind = .openBrace → scanned < Production.scanLimit →
      Production.scan levels scanned parser =
        Production.scan (none :: levels) (scanned + 1) after) := by
  have found : (enclosingClass text log).1 = innermost? (steps text) := by
    rw [enclosingClass_eq_steps, if_pos within, findSome?_levelsAfter]
    simp
  refine ⟨fun head => ?_, ?_, ?_, ?_⟩
  · rw [found]
    exact innermost?_eq_some_iff (steps text) head
  · rw [found]
    exact innermost?_eq_none_iff (steps text)
  · intro levels scanned parser keyword after read kind room rejected
    exact scan_rejected read kind room rejected
  · intro levels scanned parser brace after read kind room
    rw [scan_going read room, kind]

/-- An anonymous brace is open inside `A`, `B` is closed again, and the first brace closes nothing. -/
theorem enclosingClass_innermost_nested :
    let text := "\x7d class A \x7b class B : A \x7b \x7d; enum class; void f() \x7b".toList
    (steps text).length ≤ Production.scanLimit ∧
      ∃ head, head.name = "A".toList ∧ (enclosingClass text []).1 = some head ∧
        ∃ later, OpenHead (steps text) head later ∧ ∀ inner after, ¬ OpenHead later inner after := by
  intro text
  have within : (steps text).length ≤ Production.scanLimit := by decide +kernel
  have name : (enclosingClass text []).1.map (·.name) = some "A".toList := by decide +kernel
  obtain ⟨head, found, named⟩ := Option.map_eq_some_iff.mp name
  exact ⟨within, head, named, found, ((enclosingClass_innermost text [] within).1 head).mp found⟩

end OutOfLine.Scan
