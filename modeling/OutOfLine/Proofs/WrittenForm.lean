import OutOfLine.Proofs.Reading.ClassName

namespace OutOfLine

namespace Production

variable {α β : Type}

/-- Whatever the production finds has the property. -/
def Finds (holds : α → Prop) (parse : Production α) : Prop :=
  ∀ parser result, (parse parser).1 = some result → holds result

section

variable {holds : α → Prop} {parse : Production α}

theorem finds_any (parse : Production α) : Finds (fun _ => True) parse :=
  fun _ _ _ => trivial

theorem Finds.pure {result : α} (here : holds result) : Finds holds (Pure.pure result) := by
  intro parser found same
  obtain rfl := Option.some.inj same
  exact here

theorem Finds.fail : Finds holds Production.fail := by
  intro parser found same
  simp [Production.fail] at same

theorem Finds.ite {condition : Prop} [Decidable condition] {other : Production α}
    (whenTrue : condition → Finds holds parse) (whenFalse : ¬condition → Finds holds other) :
    Finds holds (if condition then parse else other) := by
  split
  · exact whenTrue ‹_›
  · exact whenFalse ‹_›

theorem Finds.bind {holdsThen : β → Prop} {onward : α → Production β} (first : Finds holds parse)
    (second : ∀ result, holds result → Finds holdsThen (onward result)) :
    Finds holdsThen (parse >>= onward) := by
  intro parser result found
  obtain ⟨early, between, read, late⟩ := bind_some (Prod.ext found rfl)
  exact second early (first parser early (by rw [read])) between result (by rw [late])

theorem Finds.of_reads {relates : α → β → Prop} {reading : Reading β}
    (reads : Reading.Reads relates parse reading)
    (carries : ∀ found seen, relates found seen → holds found) : Finds holds parse := by
  intro parser result found
  have agrees := (reads parser).result
  rw [found] at agrees
  generalize (reading (Token.lex parser.remaining)).result = seen at agrees
  cases agrees with
  | some related => exact carries _ _ related

theorem Finds.attempt (finds : Finds holds parse) : Finds holds (attempt parse) := by
  intro parser result found
  obtain ⟨inner, parsed, _⟩ := attempt_some (Prod.ext found rfl)
  exact finds parser.save result (by rw [parsed])

theorem Finds.maybe (finds : Finds holds parse) :
    Finds (fun found => ∀ result ∈ found, holds result) (maybe parse) := by
  intro parser found same result member
  obtain rfl : (parse parser).1 = found := by
    unfold Production.maybe at same
    split at same
    simp_all
  exact finds parser result member

/-- A list has no more items than there is room for. -/
theorem Finds.commaListWithin (finds : Finds holds parse) (room : Nat) :
    Finds (fun items => items.length ≤ room ∧ ∀ item ∈ items, holds item)
      (commaListWithin parse room) := by
  induction room with
  | zero => exact (finds_any _).bind fun _ _ => .fail
  | succ room ih =>
      refine finds.bind fun first here => (finds_any _).bind fun comma _ => ?_
      cases comma with
      | none => exact .pure ⟨by simp, by simpa using here⟩
      | some _ =>
          refine ih.bind fun others later => .pure ⟨?_, List.forall_mem_cons.mpr ⟨here, later.2⟩⟩
          exact Nat.succ_le_succ later.1

end

end Production

namespace ClassName

/-- A text that is read as a qualified name somewhere. -/
def IsQualified (name : Text) : Prop :=
  ∃ parser, (Production.qualifiedName parser).1 = some name

/-- Every name is a qualified name, and every argument list has at most 99 entries. -/
inductive Proper : ClassName → Prop where
  | plain {name : Text} (named : IsQualified name) : Proper (.plain name)
  | templated {name : Text} {arguments : List ClassName} (named : IsQualified name)
      (few : arguments.length ≤ 99) (proper : ∀ argument ∈ arguments, Proper argument) :
      Proper (.templated name arguments)

/-- The class name is read from its written form, and nothing is left. -/
def ReadsBack (name : ClassName) : Prop :=
  ∀ parser : Parser, parser.remaining = name.render →
    ∃ after, Production.className parser = (some name, after) ∧ after.remaining = []

theorem IsQualified.tokens {name : Text} (named : IsQualified name) :
    ∃ tokens, Reading.IsName none tokens ∧ tokens ≠ [] ∧ Token.spell tokens = name := by
  obtain ⟨parser, found⟩ := named
  have agrees := Reading.qualifiedName_reads parser
  have nonempty : name ≠ [] := by
    rintro rfl
    unfold Production.qualifiedName at found
    split at found <;> simp_all
  rcases outcome : Reading.qualifiedName (Token.lex parser.remaining) with ⟨_ | tokens, rest, ended⟩ <;>
    rw [outcome] at agrees
  · obtain ⟨after, run, _⟩ := agrees.of_none
    simp [run] at found
  · obtain ⟨text, after, run, ⟨isName, spelled⟩, _⟩ := agrees.of_some
    rw [run] at found
    obtain rfl := Option.some.inj found
    refine ⟨tokens, isName, ?_, spelled.symm⟩
    rintro rfl
    exact nonempty spelled

theorem Proper.readable {name : ClassName} (proper : name.Proper) : name.Readable := by
  induction proper with
  | plain named =>
      obtain ⟨tokens, isName, nonempty, rfl⟩ := named.tokens
      exact .plain isName nonempty
  | templated named few _ ih =>
      obtain ⟨tokens, isName, nonempty, rfl⟩ := named.tokens
      exact .templated isName nonempty few ih

theorem Proper.readsBack {name : ClassName} (proper : name.Proper) : name.ReadsBack := by
  intro parser written
  have found := Reading.foundAgain_of_readable proper.readable
  obtain ⟨ended, read⟩ := found.again [] (fun mark same => by simp at same)
  have agrees := Reading.className_reads parser
  rw [written, found.settled.lex_eq, ← List.append_nil name.tokens, read] at agrees
  obtain ⟨again, after, run, rfl, rest⟩ := agrees.of_some
  exact ⟨after, run, Token.lex_eq_nil_iff.mp rest⟩

end ClassName

namespace Production

open ClassName

theorem classNameTail_finds {name : Text} (named : IsQualified name) {argument : Production ClassName}
    (finds : Finds Proper argument) : Finds Proper (classNameTail name argument) := by
  refine (finds_any _).bind fun _ _ => .ite (fun _ => .pure (.plain named)) fun _ => ?_
  refine (finds_any _).bind fun _ _ => .ite
    (fun _ => .pure (.templated named (by simp) (by simp))) fun _ => ?_
  refine (finds.commaListWithin itemLimit).bind fun arguments found => (finds_any _).bind fun _ _ => ?_
  exact .pure (.templated named found.1 found.2)

theorem classNameWithin_finds (room : Text) : Finds Proper (classNameWithin room) := by
  have names : Finds IsQualified qualifiedName := fun parser _ found => ⟨parser, found⟩
  induction room with
  | nil => exact .fail
  | cons _ room ih => exact names.bind fun name named => classNameTail_finds named ih

theorem className_finds : Finds Proper className :=
  fun parser => classNameWithin_finds parser.remaining parser

end Production

namespace ClassName

/-- The class names that can be read at all. -/
theorem proper_iff {name : ClassName} :
    name.Proper ↔ ∃ parser, (Production.className parser).1 = some name := by
  constructor
  · intro proper
    obtain ⟨after, run, _⟩ := proper.readsBack (.ofText name.render []) rfl
    exact ⟨_, by rw [run]⟩
  · rintro ⟨parser, found⟩
    exact Production.className_finds parser name found

/-- A class name that was read from any text is read again from its written form. So is every class
name of qualified names and of argument lists with at most 99 entries, however deep it nests, and no
other such class name has the same written form: no argument list is not taken for an empty one. -/
theorem className_render (name : ClassName) :
    (∀ parser, (Production.className parser).1 = some name → name.ReadsBack) ∧
    (name.Proper → name.ReadsBack) ∧
    ∀ other : ClassName, name.Proper → other.Proper → other.render = name.render → other = name := by
  refine ⟨fun parser found => ?_, Proper.readsBack, fun other proper properOther same => ?_⟩
  · exact (proper_iff.mpr ⟨parser, found⟩).readsBack
  · -- Both are what is read from the one text.
    obtain ⟨after, run, _⟩ := proper.readsBack (.ofText name.render []) rfl
    obtain ⟨afterOther, runOther, _⟩ := properOther.readsBack (.ofText name.render []) same.symm
    rw [run] at runOther
    exact (Option.some.inj (congrArg Prod.fst runOther)).symm

/-- Names that begin or end with a mark, touching `>`, and all three ways to have arguments. -/
theorem className_render_nested :
    let inner : ClassName := .templated "c::~d".toList [.templated "~".toList [], .plain "e".toList]
    let name : ClassName := .templated "::a::".toList [.plain "b".toList, .templated "b".toList [], inner]
    name.Proper ∧ name.render = "::a::<b, b<>, c::~d<~<>, e>>".toList ∧
      (∃ after, Production.className (.ofText name.render []) = (some name, after) ∧ after.remaining = []) ∧
      (∃ found, (Production.className (.ofText ":: a /* x */ <b,b< >>".toList [])).1 = some found ∧
        found.ReadsBack) ∧
      (ClassName.templated "b".toList []).render ≠ (ClassName.plain "b".toList).render := by
  intro inner name
  have letters : IsQualified "b".toList ∧ IsQualified "e".toList ∧ IsQualified "~".toList :=
    ⟨⟨.ofText "b".toList [], by decide +kernel⟩, ⟨.ofText "e".toList [], by decide +kernel⟩,
      ⟨.ofText "~".toList [], by decide +kernel⟩⟩
  have destructor : IsQualified "c::~d".toList := ⟨.ofText "c :: ~ d".toList [], by decide +kernel⟩
  have scope : IsQualified "::a::".toList := ⟨.ofText ":: a ::".toList [], by decide +kernel⟩
  have bare : (ClassName.plain "b".toList).Proper := .plain letters.1
  have empty : (ClassName.templated "b".toList []).Proper := .templated letters.1 (by simp) (by simp)
  have nested : inner.Proper := by
    refine .templated destructor (by decide) (List.forall_mem_cons.mpr ⟨?_, ?_⟩)
    · exact .templated letters.2.2 (by simp) (by simp)
    · exact List.forall_mem_singleton.mpr (.plain letters.2.1)
  have proper : name.Proper :=
    .templated scope (by decide) (List.forall_mem_cons.mpr ⟨bare,
      List.forall_mem_cons.mpr ⟨empty, List.forall_mem_singleton.mpr nested⟩⟩)
  refine ⟨proper, by decide +kernel, (className_render name).2.1 proper _ rfl, ?_, fun same => ?_⟩
  · have isSome : (Production.className (.ofText ":: a /* x */ <b,b< >>".toList [])).1.isSome := by
      decide +kernel
    obtain ⟨found, read⟩ := Option.isSome_iff_exists.mp isSome
    exact ⟨found, read, (className_render found).1 _ read⟩
  · exact ClassName.noConfusion ((className_render (.plain "b".toList)).2.2 _ bare empty same)

end ClassName

end OutOfLine
