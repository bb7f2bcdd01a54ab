import Mathlib.Data.List.TakeDrop
import OutOfLine.ClassHead.Parser
import OutOfLine.Proofs.Reading.Segment

namespace OutOfLine.Reading

open OutOfLine.Parser

variable {α β : Type}

def classNameTail (name : Text) (argument : Reading ClassName) : Reading ClassName := do
  if (← maybe (eat .less)).isNone then
    return .plain name
  if (← maybe (eat .greater)).isSome then
    return .templated name []
  let arguments ← commaList argument
  let _ ← eat .greater
  return .templated name arguments

def classNameWithin : (room : Nat) → Reading ClassName
  | 0 => fail
  | room + 1 => do
      let name ← qualifiedName
      classNameTail (Token.spell name) (classNameWithin room)

def className : Reading ClassName :=
  fun tokens => classNameWithin (tokens.length + 1) tokens

def atHeadEnd : Reading Bool := do
  match ← peek with
  | none => fail
  | some kind => return kind = .colon || kind = .openBrace

def headSegments : (room : Nat) → Reading (List Phrase)
  | 0 => do
      if ← atHeadEnd then
        return []
      fail
  | room + 1 => do
      if ← atHeadEnd then
        return []
      let first ← segment
      return first :: (← headSegments room)

def eatVirtual : Reading Bool := do
  let word ← maybe (eatIf fun token => token.kind = .word && token.text = "virtual".toList)
  return word.isSome

def eatVirtualUnless (seen : Bool) : Reading Bool :=
  if seen then return true else eatVirtual

def base : Reading Base := do
  let early ← eatVirtual
  let access ← maybe (eat .accessKeyword)
  let isVirtual ← eatVirtualUnless early
  let className ← className
  return { access := access.map (·.text), isVirtual, className }

def bases : Reading (Option (List Base)) := do
  let opener ← token
  match opener.kind with
  | .openBrace => return none
  | .colon => do
      let bases ← commaList base
      let _ ← eat .openBrace
      return some bases
  | _ => fail

def classHead : Reading ClassHead := do
  let _ ← eat .classKeyword
  let phrases ← headSegments Production.headSegmentLimit
  match ClassHead.ofSegments? (phrases.map Phrase.segment) with
  | none => fail
  | some head => return { head with bases := ← bases }

theorem classNameTail_steady (name : Text) {argument : Reading ClassName}
    (steady : Steady argument) : Steady (classNameTail name argument) :=
  (eat_steady _).maybe.bind fun _ => .ite (.pure _) <|
    (eat_steady _).maybe.bind fun _ => .ite (.pure _) <|
      (commaList_steady steady).bind fun _ => (eat_steady _).bind fun _ => .pure _

theorem classNameWithin_steady (room : Nat) : Steady (classNameWithin room) := by
  induction room with
  | zero => exact .fail
  | succ room ih => exact qualifiedName_steady.bind fun name => classNameTail_steady _ ih

theorem bind_congr {reading other : Reading α} {later laterOther : α → Reading β}
    {tokens : List Token} (first : reading tokens = other tokens)
    (second : ∀ result, (reading tokens).result = some result →
      later result (reading tokens).rest = laterOther result (reading tokens).rest) :
    (reading >>= later) tokens = (other >>= laterOther) tokens := by
  rcases read : reading tokens with ⟨_ | result, rest, reachedEnd⟩
  · rw [bind_of_none read, bind_of_none (first ▸ read)]
  · have same := second result (by rw [read])
    rw [read] at same
    rw [bind_of_some read, bind_of_some (first ▸ read), same]

theorem commaListWithin_congr {item other : Reading α} {limit : Nat} (steady : Steady item)
    (same : ∀ tokens, tokens.length < limit → item tokens = other tokens) (room : Nat)
    {tokens : List Token} (short : tokens.length < limit) :
    commaListWithin item room tokens = commaListWithin other room tokens := by
  induction room generalizing tokens with
  | zero => rfl
  | succ room ih =>
      refine bind_congr (same tokens short) fun first found => bind_congr rfl fun comma seen => ?_
      cases comma with
      | none => rfl
      | some _ =>
          refine bind_congr (ih ?_) fun _ _ => rfl
          have left := steady.length_le tokens
          have leftAgain := (eat_steady .comma).maybe.length_le (item tokens).rest
          omega

theorem maybe_eat_shorter {kind : Token.Kind} {tokens : List Token} {found : Token}
    (eaten : (maybe (eat kind) tokens).result = some (some found)) :
    (maybe (eat kind) tokens).rest.length < tokens.length :=
  eatIf_shortens _ tokens found (Option.some.inj eaten)

theorem classNameTail_congr {name : Text} {argument other : Reading ClassName} (steady : Steady argument)
    {tokens : List Token}
    (same : ∀ fewer, fewer.length < tokens.length → argument fewer = other fewer) :
    classNameTail name argument tokens = classNameTail name other tokens := by
  refine bind_congr rfl fun less eaten => ?_
  cases less with
  | none => rfl
  | some mark =>
      have shorter := maybe_eat_shorter eaten
      refine bind_congr rfl fun greater seen => ?_
      cases greater with
      | some _ => rfl
      | none =>
          refine bind_congr (commaListWithin_congr steady same _ ?_) fun _ _ => rfl
          exact Nat.lt_of_le_of_lt ((eat_steady .greater).maybe.length_le _) shorter

/-- Any room is enough that is not shorter than the tokens. -/
theorem classNameWithin_agree {room other : Nat} {tokens : List Token} (some : 0 < room)
    (someOther : 0 < other) (enough : tokens.length ≤ room) (enoughOther : tokens.length ≤ other) :
    classNameWithin room tokens = classNameWithin other tokens := by
  induction room generalizing other tokens with
  | zero => contradiction
  | succ room ih =>
      cases other with
      | zero => contradiction
      | succ other =>
          refine bind_congr rfl fun name named => classNameTail_congr (classNameWithin_steady room) ?_
          intro fewer short
          have shorter := qualifiedName_shortens tokens name named
          exact ih (by omega) (by omega) (by omega) (by omega)

theorem classNameWithin_eq {room : Nat} {tokens : List Token} (enough : tokens.length < room) :
    classNameWithin room tokens = className tokens :=
  classNameWithin_agree (by omega) (by omega) (by omega) (by omega)

theorem className_steady : Steady className := by
  refine ⟨fun tokens => (classNameWithin_steady _).suffix tokens, fun tokens more ended => ?_⟩
  have room : classNameWithin ((tokens ++ more).length + 1) tokens = className tokens :=
    classNameWithin_eq (by simp only [List.length_append]; omega)
  have extended := (classNameWithin_steady ((tokens ++ more).length + 1)).append tokens more
  rw [room] at extended
  exact extended ended

theorem atHeadEnd_steady : Steady atHeadEnd := by
  refine peek_steady.bind fun kind => ?_
  cases kind with
  | none => exact .fail
  | some _ => exact .pure _

theorem headSegments_steady (room : Nat) : Steady (headSegments room) := by
  induction room with
  | zero => exact atHeadEnd_steady.bind fun _ => .ite (.pure _) .fail
  | succ room ih =>
      exact atHeadEnd_steady.bind fun _ => .ite (.pure _) <|
        segment_steady.bind fun _ => ih.bind fun _ => .pure _

theorem eatVirtual_steady : Steady eatVirtual :=
  (eatIf_steady _).maybe.bind fun _ => .pure _

theorem base_steady : Steady base :=
  eatVirtual_steady.bind fun _ => (eat_steady _).maybe.bind fun _ =>
    (Steady.ite (.pure _) eatVirtual_steady).bind fun _ => className_steady.bind fun _ => .pure _

theorem bases_steady : Steady bases := by
  refine token_steady.bind fun opener => ?_
  split
  · exact .pure _
  · exact (commaList_steady base_steady).bind fun _ => (eat_steady _).bind fun _ => .pure _
  · exact .fail

private theorem classHead_rest_steady (room : Nat) :
    Steady (headSegments room >>= fun phrases =>
      match ClassHead.ofSegments? (phrases.map Phrase.segment) with
      | none => fail
      | some head => do return { head with bases := ← bases }) := by
  refine (headSegments_steady room).bind fun phrases => ?_
  split
  · exact .fail
  · exact bases_steady.bind fun _ => .pure _

theorem classHead_steady : Steady classHead :=
  (eat_steady _).bind fun _ => classHead_rest_steady _

theorem classHead_shortens : Shortens classHead :=
  (eatIf_shortens _).bind fun _ => classHead_rest_steady _

theorem classNameTail_reads (name : Text) {argument : Production ClassName}
    {reading : Reading ClassName} (reads : Reads Eq argument reading) :
    Reads Eq (Production.classNameTail name argument) (classNameTail name reading) :=
  (eat_reads _).maybeSame.andThen fun _ => .ite (.pure rfl) <|
    (eat_reads _).maybeSame.andThen fun _ => .ite (.pure rfl) <|
      (commaList_readsSame reads).andThen fun _ => (eat_reads _).andThen fun _ => .pure rfl

theorem classNameWithin_reads (room : Text) :
    Reads Eq (Production.classNameWithin room) (classNameWithin room.length) := by
  induction room with
  | nil => exact .fail
  | cons _ room ih =>
      refine qualifiedName_reads.bind fun text name named => ?_
      obtain ⟨_, rfl⟩ := named
      exact classNameTail_reads _ ih

theorem className_reads : Reads Eq Production.className className := by
  intro parser
  have within := classNameWithin_reads parser.remaining parser
  cases text : parser.remaining with
  | nil =>
      have empty : className [] = ⟨none, [], true⟩ := rfl
      rw [Token.lex_nil, empty]
      unfold Production.className
      rw [text]
      exact ⟨.none, by simp [Production.classNameWithin, Production.fail, text]⟩
  | cons c rest =>
      have room : classNameWithin parser.remaining.length (Token.lex parser.remaining) =
          className (Token.lex parser.remaining) :=
        classNameWithin_agree (by rw [text]; simp) (by omega) (Token.length_lex_le _) (by omega)
      rw [room] at within
      rw [← text]
      exact within

theorem atHeadEnd_reads : Reads Eq Production.atHeadEnd atHeadEnd := by
  refine peek_reads.andThen fun kind => ?_
  cases kind with
  | none => exact .fail
  | some _ => exact .pure rfl

theorem headSegments_reads (room : Nat) :
    Reads (List.Forall₂ Phrase.Spells) (Production.headSegments room) (headSegments room) := by
  induction room with
  | zero => exact atHeadEnd_reads.andThen fun _ => .ite (.pure .nil) (Reads.fail.noted _)
  | succ room ih =>
      exact atHeadEnd_reads.andThen fun _ => .ite (.pure .nil) <|
        segment_reads.bind fun _ _ first => ih.bind fun _ _ others => .pure (.cons first others)

theorem eatVirtual_reads : Reads Eq Production.eatVirtual eatVirtual :=
  ((eatIf_reads _).imp fun _ _ related => related.1).maybeSame.andThen fun _ => .pure rfl

theorem base_reads : Reads Eq Production.base base :=
  eatVirtual_reads.andThen fun _ => (eat_reads _).maybeSame.andThen fun _ =>
    (Reads.ite (.pure rfl) eatVirtual_reads).andThen fun _ => className_reads.andThen fun _ =>
      .pure rfl

theorem bases_reads : Reads Eq Production.bases bases := by
  refine (token_reads.imp fun _ _ related => related.1).andThen fun opener => ?_
  cases opener.kind with
  | openBrace => exact .pure rfl
  | colon =>
      exact (commaList_readsSame base_reads).andThen fun _ => (eat_reads _).andThen fun _ => .pure rfl
  | _ => exact .fail

theorem name_of_ofSegments? {segments : List Segment} {head : ClassHead}
    (found : ClassHead.ofSegments? segments = some head) :
    ∃ segment ∈ segments, segment.kind = .plain ∧ head.name = segment.text := by
  unfold ClassHead.ofSegments? at found
  rw [List.span_eq_takeWhile_dropWhile] at found
  split at found
  · simp at found
  · rename_i trailing name leading split
    simp only [Prod.mk.injEq] at split
    simp only [Option.some.injEq] at found
    subst found
    have member : name ∈ segments.reverse :=
      (List.dropWhile_suffix _).subset (split.2 ▸ List.mem_cons_self)
    have isName : ClassHead.isName name := by
      have fails := List.head?_dropWhile_not (fun segment => !ClassHead.isName segment) segments.reverse
      rw [split.2] at fails
      simpa using fails
    exact ⟨name, by simpa using member, by simp_all [ClassHead.isName], rfl⟩

/-- The head that is found, and tokens that its name keeps. -/
theorem classHead_reads :
    Reads (fun head seen => head = seen ∧ ∃ tokens, Token.Settled head.name tokens)
      Production.classHead classHead := by
  refine (eat_reads _).andThen fun _ => (headSegments_reads _).bind fun segments phrases spelled => ?_
  rw [← Phrase.segments_eq spelled]
  cases found : ClassHead.ofSegments? segments with
  | none => exact .fail
  | some head =>
      refine bases_reads.andThen fun bases => .pure ⟨rfl, ?_⟩
      obtain ⟨segment, member, _, name⟩ := name_of_ofSegments? found
      obtain ⟨phrase, _, spells⟩ := related_of_mem spelled member
      exact ⟨phrase.tokens, name ▸ spells.settled⟩

end OutOfLine.Reading
