import OutOfLine.ClassHead
import OutOfLine.Segment.Parser

namespace OutOfLine.Production

open OutOfLine.Parser

def headSegmentLimit : Nat := 50

def atHeadEnd : Production Bool := do
  match ← peek with
  | none => fail
  | some kind => return kind = .colon || kind = .openBrace

def headSegments : (room : Nat) → Production (List Segment)
  | 0 => do
      if ← atHeadEnd then
        return []
      note .classHeadTooLong
      fail
  | room + 1 => do
      if ← atHeadEnd then
        return []
      let first ← segment
      return first :: (← headSegments room)

def eatVirtual : Production Bool := do
  let word ← maybe (eatIf fun token => token.kind = .word && token.text = "virtual".toList)
  return word.isSome

def eatVirtualUnless (seen : Bool) : Production Bool :=
  if seen then return true else eatVirtual

/-- `Base`, `public Base<int>`, `virtual protected ns::Base`. -/
def base : Production Base := do
  let early ← eatVirtual
  let access ← maybe (eat .accessKeyword)
  let isVirtual ← eatVirtualUnless early
  let className ← className
  return { access := access.map (·.text), isVirtual, className }

def bases : Production (Option (List Base)) := do
  let opener ← token
  match opener.kind with
  | .openBrace => return none
  | .colon => do
      let bases ← commaList base
      let _ ← eat .openBrace
      return some bases
  | _ => fail

/-- A class head with the brace that opens the body. -/
def classHead : Production ClassHead := do
  let _ ← eat .classKeyword
  let segments ← headSegments headSegmentLimit
  match ClassHead.ofSegments? segments with
  | none => fail
  | some head => return { head with bases := ← bases }

theorem atHeadEnd_keeps : Keeps atHeadEnd := by
  refine peek_keeps.bind fun kind => ?_
  cases kind with
  | none => exact fail_keeps
  | some _ => exact pure_keeps _

theorem headSegments_keeps (room : Nat) : Keeps (headSegments room) := by
  induction room with
  | zero =>
      exact atHeadEnd_keeps.bind fun _ => ite_keeps (pure_keeps _) <|
        (note_keeps rfl).bind fun _ => fail_keeps
  | succ room ih =>
      exact atHeadEnd_keeps.bind fun _ => ite_keeps (pure_keeps _) <|
        segment_keeps.bind fun _ => ih.bind fun _ => pure_keeps _

theorem eatVirtual_keeps : Keeps eatVirtual :=
  (eatIf_keeps _).maybe.bind fun _ => pure_keeps _

theorem eatVirtualUnless_keeps (seen : Bool) : Keeps (eatVirtualUnless seen) :=
  ite_keeps (pure_keeps _) eatVirtual_keeps

theorem base_keeps : Keeps base :=
  eatVirtual_keeps.bind fun _ => (eat_keeps _).maybe.bind fun _ =>
    (eatVirtualUnless_keeps _).bind fun _ => className_keeps.bind fun _ => pure_keeps _

theorem bases_keeps : Keeps bases := by
  refine token_keeps.bind fun opener => ?_
  split
  · exact pure_keeps _
  · exact (commaList_keeps base_keeps).bind fun _ => (eat_keeps _).bind fun _ => pure_keeps _
  · exact fail_keeps

private theorem classHead_rest_keeps (room : Nat) :
    Keeps (headSegments room >>= fun segments =>
      match ClassHead.ofSegments? segments with
      | none => fail
      | some head => do return { head with bases := ← bases }) := by
  refine (headSegments_keeps room).bind fun segments => ?_
  split
  · exact fail_keeps
  · exact bases_keeps.bind fun _ => pure_keeps _

theorem classHead_keeps : Keeps classHead :=
  (eat_keeps _).bind fun _ => classHead_rest_keeps _

theorem classHead_progresses : Progresses classHead :=
  (eat_progresses _).bind fun _ => classHead_rest_keeps _

end OutOfLine.Production
