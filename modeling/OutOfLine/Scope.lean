import OutOfLine.ClassHead.Parser

/-!
The class whose body is open at the end of a text. A scan goes over the tokens and keeps one
level for every open brace, with the class head if the brace ended one.
-/

namespace OutOfLine

namespace Production

open OutOfLine.Parser

def scanLimit : Nat := 200000

def classHeadFrom (keyword : Token) : Production ClassHead :=
  attempt fun parser => classHead (parser.pushBack keyword.text)

theorem classHeadFrom_some_shorter {parser start after : Parser} {keyword : Token}
    {head : ClassHead} (read : parser.next = (some keyword, start))
    (opened : classHeadFrom keyword start = (some head, after)) :
    after.remaining.length < parser.remaining.length := by
  obtain ⟨inner, parsed, rfl⟩ := attempt_some opened
  have shorter := (classHead_progresses _ _ _ parsed).shorter
  have start := (next_some read).1.length_le
  rw [remaining_discard]
  exact Nat.lt_of_lt_of_le shorter start

theorem classHeadFrom_none_tokenizer {start after : Parser} {keyword : Token}
    (failed : classHeadFrom keyword start = (none, after)) :
    after.tokenizer = start.tokenizer :=
  attempt_none_tokenizer (classHead_keeps (start.save.pushBack keyword.text)).checkpoints failed

/-- Reads to the end of the text. `levels` are the open braces, the innermost first, and
`scanned` steps have been taken. -/
def scan (levels : List (Option ClassHead)) (scanned : Nat) (parser : Parser) :
    Option ClassHead × Parser :=
  match _read : parser.next with
  | (none, after) => (levels.findSome? id, after)
  | (some token, after) =>
      if scanLimit ≤ scanned then (none, after.note .scopeScanAborted)
      else
        match token.kind with
        | .classKeyword =>
            match _opened : classHeadFrom token after with
            | (some head, after) =>
                scan (some head :: levels) (scanned + 1) (after.note .classScopeOpened)
            | (none, after) => scan levels (scanned + 1) after
        | .openBrace => scan (none :: levels) (scanned + 1) after
        | .closeBrace => scan levels.tail (scanned + 1) after
        | _ => scan levels (scanned + 1) after
termination_by parser.remaining.length
decreasing_by
  · have shorter := classHeadFrom_some_shorter _read _opened
    exact shorter
  · have same := classHeadFrom_none_tokenizer _opened
    simp only [remaining, same]
    exact (next_some_advances _read).shorter
  all_goals exact (next_some_advances _read).shorter

def enclosingClass : Production ClassHead :=
  scan [] 0

theorem classHeadFrom_follows {parser start : Parser} {keyword : Token}
    (read : parser.next = (some keyword, start)) :
    Follows parser (classHeadFrom keyword start).2 := by
  have kept := classHead_keeps (start.save.pushBack keyword.text)
  rcases opened : classHeadFrom keyword start with ⟨_ | head, after⟩
  · obtain ⟨inner, parsed, rfl⟩ := attempt_none opened
    rw [parsed] at kept
    rw [restore_of_saved kept.checkpoints]
    exact (next_some_advances read).toFollows.trans ⟨rfl, List.suffix_refl _, kept.log⟩
  · -- The head starts with the keyword, so it is compared with the text from there on.
    obtain ⟨inner, parsed, rfl⟩ := attempt_some opened
    rw [parsed] at kept
    rw [discard_of_saved kept.checkpoints]
    exact (next_some read).1.trans ⟨rfl, kept.remaining, kept.log⟩

theorem scan_follows (levels : List (Option ClassHead)) (scanned : Nat) (parser : Parser) :
    Follows parser (scan levels scanned parser).2 := by
  fun_induction scan levels scanned parser with
  | case1 levels scanned parser after ended =>
      obtain ⟨rfl, _⟩ := next_none ended
      exact .refl _
  | case2 levels scanned parser token after read limit =>
      exact (next_some_advances read).toFollows.trans (follows_note rfl after)
  | case3 levels scanned parser token start read within keyword head after opened ih =>
      have head := classHeadFrom_follows read
      rw [opened] at head
      exact (head.trans (follows_note rfl after)).trans ih
  | case4 levels scanned parser token start read within keyword after failed ih =>
      have head := classHeadFrom_follows read
      rw [failed] at head
      exact head.trans ih
  | case5 levels scanned parser token after read within brace ih =>
      exact (next_some_advances read).toFollows.trans ih
  | case6 levels scanned parser token after read within brace ih =>
      exact (next_some_advances read).toFollows.trans ih
  | case7 levels scanned parser token after read within other _ _ ih =>
      exact (next_some_advances read).toFollows.trans ih

theorem enclosingClass_keeps : Keeps enclosingClass :=
  scan_follows [] 0

end Production

/-- The class whose body encloses the end of a text, and what was noted on the way. -/
def enclosingClass (before : Text) (log : Log) : Option ClassHead × Log :=
  let (head, after) := Production.enclosingClass (.ofText before log)
  (head, after.log)

end OutOfLine
