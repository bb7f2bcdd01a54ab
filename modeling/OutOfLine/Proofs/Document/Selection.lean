import OutOfLine.Proofs.Document

namespace OutOfLine

namespace Position

/-- Earlier lines come first, and on one line smaller columns. -/
def Before (position other : Position) : Prop :=
  position.line < other.line ∨ position.line = other.line ∧ position.column < other.column

theorem precedes_iff {position other : Position} :
    position.precedes other = true ↔ position.Before other := by
  simp [precedes, Before]

theorem Before.asymm {position other : Position} (before : position.Before other) :
    ¬ other.Before position := by
  unfold Before at before ⊢
  omega

theorem before_or_before {position other : Position} (different : position ≠ other) :
    position.Before other ∨ other.Before position := by
  obtain ⟨line, column⟩ := position
  obtain ⟨otherLine, otherColumn⟩ := other
  simp only [ne_eq, Position.mk.injEq] at different
  simp only [Before]
  omega

end Position

namespace Selection

/-- A selection between two places has the same start and end, whichever of them the cursor is at. -/
theorem ends_eq {first second : Position} (before : first.Before second) :
    (Selection.mk first second).start = first ∧ (Selection.mk first second).stop = second ∧
      (Selection.mk second first).start = first ∧ (Selection.mk second first).stop = second := by
  have reversed : first.precedes second = true := Position.precedes_iff.mpr before
  have straight : second.precedes first = false := by
    rw [← Bool.not_eq_true, Position.precedes_iff]
    exact before.asymm
  simp [start, stop, isReversed, reversed, straight]

end Selection

namespace Document

open Text

variable {document : Document} {first second position : Position} {before between behind : Text}

/-- All of the document up to the position. -/
structure Marks (document : Document) (position : Position) (before : Text) : Prop where
  begins : before <+: document.text
  offset : document.offset? position = some (byteSize before)

section LineAt

variable {index later : Nat} {front text ending front' text' ending' behind' : Text}

theorem LineAt.marks (lineAt : document.LineAt index front text ending behind) {column : Nat} {part : Text}
    (reaches : Reaches column text part) : document.Marks ⟨index, column⟩ (front ++ part) := by
  have inLine := (List.prefix_append_right_inj front).mpr reaches.begins
  exact ⟨inLine.trans lineAt.begins, by rw [lineAt.offset?_eq reaches, byteSize_append]⟩

theorem LineAt.marks_same_line (lineAt : document.LineAt index front text ending behind)
    {column further : Nat} (le : column ≤ further) :
    ∃ before between, document.Marks ⟨index, column⟩ before ∧
      document.Marks ⟨index, further⟩ (before ++ between) := by
  obtain ⟨part, reaches, _⟩ := lineAt.reaches column
  obtain ⟨longer, reachesLonger, _⟩ := lineAt.reaches further
  obtain ⟨between, rfl⟩ := reaches.mono reachesLonger le
  have marks := lineAt.marks reachesLonger
  rw [← List.append_assoc] at marks
  exact ⟨front ++ part, between, lineAt.marks reaches, marks⟩

theorem LineAt.marks_later_line (lineAt : document.LineAt index front text ending behind)
    (lineAtLater : document.LineAt later front' text' ending' behind') (lt : index < later)
    (column other : Nat) :
    ∃ before between, document.Marks ⟨index, column⟩ before ∧
      document.Marks ⟨later, other⟩ (before ++ between) := by
  obtain ⟨part, reaches, _⟩ := lineAt.reaches column
  obtain ⟨part', reaches', _⟩ := lineAtLater.reaches other
  -- All of the first line is before the line feed that the second line starts behind.
  have inLine := (List.prefix_append_right_inj front).mpr reaches.begins
  have past : front ++ text <+: front' := by
    refine prefix_of_feeds lineAt.begins ⟨_, lineAtLater.whole.symm⟩ ?_
    rw [List.count_append, lineAt.starts.feeds, lineAtLater.starts.feeds,
      List.count_eq_zero_of_not_mem lineAt.single]
    exact lt
  obtain ⟨between, split⟩ := (inLine.trans past).trans (List.prefix_append front' part')
  exact ⟨front ++ part, between, lineAt.marks reaches, split ▸ lineAtLater.marks reaches'⟩

end LineAt

/-- The text up to the earlier of two positions is a beginning of the text up to the later one. -/
theorem marks_of_before (ordered : first.Before second) (inside : second.line < document.lineCount) :
    ∃ before between, document.Marks first before ∧ document.Marks second (before ++ between) := by
  obtain ⟨text, ending, behind, lineAt, _⟩ := lineAt_of_lt inside
  rcases ordered with earlier | ⟨same, columns⟩
  · obtain ⟨text', ending', behind', lineAtFirst, _⟩ := lineAt_of_lt (Nat.lt_trans earlier inside)
    exact lineAtFirst.marks_later_line lineAt earlier first.column second.column
  · obtain ⟨before, between, marks, marksEnd⟩ := lineAt.marks_same_line (Nat.le_of_lt columns)
    rw [← same] at marks
    exact ⟨before, between, marks, marksEnd⟩

theorem slice?_between (before between behind : Text) :
    slice? (byteSize before) (byteSize (before ++ between)) (before ++ between ++ behind) = some between := by
  have stop := splitAtByte?_append (before ++ between) behind
  have start := splitAtByte?_append before between
  simp only [slice?, stop, start, Option.bind_eq_bind, Option.bind_some]
  rfl

theorem Marks.textBefore?_eq (marks : document.Marks position before) :
    document.textBefore? position = some before := by
  obtain ⟨⟨behind, split⟩, offset⟩ := marks
  have front := slice?_between [] before behind
  simp only [textBefore?, offset, ← split, Option.bind_eq_bind, Option.bind_some]
  exact front

theorem Marks.selected?_eq (ordered : first.Before second) (marks : document.Marks first before)
    (marksEnd : document.Marks second (before ++ between)) :
    document.selected? ⟨first, second⟩ = some between ∧ document.selected? ⟨second, first⟩ = some between := by
  obtain ⟨⟨behind, split⟩, stop⟩ := marksEnd
  have cut := slice?_between before between behind
  rw [split] at cut
  have different : first ≠ second := by
    rintro rfl
    exact ordered.asymm ordered
  obtain ⟨start, ends, startReversed, endsReversed⟩ := Selection.ends_eq ordered
  simp only [selected?, Selection.isEmpty, different, different.symm, decide_false, Bool.false_eq_true,
    if_false, start, ends, startReversed, endsReversed, marks.offset, stop, Option.bind_eq_bind,
    Option.bind_some, cut, and_self]

theorem context?_eq {selection : Selection} {selected : Text}
    (cut : document.selected? selection = some selected) (marks : document.Marks selection.active before) :
    document.context? selection = some ⟨selected, before⟩ := by
  simp only [context?, cut, marks.textBefore?_eq, Option.bind_eq_bind, Option.bind_some]
  rfl

/-- A selection on a line that there is not. -/
theorem selected?_none {selection : Selection} (different : selection.anchor ≠ selection.active)
    (outside : document.lineCount ≤ selection.anchor.line ∨ document.lineCount ≤ selection.active.line) :
    document.selected? selection = none ∧ document.context? selection = none := by
  have missing : document.offset? selection.start = none ∨ document.offset? selection.stop = none := by
    rw [offset?_eq_none_iff, offset?_eq_none_iff]
    unfold Selection.start Selection.stop
    split
    · exact outside.symm
    · exact outside
  have none : document.selected? selection = none := by
    rw [selected?, Selection.isEmpty, if_neg (by simpa using different)]
    rcases missing with missing | missing
    · simp [missing]
    · simp [missing, Option.bind_eq_bind, Option.bind_none]
  exact ⟨none, by simp [context?, none]⟩

/-- Of two positions on lines that there are, the earlier one has the smaller offset, whatever the
columns. Both are boundaries of characters of the document, and a selection between them is exactly the
text between, from whichever end it was made. Nothing is selected, and there is no context, just where an
end of the selection is on a line that there is not. -/
theorem selected?_cuts (document : Document) :
    (∀ first second : Position, first.Before second → second.line < document.lineCount →
      ∃ before between behind, document.text = before ++ between ++ behind ∧
        document.offset? first = some (byteSize before) ∧
        document.offset? second = some (byteSize (before ++ between)) ∧
        byteSize before ≤ byteSize (before ++ between) ∧
        byteSize (before ++ between) ≤ byteSize document.text ∧
        document.textBefore? first = some before ∧
        document.textBefore? second = some (before ++ between) ∧
        document.selected? ⟨first, second⟩ = some between ∧
        document.selected? ⟨second, first⟩ = some between) ∧
    ∀ selection : Selection, selection.anchor ≠ selection.active →
      (document.selected? selection = none ↔
        document.lineCount ≤ selection.anchor.line ∨ document.lineCount ≤ selection.active.line) ∧
      (document.context? selection = none ↔
        document.lineCount ≤ selection.anchor.line ∨ document.lineCount ≤ selection.active.line) := by
  constructor
  · intro first second ordered inside
    obtain ⟨before, between, marks, marksEnd⟩ := marks_of_before ordered inside
    obtain ⟨selected, selectedReversed⟩ := marks.selected?_eq ordered marksEnd
    obtain ⟨behind, split⟩ := marksEnd.begins
    refine ⟨before, between, behind, split.symm, marks.offset, marksEnd.offset, ?_, ?_,
      marks.textBefore?_eq, marksEnd.textBefore?_eq, selected, selectedReversed⟩
    · rw [byteSize_append]
      exact Nat.le_add_right _ _
    · rw [← split, byteSize_append _ behind]
      exact Nat.le_add_right _ _
  · intro selection different
    by_cases outside : document.lineCount ≤ selection.anchor.line ∨ document.lineCount ≤ selection.active.line
    · obtain ⟨unselected, uncontexted⟩ := selected?_none different outside
      simp [unselected, uncontexted, outside]
    · obtain ⟨anchor, active⟩ := selection
      obtain ⟨insideAnchor, insideActive⟩ : anchor.line < document.lineCount ∧
          active.line < document.lineCount := by simpa using outside
      rcases Position.before_or_before different with ordered | ordered
      · obtain ⟨before, between, marks, marksEnd⟩ := marks_of_before ordered insideActive
        have cut := (marks.selected?_eq ordered marksEnd).1
        simp [cut, context?_eq cut marksEnd, insideAnchor, insideActive]
      · obtain ⟨before, between, marks, marksEnd⟩ := marks_of_before ordered insideAnchor
        have cut := (marks.selected?_eq ordered marksEnd).2
        simp [cut, context?_eq cut marks, insideAnchor, insideActive]

/-- From behind the end of one line to inside a surrogate pair on the next. -/
theorem selected?_cuts_pair :
    let document : Document := ⟨"ab\r\n𝄞c\r\nd".toList⟩
    (∃ before between behind, document.text = before ++ between ++ behind ∧
      document.offset? ⟨0, 9⟩ = some (byteSize before) ∧
      document.offset? ⟨1, 1⟩ = some (byteSize (before ++ between)) ∧
      before = "ab".toList ∧ between = "\r\n𝄞".toList ∧
      document.selected? ⟨⟨0, 9⟩, ⟨1, 1⟩⟩ = some between ∧
      document.selected? ⟨⟨1, 1⟩, ⟨0, 9⟩⟩ = some between) ∧
    document.selected? ⟨⟨0, 1⟩, ⟨3, 0⟩⟩ = none ∧ document.context? ⟨⟨3, 0⟩, ⟨0, 1⟩⟩ = none := by
  intro document
  obtain ⟨between, none⟩ := selected?_cuts document
  refine ⟨?_, ?_, ?_⟩
  · obtain ⟨before, between, behind, split, start, stop, _, _, text, _, selected, reversed⟩ :=
      between ⟨0, 9⟩ ⟨1, 1⟩ (.inl (by decide)) (by decide)
    have first : before = "ab".toList := by
      have front : document.textBefore? ⟨0, 9⟩ = some "ab".toList := by decide
      exact Option.some.inj (text.symm.trans front)
    have second : between = "\r\n𝄞".toList := by
      have inside : document.selected? ⟨⟨0, 9⟩, ⟨1, 1⟩⟩ = some "\r\n𝄞".toList := by decide
      exact Option.some.inj (selected.symm.trans inside)
    exact ⟨before, between, behind, split, start, stop, first, second, selected, reversed⟩
  · exact (none ⟨⟨0, 1⟩, ⟨3, 0⟩⟩ (by decide)).1.mpr (.inr (by decide))
  · exact (none ⟨⟨3, 0⟩, ⟨0, 1⟩⟩ (by decide)).2.mpr (.inl (by decide))

end Document

end OutOfLine
