import Mathlib.Data.List.DropRight
import OutOfLine.Document

/-!
Lines and positions. A line begins behind a line feed or at the start of the document, and its text
goes up to the carriage returns and the line feed that end it. A position stands for the shortest
beginning of its line that has as many UTF-16 units as its column counts, or for all of the line.
-/

namespace OutOfLine

namespace Text

/-- How many UTF-16 units a text takes. -/
def units : Text → Nat
  | [] => 0
  | c :: rest => utf16Units c + units rest

/-- The shortest beginning of a text with so many units, or all of the text if it has fewer. -/
structure Reaches (column : Nat) (text part : Text) : Prop where
  begins : part <+: text
  enough : column ≤ units part ∨ part = text
  shortest : ∀ other, other <+: text → column ≤ units other → part <+: other

theorem utf16Units_pos (c : Char) : 0 < utf16Units c := by
  unfold utf16Units
  split <;> omega

@[simp]
theorem units_nil : units [] = 0 :=
  rfl

@[simp]
theorem units_cons (c : Char) (text : Text) : units (c :: text) = utf16Units c + units text :=
  rfl

@[simp]
theorem units_append (left right : Text) : units (left ++ right) = units left + units right := by
  induction left with
  | nil => simp
  | cons c left ih => rw [List.cons_append, units_cons, units_cons, ih, Nat.add_assoc]

theorem units_eq_zero_iff {text : Text} : units text = 0 ↔ text = [] := by
  cases text with
  | nil => simp
  | cons c text =>
      have positive := utf16Units_pos c
      simp only [units_cons, reduceCtorEq, iff_false]
      omega

theorem units_le {part text : Text} (begins : part <+: text) : units part ≤ units text := by
  obtain ⟨rest, rfl⟩ := begins
  rw [units_append]
  exact Nat.le_add_right _ _

section Reaches

variable {column later : Nat} {text part other before after : Text}

theorem Reaches.mono (reaches : Reaches column text part) (reachesLater : Reaches later text other)
    (le : column ≤ later) : part <+: other := by
  rcases reachesLater.enough with enough | rfl
  · exact reaches.shortest other reachesLater.begins (Nat.le_trans le enough)
  · exact reaches.begins

theorem Reaches.unique (reaches : Reaches column text part) (again : Reaches column text other) :
    part = other :=
  (reaches.mono again (Nat.le_refl _)).eq_of_length_le (again.mono reaches (Nat.le_refl _)).length_le

theorem reaches_zero (text : Text) : Reaches 0 text [] :=
  ⟨List.nil_prefix, .inl (Nat.zero_le _), fun _ _ _ => List.nil_prefix⟩

/-- A column behind a character or inside it stands for the end of the character. -/
theorem reaches_behind {c : Char} (more : units before < column)
    (within : column ≤ units before + utf16Units c) (after : Text) :
    Reaches column (before ++ c :: after) (before ++ [c]) := by
  have begins : before ++ [c] <+: before ++ c :: after := ⟨after, by simp⟩
  refine ⟨begins, .inl (by simpa using within), fun other begun enough => ?_⟩
  rcases List.prefix_or_prefix_of_prefix begins begun with shorter | longer
  · exact shorter
  rcases List.prefix_concat_iff.mp longer with rfl | outside
  · exact List.prefix_refl _
  · have few := units_le outside
    omega

theorem reaches_boundary (before after : Text) : Reaches (units before) (before ++ after) before := by
  rcases List.eq_nil_or_concat before with rfl | ⟨front, c, rfl⟩
  · exact reaches_zero after
  · have positive := utf16Units_pos c
    rw [List.concat_eq_append, List.append_assoc]
    exact reaches_behind (by simp; omega) (by simp) after

theorem reaches_all (few : units text ≤ column) : Reaches column text text := by
  refine ⟨List.prefix_refl _, .inr rfl, fun other begun enough => ?_⟩
  obtain ⟨rest, rfl⟩ := begun
  rw [units_append] at few
  have none : units rest = 0 := by omega
  obtain rfl := units_eq_zero_iff.mp none
  simp

/-- One more character in front costs its units. -/
theorem Reaches.cons {c : Char} (reaches : Reaches (column - utf16Units c) text part)
    (positive : 0 < column) : Reaches column (c :: text) (c :: part) := by
  refine ⟨List.cons_prefix_cons.mpr ⟨rfl, reaches.begins⟩, ?_, fun other begun enough => ?_⟩
  · rcases reaches.enough with enough | rfl
    · exact .inl (by rw [units_cons]; omega)
    · exact .inr rfl
  · cases other with
    | nil =>
        rw [units_nil] at enough
        omega
    | cons d other =>
        obtain ⟨rfl, inside⟩ := List.cons_prefix_cons.mp begun
        rw [units_cons] at enough
        exact List.cons_prefix_cons.mpr ⟨rfl, reaches.shortest other inside (by omega)⟩

end Reaches

/-- Carriage returns at the end go, and no others. -/
theorem dropEndWhile_returns (text : Text) :
    (∃ returns, text = dropEndWhile (· = '\r') text ++ List.replicate returns '\r') ∧
      (dropEndWhile (· = '\r') text).getLast? ≠ some '\r' := by
  refine ⟨⟨(text.rtakeWhile (· = '\r')).length, ?_⟩, fun last => ?_⟩
  · have returns : text.rtakeWhile (· = '\r') = List.replicate (text.rtakeWhile (· = '\r')).length '\r' := by
      refine List.eq_replicate_iff.mpr ⟨rfl, fun c member => ?_⟩
      simpa using List.mem_rtakeWhile_imp member
    rw [← returns]
    exact List.rdropWhile_append_rtakeWhile.symm
  · obtain ⟨nonempty, same⟩ := List.mem_getLast?_eq_getLast last
    exact List.rdropWhile_last_not _ _ nonempty (decide_eq_true same.symm)

theorem dropEndWhile_append_returns {text : Text} (trimmed : text.getLast? ≠ some '\r') (returns : Nat) :
    dropEndWhile (· = '\r') (text ++ List.replicate returns '\r') = text := by
  induction returns with
  | zero =>
      rw [List.replicate_zero, List.append_nil]
      refine List.rdropWhile_eq_self_iff.mpr fun nonempty last => trimmed ?_
      rw [List.getLast?_eq_getLast_of_ne_nil nonempty, of_decide_eq_true last]
  | succ returns ih =>
      rw [List.replicate_succ', ← List.append_assoc]
      exact (List.rdropWhile_concat_pos _ _ _ rfl).trans ih

/-- A text without line feeds is what remains of it with a line feed behind. -/
theorem dropEndWhile_feed {body : Text} (single : '\n' ∉ body) :
    dropEndWhile (· = '\n') (body ++ ['\n']) = body ∧ dropEndWhile (· = '\n') body = body := by
  have alone : body.rdropWhile (· = '\n') = body := by
    refine List.rdropWhile_eq_self_iff.mpr fun nonempty last => single ?_
    rw [← of_decide_eq_true last]
    exact List.getLast_mem nonempty
  exact ⟨(List.rdropWhile_concat_pos _ _ _ rfl).trans alone, alone⟩

end Text

namespace Document

open Text

/-- The line of the index starts behind the front: there are so many line feeds before it, and the
last of them stands directly before it. -/
structure StartsLine (index : Nat) (front : Text) : Prop where
  feeds : front.count '\n' = index
  starts : front = [] ∨ front.getLast? = some '\n'

/-- A line in its place: what is before it, its text, its end and what is behind it. -/
structure LineAt (document : Document) (index : Nat) (front text ending behind : Text) : Prop where
  whole : document.text = front ++ (text ++ (ending ++ behind))
  starts : StartsLine index front
  single : '\n' ∉ text
  trimmed : text.getLast? ≠ some '\r'
  ends : ∃ returns, ending = List.replicate returns '\r' ++ ['\n'] ∨
    ending = List.replicate returns '\r' ∧ behind = []

/-- The lines of a text with their ends. -/
inductive Rows : Text → List Text → Prop where
  | last {text : Text} (single : '\n' ∉ text) : Rows text [text]
  | more {body rest : Text} {rows : List Text} (single : '\n' ∉ body) (later : Rows rest rows) :
      Rows (body ++ '\n' :: rest) ((body ++ ['\n']) :: rows)

theorem splitLines_rows {current : Text} (single : '\n' ∉ current) (complete : List Text) (text : Text) :
    ∃ rows, splitLines current complete text = complete.reverse ++ rows ∧
      Rows (current.reverse ++ text) rows := by
  induction text generalizing current complete with
  | nil =>
      have single : '\n' ∉ current.reverse := by simpa using single
      exact ⟨[current.reverse], by simp [splitLines], by simpa using Rows.last single⟩
  | cons c rest ih =>
      rw [splitLines]
      by_cases feed : c = '\n'
      · subst feed
        obtain ⟨rows, split, later⟩ := ih List.not_mem_nil (('\n' :: current).reverse :: complete)
        rw [if_pos rfl, split]
        exact ⟨(current.reverse ++ ['\n']) :: rows, by simp, .more (by simpa using single) later⟩
      · obtain ⟨rows, split, later⟩ := ih (by simp [single, Ne.symm feed] : '\n' ∉ c :: current) complete
        rw [if_neg feed, split]
        exact ⟨rows, rfl, by simpa using later⟩

theorem lines_rows (document : Document) : Rows document.text document.lines := by
  obtain ⟨rows, split, rowed⟩ := splitLines_rows List.not_mem_nil [] document.text
  rwa [lines, split]

theorem Rows.length_eq {text : Text} {rows : List Text} (rowed : Rows text rows) :
    rows.length = text.count '\n' + 1 := by
  induction rowed with
  | last single => simp [List.count_eq_zero_of_not_mem single]
  | more single _ ih => simp [List.count_append, List.count_eq_zero_of_not_mem single, ih]

theorem startsLine_zero : StartsLine 0 [] :=
  ⟨rfl, .inl rfl⟩

theorem StartsLine.succ {index : Nat} {front body : Text} (starts : StartsLine index front)
    (single : '\n' ∉ body) : StartsLine (index + 1) (body ++ ['\n'] ++ front) := by
  refine ⟨?_, .inr ?_⟩
  · rw [List.count_append, List.count_append, List.count_eq_zero_of_not_mem single, starts.feeds]
    simp [Nat.add_comm]
  · rw [List.getLast?_append, List.getLast?_append]
    rcases starts.starts with none | last
    · rw [none]
      rfl
    · rw [last]
      rfl

theorem Rows.startsLine {text : Text} {rows : List Text} (rowed : Rows text rows) {index : Nat}
    (inside : index < rows.length) :
    ∃ body feed behind, rows[index]? = some (body ++ feed) ∧ '\n' ∉ body ∧
      (feed = ['\n'] ∨ feed = [] ∧ behind = []) ∧
      text = (rows.take index).flatten ++ (body ++ (feed ++ behind)) ∧
      StartsLine index (rows.take index).flatten := by
  induction rowed generalizing index with
  | @last text single =>
      obtain rfl : index = 0 := by simpa using inside
      exact ⟨text, [], [], by simp, single, .inr ⟨rfl, rfl⟩, by simp, startsLine_zero⟩
  | @more body rest rows single later ih =>
      cases index with
      | zero => exact ⟨body, ['\n'], rest, rfl, single, .inl rfl, rfl, startsLine_zero⟩
      | succ index =>
          obtain ⟨inner, feed, behind, here, singleInner, ends, whole, starts⟩ := ih (by simpa using inside)
          rw [List.take_succ_cons, List.flatten_cons]
          refine ⟨inner, feed, behind, here, singleInner, ends, ?_, starts.succ single⟩
          rw [whole]
          simp

/-- Every line that is counted has its place, and its text is the text of the line. -/
theorem lineAt_of_lt {document : Document} {index : Nat} (inside : index < document.lineCount) :
    ∃ text ending behind,
      document.LineAt index (document.lines.take index).flatten text ending behind ∧
      document.lineText? index = some text := by
  obtain ⟨body, feed, behind, here, single, ends, whole, starts⟩ := document.lines_rows.startsLine inside
  obtain ⟨⟨returns, split⟩, trimmed⟩ := dropEndWhile_returns body
  obtain ⟨fed, alone⟩ := dropEndWhile_feed single
  refine ⟨dropEndWhile (· = '\r') body, List.replicate returns '\r' ++ feed, behind, ?_, ?_⟩
  · refine ⟨?_, starts, fun member => single ?_, trimmed, returns, ?_⟩
    · rw [whole]
      nth_rewrite 1 [split]
      simp only [List.append_assoc]
    · rw [split]
      exact List.mem_append_left _ member
    · rcases ends with rfl | ⟨rfl, rfl⟩
      · exact .inl rfl
      · exact .inr ⟨List.append_nil _, rfl⟩
  · rw [lineText?, here, Option.map_some]
    rcases ends with rfl | ⟨rfl, _⟩
    · rw [fed]
    · rw [List.append_nil, alone]

/-- Of two places in a text the one with more line feeds before it comes later. -/
theorem prefix_of_feeds {document : Document} {front other : Text} (begins : front <+: document.text)
    (begun : other <+: document.text) (fewer : front.count '\n' < other.count '\n') : front <+: other := by
  rcases List.prefix_or_prefix_of_prefix begins begun with before | after
  · exact before
  · have count := after.sublist.count_le '\n'
    omega

theorem StartsLine.eq_of_prefix {index : Nat} {front other : Text} (starts : StartsLine index front)
    (startsOther : StartsLine index other) (begins : front <+: other) : front = other := by
  obtain ⟨rest, rfl⟩ := begins
  have none : rest.count '\n' = 0 := by
    have feeds := startsOther.feeds
    rw [List.count_append, starts.feeds] at feeds
    omega
  rcases List.eq_nil_or_concat rest with rfl | ⟨inner, c, rfl⟩
  · rw [List.append_nil]
  · -- The last character would be a line feed too many.
    rcases startsOther.starts with empty | last
    · simp at empty
    · simp only [List.concat_eq_append, List.getLast?_append, List.getLast?_singleton, Option.some_or,
        Option.some.injEq] at last
      simp [last] at none

section LineAt

variable {document : Document} {index : Nat} {front text ending behind : Text}

theorem LineAt.begins (lineAt : document.LineAt index front text ending behind) :
    front ++ text <+: document.text :=
  ⟨ending ++ behind, by rw [lineAt.whole, List.append_assoc]⟩

theorem LineAt.inside (lineAt : document.LineAt index front text ending behind) :
    index < document.lineCount := by
  have feeds := lineAt.begins.sublist.count_le '\n'
  rw [List.count_append, lineAt.starts.feeds] at feeds
  rw [lineCount, document.lines_rows.length_eq]
  omega

/-- The text of a line can be told from what comes behind its start. -/
theorem LineAt.text_eq (lineAt : document.LineAt index front text ending behind) :
    dropEndWhile (· = '\r') ((text ++ (ending ++ behind)).takeWhile (· ≠ '\n')) = text := by
  obtain ⟨returns, ends⟩ := lineAt.ends
  have plain : ∀ c ∈ text ++ List.replicate returns '\r', decide (c ≠ '\n') = true := by
    intro c member
    rcases List.mem_append.mp member with inText | inReturns
    · exact decide_eq_true fun feed => lineAt.single (feed ▸ inText)
    · rw [List.eq_of_mem_replicate inReturns]
      rfl
  have body : (text ++ (ending ++ behind)).takeWhile (· ≠ '\n') = text ++ List.replicate returns '\r' := by
    rcases ends with rfl | ⟨rfl, rfl⟩
    · rw [List.append_assoc, ← List.append_assoc text, List.takeWhile_append_of_pos plain]
      simp
    · rw [List.append_nil, List.takeWhile_eq_self_iff.mpr plain]
  rw [body, dropEndWhile_append_returns lineAt.trimmed]

theorem LineAt.unique {front' text' ending' behind' : Text}
    (lineAt : document.LineAt index front text ending behind)
    (again : document.LineAt index front' text' ending' behind') : front = front' ∧ text = text' := by
  have same : front = front' := by
    have begins : front <+: document.text := ⟨_, lineAt.whole.symm⟩
    have begun : front' <+: document.text := ⟨_, again.whole.symm⟩
    rcases List.prefix_or_prefix_of_prefix begins begun with before | after
    · exact lineAt.starts.eq_of_prefix again.starts before
    · exact (again.starts.eq_of_prefix lineAt.starts after).symm
  subst same
  have rest := List.append_cancel_left (lineAt.whole.symm.trans again.whole)
  exact ⟨rfl, by rw [← lineAt.text_eq, rest, again.text_eq]⟩

theorem LineAt.eq_lines (lineAt : document.LineAt index front text ending behind) :
    (document.lines.take index).flatten = front ∧ document.lineText? index = some text := by
  obtain ⟨text', ending', behind', here, line⟩ := lineAt_of_lt lineAt.inside
  obtain ⟨rfl, rfl⟩ := here.unique lineAt
  exact ⟨rfl, line⟩

theorem foldl_byteSize (total : Nat) (rows : List Text) :
    rows.foldl (fun total text => total + byteSize text) total = total + byteSize rows.flatten := by
  induction rows generalizing total with
  | nil => rfl
  | cons row rows ih =>
      rw [List.foldl_cons, ih, List.flatten_cons, byteSize_append, Nat.add_assoc]

theorem columnBytes_reaches (bytes column : Nat) (text : Text) :
    ∃ part, Reaches column text part ∧ columnBytes bytes column text = bytes + byteSize part := by
  induction text generalizing bytes column with
  | nil =>
      cases column with
      | zero => exact ⟨[], reaches_zero [], rfl⟩
      | succ column => exact ⟨[], reaches_all (by simp), rfl⟩
  | cons c rest ih =>
      cases column with
      | zero => exact ⟨[], reaches_zero (c :: rest), rfl⟩
      | succ column =>
          obtain ⟨part, reaches, counted⟩ := ih (bytes + c.utf8Size) (column + 1 - utf16Units c)
          refine ⟨c :: part, reaches.cons (Nat.succ_pos column), ?_⟩
          rw [columnBytes, counted, byteSize_cons, Nat.add_assoc]

theorem LineAt.offset?_eq (lineAt : document.LineAt index front text ending behind) {column : Nat}
    {part : Text} (reaches : Reaches column text part) :
    document.offset? ⟨index, column⟩ = some (byteSize front + byteSize part) := by
  obtain ⟨before, line⟩ := lineAt.eq_lines
  obtain ⟨found, foundReaches, counted⟩ := columnBytes_reaches (byteSize front) column text
  obtain rfl := reaches.unique foundReaches
  simp only [offset?, line, Option.bind_eq_bind, Option.bind_some, foldl_byteSize, before, Nat.zero_add,
    counted]
  rfl

theorem LineAt.reaches (lineAt : document.LineAt index front text ending behind) (column : Nat) :
    ∃ part, Reaches column text part ∧ front ++ part <+: document.text ∧
      document.offset? ⟨index, column⟩ = some (byteSize front + byteSize part) := by
  obtain ⟨part, reaches, _⟩ := columnBytes_reaches 0 column text
  have begins := (List.prefix_append_right_inj front).mpr reaches.begins
  exact ⟨part, reaches, begins.trans lineAt.begins, lineAt.offset?_eq reaches⟩

end LineAt

theorem offset?_eq_none_iff {document : Document} {position : Position} :
    document.offset? position = none ↔ document.lineCount ≤ position.line := by
  constructor
  · intro missing
    by_contra inside
    obtain ⟨text, ending, behind, lineAt, _⟩ := lineAt_of_lt (Nat.lt_of_not_le inside)
    obtain ⟨part, _, _, found⟩ := lineAt.reaches position.column
    simp [found] at missing
  · intro outside
    have missing : document.lines[position.line]? = none := List.getElem?_eq_none outside
    simp [offset?, lineText?, missing]

/-- There is one line more than there are line feeds, and the positions on lines that there are have
offsets. The offset of a position is that of the start of its line and the bytes of the shortest
beginning of the text of the line that has as many units as the column counts, or of all of that text.
It is thus the boundary of a character. Inside a surrogate pair it is the end of the pair, behind the
text of the line it is the place before the end of the line, and every boundary of a character in the
text of the line is the offset of the position that counts the units before it. -/
theorem offset?_counts_units (document : Document) (line : Nat) :
    document.lineCount = 1 + document.text.count '\n' ∧
    (∀ column, document.offset? ⟨line, column⟩ = none ↔ document.lineCount ≤ line) ∧
    (line < document.lineCount → ∃ front text ending behind, document.LineAt line front text ending behind) ∧
    ∀ front text ending behind, document.LineAt line front text ending behind →
      document.lineText? line = some text ∧
      (∀ column, ∃ part, Reaches column text part ∧ front ++ part <+: document.text ∧
        document.offset? ⟨line, column⟩ = some (byteSize front + byteSize part)) ∧
      (∀ before c after, text = before ++ c :: after → utf16Units c = 2 →
        document.offset? ⟨line, units before + 1⟩ = some (byteSize front + byteSize (before ++ [c]))) ∧
      (∀ column, units text ≤ column →
        document.offset? ⟨line, column⟩ = some (byteSize front + byteSize text)) ∧
      ∀ before after, text = before ++ after →
        document.offset? ⟨line, units before⟩ = some (byteSize front + byteSize before) := by
  refine ⟨?_, fun column => offset?_eq_none_iff, fun inside => ?_, fun front text ending behind lineAt => ?_⟩
  · rw [lineCount, document.lines_rows.length_eq, Nat.add_comm]
  · obtain ⟨text, ending, behind, lineAt, _⟩ := lineAt_of_lt inside
    exact ⟨_, text, ending, behind, lineAt⟩
  · refine ⟨lineAt.eq_lines.2, lineAt.reaches, ?_, fun column few => lineAt.offset?_eq (reaches_all few), ?_⟩
    · rintro before c after rfl pair
      exact lineAt.offset?_eq (reaches_behind (by omega) (by omega) after)
    · rintro before after rfl
      exact lineAt.offset?_eq (reaches_boundary before after)

/-- A line with a character of two units and two carriage returns before its line feed. -/
theorem offset?_counts_units_pair :
    let document : Document := ⟨"é\r\nb𝄞c\r\r\nd".toList⟩
    document.LineAt 1 "é\r\n".toList "b𝄞c".toList "\r\r\n".toList "d".toList ∧
      document.lineCount = 3 ∧ document.offset? ⟨3, 0⟩ = none ∧
      (∃ front text ending behind, document.LineAt 2 front text ending behind) ∧
      (∃ part, Reaches 2 "b𝄞c".toList part ∧ document.offset? ⟨1, 2⟩ = some (4 + byteSize part)) ∧
      document.offset? ⟨1, 2⟩ = some 9 ∧ document.offset? ⟨1, 7⟩ = some 10 ∧
      document.offset? ⟨1, 3⟩ = some 9 := by
  intro document
  have lineAt : document.LineAt 1 "é\r\n".toList "b𝄞c".toList "\r\r\n".toList "d".toList :=
    ⟨by decide, ⟨by decide, by decide⟩, by decide, by decide, 2, .inl (by decide)⟩
  obtain ⟨_, _, _, here⟩ := offset?_counts_units document 1
  obtain ⟨_, every, inside, beyond, boundary⟩ := here _ _ _ _ lineAt
  obtain ⟨count, _, exist, _⟩ := offset?_counts_units document 2
  obtain ⟨part, reaches, _, offset⟩ := every 2
  refine ⟨lineAt, count, ?_, exist (by decide), ⟨part, reaches, offset⟩, ?_, ?_, ?_⟩
  · exact ((offset?_counts_units document 3).2.1 0).mpr (by decide)
  · exact inside ['b'] '𝄞' ['c'] rfl rfl
  · exact beyond 7 (by decide)
  · exact boundary ['b', '𝄞'] ['c'] rfl

end Document

end OutOfLine
