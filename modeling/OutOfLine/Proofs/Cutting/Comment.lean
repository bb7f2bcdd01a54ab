import OutOfLine.Proofs.Lexing

/-!
Block comments. A text is read from left to right in openers `/*`, closers `*/` and single characters.
A comment ends with the first closer that leaves as many closers as openers, so it is a properly nested
comment, or it is not closed and goes on to the end of the text. A scan of the bytes of the text comes
to the same end.
-/

namespace OutOfLine

/-- The bytes of the UTF-8 form. -/
def Text.bytes (text : Text) : List UInt8 :=
  text.flatMap String.utf8EncodeChar

namespace Comment

/-- What a text inside a comment is made of. -/
inductive Piece where
  /-- `/*` -/
  | opener
  /-- `*/` -/
  | closer
  | other (c : Char)
deriving DecidableEq, Repr

def Piece.text : Piece → Text
  | .opener => ['/', '*']
  | .closer => ['*', '/']
  | .other c => [c]

def spell (pieces : List Piece) : Text :=
  pieces.flatMap Piece.text

/-- The reading from left to right. No character belongs to two pieces. -/
def pieces : Text → List Piece
  | [] => []
  | '/' :: '*' :: rest => .opener :: pieces rest
  | '*' :: '/' :: rest => .closer :: pieces rest
  | c :: rest => .other c :: pieces rest

def openers (pieces : List Piece) : Nat :=
  pieces.count .opener

def closers (pieces : List Piece) : Nat :=
  pieces.count .closer

def Balances (pieces : List Piece) : Prop :=
  openers pieces = closers pieces

/-- A mix of single characters and of properly nested comments. -/
inductive Inside : List Piece → Prop where
  | nil : Inside []
  | other (c : Char) {later : List Piece} (mixed : Inside later) : Inside (.other c :: later)
  | comment {inner later : List Piece} (nested : Inside inner) (mixed : Inside later) :
      Inside (.opener :: (inner ++ .closer :: later))

/-- An opener, a mix of that kind, and the closer that matches the opener. -/
def IsNested (pieces : List Piece) : Prop :=
  ∃ inner, Inside inner ∧ pieces = .opener :: (inner ++ [.closer])

/-- Where the scan of a comment ends that has passed so many bytes and in which `depth` openers wait. It
steps over two bytes at an opener or closer and over one byte elsewhere. There is no answer if a closer
is met when no opener waits. -/
def scanBytes? (depth passed : Nat) : List UInt8 → Option Nat
  | [] => some passed
  | [_] => some (passed + 1)
  | first :: second :: rest =>
      if first = 47 ∧ second = 42 then scanBytes? (depth + 1) (passed + 2) rest
      else if first = 42 ∧ second = 47 then
        match depth with
        | 0 => none
        | 1 => some (passed + 2)
        | depth + 2 => scanBytes? (depth + 1) (passed + 2) rest
      else scanBytes? depth (passed + 1) (second :: rest)

@[simp]
theorem spell_nil : spell [] = [] :=
  rfl

@[simp]
theorem spell_cons (piece : Piece) (pieces : List Piece) :
    spell (piece :: pieces) = piece.text ++ spell pieces :=
  rfl

@[simp]
theorem spell_append (left right : List Piece) : spell (left ++ right) = spell left ++ spell right :=
  List.flatMap_append

@[simp]
theorem openers_append (left right : List Piece) :
    openers (left ++ right) = openers left + openers right :=
  List.count_append

@[simp]
theorem closers_append (left right : List Piece) :
    closers (left ++ right) = closers left + closers right :=
  List.count_append

theorem openers_cons (piece : Piece) (pieces : List Piece) :
    openers (piece :: pieces) = openers [piece] + openers pieces :=
  openers_append [piece] pieces

theorem closers_cons (piece : Piece) (pieces : List Piece) :
    closers (piece :: pieces) = closers [piece] + closers pieces :=
  closers_append [piece] pieces

@[simp]
theorem spell_pieces (text : Text) : spell (pieces text) = text := by
  fun_induction pieces text <;> simp_all [Piece.text]

theorem pieces_other {c : Char} {rest : Text} (notOpener : ∀ tail, c = '/' → rest = '*' :: tail → False)
    (notCloser : ∀ tail, c = '*' → rest = '/' :: tail → False) :
    pieces (c :: rest) = .other c :: pieces rest := by
  rw [pieces]
  · exact notOpener
  · exact notCloser

/-- No closer is met when `depth` openers and those among the pieces are closed already. -/
def Stays (depth : Nat) (pieces : List Piece) : Prop :=
  ∀ part, part <+: pieces → closers part ≤ openers part + depth

section

variable {depth after : Nat} {piece : Piece} {body inner later : List Piece} {read text : Text}

theorem stays_nil : Stays depth [] := by
  intro part fronts
  obtain rfl := List.prefix_nil.mp fronts
  simp [closers]

theorem stays_cons_iff (step : after + closers [piece] = depth + openers [piece]) :
    Stays depth (piece :: body) ↔ Stays after body := by
  have shift (part : List Piece) : closers (piece :: part) ≤ openers (piece :: part) + depth ↔
      closers part ≤ openers part + after := by
    rw [closers_cons, openers_cons]
    omega
  constructor
  · intro stays part fronts
    exact (shift part).mp (stays (piece :: part) (List.cons_prefix_cons.mpr ⟨rfl, fronts⟩))
  · intro stays part fronts
    rcases List.prefix_cons_iff.mp fronts with rfl | ⟨part, rfl, inside⟩
    · simp [closers]
    · exact (shift part).mpr (stays part inside)

theorem not_stays_closer : ¬ Stays 0 (.closer :: body) := by
  intro stays
  have few := stays [.closer] (List.prefix_append [.closer] body)
  simp [closers, openers] at few

/-- The closer behind these pieces closes one comment more than they and `depth` others open. -/
structure Returns (depth : Nat) (inner : List Piece) : Prop where
  stays : Stays depth inner
  all : closers inner = openers inner + depth

theorem returns_cons_iff (step : after + closers [piece] = depth + openers [piece]) :
    Returns depth (piece :: inner) ↔ Returns after inner := by
  have count : closers (piece :: inner) = openers (piece :: inner) + depth ↔
      closers inner = openers inner + after := by
    rw [closers_cons, openers_cons]
    omega
  constructor
  · rintro ⟨stays, all⟩
    exact ⟨(stays_cons_iff step).mp stays, count.mp all⟩
  · rintro ⟨stays, all⟩
    exact ⟨(stays_cons_iff step).mpr stays, count.mpr all⟩

theorem returns_nil_iff : Returns depth [] ↔ depth = 0 := by
  constructor
  · rintro ⟨_, all⟩
    simpa [closers, openers] using all.symm
  · rintro rfl
    exact ⟨stays_nil, rfl⟩

theorem stays_or_returns (depth : Nat) (pieces : List Piece) :
    Stays depth pieces ∨ ∃ inner later, pieces = inner ++ .closer :: later ∧ Returns depth inner := by
  induction pieces generalizing depth with
  | nil => exact .inl stays_nil
  | cons piece rest ih =>
      have goesOn {after : Nat} (step : after + closers [piece] = depth + openers [piece]) :
          Stays depth (piece :: rest) ∨
            ∃ inner later, piece :: rest = inner ++ .closer :: later ∧ Returns depth inner := by
        rcases ih after with stays | ⟨inner, later, rfl, returns⟩
        · exact .inl ((stays_cons_iff step).mpr stays)
        · exact .inr ⟨piece :: inner, later, rfl, (returns_cons_iff step).mpr returns⟩
      cases piece with
      | opener => exact @goesOn (depth + 1) rfl
      | other c => exact @goesOn depth rfl
      | closer =>
          cases depth with
          | zero => exact .inr ⟨[], rest, rfl, returns_nil_iff.mpr rfl⟩
          | succ depth => exact @goesOn depth rfl

theorem commentBody_of_stays (stays : Stays depth (pieces text)) :
    Token.commentBody depth read text = (read.reverse ++ text, []) := by
  fun_induction Token.commentBody depth read text with
  | case1 => simp
  | case2 depth read tail ih =>
      rw [ih ((stays_cons_iff rfl).mp stays)]
      simp
  | case3 read tail => exact absurd stays not_stays_closer
  | case4 read tail depth ih =>
      rw [ih ((stays_cons_iff rfl).mp stays)]
      simp
  | case5 depth read c tail notOpener notCloser ih =>
      rw [pieces_other notOpener notCloser] at stays
      rw [ih ((stays_cons_iff rfl).mp stays)]
      simp

theorem commentBody_of_returns (split : pieces text = inner ++ .closer :: later)
    (returns : Returns depth inner) :
    Token.commentBody depth read text =
      (read.reverse ++ spell (inner ++ [.closer]), spell later) := by
  fun_induction Token.commentBody depth read text generalizing inner with
  | case1 => simp [pieces] at split
  | case2 depth read tail ih =>
      rcases List.cons_eq_append_iff.mp split with ⟨_, other⟩ | ⟨inner, rfl, inside⟩
      · simp at other
      · rw [ih inside ((returns_cons_iff rfl).mp returns)]
        simp [Piece.text]
  | case3 read tail =>
      rcases List.cons_eq_append_iff.mp split with ⟨rfl, here⟩ | ⟨inner, rfl, _⟩
      · obtain ⟨_, rfl⟩ := List.cons.inj here
        simp [Piece.text]
      · exact absurd returns.stays not_stays_closer
  | case4 read tail depth ih =>
      rcases List.cons_eq_append_iff.mp split with ⟨rfl, _⟩ | ⟨inner, rfl, inside⟩
      · simp [returns_nil_iff] at returns
      · rw [ih inside ((returns_cons_iff rfl).mp returns)]
        simp [Piece.text]
  | case5 depth read c tail notOpener notCloser ih =>
      rw [pieces_other notOpener notCloser] at split
      rcases List.cons_eq_append_iff.mp split with ⟨_, other⟩ | ⟨inner, rfl, inside⟩
      · simp at other
      · rw [ih inside ((returns_cons_iff rfl).mp returns)]
        simp [Piece.text]

theorem returns_append_iff (even : Returns 0 inner) :
    Returns depth (inner ++ later) ↔ Returns depth later := by
  have balanced := even.all
  constructor
  · rintro ⟨stays, all⟩
    refine ⟨fun part fronts => ?_, ?_⟩
    · have few := stays (inner ++ part) ((List.prefix_append_right_inj inner).mpr fronts)
      rw [closers_append, openers_append] at few
      omega
    · rw [closers_append, openers_append] at all
      omega
  · rintro ⟨stays, all⟩
    refine ⟨fun part fronts => ?_, ?_⟩
    · rcases List.prefix_or_prefix_of_prefix fronts (List.prefix_append inner later) with within | beyond
      · have few := even.stays part within
        omega
      · obtain ⟨extra, rfl⟩ := beyond
        have few := stays extra ((List.prefix_append_right_inj inner).mp fronts)
        rw [closers_append, openers_append]
        omega
    · rw [closers_append, openers_append]
      omega

theorem Returns.enclose (even : Returns 0 inner) (evenLater : Returns 0 later) :
    Returns 0 (.opener :: (inner ++ .closer :: later)) := by
  have closed : Returns 1 (.closer :: later) := (returns_cons_iff rfl).mpr evenLater
  exact (returns_cons_iff rfl).mpr ((returns_append_iff even).mpr closed)

theorem Inside.returns (inside : Inside inner) : Returns 0 inner := by
  induction inside with
  | nil => exact returns_nil_iff.mpr rfl
  | other c _ ih => exact (returns_cons_iff rfl).mpr ih
  | comment _ _ ihInner ihLater => exact ihInner.enclose ihLater

/-- Pieces that close what they open, and nothing before it is opened, are properly nested. -/
theorem inside_of_returns (returns : Returns 0 inner) : Inside inner := by
  induction size : inner.length using Nat.strongRecOn generalizing inner with
  | ind size ih =>
      cases inner with
      | nil => exact .nil
      | cons piece rest =>
          simp only [List.length_cons] at size
          cases piece with
          | closer => exact absurd returns.stays not_stays_closer
          | other c => exact .other c (ih _ (by omega) ((returns_cons_iff rfl).mp returns) rfl)
          | opener =>
              have waiting : Returns 1 rest := (returns_cons_iff rfl).mp returns
              rcases stays_or_returns 0 rest with stays | ⟨nested, later, rfl, even⟩
              · have few := stays rest (List.prefix_refl rest)
                have all := waiting.all
                omega
              · have closed := (returns_append_iff even).mp waiting
                have mixed : Returns 0 later := (returns_cons_iff rfl).mp closed
                simp only [List.length_append, List.length_cons] at size
                exact .comment (ih _ (by omega) even rfl) (ih _ (by omega) mixed rfl)

/-- What is read up to a closer is read alike whatever follows. -/
theorem pieces_append_closer (ends : pieces text = inner ++ [.closer]) (more : Text) :
    pieces (text ++ more) = inner ++ .closer :: pieces more := by
  fun_induction pieces text generalizing inner with
  | case1 => simp at ends
  | case2 tail ih =>
      rcases List.cons_eq_append_iff.mp ends with ⟨_, other⟩ | ⟨inner, rfl, inside⟩
      · simp at other
      · simp [pieces, ih inside]
  | case3 tail ih =>
      rcases List.cons_eq_append_iff.mp ends with ⟨rfl, here⟩ | ⟨inner, rfl, inside⟩
      · have empty : tail = [] := by
          rw [← spell_pieces tail, ← (List.cons.inj here).2]
          rfl
        simp [pieces, empty]
      · simp [pieces, ih inside]
  | case4 c tail notOpener notCloser ih =>
      rcases List.cons_eq_append_iff.mp ends with ⟨_, other⟩ | ⟨inner, rfl, inside⟩
      · simp at other
      · cases tail with
        | nil => simp [pieces] at inside
        | cons d tail =>
            rw [List.cons_append, pieces_other, ih inside, List.cons_append]
            · rintro after rfl same
              obtain ⟨rfl, _⟩ := List.cons.inj same
              exact notOpener tail rfl rfl
            · rintro after rfl same
              obtain ⟨rfl, _⟩ := List.cons.inj same
              exact notCloser tail rfl rfl

end

section Bytes

variable {depth passed : Nat} {c : Char} {byte : UInt8} {text : Text} {rest : List UInt8}

/-- A byte below 128 is a character of its own and no part of another one. -/
theorem toNat_of_byte (member : byte ∈ String.utf8EncodeChar c) (small : byte.toNat < 128) :
    c.toNat = byte.toNat := by
  have large (n : Nat) (high : 128 ≤ n) (low : n < 256) : byte ≠ UInt8.ofNat n := by
    rintro rfl
    rw [UInt8.toNat_ofNat'] at small
    omega
  unfold String.utf8EncodeChar at member
  simp only at member
  split at member
  · rename_i single
    obtain rfl := List.mem_singleton.mp member
    rw [UInt8.toNat_ofNat']
    exact (Nat.mod_eq_of_lt (Nat.lt_of_le_of_lt single (by decide))).symm
  · exfalso
    split at member
    · simp only [List.mem_cons, List.not_mem_nil, or_false] at member
      rcases member with same | same <;> exact large _ (by omega) (by omega) same
    split at member
    · simp only [List.mem_cons, List.not_mem_nil, or_false] at member
      rcases member with same | same | same <;> exact large _ (by omega) (by omega) same
    · simp only [List.mem_cons, List.not_mem_nil, or_false] at member
      rcases member with same | same | same | same <;> exact large _ (by omega) (by omega) same

theorem bytes_cons (c : Char) (text : Text) :
    Text.bytes (c :: text) = String.utf8EncodeChar c ++ Text.bytes text :=
  rfl

/-- A text whose first byte is that of an ASCII character begins with the character. -/
theorem begins_of_byte (first : Text.bytes text = byte :: rest) (small : byte.toNat < 128) :
    ∃ c tail, text = c :: tail ∧ c.toNat = byte.toNat := by
  cases text with
  | nil => simp [Text.bytes] at first
  | cons c tail =>
      have positive : 0 < (String.utf8EncodeChar c).length := by
        rw [String.length_utf8EncodeChar]
        exact c.utf8Size_pos
      obtain ⟨head, more, encoded⟩ := List.exists_cons_of_length_pos positive
      rw [bytes_cons, encoded, List.cons_append] at first
      obtain ⟨rfl, _⟩ := List.cons.inj first
      exact ⟨c, tail, rfl, toNat_of_byte (by rw [encoded]; exact List.mem_cons_self) small⟩

theorem scanBytes?_step (notOpener : byte = 47 → ∀ more, rest ≠ 42 :: more)
    (notCloser : byte = 42 → ∀ more, rest ≠ 47 :: more) :
    scanBytes? depth passed (byte :: rest) = scanBytes? depth (passed + 1) rest := by
  cases rest with
  | nil => rfl
  | cons second rest =>
      have first : ¬ (byte = 47 ∧ second = 42) := fun ⟨here, next⟩ => notOpener here rest (next ▸ rfl)
      have other : ¬ (byte = 42 ∧ second = 47) := fun ⟨here, next⟩ => notCloser here rest (next ▸ rfl)
      rw [scanBytes?.eq_def]
      simp only [if_neg first, if_neg other]

/-- A run of bytes of which none begins an opener or closer. -/
theorem scanBytes?_run {run : List UInt8} (plain : ∀ byte ∈ run, byte ≠ 47 ∧ byte ≠ 42) :
    scanBytes? depth passed (run ++ rest) = scanBytes? depth (passed + run.length) rest := by
  induction run generalizing passed with
  | nil => rfl
  | cons byte run ih =>
      obtain ⟨noSlash, noStar⟩ := plain byte List.mem_cons_self
      rw [List.cons_append, scanBytes?_step (absurd · noSlash) (absurd · noStar),
        ih fun other member => plain other (List.mem_cons_of_mem _ member), List.length_cons]
      congr 1
      omega

theorem scanBytes?_other (notOpener : ∀ tail, c = '/' → text = '*' :: tail → False)
    (notCloser : ∀ tail, c = '*' → text = '/' :: tail → False) :
    scanBytes? depth passed (Text.bytes (c :: text)) =
      scanBytes? depth (passed + c.utf8Size) (Text.bytes text) := by
  by_cases slash : c = '/'
  · subst slash
    refine scanBytes?_step (fun _ more begins => ?_) (absurd · (by decide))
    obtain ⟨d, tail, rfl, code⟩ := begins_of_byte begins (by decide)
    obtain rfl : d = '*' := Char.toNat_inj.mp code
    exact notOpener tail rfl rfl
  by_cases star : c = '*'
  · subst star
    refine scanBytes?_step (absurd · (by decide)) fun _ more begins => ?_
    obtain ⟨d, tail, rfl, code⟩ := begins_of_byte begins (by decide)
    obtain rfl : d = '/' := Char.toNat_inj.mp code
    exact notCloser tail rfl rfl
  · rw [bytes_cons, scanBytes?_run, String.length_utf8EncodeChar]
    refine fun byte member => ⟨?_, ?_⟩
    · rintro rfl
      exact slash (Char.toNat_inj.mp (toNat_of_byte member (by decide)))
    · rintro rfl
      exact star (Char.toNat_inj.mp (toNat_of_byte member (by decide)))

/-- The scan of the bytes comes to the end that is found character by character. -/
theorem scanBytes?_eq (depth : Nat) (read text : Text) :
    scanBytes? (depth + 1) (Text.byteSize read) (Text.bytes text) =
      some (Text.byteSize (Token.commentBody depth read text).1) := by
  have size {c : Char} (ascii : c.utf8Size = 1) (text : Text) :
      Text.byteSize (c :: text) = Text.byteSize text + 1 := by
    rw [Text.byteSize_cons, ascii, Nat.add_comm]
  fun_induction Token.commentBody depth read text with
  | case1 depth read => simp [Text.bytes, scanBytes?]
  | case2 depth read tail ih =>
      rw [size rfl, size rfl] at ih
      exact ih
  | case3 read tail =>
      rw [Text.byteSize_reverse, size rfl, size rfl]
      rfl
  | case4 read tail depth ih =>
      rw [size rfl, size rfl] at ih
      exact ih
  | case5 depth read c tail notOpener notCloser ih =>
      rw [scanBytes?_other notOpener notCloser, Nat.add_comm (Text.byteSize read),
        ← Text.byteSize_cons]
      exact ih

end Bytes

/-- Behind an opener nothing balances before the closer that closes it. -/
theorem Stays.not_balances {body part : List Piece} (stays : Stays 0 body)
    (fronts : part <+: .opener :: body) (nonempty : part ≠ []) : ¬ Balances part := by
  rcases List.prefix_cons_iff.mp fronts with rfl | ⟨tail, rfl, inside⟩
  · contradiction
  · have few := stays tail inside
    have opened : openers [.opener] = 1 := rfl
    have closed : closers [.opener] = 0 := rfl
    rw [Balances, openers_cons, closers_cons]
    omega

theorem cut?_opener (rest : Text) : Token.cut? ('/' :: '*' :: rest) =
    some (⟨.comment, '/' :: '*' :: (Token.commentBody 0 [] rest).1⟩, (Token.commentBody 0 [] rest).2) :=
  rfl

theorem cut?_of_stays {rest : Text} (stays : Stays 0 (pieces rest)) :
    Token.cut? ('/' :: '*' :: rest) = some (⟨.comment, '/' :: '*' :: rest⟩, []) := by
  rw [cut?_opener, commentBody_of_stays stays]
  rfl

theorem cut?_of_returns {rest : Text} {inner later : List Piece}
    (split : pieces rest = inner ++ .closer :: later) (returns : Returns 0 inner) :
    Token.cut? ('/' :: '*' :: rest) =
      some (⟨.comment, spell (.opener :: (inner ++ [.closer]))⟩, spell later) := by
  rw [cut?_opener, commentBody_of_returns split returns]
  rfl

theorem cut?_of_nested {comment : Text} (nested : IsNested (pieces comment)) (follow : Text) :
    Token.cut? (comment ++ follow) = some (⟨.comment, comment⟩, follow) := by
  obtain ⟨inner, inside, whole⟩ := nested
  have spelled : comment = '/' :: '*' :: spell (inner ++ [.closer]) := by
    rw [← spell_pieces comment, whole]
    rfl
  have ends : pieces (spell (inner ++ [.closer])) = inner ++ [.closer] := by
    rw [spelled] at whole
    exact (List.cons.inj whole).2
  have cut := cut?_of_returns (pieces_append_closer ends follow) inside.returns
  rw [spell_pieces] at cut
  rw [spelled]
  exact cut

/-- A block comment ends with the first closer that leaves as many closers as openers, and is properly
nested up to there, or it is the whole text if there is no such closer. It never closes what it has not
opened. The scan of its bytes never asks for a closer too many either, and ends behind the bytes of a
character. Every properly nested comment is cut off as a token, whatever follows it. -/
theorem cut?_shortest_nested (rest : Text) :
    (∃ front back, pieces ('/' :: '*' :: rest) = front ++ back ∧
      Token.cut? ('/' :: '*' :: rest) = some (⟨.comment, spell front⟩, spell back) ∧
      (Balances front ∧ IsNested front ∧
          (∀ part, part <+: front → part ≠ [] → part ≠ front → ¬ Balances part) ∨
        back = [] ∧ ∀ part, part <+: front → part ≠ [] → ¬ Balances part) ∧
      (∀ part, part <+: front → closers part ≤ openers part) ∧
      ∃ passed, scanBytes? 1 0 (Text.bytes rest) = some passed ∧
        Text.byteSize (spell front) = Text.byteSize ['/', '*'] + passed) ∧
    ∀ comment, IsNested (pieces comment) →
      ∀ follow, Token.cut? (comment ++ follow) = some (⟨.comment, comment⟩, follow) := by
  refine ⟨?_, fun comment nested follow => cut?_of_nested nested follow⟩
  have scanned := scanBytes?_eq 0 [] rest
  rcases stays_or_returns 0 (pieces rest) with stays | ⟨inner, later, split, returns⟩
  · rw [commentBody_of_stays stays] at scanned
    refine ⟨.opener :: pieces rest, [], by simp [pieces], ?_, .inr ⟨rfl, ?_⟩, ?_, _, scanned, ?_⟩
    · rw [cut?_of_stays stays, spell_cons, spell_pieces]
      rfl
    · exact fun part fronts nonempty => stays.not_balances fronts nonempty
    · have waiting : Stays 1 (pieces rest) := fun part fronts => Nat.le_succ_of_le (stays part fronts)
      have enclosed : Stays 0 (.opener :: pieces rest) := (stays_cons_iff rfl).mpr waiting
      exact enclosed
    · rw [spell_cons, spell_pieces, Text.byteSize_append]
      rfl
  · have enclosed := returns.enclose (returns_nil_iff.mpr rfl)
    have nested : IsNested (.opener :: (inner ++ [.closer])) := ⟨inner, inside_of_returns returns, rfl⟩
    have balanced : Balances (.opener :: (inner ++ [.closer])) := enclosed.all.symm
    rw [commentBody_of_returns split returns] at scanned
    refine ⟨.opener :: (inner ++ [.closer]), later, by simp [pieces, split],
      cut?_of_returns split returns, .inl ⟨balanced, nested, ?_⟩, ?_, _, scanned, ?_⟩
    · intro part fronts nonempty shorter
      rw [← List.cons_append] at fronts shorter
      have within := (List.prefix_concat_iff.mp fronts).resolve_left shorter
      exact returns.stays.not_balances within nonempty
    · exact enclosed.stays
    · rw [spell_cons, Text.byteSize_append]
      rfl

theorem cut?_shortest_nested_touching :
    IsNested (pieces "/*/**/é*/".toList) ∧
      Token.cut? "/*/**/é*/*/ x".toList = some (⟨.comment, "/*/**/é*/".toList⟩, "*/ x".toList) := by
  have nested : IsNested (pieces "/*/**/é*/".toList) :=
    ⟨[.opener, .closer, .other 'é'], .comment .nil (.other 'é' .nil), by decide⟩
  exact ⟨nested, (cut?_shortest_nested []).2 _ nested "*/ x".toList⟩

end Comment

end OutOfLine
