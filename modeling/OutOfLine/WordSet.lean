import OutOfLine.Text

/-!
Finite sets of words, kept in the order of their code points so that equal sets are equal values.
-/

namespace OutOfLine

namespace Text

/-- The order by code points, a text before its continuations. -/
def precedes : Text → Text → Bool
  | _, [] => false
  | [], _ :: _ => true
  | c :: text, d :: other => c.toNat < d.toNat || (c == d && precedes text other)

theorem precedes_trans {first second third : Text} (left : precedes first second)
    (right : precedes second third) : precedes first third := by
  induction first generalizing second third with
  | nil =>
      cases second with
      | nil => simp [precedes] at left
      | cons _ _ =>
          cases third with
          | nil => simp [precedes] at right
          | cons _ _ => rfl
  | cons c text ih =>
      cases second with
      | nil => simp [precedes] at left
      | cons d other =>
          cases third with
          | nil => simp [precedes] at right
          | cons e last =>
              simp only [precedes, Bool.or_eq_true, decide_eq_true_eq, Bool.and_eq_true,
                beq_iff_eq] at left right ⊢
              rcases left with less | ⟨same, left⟩
              · rcases right with lessAgain | ⟨sameAgain, _⟩
                · exact Or.inl (Nat.lt_trans less lessAgain)
                · exact Or.inl (sameAgain ▸ less)
              · subst same
                rcases right with less | ⟨same, right⟩
                · exact Or.inl less
                · exact Or.inr ⟨same, ih left right⟩

theorem precedes_total {text other : Text} (notBefore : precedes text other = false)
    (notAfter : precedes other text = false) : text = other := by
  induction text generalizing other with
  | nil =>
      cases other with
      | nil => rfl
      | cons _ _ => simp [precedes] at notBefore
  | cons c text ih =>
      cases other with
      | nil => simp [precedes] at notAfter
      | cons d other =>
          simp only [precedes, Bool.or_eq_false_iff, decide_eq_false_iff_not,
            Bool.and_eq_false_iff, beq_eq_false_iff_ne] at notBefore notAfter
          have same : c = d := Char.toNat_inj.mp (by omega)
          subst same
          simp only [ne_eq, not_true_eq_false, false_or] at notBefore notAfter
          rw [ih notBefore.2 notAfter.2]

end Text

structure WordSet where
  words : List Text
  sorted : words.Pairwise (fun word other => Text.precedes word other = true)
deriving DecidableEq, Repr

namespace WordSet

def empty : WordSet :=
  ⟨[], .nil⟩

def contains (set : WordSet) (word : Text) : Bool :=
  set.words.contains word

def insertInto (word : Text) : List Text → List Text
  | [] => [word]
  | first :: others =>
      if Text.precedes word first then word :: first :: others
      else if Text.precedes first word then first :: insertInto word others
      else first :: others

theorem mem_insertInto {word other : Text} {words : List Text} :
    other ∈ insertInto word words ↔ other = word ∨ other ∈ words := by
  induction words with
  | nil => simp [insertInto]
  | cons first others ih =>
      unfold insertInto
      split
      · simp
      split
      · simp only [List.mem_cons, ih]
        exact ⟨fun member => by rcases member with h | h | h <;> simp [h],
          fun member => by rcases member with h | h | h <;> simp [h]⟩
      · rename_i notBefore notAfter
        have same := Text.precedes_total (by simpa using notBefore) (by simpa using notAfter)
        subst same
        simp

theorem insertInto_sorted (word : Text) {words : List Text}
    (sorted : words.Pairwise (fun word other => Text.precedes word other = true)) :
    (insertInto word words).Pairwise (fun word other => Text.precedes word other = true) := by
  induction words with
  | nil => simp [insertInto]
  | cons first others ih =>
      obtain ⟨least, rest⟩ := List.pairwise_cons.mp sorted
      unfold insertInto
      split
      · rename_i before
        refine List.pairwise_cons.mpr ⟨fun other member => ?_, sorted⟩
        rcases List.mem_cons.mp member with same | member
        · exact same ▸ before
        · exact Text.precedes_trans before (least other member)
      split
      · rename_i after
        refine List.pairwise_cons.mpr ⟨fun other member => ?_, ih rest⟩
        rcases mem_insertInto.mp member with same | member
        · exact same ▸ after
        · exact least other member
      · exact sorted

def insert (word : Text) (set : WordSet) : WordSet :=
  ⟨insertInto word set.words, insertInto_sorted word set.sorted⟩

def ofList (words : List Text) : WordSet :=
  words.foldl (fun set word => set.insert word) empty

end WordSet

end OutOfLine
