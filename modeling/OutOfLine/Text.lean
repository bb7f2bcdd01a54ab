namespace OutOfLine

abbrev Text := List Char

namespace Text

/-- The characters with the Unicode property `White_Space`. -/
def isBlank (c : Char) : Bool :=
  let point := c.toNat
  (9 ≤ point && point ≤ 13) || point == 0x20 || point == 0x85 || point == 0xA0 ||
    point == 0x1680 || (0x2000 ≤ point && point ≤ 0x200A) || point == 0x2028 ||
    point == 0x2029 || point == 0x202F || point == 0x205F || point == 0x3000

def dropEndWhile (drops : Char → Bool) (text : Text) : Text :=
  (text.reverse.dropWhile drops).reverse

def trimEnd (text : Text) : Text :=
  dropEndWhile isBlank text

def trim (text : Text) : Text :=
  trimEnd (text.dropWhile isBlank)

def join (separator : Text) (texts : List Text) : Text :=
  List.intercalate separator texts

theorem join_cons (separator first : Text) (others : List Text) :
    join separator (first :: others) = first ++ others.flatMap (separator ++ ·) := by
  induction others generalizing first with
  | nil => simp [join, List.intercalate]
  | cons second others ih =>
      have later := ih second
      simp only [join, List.intercalate, List.intersperse, List.flatten_cons] at later ⊢
      rw [later]
      simp

def byteSize (text : Text) : Nat :=
  text.foldl (fun total c => total + c.utf8Size) 0

theorem foldl_utf8Size (total : Nat) (text : Text) :
    text.foldl (fun total c => total + c.utf8Size) total = total + byteSize text := by
  unfold byteSize
  induction text generalizing total with
  | nil => rfl
  | cons c text ih =>
      rw [List.foldl_cons, List.foldl_cons, ih, ih (0 + c.utf8Size)]
      omega

@[simp]
theorem byteSize_nil : byteSize [] = 0 :=
  rfl

@[simp]
theorem byteSize_cons (c : Char) (text : Text) :
    byteSize (c :: text) = c.utf8Size + byteSize text := by
  rw [byteSize, List.foldl_cons, foldl_utf8Size, Nat.zero_add]

@[simp]
theorem byteSize_append (left right : Text) :
    byteSize (left ++ right) = byteSize left + byteSize right := by
  rw [byteSize, List.foldl_append, foldl_utf8Size, foldl_utf8Size, Nat.zero_add]

@[simp]
theorem byteSize_reverse (text : Text) : byteSize text.reverse = byteSize text := by
  induction text with
  | nil => rfl
  | cons c text ih => simp [ih, Nat.add_comm]

theorem byteSize_eq_zero_iff {text : Text} : byteSize text = 0 ↔ text = [] := by
  cases text with
  | nil => simp
  | cons c text =>
      have positive := c.utf8Size_pos
      simp only [byteSize_cons, reduceCtorEq, iff_false]
      omega

/-- Characters beyond the basic plane take a surrogate pair. -/
def utf16Units (c : Char) : Nat :=
  if c.toNat < 0x10000 then 1 else 2

private def splitLoop (front : Text) : Nat → Text → Option (Text × Text)
  | 0, text => some (front.reverse, text)
  | _ + 1, [] => none
  | bytes + 1, c :: text =>
      if c.utf8Size ≤ bytes + 1 then splitLoop (c :: front) (bytes + 1 - c.utf8Size) text
      else none

/-- Cuts the text after `bytes` bytes, if that is the boundary of a character. -/
def splitAtByte? (bytes : Nat) (text : Text) : Option (Text × Text) :=
  splitLoop [] bytes text

private theorem splitLoop_append (read front rest : Text) :
    splitLoop read (byteSize front) (front ++ rest) = some (read.reverse ++ front, rest) := by
  induction front generalizing read with
  | nil => simp [splitLoop]
  | cons c front ih =>
      obtain ⟨bytes, size⟩ : ∃ bytes, byteSize (c :: front) = bytes + 1 :=
        Nat.exists_eq_succ_of_ne_zero (mt byteSize_eq_zero_iff.mp (by simp))
      have left : bytes + 1 - c.utf8Size = byteSize front := by
        rw [← size, byteSize_cons, Nat.add_sub_cancel_left]
      have fits : c.utf8Size ≤ bytes + 1 := by
        rw [← size, byteSize_cons]
        exact Nat.le_add_right _ _
      rw [size, List.cons_append, splitLoop, if_pos fits, left, ih]
      simp

/-- The place behind a part of a text is the boundary of a character. -/
theorem splitAtByte?_append (front rest : Text) :
    splitAtByte? (byteSize front) (front ++ rest) = some (front, rest) :=
  splitLoop_append [] front rest

/-- The part between two byte offsets, if they are ordered boundaries of characters. -/
def slice? (start stop : Nat) (text : Text) : Option Text := do
  let (front, _) ← splitAtByte? stop text
  let (_, part) ← splitAtByte? start front
  return part

end Text

end OutOfLine
