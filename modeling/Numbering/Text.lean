/-! Texts and bytes. A text is a list of characters, measured by the bytes of its UTF-8 form, and
reading bytes as a text is exactly the inverse of writing them. Bytes that are the form of no text
are shown with a replacement character for each stretch that cannot be read. -/

namespace Numbering

abbrev Text := List Char

abbrev Bytes := List UInt8

namespace Text

/-- The UTF-8 form. -/
def utf8 (t : Text) : Bytes := t.flatMap String.utf8EncodeChar

/-- The number of bytes of the UTF-8 form. -/
def size (t : Text) : Nat := t.foldr (fun c n => c.utf8Size + n) 0

def newlines (t : Text) : Nat := t.count '\n'

/-- What follows the given start of the text. -/
def strip? (t start : Text) : Option Text := if start.isPrefixOf t then some (t.drop start.length) else none

@[simp] theorem utf8_nil : utf8 [] = [] := rfl

@[simp] theorem utf8_cons (c : Char) (t : Text) : utf8 (c :: t) = String.utf8EncodeChar c ++ utf8 t :=
  List.flatMap_cons

@[simp] theorem utf8_append (t u : Text) : utf8 (t ++ u) = utf8 t ++ utf8 u := List.flatMap_append

@[simp] theorem size_nil : size [] = 0 := rfl

@[simp] theorem size_cons (c : Char) (t : Text) : size (c :: t) = c.utf8Size + size t := rfl

@[simp] theorem size_append (t u : Text) : size (t ++ u) = size t + size u := by
  induction t with
  | nil => simp
  | cons c t ih => simp [ih, Nat.add_assoc]

theorem length_utf8 (t : Text) : t.utf8.length = t.size := by
  induction t with
  | nil => rfl
  | cons c t ih => simp [ih]

theorem length_le_size (t : Text) : t.length ≤ t.size := by
  induction t with
  | nil => simp
  | cons c t ih => have := c.utf8Size_pos; simp only [List.length_cons, size_cons]; omega

theorem append_inj_of_size {t u v w : Text} (h : t ++ v = u ++ w) (size : t.size = u.size) :
    t = u ∧ v = w := by
  induction t generalizing u with
  | nil =>
    cases u with
    | nil => exact ⟨rfl, h⟩
    | cons d u => have := d.utf8Size_pos; simp at size; omega
  | cons c t ih =>
    cases u with
    | nil => have := c.utf8Size_pos; simp at size; omega
    | cons d u =>
      obtain ⟨rfl, tails⟩ := List.cons_eq_cons.1 h
      obtain ⟨rfl, rests⟩ := ih tails (by simpa using size)
      exact ⟨rfl, rests⟩

@[simp] theorem newlines_nil : newlines [] = 0 := rfl

@[simp] theorem newlines_append (t u : Text) : newlines (t ++ u) = newlines t + newlines u :=
  List.count_append

theorem strip?_eq_some_iff {t start rest : Text} : t.strip? start = some rest ↔ t = start ++ rest := by
  rw [strip?]
  split
  · rename_i h
    obtain ⟨u, rfl⟩ := List.isPrefixOf_iff_prefix.1 h
    simp
  · rename_i h
    simp only [reduceCtorEq, false_iff]
    rintro rfl
    exact h (List.isPrefixOf_iff_prefix.2 (List.prefix_append start rest))

end Text

namespace Bytes

/-! ### Reading -/

/-- The text whose UTF-8 form the bytes are. -/
def text? (b : Bytes) : Option Text := (String.fromUTF8? b.toByteArray).map String.toList

theorem text?_eq_some_iff {b : Bytes} {t : Text} : text? b = some t ↔ t.utf8 = b := by
  have form : (String.ofList t).toByteArray = t.utf8.toByteArray := by
    rw [String.toByteArray_ofList]; rfl
  constructor
  · intro h
    obtain ⟨s, hs, rfl⟩ := Option.map_eq_some_iff.1 h
    unfold String.fromUTF8? at hs
    split at hs
    · obtain rfl := Option.some.inj hs
      rw [String.ofList_toList] at form
      rw [← List.toList_data_toByteArray (l := Text.utf8 _), ← form]
      exact List.toList_data_toByteArray
    · cases hs
  · rintro rfl
    have valid : t.utf8.toByteArray.IsValidUTF8 := form ▸ (String.ofList t).isValidUTF8
    have whole : String.fromUTF8 t.utf8.toByteArray valid = String.ofList t :=
      String.toByteArray_inj.1 form.symm
    simp [text?, String.fromUTF8?, valid, whole]

theorem text?_utf8 (t : Text) : text? t.utf8 = some t := text?_eq_some_iff.2 rfl

theorem utf8_inj {t u : Text} (h : t.utf8 = u.utf8) : t = u :=
  Option.some.inj ((text?_utf8 t).symm.trans (h ▸ text?_utf8 u))

/-! ### Showing -/

/-- The ranges of the bytes that follow a leading byte in the form of one character. -/
def trail (lead : UInt8) : List (UInt8 × UInt8) :=
  if lead < 0xC2 then []
  else if lead < 0xE0 then [(0x80, 0xBF)]
  else if lead = 0xE0 then [(0xA0, 0xBF), (0x80, 0xBF)]
  else if lead = 0xED then [(0x80, 0x9F), (0x80, 0xBF)]
  else if lead < 0xF0 then [(0x80, 0xBF), (0x80, 0xBF)]
  else if lead = 0xF0 then [(0x90, 0xBF), (0x80, 0xBF), (0x80, 0xBF)]
  else if lead < 0xF4 then [(0x80, 0xBF), (0x80, 0xBF), (0x80, 0xBF)]
  else if lead = 0xF4 then [(0x80, 0x8F), (0x80, 0xBF), (0x80, 0xBF)]
  else []

/-- How many bytes from the start lie in the given ranges, one in each. -/
def fitting : List (UInt8 × UInt8) → Bytes → Nat
  | (lo, hi) :: ranges, b :: bs => if lo ≤ b ∧ b ≤ hi then fitting ranges bs + 1 else 0
  | _, _ => 0

/-- The first character, if the bytes begin with the form of one. -/
def leading? : Bytes → Option Char
  | [] => none
  | b :: bs => (text? (b :: bs.take (fitting (trail b) bs))).bind List.head?

/-- The bytes as a text to show: a longest stretch that begins the form of a character and does not
complete it, or a byte that begins none, is one replacement character. -/
def lossy : Bytes → Text
  | [] => []
  | b :: bs =>
    let n := fitting (trail b) bs
    (text? (b :: bs.take n)).getD ['\uFFFD'] ++ lossy (bs.drop n)
termination_by b => b.length
decreasing_by simp only [List.length_cons, List.length_drop]; omega

end Bytes

end Numbering
