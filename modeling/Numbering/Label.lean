import Numbering.Text

/-! Labels: the literal part of a marker. Any text that is not empty serves, up to a size that
bounds the search for it; no character has a special meaning. -/

namespace Numbering

inductive LabelError where
  | empty
  | tooLong
  deriving DecidableEq, Repr

def LabelError.message : LabelError → String
  | .empty => "Expected a non-empty prefix"
  | .tooLong => "Invalid pattern: Compiled regex exceeds size limit of 10485760 bytes."

/-- The size of the longest label. -/
def Label.maxSize : Nat := 327666

@[ext] structure Label where
  text : Text
  ne_nil : text ≠ []
  size_le : text.size ≤ Label.maxSize

namespace Label

instance : DecidableEq Label := fun P Q => decidable_of_iff (P.text = Q.text) Label.ext_iff.symm

def ofText (t : Text) : Except LabelError Label :=
  if empty : t = [] then .error .empty
  else if short : t.size ≤ maxSize then .ok ⟨t, empty, short⟩
  else .error .tooLong

/-- The text that serves as a label where none is given. -/
def standard : Text := "w.o.stat.W".toList

theorem ofText_text (P : Label) : ofText P.text = .ok P := by
  simp [ofText, P.ne_nil, P.size_le]

end Label

end Numbering
