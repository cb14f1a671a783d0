import Numbering.Proofs.Disjoint

/-! Markers that cross. The one that starts first ends first, and its closing parenthesis belongs to the label of
the other: a digit of the other it never reaches. So whatever digits a marker is given, just the same markers start
before it. -/

namespace Numbering

/-- The text with something else between two offsets. -/
def Text.splice (t : Text) (i j : Nat) (u : Text) : Text := t.takeSize i ++ (u ++ t.dropSize j)

namespace Label

variable {P : Label} {t : Text} {i j : Nat} {a b : Argument}

/-- The offset of the digits of a marker. -/
def digitsAt (P : Label) (i : Nat) : Nat := i + P.text.size + 1

/-- The offset of the closing parenthesis of a marker. -/
def closingAt (P : Label) (i : Nat) (a : Argument) : Nat := i + (P.opening a).size

/-- The closing parenthesis of a marker is a character of the label of each later one that it overlaps. -/
theorem Occurs.closing_in_label (ha : P.Occurs t i a) (hb : P.Occurs t j b) (lt : i < j)
    (inside : j < i + (P.marker a).size) :
    ∃ x y : Text, P.text = x ++ ')' :: y ∧ P.closingAt i a = j + x.size := by
  obtain ⟨front, z, y, rfl, marker, nonempty, label⟩ := ha.overlap hb lt inside
  obtain ⟨x, rfl, opening⟩ := closing_of_marker marker nonempty
  refine ⟨x, y, by simpa using label, ?_⟩
  rw [closingAt, opening, Text.size_append, Nat.add_assoc]

/-! ### Other digits -/

/-- A marker that starts before another one takes nothing of it but the label. -/
theorem Occurs.of_label {before after : Text} (h : P.Occurs (before ++ (P.marker b ++ after)) i a)
    (lt : i < before.size) (rest : Text) : P.Occurs (before ++ (P.text ++ rest)) i a := by
  obtain ⟨u, v, whole, rfl⟩ := h
  rw [List.append_assoc] at whole
  rcases List.append_eq_append_iff.1 whole with ⟨x, rfl, -⟩ | ⟨front, rfl, markers⟩
  · rw [Text.size_append] at lt
    omega
  · have nonempty : front ≠ [] := by
      rintro rfl
      simp at lt
    obtain ⟨x, labels, -⟩ := ends_in_label nonempty markers.symm
    refine ⟨u, x ++ rest, ?_, rfl⟩
    calc u ++ front ++ (P.text ++ rest) = u ++ (front ++ P.text) ++ rest := by simp only [List.append_assoc]
      _ = u ++ P.marker a ++ (x ++ rest) := by simp only [labels, List.append_assoc]

/-- To give a marker other digits is to put another marker of the label in its place. -/
theorem splice_digits (before after : Text) (b c : Argument) :
    (before ++ (P.marker b ++ after)).splice (P.digitsAt before.size) (P.closingAt before.size b) c.digits =
      before ++ (P.marker c ++ after) := by
  have opened (a : Argument) : before ++ (P.marker a ++ after) =
      (before ++ (P.text ++ ['('])) ++ (a.digits ++ ')' :: after) := by
    simp [marker, Argument.inParentheses]
  have closed : before ++ (P.marker b ++ after) = (before ++ P.opening b) ++ ')' :: after := by
    simp [marker_eq]
  have digitsAt : P.digitsAt before.size = (before ++ (P.text ++ ['('])).size := by
    rw [Label.digitsAt, Text.size_append, Text.size_append, Nat.add_assoc]
    rfl
  have front : (before ++ (P.marker b ++ after)).takeSize (P.digitsAt before.size) =
      before ++ (P.text ++ ['(']) := by
    rw [opened, digitsAt, Text.takeSize_append]
  have back : (before ++ (P.marker b ++ after)).dropSize (P.closingAt before.size b) = ')' :: after := by
    rw [closed, closingAt, ← Text.size_append, Text.dropSize_append]
  rw [Text.splice, front, back, opened]

/-- Just the same markers start before a marker, whatever its digits. -/
theorem occurs_splice_iff {c d : Argument} (hb : P.Occurs t j b) (lt : i < j) :
    P.Occurs (t.splice (P.digitsAt j) (P.closingAt j b) c.digits) i d ↔ P.Occurs t i d := by
  obtain ⟨before, after, rfl, rfl⟩ := hb
  rw [List.append_assoc, splice_digits]
  have other {x : Argument} (y : Argument) (h : P.Occurs (before ++ (P.marker x ++ after)) i d) :
      P.Occurs (before ++ (P.marker y ++ after)) i d := by
    rw [marker, List.append_assoc]
    exact h.of_label lt _
  exact ⟨other b, other c⟩

/-- Of two markers the one that starts first ends first, so neither stands inside the other and no two end
together. Where they share characters the closing parenthesis of the first is one of the label of the second, so it
is none of its digits; and other digits in the second leave the first as it is, and all that start before the
second. -/
theorem crossing_markers_meet_in_label (P : Label) (t : Text) {i j : Nat} {a b : Argument} (ha : P.Occurs t i a)
    (hb : P.Occurs t j b) (lt : i < j) :
    i + (P.marker a).size < j + (P.marker b).size ∧
      (j < i + (P.marker a).size → ∃ x y, P.text = x ++ ')' :: y ∧ P.closingAt i a = j + x.size) ∧
      ∀ c : Argument,
        let u := t.splice (P.digitsAt j) (P.closingAt j b) c.digits
        P.Occurs u j c ∧ ∀ k < j, ∀ d, P.Occurs u k d ↔ P.Occurs t k d := by
  refine ⟨ha.stop_lt hb lt, ha.closing_in_label hb lt, fun c => ⟨?_, fun k lt d => occurs_splice_iff hb lt⟩⟩
  obtain ⟨before, after, rfl, rfl⟩ := hb
  rw [List.append_assoc, splice_digits]
  exact ⟨before, after, by rw [List.append_assoc], rfl⟩

/-- The closing parenthesis of the first marker is the last character of the label of the second. -/
theorem crossing_markers_meet_in_label_closed :
    let P : Label := ⟨"0)".toList, by decide, by decide⟩
    let t : Text := "0)(0)(5)".toList
    let five : Argument := .ofNat 5
    let u := t.splice (P.digitsAt 3) (P.closingAt 3 five) (Argument.ofNat 12).digits
    P.Occurs t 0 .zero ∧ P.Occurs t 3 five ∧ 3 < 0 + (P.marker .zero).size ∧
      (∃ x y, P.text = x ++ ')' :: y ∧ P.closingAt 0 .zero = 3 + x.size) ∧
      u = "0)(0)(12)".toList ∧ P.Occurs u 0 .zero := by
  intro P t five u
  have first : P.Occurs t 0 .zero := ⟨[], "(5)".toList, by decide, rfl⟩
  have second : P.Occurs t 3 five := ⟨"0)(".toList, [], by decide, by decide⟩
  have cross : 3 < 0 + (P.marker .zero).size := by decide
  obtain ⟨-, meet, digits⟩ := crossing_markers_meet_in_label P t first second (by decide)
  exact ⟨first, second, cross, meet cross, by decide, ((digits (.ofNat 12)).2 0 (by decide) .zero).2 first⟩

end Label

end Numbering
