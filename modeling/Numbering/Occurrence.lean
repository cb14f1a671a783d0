import Numbering.Site

/-! Occurrences: the places where a marker stands in a text, whether or not the search chooses them. At
one place there is at most one, and every site is one. -/

namespace Numbering

namespace Label

/-- A marker with this argument stands behind so many bytes of the text. -/
def Occurs (P : Label) (t : Text) (offset : Nat) (a : Argument) : Prop :=
  ∃ before after : Text, t = before ++ P.marker a ++ after ∧ before.size = offset

variable {P : Label} {t : Text} {i : Nat} {a b : Argument}

theorem Occurs.append_left (h : P.Occurs t i a) (u : Text) : P.Occurs (u ++ t) (u.size + i) a := by
  obtain ⟨before, after, rfl, rfl⟩ := h
  exact ⟨u ++ before, after, by simp, by simp⟩

theorem Occurs.argument_eq (ha : P.Occurs t i a) (hb : P.Occurs t i b) : a = b := by
  obtain ⟨before, after, rfl, rfl⟩ := ha
  obtain ⟨before', after', h, size⟩ := hb
  rw [List.append_assoc, List.append_assoc] at h
  obtain ⟨-, h⟩ := Text.append_inj_of_size h size.symm
  exact (marker_append_inj h).1

theorem occurs_of_mem_sites {s : Site} (h : s ∈ P.sites t) :
    ∃ a : Argument, s.text = P.marker a ∧ s.argument = a.digits ∧ P.Occurs t s.offset a := by
  obtain ⟨before, part, after, parts, rfl⟩ := exists_part_of_mem_sitesFrom h
  have whole := Cut.join_of_parts (P := P) parts
  rw [join_cut] at whole
  exact ⟨part.argument, rfl, rfl, _, _, whole, by simp [Position.after, Position.start]⟩

end Label

end Numbering
