import Numbering.Proofs.Search

/-! Markers that start inside one another. Each marker that a search wants starts in one that the search takes.
Where a marker starts inside an earlier one, that ends within its label; so without a closing parenthesis in
the label no two markers share a character. -/

namespace Numbering

namespace Label

variable {P : Label} {wanted : Argument → Bool} {t : Text}

theorem size_add_three_le (P : Label) (a : Argument) : P.text.size + 3 ≤ (P.marker a).size := by
  have digits : 0 < a.digits.length := List.length_pos_iff.2 a.ne_nil
  have bytes := a.inParentheses.length_le_size
  simp only [Argument.inParentheses, List.length_cons, List.length_append, List.length_nil] at bytes
  rw [marker, Text.size_append, Argument.inParentheses]
  omega

/-- Each wanted marker behind a text that has been searched starts in a site of the search. -/
theorem Leaves.covers (before : Text) {c : Cut} {i : Nat} {a : Argument} (leaves : P.Leaves wanted c)
    (ha : wanted a) (le : before.size ≤ i) (occurs : P.Occurs (before ++ c.join P) i a) :
    ∃ s ∈ P.sitesFrom (Position.start.after before) c.parts, s.offset ≤ i ∧ i < s.stop := by
  obtain ⟨parts, tail⟩ := c
  induction parts generalizing before with
  | nil => exact absurd (occurs.of_append_left le) (leaves.2.not_occurs_tail ha)
  | cons part parts ih =>
    obtain ⟨⟨-, free⟩, others⟩ := List.forall_mem_cons.1 leaves.1
    rw [sitesFrom_cons, Position.after_after, Position.after_after]
    by_cases stretch : i < before.size + part.gap.size
    · rw [Cut.join_cons] at occurs
      exact absurd (occurs.of_append_left le) (free.not_occurs ha (by omega))
    · by_cases inside : i < before.size + part.gap.size + (P.marker part.argument).size
      · refine ⟨_, List.mem_cons_self, ?_, ?_⟩
        · simp [Position.after, Position.start]
          omega
        · simp [Site.stop, Position.after, Position.start]
          omega
      · rw [Cut.append_join_cons] at occurs
        have le : (before ++ (part.gap ++ P.marker part.argument)).size ≤ i := by
          simp only [Text.size_append]
          omega
        obtain ⟨s, mem, bounds⟩ := ih _ le ⟨others, leaves.2⟩ occurs
        exact ⟨s, List.mem_cons_of_mem _ mem, bounds⟩

theorem covers_hits {i : Nat} {a : Argument} (ha : wanted a) (occurs : P.Occurs t i a) :
    ∃ s ∈ P.hits wanted t, s.offset ≤ i ∧ i < s.stop := by
  have leaves : P.Leaves wanted (P.cut wanted t) := leaves_cut t
  have whole : P.Occurs ([] ++ (P.cut wanted t).join P) i a := by rwa [join_cut]
  exact leaves.covers [] ha (Nat.zero_le i) whole

/-- The text between the starts of two markers, and what follows each of them. -/
theorem Occurs.exists_front {i j : Nat} {a b : Argument} (ha : P.Occurs t i a) (hb : P.Occurs t j b)
    (lt : i < j) :
    ∃ front r s : Text, front ≠ [] ∧ i + front.size = j ∧ front ++ (P.marker b ++ r) = P.marker a ++ s := by
  obtain ⟨before, after, rfl, rfl⟩ := ha
  obtain ⟨before', after', whole, rfl⟩ := hb
  rw [List.append_assoc, List.append_assoc] at whole
  rcases List.append_eq_append_iff.1 whole with ⟨front, rfl, rest⟩ | ⟨x, rfl, -⟩
  · rw [Text.size_append] at lt
    refine ⟨front, after', after, ?_, (Text.size_append before front).symm, rest.symm⟩
    rintro rfl
    simp at lt
  · rw [Text.size_append] at lt
    omega

/-- A marker ends within the label of each later one, or before it. -/
theorem Occurs.stop_le {i j : Nat} {a b : Argument} (ha : P.Occurs t i a) (hb : P.Occurs t j b) (lt : i < j) :
    i + (P.marker a).size ≤ j + P.text.size := by
  obtain ⟨front, r, s, nonempty, between, whole⟩ := ha.exists_front hb lt
  obtain ⟨v, labels, -⟩ := ends_in_label nonempty whole
  have sizes := congrArg Text.size labels
  rw [Text.size_append, Text.size_append] at sizes
  omega

/-- No marker stands inside another one, so they end in the order in which they start. -/
theorem Occurs.stop_lt {i j : Nat} {a b : Argument} (ha : P.Occurs t i a) (hb : P.Occurs t j b) (lt : i < j) :
    i + (P.marker a).size < j + (P.marker b).size := by
  have := ha.stop_le hb lt
  have := P.size_add_three_le b
  omega

/-- Of two markers that overlap, the earlier one ends within the label of the later one. -/
theorem Occurs.overlap {i j : Nat} {a b : Argument} (ha : P.Occurs t i a) (hb : P.Occurs t j b) (lt : i < j)
    (inside : j < i + (P.marker a).size) :
    ∃ x z v : Text, i + x.size = j ∧ P.marker a = x ++ z ∧ z ≠ [] ∧ P.text = z ++ v := by
  obtain ⟨front, r, s, nonempty, rfl, whole⟩ := ha.exists_front hb lt
  obtain ⟨v, labels, -⟩ := ends_in_label nonempty whole
  rcases List.append_eq_append_iff.1 labels with ⟨z, markers, label⟩ | ⟨z, rfl, -⟩
  · refine ⟨front, z, v, rfl, markers, ?_, label⟩
    rintro rfl
    rw [markers, List.append_nil] at inside
    omega
  · rw [Text.size_append] at inside
    omega

/-- Markers of a label without a closing parenthesis do not overlap. -/
theorem Occurs.disjoint {i j : Nat} {a b : Argument} (noClosing : ')' ∉ P.text) (ha : P.Occurs t i a)
    (hb : P.Occurs t j b) (lt : i < j) : i + (P.marker a).size ≤ j := by
  refine Nat.le_of_not_lt fun inside => ?_
  obtain ⟨x, z, v, -, markers, nonempty, label⟩ := ha.overlap hb lt inside
  obtain ⟨z, rfl, -⟩ := closing_of_marker markers nonempty
  exact noClosing (by simp [label])

/-- The markers of a label without a closing parenthesis are just its sites. -/
theorem occurs_iff_mem_sites {i : Nat} {a : Argument} (noClosing : ')' ∉ P.text) :
    P.Occurs t i a ↔ ∃ s ∈ P.sites t, s.offset = i ∧ s.argument = a.digits := by
  constructor
  · intro occurs
    obtain ⟨s, mem, le, lt⟩ : ∃ s ∈ P.sites t, s.offset ≤ i ∧ i < s.stop := covers_hits rfl occurs
    obtain ⟨b, text, argument, here⟩ := occurs_of_mem_sites mem
    have same : s.offset = i := by
      refine Nat.le_antisymm le (Nat.le_of_not_lt fun before => ?_)
      have := here.disjoint noClosing occurs before
      rw [Site.stop, text] at lt
      omega
    obtain rfl := (same ▸ here).argument_eq occurs
    exact ⟨s, mem, same, argument⟩
  · rintro ⟨s, mem, rfl, argument⟩
    obtain ⟨b, -, digits, here⟩ := occurs_of_mem_sites mem
    obtain rfl : b = a := Argument.ext (digits.symm.trans argument)
    exact here

theorem offset_lt_stop {s : Site} (mem : s ∈ P.sites t) : s.offset < s.stop := by
  obtain ⟨a, text, -, -⟩ := occurs_of_mem_sites mem
  have := P.size_add_three_le a
  rw [Site.stop, text]
  omega

end Label

end Numbering
