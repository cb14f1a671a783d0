import Numbering.Occurrence
import Numbering.Proofs.Overlap
import Numbering.Proofs.Stretches

/-! The search is told from the occurrences of markers alone: it takes the first marker of the text, then
the first one that starts at or behind the end of that, and so on to the end. No other list of sites is
like that, and each occurrence that the search passes over starts inside a marker it has taken. -/

namespace Numbering

theorem Text.eq_nil_of_size {t : Text} (h : t.size = 0) : t = [] :=
  List.length_eq_zero_iff.1 (by have := t.length_le_size; omega)

namespace Label

/-- The site is that of a marker which stands in the text. -/
def Stands (P : Label) (t : Text) (s : Site) : Prop :=
  ∃ (before after : Text) (a : Argument),
    t = before ++ P.marker a ++ after ∧ s = ⟨Position.start.after before, P.marker a, a.digits⟩

/-- The sites of a search from left to right that starts at an offset: each is that of the first marker
which starts at or behind the end of the one before. -/
inductive Leftmost (P : Label) (t : Text) : Nat → List Site → Prop where
  | nil {i : Nat} (none : ∀ j a, i ≤ j → ¬ P.Occurs t j a) : Leftmost P t i []
  | cons {i : Nat} {s : Site} {sites : List Site} (stands : P.Stands t s) (le : i ≤ s.offset)
      (first : ∀ j a, i ≤ j → j < s.offset → ¬ P.Occurs t j a) (rest : Leftmost P t s.stop sites) :
      Leftmost P t i (s :: sites)

variable {P : Label} {wanted : Argument → Bool} {t : Text}

/-! ### Occurrences behind a given text -/

theorem Occurs.of_append_left {u : Text} {j : Nat} {a : Argument} (h : P.Occurs (u ++ t) j a)
    (le : u.size ≤ j) : P.Occurs t (j - u.size) a := by
  obtain ⟨before, after, whole, rfl⟩ := h
  rw [List.append_assoc] at whole
  rcases List.append_eq_append_iff.1 whole with ⟨x, rfl, rfl⟩ | ⟨x, rfl, rest⟩
  · exact ⟨x, after, by simp, by simp⟩
  · obtain rfl : x = [] := Text.eq_nil_of_size (by rw [Text.size_append] at le; omega)
    exact ⟨[], after, by simpa using rest.symm, by simp⟩

/-- Where the search leaves a stretch before a marker, no marker starts in the stretch. -/
theorem Free.not_occurs {g r : Text} {a b : Argument} {j : Nat} (free : P.Free wanted (g ++ P.text))
    (hb : wanted b) (lt : j < g.size) : ¬ P.Occurs (g ++ (P.marker a ++ r)) j b := by
  rintro ⟨before, after, whole, rfl⟩
  rw [List.append_assoc] at whole
  rcases List.append_eq_append_iff.1 whole with ⟨x, rfl, -⟩ | ⟨x, rfl, rest⟩
  · rw [Text.size_append] at lt
    omega
  · have front : x ≠ [] := by
      rintro rfl
      simp at lt
    obtain ⟨v, labels, -⟩ := ends_in_label front rest.symm
    exact free b hb ⟨before, v, by rw [List.append_assoc, List.append_assoc, ← labels]⟩

theorem Free.not_occurs_tail {b : Argument} {j : Nat} (free : P.Free wanted t) (hb : wanted b) :
    ¬ P.Occurs t j b := by
  rintro ⟨before, after, rfl, -⟩
  exact free b hb ⟨before, after, rfl⟩

/-! ### The sites of a search -/

/-- Two markers at one place are one site. -/
theorem Stands.eq {s s' : Site} (h : P.Stands t s) (h' : P.Stands t s') (offset : s.offset = s'.offset) :
    s = s' := by
  obtain ⟨before, after, a, rfl, rfl⟩ := h
  obtain ⟨before', after', b, whole, rfl⟩ := h'
  rw [List.append_assoc, List.append_assoc] at whole
  have size : before.size = before'.size := by simpa [Position.after, Position.start] using offset
  obtain ⟨rfl, markers⟩ := Text.append_inj_of_size whole size
  obtain ⟨rfl, -⟩ := marker_append_inj markers
  rfl

theorem Stands.occurs {s : Site} (h : P.Stands t s) :
    ∃ a, s.text = P.marker a ∧ s.argument = a.digits ∧ P.Occurs t s.offset a := by
  obtain ⟨before, after, a, rfl, rfl⟩ := h
  exact ⟨a, rfl, rfl, before, after, rfl, by simp [Position.after, Position.start]⟩

theorem Leftmost.eq {i : Nat} {sites sites' : List Site} (h : P.Leftmost t i sites)
    (h' : P.Leftmost t i sites') : sites = sites' := by
  induction h generalizing sites' with
  | nil none =>
    cases h' with
    | nil => rfl
    | cons stands le =>
      obtain ⟨a, -, -, occurs⟩ := stands.occurs
      exact absurd occurs (none _ a le)
  | @cons i s sites stands le first _ ih =>
    obtain ⟨a, -, -, occurs⟩ := stands.occurs
    cases h' with
    | nil none => exact absurd occurs (none _ a le)
    | @cons _ s' _ stands' le' first' rest' =>
      obtain ⟨b, -, -, occurs'⟩ := stands'.occurs
      have offset : s.offset = s'.offset := by
        rcases Nat.lt_trichotomy s.offset s'.offset with lt | eq | gt
        · exact absurd occurs (first' _ a le lt)
        · exact eq
        · exact absurd occurs' (first _ b le' gt)
      obtain rfl := stands.eq stands' offset
      rw [ih rest']

/-- Each marker of the text behind the start of the search starts in one of the sites. -/
theorem Leftmost.covers {i j : Nat} {a : Argument} {sites : List Site} (h : P.Leftmost t i sites)
    (le : i ≤ j) (occurs : P.Occurs t j a) : ∃ s ∈ sites, s.offset ≤ j ∧ j < s.stop := by
  induction h with
  | nil none => exact absurd occurs (none j a le)
  | @cons i s sites _ _ first _ ih =>
    by_cases before : j < s.offset
    · exact absurd occurs (first j a le before)
    · by_cases inside : j < s.stop
      · exact ⟨s, List.mem_cons_self, by omega, inside⟩
      · obtain ⟨s', mem, bounds⟩ := ih (by omega)
        exact ⟨s', List.mem_cons_of_mem s mem, bounds⟩

/-- The sites of a cut that the search leaves, behind a text that has been searched. -/
theorem leftmost_sitesFrom (before : Text) {c : Cut} (leaves : P.Leaves (fun _ => true) c) :
    P.Leftmost (before ++ c.join P) before.size (P.sitesFrom (Position.start.after before) c.parts) := by
  obtain ⟨parts, tail⟩ := c
  induction parts generalizing before with
  | nil =>
    refine .nil fun j a le occurs => ?_
    exact leaves.2.not_occurs_tail rfl (occurs.of_append_left le)
  | cons part parts ih =>
    obtain ⟨⟨-, free⟩, others⟩ := List.forall_mem_cons.1 leaves.1
    have rest := ih (before ++ part.gap ++ P.marker part.argument) ⟨others, leaves.2⟩
    rw [sitesFrom_cons, Position.after_after, Position.after_after, ← List.append_assoc before]
    refine .cons ⟨before ++ part.gap, Cut.join P ⟨parts, tail⟩, part.argument, ?_, rfl⟩ ?_
      (fun j a le lt occurs => ?_) ?_
    · simp [Cut.join_cons]
    · simp [Position.after, Position.start]
    · rw [Cut.join_cons] at occurs
      refine free.not_occurs rfl ?_ (occurs.of_append_left le)
      simp [Position.after, Position.start] at lt
      omega
    · simpa [Cut.join_cons, Site.stop, Position.after, Position.start, Nat.add_assoc] using rest

theorem leftmost_sites (P : Label) (t : Text) : P.Leftmost t 0 (P.sites t) := by
  have := leftmost_sitesFrom (P := P) [] (leaves_cut t)
  rwa [join_cut] at this

/-- The sites of a text are the one list of its markers in which each is the first to start at or behind
the end of the one before, and none starts behind the last; so each marker that is not of the list starts
inside one that is. -/
theorem leftmost_iff_eq_sites (P : Label) (t : Text) :
    (∀ sites, P.Leftmost t 0 sites ↔ sites = P.sites t) ∧
      ∀ i a, P.Occurs t i a → ∃ s ∈ P.sites t, s.offset ≤ i ∧ i < s.stop := by
  refine ⟨fun sites => ⟨fun h => h.eq (leftmost_sites P t), ?_⟩, fun i a => ?_⟩
  · rintro rfl
    exact leftmost_sites P t
  · exact (leftmost_sites P t).covers (Nat.zero_le i)

end Label

end Numbering
