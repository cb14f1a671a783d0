import Numbering.Proofs.Appending

/-! Texts on both sides of a separator. A character that stands in no marker keeps the markers before it and behind
it apart: each side is searched as if it stood alone, the sites of the second are counted from the first, and so are
the numbers that its markers get. -/

namespace Numbering

/-- What is added to a position by one text and then by another may be added in either order. -/
theorem Position.after_comm (p : Position) (t u : Text) : (p.after t).after u = (p.after u).after t := by
  simp only [after, mk.injEq]
  omega

/-- The site, with the bytes and the newlines of a text in front of its own added to its position. -/
def Site.behind (t : Text) (s : Site) : Site := { s with toPosition := s.toPosition.after t }

namespace Label

/-- A character that stands in no marker of the label. -/
structure Separates (P : Label) (c : Char) : Prop where
  label : c ∉ P.text
  digit : ¬ c.isDigit
  opening : c ≠ '('
  closing : c ≠ ')'

variable {P : Label} {wanted : Argument → Bool} {c : Char} {t u : Text}

theorem Separates.not_mem_marker (apart : P.Separates c) (a : Argument) : c ∉ P.marker a := by
  intro h
  rcases List.mem_append.1 h with label | rest
  · exact apart.label label
  · rcases List.mem_cons.1 rest with opening | rest
    · exact apart.opening opening
    · rcases List.mem_append.1 rest with digit | closing
      · exact apart.digit (a.isDigit c digit)
      · exact apart.closing (List.mem_singleton.1 closing)

/-- No marker goes on into the separator. -/
theorem Separates.seam_cons (apart : P.Separates c) (t u : Text) : P.Seam wanted t (c :: u) := by
  rintro a before after - marker - back - ⟨w, starts⟩
  obtain ⟨d, after, rfl⟩ := List.exists_cons_of_ne_nil back
  obtain ⟨rfl, -⟩ := List.cons_eq_cons.1 starts
  exact apart.not_mem_marker a (by simp [marker])

/-- No marker begins in the separator. -/
theorem Separates.seam_singleton (apart : P.Separates c) (u : Text) : P.Seam wanted [c] u := by
  rintro a before after - marker front - ends -
  obtain ⟨d, rest, rfl⟩ := List.exists_cons_of_ne_nil front
  obtain rfl : d = c := List.mem_singleton.1 (ends.subset List.mem_cons_self)
  exact apart.not_mem_marker a (by simp [marker])

theorem Separates.free (apart : P.Separates c) : P.Free wanted [c] := by
  rintro a - inside
  have nonempty : P.marker a ≠ [] := by simp [marker, Argument.inParentheses]
  obtain ⟨d, rest, marker⟩ := List.exists_cons_of_ne_nil nonempty
  obtain rfl : d = c := List.mem_singleton.1 (inside.subset (by simp [marker]))
  exact apart.not_mem_marker a (by simp [marker])

/-- Both sides of a separator are searched apart. -/
theorem Separates.cut_append_cons (apart : P.Separates c) (t u : Text) :
    P.cut wanted (t ++ c :: u) = (P.cut wanted t).append ((P.cut wanted u).prepend [c]) := by
  have behind : P.cut wanted (c :: u) = (P.cut wanted u).prepend [c] := by
    rw [← List.singleton_append, cut_append (apart.seam_singleton u), cut_of_free apart.free, Cut.nil_append]
  rw [cut_append (apart.seam_cons t u), behind]

/-- Both sides are rewritten apart, and the count of the markers goes on behind the separator. -/
theorem Separates.rewrite_append_cons (apart : P.Separates c) (f : Nat → Argument) (t u : Text) :
    P.rewrite wanted f (t ++ c :: u) =
      P.rewrite wanted f t ++ c :: P.rewrite wanted (fun k => f (k + (P.cut wanted t).count)) u := by
  rw [rewrite, apart.cut_append_cons, Cut.withArguments_append, Cut.withArguments_prepend, Cut.join_append,
    Cut.join_prepend]
  rfl

/-- The sites of parts that start behind more text. -/
theorem sitesFrom_after (p : Position) (t : Text) (parts : List Part) :
    P.sitesFrom (p.after t) parts = (P.sitesFrom p parts).map (Site.behind t) := by
  induction parts generalizing p with
  | nil => rfl
  | cons part parts ih =>
    rw [sitesFrom_cons, sitesFrom_cons, List.map_cons, p.after_comm t part.gap, p.after_comm t, ih]
    rfl

theorem Separates.sites_append_cons (apart : P.Separates c) (t u : Text) :
    P.sites (t ++ c :: u) = P.sites t ++ (P.sites u).map (Site.behind (t ++ [c])) := by
  have whole : (P.cut (fun _ => true) t).join P = t := join_cut t
  rw [sites, apart.cut_append_cons, sitesFrom_append, whole, sitesFrom_prepend, Position.after_after,
    sitesFrom_after]
  rfl

/-- Any selection of passes goes over both sides apart, and goes on with its numbers behind the separator. -/
theorem Separates.outcome_append_cons (apart : P.Separates c) (s : Selection) (t u : Text) :
    s.outcome P (t ++ c :: u) =
      ⟨(s.outcome P t).text ++ c :: P.rewrite s.wanted (fun k => s.number (k + (s.outcome P t).matched)) u,
        (s.outcome P t).matched + (s.outcome P u).matched⟩ := by
  simp only [Selection.outcome_eq, apart.rewrite_append_cons, apart.cut_append_cons, Cut.count_append,
    Cut.count_prepend]

/-- The text with its wanted markers numbered in order of appearance, from a number on. -/
def numberedFrom (P : Label) (wanted : Argument → Bool) (m : Nat) (t : Text) : Text :=
  weave (t.stretches (P.hits wanted t))
    ((List.range (P.hits wanted t).length).map fun k => P.marker (.ofNat (m + k)))

theorem rewrite_eq_numberedFrom (m : Nat) (t : Text) :
    P.rewrite wanted (fun k => .ofNat (k + m)) t = P.numberedFrom wanted m t := by
  simp only [rewrite_eq_weave, numberedFrom, Nat.add_comm]

/-- What a pass that numbers makes of a text is the text numbered from zero. -/
theorem outcome_eq_numberedFrom {s : Selection} (numbers : s.number = .ofNat) (t : Text) :
    s.outcome P t = ⟨P.numberedFrom s.wanted 0 t, (P.hits s.wanted t).length⟩ := by
  rw [s.outcome_eq, numbers, ← rewrite_eq_numberedFrom, length_hits]
  rfl

/-- A separator divides a text for the search and for each pass. The sites behind it are those of the second side,
with the bytes and the newlines before them added; the reset pass resets both sides; and the passes that number,
each from zero in a text alone, go on behind the separator with the number after the last one before it. -/
theorem separated_texts_pass_apart {P : Label} {c : Char} (apart : P.Separates c) (t u : Text) :
    P.sites (t ++ c :: u) = P.sites t ++ (P.sites u).map (Site.behind (t ++ [c])) ∧
      P.reset (t ++ c :: u) =
        ⟨(P.reset t).text ++ c :: (P.reset u).text, (P.reset t).matched + (P.reset u).matched⟩ ∧
      P.enumerate u = ⟨P.numberedFrom Argument.isZero 0 u, (P.hits Argument.isZero u).length⟩ ∧
      P.enumerate (t ++ c :: u) =
        ⟨(P.enumerate t).text ++ c :: P.numberedFrom Argument.isZero (P.enumerate t).matched u,
          (P.enumerate t).matched + (P.enumerate u).matched⟩ ∧
      P.renumber u = ⟨P.numberedFrom (fun _ => true) 0 u, (P.sites u).length⟩ ∧
      P.renumber (t ++ c :: u) =
        ⟨(P.renumber t).text ++ c :: P.numberedFrom (fun _ => true) (P.renumber t).matched u,
          (P.renumber t).matched + (P.renumber u).matched⟩ := by
  refine ⟨apart.sites_append_cons t u, apart.outcome_append_cons .reset t u,
    outcome_eq_numberedFrom (s := .enumerate) rfl u, ?_, outcome_eq_numberedFrom (s := .all) rfl u, ?_⟩
  · rw [← rewrite_eq_numberedFrom]
    exact apart.outcome_append_cons .enumerate t u
  · rw [← rewrite_eq_numberedFrom]
    exact apart.outcome_append_cons .all t u

/-- A label that overlaps itself, with a marker left open on both sides of a newline. -/
theorem separated_texts_pass_apart_open :
    let P : Label := ⟨"0)".toList, by decide, by decide⟩
    let t : Text := "0)(0)0)(0)(7)0)(1".toList
    let u : Text := "0)0)(0)(4)0)(0)".toList
    P.Separates '\n' ∧ (P.sites (t ++ '\n' :: u)).map (fun s => (s.offset, s.line)) =
        [(0, 1), (5, 1), (20, 2), (28, 2)] ∧
      P.renumber (t ++ '\n' :: u) = ⟨"0)(0)0)(1)(7)0)(1\n0)0)(2)(4)0)(3)".toList, 4⟩ := by
  intro P t u
  have apart : P.Separates '\n' := ⟨by decide, by decide, by decide, by decide⟩
  obtain ⟨sites, -, -, -, -, renumbered⟩ := separated_texts_pass_apart apart t u
  refine ⟨apart, ?_, renumbered.trans (by decide +kernel)⟩
  rw [sites]
  decide +kernel

end Label

end Numbering
