import Numbering.Site

/-! The stretches of a text before, between and after its sites, told by the offsets of the sites. Around
the sites of a cut they are the gaps of the cut and its tail, and woven with the markers they make the
text again. -/

namespace Numbering

/-- The number of bytes up to the end of the marker. -/
def Site.stop (s : Site) : Nat := s.offset + s.text.size

namespace Text

/-- What is left of the text behind so many bytes. -/
def dropSize : Nat → Text → Text
  | 0, t => t
  | _ + 1, [] => []
  | n + 1, c :: t => dropSize (n + 1 - c.utf8Size) t

/-- The text up to so many bytes. -/
def takeSize : Nat → Text → Text
  | 0, _ => []
  | _ + 1, [] => []
  | n + 1, c :: t => c :: takeSize (n + 1 - c.utf8Size) t

/-- The text between two offsets. -/
def slice (t : Text) (i j : Nat) : Text := (t.dropSize i).takeSize (j - i)

@[simp] theorem dropSize_append (t u : Text) : dropSize (size t) (t ++ u) = u := by
  induction t with
  | nil => simp [dropSize]
  | cons c t ih =>
    obtain ⟨n, hn⟩ := Nat.exists_eq_add_one.2 c.utf8Size_pos
    rw [size_cons, hn, Nat.add_right_comm, List.cons_append, dropSize, hn,
      show n + size t + 1 - (n + 1) = size t by omega, ih]

@[simp] theorem takeSize_append (t u : Text) : takeSize (size t) (t ++ u) = t := by
  induction t with
  | nil => simp [takeSize]
  | cons c t ih =>
    obtain ⟨n, hn⟩ := Nat.exists_eq_add_one.2 c.utf8Size_pos
    rw [size_cons, hn, Nat.add_right_comm, List.cons_append, takeSize, hn,
      show n + size t + 1 - (n + 1) = size t by omega, ih]

theorem slice_append (t u v : Text) : slice (t ++ (u ++ v)) t.size (t.size + u.size) = u := by
  simp [slice]

/-- The stretches of the text before, between and after the sites, from an offset on. -/
def stretchesFrom (t : Text) (i : Nat) : List Site → List Text
  | [] => [t.dropSize i]
  | s :: sites => t.slice i s.offset :: t.stretchesFrom s.stop sites

def stretches (t : Text) (sites : List Site) : List Text := t.stretchesFrom 0 sites

end Text

/-- Stretches with a marker behind each of them but the last. -/
def weave : List Text → List Text → Text
  | g :: gaps, m :: markers => g ++ (m ++ weave gaps markers)
  | gaps, _ => gaps.flatten

namespace Label

variable (P : Label)

theorem newlines_marker (a : Argument) : (P.marker a).newlines = P.text.newlines := by
  have digits : a.digits.newlines = 0 :=
    List.count_eq_zero_of_not_mem fun h => absurd (a.isDigit _ h) (by decide)
  have parentheses : a.inParentheses.newlines = 0 := by
    simpa [Argument.inParentheses, Text.newlines] using digits
  rw [marker, Text.newlines_append, parentheses, Nat.add_zero]

/-- The lines of sites are decided by the newlines before them. -/
theorem line_sitesFrom_congr {p q : Position} {ps qs : List Part} (line : p.line = q.line)
    (newlines : (ps.map Part.gap).map Text.newlines = (qs.map Part.gap).map Text.newlines) :
    (P.sitesFrom p ps).map (·.line) = (P.sitesFrom q qs).map (·.line) := by
  induction ps generalizing p q qs with
  | nil => rw [List.map_eq_nil_iff.1 (List.map_eq_nil_iff.1 newlines.symm)]; rfl
  | cons part ps ih =>
    rcases qs with _ | ⟨part', qs⟩
    · simp at newlines
    · obtain ⟨first, others⟩ := List.cons_eq_cons.1 newlines
      have next : (p.after (part.gap ++ P.marker part.argument)).line =
          (q.after (part'.gap ++ P.marker part'.argument)).line := by
        simp [Position.after, line, first, newlines_marker]
      simp only [sitesFrom_cons, List.map_cons, ih next others]
      simp [Position.after, line, first]

theorem stretchesFrom_sitesFrom (before : Text) (c : Cut) :
    (before ++ c.join P).stretchesFrom before.size (P.sitesFrom (Position.start.after before) c.parts) =
      c.gaps := by
  obtain ⟨parts, tail⟩ := c
  induction parts generalizing before with
  | nil => simp [Text.stretchesFrom, Cut.gaps]
  | cons part parts ih =>
    have first := Text.slice_append before part.gap (P.marker part.argument ++ Cut.join P ⟨parts, tail⟩)
    have rest := ih (before ++ (part.gap ++ P.marker part.argument))
    simp only [List.append_assoc, Text.size_append, ← Nat.add_assoc] at rest
    simp only [sitesFrom_cons, Cut.join_cons, Text.stretchesFrom, Position.after_after, Site.stop]
    simp only [Position.after, Position.start, Nat.zero_add] at rest ⊢
    rw [Text.size_append before part.gap, first, rest]
    rfl

/-- The sites that the search for wanted markers takes. -/
def hits (wanted : Argument → Bool) (t : Text) : List Site :=
  P.sitesFrom .start (P.cut wanted t).parts

theorem length_hits (wanted : Argument → Bool) (t : Text) :
    (P.hits wanted t).length = (P.cut wanted t).count := length_sitesFrom ..

/-- Around the markers that a search takes stand the gaps of its cut. -/
theorem stretches_hits (wanted : Argument → Bool) (t : Text) :
    t.stretches (P.hits wanted t) = (P.cut wanted t).gaps := by
  have := P.stretchesFrom_sitesFrom [] (P.cut wanted t)
  rwa [join_cut] at this

theorem stretches_sites (t : Text) : t.stretches (P.sites t) = (P.cut (fun _ => true) t).gaps :=
  P.stretches_hits _ t

theorem weave_gaps (c : Cut) : weave c.gaps (c.arguments.map P.marker) = c.join P := by
  obtain ⟨parts, tail⟩ := c
  induction parts with
  | nil => simp [weave, Cut.gaps, Cut.arguments]
  | cons part parts ih => rw [Cut.join_cons, ← ih]; rfl

end Label

end Numbering
