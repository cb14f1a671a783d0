import Numbering.Marker

/-! Texts cut at markers. The search goes from left to right: where a wanted marker starts it is cut
out and the search goes on after it, and everywhere else it goes on at the next character. So no
marker is hidden by the beginning of another that is never completed. -/

namespace Numbering

/-- A stretch of text, and the argument of the marker that follows it. -/
structure Part where
  gap : Text
  argument : Argument
  deriving DecidableEq

structure Cut where
  parts : List Part
  /-- The text after the last marker. -/
  tail : Text
  deriving DecidableEq

namespace Cut

/-- The stretches before, between and after the markers. -/
def gaps (c : Cut) : List Text := c.parts.map Part.gap ++ [c.tail]

def arguments (c : Cut) : List Argument := c.parts.map Part.argument

/-- The number of markers. -/
def count (c : Cut) : Nat := c.parts.length

/-- The whole text, with markers of a label. -/
def join (P : Label) (c : Cut) : Text := c.parts.flatMap (fun p => p.gap ++ P.marker p.argument) ++ c.tail

/-- The same stretches, where the marker at each index gets a new argument. -/
def withArguments (f : Nat → Argument) (c : Cut) : Cut :=
  { c with parts := c.parts.mapIdx fun k p => { p with argument := f k } }

/-- A marker in front. -/
def mark (a : Argument) (c : Cut) : Cut := { c with parts := ⟨[], a⟩ :: c.parts }

/-- Text in front. -/
def prepend (t : Text) : Cut → Cut
  | ⟨[], tail⟩ => ⟨[], t ++ tail⟩
  | ⟨p :: ps, tail⟩ => ⟨{ p with gap := t ++ p.gap } :: ps, tail⟩

@[simp] theorem prepend_nil (c : Cut) : c.prepend [] = c := by
  obtain ⟨_ | _, _⟩ := c <;> rfl

@[simp] theorem prepend_prepend (t u : Text) (c : Cut) : (c.prepend u).prepend t = c.prepend (t ++ u) := by
  obtain ⟨_ | _, _⟩ := c <;> simp [prepend]

theorem prepend_mark (t : Text) (a : Argument) (c : Cut) :
    (c.mark a).prepend t = { c with parts := ⟨t, a⟩ :: c.parts } := by
  simp [mark, prepend]

@[simp] theorem join_nil (P : Label) (tail : Text) : join P ⟨[], tail⟩ = tail := rfl

theorem join_cons (P : Label) (p : Part) (ps : List Part) (tail : Text) :
    join P ⟨p :: ps, tail⟩ = p.gap ++ (P.marker p.argument ++ join P ⟨ps, tail⟩) := by
  simp [join]

theorem append_join_cons (P : Label) (before : Text) (p : Part) (ps : List Part) (tail : Text) :
    before ++ join P ⟨p :: ps, tail⟩ = before ++ (p.gap ++ P.marker p.argument) ++ join P ⟨ps, tail⟩ := by
  simp only [join_cons, List.append_assoc]

theorem join_append_tail (P : Label) (c : Cut) : join P ⟨c.parts, []⟩ ++ c.tail = c.join P := by
  simp [join]

/-- The text around the marker of a part. -/
theorem join_of_parts {P : Label} {c : Cut} {before after : List Part} {p : Part}
    (parts : c.parts = before ++ p :: after) :
    c.join P = join P ⟨before, []⟩ ++ p.gap ++ P.marker p.argument ++ join P ⟨after, c.tail⟩ := by
  rw [join, parts]
  simp [join]

@[simp] theorem join_mark (P : Label) (a : Argument) (c : Cut) :
    (c.mark a).join P = P.marker a ++ c.join P := by
  simp [join, mark]

@[simp] theorem join_prepend (P : Label) (t : Text) (c : Cut) : (c.prepend t).join P = t ++ c.join P := by
  obtain ⟨_ | _, _⟩ := c <;> simp [join, prepend]

@[simp] theorem count_mark (a : Argument) (c : Cut) : (c.mark a).count = c.count + 1 := rfl

@[simp] theorem count_prepend (t : Text) (c : Cut) : (c.prepend t).count = c.count := by
  obtain ⟨_ | _, _⟩ := c <;> rfl

@[simp] theorem count_withArguments (f : Nat → Argument) (c : Cut) :
    (c.withArguments f).count = c.count := by
  simp [count, withArguments]

@[simp] theorem gaps_withArguments (f : Nat → Argument) (c : Cut) : (c.withArguments f).gaps = c.gaps := by
  simp only [gaps, withArguments, List.append_left_inj]
  apply List.ext_getElem <;> simp

theorem gaps_eq_iff {c d : Cut} :
    d.gaps = c.gaps ↔ d.parts.map Part.gap = c.parts.map Part.gap ∧ d.tail = c.tail := by
  constructor
  · intro same
    obtain ⟨parts, tail⟩ := List.append_inj' same rfl
    exact ⟨parts, List.singleton_inj.1 tail⟩
  · rintro ⟨parts, tail⟩
    rw [gaps, parts, tail, gaps]

/-- New arguments for all markers leave nothing of a cut but its stretches. -/
theorem withArguments_of_gaps {c d : Cut} (same : d.gaps = c.gaps) (f : Nat → Argument) :
    d.withArguments f = c.withArguments f := by
  obtain ⟨parts, tail⟩ := gaps_eq_iff.1 same
  have renewed (c : Cut) :
      c.withArguments f = ⟨(c.parts.map Part.gap).mapIdx fun k gap => ⟨gap, f k⟩, c.tail⟩ := by
    simp only [withArguments, mk.injEq, and_true]
    apply List.ext_getElem <;> simp
  rw [renewed, renewed, parts, tail]

end Cut

/-! ### The search -/

namespace Label

variable (P : Label) (wanted : Argument → Bool)

/-- Cuts the text that is left, with what has been passed in reverse order: the parts, and the
characters since the last marker. -/
def cutFrom (parts : List Part) (gap t : Text) : Cut :=
  match _h : P.read? wanted t with
  | some (a, rest) => cutFrom (⟨gap.reverse, a⟩ :: parts) [] rest
  | none =>
    match t with
    | [] => ⟨parts.reverse, gap.reverse⟩
    | c :: t => cutFrom parts (c :: gap) t
termination_by t.length
decreasing_by
  · exact length_lt_of_read? _h
  · simp

/-- The text cut at its wanted markers. -/
def cut (t : Text) : Cut := P.cutFrom wanted [] [] t

variable {P wanted}

theorem read?_nil : P.read? wanted [] = none := by
  rw [Option.eq_none_iff_forall_ne_some]
  rintro ⟨a, rest⟩ h
  have := length_lt_of_read? h
  simp at this

/-- Induction along the search. -/
@[elab_as_elim] theorem cut_induction (P : Label) (wanted : Argument → Bool)
    {motive : Text → Prop} (t : Text) (nil : motive [])
    (marker : ∀ t a rest, P.read? wanted t = some (a, rest) → motive rest → motive t)
    (char : ∀ c t, P.read? wanted (c :: t) = none → motive t → motive (c :: t)) : motive t :=
  match h : P.read? wanted t with
  | some (a, rest) => marker t a rest h (cut_induction P wanted rest nil marker char)
  | none =>
    match t with
    | [] => nil
    | c :: t => char c t h (cut_induction P wanted t nil marker char)
termination_by t.length
decreasing_by
  · exact length_lt_of_read? h
  · simp

private theorem cutFrom_of_read? {t rest : Text} {a : Argument} (parts : List Part) (gap : Text)
    (h : P.read? wanted t = some (a, rest)) :
    P.cutFrom wanted parts gap t = P.cutFrom wanted (⟨gap.reverse, a⟩ :: parts) [] rest := by
  rw [cutFrom]
  split <;> simp_all

private theorem cutFrom_cons {c : Char} {t : Text} (parts : List Part) (gap : Text)
    (h : P.read? wanted (c :: t) = none) :
    P.cutFrom wanted parts gap (c :: t) = P.cutFrom wanted parts (c :: gap) t := by
  rw [cutFrom]
  split <;> simp_all

private theorem cutFrom_nil (parts : List Part) (gap : Text) :
    P.cutFrom wanted parts gap [] = ⟨parts.reverse, gap.reverse⟩ := by
  rw [cutFrom]
  split <;> simp_all [read?_nil]

private theorem cutFrom_eq (t : Text) (parts : List Part) (gap : Text) :
    P.cutFrom wanted parts gap t = { (P.cut wanted t).prepend gap.reverse with
      parts := parts.reverse ++ ((P.cut wanted t).prepend gap.reverse).parts } := by
  induction t using cut_induction P wanted generalizing parts gap with
  | nil => simp [cut, cutFrom_nil, Cut.prepend]
  | marker t a rest h ih =>
    have first : P.cut wanted t = (P.cut wanted rest).mark a := by
      rw [cut, cutFrom_of_read? _ _ h, ih]; simp [Cut.mark]
    rw [cutFrom_of_read? _ _ h, ih, first, Cut.prepend_mark]
    simp
  | char c t h ih =>
    have first : P.cut wanted (c :: t) = (P.cut wanted t).prepend [c] := by
      rw [cut, cutFrom_cons _ _ h, ih]; simp
    rw [cutFrom_cons _ _ h, ih, first]
    simp

@[simp] theorem cut_nil : P.cut wanted [] = ⟨[], []⟩ := cutFrom_nil [] []

theorem cut_of_read? {t rest : Text} {a : Argument} (h : P.read? wanted t = some (a, rest)) :
    P.cut wanted t = (P.cut wanted rest).mark a := by
  rw [cut, cutFrom_of_read? _ _ h, cutFrom_eq]
  simp [Cut.mark]

theorem cut_cons {c : Char} {t : Text} (h : P.read? wanted (c :: t) = none) :
    P.cut wanted (c :: t) = (P.cut wanted t).prepend [c] := by
  rw [cut, cutFrom_cons _ _ h, cutFrom_eq]
  simp

theorem join_cut (t : Text) : (P.cut wanted t).join P = t := by
  induction t using cut_induction P wanted with
  | nil => simp [Cut.join]
  | marker t a rest h ih => rw [cut_of_read? h, Cut.join_mark, ih, (read?_eq_some_iff.1 h).2]
  | char c t h ih => rw [cut_cons h, Cut.join_prepend, ih]; rfl

end Label

end Numbering
