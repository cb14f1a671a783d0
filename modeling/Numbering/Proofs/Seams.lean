import Numbering.Proofs.Renumbering

/-! Seams between texts. Where no marker begins in one text and ends in the next, both are searched as if each
stood alone: their cuts are put one behind the other, and the numbers go on across the seam. -/

namespace Numbering

namespace Cut

/-- One cut behind another; the tail of the first goes on in the second. -/
def append (c d : Cut) : Cut := ⟨c.parts ++ (d.prepend c.tail).parts, (d.prepend c.tail).tail⟩

@[simp] theorem nil_append (tail : Text) (d : Cut) : append ⟨[], tail⟩ d = d.prepend tail := rfl

@[simp] theorem mark_append (a : Argument) (c d : Cut) : (c.mark a).append d = (c.append d).mark a := rfl

@[simp] theorem prepend_append (t : Text) (c d : Cut) :
    (c.prepend t).append d = (c.append d).prepend t := by
  obtain ⟨_ | ⟨p, ps⟩, tail⟩ := c
  · rw [nil_append, prepend_prepend, prepend, nil_append]
  · rfl

theorem eq_mark_prepend (p : Part) (ps : List Part) (tail : Text) :
    (⟨p :: ps, tail⟩ : Cut) = (mark p.argument ⟨ps, tail⟩).prepend p.gap := by
  rw [prepend_mark]

@[simp] theorem count_append (c d : Cut) : (c.append d).count = c.count + d.count := by
  have := count_prepend c.tail d
  simp only [count, append, List.length_append] at this ⊢
  rw [this]

@[simp] theorem join_append (P : Label) (c d : Cut) : (c.append d).join P = c.join P ++ d.join P := by
  obtain ⟨parts, tail⟩ := c
  induction parts with
  | nil => rw [nil_append, join_prepend, join_nil]
  | cons p ps ih =>
    rw [eq_mark_prepend, prepend_append, mark_append]
    simp [ih]

theorem withArguments_append (f : Nat → Argument) (c d : Cut) :
    (c.append d).withArguments f = (c.withArguments f).append (d.withArguments fun k => f (k + c.count)) := by
  obtain ⟨parts, tail⟩ := c
  induction parts generalizing f with
  | nil => rw [nil_append, withArguments_prepend]; rfl
  | cons p ps ih =>
    rw [eq_mark_prepend, prepend_append, mark_append]
    simp only [withArguments_prepend, withArguments_mark, ih, prepend_append, mark_append, count_prepend,
      count_mark, Nat.add_assoc]

end Cut

namespace Label

variable {P : Label} {wanted : Argument → Bool} {t u v : Text}

/-- No wanted marker begins in the one text and ends in the other. -/
def Seam (P : Label) (wanted : Argument → Bool) (u v : Text) : Prop :=
  ∀ a before after, wanted a → P.marker a = before ++ after → before ≠ [] → after ≠ [] →
    before <:+ u → ¬ after <+: v

theorem Seam.of_append (seam : P.Seam wanted (t ++ u) v) : P.Seam wanted u v :=
  fun a before after ha marker front back ends => seam a before after ha marker front back
    (ends.trans (List.suffix_append t u))

/-- The two sides of a seam are searched apart. -/
theorem cut_append (seam : P.Seam wanted u v) :
    P.cut wanted (u ++ v) = (P.cut wanted u).append (P.cut wanted v) := by
  induction u using cut_induction P wanted with
  | nil => simp
  | marker t a rest h ih =>
    obtain ⟨ha, rfl⟩ := read?_eq_some_iff.1 h
    have first : P.read? wanted (P.marker a ++ (rest ++ v)) = some (a, rest ++ v) :=
      read?_eq_some_iff.2 ⟨ha, rfl⟩
    rw [List.append_assoc, cut_of_read? first, ih seam.of_append, cut_of_read? h, Cut.mark_append]
  | char c t h ih =>
    have start : P.read? wanted (c :: (t ++ v)) = none := by
      rw [read?_eq_none_iff] at h ⊢
      intro a rest ha whole
      rcases List.append_eq_append_iff.1 (show (c :: t) ++ v = _ from whole) with
        ⟨after, marker, rfl⟩ | ⟨after, marker, -⟩
      · by_cases inside : after = []
        · exact h a [] ha (by simp [marker, inside])
        · exact seam a (c :: t) after ha marker (List.cons_ne_nil c t) inside List.suffix_rfl
            (List.prefix_append after rest)
      · exact h a after ha marker
    rw [List.cons_append, cut_cons start, ih (seam.of_append (t := [c])), cut_cons h, Cut.prepend_append]

theorem free_iff_count : P.Free wanted t ↔ (P.cut wanted t).count = 0 := by
  constructor
  · intro free
    rw [cut_of_free free]
    rfl
  · intro none
    have leaves : P.Leaves wanted (P.cut wanted t) := leaves_cut t
    have whole : (P.cut wanted t).join P = t := join_cut t
    rw [Cut.join, List.length_eq_zero_iff.1 none] at whole
    have tail : (P.cut wanted t).tail = t := whole
    exact tail ▸ leaves.2

end Label

end Numbering
