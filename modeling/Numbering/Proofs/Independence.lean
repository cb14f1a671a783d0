import Numbering.Proofs.Forgetting
import Numbering.Proofs.Seams

/-! Two labels. A marker ends with a closing parenthesis, and if its label has none it holds no other. So where
a marker of one such label meets a marker of another, they end together, and one of the labels ends with the
other. Where neither does, the markers of both stand apart in every text: to rewrite the markers of one label
rewrites the stretches between those of the other and nothing else, and the two may be rewritten in either
order. -/

namespace Numbering

/-- Where a text is split at a character in two ways, one of the places stands before the other. -/
theorem Text.split_cases {c : Char} {t u v w : Text} (h : t ++ c :: u = v ++ c :: w) :
    t = v ∧ u = w ∨ c ∈ u ∧ c ∈ v ∨ c ∈ t ∧ c ∈ w := by
  rcases List.append_eq_append_iff.1 h with ⟨x, rfl, rest⟩ | ⟨x, rfl, rest⟩ <;> cases x <;> simp_all

namespace Cut

/-- The cut whose stretches are rewritten one after the other, as if they were one text. -/
def rewriteGaps (P : Label) (wanted : Argument → Bool) (f : Nat → Argument) (c : Cut) : Cut :=
  c.parts.foldr (fun p rest f =>
    ((rest fun k => f (k + (P.cut wanted p.gap).count)).mark p.argument).prepend (P.rewrite wanted f p.gap))
    (fun f => ⟨[], P.rewrite wanted f c.tail⟩) f

variable {P : Label} {wanted : Argument → Bool}

theorem rewriteGaps_cons (f : Nat → Argument) (p : Part) (ps : List Part) (tail : Text) :
    rewriteGaps P wanted f ⟨p :: ps, tail⟩ =
      ((rewriteGaps P wanted (fun k => f (k + (P.cut wanted p.gap).count)) ⟨ps, tail⟩).mark
        p.argument).prepend (P.rewrite wanted f p.gap) := rfl

theorem arguments_rewriteGaps (f : Nat → Argument) (c : Cut) :
    (c.rewriteGaps P wanted f).arguments = c.arguments := by
  obtain ⟨parts, tail⟩ := c
  induction parts generalizing f with
  | nil => rfl
  | cons p ps ih =>
    rw [rewriteGaps_cons, prepend_mark]
    exact congrArg (p.argument :: ·) (ih _)

theorem count_rewriteGaps (f : Nat → Argument) (c : Cut) : (c.rewriteGaps P wanted f).count = c.count := by
  have arguments : (c.rewriteGaps P wanted f).arguments = c.arguments := arguments_rewriteGaps f c
  simpa only [count, Cut.arguments, List.length_map] using congrArg List.length arguments

/-- What a rewriting leaves of a text it leaves of the stretches. -/
theorem map_gaps_rewriteGaps {β : Type} {F : Text → β} (same : ∀ f g, F (P.rewrite wanted f g) = F g)
    (f : Nat → Argument) (c : Cut) : (c.rewriteGaps P wanted f).gaps.map F = c.gaps.map F := by
  obtain ⟨parts, tail⟩ := c
  induction parts generalizing f with
  | nil => exact congrArg (fun x => [x]) (same f tail)
  | cons p ps ih =>
    rw [rewriteGaps_cons, prepend_mark]
    exact List.cons_eq_cons.2 ⟨same f p.gap, ih _⟩

theorem withArguments_rewriteGaps (f g : Nat → Argument) (c : Cut) :
    (c.rewriteGaps P wanted f).withArguments g = (c.withArguments g).rewriteGaps P wanted f := by
  obtain ⟨parts, tail⟩ := c
  induction parts generalizing f g with
  | nil => rfl
  | cons p ps ih =>
    rw [rewriteGaps_cons, withArguments_prepend, withArguments_mark, ih]
    simp [withArguments, rewriteGaps]

end Cut

namespace Label

variable {P Q : Label} {wanted chosen : Argument → Bool} {t u v : Text} {a b : Argument}

/-! ### The closing parenthesis -/

theorem suffix_of_opening (h : t ++ P.opening a = Q.opening b) : P.text <:+ Q.text := by
  have digits (a : Argument) : '(' ∉ a.digits := fun h => absurd (a.isDigit _ h) (by decide)
  rw [opening, opening, ← List.append_assoc] at h
  rcases Text.split_cases h with ⟨labels, -⟩ | ⟨inside, -⟩ | ⟨-, inside⟩
  · exact ⟨t, labels⟩
  · exact absurd inside (digits a)
  · exact absurd inside (digits b)

/-- No marker goes on behind a closing parenthesis. -/
theorem seam_of_closing (noClosing : ')' ∉ P.text) (u v : Text) : P.Seam wanted (u ++ [')']) v := by
  rintro a before after - marker front back ⟨w, ends⟩
  obtain ⟨before, c, rfl⟩ := (List.eq_nil_or_concat before).resolve_left front
  rw [List.concat_eq_append] at marker ends
  obtain rfl : c = ')' := by
    rw [← List.append_assoc] at ends
    simpa using (List.append_inj' ends rfl).2
  obtain ⟨x, rfl, opening⟩ := closing_of_marker marker back
  refine absurd ?_ (not_mem_opening noClosing a)
  simp [opening]

/-- No marker ends in a text without a closing parenthesis. -/
theorem seam_of_not_mem (noClosing : ')' ∉ v) (u : Text) : P.Seam wanted u v := by
  rintro a before after - marker - back - starts
  obtain ⟨x, rfl, -⟩ := closing_of_marker marker back
  exact noClosing (starts.subset (List.mem_append_right x List.mem_cons_self))

theorem free_append_text (noClosing : ')' ∉ P.text) : P.Free wanted (t ++ P.text) ↔ P.Free wanted t := by
  have label : (P.cut wanted P.text).count = 0 := free_iff_count.1 free_text
  simp only [free_iff_count, cut_append (seam_of_not_mem noClosing t), Cut.count_append, label, Nat.add_zero]

/-- Without a closing parenthesis in the label, a stretch can be told to be free without what follows. -/
theorem leaves_iff (noClosing : ')' ∉ P.text) {c : Cut} :
    P.Leaves wanted c ↔ (∀ a ∈ c.arguments, wanted a) ∧ ∀ g ∈ c.gaps, P.Free wanted g := by
  simp only [Leaves, free_append_text noClosing, Cut.arguments, Cut.gaps, List.forall_mem_map,
    List.forall_mem_append, List.forall_mem_singleton, forall_and, and_assoc]

/-! ### Labels apart -/

/-- Neither label has a closing parenthesis, and neither ends with the other. -/
structure Apart (P Q : Label) : Prop where
  left : ')' ∉ P.text
  right : ')' ∉ Q.text
  left_suffix : ¬ P.text <:+ Q.text
  right_suffix : ¬ Q.text <:+ P.text

theorem Apart.symm (apart : P.Apart Q) : Q.Apart P :=
  ⟨apart.right, apart.left, apart.right_suffix, apart.left_suffix⟩

/-- No marker of the one label goes on into a marker of the other. -/
theorem Apart.seam (apart : P.Apart Q) (u v : Text) (b : Argument) : P.Seam wanted u (Q.marker b ++ v) := by
  rintro a before after - marker - back - ⟨w, starts⟩
  obtain ⟨x, rfl, opening⟩ := closing_of_marker marker back
  rw [marker_eq, List.append_assoc, List.append_assoc] at starts
  rcases Text.split_cases starts with ⟨rfl, -⟩ | ⟨-, inside⟩ | ⟨inside, -⟩
  · exact apart.right_suffix (suffix_of_opening opening.symm)
  · exact not_mem_opening apart.right b inside
  · exact not_mem_opening apart.left a (opening ▸ List.mem_append_right before inside)

/-- No marker of the one label stands inside a marker of the other. -/
theorem Apart.free (apart : P.Apart Q) (b : Argument) : P.Free wanted (Q.marker b) := by
  rintro a - ⟨before, after, whole⟩
  rw [marker_eq, marker_eq, ← List.append_assoc, List.append_assoc] at whole
  rcases Text.split_cases whole with ⟨opening, -⟩ | ⟨-, inside⟩ | ⟨-, inside⟩
  · exact apart.left_suffix (suffix_of_opening opening)
  · exact not_mem_opening apart.right b inside
  · cases inside

/-- A text is searched on both sides of a marker of the other label, each side as if it stood alone. -/
theorem Apart.cut_append_marker (apart : P.Apart Q) (u v : Text) (b : Argument) :
    P.cut wanted (u ++ (Q.marker b ++ v)) =
      (P.cut wanted u).append ((P.cut wanted v).prepend (Q.marker b)) := by
  have behind : P.Seam wanted (Q.marker b) v := Q.marker_eq b ▸ seam_of_closing apart.left (Q.opening b) v
  rw [cut_append (apart.seam u v b), cut_append behind, cut_of_free (apart.free b), Cut.nil_append]

theorem Apart.rewrite_append_marker (apart : P.Apart Q) (f : Nat → Argument) (u v : Text) (b : Argument) :
    P.rewrite wanted f (u ++ (Q.marker b ++ v)) =
      P.rewrite wanted f u ++
        (Q.marker b ++ P.rewrite wanted (fun k => f (k + (P.cut wanted u).count)) v) := by
  rw [rewrite, apart.cut_append_marker, Cut.withArguments_append, Cut.withArguments_prepend, Cut.join_append,
    Cut.join_prepend]
  rfl

theorem Apart.free_append_marker (apart : P.Apart Q) :
    P.Free wanted (u ++ (Q.marker b ++ v)) ↔ P.Free wanted u ∧ P.Free wanted v := by
  simp only [free_iff_count, apart.cut_append_marker, Cut.count_append, Cut.count_prepend, Nat.add_eq_zero_iff]

theorem Apart.free_join (apart : P.Apart Q) {c : Cut} :
    P.Free wanted (c.join Q) ↔ ∀ g ∈ c.gaps, P.Free wanted g := by
  obtain ⟨parts, tail⟩ := c
  induction parts with
  | nil => simp [Cut.gaps]
  | cons p ps ih =>
    rw [Cut.join_cons, apart.free_append_marker, ih]
    exact List.forall_mem_cons.symm

/-! ### Rewriting with two labels -/

/-- To rewrite the markers of one label neither makes nor breaks a marker of the other. -/
theorem Apart.free_rewrite (apart : P.Apart Q) (f : Nat → Argument) (t : Text) :
    P.Free wanted (Q.rewrite chosen f t) ↔ P.Free wanted t := by
  have whole : (Q.cut chosen t).join Q = t := join_cut t
  rw [rewrite, apart.free_join, Cut.gaps_withArguments, ← apart.free_join, whole]

/-- To rewrite the markers of one label rewrites the stretches of the other. -/
theorem Apart.join_rewriteGaps (apart : P.Apart Q) (f : Nat → Argument) (c : Cut) :
    (c.rewriteGaps P wanted f).join Q = P.rewrite wanted f (c.join Q) := by
  obtain ⟨parts, tail⟩ := c
  induction parts generalizing f with
  | nil => rfl
  | cons p ps ih =>
    rw [Cut.rewriteGaps_cons, Cut.join_prepend, Cut.join_mark, ih, Cut.join_cons, apart.rewrite_append_marker]

theorem Apart.leaves_rewriteGaps (apart : P.Apart Q) (f : Nat → Argument) {c : Cut}
    (leaves : Q.Leaves chosen c) : Q.Leaves chosen (c.rewriteGaps P wanted f) := by
  obtain ⟨arguments, free⟩ := (leaves_iff apart.right).1 leaves
  have same : (c.rewriteGaps P wanted f).gaps.map (Q.Free chosen) = c.gaps.map (Q.Free chosen) :=
    Cut.map_gaps_rewriteGaps (fun f g => propext (apart.symm.free_rewrite f g)) f c
  have each : ∀ p ∈ (c.rewriteGaps P wanted f).gaps.map (Q.Free chosen), p := by
    rw [same]
    exact List.forall_mem_map.2 free
  rw [leaves_iff apart.right, Cut.arguments_rewriteGaps]
  exact ⟨arguments, fun g mem => each _ (List.mem_map_of_mem mem)⟩

/-- The markers of the one label are found again where those of the other are rewritten. -/
theorem Apart.cut_rewrite (apart : P.Apart Q) (f : Nat → Argument) (t : Text) :
    Q.cut chosen (P.rewrite wanted f t) = (Q.cut chosen t).rewriteGaps P wanted f := by
  rw [cut_eq_iff, apart.join_rewriteGaps, join_cut]
  exact ⟨rfl, apart.leaves_rewriteGaps f (leaves_cut t)⟩

theorem Apart.rewrite_comm (apart : P.Apart Q) (f g : Nat → Argument) (t : Text) :
    Q.rewrite chosen g (P.rewrite wanted f t) = P.rewrite wanted f (Q.rewrite chosen g t) := by
  calc Q.rewrite chosen g (P.rewrite wanted f t)
    _ = (((Q.cut chosen t).rewriteGaps P wanted f).withArguments g).join Q := by
      rw [rewrite, apart.cut_rewrite]
    _ = (((Q.cut chosen t).withArguments g).rewriteGaps P wanted f).join Q := by
      rw [Cut.withArguments_rewriteGaps]
    _ = P.rewrite wanted f (Q.rewrite chosen g t) := apart.join_rewriteGaps f _

/-! ### What is kept of the other label -/

theorem newlines_rewrite (f : Nat → Argument) (t : Text) : (P.rewrite wanted f t).newlines = t.newlines := by
  have kept (f : Nat → Argument) (c : Cut) : ((c.withArguments f).join P).newlines = (c.join P).newlines := by
    obtain ⟨parts, tail⟩ := c
    induction parts generalizing f with
    | nil => rfl
    | cons p ps ih =>
      rw [Cut.eq_mark_prepend, Cut.withArguments_prepend, Cut.withArguments_mark]
      simp [newlines_marker, ih]
  rw [rewrite, kept, join_cut]

theorem Apart.arguments_sites_rewrite (apart : P.Apart Q) (f : Nat → Argument) (t : Text) :
    (Q.sites (P.rewrite wanted f t)).map (·.argument) = (Q.sites t).map (·.argument) := by
  rw [arguments_sites, arguments_sites, apart.cut_rewrite, Cut.arguments_rewriteGaps]

theorem Apart.line_sites_rewrite (apart : P.Apart Q) (f : Nat → Argument) (t : Text) :
    (Q.sites (P.rewrite wanted f t)).map (·.line) = (Q.sites t).map (·.line) := by
  rw [sites, sites, apart.cut_rewrite]
  refine Q.line_sitesFrom_congr rfl ?_
  have newlines : ((Q.cut (fun _ => true) t).rewriteGaps P wanted f).gaps.map Text.newlines =
      (Q.cut (fun _ => true) t).gaps.map Text.newlines := Cut.map_gaps_rewriteGaps newlines_rewrite f _
  simp only [Cut.gaps, List.map_append] at newlines
  exact (List.append_inj' newlines rfl).1

/-- Where neither of two labels ends with the other, nor holds a closing parenthesis, the passes with the one and
with the other may be made in either order; and a pass with the one leaves the arguments and the lines of the
markers of the other, and how many of them each pass replaces. -/
theorem labels_are_independent {P Q : Label} (apart : P.Apart Q) (t : Text) (s s' : Selection) :
    (s'.outcome Q (s.outcome P t).text).text = (s.outcome P (s'.outcome Q t).text).text ∧
      (Q.sites (s.outcome P t).text).map (·.argument) = (Q.sites t).map (·.argument) ∧
      (Q.sites (s.outcome P t).text).map (·.line) = (Q.sites t).map (·.line) ∧
      (s'.outcome Q (s.outcome P t).text).matched = (s'.outcome Q t).matched := by
  simp only [Selection.outcome_eq]
  refine ⟨apart.rewrite_comm _ _ t, apart.arguments_sites_rewrite _ t, apart.line_sites_rewrite _ t, ?_⟩
  rw [apart.cut_rewrite, Cut.count_rewriteGaps]

/-- A label that starts with another one, and a marker of the other where one of its own is left open. -/
theorem labels_are_independent_nested :
    let P : Label := ⟨"x".toList, by decide, by decide⟩
    let Q : Label := ⟨"x(1".toList, by decide, by decide⟩
    let t : Text := "x(1(5)x(1)x(1x(4)\nx(1(0)".toList
    P.Apart Q ∧ (Q.renumber (P.renumber t).text).text = (P.renumber (Q.renumber t).text).text ∧
      (Q.renumber (P.renumber t).text).text = "x(1(0)x(0)x(1x(1)\nx(1(1)".toList ∧
      (Q.sites (P.renumber t).text).map (·.line) = [1, 2] := by
  intro P Q t
  have apart : P.Apart Q := ⟨by decide, by decide, by decide, by decide⟩
  obtain ⟨comm, -, line, -⟩ := labels_are_independent apart t .all .all
  exact ⟨apart, comm, by decide +kernel, line.trans (by decide +kernel)⟩

end Label

end Numbering
