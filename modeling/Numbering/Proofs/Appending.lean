import Numbering.Proofs.Independence
import Numbering.Proofs.Unchanged

/-! Texts that grow at the end. The search of the longer text takes all markers that it takes in the shorter one
and goes on in the tail behind them. A marker at the end gives it just one more: the tail holds none, and the
next one that is taken leaves too little of the marker at the end for another. -/

namespace Numbering

namespace Label

variable {P : Label} {wanted : Argument → Bool} {a : Argument} {g t : Text}

/-! ### The search of a longer text -/

theorem cut_join_append {c : Cut} (leaves : P.Leaves wanted c) (u : Text) :
    P.cut wanted (c.join P ++ u) = Cut.append ⟨c.parts, []⟩ (P.cut wanted (c.tail ++ u)) := by
  obtain ⟨parts, tail⟩ := c
  induction parts with
  | nil => rw [Cut.join_nil, Cut.nil_append, Cut.prepend_nil]
  | cons p ps ih =>
    obtain ⟨⟨argument, free⟩, others⟩ := List.forall_mem_cons.1 leaves.1
    rw [Cut.join_cons, List.append_assoc, List.append_assoc, cut_gap free argument, ih ⟨others, leaves.2⟩,
      Cut.eq_mark_prepend, Cut.prepend_append, Cut.mark_append]

/-- The search takes the markers of the first text and goes on in what it left as the tail. -/
theorem cut_append_text (t u : Text) : P.cut wanted (t ++ u) =
    Cut.append ⟨(P.cut wanted t).parts, []⟩ (P.cut wanted ((P.cut wanted t).tail ++ u)) := by
  have leaves : P.Leaves wanted (P.cut wanted t) := leaves_cut t
  have search := cut_join_append leaves u
  rwa [join_cut] at search

theorem sitesFrom_append (p : Position) (c d : Cut) : P.sitesFrom p (c.append d).parts =
    P.sitesFrom p c.parts ++ P.sitesFrom (p.after (c.join P)) d.parts := by
  obtain ⟨parts, tail⟩ := c
  induction parts generalizing p with
  | nil => rw [Cut.nil_append, sitesFrom_prepend, Cut.join_nil, sitesFrom_nil, List.nil_append]
  | cons part parts ih =>
    rw [Cut.eq_mark_prepend, Cut.prepend_append, Cut.mark_append, sitesFrom_prepend, sitesFrom_mark, ih,
      sitesFrom_prepend, sitesFrom_mark, Cut.join_prepend, Cut.join_mark, Position.after_after,
      Position.after_after, List.cons_append, List.append_assoc]

theorem sites_prefix_append (t u : Text) : P.sites t <+: P.sites (t ++ u) := by
  rw [sites, sites, cut_append_text, sitesFrom_append]
  exact List.prefix_append ..

/-! ### A marker at the end -/

/-- Behind its start a marker holds no marker. -/
theorem free_of_marker {x y : Text} (marker : P.marker a = x ++ y) (front : x ≠ []) : P.Free wanted y := by
  rintro b - ⟨before, after, rfl⟩
  have whole : (x ++ before) ++ (P.marker b ++ after) = P.marker a ++ [] := by
    rw [marker]
    simp only [List.append_assoc, List.append_nil]
  obtain ⟨v, -, rest⟩ := ends_in_label (List.append_ne_nil_of_left_ne_nil front before) whole
  simp [Argument.inParentheses] at rest

/-- Behind a stretch without markers the search takes one marker, though it may be another than the one at the
end: if it starts in the stretch, it takes the start of that one along. -/
theorem Leaves.count_eq_one {c : Cut} (leaves : P.Leaves wanted c) (free : P.Free wanted g) (ha : wanted a)
    (whole : c.join P = g ++ P.marker a) : c.count = 1 := by
  obtain ⟨_ | ⟨p, ps⟩, tail⟩ := c
  · exact absurd ⟨g, [], by simp [← whole]⟩ (leaves.2 a ha)
  · obtain ⟨⟨hp, -⟩, others⟩ := List.forall_mem_cons.1 leaves.1
    have outside : ¬ P.marker p.argument <:+: g := free p.argument hp
    rw [Cut.join_cons, ← List.append_assoc] at whole
    have rest : P.Free wanted (Cut.join P ⟨ps, tail⟩) := by
      rcases List.append_eq_append_iff.1 whole with ⟨x, rfl, -⟩ | ⟨x, first, marker⟩
      · exact absurd ⟨p.gap, x, rfl⟩ outside
      · refine free_of_marker marker ?_
        rintro rfl
        rw [List.append_nil] at first
        exact outside ⟨p.gap, [], by rw [List.append_nil, first]⟩
    have search : P.cut wanted (Cut.join P ⟨ps, tail⟩) = ⟨ps, tail⟩ := cut_join ⟨others, leaves.2⟩
    have none : (Cut.mk ps tail).count = 0 := by rwa [free_iff_count, search] at rest
    exact congrArg (· + 1) none

theorem length_sites_append_marker (t : Text) (a : Argument) :
    (P.sites (t ++ P.marker a)).length = (P.sites t).length + 1 := by
  have tail : P.Free (fun _ => true) (P.cut (fun _ => true) t).tail := (leaves_cut t).2
  have last : (P.cut (fun _ => true) ((P.cut (fun _ => true) t).tail ++ P.marker a)).count = 1 :=
    (leaves_cut _).count_eq_one tail rfl (join_cut _)
  rw [length_sites, length_sites, cut_append_text, Cut.count_append, last]
  rfl

-- here a marker that is left open takes the start of the marker at the end
example :
    let P : Label := ⟨"0)".toList, by decide, by decide⟩
    (P.sites ("0)(1".toList ++ P.marker (.ofNat 5))).map (·.text) = ["0)(10)".toList] := by
  decide +kernel

/-- Without a closing parenthesis in the label, the marker at the end is found as it stands. -/
theorem sites_append_marker (noClosing : ')' ∉ P.text) (t : Text) (a : Argument) :
    P.sites (t ++ P.marker a) = P.sites t ++ [⟨Position.start.after t, P.marker a, a.digits⟩] := by
  have free : P.Free (fun _ => true) ((P.cut (fun _ => true) t).tail ++ P.text) :=
    (free_append_text noClosing).2 (leaves_cut t).2
  have last := cut_gap (t := []) (a := a) free rfl
  rw [List.append_nil, cut_nil] at last
  have whole : Cut.join P ⟨(P.cut (fun _ => true) t).parts, []⟩ ++ (P.cut (fun _ => true) t).tail = t :=
    (Cut.join_append_tail P _).trans (join_cut t)
  rw [sites, sites, cut_append_text, sitesFrom_append, last, sitesFrom_prepend, sitesFrom_mark,
    Position.after_after, whole, sitesFrom_nil]

/-- A renumbered text stays so with the next marker at its end. -/
theorem renumber_append_marker (noClosing : ')' ∉ P.text) (t : Text) :
    let u := (P.renumber t).text ++ P.marker (.ofNat (P.sites t).length)
    P.renumber u = ⟨u, (P.sites t).length + 1⟩ := by
  intro u
  have gaps : (P.cut (fun _ => true) (P.renumber t).text).gaps = (P.cut (fun _ => true) t).gaps :=
    gaps_cut_outcome (s := .all) rfl t
  have length : (P.sites (P.renumber t).text).length = (P.sites t).length := P.length_sites_of_gaps gaps
  have again : (P.renumber (P.renumber t).text).text = (P.renumber t).text := by rw [P.renumber_of_gaps gaps]
  have sites : P.sites u = P.sites (P.renumber t).text ++ [_] := sites_append_marker noClosing _ _
  have text : (P.renumber u).text = u := by
    refine text_renumber_eq_self_iff.2 fun k s get => ?_
    rw [sites, List.getElem?_append] at get
    split at get
    · exact text_renumber_eq_self_iff.1 again k s get
    · obtain ⟨lt, rfl⟩ := List.getElem?_eq_some_iff.1 get
      have last : k = (P.sites t).length := by
        rw [List.length_singleton] at lt
        omega
      simp [last]
  have matched : (P.renumber u).matched = (P.sites t).length + 1 := by
    rw [renumber_eq, ← length, ← length_sites_append_marker]
  rw [← matched]
  exact congrArg (Outcome.mk · (P.renumber u).matched) text

/-- What stands behind a text changes nothing of its sites, and a marker at the end is one more site. Where the
label has no closing parenthesis it is the site of that marker, and behind a renumbered text the next number
leaves nothing to renumber. -/
theorem appending_keeps_sites (P : Label) (t : Text) :
    (∀ u, P.sites t <+: P.sites (t ++ u)) ∧
      (∀ n, (P.sites (t ++ P.marker (.ofNat n))).length = (P.sites t).length + 1) ∧
      (')' ∉ P.text →
        (∀ n, P.sites (t ++ P.marker (.ofNat n)) =
          P.sites t ++ [⟨⟨t.size, 1 + t.newlines⟩, P.marker (.ofNat n), Nat.toDigits 10 n⟩]) ∧
        let u := (P.renumber t).text ++ P.marker (.ofNat (P.sites t).length)
        P.renumber u = ⟨u, (P.sites t).length + 1⟩) := by
  refine ⟨sites_prefix_append t, fun n => length_sites_append_marker t _,
    fun noClosing => ⟨fun n => ?_, renumber_append_marker noClosing t⟩⟩
  have sites := sites_append_marker noClosing t (.ofNat n)
  rwa [Position.after, Position.start, Nat.zero_add] at sites

/-- A marker behind one that is left open. -/
theorem appending_keeps_sites_open :
    let P : Label := ⟨"x(1".toList, by decide, by decide⟩
    let t : Text := "x(1(7)\nx(1(5)x(1".toList
    let u : Text := "x(1(0)\nx(1(1)x(1x(1(2)".toList
    ')' ∉ P.text ∧ (P.sites (t ++ P.marker (.ofNat 12))).map (·.line) = [1, 2, 2] ∧ P.renumber u = ⟨u, 3⟩ := by
  intro P t u
  have noClosing : ')' ∉ P.text := by decide
  obtain ⟨sites, renumbered⟩ := (appending_keeps_sites P t).2.2 noClosing
  refine ⟨noClosing, ?_, ?_⟩
  · rw [sites]
    decide +kernel
  · have whole : (P.renumber t).text ++ P.marker (.ofNat (P.sites t).length) = u := by decide +kernel
    have count : (P.sites t).length = 2 := by decide +kernel
    rwa [whole, count] at renumbered

end Label

end Numbering
