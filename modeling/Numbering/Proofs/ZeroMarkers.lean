import Numbering.Proofs.Disjoint
import Numbering.Proofs.Renumbering

/-! The search of the enumerate pass. It looks for zero markers alone, so it may take one that starts inside
another marker, where the search for all markers goes on behind that. The two agree on a text exactly as far
as each zero marker starts in a zero site, and then the pass numbers the zero sites and touches nothing else.
Markers of a label without a closing parenthesis never share a character, so for such a label they agree on
every text. -/

namespace Numbering

namespace Cut

variable (P : Label) (wanted : Argument → Bool)

/-- The cut at the wanted markers alone; the other markers are text. -/
def only (c : Cut) : Cut :=
  c.parts.foldr (fun p rest =>
    if wanted p.argument then (rest.mark p.argument).prepend p.gap
    else rest.prepend (p.gap ++ P.marker p.argument)) ⟨[], c.tail⟩

/-- The parts where the wanted arguments are replaced, one after the other. -/
def replaceIn : (Nat → Argument) → List Part → List Part
  | _, [] => []
  | f, p :: ps =>
    if wanted p.argument then { p with argument := f 0 } :: replaceIn (fun k => f (k + 1)) ps
    else p :: replaceIn f ps

/-- The same stretches, where the wanted argument at each index among the wanted ones gets a new argument. -/
def replace (f : Nat → Argument) (c : Cut) : Cut := { c with parts := replaceIn wanted f c.parts }

variable {P wanted}

@[simp] theorem only_nil (tail : Text) : only P wanted ⟨[], tail⟩ = ⟨[], tail⟩ := rfl

theorem only_cons (p : Part) (ps : List Part) (tail : Text) :
    only P wanted ⟨p :: ps, tail⟩ =
      if wanted p.argument then ((only P wanted ⟨ps, tail⟩).mark p.argument).prepend p.gap
      else (only P wanted ⟨ps, tail⟩).prepend (p.gap ++ P.marker p.argument) := rfl

theorem replaceIn_of_wanted {p : Part} (h : wanted p.argument) (f : Nat → Argument) (ps : List Part) :
    replaceIn wanted f (p :: ps) = { p with argument := f 0 } :: replaceIn wanted (fun k => f (k + 1)) ps := by
  rw [replaceIn, if_pos h]

theorem replaceIn_of_not_wanted {p : Part} (h : ¬ wanted p.argument) (f : Nat → Argument) (ps : List Part) :
    replaceIn wanted f (p :: ps) = p :: replaceIn wanted f ps := by
  rw [replaceIn, if_neg h]

theorem count_only (c : Cut) : (c.only P wanted).count = c.arguments.countP wanted := by
  obtain ⟨parts, tail⟩ := c
  induction parts with
  | nil => rfl
  | cons p ps ih =>
    rw [only_cons, arguments, List.map_cons, List.countP_cons]
    split <;> simp_all [arguments]

/-- New arguments for the wanted markers alone are the same as new arguments at their places. -/
theorem join_withArguments_only (f : Nat → Argument) (c : Cut) :
    ((c.only P wanted).withArguments f).join P = (c.replace wanted f).join P := by
  obtain ⟨parts, tail⟩ := c
  simp only [replace]
  induction parts generalizing f with
  | nil => rfl
  | cons p ps ih =>
    rw [only_cons, replaceIn]
    split
    · rw [withArguments_prepend, withArguments_mark, join_prepend, join_mark, ih, join_cons]
    · rw [withArguments_prepend, join_prepend, ih, join_cons, List.append_assoc]

theorem gaps_replace (f : Nat → Argument) (c : Cut) : (c.replace wanted f).gaps = c.gaps := by
  obtain ⟨parts, tail⟩ := c
  refine gaps_eq_iff.2 ⟨?_, rfl⟩
  simp only [replace]
  induction parts generalizing f with
  | nil => rfl
  | cons p ps ih =>
    rw [replaceIn]
    split <;> simp [ih]

/-- A wanted argument gets the new one at the number of wanted arguments before it. -/
theorem arguments_replace (f : Nat → Argument) (c : Cut) :
    (c.replace wanted f).arguments = c.arguments.mapIdx fun i a =>
      if wanted a then f ((c.arguments.take i).countP wanted) else a := by
  obtain ⟨parts, tail⟩ := c
  simp only [arguments, replace]
  induction parts generalizing f with
  | nil => rfl
  | cons p ps ih =>
    rw [replaceIn, List.map_cons, List.mapIdx_cons]
    split
    · rename_i h
      simp [ih, h]
    · rename_i h
      simp [ih, h]

end Cut

theorem Argument.isZero_iff_digits (a : Argument) : a.isZero ↔ a.digits = ['0'] := by
  rw [isZero_iff, Argument.ext_iff, digits_zero]

namespace Label

variable {P : Label} {wanted : Argument → Bool} {t : Text}

/-! ### Where the searches agree -/

/-- Where no wanted marker starts the search goes on. -/
theorem cut_skip {g rest : Text} (none : ∀ i a, i < g.size → wanted a → ¬ P.Occurs (g ++ rest) i a) :
    P.cut wanted (g ++ rest) = (P.cut wanted rest).prepend g := by
  induction g with
  | nil => simp
  | cons c g ih =>
    have start : P.read? wanted (c :: (g ++ rest)) = Option.none := by
      rw [read?_eq_none_iff]
      intro a after ha whole
      have first : 0 < Text.size (c :: g) := by
        have := c.utf8Size_pos
        rw [Text.size_cons]
        omega
      exact none 0 a first ha ⟨[], after, by simpa using whole, rfl⟩
    have behind (i : Nat) (a : Argument) (lt : i < Text.size g) (ha : wanted a) : ¬ P.Occurs (g ++ rest) i a := by
      intro occurs
      refine none (Text.size [c] + i) a ?_ ha (occurs.append_left [c])
      simp only [Text.size_cons, Text.size_nil]
      omega
    rw [List.cons_append, cut_cons start, ih behind, Cut.prepend_prepend]
    rfl

theorem le_offset_of_mem_sitesFrom {p : Position} {parts : List Part} {s : Site}
    (h : s ∈ P.sitesFrom p parts) : p.offset ≤ s.offset := by
  obtain ⟨before, part, -, -, rfl⟩ := exists_part_of_mem_sitesFrom h
  exact Nat.le_add_right ..

theorem isZero_site (p : Position) (text : Text) (a : Argument) :
    (⟨p, text, a.digits⟩ : Site).isZero = a.isZero := by
  rw [Bool.eq_iff_iff, Argument.isZero_iff_digits]
  simp [Site.isZero]

/-- Each zero marker of the text starts in a zero site. -/
def ZerosInZeroSites (P : Label) (t : Text) : Prop :=
  ∀ i, P.Occurs t i .zero → ∃ s ∈ P.sites t, s.isZero ∧ s.offset ≤ i ∧ i < s.stop

private theorem cut_isZero_join (before : Text) {c : Cut} (leaves : P.Leaves (fun _ => true) c)
    (zeros : ∀ i, before.size ≤ i → P.Occurs (before ++ c.join P) i .zero →
      ∃ s ∈ P.sitesFrom (Position.start.after before) c.parts, s.isZero ∧ s.offset ≤ i ∧ i < s.stop) :
    P.cut Argument.isZero (c.join P) = c.only P Argument.isZero := by
  obtain ⟨parts, tail⟩ := c
  induction parts generalizing before with
  | nil => exact cut_of_free (leaves.2.mono fun _ _ => rfl)
  | cons part parts ih =>
    obtain ⟨⟨-, free⟩, others⟩ := List.forall_mem_cons.1 leaves.1
    rw [Cut.append_join_cons, sitesFrom_cons, Position.after_after, Position.after_after] at zeros
    have rest := ih (before ++ (part.gap ++ P.marker part.argument)) ⟨others, leaves.2⟩ (by
      intro i le occurs
      obtain ⟨s, mem, zero, bounds⟩ := zeros i (by rw [Text.size_append] at le; omega) occurs
      rcases List.mem_cons.1 mem with rfl | mem
      · -- the site ends where the rest starts
        simp only [Site.stop, Position.after, Position.start, Text.size_append] at bounds le
        omega
      · exact ⟨s, mem, zero, bounds⟩)
    rw [Cut.join_cons, Cut.only_cons]
    split
    · rename_i zero
      rw [cut_gap (free.mono fun _ _ => rfl) zero, rest]
    · rename_i other
      rw [← List.append_assoc, cut_skip, rest]
      intro i a lt ha occurs
      obtain rfl := Argument.isZero_iff.1 ha
      have occurs := occurs.append_left before
      rw [← List.append_assoc] at occurs
      obtain ⟨s, mem, zero, le, -⟩ := zeros _ (by omega) occurs
      rcases List.mem_cons.1 mem with rfl | mem
      · exact other (isZero_site _ _ _ ▸ zero)
      · have := le_offset_of_mem_sitesFrom mem
        simp only [Position.after, Position.start, Text.size_append] at this lt
        omega

theorem cut_isZero_eq_only (h : P.ZerosInZeroSites t) :
    P.cut Argument.isZero t = (P.cut (fun _ => true) t).only P Argument.isZero := by
  have agree := cut_isZero_join (P := P) [] (leaves_cut t)
  rw [join_cut] at agree
  exact agree fun i _ occurs => h i occurs

/-! ### The sites of a search -/

theorem sitesFrom_prepend (p : Position) (t : Text) (c : Cut) :
    P.sitesFrom p (c.prepend t).parts = P.sitesFrom (p.after t) c.parts := by
  obtain ⟨_ | ⟨part, parts⟩, tail⟩ := c
  · rfl
  · simp [Cut.prepend, sitesFrom_cons]

theorem sitesFrom_mark (p : Position) (a : Argument) (c : Cut) :
    P.sitesFrom p (c.mark a).parts =
      ⟨p, P.marker a, a.digits⟩ :: P.sitesFrom (p.after (P.marker a)) c.parts := by
  simp [Cut.mark, sitesFrom_cons]

theorem sitesFrom_only (p : Position) (c : Cut) :
    P.sitesFrom p (c.only P Argument.isZero).parts = (P.sitesFrom p c.parts).filter Site.isZero := by
  obtain ⟨parts, tail⟩ := c
  induction parts generalizing p with
  | nil => rfl
  | cons part parts ih =>
    rw [Cut.only_cons, sitesFrom_cons, List.filter_cons, isZero_site]
    split
    · rw [sitesFrom_prepend, sitesFrom_mark, Position.after_after, ih]
    · rw [sitesFrom_prepend, ih]

/-- The search for zero markers takes the zero sites exactly if no zero marker starts elsewhere. -/
theorem hits_isZero_iff :
    P.hits Argument.isZero t = (P.sites t).filter Site.isZero ↔ P.ZerosInZeroSites t := by
  constructor
  · intro same i occurs
    obtain ⟨s, mem, bounds⟩ := covers_hits (Argument.isZero_iff.2 rfl) occurs
    rw [same] at mem
    obtain ⟨mem, zero⟩ := List.mem_filter.1 mem
    exact ⟨s, mem, zero, bounds⟩
  · intro h
    rw [hits, cut_isZero_eq_only h, sitesFrom_only]
    rfl

/-! ### Labels without a closing parenthesis -/

theorem zerosInZeroSites_of_noClosing (noClosing : ')' ∉ P.text) (t : Text) : P.ZerosInZeroSites t := by
  intro i occurs
  obtain ⟨s, mem, rfl, argument⟩ := (occurs_iff_mem_sites noClosing).1 occurs
  exact ⟨s, mem, by simp [Site.isZero, argument], Nat.le_refl _, offset_lt_stop mem⟩

/-! ### The numbered text -/

/-- The arguments where each zero is replaced by the number of zeros before it. -/
def numberZeros (arguments : List Text) : List Text :=
  arguments.mapIdx fun i digits =>
    if digits = ['0'] then Nat.toDigits 10 ((arguments.take i).count ['0']) else digits

theorem count_digits_zero (arguments : List Argument) :
    (arguments.map Argument.digits).count ['0'] = arguments.countP Argument.isZero := by
  rw [List.count, List.countP_map]
  refine List.countP_congr fun a _ => ?_
  rw [Argument.isZero_iff_digits]
  simp

theorem digits_replace (c : Cut) :
    (c.replace Argument.isZero .ofNat).arguments.map Argument.digits =
      numberZeros (c.arguments.map Argument.digits) := by
  rw [Cut.arguments_replace, numberZeros]
  apply List.ext_getElem
  · simp
  · intro i _ _
    simp only [List.getElem_map, List.getElem_mapIdx, ← List.map_take, count_digits_zero,
      ← Argument.isZero_iff_digits]
    split <;> rfl

theorem enumerate_eq (h : P.ZerosInZeroSites t) :
    P.enumerate t = ⟨((P.cut (fun _ => true) t).replace Argument.isZero .ofNat).join P,
      (P.cut (fun _ => true) t).arguments.countP Argument.isZero⟩ := by
  rw [enumerate, cut_isZero_eq_only h]
  simp only [Cut.join_withArguments_only, Cut.count_only]

/-- The enumerate pass takes just the zero sites exactly if no zero marker starts elsewhere, as always where
the label has no closing parenthesis; then it numbers the zero sites in order, and the search finds all other
markers as they were, between the same stretches. -/
theorem enumerate_numbers_zero_sites (P : Label) (t : Text) :
    (P.hits Argument.isZero t = (P.sites t).filter Site.isZero ↔ P.ZerosInZeroSites t) ∧
      (')' ∉ P.text → P.ZerosInZeroSites t) ∧
      (P.ZerosInZeroSites t →
        let arguments := numberZeros ((P.sites t).map (·.argument))
        (P.enumerate t).matched = (P.sites t).countP Site.isZero ∧
        (P.enumerate t).text =
          weave (t.stretches (P.sites t)) (arguments.map fun digits => P.text ++ '(' :: (digits ++ [')'])) ∧
        P.Renewed t (P.enumerate t).text arguments) := by
  refine ⟨hits_isZero_iff, fun noClosing => zerosInZeroSites_of_noClosing noClosing t, fun h => ?_⟩
  have same : ((P.cut (fun _ => true) t).replace Argument.isZero .ofNat).gaps =
      (P.cut (fun _ => true) t).gaps := Cut.gaps_replace ..
  have renewed := P.renewed_join same
  rw [digits_replace, ← arguments_sites] at renewed
  rw [enumerate_eq h]
  refine ⟨?_, ?_, renewed⟩
  · have zeros := count_digits_zero (P.cut (fun _ => true) t).arguments
    rw [← arguments_sites, List.count, List.countP_map] at zeros
    exact zeros.symm
  · rw [P.join_of_gaps same, arguments_sites, ← digits_replace, List.map_map]
    rfl

/-- A label may hold a parenthesis, and markers may still stand apart. -/
theorem enumerate_numbers_zero_sites_apart :
    let P : Label := ⟨"0)".toList, by decide, by decide⟩
    let t : Text := "0)(0) 0)(00)\n0)(0)0)(7)".toList
    P.ZerosInZeroSites t ∧ (P.enumerate t).matched = 2 ∧
      P.Renewed t (P.enumerate t).text [['0'], ['0', '0'], ['1'], ['7']] := by
  intro P t
  have h : P.ZerosInZeroSites t := hits_isZero_iff.1 (by decide +kernel)
  obtain ⟨matched, -, renewed⟩ := (enumerate_numbers_zero_sites P t).2.2 h
  have arguments : numberZeros ((P.sites t).map (·.argument)) = [['0'], ['0', '0'], ['1'], ['7']] := by
    decide +kernel
  exact ⟨h, matched.trans (by decide +kernel), arguments ▸ renewed⟩

/-- A zero marker between two other markers, which starts in the one and ends in the other, is taken all the
same; and its number breaks the marker in whose label it ends. -/
theorem enumerate_breaks_marker :
    let P : Label := ⟨"0)".toList, by decide, by decide⟩
    let t : Text := "0)(0)0)(10)(0)(5)".toList
    (P.sites t).map (·.argument) = [['0'], ['1', '0'], ['5']] ∧
      (P.enumerate t).matched ≠ (P.sites t).countP Site.isZero ∧
      (P.sites (P.enumerate t).text).map (·.argument) = [['0'], ['1', '0']] := by
  decide +kernel

end Label

end Numbering
