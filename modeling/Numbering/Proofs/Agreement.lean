import Numbering.Proofs.ZeroMarkers

/-! Where all searches agree. The markers of a label without a closing parenthesis stand apart, so every marker
of a text is a site, and the search for zero markers takes the zero sites. To enumerate leaves one zero at most,
the first number; so to enumerate once more replaces that one by itself. -/

namespace Numbering

theorem Argument.isZero_ofNat {k : Nat} : (ofNat k).isZero ↔ k = 0 := by
  rw [isZero_iff, zero]
  constructor
  · intro same
    have digits : Nat.toDigits 10 k = Nat.toDigits 10 0 := congrArg Argument.digits same
    have number := congrArg (fun ds => Nat.ofDigitChars 10 ds 0) digits
    simpa only [Nat.ofDigitChars_toDigits (by decide : 1 < 10) (Nat.le_refl 10)] using number
  · rintro rfl
    rfl

theorem Argument.not_isZero_succ (k : Nat) : ¬ (ofNat (k + 1)).isZero :=
  fun zero => absurd (isZero_ofNat.1 zero) (Nat.succ_ne_zero k)

namespace Cut

variable {wanted : Argument → Bool} {f : Nat → Argument}

/-! ### Replacing twice -/

theorem replaceIn_eq_self {ps : List Part} (none : ∀ p ∈ ps, ¬ wanted p.argument) :
    replaceIn wanted f ps = ps := by
  induction ps with
  | nil => rfl
  | cons p ps ih =>
    obtain ⟨first, others⟩ := List.forall_mem_cons.1 none
    rw [replaceIn_of_not_wanted first, ih others]

theorem not_wanted_of_mem_replaceIn (unwanted : ∀ k, ¬ wanted (f k)) (ps : List Part) :
    ∀ p ∈ replaceIn wanted f ps, ¬ wanted p.argument := by
  induction ps generalizing f with
  | nil => simp [replaceIn]
  | cons p ps ih =>
    by_cases h : wanted p.argument
    · rw [replaceIn_of_wanted h]
      exact List.forall_mem_cons.2 ⟨unwanted 0, ih fun k => unwanted (k + 1)⟩
    · rw [replaceIn_of_not_wanted h]
      exact List.forall_mem_cons.2 ⟨h, ih unwanted⟩

/-- Where the first of the new arguments alone is a wanted one, it is all that is replaced the second time. -/
theorem replaceIn_replaceIn (first : wanted (f 0)) (later : ∀ k, ¬ wanted (f (k + 1))) (ps : List Part) :
    replaceIn wanted f (replaceIn wanted f ps) = replaceIn wanted f ps := by
  induction ps with
  | nil => rfl
  | cons p ps ih =>
    by_cases h : wanted p.argument
    · have rest := not_wanted_of_mem_replaceIn later ps
      rw [replaceIn_of_wanted h, replaceIn_of_wanted first, replaceIn_eq_self rest]
    · rw [replaceIn_of_not_wanted h, replaceIn_of_not_wanted h, ih]

theorem countP_replaceIn (first : wanted (f 0)) (later : ∀ k, ¬ wanted (f (k + 1))) (ps : List Part) :
    (replaceIn wanted f ps).countP (wanted ∘ Part.argument) = min 1 (ps.countP (wanted ∘ Part.argument)) := by
  induction ps with
  | nil => rfl
  | cons p ps ih =>
    by_cases h : wanted p.argument
    · have rest : (replaceIn wanted (fun k => f (k + 1)) ps).countP (wanted ∘ Part.argument) = 0 :=
        List.countP_eq_zero.2 (not_wanted_of_mem_replaceIn later ps)
      rw [replaceIn_of_wanted h, List.countP_cons, rest, List.countP_cons]
      simp only [Function.comp_apply, first, h, if_true]
      omega
    · simp only [replaceIn_of_not_wanted h, List.countP_cons, Function.comp_apply, h, ih]
      rfl

theorem replace_replace_ofNat (c : Cut) :
    (c.replace Argument.isZero .ofNat).replace Argument.isZero .ofNat = c.replace Argument.isZero .ofNat :=
  congrArg (Cut.mk · c.tail)
    (replaceIn_replaceIn (Argument.isZero_ofNat.2 rfl) Argument.not_isZero_succ c.parts)

theorem countP_replace_ofNat (c : Cut) :
    (c.replace Argument.isZero .ofNat).arguments.countP Argument.isZero =
      min 1 (c.arguments.countP Argument.isZero) := by
  rw [arguments, arguments, List.countP_map, List.countP_map]
  exact countP_replaceIn (Argument.isZero_ofNat.2 rfl) Argument.not_isZero_succ c.parts

end Cut

namespace Label

variable {P : Label} {wanted : Argument → Bool} {t : Text}

/-! ### The places that a search takes -/

/-- The enumerate pass puts the numbers in the places that its search takes. -/
theorem enumerate_eq_weave (P : Label) (t : Text) :
    let zeros := P.hits Argument.isZero t
    P.enumerate t = ⟨weave (t.stretches zeros) ((List.range zeros.length).map fun k => P.marker (.ofNat k)),
      zeros.length⟩ := by
  dsimp only
  rw [← rewrite_eq_weave, length_hits]
  rfl

theorem enumerate_enumerate (noClosing : ')' ∉ P.text) (t : Text) :
    P.enumerate (P.enumerate t).text = ⟨(P.enumerate t).text, min 1 (P.enumerate t).matched⟩ := by
  have first := enumerate_eq (zerosInZeroSites_of_noClosing noClosing t)
  have second := enumerate_eq (zerosInZeroSites_of_noClosing noClosing (P.enumerate t).text)
  have numbered : P.cut (fun _ => true) (P.enumerate t).text =
      (P.cut (fun _ => true) t).replace Argument.isZero .ofNat := by
    rw [first]
    exact P.cut_join_of_gaps (Cut.gaps_replace _ _)
  rw [second, numbered, Cut.replace_replace_ofNat, Cut.countP_replace_ofNat, first]

/-- Where the label has no closing parenthesis the markers of a text stand apart and are just its sites; the
enumerate pass puts its numbers in place of the zero sites, and made once more it changes nothing. -/
theorem searches_agree {P : Label} (noClosing : ')' ∉ P.text) (t : Text) :
    let zeros := (P.sites t).filter Site.isZero
    (∀ i a, P.Occurs t i a ↔ ∃ s ∈ P.sites t, s.offset = i ∧ s.argument = a.digits) ∧
      (∀ i j a b, P.Occurs t i a → P.Occurs t j b →
        i = j ∧ a = b ∨ i + (P.marker a).size ≤ j ∨ j + (P.marker b).size ≤ i) ∧
      P.hits Argument.isZero t = zeros ∧
      P.enumerate t = ⟨weave (t.stretches zeros) ((List.range zeros.length).map fun k => P.marker (.ofNat k)),
        zeros.length⟩ ∧
      P.enumerate (P.enumerate t).text = ⟨(P.enumerate t).text, min 1 (P.enumerate t).matched⟩ := by
  have zeros := hits_isZero_iff.2 (zerosInZeroSites_of_noClosing noClosing t)
  refine ⟨fun i a => occurs_iff_mem_sites noClosing, fun i j a b ha hb => ?_, zeros,
    zeros ▸ enumerate_eq_weave P t, enumerate_enumerate noClosing t⟩
  rcases Nat.lt_trichotomy i j with lt | rfl | gt
  · exact .inr (.inl (ha.disjoint noClosing hb lt))
  · exact .inl ⟨rfl, ha.argument_eq hb⟩
  · exact .inr (.inr (hb.disjoint noClosing ha gt))

/-- Zeros between other arguments, behind a label that is left open. -/
theorem searches_agree_half_numbered :
    let P : Label := ⟨"x(1".toList, by decide, by decide⟩
    let t : Text := "x(1(0)x(1x(1(00)\nx(1(0)x(1(7)".toList
    ')' ∉ P.text ∧ (P.hits Argument.isZero t).map (·.offset) = [0, 17] ∧
      (P.enumerate t).text = "x(1(0)x(1x(1(00)\nx(1(1)x(1(7)".toList ∧
      P.enumerate (P.enumerate t).text = ⟨(P.enumerate t).text, 1⟩ := by
  intro P t
  have noClosing : ')' ∉ P.text := by decide
  obtain ⟨-, -, places, -, again⟩ := searches_agree noClosing t
  refine ⟨noClosing, ?_, by decide +kernel, again.trans ?_⟩
  · rw [places]
    decide +kernel
  · rw [show (P.enumerate t).matched = 2 by decide +kernel]
    rfl

end Label

end Numbering
