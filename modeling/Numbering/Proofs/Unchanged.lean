import Numbering.Proofs.Agreement

/-! The texts that a pass leaves as they are. Between the same stretches other markers make another text, so a
pass changes nothing exactly if each marker it replaces has the argument already that the pass gives it. -/

namespace Numbering

namespace Cut

variable {P : Label}

/-- Between the same stretches the text tells the arguments. -/
theorem join_inj_of_gaps {c d : Cut} (same : d.gaps = c.gaps) :
    d.join P = c.join P ↔ d.arguments = c.arguments := by
  obtain ⟨ps, tail⟩ := c
  obtain ⟨qs, tail'⟩ := d
  obtain ⟨gaps, rfl : tail' = tail⟩ := gaps_eq_iff.1 same
  clear same
  induction ps generalizing qs with
  | nil =>
    obtain rfl := List.map_eq_nil_iff.1 gaps
    simp
  | cons p ps ih =>
    rcases qs with _ | ⟨q, qs⟩
    · simp at gaps
    · obtain ⟨gap, gaps⟩ := List.cons_eq_cons.1 gaps
      rw [join_cons, join_cons, gap]
      constructor
      · intro texts
        obtain ⟨argument, rests⟩ := Label.marker_append_inj (List.append_cancel_left texts)
        exact List.cons_eq_cons.2 ⟨argument, (ih qs gaps).1 rests⟩
      · intro arguments
        obtain ⟨argument, others⟩ := List.cons_eq_cons.1 arguments
        rw [argument, (ih qs gaps).2 others]

end Cut

namespace Label

variable {P : Label} {wanted : Argument → Bool} {f : Nat → Argument} {t : Text}

theorem rewrite_eq_self_iff : P.rewrite wanted f t = t ↔
    (P.cut wanted t).arguments = (List.range (P.cut wanted t).count).map f := by
  have whole : (P.cut wanted t).join P = t := join_cut t
  calc P.rewrite wanted f t = t
    _ ↔ ((P.cut wanted t).withArguments f).join P = (P.cut wanted t).join P := by rw [rewrite, whole]
    _ ↔ ((P.cut wanted t).withArguments f).arguments = (P.cut wanted t).arguments :=
      Cut.join_inj_of_gaps (Cut.gaps_withArguments f _)
    _ ↔ _ := by rw [Cut.arguments_withArguments, eq_comm]

/-- New arguments for all markers are those that the sites show. -/
theorem rewrite_eq_self_iff_sites : P.rewrite (fun _ => true) f t = t ↔
    ∀ k s, (P.sites t)[k]? = some s → s.argument = (f k).digits := by
  have digits_inj : ∀ a b : Argument, a.digits = b.digits → a = b := fun _ _ => Argument.ext
  rw [rewrite_eq_self_iff, ← List.map_inj_right digits_inj, ← arguments_sites, ← length_sites, List.map_map,
    List.map_eq_iff]
  refine forall_congr' fun k => ?_
  rcases get : (P.sites t)[k]? with _ | s
  · simp [List.getElem?_eq_none_iff.1 get]
  · obtain ⟨lt, -⟩ := List.getElem?_eq_some_iff.1 get
    simp [lt, eq_comm]

theorem text_reset_eq_self_iff : (P.reset t).text = t ↔ ∀ s ∈ P.sites t, s.argument = ['0'] := by
  have sites : (P.reset t).text = t ↔ ∀ k (s : Site), (P.sites t)[k]? = some s → s.argument = ['0'] :=
    rewrite_eq_self_iff_sites
  simp only [sites, List.mem_iff_getElem?, forall_exists_index]
  exact forall_comm

theorem text_renumber_eq_self_iff : (P.renumber t).text = t ↔
    ∀ k s, (P.sites t)[k]? = some s → s.argument = Nat.toDigits 10 k := by
  rw [renumber_eq]
  exact rewrite_eq_self_iff_sites

theorem text_enumerate_eq_self_iff : (P.enumerate t).text = t ↔ (P.enumerate t).matched ≤ 1 := by
  have leaves : P.Leaves Argument.isZero (P.cut Argument.isZero t) := leaves_cut t
  have zeros : (P.cut Argument.isZero t).arguments = List.replicate (P.enumerate t).matched .zero := by
    refine List.eq_replicate_iff.2 ⟨List.length_map .., fun a mem => ?_⟩
    obtain ⟨p, hp, rfl⟩ := List.mem_map.1 mem
    exact Argument.isZero_iff.1 (leaves.1 p hp).1
  refine rewrite_eq_self_iff.trans ?_
  change _ = (List.range (P.enumerate t).matched).map Argument.ofNat ↔ _
  rw [zeros]
  constructor
  · intro same
    refine Nat.le_of_not_lt fun two => ?_
    have second := congrArg (·[1]?) same
    have one : Argument.zero = Argument.ofNat 1 := by simpa [two] using second
    exact Argument.not_isZero_succ 0 (Argument.isZero_iff.2 one.symm)
  · intro le
    rcases Nat.le_one_iff_eq_zero_or_eq_one.1 le with none | one
    · rw [none]
      rfl
    · rw [one]
      rfl

/-- The reset pass leaves just the texts whose sites are all zero, and on these to enumerate is to renumber; the
enumerate pass leaves just those in which it finds one marker at most; and to renumber leaves just the texts
whose sites are numbered in order, without leading zeros. -/
theorem unchanged_iff_numbered (P : Label) (t : Text) :
    ((P.reset t).text = t ↔ ∀ s ∈ P.sites t, s.argument = ['0']) ∧
      ((∀ s ∈ P.sites t, s.argument = ['0']) → P.enumerate t = P.renumber t) ∧
      ((P.enumerate t).text = t ↔ (P.enumerate t).matched ≤ 1) ∧
      ((P.renumber t).text = t ↔ ∀ k s, (P.sites t)[k]? = some s → s.argument = Nat.toDigits 10 k) := by
  refine ⟨text_reset_eq_self_iff, fun zeros => ?_, text_enumerate_eq_self_iff, text_renumber_eq_self_iff⟩
  rw [renumber, text_reset_eq_self_iff.2 zeros]

/-- Zero markers that meet, and one that is left open. -/
theorem unchanged_iff_numbered_zeros :
    let P : Label := ⟨"0)".toList, by decide, by decide⟩
    let t : Text := "0)(0)0)(0)(0)0)(".toList
    (∀ s ∈ P.sites t, s.argument = ['0']) ∧ (P.reset t).text = t ∧ P.enumerate t = P.renumber t := by
  intro P t
  have zeros : ∀ s ∈ P.sites t, s.argument = ['0'] := by decide +kernel
  obtain ⟨reset, enumerate, -, -⟩ := unchanged_iff_numbered P t
  exact ⟨zeros, reset.2 zeros, enumerate zeros⟩

end Label

end Numbering
