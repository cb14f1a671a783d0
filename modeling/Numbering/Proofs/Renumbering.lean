import Numbering.Proofs.Overlap
import Numbering.Proofs.Stretches
import Numbering.Pass

/-! What the passes keep. Whatever arguments the markers of a text are given, the search finds these
markers again, on the same lines and between the same stretches; so no marker is lost and none comes
into being. -/

namespace Numbering

namespace Cut

@[simp] theorem arguments_withArguments (f : Nat → Argument) (c : Cut) :
    (c.withArguments f).arguments = (List.range c.count).map f := by
  apply List.ext_getElem <;> simp [arguments, withArguments, count]

@[simp] theorem withArguments_withArguments (f g : Nat → Argument) (c : Cut) :
    (c.withArguments f).withArguments g = c.withArguments g := by
  simp [withArguments, List.mapIdx_mapIdx, Function.comp_def]

theorem withArguments_mark (f : Nat → Argument) (a : Argument) (c : Cut) :
    (c.mark a).withArguments f = (c.withArguments fun k => f (k + 1)).mark (f 0) := by
  simp [withArguments, mark]

theorem withArguments_prepend (f : Nat → Argument) (t : Text) (c : Cut) :
    (c.prepend t).withArguments f = (c.withArguments f).prepend t := by
  obtain ⟨_ | ⟨p, ps⟩, tail⟩ := c <;> simp [withArguments, prepend]

@[simp] theorem length_gaps (c : Cut) : c.gaps.length = c.count + 1 := by simp [gaps, count]

end Cut

namespace Label

/-- The search finds in one text the markers of the other with new arguments: on the same lines and
between the same stretches. -/
structure Renewed (P : Label) (t u : Text) (arguments : List Text) : Prop where
  argument : (P.sites u).map (·.argument) = arguments
  text : (P.sites u).map (·.text) = arguments.map fun digits => P.text ++ '(' :: (digits ++ [')'])
  line : (P.sites u).map (·.line) = (P.sites t).map (·.line)
  stretches : u.stretches (P.sites u) = t.stretches (P.sites t)

variable (P : Label) (t : Text)

/-- The text where the wanted markers get new arguments. -/
def rewrite (wanted : Argument → Bool) (f : Nat → Argument) (t : Text) : Text :=
  ((P.cut wanted t).withArguments f).join P

/-- New arguments do not change where a text is cut. -/
theorem cut_withArguments {wanted : Argument → Bool} {f : Nat → Argument} (hf : ∀ k, wanted (f k)) :
    P.cut wanted (((P.cut (fun _ => true) t).withArguments f).join P) =
      (P.cut (fun _ => true) t).withArguments f :=
  cut_join ((leaves_cut t).withArguments (fun _ _ => rfl) hf)

/-- A cut with the stretches of a text is found again in the text it makes. -/
theorem cut_join_of_gaps {t : Text} {d : Cut} (same : d.gaps = (P.cut (fun _ => true) t).gaps) :
    P.cut (fun _ => true) (d.join P) = d :=
  cut_join ((leaves_cut t).of_gaps (fun _ _ => rfl) same fun _ _ => rfl)

theorem gaps_cut_join {t : Text} {d : Cut} (same : d.gaps = (P.cut (fun _ => true) t).gaps) :
    (P.cut (fun _ => true) (d.join P)).gaps = (P.cut (fun _ => true) t).gaps := by
  rw [P.cut_join_of_gaps same, same]

theorem length_sites : (P.sites t).length = (P.cut (fun _ => true) t).count := length_sitesFrom ..

theorem arguments_sites :
    (P.sites t).map (·.argument) = (P.cut (fun _ => true) t).arguments.map Argument.digits := by
  rw [sites, argument_sitesFrom, Cut.arguments, List.map_map]
  rfl

/-- New arguments between the stretches of a text renew its markers. -/
theorem renewed_join {t : Text} {d : Cut} (same : d.gaps = (P.cut (fun _ => true) t).gaps) :
    P.Renewed t (d.join P) (d.arguments.map Argument.digits) where
  argument := by rw [arguments_sites, P.cut_join_of_gaps same]
  text := by
    rw [sites, P.cut_join_of_gaps same, text_sitesFrom, Cut.arguments, List.map_map, List.map_map]
    rfl
  line := by
    rw [sites, P.cut_join_of_gaps same]
    exact P.line_sitesFrom_congr rfl (congrArg _ (Cut.gaps_eq_iff.1 same).1)
  stretches := by rw [stretches_sites, stretches_sites, P.cut_join_of_gaps same, same]

theorem length_sites_of_gaps {t u : Text}
    (same : (P.cut (fun _ => true) u).gaps = (P.cut (fun _ => true) t).gaps) :
    (P.sites u).length = (P.sites t).length := by
  have count := congrArg List.length same
  simpa [length_sites] using count

theorem join_of_gaps {t : Text} {d : Cut} (same : d.gaps = (P.cut (fun _ => true) t).gaps) :
    d.join P = weave (t.stretches (P.sites t)) (d.arguments.map P.marker) := by
  rw [← weave_gaps, same, stretches_sites]

theorem renewed_withArguments (f : Nat → Argument) :
    P.Renewed t (((P.cut (fun _ => true) t).withArguments f).join P)
      ((List.range (P.sites t).length).map fun k => (f k).digits) := by
  have renewed := P.renewed_join (Cut.gaps_withArguments f (P.cut (fun _ => true) t))
  rwa [Cut.arguments_withArguments, List.map_map, ← length_sites] at renewed

/-- To rewrite a text is to weave its stretches with other markers. -/
theorem rewrite_eq_weave (wanted : Argument → Bool) (f : Nat → Argument) :
    P.rewrite wanted f t = weave (t.stretches (P.hits wanted t))
      ((List.range (P.hits wanted t).length).map fun k => P.marker (f k)) := by
  rw [rewrite, ← weave_gaps, Cut.gaps_withArguments, Cut.arguments_withArguments, stretches_hits, length_hits,
    List.map_map]
  rfl

theorem join_withArguments (f : Nat → Argument) :
    ((P.cut (fun _ => true) t).withArguments f).join P =
      weave (t.stretches (P.sites t)) ((List.range (P.sites t).length).map fun k => P.marker (f k)) :=
  P.rewrite_eq_weave t _ f

/-- To renumber is to give the markers their numbers at once. -/
theorem renumber_eq :
    P.renumber t = ⟨((P.cut (fun _ => true) t).withArguments .ofNat).join P, (P.sites t).length⟩ := by
  rw [renumber, reset, enumerate, cut_withArguments P t fun _ => Argument.isZero_iff.2 rfl]
  simp [length_sites]

theorem reset_eq :
    P.reset t = ⟨((P.cut (fun _ => true) t).withArguments fun _ => .zero).join P, (P.sites t).length⟩ := by
  rw [reset, length_sites]

/-- To renumber is decided by the stretches alone, whatever the arguments were. -/
theorem renumber_of_gaps {t u : Text}
    (same : (P.cut (fun _ => true) u).gaps = (P.cut (fun _ => true) t).gaps) :
    P.renumber u = P.renumber t := by
  rw [renumber_eq, renumber_eq, Cut.withArguments_of_gaps same, P.length_sites_of_gaps same]

/-- Both passes put their markers in place of those that stand in the text and change nothing else;
and the search finds just these markers in what they make. -/
theorem passes_renew_markers (P : Label) (t : Text) :
    let n := (P.sites t).length
    let gaps := t.stretches (P.sites t)
    gaps.length = n + 1 ∧ weave gaps ((P.sites t).map (·.text)) = t ∧
      P.reset t = ⟨weave gaps (List.replicate n (P.marker .zero)), n⟩ ∧
      P.renumber t = ⟨weave gaps ((List.range n).map fun k => P.marker (.ofNat k)), n⟩ ∧
      P.Renewed t (P.reset t).text (List.replicate n ['0']) ∧
      P.Renewed t (P.renumber t).text ((List.range n).map (Nat.toDigits 10)) := by
  dsimp only
  refine ⟨?_, ?_, ?_, ?_, ?_, ?_⟩
  · rw [stretches_sites, length_sites, Cut.length_gaps]
  · rw [stretches_sites]
    have := P.weave_gaps (P.cut (fun _ => true) t)
    rw [join_cut] at this
    rw [sites, text_sitesFrom]
    simpa [Cut.arguments, Function.comp_def] using this
  · rw [reset_eq, join_withArguments, List.map_const', List.length_range]
  · rw [renumber_eq, join_withArguments]
  · have := P.renewed_withArguments t fun _ => .zero
    rw [List.map_const', List.length_range] at this
    rwa [reset_eq]
  · rw [renumber_eq]
    exact P.renewed_withArguments t .ofNat

end Label

end Numbering
