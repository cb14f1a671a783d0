import Numbering.Proofs.Renumbering

/-! What the passes forget. A selection that resets reads nothing of a text but the stretches between its
markers, and it leaves these as they are. So the arguments that stood in a text leave no trace in what is made of
it, and of several such selections, one after the other, the last alone decides. -/

namespace Numbering

namespace Selection

/-- The outcome of the selected passes over a text in memory. -/
def outcome (P : Label) : Selection → Text → Outcome
  | reset => P.reset
  | enumerate => P.enumerate
  | all => P.renumber

/-- The markers that are replaced. -/
def wanted : Selection → Argument → Bool
  | enumerate => Argument.isZero
  | _ => fun _ => true

/-- What the replaced marker at each index gets. -/
def number : Selection → Nat → Argument
  | reset => fun _ => .zero
  | _ => .ofNat

/-- Both passes together rewrite the text at once, as each of them alone does. -/
theorem outcome_eq (s : Selection) (P : Label) (t : Text) :
    s.outcome P t = ⟨P.rewrite s.wanted s.number t, (P.cut s.wanted t).count⟩ := by
  cases s with
  | reset => rfl
  | enumerate => rfl
  | all =>
    rw [outcome, P.renumber_eq, P.length_sites]
    rfl

theorem wanted_of_resets {s : Selection} (resets : s.resets) : s.wanted = fun _ => true := by
  cases s with
  | reset => rfl
  | enumerate => cases resets
  | all => rfl

end Selection

namespace Label

variable {P : Label} {s : Selection} {t u : Text}

theorem gaps_cut_outcome (resets : s.resets) (t : Text) :
    (P.cut (fun _ => true) (s.outcome P t).text).gaps = (P.cut (fun _ => true) t).gaps := by
  rw [s.outcome_eq, Selection.wanted_of_resets resets]
  exact P.gaps_cut_join (Cut.gaps_withArguments s.number _)

theorem outcome_of_gaps (resets : s.resets)
    (same : (P.cut (fun _ => true) u).gaps = (P.cut (fun _ => true) t).gaps) :
    s.outcome P u = s.outcome P t := by
  rw [s.outcome_eq, s.outcome_eq, Selection.wanted_of_resets resets, rewrite, rewrite,
    Cut.withArguments_of_gaps same, ← length_sites, P.length_sites_of_gaps same, length_sites]

/-- The stretches can be told from what a selection makes of the text. -/
theorem text_outcome_eq_iff (resets : s.resets) :
    (s.outcome P t).text = (s.outcome P u).text ↔
      (P.cut (fun _ => true) t).gaps = (P.cut (fun _ => true) u).gaps := by
  constructor
  · intro texts
    rw [← gaps_cut_outcome resets t, texts, gaps_cut_outcome resets u]
  · intro same
    rw [outcome_of_gaps resets same]

/-! ### Texts that differ in arguments alone -/

/-- As many markers between the same stretches. -/
structure Alike (P : Label) (t u : Text) : Prop where
  length : (P.sites t).length = (P.sites u).length
  stretches : t.stretches (P.sites t) = u.stretches (P.sites u)

theorem alike_iff_gaps : P.Alike t u ↔ (P.cut (fun _ => true) t).gaps = (P.cut (fun _ => true) u).gaps := by
  constructor
  · intro alike
    simpa only [stretches_sites] using alike.stretches
  · intro same
    exact ⟨P.length_sites_of_gaps same, by rw [stretches_sites, stretches_sites, same]⟩

/-- Two texts are reset alike, or renumbered alike, exactly if they differ in arguments alone; and whatever
arguments the markers of a text are given, the search finds them in the same places, and they are forgotten. -/
theorem old_arguments_are_forgotten (P : Label) (t u : Text) :
    ((P.reset t).text = (P.reset u).text ↔ P.Alike t u) ∧
      ((P.renumber t).text = (P.renumber u).text ↔ P.Alike t u) ∧
      ∀ f : Nat → Argument,
        let n := (P.sites t).length
        let v := weave (t.stretches (P.sites t)) ((List.range n).map fun k => P.marker (f k))
        P.Renewed t v ((List.range n).map fun k => (f k).digits) ∧
          P.reset v = P.reset t ∧ P.renumber v = P.renumber t := by
  refine ⟨?_, ?_, fun f => ?_⟩
  · rw [alike_iff_gaps]
    exact text_outcome_eq_iff (s := .reset) rfl
  · rw [alike_iff_gaps]
    exact text_outcome_eq_iff (s := .all) rfl
  · have same := P.gaps_cut_join (Cut.gaps_withArguments f (P.cut (fun _ => true) t))
    dsimp only
    rw [← join_withArguments]
    exact ⟨P.renewed_withArguments t f, outcome_of_gaps (s := .reset) rfl same,
      outcome_of_gaps (s := .all) rfl same⟩

/-! ### Selections in turn -/

/-- The text after several selections, one after the other. -/
def inTurn (P : Label) (selections : List Selection) (t : Text) : Text :=
  selections.foldl (fun t s => (s.outcome P t).text) t

theorem gaps_cut_inTurn {selections : List Selection} (resets : ∀ s ∈ selections, s.resets) (t : Text) :
    (P.cut (fun _ => true) (P.inTurn selections t)).gaps = (P.cut (fun _ => true) t).gaps := by
  induction selections generalizing t with
  | nil => rfl
  | cons s selections ih =>
    obtain ⟨first, others⟩ := List.forall_mem_cons.1 resets
    rw [inTurn, List.foldl_cons, ← inTurn, ih others, gaps_cut_outcome first]

/-- Of selections that reset, one after the other, the last one makes what it would have made at first; so each
is idempotent, and undoes the other. -/
theorem last_selection_decides (P : Label) (t : Text) :
    (∀ (before : List Selection) (last : Selection), (∀ s ∈ before ++ [last], s.resets) →
        last.outcome P (P.inTurn before t) = last.outcome P t) ∧
      P.reset (P.reset t).text = P.reset t ∧ P.renumber (P.renumber t).text = P.renumber t ∧
      P.reset (P.renumber t).text = P.reset t ∧ P.renumber (P.reset t).text = P.renumber t := by
  have decides (before : List Selection) (last : Selection) (resets : ∀ s ∈ before ++ [last], s.resets) :
      last.outcome P (P.inTurn before t) = last.outcome P t := by
    obtain ⟨earlier, latest⟩ := List.forall_mem_append.1 resets
    exact outcome_of_gaps (latest last List.mem_cons_self) (gaps_cut_inTurn earlier t)
  exact ⟨decides, decides [.reset] .reset (by decide), decides [.all] .all (by decide),
    decides [.all] .reset (by decide), decides [.reset] .all (by decide)⟩

/-- Overlapping markers, numbered, reset and numbered again. -/
theorem last_selection_decides_overlapping :
    let P : Label := ⟨"0)".toList, by decide, by decide⟩
    let before : List Selection := [.all, .reset, .all]
    (∀ s ∈ before ++ [.reset], s.resets) ∧
      Selection.reset.outcome P (P.inTurn before "0)(0)(5)0)(10)(7)".toList) =
        ⟨"0)(0)(5)0)(0)(7)".toList, 2⟩ := by
  intro P before
  have resets : ∀ s ∈ before ++ [.reset], s.resets := by decide
  refine ⟨resets, ((last_selection_decides P _).1 before .reset resets).trans ?_⟩
  decide +kernel

end Label

end Numbering
