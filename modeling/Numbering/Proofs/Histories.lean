import Numbering.Proofs.Operations
import Numbering.Proofs.ZeroMarkers

/-! What a file keeps through any history of operations. With a label whose markers cannot overlap, every pass
leaves the stretches between the markers as they are, the enumerate pass on a text that is numbered in part
too. So all operations leave them, in whatever order they come, and to renumber the file at the end makes
what it would have made at the start. -/

namespace Numbering

namespace Label

variable {P : Label} {t : Text}

theorem gaps_apply (noClosing : ')' ∉ P.text) (pass : Pass) (t : Text) :
    (P.cut (fun _ => true) (pass.apply P t).text).gaps = (P.cut (fun _ => true) t).gaps := by
  cases pass with
  | reset => exact P.gaps_cut_join (Cut.gaps_withArguments _ _)
  | enumerate =>
    rw [Pass.apply, enumerate_eq (zerosInZeroSites_of_noClosing noClosing t)]
    exact P.gaps_cut_join (Cut.gaps_replace _ _)

theorem gaps_foldl_advance (noClosing : ')' ∉ P.text) (r : Report) (passes : List Pass) :
    (P.cut (fun _ => true) (passes.foldl (Report.advance P) r).text).gaps =
      (P.cut (fun _ => true) r.text).gaps := by
  induction passes generalizing r with
  | nil => rfl
  | cons pass passes ih => rw [List.foldl_cons, ih, Report.text_advance, gaps_apply noClosing]

/-- No operation changes the stretches between the markers. -/
theorem gaps_rewrite (noClosing : ')' ∉ P.text) (op : Operation) (t : Text) :
    (P.cut (fun _ => true) (op.rewrite P t)).gaps = (P.cut (fun _ => true) t).gaps := by
  cases op with
  | read => rfl
  | cycle pass => exact gaps_apply noClosing pass t
  | renumber => exact (gaps_apply noClosing .enumerate _).trans (gaps_apply noClosing .reset t)
  | run selection dryRun =>
    cases dryRun with
    | true => rfl
    | false => exact gaps_foldl_advance noClosing { text := t } selection.passes

theorem gaps_foldl_rewrite (noClosing : ')' ∉ P.text) (ops : List Operation) (t : Text) :
    (P.cut (fun _ => true) (ops.foldl (fun t op => op.rewrite P t) t)).gaps =
      (P.cut (fun _ => true) t).gaps := by
  induction ops generalizing t with
  | nil => rfl
  | cons op ops ih => rw [List.foldl_cons, ih, gaps_rewrite noClosing]

end Label

namespace Workspace

variable {w : Workspace} {P : Label} {path : Bytes} {l : Location} {t : Text}

/-- Operations on the file to which the path leads succeed one after the other. -/
theorem Holds.exec_forM (h : w.Holds path l t) (P : Label) (ops : List Operation) :
    ∃ v, w.exec (ops.forM (Operation.perform P path)) = (.ok (), v) ∧
      v.Holds path l (ops.foldl (fun t op => op.rewrite P t) t) := by
  induction ops generalizing w t with
  | nil => exact ⟨w, rfl, h⟩
  | cons op ops ih =>
    obtain ⟨v, run, tree⟩ := h.exec_perform P op
    obtain ⟨v', rest, holds⟩ := ih (h.rewritten tree)
    refine ⟨v', ?_, holds⟩
    change w.exec (op.perform P path >>= fun _ => ops.forM (Operation.perform P path)) = _
    rw [exec_bind, run]
    exact rest

/-- After any operations on a file its markers are as many as at first and stand between the same stretches,
and both passes make of it what they would have made at first. -/
theorem history_independent {P : Label} (noClosing : ')' ∉ P.text) {w : Workspace} {path : Bytes} {t : Text}
    (h : w.tree.read path = .ok t.utf8) (ops : List Operation) :
    ∃ v u, w.exec (ops.forM (Operation.perform P path)) = (.ok (), v) ∧ v.tree.read path = .ok u.utf8 ∧
      (P.sites u).length = (P.sites t).length ∧ u.stretches (P.sites u) = t.stretches (P.sites t) ∧
      ∃ v', v.exec (Operation.perform P path (.run .all false)) = (.ok (), v') ∧
        v'.tree.read path = .ok (P.renumber t).text.utf8 := by
  obtain ⟨l, holds⟩ : ∃ l, w.Holds path l t := FileTree.leads_of_read h
  obtain ⟨v, run, after⟩ := holds.exec_forM P ops
  obtain ⟨v', final, tree⟩ := after.exec_perform P (.run .all false)
  have same := Label.gaps_foldl_rewrite noClosing ops t
  refine ⟨v, _, run, after.read, P.length_sites_of_gaps same, ?_, v', final, ?_⟩
  · rw [Label.stretches_sites, Label.stretches_sites, same]
  · have renumbered := (after.rewritten tree).read
    rwa [Operation.rewrite, if_neg Bool.false_ne_true, Selection.report_all, P.renumber_of_gaps same]
      at renumbered

/-- A text that is numbered in part, read, previewed and numbered once more. -/
theorem history_independent_after_four :
    let P : Label := ⟨Label.standard, by decide, by decide⟩
    let path := Text.utf8 "world.go".toList
    let t : Text := "w.o.stat.W(5) w.o.stat.W(0)".toList
    let w : Workspace := { tree := FileTree.empty.create [path] (.file t.utf8) }
    let ops : List Operation := [.cycle .enumerate, .run .reset true, .read, .run .enumerate false]
    ')' ∉ P.text ∧ w.tree.read path = .ok t.utf8 ∧
      ∃ v v', w.exec (ops.forM (Operation.perform P path)) = (.ok (), v) ∧
        v.exec (Operation.perform P path (.run .all false)) = (.ok (), v') ∧
        v'.tree.read path = .ok (Text.utf8 "w.o.stat.W(0) w.o.stat.W(1)".toList) := by
  intro P path t w ops
  have noClosing : ')' ∉ P.text := by decide
  have h : w.tree.read path = .ok t.utf8 := by rfl
  obtain ⟨v, u, run, -, -, -, v', final, after⟩ := history_independent noClosing h ops
  have renumbered : (P.renumber t).text = "w.o.stat.W(0) w.o.stat.W(1)".toList := by decide +kernel
  exact ⟨noClosing, h, v, v', run, final, renumbered ▸ after⟩

end Workspace

end Numbering
