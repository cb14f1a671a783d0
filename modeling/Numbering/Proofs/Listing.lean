import Numbering.Proofs.Forgetting
import Numbering.Proofs.Positions
import Numbering.Proofs.Preview

/-! The list of markers after a run. The search finds the markers of the text that was there before, on the lines on
which they stood, and each with the number that it has just been given; so the list can be told from the old
text. -/

namespace Numbering

/-- Lines of text, each with a newline behind it. -/
def Text.ofLines (lines : List Text) : Text := lines.flatMap (· ++ ['\n'])

theorem Text.newlines_ofLines {lines : List Text} (h : ∀ line ∈ lines, '\n' ∉ line) :
    (ofLines lines).newlines = lines.length := by
  induction lines with
  | nil => rfl
  | cons line lines ih =>
    obtain ⟨first, others⟩ := List.forall_mem_cons.1 h
    have none : newlines line = 0 := List.count_eq_zero_of_not_mem first
    have whole : ofLines (line :: lines) = line ++ ['\n'] ++ ofLines lines := rfl
    rw [whole, newlines_append, newlines_append, none, ih others, List.length_cons]
    exact Nat.add_comm ..

namespace Label

variable {P : Label} {t u : Text}

/-- A line for each site of the text: one more than the newlines before the site, and what it is said to hold. -/
def linesOfSites (P : Label) (t : Text) (argument : Nat → Text) : List Text :=
  (P.sites t).mapIdx fun k s =>
    Nat.toDigits 10 (1 + (t.utf8.take s.offset).count 0x0A) ++ ':' :: argument k

theorem length_linesOfSites (P : Label) (t : Text) (argument : Nat → Text) :
    (P.linesOfSites t argument).length = (P.sites t).length := List.length_mapIdx

theorem newline_not_mem_linesOfSites {f : Nat → Argument} :
    ∀ line ∈ P.linesOfSites t fun k => (f k).digits, '\n' ∉ line := by
  intro line mem
  obtain ⟨k, hk, rfl⟩ := List.mem_mapIdx.1 mem
  have digit {c : Char} (h : c.isDigit) : '\n' ≠ c := by
    rintro rfl
    cases h
  rw [List.mem_append, List.mem_cons, not_or, not_or]
  refine ⟨fun number => ?_, by decide, fun argument => ?_⟩
  · exact digit ((Argument.ofNat _).isDigit _ number) rfl
  · exact digit ((f k).isDigit _ argument) rfl

/-- Where the markers of a text are renewed, the list of the new ones can be told from the text. -/
theorem Renewed.listing_eq {f : Nat → Text}
    (renewed : P.Renewed t u ((List.range (P.sites t).length).map f)) :
    P.listing u = Text.ofLines (P.linesOfSites t f) := by
  have length : (P.sites u).length = (P.sites t).length := by
    simpa using congrArg List.length renewed.line
  have lines : (P.sites u).map (fun s => Nat.toDigits 10 s.line ++ ':' :: s.argument) = P.linesOfSites t f := by
    refine List.ext_getElem (by simp [length, linesOfSites]) fun k hk _ => ?_
    rw [List.length_map] at hk
    have old : k < (P.sites t).length := length ▸ hk
    have line : (P.sites u)[k].line = (P.sites t)[k].line := by
      have same := congrArg (·[k]?) renewed.line
      simpa [hk, old] using same
    have argument : (P.sites u)[k].argument = f k := by
      have same := congrArg (·[k]?) renewed.argument
      simpa [hk, old] using same
    have located : (P.sites t)[k].line = 1 + (t.utf8.take (P.sites t)[k].offset).count 0x0A :=
      (stands_of_mem_hits (List.getElem_mem old)).1.located.line
    simp only [List.getElem_map, linesOfSites, List.getElem_mapIdx, line, argument, located]
  rw [← lines, Text.ofLines, List.flatMap_map, listing]
  simp

end Label

/-- What a selection that resets reports is listed with the numbers that it has given. -/
theorem Selection.listing_report {s : Selection} (resets : s.resets) (P : Label) (t : Text) :
    P.listing (s.report P t).text = Text.ofLines (P.linesOfSites t fun k => (s.number k).digits) := by
  have outcome : (s.report P t).text = (s.outcome P t).text := by cases s <;> rfl
  rw [outcome, s.outcome_eq, wanted_of_resets resets]
  exact (P.renewed_withArguments t s.number).listing_eq

namespace Workspace

/-- The program asked for a list, on a file that it changes, ends well wherever the run does. It prints one line for
each site of the text that was in the file, with the line on which the site stood there and its number, or a zero
where the markers were only reset. -/
theorem listing_tells_the_numbering {w v : Workspace} {args : List Bytes} {c : Config} {r : Report}
    (parsed : Config.ofArgs args = .ok c) (list : c.list = true) (isReal : c.dryRun = false)
    (run : w.exec c.run = (.ok r, v)) :
    ∃ (P : Label) (t : Text), Label.ofText c.label = .ok P ∧ w.tree.read c.path = .ok t.utf8 ∧
      let output := (w.launch args).1
      let n := (P.sites t).length
      output.exit = 0 ∧
        (c.selection = .all →
          output.stdout = Text.ofLines (P.linesOfSites t (Nat.toDigits 10)) ∧ output.stdout.newlines = n) ∧
        (c.selection = .reset →
          output.stdout = Text.ofLines (P.linesOfSites t fun _ => ['0']) ∧ output.stdout.newlines = n) := by
  rcases w.exec_run_cases c.toJob with ⟨failure, failed⟩ | ⟨P, l, t, label, holds, succeeded⟩
  · cases failed.symm.trans run
  · obtain ⟨report, -⟩ := Prod.mk.inj (succeeded.symm.trans run)
    obtain rfl := Except.ok.inj report
    refine ⟨P, t, label, holds.read, ?_⟩
    rw [launch_of_report parsed (Job.checkLabel_of_ok label) succeeded]
    have stdout : (c.output P (c.selection.report P t)).stdout = P.listing (c.selection.report P t).text := by
      simp [Config.output, isReal, list]
    have told (resets : c.selection.resets) :
        let lines := P.linesOfSites t fun k => (c.selection.number k).digits
        (c.output P (c.selection.report P t)).stdout = Text.ofLines lines ∧
          (c.output P (c.selection.report P t)).stdout.newlines = (P.sites t).length := by
      rw [stdout, Selection.listing_report resets, Text.newlines_ofLines Label.newline_not_mem_linesOfSites,
        Label.length_linesOfSites]
      exact ⟨rfl, rfl⟩
    refine ⟨rfl, fun all => ?_, fun reset => ?_⟩
    · have lines := told (by rw [all]; rfl)
      rw [all] at lines ⊢
      exact lines
    · have lines := told (by rw [reset]; rfl)
      rw [reset] at lines ⊢
      exact lines

/-- A label that ends in a parenthesis and a newline. -/
theorem listing_tells_the_numbering_broken :
    let path := Text.utf8 "world.go".toList
    let t : Text := "(\n(5)\n(\n(77)(\n(x)".toList
    let w : Workspace := { tree := FileTree.empty.create [path] (.file t.utf8) }
    let args := ["-l", "-p", "(\n"].map fun a => Text.utf8 a.toList
    let c : Config := { label := "(\n".toList, list := true }
    Config.ofArgs args = .ok c ∧ c.list = true ∧ c.dryRun = false ∧ (∃ r v, w.exec c.run = (.ok r, v)) ∧
      (w.launch args).1.exit = 0 ∧ (w.launch args).1.stdout = "1:0\n3:1\n".toList := by
  intro path t w args c
  have parsed : Config.ofArgs args = .ok c := by rfl
  have read : w.tree.read c.path = .ok t.utf8 := by rfl
  let P : Label := ⟨c.label, by decide, by decide⟩
  obtain ⟨l, holds⟩ : ∃ l, w.Holds c.path l t := FileTree.leads_of_read read
  have run := Holds.exec_run_eq c.toJob holds (Job.checkLabel_of_ok P.ofText_text)
  obtain ⟨P', t', label, read', exit, all, -⟩ := listing_tells_the_numbering parsed rfl rfl run
  obtain rfl : P' = P := Except.ok.inj (label.symm.trans P.ofText_text)
  obtain rfl : t' = t := Bytes.utf8_inj (Except.ok.inj (read'.symm.trans read))
  refine ⟨parsed, rfl, rfl, ⟨_, _, run⟩, exit, (all rfl).1.trans ?_⟩
  decide +kernel

end Workspace

end Numbering
