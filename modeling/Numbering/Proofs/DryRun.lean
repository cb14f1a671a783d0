import Numbering.Job
import Numbering.Proofs.Overwriting

/-! What a job does to a workspace. Where its path leads to a text, the passes go through however often the
file is written in between, and end in the report of the same passes over the text in memory; where it
does not, the first reading fails and nothing has happened. So a dry run and a run on the file report the
same. What they note are the accounts of the same passes, with other records around them. -/

namespace Numbering

/-- The report after one more pass, over the text of the report. -/
def Report.advance (P : Label) (r : Report) (pass : Pass) : Report := r.add pass (pass.apply P r.text)

/-- The report of the selected passes over a text in memory. -/
def Selection.report (s : Selection) (P : Label) (t : Text) : Report :=
  s.passes.foldl (Report.advance P) { text := t }

theorem Selection.report_all (P : Label) (t : Text) :
    all.report P t = ⟨some (P.reset t).matched, some (P.renumber t).matched, (P.renumber t).text⟩ := rfl

theorem Report.text_add (r : Report) (pass : Pass) (o : Outcome) : (r.add pass o).text = o.text := by
  cases pass <;> rfl

/-- A pass replaces the text of the report. -/
theorem Report.add_eq_advance (P : Label) (r : Report) (pass : Pass) (t : Text) :
    r.add pass (pass.apply P t) = Report.advance P { r with text := t } pass := by
  cases pass <;> rfl

theorem Report.text_advance (P : Label) (r : Report) (pass : Pass) :
    (r.advance P pass).text = (pass.apply P r.text).text := text_add ..

theorem Selection.passes_ne_nil (s : Selection) : s.passes ≠ [] := by cases s <;> simp [passes]

/-! ### Accounts -/

/-- What there is to note of a pass: how many markers it has replaced, and the bytes of the text before and
after it. -/
structure Account where
  pass : Pass
  matched : Nat
  before : Nat
  after : Nat
  deriving DecidableEq, Repr

namespace Account

/-- The record of the pass itself. -/
def passed (P : Label) (a : Account) : Record := .passed a.pass P.text a.matched

/-- The records of the pass on a file, which is read before it and written after it. -/
def cycle (P : Label) (path : Bytes) (a : Account) : List Record :=
  [.loaded path a.before, a.passed P, .saved path a.after]

/-- The accounts of passes over a text, one after the other. -/
def ofPasses (P : Label) : List Pass → Text → List Account
  | [], _ => []
  | pass :: passes, t =>
    let o := pass.apply P t
    ⟨pass, o.matched, t.size, o.text.size⟩ :: ofPasses P passes o.text

@[simp] theorem ofPasses_nil (P : Label) (t : Text) : ofPasses P [] t = [] := rfl

@[simp] theorem ofPasses_cons (P : Label) (pass : Pass) (passes : List Pass) (t : Text) :
    ofPasses P (pass :: passes) t =
      ⟨pass, (pass.apply P t).matched, t.size, (pass.apply P t).text.size⟩ ::
        ofPasses P passes (pass.apply P t).text := rfl

end Account

/-- The records of a job on a file of so many bytes: a dry run reads the file once, and else each pass reads it and
writes it. -/
def Job.records (job : Job) (P : Label) (size : Nat) (accounts : List Account) : List Record :=
  if job.dryRun then .loaded job.path size :: accounts.map (·.passed P)
  else accounts.flatMap (·.cycle P job.path)

theorem Job.checkLabel_of_ok {job : Job} {P : Label} (h : Label.ofText job.label = .ok P) :
    job.checkLabel = .ok P := by
  rw [checkLabel, h]
  rfl

theorem Job.checkLabel_of_error {job : Job} {e : LabelError} (h : Label.ofText job.label = .error e) :
    job.checkLabel = .error (.label e) := by
  rw [checkLabel, h]
  rfl

namespace Workspace

variable {w : Workspace} {P : Label} {path : Bytes} {l : Location} {t : Text}

/-- The path leads to a file at the location that holds the text. -/
def Holds (w : Workspace) (path : Bytes) (l : Location) (t : Text) : Prop := w.tree.Leads path l t.utf8

/-! ### Reading -/

theorem Holds.exec_readText (h : w.Holds path l t) :
    w.exec (readText path) = (.ok t, w.noting (.loaded path t.size)) := by
  simp [Workspace.exec_readText, h.read, Bytes.text?_utf8, Text.length_utf8]

/-- A path leads to a text, or to read it fails with a fault and changes nothing. -/
theorem holds_or_unread (w : Workspace) (path : Bytes) :
    (∃ l t, w.Holds path l t) ∨ ∃ fault, w.exec (readText path) = (.error (.read path fault), w) := by
  rw [Workspace.exec_readText]
  cases read : w.tree.read path with
  | error fault => exact .inr ⟨fault, rfl⟩
  | ok content =>
    cases form : content.text? with
    | none => exact .inr ⟨.notUtf8, by simp [form]⟩
    | some t =>
      obtain ⟨l, leads⟩ := FileTree.leads_of_read read
      rw [← Bytes.text?_eq_some_iff.1 form] at leads
      exact .inl ⟨l, t, leads⟩

theorem holds_or_fails (w : Workspace) (path : Bytes) :
    (∃ l t, w.Holds path l t) ∨ ∃ f, w.exec (readText path) = (.error f, w) := by
  rcases w.holds_or_unread path with holds | ⟨fault, fails⟩
  · exact .inl holds
  · exact .inr ⟨_, fails⟩

/-! ### Cycles -/

/-- The workspace after a pass over the file at the location. -/
def cycled (w : Workspace) (P : Label) (path : Bytes) (l : Location) (t : Text) (pass : Pass) : Workspace :=
  let o := pass.apply P t
  { tree := w.tree.put l (.file o.text.utf8)
    log := w.log ++ [.loaded path t.size, .passed pass P.text o.matched, .saved path o.text.size] }

theorem Holds.exec_cycle (h : w.Holds path l t) (P : Label) (pass : Pass) :
    w.exec (pass.cycle P path) = (.ok (pass.apply P t), w.cycled P path l t pass) := by
  have write := h.write (pass.apply P t).text.utf8
  simp [Pass.cycle, exec_bind, h.exec_readText, exec_writeText, write, noting, cycled, Except.map]

theorem Holds.cycled (h : w.Holds path l t) (P : Label) (pass : Pass) :
    (w.cycled P path l t pass).Holds path l (pass.apply P t).text := h.put _

/-- A file that is rewritten is found through the path as before. -/
theorem Holds.rewritten {u : Text} {v : Workspace} (h : w.Holds path l t)
    (tree : v.tree = w.tree.put l (.file u.utf8)) : v.Holds path l u := by
  rw [Holds, tree]
  exact h.put _

/-- Passes on a file, from a report whose text the file holds. -/
theorem Holds.exec_foldlM_cycle {r : Report} (h : w.Holds path l r.text) (P : Label) (passes : List Pass) :
    w.exec (passes.foldlM (fun r pass => return r.add pass (← pass.cycle P path)) r) =
      (.ok (passes.foldl (Report.advance P) r),
        { tree := w.tree.put l (.file (passes.foldl (Report.advance P) r).text.utf8)
          log := w.log ++ (Account.ofPasses P passes r.text).flatMap (·.cycle P path) }) := by
  induction passes generalizing w r with
  | nil => simp [FileTree.put_of_get? h.file]
  | cons pass passes ih =>
    have next := h.cycled P pass
    rw [← Report.text_advance] at next
    have rest := ih next
    rw [Workspace.cycled, FileTree.put_put, List.append_assoc, Report.text_advance] at rest
    simpa [List.foldlM_cons, exec_bind, h.exec_cycle, Workspace.cycled, Report.advance, Account.cycle,
      Account.passed] using rest

theorem Holds.exec_inPlace {job : Job} (h : w.Holds job.path l t) (P : Label) :
    w.exec (job.inPlace P) =
      (.ok (job.selection.report P t),
        { tree := w.tree.put l (.file (job.selection.report P t).text.utf8)
          log := w.log ++ (Account.ofPasses P job.selection.passes t).flatMap (·.cycle P job.path) }) := by
  unfold Job.inPlace Selection.report
  rcases selected : job.selection.passes with _ | ⟨pass, passes⟩
  · exact absurd selected job.selection.passes_ne_nil
  · have next := h.cycled P pass
    have first := Report.add_eq_advance P {} pass t
    rw [← Report.text_add {} pass, first] at next
    have rest := next.exec_foldlM_cycle P passes
    rw [Workspace.cycled, FileTree.put_put, List.append_assoc, Report.text_advance] at rest
    simpa [List.foldlM_cons, exec_bind, h.exec_cycle, Workspace.cycled, first, Account.cycle,
      Account.passed] using rest

theorem Holds.exec_renumberFile_eq (h : w.Holds path l t) (P : Label) :
    w.exec (renumberFile P path) =
      (.ok (P.renumber t),
        (w.cycled P path l t .reset).cycled P path l (P.reset t).text .enumerate) := by
  have second := (h.cycled P .reset).exec_cycle P .enumerate
  simp only [renumberFile, exec_bind, h.exec_cycle, second]
  rfl

theorem Holds.exec_renumberFile (h : w.Holds path l t) (P : Label) :
    ∃ v, w.exec (renumberFile P path) = (.ok (P.renumber t), v) := ⟨_, h.exec_renumberFile_eq P⟩

/-! ### In memory -/

theorem exec_foldlM_perform (w : Workspace) (P : Label) (r : Report) (passes : List Pass) :
    w.exec (passes.foldlM
        (fun r pass => return r.add pass (← (pass.perform P r.text : StateM Workspace Outcome))) r) =
      (.ok (passes.foldl (Report.advance P) r),
        { w with log := w.log ++ (Account.ofPasses P passes r.text).map (·.passed P) }) := by
  induction passes generalizing w r with
  | nil => simp
  | cons pass passes ih =>
    have rest := ih (w.noting (.passed pass P.text (pass.apply P r.text).matched)) (r.advance P pass)
    rw [noting, List.append_assoc, Report.text_advance] at rest
    simpa [List.foldlM_cons, exec_bind, Report.advance, noting, Account.passed] using rest

theorem Holds.exec_preview {job : Job} (h : w.Holds job.path l t) (P : Label) :
    w.exec (job.preview P) =
      (.ok (job.selection.report P t),
        { w with log := w.log ++
            .loaded job.path t.size :: (Account.ofPasses P job.selection.passes t).map (·.passed P) }) := by
  have run := exec_foldlM_perform (w.noting (.loaded job.path t.size)) P { text := t } job.selection.passes
  rw [noting, List.append_assoc, List.singleton_append] at run
  simpa [Job.preview, exec_bind, h.exec_readText, noting, Selection.report] using run

/-! ### Where nothing can be read -/

variable {f : Failure}

theorem exec_cycle_of_fails (h : w.exec (readText path) = (.error f, w)) (P : Label) (pass : Pass) :
    w.exec (pass.cycle P path) = (.error f, w) := by
  simp [Pass.cycle, exec_bind, h]

theorem exec_inPlace_of_fails {job : Job} (h : w.exec (readText job.path) = (.error f, w)) (P : Label) :
    w.exec (job.inPlace P) = (.error f, w) := by
  unfold Job.inPlace
  rcases selected : job.selection.passes with _ | ⟨pass, passes⟩
  · exact absurd selected job.selection.passes_ne_nil
  · simp [List.foldlM_cons, exec_bind, exec_cycle_of_fails h]

theorem exec_renumberFile_of_fails (h : w.exec (readText path) = (.error f, w)) (P : Label) :
    w.exec (renumberFile P path) = (.error f, w) := by
  simp [renumberFile, exec_bind, exec_cycle_of_fails h]

theorem exec_preview_of_fails {job : Job} (h : w.exec (readText job.path) = (.error f, w)) (P : Label) :
    w.exec (job.preview P) = (.error f, w) := by
  simp [Job.preview, exec_bind, h]

/-! ### Jobs -/

variable (job : Job)

theorem exec_run_of_label (h : job.checkLabel = .error f) : w.exec job.run = (.error f, w) := by
  rw [exec_run, h]

theorem exec_run_of_fails (h : w.exec (readText job.path) = (.error f, w)) (hP : job.checkLabel = .ok P) :
    w.exec job.run = (.error f, w) := by
  rw [exec_run, hP]
  dsimp only
  split
  · exact exec_preview_of_fails h P
  · exact exec_inPlace_of_fails h P

/-- A job with a label whose path leads to a text reports the passes over the text, and notes their accounts. The
text of the report is all that changes in the tree, and in a dry run nothing does. -/
theorem Holds.exec_run_eq (h : w.Holds job.path l t) (hP : job.checkLabel = .ok P) :
    w.exec job.run = (.ok (job.selection.report P t),
      { tree := if job.dryRun then w.tree else w.tree.put l (.file (job.selection.report P t).text.utf8)
        log := w.log ++ job.records P t.size (Account.ofPasses P job.selection.passes t) }) := by
  rw [Workspace.exec_run, hP]
  dsimp only
  rw [Job.records]
  split
  · exact h.exec_preview P
  · exact h.exec_inPlace P

theorem Holds.exec_run_tree (h : w.Holds job.path l t) (hP : job.checkLabel = .ok P) :
    ∃ v, w.exec job.run = (.ok (job.selection.report P t), v) ∧
      v.tree = if job.dryRun then w.tree else w.tree.put l (.file (job.selection.report P t).text.utf8) :=
  ⟨_, exec_run_eq job h hP, rfl⟩

/-- A job fails before anything has happened, or it succeeds on the text to which its path leads. -/
theorem exec_run_cases (w : Workspace) (job : Job) :
    (∃ f, w.exec job.run = (.error f, w)) ∨
      ∃ P l t, Label.ofText job.label = .ok P ∧ w.Holds job.path l t ∧
        w.exec job.run = (.ok (job.selection.report P t),
          { tree := if job.dryRun then w.tree else w.tree.put l (.file (job.selection.report P t).text.utf8)
            log := w.log ++ job.records P t.size (Account.ofPasses P job.selection.passes t) }) := by
  cases label : Label.ofText job.label with
  | error e => exact .inl ⟨_, exec_run_of_label job (Job.checkLabel_of_error label)⟩
  | ok P =>
    have checked : job.checkLabel = .ok P := Job.checkLabel_of_ok label
    rcases w.holds_or_fails job.path with ⟨l, t, holds⟩ | ⟨f, fails⟩
    · exact .inr ⟨P, l, t, rfl, holds, Holds.exec_run_eq job holds checked⟩
    · exact .inl ⟨f, exec_run_of_fails job fails checked⟩

/-- The job leaves the tree as it is if it is a dry run, and else the text of the report in the file. -/
theorem Holds.exec_run (h : w.Holds job.path l t) (hP : job.checkLabel = .ok P) :
    ∃ v, w.exec job.run = (.ok (job.selection.report P t), v) ∧
      if job.dryRun then v.tree = w.tree else v.Holds job.path l (job.selection.report P t).text := by
  obtain ⟨v, run, tree⟩ := exec_run_tree job h hP
  refine ⟨v, run, ?_⟩
  split
  · rename_i dry
    rwa [if_pos dry] at tree
  · rename_i real
    rw [if_neg real] at tree
    exact h.rewritten tree

/-- A dry run leaves the tree alone and reports, or fails, as a run on the file does, which leaves the
text it reports in the file; and both passes of a run on the file make what they make one after the other,
on the file or in memory. -/
theorem dryRun_previews (w : Workspace) (job : Job) :
    let dry := w.exec { job with dryRun := true }.run
    let real := w.exec { job with dryRun := false }.run
    dry.2.tree = w.tree ∧ real.1 = dry.1 ∧
      (∀ r, real.1 = .ok r → real.2.tree.read job.path = .ok r.text.utf8) ∧
      (job.selection = .all → ∀ P, job.checkLabel = .ok P →
        real.1.map (fun r => (r.text, r.enumerated)) =
          (w.exec (renumberFile P job.path)).1.map (fun o => (o.text, some o.matched)) ∧
        ∀ t, w.tree.read job.path = .ok t.utf8 →
          real.1 = .ok ⟨some (P.reset t).matched, some (P.renumber t).matched, (P.renumber t).text⟩) := by
  intro dry real
  cases label : job.checkLabel with
  | error e =>
    have dryRun : dry = (.error e, w) := exec_run_of_label { job with dryRun := true } label
    have realRun : real = (.error e, w) := exec_run_of_label { job with dryRun := false } label
    simp [dryRun, realRun]
  | ok P =>
    rcases w.holds_or_fails job.path with ⟨l, t, holds⟩ | ⟨f, fails⟩
    · obtain ⟨v, dryRun, same⟩ := Holds.exec_run { job with dryRun := true } holds label
      obtain ⟨v', realRun, after⟩ := Holds.exec_run { job with dryRun := false } holds label
      obtain ⟨_, renumbered⟩ := holds.exec_renumberFile P
      replace dryRun : dry = (.ok (job.selection.report P t), v) := dryRun
      replace realRun : real = (.ok (job.selection.report P t), v') := realRun
      rw [dryRun, realRun]
      refine ⟨same, rfl, fun r hr => ?_, fun all Q hQ => ?_⟩
      · obtain rfl := Except.ok.inj hr
        exact after.read
      · obtain rfl := Except.ok.inj hQ
        refine ⟨by rw [renumbered, all]; rfl, fun u hu => ?_⟩
        obtain rfl := Bytes.utf8_inj (Except.ok.inj (holds.read.symm.trans hu))
        rw [all, Selection.report_all]
    · have dryRun : dry = (.error f, w) := exec_run_of_fails { job with dryRun := true } fails label
      have realRun : real = (.error f, w) := exec_run_of_fails { job with dryRun := false } fails label
      rw [dryRun, realRun]
      refine ⟨rfl, rfl, by simp, fun _ Q _ => ⟨?_, fun u hu => ?_⟩⟩
      · rw [exec_renumberFile_of_fails fails]
        rfl
      · obtain ⟨l, leads⟩ := FileTree.leads_of_read hu
        have := Holds.exec_readText leads
        rw [fails] at this
        cases this

end Workspace

end Numbering
