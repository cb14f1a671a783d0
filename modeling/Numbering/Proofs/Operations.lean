import Numbering.Proofs.DryRun

/-! Operations on a file: to read its text, to run one pass or both over it, or to run a job on it. An
operation fails before anything has happened, or it succeeds and changes at most the one file to which its
path leads. None fails in writing, because what can be read through a path can be written through it. -/

namespace Numbering

inductive Operation where
  | read
  | cycle (pass : Pass)
  | renumber
  | run (selection : Selection) (dryRun : Bool)
  deriving DecidableEq, Repr

namespace Operation

variable {m : Type → Type} [Monad m] [Journal m] [FileSystem m]

def perform (P : Label) (path : Bytes) : Operation → ExceptT Failure m Unit
  | read => do
    let _ ← readText path
  | cycle pass => do
    let _ ← pass.cycle P path
  | renumber => do
    let _ ← renumberFile P path
  | run selection dryRun => do
    let _ ← ({ path, label := P.text, selection, dryRun } : Job).run

/-- The text that the operation leaves in a file with the given one. -/
def rewrite (P : Label) : Operation → Text → Text
  | read, t => t
  | cycle pass, t => (pass.apply P t).text
  | renumber, t => (P.renumber t).text
  | run selection dryRun, t => if dryRun then t else (selection.report P t).text

end Operation

namespace Workspace

variable {α : Type} {w v : Workspace} {P : Label} {label : Text} {path : Bytes} {l : Location} {t : Text}
  {f : Failure}

/-- What has come of an action on the file at a path, with markers of a label. It has failed, because the label
is refused or the file cannot be read, and then nothing has happened at all. Or it has succeeded; then the path
led to a text and still does, the working directory is the same, no entry has come or gone, and no other entry
has changed. -/
inductive Atomic (w : Workspace) (label : Text) (path : Bytes) : Except Failure α × Workspace → Prop where
  | refused {e : LabelError} (refused : Label.ofText label = .error e) :
      Atomic w label path (.error (.label e), w)
  | unread {fault : Fault} (fails : w.exec (readText path) = (.error (.read path fault), w)) :
      Atomic w label path (.error (.read path fault), w)
  | done {a : α} {v : Workspace} {l : Location} {t u : Text} (before : w.Holds path l t)
      (after : v.Holds path l u) (cwd : v.tree.cwd = w.tree.cwd)
      (locations : v.tree.locations = w.tree.locations)
      (others : ∀ k, k ≠ l → v.tree.get? k = w.tree.get? k) : Atomic w label path (.ok a, v)

/-! ### Operations that succeed -/

theorem Holds.put_self (h : w.Holds path l t) : w.tree.put l (.file t.utf8) = w.tree :=
  FileTree.put_of_get? h.file

/-- Where the path leads to a text the operation succeeds, and the text it leaves is all that changes in the
tree. -/
theorem Holds.exec_perform (h : w.Holds path l t) (P : Label) (op : Operation) :
    ∃ v, w.exec (op.perform P path) = (.ok (), v) ∧
      v.tree = w.tree.put l (.file (op.rewrite P t).utf8) := by
  cases op with
  | read =>
    refine ⟨w.noting (.loaded path t.size), ?_, h.put_self.symm⟩
    simp [Operation.perform, h.exec_readText, Except.map]
  | cycle pass =>
    refine ⟨w.cycled P path l t pass, ?_, rfl⟩
    simp [Operation.perform, h.exec_cycle, Except.map]
  | renumber =>
    refine ⟨(w.cycled P path l t .reset).cycled P path l (P.reset t).text .enumerate, ?_,
      FileTree.put_put ..⟩
    simp [Operation.perform, h.exec_renumberFile_eq, Except.map]
  | run selection dryRun =>
    obtain ⟨v, run, tree⟩ := exec_run_tree { path, label := P.text, selection, dryRun } h
      (Job.checkLabel_of_ok P.ofText_text)
    refine ⟨v, ?_, tree.trans ?_⟩
    · simp [Operation.perform, run, Except.map]
    · cases dryRun with
      | true => exact h.put_self.symm
      | false => rfl

/-- To write the file to which a path leads changes one entry, and none comes or goes. -/
theorem Atomic.of_put {a : α} {u : Text} (h : w.Holds path l t) (tree : v.tree = w.tree.put l (.file u.utf8)) :
    Atomic w label path (.ok a, v) := by
  have outside := (FileTree.get?_eq_file_iff.1 h.file).1
  refine .done h (h.rewritten tree) ?_ ?_ fun k other => ?_
  · rw [tree, FileTree.cwd_put]
  · rw [tree]
    exact FileTree.locations_put h.file _
  · rw [tree, FileTree.get?_put outside, if_neg other]

/-! ### Operations that fail -/

theorem exec_perform_of_fails (fails : w.exec (readText path) = (.error f, w)) (P : Label) (op : Operation) :
    w.exec (op.perform P path) = (.error f, w) := by
  cases op with
  | read => simp [Operation.perform, fails, Except.map]
  | cycle pass => simp [Operation.perform, exec_cycle_of_fails fails, Except.map]
  | renumber => simp [Operation.perform, exec_renumberFile_of_fails fails, Except.map]
  | run selection dryRun =>
    have run := exec_run_of_fails { path, label := P.text, selection, dryRun } fails
      (Job.checkLabel_of_ok P.ofText_text)
    simp [Operation.perform, run, Except.map]

/-- Operations and jobs are atomic: they fail before anything has happened, and never in writing, or they
change at most the file to which their path leads. -/
theorem operations_are_atomic (w : Workspace) :
    (∀ (P : Label) (path : Bytes) (op : Operation), Atomic w P.text path (w.exec (op.perform P path))) ∧
      ∀ job : Job, Atomic w job.label job.path (w.exec job.run) := by
  constructor
  · intro P path op
    rcases w.holds_or_unread path with ⟨l, t, holds⟩ | ⟨fault, fails⟩
    · obtain ⟨v, run, tree⟩ := holds.exec_perform P op
      rw [run]
      exact .of_put holds tree
    · rw [exec_perform_of_fails fails P op]
      exact .unread fails
  · intro job
    cases label : Label.ofText job.label with
    | error e =>
      rw [exec_run_of_label job (Job.checkLabel_of_error label)]
      exact .refused label
    | ok P =>
      have checked : job.checkLabel = .ok P := Job.checkLabel_of_ok label
      rcases w.holds_or_unread job.path with ⟨l, t, holds⟩ | ⟨fault, fails⟩
      · obtain ⟨v, run, tree⟩ := Holds.exec_run_tree job holds checked
        rw [run]
        refine .of_put (u := if job.dryRun then t else (job.selection.report P t).text) holds ?_
        rw [tree]
        split
        · exact holds.put_self.symm
        · rfl
      · rw [exec_run_of_fails job fails checked]
        exact .unread fails

end Workspace

end Numbering
