import Numbering.FileSystem

/-! Jobs: the selected passes on one file. A job changes the file once for each pass, or, as a dry
run, reads it once and leaves it alone. -/

namespace Numbering

variable {m : Type → Type} [Monad m] [Journal m]

/-- The pass over a text in memory, noted in the log. -/
def Pass.perform (P : Label) (pass : Pass) (t : Text) : m Outcome := do
  let o := pass.apply P t
  Journal.note (.passed pass P.text o.matched)
  return o

/-- Both passes over a text in memory; the outcome is the one of the second. -/
def renumberText (P : Label) (t : Text) : m Outcome := do
  let o ← Pass.reset.perform P t
  Pass.enumerate.perform P o.text

variable [FileSystem m]

/-- The pass over a file, which is written back even if the pass has matched nothing. -/
def Pass.cycle (P : Label) (path : Bytes) (pass : Pass) : ExceptT Failure m Outcome := do
  let t ← readText path
  let o ← (pass.perform P t : m Outcome)
  writeText path o.text
  return o

/-- Both passes over a file, each with its own reading and writing. -/
def renumberFile (P : Label) (path : Bytes) : ExceptT Failure m Outcome := do
  let _ ← Pass.reset.cycle P path
  Pass.enumerate.cycle P path

structure Job where
  path : Bytes := Text.utf8 "world.go".toList
  label : Text := Label.standard
  selection : Selection := .all
  dryRun : Bool := false
  deriving DecidableEq, Repr

namespace Job

def checkLabel (job : Job) : Except Failure Label := (Label.ofText job.label).mapError .label

/-- The passes one after the other in memory, over a text that is read once. -/
def preview (job : Job) (P : Label) : ExceptT Failure m Report := do
  let t ← readText job.path
  job.selection.passes.foldlM
    (fun r pass => return r.add pass (← (pass.perform P r.text : m Outcome))) { text := t }

/-- The passes one after the other on the file. -/
def inPlace (job : Job) (P : Label) : ExceptT Failure m Report :=
  job.selection.passes.foldlM (fun r pass => return r.add pass (← pass.cycle P job.path)) {}

def run (job : Job) : ExceptT Failure m Report := do
  let P ← job.checkLabel
  if job.dryRun then job.preview P else job.inPlace P

end Job

/-! ### Jobs on a workspace -/

namespace Workspace

variable (w : Workspace)

@[simp] theorem run_perform (P : Label) (pass : Pass) (t : Text) :
    (pass.perform P t : StateM Workspace Outcome).run w =
      (pass.apply P t, w.noting (.passed pass P.text (pass.apply P t).matched)) := rfl

theorem exec_run (job : Job) :
    w.exec job.run =
      match job.checkLabel with
      | .error e => (.error e, w)
      | .ok P => if job.dryRun then w.exec (job.preview P) else w.exec (job.inPlace P) := by
  rw [Job.run, exec_bind, exec_known]
  cases job.checkLabel with
  | error e => rfl
  | ok P => dsimp only; split <;> rfl

end Workspace

end Numbering
