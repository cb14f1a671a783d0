import Numbering.FileTree.Path
import Numbering.Report

/-! What a program asks of its surroundings: whole files by their paths, and a log. A workspace of a
file tree and the records noted so far answers every request. On top stand the reading and the
writing of a text, with the causes for which they fail. -/

namespace Numbering

class Journal (m : Type → Type) where
  note : Record → m Unit

class FileSystem (m : Type → Type) where
  load (path : Bytes) : m (Except Fault Bytes)
  save (path content : Bytes) : m (Except Fault Unit)

structure Workspace where
  tree : FileTree
  /-- The records, the oldest first. -/
  log : List Record := []
  deriving DecidableEq, Repr

namespace Workspace

/-- The workspace with one more record. -/
def noting (w : Workspace) (r : Record) : Workspace := { w with log := w.log ++ [r] }

instance : Journal (StateM Workspace) where
  note r := modify fun w => w.noting r

instance : FileSystem (StateM Workspace) where
  load path := return (← get).tree.read path
  save path content := do
    match (← get).tree.write path content with
    | .ok tree => modify fun w => { w with tree }; return .ok ()
    | .error fault => return .error fault

end Workspace

/-! ### Texts in files -/

inductive Failure where
  | label (error : LabelError)
  | read (path : Bytes) (fault : Fault)
  | write (path : Bytes) (fault : Fault)
  deriving DecidableEq, Repr

def Failure.message : Failure → String
  | label error => error.message
  | read path fault => s!"Failed to read {String.ofList path.lossy}: {fault.message}"
  | write path fault => s!"Failed to write {String.ofList path.lossy}: {fault.message}"

variable {m : Type → Type} [Monad m] [Journal m] [FileSystem m]

/-- The whole file as a text. -/
def readText (path : Bytes) : ExceptT Failure m Text := do
  match ← (FileSystem.load path : m _) with
  | .error fault => throw (.read path fault)
  | .ok content =>
    match content.text? with
    | none => throw (.read path .notUtf8)
    | some t =>
      (Journal.note (.loaded path content.length) : m _)
      return t

/-- The text in place of the whole content of the file. -/
def writeText (path : Bytes) (t : Text) : ExceptT Failure m Unit := do
  match ← (FileSystem.save path t.utf8 : m _) with
  | .error fault => throw (.write path fault)
  | .ok () => (Journal.note (.saved path t.size) : m _)

/-! ### Actions on a workspace -/

namespace Workspace

/-- The result of an action that may fail, and the workspace after it. -/
def exec {α : Type} (w : Workspace) (act : ExceptT Failure (StateM Workspace) α) :
    Except Failure α × Workspace :=
  act.run.run w

variable {α β : Type} (w : Workspace)

@[simp] theorem exec_pure (a : α) : w.exec (pure a) = (.ok a, w) := rfl

@[simp] theorem exec_throw (f : Failure) :
    w.exec (throw f : ExceptT Failure (StateM Workspace) α) = (.error f, w) := rfl

/-- An action that cannot fail. -/
@[simp] theorem exec_lift (act : StateM Workspace α) :
    w.exec (liftM act) = (.ok (act.run w).1, (act.run w).2) := rfl

/-- A result that is known. -/
@[simp] theorem exec_known (x : Except Failure α) : w.exec (liftM x) = (x, w) := rfl

@[simp] theorem exec_map (g : α → β) (act : ExceptT Failure (StateM Workspace) α) :
    w.exec (g <$> act) = ((w.exec act).1.map g, (w.exec act).2) := by
  simp only [exec, ExceptT.run_map, StateT.run_map]
  rfl

@[simp] theorem run_note (r : Record) :
    (Journal.note r : StateM Workspace Unit).run w = ((), w.noting r) := rfl

@[simp] theorem run_load (path : Bytes) :
    (FileSystem.load path : StateM Workspace _).run w = (w.tree.read path, w) := rfl

theorem run_save (path content : Bytes) :
    (FileSystem.save path content : StateM Workspace _).run w =
      match w.tree.write path content with
      | .ok tree => (.ok (), { w with tree })
      | .error fault => (.error fault, w) := by
  simp only [FileSystem.save, StateT.run_bind, StateT.run_get, pure_bind]
  cases w.tree.write path content <;> rfl

theorem exec_bind (act : ExceptT Failure (StateM Workspace) α)
    (f : α → ExceptT Failure (StateM Workspace) β) :
    w.exec (act >>= f) =
      match w.exec act with
      | (.ok a, v) => v.exec (f a)
      | (.error e, v) => (.error e, v) := by
  simp only [exec, ExceptT.run_bind, StateT.run_bind]
  change (match act.run.run w with | (x, v) => _) = _
  rcases act.run.run w with ⟨_ | _, _⟩ <;> rfl

theorem exec_readText (path : Bytes) :
    w.exec (readText path) =
      match w.tree.read path with
      | .error fault => (.error (.read path fault), w)
      | .ok content =>
        match content.text? with
        | none => (.error (.read path .notUtf8), w)
        | some t => (.ok t, w.noting (.loaded path content.length)) := by
  cases h : w.tree.read path with
  | error fault => simp [readText, exec_bind, h]
  | ok content => cases k : content.text? <;> simp [readText, exec_bind, h, k, Except.map]

theorem exec_writeText (path : Bytes) (t : Text) :
    w.exec (writeText path t) =
      match w.tree.write path t.utf8 with
      | .error fault => (.error (.write path fault), w)
      | .ok tree => (.ok (), { w with tree }.noting (.saved path t.size)) := by
  cases h : w.tree.write path t.utf8 <;> simp [writeText, exec_bind, run_save, h]

end Workspace

end Numbering
