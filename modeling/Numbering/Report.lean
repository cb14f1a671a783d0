import Numbering.Pass

/-! What a run reports: the count of each pass that ran and the text after the last one; and the
records that passes and file accesses leave in a log. -/

namespace Numbering

structure Report where
  /-- How many markers were reset, if the reset pass ran. -/
  reset : Option Nat := none
  /-- How many markers were numbered, if the enumerate pass ran. -/
  enumerated : Option Nat := none
  text : Text := []
  deriving DecidableEq, Repr

namespace Report

/-- The report after one more pass. -/
def add (r : Report) (pass : Pass) (o : Outcome) : Report :=
  match pass with
  | .reset => { r with reset := some o.matched, text := o.text }
  | .enumerate => { r with enumerated := some o.matched, text := o.text }

/-- The counts in words. -/
def summary (r : Report) : String :=
  match r.reset, r.enumerated with
  | some n, some m => s!"reset {n}, enumerated {m}"
  | some n, none => s!"reset {n}"
  | none, some m => s!"enumerated {m}"
  | none, none => "nothing to do"

end Report

/-! ### Records -/

inductive Record where
  /-- A pass over a text with markers of a label. -/
  | passed (pass : Pass) (label : Text) (matched : Nat)
  /-- A file whose whole content was read, by its path and its size. -/
  | loaded (path : Bytes) (size : Nat)
  /-- A file whose whole content was written. -/
  | saved (path : Bytes) (size : Nat)
  deriving DecidableEq, Repr

/-- The record as a line: its level, then its text. -/
def Record.line : Record → String
  | .passed .reset label n => s!"INFO reset {n} `{String.ofList label}` markers"
  | .passed .enumerate label n => s!"INFO enumerated {n} `{String.ofList label}` markers"
  | .loaded path n => s!"DEBUG read {n} bytes from {String.ofList path.lossy}"
  | .saved path n => s!"DEBUG wrote {n} bytes to {String.ofList path.lossy}"

end Numbering
