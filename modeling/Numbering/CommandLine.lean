import Numbering.Job
import Numbering.Text.Plain

/-! Options of the command line: their names, the configuration they make, and every reason for which
arguments do not make one. -/

namespace Numbering

/-! ### Options -/

inductive Opt where
  | path
  | label
  | selection
  | dryRun
  | list
  | verbose
  | help
  | version
  deriving DecidableEq, Repr

namespace Opt

/-- How messages call the option. -/
def display : Opt → String
  | path => "[PATH]"
  | label => "--prefix <PREFIX>"
  | selection => "--pass <PASS>"
  | dryRun => "--dry-run"
  | list => "--list"
  | verbose => "--verbose"
  | help => "--help"
  | version => "--version"

/-- The name after two dashes; a path is given without a name. -/
def long? : Opt → Option Text
  | path => none
  | label => "prefix".toList
  | selection => "pass".toList
  | dryRun => "dry-run".toList
  | list => "list".toList
  | verbose => "verbose".toList
  | help => "help".toList
  | version => "version".toList

/-- The letter after one dash. -/
def short? : Opt → Option Char
  | path | selection => none
  | label => 'p'
  | dryRun => 'n'
  | list => 'l'
  | verbose => 'v'
  | help => 'h'
  | version => 'V'

def takesValue : Opt → Bool
  | path | label | selection => true
  | _ => false

/-- The options that have a name. -/
def named : List Opt := [label, selection, dryRun, list, verbose, help, version]

def ofLong? (name : Bytes) : Option Opt := named.find? fun o => o.long?.map Text.utf8 == some name

def ofShort? (letter : UInt8) : Option Opt :=
  named.find? fun o => o.short?.map String.utf8EncodeChar == some [letter]

end Opt

/-! ### Configurations -/

structure Config extends Job where
  /-- Whether to list the markers of the final text. -/
  list : Bool := false
  /-- Whether to print the counts. -/
  verbose : Bool := false
  deriving DecidableEq, Repr

/-- Why a command line makes no configuration. -/
inductive Stop where
  | help
  | version
  | missingValue (o : Opt)
  | repeated (o : Opt)
  | notUtf8
  | unknownSelection (value : Bytes)
  | unexpectedArgument (argument : Text)
  | unexpectedValue (o : Opt) (value : Bytes)
  deriving DecidableEq, Repr

namespace Stop

def usage : String := "Usage: statnum [OPTIONS] [PATH]"

/-- The message, given how it shows a text of the command line. Of the help it has the usage alone: the
descriptions of the options, which differ between the short and the long help, are left out. -/
def messageWith (shown : Text → String) : Stop → String
  | help => usage
  | version => "statnum 0.1.0"
  | missingValue o => s!"error: a value is required for '{o.display}' but none was supplied"
  | repeated o => s!"error: the argument '{o.display}' cannot be used multiple times"
  | notUtf8 => "error: invalid UTF-8 was detected in one or more arguments"
  | unknownSelection value =>
    s!"error: invalid value '{shown value.lossy}' for '{Opt.selection.display}'"
  | unexpectedArgument argument => s!"error: unexpected argument '{shown argument}' found"
  | unexpectedValue o value =>
    s!"error: unexpected value '{shown value.lossy}' for '{o.display}' found; no more were expected"

/-- The message as a text of its own. -/
def message : Stop → String := messageWith fun t => String.ofList t.plain

/-- The message as a stream shows it. -/
def printed : Stop → String := messageWith fun t => String.ofList t.printed

/-- Whether the command line asked to stop here. -/
def wanted : Stop → Bool
  | help | version => true
  | _ => false

end Stop

/-- The configuration with one option given; a flag has no use for the value. -/
def Config.assign (c : Config) (value : Bytes) : Opt → Except Stop Config
  | .label =>
    match value.text? with
    | some t => .ok { c with label := t }
    | none => .error .notUtf8
  | .selection =>
    if value = [] then .error (.missingValue .selection)
    else match value.text?.bind fun name => Selection.ofName? name false with
      | some s => .ok { c with selection := s }
      | none => .error (.unknownSelection value)
  | .path => if value = [] then .error (.missingValue .path) else .ok { c with path := value }
  | .dryRun => .ok { c with dryRun := true }
  | .list => .ok { c with list := true }
  | .verbose => .ok { c with verbose := true }
  | .help => .error .help
  | .version => .error .version

end Numbering
