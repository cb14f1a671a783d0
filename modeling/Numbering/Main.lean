import Numbering.Program

/-! The program on the files of the machine. Records go nowhere, and an error of the machine is a fault
by its number. -/

namespace Numbering

namespace Fault

/-- The number of an error, whichever sign the machine gives it. -/
def number (code : UInt32) : UInt32 := min code (0 - code)

def ofError : IO.Error → Fault
  | .noFileOrDirectory .. => .notFound
  | .inappropriateType _ code details =>
    match number code with
    | 20 => .notADirectory
    | 21 => .isADirectory
    | _ => .other details
  | .invalidArgument _ code details => if number code = 36 then .nameTooLong else .other details
  | .permissionDenied _ code details =>
    .other (if number code = 13 then "Permission denied (os error 13)" else details)
  | e => .other (toString e)

end Fault

instance : Journal IO where
  note _ := pure ()

instance : FileSystem IO where
  load path := do
    try return .ok (← IO.FS.readBinFile (String.ofList path.lossy)).toList
    catch e => return .error (.ofError e)
  save path content := do
    try IO.FS.writeBinFile (String.ofList path.lossy) content.toByteArray; return .ok ()
    catch e => return .error (.ofError e)

end Numbering

def main (args : List String) : IO UInt32 := do
  let output ← Numbering.program (args.map fun a => Numbering.Text.utf8 a.toList)
  IO.print (String.ofList output.stdout)
  IO.eprint (String.ofList output.stderr)
  return output.exit.toUInt32
