import Numbering.CommandLine

/-! The parser of the command line. It takes the arguments from left to right. An option that has been
read is kept back until the next one is read, because its value may still follow; so it is checked
late, and an argument that cannot be understood is reported before it. -/

namespace Numbering

structure Parser where
  /-- The option that is kept back, with its value if it has one. -/
  pending : Option (Opt × Option Bytes) := none
  /-- The options that have been checked. -/
  seen : List Opt := []
  /-- Whether a double dash has been read, so that no further argument is an option. -/
  trailing : Bool := false
  hasPath : Bool := false
  config : Config := {}
  deriving DecidableEq, Repr

@[match_pattern] def dash : UInt8 := 0x2D

def equalsSign : UInt8 := 0x3D

namespace Parser

/-- Checks an option: that it has the value it needs, that it is the first of its kind, and that the
value is a good one. -/
def react (p : Parser) (o : Opt) (value : Option Bytes) : Except Stop Parser :=
  if o.takesValue && value.isNone then .error (.missingValue o)
  else if o ∈ p.seen then .error (.repeated o)
  else do
    let config ← p.config.assign (value.getD []) o
    return { p with seen := o :: p.seen, config }

/-- Checks the option that is kept back. -/
def flush (p : Parser) : Except Stop Parser :=
  match p.pending with
  | none => .ok p
  | some (o, value) => { p with pending := none }.react o value

/-- An option that is complete. -/
def give (p : Parser) (o : Opt) (value : Option Bytes) : Except Stop Parser := do
  (← p.flush).react o value

/-- An option whose value may be the next argument. -/
def await (p : Parser) (o : Opt) : Except Stop Parser := do
  return { ← p.flush with pending := some (o, none) }

/-- An argument after two dashes: a name, and a value if an equals sign follows the name. -/
def long (p : Parser) (a : Bytes) : Except Stop Parser :=
  let name : Bytes := a.takeWhile (· != equalsSign)
  let value := (a.dropWhile (· != equalsSign)).tail?
  match Opt.ofLong? name, value with
  | none, _ => .error (.unexpectedArgument ('-' :: '-' :: name.lossy))
  | some o, none => if o.takesValue then p.await o else p.give o none
  | some o, some v => if o.takesValue then p.give o (some v) else .error (.unexpectedValue o v)

/-- The letters after one dash: flags, and at most one option with a value, which takes all the rest. -/
def cluster (p : Parser) : Bytes → Except Stop Parser
  | [] => .ok p
  | b :: rest =>
    match Opt.ofShort? b with
    | none =>
      let shown := match Bytes.leading? (b :: rest) with
        | some c => [c]
        | none => Bytes.lossy (b :: rest)
      .error (.unexpectedArgument ('-' :: shown))
    | some o =>
      if o.takesValue then
        match rest with
        | [] => p.await o
        | c :: value => p.give o (some (if c = equalsSign then value else c :: value))
      else do (← p.give o none).cluster rest

def positional (p : Parser) (a : Bytes) : Except Stop Parser :=
  if p.hasPath then .error (.unexpectedArgument a.lossy)
  else do return { ← p.flush with hasPath := true, pending := some (.path, some a) }

def step (p : Parser) (a : Bytes) : Except Stop Parser :=
  if p.trailing then p.positional a
  else match a with
    | [dash, dash] => .ok { p with trailing := true }
    | dash :: dash :: a => p.long a
    | dash :: b :: rest => p.cluster (b :: rest)
    | _ =>
      match p.pending with
      | some (o, none) => .ok { p with pending := some (o, some a) }
      | _ => p.positional a

/-- The configuration at the end of the arguments. -/
def finish (p : Parser) : Except Stop Config := do return (← p.flush).config

end Parser

/-- The configuration that the arguments after the program's name make. -/
def Config.ofArgs (args : List Bytes) : Except Stop Config := do
  (← args.foldlM Parser.step {}).finish

end Numbering
