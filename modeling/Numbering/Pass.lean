import Numbering.Site

/-! The two passes over a text. The reset pass gives every marker the argument zero; the enumerate
pass searches for markers with the argument zero alone and numbers them in order of appearance. To
renumber a text is to run the first and then the second. -/

namespace Numbering

/-- The text after a pass, and how many markers the pass replaced. -/
structure Outcome where
  text : Text
  matched : Nat
  deriving DecidableEq, Repr

namespace Label

variable (P : Label)

def reset (t : Text) : Outcome :=
  let c := P.cut (fun _ => true) t
  ⟨(c.withArguments fun _ => .zero).join P, c.count⟩

def enumerate (t : Text) : Outcome :=
  let c := P.cut Argument.isZero t
  ⟨(c.withArguments .ofNat).join P, c.count⟩

/-- The count is the one of the enumerate pass. -/
def renumber (t : Text) : Outcome := P.enumerate (P.reset t).text

end Label

inductive Pass where
  | reset
  | enumerate
  deriving DecidableEq, Repr

def Pass.apply (P : Label) : Pass → Text → Outcome
  | .reset => P.reset
  | .enumerate => P.enumerate

/-! ### Selections -/

/-- Which passes to run. -/
inductive Selection where
  | reset
  | enumerate
  | all
  deriving DecidableEq, Repr

namespace Selection

/-- The selected passes, in the order in which they run. -/
def passes : Selection → List Pass
  | reset => [.reset]
  | enumerate => [.enumerate]
  | all => [.reset, .enumerate]

def resets (s : Selection) : Bool := s.passes.contains .reset

def enumerates (s : Selection) : Bool := s.passes.contains .enumerate

def name : Selection → Text
  | reset => "reset".toList
  | enumerate => "enumerate".toList
  | all => "all".toList

/-- The selection with a name, where capital ASCII letters may stand for small ones if case is
ignored. -/
def ofName? (name : Text) (ignoreCase : Bool) : Option Selection :=
  let name := if ignoreCase then name.map Char.toLower else name
  [reset, enumerate, all].find? fun s => s.name == name

/-- The complaint about a name of no selection. -/
def unknown (name : Text) : String := s!"invalid variant: {String.ofList name}"

theorem ofName?_name (s : Selection) (ignoreCase : Bool) : ofName? s.name ignoreCase = some s := by
  cases s <;> cases ignoreCase <;> rfl

theorem name_of_ofName? {name : Text} {s : Selection} (h : ofName? name false = some s) :
    s.name = name := by
  simpa using List.find?_some h

end Selection

end Numbering
