import Numbering.Cut

/-! Sites: where the markers of a label stand in a text. Offsets count bytes, and lines count the
newlines before the marker, those inside earlier labels included. -/

namespace Numbering

structure Position where
  /-- The number of bytes before. -/
  offset : Nat
  /-- One more than the number of newlines before. -/
  line : Nat
  deriving DecidableEq, Repr

namespace Position

def start : Position := ⟨0, 1⟩

/-- The position behind a text that starts here. -/
def after (p : Position) (t : Text) : Position := ⟨p.offset + t.size, p.line + t.newlines⟩

@[simp] theorem after_nil (p : Position) : p.after [] = p := rfl

@[simp] theorem after_after (p : Position) (t u : Text) : (p.after t).after u = p.after (t ++ u) := by
  simp [after, Nat.add_assoc]

end Position

/-- The position at which a marker starts, the marker, and its argument as written. -/
structure Site extends Position where
  text : Text
  argument : Text
  deriving DecidableEq, Repr

def Site.isZero (s : Site) : Bool := s.argument == ['0']

namespace Label

variable (P : Label)

/-- The site of the marker of a part that starts here, and the position behind the marker. -/
def site (part : Part) : StateM Position Site := do
  let text := P.marker part.argument
  let here := (← get).after part.gap
  set (here.after text)
  return ⟨here, text, part.argument.digits⟩

/-- The sites of parts that start here, one after the other. -/
def sitesFrom (p : Position) (parts : List Part) : List Site := ((parts.mapM P.site).run p).1

/-- Every marker of the text, from left to right. -/
def sites (t : Text) : List Site := P.sitesFrom .start (P.cut (fun _ => true) t).parts

variable {P}

@[simp] theorem sitesFrom_nil (p : Position) : P.sitesFrom p [] = [] := rfl

theorem sitesFrom_cons (p : Position) (part : Part) (parts : List Part) :
    P.sitesFrom p (part :: parts) =
      ⟨p.after part.gap, P.marker part.argument, part.argument.digits⟩ ::
        P.sitesFrom (p.after (part.gap ++ P.marker part.argument)) parts := by
  simp [sitesFrom, site]
  rfl

@[simp] theorem length_sitesFrom (p : Position) (parts : List Part) :
    (P.sitesFrom p parts).length = parts.length := by
  induction parts generalizing p with
  | nil => rfl
  | cons part parts ih => simp [sitesFrom_cons, ih]

@[simp] theorem text_sitesFrom (p : Position) (parts : List Part) :
    (P.sitesFrom p parts).map Site.text = parts.map fun part => P.marker part.argument := by
  induction parts generalizing p with
  | nil => rfl
  | cons part parts ih => simp [sitesFrom_cons, ih]

@[simp] theorem argument_sitesFrom (p : Position) (parts : List Part) :
    (P.sitesFrom p parts).map Site.argument = parts.map fun part => part.argument.digits := by
  induction parts generalizing p with
  | nil => rfl
  | cons part parts ih => simp [sitesFrom_cons, ih]

/-- Each site is that of a part, behind the parts before it. -/
theorem exists_part_of_mem_sitesFrom {p : Position} {parts : List Part} {s : Site}
    (h : s ∈ P.sitesFrom p parts) :
    ∃ before part after, parts = before ++ part :: after ∧
      s = ⟨p.after (Cut.join P ⟨before, []⟩ ++ part.gap), P.marker part.argument, part.argument.digits⟩ := by
  induction parts generalizing p with
  | nil => simp at h
  | cons part parts ih =>
    rw [sitesFrom_cons, List.mem_cons] at h
    rcases h with rfl | h
    · exact ⟨[], part, parts, rfl, rfl⟩
    · obtain ⟨before, part', after, rfl, rfl⟩ := ih h
      refine ⟨part :: before, part', after, rfl, ?_⟩
      rw [Position.after_after, Cut.join_cons]
      simp only [List.append_assoc]

end Label

end Numbering
