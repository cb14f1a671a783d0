import Numbering.Label

/-! Markers: a label followed by an argument in parentheses. An argument is a run of digits of any
length, kept as written. A text starts with at most one marker of a label, because the run of digits
ends at the closing parenthesis. -/

namespace Numbering

/-! ### Arguments -/

/-- A run of decimal digits. -/
@[ext] structure Argument where
  digits : Text
  ne_nil : digits ≠ []
  isDigit : ∀ c ∈ digits, c.isDigit

namespace Argument

instance : DecidableEq Argument := fun a b => decidable_of_iff (a.digits = b.digits) Argument.ext_iff.symm

/-- The digits of a number, without leading zeros. -/
def ofNat (n : Nat) : Argument where
  digits := Nat.toDigits 10 n
  ne_nil := Nat.toDigits_ne_nil
  isDigit _ h := Nat.isDigit_of_mem_toDigits (by decide) (by decide) h

/-- The single digit `0`; `00` is another argument. -/
def zero : Argument := ofNat 0

def isZero (a : Argument) : Bool := a == zero

@[simp] theorem digits_ofNat (n : Nat) : (ofNat n).digits = Nat.toDigits 10 n := rfl

@[simp] theorem digits_zero : zero.digits = ['0'] := rfl

@[simp] theorem isZero_iff {a : Argument} : a.isZero ↔ a = zero := by simp [isZero]

def inParentheses (a : Argument) : Text := '(' :: (a.digits ++ [')'])

/-- The argument in parentheses that a text starts with, and what follows it. -/
def read? : Text → Option (Argument × Text)
  | '(' :: t =>
    if h : t.takeWhile Char.isDigit = [] then none
    else match t.dropWhile Char.isDigit with
      | ')' :: rest => some (⟨t.takeWhile Char.isDigit, h, List.all_eq_true.1 List.all_takeWhile⟩, rest)
      | _ => none
  | _ => none

theorem read?_eq_some_iff {t rest : Text} {a : Argument} :
    read? t = some (a, rest) ↔ t = a.inParentheses ++ rest := by
  constructor
  · intro h
    unfold read? at h
    split at h
    · split at h
      · cases h
      · split at h
        · rename_i u _ _ tail hd
          obtain ⟨rfl, rfl⟩ := Prod.mk.inj (Option.some.inj h)
          have := u.takeWhile_append_dropWhile (p := Char.isDigit)
          rw [hd] at this
          simp [inParentheses, this]
        · cases h
    · cases h
  · rintro rfl
    have stop : ')'.isDigit = false := rfl
    simp [inParentheses, read?, List.takeWhile_append_of_pos a.isDigit,
      List.dropWhile_append_of_pos a.isDigit, stop, a.ne_nil]

end Argument

/-! ### Markers -/

namespace Label

variable (P : Label) (wanted : Argument → Bool)

def marker (a : Argument) : Text := P.text ++ a.inParentheses

/-- The argument of the marker that a text starts with, if it is a wanted one, and what follows the
marker. -/
def read? (t : Text) : Option (Argument × Text) :=
  (t.strip? P.text).bind fun t => (Argument.read? t).filter fun found => wanted found.1

variable {P wanted}

theorem read?_eq_some_iff {t rest : Text} {a : Argument} :
    P.read? wanted t = some (a, rest) ↔ wanted a ∧ t = P.marker a ++ rest := by
  simp only [read?, Option.bind_eq_some_iff, Text.strip?_eq_some_iff, Option.filter_eq_some_iff,
    Argument.read?_eq_some_iff, marker, List.append_assoc]
  constructor
  · rintro ⟨_, rfl, rfl, h⟩; exact ⟨h, rfl⟩
  · rintro ⟨h, rfl⟩; exact ⟨_, rfl, rfl, h⟩

theorem read?_eq_none_iff : P.read? wanted t = none ↔ ∀ a rest, wanted a → t ≠ P.marker a ++ rest := by
  simp only [Option.eq_none_iff_forall_ne_some, Prod.forall, ne_eq, read?_eq_some_iff, not_and]

theorem length_lt_of_read? {t rest : Text} {a : Argument} (h : P.read? wanted t = some (a, rest)) :
    rest.length < t.length := by
  rw [(read?_eq_some_iff.1 h).2]
  simp only [marker, Argument.inParentheses, List.length_append, List.length_cons]
  omega

/-- Two markers at one place are the same marker. -/
theorem marker_append_inj {a b : Argument} {t u : Text} (h : P.marker a ++ t = P.marker b ++ u) :
    a = b ∧ t = u := by
  have ha : P.read? (fun _ => true) (P.marker a ++ t) = some (a, t) := read?_eq_some_iff.2 ⟨rfl, rfl⟩
  have hb : P.read? (fun _ => true) (P.marker a ++ t) = some (b, u) := read?_eq_some_iff.2 ⟨rfl, h⟩
  exact Prod.mk.inj (Option.some.inj (ha.symm.trans hb))

end Label

end Numbering
