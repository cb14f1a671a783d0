import Numbering.Text

/-! Plain texts. A text may hold control characters and control sequences, which a terminal obeys and
does not show. An escape character starts a sequence, the characters behind it decide where it ends,
and a sequence that is never ended takes all that follows. White space breaks off a sequence; a stream
takes the sequence up again at the next control character. What shows holds only characters that show
outside of sequences, and a text of such characters shows as it is. -/

namespace Numbering

/-! ### Control sequences -/

/-- Where in a control sequence a text stands. -/
inductive Control where
  /-- Outside of sequences. -/
  | none
  /-- Behind an escape character. -/
  | escape
  /-- Behind an escape character and characters that modify it. -/
  | modified
  /-- In a control sequence. -/
  | sequence
  /-- In a command to the system, which a bell ends. -/
  | command
  /-- Where a control string for a device starts. -/
  | device
  /-- Among the parameters of a control string. -/
  | parameters
  /-- Among the characters that modify a control string. -/
  | modifiers
  /-- In the body of a control string. -/
  | body
  deriving DecidableEq, Repr

namespace Control

/-- The control characters that a terminal shows as white space. -/
def isBlank (c : Char) : Bool := c == '\t' || c == '\n' || c == '\x0c' || c == '\r'

/-- The characters that show outside of sequences. -/
def isVisible (c : Char) : Bool := isBlank c || ' ' ≤ c && c != '\x7f'

/-- White space breaks off a sequence and shows, but in commands and control strings it does not. -/
def shows (s : Control) (c : Char) : Bool :=
  match s with
  | none => isVisible c
  | escape | modified | sequence => isBlank c
  | command | device | parameters | modifiers | body => false

/-- The byte that ends the body of a control string, even within the form of a longer character. -/
def terminator : UInt8 := 0x9C

/-- Where the text stands behind a character that does not show. -/
def next (s : Control) (c : Char) : Control :=
  if c = '\x1b' then escape
  else if c = '\x18' ∨ c = '\x1a' then none
  else match s with
  | none => none
  | escape =>
    if c = '[' then sequence
    else if c = ']' then command
    else if c = 'P' then device
    else if c ∈ ['X', '^', '_'] then body
    else if ' ' ≤ c ∧ c ≤ '/' then modified
    else if '0' ≤ c ∧ c ≤ '~' then none
    else escape
  | modified => if '0' ≤ c ∧ c ≤ '~' then none else modified
  | sequence => if '@' ≤ c ∧ c ≤ '~' then none else sequence
  | command => if c = '\x07' then none else command
  | device =>
    if ' ' ≤ c ∧ c ≤ '/' then modifiers
    else if '0' ≤ c ∧ c ≤ '?' then parameters
    else if '@' ≤ c ∧ c ≤ '~' then body
    else device
  | parameters =>
    if ' ' ≤ c ∧ c ≤ '/' then modifiers
    else if '<' ≤ c ∧ c ≤ '~' then body
    else parameters
  | modifiers => if '0' ≤ c ∧ c ≤ '~' then body else modifiers
  | body => if terminator ∈ String.utf8EncodeChar c then none else body

theorem isVisible_of_shows {s : Control} {c : Char} (h : s.shows c) : isVisible c := by
  cases s <;> simp_all [shows, isVisible]

end Control

/-! ### What shows -/

structure Reader where
  control : Control := .none
  /-- Whether white space has broken off the sequence, so that the text shows. -/
  broken : Bool := false
  deriving DecidableEq, Repr

namespace Reader

def shows (r : Reader) (c : Char) : Bool := if r.broken then Control.isVisible c else r.control.shows c

/-- The reader behind a character that shows. A reader that resumes keeps a sequence that is broken
off, but not beyond a character of more than one byte. -/
def shown (r : Reader) (resumes : Bool) (c : Char) : Reader :=
  if resumes && c.utf8Size == 1 then { r with broken := true } else {}

/-- The reader behind a character that does not show. -/
def hidden (r : Reader) (c : Char) : Reader := { control := r.control.next c }

/-- What shows of a character. -/
def read (resumes : Bool) (c : Char) : StateM Reader Text := do
  let r ← get
  if r.shows c then
    set (r.shown resumes c)
    return [c]
  else
    set (r.hidden c)
    return []

theorem isVisible_of_shows {r : Reader} {c : Char} (h : r.shows c) : Control.isVisible c := by
  unfold shows at h
  split at h
  · exact h
  · exact Control.isVisible_of_shows h

/-- A reader outside of sequences, or in one that is broken off. -/
def IsOutside (r : Reader) : Prop := r.broken ∨ r.control = .none

theorem IsOutside.shows_iff {r : Reader} (h : r.IsOutside) (c : Char) : r.shows c ↔ Control.isVisible c := by
  rcases h with h | h <;> simp [Reader.shows, h, Control.shows]

theorem IsOutside.shown {r : Reader} (resumes : Bool) (c : Char) : (r.shown resumes c).IsOutside := by
  unfold Reader.shown
  split
  · exact .inl rfl
  · exact .inr rfl

end Reader

namespace Text

/-- What shows of a text that is left. -/
def shownTo (r : Reader) (resumes : Bool) (t : Text) : Text :=
  ((t.mapM (Reader.read resumes)).run r).1.flatten

/-- What shows of a text that is read by itself. -/
def plain (t : Text) : Text := t.shownTo {} false

/-- What shows of a text that is sent to a stream. -/
def printed (t : Text) : Text := t.shownTo {} true

@[simp] theorem shownTo_nil (r : Reader) (resumes : Bool) : shownTo r resumes [] = [] := rfl

theorem shownTo_cons (r : Reader) (resumes : Bool) (c : Char) (t : Text) :
    shownTo r resumes (c :: t) =
      if r.shows c then c :: shownTo (r.shown resumes c) resumes t else shownTo (r.hidden c) resumes t := by
  simp only [shownTo, List.mapM_cons, StateT.run_bind, Reader.read, StateT.run_get]
  by_cases h : r.shows c <;> simp [h] <;> rfl

theorem isVisible_of_mem_shownTo {r : Reader} {resumes : Bool} {t : Text} {c : Char}
    (h : c ∈ t.shownTo r resumes) : Control.isVisible c := by
  induction t generalizing r with
  | nil => simp at h
  | cons d t ih =>
    rw [shownTo_cons] at h
    split at h
    · rename_i visible
      rcases List.mem_cons.1 h with rfl | h
      · exact Reader.isVisible_of_shows visible
      · exact ih h
    · exact ih h

/-- A text of visible characters shows as it is. -/
theorem shownTo_eq_self {r : Reader} (outside : r.IsOutside) (resumes : Bool) {t : Text}
    (h : ∀ c ∈ t, Control.isVisible c) : t.shownTo r resumes = t := by
  induction t generalizing r with
  | nil => rfl
  | cons c t ih =>
    have visible := (outside.shows_iff c).2 (h c List.mem_cons_self)
    rw [shownTo_cons, if_pos visible, ih (.shown resumes c)]
    exact fun d hd => h d (List.mem_cons_of_mem c hd)

theorem plain_plain (t : Text) : t.plain.plain = t.plain :=
  shownTo_eq_self (.inr rfl) false fun _ => isVisible_of_mem_shownTo

theorem printed_plain (t : Text) : t.plain.printed = t.plain :=
  shownTo_eq_self (.inr rfl) true fun _ => isVisible_of_mem_shownTo

theorem plain_printed (t : Text) : t.printed.plain = t.printed :=
  shownTo_eq_self (.inr rfl) false fun _ => isVisible_of_mem_shownTo

end Text

end Numbering
