import Numbering.Proofs.Positions

/-! The bytes of a text and its characters. The first byte of a character is never a later byte of another one, so
the form of a text stands in the form of another only where its characters stand. So markers, and the search for
them, are the same in bytes as in characters, and between two markers there are the bytes of whole characters. -/

namespace Numbering

namespace Bytes

/-- The bytes end at the offset, or the byte there is the first of a character. -/
def IsBoundary (b : Bytes) (i : Nat) : Prop := i ≤ b.length ∧ ∀ x ∈ b[i]?, x.IsUTF8FirstByte

def isDigit (b : UInt8) : Bool := 0x30 ≤ b && b ≤ 0x39

end Bytes

namespace Text

variable {t u : Text} {b c : Bytes} {i j : Nat}

/-! ### Characters in bytes -/

theorem utf8EncodeChar_append_inj {c d : Char} {x y : Bytes}
    (h : String.utf8EncodeChar c ++ x = String.utf8EncodeChar d ++ y) : c = d ∧ x = y := by
  have decoded (e : Char) (z : Bytes) :
      (String.utf8EncodeChar e ++ z).toByteArray.utf8DecodeChar? 0 = some e := by
    rw [List.toByteArray_append]
    exact ByteArray.utf8DecodeChar?_utf8EncodeChar_append
  have first : some c = some d := by rw [← decoded c x, h, decoded]
  obtain rfl := Option.some.inj first
  exact ⟨rfl, List.append_cancel_left h⟩

theorem exists_of_utf8_eq_append (h : t.utf8 = u.utf8 ++ c) : ∃ after, t = u ++ after ∧ after.utf8 = c := by
  induction u generalizing t with
  | nil => exact ⟨t, rfl, h⟩
  | cons d u ih =>
    cases t with
    | nil =>
      have := congrArg List.length h
      have := d.utf8Size_pos
      simp at *
    | cons e t =>
      rw [utf8_cons, utf8_cons, List.append_assoc] at h
      obtain ⟨rfl, tails⟩ := utf8EncodeChar_append_inj h
      obtain ⟨after, rfl, rest⟩ := ih tails
      exact ⟨after, rfl, rest⟩

theorem isUTF8FirstByte_iff {d : Char} {x : UInt8} (h : (String.utf8EncodeChar d)[i]? = some x) :
    x.IsUTF8FirstByte ↔ i = 0 := by
  obtain ⟨inside, rfl⟩ := List.getElem?_eq_some_iff.1 h
  exact UInt8.isUTF8FirstByte_getElem_utf8EncodeChar

/-- The bytes of a text that is not empty begin with the first byte of a character. -/
theorem exists_utf8_eq_cons (nonempty : t ≠ []) : ∃ x rest, t.utf8 = x :: rest ∧ x.IsUTF8FirstByte := by
  obtain ⟨d, u, rfl⟩ := List.exists_cons_of_ne_nil nonempty
  cases form : String.utf8EncodeChar d with
  | nil =>
    have size := String.length_utf8EncodeChar d
    have := d.utf8Size_pos
    rw [form, List.length_nil] at size
    omega
  | cons x bytes =>
    refine ⟨x, bytes ++ utf8 u, by rw [utf8_cons, form, List.cons_append], ?_⟩
    exact (isUTF8FirstByte_iff (i := 0) (by rw [form, List.getElem?_cons_zero])).2 rfl

/-- The boundaries in the bytes of a text are the offsets of its characters, and its end. -/
theorem isBoundary_utf8_iff :
    t.utf8.IsBoundary i ↔ ∃ before after, t = before ++ after ∧ before.size = i := by
  constructor
  · intro h
    induction t generalizing i with
    | nil => exact ⟨[], [], rfl, (Nat.le_zero.1 h.1).symm⟩
    | cons d t ih =>
      obtain ⟨le, first⟩ := h
      rw [utf8_cons, List.length_append, String.length_utf8EncodeChar] at le
      rw [utf8_cons] at first
      rcases Nat.lt_or_ge i d.utf8Size with inside | behind
      · rw [← String.length_utf8EncodeChar] at inside
        rw [List.getElem?_append_left inside, List.getElem?_eq_getElem inside] at first
        -- within a character only its start is a boundary
        have start : i = 0 := (isUTF8FirstByte_iff (List.getElem?_eq_getElem inside)).1 (first _ rfl)
        exact ⟨[], d :: t, rfl, start.symm⟩
      · rw [← String.length_utf8EncodeChar] at behind
        rw [List.getElem?_append_right behind] at first
        rw [String.length_utf8EncodeChar] at first behind
        obtain ⟨before, after, rfl, size⟩ := ih ⟨by omega, first⟩
        exact ⟨d :: before, after, rfl, by rw [size_cons]; omega⟩
  · rintro ⟨before, after, rfl, rfl⟩
    refine ⟨?_, ?_⟩
    · rw [length_utf8, size_append]
      omega
    · rw [utf8_append, ← length_utf8, List.getElem?_append_right (Nat.le_refl _), Nat.sub_self]
      by_cases nonempty : after = []
      · simp [nonempty]
      · obtain ⟨x, rest, form, first⟩ := exists_utf8_eq_cons nonempty
        simpa [form] using first

/-- Between boundaries the bytes are those of whole characters. -/
theorem exists_of_utf8_eq (h : t.utf8 = b ++ c) (boundary : t.utf8.IsBoundary b.length) :
    ∃ before after, t = before ++ after ∧ before.utf8 = b ∧ after.utf8 = c := by
  obtain ⟨before, after, rfl, size⟩ := isBoundary_utf8_iff.1 boundary
  rw [utf8_append] at h
  obtain ⟨front, back⟩ := List.append_inj h (by rw [length_utf8, size])
  exact ⟨before, after, rfl, front, back⟩

/-- The form of one text stands within that of another only where its characters stand. -/
theorem exists_infix_of_utf8_eq (nonempty : u ≠ []) (h : t.utf8 = b ++ (u.utf8 ++ c)) :
    ∃ before after, t = before ++ (u ++ after) ∧ before.utf8 = b ∧ after.utf8 = c := by
  have boundary : t.utf8.IsBoundary b.length := by
    obtain ⟨x, rest, form, first⟩ := exists_utf8_eq_cons nonempty
    rw [h, form]
    refine ⟨by rw [List.length_append]; omega, ?_⟩
    rw [List.getElem?_append_right (Nat.le_refl _), Nat.sub_self]
    simpa using first
  obtain ⟨before, rest, rfl, front, form⟩ := exists_of_utf8_eq h boundary
  obtain ⟨after, rfl, back⟩ := exists_of_utf8_eq_append form
  exact ⟨before, after, rfl, front, back⟩

/-! ### Slices -/

/-- The text may be sliced between the offsets: they come in order, they are boundaries, and the bytes between them
are those of a text. -/
structure Sliceable (t : Text) (i j : Nat) : Prop where
  le : i ≤ j
  start : t.utf8.IsBoundary i
  stop : t.utf8.IsBoundary j
  bytes : (t.utf8.take j).drop i = (t.slice i j).utf8

theorem sliceable_of_boundaries (le : i ≤ j) (start : t.utf8.IsBoundary i) (stop : t.utf8.IsBoundary j) :
    t.Sliceable i j := by
  refine ⟨le, start, stop, ?_⟩
  obtain ⟨before, rest, rfl, rfl⟩ := isBoundary_utf8_iff.1 start
  obtain ⟨front, after, whole, rfl⟩ := isBoundary_utf8_iff.1 stop
  obtain ⟨between, rfl, rfl⟩ : ∃ between, front = before ++ between ∧ rest = between ++ after := by
    rcases List.append_eq_append_iff.1 whole with behind | ⟨between, rfl, rfl⟩
    · exact behind
    · -- the end is not before the start, so here they are one
      obtain rfl : between = [] := eq_nil_of_size (by rw [size_append] at le; omega)
      exact ⟨[], by simp, rfl⟩
  rw [← List.append_assoc, take_utf8, utf8_append, ← length_utf8 before, List.drop_left, length_utf8,
    size_append, List.append_assoc, slice_append]

end Text

namespace Bytes

/-! ### Digits in bytes -/

theorem digit_cases (n : Nat) (lower : 48 ≤ n) (upper : n < 58) :
    String.utf8EncodeChar (Char.ofNat n) = [UInt8.ofNat n] ∧ (Char.ofNat n).isDigit ∧
      isDigit (UInt8.ofNat n) := by
  have table : ∀ n < 58, 48 ≤ n → String.utf8EncodeChar (Char.ofNat n) = [UInt8.ofNat n] ∧
      (Char.ofNat n).isDigit ∧ isDigit (UInt8.ofNat n) := by decide
  exact table n upper lower

theorem utf8EncodeChar_of_isDigit {d : Char} (h : d.isDigit) :
    ∃ x, String.utf8EncodeChar d = [x] ∧ isDigit x := by
  obtain ⟨lower, upper⟩ : 48 ≤ d.toNat ∧ d.toNat ≤ 57 := Char.isDigit_iff_toNat.1 h
  obtain ⟨form, -, digit⟩ := digit_cases d.toNat lower (by omega)
  rw [Char.ofNat_toNat] at form
  exact ⟨_, form, digit⟩

theorem exists_digit {x : UInt8} (h : isDigit x) :
    ∃ d : Char, String.utf8EncodeChar d = [x] ∧ d.isDigit := by
  obtain ⟨lower, upper⟩ : 48 ≤ x.toNat ∧ x.toNat ≤ 57 := by
    simpa [isDigit, UInt8.le_iff_toNat_le] using h
  obtain ⟨form, digit, -⟩ := digit_cases x.toNat lower (by omega)
  rw [UInt8.ofNat_toNat] at form
  exact ⟨_, form, digit⟩

theorem exists_digits {digits : Bytes} (h : ∀ x ∈ digits, isDigit x) :
    ∃ ds : Text, ds.utf8 = digits ∧ ∀ d ∈ ds, d.isDigit := by
  induction digits with
  | nil => exact ⟨[], rfl, by simp⟩
  | cons x digits ih =>
    obtain ⟨first, others⟩ := List.forall_mem_cons.1 h
    obtain ⟨d, form, digit⟩ := exists_digit first
    obtain ⟨ds, rfl, digits⟩ := ih others
    refine ⟨d :: ds, ?_, List.forall_mem_cons.2 ⟨digit, digits⟩⟩
    rw [Text.utf8_cons, form, List.singleton_append]

end Bytes

namespace Argument

theorem isDigit_of_mem_utf8 (a : Argument) : ∀ x ∈ a.digits.utf8, Bytes.isDigit x := by
  intro x mem
  obtain ⟨d, hd, hx⟩ := List.mem_flatMap.1 mem
  obtain ⟨y, form, digit⟩ := Bytes.utf8EncodeChar_of_isDigit (a.isDigit d hd)
  rw [form, List.mem_singleton] at hx
  exact hx ▸ digit

/-- The digits of markers are the same in bytes. -/
theorem exists_utf8_iff {digits : Bytes} :
    (∃ a : Argument, a.digits.utf8 = digits) ↔ digits ≠ [] ∧ ∀ x ∈ digits, Bytes.isDigit x := by
  constructor
  · rintro ⟨a, rfl⟩
    refine ⟨fun empty => ?_, isDigit_of_mem_utf8 a⟩
    obtain ⟨x, rest, form, -⟩ := Text.exists_utf8_eq_cons a.ne_nil
    rw [form] at empty
    cases empty
  · rintro ⟨nonempty, isDigit⟩
    obtain ⟨ds, rfl, digits⟩ := Bytes.exists_digits isDigit
    exact ⟨⟨ds, by rintro rfl; exact nonempty rfl, digits⟩, rfl⟩

end Argument

namespace Label

variable {P : Label} {t : Text} {i j : Nat}

/-! ### Markers in bytes -/

/-- A marker in bytes: the form of the label, and digits in parentheses. -/
def spelling (P : Label) (digits : Bytes) : Bytes := P.text.utf8 ++ 0x28 :: (digits ++ [0x29])

/-- In the bytes a marker starts behind so many of them and ends behind so many. -/
def Spelled (P : Label) (b : Bytes) (i j : Nat) : Prop :=
  ∃ before digits after : Bytes, b = before ++ (P.spelling digits ++ after) ∧ digits ≠ [] ∧
    (∀ d ∈ digits, Bytes.isDigit d) ∧ before.length = i ∧ i + (P.spelling digits).length = j

theorem utf8_marker (a : Argument) : (P.marker a).utf8 = P.spelling a.digits.utf8 := by
  have opening : String.utf8EncodeChar '(' = [0x28] := by decide
  have closing : String.utf8EncodeChar ')' = [0x29] := by decide
  simp [marker, Argument.inParentheses, spelling, opening, closing]

/-- Markers stand in the bytes of a text where they stand among its characters, and nowhere else. -/
theorem spelled_utf8_iff : P.Spelled t.utf8 i j ↔ ∃ a, P.Occurs t i a ∧ i + (P.marker a).size = j := by
  constructor
  · rintro ⟨before, digits, after, whole, nonempty, isDigit, rfl, rfl⟩
    obtain ⟨a, rfl⟩ := Argument.exists_utf8_iff.2 ⟨nonempty, isDigit⟩
    rw [← utf8_marker] at whole ⊢
    have marker : P.marker a ≠ [] := by simp [Label.marker, P.ne_nil]
    obtain ⟨front, back, rfl, rfl, -⟩ := Text.exists_infix_of_utf8_eq marker whole
    rw [Text.length_utf8, Text.length_utf8]
    exact ⟨a, ⟨front, back, (List.append_assoc ..).symm, rfl⟩, rfl⟩
  · rintro ⟨a, ⟨before, after, rfl, rfl⟩, rfl⟩
    obtain ⟨nonempty, isDigit⟩ := Argument.exists_utf8_iff.1 ⟨a, rfl⟩
    refine ⟨before.utf8, a.digits.utf8, after.utf8, ?_, nonempty, isDigit, Text.length_utf8 before, ?_⟩
    · rw [← utf8_marker, List.append_assoc, Text.utf8_append, Text.utf8_append]
    · rw [← utf8_marker, Text.length_utf8]

theorem spelled_iff_stands : P.Spelled t.utf8 i j ↔ ∃ s, P.Stands t s ∧ s.offset = i ∧ s.stop = j := by
  rw [spelled_utf8_iff]
  constructor
  · rintro ⟨a, ⟨before, after, whole, rfl⟩, rfl⟩
    refine ⟨⟨Position.start.after before, P.marker a, a.digits⟩, ⟨before, after, a, whole, rfl⟩, ?_, ?_⟩
    · exact Nat.zero_add _
    · simp [Site.stop, Position.after, Position.start]
  · rintro ⟨s, stands, rfl, rfl⟩
    obtain ⟨a, text, -, occurs⟩ := stands.occurs
    exact ⟨a, occurs, by rw [Site.stop, text]⟩

/-! ### The search in bytes -/

/-- The places, each told by its start and its end, that a search from left to right takes in the bytes: each is
that of the first marker which starts at or behind the end of the one before. -/
inductive Scanned (P : Label) (b : Bytes) : Nat → List (Nat × Nat) → Prop where
  | nil {i : Nat} (none : ∀ j k, i ≤ j → ¬ P.Spelled b j k) : Scanned P b i []
  | cons {i j k : Nat} {places : List (Nat × Nat)} (spelled : P.Spelled b j k) (le : i ≤ j)
      (first : ∀ j' k', i ≤ j' → j' < j → ¬ P.Spelled b j' k') (rest : Scanned P b k places) :
      Scanned P b i ((j, k) :: places)

theorem scanned_utf8_iff {places : List (Nat × Nat)} :
    P.Scanned t.utf8 i places ↔
      ∃ sites, P.Leftmost t i sites ∧ places = sites.map fun s => (s.offset, s.stop) := by
  constructor
  · intro h
    induction h with
    | nil none =>
      exact ⟨[], .nil fun j a le occurs => none j _ le (spelled_utf8_iff.2 ⟨a, occurs, rfl⟩), rfl⟩
    | cons spelled le first _ ih =>
      obtain ⟨s, stands, rfl, rfl⟩ := spelled_iff_stands.1 spelled
      obtain ⟨sites, rest, rfl⟩ := ih
      refine ⟨s :: sites, .cons stands le (fun j a le' lt occurs => ?_) rest, rfl⟩
      exact first j _ le' lt (spelled_utf8_iff.2 ⟨a, occurs, rfl⟩)
  · rintro ⟨sites, leftmost, rfl⟩
    induction leftmost with
    | nil none =>
      refine .nil fun j k le spelled => ?_
      obtain ⟨a, occurs, -⟩ := spelled_utf8_iff.1 spelled
      exact none j a le occurs
    | cons stands le first _ ih =>
      refine .cons (spelled_iff_stands.2 ⟨_, stands, rfl, rfl⟩) le (fun j k le' lt spelled => ?_) ih
      obtain ⟨a, occurs, -⟩ := spelled_utf8_iff.1 spelled
      exact first j a le' lt occurs

theorem boundary_of_mem_sites {s : Site} (mem : s ∈ P.sites t) : t.utf8.IsBoundary s.offset := by
  obtain ⟨a, -, -, before, after, rfl, size⟩ := occurs_of_mem_sites mem
  exact Text.isBoundary_utf8_iff.2 ⟨before, P.marker a ++ after, List.append_assoc .., size⟩

/-- The text may be sliced between the starts of its sites, and before the first one. -/
theorem pairwise_sliceable_sites (P : Label) (t : Text) :
    (0 :: (P.sites t).map (·.offset)).Pairwise t.Sliceable := by
  have start : t.utf8.IsBoundary 0 := Text.isBoundary_utf8_iff.2 ⟨[], t, rfl, rfl⟩
  rw [List.pairwise_cons, List.forall_mem_map, List.pairwise_map]
  refine ⟨fun s mem => Text.sliceable_of_boundaries (Nat.zero_le _) start (boundary_of_mem_sites mem), ?_⟩
  refine (pairwise_sitesFrom _ _).imp_of_mem fun {s s'} mem mem' behind => ?_
  have le : s.offset ≤ s'.offset := Nat.le_trans (Nat.le_add_right ..) behind.1
  exact Text.sliceable_of_boundaries le (boundary_of_mem_sites mem) (boundary_of_mem_sites mem')

/-- A marker starts and ends in the bytes of a text just where one starts and ends among its characters; so a search
through the bytes takes the sites and nothing else, and whatever lies between the starts of two sites is a text. -/
theorem bytes_tell_the_sites (P : Label) (t : Text) :
    (∀ i j, P.Spelled t.utf8 i j ↔ ∃ a, P.Occurs t i a ∧ i + (P.marker a).size = j) ∧
      (∀ places, P.Scanned t.utf8 0 places ↔ places = (P.sites t).map fun s => (s.offset, s.stop)) ∧
      (0 :: (P.sites t).map (·.offset)).Pairwise t.Sliceable := by
  refine ⟨fun i j => spelled_utf8_iff, fun places => ?_, P.pairwise_sliceable_sites t⟩
  rw [scanned_utf8_iff]
  constructor
  · rintro ⟨sites, leftmost, rfl⟩
    rw [leftmost.eq (P.leftmost_sites t)]
  · rintro rfl
    exact ⟨_, P.leftmost_sites t, rfl⟩

end Label

end Numbering
