import Numbering.Cut

/-! How markers of one label overlap. A label may hold parentheses and digits of its own, so two markers
may share characters; but a marker that starts before another one ends within the label of the other.
So whether a marker starts in a stretch of text before a marker depends on the stretch and the label
alone, and the search can be told from the stretches it leaves: they decide where a text is cut,
whatever the arguments are. -/

namespace Numbering

theorem Argument.not_mem_tail_inParentheses (a : Argument) : '(' ∉ a.inParentheses.tail := by
  intro h
  rcases List.mem_append.1 h with h | h
  · exact absurd (a.isDigit _ h) (by decide)
  · simp at h

namespace Label

variable {P : Label} {wanted : Argument → Bool}

/-- A marker up to its closing parenthesis. -/
def opening (P : Label) (a : Argument) : Text := P.text ++ '(' :: a.digits

theorem marker_eq (P : Label) (a : Argument) : P.marker a = P.opening a ++ [')'] := by
  simp [marker, opening, Argument.inParentheses]

theorem not_mem_opening (noClosing : ')' ∉ P.text) (a : Argument) : ')' ∉ P.opening a := by
  intro h
  rcases List.mem_append.1 h with label | rest
  · exact noClosing label
  · rcases List.mem_cons.1 rest with parenthesis | digit
    · cases parenthesis
    · exact absurd (a.isDigit _ digit) (by decide)

/-- The end of a marker, however short, has the closing parenthesis. -/
theorem closing_of_marker {a : Argument} {u v : Text} (marker : P.marker a = u ++ v) (nonempty : v ≠ []) :
    ∃ x, v = x ++ [')'] ∧ P.opening a = u ++ x := by
  obtain ⟨x, c, rfl⟩ := (List.eq_nil_or_concat v).resolve_left nonempty
  rw [marker_eq, List.concat_eq_append, ← List.append_assoc] at marker
  obtain ⟨opening, last⟩ := List.append_inj' marker rfl
  exact ⟨x, by rw [List.concat_eq_append, ← last], opening⟩

/-- A marker that starts before another one ends within the label of the other. -/
theorem ends_in_label {u r s : Text} {a b : Argument} (front : u ≠ [])
    (h : u ++ (P.marker a ++ r) = P.marker b ++ s) :
    ∃ v, u ++ P.text = P.marker b ++ v ∧ s = v ++ (a.inParentheses ++ r) := by
  rw [marker, List.append_assoc, ← List.append_assoc] at h
  rcases List.append_eq_append_iff.1 h with ⟨x, whole, rest⟩ | ⟨v, labels, rest⟩
  · rcases x with _ | ⟨c, x⟩
    · exact ⟨[], by simpa using whole.symm, by simpa using rest.symm⟩
    · -- the character behind the label of the one would be an opening parenthesis among digits
      have opening : c = '(' := (List.cons_eq_cons.1 rest).1.symm
      rw [marker] at whole
      rcases List.append_eq_append_iff.1 whole with ⟨y, labels, parentheses⟩ | ⟨y, short, -⟩
      · rcases y with _ | ⟨d, y⟩
        · have := congrArg List.length labels
          simp [front] at this
        · refine absurd ?_ b.not_mem_tail_inParentheses
          rw [parentheses, opening]
          simp
      · have := congrArg List.length short
        have := List.length_pos_iff.2 front
        simp only [List.length_append] at *
        omega
  · exact ⟨v, labels, rest⟩

/-! ### Texts without markers -/

/-- No wanted marker stands anywhere in the text. -/
def Free (P : Label) (wanted : Argument → Bool) (t : Text) : Prop :=
  ∀ a, wanted a → ¬ P.marker a <:+: t

theorem free_text : P.Free wanted P.text := by
  intro a _ h
  have := h.length_le
  simp only [marker, Argument.inParentheses, List.length_append, List.length_cons] at this
  omega

theorem free_nil : P.Free wanted [] := by
  intro a _ h
  simp [marker, Argument.inParentheses] at h

theorem Free.mono {stricter : Argument → Bool} {t : Text} (free : P.Free wanted t)
    (h : ∀ a, stricter a → wanted a) : P.Free stricter t :=
  fun a ha => free a (h a ha)

theorem free_cons_iff {c : Char} {t : Text} :
    P.Free wanted (c :: t) ↔ P.read? wanted (c :: t) = none ∧ P.Free wanted t := by
  simp only [Free, List.infix_cons_iff, not_or, read?_eq_none_iff]
  constructor
  · intro free
    exact ⟨fun a rest ha h => (free a ha).1 ⟨rest, h.symm⟩, fun a ha => (free a ha).2⟩
  · rintro ⟨start, free⟩ a ha
    exact ⟨fun ⟨rest, h⟩ => start a rest ha h.symm, free a ha⟩

theorem read?_eq_none_of_append {t u : Text} (h : P.read? wanted (t ++ u) = none) :
    P.read? wanted t = none := by
  rw [read?_eq_none_iff] at h ⊢
  rintro b s hb rfl
  exact h b (s ++ u) hb (List.append_assoc ..)

/-- No marker starts in a stretch before a marker, whatever the argument of that marker. -/
theorem Free.read?_eq_none {u r : Text} {a : Argument} (free : P.Free wanted (u ++ P.text))
    (front : u ≠ []) : P.read? wanted (u ++ (P.marker a ++ r)) = none := by
  rw [read?_eq_none_iff]
  intro b s hb h
  obtain ⟨v, labels, -⟩ := ends_in_label front h
  exact free b hb ⟨[], v, by simpa using labels.symm⟩

/-! ### Cuts told by their stretches -/

/-- The search leaves the stretches of the cut: each marker is a wanted one, and no wanted marker
starts before it or in the tail. -/
def Leaves (P : Label) (wanted : Argument → Bool) (c : Cut) : Prop :=
  (∀ p ∈ c.parts, wanted p.argument ∧ P.Free wanted (p.gap ++ P.text)) ∧ P.Free wanted c.tail

theorem leaves_mark_iff {a : Argument} {c : Cut} :
    P.Leaves wanted (c.mark a) ↔ wanted a ∧ P.Leaves wanted c := by
  simp [Leaves, Cut.mark, free_text, and_assoc]

/-- A character in front at which no marker starts. -/
theorem Leaves.prepend {k : Cut} {c : Char} (leaves : P.Leaves wanted k)
    (h : P.read? wanted (c :: k.join P) = none) : P.Leaves wanted (k.prepend [c]) := by
  obtain ⟨_ | ⟨p, ps⟩, tail⟩ := k
  · rw [Cut.join_nil] at h
    exact ⟨by simp [Cut.prepend], free_cons_iff.2 ⟨h, leaves.2⟩⟩
  · obtain ⟨⟨argument, free⟩, others⟩ := List.forall_mem_cons.1 leaves.1
    refine ⟨List.forall_mem_cons.2 ⟨⟨argument, free_cons_iff.2 ⟨?_, free⟩⟩, others⟩, leaves.2⟩
    rw [Cut.join_cons, marker, List.append_assoc, ← List.append_assoc] at h
    exact read?_eq_none_of_append h

theorem leaves_cut (t : Text) : P.Leaves wanted (P.cut wanted t) := by
  induction t using cut_induction P wanted with
  | nil => simp [Leaves, free_nil]
  | marker t a rest h ih =>
    rw [cut_of_read? h, leaves_mark_iff]
    exact ⟨(read?_eq_some_iff.1 h).1, ih⟩
  | char c t h ih =>
    rw [cut_cons h]
    exact ih.prepend (by rwa [join_cut])

theorem cut_of_free {t : Text} (free : P.Free wanted t) : P.cut wanted t = ⟨[], t⟩ := by
  induction t with
  | nil => exact cut_nil
  | cons c t ih =>
    obtain ⟨start, free⟩ := free_cons_iff.1 free
    rw [cut_cons start, ih free]
    rfl

theorem cut_gap {g t : Text} {a : Argument} (free : P.Free wanted (g ++ P.text)) (ha : wanted a) :
    P.cut wanted (g ++ (P.marker a ++ t)) = ((P.cut wanted t).mark a).prepend g := by
  induction g with
  | nil => rw [List.nil_append, Cut.prepend_nil, cut_of_read? (read?_eq_some_iff.2 ⟨ha, rfl⟩)]
  | cons c g ih =>
    have start : P.read? wanted (c :: (g ++ (P.marker a ++ t))) = none :=
      free.read?_eq_none (List.cons_ne_nil c g)
    rw [List.cons_append, cut_cons start, ih (free_cons_iff.1 free).2, Cut.prepend_prepend]
    rfl

/-- A cut that the search leaves is found again in the text it makes. -/
theorem cut_join {c : Cut} (leaves : P.Leaves wanted c) : P.cut wanted (c.join P) = c := by
  obtain ⟨parts, tail⟩ := c
  induction parts with
  | nil => rw [Cut.join_nil, cut_of_free leaves.2]
  | cons p ps ih =>
    obtain ⟨⟨argument, free⟩, others⟩ := List.forall_mem_cons.1 leaves.1
    rw [Cut.join_cons, cut_gap free argument, ih ⟨others, leaves.2⟩, Cut.prepend_mark]

/-- The cut of a text is the one that the search leaves. -/
theorem cut_eq_iff {t : Text} {c : Cut} : P.cut wanted t = c ↔ c.join P = t ∧ P.Leaves wanted c := by
  constructor
  · rintro rfl
    exact ⟨join_cut t, leaves_cut t⟩
  · rintro ⟨rfl, leaves⟩
    exact cut_join leaves

/-- A cut with the same stretches, whose arguments are wanted ones. -/
theorem Leaves.of_gaps {stricter : Argument → Bool} {c d : Cut} (leaves : P.Leaves wanted c)
    (h : ∀ a, stricter a → wanted a) (same : d.gaps = c.gaps)
    (arguments : ∀ p ∈ d.parts, stricter p.argument) : P.Leaves stricter d := by
  obtain ⟨gaps, tail⟩ := Cut.gaps_eq_iff.1 same
  refine ⟨fun p hp => ⟨arguments p hp, ?_⟩, ?_⟩
  · have mem : p.gap ∈ c.parts.map Part.gap := gaps ▸ List.mem_map_of_mem hp
    obtain ⟨q, hq, gap⟩ := List.mem_map.1 mem
    rw [← gap]
    exact (leaves.1 q hq).2.mono h
  · rw [tail]
    exact leaves.2.mono h

theorem Leaves.withArguments {stricter : Argument → Bool} {c : Cut} (leaves : P.Leaves wanted c)
    (h : ∀ a, stricter a → wanted a) {f : Nat → Argument} (hf : ∀ k, stricter (f k)) :
    P.Leaves stricter (c.withArguments f) := by
  refine leaves.of_gaps h (Cut.gaps_withArguments f c) fun p hp => ?_
  obtain ⟨k, hk, rfl⟩ := List.mem_mapIdx.1 hp
  exact hf k

end Label

end Numbering
