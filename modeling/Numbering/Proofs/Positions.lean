import Numbering.Proofs.Search

/-! What sites tell of their markers. Offsets and lines are told part by part along the search; they are those
of the whole text in bytes, newlines within labels included. The sites stand one behind the other. -/

namespace Numbering

namespace Text

/-! ### Newlines in bytes -/

theorem le_of_mem_utf8EncodeChar {c : Char} (long : 127 < c.toNat) :
    ∀ b ∈ String.utf8EncodeChar c, 0x80 ≤ b := by
  rw [← Char.toNat_val] at long
  fun_cases String.utf8EncodeChar c with
  | case1 => omega
  | _ =>
    simp only [List.forall_mem_cons, List.not_mem_nil, false_implies, implies_true, and_true,
      UInt8.le_iff_toNat_le, UInt8.toNat_ofNat, UInt8.toNat_ofNat']
    omega

theorem count_utf8EncodeChar (c : Char) :
    (String.utf8EncodeChar c).count 0x0A = if c = '\n' then 1 else 0 := by
  split
  · rename_i newline
    rw [newline]
    rfl
  · rename_i other
    refine List.count_eq_zero_of_not_mem fun mem => ?_
    by_cases long : 127 < c.toNat
    · exact absurd (le_of_mem_utf8EncodeChar long _ mem) (by decide)
    · have single : String.utf8EncodeChar c = [UInt8.ofNat c.toNat] := if_pos (Nat.le_of_not_lt long)
      rw [single, List.mem_singleton] at mem
      have same : utf8 [c] = utf8 ['\n'] := by
        rw [utf8_cons, single, ← mem]
        rfl
      exact other (List.singleton_inj.1 (Bytes.utf8_inj same))

/-- A newline is the same in characters and in bytes. -/
theorem count_utf8 (t : Text) : t.utf8.count 0x0A = t.newlines := by
  induction t with
  | nil => rfl
  | cons c t ih =>
    rw [utf8_cons, List.count_append, count_utf8EncodeChar, ih, newlines, newlines, List.count_cons,
      Nat.add_comm]
    simp

theorem take_utf8 (t u : Text) : (t ++ u).utf8.take t.size = t.utf8 := by
  rw [utf8_append, ← length_utf8, List.take_left]

theorem drop_utf8 (t u : Text) : (t ++ u).utf8.drop t.size = u.utf8 := by
  rw [utf8_append, ← length_utf8, List.drop_left]

end Text

namespace Label

variable {P : Label} {wanted : Argument → Bool} {t : Text}

/-! ### Sites and the bytes of the text -/

/-- Each place that a search takes is that of a wanted marker. -/
theorem stands_of_mem_hits {s : Site} (h : s ∈ P.hits wanted t) :
    P.Stands t s ∧ ∃ a, wanted a ∧ s.argument = a.digits := by
  obtain ⟨before, part, after, parts, rfl⟩ := exists_part_of_mem_sitesFrom h
  have leaves : P.Leaves wanted (P.cut wanted t) := leaves_cut t
  have mem : part ∈ (P.cut wanted t).parts := parts ▸ List.mem_append_right before List.mem_cons_self
  have whole := Cut.join_of_parts (P := P) parts
  rw [join_cut] at whole
  exact ⟨⟨_, _, part.argument, whole, rfl⟩, part.argument, (leaves.1 part mem).1, rfl⟩

/-- The site tells where its marker stands among the bytes of the text, on which line, and what it is. -/
structure Located (P : Label) (t : Text) (s : Site) : Prop where
  line : s.line = 1 + (t.utf8.take s.offset).count 0x0A
  bytes : (t.utf8.drop s.offset).take s.text.utf8.length = s.text.utf8
  text : s.text = P.text ++ '(' :: (s.argument ++ [')'])
  ne_nil : s.argument ≠ []
  isDigit : ∀ c ∈ s.argument, c.isDigit

theorem Stands.located {s : Site} (h : P.Stands t s) : P.Located t s := by
  obtain ⟨before, after, a, rfl, rfl⟩ := h
  have offset : (Position.start.after before).offset = before.size := Nat.zero_add _
  rw [List.append_assoc]
  refine ⟨?_, ?_, rfl, a.ne_nil, a.isDigit⟩
  · rw [offset, Text.take_utf8, Text.count_utf8]
    rfl
  · rw [offset, Text.drop_utf8, Text.length_utf8, Text.take_utf8]

theorem exists_after_of_mem_sitesFrom {p : Position} {parts : List Part} {s : Site}
    (h : s ∈ P.sitesFrom p parts) : ∃ u, s.toPosition = p.after u := by
  obtain ⟨before, part, -, -, rfl⟩ := exists_part_of_mem_sitesFrom h
  exact ⟨_, rfl⟩

/-- Each site of a search starts at or behind the end of those before it, and on no earlier line. -/
theorem pairwise_sitesFrom (p : Position) (parts : List Part) :
    (P.sitesFrom p parts).Pairwise fun s s' => s.stop ≤ s'.offset ∧ s.line ≤ s'.line := by
  induction parts generalizing p with
  | nil => exact List.Pairwise.nil
  | cons part parts ih =>
    rw [sitesFrom_cons, List.pairwise_cons]
    refine ⟨fun s mem => ?_, ih _⟩
    obtain ⟨u, behind⟩ := exists_after_of_mem_sitesFrom mem
    rw [behind]
    simp only [Site.stop, Position.after, Text.size_append, Text.newlines_append]
    omega

/-- Each site tells the offset, the line and the digits of its marker as they are in the bytes of the text, and
the sites stand one behind the other. -/
theorem sites_are_located (P : Label) (t : Text) :
    (∀ s ∈ P.sites t, P.Located t s) ∧
      (P.sites t).Pairwise fun s s' => s.line ≤ s'.line ∧ s.offset + s.text.utf8.length ≤ s'.offset := by
  refine ⟨fun s mem => (stands_of_mem_hits mem).1.located, (pairwise_sitesFrom _ _).imp ?_⟩
  rintro s s' ⟨stop, line⟩
  rw [Text.length_utf8]
  exact ⟨line, stop⟩

/-- Behind longer characters, with newlines between the markers and in the label itself. -/
theorem sites_are_located_multibyte :
    let P : Label := ⟨"é\n".toList, by decide, by decide⟩
    let t : Text := "→é\n(07)é\n\né\n(x)é\n(3)".toList
    let s : Site := ⟨⟨20, 5⟩, "é\n(3)".toList, ['3']⟩
    s ∈ P.sites t ∧ P.Located t s ∧ s.line = 1 + (t.utf8.take 20).count 0x0A := by
  intro P t s
  have mem : s ∈ P.sites t := by decide +kernel
  have located := (sites_are_located P t).1 s mem
  exact ⟨mem, located, located.line⟩

end Label

end Numbering
