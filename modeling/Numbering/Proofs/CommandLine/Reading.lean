import Numbering.Proofs.CommandLine.Lines

/-! What the arguments that have been read tell of a parser. A step reads a double dash, checks options, or leaves one
that is kept back: a path or an option with its value, or one that waits for it. So a parser whose option waits has
just read an argument that ends with this option, and a parser takes all further arguments for paths exactly if it
has read a double dash. -/

namespace Numbering

/-- The argument ends with an option that needs a value, and the value is not in it. -/
inductive EndsBare : Opt → Bytes → Prop where
  | label : EndsBare .label (Text.utf8 "--prefix".toList)
  | selection : EndsBare .selection (Text.utf8 "--pass".toList)
  | cluster (flags : List Flag) : EndsBare .label (dash :: (Flag.letters flags ++ [labelLetter]))

variable {p q : Parser} {o : Opt} {value : Option Bytes} {a : Bytes} {args : List Bytes} {c : Config}

theorem EndsBare.takesValue (bare : EndsBare o a) : o.takesValue := by
  cases bare <;> rfl

theorem EndsBare.of_name {name : Bytes} (named : Opt.ofLong? name = some o) (takes : o.takesValue) :
    EndsBare o (dash :: dash :: name) := by
  have long := Opt.long?_of_ofLong? named
  cases o with
  | label => cases long; exact .label
  | selection => cases long; exact .selection
  | path => cases long
  | _ => cases takes

namespace Parser

/-! ### Parts of a command line -/

theorem ofArgs_eq_run (args : List Bytes) : Config.ofArgs args = ({} : Parser).run args := rfl

theorem run_append (p : Parser) (args more : List Bytes) :
    p.run (args ++ more) = args.foldlM step p >>= fun q => q.run more := by
  rw [run, List.foldlM_append, bind_assoc]
  rfl

/-! ### Steps -/

theorem frame_give (h : p.give o value = .ok q) : q.pending = none ∧ q.trailing = p.trailing := by
  obtain ⟨r, flushed, reacted⟩ := bind_eq_ok_iff.1 h
  obtain ⟨pending, trailing, -⟩ := frame_react reacted
  obtain ⟨settled, kept, -⟩ := frame_flush flushed
  exact ⟨pending.trans settled, trailing.trans kept⟩

theorem frame_await (h : p.await o = .ok q) : q.pending = some (o, none) ∧ q.trailing = p.trailing := by
  obtain ⟨r, flushed, h⟩ := bind_eq_ok_iff.1 h
  obtain rfl := Except.ok.inj h
  exact ⟨rfl, (frame_flush flushed).2.1⟩

/-- What a step keeps back: nothing, the argument as a path, an option at its end that waits for a value, or the
option that has waited with the argument for its value. -/
inductive Kept (p : Parser) (a : Bytes) : Option (Opt × Option Bytes) → Prop where
  | nothing : Kept p a none
  | path : Kept p a (some (.path, some a))
  | waits {o : Opt} (bare : EndsBare o a) : Kept p a (some (o, none))
  | value {o : Opt} (waited : p.pending = some (o, none)) : Kept p a (some (o, some a))

theorem kept_of_positional (h : p.positional a = .ok q) : q.trailing = p.trailing ∧ Kept p a q.pending := by
  unfold positional at h
  split at h
  · cases h
  · obtain ⟨r, flushed, h⟩ := bind_eq_ok_iff.1 h
    obtain rfl := Except.ok.inj h
    exact ⟨(frame_flush flushed).2.1, .path⟩

theorem kept_of_give (h : p.give o value = .ok q) : q.trailing = p.trailing ∧ Kept p a q.pending := by
  obtain ⟨pending, trailing⟩ := frame_give h
  exact ⟨trailing, pending ▸ .nothing⟩

theorem kept_of_await (bare : EndsBare o a) (h : p.await o = .ok q) :
    q.trailing = p.trailing ∧ Kept p a q.pending := by
  obtain ⟨pending, trailing⟩ := frame_await h
  exact ⟨trailing, pending ▸ .waits bare⟩

theorem kept_of_long {bytes : Bytes} (h : p.long bytes = .ok q) :
    q.trailing = p.trailing ∧ Kept p (dash :: dash :: bytes) q.pending := by
  obtain ⟨name, plain, rfl | ⟨v, rfl⟩⟩ := exists_name bytes
  · rw [long_name plain] at h
    cases named : Opt.ofLong? bytes with
    | none => simp [named] at h
    | some o =>
      rw [named] at h
      cases takes : o.takesValue with
      | true =>
        simp only [takes, if_true] at h
        exact kept_of_await (.of_name named takes) h
      | false =>
        simp only [takes, Bool.false_eq_true, if_false] at h
        exact kept_of_give h
  · rw [long_equals plain] at h
    split at h
    · cases h
    · split at h
      · exact kept_of_give h
      · cases h

theorem frame_cluster {bytes : Bytes} (h : p.cluster bytes = .ok q) (reads : bytes ≠ [] ∨ p.pending = none) :
    q.trailing = p.trailing ∧ (q.pending = none ∨ q.pending = some (.label, none) ∧
      ∃ flags : List Flag, bytes = Flag.letters flags ++ [labelLetter]) := by
  induction bytes generalizing p with
  | nil =>
    obtain rfl := Except.ok.inj h
    exact ⟨rfl, .inl (reads.resolve_left (fun some => some rfl))⟩
  | cons b rest ih =>
    rw [cluster] at h
    cases found : Opt.ofShort? b with
    | none => simp [found] at h
    | some o =>
      rw [found] at h
      have short := Opt.short?_of_ofShort? found
      cases takes : o.takesValue with
      | true =>
        simp only [takes, if_true] at h
        cases rest with
        | nil =>
          obtain ⟨pending, trailing⟩ := frame_await h
          cases o with
          | label => cases short; exact ⟨trailing, .inr ⟨pending, [], rfl⟩⟩
          | path | selection => cases short
          | _ => cases takes
        | cons d value =>
          obtain ⟨pending, trailing⟩ := frame_give h
          exact ⟨trailing, .inl pending⟩
      | false =>
        simp only [takes, Bool.false_eq_true, if_false] at h
        obtain ⟨r, given, h⟩ := bind_eq_ok_iff.1 h
        obtain ⟨settled, kept⟩ := frame_give given
        obtain ⟨trailing, pending⟩ := ih h (.inr settled)
        refine ⟨trailing.trans kept, pending.imp_right ?_⟩
        rintro ⟨waits, flags, rfl⟩
        obtain ⟨s, -, reacted⟩ := bind_eq_ok_iff.1 given
        obtain ⟨f, rfl⟩ := Setting.flag_of_bare (exists_setting_of_react reacted takes)
        refine ⟨waits, f :: flags, ?_⟩
        cases f <;> cases short <;> rfl

theorem kept_of_cluster {bytes : Bytes} (nonempty : bytes ≠ []) (h : p.cluster bytes = .ok q) :
    q.trailing = p.trailing ∧ Kept p (dash :: bytes) q.pending := by
  obtain ⟨trailing, pending | ⟨pending, flags, rfl⟩⟩ := frame_cluster h (.inl nonempty)
  · exact ⟨trailing, pending ▸ .nothing⟩
  · exact ⟨trailing, pending ▸ .waits (.cluster flags)⟩

/-- A step reads a double dash and keeps all else, or keeps back what the argument tells. -/
theorem step_cases (h : p.step a = .ok q) :
    (p.trailing = false ∧ a = [dash, dash] ∧ q = { p with trailing := true }) ∨
      ((p.trailing = true ∨ a ≠ [dash, dash]) ∧ q.trailing = p.trailing ∧ Kept p a q.pending) := by
  cases trailing : p.trailing with
  | true =>
    rw [step_trailing trailing] at h
    exact .inr ⟨.inl rfl, trailing ▸ kept_of_positional h⟩
  | false =>
    cases shape a with
    | dashes =>
      rw [step_dashes trailing] at h
      exact .inl ⟨rfl, rfl, (Except.ok.inj h).symm⟩
    | long some =>
      rw [step_long trailing some] at h
      exact .inr ⟨.inr (by simpa using some), trailing ▸ kept_of_long h⟩
    | @cluster b differs rest =>
      rw [step_cluster trailing differs] at h
      exact .inr ⟨.inr (by simp [differs]), trailing ▸ kept_of_cluster (List.cons_ne_nil b rest) h⟩
    | plain plain =>
      have other : a ≠ [dash, dash] := by
        rintro rfl
        exact not_isPlain dash [] plain
      refine .inr ⟨.inr other, ?_⟩
      rw [step_plain trailing plain] at h
      split at h
      · rename_i o waited
        obtain rfl := Except.ok.inj h
        exact ⟨trailing, .value waited⟩
      · exact trailing ▸ kept_of_positional h

/-! ### Runs -/

theorem trailing_of_step (h : p.step a = .ok q) :
    q.trailing = true ↔ p.trailing = true ∨ a = [dash, dash] := by
  obtain ⟨first, argument, rfl⟩ | ⟨other, trailing, -⟩ := step_cases h
  · simp [argument]
  · rw [trailing]
    exact (or_iff_left_of_imp fun same => other.resolve_right (· same)).symm

/-- The parser takes all further arguments for paths exactly behind a double dash. -/
theorem trailing_of_foldlM (h : args.foldlM step p = .ok q) :
    q.trailing = true ↔ p.trailing = true ∨ [dash, dash] ∈ args := by
  induction args generalizing p with
  | nil =>
    obtain rfl := Except.ok.inj h
    simp
  | cons a args ih =>
    obtain ⟨r, first, rest⟩ := bind_eq_ok_iff.1 h
    rw [ih rest, trailing_of_step first, List.mem_cons, or_assoc, eq_comm (a := a)]

theorem trailing_of_not_mem (h : args.foldlM step {} = .ok q) (noDashes : [dash, dash] ∉ args) :
    q.trailing = false := by
  have := trailing_of_foldlM h
  simpa [noDashes] using this

/-- Only an option that takes a value is kept back. -/
def KeepsValued (p : Parser) : Prop := ∀ o value, p.pending = some (o, value) → o.takesValue

theorem KeepsValued.step (valued : p.KeepsValued) (h : p.step a = .ok q) : q.KeepsValued := by
  intro o value pending
  obtain ⟨-, -, rfl⟩ | ⟨-, -, kept⟩ := step_cases h
  · exact valued o value pending
  · rw [pending] at kept
    cases kept with
    | path => rfl
    | waits bare => exact bare.takesValue
    | value waited => exact valued o none waited

theorem KeepsValued.foldlM (valued : p.KeepsValued) (h : args.foldlM Parser.step p = .ok q) :
    q.KeepsValued := by
  induction args generalizing p with
  | nil =>
    obtain rfl := Except.ok.inj h
    exact valued
  | cons a args ih =>
    obtain ⟨r, first, rest⟩ := bind_eq_ok_iff.1 h
    exact ih (valued.step first) rest

theorem keepsValued_of_foldlM (h : args.foldlM step {} = .ok q) : q.KeepsValued :=
  KeepsValued.foldlM (p := {}) nofun h

/-- An option waits for its value only behind an argument that ends with it. -/
theorem endsBare_of_waits (h : args.foldlM step {} = .ok q) (waits : q.pending = some (o, none))
    (trailing : q.trailing = false) : ∃ before last, args = before ++ [last] ∧ EndsBare o last := by
  rcases List.eq_nil_or_concat args with rfl | ⟨before, last, rfl⟩
  · obtain rfl := Except.ok.inj h
    cases waits
  · rw [List.concat_eq_append] at h ⊢
    rw [List.foldlM_append] at h
    obtain ⟨r, -, h⟩ := bind_eq_ok_iff.1 h
    have h : r.step last = .ok q := by simpa using h
    refine ⟨before, last, rfl, ?_⟩
    obtain ⟨-, -, rfl⟩ | ⟨-, -, kept⟩ := step_cases h
    · cases trailing
    · rw [waits] at kept
      cases kept with
      | waits bare => exact bare

end Parser

end Numbering
