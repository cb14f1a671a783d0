import Numbering.Proofs.CommandLine.Grammar

/-! Arguments that make a configuration are those of a line. The first argument tells the group it begins:
what follows it is known from the parser's success, which needs a value where an option waits for one and a
good value wherever one is given. -/

namespace Numbering

variable {l : List Setting} {o : Opt} {value : Option Bytes} {a v name : Bytes} {args : List Bytes}
  {p : Parser} {c : Config}

namespace Setting

theorem path_of_given (h : ∃ s : Setting, s.opt = .path ∧ s.value = some v) : v ≠ [] := by
  obtain ⟨⟨p, nonempty⟩ | _ | _ | (_ | _ | _), same, given⟩ := h <;> cases same
  exact Option.some.inj given ▸ nonempty

theorem label_of_given (h : ∃ s : Setting, s.opt = .label ∧ s.value = some v) : ∃ t : Text, t.utf8 = v := by
  obtain ⟨_ | t | _ | (_ | _ | _), same, given⟩ := h <;> cases same
  exact ⟨t, Option.some.inj given⟩

theorem selection_of_given (h : ∃ s : Setting, s.opt = .selection ∧ s.value = some v) :
    ∃ s : Selection, s.name.utf8 = v := by
  obtain ⟨_ | _ | s | (_ | _ | _), same, given⟩ := h <;> cases same
  exact ⟨s, Option.some.inj given⟩

theorem flag_of_bare (h : ∃ s : Setting, s.opt = o ∧ s.value = none) : ∃ f : Flag, f.opt = o := by
  obtain ⟨_ | _ | _ | f, same, bare⟩ := h
  · cases bare
  · cases bare
  · cases bare
  · exact ⟨f, same⟩

end Setting

namespace Parser

/-! ### Settings that have been read -/

theorem exists_setting_of_give {k : Parser → Except Stop Config} (h : p.give o value >>= k = .ok c)
    (takes : o.takesValue = value.isSome) : ∃ s : Setting, s.opt = o ∧ s.value = value := by
  obtain ⟨r, given, -⟩ := bind_eq_ok_iff.1 h
  obtain ⟨q, -, reacted⟩ := bind_eq_ok_iff.1 given
  exact exists_setting_of_react reacted takes

theorem exists_setting_of_kept (kept : p.pending = some (o, some v)) (h : p.run args = .ok c)
    (takes : o.takesValue) : ∃ s : Setting, s.opt = o ∧ s.value = some v := by
  have ready : p.Ready := by simp [Ready, kept]
  obtain ⟨q, flushed, -⟩ := (run_iff_of_ready ready).1 h
  rw [flush, kept] at flushed
  exact exists_setting_of_react flushed takes

theorem exists_setting_of_await (h : (after false l).await o >>= (fun q => q.run args) = .ok c)
    (takes : o.takesValue) :
    ∃ v rest, args = v :: rest ∧ IsPlain v ∧ ∃ s : Setting, s.opt = o ∧ s.value = some v := by
  rw [await, flush_of_settled rfl, ok_bind] at h
  obtain ⟨v, rest, parts, plain, h⟩ := (run_iff_of_waits rfl rfl takes).1 h
  exact ⟨v, rest, parts, plain, exists_setting_of_kept rfl h takes⟩

theorem nonempty_of_positional {b : Bool} (h : (after b l).positional a >>= (fun q => q.run args) = .ok c) :
    a ≠ [] := by
  cases hasPath : (after b l).hasPath with
  | true => simp [positional, hasPath] at h
  | false =>
    rw [positional_of_not_hasPath hasPath, flush_of_settled rfl, ok_bind, ok_bind] at h
    exact Setting.path_of_given (exists_setting_of_kept rfl h rfl)

/-! ### The first group -/

/-- Bytes are the letters of some flags and what follows them, which starts with no such letter. -/
theorem exists_letters (bytes : Bytes) :
    ∃ flags v, bytes = Flag.letters flags ++ v ∧ ∀ f : Flag, v.head? ≠ some f.letter := by
  induction bytes with
  | nil => exact ⟨[], [], rfl, nofun⟩
  | cons b bytes ih =>
    by_cases h : ∃ f : Flag, b = f.letter
    · obtain ⟨f, rfl⟩ := h
      obtain ⟨flags, v, rfl, stops⟩ := ih
      exact ⟨f :: flags, v, rfl, stops⟩
    · exact ⟨[], b :: bytes, rfl, fun f same => h ⟨f, Option.some.inj same⟩⟩

/-- Behind flags nothing but the letter of the label is understood. -/
theorem eq_labelLetter_of_cluster {letter : UInt8} {k : Parser → Except Stop Config}
    (h : p.cluster (letter :: v) >>= k = .ok c) (other : ∀ f : Flag, letter ≠ f.letter) :
    letter = labelLetter := by
  rw [cluster] at h
  cases found : Opt.ofShort? letter with
  | none =>
    rw [found] at h
    cases h
  | some o =>
    rw [found] at h
    have short := Opt.short?_of_ofShort? found
    cases takes : o.takesValue with
    | false =>
      simp only [takes, Bool.false_eq_true, if_false, bind_assoc] at h
      obtain ⟨f, rfl⟩ := Setting.flag_of_bare (exists_setting_of_give h takes)
      refine absurd ?_ (other f)
      cases f <;> cases short <;> rfl
    | true =>
      cases o with
      | label => cases short; rfl
      | path | selection => cases short
      | _ => cases takes

theorem exists_group_of_cluster {b : UInt8} {bytes : Bytes} (differs : b ≠ dash) (distinct : Distinct l)
    (h : (after false l).run ((dash :: b :: bytes) :: args) = .ok c) :
    ∃ (g : Group) (rest : _), (dash :: b :: bytes) :: args = g.args ++ rest := by
  rw [run_cons, step_cluster rfl differs] at h
  obtain ⟨flags, v, parts, stops⟩ := exists_letters (b :: bytes)
  rw [parts] at h ⊢
  replace h := ((cluster_bind distinct flags _).eq_ok_iff.1 h).2
  cases v with
  | nil =>
    have nonempty : flags ≠ [] := by
      rintro rfl
      cases parts
    exact ⟨.cluster flags nonempty, args, by rw [List.append_nil]; rfl⟩
  | cons letter value =>
    obtain rfl := eq_labelLetter_of_cluster h fun f same => stops f (congrArg some same)
    by_cases last : value = []
    · subst last
      rw [cluster_labelLetter] at h
      obtain ⟨_, rest, rfl, plain, given⟩ := exists_setting_of_await h rfl
      obtain ⟨t, rfl⟩ := Setting.label_of_given given
      exact ⟨.separate flags t plain, rest, rfl⟩
    · rw [cluster_label last] at h
      obtain ⟨t, form⟩ := Setting.label_of_given (exists_setting_of_give h rfl)
      exact ⟨.attached flags t value last form, args, rfl⟩

theorem exists_group_of_name (nonempty : name ≠ []) (plain : equalsSign ∉ name)
    (h : (after false l).run ((dash :: dash :: name) :: args) = .ok c) :
    ∃ (g : Group) (rest : _), (dash :: dash :: name) :: args = g.args ++ rest := by
  rw [run_cons, step_long rfl nonempty, long_name plain] at h
  cases found : Opt.ofLong? name with
  | none =>
    rw [found] at h
    cases h
  | some o =>
    rw [found] at h
    have long := Opt.long?_of_ofLong? found
    cases takes : o.takesValue with
    | false =>
      simp only [takes, Bool.false_eq_true, if_false] at h
      obtain ⟨f, rfl⟩ := Setting.flag_of_bare (exists_setting_of_give h takes)
      refine ⟨.flag f, args, ?_⟩
      cases f <;> cases long <;> rfl
    | true =>
      simp only [takes, if_true] at h
      obtain ⟨v, rest, rfl, plainValue, given⟩ := exists_setting_of_await h takes
      cases o with
      | label =>
        obtain ⟨t, rfl⟩ := Setting.label_of_given given
        cases long
        exact ⟨.label t plainValue, rest, rfl⟩
      | selection =>
        obtain ⟨s, rfl⟩ := Setting.selection_of_given given
        cases long
        exact ⟨.selection s, rest, rfl⟩
      | path => cases long
      | _ => cases takes

theorem exists_group_of_equals (plain : equalsSign ∉ name)
    (h : (after false l).run ((dash :: dash :: (name ++ equalsSign :: v)) :: args) = .ok c) :
    ∃ (g : Group) (rest : _), (dash :: dash :: (name ++ equalsSign :: v)) :: args = g.args ++ rest := by
  rw [run_cons, step_long rfl (by simp), long_equals plain] at h
  cases found : Opt.ofLong? name with
  | none =>
    rw [found] at h
    cases h
  | some o =>
    rw [found] at h
    have long := Opt.long?_of_ofLong? found
    cases takes : o.takesValue with
    | false =>
      simp only [takes, Bool.false_eq_true, if_false] at h
      cases h
    | true =>
      simp only [takes, if_true] at h
      have given := exists_setting_of_give h takes
      cases o with
      | label =>
        obtain ⟨t, rfl⟩ := Setting.label_of_given given
        cases long
        exact ⟨.labelEquals t, args, rfl⟩
      | selection =>
        obtain ⟨s, rfl⟩ := Setting.selection_of_given given
        cases long
        exact ⟨.selectionEquals s, args, rfl⟩
      | path => cases long
      | _ => cases takes

theorem exists_group (distinct : Distinct l) (h : (after false l).run (a :: args) = .ok c)
    (other : a ≠ [dash, dash]) : ∃ (g : Group) (rest : _), a :: args = g.args ++ rest := by
  cases shape a with
  | dashes => exact absurd rfl other
  | @long bytes nonempty =>
    obtain ⟨name, plain, rfl | ⟨v, rfl⟩⟩ := exists_name bytes
    · exact exists_group_of_name nonempty plain h
    · exact exists_group_of_equals plain h
  | cluster differs bytes => exact exists_group_of_cluster differs distinct h
  | plain plain =>
    rw [run_cons, step_plain rfl plain] at h
    exact ⟨.path a (nonempty_of_positional h) plain, args, rfl⟩

/-! ### Lines -/

theorem exists_tail (distinct : Distinct l) (h : (after false l).run ([dash, dash] :: args) = .ok c) :
    ∃ t : Tail, [dash, dash] :: args = t.args := by
  rw [run_cons, step_dashes rfl, ok_bind] at h
  match args with
  | [] => exact ⟨.dashes, rfl⟩
  | [p] =>
    rw [run_cons, step_trailing rfl] at h
    exact ⟨.path p (nonempty_of_positional (b := true) h), rfl⟩
  | p :: q :: args =>
    rw [run_cons, step_trailing rfl] at h
    have nonempty := nonempty_of_positional (b := true) h
    obtain ⟨-, h⟩ := (run_positional (b := true) distinct nonempty).eq_ok_iff.1 h
    rw [run_cons, step_trailing rfl, positional] at h
    simp [after, Setting.opt] at h

theorem exists_line {l : List Setting} {args : List Bytes} (distinct : Distinct l)
    (h : (after false l).run args = .ok c) : ∃ x : Line, x.args = args := by
  match args with
  | [] => exact ⟨⟨[], .nothing⟩, rfl⟩
  | a :: args =>
    by_cases dashes : a = [dash, dash]
    · subst dashes
      obtain ⟨t, ht⟩ := exists_tail distinct h
      exact ⟨⟨[], t⟩, ht.symm⟩
    · obtain ⟨g, rest, parts⟩ := exists_group distinct h dashes
      rw [parts] at h ⊢
      obtain ⟨distinct, h⟩ := (run_group distinct g).eq_ok_iff.1 h
      obtain ⟨x, rfl⟩ := exists_line distinct h
      exact ⟨⟨g :: x.groups, x.tail⟩, by simp [Line.args]⟩
termination_by args.length
decreasing_by
  -- A group takes at least one argument.
  have nonempty := List.length_pos_iff.2 g.args_ne_nil
  have lengths := congrArg List.length parts
  simp only [List.length_append] at lengths
  omega

end Parser

/-- The arguments that make a configuration are those of the lines that set no option twice, and it is the
configuration of their settings; so lines with the same settings make the same one, in whatever order and
form they give them. -/
theorem Config.ofArgs_iff_line :
    (∀ args c, Config.ofArgs args = .ok c ↔
      ∃ x : Line, x.args = args ∧ Distinct x.settings ∧ c = Config.ofSettings x.settings) ∧
    ∀ x y : Line, x.settings.Perm y.settings →
      ∀ c, Config.ofArgs x.args = .ok c ↔ Config.ofArgs y.args = .ok c := by
  have ofArgs_line (x : Line) (c : Config) :
      Config.ofArgs x.args = .ok c ↔ Distinct x.settings ∧ c = Config.ofSettings x.settings :=
    Parser.run_line x
  refine ⟨fun args c => ⟨fun h => ?_, ?_⟩, fun x y perm c => ?_⟩
  · obtain ⟨x, rfl⟩ := Parser.exists_line (l := []) List.nodup_nil h
    exact ⟨x, rfl, (ofArgs_line x c).1 h⟩
  · rintro ⟨x, rfl, h⟩
    exact (ofArgs_line x c).2 h
  · rw [ofArgs_line, ofArgs_line]
    have distinct_iff : Distinct x.settings ↔ Distinct y.settings := (perm.map Setting.opt).nodup_iff
    constructor
    · rintro ⟨distinct, rfl⟩
      exact ⟨distinct_iff.1 distinct, Config.ofSettings_perm perm distinct⟩
    · rintro ⟨distinct, rfl⟩
      exact ⟨distinct_iff.2 distinct, Config.ofSettings_perm perm.symm distinct⟩

end Numbering
