import Numbering.Proofs.CommandLine.Spellings

/-! One option more behind arguments that make a configuration. Such arguments are groups, and the parser is, behind
them, where it is when it has just checked their settings. So an option that none of them sets changes its own field
and nothing else; one that is set already is a conflict, whatever its value; and a request ends the reading. -/

namespace Numbering

open Numbering.Parser (IsPlain)

/-- The arguments are groups, and one of them sets the option. -/
def Gives (args : List Bytes) (o : Opt) : Prop :=
  ∃ groups : List Group, groups.flatMap Group.args = args ∧ o ∈ (groups.flatMap Group.settings).map Setting.opt

def Request.stop : Request → Stop
  | help => .help
  | version => .version

/-- One option, in any form in which it may be given. Its value may be any bytes, good or bad. -/
inductive Addition where
  | letter (f : Flag)
  | word (f : Flag)
  | attached (rest : Bytes) (nonempty : rest ≠ [])
  | letterThen (v : Bytes) (plain : IsPlain v)
  | wordThen (o : Valued) (v : Bytes) (plain : IsPlain v)
  | wordEquals (o : Valued) (v : Bytes)
  | path (p : Bytes) (plain : IsPlain p)

namespace Addition

def args : Addition → List Bytes
  | letter f => [[dash, f.letter]]
  | word f => [f.word.utf8]
  | attached rest _ => [dash :: labelLetter :: rest]
  | letterThen v _ => [[dash, labelLetter], v]
  | wordThen o v _ => [o.word.utf8, v]
  | wordEquals o v => [o.word.utf8 ++ equalsSign :: v]
  | path p _ => [p]

def opt : Addition → Opt
  | letter f | word f => f.opt
  | attached .. | letterThen .. => .label
  | wordThen o .. | wordEquals o _ => o.opt
  | path .. => .path

/-- The value as it is written. -/
def value : Addition → Option Bytes
  | letter _ | word _ => none
  | attached rest _ => some rest.lessEquals
  | letterThen v _ | wordThen _ v _ | wordEquals _ v => some v
  | path p _ => some p

theorem takesValue_opt (e : Addition) : e.opt.takesValue = e.value.isSome := by
  cases e with
  | letter f | word f => cases f <;> rfl
  | wordThen o | wordEquals o => exact o.takesValue_opt
  | attached | letterThen | path => rfl

theorem eq_path {e : Addition} (h : e.opt = .path) : ∃ p plain, e = path p plain := by
  cases e with
  | path p plain => exact ⟨p, plain, rfl⟩
  | letter f | word f => cases f <;> cases h
  | attached | letterThen => cases h
  | wordThen o | wordEquals o => cases o <;> cases h

end Addition

variable {l : List Setting} {s : Setting} {o : Opt} {value : Option Bytes} {args rest : List Bytes} {v : Bytes}
  {p : Parser} {c : Config} {groups : List Group}

/-! ### Settings -/

theorem Setting.eq_path (h : s.opt = .path) : ∃ p nonempty, s = .path p nonempty := by
  cases s with
  | path p nonempty => exact ⟨p, nonempty, rfl⟩
  | label | selection => cases h
  | flag f => cases f <;> cases h

theorem Setting.opt_ne (s : Setting) : s.opt ≠ .help ∧ s.opt ≠ .version := by
  rcases s with _ | _ | _ | (_ | _ | _) <;> exact ⟨nofun, nofun⟩

namespace Parser

/-- An option that has been checked already is a conflict, unless it lacks a value. -/
theorem react_of_seen (seen : o ∈ p.seen) (complete : o.takesValue = value.isSome) :
    p.react o value = .error (.repeated o) := by
  simp [react, not_lacks complete, seen]

theorem react_finish (settled : p.pending = none) (o : Opt) (value : Option Bytes) :
    p.react o value >>= finish = (·.config) <$> p.react o value := by
  cases reacted : p.react o value with
  | error stop => rfl
  | ok q =>
    rw [ok_bind, finish, flush_of_settled ((frame_react reacted).1.trans settled)]
    rfl

/-! ### Reading one addition -/

/-- What an addition that is no path makes of checked settings, behind which it is the last. -/
theorem run_addition (e : Addition) (other : e.opt ≠ .path) :
    (after false l).run e.args = (·.config) <$> (after false l).react e.opt e.value := by
  have given {a : Bytes} {o : Opt} {value : Option Bytes}
      (step : (after false l).step a = (after false l).give o value) :
      (after false l).run [a] = (·.config) <$> (after false l).react o value := by
    rw [run_cons, step, give, flush_of_settled rfl, ok_bind, ← react_finish rfl]
    rfl
  have awaited {a v : Bytes} {o : Opt} (step : (after false l).step a = (after false l).await o)
      (plain : IsPlain v) : (after false l).run [a, v] = (·.config) <$> (after false l).react o (some v) := by
    rw [run_cons, step, await_bind o plain]
    rfl
  cases e with
  | letter f => exact given (step_switch rfl (.flag f))
  | word f => exact given (step_word rfl (.flag f))
  | attached rest nonempty => exact given (step_label rfl nonempty)
  | letterThen v plain => exact awaited (step_labelLetter rfl) plain
  | wordThen o v plain => exact awaited (step_valued rfl o) plain
  | wordEquals o v => exact given (step_valuedEquals rfl o v)
  | path p plain => exact absurd rfl other

/-- An option that is not set yet changes its field, if its value is a good one. -/
theorem run_addition_of_new (e : Addition) (opt : s.opt = e.opt) (value : s.value = e.value) (distinct : Distinct l)
    (new : e.opt ∉ l.map Setting.opt) : (after false l).run e.args = .ok ((Config.ofSettings l).set s) := by
  rw [← Config.ofSettings_concat (opt ▸ new)]
  by_cases other : e.opt = .path
  · obtain ⟨p, plain, rfl⟩ := Addition.eq_path other
    obtain ⟨p', nonempty, rfl⟩ := Setting.eq_path opt
    obtain rfl : p' = p := Option.some.inj value
    rw [Addition.args, run_cons, step_plain rfl plain]
    exact (run_positional distinct nonempty).eq (distinct_concat.2 ⟨distinct, new⟩)
  · have reacted := react_after (b := false) (l := l) s
    rw [hasPath_after (opt ▸ other), if_neg (opt ▸ new)] at reacted
    rw [run_addition e other, ← opt, ← value, reacted]
    rfl

theorem run_addition_of_given (e : Addition) (other : e.opt ≠ .path) (given : e.opt ∈ l.map Setting.opt) :
    (after false l).run e.args = .error (.repeated e.opt) := by
  have seen : e.opt ∈ (after false l).seen := List.mem_reverse.2 given
  rw [run_addition e other, react_of_seen seen e.takesValue_opt]
  rfl

theorem run_path_of_given (plain : IsPlain v) (given : .path ∈ l.map Setting.opt) :
    (after false l).run (v :: rest) = .error (.unexpectedArgument v.lossy) := by
  have refused : (after false l).positional v = .error (.unexpectedArgument v.lossy) := by
    have hasPath : (after false l).hasPath = true := decide_eq_true given
    simp [positional, hasPath]
  rw [run_cons, step_plain rfl plain]
  exact congrArg (· >>= fun q => q.run rest) refused

theorem give_request (r : Request) : (after false l).give r.opt none = .error r.stop := by
  have new : r.opt ∉ (after false l).seen := by
    intro seen
    obtain ⟨s, -, same⟩ := List.mem_map.1 (List.mem_reverse.1 seen)
    cases r with
    | help => exact s.opt_ne.1 same
    | version => exact s.opt_ne.2 same
  rw [give, flush_of_settled rfl, ok_bind]
  cases r <;> exact if_neg new

theorem run_request_letter (r : Request) (letters : Bytes) (more : List Bytes) :
    (after false l).run ((dash :: r.letter :: letters) :: more) = .error r.stop := by
  have step : (after false l).step (dash :: r.letter :: letters) = .error r.stop :=
    calc (after false l).step (dash :: r.letter :: letters)
      _ = (after false l).cluster (r.letter :: letters) :=
        step_cluster rfl (Switch.letter_ne_dash (.request r)) letters
      _ = (after false l).give r.opt none >>= fun q => q.cluster letters :=
        cluster_switch _ (.request r) letters
      _ = .error r.stop := by rw [give_request, error_bind]
  rw [run_cons, step, error_bind]

theorem run_request_word (r : Request) (more : List Bytes) :
    (after false l).run (r.word.utf8 :: more) = .error r.stop := by
  have step : (after false l).step r.word.utf8 = .error r.stop :=
    (step_word rfl (.request r)).trans (give_request r)
  rw [run_cons, step, error_bind]

end Parser

/-! ### Behind groups -/

open Numbering.Parser

namespace Config

/-- Arguments without a double dash that make a configuration are groups. -/
theorem exists_groups (parsed : ofArgs args = .ok c) (noDashes : [dash, dash] ∉ args) :
    ∃ groups : List Group, groups.flatMap Group.args = args := by
  obtain ⟨⟨groups, tail⟩, rfl⟩ := exists_line (l := []) distinct_nil parsed
  cases tail with
  | nothing => exact ⟨groups, (List.append_nil _).symm⟩
  | dashes | path => simp [Line.args, Tail.args] at noDashes

theorem distinct_of_groups (parsed : ofArgs (groups.flatMap Group.args) = .ok c) :
    Distinct (groups.flatMap Group.settings) := by
  rw [← List.append_nil (groups.flatMap _)] at parsed
  exact (run_groups distinct_nil groups).of_ok c parsed

theorem ofArgs_groups_append (parsed : ofArgs (groups.flatMap Group.args) = .ok c) (rest : List Bytes) :
    ofArgs (groups.flatMap Group.args ++ rest) = (after false (groups.flatMap Group.settings)).run rest :=
  (run_groups distinct_nil groups).eq (distinct_of_groups parsed)

theorem ofSettings_of_groups (parsed : ofArgs (groups.flatMap Group.args) = .ok c) :
    c = ofSettings (groups.flatMap Group.settings) := by
  have whole := ofArgs_groups_append parsed []
  rw [List.append_nil, parsed] at whole
  exact Except.ok.inj whole

/-- One option more, behind arguments without a double dash that make a configuration. If they do not give the
option and its value is a good one, it changes its own field; if they give it, it is a conflict, whatever its value;
a second path is refused; and a request is the outcome, whatever follows it. -/
theorem one_more_option (parsed : ofArgs args = .ok c) (noDashes : [dash, dash] ∉ args) :
    (∀ (e : Addition) (s : Setting), s.opt = e.opt → s.value = e.value → ¬ Gives args e.opt →
        ofArgs (args ++ e.args) = .ok (c.set s)) ∧
      (∀ e : Addition, e.opt ≠ .path → Gives args e.opt → ofArgs (args ++ e.args) = .error (.repeated e.opt)) ∧
      (∀ p : Bytes, IsPlain p → Gives args .path →
        ofArgs (args ++ [p]) = .error (.unexpectedArgument p.lossy)) ∧
      ∀ (r : Request) (letters : Bytes) (more : List Bytes),
        ofArgs (args ++ (dash :: r.letter :: letters) :: more) = .error r.stop ∧
          ofArgs (args ++ r.word.utf8 :: more) = .error r.stop := by
  obtain ⟨groups, rfl⟩ := exists_groups parsed noDashes
  refine ⟨fun e s opt value new => ?_, ?_, ?_, fun r letters more => ?_⟩
  · rw [ofArgs_groups_append parsed, ofSettings_of_groups parsed]
    exact run_addition_of_new e opt value (distinct_of_groups parsed) fun given => new ⟨groups, rfl, given⟩
  · rintro e other ⟨groups', same, given⟩
    rw [← same] at parsed ⊢
    rw [ofArgs_groups_append parsed]
    exact run_addition_of_given e other given
  · rintro p plain ⟨groups', same, given⟩
    rw [← same] at parsed ⊢
    rw [ofArgs_groups_append parsed]
    exact run_path_of_given plain given
  · rw [ofArgs_groups_append parsed, ofArgs_groups_append parsed]
    exact ⟨run_request_letter r letters more, run_request_word r more⟩

/-- Behind a label that is a dash, a selection and a path: a flag, a second selection that is none, a second path, and
a request in front of an unknown letter. -/
theorem one_more_option_conflicting :
    let args : List Bytes := ["-vp", "-", "--pass=reset", "a"].map fun a => Text.utf8 a.toList
    let c : Config := ⟨⟨['a'.toUInt8], ['-'], .reset, false⟩, false, true⟩
    let none : Bytes := Text.utf8 "none".toList
    let path : Bytes := Text.utf8 "b".toList
    ofArgs args = .ok c ∧ [dash, dash] ∉ args ∧ ¬ Gives args .list ∧ Gives args .selection ∧ Gives args .path ∧
      ofArgs (args ++ [[dash, 'l'.toUInt8]]) = .ok { c with list := true } ∧
      ofArgs (args ++ [Text.utf8 "--pass".toList, none]) = .error (.repeated .selection) ∧
      ofArgs (args ++ [path]) = .error (.unexpectedArgument path.lossy) ∧
      ofArgs (args ++ [[dash, 'h'.toUInt8, 'x'.toUInt8], path]) = .error .help := by
  intro args c none path
  have parsed : ofArgs args = .ok c := by rfl
  have noDashes : [dash, dash] ∉ args := by decide
  have plain (b : UInt8) (other : b ≠ dash) (rest : Bytes) : IsPlain (b :: rest) := .inr (by simpa using other)
  let groups : List Group :=
    [.separate [.verbose] ['-'] (.inl rfl), .selectionEquals .reset,
      .path ['a'.toUInt8] (List.cons_ne_nil _ _) (plain _ (by decide) [])]
  have opts : (groups.flatMap Group.settings).map Setting.opt = [.verbose, .label, .selection, .path] := rfl
  have selection : Gives args .selection := ⟨groups, by rfl, opts ▸ by decide⟩
  have second : Gives args .path := ⟨groups, by rfl, opts ▸ by decide⟩
  obtain ⟨new, repeated, refused, request⟩ := one_more_option parsed noDashes
  have other : Opt.selection ≠ .path := by decide
  have list : ¬ Gives args .list := by
    intro gives
    have conflict : ofArgs (args ++ [[dash, 'l'.toUInt8]]) = .error (.repeated .list) :=
      repeated (.letter .list) (by decide) gives
    cases conflict
  exact ⟨parsed, noDashes, list, selection, second, new (.letter .list) (.flag .list) rfl rfl list,
    repeated (.wordThen .selection none (plain _ (by decide) _)) other selection,
    refused path (plain _ (by decide) []) second, (request .help ['x'.toUInt8] _).1⟩

end Config

end Numbering
