import Numbering.Proofs.CommandLine.Reading

/-! Arguments that fail, with more arguments behind them. What is found as an argument is read stays the outcome,
because nothing behind it is read. What is found when an option is checked may give way to something else, but not
to a configuration: only an option that waits for its value at the end can still be given one. -/

namespace Numbering

/-- The stops that come as an argument is read; the others come when an option is checked. -/
def Stop.comesAtOnce : Stop → Bool
  | .help | .version | .unexpectedArgument _ | .unexpectedValue .. => true
  | _ => false

variable {p q : Parser} {o : Opt} {value : Option Bytes} {args more : List Bytes} {c : Config} {stop : Stop}

theorem Config.assign_comes_late {v : Bytes} (takes : o.takesValue) (h : c.assign v o = .error stop) :
    stop.comesAtOnce = false := by
  cases o with
  | path =>
    simp only [assign] at h
    split at h <;> cases h
    rfl
  | label =>
    simp only [assign] at h
    split at h <;> cases h
    rfl
  | selection =>
    simp only [assign] at h
    split at h
    · cases h
      rfl
    · split at h <;> cases h
      rfl
  | _ => cases takes

namespace Parser

theorem react_comes_late (takes : o.takesValue) (h : p.react o value = .error stop) :
    stop.comesAtOnce = false := by
  unfold react at h
  split at h
  · cases h
    rfl
  · split at h
    · cases h
      rfl
    · obtain assigned | ⟨config, -, h⟩ := bind_eq_error_iff.1 h
      · exact Config.assign_comes_late takes assigned
      · cases h

/-- What is found when the option kept back is checked is none of the stops that come at once. -/
theorem flush_comes_late (valued : p.KeepsValued) (h : p.flush = .error stop) : stop.comesAtOnce = false := by
  unfold flush at h
  split at h
  · cases h
  · rename_i o value kept
    exact react_comes_late (valued o value kept) h

/-- Arguments that fail are refused as they are read, or the option kept back at their end is a bad one. -/
theorem run_error_cases (h : ({} : Parser).run args = .error stop) :
    args.foldlM step {} = .error stop ∨ ∃ p, args.foldlM step {} = .ok p ∧ p.flush = .error stop := by
  refine (bind_eq_error_iff.1 h).imp_right ?_
  rintro ⟨p, read, h⟩
  obtain bad | ⟨q, -, h⟩ := bind_eq_error_iff.1 h
  · exact ⟨p, read, bad⟩
  · cases h

end Parser

open Numbering.Parser

/-- What is found as an argument is read is the outcome whatever follows. Arguments that fail and make a
configuration with more behind them end with an option that waits for its value, and it is that which they lack: the
next argument may stand for itself, and no double dash has been read. -/
theorem Config.failures_are_sticky (args more : List Bytes) :
    (∀ stop : Stop, stop.comesAtOnce → Config.ofArgs args = .error stop →
        Config.ofArgs (args ++ more) = .error stop) ∧
      ∀ stop c, Config.ofArgs args = .error stop → Config.ofArgs (args ++ more) = .ok c →
        ∃ o before last next rest, stop = .missingValue o ∧ args = before ++ [last] ∧ EndsBare o last ∧
          [dash, dash] ∉ args ∧ more = next :: rest ∧ IsPlain next := by
  simp only [ofArgs_eq_run]
  refine ⟨fun stop atOnce failed => ?_, fun stop c failed made => ?_⟩
  · obtain refused | ⟨p, read, bad⟩ := run_error_cases failed
    · rw [run_append, refused]
      rfl
    · have late := flush_comes_late (keepsValued_of_foldlM read) bad
      simp [atOnce] at late
  · rw [run_append] at made
    obtain refused | ⟨p, read, bad⟩ := run_error_cases failed
    · rw [refused] at made
      cases made
    rw [read, ok_bind] at made
    have trailing : p.trailing = false :=
      Bool.eq_false_iff.2 fun trailing => run_ne_ok_of_trailing bad trailing made
    -- An option that does not wait for its value would have been found bad whatever follows.
    obtain ⟨o, waits⟩ : ∃ o, p.pending = some (o, none) := by
      refine Classical.byContradiction fun ready => ?_
      exact run_ne_ok_of_ready bad (not_exists.1 ready) made
    have takes : o.takesValue := keepsValued_of_foldlM read o none waits
    obtain ⟨before, last, ends, bare⟩ := endsBare_of_waits read waits trailing
    obtain ⟨next, rest, parts, plain, -⟩ := (run_iff_of_waits trailing waits takes).1 made
    have missing : p.flush = .error (.missingValue o) := by simp [flush, waits, react, takes]
    refine ⟨o, before, last, next, rest, ?_, ends, bare, ?_, parts, plain⟩
    · exact Except.error.inj (bad.symm.trans missing)
    · intro mem
      have := (trailing_of_foldlM read).2 (.inr mem)
      simp [trailing] at this

/-- A flag with a value is refused before the selection in front of it is checked; and a label is given its value by
the argument behind a cluster of letters. -/
theorem Config.failures_are_sticky_waiting :
    let refused : List Bytes := ["--pass", "none", "--list=2"].map fun a => Text.utf8 a.toList
    let waiting : List Bytes := ["x", "--pass=reset", "-lvp"].map fun a => Text.utf8 a.toList
    let more : List Bytes := ["-", "--dry-run"].map fun a => Text.utf8 a.toList
    Config.ofArgs (refused ++ more) = .error (.unexpectedValue .list ['2'.toUInt8]) ∧
      Config.ofArgs waiting = .error (.missingValue .label) ∧
      Config.ofArgs (waiting ++ more) = .ok ⟨⟨['x'.toUInt8], ['-'], .reset, true⟩, true, true⟩ ∧
      ∃ last, waiting.getLast? = some last ∧ EndsBare .label last := by
  intro refused waiting more
  have stops : Config.ofArgs refused = .error (.unexpectedValue .list ['2'.toUInt8]) := by rfl
  have failed : Config.ofArgs waiting = .error (.missingValue .label) := by rfl
  have made : Config.ofArgs (waiting ++ more) = .ok ⟨⟨['x'.toUInt8], ['-'], .reset, true⟩, true, true⟩ := by rfl
  obtain ⟨o, before, last, next, rest, missing, ends, bare, -⟩ :=
    (failures_are_sticky waiting more).2 _ _ failed made
  obtain rfl := Stop.missingValue.inj missing
  exact ⟨(failures_are_sticky refused more).1 _ rfl stops, failed, made, last, by simp [ends], bare⟩

end Numbering
