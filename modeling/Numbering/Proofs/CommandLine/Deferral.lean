import Numbering.CommandLine.Parser
import Numbering.Result

/-! Options that are kept back. A good option with its value may be checked at once instead of when the next
one is read: what comes of the arguments behind it is the same, also where they fail. With a bad one, nothing
behind it makes a configuration. An option that waits for its value needs the very next argument. -/

namespace Numbering

namespace Parser

variable {p q r : Parser} {o : Opt} {value : Option Bytes} {a : Bytes} {args : List Bytes} {c : Config}

/-- The configuration that the arguments that are left make. -/
def run (p : Parser) (args : List Bytes) : Except Stop Config := do (← args.foldlM step p).finish

theorem run_nil (p : Parser) : p.run [] = p.finish := rfl

theorem run_cons (p : Parser) (a : Bytes) (args : List Bytes) :
    p.run (a :: args) = p.step a >>= fun q => q.run args := by
  cases h : p.step a <;> simp [run, h]

/-! ### Flushing -/

theorem frame_react (h : p.react o value = .ok q) :
    q.pending = p.pending ∧ q.trailing = p.trailing ∧ q.hasPath = p.hasPath := by
  unfold react at h
  split at h
  · cases h
  · split at h
    · cases h
    · obtain ⟨config, -, h⟩ := bind_eq_ok_iff.1 h
      obtain rfl := Except.ok.inj h
      exact ⟨rfl, rfl, rfl⟩

theorem flush_of_settled (h : p.pending = none) : p.flush = .ok p := by simp [flush, h]

theorem frame_flush (h : p.flush = .ok q) :
    q.pending = none ∧ q.trailing = p.trailing ∧ q.hasPath = p.hasPath := by
  unfold flush at h
  split at h
  · obtain rfl := Except.ok.inj h
    exact ⟨by assumption, rfl, rfl⟩
  · exact frame_react h

theorem flush_flush (h : p.flush = .ok q) : q.flush = .ok q := flush_of_settled (frame_flush h).1

/-- An action that refuses what it reads at once, whatever option is kept back, or checks this option first. -/
def ChecksFirst (f : Parser → Except Stop Parser) : Prop :=
  ∃ (refuses : Bool → Bool) (stop : Stop) (act : Parser → Except Stop Parser),
    ∀ p, f p = if refuses p.hasPath then .error stop else p.flush >>= act

variable {f : Parser → Except Stop Parser}

theorem checksFirst_error (stop : Stop) : ChecksFirst fun _ => .error stop :=
  ⟨fun _ => true, stop, .ok, fun _ => rfl⟩

theorem checksFirst_bind (act : Parser → Except Stop Parser) : ChecksFirst fun p => p.flush >>= act :=
  ⟨fun _ => false, .help, act, fun _ => rfl⟩

theorem ChecksFirst.bind (hf : ChecksFirst f) (k : Parser → Except Stop Parser) :
    ChecksFirst fun p => f p >>= k := by
  obtain ⟨refuses, stop, act, hf⟩ := hf
  refine ⟨refuses, stop, fun q => act q >>= k, fun p => ?_⟩
  dsimp only
  rw [hf]
  split
  · rfl
  · rw [bind_assoc]

theorem checksFirst_give (o : Opt) (value : Option Bytes) : ChecksFirst (give · o value) :=
  checksFirst_bind _

theorem checksFirst_await (o : Opt) : ChecksFirst (await · o) := checksFirst_bind _

theorem checksFirst_long (a : Bytes) : ChecksFirst (long · a) := by
  unfold long
  dsimp only
  split
  · exact checksFirst_error _
  · split
    · exact checksFirst_await _
    · exact checksFirst_give _ _
  · split
    · exact checksFirst_give _ _
    · exact checksFirst_error _

theorem checksFirst_cluster (b : UInt8) (rest : Bytes) : ChecksFirst (cluster · (b :: rest)) := by
  unfold cluster
  split
  · exact checksFirst_error _
  · split
    · split
      · exact checksFirst_await _
      · exact checksFirst_give _ _
    · exact (checksFirst_give _ _).bind _

theorem checksFirst_positional (a : Bytes) : ChecksFirst (positional · a) :=
  ⟨id, .unexpectedArgument a.lossy, fun q => .ok { q with hasPath := true, pending := some (.path, some a) },
    fun _ => rfl⟩

/-- With a good option kept back, the action does what it does once this has been checked. -/
theorem ChecksFirst.eq_of_flush (hf : ChecksFirst f) (flushed : p.flush = .ok q) : f p = f q := by
  obtain ⟨refuses, stop, act, hf⟩ := hf
  rw [hf, hf, (frame_flush flushed).2.2, flushed, flush_flush flushed]

/-- With a bad option kept back, the action fails. -/
theorem ChecksFirst.ne_ok (hf : ChecksFirst f) {stop : Stop} (h : p.flush = .error stop) : f p ≠ .ok r := by
  obtain ⟨refuses, early, act, hf⟩ := hf
  rw [hf, h]
  split <;> nofun

theorem positional_of_not_hasPath (h : p.hasPath = false) (a : Bytes) :
    p.positional a =
      p.flush >>= fun q => .ok { q with hasPath := true, pending := some (.path, some a) } := by
  simp [positional, h]
  rfl

/-! ### Steps -/

/-- An argument that may stand for itself: a single dash, or what does not start with one. -/
def IsPlain (a : Bytes) : Prop := a = [dash] ∨ a.head? ≠ some dash

/-- The shapes of an argument. -/
inductive Shape : Bytes → Prop where
  | dashes : Shape [dash, dash]
  | long {a : Bytes} (some : a ≠ []) : Shape (dash :: dash :: a)
  | cluster {b : UInt8} (differs : b ≠ dash) (rest : Bytes) : Shape (dash :: b :: rest)
  | plain {a : Bytes} (plain : IsPlain a) : Shape a

theorem shape (a : Bytes) : Shape a := by
  match a with
  | [] => exact .plain (.inr (by simp))
  | [b] =>
    by_cases h : b = dash
    · exact .plain (.inl (by rw [h]))
    · exact .plain (.inr (by simpa using h))
  | b :: c :: rest =>
    by_cases h : b = dash
    · subst h
      by_cases h : c = dash
      · subst h
        cases rest with
        | nil => exact .dashes
        | cons d rest => exact .long (List.cons_ne_nil d rest)
      · exact .cluster h rest
    · exact .plain (.inr (by simpa using h))

theorem step_trailing (h : p.trailing = true) (a : Bytes) : p.step a = p.positional a := by
  simp [step, h]

private theorem step_of_not_trailing (h : p.trailing = false) (a : Bytes) :
    p.step a = match a with
      | [dash, dash] => .ok { p with trailing := true }
      | dash :: dash :: a => p.long a
      | dash :: b :: rest => p.cluster (b :: rest)
      | _ =>
        match p.pending with
        | some (o, none) => .ok { p with pending := some (o, some a) }
        | _ => p.positional a := by
  unfold step
  rw [h]
  rfl

theorem step_dashes (h : p.trailing = false) : p.step [dash, dash] = .ok { p with trailing := true } := by
  rw [step_of_not_trailing h]
  rfl

theorem step_long (h : p.trailing = false) (some : a ≠ []) : p.step (dash :: dash :: a) = p.long a := by
  obtain ⟨b, a, rfl⟩ := List.exists_cons_of_ne_nil some
  rw [step_of_not_trailing h]
  rfl

theorem step_cluster (h : p.trailing = false) {b : UInt8} (differs : b ≠ dash) (rest : Bytes) :
    p.step (dash :: b :: rest) = p.cluster (b :: rest) := by
  rw [step_of_not_trailing h]
  split
  · simp_all
  · simp_all
  · simp_all
  · rename_i h1 h2 h3
    exact absurd rfl (h3 b rest)

theorem step_plain (h : p.trailing = false) (plain : IsPlain a) :
    p.step a = match p.pending with
      | some (o, none) => .ok { p with pending := some (o, some a) }
      | _ => p.positional a := by
  rw [step_of_not_trailing h]
  rcases plain with rfl | plain
  · rfl
  · split
    · exact absurd rfl plain
    · exact absurd rfl plain
    · exact absurd rfl plain
    · rfl

/-! ### Checking at once -/

/-- No option waits for its value. -/
def Ready (p : Parser) : Prop := ∀ o, p.pending ≠ some (o, none)

theorem flush_with_trailing (p : Parser) :
    { p with trailing := true }.flush = p.flush.map fun q => { q with trailing := true } := by
  obtain ⟨_ | ⟨o, value⟩, seen, trailing, hasPath, config⟩ := p
  · rfl
  · dsimp only [flush, react]
    split
    · rfl
    · split
      · rfl
      · cases config.assign (value.getD []) o <;> rfl

/-- Where no option waits for its value and no double dash is read, a step is an action that checks the option
kept back first. -/
theorem exists_action (ready : p.Ready) (h : p.trailing = true ∨ a ≠ [dash, dash]) :
    ∃ f, ChecksFirst f ∧ p.step a = f p ∧ ∀ q, p.flush = .ok q → q.step a = f q := by
  cases trailing : p.trailing with
  | true =>
    refine ⟨_, checksFirst_positional a, step_trailing trailing a, fun q flushed => ?_⟩
    exact step_trailing ((frame_flush flushed).2.1.trans trailing) a
  | false =>
    have kept {q : Parser} (flushed : p.flush = .ok q) := (frame_flush flushed).2.1.trans trailing
    cases shape a with
    | dashes => simp [trailing] at h
    | long some =>
      exact ⟨_, checksFirst_long _, step_long trailing some, fun q flushed => step_long (kept flushed) some⟩
    | cluster differs rest =>
      exact ⟨_, checksFirst_cluster _ rest, step_cluster trailing differs rest, fun q flushed =>
        step_cluster (kept flushed) differs rest⟩
    | plain plain =>
      refine ⟨_, checksFirst_positional a, ?_, fun q flushed => ?_⟩
      · rw [step_plain trailing plain]
        split
        · exact absurd (by assumption) (ready _)
        · rfl
      · rw [step_plain (kept flushed) plain, (frame_flush flushed).1]

theorem step_eq_of_flush (ready : p.Ready) (h : p.trailing = true ∨ a ≠ [dash, dash])
    (flushed : p.flush = .ok q) : p.step a = q.step a := by
  obtain ⟨f, hf, hp, hq⟩ := exists_action ready h
  rw [hp, hq q flushed, hf.eq_of_flush flushed]

/-- A good option that is kept back with its value may be checked at once. -/
theorem run_eq_of_flush (ready : p.Ready) (flushed : p.flush = .ok q) : p.run args = q.run args := by
  induction args generalizing p q with
  | nil => rw [run_nil, run_nil, finish, finish, flushed, flush_flush flushed]
  | cons a args ih =>
    by_cases h : p.trailing = true ∨ a ≠ [dash, dash]
    · rw [run_cons, run_cons, step_eq_of_flush ready h flushed]
    · obtain ⟨trailing, rfl⟩ : p.trailing = false ∧ a = [dash, dash] := by simpa using h
      have kept := (frame_flush flushed).2.1.trans trailing
      rw [run_cons, run_cons, step_dashes trailing, step_dashes kept, ok_bind, ok_bind]
      refine ih ready ?_
      rw [flush_with_trailing, flushed]
      rfl

/-! ### Bad options -/

section Bad
variable {stop : Stop} (bad : p.flush = .error stop)
include bad

theorem ChecksFirst.run_ne_ok (hf : ChecksFirst f) (step : p.step a = f p) : p.run (a :: args) ≠ .ok c := by
  rw [run_cons, step]
  intro h
  obtain ⟨r, hr, -⟩ := bind_eq_ok_iff.1 h
  exact hf.ne_ok bad hr

theorem run_ne_ok_of_trailing (trailing : p.trailing = true) : p.run args ≠ .ok c := by
  cases args with
  | nil => simp [run_nil, finish, bad]
  | cons a args => exact (checksFirst_positional a).run_ne_ok bad (step_trailing trailing a)

theorem run_dashes_ne_ok (trailing : p.trailing = false) : p.run ([dash, dash] :: args) ≠ .ok c := by
  have failed : { p with trailing := true }.flush = .error stop := by
    rw [flush_with_trailing, bad]
    rfl
  rw [run_cons, step_dashes trailing, ok_bind]
  exact run_ne_ok_of_trailing failed rfl

/-- With a bad option kept back that does not wait for its value, all further arguments fail. -/
theorem run_ne_ok_of_ready (ready : p.Ready) : p.run args ≠ .ok c := by
  cases args with
  | nil => simp [run_nil, finish, bad]
  | cons a args =>
    by_cases h : p.trailing = true ∨ a ≠ [dash, dash]
    · obtain ⟨f, hf, step, -⟩ := exists_action ready h
      exact hf.run_ne_ok bad step
    · obtain ⟨trailing, rfl⟩ : p.trailing = false ∧ a = [dash, dash] := by simpa using h
      exact run_dashes_ne_ok bad trailing

end Bad

theorem run_iff_of_ready (ready : p.Ready) :
    p.run args = .ok c ↔ ∃ q, p.flush = .ok q ∧ q.run args = .ok c := by
  cases flushed : p.flush with
  | error stop => simp [run_ne_ok_of_ready flushed ready]
  | ok q => simp [run_eq_of_flush ready flushed]

/-! ### Waiting for a value -/

theorem not_isPlain (b : UInt8) (rest : Bytes) : ¬ IsPlain (dash :: b :: rest) := by
  simp [IsPlain]

/-- An option that waits for its value needs the next argument, and one that may stand for itself. -/
theorem run_iff_of_waits (trailing : p.trailing = false) (waits : p.pending = some (o, none))
    (takes : o.takesValue) :
    p.run args = .ok c ↔
      ∃ a rest, args = a :: rest ∧ IsPlain a ∧ { p with pending := some (o, some a) }.run rest = .ok c := by
  have missing : p.flush = .error (.missingValue o) := by simp [flush, waits, react, takes]
  cases args with
  | nil => simp [run_nil, finish, missing]
  | cons a args =>
    cases shape a with
    | dashes => simp [not_isPlain, run_dashes_ne_ok missing trailing]
    | long some =>
      simp [not_isPlain, (checksFirst_long _).run_ne_ok missing (step_long trailing some)]
    | cluster differs rest =>
      simp [not_isPlain, (checksFirst_cluster _ rest).run_ne_ok missing (step_cluster trailing differs rest)]
    | plain plain =>
      rw [run_cons, step_plain trailing plain, waits]
      constructor
      · exact fun h => ⟨a, args, rfl, plain, h⟩
      · rintro ⟨_, _, same, -, h⟩
        obtain ⟨rfl, rfl⟩ := List.cons_eq_cons.1 same
        exact h

end Parser

end Numbering
