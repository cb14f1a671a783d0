import Numbering.Proofs.CommandLine.Setting

/-! The grammar of the command line. A line is a sequence of groups of arguments and a tail: a group sets
some options, the tail may give a path after a double dash. The arguments that make a configuration are
exactly those of the lines that set no option twice, and it is the configuration of their settings. -/

namespace Numbering

open Numbering.Parser (IsPlain)

def Flag.letters (flags : List Flag) : Bytes := flags.map Flag.letter

/-- The letter of the label. -/
def labelLetter : UInt8 := 'p'.toUInt8

/-- The bytes less one leading equals sign. -/
def Bytes.lessEquals : Bytes → Bytes
  | [] => []
  | b :: rest => if b = equalsSign then rest else b :: rest

/-- Arguments that belong together. The label may be given in the argument of its letter, behind flags and
with or without an equals sign, or in an argument of its own; a selection is given by name. -/
inductive Group where
  | cluster (flags : List Flag) (nonempty : flags ≠ [])
  | attached (flags : List Flag) (t : Text) (rest : Bytes) (nonempty : rest ≠ [])
    (form : t.utf8 = rest.lessEquals)
  | separate (flags : List Flag) (t : Text) (plain : IsPlain t.utf8)
  | label (t : Text) (plain : IsPlain t.utf8)
  | labelEquals (t : Text)
  | selection (s : Selection)
  | selectionEquals (s : Selection)
  | flag (f : Flag)
  | path (p : Bytes) (nonempty : p ≠ []) (plain : IsPlain p)

namespace Group

def args : Group → List Bytes
  | cluster flags _ => [dash :: Flag.letters flags]
  | attached flags _ rest _ _ => [dash :: (Flag.letters flags ++ labelLetter :: rest)]
  | separate flags t _ => [dash :: (Flag.letters flags ++ [labelLetter]), t.utf8]
  | label t _ => [Text.utf8 "--prefix".toList, t.utf8]
  | labelEquals t => [Text.utf8 "--prefix=".toList ++ t.utf8]
  | selection s => [Text.utf8 "--pass".toList, s.name.utf8]
  | selectionEquals s => [Text.utf8 "--pass=".toList ++ s.name.utf8]
  | flag f => [f.word.utf8]
  | path p _ _ => [p]

def settings : Group → List Setting
  | cluster flags _ => flags.map .flag
  | attached flags t _ _ _ | separate flags t _ => flags.map .flag ++ [.label t]
  | label t _ | labelEquals t => [.label t]
  | selection s | selectionEquals s => [.selection s]
  | flag f => [.flag f]
  | path p nonempty _ => [.path p nonempty]

theorem args_ne_nil (g : Group) : g.args ≠ [] := by
  cases g <;> exact List.cons_ne_nil _ _

end Group

/-- The end of a line, where any bytes but none may be a path. -/
inductive Tail where
  | nothing
  | dashes
  | path (p : Bytes) (nonempty : p ≠ [])

namespace Tail

def args : Tail → List Bytes
  | nothing => []
  | dashes => [[dash, dash]]
  | path p _ => [[dash, dash], p]

def settings : Tail → List Setting
  | nothing | dashes => []
  | path p nonempty => [.path p nonempty]

end Tail

/-- A command line in its parts. -/
structure Line where
  groups : List Group
  tail : Tail

namespace Line

def args (x : Line) : List Bytes := x.groups.flatMap Group.args ++ x.tail.args

def settings (x : Line) : List Setting := x.groups.flatMap Group.settings ++ x.tail.settings

end Line

variable {l : List Setting} {s : Setting} {o : Opt} {name v a : Bytes} {flags : List Flag}
  {args rest : List Bytes} {p : Parser} {c : Config}

/-! ### Names -/

namespace Opt

theorem ofShort?_letter (f : Flag) : ofShort? f.letter = some f.opt := by
  cases f <;> decide

theorem ofShort?_labelLetter : ofShort? labelLetter = some .label := by
  decide

theorem short?_of_ofShort? {b : UInt8} (h : ofShort? b = some o) :
    o.short?.map String.utf8EncodeChar = some [b] := by
  simpa using List.find?_some h

theorem long?_of_ofLong? (h : ofLong? name = some o) : o.long?.map Text.utf8 = some name := by
  simpa using List.find?_some h

/-- A name is not empty and holds no equals sign, and a path has none. -/
theorem wellFormed_of_ofLong? (h : ofLong? name = some o) : name ≠ [] ∧ equalsSign ∉ name ∧ o ≠ .path := by
  have h := long?_of_ofLong? h
  cases o with
  | path => cases h
  | _ => cases h; decide

end Opt

namespace Parser

theorem cluster_flag (f : Flag) (bytes : Bytes) :
    p.cluster (f.letter :: bytes) = p.give f.opt none >>= fun q => q.cluster bytes := by
  rw [cluster, Opt.ofShort?_letter]
  cases f <;> rfl

theorem cluster_labelLetter : p.cluster [labelLetter] = p.await .label := by
  rw [cluster, Opt.ofShort?_labelLetter]
  rfl

theorem cluster_label (nonempty : v ≠ []) :
    p.cluster (labelLetter :: v) = p.give .label (some v.lessEquals) := by
  obtain ⟨b, rest, rfl⟩ := List.exists_cons_of_ne_nil nonempty
  rw [cluster, Opt.ofShort?_labelLetter]
  rfl

private theorem bne_equalsSign (plain : equalsSign ∉ name) : ∀ b ∈ name, (b != equalsSign) = true :=
  fun _ hb => bne_iff_ne.2 fun same => plain (same ▸ hb)

theorem exists_name (a : Bytes) :
    ∃ name, equalsSign ∉ name ∧ (a = name ∨ ∃ v, a = name ++ equalsSign :: v) := by
  induction a with
  | nil => exact ⟨[], by simp, .inl rfl⟩
  | cons b a ih =>
    by_cases h : b = equalsSign
    · exact ⟨[], by simp, .inr ⟨a, by rw [h]; rfl⟩⟩
    · obtain ⟨name, plain, ha⟩ := ih
      refine ⟨b :: name, by simp [plain, Ne.symm h], ?_⟩
      rcases ha with rfl | ⟨v, rfl⟩
      · exact .inl rfl
      · exact .inr ⟨v, rfl⟩

theorem long_name (plain : equalsSign ∉ name) :
    p.long name = match Opt.ofLong? name with
      | none => .error (.unexpectedArgument ('-' :: '-' :: name.lossy))
      | some o => if o.takesValue then p.await o else p.give o none := by
  have kept : name.takeWhile (· != equalsSign) = name := by
    simpa using @List.takeWhile_append_of_pos _ _ name [] (bne_equalsSign plain)
  have left : name.dropWhile (· != equalsSign) = [] := by
    simpa using @List.dropWhile_append_of_pos _ _ name [] (bne_equalsSign plain)
  rw [long, kept, left]
  cases Opt.ofLong? name <;> rfl

theorem long_equals (plain : equalsSign ∉ name) :
    p.long (name ++ equalsSign :: v) = match Opt.ofLong? name with
      | none => .error (.unexpectedArgument ('-' :: '-' :: name.lossy))
      | some o => if o.takesValue then p.give o (some v) else .error (.unexpectedValue o v) := by
  have kept : (name ++ equalsSign :: v).takeWhile (· != equalsSign) = name := by
    simp [List.takeWhile_append_of_pos (bne_equalsSign plain)]
  have left : (name ++ equalsSign :: v).dropWhile (· != equalsSign) = equalsSign :: v := by
    simp [List.dropWhile_append_of_pos (bne_equalsSign plain)]
  rw [long, kept, left]
  cases Opt.ofLong? name <;> rfl

theorem step_name (first : p.trailing = false) (named : Opt.ofLong? name = some o) :
    p.step (dash :: dash :: name) = if o.takesValue then p.await o else p.give o none := by
  obtain ⟨nonempty, plain, -⟩ := Opt.wellFormed_of_ofLong? named
  rw [step_long first nonempty, long_name plain, named]

theorem step_equals (first : p.trailing = false) (named : Opt.ofLong? name = some o) (v : Bytes) :
    p.step (dash :: dash :: (name ++ equalsSign :: v)) =
      if o.takesValue then p.give o (some v) else .error (.unexpectedValue o v) := by
  obtain ⟨-, plain, -⟩ := Opt.wellFormed_of_ofLong? named
  rw [step_long first (by simp), long_equals plain, named]

/-! ### Reading a setting -/

variable {b : Bool}

/-- To check one more setting. A path is noted when it is read and not when it is checked, so the parser that
checks it has noted it already. -/
theorem react_after (s : Setting) :
    ({ after b l with
        hasPath := decide (.path ∈ (l ++ [s]).map Setting.opt) } : Parser).react s.opt s.value =
      if s.opt ∈ l.map Setting.opt then .error (.repeated s.opt) else .ok (after b (l ++ [s])) :=
  react_setting rfl rfl s

theorem react_bind (distinct : Distinct l) (k : Parser → Except Stop Config) :
    Provided (Distinct (l ++ [s]))
      (({ after b l with
        hasPath := decide (.path ∈ (l ++ [s]).map Setting.opt) } : Parser).react s.opt s.value >>= k)
      (k (after b (l ++ [s]))) := by
  rw [react_after, distinct_concat]
  split
  · rename_i repeated
    exact .of_error (fun both => both.2 repeated) rfl
  · rename_i new
    exact .of_condition ⟨distinct, new⟩ rfl

/-- A setting that is kept back with its value counts as checked. -/
theorem run_kept (distinct : Distinct l) (given : s.value = some v) :
    Provided (Distinct (l ++ [s]))
      (({ after b l with
        hasPath := decide (.path ∈ (l ++ [s]).map Setting.opt)
        pending := some (s.opt, some v) } : Parser).run args)
      ((after b (l ++ [s])).run args) where
  eq twice := by
    refine run_eq_of_flush (by simp [Ready]) ?_
    rw [flush, ← given]
    exact (react_after s).trans (if_neg (distinct_concat.1 twice).2)
  of_ok c ok := by
    rw [run_iff_of_ready (by simp [Ready]), ← bind_eq_ok_iff, ← given] at ok
    exact (react_bind distinct fun q => q.run args).of_ok c ok

theorem hasPath_after (other : s.opt ≠ .path) :
    { after b l with hasPath := decide (.path ∈ (l ++ [s]).map Setting.opt) } = after b l := by
  simp [after, other.symm]

theorem give_bind (other : s.opt ≠ .path) (distinct : Distinct l) (k : Parser → Except Stop Config) :
    Provided (Distinct (l ++ [s])) ((after b l).give s.opt s.value >>= k) (k (after b (l ++ [s]))) := by
  rw [give, flush_of_settled rfl, ok_bind, ← hasPath_after other]
  exact react_bind distinct k

/-- The next argument becomes the value of an option that waits for it. -/
theorem await_bind (o : Opt) (plain : IsPlain v) :
    ((after false l).await o >>= fun q => q.run (v :: args)) =
      { after false l with pending := some (o, some v) }.run args := by
  rw [await, flush_of_settled rfl, ok_bind]
  refine (run_cons _ v args).trans ?_
  rw [step_plain rfl plain]
  rfl

theorem run_await (other : s.opt ≠ .path) (distinct : Distinct l) (given : s.value = some v)
    (plain : IsPlain v) :
    Provided (Distinct (l ++ [s])) ((after false l).await s.opt >>= fun q => q.run (v :: args))
      ((after false (l ++ [s])).run args) := by
  rw [await_bind s.opt plain, ← hasPath_after other]
  exact run_kept distinct given

theorem run_positional (distinct : Distinct l) (nonempty : a ≠ []) :
    Provided (Distinct (l ++ [.path a nonempty])) ((after b l).positional a >>= fun q => q.run args)
      ((after b (l ++ [.path a nonempty])).run args) := by
  cases hasPath : (after b l).hasPath with
  | true =>
    have repeated : Opt.path ∈ l.map Setting.opt := by simpa [after] using hasPath
    have refused : (after b l).positional a = .error (.unexpectedArgument a.lossy) := by simp [positional, hasPath]
    rw [refused]
    exact .of_error (fun twice => (distinct_concat.1 twice).2 repeated) rfl
  | false =>
    rw [positional_of_not_hasPath hasPath, flush_of_settled rfl, ok_bind, ok_bind]
    simpa [Setting.opt] using run_kept (b := b) (s := .path a nonempty) distinct rfl

theorem cluster_bind (distinct : Distinct l) (flags : List Flag) (k : Parser → Except Stop Config) :
    Provided (Distinct (l ++ flags.map .flag)) ((after b l).cluster (Flag.letters flags ++ v) >>= k)
      ((after b (l ++ flags.map .flag)).cluster v >>= k) := by
  induction flags generalizing l with
  | nil =>
    rw [List.map_nil, List.append_nil]
    exact .of_condition distinct rfl
  | cons f flags ih =>
    have other : (Setting.flag f).opt ≠ .path := by cases f <;> decide
    have whole : l ++ (f :: flags).map .flag = l ++ [.flag f] ++ flags.map .flag := by simp
    have letters : Flag.letters (f :: flags) ++ v = f.letter :: (Flag.letters flags ++ v) := rfl
    rw [letters, cluster_flag, whole, bind_assoc]
    exact (give_bind other distinct _).distinct_append ih

/-! ### Reading a group -/

theorem run_letters (distinct : Distinct l) (h : flags ≠ [] ∨ v.head? = some labelLetter) :
    Provided (Distinct (l ++ flags.map .flag)) ((after false l).run ((dash :: (Flag.letters flags ++ v)) :: args))
      ((after false (l ++ flags.map .flag)).cluster v >>= fun q => q.run args) := by
  have step : (after false l).step (dash :: (Flag.letters flags ++ v)) =
      (after false l).cluster (Flag.letters flags ++ v) := by
    cases flags with
    | nil =>
      rcases h with h | h
      · exact absurd rfl h
      · obtain ⟨rest, rfl⟩ := List.head?_eq_some_iff.1 h
        exact step_cluster rfl (by decide) rest
    | cons f flags => exact step_cluster rfl (by cases f <;> decide) (Flag.letters flags ++ v)
  rw [run_cons, step]
  exact cluster_bind distinct flags _

theorem run_name (name : Bytes) (named : Opt.ofLong? name = some s.opt) (bare : s.value = none)
    (distinct : Distinct l) :
    Provided (Distinct (l ++ [s])) ((after false l).run ((dash :: dash :: name) :: args))
      ((after false (l ++ [s])).run args) := by
  have given := give_bind (b := false) (Opt.wellFormed_of_ofLong? named).2.2 distinct fun q => q.run args
  rw [run_cons, step_name rfl named]
  simpa [s.takesValue_opt, bare] using given

theorem run_separate (name : Bytes) (named : Opt.ofLong? name = some s.opt) (given : s.value = some v)
    (plainValue : IsPlain v) (distinct : Distinct l) :
    Provided (Distinct (l ++ [s])) ((after false l).run ((dash :: dash :: name) :: v :: args))
      ((after false (l ++ [s])).run args) := by
  have awaited : Provided _ _ ((after false (l ++ [s])).run args) :=
    run_await (Opt.wellFormed_of_ofLong? named).2.2 distinct given plainValue
  rw [run_cons, step_name rfl named]
  simpa [s.takesValue_opt, given] using awaited

theorem run_equals (name : Bytes) (named : Opt.ofLong? name = some s.opt) (given : s.value = some v)
    (distinct : Distinct l) :
    Provided (Distinct (l ++ [s])) ((after false l).run ((dash :: dash :: (name ++ equalsSign :: v)) :: args))
      ((after false (l ++ [s])).run args) := by
  have reacted := give_bind (b := false) (Opt.wellFormed_of_ofLong? named).2.2 distinct fun q => q.run args
  rw [run_cons, step_equals rfl named]
  simpa [s.takesValue_opt, given] using reacted

theorem run_group (distinct : Distinct l) (g : Group) :
    Provided (Distinct (l ++ g.settings)) ((after false l).run (g.args ++ rest))
      ((after false (l ++ g.settings)).run rest) := by
  cases g with
  | cluster flags nonempty =>
    have letters : Group.args (.cluster flags nonempty) = [dash :: (Flag.letters flags ++ [])] := by
      rw [List.append_nil]
      rfl
    rw [letters]
    exact run_letters distinct (.inl nonempty)
  | attached flags t r nonempty form =>
    rw [Group.settings, ← List.append_assoc]
    refine (run_letters distinct (.inr rfl)).distinct_append fun distinct => ?_
    rw [cluster_label nonempty, ← form]
    exact give_bind (s := .label t) nofun distinct _
  | separate flags t plain =>
    rw [Group.settings, ← List.append_assoc]
    refine (run_letters distinct (.inr rfl)).distinct_append fun distinct => ?_
    rw [cluster_labelLetter]
    exact run_await (s := .label t) nofun distinct rfl plain
  | label t plain =>
    exact run_separate (Text.utf8 "prefix".toList) (by rfl) rfl plain distinct
  | labelEquals t => exact run_equals (Text.utf8 "prefix".toList) (by rfl) rfl distinct
  | selection s =>
    exact run_separate (Text.utf8 "pass".toList) (by rfl) rfl (.inr (by cases s <;> decide)) distinct
  | selectionEquals s => exact run_equals (Text.utf8 "pass".toList) (by rfl) rfl distinct
  | flag f =>
    cases f with
    | dryRun => exact run_name (Text.utf8 "dry-run".toList) (by rfl) rfl distinct
    | list => exact run_name (Text.utf8 "list".toList) (by rfl) rfl distinct
    | verbose => exact run_name (Text.utf8 "verbose".toList) (by rfl) rfl distinct
  | path p nonempty plain =>
    rw [Group.args, List.singleton_append, run_cons, step_plain rfl plain]
    exact run_positional distinct nonempty

theorem run_tail (distinct : Distinct l) (t : Tail) :
    Provided (Distinct (l ++ t.settings)) ((after false l).run t.args)
      (.ok (Config.ofSettings (l ++ t.settings))) := by
  have after_dashes (args : List Bytes) :
      (after false l).run ([dash, dash] :: args) = (after true l).run args := by
    rw [run_cons, step_dashes rfl]
    rfl
  cases t with
  | nothing =>
    rw [Tail.settings, List.append_nil]
    exact .of_condition distinct rfl
  | dashes =>
    rw [Tail.settings, List.append_nil]
    exact .of_condition distinct (after_dashes [])
  | path p nonempty =>
    rw [Tail.args, after_dashes, run_cons, step_trailing rfl]
    exact run_positional distinct nonempty

theorem run_groups (distinct : Distinct l) (gs : List Group) :
    Provided (Distinct (l ++ gs.flatMap Group.settings)) ((after false l).run (gs.flatMap Group.args ++ rest))
      ((after false (l ++ gs.flatMap Group.settings)).run rest) := by
  induction gs generalizing l with
  | nil =>
    rw [List.flatMap_nil, List.append_nil]
    exact .of_condition distinct rfl
  | cons g gs ih =>
    rw [List.flatMap_cons, List.flatMap_cons, List.append_assoc, ← List.append_assoc]
    exact (run_group distinct g).distinct_append ih

/-- A line makes the configuration of its settings, unless it sets an option twice. -/
theorem run_line (x : Line) :
    (after false []).run x.args = .ok c ↔ Distinct x.settings ∧ c = Config.ofSettings x.settings := by
  have whole : Provided (Distinct x.settings) ((after false []).run x.args) (.ok (Config.ofSettings x.settings)) :=
    (run_groups distinct_nil x.groups).distinct_append fun distinct => run_tail distinct x.tail
  rw [whole.eq_ok_iff, Except.ok.injEq, eq_comm]

end Parser

end Numbering
