import Numbering.Proofs.CommandLine.Reading

/-! Spellings of the same options. Letters may stand in one argument or in several, an option may be called by its
letter or by its name, and a label may be given behind its letter or behind its name and an equals sign. Whatever
stands before and behind, the parser does the same for each spelling, also where it fails. -/

namespace Numbering

/-- An option that asks for something else than a run. -/
inductive Request where
  | help
  | version
  deriving DecidableEq

namespace Request

def opt : Request → Opt
  | help => .help
  | version => .version

def letter : Request → UInt8
  | help => 'h'.toUInt8
  | version => 'V'.toUInt8

def word : Request → Text
  | help => "--help".toList
  | version => "--version".toList

end Request

/-- An option without a value. -/
inductive Switch where
  | flag (f : Flag)
  | request (r : Request)
  deriving DecidableEq

namespace Switch

def opt : Switch → Opt
  | flag f => f.opt
  | request r => r.opt

def letter : Switch → UInt8
  | flag f => f.letter
  | request r => r.letter

def word : Switch → Text
  | flag f => f.word
  | request r => r.word

def letters (switches : List Switch) : Bytes := switches.map letter

theorem takesValue_opt (w : Switch) : w.opt.takesValue = false := by
  rcases w with (_ | _ | _) | (_ | _) <;> rfl

theorem ofShort?_letter (w : Switch) : Opt.ofShort? w.letter = some w.opt := by
  rcases w with (_ | _ | _) | (_ | _) <;> decide

theorem exists_name (w : Switch) :
    ∃ name : Bytes, w.word.utf8 = dash :: dash :: name ∧ Opt.ofLong? name = some w.opt := by
  rcases w with (_ | _ | _) | (_ | _) <;> exact ⟨_, rfl, by decide⟩

theorem letter_ne_dash (w : Switch) : w.letter ≠ dash := by
  rcases w with (_ | _ | _) | (_ | _) <;> decide

end Switch

/-- An option whose value may stand behind its name. -/
inductive Valued where
  | label
  | selection
  deriving DecidableEq

namespace Valued

def opt : Valued → Opt
  | label => .label
  | selection => .selection

def word : Valued → Text
  | label => "--prefix".toList
  | selection => "--pass".toList

theorem takesValue_opt (o : Valued) : o.opt.takesValue := by
  cases o <;> rfl

theorem exists_name (o : Valued) :
    ∃ name : Bytes, o.word.utf8 = dash :: dash :: name ∧ Opt.ofLong? name = some o.opt := by
  cases o with
  | label => exact ⟨Text.utf8 "prefix".toList, rfl, by decide⟩
  | selection => exact ⟨Text.utf8 "pass".toList, rfl, by decide⟩

end Valued

/-- Two ways to spell the same options. -/
inductive Respelled : List Bytes → List Bytes → Prop where
  | letters (switches : List Switch) (nonempty : switches ≠ []) (t : Bytes) (more : t ≠ [])
      (other : t.head? ≠ some dash) :
      Respelled [dash :: (Switch.letters switches ++ t)] [dash :: Switch.letters switches, dash :: t]
  | label : Respelled [[dash, labelLetter]] [Text.utf8 "--prefix".toList]
  | labelEquals (v : Bytes) :
      Respelled [dash :: labelLetter :: equalsSign :: v] [Text.utf8 "--prefix=".toList ++ v]
  | labelAttached (v : Bytes) (nonempty : v ≠ []) (other : v.head? ≠ some equalsSign) :
      Respelled [dash :: labelLetter :: v] [Text.utf8 "--prefix=".toList ++ v]
  | switch (w : Switch) : Respelled [[dash, w.letter]] [w.word.utf8]

namespace Parser

variable {p q : Parser} {x y : List Bytes} {v : Bytes}

theorem foldlM_step_singleton (p : Parser) (a : Bytes) : [a].foldlM step p = p.step a := by
  simp

/-! ### Letters -/

theorem cluster_switch (p : Parser) (w : Switch) (bytes : Bytes) :
    p.cluster (w.letter :: bytes) = p.give w.opt none >>= fun q => q.cluster bytes := by
  rw [cluster, w.ofShort?_letter]
  simp [w.takesValue_opt]

theorem cluster_append (p : Parser) (switches : List Switch) (t : Bytes) :
    p.cluster (Switch.letters switches ++ t) =
      p.cluster (Switch.letters switches) >>= fun q => q.cluster t := by
  induction switches generalizing p with
  | nil => rfl
  | cons w switches ih =>
    calc p.cluster (Switch.letters (w :: switches) ++ t)
      _ = p.give w.opt none >>= fun q => q.cluster (Switch.letters switches ++ t) := cluster_switch p w _
      _ = p.give w.opt none >>= fun q => q.cluster (Switch.letters switches) >>= fun q => q.cluster t := by
        simp only [ih]
      _ = (p.give w.opt none >>= fun q => q.cluster (Switch.letters switches)) >>= fun q => q.cluster t :=
        (bind_assoc ..).symm
      _ = p.cluster (Switch.letters (w :: switches)) >>= fun q => q.cluster t :=
        congrArg (· >>= fun q => q.cluster t) (cluster_switch p w _).symm

/-- Letters in one argument are read as in two. -/
theorem foldlM_letters (first : p.trailing = false) {switches : List Switch} (nonempty : switches ≠ [])
    {t : Bytes} (more : t ≠ []) (other : t.head? ≠ some dash) :
    [dash :: (Switch.letters switches ++ t)].foldlM step p =
      [dash :: Switch.letters switches, dash :: t].foldlM step p := by
  obtain ⟨w, switches, rfl⟩ := List.exists_cons_of_ne_nil nonempty
  obtain ⟨b, t, rfl⟩ := List.exists_cons_of_ne_nil more
  have differs : b ≠ dash := fun same => other (congrArg some same)
  have together : p.step (dash :: (Switch.letters (w :: switches) ++ b :: t)) =
      p.cluster (Switch.letters (w :: switches) ++ b :: t) :=
    step_cluster first w.letter_ne_dash _
  have front : p.step (dash :: Switch.letters (w :: switches)) = p.cluster (Switch.letters (w :: switches)) :=
    step_cluster first w.letter_ne_dash _
  rw [foldlM_step_singleton, together, cluster_append, List.foldlM_cons, front]
  cases read : p.cluster (Switch.letters (w :: switches)) with
  | error stop => rfl
  | ok q =>
    have kept : q.trailing = false := (frame_cluster read (.inl (List.cons_ne_nil _ _))).1.trans first
    rw [ok_bind, ok_bind, foldlM_step_singleton, step_cluster kept differs]

/-! ### Names -/

theorem step_switch (first : p.trailing = false) (w : Switch) :
    p.step [dash, w.letter] = p.give w.opt none := by
  rw [step_cluster first w.letter_ne_dash, cluster_switch]
  exact bind_pure _

theorem step_word (first : p.trailing = false) (w : Switch) : p.step w.word.utf8 = p.give w.opt none := by
  obtain ⟨name, word, named⟩ := w.exists_name
  rw [word, step_name first named]
  simp [w.takesValue_opt]

theorem step_valued (first : p.trailing = false) (o : Valued) : p.step o.word.utf8 = p.await o.opt := by
  obtain ⟨name, word, named⟩ := o.exists_name
  rw [word, step_name first named]
  simp [o.takesValue_opt]

theorem step_valuedEquals (first : p.trailing = false) (o : Valued) (v : Bytes) :
    p.step (o.word.utf8 ++ equalsSign :: v) = p.give o.opt (some v) := by
  obtain ⟨name, word, named⟩ := o.exists_name
  rw [word]
  refine (step_equals first named v).trans ?_
  simp [o.takesValue_opt]

theorem step_labelLetter (first : p.trailing = false) : p.step [dash, labelLetter] = p.await .label := by
  rw [step_cluster first (by decide), cluster_labelLetter]

theorem step_label (first : p.trailing = false) (nonempty : v ≠ []) :
    p.step (dash :: labelLetter :: v) = p.give .label (some v.lessEquals) := by
  rw [step_cluster first (by decide), cluster_label nonempty]

/-- Before a double dash, two spellings of the same options are read alike. -/
theorem foldlM_respelled (same : Respelled x y) (first : p.trailing = false) :
    x.foldlM step p = y.foldlM step p := by
  cases same with
  | letters switches nonempty t more other => exact foldlM_letters first nonempty more other
  | label =>
    rw [foldlM_step_singleton, foldlM_step_singleton, step_labelLetter first]
    exact (step_valued first .label).symm
  | labelEquals v =>
    rw [foldlM_step_singleton, foldlM_step_singleton, step_label first (List.cons_ne_nil _ _)]
    exact (step_valuedEquals first .label v).symm
  | labelAttached v nonempty other =>
    have whole : v.lessEquals = v := by
      obtain ⟨b, v, rfl⟩ := List.exists_cons_of_ne_nil nonempty
      exact if_neg fun same => other (congrArg some same)
    rw [foldlM_step_singleton, foldlM_step_singleton, step_label first nonempty, whole]
    exact (step_valuedEquals first .label v).symm
  | switch w => rw [foldlM_step_singleton, foldlM_step_singleton, step_switch first, step_word first]

end Parser

open Numbering.Parser in
/-- Behind arguments without a double dash, and before any others, two spellings of the same options make the same
configuration or fail for the same reason. -/
theorem Config.spellings_are_interchangeable {before x y : List Bytes} (noDashes : [dash, dash] ∉ before)
    (same : Respelled x y) (behind : List Bytes) :
    Config.ofArgs (before ++ x ++ behind) = Config.ofArgs (before ++ y ++ behind) := by
  rw [List.append_assoc, List.append_assoc, ofArgs_eq_run, ofArgs_eq_run, run_append, run_append]
  cases read : before.foldlM step {} with
  | error stop => rfl
  | ok p =>
    have first : p.trailing = false := trailing_of_not_mem read noDashes
    rw [ok_bind, ok_bind, run_append, run_append, foldlM_respelled same first]

/-- Behind a label that is still to be checked, flags and the same option once more. -/
theorem Config.spellings_are_interchangeable_repeated :
    let before : List Bytes := [Text.utf8 "--prefix".toList, Text.utf8 "x".toList]
    let x : List Bytes := [Text.utf8 "-nlp=y".toList]
    let y : List Bytes := [Text.utf8 "-nl".toList, Text.utf8 "-p=y".toList]
    [dash, dash] ∉ before ∧ Respelled x y ∧ Config.ofArgs (before ++ x ++ []) = .error (.repeated .label) := by
  intro before x y
  have noDashes : [dash, dash] ∉ before := by decide
  have same : Respelled x y :=
    .letters [.flag .dryRun, .flag .list] (List.cons_ne_nil _ _) (Text.utf8 "p=y".toList) (List.cons_ne_nil _ _)
      (by decide)
  exact ⟨noDashes, same, (spellings_are_interchangeable noDashes same []).trans rfl⟩

end Numbering
