import Numbering.Proofs.CommandLine.Deferral

/-! Settings: the options of a command line with their values. A configuration holds the values of its
settings and keeps the defaults of the options that are not set; so settings of different options make the
same configuration in any order. A parser that has checked settings is in a state told by them alone. -/

namespace Numbering

/-- An option that takes no value. -/
inductive Flag where
  | dryRun
  | list
  | verbose
  deriving DecidableEq

namespace Flag

def opt : Flag → Opt
  | dryRun => .dryRun
  | list => .list
  | verbose => .verbose

def letter : Flag → UInt8
  | dryRun => 'n'.toUInt8
  | list => 'l'.toUInt8
  | verbose => 'v'.toUInt8

def word : Flag → Text
  | dryRun => "--dry-run".toList
  | list => "--list".toList
  | verbose => "--verbose".toList

end Flag

/-- An option with the value it is given. -/
inductive Setting where
  | path (p : Bytes) (some : p ≠ [])
  | label (t : Text)
  | selection (s : Selection)
  | flag (f : Flag)
  deriving DecidableEq

namespace Setting

def opt : Setting → Opt
  | path .. => .path
  | label _ => .label
  | selection _ => .selection
  | flag f => f.opt

/-- The value as it is written. -/
def value : Setting → Option Bytes
  | path p _ => some p
  | label t => some t.utf8
  | selection s => some s.name.utf8
  | flag _ => none

def path? : Setting → Option Bytes
  | path p _ => some p
  | _ => none

def label? : Setting → Option Text
  | label t => some t
  | _ => none

def selection? : Setting → Option Selection
  | selection s => some s
  | _ => none

theorem takesValue_opt (s : Setting) : s.opt.takesValue = s.value.isSome := by
  cases s with
  | flag f => cases f <;> rfl
  | _ => rfl

end Setting

/-- The settings are of different options. -/
def Distinct (l : List Setting) : Prop := (l.map Setting.opt).Nodup

/-- The configuration with the given values, and the defaults of the options that are not given. -/
def Config.ofSettings (l : List Setting) : Config where
  path := (l.findSome? Setting.path?).getD (Text.utf8 "world.go".toList)
  label := (l.findSome? Setting.label?).getD Label.standard
  selection := (l.findSome? Setting.selection?).getD .all
  dryRun := decide (.flag .dryRun ∈ l)
  list := decide (.flag .list ∈ l)
  verbose := decide (.flag .verbose ∈ l)

/-- The configuration with the field of a setting changed to its value. -/
def Config.set (c : Config) : Setting → Config
  | .path p _ => { c with path := p }
  | .label t => { c with label := t }
  | .selection s => { c with selection := s }
  | .flag .dryRun => { c with dryRun := true }
  | .flag .list => { c with list := true }
  | .flag .verbose => { c with verbose := true }

variable {l m : List Setting} {s : Setting} {o : Opt} {value : Option Bytes} {c c' : Config}

theorem distinct_nil : Distinct [] := List.nodup_nil

theorem distinct_concat : Distinct (l ++ [s]) ↔ Distinct l ∧ s.opt ∉ l.map Setting.opt := by
  simp [Distinct, List.nodup_append]

theorem Distinct.of_append (h : Distinct (l ++ m)) : Distinct l := by
  rw [Distinct, List.map_append] at h
  exact (List.nodup_append.1 h).1

/-- Where a condition holds, one result is the other; else the one is no configuration. -/
structure Provided (condition : Prop) (x y : Except Stop Config) : Prop where
  eq : condition → x = y
  of_ok : ∀ c, x = .ok c → condition

namespace Provided

variable {a b : Prop} {x y z : Except Stop Config}

theorem eq_ok_iff (h : Provided a x y) : x = .ok c ↔ a ∧ y = .ok c := by
  constructor
  · intro ok
    exact ⟨h.of_ok c ok, h.eq (h.of_ok c ok) ▸ ok⟩
  · rintro ⟨condition, ok⟩
    rw [h.eq condition, ok]

theorem of_condition (condition : a) (same : x = y) : Provided a x y := ⟨fun _ => same, fun _ _ => condition⟩

theorem of_error {stop : Stop} (not : ¬ a) (error : x = .error stop) : Provided a x y :=
  ⟨fun condition => absurd condition not, fun c ok => by rw [error] at ok; cases ok⟩

/-- What more settings need includes what the settings before them need. -/
theorem distinct_append (h : Provided (Distinct l) x y)
    (h' : Distinct l → Provided (Distinct (l ++ m)) y z) : Provided (Distinct (l ++ m)) x z where
  eq distinct := (h.eq distinct.of_append).trans ((h' distinct.of_append).eq distinct)
  of_ok c ok := (h' (h.of_ok c ok)).of_ok c (h.eq (h.of_ok c ok) ▸ ok)

end Provided

namespace Config

theorem findSome?_eq_none {α : Type} {f : Setting → Option α} (hf : ∀ s, (f s).isSome → s.opt = o)
    (h : o ∉ l.map Setting.opt) : l.findSome? f = none := by
  rw [List.findSome?_eq_none_iff]
  intro s hs
  exact Option.not_isSome_iff_eq_none.1 fun some => h (List.mem_map.2 ⟨s, hs, hf s some⟩)

theorem path?_isSome (s : Setting) (h : s.path?.isSome) : s.opt = .path := by
  cases s <;> simp_all [Setting.path?, Setting.opt]

theorem label?_isSome (s : Setting) (h : s.label?.isSome) : s.opt = .label := by
  cases s <;> simp_all [Setting.label?, Setting.opt]

theorem selection?_isSome (s : Setting) (h : s.selection?.isSome) : s.opt = .selection := by
  cases s <;> simp_all [Setting.selection?, Setting.opt]

/-- To assign a setting changes its field. -/
theorem assign_eq_set (c : Config) (s : Setting) : c.assign (s.value.getD []) s.opt = .ok (c.set s) := by
  cases s with
  | path p some => simp [assign, set, Setting.value, Setting.opt, some]
  | label t => simp [assign, set, Setting.value, Setting.opt, Bytes.text?_utf8]
  | selection s =>
    have nonempty : s.name.utf8 ≠ [] := by cases s <;> decide
    simp [assign, set, Setting.value, Setting.opt, nonempty, Bytes.text?_utf8, Selection.ofName?_name]
  | flag f => cases f <;> rfl

/-- A setting of an option that has not been set changes its field. -/
theorem ofSettings_concat (new : s.opt ∉ l.map Setting.opt) : ofSettings (l ++ [s]) = (ofSettings l).set s := by
  cases s with
  | path p some =>
    have none := findSome?_eq_none path?_isSome new
    simp [set, ofSettings, List.findSome?_append, none, Setting.path?, Setting.label?, Setting.selection?]
  | label t =>
    have none := findSome?_eq_none label?_isSome new
    simp [set, ofSettings, List.findSome?_append, none, Setting.path?, Setting.label?, Setting.selection?]
  | selection s =>
    have none := findSome?_eq_none selection?_isSome new
    simp [set, ofSettings, List.findSome?_append, none, Setting.path?, Setting.label?, Setting.selection?]
  | flag f =>
    cases f <;> simp [set, ofSettings, List.findSome?_append, Setting.path?, Setting.label?, Setting.selection?]

/-- What can be assigned is a setting. -/
theorem exists_setting (h : c.assign (value.getD []) o = .ok c') (takes : o.takesValue = value.isSome) :
    ∃ s : Setting, s.opt = o ∧ s.value = value := by
  rcases value with _ | v
  · cases o with
    | dryRun => exact ⟨.flag .dryRun, rfl, rfl⟩
    | list => exact ⟨.flag .list, rfl, rfl⟩
    | verbose => exact ⟨.flag .verbose, rfl, rfl⟩
    | help | version => cases h
    | path | label | selection => cases takes
  · cases o with
    | path =>
      simp only [assign, Option.getD_some] at h
      split at h
      · cases h
      · exact ⟨.path v (by assumption), rfl, rfl⟩
    | label =>
      simp only [assign, Option.getD_some] at h
      split at h
      · rename_i t form
        exact ⟨.label t, rfl, congrArg some (Bytes.text?_eq_some_iff.1 form)⟩
      · cases h
    | selection =>
      simp only [assign, Option.getD_some] at h
      split at h
      · cases h
      · split at h
        · rename_i s found
          obtain ⟨name, form, found⟩ := Option.bind_eq_some_iff.1 found
          refine ⟨.selection s, rfl, congrArg some ?_⟩
          rw [Selection.name_of_ofName? found]
          exact Bytes.text?_eq_some_iff.1 form
        · cases h
    | dryRun | list | verbose | help | version => cases takes

/-! ### Order -/

theorem findSome?_perm {α : Type} {f : Setting → Option α} (hf : ∀ s, (f s).isSome → s.opt = o)
    (perm : l.Perm m) (distinct : Distinct l) : l.findSome? f = m.findSome? f := by
  induction perm with
  | nil => rfl
  | cons s perm ih =>
    have := ih (List.nodup_cons.1 distinct).2
    simp [List.findSome?_cons, this]
  | swap s s' l =>
    have differ : s'.opt ≠ s.opt := fun same => (List.nodup_cons.1 distinct).1 (by simp [same])
    cases hs : f s <;> cases hs' : f s' <;> simp [hs, hs']
    exact absurd ((hf s' (by simp [hs'])).trans (hf s (by simp [hs])).symm) differ
  | trans perm _ ih ih' => exact (ih distinct).trans (ih' ((perm.map Setting.opt).nodup_iff.1 distinct))

theorem ofSettings_perm (perm : l.Perm m) (distinct : Distinct l) : ofSettings l = ofSettings m := by
  simp only [ofSettings, perm.mem_iff, findSome?_perm path?_isSome perm distinct,
    findSome?_perm label?_isSome perm distinct, findSome?_perm selection?_isSome perm distinct]

end Config

namespace Parser

variable {p r : Parser}

/-- A parser that has checked the settings and keeps no option back. -/
def after (trailing : Bool) (l : List Setting) : Parser where
  seen := (l.map Setting.opt).reverse
  trailing := trailing
  hasPath := decide (Opt.path ∈ l.map Setting.opt)
  config := Config.ofSettings l

theorem after_nil : after false [] = {} := rfl

theorem not_lacks (complete : o.takesValue = value.isSome) : (o.takesValue && value.isNone) = false := by
  rw [complete]
  cases value <;> rfl

theorem react_setting (seen : p.seen = (l.map Setting.opt).reverse)
    (config : p.config = Config.ofSettings l) (s : Setting) :
    p.react s.opt s.value =
      if s.opt ∈ l.map Setting.opt then .error (.repeated s.opt)
      else .ok { p with
        seen := ((l ++ [s]).map Setting.opt).reverse
        config := Config.ofSettings (l ++ [s]) } := by
  unfold react
  rw [not_lacks s.takesValue_opt, seen, config]
  simp only [Bool.false_eq_true, if_false, List.mem_reverse]
  split
  · rfl
  · rename_i new
    rw [Config.assign_eq_set, ← Config.ofSettings_concat new, ok_bind]
    simp
    rfl

theorem exists_setting_of_react (h : p.react o value = .ok r) (takes : o.takesValue = value.isSome) :
    ∃ s : Setting, s.opt = o ∧ s.value = value := by
  unfold react at h
  split at h
  · cases h
  · split at h
    · cases h
    · obtain ⟨config, assigned, -⟩ := bind_eq_ok_iff.1 h
      exact Config.exists_setting assigned takes

end Parser

end Numbering
