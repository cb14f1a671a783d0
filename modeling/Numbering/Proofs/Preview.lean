import Numbering.Program
import Numbering.Proofs.DryRun
import Numbering.Proofs.CommandLine.Lines

/-! Two runs of the program: on some arguments, and on the same arguments with the flag of a dry run in front.
The flag changes one field of the configuration and nothing else, and the second run prints what the first one
leaves in the file before all that the first one prints. -/

namespace Numbering

/-- The flag of a dry run, as an argument. -/
def dryRunArgument : Bytes := Text.utf8 "-n".toList

/-! ### The flag in front -/

theorem Setting.eq_dryRun {s : Setting} (h : s.opt = .dryRun) : s = .flag .dryRun := by
  cases s with
  | flag f => cases f <;> first | rfl | cases h
  | _ => cases h

theorem Config.ofSettings_cons_dryRun (l : List Setting) :
    ofSettings (.flag .dryRun :: l) = { ofSettings l with dryRun := true } := by
  simp [ofSettings, List.findSome?_cons, Setting.path?, Setting.label?, Setting.selection?]

/-- Before arguments that do not ask for a dry run, the flag asks for one. -/
theorem Config.ofArgs_cons_dryRun {args : List Bytes} {c : Config} (parsed : Config.ofArgs args = .ok c)
    (real : c.dryRun = false) : Config.ofArgs (dryRunArgument :: args) = .ok { c with dryRun := true } := by
  obtain ⟨x, rfl⟩ := Parser.exists_line (l := []) List.nodup_nil parsed
  obtain ⟨distinct, rfl⟩ := (Parser.run_line x).1 parsed
  let y : Line := ⟨.cluster [.dryRun] (List.cons_ne_nil _ _) :: x.groups, x.tail⟩
  have settings : y.settings = .flag .dryRun :: x.settings := rfl
  refine (Parser.run_line y).2 ⟨?_, ?_⟩
  · rw [settings, Distinct, List.map_cons, List.nodup_cons]
    refine ⟨fun mem => ?_, distinct⟩
    obtain ⟨s, hs, same⟩ := List.mem_map.1 mem
    rw [Setting.eq_dryRun same] at hs
    simp [ofSettings, hs] at real
  · rw [settings, ofSettings_cons_dryRun]

/-! ### What the program prints -/

/-- What is printed after a run that has succeeded. -/
def Config.output (c : Config) (P : Label) (r : Report) : Output where
  exit := 0
  stdout := (if c.dryRun then r.text else []) ++ (if c.list then P.listing r.text else [])
  stderr := (if c.verbose then s!"{r.summary} in {String.ofList c.path.lossy}\n" else "").toList

namespace Workspace

variable {w v : Workspace} {args : List Bytes} {c : Config} {P : Label} {r : Report} {f : Failure}

/-- The output of the program on the workspace, and the workspace after it. -/
def launch (w : Workspace) (args : List Bytes) : Output × Workspace :=
  (program args : StateM Workspace Output).run w

/-- The label of a run that has succeeded is accepted again where the markers are listed. -/
theorem launch_of_report (parsed : Config.ofArgs args = .ok c) (label : c.checkLabel = .ok P)
    (run : w.exec c.run = (.ok r, v)) : w.launch args = (c.output P r, v) := by
  have listing : c.listing r.text = .ok (if c.list then P.listing r.text else []) := by
    rw [Config.listing, label]
    split <;> rfl
  have execute : w.exec c.execute = (.ok (c.output P r), v) := by
    simp [Config.execute, exec_bind, run, listing, Config.output, Except.map]
  rw [launch, run_program, parsed]
  simp [execute]

theorem launch_of_failure (parsed : Config.ofArgs args = .ok c) (run : w.exec c.run = (.error f, v)) :
    w.launch args = (f.output, v) := by
  have execute : w.exec c.execute = (.error f, v) := by simp [Config.execute, exec_bind, run]
  rw [launch, run_program, parsed]
  simp [execute]

/-- What a dry run shows of the real run with the same configuration: its status and its complaints, and no
change to the tree. The real run succeeds where the label is accepted and the path leads to a text, and then
the dry run prints the content which that leaves in the file, and behind it what that prints. Else both print
nothing, and the real run changes nothing either. -/
structure Previews (w : Workspace) (c : Config) (dry real : Output × Workspace) : Prop where
  exit : dry.1.exit = real.1.exit
  stderr : dry.1.stderr = real.1.stderr
  tree : dry.2.tree = w.tree
  succeeds : real.1.exit = 0 ↔ ∃ P l t, Label.ofText c.label = .ok P ∧ w.Holds c.path l t
  stdout : real.1.exit = 0 → ∃ content, real.2.tree.read c.path = .ok content ∧
    dry.1.stdout.utf8 = content ++ real.1.stdout.utf8
  fails : real.1.exit ≠ 0 → real.1.exit = 1 ∧ dry.1.stdout = [] ∧ real.1.stdout = [] ∧ real.2.tree = w.tree

theorem previews_of_failure (f : Failure)
    (refused : ∀ P l t, Label.ofText c.label = .ok P → ¬ w.Holds c.path l t) :
    w.Previews c (f.output, w) (f.output, w) where
  exit := rfl
  stderr := rfl
  tree := rfl
  succeeds := by
    refine ⟨fun zero => ?_, fun ⟨P, l, t, label, holds⟩ => absurd holds (refused P l t label)⟩
    simp [Failure.output] at zero
  stdout zero := by simp [Failure.output] at zero
  fails _ := ⟨rfl, rfl, rfl, rfl⟩

theorem previews_of_report {v' : Workspace} {l : Location} {t : Text} (label : Label.ofText c.label = .ok P)
    (holds : w.Holds c.path l t) (isReal : c.dryRun = false) (tree : v.tree = w.tree)
    (after : v'.Holds c.path l r.text) :
    w.Previews c (Config.output { c with dryRun := true } P r, v) (c.output P r, v') where
  exit := rfl
  stderr := rfl
  tree := tree
  succeeds := ⟨fun _ => ⟨P, l, t, label, holds⟩, fun _ => rfl⟩
  stdout _ := by
    refine ⟨r.text.utf8, after.read, ?_⟩
    simp [Config.output, isReal]
  fails failed := absurd rfl failed

/-- The flag of a dry run previews the program on any arguments that make a configuration for a real run. And
arguments that make none, because they are not understood or ask for the version, change nothing. -/
theorem dryRun_argument_previews (w : Workspace) (args : List Bytes) :
    (∀ c, Config.ofArgs args = .ok c → c.dryRun = false →
      w.Previews c (w.launch (dryRunArgument :: args)) (w.launch args)) ∧
    ∀ stop, Config.ofArgs args = .error stop → (w.launch args).2.tree = w.tree := by
  constructor
  · intro c parsed isReal
    have parsedDry := Config.ofArgs_cons_dryRun parsed isReal
    cases label : Label.ofText c.label with
    | error e =>
      have checked : c.checkLabel = .error (.label e) := Job.checkLabel_of_error label
      rw [launch_of_failure parsed (exec_run_of_label c.toJob checked),
        launch_of_failure parsedDry (exec_run_of_label { c.toJob with dryRun := true } checked)]
      exact previews_of_failure _ fun P l t accepted => by simp [label] at accepted
    | ok P =>
      have checked : c.checkLabel = .ok P := Job.checkLabel_of_ok label
      rcases w.holds_or_unread c.path with ⟨l, t, holds⟩ | ⟨fault, fails⟩
      · obtain ⟨v, dryRun, tree⟩ := Holds.exec_run_tree { c.toJob with dryRun := true } holds checked
        obtain ⟨v', realRun, tree'⟩ := Holds.exec_run_tree c.toJob holds checked
        rw [launch_of_report parsed checked realRun, launch_of_report parsedDry checked dryRun]
        rw [if_neg (by simp [isReal])] at tree'
        exact previews_of_report label holds isReal tree (holds.rewritten tree')
      · rw [launch_of_failure parsed (exec_run_of_fails c.toJob fails checked),
          launch_of_failure parsedDry (exec_run_of_fails { c.toJob with dryRun := true } fails checked)]
        refine previews_of_failure _ fun _ l t _ holds => ?_
        have read := holds.exec_readText
        rw [fails] at read
        cases read
  · intro stop stopped
    rw [launch, run_program, stopped]

/-- A listing with a summary, and a question for the version. -/
theorem dryRun_argument_previews_listing :
    let file : Entry := .file (Text.utf8 "w.o.stat.W(7)\n".toList)
    let w : Workspace := { tree := FileTree.empty.create [Text.utf8 "world.go".toList] file }
    let listing := [Text.utf8 "-lv".toList]
    let version := [Text.utf8 "-V".toList]
    let c : Config := { list := true, verbose := true }
    Config.ofArgs listing = .ok c ∧ c.dryRun = false ∧
      w.Previews c (w.launch (dryRunArgument :: listing)) (w.launch listing) ∧
      Config.ofArgs version = .error .version ∧ (w.launch version).2.tree = w.tree := by
  intro file w listing version c
  have parsed : Config.ofArgs listing = .ok c := by rfl
  have stopped : Config.ofArgs version = .error .version := by rfl
  have previews := (dryRun_argument_previews w listing).1 c parsed rfl
  have unchanged := (dryRun_argument_previews w version).2 .version stopped
  exact ⟨parsed, rfl, previews, stopped, unchanged⟩

end Workspace

end Numbering
