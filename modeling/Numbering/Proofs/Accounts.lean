import Numbering.Proofs.DryRun
import Numbering.Proofs.Seams

/-! The bytes and the markers that a log accounts for. A pass changes the size of a text by the digits that its
markers gain or lose, and by nothing else; so the sizes in the log are told by the arguments of the sites, and they
chain from one cycle to the next. A job that fails has noted nothing. -/

namespace Numbering

/-- The bytes that arguments take beyond one digit each. -/
def surplus (arguments : List Text) : Nat := arguments.foldr (fun a n => a.size - 1 + n) 0

@[simp] theorem surplus_cons (a : Text) (arguments : List Text) :
    surplus (a :: arguments) = a.size - 1 + surplus arguments := rfl

theorem surplus_eq_zero {arguments : List Text} (single : ∀ a ∈ arguments, a.size = 1) :
    surplus arguments = 0 := by
  induction arguments with
  | nil => rfl
  | cons a arguments ih =>
    obtain ⟨first, others⟩ := List.forall_mem_cons.1 single
    rw [surplus_cons, first, ih others]

namespace Label

variable (P : Label) (t : Text)

/-! ### The size of a text with markers -/

theorem size_marker (a : Argument) : (P.marker a).size = (P.marker .zero).size + (a.digits.size - 1) := by
  have digits : 0 < a.digits.size := Nat.lt_of_lt_of_le (List.length_pos_iff.2 a.ne_nil) a.digits.length_le_size
  have zero : Argument.zero.digits.size = 1 := by decide
  simp only [marker, Argument.inParentheses, Text.size_append, Text.size_cons, zero]
  omega

/-- A text has the bytes that are left of it with zeros for arguments, and those that its arguments take beyond
one digit each. -/
theorem size_join (c : Cut) :
    (c.join P).size =
      ((c.withArguments fun _ => .zero).join P).size + surplus (c.arguments.map Argument.digits) := by
  obtain ⟨parts, tail⟩ := c
  induction parts with
  | nil => rfl
  | cons p ps ih =>
    have marker := P.size_marker p.argument
    have arguments : Cut.arguments ⟨p :: ps, tail⟩ = p.argument :: Cut.arguments ⟨ps, tail⟩ := rfl
    rw [arguments, Cut.eq_mark_prepend, Cut.withArguments_prepend, Cut.withArguments_mark]
    simp only [Cut.join_prepend, Cut.join_mark, Text.size_append, List.map_cons, surplus_cons]
    omega

theorem size_rewrite (wanted : Argument → Bool) (f : Nat → Argument) :
    (P.rewrite wanted f t).size = (P.rewrite wanted (fun _ => .zero) t).size +
      surplus ((List.range (P.cut wanted t).count).map fun k => (f k).digits) := by
  rw [rewrite, size_join, Cut.withArguments_withArguments, Cut.arguments_withArguments, List.map_map]
  rfl

theorem size_eq_rewrite (wanted : Argument → Bool) :
    t.size = (P.rewrite wanted (fun _ => .zero) t).size +
      surplus ((P.cut wanted t).arguments.map Argument.digits) := by
  have size := P.size_join (P.cut wanted t)
  rwa [join_cut] at size

/-- The reset pass takes away all but one digit of each argument. -/
theorem size_reset : t.size = (P.reset t).text.size + surplus ((P.sites t).map (·.argument)) := by
  rw [arguments_sites]
  exact P.size_eq_rewrite t _

/-- The numbers take what they have beyond one digit each. -/
theorem size_renumber : (P.renumber t).text.size = (P.reset t).text.size +
    surplus ((List.range (P.sites t).length).map (Nat.toDigits 10)) := by
  rw [renumber_eq, length_sites]
  exact P.size_rewrite t _ .ofNat

theorem size_enumerate : (P.enumerate t).text.size = t.size +
    surplus ((List.range (P.hits Argument.isZero t).length).map (Nat.toDigits 10)) := by
  have leaves : P.Leaves Argument.isZero (P.cut Argument.isZero t) := leaves_cut t
  -- with zeros for its zeros the text has the size that it had
  have zeros : surplus ((P.cut Argument.isZero t).arguments.map Argument.digits) = 0 := by
    refine surplus_eq_zero (List.forall_mem_map.2 (List.forall_mem_map.2 fun p mem => ?_))
    rw [Argument.isZero_iff.1 (leaves.1 p mem).1]
    rfl
  have size := P.size_eq_rewrite t Argument.isZero
  rw [zeros, Nat.add_zero] at size
  rw [length_hits, size]
  exact P.size_rewrite t Argument.isZero .ofNat

end Label

/-! ### Accounts -/

/-- The accounts of the selected passes over a text, told by the sites in the text. -/
def Selection.accounts (P : Label) (t : Text) (s : Selection) : List Account :=
  let n := (P.sites t).length
  let zeros := (P.hits Argument.isZero t).length
  let reset := t.size - surplus ((P.sites t).map (·.argument))
  let numbered (size count : Nat) : Nat := size + surplus ((List.range count).map (Nat.toDigits 10))
  match s with
  | .reset => [⟨.reset, n, t.size, reset⟩]
  | .enumerate => [⟨.enumerate, zeros, t.size, numbered t.size zeros⟩]
  | .all => [⟨.reset, n, t.size, reset⟩, ⟨.enumerate, n, reset, numbered reset n⟩]

/-- The count of a pass, if it is among the accounts. -/
def Account.count? (pass : Pass) (accounts : List Account) : Option Nat :=
  (accounts.find? (·.pass == pass)).map (·.matched)

theorem Account.ofPasses_passes (P : Label) (t : Text) (s : Selection) :
    ofPasses P s.passes t = s.accounts P t := by
  have reset : (P.reset t).text.size = t.size - surplus ((P.sites t).map (·.argument)) :=
    Nat.eq_sub_of_add_eq (P.size_reset t).symm
  have matched : (P.reset t).matched = (P.sites t).length := (P.length_sites t).symm
  cases s with
  | reset => simp [Selection.passes, Selection.accounts, Pass.apply, matched, reset]
  | enumerate =>
    have zeros : (P.enumerate t).matched = (P.hits Argument.isZero t).length := (P.length_hits _ t).symm
    simp [Selection.passes, Selection.accounts, Pass.apply, zeros, P.size_enumerate]
  | all =>
    have number : (P.enumerate (P.reset t).text).matched = (P.sites t).length :=
      congrArg Outcome.matched (P.renumber_eq t)
    have renumber : (P.enumerate (P.reset t).text).text.size = _ := P.size_renumber t
    simp [Selection.passes, Selection.accounts, Pass.apply, matched, reset, number, renumber]

/-- The counts of the report are those of the accounts. -/
theorem Selection.counts_report (P : Label) (t : Text) (s : Selection) :
    (s.report P t).reset = Account.count? .reset (s.accounts P t) ∧
      (s.report P t).enumerated = Account.count? .enumerate (s.accounts P t) := by
  rw [← Account.ofPasses_passes]
  cases s <;> exact ⟨rfl, rfl⟩

namespace Workspace

/-- A job that fails notes nothing. One that succeeds does so on a text, and notes just the accounts of its passes
over this text, and reports their counts. -/
theorem log_accounts_for_bytes (w : Workspace) (job : Job) :
    (∀ f v, w.exec job.run = (.error f, v) → v.log = w.log) ∧
      ∀ r v, w.exec job.run = (.ok r, v) → ∃ (P : Label) (t : Text),
        Label.ofText job.label = .ok P ∧ w.tree.read job.path = .ok t.utf8 ∧
          let accounts := job.selection.accounts P t
          surplus ((P.sites t).map (·.argument)) ≤ t.size ∧
            v.log = w.log ++ job.records P t.size accounts ∧
            r.reset = Account.count? .reset accounts ∧ r.enumerated = Account.count? .enumerate accounts := by
  rcases w.exec_run_cases job with ⟨failure, failed⟩ | ⟨P, l, t, label, holds, run⟩
  · rw [failed]
    refine ⟨fun f v same => ?_, fun r v same => ?_⟩
    · rw [← (Prod.mk.inj same).2]
    · cases (Prod.mk.inj same).1
  · rw [run]
    refine ⟨fun f v same => ?_, fun r v same => ⟨P, t, label, holds.read, ?_⟩⟩
    · cases (Prod.mk.inj same).1
    · obtain ⟨report, rfl⟩ := Prod.mk.inj same
      obtain rfl := Except.ok.inj report
      have size := P.size_reset t
      refine ⟨by omega, ?_, job.selection.counts_report P t⟩
      rw [Account.ofPasses_passes]

/-- Numbers that take one byte more, behind a label of two bytes; and a file that is not there. -/
theorem log_accounts_for_bytes_eleven :
    let P : Label := ⟨"é".toList, by decide, by decide⟩
    let path := Text.utf8 "world.go".toList
    let t : Text := "é(007)é(0)é(0)é(0)é(0)é(0)é(0)é(0)é(0)é(0)é(5)".toList
    let w : Workspace := { tree := FileTree.empty.create [path] (.file t.utf8) }
    let job : Job := { label := P.text }
    let missing : Job := { path := Text.utf8 "worlds.go".toList }
    (∃ r v, w.exec job.run = (.ok r, v) ∧ r.reset = some 11 ∧ r.enumerated = some 11 ∧
      v.log = [.loaded path 57, .passed .reset P.text 11, .saved path 55,
        .loaded path 55, .passed .enumerate P.text 11, .saved path 56]) ∧
      ∃ f v, w.exec missing.run = (.error f, v) ∧ v.log = w.log := by
  intro P path t w job missing
  constructor
  · have read : w.tree.read job.path = .ok t.utf8 := by rfl
    obtain ⟨l, holds⟩ : ∃ l, w.Holds job.path l t := FileTree.leads_of_read read
    have run := Holds.exec_run_eq job holds (Job.checkLabel_of_ok P.ofText_text)
    obtain ⟨P', t', label, read', -, log, reset, enumerated⟩ := (log_accounts_for_bytes w job).2 _ _ run
    obtain rfl : P' = P := Except.ok.inj (label.symm.trans P.ofText_text)
    obtain rfl : t' = t := Bytes.utf8_inj (Except.ok.inj (read'.symm.trans read))
    refine ⟨_, _, run, reset.trans ?_, enumerated.trans ?_, log.trans ?_⟩
    · decide +kernel
    · decide +kernel
    · decide +kernel
  · let Q : Label := ⟨Label.standard, by decide, by decide⟩
    have unread : w.exec (readText missing.path) = (.error (.read missing.path .notFound), w) := by rfl
    have failed := exec_run_of_fails missing unread (Job.checkLabel_of_ok Q.ofText_text)
    exact ⟨_, _, failed, (log_accounts_for_bytes w missing).1 _ _ failed⟩

end Workspace

end Numbering
