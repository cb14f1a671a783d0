import Numbering.FileTree.Path
import Numbering.Result

/-! A file that can be read through a path can be written through it. A walk enters no file but at its
last step, so a path that leads to a file ends in the name of the file; reading and writing then mean the
same location, and what has been written there is read again through the path. -/

namespace Numbering

namespace Path

theorem of_ofBytes {b : Bytes} {p : Path} (h : ofBytes b = .ok p) :
    b ≠ [] ∧ p.rooted = decide (b.head? = some slash) ∧
      p.steps = ((b.splitOn slash).filter (!·.isEmpty)).map Step.ofName := by
  unfold ofBytes at h
  split at h
  · cases h
  · split at h
    · cases h
    · rename_i nonempty
      split at h
      · cases h
      · obtain rfl := Except.ok.inj h
        exact ⟨nonempty, rfl, rfl⟩

/-- A path without steps is made of slashes. -/
theorem rooted_of_steps_eq_nil {b : Bytes} {p : Path} (h : ofBytes b = .ok p) (none : p.steps = []) :
    p.rooted := by
  obtain ⟨nonempty, rooted, steps⟩ := of_ofBytes h
  obtain ⟨c, b, rfl⟩ := List.exists_cons_of_ne_nil nonempty
  by_cases hc : c = slash
  · simp [rooted, hc]
  · obtain ⟨name, names, split⟩ := List.exists_cons_of_ne_nil (List.splitOn_ne_nil slash b)
    rw [none] at steps
    simp [List.splitOn_cons_eq_if_modifyHead, hc, split] at steps

end Path

namespace FileTree

variable {tree : FileTree} {k l m : Location} {s : Step} {path old : Bytes}

/-- No entry above the location is a file. -/
def Open (tree : FileTree) (l : Location) : Prop := ∀ k, k <+: l → k ≠ l → tree.file? k = none

theorem file?_eq_some_iff : tree.file? l = some old ↔ tree.get? l = some (.file old) := by
  unfold file?
  split <;> simp_all

theorem file?_of_isPrefix (h : l <+: tree.cwd) : tree.file? l = none := by
  rw [file?, get?_of_isPrefix h]

theorem file?_put (outside : ¬ l <+: tree.cwd) (m : Location) (new : Bytes) :
    (tree.put l (.file new)).file? m = if m = l then some new else tree.file? m := by
  unfold file?
  rw [get?_put outside]
  by_cases hm : m = l <;> simp [hm]

theorem walk_concat (l : Location) (above : List Step) (s : Step) :
    tree.walk l (above ++ [s]) = tree.walk l above >>= fun m => tree.step m s := by
  rw [walk_append]
  simp [walk]

theorem eq_of_child {name : Name} (h : child l name = .ok m) : m = l ++ [name] := by
  unfold child at h
  split at h
  · cases h
  · exact (Except.ok.inj h).symm

/-- What a step can do. -/
theorem step_cases (h : tree.step l s = .ok m) :
    tree.file? l = none ∧ (s = .stay ∧ m = l ∨ s = .up ∧ m = l.dropLast ∨
      ∃ name, s = .down name ∧ child l name = .ok m) := by
  unfold step at h
  split at h
  · cases h
  · rename_i outside
    refine ⟨by simpa using outside, ?_⟩
    cases s with
    | stay => exact .inl ⟨rfl, (Except.ok.inj h).symm⟩
    | up => exact .inr (.inl ⟨rfl, (Except.ok.inj h).symm⟩)
    | down name =>
      obtain ⟨k, hk, h⟩ := bind_eq_ok_iff.1 h
      split at h
      · obtain rfl := Except.ok.inj h
        exact .inr (.inr ⟨name, rfl, hk⟩)
      · cases h

theorem Open.file?_dropLast (hl : tree.Open l) : tree.file? l.dropLast = none := by
  rcases l.eq_nil_or_concat with rfl | ⟨above, name, rfl⟩
  · exact file?_of_isPrefix List.nil_prefix
  · exact hl _ (List.dropLast_prefix _) (by simp)

theorem Open.dropLast (hl : tree.Open l) : tree.Open l.dropLast := by
  intro k hk differs
  refine hl k (hk.trans (List.dropLast_prefix _)) ?_
  -- only the root is its own parent
  rintro rfl
  exact differs ((List.dropLast_prefix k).eq_of_length_le hk.length_le).symm

theorem Open.step (hl : tree.Open l) (h : tree.step l s = .ok m) : tree.Open m := by
  obtain ⟨outside, ⟨-, rfl⟩ | ⟨-, rfl⟩ | ⟨name, -, hm⟩⟩ := step_cases h
  · exact hl
  · exact hl.dropLast
  · obtain rfl := eq_of_child hm
    intro k hk differs
    rcases List.prefix_concat_iff.1 hk with same | hk
    · exact absurd same differs
    · by_cases same : k = l
      · exact same ▸ outside
      · exact hl k hk same

theorem Open.walk {steps : List Step} (hl : tree.Open l) (h : tree.walk l steps = .ok m) :
    tree.Open m := by
  induction steps generalizing l with
  | nil => exact Except.ok.inj h ▸ hl
  | cons s steps ih =>
    obtain ⟨k, hs, h⟩ := bind_eq_ok_iff.1 h
    exact ih (hl.step hs) h

/-- Above the working directory there are directories, and above the root there is nothing. -/
theorem open_start (p : Path) : tree.Open (tree.start p) := by
  unfold start
  intro k hk differs
  split at hk
  · exact file?_of_isPrefix (hk.trans List.nil_prefix)
  · exact file?_of_isPrefix hk

/-- The step that comes to a file is the one that names it. -/
theorem Open.step_file (hl : tree.Open l) (h : tree.step l s = .ok m) (file : tree.file? m = some old) :
    ∃ name, s = .down name ∧ child l name = .ok m := by
  obtain ⟨outside, ⟨-, rfl⟩ | ⟨-, rfl⟩ | down⟩ := step_cases h
  · rw [outside] at file
    cases file
  · rw [hl.file?_dropLast] at file
    cases file
  · exact down

/-! ### Paths that lead to a file -/

/-- The path leads to the file at a location, by its name in a directory to which the rest of the path
leads. -/
structure Leads (tree : FileTree) (path : Bytes) (l : Location) (content : Bytes) : Prop where
  walked : ∃ (p : Path) (above : List Step) (directory : Location) (name : Name),
    Path.ofBytes path = .ok p ∧ p.steps = above ++ [.down name] ∧ p.closed = false ∧
      tree.walk (tree.start p) above = .ok directory ∧ tree.file? directory = none ∧
        child directory name = .ok l
  file : tree.get? l = some (.file content)

theorem leads_of_read (h : tree.read path = .ok old) : ∃ l, tree.Leads path l old := by
  obtain ⟨p, hp, h⟩ := bind_eq_ok_iff.1 h
  obtain ⟨l, walked, h⟩ := bind_eq_ok_iff.1 h
  split at h
  · cases h
  · rename_i content file
    split at h
    · cases h
    · rename_i notClosed
      obtain rfl := Except.ok.inj h
      rcases List.eq_nil_or_concat p.steps with none | ⟨above, s, steps⟩
      · rw [none] at walked
        obtain rfl := Except.ok.inj walked
        rw [start, if_pos (Path.rooted_of_steps_eq_nil hp none), file?_of_isPrefix List.nil_prefix] at file
        cases file
      · rw [List.concat_eq_append] at steps
        rw [steps, walk_concat] at walked
        obtain ⟨directory, walkedAbove, last⟩ := bind_eq_ok_iff.1 walked
        obtain ⟨name, rfl, hl⟩ := ((open_start p).walk walkedAbove).step_file last file
        exact ⟨l, ⟨p, above, directory, name, hp, steps, by simpa using notClosed, walkedAbove,
          (step_cases last).1, hl⟩, file?_eq_some_iff.1 file⟩

theorem Leads.read (h : tree.Leads path l old) : tree.read path = .ok old := by
  obtain ⟨⟨p, above, directory, name, hp, steps, notClosed, walked, outside, hl⟩, file⟩ := h
  have last : tree.step directory (.down name) = .ok l := by
    simp [step, outside, hl, file]
  simp [FileTree.read, hp, steps, notClosed, walk_concat, walked, last, file?_eq_some_iff.2 file]

theorem Leads.write (h : tree.Leads path l old) (new : Bytes) :
    tree.write path new = .ok (tree.put l (.file new)) := by
  obtain ⟨⟨p, above, directory, name, hp, steps, notClosed, walked, outside, hl⟩, file⟩ := h
  simp [FileTree.write, target, hp, steps, notClosed, walked, outside, hl, file]

/-- New content in a file changes nothing for the steps of a walk. -/
theorem step_put (file : tree.get? l = some (.file old)) (new : Bytes) :
    (tree.put l (.file new)).step = tree.step := by
  have outside := (get?_eq_file_iff.1 file).1
  have isSome_get? (m : Location) : ((tree.put l (.file new)).get? m).isSome = (tree.get? m).isSome := by
    rw [get?_put outside]
    split <;> simp_all
  have isSome_file? (m : Location) : ((tree.put l (.file new)).file? m).isSome = (tree.file? m).isSome := by
    rw [file?_put outside]
    split
    · simp_all [file?_eq_some_iff.2 file]
    · rfl
  funext m s
  simp only [step, isSome_get?, isSome_file?]

/-- Every path that leads to a file leads to what is written there. -/
theorem Leads.put (h : tree.Leads path l old) (new : Bytes) :
    (tree.put l (.file new)).Leads path l new := by
  obtain ⟨⟨p, above, directory, name, hp, steps, notClosed, walked, isDirectory, hl⟩, file⟩ := h
  have outside := (get?_eq_file_iff.1 file).1
  have differs : directory ≠ l := by
    rintro rfl
    rw [file?_eq_some_iff.2 file] at isDirectory
    cases isDirectory
  refine ⟨⟨p, above, directory, name, hp, steps, notClosed, ?_, ?_, hl⟩, by simp [get?_put outside]⟩
  · rwa [walk, step_put file]
  · rw [file?_put outside, if_neg differs, isDirectory]

-- what is written through one path is read through others, from the root or over its parent
example :
    let tree := FileTree.empty.create [Text.utf8 "world.go".toList] (.file [])
    let path := Text.utf8 "world.go".toList
    let others := ["/workspace/world.go", "../../workspace//./world.go"].map fun p => Text.utf8 p.toList
    (tree.write path [0x30]).map (fun t => others.map t.read) = .ok [.ok [0x30], .ok [0x30]] := by
  rfl

end FileTree

end Numbering
