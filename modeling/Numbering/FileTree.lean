import Numbering.Text

/-! File trees: the entries below the root, each at the names that lead to it, and a working directory.
The tree is read through `get?`, and `put` changes what is read at one location and nowhere else. There are
no links and no permissions. -/

namespace Numbering

abbrev Name := Bytes

/-- The names from the root down to an entry. -/
abbrev Location := List Name

/-- The byte that separates names. -/
def slash : UInt8 := 0x2F

inductive Entry where
  | file (content : Bytes)
  | directory
  deriving DecidableEq, Repr

structure FileTree where
  entries : List (Location × Entry)
  /-- The working directory. -/
  cwd : Location
  deriving DecidableEq, Repr

namespace FileTree

/-- A working directory below the root, with nothing in it. -/
def empty : FileTree := { entries := [], cwd := [Text.utf8 "workspace".toList] }

/-- The entry at a location. The working directory and the directories that lead to it are always there. -/
def get? (tree : FileTree) (l : Location) : Option Entry :=
  if l <+: tree.cwd then some .directory else tree.entries.lookup l

def locations (tree : FileTree) : List Location := tree.entries.map Prod.fst

private def putEntry (l : Location) (e : Entry) : List (Location × Entry) → List (Location × Entry)
  | [] => [(l, e)]
  | (k, x) :: rest => if k = l then (l, e) :: rest else (k, x) :: putEntry l e rest

/-- Replaces the entry at a location, or adds one. -/
def put (tree : FileTree) (l : Location) (e : Entry) : FileTree :=
  { tree with entries := putEntry l e tree.entries }

section Entries

variable {entries : List (Location × Entry)} {l m : Location} {e : Entry}

private theorem lookup_putEntry :
    (putEntry l e entries).lookup m = if m = l then some e else entries.lookup m := by
  induction entries with
  | nil =>
    by_cases hm : m = l
    · simp [putEntry, hm]
    · simp [putEntry, List.lookup_cons, beq_eq_false_iff_ne.2 hm, hm]
  | cons x rest ih =>
    obtain ⟨k, x⟩ := x
    by_cases hk : k = l
    · subst hk
      by_cases hm : m = k
      · simp [putEntry, hm]
      · simp [putEntry, List.lookup_cons, beq_eq_false_iff_ne.2 hm, hm]
    · by_cases hm : m = k
      · subst hm; simp [putEntry, hk]
      · simp [putEntry, hk, List.lookup_cons, beq_eq_false_iff_ne.2 hm, ih]

private theorem putEntry_of_lookup (h : entries.lookup l = some e) : putEntry l e entries = entries := by
  induction entries with
  | nil => simp at h
  | cons x rest ih =>
    obtain ⟨k, x⟩ := x
    by_cases hk : k = l
    · subst hk; simp at h; simp [putEntry, h]
    · have hl : l ≠ k := fun h => hk h.symm
      simp only [List.lookup_cons, beq_eq_false_iff_ne.2 hl] at h
      simp [putEntry, hk, ih h]

private theorem putEntry_putEntry (d : Entry) : putEntry l e (putEntry l d entries) = putEntry l e entries := by
  induction entries with
  | nil => simp [putEntry]
  | cons x rest ih => by_cases hk : x.1 = l <;> simp [putEntry, hk, ih]

private theorem map_fst_putEntry {d : Entry} (h : entries.lookup l = some d) :
    (putEntry l e entries).map Prod.fst = entries.map Prod.fst := by
  induction entries with
  | nil => simp at h
  | cons x rest ih =>
    obtain ⟨k, x⟩ := x
    by_cases hk : k = l
    · simp [putEntry, hk]
    · have hl : l ≠ k := fun h => hk h.symm
      simp only [List.lookup_cons, beq_eq_false_iff_ne.2 hl] at h
      simp [putEntry, hk, ih h]

end Entries

variable {tree : FileTree} {l : Location} {content : Bytes}

@[simp] theorem cwd_put (tree : FileTree) (l : Location) (e : Entry) : (tree.put l e).cwd = tree.cwd := rfl

theorem get?_of_isPrefix (h : l <+: tree.cwd) : tree.get? l = some .directory := if_pos h

/-- A file is an entry of its own, and neither the working directory nor above it. -/
theorem get?_eq_file_iff :
    tree.get? l = some (.file content) ↔
      ¬ l <+: tree.cwd ∧ tree.entries.lookup l = some (.file content) := by
  unfold get?
  split <;> simp_all

theorem get?_put (outside : ¬ l <+: tree.cwd) (m : Location) (e : Entry) :
    (tree.put l e).get? m = if m = l then some e else tree.get? m := by
  unfold get?
  rw [cwd_put]
  split
  · rename_i above
    have differs : m ≠ l := fun same => outside (same ▸ above)
    rw [if_neg differs]
  · exact lookup_putEntry

/-- To put back what a file holds changes nothing. -/
theorem put_of_get? (h : tree.get? l = some (.file content)) : tree.put l (.file content) = tree := by
  rw [put, putEntry_of_lookup (get?_eq_file_iff.1 h).2]

theorem put_put (tree : FileTree) (l : Location) (d e : Entry) : (tree.put l d).put l e = tree.put l e := by
  simp only [put, putEntry_putEntry]

/-- A file that is replaced stays where it is. -/
theorem locations_put (h : tree.get? l = some (.file content)) (e : Entry) :
    (tree.put l e).locations = tree.locations :=
  map_fst_putEntry (get?_eq_file_iff.1 h).2

/-- Adds an entry below the working directory, and the missing directories that lead to it. -/
def create (tree : FileTree) (l : Location) (e : Entry) : FileTree :=
  let above := (List.range l.length).tail.map fun n => tree.cwd ++ l.take n
  (above.foldl (fun t d => if (t.get? d).isSome then t else t.put d .directory) tree).put (tree.cwd ++ l) e

/-- Every entry below the working directory with its path from there, in the order of the bytes of the
paths. -/
def listing (tree : FileTree) : List (Bytes × Entry) :=
  let below := tree.entries.filter fun (l, _) => tree.cwd <+: l
  (below.map fun (l, e) => ([slash].intercalate (l.drop tree.cwd.length), e)).mergeSort fun x y =>
    decide (x.1 ≤ y.1)

end FileTree

end Numbering
