import FeatureTree.FileTree
import Mathlib.Data.List.Lex
import Mathlib.Data.String.Basic

/-!
# Walks through a tree of files

A walk enters the entries of a directory in the order of their names and goes
through all that is below an entry before it enters the next one. The files are
met in the order in which a file system lists them (`sortedFiles_eq_walk`): both
lists hold the same files, and both are in the order of the rows of names that
lead to the files, which is an order of all rows. So where no directory has two
entries of a name, each file is met once (`pairwise_walk`, `mem_walk_iff`).
-/

namespace FeatureTree.FileTree

mutual

/-- The files below here, in the order in which a walk meets them, each as the
row of names that leads to it. -/
def walk : FileTree → List (List String)
  | .file _ => [[]]
  | .directory entries =>
    ((walks entries).mergeSort fun a b => a.1 ≤ b.1).flatMap fun b => b.2.map (b.1 :: ·)

/-- The walks through the entries of a directory, with the names. -/
def walks : List (String × FileTree) → List (String × List (List String))
  | [] => []
  | (name, t) :: rest => (name, t.walk) :: walks rest

end

mutual

/-- No directory has two entries of a name. -/
def Distinct : FileTree → Prop
  | .file _ => True
  | .directory entries => (entries.map (·.1)).Nodup ∧ DistinctBelow entries

/-- No directory below the entries has two entries of a name. -/
def DistinctBelow : List (String × FileTree) → Prop
  | [] => True
  | (_, t) :: rest => t.Distinct ∧ DistinctBelow rest

end

/-- What a row of names leads to. -/
def at? : FileTree → List String → Option FileTree
  | t, [] => some t
  | .file _, _ :: _ => none
  | .directory entries, name :: names => (child? entries name).bind (·.at? names)

mutual

theorem walk_perm_files (t : FileTree) : t.walk.Perm t.files := by
  match t with
  | .file _ => rw [walk, files]
  | .directory entries =>
      rw [walk, files]
      exact ((List.mergeSort_perm _ _).flatMap_right _).trans (walks_perm_filesIn entries)

theorem walks_perm_filesIn (entries : List (String × FileTree)) :
    ((walks entries).flatMap fun b => b.2.map (b.1 :: ·)).Perm (filesIn entries) := by
  match entries with
  | [] => rw [walks, filesIn]; exact .refl _
  | (name, t) :: rest =>
      rw [walks, filesIn, List.flatMap_cons]
      exact ((walk_perm_files t).map _).append (walks_perm_filesIn rest)

end

theorem map_fst_walks (entries : List (String × FileTree)) :
    (walks entries).map (·.1) = entries.map (·.1) := by
  induction entries with
  | nil => rw [walks]; rfl
  | cons entry rest ih => rw [walks, List.map_cons, List.map_cons, ih]

mutual

/-- A walk meets files in the order of their rows, so it meets none twice. -/
theorem pairwise_walk {t : FileTree} (h : t.Distinct) : t.walk.Pairwise (· < ·) := by
  match t with
  | .file _ => rw [walk]; exact List.pairwise_singleton _ _
  | .directory entries =>
      rw [Distinct] at h
      rw [walk, List.pairwise_flatMap]
      have hperm := List.mergeSort_perm (walks entries) fun a b => decide (a.1 ≤ b.1)
      refine ⟨fun b hb => ?_, ?_⟩
      · exact pairwise_map_walks h.2 b (hperm.mem_iff.1 hb)
      · have hle : ((walks entries).mergeSort fun a b => decide (a.1 ≤ b.1)).Pairwise
            fun a b => decide (a.1 ≤ b.1) = true :=
          List.pairwise_mergeSort (fun a b c hab hbc => by simp at hab hbc ⊢; exact hab.trans hbc)
            (fun a b => by simpa using le_total a.1 b.1) (walks entries)
        have hne : ((walks entries).mergeSort fun a b => decide (a.1 ≤ b.1)).Pairwise
            fun a b => a.1 ≠ b.1 := by
          rw [← List.pairwise_map (f := Prod.fst)]
          exact (hperm.map _).nodup_iff.2 (map_fst_walks entries ▸ h.1)
        refine (hle.and hne).imp fun {a b} hab x hx y hy => ?_
        obtain ⟨x, -, rfl⟩ := List.mem_map.1 hx
        obtain ⟨y, -, rfl⟩ := List.mem_map.1 hy
        exact List.cons_lt_cons_iff.2 (.inl (lt_of_le_of_ne (of_decide_eq_true hab.1) hab.2))

theorem pairwise_map_walks {entries : List (String × FileTree)} (h : DistinctBelow entries) :
    ∀ b ∈ walks entries, (b.2.map (b.1 :: ·)).Pairwise (· < ·) := by
  match entries with
  | [] => rw [walks]; exact List.forall_mem_nil _
  | (name, t) :: rest =>
      rw [DistinctBelow] at h
      rw [walks, List.forall_mem_cons]
      refine ⟨?_, pairwise_map_walks h.2⟩
      rw [List.pairwise_map]
      exact (pairwise_walk h.1).imp fun hlt => List.cons_lt_cons_iff.2 (.inr ⟨rfl, hlt⟩)

end

/-- The files of a directory are listed in the order of a walk. -/
theorem sortedFiles_eq_walk {t : FileTree} (h : t.Distinct) : t.sortedFiles = t.walk := by
  have hperm : t.sortedFiles.Perm t.walk :=
    (List.mergeSort_perm _ _).trans (walk_perm_files t).symm
  have hsorted : t.sortedFiles.Pairwise (· ≤ ·) := by
    refine (List.pairwise_mergeSort ?_ ?_ t.files).imp fun {a b} hab => ?_
    · intro a b c hab hbc
      simp at hab hbc ⊢
      exact le_trans hab hbc
    · intro a b
      simpa using le_total a b
    · simpa using hab
  exact hperm.eq_of_pairwise (fun a b _ _ hab hba => le_antisymm hab hba) hsorted
    ((pairwise_walk h).imp fun hlt => hlt.le)

theorem child?_cons (name n : String) (t : FileTree) (entries : List (String × FileTree)) :
    child? ((n, t) :: entries) name = if n = name then some t else child? entries name := by
  by_cases h : n = name <;> simp [child?, h]

theorem child?_eq_none {entries : List (String × FileTree)} {name : String}
    (h : name ∉ entries.map (·.1)) : child? entries name = none := by
  rw [child?, Option.map_eq_none_iff, List.find?_eq_none]
  intro entry hentry hname
  exact h (List.mem_map.2 ⟨entry, hentry, beq_iff_eq.1 hname⟩)

mutual

theorem mem_files_iff {t : FileTree} (h : t.Distinct) (names : List String) :
    names ∈ t.files ↔ ∃ content, t.at? names = some (.file content) := by
  match t with
  | .file content =>
      rw [files, List.mem_singleton]
      cases names <;> simp [at?]
  | .directory entries =>
      rw [Distinct] at h
      rw [files]
      exact mem_filesIn_iff h.1 h.2 names

theorem mem_filesIn_iff {entries : List (String × FileTree)} (hnames : (entries.map (·.1)).Nodup)
    (hbelow : DistinctBelow entries) (names : List String) :
    names ∈ filesIn entries ↔
      ∃ content, (directory entries).at? names = some (.file content) := by
  match entries with
  | [] => cases names <;> simp [filesIn, at?, child?]
  | (n, t) :: others =>
      rw [List.map_cons, List.nodup_cons] at hnames
      rw [DistinctBelow] at hbelow
      rw [filesIn, List.mem_append, mem_filesIn_iff hnames.2 hbelow.2]
      cases names with
      | nil => simp [at?]
      | cons name rest =>
          rw [at?, at?, child?_cons]
          by_cases hname : n = name
          · subst hname
            simp [child?_eq_none hnames.1, mem_files_iff hbelow.1 rest]
          · simp [hname]

end

/-- The files that are met are those that a row of names leads to. -/
theorem mem_walk_iff {t : FileTree} (h : t.Distinct) (names : List String) :
    names ∈ t.walk ↔ ∃ content, t.at? names = some (.file content) := by
  rw [(walk_perm_files t).mem_iff, mem_files_iff h]

section System

variable {root : FileTree} {path : String}

/-- What a path names is what is listed below it, if it is a directory. -/
theorem filesBelow?_directory {entries : List (String × FileTree)}
    (h : root.lookup path = .ok (.directory entries)) :
    root.system.filesBelow? path = some (directory entries).sortedFiles := by
  simp only [system, h]

/-- A path of one part is looked for in the directory at the top. -/
theorem lookup_name (hstart : (path.isEmpty || path.startsWith "/") = false)
    (hparts : path.splitToList (· == '/') = [path]) : root.lookup path = follow [] root [path] := by
  rw [lookup, hstart, hparts]
  rfl

theorem filesBelow?_error {e : ReadError} (h : root.lookup path = .error e) :
    root.system.filesBelow? path = none := by
  simp only [system, h]

end System

end FeatureTree.FileTree
