import LintBridge.Path.Basic

/-!
# LintBridge.Path.FileMap

Values by file, in the order in which the files came in. A file keeps its place when its value is
replaced. `get?` and `files` are the two views of it, and a lemma says for each operation what
becomes of either.
-/

namespace LintBridge

/-- A value for each of some files. -/
abbrev FileMap (α : Type) := List (Path × α)

namespace FileMap

variable {α : Type}

/-- The value of a file. -/
def get? (m : FileMap α) (file : Path) : Option α :=
  m.lookup file

/-- `m` with the value of a file replaced, in the file's old place or at the end. -/
def put (m : FileMap α) (file : Path) (a : α) : FileMap α :=
  match m with
  | [] => [(file, a)]
  | (f, b) :: rest => if f = file then (file, a) :: rest else (f, b) :: put rest file a

/-- `m` without a file. -/
def erase (m : FileMap α) (file : Path) : FileMap α :=
  m.filter (·.1 ≠ file)

/-- The files that have a value. -/
def files (m : FileMap α) : List Path :=
  m.map (·.1)

/-- A file has the value that was put there. -/
@[simp] theorem get?_put_self (m : FileMap α) (file : Path) (a : α) :
    (m.put file a).get? file = some a := by
  induction m with
  | nil => simp [put, get?]
  | cons entry rest ih =>
    obtain ⟨f, b⟩ := entry
    by_cases h : f = file
    · simp [put, get?, h]
    · have h' : (file == f) = false := by simp [Ne.symm h]
      simpa [put, get?, h, List.lookup_cons, h'] using ih

/-- The other files keep their values. -/
theorem get?_put_of_ne (m : FileMap α) {file other : Path} (a : α) (h : other ≠ file) :
    (m.put file a).get? other = m.get? other := by
  induction m with
  | nil =>
    have h' : (other == file) = false := by simp [h]
    simp [put, get?, List.lookup_cons, h']
  | cons entry rest ih =>
    obtain ⟨f, b⟩ := entry
    by_cases hf : f = file
    · have h' : (other == file) = false := by simp [h]
      simp [put, get?, hf, List.lookup_cons, h']
    · simp only [put, get?, hf, if_false, List.lookup_cons]
      cases other == f
      · exact ih
      · rfl

/-- The files that have a value are those that are listed. -/
theorem mem_files_iff (m : FileMap α) (file : Path) : file ∈ m.files ↔ (m.get? file).isSome := by
  induction m with
  | nil => simp [files, get?]
  | cons entry rest ih =>
    obtain ⟨f, a⟩ := entry
    unfold files get? at ih ⊢
    rw [List.map_cons, List.mem_cons, ih, List.lookup_cons]
    by_cases h : file = f
    · simp [h]
    · have h' : (file == f) = false := by simp [h]
      simp [h, h']

/-- A file that has a value keeps its place, another one comes last. -/
theorem files_put (m : FileMap α) (file : Path) (a : α) :
    (m.put file a).files = if file ∈ m.files then m.files else m.files ++ [file] := by
  induction m with
  | nil => simp [put, files]
  | cons entry rest ih =>
    obtain ⟨f, b⟩ := entry
    by_cases hf : f = file
    · simp [put, files, hf]
    · have hput : (put ((f, b) :: rest) file a).files = f :: (put rest file a).files := by
        simp [put, files, hf]
      have hcons : files ((f, b) :: rest) = f :: files rest := rfl
      rw [hput, ih, hcons]
      by_cases hmem : file ∈ files rest <;> simp [hmem, Ne.symm hf]

/-- No file comes in twice. -/
theorem nodup_put {m : FileMap α} (h : m.files.Nodup) (file : Path) (a : α) :
    (m.put file a).files.Nodup := by
  rw [files_put]
  split
  · exact h
  next hmem =>
    refine List.nodup_append.2 ⟨h, by simp, fun f hf g hg => ?_⟩
    obtain rfl := List.mem_singleton.1 hg
    rintro rfl
    exact hmem hf

/-- The other files keep their order. -/
theorem files_erase (m : FileMap α) (file : Path) :
    (m.erase file).files = m.files.filter (· ≠ file) := by
  simp [erase, files, List.filter_map, Function.comp_def]

/-- A file that was erased has no value, and the others keep theirs. -/
theorem get?_erase (m : FileMap α) (file other : Path) :
    (m.erase file).get? other = if other = file then none else m.get? other := by
  induction m with
  | nil => simp [erase, get?]
  | cons entry rest ih =>
    obtain ⟨f, a⟩ := entry
    unfold erase get? at ih ⊢
    by_cases hf : f = file
    · subst hf
      rw [List.filter_cons_of_neg (by simp), ih, List.lookup_cons]
      by_cases ho : other = f
      · simp [ho]
      · have h' : (other == f) = false := by simp [ho]
        simp [ho, h']
    · rw [List.filter_cons_of_pos (by simp [hf]), List.lookup_cons, List.lookup_cons, ih]
      by_cases ho : other = f
      · simp [ho, hf]
      · have h' : (other == f) = false := by simp [ho]
        simp [h']

end FileMap

end LintBridge
