import SelectionPlan.Output.Writers
import Mathlib.Data.List.Basic

/-!
# Where files are put

A path that is put together from names is resolved name by name.  Writing a file changes this file
and no other.
-/

namespace SelectionPlan

/-! ### Paths -/

/-- A name that stands for itself on a path. -/
structure IsPathName (name : String) : Prop where
  ne_empty : name ≠ ""
  ne_here : name ≠ "."
  ne_up : name ≠ ".."
  noSlash : '/' ∉ name.toList

def resolveStep (done : List String) (part : String) : List String :=
  if part = "" ∨ part = "." then done
  else if part = ".." then done.dropLast
  else done ++ [part]

theorem resolveStep_name {name : String} (h : IsPathName name) (done : List String) :
    resolveStep done name = done ++ [name] := by
  simp [resolveStep, h.ne_empty, h.ne_here, h.ne_up]

theorem resolvePath_eq_foldl (path : String) : resolvePath path =
    ((splitOnChar '/' path.toList).map String.ofList).foldl resolveStep [] := rfl

private theorem resolvePath_append (base : List Char) {part : String}
    (hpart : '/' ∉ part.toList) :
    resolvePath (String.ofList (base ++ '/' :: part.toList)) =
      resolveStep (resolvePath (String.ofList base)) part := by
  rw [resolvePath_eq_foldl, resolvePath_eq_foldl, String.toList_ofList, String.toList_ofList,
    splitOnChar_append, splitOnChar_of_not_mem hpart, List.map_append, List.foldl_append,
    List.map_singleton, String.ofList_toList]
  rfl

theorem resolvePath_joinPath (base : String) {part : String} (hpart : '/' ∉ part.toList) :
    resolvePath (joinPath base part) = resolveStep (resolvePath base) part := by
  have hrelative : part.toList.head? ≠ some '/' := fun h => hpart (List.mem_of_head? h)
  rw [joinPath, if_neg hrelative]
  split
  · rename_i hempty
    subst hempty
    rw [resolvePath_eq_foldl, splitOnChar_of_not_mem hpart, List.map_singleton,
      String.ofList_toList]
    rfl
  · split
    · rename_i hslash
      obtain ⟨front, hfront⟩ := List.getLast?_eq_some_iff.mp hslash
      have hbase : base = String.ofList (front ++ '/' :: "".toList) := by
        rw [← String.ofList_toList (s := base), hfront]
        rfl
      -- The empty part behind the last slash leads nowhere.
      have hsame : resolvePath base = resolvePath (String.ofList front) := by
        rw [hbase, resolvePath_append front (by simp)]
        rfl
      rw [hsame, ← resolvePath_append front hpart, hbase]
      congr 1
      rw [← String.ofList_toList (s := _ ++ _)]
      simp
    · rw [← String.ofList_toList (s := base), ← resolvePath_append base.toList hpart]
      congr 1
      rw [← String.ofList_toList (s := _ ++ _)]
      simp

/-! ### Files -/

theorem lookupKey_filter {α β : Type} [DecidableEq α] [BEq α] [LawfulBEq α] {k q : α} (h : k ≠ q)
    (m : List (α × β)) : lookupKey k (m.filter fun (p, _) => p != q) = lookupKey k m := by
  induction m with
  | nil => rfl
  | cons entry m ih =>
      obtain ⟨p, v⟩ := entry
      by_cases hq : p = q
      · subst hq
        rw [List.filter_cons_of_neg (by simp), ih, lookupKey, if_neg (Ne.symm h)]
      · rw [List.filter_cons_of_pos (by simp [hq]), lookupKey, lookupKey, ih]

namespace FileTree

theorem makeDirectory_files {t t' : FileTree} {path : List String}
    (h : t.makeDirectory path = .ok t') : t'.files = t.files := by
  simp only [makeDirectory] at h
  split at h
  · cases h
  · split at h
    · cases h
    · split at h
      · cases h
      · cases h
        rfl

theorem putFile_files {t t' : FileTree} {path : List String} {content : String}
    (h : t.putFile path content = .ok t') :
    t'.files = (path, content) :: t.files.filter fun (p, _) => p != path := by
  simp only [putFile] at h
  split at h
  · cases h
  · split at h
    · cases h
    · cases h
      rfl

/-- A file is written, with its content in front, or the files are left as they are. -/
theorem writeFile_cases (t : FileTree) (path : List String) (content : String) :
    (∃ fault t', t.writeFile path content = (.error fault, t') ∧ t'.files = t.files) ∨
      ∃ t', t.writeFile path content = (.ok (), t') ∧
        t'.files = (path, content) :: t.files.filter fun (p, _) => p != path := by
  cases hmake : t.makeDirectory path.dropLast with
  | error fault =>
      refine .inl ⟨fault, t, ?_, rfl⟩
      rw [writeFile, hmake]
  | ok made =>
      have hmade := makeDirectory_files hmake
      cases hput : made.putFile path content with
      | error fault =>
          refine .inl ⟨fault, made, ?_, hmade⟩
          simp only [writeFile, hmake, hput]
      | ok written =>
          refine .inr ⟨written, ?_, by rw [putFile_files hput, hmade]⟩
          simp only [writeFile, hmake, hput]

theorem writeFile_other {path p : List String} (h : p ≠ path) (t : FileTree) (content : String) :
    (t.writeFile path content).2.file? p = t.file? p := by
  rcases t.writeFile_cases path content with ⟨fault, t', hwrite, hfiles⟩ | ⟨t', hwrite, hfiles⟩
  · rw [hwrite, file?, hfiles, file?]
  · rw [hwrite, file?, hfiles, lookupKey, if_neg (Ne.symm h), lookupKey_filter h, file?]

theorem writeFile_ok {t : FileTree} {path : List String} {content : String}
    (h : (t.writeFile path content).1 = .ok ()) :
    (t.writeFile path content).2.file? path = some content := by
  rcases t.writeFile_cases path content with ⟨fault, t', hwrite, -⟩ | ⟨t', hwrite, hfiles⟩
  · rw [hwrite] at h
    cases h
  · rw [hwrite, file?, hfiles, lookupKey, if_pos rfl]

end FileTree
end SelectionPlan
