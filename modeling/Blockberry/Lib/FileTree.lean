import Mathlib.Data.Finmap

/-!
# Directories of files

The contents of files by directory and name. A directory is there as long as it has a
file, and is removed with all of them.
-/

namespace FileTree

open Multiset

variable {δ ν β : Type} [DecidableEq δ]

/-- The directories that have a file. -/
def directories (files : Finmap fun _ : δ × ν => β) : Finset δ := files.keys.image Prod.fst

theorem mem_directories {files : Finmap fun _ : δ × ν => β} {dir : δ} :
    dir ∈ directories files ↔ ∃ name, (dir, name) ∈ files := by
  constructor
  · intro member
    obtain ⟨⟨found, name⟩, isKey, rfl⟩ := Finset.mem_image.mp member
    exact ⟨name, Finmap.mem_keys.mp isKey⟩
  · rintro ⟨name, present⟩
    exact Finset.mem_image.mpr ⟨(dir, name), Finmap.mem_keys.mpr present, rfl⟩

variable [DecidableEq ν]

/-- The files of all other directories. -/
def removeAll (files : Finmap fun _ : δ × ν => β) (dir : δ) : Finmap fun _ : δ × ν => β where
  entries := files.entries.filter fun entry => entry.1.1 ≠ dir
  nodupKeys := by
    rw [← nodup_keys]
    exact nodup_of_le (map_le_map (filter_le _ _))
      (nodup_keys.mpr files.nodupKeys)

theorem lookup_removeAll (files : Finmap fun _ : δ × ν => β) (dir : δ) (key : δ × ν) :
    (removeAll files dir).lookup key = if key.1 = dir then none else files.lookup key := by
  apply Option.ext
  intro contents
  rw [Finmap.lookup_eq_some_iff, removeAll, mem_filter]
  split
  next same => simp [same]
  next other => simp [other, Finmap.lookup_eq_some_iff]

end FileTree
