import Typings.Files.Basic
/-!
# Writing to a path

A file that is written stands where the path leads, with the bytes that were written, and no other file is
changed.  To follow the path again gives the same place, since the directories on the way are still there.

* `FileSystem.Reaches fs p at`   a path leads to segments where a file is or may be;
* `FileSystem.write_eq`          such a path can be written to;
* `FileSystem.entry_put`         what was written stands at the path;
* `FileSystem.lookup_put_ne`     the other files are as before.
-/

namespace Typings.FileSystem

/-! ## Files at segments -/

section
variable (fs : FileSystem) (place : List Text) (bytes : List UInt8)

theorem lookup_put_self : (fs.put place bytes).files.lookup place = some bytes := List.lookup_cons_self

/-- a file at other segments is as before -/
theorem lookup_put_ne {other : List Text} (ne : other ≠ place) :
    (fs.put place bytes).files.lookup other = fs.files.lookup other := by
  have here : (other == place) = false := beq_eq_false_iff_ne.mpr ne
  rw [put, List.lookup_cons, here]
  show List.lookup other (fs.files.filter fun f => f.1 ≠ place) = _
  induction fs.files with
  | nil => rfl
  | cons f files ih =>
    obtain ⟨segments, content⟩ := f
    by_cases written : segments = place
    · subst written
      rw [List.filter_cons_of_neg (by simp), List.lookup_cons, here]
      exact ih
    · rw [List.filter_cons_of_pos (by simpa using written), List.lookup_cons, List.lookup_cons, ih]

/-- a directory stays one -/
theorem isDirectory_put {other : List Text} (h : fs.isDirectory other = true) :
    (fs.put place bytes).isDirectory other = true := by
  rw [isDirectory, Bool.or_eq_true, List.any_eq_true] at h ⊢
  refine h.imp_right ?_
  rintro ⟨f, mem, below⟩
  by_cases written : f.1 = place
  · exact ⟨(place, bytes), List.mem_cons_self, written ▸ below⟩
  · exact ⟨f, List.mem_cons_of_mem _ (List.mem_filter.mpr ⟨mem, by simpa using written⟩), below⟩

theorem put_put (last : List UInt8) : (fs.put place bytes).put place last = fs.put place last := by
  unfold put
  rw [List.filter_cons_of_neg (by simp), List.filter_filter]
  simp only [Bool.and_self]

end

/-! ## Files at paths -/

/-- there is a file or a place for one -/
def Entry.IsTarget (place : List Text) : Entry → Prop
  | .file segments _ | .free segments => segments = place
  | .directory | .missing | .notDirectory | .nameTooLong => False

/-- the path leads to segments where a file is or may be -/
def Reaches (fs : FileSystem) (p : Path) (place : List Text) : Prop := (fs.entry p).IsTarget place

section
variable {fs : FileSystem} {place : List Text}

theorem not_isTarget_entryOutside (segments : List Text) : ¬ (entryOutside segments).IsTarget place := by
  unfold entryOutside
  split
  · exact id
  · split <;> exact id

/-- where a file is or may be, no directory can be that holds no file -/
theorem lookup_of_isTarget {here segments : List Text} (h : (fs.entryFrom here segments).IsTarget place) :
    fs.files.lookup place ≠ none ∨ fs.isDirectory place = false := by
  fun_induction entryFrom fs here segments with
  | case1 => exact h.elim
  | case2 => exact absurd h (not_isTarget_entryOutside _)
  | case3 _ _ _ ih => exact ih h
  | case4 => exact h.elim
  | case5 here s rest _ _ bytes found last =>
    obtain rfl : here ++ [s] = place := h
    rw [found]
    exact .inl (Option.some_ne_none _)
  | case6 => exact h.elim
  | case7 _ _ _ _ _ _ _ ih => exact ih h
  | case8 here s rest _ _ _ isFree =>
    obtain rfl : here ++ [s] = place := h
    exact .inr (Bool.eq_false_iff.mpr isFree)
  | case9 => exact h.elim

/-- a path leads to what was written at its end -/
theorem entryFrom_put {here segments : List Text} (bytes : List UInt8)
    (h : (fs.entryFrom here segments).IsTarget place) :
    (fs.put place bytes).entryFrom here segments = .file place bytes := by
  have written := lookup_put_self fs place bytes
  fun_induction entryFrom fs here segments with
  | case1 => exact h.elim
  | case2 => exact absurd h (not_isTarget_entryOutside _)
  | case3 here rest inside ih => rw [entryFrom, if_pos rfl, if_neg inside, ih h]
  | case4 => exact h.elim
  | case5 here s rest up short _ _ last =>
    obtain rfl : here ++ [s] = place := h
    rw [entryFrom, if_neg up, if_neg short, written]
    exact if_pos last
  | case6 => exact h.elim
  | case7 here s rest up short none isDir ih =>
    have other : here ++ [s] ≠ place := by
      rintro rfl
      rcases lookup_of_isTarget h with found | noDirectory
      · exact found none
      · rw [isDir] at noDirectory
        cases noDirectory
    have still := isDirectory_put fs place bytes isDir
    rw [entryFrom, if_neg up, if_neg short, lookup_put_ne fs place bytes other, none]
    show (if _ then _ else _) = _
    rw [if_pos still, ih h]
  | case8 here s rest up short _ _ last =>
    obtain rfl : here ++ [s] = place := h
    rw [entryFrom, if_neg up, if_neg short, written]
    exact if_pos last
  | case9 => exact h.elim

/-- what was written stands at the path -/
theorem entry_put {p : Path} (bytes : List UInt8) (h : fs.Reaches p place) :
    (fs.put place bytes).entry p = .file place bytes := by
  unfold Reaches at h
  unfold entry at h ⊢
  by_cases long : pathLimit < p.width
  · rw [if_pos long] at h
    exact h.elim
  · rw [if_neg long] at h ⊢
    by_cases inside : p.root.isEmpty
    · rw [if_pos inside] at h ⊢
      exact entryFrom_put bytes h
    · rw [if_neg inside] at h
      exact absurd h (not_isTarget_entryOutside _)

/-- a path that leads to segments can be written to -/
theorem write_eq {p : Path} (bytes : List UInt8) (h : fs.Reaches p place) :
    fs.write p bytes = .ok (fs.put place bytes) := by
  unfold Reaches at h
  unfold write
  cases entry : fs.entry p with
  | file segments | free segments =>
    rw [entry] at h
    obtain rfl : segments = place := h
    rfl
  | directory | missing | notDirectory | nameTooLong =>
    rw [entry] at h
    exact h.elim

/-- and only such a path can -/
theorem exists_target_of_write {p : Path} {bytes : List UInt8} {files : FileSystem}
    (h : fs.write p bytes = .ok files) : ∃ place, fs.Reaches p place := by
  unfold write at h
  unfold Reaches
  cases entry : fs.entry p with
  | file segments | free segments => exact ⟨segments, rfl⟩
  | directory | missing | notDirectory | nameTooLong =>
    rw [entry] at h
    cases h

end

end Typings.FileSystem
