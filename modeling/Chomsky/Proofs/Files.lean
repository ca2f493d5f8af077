import Chomsky.CommandLine.Directory

/-!
# Reading After Writing

What writing one file does to a directory.

A file is known by its way, so at the level of ways a write is an update of one
entry. A path is another matter, because the files decide where it leads: every
name but the last has to be that of a directory, and must not be that of a file.
A write adds a file, and with it perhaps an obstacle.

It never gets in the way of a path that led somewhere before. The way of the
written file was not one of a directory, or the write would have been refused, so
no path goes through it. And all directories are still there, since no file is
removed. What the system permits has not changed either. A path therefore leads
where it led, and the path that was written is read as what was written there, by
whoever may read it.

## Theorems

* `lookup_setFile`: The files after one of them was set.
* `of_write`: What a write did that was not refused.
* `isDirectory_withFile`: Setting a file keeps the directories.
* `resolve_withFile`: A path leads where it led.
* `read_write`: What was written is read.
-/

namespace Chomsky

namespace Directory

@[simp] theorem lookup_setFile (way other : Way) (bytes : ByteArray)
    (files : List (Way × ByteArray)) : (setFile way bytes files).lookup other =
      if other = way then some bytes else files.lookup other := by
  induction files with
  | nil =>
      by_cases h : other = way
      · simp [setFile, h]
      · simp [setFile, h, List.lookup_cons, beq_false_of_ne h]
  | cons f rest ih =>
      rcases f with ⟨first, held⟩
      by_cases hfirst : first = way
      · subst hfirst
        by_cases h : other = first
        · simp [setFile, h]
        · simp [setFile, h, List.lookup_cons, beq_false_of_ne h]
      · by_cases h : other = first
        · subst h
          simp [setFile, hfirst]
        · simp only [setFile, hfirst, if_false, List.lookup_cons, beq_false_of_ne h, ih]

/-- No file is removed. -/
theorem exists_mem_setFile (way : Way) (bytes : ByteArray) (files : List (Way × ByteArray))
    (f : Way × ByteArray) (hf : f ∈ files) : ∃ g ∈ setFile way bytes files, g.1 = f.1 := by
  induction files with
  | nil => exact absurd hf List.not_mem_nil
  | cons first rest ih =>
      unfold setFile
      by_cases hfirst : first.1 = way
      · rw [if_pos hfirst]
        rcases List.mem_cons.mp hf with rfl | hf
        · exact ⟨_, List.mem_cons_self, hfirst.symm⟩
        · exact ⟨f, List.mem_cons_of_mem _ hf, rfl⟩
      · rw [if_neg hfirst]
        rcases List.mem_cons.mp hf with rfl | hf
        · exact ⟨_, List.mem_cons_self, rfl⟩
        · rcases ih hf with ⟨g, hg, hgf⟩
          exact ⟨g, List.mem_cons_of_mem _ hg, hgf⟩

@[simp] theorem files_withFile (d : Directory) (way : Way) (bytes : ByteArray) :
    (d.withFile way bytes).files = setFile way bytes d.files := rfl

@[simp] theorem refusal_withFile (d : Directory) (way : Way) (bytes : ByteArray) :
    (d.withFile way bytes).refusal = d.refusal := rfl

/-- What is permitted does not depend on the files. -/
@[simp] theorem allow_withFile (d : Directory) (way : Way) (bytes : ByteArray) :
    (d.withFile way bytes).allow = d.allow := rfl

theorem allow_of_refusal_eq_none (d : Directory) (access : Access) (way : Way)
    (h : d.refusal access way = none) : d.allow access way = .ok () := by
  rw [allow, h]

/-- A write that is not refused sets the file at the end of its path, which was not
    a directory. -/
theorem of_write (d after : Directory) (path : String) (bytes : ByteArray)
    (h : d.write path bytes = .ok after) :
    ∃ here name, d.resolve path = .ok (.entry here name false) ∧
      name.utf8ByteSize ≤ nameLimit ∧ d.isDirectory (here ++ [name]) = false ∧
      after = d.withFile (here ++ [name]) bytes := by
  unfold write at h
  split at h
  · exact absurd h (by simp only [reduceCtorEq, not_false_eq_true])
  · exact absurd h (by simp only [reduceCtorEq, not_false_eq_true])
  · next here name slashed hpath =>
      -- Each of the four checks has been passed.
      cases hslash : slashed with
      | true => simp [hslash] at h
      | false =>
          by_cases hname : nameLimit < name.utf8ByteSize
          · simp [hslash, hname] at h
          · cases hdir : d.isDirectory (here ++ [name]) with
            | true => simp [hslash, hname, hdir] at h
            | false =>
                simp only [hslash, hname, hdir, if_false, Bool.false_eq_true] at h
                split at h
                · exact absurd h (by simp only [reduceCtorEq, not_false_eq_true])
                · exact ⟨here, name, hslash ▸ hpath, by omega, hdir, (Except.ok.inj h).symm⟩

section

variable (d : Directory) (way : Way) (bytes : ByteArray)

theorem isDirectory_withFile (other : Way) (h : d.isDirectory other = true) :
    (d.withFile way bytes).isDirectory other = true := by
  simp only [isDirectory, files_withFile, Bool.or_eq_true, List.any_eq_true] at h ⊢
  rcases h with h | ⟨f, hf, hbelow⟩
  · exact Or.inl h
  · rcases exists_mem_setFile way bytes d.files f hf with ⟨g, hg, hgf⟩
    exact Or.inr ⟨g, hg, by rw [hgf]; exact hbelow⟩

theorem isFile_withFile (other : Way) (h : other ≠ way) :
    (d.withFile way bytes).isFile other = d.isFile other := by
  simp [isFile, h]

variable (hway : d.isDirectory way = false)
include hway

/-- A step into a directory is still one. The name cannot be that of the new file,
    which would then have replaced a directory. -/
theorem enter_withFile (here next : Way) (name : String) (h : d.enter here name = .ok next) :
    (d.withFile way bytes).enter here name = .ok next := by
  unfold enter at h ⊢
  rw [allow_withFile]
  cases hpass : d.allow .pass here with
  | error e => simp [hpass] at h
  | ok _ =>
      simp only [hpass] at h ⊢
      by_cases hdot : name = "."
      · simpa [hdot] using h
      · by_cases hdots : name = ".."
        · simpa [hdots] using h
        · by_cases hlong : nameLimit < name.utf8ByteSize
          · simp [hdot, hdots, hlong] at h
          · cases hfile : d.isFile (here ++ [name]) with
            | true => simp [hdot, hdots, hlong, hfile] at h
            | false =>
                cases hdir : d.isDirectory (here ++ [name]) with
                | false => simp [hdot, hdots, hlong, hfile, hdir] at h
                | true =>
                    have hne : here ++ [name] ≠ way := fun e => by
                      rw [e, hway] at hdir
                      exact absurd hdir Bool.false_ne_true
                    simp only [hdot, hdots, hlong, hfile, hdir, if_false, if_true,
                      Bool.false_eq_true] at h
                    simp only [hdot, hdots, hlong, isFile_withFile d way bytes _ hne, hfile,
                      isDirectory_withFile d way bytes _ hdir, if_false, if_true,
                      Bool.false_eq_true, h]

theorem foldlM_enter_withFile (names : List String) (here there : Way)
    (h : names.foldlM d.enter here = .ok there) :
    names.foldlM (d.withFile way bytes).enter here = .ok there := by
  induction names generalizing here with
  | nil => exact h
  | cons name rest ih =>
      rw [List.foldlM_cons] at h ⊢
      cases hstep : d.enter here name with
      | error e =>
          rw [hstep] at h
          exact absurd h (by simp only [bind, Except.bind, reduceCtorEq, not_false_eq_true])
      | ok next =>
          rw [hstep] at h
          rw [enter_withFile d way bytes hway here next name hstep]
          exact ih next h

/-- A path leads where it led before the file was set. -/
theorem resolve_withFile (path : String) (target : Target) (h : d.resolve path = .ok target) :
    (d.withFile way bytes).resolve path = .ok target := by
  unfold resolve at h ⊢
  by_cases hempty : path = ""
  · simp [hempty] at h
  · by_cases hlong : pathLimit < path.utf8ByteSize
    · simp [hempty, hlong] at h
    · simp only [hempty, hlong, if_false] at h ⊢
      cases hlast : (pathNames path).getLast? with
      | none => simpa only [hlast] using h
      | some name =>
          simp only [hlast] at h ⊢
          -- The names in front of the last one lead where they led.
          generalize (if path.toList.head? = some '/' then ["/"] else [] : Way) = start at h ⊢
          cases hwalk : (pathNames path).dropLast.foldlM d.enter start with
          | error e =>
              rw [hwalk] at h
              exact absurd h (by simp only [reduceCtorEq, not_false_eq_true])
          | ok here =>
              rw [hwalk] at h
              rw [foldlM_enter_withFile d way bytes hway _ start here hwalk]
              exact h

end

/-- What was written at a path is there, and is read there unless reading it is
    refused. No other file has changed, and nothing that is permitted. -/
theorem read_write (d after : Directory) (path : String) (bytes : ByteArray)
    (h : d.write path bytes = .ok after) :
    ∃ here name, d.resolve path = .ok (.entry here name false) ∧
      after.files.lookup (here ++ [name]) = some bytes ∧
      (d.refusal .read (here ++ [name]) = none → after.read path = .ok bytes) ∧
      after.refusal = d.refusal ∧
      ∀ way, way ≠ here ++ [name] → after.files.lookup way = d.files.lookup way := by
  rcases of_write d after path bytes h with ⟨here, name, hpath, hname, hdir, rfl⟩
  have hshort : ¬ nameLimit < name.utf8ByteSize := by omega
  refine ⟨here, name, hpath, ?_, fun hreadable => ?_, rfl, fun way hway => ?_⟩
  · simp
  · simp [read, resolve_withFile d _ bytes hdir path _ hpath, hshort,
      d.allow_of_refusal_eq_none _ _ hreadable]
  · simp [hway]

end Directory

end Chomsky
