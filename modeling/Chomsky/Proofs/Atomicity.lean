import Chomsky.CommandLine.Run
import Chomsky.Proofs.Files

/-!
# Runs That Fail and Runs That Do Not

A run of the program either does what it was asked to do or does nothing.

The steps of a run come in an order that allows this. The arguments are read, then
the source, then the grammar is converted, and only when all that has gone well is
anything shown or written. Opening the output is the last thing that can go wrong.
So `run_cases` has one case for all the failures, in which nothing has happened,
one for a run that was asked to tell something, and one for a run that came to the
end of a conversion.

In the last case at most one file has changed. It is the one that the output
names, and the others are as they were. That may be the file the grammar was read
from: it had been read before, and what is written is the document of the grammar
that was in it.

## Theorems

* `run_cases`: All that a run can come to.
* `code_eq_zero_iff`: The exit code tells failures apart from the rest.
* `run_atomic`: What a run leaves behind.
-/

namespace Chomsky

section

variable (args : List String) (s : Surroundings) (notice : Request → String)

/-- A run fails with nothing shown and nothing written, or it tells what it was asked
    for, or it has read and converted a grammar, and has shown or written what comes
    of it. -/
theorem run_cases :
    (∃ f, (run args s notice).failure = some f ∧ (run args s notice).output = "" ∧
      (run args s notice).directory = s.directory) ∨
    (∃ r, Command.parse args = .ok (.tell r) ∧ (run args s notice).failure = none ∧
      (run args s notice).output = notice r ∧ (run args s notice).directory = s.directory) ∨
    ∃ a source c, Command.parse args = .ok (.convert a) ∧
      (a.source s).bind decodeBytes = .ok source ∧ convert a.options source = .ok c ∧
      (run args s notice).failure = none ∧
      ((∃ text, product a c = .shown text ∧ (run args s notice).output = text ∧
          (run args s notice).directory = s.directory) ∨
        ∃ path text, product a c = .written path text ∧ (run args s notice).output = "" ∧
          s.directory.write path text.toUTF8 = .ok (run args s notice).directory) := by
  unfold run
  cases hargs : Command.parse args with
  | error e => exact Or.inl ⟨.usage e, rfl, rfl, rfl⟩
  | ok command =>
      cases command with
      | tell r => exact Or.inr (Or.inl ⟨r, rfl, rfl, rfl, rfl⟩)
      | convert a =>
          cases hsource : (a.source s).bind decodeBytes with
          | error e =>
              refine Or.inl ⟨a.sourceFailure e, ?_⟩
              simp only [answer, hsource, and_self]
          | ok source =>
              cases hconvert : convert a.options source with
              | error e =>
                  refine Or.inl ⟨.conversion e, ?_⟩
                  simp only [answer, hsource, hconvert, and_self]
              | ok c =>
                  cases hproduct : product a c with
                  | shown text =>
                      refine Or.inr (Or.inr ⟨a, source, c, rfl, hsource, hconvert, ?_⟩)
                      simp only [answer, hsource, hconvert, hproduct, true_and]
                      exact Or.inl ⟨text, rfl, rfl, trivial⟩
                  | written path text =>
                      -- Opening the output is the last thing that can fail.
                      cases hwrite : s.directory.write path text.toUTF8 with
                      | error e =>
                          refine Or.inl ⟨.unwritable path e, ?_⟩
                          simp only [answer, hsource, hconvert, hproduct, hwrite, and_self]
                      | ok after =>
                          refine Or.inr (Or.inr ⟨a, source, c, rfl, hsource, hconvert, ?_⟩)
                          simp only [answer, hsource, hconvert, hproduct, hwrite, true_and]
                          exact Or.inr ⟨path, text, rfl, hwrite⟩

end

theorem Failure.code_ne_zero (f : Failure) : f.code ≠ 0 := by
  cases f <;> simp [Failure.code]

theorem code_eq_zero_iff (r : RunResult) : r.code = 0 ↔ r.failure = none := by
  unfold RunResult.code
  cases hf : r.failure with
  | none => simp
  | some f => simp [f.code_ne_zero]

/-- What a successful run does is shown unless a file is named to hold it. -/
theorem product_eq_written_iff (a : Arguments) (c : Conversion) (path text : String) :
    product a c = .written path text ↔
      a.output = some path ∧ path ≠ "-" ∧ text = c.document a.steps := by
  unfold product
  cases ha : a.output with
  | none => simp
  | some named =>
      by_cases hdash : named = "-"
      · subst hdash
        simp only [if_true, reduceCtorEq, false_iff, not_and]
        rintro hpath hne _
        exact hne (Option.some.inj hpath).symm
      · simp only [if_neg hdash, Product.written.injEq, Option.some.injEq]
        constructor
        · rintro ⟨rfl, rfl⟩
          exact ⟨rfl, hdash, rfl⟩
        · rintro ⟨rfl, _, rfl⟩
          exact ⟨rfl, rfl⟩

/-- A run with a non-zero exit code shows nothing and leaves all files as they were.
    One with exit code zero was asked to tell something, and has changed no file, or
    it has converted the grammar that its source held at first. Unless its output
    names a file, all files are as they were, and if it does, that file holds the
    document of the conversion and the others are as they were. -/
theorem run_atomic (args : List String) (s : Surroundings) (notice : Request → String) :
    ((run args s notice).code ≠ 0 →
      (run args s notice).output = "" ∧ (run args s notice).directory = s.directory) ∧
    ((run args s notice).code = 0 →
      (∃ r, Command.parse args = .ok (.tell r) ∧ (run args s notice).output = notice r ∧
        (run args s notice).directory = s.directory) ∨
      ∃ a source c, Command.parse args = .ok (.convert a) ∧
        (a.source s).bind decodeBytes = .ok source ∧ convert a.options source = .ok c ∧
        ((a.output = none ∨ a.output = some "-") →
          (run args s notice).directory = s.directory) ∧
        ∀ path, a.output = some path → path ≠ "-" →
          ∃ here name, s.directory.resolve path = .ok (.entry here name false) ∧
            (run args s notice).directory.files.lookup (here ++ [name]) =
              some (c.document a.steps).toUTF8 ∧
            (s.directory.refusal .read (here ++ [name]) = none →
              (run args s notice).directory.read path = .ok (c.document a.steps).toUTF8) ∧
            (run args s notice).directory.refusal = s.directory.refusal ∧
            ∀ way, way ≠ here ++ [name] →
              (run args s notice).directory.files.lookup way = s.directory.files.lookup way) := by
  rcases run_cases args s notice with ⟨f, hf, houtput, hdir⟩ |
    ⟨r, hargs, hnone, houtput, hdir⟩ | ⟨a, source, c, hargs, hsource, hconvert, hnone, hproduct⟩
  · refine ⟨fun _ => ⟨houtput, hdir⟩, fun hcode => ?_⟩
    rw [code_eq_zero_iff, hf] at hcode
    exact absurd hcode (by simp only [reduceCtorEq, not_false_eq_true])
  · refine ⟨fun hcode => absurd ((code_eq_zero_iff _).mpr hnone) hcode, fun _ => ?_⟩
    exact Or.inl ⟨r, hargs, houtput, hdir⟩
  · refine ⟨fun hcode => absurd ((code_eq_zero_iff _).mpr hnone) hcode, fun _ => ?_⟩
    refine Or.inr ⟨a, source, c, hargs, hsource, hconvert, ?_, fun path hpath hdash => ?_⟩
    · intro hshown
      rcases hproduct with ⟨_, _, _, hdir⟩ | ⟨path, text, hwritten, _, _⟩
      · exact hdir
      · rcases (product_eq_written_iff a c path text).mp hwritten with ⟨hpath, hdash, _⟩
        rcases hshown with hnone | hsome
        · exact absurd (hnone.symm.trans hpath) (by simp only [reduceCtorEq, not_false_eq_true])
        · exact absurd (Option.some.inj (hpath.symm.trans hsome)) hdash
    · have hnamed := (product_eq_written_iff a c path _).mpr ⟨hpath, hdash, rfl⟩
      rw [hnamed] at hproduct
      rcases hproduct with ⟨_, hshown, _⟩ | ⟨_, _, hwritten, _, hwrite⟩
      · exact absurd hshown (by simp only [reduceCtorEq, not_false_eq_true])
      · rcases Product.written.inj hwritten with ⟨rfl, rfl⟩
        exact Directory.read_write s.directory _ path _ hwrite

/-- Two grammar files, of which `g` has a body with two nullable symbols. Nobody may
    write to `h`. -/
def twoFiles : Surroundings where
  input := "".toUTF8
  directory :=
    { Directory.ofFiles [("g", "S -> AaA\nA -> b | ε".toUTF8), ("h", "S -> a".toUTF8)] with
      refusal := fun access way =>
        if access = .write ∧ way = ["h"] then some "Permission denied (os error 13)" else none }
  level := none

/-- The file `g` gives way to the document of its own grammar, unless two nullable
    symbols are too many. The file `h` cannot be written. A request changes nothing,
    and the second file behind it is never seen. -/
theorem run_twoFiles :
    (run ["g", "-o", "./g"] twoFiles).code = 0 ∧
    (∃ c source, decodeBytes "S -> AaA\nA -> b | ε".toUTF8 = .ok source ∧
      convert {} source = .ok c ∧
      (run ["g", "-o", "./g"] twoFiles).directory.read "./g" = .ok (c.document false).toUTF8 ∧
      (run ["g", "-o", "./g"] twoFiles).directory.files.lookup ["h"] = some "S -> a".toUTF8) ∧
    (run ["g", "-o", "./g", "--max-nullable", "1"] twoFiles).code ≠ 0 ∧
    (run ["g", "-o", "./g", "--max-nullable", "1"] twoFiles).output = "" ∧
    (run ["g", "-o", "./g", "--max-nullable", "1"] twoFiles).directory = twoFiles.directory ∧
    (run ["g", "-o", "h"] twoFiles).code ≠ 0 ∧
    (run ["g", "-o", "h"] twoFiles).directory = twoFiles.directory ∧
    (run ["g", "-vh", "h"] twoFiles Request.name).code = 0 ∧
    (run ["g", "-vh", "h"] twoFiles Request.name).output = "-h" ∧
    (run ["g", "-vh", "h"] twoFiles Request.name).directory = twoFiles.directory := by
  have hcode : (run ["g", "-o", "./g"] twoFiles).code = 0 := by decide +kernel
  have hfail : (run ["g", "-o", "./g", "--max-nullable", "1"] twoFiles).code ≠ 0 := by
    decide +kernel
  have hrefused : (run ["g", "-o", "h"] twoFiles).code ≠ 0 := by decide +kernel
  have htold : (run ["g", "-vh", "h"] twoFiles Request.name).code = 0 := rfl
  refine ⟨hcode, ?_, hfail, ((run_atomic _ _ _).1 hfail).1, ((run_atomic _ _ _).1 hfail).2,
    hrefused, ((run_atomic _ _ _).1 hrefused).2, htold, ?_⟩
  · have hparse : Command.parse ["g", "-o", "./g"] =
        .ok (.convert { file := some "g", output := some "./g" }) := rfl
    rcases (run_atomic _ _ _).2 hcode with ⟨r, hargs, _⟩ |
      ⟨a, source, c, hargs, hsource, hconvert, _, hwritten⟩
    · exact Command.noConfusion (Except.ok.inj (hargs.symm.trans hparse))
    · have ha : a = { file := some "g", output := some "./g" } :=
        Command.convert.inj (Except.ok.inj (hargs.symm.trans hparse))
      subst ha
      rcases hwritten "./g" rfl (by decide) with ⟨here, name, hpath, _, hread, _, hother⟩
      have hresolve : twoFiles.directory.resolve "./g" = .ok (.entry [] "g" false) := rfl
      rcases Target.entry.inj (Except.ok.inj (hpath.symm.trans hresolve)) with ⟨rfl, rfl, _⟩
      exact ⟨c, source, hsource, hconvert, hread rfl, hother ["h"] (by decide)⟩
  · have hparse : Command.parse ["g", "-vh", "h"] = .ok (.tell .summary) := rfl
    rcases (run_atomic _ _ _).2 htold with ⟨r, hargs, houtput, hdir⟩ | ⟨a, _, _, hargs, _⟩
    · have hr : r = .summary := Command.tell.inj (Except.ok.inj (hargs.symm.trans hparse))
      subst hr
      exact ⟨houtput, hdir⟩
    · exact Command.noConfusion (Except.ok.inj (hargs.symm.trans hparse))

end Chomsky
