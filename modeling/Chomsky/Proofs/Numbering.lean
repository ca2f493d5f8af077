import Chomsky.Proofs.Breadth
import Chomsky.Proofs.Decoding
import Chomsky.Proofs.Sourced

/-!
# Numbers of Warnings

A warning counts lines or alternatives, and a source has no more of either than it
has bytes.

In line form a line takes a newline, and an alternative takes a bar, save for the last
line and the first alternative, which take the arrow. In JSON form an alternative is an
item of an array that was read. The alternatives are counted before a later rule for
the same variable replaces them, so the bound is on the entries and not on the rules.

## Main definitions

* `Warning.Below`: The bound for the number in a warning.
* `Entry.Within`: The bound for the line or the alternatives of an entry.

## Theorems

* `within_readSource`: The entries of a source of either form.
* `below_of_convert`, `below_of_convertGrammar`: The warnings of a conversion.
-/

namespace Chomsky

/-- The number in a warning, if there is one, is less than the bound. -/
def Warning.Below (n : Nat) : Warning → Prop
  | emptyAlternative _ index => index < n
  | epsilonDropped _ index => index < n
  | missingLeftHandSide line => line < n
  | unknownStartSymbol _ => True

/-- The line of an entry, or the number of its alternatives, does not exceed the
    bound. -/
def Entry.Within (n : Nat) : Entry → Prop
  | rule _ alternatives => alternatives.length ≤ n
  | nameless line => line ≤ n
  | skipped line => line ≤ n

theorem Warning.below_mono {n k : Nat} (hnk : n ≤ k) (w : Warning) (h : w.Below n) :
    w.Below k := by
  cases w with
  | emptyAlternative lhs index => exact Nat.lt_of_lt_of_le h hnk
  | epsilonDropped lhs index => exact Nat.lt_of_lt_of_le h hnk
  | missingLeftHandSide line => exact Nat.lt_of_lt_of_le h hnk
  | unknownStartSymbol start => trivial

/-- Alternatives are counted from zero and lines from one. -/
theorem Entry.below_of_mem_warnings (n : Nat) (e : Entry) (he : e.Within n) (w : Warning)
    (hw : w ∈ e.warnings) : w.Below (n + 1) := by
  cases e with
  | rule lhs alternatives =>
      rcases List.mem_flatMap.mp hw with ⟨⟨text, index⟩, ha, hw⟩
      have hindex : index < n + 1 :=
        Nat.lt_succ_of_lt (Nat.lt_of_lt_of_le (List.snd_lt_of_mem_zipIdx ha) he)
      -- Both warnings about an alternative have its index.
      unfold alternativeWarnings at hw
      rcases List.mem_append.mp hw with hw | hw
      · split at hw
        · rwa [List.mem_singleton.mp hw]
        · exact absurd hw List.not_mem_nil
      · split at hw
        · rwa [List.mem_singleton.mp hw]
        · exact absurd hw List.not_mem_nil
  | nameless line =>
      rw [List.mem_singleton.mp hw]
      exact Nat.lt_succ_of_le he
  | skipped line => exact absurd hw List.not_mem_nil

/-! ### Line form -/

theorem length_consLine_le (c : Char) (ls : List (List Char)) :
    (consLine c ls).length ≤ ls.length + 1 := by
  cases ls <;> simp [consLine]

theorem length_lines_le (cs : List Char) : (lines cs).length ≤ cs.length := by
  induction cs using lines.induct with
  | case1 => exact Nat.le_refl 0
  | case2 rest ih => exact Nat.succ_le_succ ih
  | case3 rest ih => exact Nat.succ_le_succ (Nat.le_succ_of_le ih)
  | case4 c rest hnewline hreturn ih =>
      rw [lines]
      · exact (length_consLine_le c _).trans (Nat.succ_le_succ ih)
      · exact hnewline
      · exact hreturn

theorem length_le_of_mem_lines (cs line : List Char) (h : line ∈ lines cs) :
    line.length ≤ cs.length := by
  induction cs using lines.induct generalizing line with
  | case1 => exact absurd h List.not_mem_nil
  | case2 rest ih =>
      rcases List.mem_cons.mp h with rfl | h
      · exact Nat.zero_le _
      · exact Nat.le_succ_of_le (ih line h)
  | case3 rest ih =>
      rcases List.mem_cons.mp h with rfl | h
      · exact Nat.zero_le _
      · exact Nat.le_succ_of_le (Nat.le_succ_of_le (ih line h))
  | case4 c rest hnewline hreturn ih =>
      rw [lines] at h
      · cases hrest : lines rest with
        | nil =>
            rw [hrest, consLine, List.mem_singleton] at h
            simp [h]
        | cons first others =>
            rw [hrest, consLine] at h
            rw [hrest] at ih
            rcases List.mem_cons.mp h with rfl | h
            · exact Nat.succ_le_succ (ih first List.mem_cons_self)
            · exact Nat.le_succ_of_le (ih line (List.mem_cons_of_mem first h))
      · exact hnewline
      · exact hreturn

/-- The alternatives of a line are one more than its bars, and it has an arrow. -/
theorem within_lineEntry (n number : Nat) (line : List Char) (e : Entry) (hnumber : number ≤ n)
    (hline : line.length ≤ n) (he : lineEntry number line = some e) : e.Within n := by
  cases hsplit : splitArrow line with
  | none =>
      rw [lineEntry_of_none number line hsplit] at he
      split at he
      · exact absurd he.symm (Option.some_ne_none _)
      · exact Option.some.inj he ▸ hnumber
  | some p =>
      rw [lineEntry_of_some number line p.1 p.2 hsplit] at he
      split at he
      · exact Option.some.inj he ▸ hnumber
      · refine Option.some.inj he ▸ ?_
        have hbars : p.2.count '|' ≤ p.2.length := List.count_le_length
        have hlength := congrArg List.length (eq_append_of_splitArrow line p.1 p.2 hsplit).1
        simp only [List.length_append, List.length_cons] at hlength
        simp only [Entry.Within, List.length_map, length_splitOn]
        omega

theorem within_lineEntries (source : String) (e : Entry) (he : e ∈ lineEntries source) :
    e.Within source.toList.length := by
  rcases List.mem_filterMap.mp he with ⟨⟨line, number⟩, hl, hentry⟩
  have hnumber := List.snd_lt_add_of_mem_zipIdx hl
  have hlines := length_lines_le source.toList
  have hline := length_le_of_mem_lines source.toList line (List.fst_mem_of_mem_zipIdx hl)
  exact within_lineEntry _ number line e (by omega) hline hentry

/-! ### JSON form -/

theorem length_of_mapM {α β : Type} (f : α → Option β) (xs : List α) (ys : List β)
    (h : xs.mapM f = some ys) : ys.length = xs.length := by
  induction xs generalizing ys with
  | nil =>
      rw [← Option.some.inj h]
      rfl
  | cons x rest ih =>
      rw [List.mapM_cons] at h
      rcases Option.bind_eq_some_iff.mp h with ⟨y, _, h⟩
      rcases Option.bind_eq_some_iff.mp h with ⟨zs, hzs, h⟩
      rw [← Option.some.inj h, List.length_cons, List.length_cons, ih zs hzs]

theorem within_memberEntry (n : Nat) (key : String) (value : Json) (e : Entry)
    (hvalue : value.itemCount ≤ n) (he : memberEntry key value = .ok e) : e.Within n := by
  unfold memberEntry at he
  by_cases hkey : (trim key.toList).isEmpty = true
  · rw [if_pos hkey] at he
    cases he
  · rw [if_neg hkey] at he
    cases value with
    | array items =>
        cases hitems : items.mapM Json.string? with
        | none => simp only [hitems, reduceCtorEq] at he
        | some texts =>
            simp only [hitems, Except.ok.injEq] at he
            rw [← he]
            exact (length_of_mapM _ items texts hitems).trans_le hvalue
    | _ => cases he

theorem within_objectEntries (n : Nat) (value : Json) (hvalue : value.Within n) (e : Entry)
    (he : e ∈ (objectEntries value).1) : e.Within n := by
  cases value with
  | object members =>
      rcases exists_of_mem_memberEntries members e he with ⟨m, hm, hentry⟩
      exact within_memberEntry n m.1 m.2 e (hvalue m hm) hentry
  | _ => exact absurd he List.not_mem_nil

/-! ### Sources -/

theorem length_le_length_textBytes (s : String) : s.toList.length ≤ (textBytes s).length := by
  unfold textBytes
  induction s.toList with
  | nil => exact Nat.le_refl 0
  | cons c rest ih =>
      have hc : 0 < (String.utf8EncodeChar c).length := by
        rw [String.length_utf8EncodeChar]
        exact c.utf8Size_pos
      rw [List.flatMap_cons, List.length_append, List.length_cons]
      omega

/-- The entries of a source, those in front of an error included. -/
theorem within_readSource (format : Format) (source : String) (e : Entry)
    (he : e ∈ (readSource format source).entries) : e.Within (textBytes source).length := by
  cases format with
  | text =>
      have hwithin := within_lineEntries source e he
      have hbytes := length_le_length_textBytes source
      cases e with
      | rule lhs alternatives => exact Nat.le_trans hwithin hbytes
      | nameless line => exact Nat.le_trans hwithin hbytes
      | skipped line => exact Nat.le_trans hwithin hbytes
  | json =>
      simp only [readSource, readObject] at he
      cases hread : Json.read (.withoutComments (textBytes source)) with
      | error err =>
          rw [hread] at he
          exact absurd he List.not_mem_nil
      | ok value =>
          rw [hread] at he
          exact within_objectEntries _ value (within_read _ value hread) e he

/-- The numbers in the warnings about a source do not exceed its bytes. -/
theorem below_of_parse (format : Format) (source : String) (p : Parsed)
    (h : parse format source = .ok p) (w : Warning) (hw : w ∈ p.warnings) :
    w.Below ((textBytes source).length + 1) := by
  unfold parse Reading.parsed at h
  split at h
  · exact absurd h (by simp)
  · rw [← Except.ok.inj h] at hw
    rcases List.mem_flatMap.mp hw with ⟨e, he, hwarning⟩
    exact e.below_of_mem_warnings _ (within_readSource format source e he) w hwarning

/-- A conversion warns of nothing but an unknown start symbol beyond what it is given. -/
theorem below_of_runStages (o : Options) (p : Parsed) (c : Conversion)
    (h : runStages o p = .ok c) (n : Nat) (hp : ∀ w ∈ p.warnings, w.Below n) (w : Warning)
    (hw : w ∈ c.warnings) : w.Below n := by
  rw [(exists_convertGrammar_of_runStages o p c h).2] at hw
  rcases List.mem_append.mp hw with hw | hw
  · exact hp w hw
  · unfold startWarnings at hw
    split at hw
    · exact absurd hw List.not_mem_nil
    · rw [List.mem_singleton.mp hw]
      trivial

theorem below_of_convert (o : Options) (source : String) (c : Conversion)
    (h : convert o source = .ok c) (w : Warning) (hw : w ∈ c.warnings) :
    w.Below ((textBytes source).length + 1) := by
  rcases exists_runStages_of_convert o source c h with ⟨p, hp, hrun⟩
  exact below_of_runStages o p c hrun _ (below_of_parse o.format source p hp) w hw

theorem below_of_convertGrammar (o : Options) (g : Grammar) (c : Conversion)
    (h : convertGrammar o g = .ok c) (w : Warning) (hw : w ∈ c.warnings) : w.Below 0 :=
  below_of_runStages o ⟨g, []⟩ c h 0 (fun _ hw => absurd hw List.not_mem_nil) w hw

end Chomsky
