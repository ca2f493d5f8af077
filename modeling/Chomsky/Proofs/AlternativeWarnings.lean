import Chomsky.Proofs.Forms
import Chomsky.Proofs.Redefinition
import Chomsky.Proofs.Sourced
import Mathlib.Data.List.Forall2

/-!
# Warnings About Alternatives

No alternative is silently empty or altered.

The warnings of a source are about its text, alternative by alternative, and the grammar
of a source keeps only the last alternatives of each variable. What connects the two are
the definitions of the source: in the line form the lines with an arrow and a left-hand
side in front of it, in the JSON form the members of the object. They can be told without
reading a single alternative.

An alternative is decomposed in a loop that collects symbols and counts markers. It is
empty exactly if nothing is left of its text after trimming, and a marker is dropped
exactly if the trimmed text holds one and is more than that one. So at most one of the
two warnings is due. An alternative that is overruled by a later definition has had its
warning, too; if none is overruled, the warnings are exactly those that are due, in the
order of the rules and of their alternatives.

## Main definitions

* `Definition`: A left-hand side and the texts of its alternatives.
* `Defines`: The definitions of a source.
* `lastTexts`: The texts that count for a variable.
* `MixesMarker`: A trimmed text holds a marker and is not just one marker.
* `decompose`: The loop over the characters of an alternative.
* `Entry.definition?`: The definition of an entry.
* `Warning.alternative?`: The alternative a warning is about.
* `Definition.noted`: The alternatives of a definition that there are warnings about.
* `Before`: The order of alternatives in a grammar.

## Theorems

* `decompose_eq`: The loop reads an alternative.
* `readAlternative_eq_nil_iff`: Which alternatives are empty.
* `lineDefines_iff`, `memberDefines_iff`: Definitions are the entries that are rules.
* `defines_iff`: The definitions of a source that is accepted.
* `alternatives_ofRules`: The alternatives that count are those of the last definition.
* `mem_warnings_iff`: A warning about an alternative comes from a definition.
* `exists_definition_iff`: Every definition counts if no variable has two.
* `pairwise_alternatives`: The order of the warnings.
* `warnings_of_parse`: The warnings of a source.
-/

namespace Chomsky

/-- A left-hand side and the texts of its alternatives. -/
structure Definition where
  lhs : Variable
  texts : List String
  deriving DecidableEq, Repr

/-- A line defines what stands in front of its first arrow, if anything is left of that
    after trimming, as what stands between the bars behind it. -/
def LineDefines (line : List Char) (d : Definition) : Prop :=
  ∃ lhs rhs, line = lhs ++ '-' :: '>' :: rhs ∧ ¬ ['-', '>'] <:+: lhs ∧ trim lhs ≠ [] ∧
    d.lhs.name.toList = trim lhs ∧ d.texts.map String.toList = rhs.splitOn '|'

/-- The definitions of some lines. -/
inductive LinesDefine : List (List Char) → List Definition → Prop
  | nil : LinesDefine [] []
  | skip (line : List Char) (rest : List (List Char)) (defs : List Definition)
      (hnone : ∀ d, ¬ LineDefines line d) (hrest : LinesDefine rest defs) :
      LinesDefine (line :: rest) defs
  | rule (line : List Char) (d : Definition) (rest : List (List Char)) (defs : List Definition)
      (hline : LineDefines line d) (hrest : LinesDefine rest defs) :
      LinesDefine (line :: rest) (d :: defs)

/-- A member defines its trimmed key as the texts in its array. -/
def MemberDefines (m : String × Json) (d : Definition) : Prop :=
  trim m.1.toList ≠ [] ∧ d.lhs.name.toList = trim m.1.toList ∧ m.2 = .array (d.texts.map .string)

/-- The definitions of a source. -/
def Defines : Format → String → List Definition → Prop
  | .text, source, defs => LinesDefine (lines source.toList) defs
  | .json, source, defs => ∃ members,
      Json.read (.withoutComments (textBytes source)) = .ok (.object members) ∧
        List.Forall₂ MemberDefines members defs

/-- The texts of the last definition of a variable. -/
def lastTexts (defs : List Definition) (v : Variable) : List String :=
  ((defs.reverse.find? fun d => d.lhs == v).map Definition.texts).getD []

/-- A trimmed text holds a marker and is not just one marker. -/
def MixesMarker (text : String) : Prop :=
  epsilonMark ∈ trim text.toList ∧ trim text.toList ≠ [epsilonMark]

/-- One round of the loop over the characters of an alternative, which collects the
    symbols and counts the markers. -/
def decomposeStep (s : Body × Nat) (c : Char) : Body × Nat :=
  if c = epsilonMark then (s.1, s.2 + 1) else (s.1 ++ [Symbol.classify c], s.2)

/-- The body of an alternative as the loop finds it, and whether a marker was dropped. -/
def decompose (text : String) : Body × Bool :=
  let s := (trim text.toList).foldl decomposeStep ([], 0)
  (if s.1.isEmpty && decide (0 < s.2) then [.epsilon] else s.1,
    decide (0 < s.2) && (!s.1.isEmpty || decide (1 < s.2)))

theorem foldl_decomposeStep (cs : List Char) (body : Body) (n : Nat) :
    cs.foldl decomposeStep (body, n) =
      (body ++ (cs.filter (· != epsilonMark)).map Symbol.classify, n + cs.count epsilonMark) := by
  induction cs generalizing body n with
  | nil => rw [List.foldl_nil, List.filter_nil, List.map_nil, List.append_nil, List.count_nil,
      Nat.add_zero]
  | cons c rest ih =>
      -- The accumulators are free, since a round leaves others behind.
      rw [List.foldl_cons, decomposeStep]
      by_cases hc : c = epsilonMark
      · rw [if_pos hc, ih, hc, List.count_cons_self, List.filter_cons_of_neg (by simp),
          Nat.add_assoc, Nat.add_comm 1]
      · have hkept : (c :: rest).filter (· != epsilonMark) = c :: rest.filter (· != epsilonMark) :=
          List.filter_cons_of_pos (bne_iff_ne.mpr hc)
        rw [if_neg hc, ih, List.count_cons_of_ne hc, hkept, List.append_assoc]
        rfl

theorem dropsEpsilon_iff (text : String) : dropsEpsilon text = true ↔ MixesMarker text := by
  rw [dropsEpsilon, Bool.and_eq_true, List.contains_iff_mem, bne_iff_ne, MixesMarker]

theorem eq_of_filter_eq_nil (cs : List Char) (h : cs.filter (· != epsilonMark) = []) :
    ∀ c ∈ cs, epsilonMark = c := by
  intro c hc
  have hgone := List.filter_eq_nil_iff.mp h c hc
  rw [bne_iff_ne, not_not] at hgone
  exact hgone.symm

/-- A text with a marker is that marker if there is no other character and no other
    marker. -/
theorem eq_singleton_iff (cs : List Char) (h : epsilonMark ∈ cs) :
    cs = [epsilonMark] ↔ cs.filter (· != epsilonMark) = [] ∧ cs.count epsilonMark ≤ 1 := by
  constructor
  · rintro rfl
    exact ⟨by simp, by simp⟩
  · intro h
    rcases h with ⟨hfilter, hcount⟩
    -- All characters are markers, so the count of markers is the length.
    have hall := eq_of_filter_eq_nil cs hfilter
    rw [List.count_eq_length.mpr hall] at hcount
    rcases List.length_eq_one_iff.mp (Nat.le_antisymm hcount (List.length_pos_of_mem h))
      with ⟨c, rfl⟩
    rw [hall c List.mem_cons_self]

/-- The loop over the characters finds the body of an alternative, and it notices exactly
    the markers that are dropped. -/
theorem decompose_eq (text : String) :
    decompose text = (readAlternative text, dropsEpsilon text) := by
  have hpos : decide (0 < (trim text.toList).count epsilonMark) =
      (trim text.toList).contains epsilonMark := by
    rw [Bool.eq_iff_iff, decide_eq_true_eq, List.count_pos_iff, List.contains_iff_mem]
  rw [decompose, foldl_decomposeStep, List.nil_append, Nat.zero_add]
  simp only [hpos]
  refine Prod.ext rfl (Bool.eq_iff_iff.mpr ?_)
  rw [dropsEpsilon, Bool.and_eq_true, Bool.and_eq_true]
  -- With a marker in the text, the counter tells one marker from several.
  refine and_congr_right fun hmark => ?_
  rw [bne_iff_ne, ne_eq, eq_singleton_iff _ (List.contains_iff_mem.mp hmark), not_and_or, not_le]
  simp only [List.isEmpty_map, Bool.or_eq_true, Bool.not_eq_true', List.isEmpty_eq_false_iff,
    decide_eq_true_eq, ne_eq]

/-- An alternative is empty if nothing is left of its text after trimming. -/
theorem readAlternative_eq_nil_iff (text : String) :
    readAlternative text = [] ↔ trim text.toList = [] := by
  constructor
  · intro h
    rw [readAlternative] at h
    split at h
    · exact absurd h (List.cons_ne_nil _ _)
    · next hsome =>
        -- With nothing but markers left, one would have been put in the body.
        have hall := eq_of_filter_eq_nil _ (List.map_eq_nil_iff.mp h)
        rw [h, List.isEmpty_nil, Bool.true_and, List.contains_iff_mem] at hsome
        exact List.eq_nil_iff_forall_not_mem.mpr fun c hc => hsome (hall c hc ▸ hc)
  · intro h
    rw [readAlternative, h]
    rfl

/-- No alternative is both empty and rid of a marker. -/
theorem dropsEpsilon_of_eq_nil (text : String) (h : readAlternative text = []) :
    dropsEpsilon text = false := by
  rw [dropsEpsilon, (readAlternative_eq_nil_iff text).mp h]
  rfl

/-- The definition of an entry, if it has one. -/
def Entry.definition? : Entry → Option Definition
  | .rule lhs texts => some ⟨lhs, texts⟩
  | .nameless _ => none
  | .skipped _ => none

theorem Entry.definition?_eq_some_iff (e : Entry) (d : Definition) :
    e.definition? = some d ↔ e = .rule d.lhs d.texts := by
  cases e with
  | rule lhs texts =>
      rw [definition?, Option.some.injEq, Entry.rule.injEq, Definition.mk.injEq]
  | nameless line => exact ⟨fun h => absurd h.symm (Option.some_ne_none d), Entry.noConfusion⟩
  | skipped line => exact ⟨fun h => absurd h.symm (Option.some_ne_none d), Entry.noConfusion⟩

theorem Definition.eq_mk_ofList (d : Definition) (cs : List Char) (texts : List String)
    (hlhs : d.lhs.name.toList = cs) (htexts : d.texts = texts) : d = ⟨⟨String.ofList cs⟩, texts⟩ := by
  rcases d with ⟨⟨name⟩, texts⟩
  rw [← hlhs, ← htexts, String.ofList_toList]

/-- A line defines what its entry says. -/
theorem lineDefines_iff (number : Nat) (line : List Char) (d : Definition) :
    LineDefines line d ↔ (lineEntry number line).bind Entry.definition? = some d := by
  constructor
  · intro h
    rcases h with ⟨lhs, rhs, rfl, harrow, htrim, hlhs, htexts⟩
    -- With no arrow in front of it, the arrow of the definition is the one that is found.
    have hsplit := splitArrow_append lhs rhs ((splitArrow_eq_none_iff lhs).mpr harrow)
    have hnamed : ¬ (trim lhs).isEmpty = true := fun e => htrim (List.isEmpty_iff.mp e)
    have hd := d.eq_mk_ofList (trim lhs) ((rhs.splitOn '|').map String.ofList) hlhs
      (by rw [← htexts, List.map_map]; simp [Function.comp_def])
    rw [lineEntry_of_some number _ lhs rhs hsplit, if_neg hnamed, Option.bind_some,
      Entry.definition?, ← hd]
  · intro h
    cases hline : splitArrow line with
    | none =>
        rw [lineEntry_of_none number line hline] at h
        split at h
        · exact absurd h.symm (Option.some_ne_none d)
        · exact absurd h.symm (Option.some_ne_none d)
    | some p =>
        rcases eq_append_of_splitArrow line p.1 p.2 hline with ⟨heq, hnone⟩
        rw [lineEntry_of_some number line p.1 p.2 hline] at h
        split at h
        · exact absurd h.symm (Option.some_ne_none d)
        · next hnamed =>
            rw [← Option.some.inj h]
            refine ⟨p.1, p.2, heq, (splitArrow_eq_none_iff p.1).mp hnone,
              fun e => hnamed (List.isEmpty_iff.mpr e), String.toList_ofList, ?_⟩
            simp [List.map_map, Function.comp_def]

/-- The definitions of some lines are those of their entries. -/
theorem linesDefine_iff (number : Nat) (ls : List (List Char)) (defs : List Definition) :
    LinesDefine ls defs ↔
      defs = (ls.zipIdx number).filterMap fun l => (lineEntry l.2 l.1).bind Entry.definition? := by
  induction ls generalizing number defs with
  | nil =>
      constructor
      · intro h
        cases h
        rfl
      · intro h
        exact h ▸ LinesDefine.nil
  | cons line rest ih =>
      cases hd : (lineEntry number line).bind Entry.definition? with
      | none =>
          -- A line without an entry for a rule can only have been skipped.
          have hnone : ∀ d, ¬ LineDefines line d := fun d hline =>
            Option.some_ne_none d (((lineDefines_iff number line d).mp hline).symm.trans hd)
          simp only [List.zipIdx_cons, List.filterMap_cons, hd]
          rw [← ih]
          constructor
          · intro h
            cases h with
            | skip _ _ _ _ hrest => exact hrest
            | rule _ d _ _ hline _ => exact absurd hline (hnone d)
          · exact LinesDefine.skip line rest defs hnone
      | some d =>
          have hline := (lineDefines_iff number line d).mpr hd
          simp only [List.zipIdx_cons, List.filterMap_cons, hd]
          constructor
          · intro h
            cases h with
            | skip _ _ _ hnone _ => exact absurd hline (hnone d)
            | rule _ e _ more hother hrest =>
                -- A line has one definition, that of its entry.
                have he := (lineDefines_iff number line e).mp hother
                rw [Option.some.inj (hd.symm.trans he), (ih (number + 1) more).mp hrest]
          · rintro rfl
            exact LinesDefine.rule line d rest _ hline ((ih (number + 1) _).mpr rfl)

theorem eq_map_of_mapM_string? (items : List Json) (texts : List String)
    (h : items.mapM Json.string? = some texts) : items = texts.map .string := by
  induction items generalizing texts with
  | nil =>
      rw [List.mapM_nil] at h
      rw [← Option.some.inj h]
      rfl
  | cons item rest ih =>
      rw [List.mapM_cons] at h
      rcases Option.bind_eq_some_iff.mp h with ⟨text, hitem, hbind⟩
      rcases Option.bind_eq_some_iff.mp hbind with ⟨more, hrest, hcons⟩
      -- Only a text has passed the test, and it is the text that was found.
      cases item with
      | string s =>
          rw [← Option.some.inj hcons, List.map_cons, ← ih more hrest, ← Option.some.inj hitem]
      | _ => exact absurd hitem.symm (Option.some_ne_none text)

/-- A member defines what its entry says. -/
theorem memberDefines_iff (m : String × Json) (d : Definition) :
    MemberDefines m d ↔ memberEntry m.1 m.2 = .ok (.rule d.lhs d.texts) := by
  constructor
  · intro h
    rcases h with ⟨hnamed, hlhs, hvalue⟩
    rw [hvalue, memberEntry_array m.1 d.texts hnamed,
      congrArg Definition.lhs (d.eq_mk_ofList _ _ hlhs rfl)]
    rfl
  · intro h
    rcases exists_of_memberEntry m.1 m.2 _ h with ⟨hnamed, texts, hentry⟩
    rw [Entry.rule.injEq] at hentry
    refine ⟨hnamed, by rw [hentry.1, String.toList_ofList], ?_⟩
    have hkey : ¬ (trim m.1.toList).isEmpty = true := fun e => hnamed (List.isEmpty_iff.mp e)
    rcases m with ⟨key, value⟩
    unfold memberEntry at h
    rw [if_neg hkey] at h
    cases value with
    | array items =>
        cases hitems : items.mapM Json.string? with
        | none => simp only [hitems, reduceCtorEq] at h
        | some alternatives =>
            simp only [hitems, Except.ok.injEq, Entry.rule.injEq] at h
            rw [eq_map_of_mapM_string? items alternatives hitems, h.2]
    | _ => cases h

/-- The definitions of an object are those of its entries. -/
theorem membersDefine_iff (members : List (String × Json)) (h : (memberEntries members).2 = none)
    (defs : List Definition) : List.Forall₂ MemberDefines members defs ↔
      defs = (memberEntries members).1.filterMap Entry.definition? := by
  induction members generalizing defs with
  | nil => exact List.forall₂_nil_left_iff
  | cons m rest ih =>
      cases hm : memberEntry m.1 m.2 with
      | error e =>
          -- A member that is refused would have been reported.
          simp only [memberEntries, hm] at h
          exact absurd h (Option.some_ne_none e)
      | ok entry =>
          rcases exists_of_memberEntry m.1 m.2 entry hm with ⟨_, texts, rfl⟩
          simp only [memberEntries, hm] at h ⊢
          rw [List.forall₂_cons_left_iff]
          simp only [List.filterMap_cons, Entry.definition?]
          constructor
          · intro hx
            rcases hx with ⟨d, more, hd, hmore, rfl⟩
            rw [memberDefines_iff, hm, Except.ok.injEq, Entry.rule.injEq] at hd
            rw [(ih h more).mp hmore, hd.1, hd.2]
          · rintro rfl
            exact ⟨_, _, (memberDefines_iff m _).mpr hm, (ih h _).mpr rfl, rfl⟩

/-- The definitions of a source that is accepted are those of the entries that make up
    the grammar. -/
theorem defines_iff (format : Format) (source : String) (p : Parsed)
    (h : parse format source = .ok p) : ∃ entries, p = Parsed.ofEntries entries ∧
      ∀ defs, Defines format source defs ↔ defs = entries.filterMap Entry.definition? := by
  cases format with
  | text =>
      refine ⟨lineEntries source, (Except.ok.inj h).symm, fun defs => ?_⟩
      rw [Defines, linesDefine_iff 1, lineEntries, List.filterMap_filterMap]
  | json =>
      rcases exists_members_of_parse source p h with ⟨members, hread, hnone, hp⟩
      refine ⟨_, hp, fun defs => ?_⟩
      rw [← membersDefine_iff members hnone, Defines]
      constructor
      · intro hx
        rcases hx with ⟨others, hothers, hdefs⟩
        -- Reading has one outcome, so these are the members that were accepted.
        have hsame := Except.ok.inj (hothers.symm.trans hread)
        rw [Json.object.injEq] at hsame
        exact hsame ▸ hdefs
      · exact fun hdefs => ⟨members, hread, hdefs⟩

/-- The rule of a definition. -/
def Definition.rule (d : Definition) : Rule := (d.lhs, d.texts.map readAlternative)

theorem filterMap_rule? (entries : List Entry) :
    entries.filterMap Entry.rule? =
      (entries.filterMap Entry.definition?).map Definition.rule := by
  rw [List.map_filterMap]
  congr 1
  funext e
  cases e <;> rfl

/-- One more definition overrules those of its variable. -/
theorem lastTexts_concat (defs : List Definition) (d : Definition) (v : Variable) :
    lastTexts (defs ++ [d]) v = if v = d.lhs then d.texts else lastTexts defs v := by
  rw [lastTexts, List.reverse_append, List.reverse_singleton, List.singleton_append,
    List.find?_cons]
  by_cases hv : v = d.lhs
  · rw [if_pos hv, hv, beq_self_eq_true]
    rfl
  · rw [if_neg hv, beq_false_of_ne fun e => hv e.symm]
    rfl

/-- The alternatives that count are those of the last definition. -/
theorem alternatives_ofRules (defs : List Definition) (v : Variable) :
    (Grammar.ofRules (defs.map Definition.rule)).alternatives v =
      (lastTexts defs v).map readAlternative := by
  induction defs using List.reverseRecOn with
  | nil => rfl
  | append_singleton defs d ih =>
      rw [List.map_append, List.map_singleton, Grammar.ofRules_concat, Grammar.alternatives_define,
        ih, lastTexts_concat, apply_ite (List.map readAlternative)]
      rfl

/-- If no variable is defined twice, the variables are in the order of the definitions. -/
theorem defined_ofRules (defs : List Definition) (h : (defs.map Definition.lhs).Nodup) :
    (Grammar.ofRules (defs.map Definition.rule)).defined = defs.map Definition.lhs := by
  have hlhs : (defs.map Definition.rule).map Prod.fst = defs.map Definition.lhs := by
    rw [List.map_map]
    rfl
  rw [Grammar.defined, Grammar.rules_ofRules _ (hlhs ▸ h), hlhs]

/-- The texts of a variable are those of one of its definitions. -/
theorem exists_of_getElem?_lastTexts (defs : List Definition) (v : Variable) (i : Nat)
    (text : String) (h : (lastTexts defs v)[i]? = some text) :
    ∃ d ∈ defs, d.lhs = v ∧ d.texts[i]? = some text := by
  induction defs using List.reverseRecOn with
  | nil => exact absurd h.symm (Option.some_ne_none text)
  | append_singleton defs d ih =>
      -- Either the last definition is the one that counts, or it is about another variable.
      rw [lastTexts_concat] at h
      by_cases hv : v = d.lhs
      · rw [if_pos hv] at h
        exact ⟨d, List.mem_append_right defs List.mem_cons_self, hv.symm, h⟩
      · rw [if_neg hv] at h
        rcases ih h with ⟨e, he, hlhs, htext⟩
        exact ⟨e, List.mem_append_left [d] he, hlhs, htext⟩

/-- A definition that is the only one of its variable is the last one. -/
theorem lastTexts_of_mem (defs : List Definition) (hnodup : (defs.map Definition.lhs).Nodup)
    (d : Definition) (hd : d ∈ defs) : lastTexts defs d.lhs = d.texts := by
  induction defs using List.reverseRecOn with
  | nil => exact absurd hd List.not_mem_nil
  | append_singleton defs e ih =>
      rw [List.map_append, List.nodup_append] at hnodup
      rw [lastTexts_concat]
      rcases List.mem_append.mp hd with hd | hd
      · -- A definition behind this one is for another variable, so it overrules nothing.
        have hne : d.lhs ≠ e.lhs :=
          hnodup.2.2 d.lhs (List.mem_map_of_mem hd) e.lhs List.mem_cons_self
        rw [if_neg hne, ih hnodup.1 hd]
      · rw [List.mem_singleton.mp hd, if_pos rfl]

/-- The alternative a warning is about, as its variable and its index. -/
def Warning.alternative? : Warning → Option (Variable × Nat)
  | emptyAlternative lhs index => some (lhs, index)
  | epsilonDropped lhs index => some (lhs, index)
  | missingLeftHandSide _ => none
  | unknownStartSymbol _ => none

/-- A warning about an alternative comes from a definition. -/
theorem mem_warnings_iff (entries : List Entry) (w : Warning) (v : Variable) (i : Nat)
    (h : w.alternative? = some (v, i)) (P : String → Prop)
    (hP : ∀ u j text, w ∈ alternativeWarnings u j text ↔ (v = u ∧ i = j) ∧ P text) :
    w ∈ entries.flatMap Entry.warnings ↔ ∃ d ∈ entries.filterMap Entry.definition?,
      d.lhs = v ∧ ∃ text, d.texts[i]? = some text ∧ P text := by
  rw [List.mem_flatMap]
  constructor
  · intro hx
    rcases hx with ⟨e, he, hw⟩
    cases e with
    | rule lhs texts =>
        rcases List.mem_flatMap.mp hw with ⟨t, ht, hw⟩
        rcases (hP lhs t.2 t.1).mp hw with ⟨⟨rfl, rfl⟩, htext⟩
        exact ⟨⟨v, texts⟩, List.mem_filterMap.mpr ⟨_, he, rfl⟩, rfl, t.1,
          List.mem_zipIdx_iff_getElem?.mp ht, htext⟩
    | nameless line =>
        -- What is said about a line is not about an alternative.
        rw [List.mem_singleton.mp hw] at h
        exact absurd h.symm (Option.some_ne_none _)
    | skipped line => exact absurd hw List.not_mem_nil
  · intro hx
    rcases hx with ⟨d, hd, rfl, text, htext, hholds⟩
    rcases List.mem_filterMap.mp hd with ⟨e, he, hed⟩
    rw [Entry.definition?_eq_some_iff] at hed
    refine ⟨e, he, ?_⟩
    rw [hed]
    exact List.mem_flatMap.mpr ⟨(text, i), List.mem_zipIdx_iff_getElem?.mpr htext,
      (hP d.lhs i text).mpr ⟨⟨rfl, rfl⟩, hholds⟩⟩

/-- If no variable is defined twice, every definition counts. -/
theorem exists_definition_iff (defs : List Definition) (hnodup : (defs.map Definition.lhs).Nodup)
    (v : Variable) (i : Nat) (P : String → Prop) :
    (∃ d ∈ defs, d.lhs = v ∧ ∃ text, d.texts[i]? = some text ∧ P text) ↔
      ∃ text, (lastTexts defs v)[i]? = some text ∧ P text := by
  constructor
  · intro h
    rcases h with ⟨d, hd, rfl, text, htext, hP⟩
    exact ⟨text, by rw [lastTexts_of_mem defs hnodup d hd, htext], hP⟩
  · intro h
    rcases h with ⟨text, htext, hP⟩
    rcases exists_of_getElem?_lastTexts defs v i text htext with ⟨d, hd, hlhs, hdtext⟩
    exact ⟨d, hd, hlhs, text, hdtext, hP⟩

theorem emptyAlternative_mem_iff (v u : Variable) (i j : Nat) (text : String) :
    .emptyAlternative v i ∈ alternativeWarnings u j text ↔
      (v = u ∧ i = j) ∧ readAlternative text = [] := by
  rw [alternativeWarnings, List.mem_append]
  by_cases hempty : readAlternative text = []
  · simp [hempty]
  · simp [hempty]

theorem epsilonDropped_mem_iff (v u : Variable) (i j : Nat) (text : String) :
    .epsilonDropped v i ∈ alternativeWarnings u j text ↔
      (v = u ∧ i = j) ∧ MixesMarker text := by
  rw [← dropsEpsilon_iff, alternativeWarnings, List.mem_append]
  by_cases hdrops : dropsEpsilon text = true
  · simp [hdrops]
  · simp [hdrops]

/-- An alternative has one warning at most. -/
theorem filterMap_alternativeWarnings (lhs : Variable) (i : Nat) (text : String) :
    (alternativeWarnings lhs i text).filterMap Warning.alternative? = [] ∨
      (alternativeWarnings lhs i text).filterMap Warning.alternative? = [(lhs, i)] := by
  rw [alternativeWarnings]
  by_cases hempty : readAlternative text = []
  · -- An empty alternative has lost no marker.
    rw [dropsEpsilon_of_eq_nil text hempty, hempty]
    exact Or.inr rfl
  · rw [List.isEmpty_eq_false_iff.mpr hempty]
    cases dropsEpsilon text with
    | false => exact Or.inl rfl
    | true => exact Or.inr rfl

theorem eq_of_mem_alternatives (lhs : Variable) (i : Nat) (text : String) (a : Variable × Nat)
    (h : a ∈ (alternativeWarnings lhs i text).filterMap Warning.alternative?) : a = (lhs, i) := by
  rcases filterMap_alternativeWarnings lhs i text with hnone | hone
  · exact absurd (hnone ▸ h) List.not_mem_nil
  · exact List.mem_singleton.mp (hone ▸ h)

/-- The alternatives of a definition that there are warnings about. -/
def Definition.noted (d : Definition) : List (Variable × Nat) :=
  d.texts.zipIdx.flatMap fun a =>
    (alternativeWarnings d.lhs a.2 a.1).filterMap Warning.alternative?

theorem Definition.fst_of_mem_noted (d : Definition) (a : Variable × Nat) (h : a ∈ d.noted) :
    a.1 = d.lhs := by
  rcases List.mem_flatMap.mp h with ⟨t, _, ha⟩
  exact congrArg Prod.fst (eq_of_mem_alternatives d.lhs t.2 t.1 a ha)

theorem filterMap_warnings (entries : List Entry) :
    (entries.flatMap Entry.warnings).filterMap Warning.alternative? =
      (entries.filterMap Entry.definition?).flatMap Definition.noted := by
  induction entries with
  | nil => rfl
  | cons e rest ih =>
      rw [List.flatMap_cons, List.filterMap_append, ih]
      cases e with
      | rule lhs texts =>
          rw [Entry.warnings, List.filterMap_flatMap]
          rfl
      | nameless line => rfl
      | skipped line => rfl

/-- One alternative comes before another if its variable does, or in the row of the
    alternatives of one variable. -/
def Before (vars : List Variable) (a b : Variable × Nat) : Prop :=
  Prod.Lex (· < ·) (· < ·) (vars.idxOf a.1, a.2) (vars.idxOf b.1, b.2)

theorem pairwise_zipIdx {α : Type} (xs : List α) : xs.zipIdx.Pairwise fun a b => a.2 < b.2 := by
  have h : (xs.zipIdx.map Prod.snd).Pairwise (· < ·) := by
    rw [List.zipIdx_map_snd]
    exact List.pairwise_lt_range'
  exact List.pairwise_map.mp h

theorem pairwise_idxOf {α : Type} [BEq α] [LawfulBEq α] (xs : List α) (h : xs.Nodup) :
    xs.Pairwise fun a b => xs.idxOf a < xs.idxOf b := by
  rw [List.pairwise_iff_getElem]
  intro i j hi hj hij
  rw [h.idxOf_getElem i hi, h.idxOf_getElem j hj]
  exact hij

/-- If no variable is defined twice, the warnings come in the order of the definitions
    and of their alternatives. -/
theorem pairwise_alternatives (defs : List Definition) (h : (defs.map Definition.lhs).Nodup) :
    (defs.flatMap Definition.noted).Pairwise (Before (defs.map Definition.lhs)) := by
  rw [List.pairwise_flatMap]
  constructor
  · -- In one definition the index decides.
    intro d _
    rw [Definition.noted, List.pairwise_flatMap]
    constructor
    · intro t _
      rcases filterMap_alternativeWarnings d.lhs t.2 t.1 with hnone | hone
      · exact hnone ▸ List.Pairwise.nil
      · exact hone ▸ List.pairwise_singleton _ _
    · refine (pairwise_zipIdx d.texts).imp fun hlt a ha b hb => ?_
      rw [eq_of_mem_alternatives _ _ _ a ha, eq_of_mem_alternatives _ _ _ b hb]
      exact Prod.Lex.right _ hlt
  · -- Between two of them it is their place in the source.
    refine (List.pairwise_map.mp (pairwise_idxOf _ h)).imp fun hlt a ha b hb => ?_
    rw [Before, Definition.fst_of_mem_noted _ a ha, Definition.fst_of_mem_noted _ b hb]
    exact Prod.Lex.left _ _ hlt

/-- The warnings of a source that is accepted. An alternative of zero length has its
    warning, and so has one whose trimmed text holds a marker and more than that. If the
    source defines no variable twice, then there are no others about alternatives, each
    of them is there once, and they come in the order of the rules and of their
    alternatives. The alternatives are those of the definitions that count, as the loop
    over their characters finds them. -/
theorem warnings_of_parse (format : Format) (source : String) (p : Parsed)
    (h : parse format source = .ok p) :
    ∃ defs, Defines format source defs ∧
      (∀ others, Defines format source others → others = defs) ∧
      (∀ v, p.grammar.alternatives v = (lastTexts defs v).map fun text => (decompose text).1) ∧
      (∀ v i, (p.grammar.alternatives v)[i]? = some [] → .emptyAlternative v i ∈ p.warnings) ∧
      (∀ v i text, (lastTexts defs v)[i]? = some text → MixesMarker text →
        .epsilonDropped v i ∈ p.warnings) ∧
      ((defs.map Definition.lhs).Nodup →
        (∀ v i, .emptyAlternative v i ∈ p.warnings ↔
          (p.grammar.alternatives v)[i]? = some []) ∧
        (∀ v i, .epsilonDropped v i ∈ p.warnings ↔
          ∃ text, (lastTexts defs v)[i]? = some text ∧ MixesMarker text) ∧
        (p.warnings.filterMap Warning.alternative?).Pairwise (Before p.grammar.defined)) := by
  rcases defines_iff format source p h with ⟨entries, rfl, hdefines⟩
  -- From here on only the entries count, whatever form the source has.
  generalize hdefs : entries.filterMap Entry.definition? = defs at hdefines
  have halternatives : ∀ v, (Parsed.ofEntries entries).grammar.alternatives v =
      (lastTexts defs v).map readAlternative := fun v => by
    rw [Parsed.ofEntries, filterMap_rule?, hdefs, alternatives_ofRules]
  have hempty : ∀ v i, ((Parsed.ofEntries entries).grammar.alternatives v)[i]? = some [] ↔
      ∃ text, (lastTexts defs v)[i]? = some text ∧ readAlternative text = [] := fun v i => by
    rw [halternatives, List.getElem?_map, Option.map_eq_some_iff]
  -- Either warning is due to some definition, the last one of its variable or not.
  have hemptyWarning := fun v i => mem_warnings_iff entries (.emptyAlternative v i) v i rfl
    (readAlternative · = []) (emptyAlternative_mem_iff v · i)
  have hmixedWarning := fun v i => mem_warnings_iff entries (.epsilonDropped v i) v i rfl
    MixesMarker (epsilonDropped_mem_iff v · i)
  rw [hdefs] at hemptyWarning hmixedWarning
  refine ⟨defs, (hdefines defs).mpr rfl, fun others => (hdefines others).mp, fun v => ?_,
    fun v i hzero => ?_, fun v i text htext hmix => ?_,
    fun hnodup => ⟨fun v i => ?_, fun v i => ?_, ?_⟩⟩
  · simp only [halternatives, decompose_eq]
  · rcases (hempty v i).mp hzero with ⟨text, htext, hnil⟩
    rcases exists_of_getElem?_lastTexts defs v i text htext with ⟨d, hd, hlhs, hdtext⟩
    exact (hemptyWarning v i).mpr ⟨d, hd, hlhs, text, hdtext, hnil⟩
  · rcases exists_of_getElem?_lastTexts defs v i text htext with ⟨d, hd, hlhs, hdtext⟩
    exact (hmixedWarning v i).mpr ⟨d, hd, hlhs, text, hdtext, hmix⟩
  · -- With no variable defined twice, every definition is the one that counts.
    rw [hempty, ← exists_definition_iff defs hnodup]
    exact hemptyWarning v i
  · rw [← exists_definition_iff defs hnodup]
    exact hmixedWarning v i
  · rw [Parsed.ofEntries, filterMap_warnings, filterMap_rule?, hdefs, defined_ofRules defs hnodup]
    exact pairwise_alternatives defs hnodup

/-- Lines with two rules, one without a left-hand side, and one without an arrow. -/
def markedLines : String := "S -> aε | | B\n-> x\nB -> ε | ε ε\nno rule"

/-- The definitions of `markedLines`. -/
def markedDefinitions : List Definition :=
  [⟨⟨"S"⟩, [" aε ", " ", " B"]⟩, ⟨⟨"B"⟩, [" ε ", " ε ε"]⟩]

/-- An object with two keys that are one variable once they are trimmed. -/
def overruledObject : String := "\x7b\"S\": [\"\", \"a\"], \" S\": [\"b\", \"εb\"]\x7d"

/-- Where nothing is defined twice, the warnings are exact. Where something is, an
    alternative that was overruled still has its warning. -/
theorem warnings_markedLines :
    (∃ p, parse .text markedLines = .ok p ∧ Defines .text markedLines markedDefinitions ∧
      .emptyAlternative ⟨"S"⟩ 1 ∈ p.warnings ∧ .epsilonDropped ⟨"B"⟩ 1 ∈ p.warnings ∧
      (∀ v i, .emptyAlternative v i ∈ p.warnings ↔ (p.grammar.alternatives v)[i]? = some []) ∧
      (p.warnings.filterMap Warning.alternative?).Pairwise (Before p.grammar.defined)) ∧
    ∃ p, parse .json overruledObject = .ok p ∧ .emptyAlternative ⟨"S"⟩ 0 ∈ p.warnings ∧
      (p.grammar.alternatives ⟨"S"⟩)[0]? ≠ some [] ∧
      ∃ defs, Defines .json overruledObject defs ∧ ¬ (defs.map Definition.lhs).Nodup := by
  constructor
  · have hdefines : Defines .text markedLines markedDefinitions :=
      (linesDefine_iff 1 _ _).mpr rfl
    rcases warnings_of_parse .text markedLines _ rfl
      with ⟨defs, _, hunique, _, hempty, hmixed, hexact⟩
    rcases hunique _ hdefines
    rcases hexact (by decide) with ⟨hexactly, _, hordered⟩
    exact ⟨_, rfl, hdefines, hempty ⟨"S"⟩ 1 rfl,
      hmixed ⟨"B"⟩ 1 " ε ε" rfl ⟨by decide, by decide⟩, hexactly, hordered⟩
  · rcases warnings_of_parse .json overruledObject _ rfl with ⟨defs, hdefines, _, _, _, _, hexact⟩
    refine ⟨_, rfl, by decide, by decide, defs, hdefines, fun hnodup => ?_⟩
    exact absurd (((hexact hnodup).1 ⟨"S"⟩ 0).mp (by decide)) (by decide)

end Chomsky
