import Chomsky.Proofs.Quotation
import Chomsky.Source.Basic

/-!
# The Lines of Faults

A source in JSON form that is refused is refused on one of its lines, or on none, or on
line zero.

The place of a fault starts out in front of the text and only ever moves on, one line
with each newline that is read. So it is on a line that exists as far as the bytes go
that reach the reader, and these have no more newlines than the source: what comes in
place of a comment is a space, and of the bytes that encode a character other than a
newline none looks like one. The search for the end of a container that follows a failed
read moves on by the same rules.

A fault of shape has no line. There is one more way to have none, and it is reported as
line zero: where the source fails to deliver a byte, the place is that of the innermost
container, and if none is open, there is no place. Lines are counted from one, so that
line zero is no line of the source. It is the only way in which a reported line can be
wrong, and it occurs exactly if a comment is broken outside of all containers, be it in
front of the value, behind it, or because the text breaks off in a string that is the
value.

## Main definitions

* `newlineCount`: The newlines that a feed delivers.
* `Position.Reaches`: A place that reading can get to.
* `Reader.FailsOutside`, `Feed.FailsOutside`: The source fails the reader where no
  container is open.

## Theorems

* `searchEnd_reaches`: The search for the end of a container stays in the text.
* `run_reaches`: So does reading, where the fault has a place at all.
* `run_unplaced_iff`: When it has none.
* `newlineCount_follow`, `count_textBytes`: The feed has no newlines of its own.
* `line_of_parse`: The line of an error.
-/

namespace Chomsky

/-- The newlines that a feed delivers. -/
def newlineCount (reads : List (Option UInt8)) : Nat := reads.count (some '\n'.toUInt8)

theorem newlineCount_none (rest : List (Option UInt8)) :
    newlineCount (none :: rest) = newlineCount rest :=
  List.count_cons_of_ne (by simp)

namespace Position

/-- One place is not before another one, nor behind all that is still to be read there. -/
def Reaches (p : Position) (reads : List (Option UInt8)) (q : Position) : Prop :=
  p.line ≤ q.line ∧ q.line ≤ p.line + newlineCount reads

/-- A byte moves the line by as many newlines as it is. -/
theorem line_advance (p : Position) (b : UInt8) (rest : List (Option UInt8)) :
    (p.advance b).line + newlineCount rest = p.line + newlineCount (some b :: rest) := by
  unfold advance newlineCount
  by_cases hb : b = '\n'.toUInt8
  · rw [if_pos hb, hb, List.count_cons_self]
    simp only
    omega
  · rw [if_neg hb, List.count_cons_of_ne (by simpa using hb)]

theorem line_le_advance (p : Position) (b : UInt8) : p.line ≤ (p.advance b).line := by
  unfold advance
  split
  · exact Nat.le_succ p.line
  · exact Nat.le_refl p.line

theorem reaches_self (p : Position) (reads : List (Option UInt8)) : p.Reaches reads p :=
  ⟨Nat.le_refl _, Nat.le_add_right _ _⟩

theorem reaches_of_advance (p q : Position) (b : UInt8) (rest : List (Option UInt8))
    (h : (p.advance b).Reaches rest q) : p.Reaches (some b :: rest) q := by
  have hle := p.line_le_advance b
  have hline := p.line_advance b rest
  unfold Reaches at h ⊢
  omega

end Position

namespace Reader

/-- Passing over blanks takes newlines from what is left to be read and adds them to the
    line. -/
theorem line_skipBlanks (p : Position) (reads : List (Option UInt8)) :
    p.line ≤ (skipBlanks p reads).1.line ∧
      (skipBlanks p reads).1.line + newlineCount (skipBlanks p reads).2.2 ≤
        p.line + newlineCount reads := by
  induction reads generalizing p with
  | nil => exact ⟨Nat.le_refl _, Nat.le_refl _⟩
  | cons read rest ih =>
      cases read with
      | none => exact ⟨Nat.le_refl _, Nat.le_refl _⟩
      | some b =>
          have hle := p.line_le_advance b
          have hline := p.line_advance b rest
          unfold skipBlanks
          split
          · have hrest := ih (p.advance b)
            omega
          · simp only
            omega

/-- The search for the end of a container stays in the text. -/
theorem searchEnd_reaches (c : Container) (p : Position) (reads : List (Option UInt8)) :
    p.Reaches reads (searchEnd c p reads) := by
  have hskip := line_skipBlanks p reads
  unfold Position.Reaches searchEnd
  split
  · next q b rest heq =>
      rw [heq] at hskip
      -- Behind a comma in an array the blanks are passed over once more.
      have hmore := line_skipBlanks q rest
      cases c with
      | list =>
          simp only at hskip ⊢
          split <;> omega
      | object =>
          simp only at hskip ⊢
          omega
  · next q rest heq =>
      rw [heq] at hskip
      simp only at hskip ⊢
      omega

theorem failure_reaches (r : Reader) (p : Position) (reads : List (Option UInt8)) (q : Position)
    (hq : (r.failure p reads).position = some q) : p.Reaches reads q := by
  rcases Option.map_eq_some_iff.mp hq with ⟨c, _, rfl⟩
  exact searchEnd_reaches c p reads

/-- A fault is located in the text, if it is located. -/
theorem run_reaches (ends : Bool) (r : Reader) (p : Position) (reads : List (Option UInt8))
    (e : ReadError) (h : r.run ends p reads = .error e) (q : Position)
    (hq : e.position = some q) : p.Reaches reads q := by
  induction reads generalizing r p with
  | nil =>
      unfold run at h
      split at h
      · split at h
        · exact absurd h (by simp)
        · rw [← Except.error.inj h] at hq
          exact Option.some.inj hq ▸ p.reaches_self []
      · rw [← Except.error.inj h] at hq
        exact failure_reaches r p [] q hq
  | cons read rest ih =>
      cases read with
      | none =>
          unfold run at h
          rw [← Except.error.inj h] at hq
          have hreach := failure_reaches r p rest q hq
          rwa [Position.Reaches, ← newlineCount_none] at hreach
      | some b =>
          unfold run at h
          split at h
          · -- The byte at fault has been read.
            rw [← Except.error.inj h] at hq
            exact p.reaches_of_advance q b rest (Option.some.inj hq ▸ Position.reaches_self _ rest)
          · next next _ => exact p.reaches_of_advance q b rest (ih next (p.advance b) h)

/-- The reader takes some bytes without a fault, and where it then stands no container is
    open and the source fails to deliver the next byte, or to report its end. -/
def FailsOutside (ends : Bool) (r : Reader) (reads : List (Option UInt8)) : Prop :=
  ∃ (bytes : List UInt8) (rest : List (Option UInt8)) (next : Reader),
    reads = bytes.map some ++ rest ∧ bytes.foldlM step r = .ok next ∧
    next.container = none ∧ (rest.head? = some none ∨ rest = [] ∧ ends = false)

theorem failsOutside_nil (ends : Bool) (r : Reader) :
    FailsOutside ends r [] ↔ r.container = none ∧ ends = false := by
  constructor
  · rintro ⟨bytes, rest, next, hreads, hsteps, hnone, hfails⟩
    rcases List.append_eq_nil_iff.mp hreads.symm with ⟨hbytes, rfl⟩
    rw [List.map_eq_nil_iff.mp hbytes] at hsteps
    rcases hfails with hhead | ⟨_, hends⟩
    · exact absurd hhead (by simp)
    · exact ⟨Except.ok.inj hsteps ▸ hnone, hends⟩
  · rintro ⟨hnone, hends⟩
    exact ⟨[], [], r, rfl, rfl, hnone, Or.inr ⟨rfl, hends⟩⟩

theorem failsOutside_none (ends : Bool) (r : Reader) (rest : List (Option UInt8)) :
    FailsOutside ends r (none :: rest) ↔ r.container = none := by
  constructor
  · rintro ⟨bytes, others, next, hreads, hsteps, hnone, _⟩
    -- Nothing can be delivered in front of the byte that fails.
    cases bytes with
    | nil => exact Except.ok.inj hsteps ▸ hnone
    | cons b bytes => exact absurd (List.cons.inj hreads).1 (by simp)
  · exact fun hnone => ⟨[], none :: rest, r, rfl, rfl, hnone, Or.inl rfl⟩

theorem foldlM_step_cons (r : Reader) (b : UInt8) (bytes : List UInt8) (last : Reader) :
    (b :: bytes).foldlM step r = .ok last ↔
      ∃ next, r.step b = .ok next ∧ bytes.foldlM step next = .ok last := by
  rw [List.foldlM_cons]
  cases hstep : r.step b with
  | error f => simp [bind, Except.bind]
  | ok next => simp [bind, Except.bind]

theorem failsOutside_some (ends : Bool) (r : Reader) (b : UInt8) (rest : List (Option UInt8)) :
    FailsOutside ends r (some b :: rest) ↔
      ∃ next, r.step b = .ok next ∧ FailsOutside ends next rest := by
  constructor
  · rintro ⟨bytes, others, last, hreads, hsteps, hnone, hfails⟩
    cases bytes with
    | nil =>
        -- This byte does not fail, and so it is among those that are taken.
        rw [List.map_nil, List.nil_append] at hreads
        rw [← hreads] at hfails
        rcases hfails with hhead | ⟨hnil, _⟩
        · exact absurd (Option.some.inj hhead) (by simp)
        · exact absurd hnil (List.cons_ne_nil _ _)
    | cons c bytes =>
        rw [List.map_cons, List.cons_append, List.cons.injEq, Option.some.injEq] at hreads
        rcases hreads with ⟨rfl, hrest⟩
        rcases (foldlM_step_cons r b bytes last).mp hsteps with ⟨next, hstep, hbytes⟩
        exact ⟨next, hstep, bytes, others, last, hrest, hbytes, hnone, hfails⟩
  · rintro ⟨next, hstep, bytes, others, last, hrest, hbytes, hnone, hfails⟩
    refine ⟨b :: bytes, others, last, ?_, ?_, hnone, hfails⟩
    · rw [hrest, List.map_cons, List.cons_append]
    · exact (foldlM_step_cons r b bytes last).mpr ⟨next, hstep, hbytes⟩

/-- A fault has no place exactly if the source fails the reader where no container is
    open. -/
theorem run_unplaced_iff (ends : Bool) (r : Reader) (p : Position) (reads : List (Option UInt8)) :
    (∃ e, r.run ends p reads = .error e ∧ e.position = none) ↔ FailsOutside ends r reads := by
  have hfailure : ∀ rest, (∃ e, Except.error (r.failure p rest) = (Except.error e : Except _ Json) ∧
      e.position = none) ↔ r.container = none := by
    intro rest
    simp [failure]
  induction reads generalizing r p with
  | nil =>
      rw [failsOutside_nil]
      unfold run
      cases ends with
      | true =>
          -- A fault at the end has the last place in the text.
          cases hfinish : r.finish <;> simp
      | false =>
          rw [if_neg Bool.false_ne_true, hfailure]
          simp
  | cons read rest ih =>
      cases read with
      | none =>
          rw [failsOutside_none]
          exact hfailure rest
      | some b =>
          rw [failsOutside_some]
          unfold run
          cases hstep : r.step b with
          | error f => simp
          | ok next =>
              simp only [Except.ok.injEq, exists_eq_left']
              exact ih next (p.advance b) fun others => by simp [failure]

end Reader

/-- For a byte its own value is delivered, or a space, or nothing. -/
theorem CommentState.delivered_cases (state : CommentState) (b : UInt8) :
    (state.step b).2 = some b ∨ (state.step b).2 = some space ∨ (state.step b).2 = none := by
  cases state <;> unfold step <;> (repeat' split) <;> simp

/-- Blanking out comments makes no newlines. -/
theorem newlineCount_follow (state : CommentState) (bytes : List UInt8) :
    newlineCount (Feed.follow state bytes).reads ≤ bytes.count '\n'.toUInt8 := by
  induction bytes generalizing state with
  | nil => exact Nat.le_refl 0
  | cons b rest ih =>
      have hrest := ih (state.step b).1
      have hbyte : (state.step b).2 = some '\n'.toUInt8 → b = '\n'.toUInt8 := by
        intro hb
        rcases state.delivered_cases b with h | h | h
        · exact Option.some.inj (h.symm.trans hb)
        · exact absurd (Option.some.inj (h.symm.trans hb)) (by decide)
        · exact absurd (h.symm.trans hb) (by simp)
      unfold newlineCount at hrest ⊢
      simp only [Feed.follow, List.count_cons, beq_iff_eq]
      split
      · next hb =>
          rw [if_pos (hbyte hb)]
          omega
      · omega

theorem count_utf8EncodeChar (c : Char) :
    (String.utf8EncodeChar c).count '\n'.toUInt8 = [c].count '\n' := by
  by_cases hc : c = '\n'
  · rw [hc]
    decide
  · rw [List.count_eq_zero.mpr, List.count_eq_zero.mpr]
    · simpa using fun e => hc e.symm
    · intro hmem
      have hnewline : ∀ n, '\n'.toUInt8 = UInt8.ofNat n → n < 256 → n = '\n'.val.toNat := by
        intro n hb hn
        rw [← UInt8.toNat_ofNat_of_lt' hn, ← hb]
        rfl
      rcases mem_utf8EncodeChar_cases c _ hmem with ⟨hb, hascii⟩ | ⟨n, hb, hlow, hn⟩
      · exact hc (Char.ext (UInt32.toNat_inj.mp (hnewline _ hb (by omega))))
      · exact absurd (hnewline n hb hn) (by simp; omega)

/-- The newlines among the bytes of a text are those of the text. -/
theorem count_textBytes (s : String) : (textBytes s).count '\n'.toUInt8 = s.toList.count '\n' := by
  rw [textBytes]
  induction s.toList with
  | nil => rfl
  | cons c rest ih =>
      rw [List.flatMap_cons, List.count_append, ih, count_utf8EncodeChar, ← List.count_append,
        List.singleton_append]

/-- The source of a feed fails its reader where no container is open. -/
def Feed.FailsOutside (feed : Feed) : Prop := Reader.FailsOutside feed.ends .start feed.reads

theorem line_le_of_read (source : String) (e : ReadError) (q : Position)
    (h : Json.read (.withoutComments (textBytes source)) = .error e) (hq : e.position = some q) :
    1 ≤ q.line ∧ q.line ≤ source.toList.count '\n' + 1 := by
  have hreach := Reader.run_reaches _ _ _ _ e h q hq
  have hbytes := newlineCount_follow .code (textBytes source)
  rw [count_textBytes] at hbytes
  unfold Position.Reaches Feed.withoutComments at hreach
  simp only [Position.start] at hreach
  omega

/-- A source in JSON form is refused as JSON or by its shape. -/
theorem error_of_parse_json (source : String) (e : ParsingError)
    (h : parse .json source = .error e) :
    (∃ fault, Json.read (.withoutComments (textBytes source)) = .error fault ∧ e = .malformed fault) ∨
    ∃ value shape, Json.read (.withoutComments (textBytes source)) = .ok value ∧
      e = .misshapen shape := by
  simp only [parse, readSource, readObject, Reading.parsed] at h
  cases hread : Json.read (.withoutComments (textBytes source)) with
  | error fault =>
      simp only [hread] at h
      exact Or.inl ⟨fault, rfl, (Except.error.inj h).symm⟩
  | ok value =>
      simp only [hread] at h
      cases hshape : (objectEntries value).2 with
      | none => exact absurd h (by simp [hshape])
      | some shape =>
          simp only [hshape, Option.map_some] at h
          exact Or.inr ⟨value, shape, rfl, (Except.error.inj h).symm⟩

/-- The line of an error is none at all or one of the source, counted from one, unless the
    source fails its reader where no container is open. In that case it is line zero, and
    in no other. -/
theorem line_of_parse (source : String) (e : ParsingError) (h : parse .json source = .error e) :
    ((e.line = none ∨ ∃ n, e.line = some n ∧ 1 ≤ n ∧ n ≤ source.toList.count '\n' + 1) ↔
      ¬ (Feed.withoutComments (textBytes source)).FailsOutside) ∧
    (e.line = some 0 ↔ (Feed.withoutComments (textBytes source)).FailsOutside) := by
  have hunplaced := Reader.run_unplaced_iff (Feed.withoutComments (textBytes source)).ends .start
    .start (Feed.withoutComments (textBytes source)).reads
  rw [Feed.FailsOutside, ← hunplaced]
  rcases error_of_parse_json source e h with ⟨fault, hread, rfl⟩ | ⟨value, shape, hread, rfl⟩
  · rw [Json.read] at hread
    simp only [hread, Except.error.injEq, exists_eq_left', ParsingError.line]
    cases hposition : fault.position with
    | none => simp
    | some q =>
        have hline := line_le_of_read source fault q hread hposition
        have hpos : q.line ≠ 0 := by omega
        simp [hline, hpos]
  · -- The value has been read, so that no fault was met on the way.
    rw [Json.read] at hread
    simp [hread, ParsingError.line]

theorem line_of_brokenComment :
    ∃ e, parse .json "[\n/x" = .error e ∧ e.line = some 2 ∧
      ¬ (Feed.withoutComments (textBytes "[\n/x")).FailsOutside := by
  refine ⟨.malformed ⟨.invalidData, some ⟨2, 1⟩⟩, by rfl, rfl, ?_⟩
  exact (line_of_parse "[\n/x" _ (by rfl)).1.mp (Or.inr ⟨2, rfl, by decide, by decide⟩)

/-- A slash in front of the value is on no line of the source. -/
theorem line_zero_of_slash :
    ∃ e, parse .json "/" = .error e ∧ e.line = some 0 ∧
      ¬ (e.line = none ∨ ∃ n, e.line = some n ∧ 1 ≤ n ∧ n ≤ "/".toList.count '\n' + 1) := by
  refine ⟨.malformed ⟨.invalidData, none⟩, by rfl, rfl, ?_⟩
  simp [ParsingError.line]

end Chomsky
