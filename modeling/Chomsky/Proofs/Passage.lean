import Chomsky.Json.Reader

/-!
# Passages

Two machines at work on the same bytes.

A JSON text reaches its reader through the machine that blanks out comments. To say
what a piece of text does, one has to say what both of them make of it. The pieces
of interest are those that the first machine hands on as they are and in which the
second one finds no fault. Such a piece is a passage: it leads from one place to
another, a place being where the two machines stand, and passages that meet can be
joined.

Nothing but passages is used to follow a printed text. Whoever prints a piece says
which passage it is, and in the end there is one passage for the whole text, from
the place where reading starts to one behind a complete value. That is all that
`read_of_passage` needs.

## Main definitions

* `Place`: Where the two machines stand.
* `Passage`: Bytes that lead from one place to another.
* `Reader.awaitsValue`, `Reader.ignoresBlanks`: The phases that a value can begin in, and
  those in which a blank changes nothing.
* `Reader.Behind`: The reader is behind a value.

## Theorems

* `Passage.append`: Passages that meet can be joined.
* `follow_of_passage`: The comment machine hands a passage on.
* `run_of_passage`: The reader gets through a passage.
* `passage_of_isJsonBlank`: Blanks lead nowhere else.
* `read_of_passage`: The value behind a passage is read.
-/

namespace Chomsky

/-- Where the comment machine and the reader stand. -/
structure Place where
  comments : CommentState
  reader : Reader

/-- Bytes that lead from one place to another: the comment machine delivers each of
    them as it is, and the reader takes it without a fault. -/
inductive Passage : Place → List UInt8 → Place → Prop
  | refl (p : Place) : Passage p [] p
  | step {p q : Place} {b : UInt8} {comments : CommentState} {reader : Reader}
      {rest : List UInt8} (hcomments : p.comments.step b = (comments, some b))
      (hreader : p.reader.step b = .ok reader) (h : Passage ⟨comments, reader⟩ rest q) :
      Passage p (b :: rest) q

theorem Passage.append {p q r : Place} {xs ys : List UInt8} (h : Passage p xs q)
    (h' : Passage q ys r) : Passage p (xs ++ ys) r := by
  induction h with
  | refl => exact h'
  | step hcomments hreader _ ih => exact .step hcomments hreader (ih h')

theorem follow_of_passage {p q : Place} {bytes : List UInt8} (h : Passage p bytes q)
    (rest : List UInt8) : Feed.follow p.comments (bytes ++ rest) =
      ⟨bytes.map some ++ (Feed.follow q.comments rest).reads,
        (Feed.follow q.comments rest).ends⟩ := by
  induction h with
  | refl => rfl
  | step hcomments _ _ ih =>
      simp only [List.cons_append, Feed.follow, hcomments, ih, List.map_cons]

/-- Behind a passage the reader goes on from its end, only further down the text. -/
theorem run_of_passage {p q : Place} {bytes : List UInt8} (h : Passage p bytes q) (ends : Bool)
    (here : Position) (rest : List (Option UInt8)) :
    ∃ there, p.reader.run ends here (bytes.map some ++ rest) = q.reader.run ends there rest := by
  induction h generalizing here with
  | refl => exact ⟨here, rfl⟩
  | @step _ _ b _ _ _ _ hreader _ ih =>
      rcases ih (here.advance b) with ⟨there, hthere⟩
      refine ⟨there, ?_⟩
      rw [← hthere, List.map_cons, List.cons_append, Reader.run, hreader]

namespace Reader

/-- Whether a value is expected next. -/
def awaitsValue : Phase → Bool
  | .value => true
  | .firstItem => true
  | .nextItem => true
  | _ => false

/-- Wherever a value is expected, it begins with a byte that is neither a blank nor
    the end of an array. -/
theorem step_of_awaitsValue (frames : List Frame) (phase : Phase) (h : awaitsValue phase = true)
    (b : UInt8) (hblank : isJsonBlank b = false) (hend : b ≠ ']'.toUInt8) :
    step ⟨frames, phase⟩ b = beginValue frames b := by
  cases phase <;> simp_all [awaitsValue, step]

/-- Whether blanks are ignored in a phase. They are where a token is complete, and not
    inside of one. -/
def ignoresBlanks : Phase → Bool
  | .word _ _ _ => false
  | .number _ _ => false
  | .string _ _ _ => false
  | _ => true

theorem step_of_isJsonBlank (frames : List Frame) (phase : Phase) (h : ignoresBlanks phase = true)
    (b : UInt8) (hb : isJsonBlank b = true) :
    step ⟨frames, phase⟩ b = .ok ⟨frames, phase⟩ := by
  cases phase <;> simp_all [ignoresBlanks, step, afterValue]

/-- The reader is behind a value. Of a number it may not know yet that it is
    complete, but it will with the next comma or newline. -/
def Behind (r : Reader) (frames : List Frame) (v : Json) : Prop :=
  ∀ b, b = ','.toUInt8 ∨ b = '\n'.toUInt8 → r.step b = afterValue frames v b

theorem behind_after (frames : List Frame) (v : Json) : Behind ⟨frames, .after v⟩ frames v :=
  fun _ _ => rfl

end Reader

/-- Blanks that are ignored lead nowhere else. -/
theorem passage_of_isJsonBlank (frames : List Frame) (phase : Phase)
    (hphase : Reader.ignoresBlanks phase = true) (bytes : List UInt8)
    (h : ∀ b ∈ bytes, isJsonBlank b = true) :
    Passage ⟨.code, ⟨frames, phase⟩⟩ bytes ⟨.code, ⟨frames, phase⟩⟩ := by
  induction bytes with
  | nil => exact .refl _
  | cons b rest ih =>
      have hb := h b List.mem_cons_self
      have hcomments : CommentState.code.step b = (.code, some b) := by
        -- A blank is neither a quote nor a slash.
        simp only [isJsonBlank, Bool.or_eq_true, decide_eq_true_eq] at hb
        rcases hb with ((rfl | rfl) | rfl) | rfl <;> rfl
      exact .step hcomments (Reader.step_of_isJsonBlank frames phase hphase b hb)
        (ih fun c hc => h c (List.mem_cons_of_mem b hc))

/-- A text is read as a value if it is a passage to a place behind that value. -/
theorem read_of_passage (bytes : List UInt8) (v : Json)
    (h : Passage ⟨.code, .start⟩ bytes ⟨.code, ⟨[], .after v⟩⟩) :
    Json.read (.withoutComments bytes) = .ok v := by
  have hfollow := follow_of_passage h []
  rcases run_of_passage h true .start [] with ⟨there, hrun⟩
  simp only [List.append_nil] at hfollow hrun
  rw [Json.read, Feed.withoutComments, hfollow]
  simp only [Feed.follow, List.append_nil]
  exact hrun

/-- The bytes of a text of characters. -/
theorem textBytes_ofList (cs : List Char) :
    textBytes (String.ofList cs) = cs.flatMap String.utf8EncodeChar := by
  rw [textBytes, String.toList_ofList]

@[simp] theorem textBytes_append (s t : String) :
    textBytes (s ++ t) = textBytes s ++ textBytes t := by
  rw [textBytes, String.toList_append, List.flatMap_append]
  rfl

end Chomsky
