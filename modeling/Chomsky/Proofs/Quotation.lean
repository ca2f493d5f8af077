import Chomsky.Json.Printer
import Chomsky.Proofs.Passage
import Mathlib.Tactic.SplitIfs

/-!
# Strings That Are Read Back

A text in quotes is a passage, and it leads to where the text has been read.

Both machines have to know where the string ends, and each of them finds out by its
own rules. Between the quotes nothing may look like a quote, and whatever a comment
could begin with has to be left alone. The first is what the escapes are for. The
second comes of itself: in a string the comment machine looks for quotes and
backslashes only, so slashes and stars are letters like all others.

The passage is put together character by character. One that is escaped is a
handful of known bytes. Any other stands for itself, and since neither quotes, nor
backslashes, nor control characters are among those, none of its bytes is anything
but text to either machine, however many bytes there are.

## Main definitions

* `inString`: The place in a string, behind the bytes of some of its text.

## Theorems

* `passage_escapeJson`: An escaped character is read as that character.
* `passage_flatMap_escapeJson`: So is a sequence of them.
* `decodeText_textBytes`: The bytes of a text encode it.
* `passage_closeQuote`: The rest of a string behind its opening quote.
-/

namespace Chomsky

/-- The place in a string, behind the given bytes of its text, last byte first. -/
def inString (frames : List Frame) (role : StringRole) (text : List UInt8) : Place :=
  ⟨.string, ⟨frames, .string role .plain text⟩⟩

/-- A byte that means nothing special in a string. -/
def isStringText (b : UInt8) : Bool := b != '"'.toUInt8 && b != '\\'.toUInt8 && !(b < 0x20)

/-- A byte in the range of text, be it of a character of its own or of a longer one. -/
theorem isStringText_ofNat (n : Nat) (hn : n < 256) (hlow : 0x20 ≤ n) (hquote : n ≠ 0x22)
    (hslash : n ≠ 0x5C) : isStringText (UInt8.ofNat n) = true := by
  have hsize : (UInt8.ofNat n).toNat = n := UInt8.toNat_ofNat_of_lt' hn
  simp only [isStringText, Bool.and_eq_true, bne_iff_ne, Bool.not_eq_true', decide_eq_false_iff_not]
  refine ⟨⟨fun h => hquote ?_, fun h => hslash ?_⟩, fun h => ?_⟩
  · rw [← hsize, h]
    rfl
  · rw [← hsize, h]
    rfl
  · have hlt := UInt8.lt_iff_toNat_lt.mp h
    rw [hsize] at hlt
    exact absurd hlt (Nat.not_lt.mpr hlow)

/-- A character of ASCII is a single byte, and the bytes of all others are beyond ASCII. -/
theorem mem_utf8EncodeChar_cases (c : Char) (b : UInt8) (hb : b ∈ String.utf8EncodeChar c) :
    (b = UInt8.ofNat c.val.toNat ∧ c.val.toNat < 128) ∨
      ∃ n, b = UInt8.ofNat n ∧ 128 ≤ n ∧ n < 256 := by
  simp only [String.utf8EncodeChar] at hb
  split at hb
  · exact Or.inl ⟨List.mem_singleton.mp hb, by omega⟩
  · refine Or.inr ?_
    split at hb
    · simp only [List.mem_cons, List.not_mem_nil, or_false] at hb
      rcases hb with rfl | rfl <;> exact ⟨_, rfl, by omega, by omega⟩
    · split at hb
      · simp only [List.mem_cons, List.not_mem_nil, or_false] at hb
        rcases hb with rfl | rfl | rfl <;> exact ⟨_, rfl, by omega, by omega⟩
      · simp only [List.mem_cons, List.not_mem_nil, or_false] at hb
        rcases hb with rfl | rfl | rfl | rfl <;> exact ⟨_, rfl, by omega, by omega⟩

/-- A character that needs no escape has no byte that would. -/
theorem isStringText_of_mem_utf8EncodeChar (c : Char) (hquote : c ≠ '"') (hslash : c ≠ '\\')
    (hcontrol : ¬ c.toNat < 0x20) (b : UInt8) (hb : b ∈ String.utf8EncodeChar c) :
    isStringText b = true := by
  have hne : ∀ d : Char, c ≠ d → c.val.toNat ≠ d.val.toNat := fun d h e =>
    h (Char.ext (UInt32.toNat_inj.mp e))
  have hquote' : c.val.toNat ≠ 0x22 := hne '"' hquote
  have hslash' : c.val.toNat ≠ 0x5C := hne '\\' hslash
  have hcontrol' : ¬ c.val.toNat < 0x20 := hcontrol
  rcases mem_utf8EncodeChar_cases c b hb with ⟨rfl, hascii⟩ | ⟨n, rfl, hlow, hn⟩
  · exact isStringText_ofNat _ (by omega) (by omega) hquote' hslash'
  · exact isStringText_ofNat n hn (by omega) (by omega) (by omega)

section

variable (frames : List Frame) (role : StringRole)

theorem step_string {next : StringPhase} {added : List UInt8} (phase : StringPhase)
    (text : List UInt8) (b : UInt8) (h : phase.step b = .ok (.more next added)) :
    Reader.step ⟨frames, .string role phase text⟩ b =
      .ok ⟨frames, .string role next (added.reverse ++ text)⟩ := by
  simp only [Reader.step, h]

/-- Bytes of text are added to what has been read. -/
theorem passage_of_isStringText (text bytes : List UInt8)
    (h : ∀ b ∈ bytes, isStringText b = true) :
    Passage (inString frames role text) bytes (inString frames role (bytes.reverse ++ text)) := by
  induction bytes generalizing text with
  | nil => exact .refl _
  | cons b rest ih =>
      have hb := h b List.mem_cons_self
      simp only [isStringText, Bool.and_eq_true, bne_iff_ne, Bool.not_eq_true',
        decide_eq_false_iff_not] at hb
      have hrest := ih (b :: text) fun c hc => h c (List.mem_cons_of_mem b hc)
      rw [List.reverse_cons, List.append_assoc]
      refine .step ?_ ?_ hrest
      · simp only [inString, CommentState.step, hb, if_false]
      · have hplain : StringPhase.plain.step b = .ok (.more .plain [b]) := by
          simp [StringPhase.step, hb]
        exact step_string frames role .plain text b hplain

/-- A hexadecimal digit is a single byte, which both machines take for a digit. -/
theorem exists_hexDigit (n : Nat) (hn : n < 16) :
    ∃ b, String.utf8EncodeChar (hexChar n) = [b] ∧ hexDigit? b = some n ∧
      CommentState.string.step b = (.string, some b) := by
  have hall : ∀ n : Fin 16, ∃ b, String.utf8EncodeChar (hexChar n) = [b] ∧
      hexDigit? b = some n.val ∧ CommentState.string.step b = (.string, some b) := fun n =>
    ⟨(hexChar n).toUInt8, by revert n; decide⟩
  exact hall ⟨n, hn⟩

/-- A control character is written by its code unit, of which two digits are zero. -/
theorem passage_control (text : List UInt8) (n : Nat) (hn : n < 0x20) :
    Passage (inString frames role text)
      (['\\', 'u', '0', '0', hexChar (n / 16), hexChar (n % 16)].flatMap String.utf8EncodeChar)
      (inString frames role ((String.utf8EncodeChar (Char.ofNat n)).reverse ++ text)) := by
  rcases exists_hexDigit (n / 16) (by omega) with ⟨high, hhigh, hhighDigit, hhighStep⟩
  rcases exists_hexDigit (n % 16) (by omega) with ⟨low, hlow, hlowDigit, hlowStep⟩
  have hzero : hexDigit? '0'.toUInt8 = some 0 := by decide
  have hvalue : hexValue ['0'.toUInt8, '0'.toUInt8, high, low] = some n := by
    simp only [hexValue, List.foldl_cons, List.foldl_nil, hzero, hhighDigit, hlowDigit,
      Option.pure_def, Option.bind_eq_bind, Option.bind_some, Option.some.injEq]
    omega
  simp only [List.flatMap_cons, List.flatMap_nil, hhigh, hlow]
  -- The last digit completes the unit, and a control character is no surrogate.
  have hunit : StringPhase.firstUnit ['0'.toUInt8, '0'.toUInt8, high, low] =
      .ok (.more .plain (encodeCodePoint n)) := by
    have hsurrogate : ¬ (0xDC00 ≤ n ∧ n ≤ 0xDFFF) ∧ ¬ (0xD800 ≤ n ∧ n ≤ 0xDBFF) := by omega
    simp only [StringPhase.firstUnit, hvalue, hsurrogate, if_false]
  refine .step rfl rfl (.step rfl rfl (.step rfl rfl (.step rfl rfl
    (.step hhighStep rfl (.step hlowStep ?_ (.refl _))))))
  exact step_string frames role _ text low hunit

/-- An escaped character is read as that character. -/
theorem passage_escapeJson (text : List UInt8) (c : Char) :
    Passage (inString frames role text) ((escapeJson c).flatMap String.utf8EncodeChar)
      (inString frames role ((String.utf8EncodeChar c).reverse ++ text)) := by
  unfold escapeJson
  split_ifs with hquote hslash hback hfeed hnewline hreturn htab hcontrol
  iterate 7
    -- A backslash and a letter.
    · subst_vars
      exact .step rfl rfl (.step rfl rfl (.refl _))
  · have hpassage := passage_control frames role text c.toNat hcontrol
    rwa [Char.ofNat_toNat] at hpassage
  · rw [List.flatMap_singleton]
    exact passage_of_isStringText frames role text _
      (isStringText_of_mem_utf8EncodeChar c hquote hslash hcontrol)

theorem passage_flatMap_escapeJson (text : List UInt8) (cs : List Char) :
    Passage (inString frames role text)
      ((cs.flatMap escapeJson).flatMap String.utf8EncodeChar)
      (inString frames role ((cs.flatMap String.utf8EncodeChar).reverse ++ text)) := by
  induction cs generalizing text with
  | nil => exact .refl _
  | cons c rest ih =>
      rw [List.flatMap_cons, List.flatMap_cons, List.flatMap_append, List.reverse_append,
        List.append_assoc]
      exact (passage_escapeJson frames role text c).append (ih _)

end

theorem decodeText_textBytes (s : String) : decodeText (textBytes s) = some s := by
  have hbytes : (textBytes s).toByteArray = s.toByteArray := String.utf8Encode_toList
  simp only [decodeText, hbytes, String.fromUTF8?, s.isValidUTF8, dif_pos]
  rfl

/-- What comes behind the opening quote of a string leads to where it has been read. -/
theorem passage_closeQuote (frames : List Frame) (role : StringRole) (s : String) (r : Reader)
    (h : Reader.closeString frames role (textBytes s).reverse = .ok r) :
    Passage (inString frames role [])
      ((s.toList.flatMap escapeJson ++ ['"']).flatMap String.utf8EncodeChar) ⟨.code, r⟩ := by
  rw [List.flatMap_append]
  refine (passage_flatMap_escapeJson frames role [] s.toList).append (.step rfl ?_ (.refl _))
  rw [List.append_nil]
  exact h

end Chomsky
