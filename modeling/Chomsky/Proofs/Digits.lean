import Chomsky.Json.Printer
import Chomsky.Proofs.Passage

/-!
# Integers That Are Read Back

The decimal digits of an integer are read as that integer.

The reader gathers digits into a significand of 64 bits, so the number has to fit.
A first digit is set apart from the others, because a zero must be the only one.
Decimal digits obey that: a number of several digits begins with the digits of a
tenth of it, which is not zero, and ends with one more. The induction follows that
recursion and keeps the reader in the state of the number read so far.

A number does not say where it ends. Its passage leads to a reader that would take
more digits, and that a comma or a newline tells that there are none.

## Main definitions

* `Number.IsWord`: An integer of 64 bits.
* `Numeral.ofNat`: How far a numeral has been read behind the digits of a number.

## Theorems

* `passage_toDigits`: The digits of a number lead to its numeral.
* `behind_number`: A comma or a newline ends a numeral.
* `passage_number`: The text of an integer leads behind it.
-/

namespace Chomsky

/-- An integer of 64 bits, without a sign or with a minus. -/
def Number.IsWord : Number → Prop
  | natural n => n < UInt64.size
  | negative n => n < Nat.pow 2 63
  | float _ => False

/-- How far a numeral has been read behind the digits of a number. -/
def Numeral.ofNat (n : Nat) : Numeral := if n = 0 then zero else integer n

/-- A decimal digit is a single byte, and no other token begins with it. -/
theorem exists_digit (d : Nat) (hd : d < 10) :
    ∃ b, String.utf8EncodeChar (Nat.digitChar d) = [b] ∧ digit? b = some d ∧
      CommentState.code.step b = (.code, some b) ∧ isJsonBlank b = false ∧ b ≠ ']'.toUInt8 ∧
      b ∉ ['n', 't', 'f', '-', '"', '[', '\x7b'].map Char.toUInt8 := by
  have hall : ∀ d < 10, String.utf8EncodeChar (Nat.digitChar d) = [(Nat.digitChar d).toUInt8] ∧
      digit? (Nat.digitChar d).toUInt8 = some d ∧
      CommentState.code.step (Nat.digitChar d).toUInt8 = (.code, some (Nat.digitChar d).toUInt8) ∧
      isJsonBlank (Nat.digitChar d).toUInt8 = false ∧ (Nat.digitChar d).toUInt8 ≠ ']'.toUInt8 ∧
      (Nat.digitChar d).toUInt8 ∉
        ['n', 't', 'f', '-', '"', '[', '\x7b'].map Char.toUInt8 := by
    decide
  exact ⟨_, hall d hd⟩

section

variable (frames : List Frame) (negative : Bool)

/-- The digits of a number lead to its numeral, given that a single digit does. -/
theorem passage_toDigits (r : Reader)
    (hr : ∀ d < 10, ∀ b ∈ String.utf8EncodeChar (Nat.digitChar d),
      r.step b = .ok ⟨frames, .number negative (.ofNat d)⟩)
    (n : Nat) (hn : n < UInt64.size) :
    Passage ⟨.code, r⟩ ((Nat.toDigits 10 n).flatMap String.utf8EncodeChar)
      ⟨.code, ⟨frames, .number negative (.ofNat n)⟩⟩ := by
  induction n using Nat.strongRecOn with
  | ind n ih =>
      by_cases hlt : n < 10
      · rcases exists_digit n hlt with ⟨b, hb, _, hcode, _⟩
        rw [Nat.toDigits_of_lt_base hlt, List.flatMap_singleton, hb]
        exact .step hcode (hr n hlt b (hb ▸ List.mem_singleton_self b)) (.refl _)
      · rcases exists_digit (n % 10) (Nat.mod_lt n (by omega)) with ⟨b, hb, hdigit, hcode, _⟩
        rw [Nat.toDigits_of_base_le (by omega) (by omega), List.flatMap_append,
          List.flatMap_singleton, hb]
        refine (ih (n / 10) (by omega) (by omega)).append (.step hcode ?_ (.refl _))
        -- The tenth of the number is not zero, and the number fits.
        have hvalue : n / 10 * 10 + n % 10 = n := by omega
        have hfits : n ≤ maxSignificand := by
          unfold maxSignificand
          omega
        have htenth : ¬ n / 10 = 0 := by omega
        have hzero : ¬ n = 0 := by omega
        simp [Reader.step, Numeral.step, Numeral.ofNat, hdigit, Numeral.takeDigit, hvalue, hfits,
          htenth, hzero, Except.map]

/-- A comma or a newline ends the numeral of a number. -/
theorem behind_number (n : Nat) (v : Number)
    (hv : (Numeral.ofNat n).value negative = some (.ok v)) :
    Reader.Behind ⟨frames, .number negative (.ofNat n)⟩ frames (.number v) := by
  intro b hb
  have hended : (Numeral.ofNat n).step negative b = .ok (.ended v) := by
    have hdigit : digit? b = none := by rcases hb with rfl | rfl <;> decide
    have hmark : (Numeral.ofNat n).takeMark b = none := by rcases hb with rfl | rfl <;> rfl
    simp only [Numeral.step, hdigit, hmark, hv]
    rfl
  simp only [Reader.step, hended]

theorem value_ofNat_natural (n : Nat) :
    (Numeral.ofNat n).value false = some (.ok (.natural n)) := by
  unfold Numeral.ofNat
  split
  · next h =>
      rw [h]
      rfl
  · rfl

/-- Behind a minus, numbers are told apart by one less than what their digits say. -/
theorem value_ofNat_negative (n : Nat) (hn : n < Nat.pow 2 63) :
    (Numeral.ofNat (n + 1)).value true = some (.ok (.negative n)) := by
  have hfits : ¬ Nat.pow 2 63 < n + 1 := by omega
  simp only [Numeral.ofNat, Nat.add_one_ne_zero, if_false, Numeral.value, false_or, hfits,
    Bool.not_true, Bool.false_eq_true, Nat.add_sub_cancel]

theorem textBytes_toString (n : Nat) :
    textBytes (toString n) = (Nat.toDigits 10 n).flatMap String.utf8EncodeChar := by
  rw [textBytes]
  exact congrArg (List.flatMap String.utf8EncodeChar) Nat.toList_repr

end

/-- The text of an integer leads behind it wherever a value is expected. -/
theorem passage_number (frames : List Frame) (phase : Phase)
    (hphase : Reader.awaitsValue phase = true) (n : Number) (hn : n.IsWord) :
    ∃ r, Passage ⟨.code, ⟨frames, phase⟩⟩ (textBytes n.text) ⟨.code, r⟩ ∧
      r.Behind frames (.number n) := by
  cases n with
  | natural n =>
      refine ⟨_, ?_, behind_number frames false n _ (value_ofNat_natural n)⟩
      rw [Number.text, textBytes_toString]
      refine passage_toDigits frames false _ (fun d hd b hb => ?_) n hn
      -- The first digit begins a value.
      rcases exists_digit d hd with ⟨c, hc, hdigit, _, hblank, hend, hother⟩
      rw [hc, List.mem_singleton] at hb
      subst hb
      rw [Reader.step_of_awaitsValue frames phase hphase b hblank hend]
      simp only [List.map_cons, List.map_nil, List.mem_cons, List.not_mem_nil, or_false,
        not_or] at hother
      simp only [Reader.beginValue, hother, if_false, hdigit]
      rfl
  | negative n =>
      have hsize : n + 1 < UInt64.size := Nat.lt_of_le_of_lt hn (by decide)
      refine ⟨_, ?_, behind_number frames true (n + 1) _ (value_ofNat_negative n hn)⟩
      rw [Number.text, textBytes_append, textBytes_toString]
      have hminus : Reader.step ⟨frames, phase⟩ '-'.toUInt8 = .ok ⟨frames, .number true .sign⟩ :=
        Reader.step_of_awaitsValue frames phase hphase _ (by decide) (by decide)
      refine .step rfl hminus (passage_toDigits frames true _ (fun d hd b hb => ?_) _ hsize)
      rcases exists_digit d hd with ⟨c, hc, hdigit, _⟩
      rw [hc, List.mem_singleton] at hb
      subst hb
      simp only [Reader.step, Numeral.step, hdigit]
      rfl
  | float x => exact absurd hn id

end Chomsky
