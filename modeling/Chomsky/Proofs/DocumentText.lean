import Chomsky.Proofs.Numbering
import Chomsky.Proofs.Rereading

/-!
# Documents That Are Read Back

The text of a document is read as the document, whatever is in the names.

A document is no deeper than its rules, which are an object in an object that holds
arrays of arrays of texts. The keys of the rules are the variables, of which none is
listed twice, and all other keys are fixed. So there is only one thing that a document
could have and a reader could not take, a number beyond 64 bits. The numbers come from
the warnings alone.

## Theorems

* `tame_toJson`: The document of a conversion can be read back.
* `read_of_below`: The text of a document with small numbers is read as the document.
* `read_document`: So is the document of whatever is converted.
-/

namespace Chomsky

/-- An array of texts, of alternatives or of whatever else is written alike. -/
theorem Json.tame_array_map {α : Type} (room : Nat) (f : α → Json) (xs : List α)
    (h : ∀ x ∈ xs, (f x).Tame room) : (Json.array (xs.map f)).Tame (room + 1) := by
  refine .array room _ fun v hv => ?_
  rcases List.mem_map.mp hv with ⟨x, hx, rfl⟩
  exact h x hx

theorem Body.tame_toJson (room : Nat) (body : Body) : body.toJson.Tame (room + 1) :=
  Json.tame_array_map room _ body fun s _ => .string room s.text

/-- No key is repeated in the rules, since no variable is listed twice. -/
theorem Grammar.tame_toJson (room : Nat) (g : Grammar) : g.toJson.Tame (room + 3) := by
  refine .object (room + 2) _ ?_ fun m hm => ?_
  · rw [List.map_map]
    exact nodup_keys_rules g
  · rcases List.mem_map.mp hm with ⟨r, _, rfl⟩
    exact Json.tame_array_map (room + 1) _ r.2 fun body _ => body.tame_toJson room

theorem Warning.tame_toJson (room : Nat) (w : Warning) (h : w.Below UInt64.size) :
    w.toJson.Tame (room + 1) := by
  cases w with
  | emptyAlternative lhs index =>
      refine .object room _ (by simp) ?_
      simp [Json.Tame.string, Json.Tame.number room (.natural index) h]
  | epsilonDropped lhs index =>
      refine .object room _ (by simp) ?_
      simp [Json.Tame.string, Json.Tame.number room (.natural index) h]
  | missingLeftHandSide line =>
      refine .object room _ (by simp) ?_
      simp [Json.Tame.string, Json.Tame.number room (.natural line) h]
  | unknownStartSymbol start =>
      refine .object room _ (by simp) ?_
      simp [Json.Tame.string]

theorem tame_stageToJson (room : Nat) (s : Stage × Grammar) :
    (stageToJson s).Tame (room + 1) := by
  refine .object room _ (by simp) ?_
  simp [Json.Tame.string]

/-- The document of a conversion can be read back. -/
theorem Conversion.tame_toJson (c : Conversion) (steps : Bool)
    (h : ∀ w ∈ c.warnings, w.Below UInt64.size) : (c.toJson steps).Tame 4 := by
  have hstages : (Json.array (c.stages.map stageToJson)).Tame 3 :=
    Json.tame_array_map 2 _ c.stages fun s _ => tame_stageToJson 1 s
  have hwarnings : (Json.array (c.warnings.map Warning.toJson)).Tame 3 :=
    Json.tame_array_map 2 _ c.warnings fun w hw => w.tame_toJson 1 (h w hw)
  -- The stages are one more member, or they are not written.
  refine .object 3 _ ?_ ?_
  · cases steps <;> simp
  · cases steps <;> simp [Json.Tame.string, c.final.tame_toJson 0, hstages, hwarnings]

theorem read_of_below (c : Conversion) (steps : Bool) (h : ∀ w ∈ c.warnings, w.Below UInt64.size) :
    Json.read (.withoutComments (textBytes (c.document steps))) = .ok (c.toJson steps) :=
  read_pretty 4 _ (c.tame_toJson steps h) (by decide)

/-- The text of a document is read as the document, with all of its keys in order, through
    the machine that blanks out comments. Warnings count in words of 64 bits, and no
    conversion makes them count further: not that of a source whose bytes are counted in
    such words, and not that of a grammar, whose warnings have no numbers. -/
theorem read_document :
    (∀ (c : Conversion) (steps : Bool), (∀ w ∈ c.warnings, w.Below UInt64.size) →
      Json.read (.withoutComments (textBytes (c.document steps))) = .ok (c.toJson steps)) ∧
    (∀ (o : Options) (source : String) (c : Conversion) (steps : Bool),
      convert o source = .ok c → (textBytes source).length < UInt64.size →
      Json.read (.withoutComments (textBytes (c.document steps))) = .ok (c.toJson steps)) ∧
    ∀ (o : Options) (g : Grammar) (c : Conversion) (steps : Bool), convertGrammar o g = .ok c →
      Json.read (.withoutComments (textBytes (c.document steps))) = .ok (c.toJson steps) := by
  refine ⟨read_of_below, fun o source c steps h hsize => ?_, fun o g c steps h => ?_⟩
  · refine read_of_below c steps fun w hw => ?_
    exact w.below_mono hsize (below_of_convert o source c h w hw)
  · refine read_of_below c steps fun w hw => ?_
    exact w.below_mono (Nat.zero_le _) (below_of_convertGrammar o g c h w hw)

/-- A source whose names hold quotes, backslashes, control characters and what opens a
    comment or closes one. -/
def disguisedSource : String :=
  "\x7b\"// \\\" /* \\u0000 \\\\\": [\"aε\", \"\", \"\\\"/\"], \"B\": [\"\\u001f𝔟\"]\x7d"

def disguisedOptions : Options := { format := .json, startSymbol := "*/\x0b\x7f𝔖\"" }

theorem read_disguisedSource :
    ∃ c, convert disguisedOptions disguisedSource = .ok c ∧
      c.warnings = [.epsilonDropped ⟨"// \" /* \x00 \\"⟩ 0,
        .emptyAlternative ⟨"// \" /* \x00 \\"⟩ 1, .unknownStartSymbol ⟨"*/\x0b\x7f𝔖\""⟩] ∧
      (∀ w ∈ c.warnings, w.Below UInt64.size) ∧
      (textBytes disguisedSource).length < UInt64.size ∧
      Json.read (.withoutComments (textBytes (c.document true))) = .ok (c.toJson true) ∧
      Json.read (.withoutComments (textBytes (c.document false))) = .ok (c.toJson false) := by
  have hsmall : ∀ w ∈ [Warning.epsilonDropped ⟨"// \" /* \x00 \\"⟩ 0,
      .emptyAlternative ⟨"// \" /* \x00 \\"⟩ 1, .unknownStartSymbol ⟨"*/\x0b\x7f𝔖\""⟩],
      w.Below UInt64.size := by
    simp [Warning.Below, UInt64.size]
  have hsize : (textBytes disguisedSource).length < UInt64.size := by decide +kernel
  exact ⟨_, rfl, rfl, hsmall, hsize, read_document.1 _ true hsmall,
    read_document.2.1 disguisedOptions disguisedSource _ false rfl hsize⟩

end Chomsky
