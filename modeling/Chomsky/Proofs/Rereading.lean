import Chomsky.Proofs.Digits
import Chomsky.Proofs.Quotation

/-!
# Values That Are Read Back

A printed value is read as that value, comments and all that the reader knows
besides notwithstanding.

Not every value can come back. A number has to be an integer that fits, and an
object has to have every key once, since a repeated one would replace the first. A
value that is nested too deep is refused. `Json.Tame` says what is left, and it
counts the levels that may be used.

The claim to be carried through the printed text is that a value leads behind
itself (`LeadsBehind`): it is a passage wherever a value is expected, and ends where
that value has been read. For arrays and objects this rests on the same claim for
what they hold. Their items are followed one after the other, with the frame of the
container holding those that came before. A printed text has blanks for its lines,
which nobody minds, and a comma or a newline behind every value, which is what a
number waits for.

## Main definitions

* `Json.Tame`: Values that can be read back.
* `LeadsBehind`: The printed value is a passage that ends behind it.

## Theorems

* `passage_string`, `passage_key`: Strings as values and as keys.
* `passage_items`, `passage_members`: The rest of an array, or of an object.
* `leadsBehind_of_tame`: A tame value leads behind itself.
* `read_pretty`: A printed value is read back.
-/

namespace Chomsky

/-- Values that can be read back: integers of 64 bits, keys without repetition, and at
    most the given number of levels. -/
inductive Json.Tame : Nat → Json → Prop
  | null (room : Nat) : Tame room .null
  | bool (room : Nat) (b : Bool) : Tame room (.bool b)
  | number (room : Nat) (n : Number) (h : n.IsWord) : Tame room (.number n)
  | string (room : Nat) (s : String) : Tame room (.string s)
  | array (room : Nat) (items : List Json) (h : ∀ v ∈ items, Tame room v) :
      Tame (room + 1) (.array items)
  | object (room : Nat) (members : List (String × Json)) (hkeys : (members.map Prod.fst).Nodup)
      (h : ∀ m ∈ members, Tame room m.2) : Tame (room + 1) (.object members)

theorem insertMember_of_not_mem (key : String) (v : Json) (members : List (String × Json))
    (h : key ∉ members.map Prod.fst) :
    Json.insertMember key v members = members ++ [(key, v)] := by
  induction members with
  | nil => rfl
  | cons m rest ih =>
      rw [List.map_cons, List.mem_cons, not_or] at h
      rw [Json.insertMember, if_neg fun e => h.1 e.symm, ih h.2, List.cons_append]

/-- A printed value is a passage wherever a value is expected and `room` levels are
    left, and ends behind that value. -/
def LeadsBehind (room : Nat) (v : Json) : Prop :=
  ∀ (depth : Nat) (frames : List Frame) (phase : Phase), Reader.awaitsValue phase = true →
    frames.length + room < Reader.maxDepth →
    ∃ r, Passage ⟨.code, ⟨frames, phase⟩⟩ (textBytes (v.prettyAt depth)) ⟨.code, r⟩ ∧
      r.Behind frames v

/-! ### Lines -/

theorem textBytes_newLine (depth : Nat) :
    textBytes (newLine depth) = '\n'.toUInt8 :: List.replicate (4 * depth) ' '.toUInt8 := by
  have hspace : String.utf8EncodeChar ' ' = [' '.toUInt8] := rfl
  rw [newLine, textBytes_ofList, List.flatMap_cons, List.flatMap_replicate, hspace,
    List.flatten_replicate_singleton]
  rfl

/-- A new line leads nowhere else where blanks are ignored. -/
theorem passage_newLine (frames : List Frame) (phase : Phase)
    (hphase : Reader.ignoresBlanks phase = true) (depth : Nat) :
    Passage ⟨.code, ⟨frames, phase⟩⟩ (textBytes (newLine depth)) ⟨.code, ⟨frames, phase⟩⟩ := by
  refine passage_of_isJsonBlank frames phase hphase _ fun b hb => ?_
  rw [textBytes_newLine, List.mem_cons] at hb
  rcases hb with rfl | hb
  · rfl
  · rw [List.eq_of_mem_replicate hb]
    rfl

/-- A new line behind a value completes the value. -/
theorem passage_newLine_of_behind {r : Reader} {frames : List Frame} {v : Json}
    (h : r.Behind frames v) (depth : Nat) :
    Passage ⟨.code, r⟩ (textBytes (newLine depth)) ⟨.code, ⟨frames, .after v⟩⟩ := by
  rw [textBytes_newLine]
  -- The newline completes the value, and only then are the blanks ignored.
  refine .step rfl ((h _ (Or.inr rfl)).trans (if_pos rfl)) ?_
  refine passage_of_isJsonBlank frames (.after v) rfl _ fun b hb => ?_
  rw [List.eq_of_mem_replicate hb]
  rfl

/-! ### Words -/

/-- A word that is expected is read to its end. -/
theorem passage_word (frames : List Frame) (v : Json) (next : UInt8) (rest : List UInt8)
    (h : ∀ b ∈ next :: rest, CommentState.code.step b = (.code, some b)) :
    Passage ⟨.code, ⟨frames, .word next rest v⟩⟩ (next :: rest) ⟨.code, ⟨frames, .after v⟩⟩ := by
  induction rest generalizing next with
  | nil => exact .step (h next List.mem_cons_self) (by simp [Reader.step]) (.refl _)
  | cons b rest ih =>
      refine .step (h next List.mem_cons_self) ?_ (ih b fun c hc => h c (List.mem_cons_of_mem _ hc))
      simp [Reader.step]

/-! ### Strings -/

theorem textBytes_quoteJson (s : String) : textBytes (quoteJson s) =
    '"'.toUInt8 :: (s.toList.flatMap escapeJson ++ ['"']).flatMap String.utf8EncodeChar := by
  rw [quoteJson, textBytes_ofList]
  rfl

theorem passage_string (frames : List Frame) (phase : Phase)
    (hphase : Reader.awaitsValue phase = true) (s : String) :
    Passage ⟨.code, ⟨frames, phase⟩⟩ (textBytes (quoteJson s))
      ⟨.code, ⟨frames, .after (.string s)⟩⟩ := by
  rw [textBytes_quoteJson]
  refine .step rfl (Reader.step_of_awaitsValue frames phase hphase _ rfl (by decide)) ?_
  refine passage_closeQuote frames .value s _ ?_
  simp only [Reader.closeString, List.reverse_reverse, decodeText_textBytes]

/-- A key and its colon lead to where the value of the member is expected. -/
theorem passage_key (frames : List Frame) (phase : Phase) (before : Members)
    (hphase : Reader.step ⟨frames, phase⟩ '"'.toUInt8 =
      .ok ⟨frames, .string (.key before) .plain []⟩) (key : String) :
    Passage ⟨.code, ⟨frames, phase⟩⟩ (textBytes (quoteJson key) ++ textBytes ": ")
      ⟨.code, ⟨.member before key :: frames, .value⟩⟩ := by
  -- The quote that closes the key is followed by the colon, and that by the value.
  have hbytes : textBytes ": " = [':'.toUInt8, ' '.toUInt8] := by decide
  have hcolon : Passage ⟨.code, ⟨frames, .colon before key⟩⟩ [':'.toUInt8, ' '.toUInt8]
      ⟨.code, ⟨.member before key :: frames, .value⟩⟩ := .step rfl rfl (.step rfl rfl (.refl _))
  have hclose : Reader.closeString frames (.key before) (textBytes key).reverse =
      .ok ⟨frames, .colon before key⟩ := by
    simp only [Reader.closeString, List.reverse_reverse, decodeText_textBytes]
  rw [textBytes_quoteJson, hbytes]
  have hquote := passage_closeQuote frames (.key before) key _ hclose
  exact (Passage.step rfl hphase hquote).append hcolon

/-! ### Containers -/

theorem deepen_of_lt {frames : List Frame} {next : Reader}
    (h : frames.length + 1 < Reader.maxDepth) : Reader.deepen frames next = .ok next :=
  if_pos h

/-- The rest of an array, behind one of its items. -/
theorem passage_items (room depth : Nat) (frames : List Frame) (items : List Json)
    (h : ∀ w ∈ items, LeadsBehind room w) (hroom : frames.length + 1 + room < Reader.maxDepth)
    (before : List Json) (v : Json) (r : Reader) (hr : r.Behind (.list before :: frames) v) :
    Passage ⟨.code, r⟩
      (textBytes (Json.prettyItems (depth + 1) items) ++
        (textBytes (newLine depth) ++ textBytes "]"))
      ⟨.code, ⟨frames, .after (.array (before.reverse ++ v :: items))⟩⟩ := by
  -- The item in front is in the hands of the reader, those before it in the frame.
  induction items generalizing before v r with
  | nil =>
      rw [Json.prettyItems]
      refine (passage_newLine_of_behind hr depth).append (.step rfl ?_ (.refl _))
      rw [← List.reverse_cons]
      rfl
  | cons w rest ih =>
      have hcomma : r.step ','.toUInt8 = .ok ⟨.list (v :: before) :: frames, .nextItem⟩ :=
        hr _ (Or.inl rfl)
      rcases h w List.mem_cons_self (depth + 1) (.list (v :: before) :: frames) .nextItem rfl
        hroom with ⟨next, hnext, hbehind⟩
      have hrest := ih (fun x hx => h x (List.mem_cons_of_mem w hx)) (v :: before) w next hbehind
      -- The comma moves one item into the frame, and the rest goes on behind the next one.
      rw [List.reverse_cons, List.append_assoc] at hrest
      simp only [Json.prettyItems, textBytes_append, List.append_assoc]
      exact .step rfl hcomma ((passage_newLine _ .nextItem rfl _).append (hnext.append hrest))

theorem insertMember_of_nodup (before : List (String × Json)) (key : String) (v : Json)
    (after : List (String × Json))
    (h : ((before ++ (key, v) :: after).map Prod.fst).Nodup) :
    Json.insertMember key v before = before ++ [(key, v)] := by
  refine insertMember_of_not_mem key v before fun hmem => ?_
  rw [List.map_append, List.nodup_append] at h
  exact h.2.2 key hmem key List.mem_cons_self rfl

/-- The rest of an object, behind the value of one of its members. -/
theorem passage_members (room depth : Nat) (frames : List Frame) (members : List (String × Json))
    (h : ∀ m ∈ members, LeadsBehind room m.2)
    (hroom : frames.length + 1 + room < Reader.maxDepth) (before : Members) (key : String)
    (v : Json) (hkeys : ((before ++ (key, v) :: members).map Prod.fst).Nodup) (r : Reader)
    (hr : r.Behind (.member before key :: frames) v) :
    Passage ⟨.code, r⟩
      (textBytes (Json.prettyMembers (depth + 1) members) ++
        (textBytes (newLine depth) ++ textBytes "\x7d"))
      ⟨.code, ⟨frames, .after (.object (before ++ (key, v) :: members))⟩⟩ := by
  induction members generalizing before key v r with
  | nil =>
      rw [Json.prettyMembers]
      refine (passage_newLine_of_behind hr depth).append (.step rfl ?_ (.refl _))
      rw [← insertMember_of_nodup before key v [] hkeys]
      rfl
  | cons m rest ih =>
      -- Keys are not repeated, so the member is added at the end and replaces none.
      have hnew := insertMember_of_nodup before key v (m :: rest) hkeys
      have hcomma : r.step ','.toUInt8 =
          .ok ⟨frames, .nextKey (Json.insertMember key v before)⟩ := hr _ (Or.inl rfl)
      rw [hnew] at hcomma
      have hkey := passage_key frames (.nextKey (before ++ [(key, v)])) _ rfl m.1
      rcases h m List.mem_cons_self (depth + 1) (.member (before ++ [(key, v)]) m.1 :: frames)
        .value rfl hroom with ⟨next, hnext, hbehind⟩
      have hrest := ih (fun x hx => h x (List.mem_cons_of_mem m hx)) (before ++ [(key, v)]) m.1 m.2
        (by rwa [List.append_assoc]) next hbehind
      -- Key, value, rest: one passage after the other.
      have hmembers := hkey.append (hnext.append hrest)
      simp only [Json.prettyMembers, textBytes_append, List.append_assoc] at hmembers ⊢
      exact .step rfl hcomma ((passage_newLine _ (.nextKey _) rfl _).append hmembers)

/-! ### Values -/

theorem leadsBehind_word (room : Nat) (v : Json) (first next : UInt8) (rest : List UInt8)
    (htext : ∀ depth, textBytes (v.prettyAt depth) = first :: next :: rest)
    (hbegin : ∀ frames, Reader.beginValue frames first = .ok ⟨frames, .word next rest v⟩)
    (hfirst : isJsonBlank first = false ∧ first ≠ ']'.toUInt8)
    (hcode : ∀ b ∈ first :: next :: rest, CommentState.code.step b = (.code, some b)) :
    LeadsBehind room v := by
  intro depth frames phase hphase _
  have hstep := Reader.step_of_awaitsValue frames phase hphase first hfirst.1 hfirst.2
  rw [htext]
  refine ⟨_, .step (hcode first List.mem_cons_self) (hstep.trans (hbegin frames)) ?_,
    Reader.behind_after frames v⟩
  exact passage_word frames v next rest fun b hb => hcode b (List.mem_cons_of_mem first hb)

theorem leadsBehind_array (room : Nat) (items : List Json) (h : ∀ v ∈ items, LeadsBehind room v) :
    LeadsBehind (room + 1) (.array items) := by
  intro depth frames phase hphase hroom
  have hopen : Reader.step ⟨frames, phase⟩ '['.toUInt8 = .ok ⟨.list [] :: frames, .firstItem⟩ :=
    (Reader.step_of_awaitsValue frames phase hphase _ rfl (by decide)).trans
      (deepen_of_lt (by omega))
  refine ⟨_, ?_, Reader.behind_after frames _⟩
  -- An empty array has no lines of its own.
  cases items with
  | nil =>
      rw [Json.prettyAt]
      exact .step rfl hopen (.step rfl rfl (.refl _))
  | cons v rest =>
      have hinside : frames.length + 1 + room < Reader.maxDepth := by omega
      rcases h v List.mem_cons_self (depth + 1) (.list [] :: frames) .firstItem rfl hinside with
        ⟨r, hr, hbehind⟩
      have hrest := passage_items room depth frames rest
        (fun w hw => h w (List.mem_cons_of_mem v hw)) hinside [] v r hbehind
      simp only [Json.prettyAt, textBytes_append, List.append_assoc]
      exact .step rfl hopen ((passage_newLine _ .firstItem rfl _).append (hr.append hrest))

theorem leadsBehind_object (room : Nat) (members : List (String × Json))
    (hkeys : (members.map Prod.fst).Nodup) (h : ∀ m ∈ members, LeadsBehind room m.2) :
    LeadsBehind (room + 1) (.object members) := by
  intro depth frames phase hphase hroom
  have hopen : Reader.step ⟨frames, phase⟩ '\x7b'.toUInt8 = .ok ⟨frames, .firstKey⟩ :=
    (Reader.step_of_awaitsValue frames phase hphase _ rfl (by decide)).trans
      (deepen_of_lt (by omega))
  refine ⟨_, ?_, Reader.behind_after frames _⟩
  cases members with
  | nil =>
      rw [Json.prettyAt]
      exact .step rfl hopen (.step rfl rfl (.refl _))
  | cons m rest =>
      have hinside : frames.length + 1 + room < Reader.maxDepth := by omega
      have hkey := passage_key frames .firstKey [] rfl m.1
      rcases h m List.mem_cons_self (depth + 1) (.member [] m.1 :: frames) .value rfl hinside with
        ⟨r, hr, hbehind⟩
      have hrest := passage_members room depth frames rest
        (fun x hx => h x (List.mem_cons_of_mem m hx)) hinside [] m.1 m.2 hkeys r hbehind
      have hmembers := hkey.append (hr.append hrest)
      simp only [Json.prettyAt, textBytes_append, List.append_assoc] at hmembers ⊢
      exact .step rfl hopen ((passage_newLine _ .firstKey rfl _).append hmembers)

/-- A tame value leads behind itself, if the levels it takes are left. -/
theorem leadsBehind_of_tame (room : Nat) (v : Json) (h : v.Tame room) : LeadsBehind room v := by
  -- One case for each kind of value. Containers have the claim for what they hold.
  induction h with
  | null room =>
      refine leadsBehind_word room .null 'n'.toUInt8 'u'.toUInt8 (textBytes "ll") (fun depth => ?_)
        (fun _ => rfl) (by decide) (by decide +kernel)
      rw [Json.prettyAt]
      decide
  | bool room b =>
      cases b with
      | false =>
          refine leadsBehind_word room _ 'f'.toUInt8 'a'.toUInt8 (textBytes "lse")
            (fun depth => ?_) (fun _ => rfl) (by decide) (by decide +kernel)
          rw [Json.prettyAt]
          decide
      | true =>
          refine leadsBehind_word room _ 't'.toUInt8 'r'.toUInt8 (textBytes "ue")
            (fun depth => ?_) (fun _ => rfl) (by decide) (by decide +kernel)
          rw [Json.prettyAt]
          decide
  | number room n hn =>
      intro depth frames phase hphase _
      rw [Json.prettyAt]
      exact passage_number frames phase hphase n hn
  | string room s =>
      intro depth frames phase hphase _
      rw [Json.prettyAt]
      exact ⟨_, passage_string frames phase hphase s, Reader.behind_after frames _⟩
  | array room items _ ih => exact leadsBehind_array room items ih
  | object room members hkeys _ ih => exact leadsBehind_object room members hkeys ih

/-- A printed value is read back, if a newline ends it. -/
theorem read_pretty (room : Nat) (v : Json) (h : v.Tame room) (hroom : room < Reader.maxDepth) :
    Json.read (.withoutComments (textBytes (v.pretty ++ "\n"))) = .ok v := by
  rcases leadsBehind_of_tame room v h 0 [] .value rfl (by simpa using hroom) with ⟨r, hr, hbehind⟩
  -- A number at the very end of a text would still be waiting for what ends it.
  have hnewline : r.step '\n'.toUInt8 = .ok ⟨[], .after v⟩ := hbehind _ (Or.inr rfl)
  have hbytes : textBytes "\n" = ['\n'.toUInt8] := by decide
  refine read_of_passage _ v ?_
  rw [textBytes_append, hbytes, Json.pretty]
  exact hr.append (.step rfl hnewline (.refl _))

end Chomsky
