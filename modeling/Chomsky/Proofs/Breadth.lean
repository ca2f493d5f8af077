import Chomsky.Json.Reader
import Mathlib.Tactic.SplitIfs

/-!
# Arrays No Longer Than Their Text

An array that is read has no more items than its text has bytes.

One byte adds one item at most, so the bound can grow with the position. It is carried
by whatever the reader holds: the items before the one it is in, the members before
the one it is in, and the value it is behind. The arrays of interest are the values of
an object's members, and those have to be bounded before the object is complete, since
the reader holds them until then. What is nested deeper is left alone.

## Main definitions

* `Json.Within`: The bound for a value and for its members.
* `Reader.Within`: The bound for everything a reader holds.

## Theorems

* `within_step`: One more byte raises the bound by one.
* `within_run`: The bound behind a text.
* `within_read`: A text of `n` bytes has no array of more than `n` items.
-/

namespace Chomsky

namespace Json

/-- The number of items, for an array. -/
def itemCount : Json → Nat
  | array items => items.length
  | _ => 0

/-- None of the arrays among the members' values has more items than that. -/
def MembersWithin (n : Nat) (members : Members) : Prop := ∀ m ∈ members, m.2.itemCount ≤ n

/-- An array has no more items than that, nor has any that is a member's value. -/
def Within (n : Nat) : Json → Prop
  | array items => items.length ≤ n
  | object members => MembersWithin n members
  | _ => True

theorem itemCount_le_of_within (n : Nat) (v : Json) (h : v.Within n) : v.itemCount ≤ n := by
  cases v with
  | array items => exact h
  | _ => exact Nat.zero_le n

theorem membersWithin_mono {n k : Nat} (hnk : n ≤ k) (members : Members)
    (h : MembersWithin n members) : MembersWithin k members :=
  fun m hm => Nat.le_trans (h m hm) hnk

theorem within_mono {n k : Nat} (hnk : n ≤ k) (v : Json) (h : v.Within n) : v.Within k := by
  cases v with
  | array items => exact Nat.le_trans h hnk
  | object members => exact membersWithin_mono hnk members h
  | _ => trivial

theorem mem_insertMember (key : String) (v : Json) (members : Members) (m : String × Json)
    (h : m ∈ insertMember key v members) : m = (key, v) ∨ m ∈ members := by
  induction members with
  | nil => exact Or.inl (List.mem_singleton.mp h)
  | cons first rest ih =>
      unfold insertMember at h
      split_ifs at h
      · rcases List.mem_cons.mp h with rfl | h
        · exact Or.inl rfl
        · exact Or.inr (List.mem_cons_of_mem first h)
      · rcases List.mem_cons.mp h with rfl | h
        · exact Or.inr List.mem_cons_self
        · exact (ih h).imp_right (List.mem_cons_of_mem first)

theorem membersWithin_insertMember (n : Nat) (key : String) (v : Json) (members : Members)
    (hv : v.Within n) (h : MembersWithin n members) :
    MembersWithin n (insertMember key v members) := by
  intro m hm
  rcases mem_insertMember key v members m hm with rfl | hm
  · exact itemCount_le_of_within n v hv
  · exact h m hm

end Json

open Json

/-- What precedes the value being read is bounded. -/
def Frame.Within (n : Nat) : Frame → Prop
  | list before => before.length ≤ n
  | member before _ => MembersWithin n before

/-- What precedes a string is bounded. -/
def StringRole.Within (n : Nat) : StringRole → Prop
  | value => True
  | key before => MembersWithin n before

/-- What a phase holds is bounded. -/
def Phase.Within (n : Nat) : Phase → Prop
  | nextKey before => MembersWithin n before
  | colon before _ => MembersWithin n before
  | word _ _ v => v.Within n
  | string role _ _ => role.Within n
  | after v => v.Within n
  | _ => True

/-- Everything a reader holds is bounded. -/
structure Reader.Within (n : Nat) (r : Reader) : Prop where
  frames : ∀ f ∈ r.frames, f.Within n
  phase : r.phase.Within n

namespace Reader

theorem frames_mono {n k : Nat} (hnk : n ≤ k) (frames : List Frame)
    (h : ∀ f ∈ frames, f.Within n) : ∀ f ∈ frames, f.Within k := by
  intro f hf
  cases f with
  | list before => exact Nat.le_trans (h _ hf) hnk
  | member before key => exact membersWithin_mono hnk before (h _ hf)

theorem phase_mono {n k : Nat} (hnk : n ≤ k) (phase : Phase) (h : phase.Within n) :
    phase.Within k := by
  cases phase with
  | nextKey before => exact membersWithin_mono hnk before h
  | colon before key => exact membersWithin_mono hnk before h
  | word next rest v => exact within_mono hnk v h
  | string role phase text =>
      cases role with
      | value => trivial
      | key before => exact membersWithin_mono hnk before h
  | after v => exact within_mono hnk v h
  | _ => trivial

theorem within_mono {n k : Nat} (hnk : n ≤ k) (r : Reader) (h : r.Within n) : r.Within k :=
  ⟨frames_mono hnk r.frames h.frames, phase_mono hnk r.phase h.phase⟩

section

variable (n : Nat) (frames : List Frame) (hframes : ∀ f ∈ frames, f.Within n) (b : UInt8)
  (next : Reader)

include hframes

/-- A value begins without items and without members. -/
theorem within_beginValue (h : beginValue frames b = .ok next) : next.Within n := by
  have hlist : ∀ f ∈ .list [] :: frames, f.Within n := by
    intro f hf
    rcases List.mem_cons.mp hf with rfl | hf
    · exact Nat.zero_le n
    · exact hframes f hf
  unfold beginValue deepen at h
  split_ifs at h
  -- Words, a sign and a quote open no container.
  · exact Except.ok.inj h ▸ ⟨hframes, trivial⟩
  · exact Except.ok.inj h ▸ ⟨hframes, trivial⟩
  · exact Except.ok.inj h ▸ ⟨hframes, trivial⟩
  · exact Except.ok.inj h ▸ ⟨hframes, trivial⟩
  · exact Except.ok.inj h ▸ ⟨hframes, trivial⟩
  · exact Except.ok.inj h ▸ ⟨hlist, trivial⟩
  · exact Except.ok.inj h ▸ ⟨hframes, trivial⟩
  · split at h
    · next d _ =>
        cases hd : Numeral.sign.takeDigit d with
        | error f => simp [hd, Except.map] at h
        | ok numeral =>
            rw [hd] at h
            exact Except.ok.inj h ▸ ⟨hframes, trivial⟩
    · exact absurd h (by simp)

/-- A comma or the end of an array makes it one item longer. -/
theorem within_afterValue (v : Json) (hv : v.Within n) (h : afterValue frames v b = .ok next) :
    next.Within (n + 1) := by
  have hmore := frames_mono (Nat.le_succ n) frames hframes
  unfold afterValue at h
  by_cases hblank : isJsonBlank b = true
  · rw [if_pos hblank] at h
    exact Except.ok.inj h ▸ ⟨hmore, Json.within_mono (Nat.le_succ n) v hv⟩
  · rw [if_neg hblank] at h
    cases frames with
    | nil => exact absurd h (by simp)
    | cons f rest =>
        have hrest : ∀ g ∈ rest, g.Within (n + 1) := fun g hg => hmore g (List.mem_cons_of_mem f hg)
        cases f with
        | list before =>
            have hbefore : before.length ≤ n := hframes _ List.mem_cons_self
            dsimp only at h
            split_ifs at h
            · -- The value joins the items in front of the next one.
              refine Except.ok.inj h ▸ ⟨fun g hg => ?_, trivial⟩
              rcases List.mem_cons.mp hg with rfl | hg
              · exact Nat.succ_le_succ hbefore
              · exact hrest g hg
            · refine Except.ok.inj h ▸ ⟨hrest, ?_⟩
              show ((v :: before).reverse).length ≤ n + 1
              rw [List.length_reverse]
              exact Nat.succ_le_succ hbefore
        | member before key =>
            -- The value may be an array itself, but one that was read before this byte.
            have hmembers := membersWithin_mono (Nat.le_succ n) _
              (membersWithin_insertMember n key v before hv (hframes _ List.mem_cons_self))
            dsimp only at h
            split_ifs at h
            · exact Except.ok.inj h ▸ ⟨hrest, hmembers⟩
            · exact Except.ok.inj h ▸ ⟨hrest, hmembers⟩

/-- A string has neither items nor members. -/
theorem within_closeString (role : StringRole) (text : List UInt8) (hrole : role.Within n)
    (h : closeString frames role text = .ok next) : next.Within n := by
  unfold closeString at h
  split at h
  · exact absurd h (by simp)
  · cases role with
    | value => exact Except.ok.inj h ▸ ⟨hframes, trivial⟩
    | key before => exact Except.ok.inj h ▸ ⟨hframes, hrole⟩

end

/-- One more byte raises the bound by one. -/
theorem within_step (n : Nat) (r : Reader) (b : UInt8) (next : Reader) (hr : r.Within n)
    (h : r.step b = .ok next) : next.Within (n + 1) := by
  rcases r with ⟨frames, phase⟩
  have hmore : Within (n + 1) ⟨frames, phase⟩ := within_mono (Nat.le_succ n) _ hr
  have hbegin : beginValue frames b = .ok next → next.Within (n + 1) := fun hb =>
    within_beginValue (n + 1) frames hmore.frames b next hb
  -- Only behind a value is anything added, and behind a number, which ends late.
  cases phase with
  | value =>
      simp only [step] at h
      split_ifs at h
      · exact Except.ok.inj h ▸ hmore
      · exact hbegin h
  | firstItem =>
      simp only [step] at h
      split_ifs at h
      · exact Except.ok.inj h ▸ hmore
      · refine Except.ok.inj h ▸ ⟨fun f hf => hmore.frames f (List.mem_of_mem_tail hf), ?_⟩
        exact Nat.zero_le (n + 1)
      · exact hbegin h
  | nextItem =>
      simp only [step] at h
      split_ifs at h
      · exact Except.ok.inj h ▸ hmore
      · exact hbegin h
  | firstKey =>
      have hnone : MembersWithin (n + 1) [] := fun m hm => absurd hm List.not_mem_nil
      simp only [step] at h
      split_ifs at h
      · exact Except.ok.inj h ▸ hmore
      · exact Except.ok.inj h ▸ ⟨hmore.frames, hnone⟩
      · exact Except.ok.inj h ▸ ⟨hmore.frames, hnone⟩
  | nextKey before =>
      simp only [step] at h
      split_ifs at h
      · exact Except.ok.inj h ▸ hmore
      · exact Except.ok.inj h ▸ ⟨hmore.frames, hmore.phase⟩
  | colon before key =>
      simp only [step] at h
      split_ifs at h
      · exact Except.ok.inj h ▸ hmore
      · refine Except.ok.inj h ▸ ⟨fun f hf => ?_, trivial⟩
        rcases List.mem_cons.mp hf with rfl | hf
        · exact hmore.phase
        · exact hmore.frames f hf
  | word expected rest v =>
      simp only [step] at h
      split_ifs at h
      cases rest with
      | nil => exact Except.ok.inj h ▸ ⟨hmore.frames, hmore.phase⟩
      | cons c others => exact Except.ok.inj h ▸ ⟨hmore.frames, hmore.phase⟩
  | number negative numeral =>
      simp only [step] at h
      split at h
      · exact absurd h (by simp)
      · exact Except.ok.inj h ▸ ⟨hmore.frames, trivial⟩
      · next m _ => exact within_afterValue n frames hr.frames b next (.number m) trivial h
  | string role phase text =>
      simp only [step] at h
      split at h
      · exact absurd h (by simp)
      · exact Except.ok.inj h ▸ ⟨hmore.frames, hmore.phase⟩
      · exact within_closeString (n + 1) frames hmore.frames next role text hmore.phase h
  | after v => exact within_afterValue n frames hr.frames b next v hr.phase h

theorem within_finish (n : Nat) (r : Reader) (v : Json) (hr : r.Within n)
    (h : r.finish = .ok v) : v.Within n := by
  rcases r with ⟨frames, phase⟩
  have hafter : ∀ w, w.Within n → finishAfter frames w = .ok v → v.Within n := by
    intro w hw hfinish
    unfold finishAfter at hfinish
    split at hfinish
    · exact Except.ok.inj hfinish ▸ hw
    · exact absurd hfinish (by simp)
    · exact absurd hfinish (by simp)
  cases phase with
  | number negative numeral =>
      simp only [finish] at h
      split at h
      · exact absurd h (by simp)
      · exact absurd h (by simp)
      · next m _ => exact hafter (.number m) trivial h
  | after w => exact hafter w hr.phase h
  | _ => exact absurd h (by simp [finish])

/-- The bound behind a text. -/
theorem within_run (ends : Bool) (r : Reader) (n : Nat) (here : Position)
    (reads : List (Option UInt8)) (v : Json) (hr : r.Within n)
    (h : r.run ends here reads = .ok v) : v.Within (n + reads.length) := by
  induction reads generalizing r n here with
  | nil =>
      unfold run at h
      split_ifs at h
      cases hfinish : r.finish with
      | error f => simp [hfinish] at h
      | ok w =>
          rw [hfinish] at h
          exact Except.ok.inj h ▸ within_finish n r w hr hfinish
  | cons read rest ih =>
      cases read with
      | none => exact absurd h (by simp [run])
      | some b =>
          unfold run at h
          cases hstep : r.step b with
          | error f => simp [hstep] at h
          | ok next =>
              rw [hstep] at h
              have hrest := ih next (n + 1) (here.advance b) (within_step n r b next hr hstep) h
              rwa [Nat.add_right_comm, Nat.add_assoc] at hrest

end Reader

theorem length_reads_follow (state : CommentState) (bytes : List UInt8) :
    (Feed.follow state bytes).reads.length = bytes.length := by
  induction bytes generalizing state with
  | nil => rfl
  | cons b rest ih => simp [Feed.follow, ih]

/-- A text has no array, be it the value or that of a member, of more items than it has
    bytes. -/
theorem within_read (bytes : List UInt8) (v : Json)
    (h : Json.read (.withoutComments bytes) = .ok v) : v.Within bytes.length := by
  have hstart : Reader.start.Within 0 := ⟨fun f hf => absurd hf List.not_mem_nil, trivial⟩
  have hrun := Reader.within_run _ _ 0 _ _ v hstart h
  rwa [Nat.zero_add, Feed.withoutComments, length_reads_follow] at hrun

end Chomsky
