import Chomsky.Proofs.Abbreviation

/-!
# Long Bodies and Their Chains

Breaking up long bodies only abbreviates a grammar. The links are straight: a
chain uses the symbols of its body, which know nothing of fresh names, and the
chain variable right before. Unrolling a chain from its end gives the body back
symbol by symbol. So no variable of the grammar gains or loses a word.

The shape is the other half. With a name for every link a body of three or more
symbols comes out with two, and so does each link, while shorter bodies are left
alone. Nothing new turns up in the bodies other than chain variables.

## Main definitions

* `Body.pieces`: The bodies that come of a split.
* `Grammar.IsPiece`: What a piece of a long body looks like.

## Theorems

* `expand_split`: Expanding a split body gives the body back.
* `straight_links`: The links of all bodies are straight.
* `of_mem_alternatives_eliminateLong`: The bodies afterwards.
* `abbreviates_eliminateLong`: Breaking up long bodies abbreviates.
* `language_eliminateLong_of_not_mem`: It keeps the words of the other variables.
* `count_alternatives_eliminateLong`: The shortest bodies stay as they are.
-/

namespace Chomsky

namespace Body

/-- The bodies that come of a split: that of the variable and those of the links. -/
def pieces (p : Body × List Link) : List Body := p.1 :: p.2.map Prod.snd

theorem eq_of_mem_pieces (body piece : Body) (h : piece ∈ pieces (body, [])) : piece = body :=
  List.mem_singleton.mp h

theorem mem_pieces_cons (body piece : Body) (l : Link) (tail : List Link) :
    piece ∈ pieces (body, l :: tail) ↔ piece = l.2 ∨ piece ∈ pieces (body, tail) := by
  simp only [pieces, List.map_cons, List.mem_cons]
  exact or_left_comm

/-- Unrolling a chain whose links are equations gives back what was chained. -/
theorem expand_chain (links : List Link) (first : Symbol) (rest : Body) (names : List Variable)
    (h : ∀ l ∈ (chain first rest names).2, expand links [.nonterminal l.1] = expand links l.2) :
    expand links (chain first rest names).1 = expand links (first :: rest) := by
  fun_induction chain first rest names with
  | case1 first x y rest v names body tail heq ih =>
      rw [heq] at ih
      have hlink : expand links [.nonterminal v] = expand links [first, x] :=
        h (v, [first, x]) List.mem_cons_self
      have hrest := ih fun l hl => h l (List.mem_cons_of_mem _ hl)
      -- The chain variable takes the place of the first two symbols.
      rw [hrest, ← List.singleton_append, expand_append, hlink, ← expand_append,
        List.cons_append, List.singleton_append]
  | case2 first rest names _ => rfl

theorem expand_split (links : List Link) (names : List Variable) (body : Body)
    (h : ∀ l ∈ (body.split names).2, expand links [.nonterminal l.1] = expand links l.2) :
    expand links (body.split names).1 = expand links body := by
  cases body with
  | nil => rfl
  | cons first rest => exact expand_chain links first rest names h

/-- The symbols in a chain are those that were chained and chain variables. -/
theorem of_mem_pieces_chain (first : Symbol) (rest : Body) (names : List Variable) (piece : Body)
    (hp : piece ∈ pieces (chain first rest names)) (s : Symbol) (hs : s ∈ piece) :
    s ∈ first :: rest ∨ ∃ n ∈ names.take (rest.length - 1), s = .nonterminal n := by
  fun_induction chain first rest names with
  | case1 first x y rest v names body tail heq ih =>
      rw [heq] at ih
      simp only [List.length_cons, Nat.add_sub_cancel, List.take_succ_cons] at ih ⊢
      rcases (mem_pieces_cons body piece _ tail).mp hp with rfl | hp
      · rcases List.mem_cons.mp hs with rfl | hs
        · exact Or.inl List.mem_cons_self
        · rw [List.mem_singleton.mp hs]
          exact Or.inl (List.mem_cons_of_mem first List.mem_cons_self)
      · -- What is chained next begins with the new variable.
        rcases ih hp with hin | ⟨n, hn, rfl⟩
        · rcases List.mem_cons.mp hin with rfl | hin
          · exact Or.inr ⟨v, List.mem_cons_self, rfl⟩
          · exact Or.inl (List.mem_cons_of_mem first (List.mem_cons_of_mem x hin))
        · exact Or.inr ⟨n, List.mem_cons_of_mem v hn, rfl⟩
  | case2 first rest names _ => exact Or.inl (eq_of_mem_pieces (first :: rest) piece hp ▸ hs)

/-- With a name for every link, a long body falls into pieces of two symbols. -/
theorem length_of_mem_pieces_chain (first : Symbol) (rest : Body) (names : List Variable)
    (hnames : rest.length - 1 ≤ names.length) (piece : Body)
    (hp : piece ∈ pieces (chain first rest names)) :
    piece = first :: rest ∧ rest.length ≤ 1 ∨ piece.length = 2 ∧ 2 ≤ rest.length := by
  fun_induction chain first rest names with
  | case1 first x y rest v names body tail heq ih =>
      rw [heq] at ih
      simp only [List.length_cons] at hnames ih ⊢
      refine Or.inr ⟨?_, by omega⟩
      rcases (mem_pieces_cons body piece _ tail).mp hp with rfl | hp
      · rfl
      · rcases ih (by omega) hp with ⟨rfl, hlen⟩ | ⟨hlen, _⟩
        · simp only [List.length_cons]
          omega
        · exact hlen
  | case2 first rest names hstop =>
      refine Or.inl ⟨eq_of_mem_pieces (first :: rest) piece hp, ?_⟩
      -- With two symbols left there would be a name for one more link.
      rcases rest with _ | ⟨x, _ | ⟨y, rest⟩⟩
      · exact Nat.zero_le 1
      · exact Nat.le_refl 1
      · cases names with
        | nil =>
            simp only [List.length_cons, List.length_nil] at hnames
            omega
        | cons v names => exact (hstop x y rest v names rfl rfl).elim

theorem of_mem_pieces_split (names : List Variable) (body piece : Body)
    (hp : piece ∈ pieces (body.split names)) (s : Symbol) (hs : s ∈ piece) :
    s ∈ body ∨ ∃ n ∈ names.take body.chainLength, s = .nonterminal n := by
  cases body with
  | nil => exact Or.inl (eq_of_mem_pieces [] piece hp ▸ hs)
  | cons first rest =>
      have h := of_mem_pieces_chain first rest names piece hp s hs
      rwa [show rest.length - 1 = chainLength (first :: rest) from rfl] at h

/-- With a name for every link, the pieces of a short body are that body alone,
    and those of a long one have two symbols. -/
theorem length_of_mem_pieces_split (names : List Variable) (body piece : Body)
    (hnames : body.chainLength ≤ names.length) (hp : piece ∈ pieces (body.split names)) :
    piece = body ∧ body.length ≤ 2 ∨ piece.length = 2 ∧ 3 ≤ body.length := by
  cases body with
  | nil => exact Or.inl ⟨eq_of_mem_pieces [] piece hp, Nat.zero_le 2⟩
  | cons first rest =>
      rw [List.length_cons]
      rcases length_of_mem_pieces_chain first rest names hnames piece hp with ⟨he, h⟩ | ⟨he, h⟩
      · exact Or.inl ⟨he, by omega⟩
      · exact Or.inr ⟨he, by omega⟩

theorem links_split_eq_nil (names : List Variable) (body : Body) (h : body.length ≤ 2) :
    (body.split names).2 = [] := by
  have hnames := map_fst_split names body
  rw [chainLength, Nat.sub_eq_zero_of_le h, List.take_zero] at hnames
  exact List.map_eq_nil_iff.mp hnames

theorem straight_chain (first : Symbol) (rest : Body) (names : List Variable)
    (hnodup : names.Nodup) (hfresh : ∀ n ∈ names, .nonterminal n ∉ first :: rest) :
    Straight (chain first rest names).2 := by
  fun_induction chain first rest names with
  | case1 first x y rest v names body tail heq ih =>
      have htail : tail.map Prod.fst = names.take ((y :: rest).length - 1) := by
        rw [← map_fst_chain (.nonterminal v), heq]
      rw [heq] at ih
      rw [List.nodup_cons] at hnodup
      -- No name that is left is in the two symbols of the link.
      have hpair : ∀ n ∈ v :: names, .nonterminal n ∉ [first, x] := fun n hn hmem =>
        hfresh n hn (List.Sublist.mem hmem (by simp))
      refine Straight.cons _ _ (hpair v List.mem_cons_self) (fun m hm => ?_) ?_
      · -- The links behind this one have later names.
        have hname : m.1 ∈ names := by
          have hmap := List.mem_map_of_mem (f := Prod.fst) hm
          rw [htail] at hmap
          exact List.mem_of_mem_take hmap
        have hne : m.1 ≠ v := fun e => hnodup.1 (e ▸ hname)
        exact ⟨hne, hpair m.1 (List.mem_cons_of_mem v hname)⟩
      · refine ih hnodup.2 fun n hn hmem => ?_
        rcases List.mem_cons.mp hmem with he | hmem
        · exact hnodup.1 (Symbol.nonterminal.inj he ▸ hn)
        · exact hfresh n (List.mem_cons_of_mem v hn)
            (List.mem_cons_of_mem first (List.mem_cons_of_mem x hmem))
  | case2 first rest names _ => exact Straight.nil

theorem straight_split (names : List Variable) (body : Body) (hnodup : names.Nodup)
    (hfresh : ∀ n ∈ names, .nonterminal n ∉ body) : Straight (body.split names).2 := by
  cases body with
  | nil => exact Straight.nil
  | cons first rest => exact straight_chain first rest names hnodup hfresh

end Body

theorem of_mem_splitBodies (names : List Variable) (bodies : List Body) (p : Body × List Link)
    (hp : p ∈ splitBodies names bodies) :
    ∃ body ∈ bodies, ∃ k, k + body.chainLength ≤ chainLengths bodies ∧
      p = body.split (names.drop k) := by
  induction bodies generalizing names with
  | nil => exact absurd hp List.not_mem_nil
  | cons body rest ih =>
      rw [chainLengths]
      rcases List.mem_cons.mp hp with rfl | hp
      · exact ⟨body, List.mem_cons_self, 0, by omega, rfl⟩
      · -- The names that the first body takes are passed over as well.
        rcases ih _ hp with ⟨other, hmem, k, hk, rfl⟩
        refine ⟨other, List.mem_cons_of_mem body hmem, body.chainLength + k, by omega, ?_⟩
        rw [List.drop_drop]

theorem of_mem_splitRules (names : List Variable) (rules : List Rule)
    (r : Variable × List (Body × List Link)) (hr : r ∈ splitRules names rules) :
    ∃ q ∈ rules, ∃ k, k + chainLengths q.2 ≤ chainLengths (rules.flatMap Prod.snd) ∧
      r = (q.1, splitBodies (names.drop k) q.2) := by
  induction rules generalizing names with
  | nil => exact absurd hr List.not_mem_nil
  | cons q rest ih =>
      rw [List.flatMap_cons, chainLengths_append]
      rcases List.mem_cons.mp hr with rfl | hr
      · exact ⟨q, List.mem_cons_self, 0, by omega, rfl⟩
      · rcases ih _ hr with ⟨other, hmem, k, hk, rfl⟩
        refine ⟨other, List.mem_cons_of_mem q hmem, chainLengths q.2 + k, by omega, ?_⟩
        rw [List.drop_drop]

theorem splitBodies_append (names : List Variable) (front back : List Body) :
    splitBodies names (front ++ back) =
      splitBodies names front ++ splitBodies (names.drop (chainLengths front)) back := by
  induction front generalizing names with
  | nil => rfl
  | cons body rest ih =>
      simp only [List.cons_append, splitBodies, ih, List.drop_drop, chainLengths]

/-- Splitting the rules is splitting their bodies in a row. -/
theorem flatMap_splitRules (names : List Variable) (rules : List Rule) :
    (splitRules names rules).flatMap Prod.snd = splitBodies names (rules.flatMap Prod.snd) := by
  induction rules generalizing names with
  | nil => rfl
  | cons r rest ih => rw [splitRules, List.flatMap_cons, List.flatMap_cons, splitBodies_append, ih]

theorem straight_splitBodies (names : List Variable) (bodies : List Body) (hnodup : names.Nodup)
    (hfresh : ∀ body ∈ bodies, ∀ n ∈ names, .nonterminal n ∉ body) :
    Straight ((splitBodies names bodies).flatMap Prod.snd) := by
  induction bodies generalizing names with
  | nil => exact Straight.nil
  | cons body rest ih =>
      have hbody := hfresh body List.mem_cons_self
      rw [splitBodies, List.flatMap_cons]
      refine straight_append _ _ (Body.straight_split names body hnodup hbody)
        (ih _ (hnodup.sublist (List.drop_sublist _ _)) ?_) fun l hl m hm => ?_
      · exact fun other hmem n hn =>
          hfresh other (List.mem_cons_of_mem body hmem) n (List.mem_of_mem_drop hn)
      · -- The two links have names from disjoint shares.
        have hdisj := List.disjoint_take_drop hnodup (Nat.le_refl body.chainLength)
        have hlname : l.1 ∈ names.take body.chainLength := by
          rw [← map_fst_split]
          exact List.mem_map_of_mem hl
        have hmname : m.1 ∈ names.drop body.chainLength := by
          have hmap := List.mem_map_of_mem (f := Prod.fst) hm
          rw [map_fst_splitBodies] at hmap
          exact List.mem_of_mem_take hmap
        refine ⟨fun e => hdisj hlname (e ▸ hmname), fun hmem => ?_⟩
        have hpiece : l.2 ∈ Body.pieces (body.split names) :=
          List.mem_cons_of_mem _ (List.mem_map_of_mem hl)
        rcases Body.of_mem_pieces_split names body l.2 hpiece _ hmem with hin | ⟨n, hn, he⟩
        · exact hbody m.1 (List.mem_of_mem_drop hmname) hin
        · exact hdisj (Symbol.nonterminal.inj he ▸ hn) hmname

theorem expand_splitBodies (links : List Link) (names : List Variable) (bodies : List Body)
    (h : ∀ l ∈ (splitBodies names bodies).flatMap Prod.snd,
      Body.expand links [.nonterminal l.1] = Body.expand links l.2) :
    (splitBodies names bodies).map (fun p => Body.expand links p.1) =
      bodies.map (Body.expand links) := by
  induction bodies generalizing names with
  | nil => rfl
  | cons body rest ih =>
      simp only [splitBodies, List.flatMap_cons, List.mem_append] at h
      rw [splitBodies, List.map_cons, List.map_cons, ih _ fun l hl => h l (Or.inr hl),
        Body.expand_split links names body fun l hl => h l (Or.inl hl)]

/-- A body of less than two symbols occurs among the split bodies as often as
    before. -/
theorem count_splitBodies (names : List Variable) (bodies : List Body) (short : Body)
    (hshort : short.length < 2) (hnames : chainLengths bodies ≤ names.length) :
    ((splitBodies names bodies).map Prod.fst).count short = bodies.count short := by
  induction bodies generalizing names with
  | nil => rfl
  | cons body rest ih =>
      rw [chainLengths] at hnames
      have hrest := ih (names.drop body.chainLength) (by rw [List.length_drop]; omega)
      -- Such a body is not split, and no body that is comes out so short.
      have hhead : (body.split names).1 = short ↔ body = short := by
        rcases Body.length_of_mem_pieces_split names body _ (by omega) List.mem_cons_self with
          ⟨he, _⟩ | ⟨hpiece, hlong⟩
        · rw [he]
        · constructor
          · intro he
            rw [he] at hpiece
            omega
          · intro he
            rw [he] at hlong
            omega
      simp only [splitBodies, List.map_cons, List.count_cons, hrest, beq_iff_eq, hhead]

namespace Grammar

@[simp] theorem length_chainNames (g : Grammar) : g.chainNames.length = chainLengths g.bodies :=
  g.length_freshVariables 'N' (chainLengths g.bodies)

theorem not_mem_mentioned_of_mem_chainNames (g : Grammar) (n : Variable) (h : n ∈ g.chainNames) :
    n ∉ g.mentioned :=
  g.not_mem_mentioned_of_mem_freshVariables 'N' (chainLengths g.bodies) n h

theorem mem_chainNames_of_mem_links (g : Grammar) (l : Link) (hl : l ∈ g.links) :
    l.1 ∈ g.chainNames := by
  rw [← g.map_fst_links]
  exact List.mem_map_of_mem hl

theorem links_eq (g : Grammar) :
    g.links = (splitBodies g.chainNames g.bodies).flatMap Prod.snd := by
  rw [bodies, ← flatMap_splitRules, List.flatMap_assoc]
  rfl

theorem straight_links (g : Grammar) : Straight g.links := by
  rw [links_eq]
  refine straight_splitBodies g.chainNames g.bodies (g.nodup_freshVariables 'N' _) ?_
  intro body hb n hn hmem
  exact g.not_mem_mentioned_of_mem_chainNames n hn (g.mem_mentioned_of_mem_body body n hb hmem)

@[simp] theorem defined_eliminateLong (g : Grammar) :
    g.eliminateLong.defined = g.defined ++ g.chainNames := by
  rw [defined, eliminateLong, List.map_append, List.map_map, List.map_map, ← g.map_fst_chains,
    ← g.map_fst_links]
  rfl

theorem mem_chains_of_mem_defined (g : Grammar) (v : Variable) (hv : v ∈ g.defined) :
    ∃ k, k + chainLengths (g.alternatives v) ≤ g.chainNames.length ∧
      (v, splitBodies (g.chainNames.drop k) (g.alternatives v)) ∈ g.chains := by
  rw [← g.map_fst_chains] at hv
  rcases List.mem_map.mp hv with ⟨r, hr, rfl⟩
  rcases of_mem_splitRules g.chainNames g.rules r hr with ⟨q, hq, k, hk, rfl⟩
  have halt := g.alternatives_of_mem_rules q hq
  refine ⟨k, ?_, ?_⟩
  · rw [halt, length_chainNames]
    exact hk
  · rw [halt]
    exact hr

theorem alternatives_eliminateLong_of_mem_chains (g : Grammar)
    (r : Variable × List (Body × List Link)) (hr : r ∈ g.chains) :
    g.eliminateLong.alternatives r.1 = r.2.map Prod.fst :=
  g.eliminateLong.alternatives_of_mem_rules (r.1, r.2.map Prod.fst)
    (List.mem_append_left _ (List.mem_map_of_mem (f := fun r => (r.1, r.2.map Prod.fst)) hr))

theorem alternatives_eliminateLong_of_mem_links (g : Grammar) (l : Link) (hl : l ∈ g.links) :
    g.eliminateLong.alternatives l.1 = [l.2] :=
  g.eliminateLong.alternatives_of_mem_rules (l.1, [l.2])
    (List.mem_append_right _ (List.mem_map_of_mem (f := fun l : Link => (l.1, [l.2])) hl))

/-- Two symbols that are chain variables or stood in a body of three or more
    symbols. -/
def IsPiece (g : Grammar) (piece : Body) : Prop :=
  piece.length = 2 ∧ ∀ s ∈ piece,
    (∃ body ∈ g.bodies, 3 ≤ body.length ∧ s ∈ body) ∨ ∃ n ∈ g.chainNames, s = .nonterminal n

theorem of_mem_pieces (g : Grammar) (body : Body) (hb : body ∈ g.bodies) (k : Nat)
    (hk : k + body.chainLength ≤ g.chainNames.length) (piece : Body)
    (hp : piece ∈ Body.pieces (body.split (g.chainNames.drop k))) :
    piece = body ∧ body.length ≤ 2 ∨ g.IsPiece piece := by
  have hnames : body.chainLength ≤ (g.chainNames.drop k).length := by
    rw [List.length_drop]
    omega
  rcases Body.length_of_mem_pieces_split _ body piece hnames hp with h | ⟨hlen, hlong⟩
  · exact Or.inl h
  · refine Or.inr ⟨hlen, fun s hs => ?_⟩
    rcases Body.of_mem_pieces_split _ body piece hp s hs with hin | ⟨n, hn, rfl⟩
    · exact Or.inl ⟨body, hb, hlong, hin⟩
    · exact Or.inr ⟨n, List.mem_of_mem_drop (List.mem_of_mem_take hn), rfl⟩

theorem isPiece_of_mem_links (g : Grammar) (l : Link) (hl : l ∈ g.links) : g.IsPiece l.2 := by
  rw [links_eq] at hl
  rcases List.mem_flatMap.mp hl with ⟨p, hp, hl⟩
  rcases of_mem_splitBodies _ _ p hp with ⟨body, hb, k, hk, rfl⟩
  rw [← length_chainNames] at hk
  have hpiece := g.of_mem_pieces body hb k hk l.2
    (List.mem_cons_of_mem _ (List.mem_map_of_mem hl))
  rcases hpiece with ⟨_, hshort⟩ | hpiece
  · -- A short body would not have a link.
    rw [Body.links_split_eq_nil _ body hshort] at hl
    exact absurd hl List.not_mem_nil
  · exact hpiece

/-- A body is left alone if it has two symbols at most. Whatever else is there
    afterwards is a piece of a longer one. -/
theorem of_mem_alternatives_eliminateLong (g : Grammar) (v : Variable) (piece : Body)
    (h : piece ∈ g.eliminateLong.alternatives v) :
    piece ∈ g.alternatives v ∧ piece.length ≤ 2 ∨ g.IsPiece piece := by
  have hv := g.eliminateLong.mem_defined_of_mem_alternatives v piece h
  rw [defined_eliminateLong] at hv
  rcases List.mem_append.mp hv with hv | hv
  · rcases g.mem_chains_of_mem_defined v hv with ⟨k, hk, hr⟩
    rw [g.alternatives_eliminateLong_of_mem_chains _ hr] at h
    rcases List.mem_map.mp h with ⟨p, hp, rfl⟩
    rcases of_mem_splitBodies _ _ p hp with ⟨body, hb, j, hj, rfl⟩
    rw [List.drop_drop]
    have hmem := (g.mem_bodies_iff body).mpr ⟨v, hb⟩
    rcases g.of_mem_pieces body hmem (k + j) (by omega) _ List.mem_cons_self with ⟨he, hlen⟩ | hp
    · rw [he]
      exact Or.inl ⟨hb, hlen⟩
    · exact Or.inr hp
  · rw [← g.map_fst_links] at hv
    rcases List.mem_map.mp hv with ⟨l, hl, rfl⟩
    rw [g.alternatives_eliminateLong_of_mem_links l hl, List.mem_singleton] at h
    rw [h]
    exact Or.inr (g.isPiece_of_mem_links l hl)

theorem not_mem_mentioned_of_mem_links (g : Grammar) (l : Link) (hl : l ∈ g.links) :
    l.1 ∉ g.mentioned :=
  g.not_mem_mentioned_of_mem_chainNames l.1 (g.mem_chainNames_of_mem_links l hl)

/-- The chain variables abbreviate the beginnings of bodies. -/
theorem abbreviates_eliminateLong (g : Grammar) : Abbreviates g.eliminateLong g g.links where
  straight := g.straight_links
  nonempty l hl := List.ne_nil_of_length_eq_add_one (g.isPiece_of_mem_links l hl).1
  fresh := g.not_mem_mentioned_of_mem_links
  single := g.alternatives_eliminateLong_of_mem_links
  expanded v hv := by
    by_cases hdef : v ∈ g.defined
    · rcases g.mem_chains_of_mem_defined v hdef with ⟨k, _, hr⟩
      have hlinks : ∀ l ∈ (splitBodies (g.chainNames.drop k) (g.alternatives v)).flatMap Prod.snd,
          Body.expand g.links [.nonterminal l.1] = Body.expand g.links l.2 := fun l hl =>
        expand_link g.links g.straight_links l (List.mem_flatMap.mpr ⟨_, hr, hl⟩)
      -- The bodies of the grammar mention no link, so they expand to themselves.
      have hid : ∀ body ∈ g.alternatives v, Body.expand g.links body = id body := fun body hb =>
        g.expand_of_not_mentioned g.links g.not_mem_mentioned_of_mem_links body
          ((g.mem_bodies_iff body).mpr ⟨v, hb⟩)
      rw [g.alternatives_eliminateLong_of_mem_chains _ hr, List.map_map]
      refine (expand_splitBodies g.links _ _ hlinks).trans ?_
      rw [List.map_congr_left hid, List.map_id]
    · rw [g.alternatives_of_not_mem v hdef, g.eliminateLong.alternatives_of_not_mem v, List.map_nil]
      rw [defined_eliminateLong, ← g.map_fst_links, List.mem_append, not_or]
      exact ⟨hdef, hv⟩

/-- Breaking up long bodies neither adds nor loses a word of a variable other
    than the chain variables. -/
theorem language_eliminateLong_of_not_mem (g : Grammar) (v : Variable) (hv : v ∉ g.chainNames) :
    g.eliminateLong.language v = g.language v := by
  refine g.abbreviates_eliminateLong.language_eq_of_abbreviates v ?_
  rwa [g.map_fst_links]

/-- Bodies of less than two symbols are neither added nor lost. -/
theorem count_alternatives_eliminateLong (g : Grammar) (v : Variable) (short : Body)
    (hshort : short.length < 2) :
    (g.eliminateLong.alternatives v).count short = (g.alternatives v).count short := by
  by_cases hdef : v ∈ g.defined
  · rcases g.mem_chains_of_mem_defined v hdef with ⟨k, hk, hr⟩
    rw [g.alternatives_eliminateLong_of_mem_chains _ hr]
    refine count_splitBodies _ _ short hshort ?_
    rw [List.length_drop]
    omega
  · -- Such a variable has no bodies to begin with, and a chain variable has one of two symbols.
    rw [g.alternatives_of_not_mem v hdef, List.count_nil, List.count_eq_zero]
    intro hmem
    rcases g.of_mem_alternatives_eliminateLong v short hmem with ⟨hmem, _⟩ | ⟨hlen, _⟩
    · exact hdef (g.mem_defined_of_mem_alternatives v short hmem)
    · omega

end Grammar

end Chomsky
