import RhypeDb.Fulltext.Corpus
import RhypeDb.Fulltext.ScoreVisible

/-! A search ranks the documents that match its query, and no others: each clause adds a positive
score once to each document it matches, and the accumulator counts the required ones. -/

namespace RhypeDb.Fulltext

open AList Engine Fallible FulltextHit KeyedFold List Nat TokenStream

section

variable {d : TokenStream} {clause : Clause}

theorem checkedAdd_positions (p offset : UInt32) (t : String) :
    ((checkedAdd p offset).any fun want => decide (want ∈ d.positions t)) = true ↔
      d.Occurs t (p.toNat + offset.toNat) := by
  unfold checkedAdd
  by_cases hfits : p.toNat + offset.toNat < 2 ^ 32
  · have hsum : (p + offset).toNat = p.toNat + offset.toNat := by
      rw [UInt32.toNat_add, mod_eq_of_lt hfits]
    rw [if_pos hfits, Option.any_some, decide_eq_true_iff, mem_positions, hsum]
  · rw [if_neg hfits]
    refine ⟨nofun, ?_⟩
    rintro ⟨token, -, -, hp⟩
    have hlt := token.position.toNat_lt
    omega

theorem phraseMatches_iff (hanchor : clause.offset 0 = 0) :
    phraseMatches clause (clause.terms.map fun t => d.posting t true) = true ↔
      ∃ base : Nat, ∀ i t, clause.terms[i]? = some t →
        d.Occurs t (base + (clause.offset i).toNat) := by
  cases hterms : clause.terms with
  | nil => exact absurd hterms clause.nonempty
  | cons t₀ later =>
    rw [map_cons, phraseMatches, any_eq_true]
    have hlater : ∀ p : UInt32, ((later.map fun t => d.posting t true).zipIdx 1).all (fun e =>
        (checkedAdd p (clause.offset e.2)).any fun want => decide (want ∈ e.1.positions)) = true ↔
        ∀ i t, later[i]? = some t → d.Occurs t (p.toNat + (clause.offset (1 + i)).toNat) := by
      intro p
      rw [all_eq_true, forall_mem_zipIdx]
      constructor
      · intro h i t ht
        obtain ⟨hi, rfl⟩ := List.getElem?_eq_some_iff.mp ht
        have hi' : i < (later.map fun t => d.posting t true).length := by
          rw [length_map]
          exact hi
        have hpos := h i hi'
        rw [getElem_map] at hpos
        exact (checkedAdd_positions p _ _).mp hpos
      · intro h i hi
        rw [getElem_map]
        rw [length_map] at hi
        exact (checkedAdd_positions p _ _).mpr (h i later[i] (getElem?_eq_getElem hi))
    constructor
    · rintro ⟨p, hp, hall⟩
      refine ⟨p.toNat, fun i t ht => ?_⟩
      cases i with
      | zero =>
        cases ht
        rw [hanchor]
        exact mem_positions.mp hp
      | succ i =>
        rw [add_comm i 1]
        exact (hlater p).mp hall i t ht
    · rintro ⟨base, hocc⟩
      obtain ⟨token, htoken, hterm, hbase⟩ := hocc 0 t₀ rfl
      rw [hanchor] at hbase
      refine ⟨token.position, mem_positions.mpr ⟨token, htoken, hterm, rfl⟩, ?_⟩
      refine (hlater _).mpr fun i t ht => ?_
      rw [hbase, add_comm 1 i]
      exact hocc (i + 1) t ht

variable {F : Type} [Zero F] [Add F] [LinearOrder F]

def SumsPositive (F : Type) [Zero F] [Add F] [LinearOrder F] : Prop :=
  ∀ a b : F, 0 ≤ a → 0 < b → 0 < a + b

theorem SumsPositive.foldl (h : SumsPositive F) {l : List F} (hl : ∀ x ∈ l, 0 < x) {a : F}
    (ha : 0 ≤ a) : 0 ≤ l.foldl (· + ·) a ∧ (l ≠ [] → 0 < l.foldl (· + ·) a) := by
  induction l generalizing a with
  | nil => exact ⟨ha, fun hne => absurd rfl hne⟩
  | cons x l ih =>
    rw [forall_mem_cons] at hl
    have hax : 0 < a + x := h a x ha hl.1
    obtain ⟨hnonneg, hpos⟩ := ih hl.2 hax.le
    refine ⟨hnonneg, fun _ => ?_⟩
    by_cases hnil : l = []
    · rw [hnil]
      exact hax
    · exact hpos hnil

theorem mem_of_mem_firstSeen {seen : List String} {es : List (String × Posting)}
    {e : String × Posting} (h : e ∈ firstSeen seen es) : e ∈ es := by
  induction es generalizing seen with
  | nil => exact h
  | cons x es ih =>
    rw [firstSeen] at h
    split_ifs at h
    · exact mem_cons_of_mem x (ih h)
    · rcases mem_cons.mp h with rfl | h
      · exact mem_cons_self
      · exact mem_cons_of_mem x (ih h)

def Scores (contributions : List F) (holds : Prop) : Prop :=
  (contributions = [] ∧ ¬holds) ∨ ∃ x, contributions = [x] ∧ 0 < x ∧ holds

variable (holds : Clause → Prop)

def requiredCount (clauses : List Clause) : Nat := (clauses.filter Clause.required).length

structure Tally (clauses : List Clause) (o : Option (Acc F)) : Prop where
  met : o.isSome ↔ ∃ clause ∈ clauses, holds clause
  score : ∀ a, o = some a → 0 < a.score
  atMost : (o.getD { score := 0, requiredHits := 0 }).requiredHits ≤ requiredCount clauses
  all : (o.getD { score := 0, requiredHits := 0 }).requiredHits = requiredCount clauses ↔
    ∀ clause ∈ clauses, clause.required → holds clause

theorem requiredCount_append (clauses : List Clause) (clause : Clause) :
    requiredCount (clauses ++ [clause]) =
      requiredCount clauses + if clause.required then 1 else 0 := by
  unfold requiredCount
  rw [filter_append, length_append, filter_singleton]
  cases clause.required <;> rfl

variable {holds} {clauses : List Clause} {o : Option (Acc F)}

theorem Tally.add (h : SumsPositive F)
    (ho : Tally holds clauses o) {clause : Clause} {contributions : List F}
    (hscores : Scores contributions (holds clause)) :
    Tally holds (clauses ++ [clause]) (addAll clause contributions o) := by
  have hforall : (∀ c ∈ clauses ++ [clause], c.required → holds c) ↔
      (∀ c ∈ clauses, c.required → holds c) ∧ (clause.required → holds clause) := by
    rw [forall_mem_append, forall_mem_singleton]
  have hexists : (∃ c ∈ clauses ++ [clause], holds c) ↔
      (∃ c ∈ clauses, holds c) ∨ holds clause := by
    constructor
    · rintro ⟨c, hc, hholds⟩
      rcases mem_append.mp hc with hc | hc
      · exact .inl ⟨c, hc, hholds⟩
      · rw [mem_singleton.mp hc] at hholds
        exact .inr hholds
    · rintro (⟨c, hc, hholds⟩ | hholds)
      · exact ⟨c, mem_append_left _ hc, hholds⟩
      · exact ⟨clause, mem_append_right _ (mem_singleton_self _), hholds⟩
  have hcount := requiredCount_append clauses clause
  have hatMost := ho.atMost
  rcases hscores with ⟨rfl, hnot⟩ | ⟨x, rfl, hx, hholds⟩
  · refine ⟨?_, ho.score, ?_, ?_⟩
    · rw [hexists, or_iff_left hnot]
      exact ho.met
    · rw [hcount]
      exact hatMost.trans (le_add_right _ _)
    · rw [hforall, ← ho.all, hcount]
      change (o.getD _).requiredHits = _ ↔ _
      by_cases hrequired : clause.required
      · rw [if_pos hrequired]
        exact ⟨fun heq => by omega, fun hall => absurd (hall.2 hrequired) hnot⟩
      · rw [if_neg hrequired]
        exact ⟨fun heq => ⟨heq, fun hr => absurd hr hrequired⟩, fun hall => hall.1⟩
  · have hscore : 0 ≤ (o.getD { score := 0, requiredHits := 0 }).score := by
      cases o with
      | none => exact le_refl _
      | some a => exact (ho.score a rfl).le
    refine ⟨?_, ?_, ?_, ?_⟩
    · rw [hexists]
      exact ⟨fun _ => .inr hholds, fun _ => rfl⟩
    · intro a ha
      cases ha
      exact h _ _ hscore hx
    · rw [hcount]
      change (if clause.required then _ else _) ≤ _
      split_ifs <;> omega
    · rw [hforall, ← ho.all, hcount]
      change (if clause.required then _ else _) = _ ↔ _
      split_ifs
      · exact ⟨fun heq => ⟨by omega, fun _ => hholds⟩, fun hall => by rw [hall.1]⟩
      · exact ⟨fun heq => ⟨heq, fun _ => hholds⟩, fun hall => hall.1⟩

theorem Tally.foldl (h : SumsPositive F) {contributions : Clause → List F} (clauses : List Clause)
    (hscores : ∀ c ∈ clauses, Scores (contributions c) (holds c)) :
    Tally holds clauses
      (clauses.foldl (fun o clause => addAll clause (contributions clause) o) none) := by
  induction clauses using List.reverseRecOn with
  | nil =>
    refine ⟨?_, nofun, le_refl _, ?_⟩
    · exact ⟨nofun, fun ⟨_, hc, _⟩ => absurd hc not_mem_nil⟩
    · exact ⟨fun _ c hc => absurd hc not_mem_nil, fun _ => rfl⟩
  | append_singleton clauses clause ih =>
    rw [foldl_append]
    have hbefore := ih fun c hc => hscores c (mem_append_left _ hc)
    exact hbefore.add h (hscores clause (mem_append_right _ (mem_singleton_self _)))

omit [Add F] in
theorem Tally.matches {holds : Clause → Prop} (h : Tally holds clauses o) :
    (∃ a, o = some a ∧ a.requiredHits = requiredCount clauses ∧ 0 < a.score) ↔
      (∀ clause ∈ clauses, clause.required → holds clause) ∧
        ∃ clause ∈ clauses, holds clause := by
  rw [← h.all, ← h.met]
  cases o with
  | none => exact ⟨nofun, fun hall => absurd hall.2 Bool.false_ne_true⟩
  | some a =>
    constructor
    · rintro ⟨a', ha, hhits, -⟩
      cases ha
      exact ⟨hhits, rfl⟩
    · exact fun hall => ⟨a, rfl, hall.1, h.score a rfl⟩

end

section

variable {docs : Corpus} {c : FulltextCandidates} {key : String} {list : PostingList}

def Corpus.docLenOf (docs : Corpus) (id : Id) : UInt32 :=
  ((docs.lookup id).map TokenStream.docLen).getD 0

def Corpus.RowsOf (docs : Corpus) (rows : PostingList) : Prop :=
  ∀ e ∈ rows, e.2.docLen = docs.docLenOf e.1 ∧ 0 < e.2.tf

theorem Corpus.rowsOf_of_perm {t : String} {withPositions : Bool}
    (h : list.Perm (docs.postings t withPositions)) : docs.RowsOf list := by
  rintro ⟨id, p⟩ he
  obtain ⟨d, hd, hpositions, rfl⟩ := (Corpus.mem_postings h).mp he
  refine ⟨?_, posting_tf_pos withPositions hpositions⟩
  unfold docLenOf
  rw [hd]
  rfl

def Corpus.Merged (docs : Corpus) (rows : PostingList) (merged : AList fun _ : Id => Posting) :
    Prop :=
  ∀ id, (id ∈ merged ↔ ∃ p, (id, p) ∈ rows) ∧
    ∀ p, merged.lookup id = some p → p.docLen = docs.docLenOf id ∧ 0 < p.tf

variable (docs) in
theorem Corpus.merged_nil : docs.Merged [] ∅ := by
  intro id
  refine ⟨⟨fun h => absurd h (notMem_empty id), ?_⟩, nofun⟩
  rintro ⟨p, hp⟩
  cases hp

variable {rows : PostingList} {e : Id × Posting}

theorem Corpus.Merged.insert {merged : AList fun _ : Id => Posting} (h : docs.Merged rows merged)
    {p : Posting} (hp : p.docLen = docs.docLenOf e.1 ∧ 0 < p.tf) :
    docs.Merged (rows ++ [e]) (merged.insert e.1 p) := by
  intro id
  constructor
  · rw [mem_insert, (h id).1]
    constructor
    · rintro (rfl | ⟨q, hq⟩)
      · exact ⟨e.2, mem_append_right _ (mem_singleton_self _)⟩
      · exact ⟨q, mem_append_left _ hq⟩
    · rintro ⟨q, hq⟩
      rcases mem_append.mp hq with hq | hq
      · exact .inr ⟨q, hq⟩
      · exact .inl (congrArg Prod.fst (mem_singleton.mp hq))
  · intro q hq
    rw [lookup_insert'] at hq
    split_ifs at hq with hid
    · cases hq
      rw [hid]
      exact hp
    · exact (h id).2 q hq

theorem saturatingAdd32_pos {a b : UInt32} (h : 0 < a) : 0 < saturatingAdd32 a b := by
  have ha : 0 < a.toNat := UInt32.lt_iff_toNat_lt.mp h
  unfold saturatingAdd32
  rw [UInt32.lt_iff_toNat_lt, UInt32.toNat_ofNat', mod_eq_of_lt (by omega)]
  change 0 < _
  omega

variable (c key) in
theorem mergePosting_ok {m : Merging} (hm : docs.Merged rows m.merged)
    (he : e.2.docLen = docs.docLenOf e.1 ∧ 0 < e.2.tf) :
    ∃ m', mergePosting c key m e = .ok m' ∧ docs.Merged (rows ++ [e]) m'.merged ∧
      m'.terms = m.terms := by
  unfold mergePosting
  cases hrow : m.merged.lookup e.1 with
  | none => exact ⟨_, rfl, hm.insert he, rfl⟩
  | some o =>
    obtain ⟨hlen, htf⟩ := (hm e.1).2 o hrow
    dsimp only
    rw [if_neg (not_not_intro (hlen.trans he.1.symm))]
    exact ⟨_, rfl, hm.insert ⟨hlen, saturatingAdd32_pos htf⟩, rfl⟩

def Merging.counted (s : Merging × Bool) : Nat := s.1.terms + if s.2 then 0 else 1

variable (c key) in
theorem mergeEntry_ok {s : Merging × Bool} (hs : docs.Merged rows s.1.merged)
    (he : e.2.docLen = docs.docLenOf e.1 ∧ 0 < e.2.tf)
    (hcap : Merging.counted s ≤ maxPrefixExpansion) :
    ∃ s', mergeEntry c key (fun _ => true) s e = .ok s' ∧
      docs.Merged (rows ++ [e]) s'.1.merged ∧ Merging.counted s' = Merging.counted s := by
  obtain ⟨m, counted⟩ := s
  unfold mergeEntry countTerm
  rw [if_pos rfl]
  cases counted with
  | true =>
    obtain ⟨m', hm', hrows, hterms⟩ := mergePosting_ok c key hs he
    refine ⟨(m', true), ?_, hrows, ?_⟩
    · rw [if_pos rfl, ok_bind]
      rw [hm']
      rfl
    · unfold Merging.counted
      rw [hterms]
  | false =>
    have hs : docs.Merged rows ({ m with terms := m.terms + 1 } : Merging).merged := hs
    obtain ⟨m', hm', hrows, hterms⟩ := mergePosting_ok c key hs he
    refine ⟨(m', true), ?_, hrows, ?_⟩
    · have hle : ¬maxPrefixExpansion < m.terms + 1 := not_lt.mpr hcap
      rw [if_neg Bool.false_ne_true, if_neg hle, ok_bind]
      rw [hm']
      rfl
    · unfold Merging.counted
      rw [hterms]
      rfl

variable (c key) in
theorem mergeList_ok {m : Merging} (hm : docs.Merged rows m.merged)
    (hlist : docs.RowsOf list) (hcap : m.terms + 1 ≤ maxPrefixExpansion) :
    ∃ m', mergeList c key (fun _ => true) m list = .ok m' ∧
      docs.Merged (rows ++ list) m'.merged ∧ m'.terms ≤ m.terms + 1 := by
  have hfold : ∀ (s : Merging × Bool) rows, docs.Merged rows s.1.merged →
      Merging.counted s ≤ maxPrefixExpansion →
      ∃ s', list.foldlM (mergeEntry c key fun _ => true) s = .ok s' ∧
        docs.Merged (rows ++ list) s'.1.merged ∧ Merging.counted s' = Merging.counted s := by
    induction list with
    | nil =>
      intro s rows hs _
      refine ⟨s, rfl, ?_, rfl⟩
      rw [append_nil]
      exact hs
    | cons e list ih =>
      intro s rows hs hcap
      obtain ⟨s₁, hs₁, hrows₁, hcounted₁⟩ :=
        mergeEntry_ok c key hs (hlist e mem_cons_self) hcap
      obtain ⟨s₂, hs₂, hrows₂, hcounted₂⟩ :=
        ih (fun e' he' => hlist e' (mem_cons_of_mem e he')) s₁ _ hrows₁ (hcounted₁ ▸ hcap)
      refine ⟨s₂, ?_, ?_, hcounted₂.trans hcounted₁⟩
      · rw [foldlM_cons, hs₁, ok_bind, hs₂]
      · rw [append_assoc] at hrows₂
        exact hrows₂
  obtain ⟨s', hs', hrows, hcounted⟩ := hfold (m, false) rows hm hcap
  refine ⟨s'.1, ?_, hrows, ?_⟩
  · unfold mergeList
    rw [hs']
    rfl
  · have hle : s'.1.terms ≤ Merging.counted s' := le_add_right _ _
    rw [hcounted] at hle
    exact hle

variable (c key) in
theorem mergeLists_ok (lists : List PostingList) {m : Merging} (hm : docs.Merged rows m.merged)
    (hlists : ∀ list ∈ lists, docs.RowsOf list) (hcap : m.terms + lists.length ≤ maxPrefixExpansion) :
    ∃ m', lists.foldlM (mergeList c key fun _ => true) m = .ok m' ∧
      docs.Merged (rows ++ lists.flatten) m'.merged := by
  induction lists generalizing rows m with
  | nil =>
    refine ⟨m, rfl, ?_⟩
    rw [flatten_nil, append_nil]
    exact hm
  | cons list lists ih =>
    rw [forall_mem_cons] at hlists
    rw [length_cons] at hcap
    obtain ⟨m₁, hm₁, hrows₁, hterms₁⟩ := mergeList_ok c key hm hlists.1 (by omega)
    obtain ⟨m₂, hm₂, hrows₂⟩ := ih hrows₁ hlists.2 (by omega)
    refine ⟨m₂, ?_, ?_⟩
    · rw [foldlM_cons, hm₁, ok_bind, hm₂]
    · rw [flatten_cons, ← append_assoc]
      exact hrows₂

theorem exists_of_mem_forall₂ {α β : Type} {R : α → β → Prop} {as : List α} {bs : List β}
    (h : List.Forall₂ R as bs) {b : β} (hb : b ∈ bs) : ∃ a ∈ as, R a b := by
  induction h with
  | nil => cases hb
  | cons hab _ ih =>
    rcases mem_cons.mp hb with rfl | hb
    · exact ⟨_, mem_cons_self, hab⟩
    · obtain ⟨a, ha, hr⟩ := ih hb
      exact ⟨a, mem_cons_of_mem _ ha, hr⟩

theorem mergePrefix_ok (it : Iteration) {text : String} {lists : List PostingList}
    (h : docs.Expands text lists) (hcap : lists.length ≤ maxPrefixExpansion) :
    ∃ list, mergePrefix c key it (fun _ => true) lists = .ok list ∧ ∀ id,
      (∃ p, rowsOf id list = [p] ∧ 0 < p.tf ∧ ∃ d, docs.lookup id = some d ∧
        ∃ token ∈ d.tokens, text.toList <+: token.term.toList) ∨
      (rowsOf id list = [] ∧ ¬∃ d, docs.lookup id = some d ∧
        ∃ token ∈ d.tokens, text.toList <+: token.term.toList) := by
  obtain ⟨terms, -, hterms, hall⟩ := h
  have hrowsOf : ∀ list ∈ lists, docs.RowsOf list := by
    intro list hlist
    obtain ⟨t, -, hperm⟩ := exists_of_mem_forall₂ hall hlist
    exact Corpus.rowsOf_of_perm hperm
  have hm₀ : docs.Merged [] ({ merged := ∅, terms := 0 } : Merging).merged := docs.merged_nil
  obtain ⟨m, hm, hmerged⟩ := mergeLists_ok c key lists hm₀ hrowsOf (by simpa using hcap)
  have hmem : ∀ id, id ∈ m.merged ↔ ∃ d, docs.lookup id = some d ∧
      ∃ token ∈ d.tokens, text.toList <+: token.term.toList := by
    intro id
    rw [(hmerged id).1, nil_append]
    constructor
    · rintro ⟨p, hp⟩
      obtain ⟨list, hlist, hp⟩ := mem_flatten.mp hp
      obtain ⟨t, ht, hperm⟩ := exists_of_mem_forall₂ hall hlist
      obtain ⟨d, hd, hpositions, -⟩ := (Corpus.mem_postings hperm).mp hp
      obtain ⟨token, htoken, rfl⟩ := positions_ne_nil.mp hpositions
      exact ⟨d, hd, token, htoken, ((hterms token.term).mp ht).1⟩
    · rintro ⟨d, hd, token, htoken, hstarts⟩
      have ht : token.term ∈ terms := (hterms token.term).mpr
        ⟨hstarts, ⟨id, d⟩, mem_lookup_iff.mp hd, token, htoken, rfl⟩
      obtain ⟨list, hlist, hperm⟩ := exists_of_mem_forall₂ (List.Forall₂.flip hall) ht
      have hpositions := positions_ne_nil.mpr ⟨token, htoken, rfl⟩
      exact ⟨_, mem_flatten.mpr
        ⟨list, hlist, (Corpus.mem_postings hperm).mpr ⟨d, hd, hpositions, rfl⟩⟩⟩
  refine ⟨(it.order m.merged.entries).map fun e => (e.1, e.2), ?_, fun id => ?_⟩
  · unfold mergePrefix
    rw [hm]
    rfl
  · rw [rowsOf_of_perm_entries (it.perm _), ← hmem id]
    cases hrow : m.merged.lookup id with
    | none => exact .inr ⟨rfl, lookup_eq_none.mp hrow⟩
    | some p =>
      exact .inl ⟨p, rfl, ((hmerged id).2 p hrow).2, lookup_isSome.mp (hrow ▸ rfl)⟩

end

section

variable {F : Type} [Zero F] [Add F] [Mul F] [LinearOrder F]
variable {clause : Clause} {idf : String → F} {tfnorm : Posting → F}

theorem phraseContributions_scores (hsums : SumsPositive F)
    (hweight : ∀ t p, 0 < p.tf → 0 < idf t * tfnorm p) {d : TokenStream}
    {row : String → Option Posting} (hrow : ∀ t ∈ clause.terms, row t = d.posting? t true)
    (hstar : clause.isPrefix = false) (hanchor : clause.offset 0 = 0) :
    Scores (phraseContributions clause idf tfnorm row) (clause.Matches d) := by
  unfold phraseContributions Clause.Matches
  rw [hstar, if_neg Bool.false_ne_true]
  by_cases hall : ∀ t ∈ clause.terms, d.positions t ≠ []
  · have hrows : clause.terms.mapM row = some (clause.terms.map fun t => d.posting t true) := by
      have hsome : ∀ t ∈ clause.terms, row t = some (d.posting t true) := by
        intro t ht
        rw [hrow t ht]
        exact if_neg (hall t ht)
      rw [mapM_congr hsome]
      exact mapM_pure
    rw [hrows]
    dsimp only
    by_cases hmatch : phraseMatches clause (clause.terms.map fun t => d.posting t true)
    · rw [if_pos hmatch]
      refine .inr ⟨_, rfl, ?_, (phraseMatches_iff hanchor).mp hmatch⟩
      have hpos : ∀ x ∈ (firstSeen [] (clause.terms.zip
          (clause.terms.map fun t => d.posting t true))).map fun e => idf e.1 * tfnorm e.2,
          0 < x := by
        intro x hx
        obtain ⟨⟨t, p⟩, he, rfl⟩ := mem_map.mp hx
        obtain ⟨t', ht', rfl⟩ := mem_map.mp (of_mem_zip (mem_of_mem_firstSeen he)).2
        exact hweight t _ (posting_tf_pos true (hall t' ht'))
      refine (hsums.foldl hpos (le_refl 0)).2 ?_
      cases hterms : clause.terms with
      | nil => exact absurd hterms clause.nonempty
      | cons t ts =>
        exact cons_ne_nil _ _
    · rw [if_neg hmatch]
      exact .inl ⟨rfl, fun h => hmatch ((phraseMatches_iff hanchor).mpr h)⟩
  · push Not at hall
    obtain ⟨t, ht, hnone⟩ := hall
    have hmiss : row t = none := by
      rw [hrow t ht]
      exact if_pos hnone
    rw [mapM_eq_none_of_mem ht hmiss]
    refine .inl ⟨rfl, ?_⟩
    rintro ⟨base, hocc⟩
    obtain ⟨i, hi, hget⟩ := getElem_of_mem ht
    obtain ⟨token, htoken, hterm, -⟩ := hocc i t (hget ▸ getElem?_eq_getElem hi)
    exact positions_ne_nil.mpr ⟨token, htoken, hterm⟩ hnone

variable {docs : Corpus} {c : FulltextCandidates} {merged : AList fun _ : String => PostingList}

structure MergedPrefixes (it : Iteration) (c : FulltextCandidates)
    (merged : AList fun _ : String => PostingList) : Prop where
  only : ∀ key, key ∉ c.prefixTerms → key ∉ merged
  each : ∀ key lists, c.prefixTerms.lookup key = some lists →
    ∃ list, merged.lookup key = some list ∧ mergePrefix c key it (fun _ => true) lists = .ok list

theorem mergePrefixes_collected (it : Iteration) (h : docs.Collected c)
    (hcap : ∀ key lists, c.prefixTerms.lookup key = some lists →
      lists.length ≤ maxPrefixExpansion) :
    ∃ merged, mergePrefixes it c none = .ok merged ∧ MergedPrefixes it c merged := by
  cases hmerged : mergePrefixes it c none with
  | error e =>
    obtain ⟨⟨key, lists⟩, hentry, hfail⟩ := foldlM_insert_error hmerged
    have hfail : mergePrefix c key it (fun _ => true) lists = .error e := hfail
    have hlookup : c.prefixTerms.lookup key = some lists := mem_lookup_iff.mpr hentry
    obtain ⟨text, rfl, hexpands⟩ := h.prefixes key lists hlookup
    obtain ⟨list, hlist, -⟩ := mergePrefix_ok it hexpands (hcap _ lists hlookup)
    rw [hlist] at hfail
    cases hfail
  | ok merged =>
    obtain ⟨hentries, hothers⟩ := foldlM_insert_ok c.prefixTerms.nodupKeys hmerged
    refine ⟨merged, rfl, ?_, ?_⟩
    · intro key hkey
      exact lookup_eq_none.mp (hothers key hkey)
    · intro key lists hlookup
      obtain ⟨list, hlist, hget⟩ := hentries ⟨key, lists⟩ (mem_lookup_iff.mp hlookup)
      exact ⟨list, hget, hlist⟩

theorem termRows_word {it : Iteration} (hmerged : MergedPrefixes it c merged) {t : String}
    {list : PostingList} {withPositions : Bool} (hlist : c.postings.lookup t = some list)
    (hperm : list.Perm (docs.postings t withPositions)) (id : Id) :
    termRows (lists c merged) id t =
      ((docs.lookup id).bind fun d => d.posting? t withPositions).toList := by
  have hword : t ∉ c.prefixTerms := by
    intro hstar
    have hmem : t ∈ c.postings := lookup_isSome.mp (by rw [hlist]; rfl)
    exact c.separate t hstar hmem
  unfold termRows lists
  rw [lookup_union_right (hmerged.only t hword), hlist]
  exact Corpus.rowsOf_postings hperm id

variable {it : Iteration}

theorem prefix_scores (hweight : ∀ t p, 0 < p.tf → 0 < idf t * tfnorm p) (h : docs.Collected c)
    (hcap : ∀ key lists, c.prefixTerms.lookup key = some lists →
      lists.length ≤ maxPrefixExpansion)
    (hmerged : MergedPrefixes it c merged) (hclause : clause ∈ c.parsed.clauses)
    (hstar : clause.isPrefix) (id : Id) :
    Scores (clauseContributions idf tfnorm (termRows (lists c merged) id) clause)
      (∃ d, docs.lookup id = some d ∧ clause.Matches d) := by
  obtain ⟨text, hterms⟩ := h.query.key clause hclause hstar
  have hword : ¬clause.isPhrase := by
    unfold Clause.isPhrase
    rw [hterms]
    exact of_decide_eq_true rfl
  have hhead : clause.terms.head clause.nonempty = text ++ "*" := by
    simp only [hterms, head_cons]
  have hmem : text ++ "*" ∈ c.prefixTerms :=
    h.keys clause hclause hstar _ (hterms ▸ mem_singleton_self _)
  obtain ⟨lists, hlookup⟩ := Option.isSome_iff_exists.mp (lookup_isSome.mpr hmem)
  obtain ⟨text', hkey, hexpands⟩ := h.prefixes _ lists hlookup
  cases star_injective hkey
  obtain ⟨list, hlist, hmerge⟩ := hmerged.each _ lists hlookup
  obtain ⟨list', hmerge', hrows⟩ := mergePrefix_ok it hexpands (hcap _ lists hlookup)
  cases hmerge.symm.trans hmerge'
  have hrow : termRows (Fulltext.lists c merged) id (text ++ "*") = rowsOf id list := by
    unfold termRows Fulltext.lists
    rw [lookup_union_left (lookup_isSome.mp (by rw [hlist]; rfl)), hlist]
    rfl
  unfold clauseContributions
  rw [if_neg hword, hhead]
  dsimp only
  rw [hrow]
  simp only [Clause.matches_prefix hstar hterms]
  rcases hrows id with ⟨p, hp, htf, hholds⟩ | ⟨hnil, hnot⟩
  · exact .inr ⟨_, by rw [hp]; rfl, hweight _ p htf, hholds⟩
  · exact .inl ⟨by rw [hnil]; rfl, hnot⟩

theorem phrase_scores (hsums : SumsPositive F)
    (hweight : ∀ t p, 0 < p.tf → 0 < idf t * tfnorm p) (h : docs.Collected c)
    (hmerged : MergedPrefixes it c merged) (hclause : clause ∈ c.parsed.clauses)
    (hstar : clause.isPrefix = false) (hphrase : clause.isPhrase) (id : Id) :
    Scores (clauseContributions idf tfnorm (termRows (lists c merged) id) clause)
      (∃ d, docs.lookup id = some d ∧ clause.Matches d) := by
  have hrow : ∀ t ∈ clause.terms, (termRows (lists c merged) id t).getLast? =
      (docs.lookup id).bind fun d => d.posting? t true := by
    intro t ht
    obtain ⟨list, withPositions, hlist, hpositions, hperm⟩ := h.words clause hclause hstar t ht
    rw [termRows_word hmerged hlist hperm, hpositions hphrase]
    cases (docs.lookup id).bind fun d => d.posting? t true <;> rfl
  unfold clauseContributions
  rw [if_pos hphrase]
  cases hdoc : docs.lookup id with
  | none =>
    refine .inl ⟨?_, nofun⟩
    have hhead := head_mem clause.nonempty
    have hnone := hrow _ hhead
    rw [hdoc] at hnone
    unfold phraseContributions
    rw [mapM_eq_none_of_mem hhead hnone]
  | some d =>
    rw [hdoc] at hrow
    simp only [Option.some.injEq, exists_eq_left']
    exact phraseContributions_scores hsums hweight hrow hstar (h.query.anchored clause hclause)

theorem word_scores (hweight : ∀ t p, 0 < p.tf → 0 < idf t * tfnorm p) (h : docs.Collected c)
    (hmerged : MergedPrefixes it c merged) (hclause : clause ∈ c.parsed.clauses)
    (hstar : clause.isPrefix = false) (hphrase : ¬clause.isPhrase) (id : Id) :
    Scores (clauseContributions idf tfnorm (termRows (lists c merged) id) clause)
      (∃ d, docs.lookup id = some d ∧ clause.Matches d) := by
  obtain ⟨t, hterms⟩ : ∃ t, clause.terms = [t] := by
    have hlen : ¬1 < clause.terms.length := by simpa [Clause.isPhrase] using hphrase
    have hpos := length_pos_iff.mpr clause.nonempty
    exact length_eq_one_iff.mp (by omega)
  have hhead : clause.terms.head clause.nonempty = t := by simp only [hterms, head_cons]
  obtain ⟨list, withPositions, hlist, -, hperm⟩ :=
    h.words clause hclause hstar t (hterms ▸ mem_singleton_self t)
  have hmatches : ∀ d : TokenStream, clause.Matches d ↔ d.positions t ≠ [] := fun d =>
    Clause.matches_word hstar hterms (h.query.anchored clause hclause)
  unfold clauseContributions
  rw [if_neg hphrase, hhead]
  dsimp only
  rw [termRows_word hmerged hlist hperm]
  simp only [hmatches]
  cases hdoc : docs.lookup id with
  | none => exact .inl ⟨rfl, nofun⟩
  | some d =>
    simp only [Option.bind_some, Option.some.injEq, exists_eq_left']
    by_cases hpositions : d.positions t = []
    · refine .inl ⟨?_, not_not_intro hpositions⟩
      rw [posting?, if_pos hpositions]
      rfl
    · refine .inr ⟨idf t * tfnorm (d.posting t withPositions), ?_, ?_, hpositions⟩
      · rw [posting?, if_neg hpositions]
        rfl
      · exact hweight t _ (posting_tf_pos withPositions hpositions)

theorem clauseContributions_scores (hsums : SumsPositive F)
    (hweight : ∀ t p, 0 < p.tf → 0 < idf t * tfnorm p) (h : docs.Collected c)
    (hcap : ∀ key lists, c.prefixTerms.lookup key = some lists →
      lists.length ≤ maxPrefixExpansion)
    (hmerged : MergedPrefixes it c merged) (hclause : clause ∈ c.parsed.clauses) (id : Id) :
    Scores (clauseContributions idf tfnorm (termRows (lists c merged) id) clause)
      (∃ d, docs.lookup id = some d ∧ clause.Matches d) := by
  cases hstar : clause.isPrefix with
  | true => exact prefix_scores hweight h hcap hmerged hclause hstar id
  | false =>
    by_cases hphrase : clause.isPhrase
    · exact phrase_scores hsums hweight h hmerged hclause hstar hphrase id
    · exact word_scores hweight h hmerged hclause hstar hphrase id

end

section

variable {F : Type} [Zero F] [Add F] [Sub F] [Mul F] [Div F] [NatCast F] [LinearOrder F]

structure PositiveScores (ln : F → F) (stats : CorpusStats) : Prop where
  sums : SumsPositive F
  weight : ∀ df (p : Posting), 0 < p.tf →
    0 < idfWeight ln stats.docCount df * tfnorm stats.avgdl p

section

variable (deadline : Option (Nat → Bool)) (it : Iteration)

theorem tick_within (visited : Nat) : Within (tick deadline visited) (tick none visited) := by
  intro n h
  rw [tick_none]
  unfold tick at h
  split_ifs at h
  exact h

omit [Sub F] [Div F] [NatCast F] [LinearOrder F] in
theorem scoreClause_within (maps : AList fun _ : String => AList fun _ : Id => Posting)
    (postings : AList fun _ : String => PostingList) (idf : String → F) (tfnorm : Posting → F)
    (allowed : Id → Bool) (s : Scored F) (clause : Clause) :
    Within (scoreClause it maps postings idf tfnorm allowed deadline s clause)
      (scoreClause it maps postings idf tfnorm allowed none s clause) := by
  unfold scoreClause
  split_ifs
  · unfold scorePhrase
    cases clause.terms.mapM fun t => maps.lookup t with
    | none => exact .refl _
    | some perPosition =>
      refine Within.foldlM (fun s id => ?_) _ s
      exact Within.bind (tick_within deadline s.visited) fun _ => .refl _
  · refine Within.foldlM (fun s e => ?_) _ s
    exact Within.bind (tick_within deadline s.visited) fun _ => .refl _

theorem score_within (c : FulltextCandidates) (ln : F → F) (restrict : Option (List Id)) (k : Nat) :
    Within (score it c ln restrict k deadline) (score it c ln restrict k none) := by
  refine Within.bind (.refl _) fun merged => ?_
  have hquery : Within
      (scoreQueryWith it ln c.parsed (lists c merged) c.stats restrict .rankOnly k deadline)
      (scoreQueryWith it ln c.parsed (lists c merged) c.stats restrict .rankOnly k none) := by
    unfold scoreQueryWith
    split_ifs
    · exact .refl _
    · refine Within.bind (Within.foldlM (fun s clause => ?_) _ _) fun _ => .refl _
      exact scoreClause_within deadline it _ _ _ _ _ s clause
  intro hits hhits
  cases hscored : scoreQueryWith it ln c.parsed (lists c merged) c.stats restrict .rankOnly k
      deadline with
  | error e =>
    rw [hscored] at hhits
    cases hhits
  | ok found =>
    rw [hscored] at hhits
    rw [hquery found hscored]
    exact hhits

end

theorem positiveScores_of_ln {K : Type} [Field K] [LinearOrder K] [IsStrictOrderedRing K]
    {ln : K → K} (hln : ∀ x, 1 < x → 0 < ln x) (stats : CorpusStats) : PositiveScores ln stats where
  sums _ _ := add_pos_of_nonneg_of_pos
  weight df p htf := by
    have hhalf : (0 : K) < half := by
      unfold half
      positivity
    have hk1 : (0 : K) < bm25K1 := by
      unfold bm25K1
      positivity
    have hb : (0 : K) < bm25B := by
      unfold bm25B
      positivity
    have hb1 : (0 : K) < ((1 : ℕ) : K) - bm25B := by
      unfold bm25B
      norm_num
    have havgdl : (0 : K) ≤ stats.avgdl := by
      unfold CorpusStats.avgdl
      split_ifs <;> positivity
    have htf : (0 : K) < (p.tf.toNat : K) := cast_pos.mpr (UInt32.lt_iff_toNat_lt.mp htf)
    have hidf : (0 : K) < idfWeight ln stats.docCount df := by
      have hdf : (df : K) ≤ (max stats.docCount df : ℕ) := cast_le.mpr (le_max_right _ _)
      have hnum : (0 : K) < ((max stats.docCount df : ℕ) : K) - df + half :=
        add_pos_of_nonneg_of_pos (sub_nonneg.mpr hdf) hhalf
      refine hln _ ?_
      rw [cast_one]
      exact lt_add_of_pos_right 1 (by positivity)
    have hnorm : (0 : K) < tfnorm stats.avgdl p := by
      unfold tfnorm
      have hden : (0 : K) < ((1 : ℕ) : K) - bm25B + bm25B * p.docLen.toNat / stats.avgdl :=
        add_pos_of_pos_of_nonneg hb1 (by positivity)
      positivity
    exact mul_pos hidf hnorm

variable {docs : Corpus} {c : FulltextCandidates} (it : Iteration) {ln : F → F}

omit [Add F] [Sub F] [Mul F] [Div F] [NatCast F] in
theorem mem_topHits (requiredHits : Nat) (acc : AList fun _ : Id => Acc F) :
    ∃ ranking : List (FulltextHit F), ranking.Pairwise FulltextHit.before ∧
      (ranking.map FulltextHit.objectId).Nodup ∧
      (∀ id, id ∈ ranking.map FulltextHit.objectId ↔ ∃ a, acc.lookup id = some a ∧
        a.requiredHits = requiredHits ∧ 0 < a.score) ∧
      ∀ k, topHits it requiredHits k acc = ranking.take k := by
  let hits := ((it.order acc.entries).filter fun e =>
    decide (e.2.requiredHits = requiredHits ∧ 0 < e.2.score)).map fun e =>
      ({ objectId := e.1, score := e.2.score } : FulltextHit F)
  have hperm : (hits.insertionSort before).Perm hits := perm_insertionSort _ _
  have htotal : Std.Total (before (F := F)) := before_total
  have htrans : IsTrans (FulltextHit F) before := before_trans
  refine ⟨hits.insertionSort before, pairwise_insertionSort _ _, ?_, ?_,
    fun _ => rfl⟩
  · rw [(hperm.map _).nodup_iff, map_map]
    have hkeys : ((it.order acc.entries).map Sigma.fst).Nodup :=
      ((it.perm _).map _).nodup_iff.mpr acc.keys_nodup
    exact hkeys.sublist (filter_sublist.map _)
  · intro id
    rw [(hperm.map _).mem_iff, map_map, mem_map]
    constructor
    · rintro ⟨⟨id, a⟩, he, rfl⟩
      obtain ⟨hmem, hholds⟩ := mem_filter.mp he
      exact ⟨a, mem_lookup_iff.mpr ((it.perm _).mem_iff.mp hmem), of_decide_eq_true hholds⟩
    · rintro ⟨a, ha, hholds⟩
      have hmem := (it.perm _).mem_iff.mpr (mem_lookup_iff.mp ha)
      exact ⟨⟨id, a⟩, mem_filter.mpr ⟨hmem, decide_eq_true hholds⟩, rfl⟩

def Found (docs : Corpus) (query : ParsedQuery) (restrict : Option (List Id)) (id : Id) : Prop :=
  (∀ set, restrict = some set → id ∈ set) ∧ ∃ d, docs.lookup id = some d ∧ query.Matches d

theorem exists_matches (query : ParsedQuery) (id : Id) :
    (∃ d, docs.lookup id = some d ∧ query.Matches d) ↔
      (∀ clause ∈ query.clauses, clause.required → ∃ d, docs.lookup id = some d ∧
        clause.Matches d) ∧
      ∃ clause ∈ query.clauses, ∃ d, docs.lookup id = some d ∧ clause.Matches d := by
  unfold ParsedQuery.Matches
  cases docs.lookup id with
  | none =>
    refine ⟨nofun, ?_⟩
    rintro ⟨-, clause, -, d, hd, -⟩
    cases hd
  | some d => simp only [Option.some.injEq, exists_eq_left']

/-- A search ranks the documents that match, in the restriction and none besides, best first, each
once; it returns as many of the first as it is asked for. A deadline can only make it fail. -/
theorem score_matching (h : docs.Collected c) (hscores : PositiveScores ln c.stats)
    (hcap : ∀ key lists, c.prefixTerms.lookup key = some lists →
      lists.length ≤ maxPrefixExpansion)
    (restrict : Option (List Id)) :
    ∃ ranking : List (FulltextHit F), ranking.Pairwise FulltextHit.before ∧
      (ranking.map FulltextHit.objectId).Nodup ∧
      (∀ id, id ∈ ranking.map FulltextHit.objectId ↔ Found docs c.parsed restrict id) ∧
      (∀ k, docs.entries.length ≤ k → score it c ln restrict k none = .ok ranking) ∧
      ∀ k, score it c ln restrict k none = .ok (ranking.take k) ∧
        ∀ deadline hits, score it c ln restrict k deadline = .ok hits → hits = ranking.take k := by
  obtain ⟨merged, hmerged, hprefixes⟩ := mergePrefixes_collected it h hcap
  let allowed : Id → Bool := fun id => restrict.all fun set => decide (id ∈ set)
  let idf : String → F := fun t => idfWeight ln c.stats.docCount
    (documentFrequency .rankOnly allowed (((lists c merged).lookup t).getD []))
  obtain ⟨s, hs, hlookup⟩ :=
    scoreClauses_lookup it c.parsed (lists c merged) idf (tfnorm c.stats.avgdl) allowed
  obtain ⟨ranking, hsorted, hnodup, hmem, htake⟩ :=
    mem_topHits it (requiredCount c.parsed.clauses) s.acc
  have hallowed : ∀ id, allowed id = true ↔ ∀ set, restrict = some set → id ∈ set := by
    intro id
    change restrict.all (fun set => decide (id ∈ set)) = true ↔ _
    cases restrict <;> simp
  have hfound : ∀ id, id ∈ ranking.map objectId ↔
      Found docs c.parsed restrict id := by
    intro id
    have hweight : ∀ t p, 0 < p.tf → 0 < idf t * tfnorm c.stats.avgdl p :=
      fun t p => hscores.weight _ p
    have htally := Tally.foldl hscores.sums c.parsed.clauses fun clause hclause =>
      clauseContributions_scores hscores.sums hweight h hcap hprefixes hclause id
    unfold Found
    rw [hmem, hlookup, ← hallowed, exists_matches, ← htally.matches]
    by_cases hin : allowed id = true
    · rw [if_pos hin]
      exact ⟨fun hacc => ⟨hin, hacc⟩, fun hacc => hacc.2⟩
    · rw [if_neg hin]
      exact ⟨nofun, fun hacc => absurd hacc.1 hin⟩
  have hlength : ranking.length ≤ docs.entries.length := by
    have hsub : ranking.map objectId ⊆ docs.keys := by
      intro id hid
      obtain ⟨-, d, hd, -⟩ := (hfound id).mp hid
      exact mem_keys.mp (lookup_isSome.mp (hd ▸ rfl))
    have hle := (subperm_of_subset hnodup hsub).length_le
    rw [length_map] at hle
    exact hle.trans_eq (length_map _)
  have hscore : ∀ k, score it c ln restrict k none = .ok (ranking.take k) := by
    intro k
    have hquery : scoreQueryWith it ln c.parsed (lists c merged) c.stats restrict .rankOnly k none
        = .ok (ranking.take k) := by
      unfold scoreQueryWith
      by_cases hnone : k = 0 ∨ c.stats.docCount = 0
      · rw [if_pos hnone]
        rcases hnone with rfl | hempty
        · rfl
        · rw [h.stats] at hempty
          have hnil : ranking = [] := length_eq_zero_iff.mp (by
            have hcount : docs.entries.length = 0 := hempty
            omega)
          rw [hnil, take_nil]
      · rw [if_neg hnone]
        change (scoreClauses it c.parsed (lists c merged) idf (tfnorm c.stats.avgdl) allowed none
          >>= fun scored => _) = _
        rw [hs, ok_bind]
        exact congrArg Except.ok (htake k)
    unfold score
    rw [hmerged]
    change (scoreQueryWith it ln c.parsed (lists c merged) c.stats restrict .rankOnly k
      none).mapError _ = _
    rw [hquery]
    rfl
  refine ⟨ranking, hsorted, hnodup, hfound, fun k hk => ?_, fun k => ⟨hscore k, ?_⟩⟩
  · rw [hscore k, take_of_length_le (hlength.trans hk)]
  · intro deadline hits hhits
    have hsame := (score_within deadline it c ln restrict k hits hhits).symm.trans (hscore k)
    exact Except.ok.inj hsame

end

def token (term : String) (position : UInt32) : Token where
  term := term
  position := position

def redFoxRan : TokenStream where
  tokens := [token "red" 0, token "fox" 1, token "ran" 2]
  ascending := by decide
  short := by decide

def foxRed : TokenStream where
  tokens := [token "fox" 0, token "red" 1]
  ascending := by decide
  short := by decide

def foxes : Corpus := ⟨[⟨1, redFoxRan⟩, ⟨2, foxRed⟩], by simp [List.NodupKeys]⟩

/-- `"red fox" +ra*` -/
def foxQuery : ParsedQuery where
  clauses := [
    { required := false, terms := ["red", "fox"], isPrefix := false, offsets := [0, 1],
      nonempty := List.cons_ne_nil _ _ },
    { required := true, terms := ["ra" ++ "*"], isPrefix := true, offsets := [],
      nonempty := List.cons_ne_nil _ _ }]

def foxCandidates : FulltextCandidates where
  typeName := "Note"
  fieldName := "body"
  parsed := foxQuery
  postings := ⟨[⟨"red", foxes.postings "red" true⟩, ⟨"fox", foxes.postings "fox" true⟩],
    by simp [List.NodupKeys]⟩
  prefixTerms := ⟨[⟨"ra" ++ "*", [foxes.postings "ran" false]⟩], by simp [List.NodupKeys]⟩
  stats := foxes.stats
  separate := by decide

theorem foxes_collected : foxes.Collected foxCandidates where
  query := by
    refine ⟨?_, ?_⟩
    · rintro clause hclause hstar
      rcases mem_pair.mp hclause with rfl | rfl
      · cases hstar
      · exact ⟨"ra", rfl⟩
    · rintro clause hclause
      rcases mem_pair.mp hclause with rfl | rfl <;> rfl
  stats := rfl
  words := by
    rintro clause hclause hstar t ht
    rcases mem_pair.mp hclause with rfl | rfl
    · rcases mem_pair.mp ht with rfl | rfl
      · exact ⟨_, true, rfl, fun _ => rfl, .rfl⟩
      · exact ⟨_, true, rfl, fun _ => rfl, .rfl⟩
    · cases hstar
  keys := by
    rintro clause hclause hstar key hkey
    rcases mem_pair.mp hclause with rfl | rfl
    · cases hstar
    · cases mem_singleton.mp hkey
      decide
  prefixes := by
    rintro key lists hlists
    obtain ⟨rfl, rfl⟩ : key = "ra" ++ "*" ∧ lists = [foxes.postings "ran" false] := by
      have hentry := mem_lookup_iff.mp hlists
      cases mem_singleton.mp hentry
      exact ⟨rfl, rfl⟩
    refine ⟨"ra", rfl, ["ran"], nodup_singleton _, ?_, .cons .rfl .nil⟩
    intro t
    rw [mem_singleton]
    constructor
    · rintro rfl
      have hran : token "ran" 2 ∈ redFoxRan.tokens := by simp [redFoxRan]
      exact ⟨by decide, ⟨1, redFoxRan⟩, mem_cons_self, token "ran" 2, hran, rfl⟩
    · rintro ⟨hstarts, e, hentry, word, hword, rfl⟩
      have hwords : word.term ∈ ["red", "fox", "ran"] := by
        rcases mem_pair.mp hentry with rfl | rfl
        · exact mem_map_of_mem hword
        · rcases mem_pair.mp hword with rfl | rfl <;> decide
      have hstart : ∀ t ∈ ["red", "fox", "ran"], "ra".toList <+: t.toList → t = "ran" := by decide
      exact hstart _ hwords hstarts

theorem score_matching_foxes : ∃ ranking : List (FulltextHit ℚ),
    ranking.Pairwise FulltextHit.before ∧ (ranking.map FulltextHit.objectId).Nodup ∧
      (∀ id, id ∈ ranking.map FulltextHit.objectId ↔ Found foxes foxQuery none id) ∧
      (∀ k, 2 ≤ k → score forward foxCandidates (fun x : ℚ => x) none k none = .ok ranking) ∧
      ∀ k, score forward foxCandidates (fun x : ℚ => x) none k none = .ok (ranking.take k) ∧
        ∀ deadline hits, score forward foxCandidates (fun x : ℚ => x) none k deadline = .ok hits →
          hits = ranking.take k :=
  score_matching forward foxes_collected
    (positiveScores_of_ln (fun _ hx => lt_trans one_pos hx) _)
    (fun _ _ hlists => by
      cases mem_singleton.mp (mem_lookup_iff.mp hlists)
      decide) none

end RhypeDb.Fulltext
