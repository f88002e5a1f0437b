import RhypeDb.Fulltext.Candidates

/-! What a ranking over the visible documents depends on: their postings, and no others. -/

namespace RhypeDb.Fulltext

open Engine Fallible FulltextHit KeyedFold List

section

variable {F : Type} [Zero F] [Add F]

def addAll (clause : Clause) (contributions : List F) (o : Option (Acc F)) : Option (Acc F) :=
  contributions.foldl
    (fun o x => some ((o.getD { score := 0, requiredHits := 0 }).add clause x)) o

theorem lookup_add (clause : Clause) (s : Scored F) (id id' : Id) (x : F) :
    (s.add clause id x).acc.lookup id' =
      if id' = id then addAll clause [x] (s.acc.lookup id') else s.acc.lookup id' := by
  unfold Scored.add addAll
  rw [lookup_insert']
  by_cases h : id' = id
  · subst h
    rfl
  · rw [if_neg h, if_neg h]

variable [Mul F]

def phraseContributions (clause : Clause) (idf : String → F) (tfnorm : Posting → F)
    (row : String → Option Posting) : List F :=
  match clause.terms.mapM row with
  | none => []
  | some perTerm =>
    if phraseMatches clause perTerm then [phraseContribution clause idf tfnorm perTerm] else []

def clauseContributions (idf : String → F) (tfnorm : Posting → F) (rows : String → List Posting)
    (clause : Clause) : List F :=
  if clause.isPhrase then phraseContributions clause idf tfnorm fun t => (rows t).getLast?
  else
    let term := clause.terms.head clause.nonempty
    (rows term).map fun p => idf term * tfnorm p

def documentAcc (query : ParsedQuery) (idf : String → F) (tfnorm : Posting → F)
    (rows : String → List Posting) : Option (Acc F) :=
  query.clauses.foldl (fun o clause => addAll clause (clauseContributions idf tfnorm rows clause) o)
    none

variable (clause : Clause) (idf : String → F) (tfnorm : Posting → F) (allowed : Id → Bool)

theorem tick_none (visited : Nat) : tick none visited = .ok (visited + 1) := by
  unfold tick
  rw [if_neg]
  rintro ⟨-, h⟩
  cases h

theorem scoreTerm_lookup (w : F) (list : PostingList) (s : Scored F) :
    ∃ s', scoreTerm clause w tfnorm allowed none list s = .ok s' ∧
      ∀ id, s'.acc.lookup id = if allowed id then
        addAll clause ((rowsOf id list).map fun p => w * tfnorm p) (s.acc.lookup id)
        else s.acc.lookup id := by
  unfold scoreTerm
  induction list generalizing s with
  | nil =>
    refine ⟨s, rfl, fun id => ?_⟩
    split_ifs <;> rfl
  | cons e list ih =>
    rw [foldlM_cons, tick_none, ok_bind]
    have hstep := ih (if allowed e.1 then
      Scored.add clause { s with visited := s.visited + 1 } e.1 (w * tfnorm e.2)
      else { s with visited := s.visited + 1 })
    obtain ⟨s', hs', hlookup⟩ := hstep
    refine ⟨s', hs', fun id => ?_⟩
    rw [hlookup, rowsOf_cons]
    by_cases hid : e.1 = id
    · subst hid
      by_cases hallowed : allowed e.1
      · simp only [hallowed, if_true, lookup_add]
        rfl
      · simp only [hallowed, if_false, Bool.false_eq_true]
    · by_cases hallowed : allowed e.1
      · simp only [hallowed, hid, if_true, if_false, lookup_add, if_neg (Ne.symm hid)]
      · simp only [hallowed, hid, if_false, Bool.false_eq_true]

theorem mapM_lookup {κ δ β : Type} [DecidableEq κ] [DecidableEq δ] (ts : List κ)
    (maps : AList fun _ : κ => AList fun _ : δ => β) (id : δ) :
    ((ts.mapM fun t => maps.lookup t).bind fun ms => ms.mapM fun m => m.lookup id) =
      ts.mapM fun t => (maps.lookup t).bind fun m => m.lookup id := by
  induction ts with
  | nil => rfl
  | cons t ts ih =>
    rw [mapM_cons, mapM_cons, ← ih]
    cases maps.lookup t with
    | none => rfl
    | some m =>
      cases hts : ts.mapM fun t => maps.lookup t with
      | none => cases h : m.lookup id <;> simp [h]
      | some ms => simp [mapM_cons]

theorem mapM_congr {α β : Type} {f g : α → Option β} {l : List α} (h : ∀ a ∈ l, f a = g a) :
    l.mapM f = l.mapM g := by
  induction l with
  | nil => rfl
  | cons a l ih =>
    rw [forall_mem_cons] at h
    rw [mapM_cons, mapM_cons, h.1, ih h.2]

theorem mapM_eq_none_of_mem {α β : Type} {f : α → Option β} {l : List α} {a : α} (ha : a ∈ l)
    (hf : f a = none) : l.mapM f = none := by
  induction l with
  | nil => cases ha
  | cons b l ih =>
    rw [mapM_cons]
    rcases mem_cons.mp ha with rfl | ha
    · rw [hf]
      rfl
    · rw [ih ha]
      cases f b <;> rfl

theorem visitDocument_lookup (perPosition : List (AList fun _ : Id => Posting)) (s : Scored F)
    (id : Id) : ∃ s', visitDocument clause perPosition idf tfnorm allowed none s id = .ok s' ∧
      ∀ id', s'.acc.lookup id' = if id' = id ∧ allowed id then
        addAll clause (match perPosition.mapM fun m => m.lookup id with
          | none => []
          | some perTerm => if phraseMatches clause perTerm then
              [phraseContribution clause idf tfnorm perTerm] else []) (s.acc.lookup id')
        else s.acc.lookup id' := by
  unfold visitDocument
  rw [tick_none, ok_bind]
  by_cases hallowed : allowed id
  · rw [if_pos hallowed]
    cases hrow : perPosition.mapM fun m => m.lookup id with
    | none =>
      refine ⟨_, rfl, fun id' => ?_⟩
      split_ifs <;> rfl
    | some perTerm =>
      refine ⟨_, rfl, fun id' => ?_⟩
      by_cases hmatch : phraseMatches clause perTerm
      · simp only [hmatch, if_true, lookup_add, hallowed, and_true]
      · simp only [hmatch, if_false, Bool.false_eq_true]
        split_ifs <;> rfl
  · rw [if_neg hallowed]
    refine ⟨_, rfl, fun id' => ?_⟩
    rw [if_neg fun h => hallowed h.2]

theorem visits_lookup (perPosition : List (AList fun _ : Id => Posting)) (ids : List Id)
    (hnodup : ids.Nodup) (s : Scored F) :
    ∃ s', ids.foldlM (visitDocument clause perPosition idf tfnorm allowed none) s = .ok s' ∧
      ∀ id, s'.acc.lookup id = if id ∈ ids ∧ allowed id then
        addAll clause (match perPosition.mapM fun m => m.lookup id with
          | none => []
          | some perTerm => if phraseMatches clause perTerm then
              [phraseContribution clause idf tfnorm perTerm] else []) (s.acc.lookup id)
        else s.acc.lookup id := by
  induction ids generalizing s with
  | nil =>
    refine ⟨s, rfl, fun id => ?_⟩
    rw [if_neg fun h => not_mem_nil h.1]
  | cons id₀ ids ih =>
    obtain ⟨hfresh, hnodup⟩ := nodup_cons.mp hnodup
    obtain ⟨s₁, hs₁, hlookup₁⟩ :=
      visitDocument_lookup clause idf tfnorm allowed perPosition s id₀
    obtain ⟨s₂, hs₂, hlookup₂⟩ := ih hnodup s₁
    refine ⟨s₂, by rw [foldlM_cons, hs₁, ok_bind, hs₂], fun id => ?_⟩
    rw [hlookup₂, hlookup₁]
    by_cases hid : id = id₀
    · subst hid
      rw [if_neg fun h => hfresh h.1]
      simp only [mem_cons_self, true_and]
    · rw [if_neg fun h : id = id₀ ∧ allowed id₀ => hid h.1]
      simp only [mem_cons, hid, false_or]

theorem scorePhrase_lookup (it : Iteration)
    (maps : AList fun _ : String => AList fun _ : Id => Posting) (s : Scored F) :
    ∃ s', scorePhrase it clause maps idf tfnorm allowed none s = .ok s' ∧
      ∀ id, s'.acc.lookup id = if allowed id then
        addAll clause (phraseContributions clause idf tfnorm fun t =>
          (maps.lookup t).bind fun m => m.lookup id) (s.acc.lookup id)
        else s.acc.lookup id := by
  unfold scorePhrase phraseContributions
  have hrow := fun id => mapM_lookup clause.terms maps id
  cases hpositions : clause.terms.mapM fun t => maps.lookup t with
  | none =>
    refine ⟨s, rfl, fun id => ?_⟩
    rw [← hrow id, hpositions]
    split_ifs <;> rfl
  | some perPosition =>
    let driver := (perPosition.argmin fun m => m.entries.length).getD ∅
    have hnodup : (it.order driver.keys).Nodup := (it.perm _).nodup_iff.mpr driver.keys_nodup
    obtain ⟨s', hs', hlookup⟩ :=
      visits_lookup clause idf tfnorm allowed perPosition (it.order driver.keys) hnodup s
    refine ⟨s', hs', fun id => ?_⟩
    rw [hlookup, ← hrow id, hpositions, Option.bind_some]
    by_cases hmem : id ∈ it.order driver.keys
    · simp only [hmem, true_and]
    · -- a document that the driver lacks is missing from one word
      have hnone : perPosition.mapM (fun m => m.lookup id) = none := by
        have hlacks : driver.lookup id = none := by
          rw [AList.lookup_eq_none, AList.mem_keys]
          exact fun h => hmem ((it.perm _).mem_iff.mpr h)
        have hne : perPosition ≠ [] := by
          rintro rfl
          apply clause.nonempty
          cases hterms : clause.terms with
          | nil => rfl
          | cons t ts =>
            rw [hterms, mapM_cons] at hpositions
            cases ht : maps.lookup t <;> cases hts : ts.mapM fun t => maps.lookup t <;>
              simp [ht, hts] at hpositions
        obtain ⟨m, hm⟩ : ∃ m, perPosition.argmin (fun m => m.entries.length) = some m :=
          Option.ne_none_iff_exists'.mp fun h => hne (argmin_eq_none.mp h)
        have hdriver : driver = m := by
          change (perPosition.argmin fun m => m.entries.length).getD ∅ = m
          rw [hm]
          rfl
        exact mapM_eq_none_of_mem (argmin_mem hm) (hdriver ▸ hlacks)
      rw [if_neg fun h => hmem h.1, hnone]
      split_ifs <;> rfl

end

section

variable {F : Type} [Zero F] [Add F] [Mul F]
variable (it : Iteration) (query : ParsedQuery) (postings : AList fun _ : String => PostingList)

def termRows (id : Id) (t : String) : List Posting := rowsOf id ((postings.lookup t).getD [])

def Indexes (maps : AList fun _ : String => AList fun _ : Id => Posting) : Prop :=
  ∀ t m, maps.lookup t = some m → (postings.lookup t).map indexPostings = some m

variable {maps : AList fun _ : String => AList fun _ : Id => Posting}

theorem addPhraseMap_lookup (hmaps : Indexes postings maps) (t₀ t : String) :
    (addPhraseMap postings maps t₀).lookup t =
      if t = t₀ then (postings.lookup t).map indexPostings else maps.lookup t := by
  unfold addPhraseMap
  cases hlist : postings.lookup t₀ with
  | none =>
    by_cases ht : t = t₀
    · subst ht
      rw [if_pos rfl, hlist]
      cases hm : maps.lookup t with
      | none => rfl
      | some m => rw [← hmaps t m hm, hlist]
    · rw [if_neg ht]
  | some list =>
    dsimp only
    by_cases hmem : t₀ ∈ maps
    · rw [if_pos hmem]
      by_cases ht : t = t₀
      · subst ht
        obtain ⟨m, hm⟩ := Option.isSome_iff_exists.mp (AList.lookup_isSome.mpr hmem)
        rw [if_pos rfl, hmaps t m hm, hm]
      · rw [if_neg ht]
    · rw [if_neg hmem, lookup_insert']
      by_cases ht : t = t₀
      · subst ht
        rw [if_pos rfl, if_pos rfl, hlist]
        rfl
      · rw [if_neg ht, if_neg ht]

theorem addPhraseMaps_lookup (ts : List String) (hmaps : Indexes postings maps) (t : String) :
    (ts.foldl (addPhraseMap postings) maps).lookup t =
      if t ∈ ts then (postings.lookup t).map indexPostings else maps.lookup t := by
  induction ts generalizing maps with
  | nil =>
    rfl
  | cons t₀ ts ih =>
    have hnext : Indexes postings (addPhraseMap postings maps t₀) := by
      intro t m hm
      rw [addPhraseMap_lookup postings hmaps] at hm
      split_ifs at hm with ht
      · exact hm
      · exact hmaps t m hm
    rw [foldl_cons, ih hnext, addPhraseMap_lookup postings hmaps]
    by_cases hmem : t ∈ ts
    · rw [if_pos hmem, if_pos (mem_cons_of_mem _ hmem)]
    · simp only [mem_cons, hmem, or_false, if_false]

theorem phraseMaps_lookup {t : String}
    (ht : t ∈ (query.clauses.filter Clause.isPhrase).flatMap Clause.terms) (id : Id) :
    (((phraseMaps query postings).lookup t).bind fun m => m.lookup id) =
      (termRows postings id t).getLast? := by
  have hempty : Indexes postings ∅ := by
    intro t m h
    cases h
  unfold phraseMaps termRows
  rw [addPhraseMaps_lookup postings _ hempty, if_pos ht]
  cases postings.lookup t with
  | none => rfl
  | some list => exact lookup_foldl_insert list id

variable (idf : String → F) (tfnorm : Posting → F) (allowed : Id → Bool) {clause : Clause}

theorem phraseContributions_congr {row row' : String → Option Posting}
    (h : ∀ t ∈ clause.terms, row t = row' t) :
    phraseContributions clause idf tfnorm row = phraseContributions clause idf tfnorm row' := by
  unfold phraseContributions
  rw [mapM_congr h]

theorem scoreClause_lookup (hclause : clause ∈ query.clauses) (s : Scored F) :
    ∃ s', scoreClause it (phraseMaps query postings) postings idf tfnorm allowed none s clause =
        .ok s' ∧
      ∀ id, s'.acc.lookup id = if allowed id then
        addAll clause (clauseContributions idf tfnorm (termRows postings id) clause)
          (s.acc.lookup id)
        else s.acc.lookup id := by
  unfold scoreClause clauseContributions
  by_cases hphrase : clause.isPhrase
  · simp only [hphrase, if_true]
    obtain ⟨s', hs', hlookup⟩ :=
      scorePhrase_lookup clause idf tfnorm allowed it (phraseMaps query postings) s
    refine ⟨s', hs', fun id => ?_⟩
    have hrow : ∀ t ∈ clause.terms,
        ((phraseMaps query postings).lookup t).bind (fun m => m.lookup id) =
          (termRows postings id t).getLast? := by
      intro t ht
      apply phraseMaps_lookup query postings
      exact mem_flatMap.mpr ⟨clause, mem_filter.mpr ⟨hclause, hphrase⟩, ht⟩
    rw [hlookup, phraseContributions_congr idf tfnorm hrow]
  · simp only [hphrase, if_false, Bool.false_eq_true]
    exact scoreTerm_lookup clause tfnorm allowed _ _ s

theorem scoreClauses_lookup :
    ∃ s, scoreClauses it query postings idf tfnorm allowed none = .ok s ∧
      ∀ id, s.acc.lookup id = if allowed id then
        documentAcc query idf tfnorm (termRows postings id) else none := by
  have hfold : ∀ (clauses : List Clause), (∀ c ∈ clauses, c ∈ query.clauses) → ∀ s : Scored F,
      ∃ s', clauses.foldlM
          (scoreClause it (phraseMaps query postings) postings idf tfnorm allowed none) s = .ok s' ∧
        ∀ id, s'.acc.lookup id = if allowed id then
          clauses.foldl (fun o clause =>
            addAll clause (clauseContributions idf tfnorm (termRows postings id) clause) o)
            (s.acc.lookup id)
          else s.acc.lookup id := by
    intro clauses
    induction clauses with
    | nil =>
      intro _ s
      refine ⟨s, rfl, fun id => ?_⟩
      split_ifs <;> rfl
    | cons clause clauses ih =>
      intro hsub s
      obtain ⟨s₁, hs₁, hlookup₁⟩ := scoreClause_lookup it query postings idf tfnorm allowed
        (hsub clause mem_cons_self) s
      obtain ⟨s₂, hs₂, hlookup₂⟩ := ih (fun c hc => hsub c (mem_cons_of_mem _ hc)) s₁
      refine ⟨s₂, by rw [foldlM_cons, hs₁, ok_bind, hs₂], fun id => ?_⟩
      rw [hlookup₂, hlookup₁, foldl_cons]
      split_ifs <;> rfl
  exact hfold query.clauses (fun _ h => h) { visited := 0, acc := ∅ }

end

variable {F : Type} [Zero F] [Add F] [Sub F] [Mul F] [Div F] [NatCast F] [LinearOrder F]

omit [Zero F] [Add F] [Sub F] [Mul F] [Div F] [NatCast F] in
theorem FulltextHit.before_antisymm {a b : FulltextHit F} (hab : a.before b) (hba : b.before a) :
    a = b := by
  rcases hab with hlt | ⟨hscore, hid⟩
  · rcases hba with hlt' | ⟨hscore, -⟩
    · exact absurd hlt (lt_asymm hlt')
    · exact absurd hlt (hscore ▸ lt_irrefl _)
  · rcases hba with hlt | ⟨-, hid'⟩
    · exact absurd hlt (hscore ▸ lt_irrefl _)
    · rw [FulltextHit.mk.injEq]
      exact ⟨UInt64.le_antisymm hid hid', hscore⟩

omit [Zero F] [Add F] [Sub F] [Mul F] [Div F] [NatCast F] in
theorem FulltextHit.before_total : Std.Total (FulltextHit.before (F := F)) := by
  refine ⟨fun a b => ?_⟩
  rcases lt_trichotomy a.score b.score with h | h | h
  · exact .inr (.inl h)
  · rcases UInt64.le_total a.objectId b.objectId with hid | hid
    · exact .inl (.inr ⟨h, hid⟩)
    · exact .inr (.inr ⟨h.symm, hid⟩)
  · exact .inl (.inl h)

omit [Zero F] [Add F] [Sub F] [Mul F] [Div F] [NatCast F] in
theorem FulltextHit.before_trans : IsTrans (FulltextHit F) FulltextHit.before := by
  refine ⟨fun a b c hab hbc => ?_⟩
  rcases hab with hab | ⟨hab, hid⟩
  · rcases hbc with hbc | ⟨hbc, -⟩
    · exact .inl (hbc.trans hab)
    · exact .inl (hbc ▸ hab)
  · rcases hbc with hbc | ⟨hbc, hid'⟩
    · exact .inl (hab ▸ hbc)
    · exact .inr ⟨hab.trans hbc, UInt64.le_trans hid hid'⟩

omit [Add F] [Sub F] [Mul F] [Div F] [NatCast F] in
theorem topHits_congr (it it' : Iteration) (requiredCount k : Nat)
    {acc acc' : AList fun _ : Id => Acc F} (h : ∀ id, acc.lookup id = acc'.lookup id) :
    topHits it requiredCount k acc = topHits it' requiredCount k acc' := by
  have hentries : (it.order acc.entries).Perm (it'.order acc'.entries) :=
    ((it.perm _).trans (perm_of_lookup_eq h)).trans (it'.perm _).symm
  have hhits := (hentries.filter fun e =>
    decide (e.2.requiredHits = requiredCount ∧ 0 < e.2.score)).map fun e =>
      ({ objectId := e.1, score := e.2.score } : FulltextHit F)
  have htotal : Std.Total (before (F := F)) := before_total
  have htrans : IsTrans (FulltextHit F) before := before_trans
  have hsorted : ∀ l : List (FulltextHit F),
      (l.insertionSort before).Pairwise before := fun l =>
    pairwise_insertionSort before l
  have hperm := ((perm_insertionSort before _).trans hhits).trans
    (perm_insertionSort before _).symm
  have heq := List.Perm.eq_of_pairwise (fun a b _ _ hab hba => before_antisymm hab hba)
    (hsorted _) (hsorted _) hperm
  exact congrArg (List.take k) heq

variable (ln : F → F) (query : ParsedQuery) {visible : List Id}

theorem scoreQueryWith_corpus (it it' : Iteration)
    {postings postings' : AList fun _ : String => PostingList} (stats : CorpusStats) (k : Nat)
    (h : ∀ t, ∀ id ∈ visible, termRows postings id t = termRows postings' id t) :
    ∃ hits, scoreQueryWith it ln query postings stats (some visible) .corpus k none = .ok hits ∧
      scoreQueryWith it' ln query postings' stats (some visible) .corpus k none = .ok hits := by
  unfold scoreQueryWith
  by_cases hnone : k = 0 ∨ stats.docCount = 0
  · rw [if_pos hnone, if_pos hnone]
    exact ⟨[], rfl, rfl⟩
  · rw [if_neg hnone, if_neg hnone]
    generalize hdef : (fun id => (some visible).all fun set => decide (id ∈ set)) = allowed
    have hallowed : ∀ id, allowed id = decide (id ∈ visible) := by
      intro id
      rw [← hdef]
      rfl
    have hdf : ∀ t, documentFrequency .corpus allowed ((postings.lookup t).getD []) =
        documentFrequency .corpus allowed ((postings'.lookup t).getD []) := by
      intro t
      refine (perm_filter_of_rowsOf fun id hid => ?_).length_eq
      rw [hallowed, decide_eq_true_iff] at hid
      exact h t id hid
    simp only [hdf]
    obtain ⟨s, hs, hlookup⟩ := scoreClauses_lookup it query postings
      (fun t => idfWeight ln stats.docCount
        (documentFrequency .corpus allowed ((postings'.lookup t).getD [])))
      (tfnorm stats.avgdl) allowed
    obtain ⟨s', hs', hlookup'⟩ := scoreClauses_lookup it' query postings'
      (fun t => idfWeight ln stats.docCount
        (documentFrequency .corpus allowed ((postings'.lookup t).getD [])))
      (tfnorm stats.avgdl) allowed
    have hacc : ∀ id, s'.acc.lookup id = s.acc.lookup id := by
      intro id
      rw [hlookup, hlookup']
      by_cases hid : id ∈ visible
      · have hrows : termRows postings id = termRows postings' id := by
          funext t
          exact h t id hid
        rw [hrows]
      · have hfalse : allowed id = false := by rw [hallowed, decide_eq_false hid]
        rw [hfalse]
        rfl
    rw [hs, hs', ok_bind, ok_bind, topHits_congr it' it _ _ hacc]
    exact ⟨_, rfl, rfl⟩

end RhypeDb.Fulltext
