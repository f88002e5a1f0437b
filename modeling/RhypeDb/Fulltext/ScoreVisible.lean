import RhypeDb.Fulltext.Visible

/-! Ranking over the visible documents tells nothing of the others: two sets of candidates that
agree on the visible documents rank alike, or fail alike. -/

namespace RhypeDb.Fulltext

open AList Engine Fallible KeyedFold List Option

section

variable (c : FulltextCandidates) (visible : List Id) (key : String) {c' : FulltextCandidates}

def seen (id : Id) : Bool := decide (id ∈ visible)

def visibleRows (list : PostingList) : PostingList := list.filter fun e => seen visible e.1

def visibleTerms (lists : List PostingList) : List PostingList :=
  (lists.map (visibleRows visible)).filter fun list => decide (list ≠ [])

def merging : Except SearchError Merging :=
  ((c.prefixTerms.lookup key).getD []).foldlM (mergeList c key (seen visible))
    { merged := ∅, terms := 0 }

/-- The error of a prefix that cannot be ranked. -/
def prefixFault : Option SearchError :=
  match merging c visible key with
  | .error e => some e
  | .ok _ => none

structure SameVisible (c c' : FulltextCandidates) : Prop where
  typeName : c.typeName = c'.typeName
  fieldName : c.fieldName = c'.fieldName
  parsed : c.parsed = c'.parsed
  postings : ∀ key, visibleRows visible ((c.postings.lookup key).getD []) =
    visibleRows visible ((c'.postings.lookup key).getD [])
  prefixTerms : ∀ key, visibleTerms visible ((c.prefixTerms.lookup key).getD []) =
    visibleTerms visible ((c'.prefixTerms.lookup key).getD [])

theorem mergeEntry_hidden {allowed : Id → Bool} {e : Id × Posting} (h : ¬allowed e.1)
    (s : Merging × Bool) : mergeEntry c key allowed s e = .ok s := by
  unfold mergeEntry
  rw [if_neg h]
  rfl

theorem mergeList_visibleRows (m : Merging) (list : PostingList) :
    mergeList c key (seen visible) m list =
      mergeList c key (seen visible) m (visibleRows visible list) := by
  have hfold : ∀ s : Merging × Bool, list.foldlM (mergeEntry c key (seen visible)) s =
      (visibleRows visible list).foldlM (mergeEntry c key (seen visible)) s := by
    unfold visibleRows
    induction list with
    | nil =>
      intro s
      rfl
    | cons e list ih =>
      intro s
      rw [foldlM_cons]
      by_cases hseen : seen visible e.1
      · rw [filter_cons, if_pos hseen, foldlM_cons]
        congr 1
        funext s
        exact ih s
      · rw [filter_cons, if_neg hseen, mergeEntry_hidden c key hseen, ok_bind, ih]
  unfold mergeList
  rw [hfold]

theorem foldlM_mergeList_visibleTerms (m : Merging) (lists : List PostingList) :
    lists.foldlM (mergeList c key (seen visible)) m =
      (visibleTerms visible lists).foldlM (mergeList c key (seen visible)) m := by
  unfold visibleTerms
  induction lists generalizing m with
  | nil => rfl
  | cons list lists ih =>
    rw [foldlM_cons, mergeList_visibleRows, map_cons]
    by_cases hempty : visibleRows visible list = []
    · rw [filter_cons_of_neg (by simpa using hempty), hempty]
      exact ih m
    · rw [filter_cons_of_pos (by simpa using hempty), foldlM_cons]
      congr 1
      funext m
      exact ih m

theorem mergeList_congr {c : FulltextCandidates} (htype : c.typeName = c'.typeName)
    (hfield : c.fieldName = c'.fieldName) (allowed : Id → Bool) :
    mergeList c key allowed = mergeList c' key allowed := by
  have hposting : mergePosting c key = mergePosting c' key := by
    funext m e
    unfold mergePosting
    rw [htype, hfield]
  have hentry : mergeEntry c key allowed = mergeEntry c' key allowed := by
    funext s e
    unfold mergeEntry
    rw [hposting]
  funext m list
  unfold mergeList
  rw [hentry]

variable {c visible}

theorem SameVisible.merging (h : SameVisible visible c c')
    (key : String) : merging c visible key = merging c' visible key := by
  unfold Fulltext.merging
  rw [foldlM_mergeList_visibleTerms, foldlM_mergeList_visibleTerms c', h.prefixTerms key,
    mergeList_congr key h.typeName h.fieldName]

end

section

variable {c : FulltextCandidates} {visible : List Id} {it : Iteration}
  {merged : AList fun _ : String => PostingList} {key : String}

theorem mem_prefixTerms {e : Sigma fun _ : String => List PostingList}
    (he : e ∈ c.prefixTerms.entries) : c.prefixTerms.lookup e.1 = some e.2 :=
  mem_lookup_iff.mpr he

theorem mergePrefix_eq {lists : List PostingList} (hkey : c.prefixTerms.lookup key = some lists) :
    mergePrefix c key it (seen visible) lists =
      (merging c visible key >>= fun m =>
        pure ((it.order m.merged.entries).map fun e => (e.1, e.2))) := by
  unfold mergePrefix merging
  rw [hkey]
  rfl

theorem mergePrefixes_error {e : SearchError} (h : mergePrefixes it c (some visible) = .error e) :
    ∃ key, prefixFault c visible key = some e := by
  obtain ⟨entry, hentry, hfail⟩ := foldlM_insert_error h
  have hfail : mergePrefix c entry.1 it (seen visible) entry.2 = .error e := hfail
  rw [mergePrefix_eq (mem_prefixTerms hentry)] at hfail
  refine ⟨entry.1, ?_⟩
  unfold prefixFault
  rcases bind_eq_error.mp hfail with hfail | ⟨m, -, hfail⟩
  · rw [hfail]
  · cases hfail

theorem mergePrefixes_ok (h : mergePrefixes it c (some visible) = .ok merged) (key : String) :
    ∃ m, merging c visible key = .ok m ∧ (merged.lookup key).getD [] =
      (it.order m.merged.entries).map (fun e => (e.1, e.2)) ∧
      (key ∉ c.prefixTerms → key ∉ merged ∧ m.merged = ∅) ∧
      (key ∈ c.prefixTerms → key ∈ merged) := by
  obtain ⟨hentries, hothers⟩ := foldlM_insert_ok c.prefixTerms.nodupKeys h
  cases hkey : c.prefixTerms.lookup key with
  | none =>
    have hnone : merged.lookup key = none := hothers key (lookup_eq_none.mp hkey)
    refine ⟨{ merged := ∅, terms := 0 }, ?_, ?_, ?_, ?_⟩
    · unfold merging
      rw [hkey]
      rfl
    · have hempty : it.order (∅ : AList fun _ : Id => Posting).entries = [] :=
        perm_nil.mp (it.perm _)
      rw [hnone, hempty]
      rfl
    · exact fun _ => ⟨lookup_eq_none.mp hnone, rfl⟩
    · exact fun hmem => absurd hmem (lookup_eq_none.mp hkey)
  | some lists =>
    obtain ⟨list, hlist, hlookup⟩ := hentries ⟨key, lists⟩ (mem_lookup_iff.mp hkey)
    have hlist : mergePrefix c key it (seen visible) lists = .ok list := hlist
    rw [mergePrefix_eq hkey] at hlist
    obtain ⟨m, hm, heq⟩ := bind_eq_ok.mp hlist
    have hmem : key ∈ c.prefixTerms := lookup_isSome.mp (by rw [hkey]; rfl)
    refine ⟨m, hm, ?_, fun hnot => absurd hmem hnot, fun _ => ?_⟩
    · rw [hlookup]
      exact (pure_eq_ok.mp heq).symm
    · exact lookup_isSome.mp (by rw [hlookup]; rfl)

theorem termRows_lists (h : mergePrefixes it c (some visible) = .ok merged)
    {m : Merging} (hm : merging c visible key = .ok m) (id : Id) :
    termRows (lists c merged) id key =
      (m.merged.lookup id).toList ++ rowsOf id ((c.postings.lookup key).getD []) := by
  obtain ⟨m', hm', hrows, hnot, hin⟩ := mergePrefixes_ok h key
  cases hm.symm.trans hm'
  unfold termRows lists
  by_cases hmem : key ∈ c.prefixTerms
  · have hexact : c.postings.lookup key = none := lookup_eq_none.mpr (c.separate key hmem)
    rw [lookup_union_left (hin hmem), hrows, hexact, getD_none, rowsOf_nil,
      append_nil]
    exact rowsOf_of_perm_entries (it.perm _) id
  · obtain ⟨hfresh, hempty⟩ := hnot hmem
    rw [lookup_union_right hfresh, hempty, lookup_empty]
    rfl

end

section

variable (c : FulltextCandidates) (visible : List Id)

inductive HasPosting (id : Id) (p : Posting) : Prop
  | exact {key : String} {list : PostingList} (hkey : c.postings.lookup key = some list)
      (hmem : (id, p) ∈ list)
  | underPrefix {key : String} {lists : List PostingList} {list : PostingList}
      (hkey : c.prefixTerms.lookup key = some lists) (hlist : list ∈ lists) (hmem : (id, p) ∈ list)

def OneDocLen : Prop :=
  ∀ id ∈ visible, ∀ p p', HasPosting c id p → HasPosting c id p' → p.docLen = p'.docLen

variable {c visible}

variable (c) in
def LensFrom (m : Merging) : Prop :=
  ∀ id q, m.merged.lookup id = some q → ∃ p, HasPosting c id p ∧ p.docLen = q.docLen

theorem LensFrom.insert {m : Merging} (hm : LensFrom c m) {id : Id} {q p : Posting}
    (hp : HasPosting c id p) (hlen : p.docLen = q.docLen) :
    LensFrom c { m with merged := m.merged.insert id q } := by
  intro id' q' hq'
  rw [lookup_insert'] at hq'
  split_ifs at hq' with hid
  · cases hq'
    exact ⟨p, hid ▸ hp, hlen⟩
  · exact hm id' q' hq'

theorem mergePosting_lens {key : String} {m m' : Merging} {e : Id × Posting}
    (he : HasPosting c e.1 e.2) (hm : LensFrom c m) (h : mergePosting c key m e = .ok m') :
    LensFrom c m' := by
  unfold mergePosting at h
  cases hold : m.merged.lookup e.1 with
  | none =>
    rw [hold] at h
    cases h
    exact hm.insert he rfl
  | some o =>
    rw [hold] at h
    dsimp only at h
    split_ifs at h
    cases h
    obtain ⟨p, hp, hlen⟩ := hm e.1 o hold
    exact hm.insert hp hlen

theorem mergeEntry_lens {key : String} {s s' : Merging × Bool} {e : Id × Posting}
    (he : HasPosting c e.1 e.2) (hs : LensFrom c s.1)
    (h : mergeEntry c key (seen visible) s e = .ok s') : LensFrom c s'.1 := by
  unfold mergeEntry at h
  split_ifs at h with hseen
  · obtain ⟨m, hcounted, h⟩ := bind_eq_ok.mp h
    obtain ⟨m', hm', h⟩ := bind_eq_ok.mp h
    cases h
    have hm : LensFrom c m := by
      unfold countTerm at hcounted
      split_ifs at hcounted
      · cases hcounted
        exact hs
      · cases hcounted
        exact hs
    exact mergePosting_lens he hm hm'
  · cases h
    exact hs

theorem merging_docLen {key : String} {m : Merging} (hm : merging c visible key = .ok m) :
    LensFrom c m := by
  refine foldlM_induct ?_ ?_ hm
  · intro s s' list hlist hs h
    obtain ⟨lists, hlists, hlist⟩ : ∃ lists, c.prefixTerms.lookup key = some lists ∧
        list ∈ lists := by
      cases hlists : c.prefixTerms.lookup key with
      | none =>
        rw [hlists] at hlist
        cases hlist
      | some lists =>
        rw [hlists] at hlist
        exact ⟨lists, rfl, hlist⟩
    obtain ⟨t, ht, h⟩ := bind_eq_ok.mp h
    cases h
    refine @foldlM_induct _ _ _ _ (fun s => LensFrom c s.1) _ ?_ _ _ hs ht
    intro s s' e he hs h
    exact mergeEntry_lens (.underPrefix hlists hlist he) hs h
  · intro id q hq
    cases hq

def UniformLen (postings : AList fun _ : String => PostingList) (visible : List Id) : Prop :=
  ∀ id ∈ visible, ∀ t t', ∀ p ∈ termRows postings id t, ∀ p' ∈ termRows postings id t',
    p.docLen = p'.docLen

theorem OneDocLen.uniformLen {it : Iteration} {merged : AList fun _ : String => PostingList}
    (h : OneDocLen c visible) (hmerged : mergePrefixes it c (some visible) = .ok merged) :
    UniformLen (lists c merged) visible := by
  have hrow : ∀ id t p, p ∈ termRows (lists c merged) id t →
      ∃ p', HasPosting c id p' ∧ p'.docLen = p.docLen := by
    intro id t p hp
    obtain ⟨m, hm, -⟩ := mergePrefixes_ok hmerged t
    rw [termRows_lists hmerged hm, mem_append] at hp
    rcases hp with hp | hp
    · exact merging_docLen hm id p (by simpa using hp)
    · cases hlist : c.postings.lookup t with
      | none =>
        rw [hlist] at hp
        cases hp
      | some list =>
        rw [hlist] at hp
        exact ⟨p, .exact hlist (mem_rowsOf.mp hp), rfl⟩
  intro id hid t t' p hp p' hp'
  obtain ⟨q, hq, hlen⟩ := hrow id t p hp
  obtain ⟨q', hq', hlen'⟩ := hrow id t' p' hp'
  rw [← hlen, ← hlen']
  exact h id hid q q' hq hq'

theorem docLens_lookup {it : Iteration} {postings : AList fun _ : String => PostingList}
    (h : UniformLen postings visible) (id : Id) (l : UInt32) :
    (docLens it visible postings).lookup id = some l ↔
      id ∈ visible ∧ ∃ t, ∃ p ∈ termRows postings id t, p.docLen = l := by
  let rows := (it.order postings.entries).flatMap fun e =>
    e.2.filter fun e => decide (e.1 ∈ visible)
  have hlookup : (docLens it visible postings).lookup id = (rowsOf id rows).head?.map Posting.docLen := by
    unfold docLens
    rw [lookup_foldl_orInsert Posting.docLen, lookup_empty, none_or]
  have hrows : ∀ p, p ∈ rowsOf id rows ↔ id ∈ visible ∧ ∃ t, p ∈ termRows postings id t := by
    intro p
    rw [mem_rowsOf, mem_flatMap]
    constructor
    · rintro ⟨e, he, hp⟩
      obtain ⟨hp, hid⟩ := mem_filter.mp hp
      refine ⟨by simpa using hid, e.1, ?_⟩
      have hlist : postings.lookup e.1 = some e.2 :=
        mem_lookup_iff.mpr ((it.perm _).mem_iff.mp he)
      unfold termRows
      rw [hlist]
      exact mem_rowsOf.mpr hp
    · rintro ⟨hid, t, hp⟩
      unfold termRows at hp
      cases hlist : postings.lookup t with
      | none =>
        rw [hlist] at hp
        cases hp
      | some list =>
        rw [hlist] at hp
        refine ⟨⟨t, list⟩, (it.perm _).mem_iff.mpr (mem_lookup_iff.mp hlist), ?_⟩
        exact mem_filter.mpr ⟨mem_rowsOf.mp hp, by simpa using hid⟩
  rw [hlookup, map_eq_some_iff]
  constructor
  · rintro ⟨p, hp, rfl⟩
    obtain ⟨hid, t, hp⟩ := (hrows p).mp (mem_of_mem_head? hp)
    exact ⟨hid, t, p, hp, rfl⟩
  · rintro ⟨hid, t, p, hp, rfl⟩
    have hmem : p ∈ rowsOf id rows := (hrows p).mpr ⟨hid, t, hp⟩
    cases hhead : (rowsOf id rows).head? with
    | none =>
      rw [head?_eq_none_iff.mp hhead] at hmem
      cases hmem
    | some q =>
      obtain ⟨-, t', hq⟩ := (hrows q).mp (mem_of_mem_head? hhead)
      exact ⟨q, rfl, h id hid t' t q hq p hp⟩

theorem visibleStats_congr (it it' : Iteration) {lens lens' : AList fun _ : Id => UInt32}
    (h : ∀ id, lens.lookup id = lens'.lookup id) :
    visibleStats it lens = visibleStats it' lens' := by
  unfold visibleStats
  have hentries : lens.entries.Perm lens'.entries := perm_of_lookup_eq h
  have horder := ((it.perm _).trans hentries).trans (it'.perm _).symm
  have htotal := (horder.map fun e => e.2.toNat).sum_eq
  rw [hentries.length_eq, htotal]

end

section

variable {F : Type} [Zero F] [Add F] [Sub F] [Mul F] [Div F] [NatCast F] [LinearOrder F]
variable {c c' : FulltextCandidates} {visible : List Id}

/-- Candidates that agree on the visible documents give the same hits with the same scores in the
same order; or both fail, each with the error of a prefix that fails for both. -/
theorem scoreVisible_sameVisible (it it' : Iteration) (ln : F → F) (k : Nat)
    (h : SameVisible visible c c') (hlen : OneDocLen c visible) :
    (∃ hits, scoreVisible it c ln visible k none = .ok hits ∧
      scoreVisible it' c' ln visible k none = .ok hits) ∨
    ∃ key e key' e', scoreVisible it c ln visible k none = .error e ∧
      scoreVisible it' c' ln visible k none = .error e' ∧
      prefixFault c visible key = some e ∧ prefixFault c' visible key = some e ∧
      prefixFault c visible key' = some e' ∧ prefixFault c' visible key' = some e' := by
  have hfault : ∀ key, prefixFault c visible key = prefixFault c' visible key := by
    intro key
    unfold prefixFault
    rw [h.merging key]
  cases hmerged : mergePrefixes it c (some visible) with
  | error e =>
    obtain ⟨key, hkey⟩ := mergePrefixes_error hmerged
    right
    cases hmerged' : mergePrefixes it' c' (some visible) with
    | error e' =>
      obtain ⟨key', hkey'⟩ := mergePrefixes_error hmerged'
      refine ⟨key, e, key', e', ?_, ?_, hkey, hfault key ▸ hkey, (hfault key').symm ▸ hkey', hkey'⟩
      · unfold scoreVisible
        rw [hmerged]
        rfl
      · unfold scoreVisible
        rw [hmerged']
        rfl
    | ok merged' =>
      obtain ⟨m, hm, -⟩ := mergePrefixes_ok hmerged' key
      rw [hfault key] at hkey
      unfold prefixFault at hkey
      rw [hm] at hkey
      cases hkey
  | ok merged =>
    left
    cases hmerged' : mergePrefixes it' c' (some visible) with
    | error e' =>
      obtain ⟨key', hkey'⟩ := mergePrefixes_error hmerged'
      obtain ⟨m, hm, -⟩ := mergePrefixes_ok hmerged key'
      rw [← hfault key'] at hkey'
      unfold prefixFault at hkey'
      rw [hm] at hkey'
      cases hkey'
    | ok merged' =>
      have hrows : ∀ t, ∀ id ∈ visible,
          termRows (lists c merged) id t = termRows (lists c' merged') id t := by
        intro t id hid
        obtain ⟨m, hm, -⟩ := mergePrefixes_ok hmerged t
        have hm' : merging c' visible t = .ok m := (h.merging t) ▸ hm
        have hseen : seen visible id = true := decide_eq_true hid
        have hpart := congrArg (rowsOf id) (h.postings t)
        unfold visibleRows at hpart
        rw [rowsOf_filter hseen, rowsOf_filter hseen] at hpart
        rw [termRows_lists hmerged hm, termRows_lists hmerged' hm', hpart]
      have huniform : UniformLen (lists c merged) visible := hlen.uniformLen hmerged
      have huniform' : UniformLen (lists c' merged') visible := by
        intro id hid t t' p hp p' hp'
        rw [← hrows t id hid] at hp
        rw [← hrows t' id hid] at hp'
        exact huniform id hid t t' p hp p' hp'
      have hlens : ∀ id, (docLens it visible (lists c merged)).lookup id =
          (docLens it' visible (lists c' merged')).lookup id := by
        intro id
        refine Option.ext fun l => ?_
        rw [docLens_lookup huniform, docLens_lookup huniform']
        refine and_congr_right fun hid => exists_congr fun t => ?_
        rw [hrows t id hid]
      obtain ⟨hits, hhits, hhits'⟩ := scoreQueryWith_corpus ln c.parsed it it'
        (visibleStats it (docLens it visible (lists c merged))) k hrows
      refine ⟨hits, ?_, ?_⟩
      · unfold scoreVisible
        rw [hmerged, ok_bind]
        dsimp only
        rw [hhits]
        rfl
      · unfold scoreVisible
        rw [hmerged', ok_bind]
        dsimp only
        rw [← h.parsed, ← visibleStats_congr it it' hlens, hhits']
        rfl

end

def forward : Iteration := ⟨fun l => l, fun _ => .rfl⟩

def backward : Iteration := ⟨List.reverse, List.reverse_perm⟩

def wordClause (word : String) : Clause where
  required := false
  terms := [word]
  isPrefix := false
  offsets := []
  nonempty := List.cons_ne_nil _ _

theorem ascending_nil : ([] : List UInt32).Pairwise (· < ·) := List.Pairwise.nil

def posting (docLen : UInt32) : Posting where
  docLen := docLen
  tf := UInt32.ofNat 1
  positions := []
  ascending := ascending_nil

def twoWords (first second : PostingList) : FulltextCandidates where
  typeName := "Note"
  fieldName := "body"
  parsed := { clauses := [wordClause "tide", wordClause "moon"] }
  postings := ⟨[⟨"tide", first⟩, ⟨"moon", second⟩], by simp [List.NodupKeys]⟩
  prefixTerms := ∅
  stats := { docCount := 2, totalTokens := 3 }
  separate := fun _ h => absurd h (AList.notMem_empty _)

theorem twoWords_lookup (first second : PostingList) (key : String) :
    ((twoWords first second).postings.lookup key).getD [] =
      if key = "tide" then first else if key = "moon" then second else [] := by
  unfold twoWords AList.lookup
  split_ifs with h h'
  · subst h
    rfl
  · subst h'
    rfl
  · rw [dlookup_cons_ne _ _ h, dlookup_cons_ne _ _ h']
    rfl

/-- A hidden note changes nothing for the one that may be read. -/
theorem scoreVisible_hiddenNote :
    (∃ hits, scoreVisible forward (twoWords [(1, posting 2), (2, posting 1)] [(1, posting 2)])
        (fun x : ℚ => x) [1] 10 none = .ok hits ∧
      scoreVisible backward (twoWords [(1, posting 2)] [(1, posting 2), (3, posting 9)])
        (fun x : ℚ => x) [1] 10 none = .ok hits) ∨
    ∃ key e key' e',
      scoreVisible forward (twoWords [(1, posting 2), (2, posting 1)] [(1, posting 2)])
        (fun x : ℚ => x) [1] 10 none = .error e ∧
      scoreVisible backward (twoWords [(1, posting 2)] [(1, posting 2), (3, posting 9)])
        (fun x : ℚ => x) [1] 10 none = .error e' ∧
      prefixFault (twoWords [(1, posting 2), (2, posting 1)] [(1, posting 2)]) [1] key = some e ∧
      prefixFault (twoWords [(1, posting 2)] [(1, posting 2), (3, posting 9)]) [1] key = some e ∧
      prefixFault (twoWords [(1, posting 2), (2, posting 1)] [(1, posting 2)]) [1] key' = some e' ∧
      prefixFault (twoWords [(1, posting 2)] [(1, posting 2), (3, posting 9)]) [1] key' =
        some e' := by
  refine scoreVisible_sameVisible forward backward _ 10 ⟨rfl, rfl, rfl, ?_, fun _ => rfl⟩ ?_
  · intro key
    rw [twoWords_lookup, twoWords_lookup]
    split_ifs <;> rfl
  · intro id hid p p' hp hp'
    have hlen : ∀ p, HasPosting (twoWords [(1, posting 2), (2, posting 1)] [(1, posting 2)]) id p →
        p.docLen = 2 := by
      intro p hp
      rw [mem_singleton] at hid
      subst hid
      cases hp with
      | @exact key list hkey hmem =>
        have hlist := twoWords_lookup [(1, posting 2), (2, posting 1)] [(1, posting 2)] key
        rw [hkey, getD_some] at hlist
        subst hlist
        split_ifs at hmem
        · rcases mem_cons.mp hmem with h | h
          · cases h
            rfl
          · simp at h
        · cases mem_singleton.mp hmem
          rfl
        · cases hmem
      | underPrefix hkey => cases hkey
    rw [hlen p hp, hlen p' hp']

def twoPrefixes (first second : String) (h : first ≠ second) : FulltextCandidates where
  typeName := "Page"
  fieldName := "text"
  parsed := { clauses :=
    [{ wordClause "ca*" with isPrefix := true }, { wordClause "do*" with isPrefix := true }] }
  postings := ∅
  prefixTerms := ⟨[⟨first, List.replicate 65 [(1, posting 130)]⟩,
    ⟨second, List.replicate 65 [(1, posting 130)]⟩], by simpa [List.NodupKeys] using h⟩
  stats := { docCount := 1, totalTokens := 130 }
  separate := fun _ _ => AList.notMem_empty _

/-- Which of two prefixes is reported depends on the order of a map; so do, where the postings of a
document carry several lengths, its scores. -/
theorem scoreVisible_order :
    (¬∀ (c c' : FulltextCandidates) (visible : List Id) (k : Nat), SameVisible visible c c' →
      scoreVisible forward c (fun x : ℚ => x) visible k none =
        scoreVisible forward c' (fun x : ℚ => x) visible k none) ∧
    scoreVisible forward (twoWords [(1, posting 1)] [(1, posting 2)]) (fun x : ℚ => x) [1] 1 none ≠
      scoreVisible backward (twoWords [(1, posting 1)] [(1, posting 2)]) (fun x : ℚ => x) [1] 1
        none := by
  constructor
  · intro h
    have hsame : SameVisible [1] (twoPrefixes "ca*" "do*" (by decide))
        (twoPrefixes "do*" "ca*" (by decide)) := by
      refine ⟨rfl, rfl, rfl, fun _ => rfl, fun key => ?_⟩
      have hperm : (twoPrefixes "ca*" "do*" (by decide)).prefixTerms.entries.Perm
          (twoPrefixes "do*" "ca*" (by decide)).prefixTerms.entries := List.Perm.swap _ _ _
      rw [perm_lookup hperm]
    have heq := h _ _ [1] 1 hsame
    revert heq
    decide +kernel
  · decide +kernel

end RhypeDb.Fulltext
