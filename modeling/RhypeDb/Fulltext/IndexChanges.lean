import RhypeDb.Fulltext.IndexRows

/-! A list of changes, each of an object of its own: the rows of every changed object become those
of its new text, the others stay, and the staged deltas are what the `l:` rows move by. The rows
may be staged at an older index, if it has the same `l:` rows for the changed objects. -/

namespace RhypeDb.Fulltext

open ByteOrder Engine KeyedFold List Storage

@[ext] theorem StatsDelta.ext {a b : StatsDelta} (hdocs : a.docs = b.docs)
    (htokens : a.tokens = b.tokens) : a = b := by
  cases a
  cases b
  cases hdocs
  cases htokens
  rfl

theorem StatsDelta.add_zero (a : StatsDelta) : a.add .zero = a :=
  StatsDelta.ext (Int.add_zero _) (Int.add_zero _)

theorem StatsDelta.add_assoc (a b c : StatsDelta) : (a.add b).add c = a.add (b.add c) :=
  StatsDelta.ext (Int.add_assoc _ _ _) (Int.add_assoc _ _ _)

def IndexedDoc.delta (old new : Option IndexedDoc) : StatsDelta where
  docs := (IndexedDoc.weight new).docs - (IndexedDoc.weight old).docs
  tokens := (IndexedDoc.weight new).tokens - (IndexedDoc.weight old).tokens

section

variable (ff : FulltextField) (index : Index)

def docRow (e : Sigma fun _ : RowKey => Row) : Option (Id × UInt32) :=
  match e.1, e.2 with
  | .doc generation id, .docLen n => if generation = ff.generation then some (id, n) else none
  | _, _ => none

/-- The lengths in the `l:` rows of the field's generation, by object. -/
def docRows : List (Id × UInt32) := index.entries.filterMap (docRow ff)

def countRows (rows : List (Id × UInt32)) : StatsDelta where
  docs := rows.length
  tokens := ((rows.map fun e => e.2.toNat).sum : Nat)

/-- How many `l:` rows there are, and the sum of their lengths. -/
def totals : StatsDelta := countRows (docRows ff index)

variable {ff index} {id : Id} {doc : Option IndexedDoc} {r : Id × UInt32}

theorem docRow_eq_some {e : Sigma fun _ : RowKey => Row} :
    docRow ff e = some r ↔ e = ⟨.doc ff.generation r.1, .docLen r.2⟩ := by
  constructor
  · intro h
    unfold docRow at h
    split at h
    next generation id n hkey hrow =>
      split_ifs at h with hgeneration
      cases h
      subst hgeneration
      obtain ⟨key, row⟩ := e
      cases hkey
      cases hrow
      rfl
    · cases h
  · rintro rfl
    exact if_pos rfl

theorem mem_docRows :
    r ∈ docRows ff index ↔ index.lookup (.doc ff.generation r.1) = some (.docLen r.2) := by
  unfold docRows
  rw [← Option.mem_def, AList.mem_lookup_iff, mem_filterMap]
  simp only [docRow_eq_some, exists_eq_right]

theorem nodup_docRows : ((docRows ff index).map Prod.fst).Nodup := by
  unfold docRows
  rw [List.Nodup, pairwise_map, pairwise_filterMap]
  refine (nodupKeys_iff_pairwise.mp index.nodupKeys).imp ?_
  intro e e' hne r hr r' hr' heq
  rw [docRow_eq_some] at hr hr'
  exact hne (by rw [hr, hr', heq])

theorem rowsOf_docRows
    (h : index.lookup (.doc ff.generation id) = doc.map fun d => .docLen d.docLen) :
    rowsOf id (docRows ff index) = (doc.map IndexedDoc.docLen).toList := by
  have hnodup : (rowsOf id (docRows ff index)).Nodup := by
    apply List.Nodup.map_on
    · intro r hr r' hr' heq
      have hid : ∀ r ∈ (docRows ff index).filter fun e => decide (e.1 = id), r.1 = id := by
        intro r hr
        simpa using (mem_filter.mp hr).2
      exact Prod.ext ((hid r hr).trans (hid r' hr').symm) heq
    · exact (List.Nodup.of_map _ nodup_docRows).filter _
  have hmem : ∀ n, n ∈ rowsOf id (docRows ff index) ↔ n ∈ (doc.map IndexedDoc.docLen).toList := by
    intro n
    rw [mem_rowsOf, mem_docRows, h, Option.mem_toList]
    cases doc with
    | none => simp
    | some doc => simp
  have hperm : (rowsOf id (docRows ff index)).Perm (doc.map IndexedDoc.docLen).toList :=
    (perm_ext_iff_of_nodup hnodup (by cases doc <;> simp)).mpr hmem
  cases doc with
  | none => exact perm_nil.mp hperm
  | some doc => exact perm_singleton.mp hperm

theorem countRows_perm {rows rows' : List (Id × UInt32)} (h : rows.Perm rows') :
    countRows rows = countRows rows' := by
  unfold countRows
  rw [h.length_eq, (h.map _).sum_eq]

theorem countRows_append (rows rows' : List (Id × UInt32)) :
    countRows (rows ++ rows') = (countRows rows).add (countRows rows') := by
  unfold countRows StatsDelta.add
  rw [length_append, map_append, sum_append]
  exact StatsDelta.ext (Int.natCast_add _ _) (Int.natCast_add _ _)

theorem countRows_of_object
    (h : index.lookup (.doc ff.generation id) = doc.map fun d => .docLen d.docLen) :
    countRows ((docRows ff index).filter fun e => decide (e.1 = id)) = IndexedDoc.weight doc := by
  have hrows := rowsOf_docRows h
  unfold rowsOf at hrows
  have hlength := congrArg List.length hrows
  have hsum := congrArg (fun l => (l.map UInt32.toNat).sum) hrows
  rw [length_map] at hlength
  rw [map_map] at hsum
  unfold countRows
  rw [hlength]
  change StatsDelta.mk _ ((List.map (UInt32.toNat ∘ Prod.snd) _).sum : Nat) = _
  rw [hsum]
  cases doc with
  | none => rfl
  | some doc => rfl

theorem totals_of_object {index' : Index} {doc' : Option IndexedDoc}
    (h : RowsAre ff index id doc) (h' : RowsAre ff index' id doc')
    (hother : ∀ id' ≠ id, index'.lookup (.doc ff.generation id') =
      index.lookup (.doc ff.generation id')) :
    totals ff index' = (totals ff index).add (IndexedDoc.delta doc doc') := by
  have hsplit : ∀ index : Index, totals ff index =
      (countRows ((docRows ff index).filter fun e => decide (e.1 = id))).add
        (countRows ((docRows ff index).filter fun e => !decide (e.1 = id))) := by
    intro index
    rw [← countRows_append]
    exact (countRows_perm (filter_append_perm _ _)).symm
  have hrest : ((docRows ff index').filter fun e => !decide (e.1 = id)).Perm
      ((docRows ff index).filter fun e => !decide (e.1 = id)) := by
    apply (perm_ext_iff_of_nodup ((List.Nodup.of_map _ nodup_docRows).filter _)
      ((List.Nodup.of_map _ nodup_docRows).filter _)).mpr
    intro r
    rw [mem_filter, mem_filter, mem_docRows, mem_docRows]
    refine and_congr_left fun hne => ?_
    rw [hother r.1 (by simpa using hne)]
  rw [hsplit index, hsplit index', countRows_of_object h.length, countRows_of_object h'.length,
    countRows_perm hrest]
  apply StatsDelta.ext
  · show _ + _ = _ + _ + (_ - _)
    omega
  · show _ + _ = _ + _ + (_ - _)
    omega

end

variable {analyze : String → Bytes → List Token} {ff : FulltextField} {index : Index} {id : Id}
  {index' : Index}

theorem indexedText_none : indexedText ff index id none = none := by
  unfold indexedText
  split_ifs <;> rfl

theorem touches_stageChange (c : Change) : Touches ff id (stageChange analyze ff index id c).1 := by
  cases c with
  | created new => exact touches_stageCreate _
  | updated old new => exact touches_updateRows _ _ _
  | deleted old => exact touches_stageDelete _

theorem rowsAre_stageChange {c : Change}
    (h : RowsAre ff index id ((indexedText ff index id c.old).map (tokenizeForIndex analyze ff))) :
    RowsAre ff (index.apply (stageChange analyze ff index id c).1) id
      (c.new.map (tokenizeForIndex analyze ff)) := by
  cases c with
  | created new =>
    rw [Change.old, indexedText_none] at h
    exact rowsAre_stageCreate h new
  | updated old new => exact rowsAre_stageFulltextUpdate h new
  | deleted old => exact rowsAre_stageDelete h

theorem stageChange_delta (c : Change) : (stageChange analyze ff index id c).2 =
    IndexedDoc.delta ((indexedText ff index id c.old).map (tokenizeForIndex analyze ff))
      (c.new.map (tokenizeForIndex analyze ff)) := by
  cases c with
  | created new =>
    rw [Change.old, indexedText_none]
    cases new with
    | none => rfl
    | some text => exact StatsDelta.ext rfl (Int.sub_zero _).symm
  | updated old new => rfl
  | deleted old =>
    unfold stageChange stageDelete
    cases old with
    | none =>
      rw [Change.old, indexedText_none]
      rfl
    | some text =>
      unfold Change.old indexedText
      split_ifs with hindexed
      · exact StatsDelta.ext rfl (Int.zero_sub _).symm
      · rfl

theorem doc_mem_stageChange {c : Change} (hold : c.old.isSome)
    (hdoc : index.lookup (.doc ff.generation id) = none) :
    RowKey.doc ff.generation id ∈ (stageChange analyze ff index id c).1.map Prod.fst := by
  have hunindexed : ∀ text, indexedText ff index id text = none := by
    intro text
    unfold indexedText
    rw [hdoc]
    rfl
  cases c with
  | created new => cases hold
  | updated old new =>
    have hmem : RowKey.doc ff.generation id ∈ (docRowUpdate ff id old.isSome none
        ((new.map (tokenizeForIndex analyze ff)).map IndexedDoc.docLen)).map Prod.fst := by
      have hold : old.isSome = true := hold
      rw [hold]
      cases new with
      | none => exact mem_singleton_self _
      | some text => exact mem_singleton_self _
    unfold stageChange
    dsimp only
    unfold stageFulltextUpdate
    rw [hunindexed]
    unfold updateRows
    rw [map_append]
    exact mem_append_right _ hmem
  | deleted old =>
    obtain ⟨text, rfl⟩ := Option.isSome_iff_exists.mp hold
    unfold stageChange stageDelete
    rw [hdoc]
    exact mem_singleton_self _

theorem indexedText_congr (text : Option Bytes)
    (h : index'.lookup (.doc ff.generation id) = index.lookup (.doc ff.generation id)) :
    indexedText ff index' id text = indexedText ff index id text := by
  unfold indexedText
  rw [h]

theorem stageChange_congr (c : Change)
    (h : index'.lookup (.doc ff.generation id) = index.lookup (.doc ff.generation id)) :
    stageChange analyze ff index' id c = stageChange analyze ff index id c := by
  cases c with
  | created new => rfl
  | updated old new =>
    unfold stageChange
    dsimp only
    unfold stageFulltextUpdate
    rw [indexedText_congr _ h]
  | deleted old =>
    unfold stageChange
    unfold stageDelete
    rw [h]

theorem stageChanges_cons (c : Id × Change) (changes : List (Id × Change)) :
    stageChanges analyze ff index (c :: changes) =
      ((stageChange analyze ff index c.1 c.2).1 ++ (stageChanges analyze ff index changes).1,
        (stageChange analyze ff index c.1 c.2).2.add (stageChanges analyze ff index changes).2) :=
  rfl

variable {changes : List (Id × Change)} {snapshot : Index}

theorem lookup_stageChanges {k : RowKey}
    (h : ∀ c ∈ changes, k ≠ .doc ff.generation c.1 ∧ ∀ t, k ≠ .posting ff.generation t c.1) :
    (index.apply (stageChanges analyze ff snapshot changes).1).lookup k = index.lookup k := by
  rw [Index.lookup_apply, lastWrite_eq_none.mpr]
  · rfl
  · intro w hw heq
    obtain ⟨c, hc, hw⟩ := mem_flatMap.mp hw
    obtain ⟨hdoc, hposting⟩ := h c hc
    rcases touches_stageChange c.2 w hw with hkey | ⟨t, hkey⟩
    · exact hdoc (heq.symm.trans hkey)
    · exact hposting t (heq.symm.trans hkey)

theorem lookup_stageChanges_doc (h : id ∉ changes.map Prod.fst) :
    (index.apply (stageChanges analyze ff snapshot changes).1).lookup (.doc ff.generation id) =
      index.lookup (.doc ff.generation id) := by
  apply lookup_stageChanges
  exact fun c hc => ⟨fun heq => h ((RowKey.doc.inj heq).2 ▸ mem_map_of_mem hc), fun _ => nofun⟩

theorem RowsAre.frame_stageChanges {doc : Option IndexedDoc} (h : RowsAre ff index id doc)
    (hid : id ∉ changes.map Prod.fst) :
    RowsAre ff (index.apply (stageChanges analyze ff snapshot changes).1) id doc := by
  refine h.congr (lookup_stageChanges_doc hid) fun t => lookup_stageChanges fun c hc => ⟨nofun, ?_⟩
  exact fun t' heq => hid ((RowKey.posting.inj heq).2.2 ▸ mem_map_of_mem hc)

theorem lookup_stageChanges_of_mem (hnodup : (changes.map Prod.fst).Nodup) {c : Id × Change}
    (hc : c ∈ changes) {k : RowKey} (hk : k.id = c.1) :
    (index.apply (stageChanges analyze ff snapshot changes).1).lookup k =
      (index.apply (stageChange analyze ff snapshot c.1 c.2).1).lookup k := by
  have honly : ∀ c' ∈ changes, c' ≠ c →
      lastWrite (stageChange analyze ff snapshot c'.1 c'.2).1 k = none := by
    intro c' hc' hne
    rw [lastWrite_eq_none]
    rintro w hw rfl
    have hid : c'.1 = c.1 := (Touches.id (touches_stageChange c'.2) w hw).symm.trans hk
    exact hne (inj_on_of_nodup_map hnodup hc' hc hid)
  rw [Index.lookup_apply, Index.lookup_apply]
  unfold stageChanges
  rw [lastWrite_flatMap_of_only hc honly]

theorem rowsAre_stageChanges (hnodup : (changes.map Prod.fst).Nodup)
    (hagree : ∀ c ∈ changes, snapshot.lookup (.doc ff.generation c.1) = index.lookup (.doc
      ff.generation c.1))
    (h : ∀ c ∈ changes, RowsAre ff index c.1 ((indexedText ff index c.1 c.2.old).map
      (tokenizeForIndex analyze ff))) :
    ∀ c ∈ changes, RowsAre ff (index.apply (stageChanges analyze ff snapshot changes).1) c.1
      (c.2.new.map (tokenizeForIndex analyze ff)) := by
  intro c hc
  have hrows := rowsAre_stageChange (h c hc)
  rw [← stageChange_congr c.2 (hagree c hc)] at hrows
  exact hrows.congr (lookup_stageChanges_of_mem hnodup hc rfl)
    fun t => lookup_stageChanges_of_mem hnodup hc rfl

theorem totals_stageChanges (hnodup : (changes.map Prod.fst).Nodup)
    (hagree : ∀ c ∈ changes, snapshot.lookup (.doc ff.generation c.1) = index.lookup (.doc
      ff.generation c.1))
    (h : ∀ c ∈ changes, RowsAre ff index c.1 ((indexedText ff index c.1 c.2.old).map
      (tokenizeForIndex analyze ff))) :
    totals ff (index.apply (stageChanges analyze ff snapshot changes).1) =
      (totals ff index).add (stageChanges analyze ff snapshot changes).2 := by
  induction changes generalizing index with
  | nil => exact (StatsDelta.add_zero _).symm
  | cons c changes ih =>
    obtain ⟨hfresh, hnodup⟩ := nodup_cons.mp hnodup
    rw [forall_mem_cons] at hagree h
    have hstaged := @stageChange_congr analyze ff index c.1 snapshot c.2 hagree.1
    rw [stageChanges_cons, hstaged]
    rw [Index.apply_append]
    -- behind the first change, the other objects have the rows they had
    have hne : ∀ c' ∈ changes, c'.1 ≠ c.1 := fun c' hc' heq =>
      hfresh (heq ▸ mem_map_of_mem hc')
    have hdoc : ∀ id ≠ c.1, (index.apply (stageChange analyze ff index c.1 c.2).1).lookup
        (.doc ff.generation id) = index.lookup (.doc ff.generation id) :=
      fun id hid => (touches_stageChange c.2).lookup (fun heq => hid (RowKey.doc.inj heq).2)
        fun _ => nofun
    have htotal := totals_of_object h.1 (rowsAre_stageChange h.1) hdoc
    rw [← stageChange_delta] at htotal
    have htotals := @ih (index.apply (stageChange analyze ff index c.1 c.2).1) hnodup
      (fun c' hc' => (hagree.2 c' hc').trans (hdoc c'.1 (hne c' hc')).symm)
      (fun c' hc' => by
        rw [indexedText_congr _ (hdoc c'.1 (hne c' hc'))]
        exact (h.2 c' hc').frame (touches_stageChange c.2) (hne c' hc'))
    rw [htotals, htotal, StatsDelta.add_assoc]

end RhypeDb.Fulltext
