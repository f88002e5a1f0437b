import RhypeDb.Basic.KeyedFold
import RhypeDb.Fulltext.Index

/-! What each staging function makes of the rows of its object: from the rows of the old document
those of the new one, and no other rows. -/

namespace RhypeDb.Fulltext

open ByteOrder Engine KeyedFold List Storage

def RowKey.id : RowKey → Id
  | .posting _ _ id => id
  | .doc _ id => id

section

variable {index : Index} {writes : RowWrites}

theorem Index.lookup_apply (index : Index) (writes : RowWrites) (k : RowKey) :
    (index.apply writes).lookup k = (lastWrite writes k).getD (index.lookup k) := by
  induction writes using List.reverseRecOn with
  | nil => rfl
  | append_singleton writes w ih =>
    rw [lastWrite_concat, Index.apply, foldl_append, foldl_cons, foldl_nil]
    obtain ⟨key, row⟩ := w
    cases row with
    | none =>
      by_cases hk : key = k
      · subst hk
        rw [if_pos rfl, AList.lookup_erase]
        rfl
      · rw [if_neg hk, AList.lookup_erase_ne (Ne.symm hk)]
        exact ih
    | some row =>
      rw [lookup_insert']
      by_cases hk : key = k
      · rw [if_pos hk.symm, if_pos hk]
        rfl
      · rw [if_neg (Ne.symm hk), if_neg hk]
        exact ih

theorem Index.apply_append (index : Index) (writes writes' : RowWrites) :
    index.apply (writes ++ writes') = (index.apply writes).apply writes' :=
  foldl_append

def Touches (ff : FulltextField) (id : Id) (writes : RowWrites) : Prop :=
  ∀ w ∈ writes, w.1 = .doc ff.generation id ∨ ∃ t, w.1 = .posting ff.generation t id

variable {ff : FulltextField}

theorem Touches.append {id : Id} {writes' : RowWrites} (h : Touches ff id writes)
    (h' : Touches ff id writes') : Touches ff id (writes ++ writes') :=
  forall_mem_append.mpr ⟨h, h'⟩

theorem Touches.nil (ff : FulltextField) (id : Id) : Touches ff id [] := forall_mem_nil _

theorem Touches.id {id : Id} (h : Touches ff id writes) : ∀ w ∈ writes, w.1.id = id := by
  intro w hw
  rcases h w hw with hdoc | ⟨t, hposting⟩
  · rw [hdoc]
    rfl
  · rw [hposting]
    rfl

theorem Touches.lookup {id : Id} (h : Touches ff id writes) {k : RowKey}
    (hk : k ≠ .doc ff.generation id) (hk' : ∀ t, k ≠ .posting ff.generation t id) :
    (index.apply writes).lookup k = index.lookup k := by
  rw [Index.lookup_apply, lastWrite_eq_none.mpr]
  · rfl
  · intro w hw heq
    rcases h w hw with hdoc | ⟨t, hposting⟩
    · exact hk (heq.symm.trans hdoc)
    · exact hk' t (heq.symm.trans hposting)

end

section

variable (ff : FulltextField) (index : Index) (id : Id)

def IndexedDoc.posting (doc : IndexedDoc) (t : String) : Option Row :=
  (doc.terms.find? fun e => decide (e.1 = t)).map fun e =>
    encodePosting doc.docLen e.2 ff.positions

structure RowsAre (doc : Option IndexedDoc) : Prop where
  length : index.lookup (.doc ff.generation id) = doc.map fun d => .docLen d.docLen
  posting : ∀ t, index.lookup (.posting ff.generation t id) = doc.bind fun d => d.posting ff t

variable {ff index id}

variable {doc : IndexedDoc} {e : String × List UInt32}

theorem IndexedDoc.eq_of_mem {e' : String × List UInt32} (he : e ∈ doc.terms)
    (he' : e' ∈ doc.terms) (h : e.1 = e'.1) : e = e' :=
  inj_on_of_nodup_map doc.distinct he he' h

theorem IndexedDoc.find?_terms (he : e ∈ doc.terms) :
    doc.terms.find? (fun e' => decide (e'.1 = e.1)) = some e := by
  cases hfind : doc.terms.find? fun e' => decide (e'.1 = e.1) with
  | none => simpa using find?_eq_none.mp hfind e he
  | some e' =>
    have hterm : e'.1 = e.1 := by simpa using find?_some hfind
    rw [doc.eq_of_mem (mem_of_find?_eq_some hfind) he hterm]

theorem IndexedDoc.posting_of_mem (he : e ∈ doc.terms) :
    doc.posting ff e.1 = some (encodePosting doc.docLen e.2 ff.positions) := by
  unfold IndexedDoc.posting
  rw [doc.find?_terms he]
  rfl

theorem IndexedDoc.posting_of_not_mem {t : String} (ht : t ∉ doc.terms.map Prod.fst) :
    doc.posting ff t = none := by
  unfold IndexedDoc.posting
  have hnone : doc.terms.find? (fun e => decide (e.1 = t)) = none := by
    rw [find?_eq_none]
    intro e he heq
    have heq : e.1 = t := by simpa using heq
    exact ht (heq ▸ mem_map_of_mem he)
  rw [hnone]
  rfl

theorem RowsAre.congr {index' : Index} {doc : Option IndexedDoc} (h : RowsAre ff index id doc)
    (hdoc : index'.lookup (.doc ff.generation id) = index.lookup (.doc ff.generation id))
    (hposting : ∀ t, index'.lookup (.posting ff.generation t id) =
      index.lookup (.posting ff.generation t id)) : RowsAre ff index' id doc where
  length := hdoc.trans h.length
  posting t := (hposting t).trans (h.posting t)

theorem RowsAre.frame {doc : Option IndexedDoc} (h : RowsAre ff index id doc) {id' : Id}
    {writes : RowWrites} (hwrites : Touches ff id' writes) (hid : id ≠ id') :
    RowsAre ff (index.apply writes) id doc := by
  refine h.congr (hwrites.lookup ?_ ?_) fun t => hwrites.lookup ?_ ?_
  · exact fun heq => hid (RowKey.doc.inj heq).2
  · exact fun _ => nofun
  · exact nofun
  · exact fun t' heq => hid (RowKey.posting.inj heq).2.2

theorem RowsAre.doc_isSome {doc : Option IndexedDoc} (h : RowsAre ff index id doc) :
    (index.lookup (.doc ff.generation id)).isSome = doc.isSome := by
  rw [h.length, Option.isSome_map]

end

variable {analyze : String → Bytes → List Token} {ff : FulltextField} {index : Index} {id : Id}
  {doc : IndexedDoc}

theorem touches_stageDocPuts (doc : IndexedDoc) : Touches ff id (stageDocPuts ff id doc) := by
  intro w hw
  rcases mem_append.mp hw with hw | hw
  · obtain ⟨e, -, rfl⟩ := mem_map.mp hw
    exact .inr ⟨e.1, rfl⟩
  · rw [mem_singleton.mp hw]
    exact .inl rfl

theorem lastWrite_stageDocPuts_doc (doc : IndexedDoc) :
    lastWrite (stageDocPuts ff id doc) (.doc ff.generation id) =
      some (some (.docLen doc.docLen)) := by
  apply lastWrite_of_agree (mem_append_right _ (mem_singleton_self _))
  intro w hw heq
  rcases mem_append.mp hw with hw | hw
  · obtain ⟨e, -, rfl⟩ := mem_map.mp hw
    cases heq
  · rw [mem_singleton.mp hw]

theorem lastWrite_stageDocPuts_posting (doc : IndexedDoc) (t : String) :
    lastWrite (stageDocPuts ff id doc) (.posting ff.generation t id) =
      (doc.posting ff t).map some := by
  by_cases ht : t ∈ doc.terms.map Prod.fst
  · obtain ⟨e, he, rfl⟩ := mem_map.mp ht
    rw [doc.posting_of_mem he]
    refine lastWrite_of_agree (mem_append_left _ (mem_map.mpr ⟨e, he, rfl⟩)) ?_
    intro w hw heq
    rcases mem_append.mp hw with hw | hw
    · obtain ⟨e', he', rfl⟩ := mem_map.mp hw
      rw [doc.eq_of_mem he' he (RowKey.posting.inj heq).2.1]
    · rw [mem_singleton.mp hw] at heq
      cases heq
  · rw [doc.posting_of_not_mem ht, Option.map_none, lastWrite_eq_none]
    intro w hw heq
    rcases mem_append.mp hw with hw | hw
    · obtain ⟨e, he, rfl⟩ := mem_map.mp hw
      exact ht ((RowKey.posting.inj heq).2.1 ▸ mem_map_of_mem he)
    · rw [mem_singleton.mp hw] at heq
      cases heq

theorem rowsAre_stageDocPuts (h : RowsAre ff index id none) (doc : IndexedDoc) :
    RowsAre ff (index.apply (stageDocPuts ff id doc)) id (some doc) where
  length := by
    rw [Index.lookup_apply, lastWrite_stageDocPuts_doc]
    rfl
  posting t := by
    rw [Index.lookup_apply, lastWrite_stageDocPuts_posting, h.posting, Option.bind_some]
    cases doc.posting ff t with
    | none => rfl
    | some row => rfl

theorem touches_stageCreate (text : Option Bytes) :
    Touches ff id (stageCreate analyze ff id text).1 := by
  cases text with
  | none => exact .nil ff id
  | some text => exact touches_stageDocPuts _

theorem rowsAre_stageCreate (h : RowsAre ff index id none) (text : Option Bytes) :
    RowsAre ff (index.apply (stageCreate analyze ff id text).1) id
      (text.map (tokenizeForIndex analyze ff)) := by
  cases text with
  | none => exact h
  | some text => exact rowsAre_stageDocPuts h _

theorem touches_updateRows (oldHadString : Bool) (oldDoc newDoc : Option IndexedDoc) :
    Touches ff id (updateRows ff id oldHadString oldDoc newDoc) := by
  refine Touches.append (Touches.append ?_ ?_) ?_
  · intro w hw
    obtain ⟨e, -, rfl⟩ := mem_map.mp hw
    exact .inr ⟨e.1, rfl⟩
  · cases newDoc with
    | none => exact .nil ff id
    | some doc =>
      intro w hw
      obtain ⟨e, -, rfl⟩ := mem_map.mp hw
      exact .inr ⟨e.1, rfl⟩
  · unfold docRowUpdate
    intro w hw
    left
    split at hw
    · split_ifs at hw
      · cases hw
      · rw [mem_singleton.mp hw]
    · split_ifs at hw
      · rw [mem_singleton.mp hw]
      · cases hw

theorem lastWrite_goneTerms (old new : List (String × List UInt32)) (t : String) :
    lastWrite (goneTerms ff id old new) (.posting ff.generation t id) =
      if t ∈ old.map Prod.fst ∧ t ∉ new.map Prod.fst then some none else none := by
  split_ifs with ht
  · obtain ⟨⟨e, he, rfl⟩, hnew⟩ := And.imp_left mem_map.mp ht
    refine lastWrite_of_agree (mem_map.mpr ⟨e, mem_filter.mpr ⟨he, by simpa using hnew⟩,
      rfl⟩) ?_
    intro w hw _
    obtain ⟨e', -, rfl⟩ := mem_map.mp hw
    rfl
  · rw [lastWrite_eq_none]
    intro w hw heq
    obtain ⟨e, he, rfl⟩ := mem_map.mp hw
    obtain ⟨he, hnew⟩ := mem_filter.mp he
    have hterm : e.1 = t := (RowKey.posting.inj heq).2.1
    subst hterm
    exact ht ⟨mem_map_of_mem he, by simpa using hnew⟩

theorem lastWrite_changedTerms (old : List (String × List UInt32)) (oldLen : Option UInt32)
    {e : String × List UInt32} (he : e ∈ doc.terms) :
    lastWrite (changedTerms ff id old oldLen doc) (.posting ff.generation e.1 id) =
      if e ∈ old ∧ oldLen = some doc.docLen then none
      else some (some (encodePosting doc.docLen e.2 ff.positions)) := by
  have hsame : ∀ e' ∈ doc.terms, e'.1 = e.1 → e' = e := fun e' he' h => doc.eq_of_mem he' he h
  split_ifs with hunchanged
  · rw [lastWrite_eq_none]
    intro w hw heq
    obtain ⟨e', he', rfl⟩ := mem_map.mp hw
    obtain ⟨he', hchanged⟩ := mem_filter.mp he'
    rw [hsame e' he' (RowKey.posting.inj heq).2.1] at hchanged
    simp [hunchanged] at hchanged
  · refine lastWrite_of_agree (mem_map.mpr ⟨e, mem_filter.mpr ⟨he, ?_⟩, rfl⟩) ?_
    · rw [decide_eq_false hunchanged]
      rfl
    · intro w hw heq
      obtain ⟨e', he', rfl⟩ := mem_map.mp hw
      rw [hsame e' (mem_filter.mp he').1 (RowKey.posting.inj heq).2.1]

theorem lastWrite_changedTerms_of_not_mem (old : List (String × List UInt32))
    (oldLen : Option UInt32) {t : String} (ht : t ∉ doc.terms.map Prod.fst) :
    lastWrite (changedTerms ff id old oldLen doc) (.posting ff.generation t id) = none := by
  rw [lastWrite_eq_none]
  intro w hw heq
  obtain ⟨e, he, rfl⟩ := mem_map.mp hw
  exact ht ((RowKey.posting.inj heq).2.1 ▸ mem_map_of_mem (mem_filter.mp he).1)

theorem lastWrite_docRowUpdate_posting (oldHadString : Bool) (oldLen newLen : Option UInt32)
    (t : String) : lastWrite (docRowUpdate ff id oldHadString oldLen newLen)
      (.posting ff.generation t id) = none := by
  rw [lastWrite_eq_none]
  unfold docRowUpdate
  intro w hw heq
  split at hw
  · split_ifs at hw
    · cases hw
    · rw [mem_singleton.mp hw] at heq
      cases heq
  · split_ifs at hw
    · rw [mem_singleton.mp hw] at heq
      cases heq
    · cases hw

theorem lookup_updateRows (index : Index) (oldHadString : Bool) (oldDoc newDoc : Option IndexedDoc)
    (t : String) :
    (index.apply (updateRows ff id oldHadString oldDoc newDoc)).lookup
        (.posting ff.generation t id) = (newDoc.bind fun d => d.posting ff t) ∨
      (index.apply (updateRows ff id oldHadString oldDoc newDoc)).lookup
          (.posting ff.generation t id) = index.lookup (.posting ff.generation t id) ∧
        (oldDoc.bind fun d => d.posting ff t) = newDoc.bind fun d => d.posting ff t := by
  have hold : t ∉ ((oldDoc.map IndexedDoc.terms).getD []).map Prod.fst →
      (oldDoc.bind fun d => d.posting ff t) = none := by
    intro ht
    cases oldDoc with
    | none => rfl
    | some old => exact old.posting_of_not_mem ht
  unfold updateRows
  rw [Index.lookup_apply, lastWrite_append, lastWrite_append, lastWrite_docRowUpdate_posting,
    Option.none_or, lastWrite_goneTerms]
  cases newDoc with
  | none =>
    -- every old posting goes
    by_cases ht : t ∈ ((oldDoc.map IndexedDoc.terms).getD []).map Prod.fst
    · rw [if_pos ⟨ht, not_mem_nil⟩]
      exact .inl rfl
    · rw [if_neg fun h => ht h.1]
      exact .inr ⟨rfl, hold ht⟩
  | some doc =>
    rw [Option.map_some, Option.getD_some, Option.map_some, Option.getD_some, Option.bind_some]
    by_cases ht : t ∈ doc.terms.map Prod.fst
    · obtain ⟨e, he, rfl⟩ := mem_map.mp ht
      rw [if_neg fun h => h.2 ht, Option.or_none, lastWrite_changedTerms _ _ he,
        doc.posting_of_mem he]
      split_ifs with hunchanged
      · -- the old posting is the new one
        obtain ⟨hmem, hlen⟩ := hunchanged
        cases oldDoc with
        | none => cases hlen
        | some old =>
          have hlen : old.docLen = doc.docLen := Option.some.inj hlen
          refine .inr ⟨rfl, ?_⟩
          rw [Option.bind_some, old.posting_of_mem hmem, hlen]
      · exact .inl rfl
    · rw [lastWrite_changedTerms_of_not_mem _ _ ht, Option.none_or, doc.posting_of_not_mem ht]
      by_cases hgone : t ∈ ((oldDoc.map IndexedDoc.terms).getD []).map Prod.fst
      · rw [if_pos ⟨hgone, ht⟩]
        exact .inl rfl
      · rw [if_neg fun h => hgone h.1]
        exact .inr ⟨rfl, hold hgone⟩

theorem lastWrite_updateRows_doc (oldHadString : Bool) (oldDoc newDoc : Option IndexedDoc) :
    lastWrite (updateRows ff id oldHadString oldDoc newDoc) (.doc ff.generation id) =
      lastWrite (docRowUpdate ff id oldHadString (oldDoc.map IndexedDoc.docLen)
        (newDoc.map IndexedDoc.docLen)) (.doc ff.generation id) := by
  have hposting : ∀ writes : RowWrites,
      (∀ w ∈ writes, ∃ t, w.1 = .posting ff.generation t id) →
      lastWrite writes (.doc ff.generation id) = none := by
    intro writes hwrites
    rw [lastWrite_eq_none]
    intro w hw heq
    obtain ⟨t, ht⟩ := hwrites w hw
    cases heq.symm.trans ht
  have hgone := hposting (goneTerms ff id ((oldDoc.map IndexedDoc.terms).getD [])
    ((newDoc.map IndexedDoc.terms).getD [])) <| by
      intro w hw
      obtain ⟨e, -, rfl⟩ := mem_map.mp hw
      exact ⟨e.1, rfl⟩
  have hchanged := hposting ((newDoc.map (changedTerms ff id
    ((oldDoc.map IndexedDoc.terms).getD []) (oldDoc.map IndexedDoc.docLen))).getD []) <| by
      intro w hw
      cases newDoc with
      | none => cases hw
      | some doc =>
        obtain ⟨e, -, rfl⟩ := mem_map.mp hw
        exact ⟨e.1, rfl⟩
  unfold updateRows
  rw [lastWrite_append, lastWrite_append, hgone, hchanged, Option.or_none, Option.or_none]

theorem lastWrite_docRowUpdate_some (oldHadString : Bool) (oldLen : Option UInt32) (len : UInt32) :
    lastWrite (docRowUpdate ff id oldHadString oldLen (some len)) (.doc ff.generation id) =
      if oldLen = some len then none else some (some (.docLen len)) := by
  unfold docRowUpdate
  dsimp only
  split_ifs with hlen
  · rfl
  · exact lastWrite_of_agree (mem_singleton_self _) fun w hw _ => by
      rw [mem_singleton.mp hw]

theorem rowsAre_updateRows {oldDoc newDoc : Option IndexedDoc} (h : RowsAre ff index id oldDoc)
    {oldHadString : Bool} (hhad : oldHadString = false → oldDoc = none) :
    RowsAre ff (index.apply (updateRows ff id oldHadString oldDoc newDoc)) id newDoc where
  posting t := by
    rcases lookup_updateRows index oldHadString oldDoc newDoc t with hnew | ⟨hkept, hsame⟩
    · exact hnew
    · rw [hkept, h.posting, hsame]
  length := by
    rw [Index.lookup_apply, lastWrite_updateRows_doc]
    cases newDoc with
    | none =>
      unfold docRowUpdate
      dsimp only [Option.map_none]
      split_ifs with hstring
      · rw [lastWrite_of_agree (mem_singleton_self _) fun w hw _ => by
          rw [mem_singleton.mp hw]]
        rfl
      · rw [hhad (by simpa using hstring)] at h
        exact h.length
    | some doc =>
      rw [Option.map_some, lastWrite_docRowUpdate_some]
      split_ifs with hlen
      · rw [Option.getD_none, h.length]
        cases oldDoc with
        | none => cases hlen
        | some old =>
          rw [Option.map_some, Option.some.inj hlen]
          rfl
      · rfl

theorem rowsAre_stageFulltextUpdate {oldText : Option Bytes}
    (h : RowsAre ff index id ((indexedText ff index id oldText).map (tokenizeForIndex analyze ff)))
    (newText : Option Bytes) :
    RowsAre ff (index.apply (stageFulltextUpdate analyze ff index id oldText newText).1) id
      (newText.map (tokenizeForIndex analyze ff)) := by
  refine rowsAre_updateRows h fun hnone => ?_
  rw [Option.isSome_eq_false_iff, Option.isNone_iff_eq_none] at hnone
  rw [hnone]
  unfold indexedText
  split_ifs <;> rfl

theorem stageDelete_eq_updateRows (text : Bytes) :
    (stageDelete analyze ff index id (some text)).1 = updateRows ff id true
      ((indexedText ff index id (some text)).map (tokenizeForIndex analyze ff)) none := by
  unfold stageDelete indexedText
  dsimp only
  by_cases hindexed : (index.lookup (.doc ff.generation id)).isSome = true
  · rw [if_pos hindexed, if_pos hindexed]
    simp [updateRows, goneTerms, docRowUpdate]
  · rw [if_neg hindexed, if_neg hindexed]
    simp [updateRows, goneTerms, docRowUpdate]

theorem touches_stageDelete (text : Option Bytes) :
    Touches ff id (stageDelete analyze ff index id text).1 := by
  cases text with
  | none => exact .nil ff id
  | some text =>
    rw [stageDelete_eq_updateRows]
    exact touches_updateRows _ _ _

theorem rowsAre_stageDelete {text : Option Bytes}
    (h : RowsAre ff index id ((indexedText ff index id text).map (tokenizeForIndex analyze ff))) :
    RowsAre ff (index.apply (stageDelete analyze ff index id text).1) id none := by
  cases text with
  | none =>
    unfold indexedText at h
    split_ifs at h
    · exact h
    · exact h
  | some text =>
    rw [stageDelete_eq_updateRows]
    exact rowsAre_updateRows h nofun

end RhypeDb.Fulltext
