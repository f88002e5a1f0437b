import RhypeDb.Basic.SortDedup
import RhypeDb.Fulltext.IndexChanges
import RhypeDb.Fulltext.Texts

/-! The backfill of one field's index, chunk by chunk along the object ids, between calls that
keep the index of what they write. Each step runs alone. -/

namespace RhypeDb.Fulltext

open ByteOrder Engine List SortDedup Storage

section

def objectIds (store : Store) (typeId : Id) : List Id := store.entries.filterMap fun e =>
  match e.1 with
  | .object a id => if a = typeId then some id else none
  | _ => none

/-- What the layers hold besides the live objects: the ids of dead ones, and whether a layer
filled the window of the scan. -/
structure RawScan where
  dead : List Id
  saturated : Bool

def quiet : RawScan := { dead := [], saturated := false }

structure ObjectChunk where
  objects : List (Id × Payload)
  nextCursor : Option Id
  more : Bool

def scanChunk (store : Store) (typeId : Id) (raw : RawScan) (cursor : Id) (maxDistinct : Nat) :
    ObjectChunk :=
  if cursor.toNat = 2 ^ 64 - 1 ∨ maxDistinct = 0 then
    { objects := [], nextCursor := none, more := false }
  else
    let keys := sortDedupBy UInt64.toNat
      ((objectIds store typeId ++ raw.dead).filter fun id => decide (cursor = 0 ∨ cursor < id))
    let visited := keys.take maxDistinct
    { objects := visited.filterMap fun id =>
        (store.lookup (.object typeId id)).map fun data => (id, data)
      nextCursor := visited.getLast?
      more := raw.saturated || decide (maxDistinct < keys.length) }

variable {store : Store} {typeId : Id} {raw : RawScan} {cursor : Id} {maxDistinct : Nat}

theorem mem_objectIds {id : Id} : id ∈ objectIds store typeId ↔ store.Has (.object typeId id) := by
  unfold objectIds
  rw [Store.Has, Option.isSome_iff_exists, mem_filterMap]
  simp only [SortedMap.lookup_eq_some]
  constructor
  · rintro ⟨⟨key, value⟩, he, h⟩
    dsimp only at h
    split at h
    next a id' =>
      split_ifs at h with ha
      cases h
      subst ha
      exact ⟨value, he⟩
    · cases h
  · rintro ⟨value, he⟩
    exact ⟨_, he, if_pos rfl⟩

theorem scanChunk_objects :
    ((scanChunk store typeId raw cursor maxDistinct).objects.map Prod.fst).Nodup ∧
      ∀ o ∈ (scanChunk store typeId raw cursor maxDistinct).objects,
        store.lookup (.object typeId o.1) = some o.2 := by
  unfold scanChunk
  by_cases hend : cursor.toNat = 2 ^ 64 - 1 ∨ maxDistinct = 0
  · rw [if_pos hend]
    exact ⟨nodup_nil, nofun⟩
  rw [if_neg hend]
  constructor
  · rw [List.Nodup, pairwise_map, pairwise_filterMap]
    refine (pairwise_sortDedupBy.sublist (take_sublist _ _)).imp ?_
    intro a b hab x hx y hy heq
    obtain ⟨_, -, rfl⟩ := Option.map_eq_some_iff.mp hx
    obtain ⟨_, -, rfl⟩ := Option.map_eq_some_iff.mp hy
    dsimp only at heq
    rw [heq] at hab
    exact Nat.lt_irrefl _ hab
  · intro o ho
    obtain ⟨id, -, ho⟩ := mem_filterMap.mp ho
    obtain ⟨data, hdata, rfl⟩ := Option.map_eq_some_iff.mp ho
    exact hdata

theorem scanChunk_covers (hsize : 1 ≤ maxDistinct) {id : Id} {data : Payload}
    (hid : store.lookup (.object typeId id) = some data) (hcursor : cursor = 0 ∨ cursor < id) :
    (id, data) ∈ (scanChunk store typeId raw cursor maxDistinct).objects ∨
      (scanChunk store typeId raw cursor maxDistinct).more = true ∧
        ∃ next ∈ (scanChunk store typeId raw cursor maxDistinct).nextCursor, next < id := by
  unfold scanChunk
  have hstart : ¬ (cursor.toNat = 2 ^ 64 - 1 ∨ maxDistinct = 0) := by
    rintro (hmax | hzero)
    · rcases hcursor with rfl | hlt
      · simp at hmax
      · have hbound := id.toNat_lt
        rw [UInt64.lt_iff_toNat_lt] at hlt
        omega
    · omega
  rw [if_neg hstart]
  have hmem : id ∈ sortDedupBy UInt64.toNat
      ((objectIds store typeId ++ raw.dead).filter fun id =>
        decide (cursor = 0 ∨ cursor < id)) := by
    rw [mem_sortDedupBy fun a _ b _ h => UInt64.toNat_inj.mp h, mem_filter,
      mem_append, mem_objectIds, Store.Has, hid]
    exact ⟨.inl rfl, decide_eq_true hcursor⟩
  rcases mem_take_or_last_lt pairwise_sortDedupBy hsize hmem with hvisited | ⟨hlength, hlast⟩
  · left
    refine mem_filterMap.mpr ⟨id, hvisited, ?_⟩
    rw [hid]
    rfl
  · exact .inr ⟨Bool.or_eq_true_iff.mpr (.inr (decide_eq_true hlength)),
      hlast.imp fun _ h => h.imp_right UInt64.lt_iff_toNat_lt.mpr⟩

end

structure Indexer where
  db : Database
  index : Index
  stats : FulltextStats
  cursor : Id
  built : Bool

namespace Indexer

inductive Event
  | call (call : Database.Call)
  | chunk (size : Nat) (raw : RawScan)

def start (db : Database) (index : Index) : Indexer where
  db := db
  index := index
  stats := ⟨0, 0⟩
  cursor := 0
  built := false

variable (analyze : String → Bytes → List Token) (ff : FulltextField) (schema : Schema)

/-- A string without an `l:` row is indexed as a create would have done it. -/
def unindexedChange (index : Index) (o : Id × Payload) : Option (Id × Change) :=
  match storedText ff (some o.2) with
  | some text =>
    if (index.lookup (.doc ff.generation o.1)).isSome then none
    else some (o.1, .created (some text))
  | none => none

def unindexed (index : Index) (objects : List (Id × Payload)) : List (Id × Change) :=
  objects.filterMap (unindexedChange ff index)

/-- One chunk of `run_build`; it has nothing to do when the marker reads Built. -/
def runBuild (s : Indexer) (size : Nat) (raw : RawScan) : Indexer :=
  if s.built then s
  else
    let chunk := scanChunk s.db.store ff.typeId raw s.cursor size
    let staged := stageChanges analyze ff s.index (unindexed ff s.index chunk.objects)
    { s with
      index := s.index.apply staged.1
      stats := s.stats.apply staged.2
      cursor := chunk.nextCursor.getD (UInt64.ofNat (2 ^ 64 - 1))
      built := !chunk.more || chunk.nextCursor.isNone }

def runCall (s : Indexer) (call : Database.Call) : Indexer :=
  match (Database.stage schema s.db.store.view s.db.counters call).1 with
  | .ok writes =>
    let staged := stageIndexRows analyze ff schema s.db.store.view s.index call writes
    { s with
      db := s.db.step schema call
      index := s.index.apply staged.1
      stats := s.stats.apply staged.2 }
  | .error _ => { s with db := s.db.step schema call }

def step (s : Indexer) : Event → Indexer
  | .call call => runCall analyze ff schema s call
  | .chunk size raw => runBuild analyze ff s size raw

def Sound (s : Indexer) : Event → Prop
  | .call call => DrawsFresh schema s.db.store s.db.counters.nextObjectId call
  | .chunk size _ => 1 ≤ size

instance (s : Indexer) : ∀ event, Decidable (Sound schema s event)
  | .call _ => inferInstanceAs (Decidable (DrawsFresh _ _ _ _))
  | .chunk _ _ => inferInstanceAs (Decidable (_ ≤ _))

end Indexer

variable {analyze : String → Bytes → List Token} {ff : FulltextField}

/-- An object with an `l:` row has the rows of its text, one without has no rows. -/
def Synced (analyze : String → Bytes → List Token) (ff : FulltextField) (text : Id → Option Bytes)
    (index : Index) : Prop :=
  ∀ id, RowsAre ff index id ((indexedText ff index id (text id)).map (tokenizeForIndex analyze ff))

variable {text text' : Id → Option Bytes} {index : Index} {id : Id} {changes : List (Id × Change)}
  {snapshot : Index}

theorem RowsAre.indexedText {t : Option Bytes}
    (h : RowsAre ff index id (t.map (tokenizeForIndex analyze ff))) :
    RowsAre ff index id ((indexedText ff index id t).map (tokenizeForIndex analyze ff)) := by
  have hdoc := h.doc_isSome
  unfold Fulltext.indexedText
  cases t with
  | none =>
    split_ifs
    · exact h
    · exact h
  | some t =>
    rw [hdoc]
    exact h

theorem Synced.stageChanges (h : Synced analyze ff text index) (hchanged : Changed text text' changes)
    (hagree : ∀ c ∈ changes, snapshot.lookup (.doc ff.generation c.1) =
      index.lookup (.doc ff.generation c.1)) :
    Synced analyze ff text' (index.apply (stageChanges analyze ff snapshot changes).1) ∧
    (∀ id ∈ changes.map Prod.fst, ((index.apply (Fulltext.stageChanges analyze ff snapshot
      changes).1).lookup (.doc ff.generation id)).isSome = (text' id).isSome) ∧
    totals ff (index.apply (Fulltext.stageChanges analyze ff snapshot changes).1) =
      (totals ff index).add (Fulltext.stageChanges analyze ff snapshot changes).2 := by
  have hbefore : ∀ c ∈ changes, RowsAre ff index c.1
      ((Fulltext.indexedText ff index c.1 c.2.old).map (tokenizeForIndex analyze ff)) :=
    fun c hc => (hchanged.old c hc) ▸ h c.1
  have hrows := rowsAre_stageChanges hchanged.nodup hagree hbefore
  have htotals := totals_stageChanges hchanged.nodup hagree hbefore
  refine ⟨fun id => ?_, ?_, htotals⟩
  · by_cases hid : id ∈ changes.map Prod.fst
    · obtain ⟨c, hc, rfl⟩ := mem_map.mp hid
      rw [hchanged.new c hc]
      exact (hrows c hc).indexedText
    · rw [hchanged.frame id hid, indexedText_congr _ (lookup_stageChanges_doc hid)]
      exact (h id).frame_stageChanges hid
  · rw [forall_mem_map]
    intro c hc
    rw [(hrows c hc).doc_isSome, hchanged.new c hc, Option.isSome_map]

theorem Synced.backfill (h : Synced analyze ff text index) (hnodup : (changes.map Prod.fst).Nodup)
    (hunindexed : ∀ c ∈ changes, snapshot.lookup (.doc ff.generation c.1) = none ∧
      index.lookup (.doc ff.generation c.1) = none ∧ text c.1 = c.2.new ∧ c.2.old = none) :
    Synced analyze ff text (index.apply (Fulltext.stageChanges analyze ff snapshot changes).1) ∧
    (∀ id ∈ changes.map Prod.fst, ((index.apply (Fulltext.stageChanges analyze ff snapshot
      changes).1).lookup (.doc ff.generation id)).isSome = (text id).isSome) ∧
    totals ff (index.apply (Fulltext.stageChanges analyze ff snapshot changes).1) =
      (totals ff index).add (Fulltext.stageChanges analyze ff snapshot changes).2 := by
  have hbefore : Synced analyze ff
      (fun id => if id ∈ changes.map Prod.fst then none else text id) index := by
    intro id
    dsimp only
    split_ifs with hid
    · obtain ⟨c, hc, rfl⟩ := mem_map.mp hid
      have hrows := h c.1
      have hnone : ∀ t, Fulltext.indexedText ff index c.1 t = none := by
        intro t
        unfold Fulltext.indexedText
        rw [(hunindexed c hc).2.1]
        rfl
      rw [hnone] at hrows ⊢
      exact hrows
    · exact h id
  have hchanged : Changed (fun id => if id ∈ changes.map Prod.fst then none else text id)
      text changes := by
    refine ⟨hnodup, ?_, fun c hc => (hunindexed c hc).2.2.1, ?_⟩
    · intro c hc
      rw [(hunindexed c hc).2.2.2]
      exact if_pos (mem_map_of_mem hc)
    · exact fun id hid => (if_neg hid).symm
  apply hbefore.stageChanges hchanged
  intro c hc
  rw [(hunindexed c hc).1, (hunindexed c hc).2.1]

end RhypeDb.Fulltext
