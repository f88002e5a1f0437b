import RhypeDb.Basic.Layered
import RhypeDb.Storage.Lsm
import RhypeDb.Storage.PointRead

/-! What a tree has been told: the published commits in order, the last write of each key,
and how the layers of a tree hold it. -/

namespace RhypeDb.Storage

open Layered List

variable {V : Type}

abbrev History (V : Type) := List (Nat × Writes Bytes V)

def latest (history : History V) (k : Bytes) : Option (Nat × Option V) :=
  history.foldl (fun acc c => ((lastWrite c.2 k).map fun v => (c.1, v)).or acc) none

def lastValue (history : History V) (k : Bytes) : Option V := (latest history k).bind Prod.snd

def historyKeys (history : History V) : Set Bytes := {k | (latest history k).isSome}

theorem latest_concat (history : History V) (c : Nat × Writes Bytes V) (k : Bytes) :
    latest (history ++ [c]) k = ((lastWrite c.2 k).map fun v => (c.1, v)).or (latest history k) := by
  rw [latest, foldl_append]
  rfl

variable {history : History V} {m : MemTable V} {k : Bytes}

theorem mem_historyKeys :
    k ∈ historyKeys history ↔ k ∈ history.flatMap fun c => c.2.map Prod.fst := by
  unfold historyKeys
  rw [Set.mem_ofPred_eq]
  induction history using List.reverseRecOn with
  | nil => simp [latest]
  | append_singleton history c ih =>
    rw [latest_concat, flatMap_append, mem_append, ← ih, Option.isSome_or,
      Option.isSome_map, Bool.or_eq_true, isSome_lastWrite, or_comm, flatMap_singleton]

theorem prefixFree_of_length {n : Nat}
    (h : ∀ k ∈ history.flatMap (fun c => c.2.map Prod.fst), k.length = n) :
    PrefixFree (historyKeys history) := by
  intro a ha b hb hpre
  exact hpre.eq_of_length ((h a (mem_historyKeys.mp ha)).trans (h b (mem_historyKeys.mp hb)).symm)

theorem mem_applyWrites (m : MemTable V) (v : Nat) (writes : Writes Bytes V) (e : Entry V) :
    e ∈ (LsmTree.applyWrites m v writes).entries ↔
      (e.1.version = UInt64.ofNat v ∧ lastWrite writes e.1.userKey = some e.2) ∨
      (e ∈ m.entries ∧ ¬ (e.1.version = UInt64.ofNat v ∧ (lastWrite writes e.1.userKey).isSome)) := by
  induction writes using List.reverseRecOn with
  | nil => simp [LsmTree.applyWrites]
  | append_singleton writes w ih =>
    have hinsert : LsmTree.applyWrites m v (writes ++ [w]) =
        (LsmTree.applyWrites m v writes).insert ⟨w.1, UInt64.ofNat v⟩ w.2 := by
      rw [LsmTree.applyWrites, foldl_append, foldl_cons, foldl_nil]
      rcases w with ⟨k, _ | value⟩ <;> rfl
    rw [hinsert, SortedMap.mem_insert, ih, lastWrite_concat]
    obtain ⟨⟨k, u⟩, value⟩ := e
    by_cases hk : w.1 = k
    · subst hk
      simp only [if_true, Option.isSome_some, and_true, Prod.mk.injEq, InternalKey.mk.injEq,
        true_and, Option.some.injEq, ne_eq]
      constructor
      · rintro (⟨hu, hv⟩ | ⟨h | ⟨hm, hn⟩, hne⟩)
        · exact .inl ⟨hu, hv.symm⟩
        · exact absurd h.1 hne
        · exact .inr ⟨hm, hne⟩
      · rintro (⟨hu, hv⟩ | ⟨hm, hne⟩)
        · exact .inl ⟨hu, hv.symm⟩
        · exact .inr ⟨.inr ⟨hm, fun h => hne h.1⟩, hne⟩
    · simp only [hk, if_false, Prod.mk.injEq, InternalKey.mk.injEq, ne_eq]
      constructor
      · rintro (⟨⟨rfl, -⟩, -⟩ | ⟨h, -⟩)
        · exact absurd rfl hk
        · exact h
      · intro h
        exact .inr ⟨h, fun h' => hk h'.1.symm⟩

theorem toNat_ofNat_of_le {v : Nat} (h : v ≤ u64Max) : (UInt64.ofNat v).toNat = v :=
  UInt64.toNat_ofNat_of_lt' (Nat.lt_of_le_of_lt h (by decide))

namespace LsmTree

def layers (tree : LsmTree V) : List (List (Entry V)) :=
  tree.activeMemtable.entries :: (tree.immutableMemtables.reverse.map SortedMap.entries ++
    tree.sstFiles.reverse.map (·.file.data))

end LsmTree

def Lacks (k : Bytes) (layer : List (Entry V)) : Prop := ∀ e ∈ layer, e.1.userKey ≠ k

theorem readNewest_eq {v : UInt64} {s : UInt64} {value : MemValue V}
    (hmem : (⟨k, v⟩, value) ∈ m.entries) (hs : v ≤ s)
    (hmax : ∀ e ∈ m.entries, e.1.userKey = k → e.1.version ≤ v) :
    readNewest m.entries k s = some value := by
  have hn : IsNewest m.entries k s (⟨k, v⟩, value) :=
    ⟨hmem, rfl, hs, fun e he hk _ => hmax e he hk⟩
  rw [readNewest, newest_eq_some.mpr hn, Option.map_some]

theorem readNewest_of_lacks {es : List (Entry V)} (h : Lacks k es) (s : UInt64) :
    readNewest es k s = none := by
  rw [readNewest, newest_eq_none.mpr fun e he hk => absurd hk (h e he), Option.map_none]

theorem PrefixFree.mono {s t : Set Bytes} (h : PrefixFree t) (hst : s ⊆ t) : PrefixFree s :=
  fun k hk k' hk' => h k (hst hk) k' (hst hk')

theorem MemTable.get_of_prefixFree (h : PrefixFree (userKeys m.entries))
    (k : Bytes) (s : UInt64) : m.get k s = readNewest m.entries k s :=
  (MemTable.get_iff m).mpr (unobstructed_of_prefixFree h) k s

theorem SstFile.WellFormed.getVersioned_of_prefixFree [ByteLen V] {env : StorageEnv V}
    {f : SstFile V} (hf : f.WellFormed env) (hfit : f.Fits) (h : PrefixFree (userKeys f.data))
    (k : Bytes) (s : UInt64) : f.getVersioned env k s = .ok (readNewest f.data k s) := by
  rw [hf.getVersioned_eq hfit]
  exact congrArg Except.ok
    ((SstFile.toRead_probe_iff ⟨f.data, hf.sorted⟩).mpr (orderedByUserKey_of_prefixFree h) k s)

namespace LsmTree

variable [ByteLen V] {env : StorageEnv V}

theorem getFromSsts_eq {ssts : List (SstReader V)}
    (hssts : ∀ sst ∈ ssts, sst.file.WellFormed env ∧ sst.file.Fits)
    (hfree : ∀ sst ∈ ssts, PrefixFree (userKeys sst.file.data)) (k : Bytes) (s : UInt64) :
    getFromSsts env s k ssts =
      .ok ((ssts.map (·.file.data)).findSome? fun layer => readNewest layer k s).join := by
  induction ssts with
  | nil => rfl
  | cons sst ssts ih =>
    rw [forall_mem_cons] at hssts hfree
    rw [getFromSsts, hssts.1.1.getVersioned_of_prefixFree hssts.1.2 hfree.1, map_cons,
      findSome?_cons]
    cases readNewest sst.file.data k s with
    | none => exact ih hssts.2 hfree.2
    | some value => rfl

omit [ByteLen V] in
theorem findSome?_get_eq {ms : List (MemTable V)}
    (hfree : ∀ m ∈ ms, PrefixFree (userKeys m.entries)) (k : Bytes) (s : UInt64) :
    ms.findSome? (fun m => m.get k s) = ms.findSome? fun m => readNewest m.entries k s := by
  induction ms with
  | nil => rfl
  | cons m ms ih =>
    rw [forall_mem_cons] at hfree
    rw [findSome?_cons, findSome?_cons, MemTable.get_of_prefixFree hfree.1, ih hfree.2]

theorem getAt_eq {tree : LsmTree V}
    (hssts : ∀ sst ∈ tree.sstFiles, sst.file.WellFormed env ∧ sst.file.Fits)
    (hfree : ∀ layer ∈ tree.layers, PrefixFree (userKeys layer)) (k : Bytes) (s : UInt64) :
    tree.getAt env s k =
      .ok (tree.layers.findSome? fun layer => readNewest layer k s).join := by
  simp only [layers, forall_mem_cons, forall_mem_append, forall_mem_map,
    mem_reverse] at hfree
  have hssts' := @getFromSsts_eq V _ env tree.sstFiles.reverse
    (fun sst h => hssts sst (mem_reverse.mp h))
    (fun sst h => hfree.2.2 sst (mem_reverse.mp h)) k s
  have himm := @findSome?_get_eq V tree.immutableMemtables.reverse
    (fun m h => hfree.2.1 m (mem_reverse.mp h)) k s
  rw [getAt, layers, MemTable.get_of_prefixFree hfree.1, findSome?_cons]
  cases readNewest tree.activeMemtable.entries k s with
  | some value => rfl
  | none =>
    simp only [himm, hssts', findSome?_append, findSome?_map, Function.comp_def]
    cases tree.immutableMemtables.reverse.findSome? fun m => readNewest m.entries k s with
    | some value => rfl
    | none => rfl

end LsmTree

def HasLatest (k : Bytes) (last : Nat × Option V) (layer : List (Entry V)) : Prop :=
  (⟨k, UInt64.ofNat last.1⟩, last.2) ∈ layer

theorem latest_publish (m : MemTable V) {v : Nat} {writes : Writes Bytes V}
    {last : Nat × Option V} (hlast : latest (history ++ [(v, writes)]) k = some last) :
    HasLatest k last (LsmTree.applyWrites m v writes).entries ∨
    (latest history k = some last ∧
      (HasLatest k last m.entries → HasLatest k last (LsmTree.applyWrites m v writes).entries) ∧
      (Lacks k m.entries → Lacks k (LsmTree.applyWrites m v writes).entries)) := by
  rw [latest_concat] at hlast
  cases hw : lastWrite writes k with
  | some value =>
    rw [hw] at hlast
    cases hlast
    exact .inl ((mem_applyWrites _ _ _ _).mpr (.inl ⟨rfl, hw⟩))
  | none =>
    rw [hw, Option.map_none, Option.none_or] at hlast
    refine .inr ⟨hlast, ?_, ?_⟩
    · intro hhit
      exact (mem_applyWrites _ _ _ _).mpr (.inr ⟨hhit, by simp [hw]⟩)
    · intro hlacks e he hk
      rcases (mem_applyWrites _ _ _ _).mp he with ⟨-, hwrite⟩ | ⟨hold, -⟩
      · rw [hk, hw] at hwrite
        cases hwrite
      · exact hlacks e hold hk

/-- The first layer that mentions a key holds its last write, and no layer holds a later one. -/
structure Reflects (history : History V) (layers : List (List (Entry V))) : Prop where
  first : ∀ k last, latest history k = some last → FirstHit (Lacks k) (HasLatest k last) layers
  bounded : ∀ layer ∈ layers, ∀ e ∈ layer, ∃ last,
    latest history e.1.userKey = some last ∧ e.1.version.toNat ≤ last.1

namespace Reflects

variable {layers rest : List (List (Entry V))} {v : Nat}

theorem userKeys_subset (h : Reflects history layers) {layer : List (Entry V)}
    (hlayer : layer ∈ layers) : userKeys layer ⊆ historyKeys history := by
  rintro _ ⟨e, he, rfl⟩
  obtain ⟨last, hlast, -⟩ := h.bounded layer hlayer e he
  simp [historyKeys, hlast]

theorem first_publish (h : Reflects history (m.entries :: rest)) (writes : Writes Bytes V)
    {k : Bytes} {last : Nat × Option V} (hlast : latest (history ++ [(v, writes)]) k = some last) :
    FirstHit (Lacks k) (HasLatest k last) ((LsmTree.applyWrites m v writes).entries :: rest) := by
  rcases latest_publish m hlast with hhit | ⟨hold, hhit, hlacks⟩
  · exact .inl hhit
  · exact (h.first k last hold).imp hhit (And.imp_left hlacks)

theorem bounded_concat {writes : Writes Bytes V} {e : Entry V}
    (hle : ∀ k last, latest history k = some last → last.1 ≤ v)
    (h : ∃ last, latest history e.1.userKey = some last ∧ e.1.version.toNat ≤ last.1) :
    ∃ last, latest (history ++ [(v, writes)]) e.1.userKey = some last ∧
      e.1.version.toNat ≤ last.1 := by
  obtain ⟨last, hlast, hver⟩ := h
  rw [latest_concat]
  cases hw : lastWrite writes e.1.userKey with
  | none => exact ⟨last, hlast, hver⟩
  | some value => exact ⟨_, rfl, hver.trans (hle _ last hlast)⟩

theorem publish (h : Reflects history (m.entries :: rest)) (hroom : v ≤ u64Max)
    (hle : ∀ k last, latest history k = some last → last.1 ≤ v) (writes : Writes Bytes V) :
    Reflects (history ++ [(v, writes)]) ((LsmTree.applyWrites m v writes).entries :: rest) where
  first := fun k last hlast => h.first_publish writes hlast
  bounded := by
    rw [forall_mem_cons]
    constructor
    · intro e he
      rcases (mem_applyWrites _ _ _ _).mp he with ⟨hver, hwrite⟩ | ⟨hold, -⟩
      · refine ⟨(v, e.2), by rw [latest_concat, hwrite]; rfl, ?_⟩
        rw [hver, toNat_ofNat_of_le hroom]
      · exact bounded_concat hle (h.bounded _ mem_cons_self e hold)
    · intro layer hlayer e he
      exact bounded_concat hle (h.bounded layer (mem_cons_of_mem _ hlayer) e he)

theorem read (h : Reflects history layers)
    (hsorted : ∀ layer ∈ layers, layer.Pairwise fun a b => a.1 < b.1) (hroom : v ≤ u64Max)
    (hle : ∀ k last, latest history k = some last → last.1 ≤ v) (k : Bytes) :
    (layers.findSome? fun layer => readNewest layer k (UInt64.ofNat v)).join =
      lastValue history k := by
  unfold lastValue
  cases hlast : latest history k with
  | none =>
    rw [findSome?_eq_none_iff.mpr]
    · rfl
    · intro layer hlayer
      apply readNewest_of_lacks
      intro e he hk
      obtain ⟨last, hlast', -⟩ := h.bounded layer hlayer e he
      rw [hk, hlast] at hlast'
      cases hlast'
  | some last =>
    have hver := hle k last hlast
    have hof := toNat_ofNat_of_le (hver.trans hroom)
    rw [(h.first k last hlast).findSome? (b := last.2) fun _ _ hl => readNewest_of_lacks hl _]
    · rfl
    · intro layer hlayer hhit
      refine @readNewest_eq V ⟨layer, hsorted layer hlayer⟩ k (UInt64.ofNat last.1) _ last.2 hhit ?_ ?_
      · rwa [UInt64.le_iff_toNat_le, hof, toNat_ofNat_of_le hroom]
      · intro e he hk
        obtain ⟨last', hlast', hle'⟩ := h.bounded layer hlayer e he
        rw [hk, hlast] at hlast'
        cases hlast'
        rwa [UInt64.le_iff_toNat_le, hof]

end Reflects

end RhypeDb.Storage
