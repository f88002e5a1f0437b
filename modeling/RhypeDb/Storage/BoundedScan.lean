import RhypeDb.Storage.Scan

/-! The bounded scans cut every layer to its own first `n` keys before merging. A key that a
newer layer deletes or overwrites beyond that layer's cut is then taken from an older one. -/

namespace RhypeDb.Storage

open Layered

variable {V : Type}

/-- A scan from `start` comes to the key, and this is its newest visible version in the layer. -/
def Layer.Finds [ByteLen V] (pre start : Bytes) (version : UInt64) (layer : Layer V) (k : Bytes)
    (value : MemValue V) : Prop :=
  Row start pre version (layer.walk start) k value

section

variable (found : Layer V → Bytes → MemValue V → Prop) (n : Nat)

/-- Fewer than `n` keys are found in the layer before `k`; a deleted one counts as well. -/
def AmongFirst (layer : Layer V) (k : Bytes) : Prop :=
  ∀ s : Finset Bytes, (∀ j ∈ s, j < k ∧ ∃ value, found layer j value) → s.card < n

/-- Of the layers that have `k` among their first keys the newest has it live. -/
def Offered (layers : List (Layer V)) (k : Bytes) (value : V) : Prop :=
  FirstHit (fun layer => ∀ v, found layer k v → ¬ AmongFirst found n layer k)
    (fun layer => found layer k (some value) ∧ AmongFirst found n layer k) layers

/-- Fewer than `n` smaller keys are offered. -/
def FewerBelow (layers : List (Layer V)) (k : Bytes) : Prop :=
  ∀ s : Finset Bytes, (∀ j ∈ s, j < k ∧ ∃ value, Offered found n layers j value) → s.card < n

/-- No row among the first `n` offered is one that a newer layer, beyond its own first keys, has
deleted or with another value. -/
def Uncut [ByteLen V] (pre : Bytes) (version : UInt64) (layers : List (Layer V)) : Prop :=
  ∀ k value, Offered found n layers k value → FewerBelow found n layers k →
    FirstHit (Layer.Silent pre version k) (Layer.Shows pre version k (some value)) layers

end

section

variable {found : Layer V → Bytes → MemValue V → Prop} {rows : Layer V → List (Bytes × MemValue V)}
  {layers : List (Layer V)} {n : Nat} {k : Bytes}

/-- The rows of each layer, in order, are what is found in it. -/
structure Lists (found : Layer V → Bytes → MemValue V → Prop)
    (rows : Layer V → List (Bytes × MemValue V)) (layers : List (Layer V)) : Prop where
  sorted : ∀ layer ∈ layers, (rows layer).Pairwise fun a b => a.1 < b.1
  mem : ∀ layer ∈ layers, ∀ {k v}, (k, v) ∈ rows layer ↔ found layer k v

theorem Lists.mem_take (h : Lists found rows layers) {layer : Layer V} (hl : layer ∈ layers)
    {v : MemValue V} :
    (k, v) ∈ (rows layer).take n ↔ found layer k v ∧ AmongFirst found n layer k := by
  rw [SortedMap.mem_take_iff (h.sorted layer hl), h.mem layer hl]
  refine and_congr_right fun _ => forall_congr' fun s => imp_congr_left ?_
  simp only [h.mem layer hl]

theorem Lists.mem_merge (h : Lists found rows layers) {value : V} :
    (k, value) ∈ LsmTree.mergeLayers (layers.map fun layer => (rows layer).take n).reverse ↔
      Offered found n layers k value := by
  rw [mem_mergeLayers, List.reverse_reverse, topRow, List.findSome?_map, findSome?_eq_some_iff]
  apply firstHit_congr
  · intro layer hl
    refine lastWrite_eq_none.trans ?_
    constructor
    · exact fun hnone v hv hfirst => hnone _ ((h.mem_take hl).mpr ⟨hv, hfirst⟩) rfl
    · rintro hcut ⟨_, v⟩ hrow rfl
      obtain ⟨hv, hfirst⟩ := (h.mem_take hl).mp hrow
      exact hcut v hv hfirst
  · intro layer hl
    refine (lastWrite_eq_some ?_).trans (h.mem_take hl)
    exact (h.sorted layer hl).sublist (List.take_sublist _ _)

theorem Lists.mem_take_merge (h : Lists found rows layers) {value : V} :
    (k, value) ∈ (LsmTree.mergeLayers (layers.map fun layer => (rows layer).take n).reverse).take n ↔
      Offered found n layers k value ∧ FewerBelow found n layers k := by
  rw [SortedMap.mem_take_iff (sorted_mergeLayers _), h.mem_merge]
  refine and_congr_right fun _ => forall_congr' fun s => imp_congr_left ?_
  simp only [h.mem_merge]

end

/-- A bounded scan returns only rows of the full scan exactly when no row it offers is cut off
from the layer that supersedes it; for both bounded scans. -/
theorem bounded_scans_live_iff [ByteLen V] (env : StorageEnv V) (tree : LsmTree V)
    (hw : tree.Written env)
    (pre start : Bytes) (hstart : pre <+: start) (version : UInt64) (n len : Nat)
    (hlen : ∀ layer ∈ tree.layers, ∀ e ∈ layer, pre <+: e.1.userKey → e.1.userKey.length = len) :
    ((∀ row ∈ tree.scanPrefixAtLimited version pre n, row ∈ tree.scanPrefixAt version pre) ↔
      Uncut (fun layer k v => layer.Shows pre version k v) n pre version tree.allLayers) ∧
    ((∀ row ∈ tree.scanFromAtLimited version pre start n, row ∈ tree.scanPrefixAt version pre) ↔
      Uncut (Layer.Finds pre start version) n pre version tree.allLayers) := by
  have hone := fun layer h => (tree.oneLength_allLayers hlen layer h).keyOrdered
  have hmain : ∀ {found rows}, Lists found rows tree.allLayers →
      ((∀ row ∈ (LsmTree.mergeLayers
          (tree.allLayers.map fun layer => (rows layer).take n).reverse).take n,
        row ∈ tree.scanPrefixAt version pre) ↔ Uncut found n pre version tree.allLayers) := by
    intro found rows hlists
    rw [Prod.forall]
    refine forall_congr' fun k => forall_congr' fun value => ?_
    rw [hlists.mem_take_merge, and_imp, LsmTree.mem_scanPrefixAt_iff hw hone]
  rw [tree.scanPrefixAtLimited_eq, tree.scanFromAtLimited_eq,
    funext (Layer.scanPrefixMax_eq pre version n), funext (Layer.scanFromMax_eq hstart version n)]
  constructor
  · refine hmain ⟨fun layer hl => ?_, fun layer hl _ _ => ?_⟩
    · exact Layer.sorted_scanPrefix (LsmTree.wellFormed_allLayers hw hl) (hone layer hl) version
    · exact Layer.mem_scanPrefix (LsmTree.wellFormed_allLayers hw hl) (hone layer hl)
  · have hwf : ∀ layer ∈ tree.allLayers, layer.WellFormed env := fun _ hl =>
      LsmTree.wellFormed_allLayers hw hl
    have horder := fun layer hl => (hone layer hl).mono fun e he =>
      (Layer.walk_sublist (hwf layer hl) start).subset he
    have hsorted := fun layer hl => Layer.sorted_walk (hwf layer hl) start
    refine hmain ⟨fun layer hl => ?_, fun layer hl k v => ?_⟩
    · exact sorted_collect (hsorted layer hl) (horder layer hl) none
    · have hnone : ∀ l ∈ (none : Option Bytes), ∀ e ∈ layer.walk start, pre <+: e.1.userKey →
          ¬ e.1.userKey < l := nofun
      rw [mem_collect (hsorted layer hl) (horder layer hl) hnone]
      exact and_iff_right nofun

/-- The active memtable deletes `a` and `b`; the memtable before it still holds `b`. -/
def cutTree : LsmTree Bytes :=
  { LsmTree.new .none with
    immutableMemtables := [MemTable.new.put [98] 1 [1]]
    activeMemtable := (MemTable.new.delete [97] 2).delete [98] 2 }

theorem cut_tombstone_row : ¬ ∀ (tree : LsmTree Bytes) (pre start : Bytes) (version : UInt64)
    (n len : Nat),
    tree.Written ⟨fun _ _ => 0, none⟩ → pre <+: start → 1 ≤ n →
    (∀ layer ∈ tree.layers, ∀ e ∈ layer, pre <+: e.1.userKey → e.1.userKey.length = len) →
    (∀ row ∈ tree.scanPrefixAtLimited version pre n, row ∈ tree.scanPrefixAt version pre) ∧
    (∀ row ∈ tree.scanFromAtLimited version pre start n, row ∈ tree.scanPrefixAt version pre) := by
  intro h
  have hlen : ∀ layer ∈ cutTree.layers, ∀ e ∈ layer, ([] : Bytes) <+: e.1.userKey →
      e.1.userKey.length = 1 := by decide
  have hrow := (h cutTree [] [] 2 1 1 nofun List.nil_prefix le_rfl hlen).1 ([98], [1]) (by decide)
  exact absurd hrow (by decide)

/-- With room for two keys no tombstone is cut off. -/
theorem bounded_scans_live_cutTree :
    ((∀ row ∈ cutTree.scanPrefixAtLimited 2 [] 2, row ∈ cutTree.scanPrefixAt 2 []) ↔
      Uncut (fun layer k v => layer.Shows [] 2 k v) 2 [] 2 cutTree.allLayers) ∧
    ((∀ row ∈ cutTree.scanFromAtLimited 2 [] [] 2, row ∈ cutTree.scanPrefixAt 2 []) ↔
      Uncut (Layer.Finds [] [] 2) 2 [] 2 cutTree.allLayers) :=
  bounded_scans_live_iff ⟨fun _ _ => 0, none⟩ cutTree nofun [] [] List.nil_prefix 2 2 1 (by decide)

end RhypeDb.Storage
