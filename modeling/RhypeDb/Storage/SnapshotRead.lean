import RhypeDb.Storage.AgeOrder

/-! Reads at a snapshot taken with `read_snapshot`, which registers nothing: commits, flushes
and compactions go on, and only a compaction that merges away a version the snapshot reads
changes what it sees. -/

namespace RhypeDb.Storage

open ByteOrder Function InternalKey Layered
open List hiding findSome?_eq_some_iff

variable {V : Type}

section

variable [ByteLen V] {env : StorageEnv V} {pre : Bytes} {version : UInt64} {k : Bytes}

omit [ByteLen V] in
theorem reached_range {m : MemTable V} (hfree : PrefixFree (userKeys m.entries)) {e : Entry V}
    (hmem : e ∈ m.entries) (he : pre <+: e.1.userKey) : Reached [] pre (m.range (.seek pre)) e := by
  obtain ⟨front, hsplit, -, hrange⟩ := SortedMap.range_split m (.seek pre)
  intro b hb hlt _
  have hbm : b ∈ m.entries := hsplit ▸ mem_append_right front hb
  by_contra hp
  rcases lt_trichotomy b.1.userKey pre with hlow | heq | hhigh
  · by_cases hbp : b.1.userKey <+: pre
    · have heq := hfree _ ⟨b, hbm, rfl⟩ _ ⟨e, hmem, rfl⟩ (hbp.trans he)
      exact hp (heq ▸ he)
    · exact absurd (hrange b hb)
        (not_le.mpr (lt_of_diverge hlow hbp b.1.version (~~~0)))
  · exact hp (heq ▸ prefix_rfl)
  · obtain ⟨y, hy⟩ := he
    refine lt_asymm hlt ?_
    rw [lt_def, InternalKey.asBytes, InternalKey.asBytes, ← hy, append_assoc]
    exact append_lt_append hhigh hp _ _

namespace Layer

def Readable (env : StorageEnv V) : Layer V → Prop
  | memtable _ => True
  | sst f => f.WellFormed env ∧ f.Fits

variable {layer : Layer V}

theorem Readable.wellFormed (h : layer.Readable env) : layer.WellFormed env := by
  cases layer with
  | memtable m => trivial
  | sst f => exact h.1

theorem shows_iff (hread : layer.Readable env) (hfree : PrefixFree (userKeys layer.entries))
    {value : MemValue V} :
    layer.Shows pre version k value ↔
      pre <+: k ∧ readNewest layer.entries k version = some value := by
  cases layer with
  | memtable m =>
    obtain ⟨front, hsplit, hfront, -⟩ := SortedMap.range_split m (.seek pre)
    have hmem : ∀ e ∈ m.range (.seek pre), e ∈ m.entries :=
      fun e he => hsplit ▸ mem_append_right front he
    show Row [] pre version (m.range (.seek pre)) k value ↔
      pre <+: k ∧ (newest m.entries k version).map Prod.snd = some value
    refine and_congr_right fun hk => ?_
    have hnew : ∀ e, IsNewest m.entries k version e ↔
        IsNewest (m.range (.seek pre)) k version e := by
      intro e
      rw [hsplit]
      apply isNewest_append_right
      intro x hx hxk _
      exact absurd (hfront x hx) (not_lt.mpr (seek_le_of_extends (hxk ▸ hk)))
    rw [Option.map_eq_some_iff]
    constructor
    · rintro ⟨-, e, he, hv, -⟩
      exact ⟨e, newest_eq_some.mpr ((hnew e).mpr he), hv⟩
    · rintro ⟨e, he, hv⟩
      have he := newest_eq_some.mp he
      exact ⟨not_lt_nil k, e, (hnew e).mp he, hv,
        reached_range hfree he.mem (he.userKey_eq ▸ hk)⟩
  | sst f =>
    show Row pre pre version (f.iterFrom (SstFile.seekBlock f.index (.seek pre))) k value ↔ _
    have hfront : ∀ e ∈ f.data.take (16 * SstFile.seekBlock f.index (.seek pre)),
        e.1.userKey < pre :=
      fun e he => userKey_lt_of_lt_seek (hread.1.lt_of_mem_take_seek he)
    have hrow := @row_iff V pre k pre version value ⟨f.data, hread.1.sorted⟩ prefix_rfl
    rw [hread.1.iterFrom_eq hread.2, ← row_append hfront, take_append_drop]
    refine hrow.trans (and_congr_right fun hk => ?_)
    exact and_iff_right (not_lt.mpr (le_of_isPrefix hk))

theorem lastWrite_scanPrefix (hread : layer.Readable env)
    (hfree : PrefixFree (userKeys layer.entries)) :
    lastWrite (layer.scanPrefix pre version) k =
      if pre <+: k then readNewest layer.entries k version else none := by
  ext value
  rw [lastWrite_scanPrefix_eq_some hread.wellFormed (keyOrdered_of_prefixFree hfree pre),
    shows_iff hread hfree]
  by_cases hk : pre <+: k
  · simp [hk]
  · simp [hk]

end Layer

namespace LsmTree

variable {tree : LsmTree V}

theorem readable_allLayers (hssts : ∀ sst ∈ tree.sstFiles, sst.file.WellFormed env ∧ sst.file.Fits)
    {layer : Layer V} (hlayer : layer ∈ tree.allLayers) : layer.Readable env := by
  simp only [allLayers, mem_cons, mem_append, mem_map, mem_reverse] at hlayer
  rcases hlayer with rfl | ⟨m, -, rfl⟩ | ⟨sst, hsst, rfl⟩
  · trivial
  · trivial
  · exact hssts sst hsst

theorem mem_scanPrefixAt_iff_readLayers
    (hssts : ∀ sst ∈ tree.sstFiles, sst.file.WellFormed env ∧ sst.file.Fits)
    (hfree : ∀ layer ∈ tree.layers, PrefixFree (userKeys layer)) {value : V} :
    (k, value) ∈ tree.scanPrefixAt version pre ↔
      pre <+: k ∧ readLayers tree.layers k version = some value := by
  have hrow : ∀ layer ∈ tree.allLayers, lastWrite (layer.scanPrefix pre version) k =
      if pre <+: k then readNewest layer.entries k version else none := by
    intro layer hlayer
    apply Layer.lastWrite_scanPrefix (readable_allLayers hssts hlayer)
    exact hfree _ (tree.entries_allLayers ▸ mem_map_of_mem hlayer)
  rw [mem_scanPrefixAt, topRow, findSome?_map, readLayers, Option.join_eq_some_iff,
    ← tree.entries_allLayers, findSome?_map]
  by_cases hk : pre <+: k
  · rw [and_iff_right hk]
    have heq : ∀ layer ∈ tree.allLayers, lastWrite (layer.scanPrefix pre version) k =
        readNewest layer.entries k version := fun layer hlayer => by
      rw [hrow layer hlayer, if_pos hk]
    rw [findSome?_eq_some_iff, findSome?_eq_some_iff]
    apply firstHit_congr
    · intro layer hlayer
      rw [comp_apply, heq layer hlayer, comp_apply]
    · intro layer hlayer
      rw [comp_apply, heq layer hlayer, comp_apply]
  · refine iff_of_false ?_ fun h => hk h.1
    rw [findSome?_eq_none_iff.mpr fun layer hlayer => ?_]
    · exact fun h => by cases h
    · rw [comp_apply, hrow layer hlayer, if_neg hk]

end LsmTree

end

namespace LsmRun

/-- What a step does to the layers; `finishing` is the compaction it completes. -/
inductive LayersStep (nextVersion : Nat) (finishing : Option (CompactionJob V)) :
    List (List (Entry V)) → List (List (Entry V)) → Prop
  | none (layers : List (List (Entry V))) : LayersStep nextVersion finishing layers layers
  | publish (m : MemTable V) (writes : Writes Bytes V) (rest : List (List (Entry V)))
      (hroom : nextVersion ≤ u64Max) :
      LayersStep nextVersion finishing (m.entries :: rest)
        ((LsmTree.applyWrites m nextVersion writes).entries :: rest)
  | rotate (layers : List (List (Entry V))) : LayersStep nextVersion finishing layers ([] :: layers)
  | register (active : List (Entry V)) (immutables ssts : List (List (Entry V)))
      (hlacks : ∀ m ∈ immutables, ∀ e ∈ active, Lacks e.1.userKey m) :
      LayersStep nextVersion finishing (active :: (immutables ++ ssts))
        ([] :: (immutables ++ active :: ssts))
  | compact (job : CompactionJob V) (hjob : job ∈ finishing)
      (above inputs merged : List (List (Entry V)))
      (hinputs : ∀ e, e ∈ job.allEntries ↔ e ∈ inputs.flatten)
      (hsorted : job.allEntries.Pairwise fun a b => a.1 < b.1)
      (hmerged : merged.flatten = LsmTree.keepNeeded job.minSnapshot .none false job.allEntries)
      (hone : merged.length ≤ 1) :
      LayersStep nextVersion finishing (above ++ inputs) (above ++ merged)

def Spares (snapshot : UInt64) (job : CompactionJob V) : Prop :=
  ∀ e, IsNewest job.allEntries e.1.userKey snapshot e → e.2 ≠ none →
    ∀ x ∈ job.allEntries, x.1.userKey = e.1.userKey → snapshot < x.1.version →
      job.minSnapshot < x.1.version.toNat

namespace LayersStep

variable {nextVersion : Nat} {finishing : Option (CompactionJob V)}
  {layers layers' : List (List (Entry V))}

theorem ageOrdered (h : LayersStep nextVersion finishing layers layers')
    (hbound : ∀ e ∈ layers.flatten, e.1.version.toNat < nextVersion) (hage : AgeOrdered layers) :
    AgeOrdered layers' := by
  cases h with
  | none => exact hage
  | publish m writes rest hroom =>
    rw [AgeOrdered, pairwise_cons] at hage ⊢
    refine ⟨?_, hage.2⟩
    intro older holder a ha b hb hk
    rcases (mem_applyWrites _ _ _ _).mp ha with ⟨hver, -⟩ | ⟨ha, -⟩
    · have hlt := hbound b (mem_flatten_of_mem (mem_cons_of_mem _ holder) hb)
      rwa [hver, UInt64.lt_iff_toNat_lt, toNat_ofNat_of_le hroom]
    · exact hage.1 older holder a ha b hb hk
  | rotate => exact pairwise_cons.mpr ⟨fun _ _ => forall_mem_nil _, hage⟩
  | register active immutables ssts hlacks =>
    rw [AgeOrdered, pairwise_cons, pairwise_append] at hage
    obtain ⟨hactive, himm, hssts, hcross⟩ := hage
    rw [forall_mem_append] at hactive
    rw [AgeOrdered, pairwise_cons, pairwise_append, pairwise_cons]
    refine ⟨fun _ _ => forall_mem_nil _, himm, ⟨hactive.2, hssts⟩, ?_⟩
    intro m hm
    rw [forall_mem_cons]
    refine ⟨?_, hcross m hm⟩
    intro a ha b hb hk
    exact absurd hk (hlacks m hm b hb a ha)
  | compact job hjob above inputs merged hinputs hsorted hmerged hone =>
    rw [AgeOrdered, pairwise_append] at hage ⊢
    refine ⟨hage.1, ?_, ?_⟩
    · cases merged with
      | nil => exact List.Pairwise.nil
      | cons sst rest =>
        obtain rfl : rest = [] := length_eq_zero_iff.mp (by simpa using hone)
        exact pairwise_singleton _ _
    · intro newer hnewer older holder a ha b hb hk
      have hb' : b ∈ LsmTree.keepNeeded job.minSnapshot Option.none false job.allEntries :=
        hmerged ▸ mem_flatten_of_mem holder hb
      have hin := (hinputs b).mp ((keepNeeded_sublist _ _ _ _).subset hb')
      obtain ⟨input, hinput, hb⟩ := mem_flatten.mp hin
      exact hage.2.2 newer hnewer input hinput a ha b hb hk

theorem kept (h : LayersStep nextVersion finishing layers layers')
    (hbound : ∀ e ∈ layers.flatten, e.1.version.toNat < nextVersion) (hage : AgeOrdered layers)
    (hfree : PrefixFree (userKeys layers.flatten)) {snapshot : UInt64}
    (hsnap : snapshot.toNat < nextVersion) (hspares : ∀ job ∈ finishing, Spares snapshot job) :
    Kept snapshot layers layers' := by
  cases h with
  | none => exact kept_of_visible fun _ _ => Iff.rfl
  | publish m writes rest hroom =>
    apply kept_of_visible
    intro e hv
    have hne : e.1.version ≠ UInt64.ofNat nextVersion := by
      rintro heq
      rw [heq, UInt64.le_iff_toNat_le, toNat_ofNat_of_le hroom] at hv
      omega
    rw [flatten_cons, flatten_cons, mem_append, mem_append, mem_applyWrites]
    simp [hne]
  | rotate => exact kept_of_visible fun _ _ => by simp
  | register active immutables ssts hlacks =>
    apply kept_of_visible
    intro e _
    simp only [flatten_cons, flatten_append, mem_append, nil_append]
    tauto
  | compact job hjob above inputs merged hinputs hsorted hmerged hone =>
    have hordered : OrderedByUserKey job.allEntries := by
      apply orderedByUserKey_of_prefixFree
      apply hfree.mono
      rintro _ ⟨e, he, rfl⟩
      rw [flatten_append]
      exact ⟨e, mem_append_right _ ((hinputs e).mp he), rfl⟩
    have hmem : ∀ {e : Entry V}, e ∈ merged.flatten ↔ e ∈ job.allEntries ∧
        ∀ x ∈ job.allEntries, x.1.userKey = e.1.userKey → e.1.version < x.1.version →
          job.minSnapshot < x.1.version.toNat := by
      intro e
      rw [hmerged, mem_keepNeeded_iff hsorted hordered (fun p hp => by cases hp)]
      simp
    have hsub : ∀ e ∈ merged.flatten, e ∈ inputs.flatten :=
      fun e he => (hinputs e).mp (hmem.mp he).1
    refine ⟨?_, ?_⟩
    · rw [flatten_append, flatten_append]
      intro k e he
      have hstays : e ∈ above.flatten ++ merged.flatten →
          IsNewest (above.flatten ++ merged.flatten) k snapshot e := by
        intro hin
        apply isNewest_of_subset he hin
        intro x hx _
        exact (mem_append.mp hx).elim (mem_append_left _)
          fun hx => mem_append_right _ (hsub x hx)
      rcases mem_append.mp he.mem with habove | hin
      · exact .inl (hstays (mem_append_left _ habove))
      by_cases hkept : e ∈ merged.flatten
      · exact .inl (hstays (mem_append_right _ hkept))
      -- a newer version of the key at or below the floor pushed it out
      have hdropped : ∃ x ∈ job.allEntries, x.1.userKey = e.1.userKey ∧
          e.1.version < x.1.version ∧ ¬ job.minSnapshot < x.1.version.toNat := by
        by_contra hno
        refine hkept (hmem.mpr ⟨(hinputs e).mpr hin, fun x hx hk hv => ?_⟩)
        by_contra hfloor
        exact hno ⟨x, hx, hk, hv, hfloor⟩
      obtain ⟨x, hx, hxk, hxv, hfloor⟩ := hdropped
      have hxnew : snapshot < x.1.version := by
        rw [← UInt64.not_le]
        intro hle
        exact UInt64.not_le.mpr hxv (he.newest x (mem_append_right _ ((hinputs x).mp hx))
          (hxk.trans he.userKey_eq) hle)
      have hnewest : IsNewest job.allEntries e.1.userKey snapshot e := by
        rw [he.userKey_eq]
        exact isNewest_of_subset he ((hinputs e).mpr hin)
          fun y hy _ => mem_append_right _ ((hinputs y).mp hy)
      right
      constructor
      · by_contra hlive
        exact hfloor (hspares job hjob e hnewest hlive x hx hxk hxnew)
      · intro y hy hyk hyv
        rcases mem_append.mp hy with hy | hy
        · obtain ⟨newer, hnewer, hya⟩ := mem_flatten.mp hy
          obtain ⟨input, hinput, heb⟩ := mem_flatten.mp hin
          have hlt := (pairwise_append.mp hage).2.2 newer hnewer input hinput y hya e heb
            (hyk.trans he.userKey_eq.symm)
          exact UInt64.not_le.mpr hlt (he.newest y (mem_append_left _ hy) hyk hyv)
        · exact hfloor ((hmem.mp hy).2 x hx (hxk.trans (he.userKey_eq.trans hyk.symm))
            (UInt64.lt_of_le_of_lt hyv hxnew))
    · intro e he _
      rw [flatten_append, mem_append] at he ⊢
      exact he.imp_right (hsub e)

end LayersStep

variable [ByteLen V] {env : StorageEnv V} {s : Sys V} {job : CompactionJob V}

def Sys.finishing (s : Sys V) : Call V → Option (CompactionJob V)
  | .compactFinish .done => s.job
  | _ => none

theorem tree_compactBegin (s : Sys V) : (s.step env .compactBegin).tree = s.tree := by
  simp only [Sys.step]
  split <;> rfl

theorem step_compactFinish (hjob : s.job = some job) (write : SstWrite) :
    s.step env (.compactFinish write) =
      { s with tree := (s.tree.compactFinish env job write).2, job := none } := by
  simp only [Sys.step, hjob]

theorem layersStep_flush {write : SstWrite} (hage : KeepsAge env s (.flush write))
    (finishing : Option (CompactionJob V)) :
    LayersStep s.tree.txnManager.nextVersion finishing s.tree.layers
      (s.step env (.flush write)).tree.layers := by
  show LayersStep _ _ _ (s.tree.flushLocked env write).2.layers
  rcases s.tree.flushLocked_cases env write with
    ⟨-, htree⟩ | ⟨-, -, htree⟩ | ⟨-, hdone, sst, hopen, htree⟩
  · rw [htree]
    exact .none _
  · rw [htree, s.tree.layers_rotated]
    exact .rotate _
  · subst hdone
    obtain ⟨hfile, -⟩ := SstReader.file_of_open hopen
    have hdata : sst.file.data = s.tree.activeMemtable.entries := by
      rw [hfile, SstWriter.data_writeAll]
    rw [htree, s.tree.layers_registered hdata]
    apply LayersStep.register
    intro layer hlayer
    obtain ⟨m, hm, rfl⟩ := mem_map.mp hlayer
    exact hage.1 m (mem_reverse.mp hm)

theorem Inv.layersStep_compactFinish (hs : Inv env s) (write : SstWrite) :
    LayersStep s.tree.txnManager.nextVersion (s.finishing (.compactFinish write)) s.tree.layers
      (s.step env (.compactFinish write)).tree.layers := by
  unfold Sys.step
  cases hjob : s.job with
  | none => exact .none _
  | some job =>
    obtain ⟨inputs, newer, hsplit, hpaths, hentries⟩ := hs.job job hjob
    have hkept : s.tree.sstFiles.filter (fun sst => decide (sst.id ∉ job.mergedPaths)) = newer := by
      rw [hsplit, hpaths, filter_merged (hsplit ▸ hs.ids.1)]
    have hinputs : ∀ e, e ∈ job.allEntries ↔ e ∈ (inputs.reverse.map (·.file.data)).flatten := by
      intro e
      rw [hentries, mem_merge, mem_flatten]
      simp
    have hsorted : job.allEntries.Pairwise fun a b => a.1 < b.1 := by
      rw [hentries]
      exact hs.sorted_inputs hsplit
    have hstep : ∀ merged : List (SstReader V), merged.length ≤ 1 →
        (merged.reverse.map (·.file.data)).flatten =
          LsmTree.keepNeeded job.minSnapshot none false job.allEntries →
        LayersStep s.tree.txnManager.nextVersion (some job) s.tree.layers
          (s.tree.compacted (merged ++ newer)).layers := by
      intro merged hone hmerged
      rw [s.tree.layers_eq hsplit, (s.tree.compacted (merged ++ newer)).layers_eq rfl]
      exact .compact job rfl _ _ _ hinputs hsorted hmerged (by simpa using hone)
    rcases s.tree.compactFinish_cases env job write hkept rfl with
      htree | ⟨hdone, hnil, htree⟩ | ⟨hdone, sst, hopen, htree⟩
    · show LayersStep _ _ _ (s.tree.compactFinish env job write).2.layers
      rw [htree]
      exact .none _
    · subst hdone
      show LayersStep _ s.job _ (s.tree.compactFinish env job .done).2.layers
      rw [htree, hjob]
      exact hstep [] (Nat.zero_le 1) hnil.symm
    · subst hdone
      obtain ⟨hfile, -⟩ := SstReader.file_of_open hopen
      show LayersStep _ s.job _ (s.tree.compactFinish env job .done).2.layers
      rw [htree, hjob]
      apply hstep [sst] le_rfl
      rw [reverse_singleton, map_singleton, flatten_singleton, hfile,
        SstWriter.data_writeAll]

variable {call : Call V} {snapshot : UInt64}

theorem Inv.layersStep (hs : Inv env s) (hage : KeepsAge env s call) :
    LayersStep s.tree.txnManager.nextVersion (s.finishing call) s.tree.layers
      (s.step env call).tree.layers := by
  cases call with
  | begin => exact .none _
  | abort txn => exact .none _
  | commit txn =>
    show LayersStep _ _ _ (s.tree.record s.history txn).1.layers
    rcases s.tree.record_cases s.history txn with ⟨tm, hrecord, -⟩ | ⟨tm, hrecord, hroom, -⟩
    · rw [hrecord]
      exact .none _
    · rw [hrecord]
      exact .publish s.tree.activeMemtable txn.writes _ hroom
  | flush write => exact layersStep_flush hage _
  | compactBegin =>
    rw [tree_compactBegin]
    exact .none _
  | compactFinish write => exact hs.layersStep_compactFinish write

theorem txnManager_flush (s : Sys V) (write : SstWrite) :
    (s.step env (.flush write)).tree.txnManager = s.tree.txnManager := by
  show (s.tree.flushLocked env write).2.txnManager = _
  rcases s.tree.flushLocked_cases env write with ⟨-, h⟩ | ⟨-, -, h⟩ | ⟨-, -, sst, -, h⟩
  · rw [h]
  · rw [h]
    rfl
  · rw [h]
    rfl

theorem txnManager_compactFinish (s : Sys V) (write : SstWrite) :
    (s.step env (.compactFinish write)).tree.txnManager = s.tree.txnManager := by
  cases hjob : s.job with
  | none =>
    have hstep : s.step env (.compactFinish write) = s := by simp only [Sys.step, hjob]
    rw [hstep]
  | some job =>
    rw [step_compactFinish hjob]
    show (s.tree.compactFinish env job write).2.txnManager = _
    rcases s.tree.compactFinish_cases env job write rfl rfl with h | ⟨-, -, h⟩ | ⟨-, sst, -, h⟩
    · rw [h]
      rfl
    · rw [h]
      rfl
    · rw [h]
      rfl

theorem history_step (env : StorageEnv V) (s : Sys V) (call : Call V) :
    ((s.step env call).history = s.history ∧
      (s.step env call).tree.txnManager.visibleVersion = s.tree.txnManager.visibleVersion) ∨
    ∃ writes, (s.step env call).history = s.history ++ [(s.tree.txnManager.nextVersion, writes)] ∧
      (s.step env call).tree.txnManager.visibleVersion = s.tree.txnManager.nextVersion := by
  cases call with
  | begin => exact .inl ⟨rfl, rfl⟩
  | abort txn =>
    exact .inl ⟨rfl, (LsmTree.abort_versions s.tree.txnManager txn).1⟩
  | commit txn =>
    simp only [Sys.step]
    rcases s.tree.record_cases s.history txn with ⟨tm, hrecord, hv, -⟩ | ⟨tm, hrecord, -, -, hv, -⟩
    · rw [hrecord]
      exact .inl ⟨rfl, hv⟩
    · rw [hrecord]
      exact .inr ⟨txn.writes, rfl, hv⟩
  | flush write => exact .inl ⟨rfl, by rw [txnManager_flush]⟩
  | compactBegin =>
    refine .inl ⟨?_, by rw [tree_compactBegin]⟩
    simp only [Sys.step]
    split <;> rfl
  | compactFinish write =>
    refine .inl ⟨?_, by rw [txnManager_compactFinish]⟩
    simp only [Sys.step]
    split <;> rfl

theorem historyKeys_subset_step (env : StorageEnv V) (s : Sys V) (call : Call V) :
    historyKeys s.history ⊆ historyKeys (s.step env call).history := by
  rcases history_step env s call with ⟨hh, -⟩ | ⟨writes, hh, -⟩
  · rw [hh]
  · rw [hh]
    intro k hk
    rw [mem_historyKeys, flatMap_append]
    exact mem_append_left _ (mem_historyKeys.mp hk)

theorem historyKeys_subset_exec (env : StorageEnv V) (s : Sys V) (calls : List (Call V)) :
    historyKeys s.history ⊆ historyKeys (Run.exec (Sys.step env) s calls).history := by
  induction calls generalizing s with
  | nil => exact subset_rfl
  | cons call calls ih => exact (historyKeys_subset_step env s call).trans (ih _)

theorem Inv.visible_le (hs : Inv env s) (call : Call V) :
    s.tree.txnManager.visibleVersion ≤ (s.step env call).tree.txnManager.visibleVersion := by
  rcases history_step env s call with ⟨-, hv⟩ | ⟨writes, -, hv⟩
  · exact hv.ge
  · rw [hv, hs.tracks.next]
    exact Nat.le_succ _

theorem Inv.userKeys_subset (hs : Inv env s) :
    userKeys s.tree.layers.flatten ⊆ historyKeys s.history := by
  rintro _ ⟨e, he, rfl⟩
  obtain ⟨layer, hlayer, he⟩ := mem_flatten.mp he
  exact hs.reflects.userKeys_subset hlayer ⟨e, he, rfl⟩

theorem Inv.version_lt (hs : Inv env s) {e : Entry V} (he : e ∈ s.tree.layers.flatten) :
    e.1.version.toNat < s.tree.txnManager.nextVersion := by
  obtain ⟨layer, hlayer, he⟩ := mem_flatten.mp he
  obtain ⟨last, hlast, hle⟩ := hs.reflects.bounded layer hlayer e he
  exact hle.trans_lt (hs.tracks.lt_next _ last hlast)

structure Aged (env : StorageEnv V) (s : Sys V) : Prop extends Inv env s where
  aged : AgeOrdered s.tree.layers

theorem aged_new (c : SstCompression) : Aged env (Sys.new c : Sys V) where
  toInv := inv_new c
  aged := by simp [AgeOrdered, Sys.new, LsmTree.new, LsmTree.layers]

theorem Aged.step (hs : Aged env s) (hage : KeepsAge env s call) :
    Aged env (s.step env call) where
  toInv := hs.toInv.step hage
  aged := (hs.layersStep hage).ageOrdered (fun _ => hs.version_lt) hs.aged

theorem Aged.readLayers_step (hs : Aged env s) (hage : KeepsAge env s call)
    (hfree : PrefixFree (historyKeys s.history))
    (hsnap : snapshot.toNat ≤ s.tree.txnManager.visibleVersion)
    (hspares : ∀ job ∈ s.finishing call, Spares snapshot job) (k : Bytes) :
    readLayers (s.step env call).tree.layers k snapshot = readLayers s.tree.layers k snapshot := by
  have hkept := (hs.layersStep hage).kept (fun _ => hs.version_lt) hs.aged
    (hfree.mono hs.userKeys_subset) (by rw [hs.tracks.next]; omega) hspares
  have hnew := hs.step hage
  exact hkept.readLayers_eq hs.aged hnew.aged (fun _ => hs.sorted) (fun _ => hnew.sorted) k

def KeepsSnapshot (env : StorageEnv V) (snapshot : UInt64) (s : Sys V) (call : Call V) : Prop :=
  KeepsAge env s call ∧ ∀ job ∈ s.finishing call, Spares snapshot job

theorem Aged.readLayers_exec {calls : List (Call V)} (hs : Aged env s)
    (hsnap : snapshot.toNat ≤ s.tree.txnManager.visibleVersion)
    (hkeeps : Run.Along (Sys.step env) (KeepsSnapshot env snapshot) s calls)
    (hfree : PrefixFree (historyKeys (Run.exec (Sys.step env) s calls).history)) (k : Bytes) :
    Aged env (Run.exec (Sys.step env) s calls) ∧
      readLayers (Run.exec (Sys.step env) s calls).tree.layers k snapshot =
        readLayers s.tree.layers k snapshot := by
  induction calls generalizing s with
  | nil => exact ⟨hs, rfl⟩
  | cons call calls ih =>
    obtain ⟨⟨hage, hspares⟩, hrest⟩ := hkeeps
    have hnew := hs.step hage
    have hsub := historyKeys_subset_exec env s (call :: calls)
    obtain ⟨haged, hread⟩ := ih hnew (hsnap.trans (hs.visible_le call)) hrest hfree
    exact ⟨haged, hread.trans (hs.readLayers_step hage (hfree.mono hsub) hsnap hspares k)⟩

theorem Inv.getAt_eq_readLayers (hs : Inv env s) (hfree : PrefixFree (historyKeys s.history))
    (snapshot : UInt64) (k : Bytes) :
    s.tree.getAt env snapshot k = .ok (readLayers s.tree.layers k snapshot) :=
  LsmTree.getAt_eq hs.files (fun _ h => hfree.mono (hs.reflects.userKeys_subset h)) k snapshot

theorem Inv.mem_scanPrefixAt (hs : Inv env s) (hfree : PrefixFree (historyKeys s.history))
    (snapshot : UInt64) (pre k : Bytes) (value : V) :
    (k, value) ∈ s.tree.scanPrefixAt snapshot pre ↔
      pre <+: k ∧ readLayers s.tree.layers k snapshot = some value :=
  LsmTree.mem_scanPrefixAt_iff_readLayers hs.files
    fun _ h => hfree.mono (hs.reflects.userKeys_subset h)

/-- Whatever commits, flushes and compactions follow `read_snapshot`, reads at that version
return what they did, as long as no merge drops a live version the snapshot reads. -/
theorem snapshot_reads_repeatable (env : StorageEnv V) (c : SstCompression)
    (before after : List (Call V)) (s t : Sys V)
    (hs : Run.exec (Sys.step env) (Sys.new c) before = s) (ht : Run.exec (Sys.step env) s after = t)
    (hbefore : Run.Along (Sys.step env) (KeepsAge env) (Sys.new c) before)
    (hafter : Run.Along (Sys.step env)
      (KeepsSnapshot env (UInt64.ofNat s.tree.readSnapshot)) s after)
    (hfree : PrefixFree (historyKeys t.history)) :
    (∀ k, t.tree.getAt env (UInt64.ofNat s.tree.readSnapshot) k =
      s.tree.getAt env (UInt64.ofNat s.tree.readSnapshot) k) ∧
    ∀ pre, t.tree.scanPrefixAt (UInt64.ofNat s.tree.readSnapshot) pre =
      s.tree.scanPrefixAt (UInt64.ofNat s.tree.readSnapshot) pre := by
  have hstart : Aged env s := by
    rw [← hs]
    exact Run.exec_invariant (fun _ _ hs hcall => hs.step hcall) (aged_new c) hbefore
  have hsnap : (UInt64.ofNat s.tree.readSnapshot).toNat ≤ s.tree.txnManager.visibleVersion := by
    show (UInt64.ofNat s.tree.txnManager.visibleVersion).toNat ≤ _
    rw [toNat_ofNat_of_le hstart.tracks.fits64]
  have hread := fun k => hstart.readLayers_exec hsnap hafter (ht ▸ hfree) k
  rw [ht] at hread
  have hend : Aged env t := (hread []).1
  have hfree' : PrefixFree (historyKeys s.history) := by
    have hsub := historyKeys_subset_exec env s after
    rw [ht] at hsub
    exact hfree.mono hsub
  constructor
  · intro k
    rw [hend.getAt_eq_readLayers hfree, hstart.getAt_eq_readLayers hfree', (hread k).2]
  · intro pre
    apply SortedMap.entries_eq_of_mem_iff (sorted_mergeLayers _) (sorted_mergeLayers _)
    rintro ⟨k, value⟩
    exact (hend.mem_scanPrefixAt hfree _ pre k value).trans
      ((hread k).2 ▸ (hstart.mem_scanPrefixAt hfree' _ pre k value).symm)

omit [ByteLen V] in
theorem mergeSort_pair {a b : Entry V} (h : b.1 < a.1) :
    [a, b].mergeSort (fun x y => decide (x.1 ≤ y.1)) = [b, a] := by
  have hle : ¬ a.1 ≤ b.1 := not_le.mpr h
  simp [List.mergeSort, List.MergeSort.Internal.splitInTwo, hle]

def firstVersion : List (Call Bytes) :=
  [.begin, .commit ⟨0, [([107], some [1])], true⟩, .flush .done]

def overwritten : List (Call Bytes) :=
  [.begin, .commit ⟨1, [([107], some [2])], true⟩, .flush .done, .compactBegin]

theorem snapshot_version_merged_away : ¬ ∀ (env : StorageEnv Bytes) (c : SstCompression)
    (before after : List (Call Bytes)) (s t : Sys Bytes),
    Run.exec (Sys.step env) (Sys.new c) before = s → Run.exec (Sys.step env) s after = t →
    Run.Along (Sys.step env) (KeepsAge env) (Sys.new c) (before ++ after) →
    PrefixFree (historyKeys t.history) →
    (∀ k, t.tree.getAt env (UInt64.ofNat s.tree.readSnapshot) k =
      s.tree.getAt env (UInt64.ofNat s.tree.readSnapshot) k) ∧
    ∀ pre, t.tree.scanPrefixAt (UInt64.ofNat s.tree.readSnapshot) pre =
      s.tree.scanPrefixAt (UInt64.ofNat s.tree.readSnapshot) pre := by
  intro hall
  have hfits : ∀ es, (SstWriter.writeAll plainEnv .none es).Fits := nofun
  have hage : Run.Along (Sys.step plainEnv) (KeepsAge plainEnv) (Sys.new .none)
      (firstVersion ++ (overwritten ++ [.compactFinish .done])) :=
    ⟨trivial, trivial, ⟨nofun, hfits _⟩, trivial, trivial, ⟨nofun, hfits _⟩, trivial,
      fun _ _ => hfits _, trivial⟩
  have h := (hall plainEnv .none firstVersion (overwritten ++ [.compactFinish .done]) _ _ rfl rfl
    hage (prefixFree_of_length (n := 1) (by decide))).1 [107]
  have hlt : (⟨[107], 2⟩ : InternalKey) < ⟨[107], 1⟩ := by decide +kernel
  -- with no transaction open the floor is the largest version
  have hjob : (Run.exec (Sys.step plainEnv)
      (Run.exec (Sys.step plainEnv) (Sys.new .none) firstVersion) overwritten).job =
      some ⟨u64Max, [1, 2], [(⟨[107], 2⟩, some [2]), (⟨[107], 1⟩, some [1])]⟩ := by
    rw [← mergeSort_pair (a := (⟨[107], 1⟩, some [1])) (b := (⟨[107], 2⟩, some [2])) hlt]
    rfl
  rw [Run.exec_append, Run.exec_cons, step_compactFinish hjob] at h
  exact absurd h (by decide +kernel)

omit [ByteLen V] in
theorem spares_of_floor_zero (h : job.minSnapshot = 0) : Spares snapshot job := by
  intro e _ _ x _ _ hlt
  rw [UInt64.lt_iff_toNat_lt] at hlt
  omega

def held : Sys Bytes := Run.exec (Sys.step plainEnv) (Sys.new .none) (.begin :: firstVersion)

def heldMerged : Sys Bytes :=
  Run.exec (Sys.step plainEnv) held (overwritten ++ [.compactFinish .done])

theorem snapshot_reads_repeatable_held :
    (∀ k, heldMerged.tree.getAt plainEnv (UInt64.ofNat held.tree.readSnapshot) k =
      held.tree.getAt plainEnv (UInt64.ofNat held.tree.readSnapshot) k) ∧
    ∀ pre, heldMerged.tree.scanPrefixAt (UInt64.ofNat held.tree.readSnapshot) pre =
      held.tree.scanPrefixAt (UInt64.ofNat held.tree.readSnapshot) pre := by
  have hfits : ∀ es, (SstWriter.writeAll plainEnv .none es).Fits := nofun
  have hfloor : (Run.exec (Sys.step plainEnv) held overwritten).job.map
      CompactionJob.minSnapshot = some 0 := rfl
  have hspares : ∀ job ∈ (Run.exec (Sys.step plainEnv) held overwritten).job,
      Spares (UInt64.ofNat held.tree.readSnapshot) job := by
    intro job hjob
    rw [Option.mem_def.mp hjob] at hfloor
    exact spares_of_floor_zero (Option.some.inj hfloor)
  refine snapshot_reads_repeatable plainEnv .none (.begin :: firstVersion)
    (overwritten ++ [.compactFinish .done]) held heldMerged rfl rfl
    ⟨trivial, trivial, trivial, ⟨nofun, hfits _⟩, trivial⟩ ?_
    (prefixFree_of_length (n := 1) (by decide))
  rw [Run.along_append]
  refine ⟨⟨⟨trivial, nofun⟩, ⟨trivial, nofun⟩, ⟨⟨nofun, hfits _⟩, nofun⟩, ⟨trivial, nofun⟩, trivial⟩,
    ⟨fun _ _ => hfits _, hspares⟩, trivial⟩

end LsmRun

end RhypeDb.Storage
