import RhypeDb.Basic.Run
import RhypeDb.Server.Restore

/-! Sequences of boots, each cut anywhere, and the writes of the servers that run: the restore is
done once and for all, and an interrupted one is taken up again. -/

namespace RhypeDb.Server.Restore

open Authz (Json)
open Fallible FileOps List Run
open Bool hiding not_or or_false
open AList hiding mem_keys

structure Valid {F : Type} (serde : Serde F) (snapshot : Dir) (manifest : Json F) : Prop where
  passes : ∀ snapshotDir, validate serde snapshot snapshotDir = .ok manifest
  hnsw : ∀ name ∈ manifestStrs manifest "hnsw_files", isHnsw name = true

section

variable {dir : Dir} {name : String}

theorem mem_sstNames : name ∈ sstNames dir ↔ (dir.lookup (.sst name)).isSome := by
  unfold sstNames
  rw [AList.lookup_isSome, AList.mem_keys, mem_filterMap]
  constructor
  · rintro ⟨p, hp, heq⟩
    cases p with
    | sst name' =>
      cases heq
      exact hp
    | top name' => cases heq
  · exact fun h => ⟨.sst name, h, rfl⟩

theorem mem_topNames : name ∈ topNames dir ↔ (dir.lookup (.top name)).isSome := by
  unfold topNames
  rw [AList.lookup_isSome, AList.mem_keys, mem_filterMap]
  constructor
  · rintro ⟨p, hp, heq⟩
    cases p with
    | sst name' => cases heq
    | top name' =>
      cases heq
      exact hp
  · exact fun h => ⟨.top name, h, rfl⟩

theorem loadBearing_sentinel : LoadBearing sentinel = false := by decide

theorem loadBearing_inProgress : LoadBearing inProgress = false := by decide

theorem ne_of_loadBearing {p q : Path} (hp : LoadBearing p = true) (hq : LoadBearing q = false) :
    p ≠ q := by
  rintro rfl
  rw [hp] at hq
  cases hq

theorem lookup_of_empty (h : dataDirNonEmpty dir = false) {p : Path}
    (hp : LoadBearing p = true) : dir.lookup p = none := by
  unfold dataDirNonEmpty at h
  simp only [or_eq_false_iff, any_eq_false, not_eq_true] at h
  obtain ⟨⟨⟨hsst, hwal⟩, hschema⟩, hhnsw⟩ := h
  rw [Option.isSome_eq_false_iff, Option.isNone_iff_eq_none] at hwal hschema
  rw [Option.eq_none_iff_forall_ne_some]
  intro content hcontent
  have hsome := Option.isSome_of_eq_some hcontent
  cases p with
  | sst name =>
    have hno := hsst name (mem_sstNames.mpr hsome)
    exact Bool.noConfusion (hno.symm.trans hp)
  | top name =>
    unfold LoadBearing at hp
    simp only [or_eq_true, decide_eq_true_eq] at hp
    obtain (rfl | rfl) | hname := hp
    · cases hcontent.symm.trans hwal
    · cases hcontent.symm.trans hschema
    · have hno := hhnsw name (mem_topNames.mpr hsome)
      exact Bool.noConfusion (hno.symm.trans hname)

end

section

variable {F : Type} {serde : Serde F} {snapshot data d : Dir} {manifest : Json F}
  {listing : Listing} {p : Path} {name : String}

theorem Valid.present (h : Valid serde snapshot manifest) :
    (snapshot.lookup walLog).isSome ∧ (snapshot.lookup schemaFile).isSome := by
  have hpass := h.passes ""
  unfold validate at hpass
  simp only [bind_eq_ok, require_eq_ok] at hpass
  obtain ⟨text, -, manifest', -, -, -, -, hmissing, hmanifest⟩ := hpass
  cases hmanifest
  unfold backupMissingFiles at hmissing
  rw [append_eq_nil_iff, append_eq_nil_iff] at hmissing
  obtain ⟨⟨-, hwal⟩, hschema⟩ := hmissing
  split_ifs at hwal hschema with hno hno'
  rw [not_eq_true, Option.isNone_eq_false_iff] at hno hno'
  exact ⟨hno, hno'⟩

theorem restored_top (h : isHnsw name = true → name ∈ manifestStrs manifest "hnsw_files") :
    restored snapshot manifest (.top name) = snapshot.lookup (.top name) :=
  if_neg fun hno => hno.2 (h hno.1)

theorem restored_walLog : restored snapshot manifest walLog = snapshot.lookup walLog :=
  restored_top fun h => absurd h (by decide)

theorem restored_schemaFile : restored snapshot manifest schemaFile = snapshot.lookup schemaFile :=
  restored_top fun h => absurd h (by decide)

theorem loadBearing_hnsw (h : isHnsw name = true) :
    LoadBearing (.top name) = true := or_eq_true_iff.mpr (.inr h)

variable {op : Op Path Byte} {identity : Identity} {data' : Dir}

theorem mem_clearOps (h : op ∈ clearOps data listing) :
    ∃ p, op = .remove p ∧ p ≠ sentinel ∧ p ≠ inProgress := by
  unfold clearOps at h
  simp only [mem_append, mem_removes, mem_map, mem_singleton] at h
  obtain (⟨q, ⟨name, -, rfl⟩, rfl⟩ | ⟨q, rfl, rfl⟩) | ⟨q, ⟨name, hname, rfl⟩, rfl⟩ := h
  · exact ⟨_, rfl, Path.noConfusion, Path.noConfusion⟩
  · exact ⟨_, rfl, by decide, by decide⟩
  · have hhnsw := (mem_filter.mp ((listing.perm _).mem_iff.mp hname)).2
    refine ⟨_, rfl, ?_, ?_⟩
    · rintro heq
      cases heq
      revert hhnsw
      decide
    · rintro heq
      cases heq
      revert hhnsw
      decide

theorem mem_copyOps (h : Valid serde snapshot manifest)
    (hop : op ∈ copyOps snapshot manifest listing) :
    ∃ p content, op = .write p content ∧ LoadBearing p = true ∧
      restored snapshot manifest p = some content := by
  unfold copyOps at hop
  simp only [mem_append, mem_copies, mem_map, mem_cons, not_mem_nil,
    or_false] at hop
  obtain (⟨q, ⟨name, hname, rfl⟩, content, hcontent, rfl⟩ | ⟨q, hq, content, hcontent, rfl⟩) |
    ⟨q, ⟨name, hname, rfl⟩, content, hcontent, rfl⟩ := hop
  · have hsst := (mem_filter.mp ((listing.perm _).mem_iff.mp hname)).2
    exact ⟨_, content, rfl, hsst, hcontent⟩
  · obtain rfl | rfl := hq
    · exact ⟨_, content, rfl, by decide, restored_walLog.trans hcontent⟩
    · exact ⟨_, content, rfl, by decide, restored_schemaFile.trans hcontent⟩
  · have hlisted := (mem_filter.mp hname).1
    have hhnsw := loadBearing_hnsw (h.hnsw name hlisted)
    exact ⟨_, content, rfl, hhnsw, (restored_top fun _ => hlisted).trans hcontent⟩

theorem lookup_run_clearOps (hsame : d.lookup p = data.lookup p) (hp : LoadBearing p = true)
    (hne : p ≠ schemaFile) : (run (clearOps data listing) d).lookup p = none := by
  unfold clearOps
  rw [run_append, run_append, lookup_run_removes, lookup_run_removes, lookup_run_removes]
  split_ifs with hhnsw hwal hsst
  · rfl
  · rfl
  · rfl
  · rw [hsame, Option.eq_none_iff_forall_ne_some]
    intro content hcontent
    have hsome := Option.isSome_of_eq_some hcontent
    cases p with
    | sst name =>
      refine hsst (mem_map_of_mem ((listing.perm _).mem_iff.mpr ?_))
      exact mem_sstNames.mpr hsome
    | top name =>
      unfold LoadBearing at hp
      simp only [or_eq_true, decide_eq_true_eq] at hp
      obtain (rfl | rfl) | hname := hp
      · exact hwal (mem_singleton_self _)
      · exact hne rfl
      · refine hhnsw (mem_map_of_mem ((listing.perm _).mem_iff.mpr ?_))
        exact mem_filter.mpr ⟨mem_topNames.mpr hsome, hname⟩

theorem lookup_run_copyOps (h : Valid serde snapshot manifest)
    (hgone : p ≠ schemaFile → d.lookup p = none) (hp : LoadBearing p = true) :
    (run (copyOps snapshot manifest listing) d).lookup p = restored snapshot manifest p := by
  unfold copyOps
  rw [run_append, run_append]
  obtain ⟨hwal, hschema⟩ := h.present
  cases p with
  | sst name =>
    have hcopied : Path.sst name ∈ (listing.order ((sstNames snapshot).filter isSst)).map .sst ↔
        (snapshot.lookup (.sst name)).isSome := by
      rw [mem_map_of_injective fun _ _ => Path.sst.inj, (listing.perm _).mem_iff,
        mem_filter, mem_sstNames, and_iff_left (show isSst name = true from hp)]
    rw [lookup_run_copies, lookup_run_copies, lookup_run_copies, if_neg (by simp),
      if_neg (by simp [walLog, schemaFile]), hgone Path.noConfusion, Option.or_none]
    split_ifs with hmem
    · rfl
    · rw [hcopied, Option.not_isSome_iff_eq_none] at hmem
      exact hmem.symm
  | top name =>
    unfold LoadBearing at hp
    simp only [or_eq_true, decide_eq_true_eq] at hp
    obtain (rfl | rfl) | hname := hp
    · have hcopied : ∀ d' : Dir, (run (copies snapshot [walLog, schemaFile]) d').lookup walLog =
          snapshot.lookup walLog :=
        fun d' => lookup_run_copies_of_mem mem_cons_self hwal
      exact (lookup_run_copies_of_eq (hcopied _)).trans restored_walLog.symm
    · have hcopied : ∀ d' : Dir, (run (copies snapshot [walLog, schemaFile]) d').lookup schemaFile =
          snapshot.lookup schemaFile :=
        fun d' => lookup_run_copies_of_mem (mem_cons_of_mem _ mem_cons_self) hschema
      exact (lookup_run_copies_of_eq (hcopied _)).trans restored_schemaFile.symm
    · have hother : Path.top name ∉ [walLog, schemaFile] := by
        intro hmem
        simp only [mem_cons, not_mem_nil, or_false] at hmem
        obtain heq | heq := hmem
        · cases heq
          exact absurd hname (by decide)
        · cases heq
          exact absurd hname (by decide)
      have hne : Path.top name ≠ schemaFile := by
        rintro heq
        exact hother (heq ▸ mem_cons_of_mem _ mem_cons_self)
      rw [lookup_run_copies, lookup_run_copies, lookup_run_copies, if_neg (by simp : Path.top name ∉
        (listing.order ((sstNames snapshot).filter isSst)).map Path.sst), if_neg hother, hgone hne,
        Option.or_none]
      have hcopied : Path.top name ∈ (hnswListed snapshot manifest).map .top ↔
          name ∈ manifestStrs manifest "hnsw_files" ∧ (snapshot.lookup (.top name)).isSome := by
        rw [mem_map_of_injective fun _ _ => Path.top.inj]
        exact mem_filter
      by_cases hlisted : name ∈ manifestStrs manifest "hnsw_files"
      · rw [restored_top fun _ => hlisted]
        split_ifs with hmem
        · rfl
        · rw [hcopied, and_iff_right hlisted, Option.not_isSome_iff_eq_none] at hmem
          exact hmem.symm
      · rw [if_neg fun hmem => hlisted (hcopied.mp hmem).1]
        exact (if_pos ⟨hname, hlisted⟩).symm

theorem isRestored_run_restoreOps (h : Valid serde snapshot manifest) (data : Dir)
    (listing : Listing) :
    IsRestored snapshot manifest (run (restoreOps serde snapshot data manifest listing) data) := by
  intro p hp
  unfold restoreOps
  rw [run_append, run_append]
  refine lookup_run_copyOps h (fun hne => lookup_run_clearOps ?_ hp hne) hp
  refine lookup_run_of_not_mem fun op hop => ?_
  obtain rfl | hop := mem_cons.mp hop
  · exact ne_of_loadBearing hp loadBearing_inProgress
  · rw [mem_singleton.mp hop]
    exact ne_of_loadBearing hp loadBearing_sentinel

theorem IsRestored.of_lookup {data : Dir} (h : IsRestored snapshot manifest data)
    (hsame : ∀ p, LoadBearing p = true → data'.lookup p = data.lookup p) :
    IsRestored snapshot manifest data' := fun p hp => (hsame p hp).trans (h p hp)

theorem OwnPartial.erase (h : OwnPartial snapshot manifest d) (p : Path) :
    OwnPartial snapshot manifest (d.erase p) := by
  intro q content hq hcontent
  by_cases hqp : q = p
  · subst hqp
    rw [lookup_erase] at hcontent
    cases hcontent
  · rw [lookup_erase_ne hqp] at hcontent
    exact h q content hq hcontent

theorem OwnPartial.insert (h : OwnPartial snapshot manifest d) {content : Bytes}
    (hpart : LoadBearing p = true → ∃ whole, restored snapshot manifest p = some whole ∧
      content <+: whole) : OwnPartial snapshot manifest (d.insert p content) := by
  intro q content' hq hcontent
  by_cases hqp : q = p
  · subst hqp
    rw [lookup_insert] at hcontent
    cases hcontent
    exact hpart hq
  · rw [lookup_insert_ne hqp] at hcontent
    exact h q content' hq hcontent

theorem mem_restoreOps (h : Valid serde snapshot manifest)
    (hop : op ∈ restoreOps serde snapshot data manifest listing) :
    (∃ content, op = .write inProgress content) ∨ (∃ p, op = .remove p ∧ p ≠ inProgress) ∨
      ∃ p content, op = .write p content ∧ LoadBearing p = true ∧
        restored snapshot manifest p = some content := by
  unfold restoreOps at hop
  rw [mem_append, mem_append] at hop
  obtain (hop | hop) | hop := hop
  · obtain rfl | hop := mem_cons.mp hop
    · exact .inl ⟨_, rfl⟩
    · rw [mem_singleton.mp hop]
      exact .inr (.inl ⟨sentinel, rfl, by decide⟩)
  · obtain ⟨p, rfl, -, hp⟩ := mem_clearOps hop
    exact .inr (.inl ⟨p, rfl, hp⟩)
  · exact .inr (.inr (mem_copyOps h hop))

theorem OwnPartial.restoreOp (h : Valid serde snapshot manifest)
    (hop : op ∈ restoreOps serde snapshot data manifest listing)
    (hown : OwnPartial snapshot manifest d) :
    OwnPartial snapshot manifest (op.apply d) ∧
      ∀ n, OwnPartial snapshot manifest (op.applyCut n d) := by
  have hmarker : LoadBearing inProgress ≠ true := by decide
  obtain ⟨content, rfl⟩ | ⟨p, rfl, -⟩ | ⟨p, content, rfl, -, hcontent⟩ := mem_restoreOps h hop
  · constructor
    · exact hown.insert fun hp => absurd hp hmarker
    · exact fun n => hown.insert fun hp => absurd hp hmarker
  · exact ⟨hown.erase p, fun _ => hown⟩
  · constructor
    · exact hown.insert fun _ => ⟨content, hcontent, prefix_rfl⟩
    · exact fun n => hown.insert fun _ => ⟨content, hcontent, take_prefix n content⟩

theorem restoreOp_alreadyRestored (h : Valid serde snapshot manifest)
    (hop : op ∈ restoreOps serde snapshot data manifest listing)
    (hnot : alreadyRestored serde d identity = false) :
    alreadyRestored serde (op.apply d) identity = false ∧
      ∀ n, alreadyRestored serde (op.applyCut n d) identity = false := by
  have hsame : ∀ d' : Dir, d'.lookup sentinel = d.lookup sentinel →
      alreadyRestored serde d' identity = false := by
    intro d' heq
    unfold alreadyRestored at hnot ⊢
    rw [heq]
    exact hnot
  have hmarker : sentinel ≠ inProgress := by decide
  obtain ⟨content, rfl⟩ | ⟨p, rfl, -⟩ | ⟨p, content, rfl, hp, -⟩ := mem_restoreOps h hop
  · constructor
    · exact hsame _ (lookup_insert_ne hmarker)
    · exact fun n => hsame _ (lookup_insert_ne hmarker)
  · refine ⟨?_, fun _ => hnot⟩
    by_cases hps : sentinel = p
    · subst hps
      unfold alreadyRestored Op.apply
      rw [lookup_erase]
      rfl
    · exact hsame _ (lookup_erase_ne hps)
  · have hne := (ne_of_loadBearing hp loadBearing_sentinel).symm
    constructor
    · exact hsame _ (lookup_insert_ne hne)
    · exact fun n => hsame _ (lookup_insert_ne hne)

theorem alreadyRestored_erase_of_ne (h : p ≠ sentinel) :
    alreadyRestored serde (d.erase p) identity = alreadyRestored serde d identity := by
  unfold alreadyRestored
  rw [lookup_erase_ne h.symm]

theorem cut_spec (h : Valid serde snapshot manifest)
    (hnot : alreadyRestored serde data (snapshotIdentity serde manifest) = false) {k n : Nat}
    (hcut : runCut (restoreOps serde snapshot data manifest listing ++
      [.write sentinel (serde.identityText (snapshotIdentity serde manifest)),
        .remove inProgress]) k n data = data') :
    (alreadyRestored serde data' (snapshotIdentity serde manifest) = true →
      IsRestored snapshot manifest data') ∧
    (OwnPartial snapshot manifest data → OwnPartial snapshot manifest data') := by
  have hrestored := isRestored_run_restoreOps h data listing
  have hsentinel : ∀ (d : Dir) content, IsRestored snapshot manifest d →
      IsRestored snapshot manifest (d.insert sentinel content) := fun d content hd =>
    hd.of_lookup fun p hp => lookup_insert_ne (ne_of_loadBearing hp loadBearing_sentinel)
  have hpartial : ∀ d : Dir, IsRestored snapshot manifest d → OwnPartial snapshot manifest d := by
    intro d hd p content hp hcontent
    exact ⟨content, (hd p hp).symm.trans hcontent, prefix_rfl⟩
  by_cases hk : k < (restoreOps serde snapshot data manifest listing).length
  · rw [runCut_append_left hk] at hcut
    subst hcut
    constructor
    · intro hdone
      have hundone : alreadyRestored serde
          (runCut (restoreOps serde snapshot data manifest listing) k n data)
          (snapshotIdentity serde manifest) = false :=
        runCut_induct (I := fun d => alreadyRestored serde d _ = false)
          (fun op hop d hd => (restoreOp_alreadyRestored h hop hd).1)
          (fun op hop n d hd => (restoreOp_alreadyRestored h hop hd).2 n) hnot k n
      cases hundone.symm.trans hdone
    · exact fun hown => runCut_induct (I := fun d => OwnPartial snapshot manifest d)
        (fun op hop d hd => (OwnPartial.restoreOp h hop hd).1)
        (fun op hop n d hd => (OwnPartial.restoreOp h hop hd).2 n) hown k n
  · -- the phase is over: the sentinel is being written, or is there
    obtain ⟨j, rfl⟩ := Nat.exists_eq_add_of_le (Nat.le_of_not_lt hk)
    rw [runCut_append_right] at hcut
    have hdone : IsRestored snapshot manifest data' := by
      subst hcut
      cases j with
      | zero => exact hsentinel _ _ hrestored
      | succ j =>
        cases j with
        | zero => exact hsentinel _ _ hrestored
        | succ j =>
          have hwritten := hsentinel _ (serde.identityText (snapshotIdentity serde manifest))
            hrestored
          refine hwritten.of_lookup fun p hp => ?_
          exact lookup_erase_ne (ne_of_loadBearing hp loadBearing_inProgress)
    exact ⟨fun _ => hdone, fun _ => hpartial data' hdone⟩

theorem run_spec (h : Valid serde snapshot manifest)
    (hread : serde.readIdentity (serde.identityText (snapshotIdentity serde manifest)) =
      some (snapshotIdentity serde manifest))
    (hrun : run (restoreOps serde snapshot data manifest listing ++
      [.write sentinel (serde.identityText (snapshotIdentity serde manifest)),
        .remove inProgress]) data = data') :
    IsRestored snapshot manifest data' ∧
      alreadyRestored serde data' (snapshotIdentity serde manifest) = true ∧
      data'.lookup inProgress = none := by
  rw [run_append] at hrun
  subst hrun
  refine ⟨?_, ?_, lookup_erase _ _⟩
  · refine (isRestored_run_restoreOps h data listing).of_lookup fun p hp => ?_
    refine (lookup_erase_ne (ne_of_loadBearing hp loadBearing_inProgress)).trans ?_
    exact lookup_insert_ne (ne_of_loadBearing hp loadBearing_sentinel)
  · unfold alreadyRestored
    rw [decide_eq_true_eq]
    change (AList.lookup sentinel (AList.erase inProgress (AList.insert sentinel _ _))).bind _ = _
    exact hread

variable {b : Boot}

theorem restoreFromSnapshot_ok (h : Valid serde snapshot manifest)
    {ops : List (Op Path Byte)} {report : RestoreReport}
    (hok : restoreFromSnapshot serde snapshot data b = .ok (ops, report)) :
    (report.skipped = true ∧ ops = [.remove inProgress] ∧
      alreadyRestored serde data (snapshotIdentity serde manifest) = true) ∨
    (report.skipped = false ∧
      ops = restoreOps serde snapshot data manifest b.listing ++
        [.write sentinel (serde.identityText (snapshotIdentity serde manifest)),
          .remove inProgress] ∧
      alreadyRestored serde data (snapshotIdentity serde manifest) = false ∧
      (dataDirNonEmpty data = false ∨ b.force = true ∨
        markerIdentity serde data = some (snapshotIdentity serde manifest))) := by
  unfold restoreFromSnapshot at hok
  rw [h.passes, bind_eq_ok] at hok
  obtain ⟨manifest', hmanifest, hok⟩ := hok
  cases hmanifest
  simp only [bind_eq_ok, require_eq_ok] at hok
  obtain ⟨-, -, -, -, hok⟩ := hok
  split_ifs at hok with hdone
  · cases hok
    exact .inl ⟨rfl, rfl, hdone⟩
  · rw [bind_eq_ok] at hok
    obtain ⟨_, hgate, hok⟩ := hok
    rw [require_eq_ok] at hgate
    cases hok
    refine .inr ⟨rfl, rfl, eq_false_of_ne_true hdone, ?_⟩
    by_contra hno
    simp only [not_or, not_eq_false, not_eq_true] at hno
    exact hgate ⟨hno.1, hno.2.1, decide_eq_false hno.2.2⟩

theorem boot_cases (h : Valid serde snapshot manifest)
    (hread : serde.readIdentity (serde.identityText (snapshotIdentity serde manifest)) =
      some (snapshotIdentity serde manifest)) {data' : Dir} {outcome : Outcome}
    (hboot : boot serde snapshot data b = (data', outcome)) :
    (∃ message, outcome = .refused message ∧ data' = data) ∨
    (alreadyRestored serde data (snapshotIdentity serde manifest) = true ∧
      (data' = data ∧ outcome = .cut ∨
        data' = data.erase inProgress ∧ outcome.isReturned = true)) ∨
    (alreadyRestored serde data (snapshotIdentity serde manifest) = false ∧
      (dataDirNonEmpty data = false ∨ b.force = true ∨
        markerIdentity serde data = some (snapshotIdentity serde manifest)) ∧
      ((outcome.isReturned = true ∧ IsRestored snapshot manifest data' ∧
        alreadyRestored serde data' (snapshotIdentity serde manifest) = true ∧
        data'.lookup inProgress = none) ∨
      (outcome = .cut ∧
        (alreadyRestored serde data' (snapshotIdentity serde manifest) = true →
          IsRestored snapshot manifest data') ∧
        (OwnPartial snapshot manifest data → OwnPartial snapshot manifest data')))) := by
  unfold boot at hboot
  cases hok : restoreFromSnapshot serde snapshot data b with
  | error message =>
    rw [hok] at hboot
    cases hboot
    exact .inl ⟨message, rfl, rfl⟩
  | ok planned =>
    obtain ⟨ops, report⟩ := planned
    rw [hok] at hboot
    obtain ⟨-, rfl, hdone⟩ | ⟨-, hops, hnot, hgate⟩ := restoreFromSnapshot_ok h hok
    · refine .inr (.inl ⟨hdone, ?_⟩)
      cases hcut : b.cut with
      | none =>
        rw [hcut] at hboot
        cases hboot
        exact .inr ⟨rfl, rfl⟩
      | some at' =>
        obtain ⟨k, n⟩ := at'
        rw [hcut] at hboot
        dsimp only at hboot
        split_ifs at hboot with hk
        · cases hboot
          obtain rfl : k = 0 := Nat.lt_one_iff.mp hk
          exact .inl ⟨rfl, rfl⟩
        · cases hboot
          exact .inr ⟨rfl, rfl⟩
    · refine .inr (.inr ⟨hnot, hgate, ?_⟩)
      cases hcut : b.cut with
      | none =>
        rw [hcut] at hboot
        cases hboot
        exact .inl ⟨rfl, run_spec h hread (congrArg (run · data) hops.symm)⟩
      | some at' =>
        obtain ⟨k, n⟩ := at'
        rw [hcut] at hboot
        dsimp only at hboot
        split_ifs at hboot with hk
        · cases hboot
          exact .inr ⟨rfl, cut_spec h hnot (congrArg (runCut · k n data) hops.symm)⟩
        · cases hboot
          exact .inl ⟨rfl, run_spec h hread (congrArg (run · data) hops.symm)⟩

end

variable {F : Type} {serde : Serde F} {snapshot data₀ : Dir} {manifest : Json F} {m m' : Machine}

structure Inv (serde : Serde F) (snapshot data₀ : Dir) (manifest : Json F) (m : Machine) :
    Prop where
  unreturned : ¬ m.HasReturned →
    alreadyRestored serde m.data (snapshotIdentity serde manifest) = true →
    alreadyRestored serde data₀ (snapshotIdentity serde manifest) = true ∨
      IsRestored snapshot manifest m.data
  returned : m.HasReturned →
    alreadyRestored serde m.data (snapshotIdentity serde manifest) = true ∧
      m.data.lookup inProgress = none
  initial : alreadyRestored serde data₀ (snapshotIdentity serde manifest) = true →
    alreadyRestored serde m.data (snapshotIdentity serde manifest) = true
  owned : alreadyRestored serde m.data (snapshotIdentity serde manifest) = false →
    markerIdentity serde m.data = some (snapshotIdentity serde manifest) →
    markerIdentity serde data₀ = some (snapshotIdentity serde manifest) ∨
      OwnPartial snapshot manifest m.data ∨ m.ForcedCut
  serving : m.serving = true → m.HasReturned

theorem inv_init : Inv serde snapshot data₀ manifest (.init data₀) := by
  have hnone : ¬ (Machine.init data₀).HasReturned := by
    rintro ⟨e, he, -⟩
    exact absurd he not_mem_nil
  constructor
  · exact fun _ hdone => .inl hdone
  · exact fun h => absurd h hnone
  · exact id
  · exact fun _ hmarker => .inl hmarker
  · exact fun h => Bool.noConfusion h

theorem OwnPartial.of_empty {data : Dir} (h : dataDirNonEmpty data = false) :
    OwnPartial snapshot manifest data := by
  intro p content hp hcontent
  cases (lookup_of_empty h hp).symm.trans hcontent

theorem Inv.gate (h : Inv serde snapshot data₀ manifest m)
    (hmarker₀ : markerIdentity serde data₀ ≠ some (snapshotIdentity serde manifest))
    (hnot : alreadyRestored serde m.data (snapshotIdentity serde manifest) = false)
    (hgate : dataDirNonEmpty m.data = false ∨
      markerIdentity serde m.data = some (snapshotIdentity serde manifest)) :
    OwnPartial snapshot manifest m.data ∨ m.ForcedCut := by
  obtain hempty | hmarker := hgate
  · exact .inl (.of_empty hempty)
  · exact (h.owned hnot hmarker).resolve_left hmarker₀

theorem Inv.live (h : Inv serde snapshot data₀ manifest m) (op : Op Path Byte) :
    Inv serde snapshot data₀ manifest (step serde snapshot m (.live op)) := by
  unfold step
  dsimp only
  split_ifs with hallowed
  · obtain ⟨hserving, hsentinel, hmarker⟩ := hallowed
    have hreturned := h.serving hserving
    obtain ⟨hdone, hnone⟩ := h.returned hreturned
    have hdone' : alreadyRestored serde (op.apply m.data) (snapshotIdentity serde manifest) =
        true := by
      unfold alreadyRestored
      rw [lookup_apply_of_ne hsentinel.symm]
      exact hdone
    constructor
    · exact fun hno => absurd hreturned hno
    · exact fun _ => ⟨hdone', (lookup_apply_of_ne hmarker.symm).trans hnone⟩
    · exact fun _ => hdone'
    · exact fun hnot => Bool.noConfusion (hdone'.symm.trans hnot)
    · exact fun _ => hreturned
  · exact h

section

variable {b : Boot} {d' : Dir} {outcome : Outcome} {serving : Bool}

theorem hasReturned_snoc :
    Machine.HasReturned ⟨d', serving, m.boots ++ [⟨b, m.data, outcome⟩]⟩ ↔
      m.HasReturned ∨ outcome.isReturned = true := by
  unfold Machine.HasReturned
  simp only [mem_append, mem_singleton, or_and_right, exists_or, exists_eq_left]

theorem forcedCut_snoc :
    Machine.ForcedCut ⟨d', serving, m.boots ++ [⟨b, m.data, outcome⟩]⟩ ↔
      m.ForcedCut ∨ (b.force = true ∧ dataDirNonEmpty m.data = true ∧ outcome = .cut) := by
  unfold Machine.ForcedCut
  simp only [mem_append, mem_singleton, or_and_right, exists_or, exists_eq_left]

theorem Inv.same (h : Inv serde snapshot data₀ manifest m) (hnot : outcome.isReturned = false) :
    Inv serde snapshot data₀ manifest
      ⟨m.data, outcome.isReturned, m.boots ++ [⟨b, m.data, outcome⟩]⟩ := by
  have hreturned : ∀ {serving : Bool},
      Machine.HasReturned ⟨m.data, serving, m.boots ++ [⟨b, m.data, outcome⟩]⟩ ↔ m.HasReturned := by
    intro serving
    rw [hasReturned_snoc, hnot]
    exact or_iff_left false_ne_true
  constructor
  · rw [hreturned]
    exact h.unreturned
  · rw [hreturned]
    exact h.returned
  · exact h.initial
  · intro hundone hmarker
    refine (h.owned hundone hmarker).imp_right (Or.imp_right fun hforced => ?_)
    exact forcedCut_snoc.mpr (.inl hforced)
  · exact fun hserving => absurd (hserving.symm.trans hnot) (by decide)

theorem Inv.of_returned (hreturned : outcome.isReturned = true)
    (hdone : alreadyRestored serde d' (snapshotIdentity serde manifest) = true)
    (hmarker : d'.lookup inProgress = none) :
    Inv serde snapshot data₀ manifest
      ⟨d', outcome.isReturned, m.boots ++ [⟨b, m.data, outcome⟩]⟩ := by
  have hhas : ∀ {serving : Bool},
      Machine.HasReturned ⟨d', serving, m.boots ++ [⟨b, m.data, outcome⟩]⟩ :=
    hasReturned_snoc.mpr (.inr hreturned)
  constructor
  · exact fun hno => absurd hhas hno
  · exact fun _ => ⟨hdone, hmarker⟩
  · exact fun _ => hdone
  · exact fun hnot => Bool.noConfusion (hdone.symm.trans hnot)
  · exact fun _ => hhas

theorem Inv.boot (h : Inv serde snapshot data₀ manifest m) (hvalid : Valid serde snapshot manifest)
    (hread : serde.readIdentity (serde.identityText (snapshotIdentity serde manifest)) =
      some (snapshotIdentity serde manifest))
    (hboot : Restore.boot serde snapshot m.data b = (d', outcome)) :
    Inv serde snapshot data₀ manifest
      ⟨d', outcome.isReturned, m.boots ++ [⟨b, m.data, outcome⟩]⟩ := by
  obtain ⟨message, rfl, rfl⟩ | ⟨hdone, ⟨rfl, rfl⟩ | ⟨rfl, hreturned⟩⟩ |
    ⟨hnot, hgate, ⟨hreturned, -, hdone, hmarker⟩ | ⟨rfl, hrestored, hown⟩⟩ :=
      boot_cases hvalid hread hboot
  · exact h.same rfl
  · exact h.same rfl
  · refine .of_returned hreturned ?_ (lookup_erase _ _)
    rw [alreadyRestored_erase_of_ne (by decide)]
    exact hdone
  · exact .of_returned hreturned hdone hmarker
  · -- the restore is cut, so no boot has returned
    have hnone : ¬ m.HasReturned := fun hhas =>
      Bool.noConfusion (hnot.symm.trans (h.returned hhas).1)
    have hhas : ∀ {serving : Bool},
        ¬ Machine.HasReturned ⟨d', serving, m.boots ++ [⟨b, m.data, .cut⟩]⟩ := by
      intro serving
      rw [hasReturned_snoc]
      exact not_or_intro hnone false_ne_true
    constructor
    · exact fun _ hdone => .inr (hrestored hdone)
    · exact fun h => absurd h hhas
    · exact fun hinitial => Bool.noConfusion (hnot.symm.trans (h.initial hinitial))
    · intro _ _
      by_cases hmarker₀ : markerIdentity serde data₀ = some (snapshotIdentity serde manifest)
      · exact .inl hmarker₀
      · right
        by_cases hforced : b.force = true ∧ dataDirNonEmpty m.data = true
        · exact .inr (forcedCut_snoc.mpr (.inr ⟨hforced.1, hforced.2, rfl⟩))
        · have hfound : dataDirNonEmpty m.data = false ∨
              markerIdentity serde m.data = some (snapshotIdentity serde manifest) := by
            obtain hempty | hforce | hmarker := hgate
            · exact .inl hempty
            · exact .inl (eq_false_iff.mpr fun hfull => hforced ⟨hforce, hfull⟩)
            · exact .inr hmarker
          refine (h.gate hmarker₀ hnot hfound).imp hown fun hcut => ?_
          exact forcedCut_snoc.mpr (.inl hcut)
    · exact fun hserving => Bool.noConfusion hserving

end

theorem inv_exec (hvalid : Valid serde snapshot manifest)
    (hread : serde.readIdentity (serde.identityText (snapshotIdentity serde manifest)) =
      some (snapshotIdentity serde manifest)) (data₀ : Dir) (steps : List Step) :
    Inv serde snapshot data₀ manifest (exec (step serde snapshot) (.init data₀) steps) := by
  refine exec_invariant (C := fun _ _ => True) (I := Inv serde snapshot data₀ manifest) ?_
    inv_init (along_of_forall fun _ _ => trivial)
  intro m s h _
  cases s with
  | boot b => exact h.boot hvalid hread rfl
  | live op => exact h.live op

/-- Boots from one snapshot, each cut anywhere: the first that returns leaves what a server loads
as the snapshot has it, unless the directory came with its sentinel, and then no boot changes that;
the later ones leave everything as it is, and so does one that is refused; and one without force
restores over an interrupted restore of its own only, or what a forced boot was let clear. -/
theorem restore_on_boot (hvalid : Valid serde snapshot manifest)
    (hread : serde.readIdentity (serde.identityText (snapshotIdentity serde manifest)) =
      some (snapshotIdentity serde manifest)) (data₀ : Dir) (steps : List Step)
    (hm : exec (step serde snapshot) (.init data₀) steps = m) (b : Boot) {d' : Dir}
    {outcome : Outcome} (hboot : boot serde snapshot m.data b = (d', outcome)) :
    (¬ m.HasReturned → outcome.isReturned = true →
      alreadyRestored serde data₀ (snapshotIdentity serde manifest) = false →
      IsRestored snapshot manifest d') ∧
    (alreadyRestored serde data₀ (snapshotIdentity serde manifest) = true →
      ∀ p, LoadBearing p = true → d'.lookup p = m.data.lookup p) ∧
    (m.HasReturned → d' = m.data) ∧
    (∀ message, outcome = .refused message → d' = m.data) ∧
    (markerIdentity serde data₀ ≠ some (snapshotIdentity serde manifest) →
      ∀ ops report, restoreFromSnapshot serde snapshot m.data b = .ok (ops, report) →
        report.skipped = false → b.force = false →
        OwnPartial snapshot manifest m.data ∨ m.ForcedCut) := by
  have hinv := inv_exec hvalid hread data₀ steps
  rw [hm] at hinv
  have herase : ∀ p, LoadBearing p = true → (m.data.erase inProgress).lookup p = m.data.lookup p :=
    fun p hp => lookup_erase_ne (ne_of_loadBearing hp loadBearing_inProgress)
  have hcases := boot_cases hvalid hread hboot
  refine ⟨?_, ?_, ?_, ?_, ?_⟩
  · intro hnone hreturned hinitial
    obtain ⟨message, rfl, -⟩ | ⟨hdone, ⟨-, rfl⟩ | ⟨rfl, -⟩⟩ |
      ⟨-, -, ⟨-, hrestored, -, -⟩ | ⟨rfl, -, -⟩⟩ := hcases
    · cases hreturned
    · cases hreturned
    · obtain hbefore | hrestored := hinv.unreturned hnone hdone
      · cases hinitial.symm.trans hbefore
      · exact hrestored.of_lookup herase
    · exact hrestored
    · cases hreturned
  · intro hinitial
    obtain ⟨message, -, rfl⟩ | ⟨-, ⟨rfl, -⟩ | ⟨rfl, -⟩⟩ | ⟨hnot, -⟩ := hcases
    · exact fun _ _ => rfl
    · exact fun _ _ => rfl
    · exact herase
    · cases hnot.symm.trans (hinv.initial hinitial)
  · intro hhas
    obtain ⟨hdone, hmarker⟩ := hinv.returned hhas
    obtain ⟨message, -, rfl⟩ | ⟨-, ⟨rfl, -⟩ | ⟨rfl, -⟩⟩ | ⟨hnot, -⟩ := hcases
    · rfl
    · rfl
    · refine AList.ext (kerase_of_notMem_keys ?_)
      exact lookup_eq_none.mp hmarker
    · cases hnot.symm.trans hdone
  · rintro message rfl
    obtain ⟨message', -, rfl⟩ | ⟨-, ⟨-, hcut⟩ | ⟨-, hreturned⟩⟩ |
      ⟨-, -, ⟨hreturned, -⟩ | ⟨hcut, -⟩⟩ := hcases
    · rfl
    · cases hcut
    · cases hreturned
    · cases hreturned
    · cases hcut
  · intro hmarker₀ ops report hok hskipped hforce
    obtain ⟨hskip, -⟩ | ⟨-, -, hnot, hgate⟩ := restoreFromSnapshot_ok hvalid hok
    · cases hskipped.symm.trans hskip
    · refine hinv.gate hmarker₀ hnot (hgate.imp_right fun h => ?_)
      exact h.resolve_left fun hforced => Bool.noConfusion (hforce.symm.trans hforced)

def ascii (s : String) : Bytes := s.toList.map fun c => Fin.ofNat 256 c.toNat

def backupIdentityText : Bytes := ascii "\x7b\"created_at_ms\":111,\"max_version\":5\x7d"

def backupText : Bytes :=
  ascii "\x7b\"created_at_ms\":111,\"max_version\":5,\"ssts\":[\"1.sst\"]\x7d"

def backupManifest : Json Nat :=
  .object [("created_at_ms", .number 111), ("max_version", .number 5),
    ("ssts", .array [.string "1.sst"])]

def backupSerde : Serde Nat where
  fromStr := fun text =>
    if text = backupText then .ok backupManifest else .error "expected value at line 1 column 1"
  asU64 := some
  identityText := fun _ => backupIdentityText
  readIdentity := fun text => if text = backupIdentityText then some ⟨111, 5⟩ else none

def backup : Dir :=
  (((∅ : Dir).insert manifestFile backupText).insert walLog [7]).insert schemaFile [8] |>.insert
    (.sst "1.sst") [1, 2, 3]

def wake (force : Bool) (cut : Option (Nat × Nat)) : Boot where
  force
  snapshotDir := "/backup"
  dataDir := "/data"
  inside := false
  locked := none
  listing := ⟨id, fun _ => .refl _⟩
  cut

theorem valid_backup : Valid backupSerde backup backupManifest := by
  refine ⟨fun snapshotDir => ?_, ?_⟩
  · have hparsed : backupSerde.fromStr backupText = .ok backupManifest := by
      unfold backupSerde
      dsimp only
      exact if_pos rfl
    have hnames : (manifestStrs backupManifest "ssts" ++
        manifestStrs backupManifest "hnsw_files").find? (fun name => !isSafeFilename name) =
        none := by decide +kernel
    have hmissing : backupMissingFiles backup backupManifest = [] := by decide +kernel
    unfold validate
    simp only [bind_eq_ok, require_eq_ok]
    refine ⟨backupText, ?_, backupManifest, ?_, (), ?_, (), hmissing, rfl⟩
    · rfl
    · rfl
    · rfl
  · intro name hname
    cases hname

/-- A boot cut in the middle of a table, and one that takes the restore up again. -/
theorem restore_on_boot_resumed : IsRestored backup backupManifest
    (boot backupSerde backup (exec (step backupSerde backup) (.init ∅)
      [.boot (wake false (some (3, 2)))]).data (wake false none)).1 := by
  have hread : backupSerde.readIdentity (backupSerde.identityText
      (snapshotIdentity backupSerde backupManifest)) =
      some (snapshotIdentity backupSerde backupManifest) := by decide +kernel
  have hcut : ∀ e ∈ (exec (step backupSerde backup) (.init ∅)
      [.boot (wake false (some (3, 2)))]).boots, e.outcome.isReturned = false := by decide +kernel
  refine (restore_on_boot valid_backup hread ∅ [.boot (wake false (some (3, 2)))] rfl
    (wake false none) rfl).1 ?_ (by decide +kernel) (by decide +kernel)
  rintro ⟨e, he, hreturned⟩
  cases (hcut e he).symm.trans hreturned

/-- A directory that came with the sentinel is served as it is, and one that came with the marker
is cleared without force. -/
theorem restore_on_boot_stale :
    (¬ ∀ data₀ : Dir, (boot backupSerde backup data₀ (wake false none)).2.isReturned = true →
      IsRestored backup backupManifest (boot backupSerde backup data₀ (wake false none)).1) ∧
    ¬ ∀ data₀ : Dir, (boot backupSerde backup data₀ (wake false none)).1.lookup walLog ≠
      data₀.lookup walLog → OwnPartial backup backupManifest data₀ := by
  constructor
  · intro hall
    have hrestored := hall (((∅ : Dir).insert sentinel backupIdentityText).insert walLog [9])
      (by decide +kernel) walLog (by decide)
    revert hrestored
    decide +kernel
  · intro hall
    obtain ⟨whole, hwhole, hprefix⟩ := hall
      (((∅ : Dir).insert inProgress backupIdentityText).insert walLog [9]) (by decide +kernel)
      walLog [9] (by decide) (by decide +kernel)
    have hseven : restored backup backupManifest walLog = some [7] := by decide +kernel
    cases hwhole.symm.trans hseven
    revert hprefix
    decide

end RhypeDb.Server.Restore
