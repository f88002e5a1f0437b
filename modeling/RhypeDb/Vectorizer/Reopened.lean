import RhypeDb.Vectorizer.Snapshots

/-! A reopened index against the stored rows: it is exact unless an accepted file holds a code that
its row has left behind. -/

namespace RhypeDb.Vectorizer

open Engine Function List Run
open Option hiding map_map mem_map
open SchemaCatalog (ObjectKey)

variable {φ γ : Type} {num : Compression φ γ} {setup : Setup} {opening : Opening setup φ}

/-- One live node for each row, with the code of the row's current vector, and no other. -/
def Exact (num : Compression φ γ) (setup : Setup) (vectors : SortedMap Slot (List φ))
    (key : IndexKey) (ix : QuantizedIndex φ γ) : Prop :=
  ∀ id, liveCodes ix.nodes id =
    (storedVector setup vectors key id).toList.map (num.compress ix.quantizer)

structure Accepted (opening : Opening setup φ) (field : VectorField)
    (file : IndexSnapshot φ γ) : Prop where
  readable : opening.readable field.key = true
  capacity : 1 ≤ file.config.mMax0 ∧ file.config.mMax0 ≤ 2 ^ 16
  bits : file.quantizer.config.bits = (resolveIndexConfig field).2.bits
  metric : file.metric = (resolveIndexConfig field).1.metric
  m : file.config.m = (resolveIndexConfig field).1.m
  efConstruction : file.config.efConstruction = (resolveIndexConfig field).1.efConstruction

def UpToDate (num : Compression φ γ) (setup : Setup) (vectors : SortedMap Slot (List φ))
    (key : IndexKey) (file : IndexSnapshot φ γ) : Prop :=
  ∀ n ∈ file.nodes, n.deleted = false → ∃ vector,
    storedVector setup vectors key n.id = some vector ∧
      num.compress file.quantizer vector = n.stored

def FileAgrees (num : Compression φ γ) (opening : Opening setup φ) (disk : Disk φ γ)
    (field : VectorField) : Prop :=
  ∀ file, disk.files (snapshotPath field.key) = some file → Accepted opening field file →
    UpToDate num setup disk.vectors field.key file

def VectorFields.DistinctFiles (schema : VectorFields) : Prop :=
  (schema.fields.map fun field => snapshotPath field.key).Nodup

instance (schema : VectorFields) : Decidable schema.DistinctFiles :=
  inferInstanceAs (Decidable (List.Nodup _))

section

variable {vectors : SortedMap Slot (List φ)} {key : IndexKey}

theorem mem_scanVectorsForField {id : Id} {vector : List φ} :
    (id, vector) ∈ scanVectorsForField setup vectors key ↔
      storedVector setup vectors key id = some vector := by
  unfold scanVectorsForField storedVector
  cases setup.resolveIndexIds key with
  | none => exact ⟨nofun, nofun⟩
  | some ids =>
    dsimp only
    rw [bind_some, mem_filterMap, SortedMap.lookup_eq_some]
    constructor
    · rintro ⟨⟨slot, v⟩, hmem, h⟩
      split_ifs at h with hslot
      cases h
      obtain ⟨⟨typeId, objectId⟩, fieldId⟩ := slot
      obtain ⟨rfl, rfl⟩ := hslot
      exact hmem
    · intro hmem
      refine ⟨_, hmem, ?_⟩
      exact if_pos ⟨rfl, rfl⟩

theorem scanVectorsForField_nodup :
    ((scanVectorsForField setup vectors key).map Prod.fst).Nodup := by
  have hnodup : (scanVectorsForField setup vectors key).Nodup := by
    unfold scanVectorsForField
    cases setup.resolveIndexIds key with
    | none => exact nodup_nil
    | some ids =>
      refine List.Nodup.filterMap ?_ (List.Pairwise.imp (fun h => ?_) vectors.sorted)
      · rintro ⟨⟨⟨t, o⟩, f⟩, v⟩ ⟨⟨⟨t', o'⟩, f'⟩, v'⟩ row hrow hrow'
        dsimp only at hrow hrow'
        split_ifs at hrow with hslot
        rotate_left
        · cases hrow
        split_ifs at hrow' with hslot'
        rotate_left
        · cases hrow'
        cases hrow
        cases hrow'
        obtain ⟨rfl, rfl⟩ := hslot
        obtain ⟨rfl, rfl⟩ := hslot'
        rfl
      · rintro rfl
        exact lt_irrefl _ h
  refine hnodup.map_on ?_
  rintro ⟨id, v⟩ hv ⟨id', v'⟩ hv' heq
  obtain rfl : id = id' := heq
  rw [mem_scanVectorsForField] at hv hv'
  rw [hv] at hv'
  cases hv'
  rfl

theorem insertAll_rows {ix ix' : QuantizedIndex φ γ} (h : ix.Sound) {rows l : List (Id × List φ)}
    (hsub : rows.Sublist (scanVectorsForField setup vectors key)) (hperm : l.Perm rows)
    (hinsert : ix.insertAll num l = some ix') :
    ix'.quantizer = ix.quantizer ∧ ix'.Sound ∧
      (∀ row ∈ rows, liveCodes ix'.nodes row.1 = [num.compress ix.quantizer row.2]) ∧
      ∀ id ∉ rows.map Prod.fst, liveCodes ix'.nodes id = liveCodes ix.nodes id := by
  have hnodup : (l.map Prod.fst).Nodup :=
    (hperm.map Prod.fst).nodup_iff.mpr (scanVectorsForField_nodup.sublist (hsub.map Prod.fst))
  obtain ⟨hquantizer, hsound, hin, hout⟩ := QuantizedIndex.insertAll_spec h hinsert hnodup
  refine ⟨hquantizer, hsound, ?_, ?_⟩
  · exact fun row hrow => hin row (hperm.mem_iff.mpr hrow)
  · exact fun id hid => hout id fun hmem => hid ((hperm.map Prod.fst).mem_iff.mp hmem)

end

section

variable {disk disk' : Disk φ γ} {key : IndexKey} {target ix : QuantizedIndex φ γ}

def SoundFiles (disk : Disk φ γ) : Prop :=
  ∀ path file, disk.files path = some file → LastLive file.nodes

theorem saveSingleSnapshot_spec (hfiles : SoundFiles disk) (hsound : ix.Sound) (writable : Bool) :
    (saveSingleSnapshot writable disk key ix).vectors = disk.vectors ∧
      (∀ path, path ≠ snapshotPath key →
        (saveSingleSnapshot writable disk key ix).files path = disk.files path) ∧
      SoundFiles (saveSingleSnapshot writable disk key ix) := by
  unfold saveSingleSnapshot
  split_ifs with hskip
  · exact ⟨rfl, fun _ _ => rfl, hfiles⟩
  · refine ⟨rfl, fun path hpath => update_of_ne hpath _ _, fun path file hfile => ?_⟩
    dsimp only at hfile
    rw [update_apply] at hfile
    split_ifs at hfile with hpath
    · cases hfile
      exact hsound.last
    · exact hfiles path file hfile

theorem rebuildIndexFromLsm_spec (hfiles : SoundFiles disk) (hsound : target.Sound)
    (h : rebuildIndexFromLsm num opening disk key target = some (disk', ix)) :
    ix.Sound ∧ (target.nodes = [] → Exact num setup disk.vectors key ix) ∧
      disk'.vectors = disk.vectors ∧
      (∀ path, path ≠ snapshotPath key → disk'.files path = disk.files path) ∧
      SoundFiles disk' := by
  unfold rebuildIndexFromLsm at h
  obtain ⟨ix', hinsert, heq⟩ := map_eq_some_iff.mp h
  obtain ⟨hdisk, rfl⟩ := Prod.mk.inj heq
  obtain ⟨hquantizer, hsound', hin, hout⟩ := insertAll_rows hsound (List.Sublist.refl _)
    (opening.order key _).2 hinsert
  refine ⟨hsound', fun hempty id => ?_, ?_⟩
  rotate_left
  · rw [← hdisk]
    split_ifs with hnone
    · exact ⟨rfl, fun _ _ => rfl, hfiles⟩
    · exact saveSingleSnapshot_spec hfiles hsound' _
  rw [hquantizer]
  cases hrow : storedVector setup disk.vectors key id with
  | some vector => exact hin (id, vector) (mem_scanVectorsForField.mpr hrow)
  | none =>
    have hnot : id ∉ (scanVectorsForField setup disk.vectors key).map Prod.fst := by
      intro hmem
      obtain ⟨⟨id', v⟩, hrow', rfl⟩ := mem_map.mp hmem
      rw [mem_scanVectorsForField, hrow] at hrow'
      cases hrow'
    rw [hout id hnot, hempty]
    rfl

variable {loaded : QuantizedIndex φ γ}

theorem exact_insertDeltaVectors (hsound : loaded.Sound)
    (h : insertDeltaVectors num opening disk key loaded = some ix) :
    ix.Sound ∧ (Exact num setup disk.vectors key ix ↔ ∀ n ∈ loaded.nodes, n.deleted = false →
      ∃ vector, storedVector setup disk.vectors key n.id = some vector ∧
        num.compress loaded.quantizer vector = n.stored) := by
  unfold insertDeltaVectors at h
  obtain ⟨hquantizer, hsound', hin, hout⟩ := insertAll_rows hsound filter_sublist
    (opening.order key _).2 h
  -- an id that the file has keeps the file's code, whatever its row says
  have hkept : ∀ n ∈ loaded.nodes, liveCodes ix.nodes n.id = liveCodes loaded.nodes n.id := by
    intro n hn
    refine hout n.id fun hmem => ?_
    obtain ⟨row, hrow, hid⟩ := mem_map.mp hmem
    have hmissing := (mem_filter.mp hrow).2
    have hcontained : loaded.containsId row.1 = true :=
      hsound.containsId_iff.mpr ⟨n, hn, hid.symm⟩
    rw [hcontained] at hmissing
    cases hmissing
  refine ⟨hsound', fun hexact n hn hlive => ?_, fun hfollows id => ?_⟩
  · have hcodes := hexact n.id
    have hmem : n.stored ∈ liveCodes ix.nodes n.id := by
      rw [hkept n hn]
      exact mem_liveCodes.mpr ⟨n, hn, rfl, hlive, rfl⟩
    rw [hcodes, hquantizer, mem_map] at hmem
    obtain ⟨vector, hvector, hcode⟩ := hmem
    exact ⟨vector, mem_toList.mp hvector, hcode⟩
  · rw [hquantizer]
    by_cases hhas : ∃ n ∈ loaded.nodes, n.id = id
    · obtain ⟨n, hn, rfl⟩ := hhas
      obtain ⟨code, hcode⟩ := hsound.last.liveCodes_eq hn rfl
      obtain ⟨n', hn', hid, hlive, hstored⟩ :=
        mem_liveCodes.mp (hcode.symm ▸ mem_singleton_self code)
      obtain ⟨vector, hvector, hcompress⟩ := hfollows n' hn' hlive
      rw [hkept n hn, hcode, ← hid, hvector, ← hstored, ← hcompress]
      rfl
    · have hcontained : loaded.containsId id = false :=
        Bool.eq_false_iff.mpr fun h => hhas (hsound.containsId_iff.mp h)
      cases hrow : storedVector setup disk.vectors key id with
      | some vector =>
        refine hin (id, vector) (mem_filter.mpr ⟨mem_scanVectorsForField.mpr hrow, ?_⟩)
        rw [hcontained]
        rfl
      | none =>
        have hnot : id ∉ (missingVectors setup disk key loaded).map Prod.fst := by
          intro hmem
          obtain ⟨⟨id', v⟩, hrow', rfl⟩ := mem_map.mp hmem
          have hscan := mem_scanVectorsForField.mp (mem_filter.mp hrow').1
          rw [hrow] at hscan
          cases hscan
        rw [hout id hnot]
        exact liveCodes_eq_nil fun n hn hid => hhas ⟨n, hn, hid⟩

variable {field : VectorField}

theorem Accepted.load {file : IndexSnapshot φ γ} (h : Accepted opening field file)
    (hfile : disk.files (snapshotPath field.key) = some file) :
    ∃ loaded, loadSnapshot opening disk field.key = some loaded ∧
      QuantizedIndex.load file = some loaded ∧
      indexConfigMismatch (freshIndex opening field) loaded = none := by
  have hcapacity : ¬ (file.config.mMax0 = 0 ∨ 2 ^ 16 < file.config.mMax0) := by
    have := h.capacity
    omega
  refine ⟨_, ?_, if_neg hcapacity, ?_⟩
  · unfold loadSnapshot
    rw [if_pos h.readable, hfile, bind_some]
    exact if_neg hcapacity
  · unfold indexConfigMismatch freshIndex QuantizedIndex.new
    dsimp only
    rw [if_neg (not_not.mpr h.bits), if_neg (not_not.mpr h.metric), if_neg (not_not.mpr h.m),
      if_neg (not_not.mpr h.efConstruction)]

theorem accepted_of_load (hload : loadSnapshot opening disk field.key = some loaded)
    (hmatch : indexConfigMismatch (freshIndex opening field) loaded = none) :
    ∃ file, disk.files (snapshotPath field.key) = some file ∧
      QuantizedIndex.load file = some loaded ∧ Accepted opening field file := by
  unfold loadSnapshot at hload
  split_ifs at hload with hreadable
  obtain ⟨file, hfile, hload⟩ := bind_eq_some_iff.mp hload
  refine ⟨file, hfile, hload, ?_⟩
  unfold QuantizedIndex.load at hload
  split_ifs at hload with hcapacity
  cases hload
  unfold indexConfigMismatch at hmatch
  split_ifs at hmatch with hbits hmetric hm hef
  exact ⟨hreadable, by omega, not_not.mp hbits, not_not.mp hmetric, not_not.mp hm, not_not.mp hef⟩

theorem rebuildIndex_spec (hfiles : SoundFiles disk)
    (h : rebuildIndex num opening disk field.key (freshIndex opening field) = some (disk', ix)) :
    ix.Sound ∧ disk'.vectors = disk.vectors ∧
      (∀ path, path ≠ snapshotPath field.key → disk'.files path = disk.files path) ∧
      SoundFiles disk' ∧
      (Exact num setup disk.vectors field.key ix ↔ FileAgrees num opening disk field) := by
  have hfresh : (freshIndex (γ := γ) opening field).Sound := .new _ _ _
  -- without an accepted file the condition says nothing
  have hanew : (∀ file, disk.files (snapshotPath field.key) = some file →
      ¬ Accepted opening field file) →
      rebuildIndexFromLsm num opening disk field.key (freshIndex opening field) =
        some (disk', ix) →
      ix.Sound ∧ disk'.vectors = disk.vectors ∧
        (∀ path, path ≠ snapshotPath field.key → disk'.files path = disk.files path) ∧
        SoundFiles disk' ∧
        (Exact num setup disk.vectors field.key ix ↔ FileAgrees num opening disk field) := by
    intro hnone hrebuild
    obtain ⟨hsound, hexact, hvectors, hother, hfiles'⟩ :=
      rebuildIndexFromLsm_spec hfiles hfresh hrebuild
    refine ⟨hsound, hvectors, hother, hfiles', ?_, fun _ => hexact rfl⟩
    exact fun _ file hfile haccepted => absurd haccepted (hnone file hfile)
  unfold rebuildIndex at h
  cases hload : loadSnapshot opening disk field.key with
  | none =>
    rw [hload] at h
    refine hanew (fun file hfile ha => ?_) h
    obtain ⟨loaded, hloaded, -, -⟩ := ha.load hfile
    rw [hload] at hloaded
    cases hloaded
  | some loaded =>
    rw [hload] at h
    dsimp only at h
    split_ifs at h with hmatch
    · obtain ⟨file, hfile, hloaded, haccepted⟩ := accepted_of_load hload hmatch
      obtain ⟨hsound, hnodes, hquantizer⟩ :=
        QuantizedIndex.Sound.load (hfiles _ file hfile) hloaded
      obtain ⟨ix', hinsert, heq⟩ := map_eq_some_iff.mp h
      obtain ⟨rfl, rfl⟩ := Prod.mk.inj heq
      obtain ⟨hsound', hexact⟩ := exact_insertDeltaVectors hsound hinsert
      refine ⟨hsound', rfl, fun _ _ => rfl, hfiles, ?_⟩
      rw [hnodes, hquantizer] at hexact
      refine hexact.trans ⟨fun hfollows file' hfile' _ => ?_, fun hall => hall file hfile haccepted⟩
      obtain rfl : file = file' := Option.some.inj (hfile.symm.trans hfile')
      exact hfollows
    · refine hanew (fun file hfile ha => ?_) h
      obtain ⟨loaded', hloaded, -, hmatch'⟩ := ha.load hfile
      rw [hload] at hloaded
      cases hloaded
      exact hmatch hmatch'

end

section

variable {indexes indexes' : Indexes φ γ} {disk disk' : Disk φ γ}

variable {ix : QuantizedIndex φ γ} {s : State φ γ} {p : Process φ γ} {key : IndexKey}

theorem freshIndexes_eq_some (h : freshIndexes opening key = some ix) :
    ∃ field ∈ setup.schema.fields, field.key = key ∧ freshIndex opening field = ix := by
  unfold freshIndexes at h
  obtain ⟨field, hfind, hix⟩ := map_eq_some_iff.mp h
  have hkey := find?_some hfind
  rw [decide_eq_true_eq] at hkey
  exact ⟨field, mem_of_find?_eq_some hfind, hkey, hix⟩

theorem field_eq_of_key {field field' : VectorField} (hmem : field ∈ setup.schema.fields)
    (hmem' : field' ∈ setup.schema.fields) (h : field.key = field'.key) : field = field' :=
  inj_on_of_nodup_map setup.schema.nodup hmem hmem' h

theorem rebuildIndexes_spec {keys : List IndexKey}
    (hfresh : ∀ key ∈ keys, indexes key = freshIndexes opening key)
    (hsound : ∀ key ix, indexes key = some ix → ix.Sound) (hfiles : SoundFiles disk)
    (hkeys : keys.Nodup)
    (h : rebuildIndexes num opening keys disk indexes = some (disk', indexes')) :
    (∀ key ix, indexes' key = some ix → ix.Sound) ∧ SoundFiles disk' ∧
      disk'.vectors = disk.vectors ∧ (∀ key ∉ keys, indexes' key = indexes key) ∧
      ((keys.map snapshotPath).Nodup → ∀ field ∈ setup.schema.fields, field.key ∈ keys →
        ∃ ix, indexes' field.key = some ix ∧
          (Exact num setup disk.vectors field.key ix ↔ FileAgrees num opening disk field)) := by
  induction keys generalizing disk indexes with
  | nil =>
    cases h
    exact ⟨hsound, hfiles, rfl, fun _ _ => rfl, fun _ _ _ => nofun⟩
  | cons key keys ih =>
    unfold rebuildIndexes at h
    obtain ⟨target, htarget, hrest⟩ := bind_eq_some_iff.mp h
    obtain ⟨⟨disk₁, ix₁⟩, hrebuild, hrest⟩ := bind_eq_some_iff.mp hrest
    rw [hfresh key mem_cons_self] at htarget
    obtain ⟨field, hfield, hkey, hfield_fresh⟩ := freshIndexes_eq_some htarget
    subst hkey
    rw [← hfield_fresh] at hrebuild
    obtain ⟨hsound₁, hvectors₁, hother₁, hfiles₁, hexact₁⟩ := rebuildIndex_spec hfiles hrebuild
    obtain ⟨hnotin, hnodup⟩ := nodup_cons.mp hkeys
    have hfresh₁ : ∀ key ∈ keys,
        Function.update indexes field.key (some ix₁) key = freshIndexes opening key := by
      intro key hkey
      have hne : key ≠ field.key := fun heq => hnotin (heq ▸ hkey)
      rw [update_of_ne hne]
      exact hfresh key (mem_cons_of_mem _ hkey)
    have hupdated : ∀ key ix, Function.update indexes field.key (some ix₁) key = some ix →
        ix.Sound := by
      intro key ix hix
      rw [update_apply] at hix
      split_ifs at hix with heq
      · cases hix
        exact hsound₁
      · exact hsound key ix hix
    obtain ⟨hsound', hfiles', hvectors', hkept, hexact⟩ :=
      ih hfresh₁ hupdated hfiles₁ hnodup hrest
    refine ⟨hsound', hfiles', hvectors'.trans hvectors₁, ?_, ?_⟩
    · intro key hkey
      rw [mem_cons, not_or] at hkey
      rw [hkept key hkey.2, update_of_ne hkey.1]
    · intro hpaths field' hfield' hmem
      rw [map_cons, nodup_cons] at hpaths
      rcases mem_cons.mp hmem with heq | hmem
      · obtain rfl := field_eq_of_key hfield' hfield heq
        refine ⟨ix₁, ?_, hexact₁⟩
        rw [hkept _ hnotin, update_self]
      · obtain ⟨ix, hix, hiff⟩ := hexact hpaths.2 field' hfield' hmem
        refine ⟨ix, hix, ?_⟩
        have hpath : snapshotPath field'.key ≠ snapshotPath field.key := fun heq =>
          hpaths.1 (mem_map.mpr ⟨field'.key, hmem, heq⟩)
        unfold FileAgrees at hiff ⊢
        rw [hvectors₁, hother₁ _ hpath] at hiff
        exact hiff

structure SoundState (s : State φ γ) : Prop where
  files : SoundFiles s.disk
  indexes : ∀ p, s.process = some p → ∀ key ix, p.indexes key = some ix → ix.Sound

theorem SoundState.empty : SoundState (State.empty : State φ γ) := ⟨nofun, nofun⟩

theorem keys_nodup (opening : Opening setup φ) : opening.keys.Nodup :=
  opening.keys_perm.nodup_iff.mpr setup.schema.nodup

theorem freshIndexes_sound (key : IndexKey) (ix : QuantizedIndex φ γ)
    (h : freshIndexes opening key = some ix) : ix.Sound := by
  obtain ⟨field, -, -, rfl⟩ := freshIndexes_eq_some h
  exact .new _ _ _

theorem setIndex_sound (h : ∀ key ix, p.indexes key = some ix → ix.Sound) (hix : ix.Sound)
    (key' : IndexKey) (ix' : QuantizedIndex φ γ)
    (h' : (p.setIndex key ix).indexes key' = some ix') : ix'.Sound := by
  unfold Process.setIndex at h'
  dsimp only at h'
  rw [update_apply] at h'
  split_ifs at h' with heq
  · cases h'
    exact hix
  · exact h key' ix' h'

theorem SoundState.insertNext (h : SoundState s) {p' : Process φ γ}
    (hp : s.process = some p) {w thread : Nat} (hinsert : p.insertNext num w thread = some p') :
    SoundState ⟨s.disk, some p'⟩ := by
  unfold Process.insertNext at hinsert
  obtain ⟨writer, -, hinsert⟩ := bind_eq_some_iff.mp hinsert
  obtain ⟨next, -, hinsert⟩ := bind_eq_some_iff.mp hinsert
  obtain ⟨ix, hix, heq⟩ := map_eq_some_iff.mp hinsert
  refine ⟨h.files, fun q hq => ?_⟩
  cases hq
  subst heq
  cases hpushed : ix.insert num next.1.1 next.1.2 with
  | none => exact h.indexes p hp
  | some ix' =>
    have hsound := (QuantizedIndex.insert_spec (h.indexes p hp _ ix hix) hpushed).2.2
    exact setIndex_sound (p := p.setWriter w next.2) (h.indexes p hp) hsound

theorem SoundState.step? {s' : State φ γ} (h : SoundState s) {a : SnapshotStep φ}
    (hstep : snapshotStep? num s a = some s') : SoundState s' := by
  cases a with
  | start setup opening =>
    unfold snapshotStep? at hstep
    cases hp : s.process with
    | some p =>
      rw [hp] at hstep
      cases hstep
    | none =>
      rw [hp] at hstep
      obtain ⟨⟨disk', indexes'⟩, hopen, rfl⟩ := map_eq_some_iff.mp hstep
      obtain ⟨hsound, hfiles, -, -, -⟩ := rebuildIndexes_spec (fun _ _ => rfl)
        freshIndexes_sound h.files (keys_nodup opening) hopen
      refine ⟨hfiles, fun p hp => ?_⟩
      cases hp
      exact hsound
  | startStopped setup opening rebuilt =>
    unfold snapshotStep? at hstep
    cases hp : s.process with
    | some p =>
      rw [hp] at hstep
      cases hstep
    | none =>
      rw [hp] at hstep
      obtain ⟨⟨disk', indexes'⟩, hopen, rfl⟩ := map_eq_some_iff.mp hstep
      obtain ⟨-, hfiles, -, -, -⟩ := rebuildIndexes_spec (fun _ _ => rfl) freshIndexes_sound
        h.files ((keys_nodup opening).sublist (take_sublist _ _)) hopen
      exact ⟨hfiles, nofun⟩
  | write w key ingest =>
    obtain ⟨p, hp, hstep⟩ := bind_eq_some_iff.mp hstep
    split_ifs at hstep
    obtain ⟨writer, -, rfl⟩ := map_eq_some_iff.mp hstep
    refine ⟨h.files, fun q hq => ?_⟩
    cases hq
    exact h.indexes p hp
  | insert w thread =>
    obtain ⟨p, hp, hstep⟩ := bind_eq_some_iff.mp hstep
    obtain ⟨p', hinsert, rfl⟩ := map_eq_some_iff.mp hstep
    exact h.insertNext hp hinsert
  | commit w committed =>
    obtain ⟨p, hp, hstep⟩ := bind_eq_some_iff.mp hstep
    unfold commitWriter at hstep
    obtain ⟨writer, -, hstep⟩ := bind_eq_some_iff.mp hstep
    split_ifs at hstep
    all_goals
      cases hstep
      refine ⟨h.files, fun q hq => ?_⟩
      cases hq
      exact h.indexes p hp
  | save key writable =>
    obtain ⟨p, hp, hstep⟩ := bind_eq_some_iff.mp hstep
    obtain ⟨ix, hix, rfl⟩ := map_eq_some_iff.mp hstep
    exact ⟨(saveSingleSnapshot_spec h.files (h.indexes p hp key ix hix) writable).2.2, h.indexes⟩
  | stop =>
    cases hstep
    exact ⟨h.files, nofun⟩

theorem SoundState.exec (num : Compression φ γ) (steps : List (SnapshotStep φ)) :
    SoundState (exec (snapshotStep num) .empty steps) := by
  refine exec_invariant (C := fun _ _ => True) (fun s a hs _ => ?_) .empty
    (along_of_forall fun _ _ => trivial)
  unfold snapshotStep
  cases hstep : snapshotStep? num s a with
  | none => exact hs
  | some s' => exact hs.step? hstep

/-- After any run, an open leaves every index exact if and only if no file that it takes over is
behind or ahead of the rows. -/
theorem reopened_exact_iff (num : Compression φ γ) (steps : List (SnapshotStep φ)) (setup : Setup)
    (opening : Opening setup φ) {disk : Disk φ γ} {indexes : Indexes φ γ}
    (hnames : setup.schema.DistinctFiles)
    (hopen : withConfig num opening (Run.exec (snapshotStep num) .empty steps).disk =
      some (disk, indexes)) :
    (∀ field ∈ setup.schema.fields, ∃ ix, indexes field.key = some ix ∧
      Exact num setup disk.vectors field.key ix) ↔
    ∀ field ∈ setup.schema.fields,
      FileAgrees num opening (Run.exec (snapshotStep num) .empty steps).disk field := by
  have hsound := SoundState.exec num steps
  have hpaths : (opening.keys.map snapshotPath).Nodup := by
    have hperm := opening.keys_perm.map snapshotPath
    rw [map_map] at hperm
    exact hperm.nodup_iff.mpr hnames
  obtain ⟨-, -, hvectors, -, hexact⟩ := rebuildIndexes_spec (fun _ _ => rfl) freshIndexes_sound
    hsound.files (keys_nodup opening) hopen
  refine forall₂_congr fun field hfield => ?_
  have hkey : field.key ∈ opening.keys :=
    opening.keys_perm.mem_iff.mpr (mem_map_of_mem hfield)
  obtain ⟨ix, hix, hiff⟩ := hexact hpaths field hfield hkey
  rw [← hiff, hvectors]
  constructor
  · rintro ⟨ix', hix', h⟩
    obtain rfl : ix = ix' := Option.some.inj (hix.symm.trans hix')
    exact h
  · exact fun h => ⟨ix, hix, h⟩

end

def signCodes : Compression Int (List Bool × Int) where
  compress _ vector := (vector.map fun x => decide (0 < x), (vector.map fun x => x * x).sum)
  isFinite _ := true

def docField : VectorField := ⟨⟨"Doc", "embedding"⟩, 1, none, nofun⟩

def docSetup : Setup where
  schema := ⟨[docField], List.nodup_singleton _⟩
  typeIds name := if name = "Doc" then some 1 else none
  fieldIds key := if key = docField.key then some 2 else none
  cores := 1

def docOpening : Opening docSetup Int where
  keys := [docField.key]
  keys_perm := .refl _
  rotation _ := [1]
  readable _ := true
  writable _ := true
  order _ rows := ⟨rows, .refl _⟩

def ingestDoc (id : Id) (x : Int) : List (SnapshotStep Int) :=
  [.write 0 docField.key (.ingestVectors [(id, [x])]), .insert 0 0, .commit 0 true]

def savedThenGrown : List (SnapshotStep Int) :=
  [.start docSetup docOpening] ++ ingestDoc 7 5 ++ [.save docField.key true] ++ ingestDoc 8 (-3) ++
    [.stop]

def savedThenReplaced : List (SnapshotStep Int) :=
  [.start docSetup docOpening] ++ ingestDoc 7 5 ++ [.save docField.key true] ++ ingestDoc 7 (-3) ++
    [.stop]

theorem reopened_exact_iff_grown : ∃ disk indexes,
    withConfig signCodes docOpening (exec (snapshotStep signCodes) .empty savedThenGrown).disk =
      some (disk, indexes) ∧
    ∀ field ∈ docSetup.schema.fields, ∃ ix, indexes field.key = some ix ∧
      Exact signCodes docSetup disk.vectors field.key ix := by
  obtain ⟨⟨disk, indexes⟩, hopen⟩ := isSome_iff_exists.mp (show
    (withConfig signCodes docOpening
      (exec (snapshotStep signCodes) .empty savedThenGrown).disk).isSome by decide +kernel)
  refine ⟨disk, indexes, hopen,
    (reopened_exact_iff signCodes savedThenGrown docSetup docOpening (by decide +kernel) hopen).mpr
    ?_⟩
  intro field hfield file hfile _ n hn _
  rw [mem_singleton.mp hfield] at hfile ⊢
  have hnodes : ((exec (snapshotStep signCodes) .empty savedThenGrown).disk.files
      (snapshotPath docField.key)).map IndexSnapshot.nodes = some [⟨7, ([true], 25), false⟩] := by
    decide +kernel
  rw [hfile, map_some, Option.some.injEq] at hnodes
  rw [hnodes, mem_singleton] at hn
  subst hn
  exact ⟨[5], by decide +kernel, rfl⟩

/-- A file that is older than a row keeps the row's old code in the index. -/
theorem reopened_stale : ¬ ∀ (steps : List (SnapshotStep Int)) (setup : Setup)
    (opening : Opening setup Int) (disk : Disk Int (List Bool × Int))
    (indexes : Indexes Int (List Bool × Int)),
    withConfig signCodes opening (exec (snapshotStep signCodes) .empty steps).disk =
      some (disk, indexes) →
    ∀ field ∈ setup.schema.fields, ∃ ix, indexes field.key = some ix ∧
      Exact signCodes setup disk.vectors field.key ix := by
  intro hclaim
  let reopened := withConfig signCodes docOpening
    (exec (snapshotStep signCodes) .empty savedThenReplaced).disk
  obtain ⟨⟨disk, indexes⟩, hopen⟩ := isSome_iff_exists.mp
    (show reopened.isSome by decide +kernel)
  obtain ⟨ix, hix, hexact⟩ := hclaim _ _ _ _ _ hopen docField mem_cons_self
  have hcodes : reopened.map (fun r => (r.2 docField.key).map fun ix => liveCodes ix.nodes 7) =
      some (some [([true], 25)]) := by decide +kernel
  have hrow : reopened.map (fun r => storedVector docSetup r.1.vectors docField.key 7) =
      some (some [-3]) := by decide +kernel
  rw [show reopened = some (disk, indexes) from hopen] at hcodes hrow
  simp only [map_some, hix, Option.some.injEq] at hcodes hrow
  have hat := hexact 7
  rw [hcodes, hrow] at hat
  have hnew : [(([true], 25) : List Bool × Int)] = [([false], 9)] := hat
  exact absurd hnew (by decide)

end RhypeDb.Vectorizer
