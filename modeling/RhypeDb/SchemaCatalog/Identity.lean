import RhypeDb.SchemaCatalog.History

/-! Ids are for ever. A rename carries a row to its new name with its id, retiring a row leaves it
under its name, and what an open adds is under ids that no row ever had. -/

namespace RhypeDb.SchemaCatalog

open Fallible Lineage List Run SortedMap

section

theorem lookup_rekey {κ : Type} [LinearOrder κ] (m : SortedMap κ IdEntry) (old new k : κ)
    (entry : IdEntry) : (rekey m old new entry).lookup k =
      if k = new then some entry else if k = old then none else m.lookup k := by
  unfold rekey
  rw [lookup_insert, lookup_erase]

variable {old new : String}

theorem lookup_foldl_move (hne : old ≠ new) {l : List (Qualified × IdEntry)}
    (hold : ∀ e ∈ l, (splitQualified e.1).1 = old) (hnodup : (l.map Prod.fst).Nodup)
    (m : SortedMap Qualified IdEntry) (qual : Qualified) (v : IdEntry) :
    (l.foldl (fun m e => (m.erase e.1).insert (qualified new (splitQualified e.1).2) e.2) m).lookup
        qual = some v ↔
      (∃ e ∈ l, qual = qualified new (splitQualified e.1).2 ∧ e.2 = v) ∨
        (∀ e ∈ l, qual ≠ qualified new (splitQualified e.1).2 ∧ qual ≠ e.1) ∧
          m.lookup qual = some v := by
  induction l generalizing m with
  | nil => simp
  | cons e l ih =>
    rw [map_cons, nodup_cons] at hnodup
    rw [foldl_cons, ih (fun x hx => hold x (mem_cons_of_mem e hx)) hnodup.2,
      lookup_insert, lookup_erase]
    have hself : (splitQualified e.1).1 = old := hold e mem_cons_self
    constructor
    · rintro (⟨x, hx, heq, rfl⟩ | ⟨hall, hrow⟩)
      · exact .inl ⟨x, mem_cons_of_mem e hx, heq, rfl⟩
      · split_ifs at hrow with htarget hsource
        · exact .inl ⟨e, mem_cons_self, htarget, Option.some.inj hrow⟩
        · refine .inr ⟨?_, hrow⟩
          rw [forall_mem_cons]
          exact ⟨⟨htarget, hsource⟩, hall⟩
    · rintro (⟨x, hx, heq, rfl⟩ | ⟨hall, hrow⟩)
      · rcases mem_cons.mp hx with rfl | hx
        · refine .inr ⟨fun y hy => ⟨?_, ?_⟩, if_pos heq⟩
          · -- another child of the same type has another name
            intro heq'
            rw [heq, qualified_inj] at heq'
            have hsplit : x.1 = y.1 := by
              rw [← qualified_split x.1, ← qualified_split y.1, hself,
                hold y (mem_cons_of_mem x hy), heq'.2]
            exact hnodup.1 (mem_map.mpr ⟨y, hy, hsplit.symm⟩)
          · rintro rfl
            have hy' := hold y (mem_cons_of_mem x hy)
            rw [heq, splitQualified_qualified] at hy'
            exact hne hy'.symm
        · exact .inl ⟨x, hx, heq, rfl⟩
      · rw [forall_mem_cons] at hall
        refine .inr ⟨hall.2, ?_⟩
        rw [if_neg hall.1.1, if_neg hall.1.2]
        exact hrow

theorem lookup_rekeyChildren (hne : old ≠ new) (m : SortedMap Qualified IdEntry)
    (hfree : ∀ f, m.lookup (qualified new f) = none) (qual : Qualified) :
    (rekeyChildren old new m).lookup qual =
      if (splitQualified qual).1 = new then m.lookup (qualified old (splitQualified qual).2)
      else if (splitQualified qual).1 = old then none
      else m.lookup qual := by
  have hnodup : ((m.entries.filter fun e => decide ((splitQualified e.1).1 = old)).map
      Prod.fst).Nodup := by
    refine List.Nodup.sublist (filter_sublist.map _) ?_
    exact pairwise_map.mpr (m.sorted.imp fun hlt => hlt.ne)
  have hchild : ∀ e, e ∈ m.entries.filter (fun e => decide ((splitQualified e.1).1 = old)) ↔
      m.lookup e.1 = some e.2 ∧ (splitQualified e.1).1 = old := by
    intro e
    rw [mem_filter, decide_eq_true_eq, lookup_eq_some]
  refine Option.ext fun v => ?_
  unfold rekeyChildren
  rw [lookup_foldl_move hne (fun e he => ((hchild e).mp he).2) hnodup]
  constructor
  · rintro (⟨e, he, rfl, rfl⟩ | ⟨hall, hrow⟩)
    · obtain ⟨hlookup, htype⟩ := (hchild e).mp he
      rw [splitQualified_qualified, if_pos rfl, ← htype, qualified_split]
      exact hlookup
    · split_ifs with hnew hold
      · rw [← qualified_split qual, hnew, hfree] at hrow
        cases hrow
      · exact absurd rfl (hall (qual, v) ((hchild _).mpr ⟨hrow, hold⟩)).2
      · exact hrow
  · intro hrow
    split_ifs at hrow with hnew hold
    · refine .inl ⟨(qualified old (splitQualified qual).2, v), (hchild _).mpr ⟨hrow, rfl⟩, ?_, rfl⟩
      rw [splitQualified_qualified, ← hnew, qualified_split]
    · refine .inr ⟨fun e he => ⟨?_, ?_⟩, hrow⟩
      · rintro rfl
        exact hnew rfl
      · rintro rfl
        exact hold ((hchild e).mp he).2

end

section

variable {cat : Catalog} {kind : RowKind} {shown : String} {old new : String} {row : Option IdEntry}
  {entry : IdEntry}

theorem liveEntry_ok
    (h : liveEntry kind shown row = .ok entry) : row = some entry ∧ entry.status = .live := by
  cases row with
  | none => cases h
  | some e =>
    obtain ⟨_, hlive, h⟩ := bind_eq_ok.mp h
    cases pure_eq_ok.mp h
    exact ⟨rfl, require_eq_ok.mp hlive⟩

theorem refuseTaken_ok {u : Unit} (h : refuseTaken kind shown row = .ok u) : row = none := by
  cases row with
  | none => rfl
  | some e =>
    unfold refuseTaken at h
    dsimp only at h
    split_ifs at h

theorem renameTypeVerb_ok {cat' : Catalog} (h : renameTypeVerb cat old new = .ok cat') :
    ∃ entry, old ≠ new ∧ cat.typeEntries.lookup old = some entry ∧ entry.status = .live ∧
      cat.typeEntries.lookup new = none ∧ cat' =
        { cat with
          typeEntries := rekey cat.typeEntries old new (entry.renamed old new)
          fieldEntries := rekeyChildren old new cat.fieldEntries
          relEntries := rekeyChildren old new cat.relEntries } := by
  obtain ⟨_, hne, h⟩ := bind_eq_ok.mp h
  obtain ⟨_, -, h⟩ := bind_eq_ok.mp h
  obtain ⟨entry, hentry, h⟩ := bind_eq_ok.mp h
  obtain ⟨_, htaken, h⟩ := bind_eq_ok.mp h
  obtain ⟨_, -, h⟩ := bind_eq_ok.mp h
  obtain ⟨hrow, hlive⟩ := liveEntry_ok hentry
  exact ⟨entry, require_eq_ok.mp hne, hrow, hlive, refuseTaken_ok htaken, (pure_eq_ok.mp h).symm⟩

theorem checkFieldRename_ok {entries : SortedMap Qualified IdEntry} {typeName : String}
    {parent : IdEntry}
    (h : checkFieldRename cat entries typeName old new = .ok (parent, entry)) :
    old ≠ new ∧ cat.typeEntries.lookup typeName = some parent ∧ parent.status = .live ∧
      entries.lookup (qualified typeName old) = some entry ∧ entry.status = .live ∧
      cat.fieldEntries.lookup (qualified typeName new) = none ∧
      cat.relEntries.lookup (qualified typeName new) = none := by
  obtain ⟨_, hne, h⟩ := bind_eq_ok.mp h
  obtain ⟨_, -, h⟩ := bind_eq_ok.mp h
  obtain ⟨p, hparent, h⟩ := bind_eq_ok.mp h
  obtain ⟨e, hentry, h⟩ := bind_eq_ok.mp h
  obtain ⟨_, hfield, h⟩ := bind_eq_ok.mp h
  obtain ⟨_, hrel, h⟩ := bind_eq_ok.mp h
  obtain ⟨_, -, h⟩ := bind_eq_ok.mp h
  cases pure_eq_ok.mp h
  obtain ⟨hrow, hlive⟩ := liveEntry_ok hparent
  obtain ⟨hrow', hlive'⟩ := liveEntry_ok hentry
  exact ⟨require_eq_ok.mp hne, hrow, hlive, hrow', hlive', refuseTaken_ok hfield, refuseTaken_ok hrel⟩

end

def isLiveRelation (row : Path → Option IdEntry) (qual : Qualified) : Bool :=
  (row (.relation qual)).any fun e => decide (e.status = .live)

/-- Where a rename takes the row of a name: a type's fields and relations go with it, and a
relation's two rows stay together. -/
def RenameVerb.follow (row : Path → Option IdEntry) : RenameVerb → Path → Path
  | type old new, .type name => .type (if name = old then new else name)
  | type old new, .field qual =>
    .field (if (splitQualified qual).1 = old then qualified new (splitQualified qual).2 else qual)
  | type old new, .relation qual =>
    .relation (if (splitQualified qual).1 = old then qualified new (splitQualified qual).2 else qual)
  | field _ _ _, .type name => .type name
  | field typeName old new, .field qual =>
    .field (if qual = qualified typeName old then qualified typeName new else qual)
  | field typeName old new, .relation qual =>
    .relation (if qual = qualified typeName old ∧ isLiveRelation row qual then
      qualified typeName new else qual)

theorem RenameVerb.space_follow (row : Path → Option IdEntry) (verb : RenameVerb) (p : Path) :
    (verb.follow row p).space = p.space := by
  cases verb <;> cases p <;> rfl

theorem RenameVerb.parent_follow (row : Path → Option IdEntry) (verb : RenameVerb) {p : Path}
    {t : String} (hp : p.parent = some t) :
    ∃ t', (verb.follow row p).parent = some t' ∧ verb.follow row (.type t) = .type t' := by
  cases p with
  | type name => cases hp
  | field qual =>
    cases hp
    cases verb with
    | type old new =>
      refine ⟨_, rfl, ?_⟩
      simp only [RenameVerb.follow]
      split_ifs <;> rfl
    | field typeName old new =>
      refine ⟨_, rfl, ?_⟩
      split_ifs with hq
      · rw [hq]
        rfl
      · rfl
  | relation qual =>
    cases hp
    cases verb with
    | type old new =>
      refine ⟨_, rfl, ?_⟩
      simp only [RenameVerb.follow]
      split_ifs <;> rfl
    | field typeName old new =>
      refine ⟨_, rfl, ?_⟩
      split_ifs with hq
      · rw [hq.1]
        rfl
      · rfl

theorem Parents.free {row : Path → Option IdEntry} (h : Parents row) {t : String}
    (hnone : row (.type t) = none) {p : Path} (hp : p.parent = some t) : row p = none := by
  cases hrow : row p with
  | none => rfl
  | some e =>
    obtain ⟨e', hrow', -⟩ := h p e t hrow hp
    rw [hnone] at hrow'
    cases hrow'

/-- The rows of one space, each under the name that `g` gives its own. -/
structure Moves {κ : Type} (g : κ → κ) (m m' : κ → Option IdEntry) : Prop where
  kept : ∀ {k e}, m k = some e → ∃ e', m' (g k) = some e' ∧ e'.id = e.id ∧ e'.status = e.status
  back : ∀ {k' e'}, m' k' = some e' → ∃ k e, m k = some e ∧ g k = k'

variable {κ : Type}

theorem Moves.refl (m : κ → Option IdEntry) : Moves id m m where
  kept h := ⟨_, h, rfl, rfl⟩
  back h := ⟨_, _, h, rfl⟩

variable {entry : IdEntry}

theorem moves_rekey [LinearOrder κ] {m : SortedMap κ IdEntry} {old new : κ}
    {moved : IdEntry} (hold : m.lookup old = some entry) (hnew : m.lookup new = none)
    (hid : moved.id = entry.id) (hst : moved.status = entry.status) :
    Moves (fun k => if k = old then new else k) m.lookup (rekey m old new moved).lookup where
  kept {k e} hk := by
    rw [lookup_rekey]
    by_cases hko : k = old
    · rw [hko, hold] at hk
      cases hk
      exact ⟨moved, by rw [if_pos hko, if_pos rfl], hid, hst⟩
    · have hkn : k ≠ new := by
        rintro rfl
        rw [hnew] at hk
        cases hk
      rw [if_neg hko, if_neg hkn, if_neg hko]
      exact ⟨e, hk, rfl, rfl⟩
  back {k' e'} hk := by
    rw [lookup_rekey] at hk
    split_ifs at hk with hkn hko
    · exact ⟨old, entry, hold, by rw [hkn]; exact if_pos rfl⟩
    · exact ⟨k', e', hk, if_neg hko⟩

theorem moves_rekeyChildren {old new : String} (hne : old ≠ new) {m : SortedMap Qualified IdEntry}
    (hfree : ∀ f, m.lookup (qualified new f) = none) :
    Moves (fun q => if (splitQualified q).1 = old then qualified new (splitQualified q).2 else q)
      m.lookup (rekeyChildren old new m).lookup where
  kept {q e} hq := by
    rw [lookup_rekeyChildren hne m hfree]
    by_cases hold : (splitQualified q).1 = old
    · rw [if_pos hold, splitQualified_qualified, if_pos rfl, ← hold, qualified_split]
      exact ⟨e, hq, rfl, rfl⟩
    · have hnew : (splitQualified q).1 ≠ new := by
        rintro rfl
        rw [← qualified_split q, hfree] at hq
        cases hq
      rw [if_neg hold, if_neg hnew, if_neg hold]
      exact ⟨e, hq, rfl, rfl⟩
  back {q' e'} hq := by
    rw [lookup_rekeyChildren hne m hfree] at hq
    split_ifs at hq with hnew hold
    · refine ⟨_, e', hq, ?_⟩
      rw [splitQualified_qualified, if_pos rfl, ← hnew, qualified_split]
    · exact ⟨q', e', hq, if_neg hold⟩

theorem moves_insert [LinearOrder κ] {m : SortedMap κ IdEntry} {k : κ}
    {entry' : IdEntry} (hk : m.lookup k = some entry) (hid : entry'.id = entry.id)
    (hst : entry'.status = entry.status) : Moves id m.lookup (m.insert k entry').lookup where
  kept {q e} hq := by
    rw [lookup_insert]
    by_cases hqk : q = k
    · rw [hqk, hk] at hq
      cases hq
      exact ⟨entry', if_pos hqk, hid, hst⟩
    · exact ⟨e, by rw [id, if_neg hqk]; exact hq, rfl, rfl⟩
  back {q e} hq := by
    rw [lookup_insert] at hq
    split_ifs at hq with hqk
    · exact ⟨k, entry, hk, hqk.symm⟩
    · exact ⟨q, e, hq, rfl⟩

theorem relabels_of_moves {cat cat' : Catalog} {follow : Path → Path} {gt : String → String}
    {gf gr : Qualified → Qualified} (ht : Moves gt cat.typeEntries.lookup cat'.typeEntries.lookup)
    (hf : Moves gf cat.fieldEntries.lookup cat'.fieldEntries.lookup)
    (hr : Moves gr cat.relEntries.lookup cat'.relEntries.lookup)
    (hft : ∀ n, follow (.type n) = .type (gt n)) (hff : ∀ q, follow (.field q) = .field (gf q))
    (hfr : ∀ q e, cat.relEntries.lookup q = some e → follow (.relation q) = .relation (gr q))
    (hspace : ∀ p, (follow p).space = p.space) :
    Relabels reading follow cat.row cat'.row where
  space := hspace
  kept {p e} hp := by
    have hretired : ∀ {e' : IdEntry}, e'.status = e.status →
        (reading.retired e' ↔ reading.retired e) := fun hst => by
      change _ = _ ↔ _ = _
      rw [hst]
    cases p with
    | type n =>
      obtain ⟨e', hrow, hid, hst⟩ := ht.kept hp
      exact ⟨e', by rw [hft]; exact hrow, hid, hretired hst⟩
    | field q =>
      obtain ⟨e', hrow, hid, hst⟩ := hf.kept hp
      exact ⟨e', by rw [hff]; exact hrow, hid, hretired hst⟩
    | relation q =>
      obtain ⟨e', hrow, hid, hst⟩ := hr.kept hp
      exact ⟨e', by rw [hfr q e hp]; exact hrow, hid, hretired hst⟩
  back {p' e'} hp := by
    cases p' with
    | type n =>
      obtain ⟨k, e, hk, rfl⟩ := ht.back hp
      exact ⟨.type k, e, hk, hft k⟩
    | field q =>
      obtain ⟨k, e, hk, rfl⟩ := hf.back hp
      exact ⟨.field k, e, hk, hff k⟩
    | relation q =>
      obtain ⟨k, e, hk, rfl⟩ := hr.back hp
      exact ⟨.relation k, e, hk, hfr k e hk⟩

section

variable {cat cat' : Catalog}

theorem renameTypeVerb_relabels (hparents : Parents cat.row) {old new : String}
    (h : renameTypeVerb cat old new = .ok cat') :
    Relabels reading ((RenameVerb.type old new).follow cat.row) cat.row cat'.row := by
  obtain ⟨entry, hne, hold, -, hnew, rfl⟩ := renameTypeVerb_ok h
  have hfreeF : ∀ f, cat.fieldEntries.lookup (qualified new f) = none := fun f =>
    hparents.free hnew (p := .field (qualified new f)) rfl
  have hfreeR : ∀ f, cat.relEntries.lookup (qualified new f) = none := fun f =>
    hparents.free hnew (p := .relation (qualified new f)) rfl
  exact relabels_of_moves (moves_rekey hold hnew rfl rfl) (moves_rekeyChildren hne hfreeF)
    (moves_rekeyChildren hne hfreeR) (fun _ => rfl) (fun _ => rfl) (fun _ _ _ => rfl)
    (RenameVerb.space_follow _ _)

variable {typeName old new : String}

theorem renameFieldVerb_relabels {objects objects' : SortedMap ObjectKey Engine.FieldMap}
    (hrel : isLiveRelation cat.row (qualified typeName old) = false)
    (h : renameFieldVerb cat objects typeName old new = .ok (cat', objects')) :
    Relabels reading ((RenameVerb.field typeName old new).follow cat.row) cat.row cat'.row := by
  obtain ⟨⟨parent, entry⟩, hcheck, h⟩ := bind_eq_ok.mp h
  obtain ⟨-, -, -, hold, -, hnew, -⟩ := checkFieldRename_ok hcheck
  cases pure_eq_ok.mp h
  refine relabels_of_moves (.refl _) (moves_rekey hold hnew rfl rfl) (.refl _) (fun _ => rfl)
    (fun _ => rfl) (fun q _ _ => ?_) (RenameVerb.space_follow _ _)
  simp only [RenameVerb.follow]
  rw [if_neg]
  · rfl
  · rintro ⟨rfl, hlive⟩
    rw [hrel] at hlive
    cases hlive

theorem moves_renamedField (hnew : cat.fieldEntries.lookup (qualified typeName new) = none) :
    Moves (fun q => if q = qualified typeName old then qualified typeName new else q)
      cat.fieldEntries.lookup (renamedField cat typeName old new).lookup := by
  unfold renamedField
  cases hold : cat.fieldEntries.lookup (qualified typeName old) with
  | some field => exact moves_rekey hold hnew rfl rfl
  | none =>
    have hne : ∀ {q e}, cat.fieldEntries.lookup q = some e → q ≠ qualified typeName old := by
      rintro q e hq rfl
      rw [hold] at hq
      cases hq
    exact ⟨fun {q e} hq => ⟨e, by rw [if_neg (hne hq)]; exact hq, rfl, rfl⟩,
      fun {q e} hq => ⟨q, e, hq, if_neg (hne hq)⟩⟩

theorem renameRelationVerb_relabels (h : renameRelationVerb cat typeName old new = .ok cat') :
    Relabels reading ((RenameVerb.field typeName old new).follow cat.row) cat.row cat'.row := by
  obtain ⟨⟨parent, entry⟩, hcheck, h⟩ := bind_eq_ok.mp h
  obtain ⟨-, -, -, hold, hlive, hnewF, hnewR⟩ := checkFieldRename_ok hcheck
  cases pure_eq_ok.mp h
  refine relabels_of_moves (.refl _) (moves_renamedField hnewF) (moves_rekey hold hnewR rfl rfl) (fun _ => rfl)
    (fun _ => rfl) (fun q _ _ => ?_) (RenameVerb.space_follow _ _)
  simp only [RenameVerb.follow]
  by_cases hq : q = qualified typeName old
  · have hliveRel : isLiveRelation cat.row q = true := by
      unfold isLiveRelation
      rw [hq, Catalog.row_relation, hold]
      exact decide_eq_true hlive
    rw [if_pos ⟨hq, hliveRel⟩, if_pos hq]
  · rw [if_neg hq, if_neg fun hand => hq hand.1]

def Together (row : Path → Option IdEntry) (follow : Path → Path) : Prop :=
  ∀ q₁ q₂ q' e f, row (.relation q₁) = some e → row (.field q₂) = some f →
    follow (.relation q₁) = .relation q' → follow (.field q₂) = .field q' → q₁ = q₂

variable {r : Catalog × SortedMap ObjectKey Engine.FieldMap × Nat}
  {objects : SortedMap ObjectKey Engine.FieldMap} {verb : RenameVerb}

theorem RenameVerb.apply_together (hparents : Parents cat.row) (h : verb.apply cat objects = .ok r) :
    Together cat.row (verb.follow cat.row) := by
  intro q₁ q₂ q' e f he hf h₁ h₂
  cases verb with
  | type old new =>
    obtain ⟨cat', hverb, rfl⟩ := map_eq_ok.mp h
    obtain ⟨entry, -, -, -, hnew, -⟩ := renameTypeVerb_ok hverb
    have hfree : ∀ {p e t}, cat.row p = some e → p.parent = some t → t ≠ new := by
      rintro p e t hrow hp rfl
      rw [hparents.free hnew hp] at hrow
      cases hrow
    have hne₁ := hfree he rfl
    have hne₂ := hfree hf rfl
    have heq := (Path.relation.inj h₁).trans (Path.field.inj h₂).symm
    split_ifs at heq with hold₁ hold₂ hold₂
    · rw [← qualified_split q₁, ← qualified_split q₂, hold₁, hold₂, (qualified_inj.mp heq).2]
    · rw [← heq] at hne₂
      exact absurd rfl hne₂
    · rw [heq] at hne₁
      exact absurd rfl hne₁
    · exact heq
  | field typeName old new =>
    have hnew : cat.fieldEntries.lookup (qualified typeName new) = none ∧
        cat.relEntries.lookup (qualified typeName new) = none := by
      dsimp only [RenameVerb.apply] at h
      split_ifs at h with hrel
      · obtain ⟨cat', hverb, rfl⟩ := map_eq_ok.mp h
        obtain ⟨⟨_, _⟩, hcheck, -⟩ := bind_eq_ok.mp hverb
        obtain ⟨-, -, -, -, -, hnew⟩ := checkFieldRename_ok hcheck
        exact hnew
      · obtain ⟨cat', hverb, rfl⟩ := map_eq_ok.mp h
        obtain ⟨⟨_, _⟩, hcheck, -⟩ := bind_eq_ok.mp hverb
        obtain ⟨-, -, -, -, -, hnew⟩ := checkFieldRename_ok hcheck
        exact hnew
    have hne₁ : q₁ ≠ qualified typeName new := by
      rintro rfl
      rw [Catalog.row_relation, hnew.2] at he
      cases he
    have hne₂ : q₂ ≠ qualified typeName new := by
      rintro rfl
      rw [Catalog.row_field, hnew.1] at hf
      cases hf
    have heq := (Path.relation.inj h₁).trans (Path.field.inj h₂).symm
    split_ifs at heq with hold₁ hold₂ hold₂
    · rw [hold₁.1, hold₂]
    · exact absurd heq.symm hne₂
    · exact absurd heq hne₁
    · exact heq

theorem RenameVerb.apply_relabels (hparents : Parents cat.row) (h : verb.apply cat objects = .ok r) :
    Relabels reading (verb.follow cat.row) cat.row r.1.row := by
  cases verb with
  | type old new =>
    obtain ⟨cat', hverb, rfl⟩ := map_eq_ok.mp h
    exact renameTypeVerb_relabels hparents hverb
  | field typeName old new =>
    dsimp only [RenameVerb.apply] at h
    split_ifs at h with hrel
    · obtain ⟨cat', hverb, rfl⟩ := map_eq_ok.mp h
      exact renameRelationVerb_relabels hverb
    · obtain ⟨⟨cat', objects'⟩, hverb, rfl⟩ := map_eq_ok.mp h
      rw [Bool.not_eq_true] at hrel
      exact renameFieldVerb_relabels hrel hverb

theorem RenameVerb.name_follow (hrelations : Relations cat.row) (h : verb.apply cat objects = .ok r)
    {p : Path} {e : IdEntry} (hp : cat.row p = some e) (hdead : e.status = .tombstoned) :
    (verb.follow cat.row p).name = p.name := by
  have hlive : ∀ {q e'}, cat.row q = some e' → e'.status = .live → p ≠ q := by
    rintro q e' hq hst rfl
    rw [hp] at hq
    cases hq
    rw [hst] at hdead
    cases hdead
  cases verb with
  | type old new =>
    cases p with
    | type name =>
      obtain ⟨cat', hverb, rfl⟩ := map_eq_ok.mp h
      obtain ⟨entry, -, hold, hst, -⟩ := renameTypeVerb_ok hverb
      have hne : name ≠ old := fun heq =>
        hlive (q := .type old) hold hst (congrArg Path.type heq)
      simp only [RenameVerb.follow, if_neg hne]
    | field qual =>
      simp only [RenameVerb.follow, Path.name]
      split_ifs <;> rfl
    | relation qual =>
      simp only [RenameVerb.follow, Path.name]
      split_ifs <;> rfl
  | field typeName old new =>
    cases p with
    | type name => rfl
    | field qual =>
      have hne : qual ≠ qualified typeName old := by
        rintro rfl
        dsimp only [RenameVerb.apply] at h
        split_ifs at h with hrel
        · -- a live relation is not one whose field is retired
          obtain ⟨rel, hrow, hrelLive⟩ := (Option.any_eq_true _ _).mp hrel
          have hdeadRel := hrelations _ rel e hrow hp hdead
          rw [of_decide_eq_true hrelLive] at hdeadRel
          cases hdeadRel
        · obtain ⟨cat', hverb, rfl⟩ := map_eq_ok.mp h
          obtain ⟨⟨_, entry⟩, hcheck, -⟩ := bind_eq_ok.mp hverb
          obtain ⟨-, -, -, hold, hst, -⟩ := checkFieldRename_ok hcheck
          exact hlive (q := .field (qualified typeName old)) hold hst rfl
      simp only [RenameVerb.follow, if_neg hne]
    | relation qual =>
      have hnot : ¬ (qual = qualified typeName old ∧ isLiveRelation cat.row qual) := by
        rintro ⟨-, hrel⟩
        obtain ⟨rel, hrow, hst⟩ := (Option.any_eq_true _ _).mp hrel
        exact hlive hrow (of_decide_eq_true hst) rfl
      simp only [RenameVerb.follow, if_neg hnot]

structure Rewrites (follow : Path → Path) (st st' : Stored) : Prop where
  rows : Relabels reading follow st.row st'.row
  together : Together st.row follow
  counter : st'.counter = st.counter
  digest : st'.digest = st.digest
  initialized : st'.initialized = st.initialized
  formatted : st.format.isSome
  formatted' : st'.format.isSome

variable {st st' : Stored}

theorem applyMigration_rewrites (hparents : Parents st.row) (h : applyMigration st verb = .ok st') :
    Rewrites (verb.follow st.row) st st' := by
  obtain ⟨_, -, h⟩ := bind_eq_ok.mp h
  obtain ⟨cat, hload, h⟩ := bind_eq_ok.mp h
  obtain ⟨_, -, h⟩ := bind_eq_ok.mp h
  obtain ⟨r, hverb, h⟩ := bind_eq_ok.mp h
  cases pure_eq_ok.mp h
  obtain ⟨hrow, hformat⟩ := loadFormatted_ok hload
  rw [← hrow] at hparents
  refine ⟨?_, ?_, Stored.counter_putRenamed _ _, rfl, rfl, Option.isSome_of_eq_some hformat, rfl⟩
  · rw [← hrow, Stored.row_putRenamed]
    exact RenameVerb.apply_relabels hparents hverb
  · rw [← hrow]
    exact RenameVerb.apply_together hparents hverb

theorem together_id (row : Path → Option IdEntry) : Together row id := by
  intro q₁ q₂ q' e f _ _ h₁ h₂
  rw [Path.relation.inj h₁, Path.field.inj h₂]

variable {schema : Schema} {planId : Nat} {verb : FieldTypeChangeVerb} {fieldName : String}

theorem validateFieldTypeChange_ok {targetKind : Kind} {entry : IdEntry} {typeId : Nat}
    (h : validateFieldTypeChange cat schema typeName fieldName targetKind = .ok (entry, typeId)) :
    cat.fieldEntries.lookup (qualified typeName fieldName) = some entry ∧ entry.status = .live ∧
      entry.kind ≠ targetKind ∧ checkDirectives schema (qualified typeName fieldName) = .ok () ∧
      ∃ parent, cat.typeEntries.lookup typeName = some parent ∧ parent.id = typeId := by
  unfold validateFieldTypeChange at h
  dsimp only at h
  cases hentry : cat.fieldEntries.lookup (qualified typeName fieldName) with
  | none =>
    rw [hentry] at h
    cases h
  | some e =>
    rw [hentry] at h
    obtain ⟨_, hlive, h⟩ := bind_eq_ok.mp h
    obtain ⟨_, hne, h⟩ := bind_eq_ok.mp h
    obtain ⟨_, -, h⟩ := bind_eq_ok.mp h
    obtain ⟨_, hdir, h⟩ := bind_eq_ok.mp h
    obtain ⟨_, -, h⟩ := bind_eq_ok.mp h
    cases hparent : cat.typeEntries.lookup typeName with
    | none =>
      rw [hparent] at h
      cases h
    | some parent =>
      rw [hparent] at h
      cases pure_eq_ok.mp h
      exact ⟨rfl, require_eq_ok.mp hlive, require_eq_ok.mp hne, hdir, parent, rfl, rfl⟩

theorem convertRow_frame {e : ObjectKey × Engine.FieldMap} (h : convertRow verb st e = .ok st') :
    st' = { st with objects := st'.objects, versions := st'.versions } := by
  obtain ⟨fields, -, h⟩ := bind_eq_ok.mp h
  cases fields <;> cases pure_eq_ok.mp h <;> rfl

theorem convertRows_frame {rows : List (ObjectKey × Engine.FieldMap)}
    (h : rows.foldlM (convertRow verb) st = .ok st') :
    st' = { st with objects := st'.objects, versions := st'.versions } := by
  refine foldlM_induct (P := fun s => s = { st with objects := s.objects, versions := s.versions })
    (fun s s' e _ hs hstep => ?_) rfl h
  rw [convertRow_frame hstep]
  rw [hs]

theorem applyFieldTypeChange_rewrites
    (h : applyFieldTypeChange st schema verb = .ok st') : Rewrites id st st' := by
  obtain ⟨_, -, h⟩ := bind_eq_ok.mp h
  obtain ⟨cat, hload, h⟩ := bind_eq_ok.mp h
  obtain ⟨_, -, h⟩ := bind_eq_ok.mp h
  obtain ⟨⟨entry, typeId⟩, hvalid, h⟩ := bind_eq_ok.mp h
  obtain ⟨converted, hconv, h⟩ := bind_eq_ok.mp h
  cases pure_eq_ok.mp h
  obtain ⟨hrow, hformat⟩ := loadFormatted_ok hload
  obtain ⟨hentry, -⟩ := validateFieldTypeChange_ok hvalid
  refine ⟨?_, together_id _, ?_, ?_, ?_, Option.isSome_of_eq_some hformat, rfl⟩
  · rw [← hrow, Stored.row_putEntries]
    exact relabels_of_moves (.refl _) (moves_insert hentry rfl rfl) (.refl _) (fun _ => rfl)
      (fun _ => rfl) (fun _ _ _ => rfl) (fun _ => rfl)
  · rw [Stored.counter_putEntries, convertRows_frame hconv]
    rfl
  · rw [convertRows_frame hconv]
    rfl
  · rw [convertRows_frame hconv]
    rfl

theorem finalizeMigrationCutover_rewrites
    (h : finalizeMigrationCutover st planId = .ok st') : Rewrites id st st' := by
  unfold finalizeMigrationCutover at h
  cases hplan : st.plans.lookup planId with
  | none =>
    rw [hplan] at h
    cases h
  | some plan =>
    rw [hplan] at h
    obtain ⟨cat, hload, h⟩ := bind_eq_ok.mp h
    cases pure_eq_ok.mp h
    obtain ⟨hrow, hformat⟩ := loadFormatted_ok hload
    refine ⟨?_, together_id _, Stored.counter_putEntries _ _, rfl, rfl,
      Option.isSome_of_eq_some hformat, rfl⟩
    rw [Stored.row_putEntries, ← hrow]
    have hfields : Moves id cat.fieldEntries.lookup (cutoverEntries cat plan).lookup := by
      unfold cutoverEntries
      cases hentry : cat.fieldEntries.lookup (qualified plan.typeName plan.fieldName) with
      | none => exact .refl _
      | some entry =>
        dsimp only
        split_ifs
        · exact moves_insert hentry rfl rfl
        · exact .refl _
    exact relabels_of_moves (.refl _) hfields (.refl _) (fun _ => rfl) (fun _ => rfl)
      (fun _ _ _ => rfl) (fun _ => rfl)

theorem createMigrationPlan_frame {kind : Kind} {dryRun : Bool}
    (h : createMigrationPlan st schema typeName fieldName kind dryRun = .ok st') :
    st' = { st with plans := st'.plans, nextMigration := st'.nextMigration } := by
  obtain ⟨cat, -, h⟩ := bind_eq_ok.mp h
  obtain ⟨_, -, h⟩ := bind_eq_ok.mp h
  obtain ⟨r, -, h⟩ := bind_eq_ok.mp h
  cases pure_eq_ok.mp h
  rfl

theorem setPlanStatus_frame {status : Migration.MigrationStatus}
    (h : setPlanStatus st planId status = .ok st') : st' = { st with plans := st'.plans } := by
  unfold setPlanStatus at h
  cases hplan : st.plans.lookup planId with
  | none =>
    rw [hplan] at h
    cases h
  | some plan =>
    rw [hplan] at h
    cases h
    rfl

def Step.follow (st : Stored) : Step → Path → Path
  | .rename verb => if (applyMigration st verb).isOk then verb.follow st.row else id
  | _ => id

def followAll : Stored → List Step → Path → Path
  | _, [] => id
  | st, a :: as => followAll (step st a) as ∘ a.follow st

theorem Path.exists_parent {p q : Path} {t : String} (hspace : p.space = q.space)
    (hq : q.parent = some t) : ∃ t', p.parent = some t' := by
  cases q with
  | type name => cases hq
  | field qual =>
    cases p with
    | type name => cases hspace
    | field qual' => exact ⟨_, rfl⟩
    | relation qual' => cases hspace
  | relation qual =>
    cases p with
    | type name => cases hspace
    | field qual' => cases hspace
    | relation qual' => exact ⟨_, rfl⟩

variable {follow : Path → Path}

variable {row row' : Path → Option IdEntry}

theorem Parents.relabels (h : Parents row) (hrel : Relabels reading follow row row')
    (hfollow : ∀ {p t}, p.parent = some t → ∃ t', (follow p).parent = some t' ∧ follow (.type t) =
      .type t') : Parents row' := by
  intro p' e' t' hp ht
  obtain ⟨p, e, hrow, rfl, -, hdead⟩ := hrel.source hp
  obtain ⟨t, hparent⟩ := Path.exists_parent (hrel.space p).symm ht
  obtain ⟨t'', ht'', htype⟩ := hfollow hparent
  rw [ht] at ht''
  cases ht''
  obtain ⟨te, hte, htdead⟩ := h p e t hrow hparent
  obtain ⟨te', hte', -, htdead'⟩ := hrel.kept hte
  rw [htype] at hte'
  exact ⟨te', hte', fun hd => hdead.mpr (htdead (htdead'.mp hd))⟩

theorem Relations.relabels (h : Relations row) (hrel : Relabels reading follow row row')
    (htog : Together row follow) : Relations row' := by
  intro q' e' f' he hf hdead
  obtain ⟨p₁, e, hrow₁, hfollow₁, -, hdead₁⟩ := hrel.source he
  obtain ⟨p₂, f, hrow₂, hfollow₂, -, hdead₂⟩ := hrel.source hf
  have hspace₁ : p₁.space = .relation := (hrel.space p₁).symm.trans (congrArg Path.space hfollow₁)
  have hspace₂ : p₂.space = .field := (hrel.space p₂).symm.trans (congrArg Path.space hfollow₂)
  cases p₁ with
  | type n => cases hspace₁
  | field q => cases hspace₁
  | relation q₁ =>
    cases p₂ with
    | type n => cases hspace₂
    | relation q => cases hspace₂
    | field q₂ =>
      obtain rfl := htog q₁ q₂ q' e f hrow₁ hrow₂ hfollow₁ hfollow₂
      exact hdead₁.mpr (h q₁ e f hrow₁ hrow₂ (hdead₂.mp hdead))

theorem Sound.rewrites (hst : Sound st) (h : Rewrites follow st st')
    (hfollow : ∀ {p t}, p.parent = some t → ∃ t', (follow p).parent = some t' ∧ follow (.type t) =
      .type t') : Carries reading follow st.row st'.row st.counter st'.counter ∧ Sound st' := by
  refine ⟨by rw [h.counter]; exact h.rows.carries,
    ⟨?_, ?_, ?_, ?_, hst.relations.relabels h.rows h.together⟩⟩
  · rw [h.initialized, hst.marks, h.formatted, h.formatted']
  · intro hnone
    have hsome := h.formatted'
    rw [hnone] at hsome
    cases hsome
  · rw [h.counter]
    exact h.rows.identified hst.identified
  · exact hst.parents.relabels h.rows hfollow

theorem Sound.same (hst : Sound st) (hrow : st'.row = st.row) (hcounter : st'.counter = st.counter)
    (hinit : st'.initialized = st.initialized) (hformat : st'.format = st.format) :
    Carries reading id st.row st'.row st.counter st'.counter ∧ Sound st' := by
  rw [hrow, hcounter]
  refine ⟨.refl, ⟨?_, ?_, ?_, ?_, by rw [hrow]; exact hst.relations⟩⟩
  · rw [hinit, hformat]
    exact hst.marks
  · rw [hformat, hrow, hcounter]
    exact hst.blank
  · rw [hrow, hcounter]
    exact hst.identified
  · rw [hrow]
    exact hst.parents

end

section

variable {st st' : Stored} {schema : Schema} {shrink : Bool} {cat : Catalog}

theorem loadOrInitialize_cases (hst : Sound st)
    (h : loadOrInitialize st schema shrink = .ok (cat, st')) :
    (st.format = none ∧ backfill schema = .ok cat ∧
      st' = { (st.putEntries cat).putCounters cat schema.digest with initialized := true }) ∨
    (∃ format, st.format = some format ∧ loadExisting st format = .ok cat ∧
      st.digest = some schema.digest ∧ st' = st) ∨
    ∃ format loaded, st.format = some format ∧ loadExisting st format = .ok loaded ∧
      st.digest ≠ some schema.digest ∧ reconcile schema loaded st.plans shrink = .ok cat ∧
      st' = (st.putEntries cat).putCounters cat schema.digest := by
  obtain ⟨_, -, h⟩ := bind_eq_ok.mp h
  have hmarks := hst.marks
  cases hformat : st.format with
  | none =>
    rw [hformat] at h hmarks
    rw [show st.initialized = false from hmarks] at h
    obtain ⟨cat', hback, h⟩ := bind_eq_ok.mp h
    cases pure_eq_ok.mp h
    exact .inl ⟨rfl, hback, rfl⟩
  | some format =>
    rw [hformat] at h hmarks
    rw [show st.initialized = true from hmarks] at h
    obtain ⟨_, -, h⟩ := bind_eq_ok.mp h
    obtain ⟨loaded, hload, h⟩ := bind_eq_ok.mp h
    cases hdigest : st.digest with
    | none =>
      rw [hdigest] at h
      cases h
    | some digest =>
      rw [hdigest] at h
      dsimp only at h
      split_ifs at h with hsame
      · cases pure_eq_ok.mp h
        exact .inr (.inl ⟨format, rfl, hload, by rw [hsame], rfl⟩)
      · obtain ⟨cat', hrec, h⟩ := bind_eq_ok.mp h
        cases pure_eq_ok.mp h
        refine .inr (.inr ⟨format, loaded, rfl, hload, fun heq => hsame ?_, hrec, rfl⟩)
        exact Option.some.inj heq

theorem loadOrInitialize_carries (hst : Sound st)
    (h : loadOrInitialize st schema shrink = .ok (cat, st')) :
    Carries reading id st.row st'.row st.counter st'.counter ∧ Sound st' := by
  rcases loadOrInitialize_cases hst h with ⟨hformat, hback, rfl⟩ | ⟨_, _, _, _, rfl⟩ |
    ⟨format, loaded, hformat, hload, -, hrec, rfl⟩
  · obtain ⟨hrows, hcounters⟩ := hst.blank hformat
    obtain ⟨hgrown, -⟩ := backfill_ok hback
    refine ⟨⟨fun _ => rfl, ?_, ?_, ?_⟩, ⟨rfl, nofun, hgrown.identified, hgrown.parents, ?_⟩⟩
    · intro p e hp
      rw [hrows] at hp
      cases hp
    · intro p e _
      rw [hcounters]
      exact .inr (Nat.zero_le _)
    · intro k
      rw [hcounters]
      exact Nat.zero_le _
    · intro qual e f _ hf hdead
      have hrow : cat.row (.field qual) = some f := hf
      have hlive : f.status = .live := by
        rcases hgrown.new hrow with hold | ⟨-, hlive, -⟩
        · cases hold
        · exact hlive
      rw [hlive] at hdead
      cases hdead
  · exact ⟨.refl, hst⟩
  · obtain ⟨hrow, hnext, -⟩ := loadExisting_ok hload
    have hid := hst.identified_next hload
    have hparents := hst.parents
    rw [← hrow] at hparents
    obtain ⟨grown, hrec⟩ := reconcile_ok hid hparents hrec
    have hcarries := hrec.carries
    refine ⟨⟨fun _ => rfl, ?_, ?_, ?_⟩, ⟨?_, nofun, ?_, ?_, ?_⟩⟩
    · intro p e hp
      rw [← hrow] at hp
      exact hcarries.kept hp
    · intro p e hp
      rw [← hrow]
      rcases hcarries.born hp with hold | hfresh
      · exact .inl hold
      · exact .inr ((hnext _).trans hfresh)
    · intro k
      exact (hnext k).trans (hcarries.mono k)
    · exact (hst.marks.trans (by rw [hformat]; rfl))
    · exact hrec.identified
    · exact hrec.parents
    · exact hrec.relations

end

variable {st : Stored}

variable {p : Path}

variable {t : String} {e : IdEntry}

theorem Rewrites.id_follow (hp : p.parent = some t) :
    ∃ t', (id p).parent = some t' ∧ id (Path.type t) = .type t' := ⟨t, hp, rfl⟩

theorem step_carries (hst : Sound st) (a : Step) :
    Carries reading (a.follow st) st.row (step st a).row st.counter (step st a).counter ∧
      Sound (step st a) := by
  unfold step
  cases hok : attempt st a with
  | error e =>
    have hfollow : a.follow st = id := by
      cases a with
      | rename verb =>
        have herr : applyMigration st verb = .error e := hok
        simp only [Step.follow, herr]
        rfl
      | _ => rfl
    rw [hfollow]
    exact ⟨.refl, hst⟩
  | ok st' =>
    cases a with
    | «open» schema shrink =>
      obtain ⟨⟨cat, st''⟩, hload, rfl⟩ := map_eq_ok.mp hok
      exact loadOrInitialize_carries hst hload
    | rename verb =>
      have hverb : applyMigration st verb = .ok st' := hok
      have hfollow : (Step.rename verb).follow st = verb.follow st.row := by
        simp only [Step.follow, hverb]
        rfl
      rw [hfollow]
      exact hst.rewrites (applyMigration_rewrites hst.parents hverb) (verb.parent_follow st.row)
    | changeFieldType schema verb =>
      exact hst.rewrites (applyFieldTypeChange_rewrites hok) Rewrites.id_follow
    | createPlan schema typeName fieldName kind dryRun =>
      have hcreate : createMigrationPlan st schema typeName fieldName kind dryRun = .ok st' := hok
      rw [createMigrationPlan_frame hcreate]
      exact hst.same rfl rfl rfl rfl
    | setPlanStatus planId status =>
      have hset : SchemaCatalog.setPlanStatus st planId status = .ok st' := hok
      rw [setPlanStatus_frame hset]
      exact hst.same rfl rfl rfl rfl
    | finalizeCutover planId =>
      exact hst.rewrites (finalizeMigrationCutover_rewrites hok) Rewrites.id_follow
    | writeObjects objects versions =>
      cases hok
      exact hst.same rfl rfl rfl rfl
    | logApplied ordinal name =>
      cases hok
      exact hst.same rfl rfl rfl rfl

theorem sound_empty : Sound Stored.empty where
  marks := rfl
  blank _ := by
    constructor
    · intro p
      cases p <;> rfl
    · intro k
      cases k <;> rfl
  identified := by
    constructor
    · intro p q e f hp
      cases p <;> cases hp
    · intro p e hp
      cases p <;> cases hp
  parents := by
    intro p e t hp
    cases p <;> cases hp
  relations := by
    intro qual e f hp
    cases hp

theorem run_carries (hst : Sound st) (steps : List Step) :
    Carries reading (followAll st steps) st.row (exec step st steps).row st.counter
      (exec step st steps).counter ∧ Sound (exec step st steps) := by
  induction steps generalizing st with
  | nil => exact ⟨.refl, hst⟩
  | cons a steps ih =>
    obtain ⟨hcarries, hsound⟩ := step_carries hst a
    obtain ⟨hcarries', hsound'⟩ := ih hsound
    exact ⟨hcarries.trans hcarries', hsound'⟩

theorem step_retired (hst : Sound st) (hp : st.row p = some e)
    (hdead : e.status = .tombstoned) (a : Step) : (a.follow st p).name = p.name := by
  cases a with
  | rename verb =>
    dsimp only [Step.follow]
    split_ifs with hok
    · cases hverb : applyMigration st verb with
      | error err =>
        rw [hverb] at hok
        cases hok
      | ok st' =>
        obtain ⟨_, -, hverb⟩ := bind_eq_ok.mp hverb
        obtain ⟨cat, hload, hverb⟩ := bind_eq_ok.mp hverb
        obtain ⟨_, -, hverb⟩ := bind_eq_ok.mp hverb
        obtain ⟨r, hverb, -⟩ := bind_eq_ok.mp hverb
        obtain ⟨hrow, -⟩ := loadFormatted_ok hload
        have hrelations := hst.relations
        rw [← hrow] at hp hrelations ⊢
        exact RenameVerb.name_follow hrelations hverb hp hdead
    · rfl
  | _ => rfl

theorem followAll_retired (hst : Sound st) (steps : List Step)
    (hp : st.row p = some e) (hdead : e.status = .tombstoned) :
    (followAll st steps p).name = p.name := by
  induction steps generalizing st p e with
  | nil => rfl
  | cons a steps ih =>
    obtain ⟨hcarries, hsound⟩ := step_carries hst a
    obtain ⟨e', hp', -, hdead'⟩ := hcarries.kept hp
    exact (ih hsound hp' (hdead' hdead)).trans (step_retired hst hp hdead a)

theorem step_parent (st : Stored) (hp : p.parent = some t) (a : Step) :
    ∃ t', (a.follow st p).parent = some t' ∧ a.follow st (.type t) = .type t' := by
  cases a with
  | rename verb =>
    dsimp only [Step.follow]
    split_ifs
    · exact verb.parent_follow st.row hp
    · exact ⟨t, hp, rfl⟩
  | _ => exact ⟨t, hp, rfl⟩

theorem followAll_parent (steps : List Step) (hp : p.parent = some t) :
    ∃ t', (followAll st steps p).parent = some t' ∧ followAll st steps (.type t) = .type t' := by
  induction steps generalizing st p t with
  | nil => exact ⟨t, hp, rfl⟩
  | cons a steps ih =>
    obtain ⟨t₁, hparent, htype⟩ := step_parent st hp a
    obtain ⟨t₂, hparent', htype'⟩ := @ih (step st a) _ _ hparent
    exact ⟨t₂, hparent', by
      rw [← htype']
      exact congrArg (followAll (step st a) steps) htype⟩

/-- What becomes of the row that `st` has under `p`. It is there still, under the name that the
renames since took it to, with its id; no other row of its space has that id; the counter is above
it; and a retired row is retired still, and has kept its name under its type. -/
structure Kept (st : Stored) (after : List Step) (p : Path) (e : IdEntry) : Prop where
  there : ∃ e', (exec step st after).row (followAll st after p) = some e' ∧ e'.id = e.id ∧
    (e.status = .tombstoned → e'.status = .tombstoned)
  alone : ∀ {q f}, (exec step st after).row q = some f → q.space = p.space → f.id = e.id →
    q = followAll st after p
  below : e.id < (exec step st after).counter p.space
  parent : ∀ {t}, p.parent = some t → ∃ t', (followAll st after p).parent = some t' ∧
    followAll st after (.type t) = .type t'
  name : e.status = .tombstoned → (followAll st after p).name = p.name

theorem Sound.kept (hst : Sound st) (after : List Step) (hp : st.row p = some e) :
    Kept st after p e := by
  obtain ⟨hcarries, hst'⟩ := run_carries hst after
  exact ⟨hcarries.kept hp, fun hq hspace hid => hcarries.owner hst'.identified hp hq hspace hid,
    hcarries.below hst.identified hp, fun ht => followAll_parent after ht,
    fun hdead => followAll_retired hst after hp hdead⟩

/-- No name of the schema is a retired row's. -/
def NoneRetired (schema : Schema) (row : Path → Option IdEntry) : Prop :=
  ∀ p e, schema.Names p → row p = some e → e.status = .live

/-- An open of a schema that the stored digest vouches for looks at no row of the catalog. -/
def Vouches (st : Stored) : Step → Prop
  | .open schema _ => st.digest = some schema.digest → NoneRetired schema st.row
  | _ => True

/-- What an open that goes through leaves. What it reconciles has every name of the schema live, and
has retired under its id whatever the schema does not name. -/
structure Opens (st : Stored) (schema : Schema) (cat : Catalog) (st' : Stored) : Prop where
  row : cat.row = st'.row
  bound : NoneRetired schema cat.row
  named : st.digest ≠ some schema.digest → ∀ p, schema.Names p →
    ∃ e, cat.row p = some e ∧ e.status = .live
  dropped : st.digest ≠ some schema.digest → ∀ p e, st.row p = some e → ¬ schema.Names p →
    ∃ e', cat.row p = some e' ∧ e'.id = e.id ∧ e'.status = .tombstoned

theorem Grown.live (h : Grown schema cat₀ cat) (hold : NoneRetired schema cat₀.row) :
    NoneRetired schema cat.row := by
  intro p e hp hrow
  rcases h.new hrow with hrow | ⟨-, hlive, -⟩
  · exact hold p e hp hrow
  · exact hlive

theorem loadOrInitialize_opens {schema : Schema} {shrink : Bool} {cat : Catalog} {st' : Stored}
    (hst : Sound st) (hvouches : Vouches st (.open schema shrink))
    (h : loadOrInitialize st schema shrink = .ok (cat, st')) : Opens st schema cat st' := by
  rcases loadOrInitialize_cases hst h with ⟨hformat, hback, rfl⟩ | ⟨_, _, hload, hsame, rfl⟩ |
    ⟨format, loaded, hformat, hload, hdiffers, hrec, rfl⟩
  · obtain ⟨hgrown, hcovers⟩ := backfill_ok hback
    have hlive : NoneRetired schema cat.row := hgrown.live fun p e _ hrow => by
      cases p <;> cases hrow
    refine ⟨by rw [← Stored.row_putEntries st cat]; funext p; cases p <;> rfl, hlive, ?_, ?_⟩
    · intro _ p hp
      obtain ⟨e, he⟩ := Option.isSome_iff_exists.mp (hcovers.row hp)
      exact ⟨e, he, hlive p e hp he⟩
    · intro _ p e hp
      rw [(hst.blank hformat).1] at hp
      cases hp
  · obtain ⟨hrow, -⟩ := loadExisting_ok hload
    refine ⟨hrow, ?_, fun hdiffers => absurd hsame hdiffers, fun hdiffers => absurd hsame hdiffers⟩
    rw [hrow]
    exact hvouches hsame
  · obtain ⟨hrow, -⟩ := loadExisting_ok hload
    have hparents := hst.parents
    rw [← hrow] at hparents
    obtain ⟨grown, hrec⟩ := reconcile_ok (hst.identified_next hload) hparents hrec
    have hgrown : NoneRetired schema grown.row := hrec.grows.live fun p e => hrec.live
    have hnot : ∀ {p}, schema.Names p → ¬ Retires schema loaded p := by
      rintro p hp ⟨-, -, -, hunnamed⟩
      exact hunnamed hp
    refine ⟨by rw [Stored.row_putCounters, Stored.row_putEntries], ?_, ?_, ?_⟩
    · intro p e hp he
      rw [hrec.same (hnot hp)] at he
      exact hgrown p e hp he
    · intro _ p hp
      obtain ⟨e, he⟩ := Option.isSome_iff_exists.mp (hrec.covers.row hp)
      exact ⟨e, (hrec.same (hnot hp)).trans he, hgrown p e hp he⟩
    · intro _ p e hp hunnamed
      rw [← hrow] at hp
      obtain ⟨e', hp', hid, hdead⟩ := hrec.kept hp
      refine ⟨e', hp', hid, ?_⟩
      cases hstatus : e.status with
      | tombstoned => exact hdead hstatus
      | live =>
        obtain ⟨reason, hrow'⟩ := hrec.retired ⟨e, hp, hstatus, hunnamed⟩
        rw [hrec.grows.old hp, hp'] at hrow'
        cases hrow'
        rfl

/-- Ids are for ever, all along a history. -/
structure IdsForEver (steps : List Step) : Prop where
  kept : ∀ {before after p e}, steps = before ++ after → (exec step .empty before).row p = some e →
    Kept (exec step .empty before) after p e
  opens : ∀ {before schema shrink after cat st'}, steps = before ++ .open schema shrink :: after →
    loadOrInitialize (exec step .empty before) schema shrink = .ok (cat, st') →
      Opens (exec step .empty before) schema cat st'

/-- Where the stored digest of a history never vouches for a schema with a retired row's name, a row
keeps its id, a dropped row is retired under its own, and no open binds its name again. -/
theorem ids_for_ever (steps : List Step) (h : Along step Vouches .empty steps) :
    IdsForEver steps where
  kept := by
    rintro before after p e rfl hp
    exact (run_carries sound_empty before).2.kept after hp
  opens := by
    rintro before schema shrink after cat st' rfl hload
    obtain ⟨-, hvouches, -⟩ := along_append.mp h
    exact loadOrInitialize_opens (run_carries sound_empty before).2 hvouches hload

def bareSchema (name : String) : Schema where
  types := SortedMap.empty.insert name []
  fieldNames e he := by
    rw [SortedMap.mem_insert] at he
    rcases he with rfl | ⟨he, -⟩
    · exact List.nodup_nil
    · cases he

/-- A type is renamed and then dropped: its id stays with it, and neither name can be had again. -/
theorem ids_for_ever_dropped : IdsForEver [.open (bareSchema "User") false,
    .rename (.type "User" "Account"), .open (bareSchema "Item") true,
    .open (bareSchema "Account") true] := by
  refine ids_for_ever _ ⟨fun hsame => ?_, trivial, fun hsame => ?_, fun hsame => ?_, trivial⟩
  all_goals exact absurd hsame (by decide +kernel)

/-- Two types, the first with the field `done`. -/
def withDone (owner other : String) : Schema where
  types := (bareSchema other).types.insert owner
    [⟨"done", .scalar .bool, false, false, false, false, none⟩]
  fieldNames e he := by
    rw [SortedMap.mem_insert] at he
    rcases he with rfl | ⟨he, -⟩
    · exact List.nodup_singleton _
    · exact (bareSchema other).fieldNames e he

/-- A field of a type is dropped, another one of the same name is added to another type, and the two
types change names: the schema's digest is the stored one. -/
theorem swapped_rebinds : ¬ ∀ steps : List Step, IdsForEver steps := by
  intro hclaim
  have hopened : (loadOrInitialize (exec step .empty [.open (withDone "B" "A") false,
      .open (withDone "A" "B") true, .rename (.type "A" "C"), .rename (.type "B" "A"),
      .rename (.type "C" "B")]) (withDone "A" "B") false).map
        (fun r => (r.1.row (.field (qualified "A" "done"))).map IdEntry.status) =
      .ok (some .tombstoned) := by decide +kernel
  obtain ⟨⟨cat, st'⟩, hload, hrow⟩ := map_eq_ok.mp hopened
  obtain ⟨e, he, hdead⟩ := Option.map_eq_some_iff.mp hrow
  have hlive := (IdsForEver.opens (hclaim (_ ++ .open (withDone "A" "B") false :: [])) rfl
    hload).bound _ e (by decide +kernel) he
  rw [hdead] at hlive
  cases hlive

end RhypeDb.SchemaCatalog
