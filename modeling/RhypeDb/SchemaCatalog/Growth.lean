import RhypeDb.SchemaCatalog.Rows

/-! What an open adds: every name of the schema that has no row is given one, under the next id of
its space, and every row there was stays. -/

namespace RhypeDb.SchemaCatalog

open Fallible Function Lineage List Option Schema SortedMap

section

variable {schema : Schema} {f : FieldDef}

def Schema.Declares (schema : Schema) : Path → Kind → Prop
  | .type name, _ => (schema.types.lookup name).isSome
  | .field qual, kind => ∃ f, schema.field? qual = some f ∧ kind = schemaKind f.fieldType
  | .relation qual, _ => ∃ f, schema.field? qual = some f ∧ f.isRelation

theorem Schema.Declares.names {p : Path} {kind : Kind} (h : schema.Declares p kind) :
    schema.Names p := by
  cases p with
  | type name => exact h
  | field qual =>
    obtain ⟨f, hf, -⟩ := h
    change (schema.field? qual).isSome
    rw [hf]
    rfl
  | relation qual =>
    obtain ⟨f, hf, hrel⟩ := h
    change (schema.field? qual).any FieldDef.isRelation
    rw [hf]
    exact hrel

theorem Schema.field?_of_mem {e : String × List FieldDef}
    (he : e ∈ schema.types.entries) (hf : f ∈ e.2) :
    schema.field? (qualified e.1 f.name) = some f := by
  have htype : schema.types.lookup e.1 = some e.2 := lookup_eq_some.mpr he
  unfold Schema.field?
  rw [splitQualified_qualified, htype, bind_some]
  cases hfind : e.2.find? fun g => decide (g.name = f.name) with
  | none => simpa using List.find?_eq_none.mp hfind f hf
  | some g =>
    have hname : g.name = f.name := by simpa using find?_some hfind
    rw [inj_on_of_nodup_map (schema.fieldNames e he) (mem_of_find?_eq_some hfind) hf hname]

theorem Schema.mem_of_field? {qual : Qualified} (h : schema.field? qual = some f) :
    ∃ e ∈ schema.types.entries, f ∈ e.2 ∧ qualified e.1 f.name = qual := by
  obtain ⟨fields, hfields, hfind⟩ := bind_eq_some_iff.mp h
  refine ⟨_, lookup_eq_some.mp hfields, mem_of_find?_eq_some hfind, ?_⟩
  have hname : f.name = (splitQualified qual).2 := by simpa using find?_some hfind
  rw [hname, qualified_split]

end

def Parents (row : Path → Option IdEntry) : Prop :=
  ∀ p e t, row p = some e → p.parent = some t →
    ∃ e', row (.type t) = some e' ∧ (e'.status = .tombstoned → e.status = .tombstoned)

def Relations (row : Path → Option IdEntry) : Prop :=
  ∀ qual e f, row (.relation qual) = some e → row (.field qual) = some f →
    f.status = .tombstoned → e.status = .tombstoned

variable {p : Path}

theorem Parents.allocate {row : Path → Option IdEntry} (h : Parents row) {e : IdEntry}
    (hlive : e.status = .live)
    (hparent : ∀ t, p.parent = some t → ∃ e', row (.type t) = some e' ∧ e'.status = .live) :
    Parents (Function.update row p (some e)) := by
  intro q f t hq ht
  rw [update_apply] at hq
  by_cases htype : Path.type t = p
  · refine ⟨e, by rw [htype, update_self], fun hdead => ?_⟩
    rw [hlive] at hdead
    cases hdead
  · rw [update_of_ne htype]
    split_ifs at hq with hqp
    · subst hqp
      obtain ⟨e', hrow, hst⟩ := hparent t ht
      refine ⟨e', hrow, fun hdead => ?_⟩
      rw [hst] at hdead
      cases hdead
    · exact h q f t hq ht

/-- `cat` is `cat₀` with rows added that the schema declares. -/
structure Grown (schema : Schema) (cat₀ cat : Catalog) : Prop where
  carries : Carries reading id cat₀.row cat.row cat₀.next cat.next
  identified : Identified reading cat.row cat.next
  parents : Parents cat.row
  old : ∀ {p e}, cat₀.row p = some e → cat.row p = some e
  new : ∀ {p e}, cat.row p = some e →
    cat₀.row p = some e ∨ cat₀.row p = none ∧ e.status = .live ∧ schema.Declares p e.kind

variable {schema : Schema} {cat₀ cat cat' : Catalog} {e : String × List FieldDef}

theorem Grown.refl (hid : Identified reading cat.row cat.next) (hparents : Parents cat.row) :
    Grown schema cat cat where
  carries := .refl
  identified := hid
  parents := hparents
  old h := h
  new h := .inl h

theorem Grown.allocate (h : Grown schema cat₀ cat) {kind : Kind}
    (hnone : cat₀.row p = none) (halloc : Allocates cat p kind cat')
    (hdecl : schema.Declares p kind)
    (hparent : ∀ t, p.parent = some t → ∃ e, cat.row (.type t) = some e ∧ e.status = .live) :
    Grown schema cat₀ cat' := by
  obtain ⟨assignedBy, hrow, hnext⟩ := halloc
  have hid : reading.id (.new assignedBy (cat.next p.space) kind) = cat.next (reading.space p) := rfl
  have hidentified := h.identified.allocate hid
  have hparents := Parents.allocate h.parents (e := .new assignedBy (cat.next p.space) kind) rfl hparent
  have hne : ∀ {q e}, cat₀.row q = some e → q ≠ p := by
    rintro q e hq rfl
    rw [hnone] at hq
    cases hq
  refine ⟨⟨fun _ => rfl, ?_, ?_, ?_⟩, ?_, ?_, ?_, ?_⟩
  · intro q e hq
    refine ⟨e, ?_, rfl, fun hr => hr⟩
    rw [hrow]
    exact (update_of_ne (hne hq) _ _).trans (h.old hq)
  · intro q e hq
    rw [hrow, update_apply] at hq
    split_ifs at hq with hqp
    · subst hqp
      cases hq
      exact .inr (h.carries.mono _)
    · exact h.carries.born hq
  · intro k
    rw [hnext, update_apply]
    split_ifs with hk
    · rw [hk]
      exact (h.carries.mono _).trans (Nat.le_succ _)
    · exact h.carries.mono k
  · rw [hrow, hnext]
    exact hidentified
  · rw [hrow]
    exact hparents
  · intro q e hq
    rw [hrow, update_of_ne (hne hq)]
    exact h.old hq
  · intro q e hq
    rw [hrow, update_apply] at hq
    split_ifs at hq with hqp
    · subst hqp
      cases hq
      exact .inr ⟨hnone, rfl, hdecl⟩
    · exact h.new hq

def LiveType (cat : Catalog) (t : String) : Prop :=
  ∃ e, cat.row (.type t) = some e ∧ e.status = .live

structure Extends (cat cat' : Catalog) : Prop where
  isSome : ∀ q, (cat.row q).isSome → (cat'.row q).isSome
  liveType : ∀ t, LiveType cat t → LiveType cat' t

theorem Extends.refl : Extends cat cat := ⟨fun _ h => h, fun _ h => h⟩

theorem Extends.trans {cat'' : Catalog} (h : Extends cat cat') (h' : Extends cat' cat'') :
    Extends cat cat'' :=
  ⟨fun q hq => h'.isSome q (h.isSome q hq), fun t ht => h'.liveType t (h.liveType t ht)⟩

theorem Grown.fold {α : Type} {step : Catalog → α → Except CatalogError Catalog}
    {Q : α → Catalog → Prop} {l : List α}
    (hstep : ∀ {c c' x}, x ∈ l → Grown schema cat₀ c → Extends cat c → step c x = .ok c' →
      Grown schema cat₀ c' ∧ Extends c c' ∧ Q x c')
    (hQ : ∀ x c c', Q x c → Extends c c' → Q x c') (h : Grown schema cat₀ cat)
    (hfold : l.foldlM step cat = .ok cat') :
    Grown schema cat₀ cat' ∧ Extends cat cat' ∧ ∀ x ∈ l, Q x cat' := by
  have hgen : ∀ (l' : List α) (c : Catalog), (∀ x ∈ l', x ∈ l) → Grown schema cat₀ c → Extends cat c →
      l'.foldlM step c = .ok cat' →
      Grown schema cat₀ cat' ∧ Extends c cat' ∧ ∀ x ∈ l', Q x cat' := by
    intro l'
    induction l' with
    | nil =>
      rintro c - hc - hok
      cases hok
      exact ⟨hc, .refl, nofun⟩
    | cons x l' ih =>
      intro c hl hc hext hok
      obtain ⟨mid, hmid, hok⟩ := bind_eq_ok.mp hok
      obtain ⟨hmid', hext', hx⟩ := hstep (hl x mem_cons_self) hc hext hmid
      obtain ⟨hgrown, hrest, hall⟩ :=
        ih mid (fun y hy => hl y (mem_cons_of_mem x hy)) hmid' (hext.trans hext') hok
      refine ⟨hgrown, hext'.trans hrest, ?_⟩
      rw [forall_mem_cons]
      exact ⟨hQ x mid cat' hx hrest, hall⟩
  exact hgen l cat (fun _ hx => hx) h .refl hfold

section

/-- The path has a row already, or is given one; what was there at first is never replaced. -/
def Provides (cat₀ cat : Catalog) (p : Path) (kind : Kind) (cat' : Catalog) : Prop :=
  cat' = cat ∧ (cat.row p).isSome ∨ cat₀.row p = none ∧ Allocates cat p kind cat'

variable {kind : Kind}

theorem Provides.row_self (h : Provides cat₀ cat p kind cat') : (cat'.row p).isSome := by
  rcases h with ⟨rfl, hsome⟩ | ⟨-, _, hrow, -⟩
  · exact hsome
  · rw [hrow, update_self]
    rfl

theorem Provides.extends (h : Provides cat₀ cat p kind cat') : Extends cat cat' := by
  rcases h with ⟨rfl, -⟩ | ⟨-, _, hrow, -⟩
  · exact .refl
  · constructor
    · intro q hq
      rw [hrow, update_apply]
      split_ifs
      · rfl
      · exact hq
    · intro t ht
      unfold LiveType
      rw [hrow, update_apply]
      split_ifs
      · exact ⟨_, rfl, rfl⟩
      · exact ht

theorem Grown.provides (h : Grown schema cat₀ cat) (hp : Provides cat₀ cat p kind cat')
    (hdecl : schema.Declares p kind) (hparent : ∀ t, p.parent = some t → LiveType cat t) :
    Grown schema cat₀ cat' := by
  rcases hp with ⟨rfl, -⟩ | ⟨hnone, halloc⟩
  · exact h
  · exact h.allocate hnone halloc hdecl hparent

variable {t : String} {f : FieldDef} {qual : Qualified}

def ProvidesField (cat₀ cat : Catalog) (t : String) (f : FieldDef) (cat' : Catalog) : Prop :=
  ∃ mid, Provides cat₀ cat (.field (qualified t f.name)) (schemaKind f.fieldType) mid ∧
    if f.isRelation then Provides cat₀ mid (.relation (qualified t f.name)) .relation cat'
    else cat' = mid

def HasField (cat : Catalog) (t : String) (f : FieldDef) : Prop :=
  (cat.row (.field (qualified t f.name))).isSome ∧
    (f.isRelation → (cat.row (.relation (qualified t f.name))).isSome)

theorem HasField.extends (h : HasField cat t f) (hext : Extends cat cat') : HasField cat' t f :=
  ⟨hext.isSome _ h.1, fun hrel => hext.isSome _ (h.2 hrel)⟩

theorem ProvidesField.extends (h : ProvidesField cat₀ cat t f cat') : Extends cat cat' := by
  obtain ⟨mid, hfield, hrel⟩ := h
  split_ifs at hrel
  · exact hfield.extends.trans hrel.extends
  · rw [hrel]
    exact hfield.extends

theorem ProvidesField.hasField (h : ProvidesField cat₀ cat t f cat') : HasField cat' t f := by
  obtain ⟨mid, hfield, hrel⟩ := h
  split_ifs at hrel with hf
  · exact ⟨hrel.extends.isSome _ hfield.row_self, fun _ => hrel.row_self⟩
  · rw [hrel]
    exact ⟨hfield.row_self, fun htrue => absurd htrue hf⟩

theorem Grown.providesField (h : Grown schema cat₀ cat) (hp : ProvidesField cat₀ cat t f cat')
    (hf : schema.field? (qualified t f.name) = some f) (ht : LiveType cat t) :
    Grown schema cat₀ cat' := by
  obtain ⟨mid, hfield, hrel⟩ := hp
  have hparent : ∀ {c : Catalog} {qual : Qualified}, qual = qualified t f.name → LiveType c t →
      ∀ t', some (splitQualified qual).1 = some t' → LiveType c t' := by
    rintro c _ rfl hc t' ht'
    cases ht'
    exact hc
  have hmid := h.provides hfield ⟨f, hf, rfl⟩ (hparent rfl ht)
  split_ifs at hrel with hisrel
  · exact hmid.provides hrel ⟨f, hf, hisrel⟩ (hparent rfl (hfield.extends.liveType t ht))
  · rw [hrel]
    exact hmid

theorem backfillField_ok (hblank : ∀ p, cat₀.row p = none)
    (h : backfillField t cat f = .ok cat') : ProvidesField cat₀ cat t f cat' := by
  obtain ⟨mid, hmid, h⟩ := bind_eq_ok.mp h
  refine ⟨mid, .inr ⟨hblank _, allocateField_ok hmid⟩, ?_⟩
  split_ifs at h ⊢
  · exact .inr ⟨hblank _, allocateRel_ok h⟩
  · exact (pure_eq_ok.mp h).symm

theorem Grown.row_none (h : Grown schema cat₀ cat) {p : Path} (hp : cat.row p = none) :
    cat₀.row p = none := by
  cases hold : cat₀.row p with
  | none => rfl
  | some e =>
    rw [h.old hold] at hp
    cases hp

theorem ensureField_ok {kind : Kind} (hgrown : Grown schema cat₀ cat)
    (h : ensureField cat qual kind = .ok cat') : Provides cat₀ cat (.field qual) kind cat' := by
  unfold ensureField at h
  split_ifs at h with hsome
  · exact .inl ⟨(Except.ok.inj h).symm, hsome⟩
  · rw [Bool.not_eq_true, isSome_eq_false_iff, isNone_iff_eq_none] at hsome
    exact .inr ⟨hgrown.row_none hsome, allocateField_ok h⟩

theorem ensureRel_ok (hgrown : Grown schema cat₀ cat)
    (h : ensureRel cat qual = .ok cat') : Provides cat₀ cat (.relation qual) .relation cat' := by
  unfold ensureRel at h
  split_ifs at h with hsome
  · exact .inl ⟨(Except.ok.inj h).symm, hsome⟩
  · rw [Bool.not_eq_true, isSome_eq_false_iff, isNone_iff_eq_none] at hsome
    exact .inr ⟨hgrown.row_none hsome, allocateRel_ok h⟩

theorem addField_ok (hgrown : Grown schema cat₀ cat)
    (hf : schema.field? (qualified t f.name) = some f) (ht : LiveType cat t)
    (h : addField t cat f = .ok cat') : ProvidesField cat₀ cat t f cat' := by
  obtain ⟨mid, hmid, h⟩ := bind_eq_ok.mp h
  have hfield := ensureField_ok hgrown hmid
  refine ⟨mid, hfield, ?_⟩
  have hgrown' : Grown schema cat₀ mid := hgrown.provides hfield ⟨f, hf, rfl⟩ (by
    rintro t' ht'
    cases ht'
    exact ht)
  split_ifs at h ⊢
  · exact ensureRel_ok hgrown' h
  · exact (pure_eq_ok.mp h).symm

end

def HasType (cat : Catalog) (e : String × List FieldDef) : Prop :=
  (cat.row (.type e.1)).isSome ∧ ∀ f ∈ e.2, HasField cat e.1 f

theorem HasType.extends (h : HasType cat e) (hext : Extends cat cat') : HasType cat' e :=
  ⟨hext.isSome _ h.1, fun f hf => (h.2 f hf).extends hext⟩

def Covers (schema : Schema) (cat : Catalog) : Prop := ∀ e ∈ schema.types.entries, HasType cat e

theorem Covers.row (h : Covers schema cat) (hp : schema.Names p) : (cat.row p).isSome := by
  cases p with
  | type name =>
    obtain ⟨fields, hfields⟩ := isSome_iff_exists.mp hp
    exact (h _ (lookup_eq_some.mp hfields)).1
  | field qual =>
    obtain ⟨f, hf⟩ := isSome_iff_exists.mp hp
    obtain ⟨e, he, hmem, rfl⟩ := mem_of_field? hf
    exact ((h e he).2 f hmem).1
  | relation qual =>
    obtain ⟨f, hf, hrel⟩ := (Option.any_eq_true _ _).mp hp
    obtain ⟨e, he, hmem, rfl⟩ := mem_of_field? hf
    exact ((h e he).2 f hmem).2 hrel

theorem Grown.backfillType (he : e ∈ schema.types.entries)
    (h : Grown schema .empty cat) (hok : backfillType cat e = .ok cat') :
    Grown schema .empty cat' ∧ Extends cat cat' ∧ HasType cat' e := by
  have hblank : ∀ p, Catalog.empty.row p = none := by
    intro p
    cases p <;> rfl
  obtain ⟨mid, hmid, hok⟩ := bind_eq_ok.mp hok
  have hprov : Provides .empty cat (.type e.1) .unset mid := .inr ⟨hblank _, allocateType_ok hmid⟩
  have hnamed : (schema.types.lookup e.1).isSome :=
    isSome_of_eq_some (lookup_eq_some.mpr he)
  have hgrown := h.provides hprov hnamed nofun
  have hlive : LiveType mid e.1 := by
    obtain ⟨_, hrow, -⟩ := allocateType_ok hmid
    unfold LiveType
    rw [hrow, update_self]
    exact ⟨_, rfl, rfl⟩
  obtain ⟨hgrown', hext, hhas⟩ := hgrown.fold (Q := fun f c => HasField c e.1 f)
    (fun {_ _ f} hf hc hext hstep => by
      have hprov := backfillField_ok hblank hstep
      have hdecl := field?_of_mem he hf
      exact ⟨hc.providesField hprov hdecl (hext.liveType _ hlive), hprov.extends, hprov.hasField⟩)
    (fun _ _ _ hhas => hhas.extends) hok
  exact ⟨hgrown', hprov.extends.trans hext, hext.isSome _ hprov.row_self, hhas⟩

theorem backfill_ok (h : backfill schema = .ok cat) :
    Grown schema .empty cat ∧ Covers schema cat := by
  have hempty : Grown schema .empty .empty := by
    refine .refl ⟨?_, ?_⟩ ?_
    · intro p q e f hp
      cases p <;> cases hp
    · intro p e hp
      cases p <;> cases hp
    · intro p e t hp
      cases p <;> cases hp
  obtain ⟨hgrown, -, hcover⟩ := hempty.fold (Q := fun e c => HasType c e)
    (fun he hc _ hstep => hc.backfillType he hstep) (fun _ _ _ hhas => hhas.extends) h
  exact ⟨hgrown, hcover⟩

def TypesLive (schema : Schema) (cat : Catalog) : Prop :=
  ∀ {t e}, (schema.types.lookup t).isSome → cat.row (.type t) = some e → e.status = .live

theorem addType_ok (hgrown : Grown schema cat₀ cat)
    (h : addType cat e = .ok cat') : Provides cat₀ cat (.type e.1) .unset cat' := by
  unfold addType at h
  split_ifs at h with hsome
  · exact .inl ⟨(Except.ok.inj h).symm, hsome⟩
  · rw [Bool.not_eq_true, isSome_eq_false_iff, isNone_iff_eq_none] at hsome
    exact .inr ⟨hgrown.row_none hsome, allocateType_ok h⟩

theorem Grown.liveType (h : Grown schema cat₀ cat) (hlive : TypesLive schema cat₀) {t : String}
    (hnamed : (schema.types.lookup t).isSome) (hrow : (cat.row (.type t)).isSome) :
    LiveType cat t := by
  obtain ⟨e, he⟩ := isSome_iff_exists.mp hrow
  rcases h.new he with hold | ⟨-, hst, -⟩
  · exact ⟨e, he, hlive hnamed hold⟩
  · exact ⟨e, he, hst⟩

theorem addMissing_ok (hid : Identified reading cat.row cat.next) (hparents : Parents cat.row)
    (hlive : TypesLive schema cat) (h : addMissing schema cat = .ok cat') :
    Grown schema cat cat' ∧ Covers schema cat' := by
  obtain ⟨mid, hmid, h⟩ := bind_eq_ok.mp h
  have hnamed : ∀ {e}, e ∈ schema.types.entries → (schema.types.lookup e.1).isSome := fun he =>
    isSome_of_eq_some (lookup_eq_some.mpr he)
  obtain ⟨hgrown, -, htypes⟩ := (Grown.refl hid hparents).fold
    (Q := fun e c => (c.row (.type e.1)).isSome) (fun he hc _ hstep => by
      have hprov := addType_ok hc hstep
      exact ⟨hc.provides hprov (hnamed he) nofun, hprov.extends, hprov.row_self⟩)
    (fun e _ _ hsome hext => hext.isSome (.type e.1) hsome) hmid
  obtain ⟨hgrown', hext, hfields⟩ := hgrown.fold
    (Q := fun e c => ∀ f ∈ e.2, HasField c e.1 f) (fun {c _ e} he hc hext hstep => by
      have ht := hext.liveType _ (hgrown.liveType hlive (hnamed he) (htypes e he))
      exact hc.fold (Q := fun f c => HasField c e.1 f) (fun {_ _ f} hf hc' hext' hadd => by
        have hdecl := field?_of_mem he hf
        have ht' := hext'.liveType _ ht
        have hprov := addField_ok hc' hdecl ht' hadd
        exact ⟨hc'.providesField hprov hdecl ht', hprov.extends, hprov.hasField⟩)
        (fun _ _ _ hhas => hhas.extends) hstep)
    (fun e _ _ hhas hext f hf => (hhas f hf).extends (t := e.1) hext) h
  exact ⟨hgrown', fun e he => ⟨hext.isSome _ (htypes e he), hfields e he⟩⟩

end RhypeDb.SchemaCatalog
