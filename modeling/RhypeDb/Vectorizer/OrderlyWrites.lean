import RhypeDb.Vectorizer.LiveVectors

/-! The ids whose live node has no call under way agree with their rows, as long as each step is
orderly and exactly as long. -/

namespace RhypeDb.Vectorizer.LiveVectors

open Engine Function List Run

variable {κ φ γ : Type} {num : Compression φ γ} {st st' : Store κ φ γ}

section

variable {c : Nat} {call : VectorWrite κ φ} {stage : Stage φ}

theorem getElem?_setStage (hget : st.calls[c]? = some call)
    (hcalls : st'.calls = st.calls.set c { call with stage }) (c' : Nat) :
    st'.calls[c']? = if c = c' then some { call with stage } else st.calls[c']? := by
  obtain ⟨hlt, -⟩ := List.getElem?_eq_some_iff.mp hget
  rw [hcalls, getElem?_set]
  split_ifs
  · rfl
  · rfl

theorem inFlight_setStage (hget : st.calls[c]? = some call)
    (hcalls : st'.calls = st.calls.set c { call with stage }) {c' : Nat} (hne : c' ≠ c) :
    st'.InFlight c' ↔ st.InFlight c' := by
  unfold Store.InFlight
  rw [getElem?_setStage hget hcalls, if_neg (Ne.symm hne)]

theorem inFlight_self (hget : st.calls[c]? = some call)
    (hcalls : st'.calls = st.calls.set c { call with stage }) :
    st'.InFlight c ↔ stage.isReturned = false := by
  unfold Store.InFlight
  rw [getElem?_setStage hget hcalls, if_pos rfl]
  constructor
  · rintro ⟨_, heq, hopen⟩
    cases heq
    exact hopen
  · exact fun hopen => ⟨_, rfl, hopen⟩

theorem inFlight_goes (hget : st.calls[c]? = some call)
    (hcalls : st'.calls = st.calls.set c { call with stage })
    (hbefore : call.stage.isReturned = false) (hafter : stage.isReturned = false) (c' : Nat) :
    st'.InFlight c' ↔ st.InFlight c' := by
  by_cases hc : c' = c
  · subst hc
    rw [inFlight_self hget hcalls]
    exact iff_of_true hafter ⟨call, hget, hbefore⟩
  · exact inFlight_setStage hget hcalls hc

structure Store.Owned (st : Store κ φ γ) : Prop where
  sound : ∀ field, (st.indexes field).Sound
  owner : ∀ slot c, st.owner slot = some c →
    ∃ call, st.calls[c]? = some call ∧ slot ∈ call.slots
  pending : ∀ (c : Nat) (call : VectorWrite κ φ) (pending : List (Id × List φ)),
    st.calls[c]? = some call → call.stage = .inserting pending → pending ⊆ call.rows

theorem Store.Owned.restage (h : st.Owned) {c : Nat} {stage : Stage φ}
    (hget : st.calls[c]? = some call) (hcalls : st'.calls = st.calls.set c { call with stage })
    (hindexes : st'.indexes = st.indexes) (howner : st'.owner = st.owner)
    (hstage : ∀ pending, stage ≠ .inserting pending) : st'.Owned := by
  constructor
  · rw [hindexes]
    exact h.sound
  · rw [howner]
    intro slot c' hslot
    obtain ⟨call', hget', hmem⟩ := h.owner slot c' hslot
    rw [getElem?_setStage hget hcalls]
    split_ifs with hc
    · subst hc
      rw [hget] at hget'
      cases hget'
      exact ⟨_, rfl, hmem⟩
    · exact ⟨call', hget', hmem⟩
  · intro c' call' pending hget' hinserting
    rw [getElem?_setStage hget hcalls] at hget'
    split_ifs at hget' with hc
    · cases hget'
      exact absurd hinserting (hstage pending)
    · exact h.pending c' call' pending hget' hinserting

variable [DecidableEq κ]

theorem Store.Owned.start (h : st.Owned) (field : κ) (rows : List (Id × List φ)) :
    (step num st (.start field rows)).Owned := by
  unfold step
  have hlt : ∀ {c : Nat} {call : VectorWrite κ φ}, st.calls[c]? = some call →
      c < st.calls.length := fun hget => (List.getElem?_eq_some_iff.mp hget).1
  constructor
  · exact h.sound
  · intro slot c hslot
    obtain ⟨call, hget, hmem⟩ := h.owner slot c hslot
    exact ⟨call, by rw [getElem?_append_left (hlt hget)]; exact hget, hmem⟩
  · intro c call pending hget hinserting
    rcases Nat.lt_or_ge c st.calls.length with hold | hnew
    · rw [getElem?_append_left hold] at hget
      exact h.pending c call pending hget hinserting
    · rw [getElem?_append_right hnew] at hget
      rw [mem_singleton.mp (mem_of_getElem? hget)] at hinserting ⊢
      split_ifs at hinserting
      cases hinserting
      exact List.Subset.refl _

theorem Store.Owned.inserted (h : st.Owned) {c i : Nat}
    {pending : List (Id × List φ)} {id : Id} {vector : List φ} {ix : QuantizedIndex φ γ}
    (hget : st.calls[c]? = some call) (hstage : call.stage = .inserting pending)
    (hrow : pending[i]? = some (id, vector))
    (hinsert : (st.indexes call.field).insert num id vector = some ix) :
    ({ setStage st c call (.inserting (pending.eraseIdx i)) with
      indexes := Function.update st.indexes call.field ix
      owner := Function.update st.owner (call.field, id) (some c) } : Store κ φ γ).Owned := by
  set st' : Store κ φ γ := { setStage st c call (.inserting (pending.eraseIdx i)) with
    indexes := Function.update st.indexes call.field ix
    owner := Function.update st.owner (call.field, id) (some c) } with hst'
  have hcalls : ∀ c', st'.calls[c']? =
      if c = c' then some { call with stage := .inserting (pending.eraseIdx i) }
      else st.calls[c']? := getElem?_setStage hget rfl
  have hpending : pending ⊆ call.rows := h.pending c call pending hget hstage
  constructor
  · intro field
    change (Function.update st.indexes call.field ix field).Sound
    rw [update_apply]
    split_ifs with hfield
    · exact (QuantizedIndex.insert_spec (h.sound call.field) hinsert).2.2
    · exact h.sound field
  · intro slot c' hslot
    change Function.update st.owner (call.field, id) (some c) slot = some c' at hslot
    rw [update_apply] at hslot
    rw [hcalls]
    split_ifs at hslot with heq
    · cases hslot
      rw [if_pos rfl, heq]
      exact ⟨_, rfl, mem_map.mpr ⟨(id, vector), hpending (mem_of_getElem? hrow), rfl⟩⟩
    · obtain ⟨call', hget', hmem⟩ := h.owner slot c' hslot
      split_ifs with hc
      · subst hc
        rw [hget] at hget'
        cases hget'
        exact ⟨_, rfl, hmem⟩
      · exact ⟨call', hget', hmem⟩
  · intro c' call' pending' hget' hinserting
    rw [hcalls] at hget'
    split_ifs at hget' with hc
    · cases hget'
      cases hinserting
      exact fun row hmem => hpending ((eraseIdx_sublist _ _).subset hmem)
    · exact h.pending c' call' pending' hget' hinserting

end

section

variable {slot : κ × Id} {vectors : κ × Id → Option (List φ)}

theorem agreesAt_congr {vectors' : κ × Id → Option (List φ)} (hrow : vectors' slot = vectors slot) :
    AgreesAt num st.indexes vectors' slot ↔ AgreesAt num st.indexes vectors slot := by
  unfold AgreesAt
  rw [hrow]

theorem settled_of_goes (howner : st'.owner = st.owner) (hindexes : st'.indexes = st.indexes)
    (hvectors : st'.vectors = st.vectors)
    (hflight : ∀ slot c, st.owner slot = some c → (st'.InFlight c ↔ st.InFlight c)) :
    st'.Settled num ↔ st.Settled num := by
  unfold Store.Settled
  rw [howner, hindexes, hvectors]
  refine forall_congr' fun slot => or_congr_left' fun _ => exists_congr fun c => ?_
  exact and_congr_right fun hslot => hflight slot c hslot

variable {call : VectorWrite κ φ}

theorem settled_failed_iff (hsettled : st.Settled num) {c : Nat} (hget : st.calls[c]? = some call) :
    (setStage st c call (.returned false)).Settled num ↔ HarmlessEnd num st c := by
  have hself : ¬ (setStage st c call (.returned false)).InFlight c := by
    rw [inFlight_self hget rfl]
    exact nofun
  constructor
  · intro hafter slot howner
    rcases hafter slot with ⟨c', howner', hflight⟩ | hagrees
    · change st.owner slot = some c' at howner'
      rw [howner] at howner'
      cases howner'
      exact absurd hflight hself
    · exact hagrees
  · intro hharmless slot
    rcases hsettled slot with ⟨c', howner, hflight⟩ | hagrees
    · by_cases hc : c' = c
      · subst hc
        exact .inr (hharmless slot howner)
      · exact .inl ⟨c', howner, (inFlight_setStage hget rfl hc).mpr hflight⟩
    · exact .inr hagrees

variable [DecidableEq κ]

theorem agreesAt_insert (hsound : ∀ field, (st.indexes field).Sound) {field : κ} {id : Id}
    {vector : List φ} {ix : QuantizedIndex φ γ}
    (hinsert : (st.indexes field).insert num id vector = some ix) (hne : slot ≠ (field, id)) :
    AgreesAt num (Function.update st.indexes field ix) st.vectors slot ↔
      AgreesAt num st.indexes st.vectors slot := by
  obtain ⟨hnodes, hquantizer, -⟩ := QuantizedIndex.insert_spec (hsound field) hinsert
  obtain ⟨field', id'⟩ := slot
  unfold AgreesAt
  rw [update_apply]
  split_ifs with hfield
  · subst hfield
    have hid : id' ≠ id := fun heq => hne (by rw [heq])
    rw [hnodes, liveCodes_pushed, if_neg hid, hquantizer]
  · rfl

theorem put_of_notMem (hslot : slot ∉ call.slots) : call.put vectors slot = vectors slot := by
  have hfold : ∀ rows : List (Id × List φ), (∀ row ∈ rows, (call.field, row.1) ≠ slot) →
      ∀ vectors : κ × Id → Option (List φ), (rows.foldl (fun vectors row =>
        Function.update vectors (call.field, row.1) (some row.2)) vectors) slot = vectors slot := by
    intro rows
    induction rows with
    | nil => exact fun _ _ => rfl
    | cons row rows ih =>
      intro hrows vectors
      rw [forall_mem_cons] at hrows
      rw [foldl_cons, ih hrows.2]
      exact update_of_ne (Ne.symm hrows.1) _ _
  refine hfold call.rows (fun row hrow heq => hslot ?_) vectors
  exact mem_map.mpr ⟨row, hrow, heq⟩

theorem settled_committed_iff (hsettled : st.Settled num) (howned : st.Owned) {c : Nat}
    (hget : st.calls[c]? = some call)
    (hcalls : st'.calls = st.calls.set c { call with stage := .returned true })
    (howner : st'.owner = st.owner) (hindexes : st'.indexes = st.indexes)
    (hvectors : st'.vectors = call.put st.vectors) :
    st'.Settled num ↔ PutsLive num st c call := by
  have hself : ¬ st'.InFlight c := by
    rw [inFlight_self hget hcalls]
    exact nofun
  unfold Store.Settled
  rw [howner, hindexes, hvectors]
  constructor
  · intro hafter slot _
    rcases hafter slot with ⟨c', howner', hflight⟩ | hagrees
    · have hc : c' ≠ c := by
        rintro rfl
        exact hself hflight
      exact .inl ⟨c', hc, howner', (inFlight_setStage hget hcalls hc).mp hflight⟩
    · exact .inr hagrees
  · intro hputs slot
    by_cases hslot : slot ∈ call.slots
    · rcases hputs slot hslot with ⟨c', hc, howner', hflight⟩ | hagrees
      · exact .inl ⟨c', howner', (inFlight_setStage hget hcalls hc).mpr hflight⟩
      · exact .inr hagrees
    · rw [agreesAt_congr (put_of_notMem hslot)]
      rcases hsettled slot with ⟨c', howner', hflight⟩ | hagrees
      · -- The live node is not of this call, which has no row at the id.
        have hc : c' ≠ c := by
          rintro rfl
          obtain ⟨call', hget', hmem⟩ := howned.owner slot c' howner'
          rw [hget] at hget'
          cases hget'
          exact hslot hmem
        exact .inl ⟨c', howner', (inFlight_setStage hget hcalls hc).mpr hflight⟩
      · exact .inr hagrees

theorem Store.Owned.step (h : st.Owned) (a : Action κ φ) : (step num st a).Owned := by
  cases a with
  | start field rows => exact h.start field rows
  | enqueue slots => exact ⟨h.sound, h.owner, h.pending⟩
  | insert c i =>
    unfold LiveVectors.step
    dsimp only
    split
    · exact h
    · rename_i call hget
      split
      · rename_i pending hstage
        unfold insertRow
        split
        · exact h
        · rename_i id vector hrow
          split
          · exact h.restage hget rfl rfl rfl fun _ => nofun
          · rename_i ix hinsert
            exact h.inserted hget hstage hrow hinsert
      · exact h
  | begin c =>
    unfold LiveVectors.step
    dsimp only
    split
    · exact h
    · rename_i call hget
      split
      · exact h.restage hget rfl rfl rfl fun _ => nofun
      · exact h
  | commit c fault =>
    unfold LiveVectors.step
    dsimp only
    split
    · exact h
    · rename_i call hget
      split
      · unfold commitCall
        split_ifs
        · exact h.restage hget rfl rfl rfl fun _ => nofun
        · exact h.restage hget rfl rfl rfl fun _ => nofun
      · exact h

theorem settled_inserted (hsettled : st.Settled num) (howned : st.Owned) {c i : Nat}
    {call : VectorWrite κ φ} {pending : List (Id × List φ)} {id : Id} {vector : List φ}
    {ix : QuantizedIndex φ γ} (hget : st.calls[c]? = some call)
    (hstage : call.stage = .inserting pending)
    (hinsert : (st.indexes call.field).insert num id vector = some ix) :
    ({ setStage st c call (.inserting (pending.eraseIdx i)) with
      indexes := Function.update st.indexes call.field ix
      owner := Function.update st.owner (call.field, id) (some c) } :
      Store κ φ γ).Settled num := by
  intro slot
  have hopen : call.stage.isReturned = false := by
    rw [hstage]
    rfl
  have hflight : ∀ c', (setStage st c call (.inserting (pending.eraseIdx i))).InFlight c' ↔
      st.InFlight c' := inFlight_goes hget rfl hopen rfl
  dsimp only
  by_cases hslot : slot = (call.field, id)
  · left
    refine ⟨c, ?_, (hflight c).mpr ⟨call, hget, hopen⟩⟩
    rw [hslot, update_self]
  · rw [update_of_ne hslot]
    rcases hsettled slot with ⟨c', howner, hc'⟩ | hagrees
    · exact .inl ⟨c', howner, (hflight c').mpr hc'⟩
    · right
      exact (agreesAt_insert howned.sound hinsert hslot).mpr hagrees

theorem settled_insert_iff (hsettled : st.Settled num) (howned : st.Owned) (c i : Nat) :
    (step num st (.insert c i)).Settled num ↔ Orderly num st (.insert c i) := by
  have horderly : (∀ call pending id vector, st.calls[c]? = some call →
      call.stage = .inserting pending → pending[i]? = some (id, vector) →
      (st.indexes call.field).insert num id vector = none → HarmlessEnd num st c) →
      Orderly num st (.insert c i) := by
    intro hpanicked
    refine ⟨fun c' i' call pending id vector ha => ?_, nofun, nofun⟩
    cases ha
    exact hpanicked call pending id vector
  unfold step
  dsimp only
  split
  · rename_i hnone
    refine iff_of_true hsettled (horderly fun call pending id vector hget => ?_)
    rw [hnone] at hget
    cases hget
  · rename_i call hget
    split
    · rename_i pending hstage
      unfold insertRow
      split
      · rename_i hnone
        refine iff_of_true hsettled
          (horderly fun call' pending' id vector hget' hstage' hrow => ?_)
        rw [hget] at hget'
        cases hget'
        rw [hstage] at hstage'
        cases hstage'
        rw [hnone] at hrow
        cases hrow
      · rename_i id vector hrow
        split
        · rename_i hinsert
          rw [settled_failed_iff hsettled hget]
          constructor
          · exact fun hharmless => horderly fun _ _ _ _ _ _ _ _ => hharmless
          · exact fun h => h.panicked c i call pending id vector rfl hget hstage hrow hinsert
        · rename_i ix hinsert
          refine iff_of_true (settled_inserted hsettled howned hget hstage hinsert) ?_
          refine horderly fun call' pending' id' vector' hget' hstage' hrow' hnone => ?_
          rw [hget] at hget'
          cases hget'
          rw [hstage] at hstage'
          cases hstage'
          rw [hrow] at hrow'
          cases hrow'
          rw [hinsert] at hnone
          cases hnone
    · rename_i hno
      refine iff_of_true hsettled (horderly fun call' pending' id vector hget' hstage' => ?_)
      rw [hget] at hget'
      cases hget'
      exact absurd hstage' (hno pending')

theorem settled_commit_iff (hsettled : st.Settled num) (howned : st.Owned) (c : Nat)
    (fault : Bool) :
    (step num st (.commit c fault)).Settled num ↔ Orderly num st (.commit c fault) := by
  have horderly : (∀ call snapshot, st.calls[c]? = some call → call.stage = .begun snapshot →
      (refuses st call snapshot fault = true → HarmlessEnd num st c) ∧
        (refuses st call snapshot fault = false → PutsLive num st c call)) →
      Orderly num st (.commit c fault) := by
    intro hends
    refine ⟨nofun, fun c' fault' call snapshot ha hget hstage => ?_,
      fun c' fault' call snapshot ha hget hstage => ?_⟩
    · cases ha
      exact (hends call snapshot hget hstage).1
    · cases ha
      exact (hends call snapshot hget hstage).2
  unfold step
  dsimp only
  split
  · rename_i hnone
    refine iff_of_true hsettled (horderly fun call snapshot hget => ?_)
    rw [hnone] at hget
    cases hget
  · rename_i call hget
    split
    · rename_i snapshot hstage
      have hsame : ∀ {P : VectorWrite κ φ → Nat → Prop}, P call snapshot →
          ∀ call' snapshot', st.calls[c]? = some call' → call'.stage = .begun snapshot' →
          P call' snapshot' := by
        intro P hP call' snapshot' hget' hstage'
        rw [hget] at hget'
        cases hget'
        rw [hstage] at hstage'
        cases hstage'
        exact hP
      unfold commitCall
      split_ifs with hrefused
      · rw [settled_failed_iff hsettled hget]
        constructor
        · intro hharmless
          refine horderly (hsame ⟨fun _ => hharmless, fun hpassed => ?_⟩)
          rw [hrefused] at hpassed
          cases hpassed
        · exact fun h => h.failed c fault call snapshot rfl hget hstage hrefused
      · have hpassed : refuses st call snapshot fault = false :=
          Bool.eq_false_of_not_eq_true hrefused
        have hiff : ({ setStage st c call (.returned true) with
            vectors := call.put st.vectors
            states := assert st.states call.slots .indexed
            written := st.written.commit call.slots } : Store κ φ γ).Settled num ↔
            PutsLive num st c call :=
          settled_committed_iff hsettled howned hget rfl rfl rfl rfl
        refine hiff.trans ?_
        constructor
        · exact fun hputs => horderly (hsame ⟨fun h => absurd h hrefused, fun _ => hputs⟩)
        · exact fun h => h.committed c fault call snapshot rfl hget hstage hpassed
    · rename_i hno
      refine iff_of_true hsettled (horderly fun call' snapshot' hget' hstage' => ?_)
      rw [hget] at hget'
      cases hget'
      exact absurd hstage' (hno snapshot')

theorem settled_step_iff (hsettled : st.Settled num) (howned : st.Owned) (a : Action κ φ) :
    (step num st a).Settled num ↔ Orderly num st a := by
  cases a with
  | insert c i => exact settled_insert_iff hsettled howned c i
  | commit c fault => exact settled_commit_iff hsettled howned c fault
  | start field rows =>
    have hgoes : (step num st (.start field rows)).Settled num ↔ st.Settled num := by
      refine settled_of_goes rfl rfl rfl fun slot c howner => ?_
      obtain ⟨call, hget, -⟩ := howned.owner slot c howner
      unfold Store.InFlight step
      rw [getElem?_append_left (List.getElem?_eq_some_iff.mp hget).1]
    exact iff_of_true (hgoes.mpr hsettled) ⟨nofun, nofun, nofun⟩
  | enqueue slots =>
    have hgoes : (step num st (.enqueue slots)).Settled num ↔ st.Settled num :=
      settled_of_goes rfl rfl rfl fun _ _ _ => Iff.rfl
    exact iff_of_true (hgoes.mpr hsettled) ⟨nofun, nofun, nofun⟩
  | begin c =>
    refine iff_of_true ?_ ⟨nofun, nofun, nofun⟩
    unfold step
    dsimp only
    split
    · exact hsettled
    · rename_i call hget
      split
      · rename_i hstage
        have hopen : call.stage.isReturned = false := by
          rw [hstage]
          rfl
        have hflight : ∀ c', (setStage st c call (.begun st.written.version)).InFlight c' ↔
            st.InFlight c' := inFlight_goes hget rfl hopen rfl
        have hgoes : (setStage st c call (.begun st.written.version)).Settled num ↔
            st.Settled num := settled_of_goes rfl rfl rfl fun _ c' _ => hflight c'
        exact hgoes.mpr hsettled
      · exact hsettled

end

theorem Store.Opened.settled (h : st.Opened num) : st.Settled num ∧ st.Owned := by
  refine ⟨fun slot => .inr (h.agrees slot), h.sound, fun slot c howner => ?_,
    fun c call pending hget => ?_⟩
  · rw [h.owner] at howner
    cases howner
  · rw [h.calls] at hget
    cases hget

variable [DecidableEq κ]

theorem settled_run {actions : List (Action κ φ)} (hsettled : st.Settled num) (howned : st.Owned)
    (horderly : Along (step num) (Orderly num) st actions) :
    (exec (step num) st actions).Settled num ∧ (exec (step num) st actions).Owned :=
  exec_invariant (I := fun st : Store κ φ γ => st.Settled num ∧ st.Owned)
    (fun _ a h ha => ⟨(settled_step_iff h.1 h.2 a).mpr ha, h.2.step a⟩) ⟨hsettled, howned⟩ horderly

/-- In a run whose steps are orderly, the index and the rows agree whenever all calls have
returned. -/
theorem quiet_agrees (num : Compression φ γ) (st : Store κ φ γ) (hopened : st.Opened num)
    (actions : List (Action κ φ)) (horderly : Along (step num) (Orderly num) st actions)
    (hquiet : (exec (step num) st actions).Quiet) (slot : κ × Id) :
    AgreesAt num (exec (step num) st actions).indexes (exec (step num) st actions).vectors slot := by
  obtain ⟨hsettled, howned⟩ := hopened.settled
  rcases (settled_run hsettled howned horderly).1 slot with ⟨c, -, call, hget, hopen⟩ | hagrees
  · rw [hquiet call (mem_of_getElem? hget)] at hopen
    cases hopen
  · exact hagrees

def plain : Compression Nat (List Nat) := ⟨fun _ vector => vector, fun _ => true⟩

def emptyStore : Store Nat Nat (List Nat) where
  indexes := fun _ => .new ⟨16, 32, 100, .cosine⟩ ⟨1, 4⟩ []
  vectors := fun _ => none
  states := fun _ => none
  written := ⟨(), []⟩
  calls := []
  owner := fun _ => none

theorem emptyStore_opened : emptyStore.Opened plain :=
  ⟨rfl, fun _ => rfl, fun _ => .new _ _ _, fun _ => rfl⟩

/-- The call that inserted first commits first, under the node of the other. -/
def storeTwice : List (Action Nat Nat) :=
  [.start 0 [(7, [1])], .start 0 [(7, [2])], .insert 0 0, .insert 1 0, .begin 0, .commit 0 false,
    .begin 1, .commit 1 false]

theorem quiet_agrees_two : AgreesAt plain (exec (step plain) emptyStore storeTwice).indexes
    (exec (step plain) emptyStore storeTwice).vectors (0, 7) := by
  have hidle : ∀ st : Store Nat Nat (List Nat), (∀ rows, Orderly plain st (.start 0 rows)) ∧
      ∀ c, Orderly plain st (.begin c) :=
    fun st => ⟨fun _ => ⟨nofun, nofun, nofun⟩, fun _ => ⟨nofun, nofun, nofun⟩⟩
  refine quiet_agrees plain emptyStore emptyStore_opened storeTwice
    ⟨(hidle _).1 _, (hidle _).1 _, ?_, ?_, (hidle _).2 0, ?_, (hidle _).2 1, ?_, trivial⟩
    (by unfold Store.Quiet; decide) (0, 7)
  · refine ⟨fun c i call pending id vector ha hget hstage hrow hnone => ?_, nofun, nofun⟩
    cases ha
    cases hget
    cases hstage
    cases hrow
    cases hnone
  · refine ⟨fun c i call pending id vector ha hget hstage hrow hnone => ?_, nofun, nofun⟩
    cases ha
    cases hget
    cases hstage
    cases hrow
    cases hnone
  · refine ⟨nofun, fun c fault call snapshot ha hget hstage hrefused => ?_,
      fun c fault call snapshot ha hget hstage _ slot hslot => ?_⟩
    · cases ha
      cases hget
      cases hstage
      cases hrefused
    · cases ha
      cases hget
      rw [mem_singleton.mp hslot]
      exact .inl ⟨1, by decide, rfl, _, rfl, rfl⟩
  · refine ⟨nofun, fun c fault call snapshot ha hget hstage hrefused => ?_,
      fun c fault call snapshot ha hget hstage _ slot hslot => ?_⟩
    · cases ha
      cases hget
      cases hstage
      cases hrefused
    · cases ha
      cases hget
      rw [mem_singleton.mp hslot]
      exact .inr rfl

def crossed : List (Action Nat Nat) :=
  [.start 0 [(7, [1])], .start 0 [(7, [2])], .insert 0 0, .insert 1 0, .begin 1, .commit 1 false,
    .begin 0, .commit 0 false]

theorem crossed_disagrees : ¬ ∀ actions : List (Action Nat Nat),
    (exec (step plain) emptyStore actions).Quiet → ∀ slot,
    AgreesAt plain (exec (step plain) emptyStore actions).indexes
      (exec (step plain) emptyStore actions).vectors slot := by
  intro hclaim
  have hquiet : (exec (step plain) emptyStore crossed).Quiet := by
    unfold Store.Quiet
    decide
  have hagrees := hclaim crossed hquiet (0, 7)
  unfold AgreesAt at hagrees
  exact absurd hagrees (by decide)

end RhypeDb.Vectorizer.LiveVectors
