import RhypeDb.Vectorizer.Drained
import RhypeDb.Vectorizer.WorkerStep
import RhypeDb.Vectorizer.Embedded

/-! What a worker step leaves behind. Up to a failing commit every job of the claim is still ahead
or settled; what is ahead at one is lost unless something else has settled it. -/

namespace RhypeDb.Vectorizer.WorkerStep

open List Nat Run SortedMap
open Engine

variable {schema : VectorSchema} {ν : Type} {st st' : State schema ν} {a : Action schema ν}
  {batchSize : Nat} {jobs : List (VectorizeJob schema)} {first : Nat}

section

theorem entriesFrom_ids (first : Nat) (jobs : List (VectorizeJob schema)) :
    (entriesFrom first jobs).map Prod.fst = List.range' first jobs.length := by
  unfold entriesFrom
  rw [map_map]
  change (jobs.zipIdx first).map Prod.snd = _
  rw [zipIdx_map_snd]

variable {e : Nat × VectorizeJob schema}

theorem entriesFrom_bounds
    (he : e ∈ entriesFrom first jobs) : first ≤ e.1 ∧ e.1 < first + jobs.length := by
  have hid : e.1 ∈ (entriesFrom first jobs).map Prod.fst := mem_map_of_mem he
  rw [entriesFrom_ids, List.mem_range'_1] at hid
  exact hid

theorem exists_entryFrom (first : Nat) {job : VectorizeJob schema} (hjob : job ∈ jobs) :
    ∃ id, (id, job) ∈ entriesFrom first jobs := by
  obtain ⟨i, hi, hget⟩ := getElem_of_mem hjob
  refine ⟨first + i, mem_map.mpr ⟨(job, first + i), ?_, rfl⟩⟩
  rw [mk_add_mem_zipIdx_iff_getElem?, getElem?_eq_getElem hi, hget]

theorem lookup_enqueued {id : Nat} (hid : id < first ∨ first + jobs.length ≤ id) :
    (st.enqueued first jobs).queue.lookup id = st.queue.lookup id := by
  refine lookup_insertAll_of_notMem _ ?_
  rw [entriesFrom_ids, List.mem_range'_1]
  omega

theorem lookup_enqueued_of_mem
    (he : e ∈ entriesFrom first jobs) : (st.enqueued first jobs).queue.lookup e.1 = some e.2 := by
  refine lookup_insertAll_of_mem _ ?_ he
  rw [entriesFrom_ids]
  exact nodup_range'

end

theorem State.settled_enqueued (hcursor : st.claimCursor ≤ first)
    (hfresh : ∀ id job, st.queue.lookup id = some job → id < first ∨ first + jobs.length ≤ id)
    {job : VectorizeJob schema} (hjob : job ∈ jobs ∨ st.Settled job) :
    (st.enqueued first jobs).Settled job := by
  have hnew : job ∈ jobs → (st.enqueued first jobs).Settled job := by
    intro hmem
    obtain ⟨id, he⟩ := exists_entryFrom first hmem
    exact .inl ⟨id, hcursor.trans (entriesFrom_bounds he).1, lookup_enqueued_of_mem he⟩
  rcases hjob with hmem | ⟨id, hle, hrow⟩ | hstate
  · exact hnew hmem
  · refine .inl ⟨id, hle, ?_⟩
    rw [lookup_enqueued (hfresh id job hrow)]
    exact hrow
  · by_cases hslot : job.slot ∈ (jobs.map fun job => (job.slot, VectorState.pending)).map Prod.fst
    · rw [map_map] at hslot
      obtain ⟨job', hmem, heq⟩ := mem_map.mp hslot
      rw [VectorizeJob.eq_of_slot heq] at hmem
      exact hnew hmem
    · right
      have hsame : (st.enqueued first jobs).states.lookup job.slot = st.states.lookup job.slot :=
        lookup_insertAll_of_notMem _ hslot
      rw [hsame]
      exact hstate

theorem State.settled_ended {ended : VectorState} (hended : ended = .indexed ∨ ended = .failed)
    {job : VectorizeJob schema} (hcursor : st'.claimCursor = st.claimCursor)
    (hqueue : st'.queue = st.queue) (hstates : st'.states = st.states.insert job.slot ended)
    {job' : VectorizeJob schema} (hjob : job' = job ∨ st.Settled job') : st'.Settled job' := by
  have hlookup := lookup_insert st.states job.slot ended job'.slot
  rw [← hstates] at hlookup
  by_cases hslot : job'.slot = job.slot
  · right
    rw [hlookup, if_pos hslot]
    exact hended.imp (congrArg some) (congrArg some)
  · rcases hjob with rfl | ⟨id, hle, hrow⟩ | hstate
    · exact absurd rfl hslot
    · left
      rw [hcursor, hqueue]
      exact ⟨id, hle, hrow⟩
    · right
      rw [hlookup, if_neg hslot]
      exact hstate

theorem State.settled_of_same (hcursor : st'.claimCursor = st.claimCursor)
    (hqueue : st'.queue = st.queue) (hstates : st'.states = st.states)
    {job : VectorizeJob schema} : st'.Settled job ↔ st.Settled job := by
  unfold State.Settled
  rw [hcursor, hqueue, hstates]

section

def Stage.clears : Stage schema ν → List Slot
  | .clearing _ attempts _ _ _ => attempts.flatten
  | _ => []

def Stage.Ahead (stage : Stage schema ν) (jobs : List (VectorizeJob schema)) (slots : List Slot) :
    Prop :=
  stage.unreached = jobs ∧ stage.clears = slots ∧ stage ≠ .returned false ∧
    ∀ began claimed, stage ≠ .scanned began claimed

variable (groups : List (List (VectorizeJob schema)))

theorem nextGroup_ahead : (State.nextGroup groups : Stage schema ν).Ahead groups.flatten [] := by
  unfold State.nextGroup
  split_ifs with hempty
  · rw [List.isEmpty_iff.mp hempty]
    exact ⟨rfl, rfl, nofun, nofun⟩
  · exact ⟨rfl, rfl, nofun, nofun⟩

theorem withTexts_ahead (texts : List (VectorizeJob schema × Bytes)) :
    (State.withTexts texts groups : Stage schema ν).Ahead
      (texts.map Prod.fst ++ groups.flatten) [] := by
  unfold State.withTexts
  split_ifs with hempty
  · rw [List.isEmpty_iff.mp hempty]
    exact nextGroup_ahead groups
  · exact ⟨rfl, rfl, nofun, nofun⟩

theorem nextMark_ahead (jobs : List (VectorizeJob schema)) :
    (State.nextMark jobs groups : Stage schema ν).Ahead (jobs ++ groups.flatten) [] := by
  unfold State.nextMark
  split_ifs with hempty
  · rw [List.isEmpty_iff.mp hempty]
    exact nextGroup_ahead groups
  · exact ⟨rfl, rfl, nofun, nofun⟩

theorem nextStore_ahead (pairs : List (VectorizeJob schema × ν)) :
    (State.nextStore pairs groups : Stage schema ν).Ahead
      (pairs.map Prod.fst ++ groups.flatten) [] := by
  unfold State.nextStore
  split_ifs with hempty
  · rw [List.isEmpty_iff.mp hempty]
    exact nextGroup_ahead groups
  · exact ⟨rfl, rfl, nofun, nofun⟩

theorem nextClear_ahead (attempts : List (List Slot)) (retried : Bool)
    (texts : List (VectorizeJob schema × Bytes)) :
    (State.nextClear attempts retried texts groups : Stage schema ν).Ahead
      (texts.map Prod.fst ++ groups.flatten) attempts.flatten := by
  unfold State.nextClear
  split_ifs with hempty
  · rw [List.isEmpty_iff.mp hempty]
    exact withTexts_ahead groups texts
  · exact ⟨rfl, rfl, nofun, nofun⟩

end

structure State.Ids (st : State schema ν) : Prop where
  cursor_next : st.claimCursor ≤ st.nextJobId
  cursor_first : ∀ e ∈ st.inflight, st.claimCursor ≤ e.1
  ranges : st.inflight.Pairwise fun a b => a.1 + a.2.length ≤ b.1
  next : ∀ e ∈ st.inflight, e.1 + e.2.length ≤ st.nextJobId
  queue_lt : ∀ id job, st.queue.lookup id = some job → id < st.nextJobId
  fresh : ∀ e ∈ st.inflight, ∀ id job, st.queue.lookup id = some job →
    id < e.1 ∨ e.1 + e.2.length ≤ id

theorem State.Ids.of_same (h : st.Ids) (hcursor : st'.claimCursor = st.claimCursor)
    (hnext : st'.nextJobId = st.nextJobId) (hinflight : st'.inflight = st.inflight)
    (hqueue : ∀ id job, st'.queue.lookup id = some job → st.queue.lookup id = some job) :
    st'.Ids := by
  constructor
  · rw [hcursor, hnext]
    exact h.cursor_next
  · rw [hcursor, hinflight]
    exact h.cursor_first
  · rw [hinflight]
    exact h.ranges
  · rw [hinflight, hnext]
    exact h.next
  · rw [hnext]
    exact fun id job hrow => h.queue_lt id job (hqueue id job hrow)
  · rw [hinflight]
    exact fun e he id job hrow => h.fresh e he id job (hqueue id job hrow)

theorem enqueued_cases {id : Nat}
    {job : VectorizeJob schema} (hrow : (st.enqueued first jobs).queue.lookup id = some job) :
    st.queue.lookup id = some job ∨ (first ≤ id ∧ id < first + jobs.length) := by
  by_cases hid : id < first ∨ first + jobs.length ≤ id
  · rw [lookup_enqueued hid] at hrow
    exact .inl hrow
  · exact .inr (by omega)

theorem State.Ids.register (h : st.Ids) (jobs : List (VectorizeJob schema)) :
    (st.register jobs).Ids := by
  have hmem : ∀ e ∈ (st.register jobs).inflight, e ∈ st.inflight ∨ e = (st.nextJobId, jobs) := by
    intro e he
    exact (mem_append.mp he).imp_right mem_singleton.mp
  constructor
  · exact h.cursor_next.trans (le_add_right _ _)
  · intro e he
    rcases hmem e he with he | rfl
    · exact h.cursor_first e he
    · exact h.cursor_next
  · change (st.inflight ++ [_]).Pairwise _
    rw [pairwise_append]
    refine ⟨h.ranges, pairwise_singleton _ _, fun a ha b hb => ?_⟩
    rw [mem_singleton.mp hb]
    exact h.next a ha
  · intro e he
    rcases hmem e he with he | rfl
    · exact (h.next e he).trans (le_add_right _ _)
    · exact le_rfl
  · intro id job hrow
    exact (h.queue_lt id job hrow).trans_le (le_add_right _ _)
  · intro e he id job hrow
    rcases hmem e he with he | rfl
    · exact h.fresh e he id job hrow
    · exact .inl (h.queue_lt id job hrow)

theorem State.Ids.land (h : st.Ids) {i : Nat} (hget : st.inflight[i]? = some (first, jobs)) :
    ({ st.enqueued first jobs with inflight := st.inflight.eraseIdx i } : State schema ν).Ids := by
  obtain ⟨hi, hgetElem⟩ := List.getElem?_eq_some_iff.mp hget
  have hsub := eraseIdx_sublist st.inflight i
  have hown := h.next _ (mem_of_getElem? hget)
  constructor
  · exact h.cursor_next
  · exact fun e he => h.cursor_first e (hsub.subset he)
  · exact h.ranges.sublist hsub
  · exact fun e he => h.next e (hsub.subset he)
  · intro id job hrow
    rcases enqueued_cases hrow with hold | ⟨-, hlt⟩
    · exact h.queue_lt id job hold
    · exact hlt.trans_le hown
  · intro e he id job hrow
    rcases enqueued_cases hrow with hold | ⟨hle, hlt⟩
    · exact h.fresh e (hsub.subset he) id job hold
    · -- Another enqueue's range is before this one or behind it.
      obtain ⟨j, hj, heq⟩ := mem_eraseIdx_iff_getElem.mp he
      have hranges := pairwise_iff_getElem.mp h.ranges
      obtain ⟨hj', hij⟩ := heq
      rcases lt_or_gt_of_ne hj' with hlow | hhigh
      · have hbefore := hranges j i hj hi hlow
        rw [hgetElem, hij] at hbefore
        exact .inr (hbefore.trans hle)
      · have hbehind := hranges i j hi hj hhigh
        rw [hgetElem, hij] at hbehind
        exact .inl (hlt.trans_le hbehind)

theorem State.Ids.requeue (h : st.Ids) (jobs : List (VectorizeJob schema)) :
    ({ st.enqueued st.nextJobId jobs with nextJobId := st.nextJobId + jobs.length } :
      State schema ν).Ids := by
  constructor
  · exact h.cursor_next.trans (le_add_right _ _)
  · exact h.cursor_first
  · exact h.ranges
  · exact fun e he => (h.next e he).trans (le_add_right _ _)
  · intro id job hrow
    rcases enqueued_cases hrow with hold | ⟨-, hlt⟩
    · exact (h.queue_lt id job hold).trans_le (le_add_right _ _)
    · exact hlt
  · intro e he id job hrow
    rcases enqueued_cases hrow with hold | ⟨hle, -⟩
    · exact h.fresh e he id job hold
    · exact .inr ((h.next e he).trans hle)

theorem State.Ids.scan (h : st.Ids) (batchSize : Nat) : (st.scan batchSize).Ids := by
  obtain ⟨hnext, hfirst⟩ := le_foldl_min.mp (le_refl st.claimBound)
  rw [forall_mem_map] at hfirst
  have hcursor : st.claimCursor ≤ st.claimBound :=
    le_foldl_min.mpr ⟨h.cursor_next, forall_mem_map.mpr h.cursor_first⟩
  obtain ⟨-, -, -, -, hle, -⟩ :=
    @claimJobs_spec _ st.queue st.claimCursor st.claimBound batchSize hcursor
  exact ⟨hle.trans hnext, fun e he => hle.trans (hfirst e he), h.ranges, h.next, h.queue_lt,
    h.fresh⟩

section

structure State.Dealt (st : State schema ν) : Prop where
  unreached : ∀ job ∈ st.stage.unreached, job ∈ st.batch
  clears : ∀ slot ∈ st.stage.clears, ∃ job ∈ st.dropped, job.slot = slot
  settled : st.stage ≠ .returned false → ∀ job ∈ st.batch, job ∉ st.dropped →
    job ∈ st.stage.unreached ∨ st.Settled job
  scanned : ∀ began jobs, st.stage = .scanned began jobs → st.batch = jobs.map Prod.snd

theorem State.Dealt.of_foreground (h : st.Dealt) (hstage : st'.stage = st.stage)
    (hbatch : st'.batch = st.batch) (hdropped : st'.dropped = st.dropped)
    (hsettled : ∀ job, st.Settled job → st'.Settled job) : st'.Dealt := by
  constructor
  · rw [hstage, hbatch]
    exact h.unreached
  · rw [hstage, hdropped]
    exact h.clears
  · rw [hstage, hbatch, hdropped]
    intro hopen job hjob hnot
    exact (h.settled hopen job hjob hnot).imp_right (hsettled job)
  · rw [hstage, hbatch]
    exact h.scanned

variable {slots : List Slot}

theorem State.Dealt.goes (h : st.Dealt) (hopen : st.stage ≠ .returned false)
    (hahead : st'.stage.Ahead jobs slots) (hbatch : st'.batch = st.batch)
    (hdropped : st.dropped ⊆ st'.dropped) (hjobs : jobs ⊆ st.stage.unreached)
    (hslots : ∀ slot ∈ slots, ∃ job ∈ st'.dropped, job.slot = slot)
    (hsettled : ∀ job, job ∉ st'.dropped → job ∈ st.stage.unreached ∨ st.Settled job → job ∈ jobs ∨
      st'.Settled job) : st'.Dealt := by
  obtain ⟨hunreached, hclears, -, hpast⟩ := hahead
  constructor
  · rw [hunreached, hbatch]
    exact fun job hjob => h.unreached job (hjobs hjob)
  · rw [hclears]
    exact hslots
  · rw [hunreached, hbatch]
    intro _ job hjob hnot
    exact hsettled job hnot (h.settled hopen job hjob fun hmem => hnot (hdropped hmem))
  · exact fun began jobs hstage => absurd hstage (hpast began jobs)

theorem State.Dealt.stays (h : st.Dealt) (hopen : st.stage ≠ .returned false)
    (hunreached : st.stage.unreached = jobs) (hahead : st'.stage.Ahead jobs st.stage.clears)
    (hbatch : st'.batch = st.batch) (hdropped : st'.dropped = st.dropped)
    (hcursor : st'.claimCursor = st.claimCursor) (hqueue : st'.queue = st.queue)
    (hstates : st'.states = st.states) : st'.Dealt := by
  refine h.goes hopen hahead hbatch (hdropped ▸ List.Subset.refl _) ?_ ?_ fun job _ hjob => ?_
  · rw [hunreached]
    exact List.Subset.refl _
  · rw [hdropped]
    exact h.clears
  · rw [hunreached] at hjob
    exact hjob.imp_right (State.settled_of_same hcursor hqueue hstates).mpr

theorem State.dealt_failed (st : State schema ν) :
    ({ st with stage := .returned false } : State schema ν).Dealt :=
  ⟨nofun, nofun, fun hopen => absurd rfl hopen, nofun⟩

theorem State.dealt_scan (st : State schema ν) (batchSize : Nat) : (st.scan batchSize).Dealt := by
  unfold State.scan
  dsimp only
  split_ifs with hempty
  · refine ⟨nofun, nofun, fun _ job hjob => ?_, nofun⟩
    rw [List.isEmpty_iff.mp hempty] at hjob
    cases hjob
  · refine ⟨fun _ hjob => hjob, nofun, fun _ _ hjob _ => .inl hjob, fun began jobs heq => ?_⟩
    cases heq
    rfl

variable {groups : List (List (VectorizeJob schema))} {texts : List (VectorizeJob schema × Bytes)}

theorem State.Dealt.readGroup (h : st.Dealt) (hstage : st.stage = .grouped groups) (i : Nat) :
    (st.readGroup groups i).Dealt := by
  unfold State.readGroup
  split
  · exact h
  · rename_i group hget
    have hopen : st.stage ≠ .returned false := by
      rw [hstage]
      exact nofun
    have hgroup : ∀ job ∈ group, job ∈ groups.flatten := fun job hjob =>
      mem_flatten.mpr ⟨group, mem_of_getElem? hget, hjob⟩
    have hrest : ∀ job ∈ (groups.eraseIdx i).flatten, job ∈ groups.flatten := by
      intro job hjob
      obtain ⟨g, hg, hmem⟩ := mem_flatten.mp hjob
      exact mem_flatten.mpr ⟨g, (eraseIdx_sublist _ _).subset hg, hmem⟩
    have hunreached : st.stage.unreached = groups.flatten := by rw [hstage]; rfl
    refine h.goes hopen (nextClear_ahead _ _ _ _) rfl (subset_append_left _ _) ?_ ?_ ?_
    · rw [hunreached]
      intro job hjob
      rcases mem_append.mp hjob with hjob | hjob
      · obtain ⟨⟨job', text⟩, hmem, rfl⟩ := mem_map.mp hjob
        obtain ⟨job'', hmem', heq⟩ := mem_filterMap.mp hmem
        obtain ⟨text', -, hpair⟩ := Option.map_eq_some_iff.mp heq
        cases hpair
        exact hgroup _ hmem'
      · exact hrest job hjob
    · intro slot hslot
      split_ifs at hslot with hempty
      · cases hslot
      · rw [flatten_singleton] at hslot
        obtain ⟨job, hjob, rfl⟩ := mem_map.mp hslot
        exact ⟨job, mem_append_right _ hjob, rfl⟩
    · intro job hnot hjob
      rw [hunreached] at hjob
      rcases hjob with hjob | hsettled
      · left
        obtain ⟨g, hg, hmem⟩ := mem_flatten.mp hjob
        rw [mem_append]
        by_cases hsame : g ∈ groups.eraseIdx i
        · exact .inr (mem_flatten.mpr ⟨g, hsame, hmem⟩)
        · -- The job is of the group taken up, which is not textless for it.
          have heq : g = group := by
            obtain ⟨j, hj, hgj⟩ := getElem_of_mem hg
            by_cases hij : j = i
            · subst hij
              rw [getElem?_eq_getElem hj, hgj] at hget
              exact Option.some.inj hget
            · refine absurd ?_ hsame
              rw [mem_eraseIdx_iff_getElem?]
              exact ⟨j, hij, by rw [getElem?_eq_getElem hj, hgj]⟩
          subst heq
          left
          cases htext : sourceText st.objects job with
          | none =>
            refine absurd (mem_append_right _ ?_) hnot
            rw [mem_filter, htext]
            exact ⟨hmem, rfl⟩
          | some text =>
            refine mem_map.mpr ⟨(job, text), ?_, rfl⟩
            rw [mem_filterMap]
            exact ⟨job, hmem, by rw [htext]; rfl⟩
      · exact .inr ((State.settled_of_same rfl rfl rfl).mpr hsettled)

theorem State.Dealt.beginTxn (h : st.Dealt) : st.beginTxn.Dealt := by
  unfold State.beginTxn
  split
  · rename_i hstage
    refine h.stays ?_ ?_ ⟨rfl, ?_, nofun, nofun⟩ rfl rfl rfl rfl rfl
    · rw [hstage]
      exact nofun
    · rw [hstage]
      rfl
    · rw [hstage]
      rfl
  · rename_i hstage
    refine h.stays ?_ ?_ ⟨rfl, ?_, nofun, nofun⟩ rfl rfl rfl rfl rfl
    · rw [hstage]
      exact nofun
    · rw [hstage]
      rfl
    · rw [hstage]
      rfl
  · rename_i hstage
    refine h.stays ?_ ?_ ⟨rfl, ?_, nofun, nofun⟩ rfl rfl rfl rfl rfl
    · rw [hstage]
      exact nofun
    · rw [hstage]
      rfl
    · rw [hstage]
      rfl
  · exact h

theorem State.Dealt.embed (h : st.Dealt) (hids : st.Ids) (hstage : st.stage = .embedding texts groups)
    (outcome : Embedding ν) : (st.embed texts groups outcome).Dealt := by
  have hopen : st.stage ≠ .returned false := by
    rw [hstage]
    exact nofun
  have hunreached : st.stage.unreached = texts.map Prod.fst ++ groups.flatten := by
    rw [hstage]
    rfl
  have hclears : st.stage.clears = [] := by
    rw [hstage]
    rfl
  have hmark : ({ st with stage := State.nextMark (texts.map Prod.fst) groups } :
      State schema ν).Dealt := by
    refine h.stays hopen hunreached ?_ rfl rfl rfl rfl rfl
    rw [hclears]
    exact nextMark_ahead _ _
  unfold State.embed
  split
  · refine h.goes hopen (nextGroup_ahead _) rfl (List.Subset.refl _) ?_ nofun fun job _ hjob => ?_
    · rw [hunreached]
      exact subset_append_right _ _
    · rw [hunreached, mem_append, or_assoc] at hjob
      have hfresh : ∀ id job, st.queue.lookup id = some job →
          id < st.nextJobId ∨ st.nextJobId + (texts.map Prod.fst).length ≤ id :=
        fun id job hrow => .inl (hids.queue_lt id job hrow)
      have hrequeued : job ∈ texts.map Prod.fst ∨ st.Settled job →
          (st.enqueued st.nextJobId (texts.map Prod.fst)).Settled job :=
        State.settled_enqueued hids.cursor_next hfresh
      rcases hjob with htext | hgroup | hsettled
      · exact .inr (hrequeued (.inl htext))
      · exact .inl hgroup
      · exact .inr (hrequeued (.inr hsettled))
  · exact hmark
  · rename_i embeddings
    split_ifs with hlen
    · have hpairs : ((texts.map Prod.fst).zip embeddings).map Prod.fst = texts.map Prod.fst := by
        refine map_fst_zip ?_
        rw [length_map, hlen]
      refine h.stays hopen hunreached ?_ rfl rfl rfl rfl rfl
      have hahead : (State.nextStore ((texts.map Prod.fst).zip embeddings) groups :
          Stage schema ν).Ahead _ [] := nextStore_ahead _ _
      rw [hpairs] at hahead
      rw [hclears]
      exact hahead
    · exact hmark

variable {began : Nat} {job : VectorizeJob schema}

theorem State.Dealt.commitClaim (h : st.Dealt) {jobs : List (Nat × VectorizeJob schema)}
    (hstage : st.stage = .scanned began jobs) (fault : Bool) :
    (st.commitClaim fault began jobs).Dealt := by
  unfold State.commitClaim
  dsimp only
  split_ifs with hrefused
  · exact st.dealt_failed
  · have hunreached : st.stage.unreached = jobs.map Prod.snd := by
      rw [hstage]
      rfl
    have hopen : st.stage ≠ .returned false := by
      rw [hstage]
      exact nofun
    -- Before its commit all of the batch is ahead.
    have hgroups : ∀ job, job ∈ (Server.groupByModel (jobs.map Prod.snd)).flatten ↔
        job ∈ jobs.map Prod.snd := by
      intro job
      constructor
      · intro hjob
        obtain ⟨group, hgroup, hmem⟩ := mem_flatten.mp hjob
        obtain ⟨model, -, rfl⟩ := mem_map.mp hgroup
        exact mem_of_mem_filter hmem
      · intro hjob
        obtain ⟨group, hgroup, hmem⟩ := mem_groupByModel hjob
        exact mem_flatten.mpr ⟨group, hgroup, hmem⟩
    obtain ⟨hahead, hclears, hok, hpast⟩ :=
      @nextGroup_ahead schema ν (Server.groupByModel (jobs.map Prod.snd))
    constructor
    · rw [hahead]
      intro job hjob
      rw [h.scanned began jobs hstage]
      exact (hgroups job).mp hjob
    · rw [hclears]
      exact nofun
    · rw [hahead]
      intro _ job hjob _
      rw [h.scanned began jobs hstage] at hjob
      exact .inl ((hgroups job).mpr hjob)
    · exact fun began' jobs' heq => absurd heq (hpast began' jobs')

theorem State.Dealt.commitClear (h : st.Dealt) {attempts : List (List Slot)} {retried : Bool}
    (hstage : st.stage = .clearing (some began) (slots :: attempts) retried texts groups)
    (fault : Bool) : (st.commitClear fault began slots attempts retried texts groups).Dealt := by
  have hopen : st.stage ≠ .returned false := by
    rw [hstage]
    exact nofun
  have hunreached : st.stage.unreached = texts.map Prod.fst ++ groups.flatten := by
    rw [hstage]
    rfl
  have hclears := h.clears
  rw [hstage] at hclears
  have hslots : ∀ slot ∈ slots, ∃ job ∈ st.dropped, job.slot = slot := fun slot hslot =>
    hclears slot (mem_append_left _ hslot)
  have hrest : ∀ slot ∈ attempts.flatten, ∃ job ∈ st.dropped, job.slot = slot :=
    fun slot hslot => hclears slot (mem_append_right _ hslot)
  unfold State.commitClear
  dsimp only
  split_ifs with hconflict hretried hfault
  · refine h.goes hopen (nextClear_ahead _ _ _ _) rfl (List.Subset.refl _) ?_ hrest
      fun job _ hjob => ?_
    · rw [hunreached]
      exact List.Subset.refl _
    · rw [hunreached] at hjob
      exact hjob.imp_right (State.settled_of_same rfl rfl rfl).mpr
  · refine h.goes hopen (nextClear_ahead _ _ _ _) rfl (List.Subset.refl _) ?_ ?_
      fun job _ hjob => ?_
    · rw [hunreached]
      exact List.Subset.refl _
    · intro slot hslot
      obtain ⟨single, hsingle, hmem⟩ := mem_flatten.mp hslot
      obtain ⟨slot', hslot', rfl⟩ := mem_map.mp hsingle
      rw [mem_singleton.mp hmem]
      exact hslots slot' hslot'
    · rw [hunreached] at hjob
      exact hjob.imp_right (State.settled_of_same rfl rfl rfl).mpr
  · refine h.goes hopen (nextClear_ahead _ _ _ _) rfl (List.Subset.refl _) ?_ hrest
      fun job _ hjob => ?_
    · rw [hunreached]
      exact List.Subset.refl _
    · rw [hunreached] at hjob
      exact hjob.imp_right (State.settled_of_same rfl rfl rfl).mpr
  · refine h.goes hopen (nextClear_ahead _ _ _ _) rfl (List.Subset.refl _) ?_ hrest
      fun job hnot hjob => ?_
    · rw [hunreached]
      exact List.Subset.refl _
    · rw [hunreached] at hjob
      refine hjob.imp_right ?_
      -- Only jobs without a text lose their state.
      have hkept : (st.states.eraseAll slots).lookup job.slot = st.states.lookup job.slot := by
        rw [lookup_eraseAll, if_neg]
        intro hmem
        obtain ⟨job', hdropped, heq⟩ := hslots _ hmem
        rw [VectorizeJob.eq_of_slot heq] at hdropped
        exact hnot hdropped
      unfold State.Settled
      rw [hkept]
      exact id

theorem State.Dealt.commitMark (h : st.Dealt)
    (hstage : st.stage = .marking (some began) (job :: jobs) groups) (fault : Bool) :
    (st.commitMark fault began job jobs groups).Dealt := by
  unfold State.commitMark
  split_ifs with hrefused
  · exact st.dealt_failed
  · have hunreached : st.stage.unreached = job :: (jobs ++ groups.flatten) := by
      rw [hstage]
      rfl
    have hopen : st.stage ≠ .returned false := by
      rw [hstage]
      exact nofun
    refine h.goes hopen (nextMark_ahead _ _) rfl (List.Subset.refl _) ?_ nofun
      fun job' _ hjob => ?_
    · rw [hunreached]
      exact subset_cons_self _ _
    · rw [hunreached, mem_cons] at hjob
      rcases hjob with (hhead | hmem) | hsettled
      · right
        apply @State.settled_ended _ _ st _ .failed (.inr rfl) job _ _ _ job' (.inl hhead) <;>
          rfl
      · exact .inl hmem
      · right
        apply @State.settled_ended _ _ st _ .failed (.inr rfl) job _ _ _ job' (.inr hsettled) <;>
          rfl

theorem State.Dealt.commitStore (h : st.Dealt) {vector : ν} {pairs : List (VectorizeJob schema × ν)}
    (hstage : st.stage = .storing (some began) ((job, vector) :: pairs) groups) (fault : Bool) :
    (st.commitStore fault began job vector pairs groups).Dealt := by
  unfold State.commitStore
  split_ifs with hrefused
  · exact st.dealt_failed
  · have hunreached : st.stage.unreached = job :: (pairs.map Prod.fst ++ groups.flatten) := by
      rw [hstage]
      rfl
    have hopen : st.stage ≠ .returned false := by
      rw [hstage]
      exact nofun
    refine h.goes hopen (nextStore_ahead _ _) rfl (List.Subset.refl _) ?_ nofun
      fun job' _ hjob => ?_
    · rw [hunreached]
      exact subset_cons_self _ _
    · rw [hunreached, mem_cons] at hjob
      rcases hjob with (hhead | hmem) | hsettled
      · right
        apply @State.settled_ended _ _ st _ .indexed (.inl rfl) job _ _ _ job' (.inl hhead) <;>
          rfl
      · exact .inl hmem
      · right
        apply @State.settled_ended _ _ st _ .indexed (.inl rfl) job _ _ _ job' (.inr hsettled) <;>
          rfl

end

structure State.Sound (st : State schema ν) : Prop where
  ids : st.Ids
  dealt : st.Dealt

theorem State.sound_opened (objects : SortedMap SchemaCatalog.ObjectKey FieldMap)
    (queue : SortedMap Nat (VectorizeJob schema)) (states : SortedMap Slot VectorState)
    (vectors index : SortedMap Slot ν) :
    (State.opened objects queue states vectors index).Sound := by
  refine ⟨⟨zero_le _, nofun, .nil, nofun, ?_, nofun⟩, ⟨nofun, nofun, nofun, nofun⟩⟩
  · intro id job hrow
    have hid : id ∈ queue.entries.map Prod.fst :=
      mem_map_of_mem (lookup_eq_some.mp hrow)
    exact lt_succ_of_le (le_max?_getD_of_mem hid)

theorem State.Sound.land (h : st.Sound) (i : Nat) : (st.land i).Sound := by
  unfold State.land
  split
  · exact h
  · rename_i first jobs hget
    refine ⟨h.ids.land hget, h.dealt.of_foreground rfl rfl rfl fun job hjob => ?_⟩
    have hmem := mem_of_getElem? hget
    have hsettled : (st.enqueued first jobs).Settled job :=
      State.settled_enqueued (h.ids.cursor_first _ hmem) (h.ids.fresh _ hmem) (.inr hjob)
    exact hsettled

theorem State.Sound.commitTxn (h : st.Sound) (fault : Bool) : (st.commitTxn fault).Sound := by
  unfold State.commitTxn
  split
  · rename_i began jobs hstage
    refine ⟨?_, h.dealt.commitClaim hstage fault⟩
    unfold State.commitClaim
    dsimp only
    split_ifs
    · exact h.ids.of_same rfl rfl rfl fun _ _ hrow => hrow
    · refine h.ids.of_same rfl rfl rfl fun id job hrow => ?_
      rw [lookup_eraseAll] at hrow
      split_ifs at hrow
      exact hrow
  · rename_i hstage
    refine ⟨?_, h.dealt.commitClear hstage fault⟩
    unfold State.commitClear
    dsimp only
    split_ifs <;> exact h.ids.of_same rfl rfl rfl fun _ _ hrow => hrow
  · rename_i hstage
    refine ⟨?_, h.dealt.commitMark hstage fault⟩
    unfold State.commitMark
    split_ifs <;> exact h.ids.of_same rfl rfl rfl fun _ _ hrow => hrow
  · rename_i hstage
    refine ⟨?_, h.dealt.commitStore hstage fault⟩
    unfold State.commitStore
    split_ifs <;> exact h.ids.of_same rfl rfl rfl fun _ _ hrow => hrow
  · exact h

theorem State.Sound.embed (h : st.Sound) {texts : List (VectorizeJob schema × Bytes)}
    {groups : List (List (VectorizeJob schema))} (hstage : st.stage = .embedding texts groups)
    (outcome : Embedding ν) : (st.embed texts groups outcome).Sound := by
  refine ⟨?_, h.dealt.embed h.ids hstage outcome⟩
  unfold State.embed
  split
  · have hids := h.ids.requeue (texts.map Prod.fst)
    rw [length_map] at hids
    exact hids.of_same rfl rfl rfl fun _ _ hrow => hrow
  · exact h.ids.of_same rfl rfl rfl fun _ _ hrow => hrow
  · split_ifs <;> exact h.ids.of_same rfl rfl rfl fun _ _ hrow => hrow

theorem State.Sound.step (h : st.Sound) (a : Action schema ν) : (st.step batchSize a).Sound := by
  unfold State.step
  cases a with
  | register jobs =>
    exact ⟨h.ids.register jobs, h.dealt.of_foreground rfl rfl rfl fun _ hjob => hjob⟩
  | land i => exact h.land i
  | write key row =>
    dsimp only
    unfold State.write
    split
    · exact ⟨h.ids.of_same rfl rfl rfl fun _ _ hrow => hrow,
        h.dealt.of_foreground rfl rfl rfl fun _ hjob => hjob⟩
    · exact ⟨h.ids.of_same rfl rfl rfl fun _ _ hrow => hrow,
        h.dealt.of_foreground rfl rfl rfl fun _ hjob => hjob⟩
  | scan =>
    dsimp only
    split
    · exact ⟨h.ids.scan batchSize, st.dealt_scan batchSize⟩
    · exact ⟨h.ids.scan batchSize, st.dealt_scan batchSize⟩
    · exact h
  | read i =>
    dsimp only
    split
    · rename_i groups hstage
      refine ⟨?_, h.dealt.readGroup hstage i⟩
      unfold State.readGroup
      split
      · exact h.ids
      · exact h.ids.of_same rfl rfl rfl fun _ _ hrow => hrow
    · exact h
  | begin =>
    refine ⟨?_, h.dealt.beginTxn⟩
    dsimp only
    unfold State.beginTxn
    split
    · exact h.ids.of_same rfl rfl rfl fun _ _ hrow => hrow
    · exact h.ids.of_same rfl rfl rfl fun _ _ hrow => hrow
    · exact h.ids.of_same rfl rfl rfl fun _ _ hrow => hrow
    · exact h.ids
  | embed outcome =>
    dsimp only
    split
    · rename_i hstage
      exact h.embed hstage outcome
    · exact h
  | commit fault => exact h.commitTxn fault

def State.after (batchSize : Nat) (objects : SortedMap SchemaCatalog.ObjectKey FieldMap)
    (queue : SortedMap Nat (VectorizeJob schema)) (states : SortedMap Slot VectorState)
    (vectors index : SortedMap Slot ν) (actions : List (Action schema ν)) : State schema ν :=
  exec (State.step batchSize) (State.opened objects queue states vectors index) actions

theorem State.sound_after (batchSize : Nat) (objects : SortedMap SchemaCatalog.ObjectKey FieldMap)
    (queue : SortedMap Nat (VectorizeJob schema)) (states : SortedMap Slot VectorState)
    (vectors index : SortedMap Slot ν) (actions : List (Action schema ν)) :
    (State.after batchSize objects queue states vectors index actions).Sound :=
  exec_invariant (I := State.Sound) (fun _ a h _ => State.Sound.step h a)
    (State.sound_opened objects queue states vectors index)
    (along_of_forall (P := fun _ => True) fun _ _ => trivial)

theorem State.step_of_fails (hfails : st.fails a) :
    st.step batchSize a = { st with stage := .returned false } := by
  unfold State.fails at hfails
  split at hfails
  · rename_i fault
    change st.commitTxn fault = _
    unfold State.commitTxn
    split at hfails
    · rename_i hstage
      rw [hstage]
      exact if_pos hfails
    · rename_i hstage
      rw [hstage]
      exact if_pos hfails
    · rename_i hstage
      rw [hstage]
      exact if_pos hfails
    · cases hfails
  · cases hfails

theorem State.fails_of_step (hopen : st.stage.isReturned = false)
    (hfailed : (st.step batchSize a).stage = .returned false) : st.fails a := by
  have hne : st.stage ≠ .returned false := by
    intro heq
    rw [heq] at hopen
    cases hopen
  have hok : ∀ {stage : Stage schema ν} {jobs slots}, stage.Ahead jobs slots →
      stage ≠ .returned false := fun hahead => hahead.2.2.1
  cases a with
  | register jobs => exact absurd hfailed hne
  | land i =>
    change (st.land i).stage = _ at hfailed
    unfold State.land at hfailed
    split at hfailed <;> exact absurd hfailed hne
  | write key row =>
    change (st.write key row).stage = _ at hfailed
    unfold State.write at hfailed
    split at hfailed <;> exact absurd hfailed hne
  | scan =>
    unfold State.step at hfailed
    dsimp only at hfailed
    have hscan : (st.scan batchSize).stage ≠ .returned false := by
      unfold State.scan
      dsimp only
      split_ifs <;> exact nofun
    split at hfailed
    · exact absurd hfailed hscan
    · exact absurd hfailed hscan
    · exact absurd hfailed hne
  | read i =>
    unfold State.step at hfailed
    dsimp only at hfailed
    split at hfailed
    · unfold State.readGroup at hfailed
      split at hfailed
      · exact absurd hfailed hne
      · exact absurd hfailed (hok (nextClear_ahead _ _ _ _))
    · exact absurd hfailed hne
  | begin =>
    change st.beginTxn.stage = _ at hfailed
    unfold State.beginTxn at hfailed
    split at hfailed
    · cases hfailed
    · cases hfailed
    · cases hfailed
    · exact absurd hfailed hne
  | embed outcome =>
    unfold State.step at hfailed
    dsimp only at hfailed
    split at hfailed
    · unfold State.embed at hfailed
      split at hfailed
      · exact absurd hfailed (hok (nextGroup_ahead _))
      · exact absurd hfailed (hok (nextMark_ahead _ _))
      · split_ifs at hfailed
        · exact absurd hfailed (hok (nextStore_ahead _ _))
        · exact absurd hfailed (hok (nextMark_ahead _ _))
    · exact absurd hfailed hne
  | commit fault =>
    change (st.commitTxn fault).stage = _ at hfailed
    unfold State.commitTxn at hfailed
    unfold State.fails
    split at hfailed
    · rename_i hstage
      rw [hstage]
      unfold State.commitClaim at hfailed
      dsimp only at hfailed ⊢
      split_ifs at hfailed with hrefused
      · exact hrefused
      · exact absurd hfailed (hok (nextGroup_ahead _))
    · unfold State.commitClear at hfailed
      dsimp only at hfailed
      split_ifs at hfailed <;> exact absurd hfailed (hok (nextClear_ahead _ _ _ _))
    · rename_i hstage
      rw [hstage]
      unfold State.commitMark at hfailed
      split_ifs at hfailed with hrefused
      · exact hrefused
      · exact absurd hfailed (hok (nextMark_ahead _ _))
    · rename_i hstage
      rw [hstage]
      unfold State.commitStore at hfailed
      split_ifs at hfailed with hrefused
      · exact hrefused
      · exact absurd hfailed (hok (nextStore_ahead _ _))
    · exact absurd hfailed hne

/-- Whatever the runs before it, a step that returns has settled its claim exactly if it did not
fail, or what it had still ahead when it failed was settled otherwise. -/
theorem returned_settled_iff (batchSize : Nat)
    (objects : SortedMap SchemaCatalog.ObjectKey FieldMap)
    (queue : SortedMap Nat (VectorizeJob schema)) (states : SortedMap Slot VectorState)
    (vectors index : SortedMap Slot ν) (actions : List (Action schema ν)) (a : Action schema ν)
    (hopen : (State.after batchSize objects queue states vectors index
      actions).stage.isReturned = false)
    (hreturned : (State.after batchSize objects queue states vectors index
      (actions ++ [a])).stage.isReturned) :
    (State.after batchSize objects queue states vectors index (actions ++ [a])).AllSettled
        (State.after batchSize objects queue states vectors index (actions ++ [a])).batch ↔
      ((State.after batchSize objects queue states vectors index actions).fails a →
        (State.after batchSize objects queue states vectors index actions).AllSettled
          (State.after batchSize objects queue states vectors index actions).stage.unreached) := by
  have hsound : (State.after batchSize objects queue states vectors index actions).Sound :=
    State.sound_after batchSize objects queue states vectors index actions
  have hstep : State.after batchSize objects queue states vectors index (actions ++ [a]) =
      (State.after batchSize objects queue states vectors index actions).step batchSize a := by
    unfold State.after
    rw [exec_append]
    rfl
  rw [hstep] at hreturned ⊢
  generalize State.after batchSize objects queue states vectors index actions = st at *
  have hne : st.stage ≠ .returned false := by
    intro heq
    rw [heq] at hopen
    cases hopen
  by_cases hfails : st.fails a
  · rw [State.step_of_fails hfails]
    constructor
    · intro hall _ job hjob hnot htext
      exact hall job (hsound.dealt.unreached job hjob) hnot htext
    · intro hahead job hjob hnot htext
      rcases hsound.dealt.settled hne job hjob hnot with hmem | hsettled
      · exact hahead hfails job hmem hnot htext
      · exact hsettled
  · have hnext : (st.step batchSize a).Sound := hsound.step a
    have hdone := hnext.dealt.settled
    refine iff_of_true ?_ fun h => absurd h hfails
    intro job hjob hnot _
    cases hstage : (st.step batchSize a).stage with
    | returned ok =>
      cases ok with
      | false => exact absurd (State.fails_of_step hopen hstage) hfails
      | true =>
        rw [hstage] at hdone
        rcases hdone nofun job hjob hnot with hmem | hsettled
        · cases hmem
        · exact hsettled
    | _ =>
      rw [hstage] at hreturned
      cases hreturned

def otherJob : VectorizeJob noteSchema := ⟨⟨⟨1, 2, "body", "mini"⟩, mem_noteSchema⟩, 8⟩

def noteObjects : SortedMap SchemaCatalog.ObjectKey FieldMap :=
  (SortedMap.empty.insert ⟨1, 7⟩ noteRow).insert ⟨1, 8⟩ noteRow

def noteQueue : SortedMap Nat (VectorizeJob noteSchema) :=
  (SortedMap.empty.insert 1 noteJob).insert 2 otherJob

def noteStates : SortedMap Slot VectorState :=
  (SortedMap.empty.insert noteJob.slot .pending).insert otherJob.slot .pending

def notesAfter (actions : List (Action noteSchema Nat)) : State noteSchema Nat :=
  State.after 32 noteObjects noteQueue noteStates .empty .empty actions

def storingFirst : List (Action noteSchema Nat) :=
  [.scan, .commit false, .read 0, .embed (.vectors [70, 80]), .begin]

/-- Both notes are enqueued again while the first one's vector is stored. -/
def enqueuedAgain : List (Action noteSchema Nat) :=
  storingFirst ++ [.register [noteJob, otherJob], .land 0]

theorem notes_settled :
    (notesAfter enqueuedAgain).fails (.commit false) = true ∧
      (notesAfter (enqueuedAgain ++ [.commit false])).AllSettled
        (notesAfter (enqueuedAgain ++ [.commit false])).batch := by
  have hopen : (notesAfter enqueuedAgain).stage.isReturned = false := by decide +kernel
  have hreturned : (notesAfter (enqueuedAgain ++ [.commit false])).stage.isReturned = true := by
    decide +kernel
  have hunreached : (notesAfter enqueuedAgain).stage.unreached = [noteJob, otherJob] := by
    decide +kernel
  refine ⟨by decide +kernel, (returned_settled_iff 32 noteObjects noteQueue noteStates .empty .empty
    enqueuedAgain (.commit false) hopen hreturned).mpr fun _ job hjob _ _ => ?_⟩
  change job ∈ (notesAfter enqueuedAgain).stage.unreached at hjob
  rcases mem_pair.mp hjob with rfl | rfl
  · exact .inl ⟨3, by decide +kernel, by decide +kernel⟩
  · exact .inl ⟨4, by decide +kernel, by decide +kernel⟩

/-- The first note is enqueued again while its vector is stored: the conflict leaves the second
one pending, with no row in the queue. -/
theorem other_note_stranded : ¬ ∀ (actions : List (Action noteSchema Nat))
    (a : Action noteSchema Nat),
    (notesAfter actions).stage.isReturned = false →
    (notesAfter (actions ++ [a])).stage.isReturned →
    (notesAfter (actions ++ [a])).AllSettled (notesAfter (actions ++ [a])).batch := by
  intro hclaim
  have hsettled := hclaim (storingFirst ++ [.register [noteJob], .land 0]) (.commit false)
    (by decide +kernel) (by decide +kernel) otherJob (by decide +kernel) (by decide +kernel)
    (by decide +kernel)
  rcases hsettled with ⟨id, -, hrow⟩ | hstate | hstate
  · have hmem := lookup_eq_some.mp hrow
    have hqueue : (notesAfter (storingFirst ++ [.register [noteJob], .land 0] ++
        [.commit false])).queue.entries = [(3, noteJob)] := by decide +kernel
    rw [hqueue, mem_singleton] at hmem
    exact absurd (Prod.mk.inj hmem).2 (by decide)
  · exact absurd hstate (by decide +kernel)
  · exact absurd hstate (by decide +kernel)

end RhypeDb.Vectorizer.WorkerStep
