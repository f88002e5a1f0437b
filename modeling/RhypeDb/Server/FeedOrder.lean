import RhypeDb.Server.ChangeFeed

/-! What a subscriber receives: where no publish overtakes an earlier one of the same object, the
feed of every object is its committed changes, in version order. -/

namespace RhypeDb.Server.ChangeFeed

open Engine List Run Storage

variable {F : Type} {schema : Schema} {st : Feed F} {n : Id × Id}

section

variable {e : ChangeEvent F} {txns : List (Txn F)} {items : List (Item F)} {version : Nat}
  {s : Store}

theorem mem_changesFrom :
    e ∈ changesFrom schema n version s txns ↔
      ∃ (j : Nat) (txn : Txn F), txns[j]? = some txn ∧
        txn.Changes ((txns.take j).foldl applyTxn s) n ∧
        e = txn.event schema (version + j) n := by
  induction txns generalizing version s with
  | nil =>
    refine iff_of_false not_mem_nil ?_
    rintro ⟨j, txn, htxn, -⟩
    cases htxn
  | cons txn txns ih =>
    unfold changesFrom
    rw [mem_append, ih]
    constructor
    · rintro (hfirst | ⟨j, txn', htxn, hchanges, rfl⟩)
      · split_ifs at hfirst with hchanges
        · exact ⟨0, txn, rfl, hchanges, mem_singleton.mp hfirst⟩
        · cases hfirst
      · refine ⟨j + 1, txn', htxn, hchanges, ?_⟩
        rw [Nat.add_right_comm, Nat.add_assoc]
    · rintro ⟨j, txn', htxn, hchanges, rfl⟩
      cases j with
      | zero =>
        cases htxn
        left
        rw [if_pos (show txn.Changes s n from hchanges)]
        exact mem_singleton_self _
      | succ j =>
        refine .inr ⟨j, txn', htxn, hchanges, ?_⟩
        rw [Nat.add_right_comm, Nat.add_assoc]

theorem mem_changes : e ∈ st.changes schema n ↔ ∃ (j : Nat) (txn : Txn F),
    st.history.commits[j]? = some txn ∧ txn.Changes (st.history.stateAt applyTxn j) n ∧
      e = txn.event schema (st.first + j + 1) n := by
  unfold Feed.changes
  rw [mem_changesFrom]
  simp only [Nat.add_right_comm]
  rfl

theorem changesFrom_append {txn : Txn F} :
    changesFrom schema n version s (txns ++ [txn]) = changesFrom schema n version s txns ++
      if txn.Changes (txns.foldl applyTxn s) n then [txn.event schema (version + txns.length) n]
      else [] := by
  induction txns generalizing version s with
  | nil => exact append_nil _
  | cons txn' txns ih =>
    rw [cons_append]
    unfold changesFrom
    rw [ih, append_assoc, length_cons, Nat.add_right_comm, Nat.add_assoc version]
    rfl

theorem increasing_changesFrom :
    (changesFrom schema n version s txns).Pairwise fun e e' => e.version < e'.version := by
  induction txns generalizing version s with
  | nil => exact List.Pairwise.nil
  | cons txn txns ih =>
    unfold changesFrom
    split_ifs
    · refine pairwise_cons.mpr ⟨fun e he => ?_, ih⟩
      obtain ⟨j, txn', -, -, rfl⟩ := mem_changesFrom.mp he
      exact Nat.lt_of_lt_of_le (Nat.lt_succ_self version) (Nat.le_add_right _ j)
    · exact ih

theorem increasing_changes (schema : Schema) (st : Feed F) (n : Id × Id) :
    (st.changes schema n).Pairwise fun e e' => e.version < e'.version :=
  increasing_changesFrom

theorem about_append {items' : List (Item F)} :
    about n (items ++ items') = about n items ++ about n items' := by
  unfold about
  rw [filter_append, map_append]

theorem about_singleton {m : Id × Id} : about n [(m, e)] = if m = n then [e] else [] := by
  unfold about
  split_ifs with h
  · simp [h]
  · simp [h]

theorem mem_about : e ∈ about n items ↔ (n, e) ∈ items := by
  unfold about
  simp only [mem_map, mem_filter, decide_eq_true_eq]
  constructor
  · rintro ⟨⟨m, e'⟩, ⟨hitem, rfl⟩, rfl⟩
    exact hitem
  · exact fun h => ⟨(n, e), ⟨h, rfl⟩, rfl⟩

theorem about_filter {p : ChangeEvent F → Bool} :
    about n (items.filter fun item => p item.2) = (about n items).filter p := by
  unfold about
  rw [filter_map, filter_filter, filter_filter]
  congr 1
  exact filter_congr fun item _ => Bool.and_comm _ _

variable {payload : Request → Store → Id × Id → Option (List (String × Authz.Json F))}
  {clients : List (Client F)} {counters : Counters}

/-- What an operation is to publish is of a commit of its own, and each change is published or
pending, once. -/
structure Inv (schema : Schema) (st : Feed F) : Prop where
  owner : ∀ i index txn pending, Publishes st i index txn pending → ∀ n ∈ pending,
    st.history.commits[index]? = some txn ∧ WritesRow txn.writes n
  nodup : ∀ i index txn pending, Publishes st i index txn pending → pending.Nodup
  unpublished : ∀ i index txn pending, Publishes st i index txn pending → ∀ n ∈ pending,
    ∀ e, (n, e) ∈ st.published → e.version ≠ st.first + index + 1
  apart : ∀ i i' index txn txn' pending pending', Publishes st i index txn pending →
    Publishes st i' index txn' pending' → pending ≠ [] → pending' ≠ [] → i = i'
  covered : ∀ n, ∀ e ∈ st.changes schema n, (n, e) ∈ st.published ∨
    ∃ i index txn pending, Publishes st i index txn pending ∧ n ∈ pending ∧
      e.version = st.first + index + 1
  bound : ∀ n e, (n, e) ∈ st.published → e.version ≤ st.first + st.history.version
  staged : ∀ client ∈ st.clients, ∀ snapshot txn, client.phase = .staged snapshot txn →
    txn.objects.Nodup ∧ ∀ n, n ∈ txn.objects ↔ WritesRow txn.writes n
  sinks : ∀ sub ∈ st.hub.subscriptions,
    sub.sink = st.published.filter fun item => sub.filter.matches item.2

theorem Started.inv (h : Started st) : Inv schema st := by
  have hnone : ∀ {i index txn pending}, ¬ Publishes st i index txn pending := by
    rintro i index txn pending ⟨client, hclient, -⟩
    rw [h.clients] at hclient
    cases hclient
  constructor
  · exact fun _ _ _ _ hpub => absurd hpub hnone
  · exact fun _ _ _ _ hpub => absurd hpub hnone
  · exact fun _ _ _ _ hpub => absurd hpub hnone
  · exact fun _ _ _ _ _ _ _ hpub => absurd hpub hnone
  · intro n e he
    unfold Feed.changes at he
    rw [h.commits] at he
    cases he
  · intro n e he
    rw [h.published] at he
    cases he
  · intro client hclient
    rw [h.clients] at hclient
    cases hclient
  · intro sub hsub
    rw [h.sinks sub hsub, h.published]
    rfl

theorem Inv.of_clients (h : Inv schema st) (hpub : ∀ i index txn pending,
      Publishes { st with counters, clients } i index txn pending →
        pending = [] ∨ Publishes st i index txn pending)
    (hkept : ∀ i index txn pending, Publishes st i index txn pending →
      Publishes { st with counters, clients } i index txn pending)
    (hstaged : ∀ client ∈ clients, ∀ snapshot txn, client.phase = .staged snapshot txn →
      txn.objects.Nodup ∧ ∀ n, n ∈ txn.objects ↔ WritesRow txn.writes n) :
    Inv schema { st with counters, clients } := by
  have hmem : ∀ {i index txn pending} {m : Id × Id},
      Publishes { st with counters, clients } i index txn pending → m ∈ pending →
      Publishes st i index txn pending := fun hp hm =>
    (hpub _ _ _ _ hp).resolve_left (ne_nil_of_mem hm)
  constructor
  · exact fun i index txn pending hp m hm => h.owner i index txn pending (hmem hp hm) m hm
  · intro i index txn pending hp
    obtain rfl | hp := hpub i index txn pending hp
    · exact nodup_nil
    · exact h.nodup i index txn pending hp
  · exact fun i index txn pending hp m hm => h.unpublished i index txn pending (hmem hp hm) m hm
  · intro i i' index txn txn' pending pending' hp hp' hne hne'
    exact h.apart i i' index txn txn' pending pending' ((hpub _ _ _ _ hp).resolve_left hne)
      ((hpub _ _ _ _ hp').resolve_left hne') hne hne'
  · intro n e he
    refine (h.covered n e he).imp_right ?_
    rintro ⟨i, index, txn, pending, hp, hn⟩
    exact ⟨i, index, txn, pending, hkept i index txn pending hp, hn⟩
  · exact h.bound
  · exact hstaged
  · exact h.sinks

variable {pending : List (Id × Id)} {txn : Txn F} {i index : Nat} {st' : Feed F}

theorem publishes_set {client client' : Client F}
    (hclient : clients[i]? = some client) (hst : st'.clients = clients.set i client')
    {i' : Nat} :
    Publishes st' i' index txn pending ↔
      (i' = i ∧ client'.phase = .publishing index txn pending) ∨
      (i' ≠ i ∧ ∃ c, clients[i']? = some c ∧ c.phase = .publishing index txn pending) := by
  have hlt : i < clients.length := (List.getElem?_eq_some_iff.mp hclient).1
  unfold Publishes
  rw [hst, getElem?_set]
  by_cases heq : i' = i
  · subst heq
    rw [if_pos rfl, if_pos hlt]
    constructor
    · rintro ⟨c, hc, hphase⟩
      cases hc
      exact .inl ⟨rfl, hphase⟩
    · rintro (⟨-, hphase⟩ | ⟨hne, -⟩)
      · exact ⟨client', rfl, hphase⟩
      · exact absurd rfl hne
  · rw [if_neg fun h => heq h.symm]
    constructor
    · exact fun hc => .inr ⟨heq, hc⟩
    · rintro (⟨h, -⟩ | ⟨-, hc⟩)
      · exact absurd h heq
      · exact hc

variable {client : Client F}

theorem Inv.setPhase (h : Inv schema st) (hclient : st.clients[i]? = some client) {phase : Phase F}
    (hold : ∀ index txn pending, client.phase ≠ .publishing index txn pending)
    (hnew : ∀ index txn pending, phase = .publishing index txn pending → pending = [])
    (hstaged : ∀ snapshot txn, phase = .staged snapshot txn → txn.objects.Nodup ∧ ∀ n, n ∈
      txn.objects ↔ WritesRow txn.writes n) :
    Inv schema (({ st with counters } : Feed F).setPhase i client phase) := by
  refine h.of_clients (fun i' index txn pending hp => ?_) (fun i' index txn pending hp => ?_) ?_
  · obtain ⟨-, hphase⟩ | ⟨-, hc⟩ := (publishes_set hclient rfl).mp hp
    · exact .inl (hnew index txn pending hphase)
    · exact .inr hc
  · rw [publishes_set hclient rfl]
    obtain ⟨c, hc, hphase⟩ := hp
    refine .inr ⟨?_, c, hc, hphase⟩
    rintro rfl
    cases hclient.symm.trans hc
    exact hold index txn pending hphase
  · intro c hc snapshot txn hphase
    obtain hc | rfl := mem_or_eq_of_mem_set hc
    · exact h.staged c hc snapshot txn hphase
    · exact hstaged snapshot txn hphase

theorem Inv.start (h : Inv schema st) (request : Request) (origin : Option Nat) :
    Inv schema (step schema payload st (.start request origin)) := by
  refine h.of_clients (fun i index txn pending => ?_) (fun i index txn pending => ?_) ?_
  · rintro ⟨c, hc, hphase⟩
    rw [getElem?_append] at hc
    split_ifs at hc
    · exact .inr ⟨c, hc, hphase⟩
    · rw [getElem?_singleton] at hc
      split_ifs at hc
      cases hc
      cases hphase
  · rintro ⟨c, hc, hphase⟩
    refine ⟨c, ?_, hphase⟩
    have hlt := (List.getElem?_eq_some_iff.mp hc).1
    exact (getElem?_append_left hlt).trans hc
  · intro c hc snapshot txn hphase
    obtain hc | hc := mem_append.mp hc
    · exact h.staged c hc snapshot txn hphase
    · rw [mem_singleton.mp hc] at hphase
      cases hphase

theorem Inv.stage (h : Inv schema st) (i : Nat) :
    Inv schema (step schema payload st (.stage i)) := by
  unfold step
  dsimp only
  cases hclient : st.clients[i]? with
  | none => exact h
  | some client =>
    dsimp only
    cases hphase : client.phase with
    | begun snapshot =>
      have hold : ∀ index txn pending, client.phase ≠ .publishing index txn pending := by
        intro index txn pending heq
        cases hphase.symm.trans heq
      unfold Feed.stageClient
      dsimp only
      cases hstage : Database.stage schema (st.history.stateAt applyTxn snapshot).view st.counters
        client.request.call with
      | mk result counters =>
        cases result with
        | error e =>
          refine h.setPhase hclient hold ?_ ?_
          · exact nofun
          · exact nofun
        | ok writes =>
          refine h.setPhase hclient hold ?_ fun snapshot' txn h' => ?_
          · exact nofun
          · cases h'
            exact objects_spec hstage
    | _ => exact h

theorem Publishes.index_lt (h : Inv schema st)
    (hp : Publishes st i index txn pending) (hne : pending ≠ []) : index < st.history.version := by
  obtain ⟨n, hn⟩ := exists_mem_of_ne_nil pending hne
  have hcommit := (h.owner i index txn pending hp n hn).1
  exact (List.getElem?_eq_some_iff.mp hcommit).1

theorem changes_commit (st : Feed F) (n : Id × Id) (txn : Txn F) (clients : List (Client F)) :
    ({ st with history := st.history.commit txn, clients } : Feed F).changes schema n =
      st.changes schema n ++ if txn.Changes (st.history.latest applyTxn) n then
        [txn.event schema (st.first + st.history.version + 1) n] else [] := by
  unfold Feed.changes SnapshotHistory.commit
  rw [changesFrom_append, Nat.add_right_comm]
  rfl

theorem Inv.commitOk (h : Inv schema st) {snapshot : Nat}
    (hclient : st.clients[i]? = some client) (hphase : client.phase = .staged snapshot txn) :
    Inv schema (({ st with history := st.history.commit txn } : Feed F).setPhase i client
      (.publishing st.history.version txn txn.objects)) := by
  obtain ⟨hnodup, hobjects⟩ := h.staged client (mem_of_getElem? hclient) snapshot txn hphase
  have hpub : ∀ {i' index txn' pending}, Publishes (({ st with
      history := st.history.commit txn } : Feed F).setPhase i client
      (.publishing st.history.version txn txn.objects)) i' index txn' pending ↔
      (i' = i ∧ index = st.history.version ∧ txn' = txn ∧ pending = txn.objects) ∨
        (i' ≠ i ∧ Publishes st i' index txn' pending) := by
    intro i' index txn' pending
    rw [publishes_set hclient rfl]
    refine or_congr (and_congr_right fun _ => ?_) Iff.rfl
    rw [Phase.publishing.injEq]
    exact ⟨fun ⟨h₁, h₂, h₃⟩ => ⟨h₁.symm, h₂.symm, h₃.symm⟩,
      fun ⟨h₁, h₂, h₃⟩ => ⟨h₁.symm, h₂.symm, h₃.symm⟩⟩
  have hversion : (st.history.commit txn).version = st.history.version + 1 :=
    SnapshotHistory.version_commit
  have hkept : ∀ {index : Nat} {txn' : Txn F}, st.history.commits[index]? = some txn' →
      (st.history.commit txn).commits[index]? = some txn' := by
    intro index txn' hcommit
    have hlt := (List.getElem?_eq_some_iff.mp hcommit).1
    unfold SnapshotHistory.commit
    rw [getElem?_append_left hlt]
    exact hcommit
  constructor
  · intro i' index txn' pending hp m hm
    obtain ⟨-, rfl, rfl, rfl⟩ | ⟨-, hp⟩ := hpub.mp hp
    · refine ⟨?_, (hobjects m).mp hm⟩
      exact getElem?_concat_length
    · obtain ⟨hcommit, hrow⟩ := h.owner i' index txn' pending hp m hm
      exact ⟨hkept hcommit, hrow⟩
  · intro i' index txn' pending hp
    obtain ⟨-, -, -, rfl⟩ | ⟨-, hp⟩ := hpub.mp hp
    · exact hnodup
    · exact h.nodup i' index txn' pending hp
  · intro i' index txn' pending hp m hm e he
    obtain ⟨-, rfl, -, -⟩ | ⟨-, hp⟩ := hpub.mp hp
    · have hbound := h.bound m e he
      exact Nat.ne_of_lt (Nat.lt_succ_of_le hbound)
    · exact h.unpublished i' index txn' pending hp m hm e he
  · intro i₁ i₂ index txn₁ txn₂ pending₁ pending₂ hp₁ hp₂ hne₁ hne₂
    obtain ⟨rfl, rfl, -, -⟩ | ⟨-, hp₁⟩ := hpub.mp hp₁
    · obtain ⟨rfl, -⟩ | ⟨-, hp₂⟩ := hpub.mp hp₂
      · rfl
      · exact absurd (hp₂.index_lt h hne₂) (lt_irrefl _)
    · obtain ⟨-, rfl, -, -⟩ | ⟨-, hp₂⟩ := hpub.mp hp₂
      · exact absurd (hp₁.index_lt h hne₁) (lt_irrefl _)
      · exact h.apart i₁ i₂ index txn₁ txn₂ pending₁ pending₂ hp₁ hp₂ hne₁ hne₂
  · intro m e he
    unfold Feed.setPhase at he
    rw [changes_commit st m txn, mem_append] at he
    obtain he | he := he
    · refine (h.covered m e he).imp_right ?_
      rintro ⟨i', index, txn', pending, hp, hm, hv⟩
      refine ⟨i', index, txn', pending, hpub.mpr (.inr ⟨?_, hp⟩), hm, hv⟩
      rintro rfl
      obtain ⟨c, hc, hpublishing⟩ := hp
      cases hclient.symm.trans hc
      cases hphase.symm.trans hpublishing
    · split_ifs at he with hchanges
      · rw [mem_singleton.mp he]
        have hm := (hobjects m).mpr hchanges.1
        exact .inr ⟨i, st.history.version, txn, txn.objects, hpub.mpr (.inl ⟨rfl, rfl, rfl, rfl⟩),
          hm, rfl⟩
      · cases he
  · intro m e he
    have hbound := h.bound m e he
    unfold Feed.setPhase
    rw [hversion]
    exact Nat.le_succ_of_le hbound
  · intro c hc snapshot' txn' hstaged
    obtain hc | rfl := mem_or_eq_of_mem_set hc
    · exact h.staged c hc snapshot' txn' hstaged
    · cases hstaged
  · exact h.sinks

theorem Inv.commit (h : Inv schema st) (i : Nat) :
    Inv schema (step schema payload st (.commit i)) := by
  unfold step
  dsimp only
  cases hclient : st.clients[i]? with
  | none => exact h
  | some client =>
    dsimp only
    cases hphase : client.phase with
    | begun snapshot => exact h
    | publishing index txn pending => exact h
    | failed => exact h
    | staged snapshot txn =>
      have hold : ∀ index txn pending, client.phase ≠ .publishing index txn pending := by
        intro index txn pending heq
        cases hphase.symm.trans heq
      dsimp only
      unfold Feed.commitClient
      split_ifs with hempty hconflict
      · obtain ⟨-, hobjects⟩ := h.staged client (mem_of_getElem? hclient) snapshot txn hphase
        refine h.setPhase hclient hold (fun index txn' pending h' => ?_) ?_
        · cases h'
          refine eq_nil_iff_forall_not_mem.mpr fun m hm => ?_
          obtain ⟨w, hw, -⟩ := (hobjects m).mp hm
          rw [List.isEmpty_iff.mp hempty] at hw
          cases hw
        · exact nofun
      · refine h.setPhase hclient hold ?_ ?_
        · exact nofun
        · exact nofun
      · exact h.commitOk hclient hphase

theorem mem_eraseIdx_of_nodup (hnodup : pending.Nodup) {j : Nat} (hn : pending[j]? = some n)
    {m : Id × Id} : m ∈ pending.eraseIdx j ↔ m ∈ pending ∧ m ≠ n := by
  obtain ⟨hlt, rfl⟩ := List.getElem?_eq_some_iff.mp hn
  rw [← hnodup.erase_getElem j hlt, hnodup.mem_erase_iff, and_comm]

def published (schema : Schema) (st : Feed F) (i j : Nat) (client : Client F) (index : Nat)
    (txn : Txn F) (pending : List (Id × Id)) (n : Id × Id) : Feed F :=
  ({ st with
    published := st.published ++ [(n, txn.event schema (st.first + index + 1) n)]
    hub := publishTo st.hub (n, txn.event schema (st.first + index + 1) n) } : Feed F).setPhase i
      client (.publishing index txn (pending.eraseIdx j))

theorem publish_cases (schema : Schema)
    (payload : Request → Store → Id × Id → Option (List (String × Authz.Json F)))
    (st : Feed F) (i j : Nat) :
    (∃ client index txn pending n, st.clients[i]? = some client ∧
      client.phase = .publishing index txn pending ∧ pending[j]? = some n ∧
      (j = 0 ∨ txn.request.isDelete = true) ∧
      step schema payload st (.publish i j) =
        published schema st i j client index txn pending n) ∨
    (step schema payload st (.publish i j) = st ∧ ∀ index txn pending n,
      Publishes st i index txn pending → pending[j]? = some n →
      ¬ (j = 0 ∨ txn.request.isDelete = true)) := by
  unfold step
  dsimp only
  cases hclient : st.clients[i]? with
  | none =>
    refine .inr ⟨rfl, ?_⟩
    rintro index txn pending n ⟨client, hc, -⟩
    cases hclient.symm.trans hc
  | some client =>
    dsimp only
    cases hphase : client.phase with
    | publishing index txn pending =>
      have hsame : ∀ {index' txn' pending'}, Publishes st i index' txn' pending' →
          txn' = txn ∧ pending' = pending := by
        rintro index' txn' pending' ⟨c, hc, hp⟩
        cases hclient.symm.trans hc
        cases hphase.symm.trans hp
        exact ⟨rfl, rfl⟩
      dsimp only
      unfold Feed.publishClient
      cases hn : pending[j]? with
      | none =>
        refine .inr ⟨rfl, fun index' txn' pending' n hp hn' => ?_⟩
        obtain ⟨-, rfl⟩ := hsame hp
        cases hn.symm.trans hn'
      | some n =>
        split_ifs with hallowed
        · exact .inl ⟨client, index, txn, pending, n, rfl, hphase, hn, hallowed, rfl⟩
        · refine .inr ⟨rfl, fun index' txn' pending' n hp _ => ?_⟩
          obtain ⟨rfl, -⟩ := hsame hp
          exact hallowed
    | begun snapshot =>
      refine .inr ⟨rfl, ?_⟩
      rintro index txn pending n ⟨c, hc, hp⟩
      cases hclient.symm.trans hc
      cases hphase.symm.trans hp
    | staged snapshot txn =>
      refine .inr ⟨rfl, ?_⟩
      rintro index txn pending n ⟨c, hc, hp⟩
      cases hclient.symm.trans hc
      cases hphase.symm.trans hp
    | failed =>
      refine .inr ⟨rfl, ?_⟩
      rintro index txn pending n ⟨c, hc, hp⟩
      cases hclient.symm.trans hc
      cases hphase.symm.trans hp

theorem Inv.published (h : Inv schema st) {j : Nat} (hclient : st.clients[i]? = some client)
    (hphase : client.phase = .publishing index txn pending) (hn : pending[j]? = some n) :
    Inv schema (published schema st i j client index txn pending n) := by
  have hp : Publishes st i index txn pending := ⟨client, hclient, hphase⟩
  have hnmem := mem_of_getElem? hn
  have hnodup := h.nodup i index txn pending hp
  have hpub : ∀ {i' index' txn' pending'},
      Publishes (ChangeFeed.published schema st i j client index txn pending n) i' index' txn'
        pending' ↔
      (i' = i ∧ index' = index ∧ txn' = txn ∧ pending' = pending.eraseIdx j) ∨
        (i' ≠ i ∧ Publishes st i' index' txn' pending') := by
    intro i' index' txn' pending'
    rw [publishes_set hclient rfl]
    refine or_congr (and_congr_right fun _ => ?_) Iff.rfl
    rw [Phase.publishing.injEq]
    exact ⟨fun ⟨h₁, h₂, h₃⟩ => ⟨h₁.symm, h₂.symm, h₃.symm⟩,
      fun ⟨h₁, h₂, h₃⟩ => ⟨h₁.symm, h₂.symm, h₃.symm⟩⟩
  -- every publisher had at least these events to publish
  have hbefore : ∀ {i' index' txn' pending'},
      Publishes (ChangeFeed.published schema st i j client index txn pending n) i' index' txn'
        pending' →
      ∃ old, Publishes st i' index' txn' old ∧ pending'.Sublist old ∧
        (∀ m ∈ pending', m = n → i' ≠ i) := by
    intro i' index' txn' pending' hp'
    obtain ⟨rfl, rfl, rfl, rfl⟩ | ⟨hne, hp'⟩ := hpub.mp hp'
    · refine ⟨pending, hp, eraseIdx_sublist pending j, ?_⟩
      intro m hm heq
      exact absurd heq ((mem_eraseIdx_of_nodup hnodup hn).mp hm).2
    · exact ⟨pending', hp', List.Sublist.refl _, fun _ _ _ => hne⟩
  constructor
  · intro i' index' txn' pending' hp' m hm
    obtain ⟨old, hold, hsub, -⟩ := hbefore hp'
    exact h.owner i' index' txn' old hold m (hsub.mem hm)
  · intro i' index' txn' pending' hp'
    obtain ⟨old, hold, hsub, -⟩ := hbefore hp'
    exact (h.nodup i' index' txn' old hold).sublist hsub
  · intro i' index' txn' pending' hp' m hm e he
    obtain ⟨old, hold, hsub, hother⟩ := hbefore hp'
    obtain he | he := mem_append.mp he
    · exact h.unpublished i' index' txn' old hold m (hsub.mem hm) e he
    · -- the event just published is of another commit
      obtain ⟨rfl, rfl⟩ := Prod.mk.inj (mem_singleton.mp he)
      have hne := hother m hm rfl
      intro heq
      refine hne (h.apart i' i index txn' txn old pending ?_ hp (ne_nil_of_mem (hsub.mem hm))
        (ne_nil_of_mem hnmem))
      have hindex : index' = index := by
        change st.first + index + 1 = st.first + index' + 1 at heq
        omega
      exact hindex ▸ hold
  · intro i₁ i₂ index' txn₁ txn₂ pending₁ pending₂ hp₁ hp₂ hne₁ hne₂
    obtain ⟨old₁, hold₁, hsub₁, -⟩ := hbefore hp₁
    obtain ⟨old₂, hold₂, hsub₂, -⟩ := hbefore hp₂
    refine h.apart i₁ i₂ index' txn₁ txn₂ old₁ old₂ hold₁ hold₂ ?_ ?_
    · rintro rfl
      exact hne₁ (sublist_nil.mp hsub₁)
    · rintro rfl
      exact hne₂ (sublist_nil.mp hsub₂)
  · intro m e he
    obtain hold | ⟨i', index', txn', pending', hp', hm, hversion⟩ := h.covered m e he
    · exact .inl (mem_append_left _ hold)
    · by_cases hi : i' = i
      · subst hi
        obtain ⟨c, hc, hpublishing⟩ := hp'
        cases hclient.symm.trans hc
        cases hphase.symm.trans hpublishing
        by_cases hmn : m = n
        · subst hmn
          left
          obtain ⟨hcommit, -⟩ := h.owner i' index txn pending hp m hm
          obtain ⟨index', txn', hcommit', -, rfl⟩ := mem_changes.mp he
          have hindex : index' = index := by
            change st.first + index' + 1 = st.first + index + 1 at hversion
            omega
          subst hindex
          cases hcommit.symm.trans hcommit'
          exact mem_append_right _ (mem_singleton_self _)
        · refine .inr ⟨i', index, txn, pending.eraseIdx j, hpub.mpr (.inl ⟨rfl, rfl, rfl, rfl⟩),
            ?_, hversion⟩
          exact (mem_eraseIdx_of_nodup hnodup hn).mpr ⟨hm, hmn⟩
      · exact .inr ⟨i', index', txn', pending', hpub.mpr (.inr ⟨hi, hp'⟩), hm, hversion⟩
  · intro m e he
    obtain he | he := mem_append.mp he
    · exact h.bound m e he
    · obtain ⟨rfl, rfl⟩ := Prod.mk.inj (mem_singleton.mp he)
      have hlt := hp.index_lt h (ne_nil_of_mem hnmem)
      change st.first + index + 1 ≤ st.first + st.history.version
      omega
  · intro c hc snapshot txn' hstaged
    obtain hc | rfl := mem_or_eq_of_mem_set hc
    · exact h.staged c hc snapshot txn' hstaged
    · cases hstaged
  · intro sub hsub
    obtain ⟨old, hold, rfl⟩ := mem_map.mp hsub
    have hsink := h.sinks old hold
    change (deliver _ old).sink = (st.published ++ [_]).filter _
    unfold deliver
    rw [filter_append, filter_singleton]
    split_ifs with hmatch
    · rw [← hsink, hmatch]
      rfl
    · rw [← hsink, eq_false_of_ne_true hmatch]
      exact (append_nil _).symm

theorem Inv.publish (h : Inv schema st) (i j : Nat) :
    Inv schema (step schema payload st (.publish i j)) := by
  obtain ⟨client, index, txn, pending, n, hclient, hphase, hn, -, heq⟩ | ⟨heq, -⟩ :=
    publish_cases schema payload st i j
  · rw [heq]
    exact h.published hclient hphase hn
  · rw [heq]
    exact h

theorem Inv.step (h : Inv schema st) (a : Action) : Inv schema (step schema payload st a) := by
  cases a with
  | start request origin => exact h.start request origin
  | stage i => exact h.stage i
  | commit i => exact h.commit i
  | publish i j => exact h.publish i j

/-- Every object's published events are its first changes. -/
def Ordered (schema : Schema) (st : Feed F) : Prop :=
  ∀ n, about n st.published <+: st.changes schema n

theorem Started.ordered (h : Started st) : Ordered schema st := by
  intro n
  rw [h.published]
  exact nil_prefix

theorem Ordered.of_same (h : Ordered schema st) (hpub : st'.published = st.published)
    (hchanges : ∀ n, st.changes schema n <+: st'.changes schema n) : Ordered schema st' := by
  intro n
  rw [hpub]
  exact (h n).trans (hchanges n)

theorem Ordered.stage (h : Ordered schema st) (i : Nat) :
    Ordered schema (ChangeFeed.step schema payload st (.stage i)) := by
  unfold ChangeFeed.step
  dsimp only
  cases hclient : st.clients[i]? with
  | none => exact h
  | some client =>
    dsimp only
    cases hphase : client.phase with
    | begun snapshot =>
      unfold Feed.stageClient
      dsimp only
      cases hstage : Database.stage schema (st.history.stateAt applyTxn snapshot).view st.counters
        client.request.call with
      | mk result counters =>
        cases result with
        | error e => exact h.of_same rfl fun _ => prefix_rfl
        | ok writes => exact h.of_same rfl fun _ => prefix_rfl
    | _ => exact h

theorem Ordered.commit (h : Ordered schema st) (i : Nat) :
    Ordered schema (ChangeFeed.step schema payload st (.commit i)) := by
  unfold ChangeFeed.step
  dsimp only
  cases hclient : st.clients[i]? with
  | none => exact h
  | some client =>
    dsimp only
    cases hphase : client.phase with
    | staged snapshot txn =>
      dsimp only
      unfold Feed.commitClient
      split_ifs
      · exact h.of_same rfl fun _ => prefix_rfl
      · exact h.of_same rfl fun _ => prefix_rfl
      · refine h.of_same rfl fun n => ?_
        unfold Feed.setPhase
        rw [changes_commit st n txn]
        exact prefix_append _ _
    | _ => exact h

theorem prefix_snoc_iff (hordered : Ordered schema st) {e : ChangeEvent F}
    (hnew : e ∉ about n st.published) :
    about n st.published ++ [e] <+: st.changes schema n ↔
      e ∈ st.changes schema n ∧
        ∀ e' ∈ st.changes schema n, e'.version < e.version → (n, e') ∈ st.published := by
  constructor
  · rintro ⟨rest, hrest⟩
    have hsorted := increasing_changes schema st n
    rw [← hrest, append_assoc, pairwise_append] at hsorted
    obtain ⟨-, hlater, -⟩ := hsorted
    refine ⟨hrest ▸ mem_append_left _ (mem_append_right _ (mem_singleton_self e)),
      fun e' he' hlt => ?_⟩
    rw [← hrest, append_assoc] at he'
    obtain he' | he' := mem_append.mp he'
    · exact mem_about.mp he'
    · obtain rfl | he' := mem_cons.mp he'
      · exact absurd hlt (lt_irrefl _)
      · exact absurd ((pairwise_cons.mp hlater).1 e' he') (Nat.lt_asymm hlt)
  · rintro ⟨he, hearlier⟩
    obtain ⟨rest, hrest⟩ := hordered n
    have hsorted := increasing_changes schema st n
    rw [← hrest] at he hsorted
    obtain he | he := mem_append.mp he
    · exact absurd he hnew
    · cases rest with
      | nil => cases he
      | cons e₀ rest =>
        obtain rfl | he := mem_cons.mp he
        · exact ⟨rest, by rw [append_assoc, singleton_append, hrest]⟩
        · -- an event that is left out before it would be of a lower version
          have hlater := (pairwise_append.mp hsorted).2.1
          have hlt := (pairwise_cons.mp hlater).1 e he
          have hmem : e₀ ∈ st.changes schema n := by
            rw [← hrest]
            exact mem_append_right _ mem_cons_self
          have hpub := mem_about.mpr (hearlier e₀ hmem hlt)
          have hself := (pairwise_append.mp hsorted).2.2 e₀ hpub e₀ mem_cons_self
          exact absurd hself (lt_irrefl _)

theorem ordered_step_iff
    (payload : Request → Store → Id × Id → Option (List (String × Authz.Json F)))
    (h : Inv schema st) (hordered : Ordered schema st) (a : Action) :
    Ordered schema (ChangeFeed.step schema payload st a) ↔ Orderly schema st a := by
  cases a with
  | start request origin =>
    exact iff_of_true (hordered.of_same rfl fun _ => prefix_rfl) trivial
  | stage i => exact iff_of_true (hordered.stage i) trivial
  | commit i => exact iff_of_true (hordered.commit i) trivial
  | publish i j =>
    obtain ⟨client, index, txn, pending, n, hclient, hphase, hn, hallowed, heq⟩ | ⟨heq, hnone⟩ :=
      publish_cases schema payload st i j
    · rw [heq]
      have hp : Publishes st i index txn pending := ⟨client, hclient, hphase⟩
      have hnmem := mem_of_getElem? hn
      obtain ⟨hcommit, -⟩ := h.owner i index txn pending hp n hnmem
      have hnew : txn.event schema (st.first + index + 1) n ∉ about n st.published := fun hold =>
        h.unpublished i index txn pending hp n hnmem _ (mem_about.mp hold) rfl
      have hmem : txn.event schema (st.first + index + 1) n ∈ st.changes schema n ↔
          txn.Changes (st.history.stateAt applyTxn index) n := by
        rw [mem_changes]
        constructor
        · rintro ⟨index', txn', hcommit', hchanges, hsame⟩
          have hindex : index' = index := by
            have hversion := congrArg ChangeEvent.version hsame
            change st.first + index + 1 = st.first + index' + 1 at hversion
            omega
          subst hindex
          cases hcommit.symm.trans hcommit'
          exact hchanges
        · exact fun hchanges => ⟨index, txn, hcommit, hchanges, rfl⟩
      have hafter : Ordered schema (ChangeFeed.published schema st i j client index txn pending n) ↔
          about n st.published ++ [txn.event schema (st.first + index + 1) n] <+:
            st.changes schema n := by
        have habout : ∀ m, about m (ChangeFeed.published schema st i j client index txn pending
            n).published = about m st.published ++
              if n = m then [txn.event schema (st.first + index + 1) n] else [] := fun m => by
          rw [← about_singleton, ← about_append]
          rfl
        constructor
        · intro hall
          have hprefix := hall n
          rw [habout, if_pos rfl] at hprefix
          exact hprefix
        · intro hprefix m
          rw [habout]
          split_ifs with hnm
          · subst hnm
            exact hprefix
          · rw [append_nil]
            exact hordered m
      rw [hafter, prefix_snoc_iff hordered hnew, hmem]
      constructor
      · intro hnext index' txn' pending' n' hp' hn' _
        obtain ⟨c, hc, hpublishing⟩ := hp'
        cases hclient.symm.trans hc
        cases hphase.symm.trans hpublishing
        cases hn.symm.trans hn'
        exact hnext
      · exact fun hord => hord index txn pending n hp hn hallowed
    · rw [heq]
      refine iff_of_true hordered fun index txn pending n hp hn hallowed => ?_
      exact absurd hallowed (hnone index txn pending n hp hn)

theorem Ordered.complete (hordered : Ordered schema st) (h : Inv schema st) :
    Complete schema st := by
  have hreceived : ∀ sub ∈ st.hub.subscriptions, ∀ n,
      about n sub.sink = (about n st.published).filter fun e => sub.filter.matches e := by
    intro sub hsub n
    rw [h.sinks sub hsub]
    exact about_filter
  constructor
  · intro sub hsub n
    rw [hreceived sub hsub]
    exact (hordered n).filter _
  · intro hquiet sub hsub n
    rw [hreceived sub hsub]
    congr 1
    obtain ⟨rest, hrest⟩ := hordered n
    -- a change that is not published would be pending
    have hnone : rest = [] := by
      rw [eq_nil_iff_forall_not_mem]
      intro e he
      have hmem : e ∈ st.changes schema n := hrest ▸ mem_append_right _ he
      obtain hpub | ⟨i, index, txn, pending, ⟨client, hclient, hphase⟩, hn, -⟩ := h.covered n e hmem
      · have hsorted := increasing_changes schema st n
        rw [← hrest] at hsorted
        have hself := (pairwise_append.mp hsorted).2.2 e (mem_about.mpr hpub) e he
        exact lt_irrefl _ hself
      · have hover := hquiet client (mem_of_getElem? hclient)
        rw [hphase] at hover
        have hempty : pending = [] := List.isEmpty_iff.mp hover
        rw [hempty] at hn
        cases hn
    rw [hnone, append_nil] at hrest
    exact hrest
  · intro sub hsub n
    rw [hreceived sub hsub]
    exact ((increasing_changes schema _ n).sublist (hordered n).sublist).filter _

end

variable {payload : Request → Store → Id × Id → Option (List (String × Authz.Json F))}

theorem along_orderly_iff (h : Inv schema st) (hordered : Ordered schema st)
    {actions : List Action} :
    Along (step schema payload) (Orderly schema) st actions ↔
      ∀ pre, pre <+: actions → Ordered schema (exec (step schema payload) st pre) := by
  induction actions generalizing st with
  | nil =>
    refine iff_of_true trivial fun pre hpre => ?_
    rw [prefix_nil.mp hpre]
    exact hordered
  | cons a actions ih =>
    change Orderly schema st a ∧
      Along (step schema payload) (Orderly schema) (step schema payload st a) actions ↔ _
    rw [← ordered_step_iff payload h hordered a]
    constructor
    · rintro ⟨hstep, hrest⟩ pre hpre
      cases pre with
      | nil => exact hordered
      | cons a' pre =>
        obtain ⟨rfl, htail⟩ := cons_prefix_cons.mp hpre
        exact (ih (h.step a') hstep).mp hrest pre htail
    · intro hall
      have hstep : Ordered schema (step schema payload st a) :=
        hall [a] (cons_prefix_cons.mpr ⟨rfl, nil_prefix⟩)
      refine ⟨hstep, (ih (h.step a) hstep).mpr fun pre hpre => ?_⟩
      exact hall (a :: pre) (cons_prefix_cons.mpr ⟨rfl, hpre⟩)

theorem inv_exec (h : Inv schema st) (actions : List Action) :
    Inv schema (exec (step schema payload) st actions) :=
  exec_invariant (C := fun _ _ => True) (I := Inv schema) (fun _ a h _ => h.step a) h
    (along_of_forall fun _ _ => trivial)

theorem step_hub (schema : Schema)
    (payload : Request → Store → Id × Id → Option (List (String × Authz.Json F)))
    (st : Feed F) (a : Action) : (step schema payload st a).hub = st.hub ∨
    ∃ item, (step schema payload st a).hub = publishTo st.hub item := by
  cases a with
  | start request origin => exact .inl rfl
  | stage i =>
    left
    unfold step Feed.stageClient
    dsimp only
    split
    · rfl
    · split
      · split
        · rfl
        · rfl
      · rfl
  | commit i =>
    left
    unfold step Feed.commitClient
    dsimp only
    split
    · rfl
    · split
      · split_ifs
        · rfl
        · rfl
        · rfl
      · rfl
  | publish i j =>
    obtain ⟨client, index, txn, pending, n, -, -, -, -, heq⟩ | ⟨heq, -⟩ :=
      publish_cases schema payload st i j
    · rw [heq]
      exact .inr ⟨_, rfl⟩
    · rw [heq]
      exact .inl rfl

theorem listening_exec (schema : Schema)
    (payload : Request → Store → Id × Id → Option (List (String × Authz.Json F)))
    (h : ∃ sub ∈ st.hub.subscriptions, sub.filter = .all) (actions : List Action) :
    ∃ sub ∈ (exec (step schema payload) st actions).hub.subscriptions, sub.filter = .all := by
  refine exec_invariant (C := fun _ _ => True)
    (I := fun st : Feed F => ∃ sub ∈ st.hub.subscriptions, sub.filter = .all) ?_ h
    (along_of_forall fun _ _ => trivial)
  rintro st a ⟨sub, hsub, hfilter⟩ -
  obtain heq | ⟨item, heq⟩ := step_hub schema payload st a
  · rw [heq]
    exact ⟨sub, hsub, hfilter⟩
  · rw [heq]
    refine ⟨deliver item sub, mem_map_of_mem hsub, ?_⟩
    unfold deliver
    split_ifs
    · exact hfilter
    · exact hfilter

theorem all_matches (e : ChangeEvent F) : SubscriptionFilter.all.matches e = true := rfl

/-- In a run where no publish overtakes an earlier one of the same object, and no cascade comes to
an object that is gone, the feeds are complete and in order in every state; and in no other run, if
one of the subscribers asks for everything. -/
theorem feed_complete (h : Started st) (actions : List Action) :
    (Along (step schema payload) (Orderly schema) st actions →
      ∀ pre, pre <+: actions → Complete schema (exec (step schema payload) st pre)) ∧
    ((∃ sub ∈ st.hub.subscriptions, sub.filter = .all) →
      (∀ pre, pre <+: actions → Complete schema (exec (step schema payload) st pre)) →
      Along (step schema payload) (Orderly schema) st actions) := by
  constructor
  · intro horderly pre hpre
    have hordered := (along_orderly_iff h.inv h.ordered).mp horderly pre hpre
    exact hordered.complete (inv_exec h.inv pre)
  · rintro hall hcomplete
    refine (along_orderly_iff h.inv h.ordered).mpr fun pre hpre n => ?_
    obtain ⟨sub, hsub, hfilter⟩ := listening_exec schema payload hall pre
    have hinv : Inv schema (exec (step schema payload) st pre) := inv_exec h.inv pre
    have hreceived := (hcomplete pre hpre).received sub hsub n
    have hsink := hinv.sinks sub hsub
    rw [hfilter] at hreceived hsink
    simp only [all_matches, filter_true] at hreceived hsink
    rw [hsink] at hreceived
    exact hreceived

def opened (db : Database) : Feed Nat where
  first := 0
  history := { base := db.store, commits := [] }
  counters := db.counters
  clients := []
  published := []
  hub := Hub.new.subscribeSink .all []

theorem opened_started (db : Database) : Started (opened db) := by
  refine ⟨rfl, rfl, rfl, fun sub hsub => ?_⟩
  rw [mem_singleton.mp hsub]

def noFields (_ : Request) (_ : Store) (_ : Id × Id) : Option (List (String × Authz.Json Nat)) :=
  none

def messageSchema : Schema where
  types :=
    [{ name := "Message"
       typeId := 1
       fields :=
        [{ name := "text", fieldType := .scalar .string, directives := [], fieldId := 1
           relId := 0 }] }]

def sentAndEdited : List Action :=
  [.start (.create "Message" ∅) none, .stage 0, .commit 0,
    .start (.update "Message" 1 (AList.singleton "text" (.string [1]))) none, .stage 1]

def inTurn : List Action := sentAndEdited ++ [.publish 0 0, .commit 1, .publish 1 0]

def overtaken : List Action := sentAndEdited ++ [.commit 1, .publish 1 0, .publish 0 0]

theorem feed_complete_in_turn :
    Complete messageSchema (exec (step messageSchema noFields) (opened .new) inTurn) := by
  refine (feed_complete (opened_started .new) inTurn).1 ?_ inTurn prefix_rfl
  refine ⟨trivial, trivial, trivial, trivial, trivial, ?_, trivial, ?_, trivial⟩
  · rintro index txn pending n ⟨client, hclient, hphase⟩ hn -
    cases hclient
    cases hphase
    cases hn
    refine ⟨by decide +kernel, ?_⟩
    exact forall_mem_cons.mpr ⟨fun hlt => absurd hlt (lt_irrefl _), forall_mem_nil _⟩
  · rintro index txn pending n ⟨client, hclient, hphase⟩ hn -
    cases hclient
    cases hphase
    cases hn
    refine ⟨by decide +kernel, ?_⟩
    refine forall_mem_cons.mpr ⟨fun _ => mem_cons_self, ?_⟩
    exact forall_mem_cons.mpr ⟨fun hlt => absurd hlt (lt_irrefl _), forall_mem_nil _⟩

def sharedDocOwners : Database :=
  exec (Database.step ownersSchema) .new
    [.create "User" ∅, .create "User" ∅, .create "Doc" (AList.singleton "owners" (.u64 1)),
      .link "Doc" 3 "owners" 2 none]

def bothOwnersDeleted : List Action :=
  [.start (.delete "User" 1) none, .stage 0, .commit 0, .publish 0 0, .publish 0 0,
    .start (.delete "User" 2) none, .stage 1, .commit 1, .publish 1 0, .publish 1 0]

/-- The subscriber gets the edit before the message, and two deletions of the one document. -/
theorem feed_out_of_order :
    ¬ Complete messageSchema (exec (step messageSchema noFields) (opened .new) overtaken) ∧
    ¬ Complete ownersSchema
      (exec (step ownersSchema noFields) (opened sharedDocOwners) bothOwnersDeleted) := by
  constructor
  · intro h
    have hincreasing := h.increasing _ mem_cons_self (1, 1)
    have hversions : ¬ ((about (1, 1) (exec (step messageSchema noFields) (opened .new)
        overtaken).published).map ChangeEvent.version).Pairwise (· < ·) := by decide +kernel
    exact hversions (pairwise_map.mpr hincreasing)
  · intro h
    have hreceived := h.received _ mem_cons_self (2, 3)
    have hlonger : ¬ (about (2, 3) (exec (step ownersSchema noFields) (opened sharedDocOwners)
        bothOwnersDeleted).published).length ≤ ((exec (step ownersSchema noFields)
          (opened sharedDocOwners) bothOwnersDeleted).changes ownersSchema (2, 3)).length := by
      decide +kernel
    exact hlonger (hreceived.length_le.trans (length_filter_le _ _))

end RhypeDb.Server.ChangeFeed
