import RhypeDb.Server.Feed

/-! What the hub does to the feeds of a connection: subscriptions that come and go, and publishers
that offer an event to one sink after the other. -/

namespace RhypeDb.Server

open AList Function List

variable {F Q : Type}

variable {c c' : Conn F Q} {held : List (ServerPush F)} {due : List UInt32} {handle : UInt32}

theorem Fed.narrow (h : Fed c held due) (hidle : c.publishers = []) {hub : Hub Sink}
    {subs : AList fun _ : UInt32 => Nat} (hmem : ∀ s ∈ hub.subscriptions, s ∈ c.hub.subscriptions)
    (hnext : hub.nextId = c.hub.nextId)
    (hknown : ∀ handle sub, subs.lookup handle = some sub ↔
      ∃ s ∈ hub.subscriptions, s.id = sub ∧ s.sink = .conn handle)
    (hsubs : ∀ handle sub, subs.lookup handle = some sub → c.subs.lookup handle = some sub) :
    Fed { c with hub, subs } held due := by
  refine ⟨⟨h.recorded.started, ?_, ?_, h.recorded.published_lt, h.recorded.offered_lt,
    h.recorded.matched, h.recorded.after, h.recorded.framed⟩, hknown, ?_, h.serials, h.sent, h.order,
    h.once, ?_, ?_⟩
  · exact fun s hs handle hsink => h.recorded.opened s (hmem s hs) handle hsink
  · intro sub hsub
    change hub.nextId ≤ sub at hsub
    rw [hnext] at hsub
    exact h.recorded.unopened sub hsub
  · intro p hp
    change p ∈ c.publishers at hp
    rw [hidle] at hp
    cases hp
  · intro handle sub hlookup serial event hpublished
    have hdone := h.accounted handle sub (hsubs handle sub hlookup) serial event hpublished
    exact hdone.imp_right fun hunder => hunder.mono (fun _ hp => hp) (fun _ hmem => hmem) rfl
  · exact fun handle sub hlookup => h.woken handle sub (hsubs handle sub hlookup)

theorem Fed.subscribeOther (h : Fed c held due) (filter : SubscriptionFilter) :
    Fed { c with hub := c.hub.subscribeSink filter .other } held due := by
  refine ⟨⟨h.recorded.started, ?_, ?_, h.recorded.published_lt, h.recorded.offered_lt,
    h.recorded.matched, h.recorded.after, h.recorded.framed⟩, ?_, ?_, h.serials, h.sent, h.order,
    h.once, ?_, h.woken⟩
  · intro s hs handle hsink
    rcases Hub.mem_subscribeSink.mp hs with hs | rfl
    · exact h.recorded.opened s hs handle hsink
    · cases hsink
  · intro sub hsub
    change c.hub.nextId + 1 ≤ sub at hsub
    exact h.recorded.unopened sub (by omega)
  · intro handle sub
    rw [h.known]
    constructor
    · rintro ⟨s, hs, hid, hsink⟩
      exact ⟨s, Hub.mem_subscribeSink.mpr (.inl hs), hid, hsink⟩
    · rintro ⟨s, hs, hid, hsink⟩
      rcases Hub.mem_subscribeSink.mp hs with hs | rfl
      · exact ⟨s, hs, hid, hsink⟩
      · cases hsink
  · intro p hp
    have hreaching := h.reaching p hp
    exact ⟨hreaching.serial_lt, hreaching.nodup,
      fun s hs => Hub.mem_subscribeSink.mpr (.inl (hreaching.mem_hub s hs)),
      hreaching.published, hreaching.unoffered⟩
  · intro handle sub hlookup serial event hpublished
    have hdone := h.accounted handle sub hlookup serial event hpublished
    exact hdone.imp_right fun hunder => hunder.mono (fun _ hp => hp) (fun _ hmem => hmem) rfl

theorem Fed.nextId_history (h : Fed c held due) : c.history c.hub.nextId = [] :=
  h.recorded.unopened _ le_rfl

theorem Fed.register (h : Fed c held due) (hidle : c.publishers = [])
    (hfree : c.subs.lookup handle = none) (filter : SubscriptionFilter) :
    Fed (c.register handle filter) held due := by
  set c₁ := c.register handle filter with hc₁
  have hhistory : ∀ s, c₁.history s =
      c.history s ++ if s = c.hub.nextId then [.subscribed handle filter] else [] :=
    note_history { c with
      hub := c.hub.subscribeSink filter (.conn handle)
      networkSubs := c.networkSubs + 1
      lagged := Function.update c.lagged c.hub.nextId false
      subs := c.subs.insert handle c.hub.nextId
      subscriptionMode := true } c.hub.nextId _
  have hnew : c₁.history c.hub.nextId = [.subscribed handle filter] := by
    rw [hhistory, h.nextId_history, if_pos rfl]
    rfl
  have hold : ∀ s, s ≠ c.hub.nextId → c₁.history s = c.history s := by
    intro s hs
    rw [hhistory, if_neg hs, append_nil]
  have hlt : ∀ handle sub, c.subs.lookup handle = some sub → sub ≠ c.hub.nextId :=
    fun handle sub hlookup => (h.sub_lt hlookup).ne
  have hsubs : ∀ handle' sub, c₁.subs.lookup handle' = some sub →
      (handle' = handle ∧ sub = c.hub.nextId) ∨ c.subs.lookup handle' = some sub := by
    intro handle' sub hlookup
    change (c.subs.insert handle c.hub.nextId).lookup handle' = some sub at hlookup
    by_cases hhandle : handle' = handle
    · subst hhandle
      rw [lookup_insert] at hlookup
      exact .inl ⟨rfl, (Option.some.inj hlookup).symm⟩
    · rw [lookup_insert_ne hhandle] at hlookup
      exact .inr hlookup
  have hentry : ∀ s, ∀ entry ∈ c₁.history s, entry ∈ c.history s ∨
      entry = .subscribed handle filter := by
    intro s entry hmem
    by_cases hs : s = c.hub.nextId
    · subst hs
      rw [hnew, mem_singleton] at hmem
      exact .inr hmem
    · rw [hold s hs] at hmem
      exact .inl hmem
  constructor
  · constructor
    · intro s
      by_cases hs : s = c.hub.nextId
      · right
        rw [hs, hnew]
        exact ⟨handle, filter, [], rfl⟩
      · rw [hold s hs]
        exact h.recorded.started s
    · intro s hs handle' hsink
      rcases Hub.mem_subscribeSink.mp hs with hs | rfl
      · rw [hold s.id (c.hub.fresh s hs).ne]
        exact h.recorded.opened s hs handle' hsink
      · cases hsink
        exact ⟨[], hnew⟩
    · intro s hs
      change c.hub.nextId + 1 ≤ s at hs
      rw [hold s (by omega)]
      exact h.recorded.unopened s (by omega)
    · intro s serial event hmem
      exact h.recorded.published_lt s serial event ((hentry s _ hmem).resolve_right nofun)
    · intro s serial hmem
      exact h.recorded.offered_lt s serial ((hentry s _ hmem).resolve_right nofun)
    · intro s handle' filter' rest heq serial event hmem
      have hmem' := (hentry s _ hmem).resolve_right nofun
      by_cases hs : s = c.hub.nextId
      · rw [hs, h.nextId_history] at hmem'
        cases hmem'
      · rw [hold s hs] at heq
        exact h.recorded.matched s handle' filter' rest heq serial event hmem'
    · intro s
      rw [hhistory]
      refine (h.recorded.after s).append fun serial event hmem => ?_
      split_ifs at hmem
      · cases mem_singleton.mp hmem
      · cases hmem
    · intro handle' event hmem
      have hmem' := (mem_written_write hmem).resolve_right fun h => nomatch h.2
      obtain ⟨sub, filter', rest, serial, hhead, hevent⟩ := h.recorded.framed handle' event hmem'
      have hne : sub ≠ c.hub.nextId := by
        rintro rfl
        rw [h.nextId_history] at hhead
        cases hhead
      refine ⟨sub, filter', rest, serial, ?_, ?_⟩
      · rw [hold sub hne]
        exact hhead
      · rw [hold sub hne]
        exact hevent
  · intro handle' sub
    constructor
    · intro hlookup
      rcases hsubs handle' sub hlookup with ⟨rfl, rfl⟩ | hlookup
      · exact ⟨_, Hub.mem_subscribeSink.mpr (.inr rfl), rfl, rfl⟩
      · obtain ⟨s, hs, hid, hsink⟩ := (h.known handle' sub).mp hlookup
        exact ⟨s, Hub.mem_subscribeSink.mpr (.inl hs), hid, hsink⟩
    · rintro ⟨s, hs, hid, hsink⟩
      change (c.subs.insert handle c.hub.nextId).lookup handle' = some sub
      rcases Hub.mem_subscribeSink.mp hs with hs | rfl
      · have hlookup := (h.known handle' sub).mpr ⟨s, hs, hid, hsink⟩
        have hne : handle' ≠ handle := by
          rintro rfl
          rw [hfree] at hlookup
          cases hlookup
        rw [lookup_insert_ne hne]
        exact hlookup
      · cases hsink
        rw [lookup_insert, ← hid]
  · intro p hp
    change p ∈ c.publishers at hp
    rw [hidle] at hp
    cases hp
  · exact h.serials
  · intro push hpush
    obtain ⟨hpublished, filter', rest, hhead⟩ := h.sent push hpush
    have hne : push.sub ≠ c.hub.nextId := by
      intro heq
      rw [heq, h.nextId_history] at hhead
      cases hhead
    rw [hold push.sub hne]
    exact ⟨hpublished, filter', rest, hhead⟩
  · intro s
    rw [hhistory, offers_append, frames_append]
    have horder := h.order s
    split_ifs
    · change (frames (c.history s) ++ [] ++ _).Sublist (offers (c.history s) ++ [])
      rw [append_nil, append_nil]
      exact horder
    · change (frames (c.history s) ++ [] ++ _).Sublist (offers (c.history s) ++ [])
      rw [append_nil, append_nil]
      exact horder
  · intro s
    rw [hhistory, offers_append]
    split_ifs
    · exact (append_nil (offers (c.history s))).symm ▸ h.once s
    · exact (append_nil (offers (c.history s))).symm ▸ h.once s
  · intro handle' sub hlookup serial event hpublished
    have hpublished' := (hentry sub _ hpublished).resolve_right nofun
    rcases hsubs handle' sub hlookup with ⟨-, rfl⟩ | hlookup'
    · rw [h.nextId_history] at hpublished'
      cases hpublished'
    · have hne := hlt handle' sub hlookup'
      rw [hold sub hne]
      refine (h.accounted handle' sub hlookup' serial event hpublished').imp_right fun hunder => ?_
      cases hunder with
      | publisher p hmem hserial hevent hreaches => exact .publisher p hmem hserial hevent hreaches
      | pending push hmem hsub hserial hevent => exact .pending push hmem hsub hserial hevent
      | flagging hdropped p hmem hstage =>
        exact .flagging (by rw [hold sub hne]; exact hdropped) p hmem hstage
      | lagged hdropped hflagged =>
        refine .lagged (by rw [hold sub hne]; exact hdropped) ?_
        change Function.update c.lagged c.hub.nextId false sub = true
        rw [update_of_ne hne]
        exact hflagged
  · intro handle' sub hlookup hflagged
    change Function.update c.lagged c.hub.nextId false sub = true at hflagged
    rcases hsubs handle' sub hlookup with ⟨-, rfl⟩ | hlookup'
    · rw [update_self] at hflagged
      cases hflagged
    · rw [update_of_ne (hlt handle' sub hlookup')] at hflagged
      exact h.woken handle' sub hlookup' hflagged

theorem Fed.unsubscribeOther (h : Fed c held due) (hidle : c.publishers = []) (id : Nat) :
    Fed { c with hub := c.hub.retain fun s => s.id ≠ id ∨ s.sink ≠ .other } held due := by
  refine h.narrow hidle ?_ ?_ ?_ ?_
  · exact fun s hs => mem_of_mem_filter hs
  · rfl
  · intro handle sub
    rw [h.known]
    constructor
    · rintro ⟨s, hs, hid, hsink⟩
      refine ⟨s, mem_filter.mpr ⟨hs, decide_eq_true (.inr ?_)⟩, hid, hsink⟩
      rw [hsink]
      exact nofun
    · rintro ⟨s, hs, hid, hsink⟩
      exact ⟨s, mem_of_mem_filter hs, hid, hsink⟩
  · exact fun _ _ hlookup => hlookup

theorem Fed.remove (h : Fed c held due) (hidle : c.publishers = []) {sub : Nat}
    (hlookup : c.subs.lookup handle = some sub) : Fed (c.remove handle sub) held due := by
  have hnarrow : Fed { c with hub := c.hub.unsubscribe sub, subs := c.subs.erase handle } held
      due := by
    refine h.narrow hidle (fun s hs => (Hub.mem_unsubscribe.mp hs).1) ?_ ?_ ?_
    · rfl
    · intro handle' sub'
      constructor
      · intro hlookup'
        have hne : handle' ≠ handle := by
          rintro rfl
          rw [lookup_erase] at hlookup'
          cases hlookup'
        rw [lookup_erase_ne hne] at hlookup'
        obtain ⟨s, hs, hid, hsink⟩ := (h.known handle' sub').mp hlookup'
        refine ⟨s, Hub.mem_unsubscribe.mpr ⟨hs, ?_⟩, hid, hsink⟩
        intro heq
        obtain ⟨t, ht, hid', hsink'⟩ := (h.known handle sub).mp hlookup
        have hst := Hub.eq_of_id hs ht (heq.trans hid'.symm)
        rw [hst, hsink'] at hsink
        cases hsink
        exact hne rfl
      · rintro ⟨s, hs, hid, hsink⟩
        obtain ⟨hs, hne⟩ := Hub.mem_unsubscribe.mp hs
        have hlookup' := (h.known handle' sub').mpr ⟨s, hs, hid, hsink⟩
        have hhandle : handle' ≠ handle := by
          rintro rfl
          rw [hlookup'] at hlookup
          cases hlookup
          exact hne hid
        rw [lookup_erase_ne hhandle]
        exact hlookup'
    · intro handle' sub' hlookup'
      have hne : handle' ≠ handle := by
        rintro rfl
        rw [lookup_erase] at hlookup'
        cases hlookup'
      rwa [lookup_erase_ne hne] at hlookup'
  exact hnarrow.of_same rfl rfl (fun _ hdue => hdue) fun _ _ hmem => hmem

theorem Fed.drop (h : Fed c held due) (hidle : c.publishers = []) : Fed c.drop held due := by
  have hnarrow : Fed { c with hub := c.hub.retain fun s => s.sink = .other, subs := ∅ } held
      due := by
    refine h.narrow hidle ?_ ?_ ?_ ?_
    · exact fun s hs => mem_of_mem_filter hs
    · rfl
    · intro handle sub
      refine ⟨nofun, ?_⟩
      rintro ⟨s, hs, -, hsink⟩
      have hother := of_decide_eq_true (mem_filter.mp hs).2
      rw [hother] at hsink
      cases hsink
    · intro handle sub hlookup
      cases hlookup
  exact hnarrow.of_same rfl rfl (fun _ hdue => hdue) fun _ _ hmem => hmem

theorem Fed.noticeAll (h : Fed c held due) : Fed c.noticeAll held due := by
  unfold Conn.noticeAll
  have hne : ∀ e ∈ c.subs.entries, c.history e.2 ≠ [] :=
    fun e he => h.history_ne (mem_lookup_iff.mpr he)
  generalize c.subs.entries = entries at hne
  induction entries generalizing c with
  | nil => exact h
  | cons e entries ih =>
    rw [forall_mem_cons] at hne
    refine ih (h.notice e.1 hne.1) fun e' he' => ?_
    change (Conn.note _ _ _).history e'.2 ≠ []
    rw [note_history]
    exact fun hempty => hne.2 e' he' (append_eq_nil_iff.mp hempty).1

theorem published_eq (c : Conn F Q) (event : ChangeEvent F) (sub : Nat) :
    (c.publish event).history sub = c.history sub ++
      if (c.hub.matching event).any (fun s => s.id = sub ∧ s.sink ≠ .other) then
        [.published c.nextSerial event] else [] := by
  change c.published event sub = _
  unfold Conn.published
  split_ifs
  · rfl
  · exact (append_nil _).symm

theorem Fed.publish (h : Fed c held due) (event : ChangeEvent F) :
    Fed (c.publish event) held due := by
  have hhistory := published_eq c event
  have hmono : ∀ s, ∀ entry ∈ c.history s, entry ∈ (c.publish event).history s := by
    intro s entry hmem
    rw [hhistory]
    exact mem_append_left _ hmem
  have hnew : ∀ s, ∀ entry ∈ (c.publish event).history s, entry ∈ c.history s ∨
      (entry = .published c.nextSerial event ∧
        ∃ t ∈ c.hub.matching event, t.id = s ∧ t.sink ≠ .other) := by
    intro s entry hmem
    rw [hhistory] at hmem
    rcases mem_append.mp hmem with hmem | hmem
    · exact .inl hmem
    · split_ifs at hmem with hany
      · rw [any_eq_true] at hany
        obtain ⟨t, ht, hboth⟩ := hany
        rw [decide_eq_true_iff] at hboth
        exact .inr ⟨mem_singleton.mp hmem, t, ht, hboth⟩
      · cases hmem
  have hfirst : ∀ s, offers ((c.publish event).history s) = offers (c.history s) ∧
      frames ((c.publish event).history s) = frames (c.history s) := by
    intro s
    rw [hhistory, offers_append, frames_append]
    split_ifs
    · exact ⟨append_nil _, append_nil _⟩
    · exact ⟨append_nil _, append_nil _⟩
  have hpublishers : ∀ p ∈ c.publishers, p ∈ (c.publish event).publishers :=
    fun p hp => mem_append_left _ hp
  constructor
  · have hhub : (c.publish event).hub = c.hub := rfl
    refine h.recorded.grow _ hhub (Nat.le_succ _) hhistory ?_ ?_ fun _ _ hmem => .inl hmem
    · intro s hs
      rw [if_neg]
      intro hany
      rw [any_eq_true] at hany
      obtain ⟨t, ht, hboth⟩ := hany
      rw [decide_eq_true_iff] at hboth
      obtain ⟨rfl, hsink⟩ := hboth
      cases hconn : t.sink with
      | other => exact hsink hconn
      | conn handle =>
        obtain ⟨rest, hopened⟩ := h.recorded.opened t (Hub.mem_matching.mp ht).1 handle hconn
        rw [hs] at hopened
        cases hopened
    · intro s entry hmem
      split_ifs at hmem with hany
      · rw [mem_singleton] at hmem
        rw [hmem]
        refine ⟨Nat.lt_succ_self _, fun handle filter rest hhead => ?_⟩
        rw [any_eq_true] at hany
        obtain ⟨t, ht, hboth⟩ := hany
        rw [decide_eq_true_iff] at hboth
        obtain ⟨rfl, hsink⟩ := hboth
        obtain ⟨hmem_hub, hmatches⟩ := Hub.mem_matching.mp ht
        cases hconn : t.sink with
        | other => exact absurd hconn hsink
        | conn handle' =>
          obtain ⟨rest', hopened⟩ := h.recorded.opened t hmem_hub handle' hconn
          rw [hopened] at hhead
          cases hhead
          exact hmatches
      · cases hmem
  · exact h.known
  · intro p hp
    rcases mem_append.mp hp with hp | hp
    · have hreaching := h.reaching p hp
      refine ⟨Nat.lt_succ_of_lt hreaching.serial_lt, hreaching.nodup, hreaching.mem_hub, ?_, ?_⟩
      · exact fun s hs hsink => hmono _ _ (hreaching.published s hs hsink)
      · intro s hs hmem
        rcases hnew _ _ hmem with hmem | ⟨heq, -⟩
        · exact hreaching.unoffered s hs hmem
        · cases heq
    · rw [mem_singleton] at hp
      subst hp
      refine ⟨Nat.lt_succ_self _, Hub.matching_nodup .., ?_, ?_, ?_⟩
      · exact fun s hs => (Hub.mem_matching.mp hs).1
      · intro s hs hsink
        rw [hhistory, if_pos]
        · exact mem_append_right _ mem_cons_self
        · exact any_eq_true.mpr ⟨s, hs, decide_eq_true ⟨rfl, hsink⟩⟩
      · intro s hs hmem
        rcases hnew _ _ hmem with hmem | ⟨heq, -⟩
        · exact absurd (h.recorded.offered_lt _ _ hmem) (lt_irrefl _)
        · cases heq
  · change ((c.publishers ++ [_]).map Publisher.serial).Nodup
    rw [map_append, nodup_append]
    refine ⟨h.serials, nodup_singleton _, fun serial hserial serial' hserial' heq => ?_⟩
    obtain ⟨p, hp, rfl⟩ := mem_map.mp hserial
    have hlt := (h.reaching p hp).serial_lt
    rw [heq, mem_singleton.mp hserial'] at hlt
    exact absurd hlt (lt_irrefl _)
  · intro push hpush
    obtain ⟨hpublished, filter, rest, hhead⟩ := h.sent push hpush
    refine ⟨hmono _ _ hpublished, filter, ?_⟩
    rw [hhistory, hhead]
    exact ⟨_, rfl⟩
  · intro s
    rw [(hfirst s).1, (hfirst s).2]
    exact h.order s
  · intro s
    rw [(hfirst s).1]
    exact h.once s
  · intro handle s hlookup serial event' hpublished
    rcases hnew _ _ hpublished with hpublished | ⟨heq, t, ht, hid, -⟩
    · rcases h.accounted handle s hlookup serial event' hpublished with hdone | hunder
      · left
        rw [hhistory]
        exact hdone.append _
      · exact .inr (hunder.mono hpublishers (hmono s) rfl)
    · cases heq
      exact .inr (.publisher _ (mem_append_right _ mem_cons_self) rfl rfl
        (mem_map.mpr ⟨t, ht, hid⟩))
  · intro handle s hlookup hflagged
    exact (h.woken handle s hlookup hflagged).imp_right fun hrest => hrest.imp_right
      fun ⟨p, hp, hstage⟩ => ⟨p, hpublishers p hp, hstage⟩

section

variable {pre post : List (Publisher F)} {p : Publisher F} {sub : Nat} {reqId : UInt32}
  {q : Publisher F}

theorem Fed.serial_ne (h : Fed c held due) (hp : c.publishers = pre ++ p :: post)
    (hq : q ∈ pre ++ post) : q.serial ≠ p.serial := by
  have hserials := h.serials
  rw [hp, map_append, map_cons, nodup_middle] at hserials
  have hnot := (nodup_cons.mp hserials).1
  intro heq
  apply hnot
  rw [← heq, ← map_append]
  exact mem_map_of_mem hq

theorem mem_publishers (hp : c.publishers = pre ++ p :: post) :
    q ∈ c.publishers ↔ q = p ∨ q ∈ pre ++ post := by
  rw [hp]
  simp only [mem_append, mem_cons]
  tauto

theorem Fed.replace (h : Fed c held due) (hp : c.publishers = pre ++ p :: post)
    (q : Option (Publisher F)) (hpublishers : c'.publishers = pre ++ q.toList ++ post)
    (hhub : c'.hub = c.hub) (hsubs : c'.subs = c.subs) (hnext : c'.nextSerial = c.nextSerial)
    (hhistory : c'.history = c.history) (hbuffer : c'.buffer = c.buffer)
    (hwritten : c'.written = c.written)
    (hq : ∀ p' ∈ q, p'.serial = p.serial ∧ p'.event = p.event ∧ p'.rest.Sublist p.rest)
    (hunder : ∀ handle sub serial event, c.subs.lookup handle = some sub →
      Underway c (held ++ c.buffer) sub serial event →
      Underway c' (held ++ c.buffer) sub serial event)
    (hwoken : ∀ handle sub, c.subs.lookup handle = some sub → c'.lagged sub = true →
      c'.permit = true ∨ handle ∈ due ∨ ∃ p ∈ c'.publishers, p.stage = .notifying sub) :
    Fed c' held due := by
  have hmem : ∀ p' ∈ c'.publishers, p' ∈ q ∨ p' ∈ pre ++ post := by
    intro p' hp'
    rw [hpublishers] at hp'
    simp only [mem_append, Option.mem_toList] at hp' ⊢
    tauto
  constructor
  · refine h.recorded.of_same hhub hnext hhistory fun handle event hmem => ?_
    rw [← hwritten]
    exact hmem
  · rw [hsubs, hhub]
    exact h.known
  · intro p' hp'
    rcases hmem p' hp' with hp' | hp'
    · obtain ⟨hserial, hevent, hrest⟩ := hq p' hp'
      have hreaching := h.reaching p ((mem_publishers hp).mpr (.inl rfl))
      constructor
      · rw [hserial, hnext]
        exact hreaching.serial_lt
      · exact hreaching.nodup.sublist (hrest.map _)
      · rw [hhub]
        exact fun s hs => hreaching.mem_hub s (hrest.subset hs)
      · rw [hserial, hevent, hhistory]
        exact fun s hs => hreaching.published s (hrest.subset hs)
      · rw [hserial, hhistory]
        exact fun s hs => hreaching.unoffered s (hrest.subset hs)
    · exact (h.reaching p' ((mem_publishers hp).mpr (.inr hp'))).of_same hhub hnext hhistory
  · have hserials := h.serials
    rw [hp, map_append, map_cons, nodup_middle] at hserials
    rw [hpublishers]
    cases q with
    | none =>
      rw [Option.toList_none, append_nil, map_append]
      exact (nodup_cons.mp hserials).2
    | some p' =>
      rw [Option.toList_some, append_assoc, map_append, singleton_append,
        map_cons, nodup_middle, (hq p' rfl).1]
      exact hserials
  · rw [hbuffer, hhistory]
    exact h.sent
  · rw [hbuffer, hhistory]
    exact h.order
  · rw [hhistory]
    exact h.once
  · intro handle sub hlookup serial event hpublished
    rw [hsubs] at hlookup
    rw [hhistory] at hpublished
    rw [hhistory, hbuffer]
    exact (h.accounted handle sub hlookup serial event hpublished).imp_right
      (hunder handle sub serial event hlookup)
  · intro handle sub hlookup
    rw [hsubs] at hlookup
    exact hwoken handle sub hlookup

theorem Fed.offer (h : Fed c held due) (hp : c.publishers = pre ++ p :: post)
    (hstage : p.stage = .sending) {t : Subscription Sink} {rest : List (Subscription Sink)}
    (hrest : p.rest = t :: rest) (hsink : t.sink = .conn reqId)
    (entries : List (Entry F)) (hclosing : ∀ entry ∈ entries, entry.Closing)
    (extra : List (ServerPush F)) (hextra : ∀ push ∈ extra, push = ⟨reqId, p.event, t.id, p.serial⟩)
    (hlength : extra.length ≤ 1) (p' : Publisher F) (hserial : p'.serial = p.serial)
    (hevent : p'.event = p.event) (hrest' : p'.rest = rest)
    (hnew : Underway
      { c.note t.id (.offered p.serial :: entries) with
        buffer := c.buffer ++ extra
        publishers := pre ++ p' :: post } (held ++ (c.buffer ++ extra)) t.id p.serial p.event) :
    Fed { c.note t.id (.offered p.serial :: entries) with
      buffer := c.buffer ++ extra
      publishers := pre ++ p' :: post } held due := by
  have hmem_p : p ∈ c.publishers := (mem_publishers hp).mpr (.inl rfl)
  have hreaching := h.reaching p hmem_p
  have ht : t ∈ p.rest := by
    rw [hrest]
    exact mem_cons_self
  have hhub_t := hreaching.mem_hub t ht
  have hpublished_t := hreaching.published t ht (by rw [hsink]; exact nofun)
  have hnodup := hreaching.nodup
  rw [hrest, map_cons, nodup_cons] at hnodup
  have hoffers : ∀ s, offers ((c.note t.id (.offered p.serial :: entries)).history s) =
      offers (c.history s) ++ if s = t.id then [p.serial] else [] := by
    intro s
    rw [note_history, offers_append]
    split_ifs
    · change _ ++ (p.serial :: offers entries) = _
      rw [offers_closing hclosing]
    · rfl
  have hframes : ∀ s, frames ((c.note t.id (.offered p.serial :: entries)).history s) =
      frames (c.history s) := by
    intro s
    rw [note_history, frames_append]
    split_ifs
    · change _ ++ frames entries = _
      rw [frames_closing hclosing, append_nil]
    · exact append_nil _
  have hpublished_iff : ∀ s serial event,
      .published serial event ∈ (c.note t.id (.offered p.serial :: entries)).history s ↔
        .published serial event ∈ c.history s := by
    intro s serial event
    apply mem_note_iff
    rw [mem_cons]
    rintro (heq | hmem)
    · cases heq
    · exact hclosing _ hmem
  have hpublishers : ∀ q ∈ c.publishers, q = p ∨ q ∈ pre ++ p' :: post := by
    intro q hq
    rcases (mem_publishers hp).mp hq with heq | hq
    · exact .inl heq
    · right
      simp only [mem_append, mem_cons] at hq ⊢
      tauto
  constructor
  · have hnote : Recorded (c.note t.id (.offered p.serial :: entries)) := by
      have hhub : (c.note t.id (.offered p.serial :: entries)).hub = c.hub := rfl
      refine h.recorded.grow _ hhub le_rfl (note_history c t.id _) ?_ ?_ fun _ _ hmem => .inl hmem
      · intro s hs
        refine if_neg ?_
        rintro rfl
        rw [hs] at hpublished_t
        cases hpublished_t
      · intro s entry hentry
        split_ifs at hentry
        · rcases mem_cons.mp hentry with rfl | hentry
          · exact hreaching.serial_lt
          · have hclose := hclosing entry hentry
            cases entry with
            | dropped => trivial
            | refused => trivial
            | subLagged => trivial
            | _ => exact hclose.elim
        · cases hentry
    exact hnote.of_same rfl rfl rfl fun _ _ hmem => hmem
  · exact h.known
  · intro q hq
    have hcases : q = p' ∨ q ∈ pre ++ post := by
      change q ∈ pre ++ p' :: post at hq
      simp only [mem_append, mem_cons] at hq ⊢
      tauto
    rcases hcases with rfl | hq
    · constructor
      · rw [hserial]
        exact hreaching.serial_lt
      · rw [hrest']
        exact hnodup.2
      · rw [hrest']
        exact fun s hs => hreaching.mem_hub s (hrest ▸ mem_cons_of_mem _ hs)
      · rw [hrest', hserial, hevent]
        exact fun s hs hother =>
          mem_note (hreaching.published s (hrest ▸ mem_cons_of_mem _ hs) hother)
      · rw [hrest', hserial]
        intro s hs hmem
        have hne : s.id ≠ t.id := by
          intro heq
          exact hnodup.1 (heq ▸ mem_map_of_mem hs)
        change .offered p.serial ∈ (c.note t.id _).history s.id at hmem
        rw [note_history, if_neg hne, append_nil] at hmem
        exact hreaching.unoffered s (hrest ▸ mem_cons_of_mem _ hs) hmem
    · have hnot : .offered q.serial ∉ .offered p.serial :: entries := by
        rw [mem_cons]
        rintro (heq | hmem)
        · exact h.serial_ne hp hq (Entry.offered.inj heq)
        · exact hclosing _ hmem
      have hnote := (h.reaching q ((mem_publishers hp).mpr (.inr hq))).note t.id hnot
      exact hnote.of_same rfl rfl rfl
  · have hserials := h.serials
    rw [hp, map_append, map_cons] at hserials
    change ((pre ++ p' :: post).map Publisher.serial).Nodup
    rw [map_append, map_cons, hserial]
    exact hserials
  · intro push hpush
    change push ∈ held ++ (c.buffer ++ extra) at hpush
    rw [← append_assoc] at hpush
    rcases mem_append.mp hpush with hpush | hpush
    · obtain ⟨hpublished, filter, rest', hhead⟩ := h.sent push hpush
      refine ⟨mem_note hpublished, filter, ?_⟩
      change ∃ rest', (c.note t.id _).history push.sub = _ :: rest'
      rw [note_history, hhead]
      exact ⟨_, rfl⟩
    · rw [hextra push hpush]
      obtain ⟨rest', hopened⟩ := h.recorded.opened t hhub_t reqId hsink
      refine ⟨mem_note hpublished_t, t.filter, ?_⟩
      change ∃ rest', (c.note t.id _).history t.id = _ :: rest'
      rw [note_history, hopened]
      exact ⟨_, rfl⟩
  · intro s
    change (frames ((c.note t.id _).history s) ++ serialsOf (held ++ (c.buffer ++ extra)) s).Sublist
      (offers ((c.note t.id _).history s))
    rw [hoffers, hframes, ← append_assoc held]
    have hsplit : serialsOf (held ++ c.buffer ++ extra) s =
        serialsOf (held ++ c.buffer) s ++ serialsOf extra s := by
      unfold serialsOf
      rw [filter_append, map_append]
    have htail : (serialsOf extra s).Sublist (if s = t.id then [p.serial] else []) := by
      unfold serialsOf
      cases extra with
      | nil => exact nil_sublist _
      | cons push tail =>
        have htail : tail = [] := length_eq_zero_iff.mp (by simpa using hlength)
        rw [htail, hextra push mem_cons_self]
        by_cases hs : s = t.id
        · rw [if_pos hs, filter_cons_of_pos (by simpa using hs.symm)]
          exact .refl _
        · rw [if_neg hs, filter_cons_of_neg (by simpa using Ne.symm hs)]
          exact .refl _
    rw [hsplit, ← append_assoc]
    exact (h.order s).append htail
  · intro s
    change (offers ((c.note t.id _).history s)).Nodup
    rw [hoffers]
    split_ifs with hs
    · rw [hs, nodup_append]
      refine ⟨h.once t.id, nodup_singleton _, fun a ha b hb heq => ?_⟩
      rw [heq, mem_singleton.mp hb, mem_offers] at ha
      exact hreaching.unoffered t ht ha
    · rw [append_nil]
      exact h.once s
  · intro handle s hlookup serial event hpublished
    have hpublished' := (hpublished_iff s serial event).mp hpublished
    rcases h.accounted handle s hlookup serial event hpublished' with hdone | hunder
    · left
      change Accounted ((c.note t.id _).history s) serial event
      rw [note_history]
      exact hdone.append _
    · right
      cases hunder with
      | pending push hmem hsub hserial hevent =>
        refine .pending push ?_ hsub hserial hevent
        rw [← append_assoc]
        exact mem_append_left _ hmem
      | lagged hdropped hflagged => exact .lagged (mem_note hdropped) hflagged
      | flagging hdropped q hmem hflagging =>
        rcases hpublishers q hmem with rfl | hmem
        · rw [hstage] at hflagging
          cases hflagging
        · exact .flagging (mem_note hdropped) q hmem hflagging
      | publisher q hmem hqserial hqevent hreaches =>
        rcases hpublishers q hmem with rfl | hmem
        · rw [hrest, map_cons, mem_cons] at hreaches
          rcases hreaches with rfl | hreaches
          · subst hqserial hqevent
            exact hnew
          · refine .publisher p' ?_ (hserial.trans hqserial) (hevent.trans hqevent) (hrest' ▸ hreaches)
            exact mem_append_right _ mem_cons_self
        · exact .publisher q hmem hqserial hqevent hreaches
  · intro handle s hlookup hflagged
    refine (h.woken handle s hlookup hflagged).imp_right fun hwaits => hwaits.imp_right ?_
    rintro ⟨q, hq, hnotifying⟩
    rcases hpublishers q hq with rfl | hq
    · rw [hstage] at hnotifying
      cases hnotifying
    · exact ⟨q, hq, hnotifying⟩

theorem mem_replaced (hp : c.publishers = pre ++ p :: post) (q : Option (Publisher F))
    {p' : Publisher F} (hp' : p' ∈ c.publishers) (hne : p' ≠ p) : p' ∈ pre ++ q.toList ++ post := by
  have hmem := ((mem_publishers hp).mp hp').resolve_left hne
  simp only [mem_append] at hmem ⊢
  tauto

theorem mem_replacement (pre post : List (Publisher F)) (q : Publisher F) :
    q ∈ pre ++ (some q).toList ++ post := by
  simp only [Option.toList_some, mem_append, mem_singleton, true_or, or_true]

theorem Underway.replace (hp : c.publishers = pre ++ p :: post) (q : Publisher F)
    (hpublishers : c'.publishers = pre ++ (some q).toList ++ post)
    (hhistory : c'.history = c.history) (hserial : q.serial = p.serial) (hevent : q.event = p.event)
    (hrest : q.rest = p.rest) {pending : List (ServerPush F)} {serial : Nat}
    {event : ChangeEvent F} (h : Underway c pending sub serial event)
    (hlagged : c.lagged sub = true → c'.lagged sub = true)
    (hstage : p.stage = .flagging sub → c'.lagged sub = true ∨ q.stage = .flagging sub) :
    Underway c' pending sub serial event := by
  have hq : q ∈ c'.publishers := hpublishers ▸ mem_replacement pre post q
  have hold : ∀ p' ∈ c.publishers, p' ≠ p → p' ∈ c'.publishers :=
    fun p' hp' hne => hpublishers ▸ mem_replaced hp (some q) hp' hne
  cases h with
  | publisher p' hmem hserial' hevent' hreaches =>
    by_cases hp' : p' = p
    · subst hp'
      exact .publisher q hq (hserial.trans hserial') (hevent.trans hevent') (hrest ▸ hreaches)
    · exact .publisher p' (hold p' hmem hp') hserial' hevent' hreaches
  | pending push hmem hsub hserial' hevent' => exact .pending push hmem hsub hserial' hevent'
  | lagged hdropped hflagged => exact .lagged (hhistory ▸ hdropped) (hlagged hflagged)
  | flagging hdropped p' hmem hflagging =>
    by_cases hp' : p' = p
    · subst hp'
      rcases hstage hflagging with hflagged | hflagging
      · exact .lagged (hhistory ▸ hdropped) hflagged
      · exact .flagging (hhistory ▸ hdropped) q hq hflagging
    · exact .flagging (hhistory ▸ hdropped) p' (hold p' hmem hp') hflagging

theorem Fed.notify (h : Fed c held due) (hp : c.publishers = pre ++ p :: post)
    (hstage : p.stage = .notifying sub) :
    Fed { c with
      permit := true
      publishers := pre ++ (some { p with stage := .sending }).toList ++ post } held due := by
  refine h.replace hp (some { p with stage := .sending }) rfl rfl rfl rfl rfl rfl rfl ?_ ?_ ?_
  · rintro p' ⟨⟩
    exact ⟨rfl, rfl, .refl _⟩
  · intro handle s serial event hlookup hunder
    refine hunder.replace hp { p with stage := .sending } ?_ ?_ rfl rfl rfl id ?_
    · rfl
    · rfl
    · intro hflagging
      rw [hstage] at hflagging
      cases hflagging
  · exact fun _ _ _ _ => .inl rfl

theorem Fed.flag (h : Fed c held due) (hp : c.publishers = pre ++ p :: post)
    (hstage : p.stage = .flagging sub) :
    Fed { c with
      lagged := Function.update c.lagged sub true
      eventsDropped := c.eventsDropped + 1
      publishers := pre ++ (some { p with stage := .notifying sub }).toList ++ post } held due := by
  refine h.replace hp (some { p with stage := .notifying sub }) rfl rfl rfl rfl rfl rfl rfl ?_ ?_ ?_
  · rintro p' ⟨⟩
    exact ⟨rfl, rfl, .refl _⟩
  · intro handle s serial event hlookup hunder
    refine hunder.replace hp { p with stage := .notifying sub } ?_ ?_ rfl rfl rfl ?_ ?_
    · rfl
    · rfl
    · intro hflagged
      change Function.update c.lagged sub true s = true
      by_cases hs : s = sub
      · rw [hs, update_self]
      · rw [update_of_ne hs]
        exact hflagged
    · intro hflagging
      rw [hstage] at hflagging
      cases hflagging
      exact .inl (update_self ..)
  · intro handle s hlookup hflagged
    by_cases hs : s = sub
    · subst hs
      exact .inr (.inr ⟨_, mem_replacement pre post _, rfl⟩)
    · change Function.update c.lagged sub true s = true at hflagged
      rw [update_of_ne hs] at hflagged
      refine (h.woken handle s hlookup hflagged).imp_right fun hwaits => hwaits.imp_right ?_
      rintro ⟨q, hq, hnotifying⟩
      refine ⟨q, mem_replaced hp _ hq ?_, hnotifying⟩
      rintro rfl
      rw [hstage] at hnotifying
      cases hnotifying

theorem Fed.pass (h : Fed c held due) (hp : c.publishers = pre ++ p :: post)
    (hstage : p.stage = .sending) (q : Option (Publisher F))
    (hq : ∀ p' ∈ q, p'.serial = p.serial ∧ p'.event = p.event ∧ p'.rest.Sublist p.rest)
    (hreach : ∀ handle sub, c.subs.lookup handle = some sub → sub ∈ p.rest.map Subscription.id →
      ∃ p' ∈ q, sub ∈ p'.rest.map Subscription.id) :
    Fed { c with publishers := pre ++ q.toList ++ post } held due := by
  refine h.replace hp q rfl rfl rfl rfl rfl rfl rfl hq ?_ ?_
  · intro handle s serial event hlookup hunder
    cases hunder with
    | publisher p' hmem hserial hevent hreaches =>
      by_cases hp' : p' = p
      · subst hp'
        obtain ⟨p'', hp'', hreaches'⟩ := hreach handle s hlookup hreaches
        obtain ⟨hserial', hevent', -⟩ := hq p'' hp''
        refine .publisher p'' ?_ (hserial'.trans hserial) (hevent'.trans hevent) hreaches'
        cases hp''
        exact mem_replacement pre post p''
      · exact .publisher p' (mem_replaced hp q hmem hp') hserial hevent hreaches
    | pending push hmem hsub hserial hevent => exact .pending push hmem hsub hserial hevent
    | lagged hdropped hflagged => exact .lagged hdropped hflagged
    | flagging hdropped p' hmem hflagging =>
      refine .flagging hdropped p' (mem_replaced hp q hmem ?_) hflagging
      rintro rfl
      rw [hstage] at hflagging
      cases hflagging
  · intro handle s hlookup hflagged
    refine (h.woken handle s hlookup hflagged).imp_right fun hwaits => hwaits.imp_right ?_
    rintro ⟨p', hp', hnotifying⟩
    refine ⟨p', mem_replaced hp q hp' ?_, hnotifying⟩
    rintro rfl
    rw [hstage] at hnotifying
    cases hnotifying

variable {t : Subscription Sink}

theorem Fed.not_own (h : Fed c held due) (ht : t ∈ c.hub.subscriptions) (hsink : t.sink = .other)
    {handle : UInt32} (hlookup : c.subs.lookup handle = some t.id) : False := by
  obtain ⟨s, hs, hid, hconn⟩ := (h.known handle t.id).mp hlookup
  rw [Hub.eq_of_id hs ht hid, hsink] at hconn
  cases hconn

variable {rest : List (Subscription Sink)}

theorem Fed.buffered (h : Fed c held due) (hp : c.publishers = pre ++ p :: post)
    (hstage : p.stage = .sending) (hrest : p.rest = t :: rest)
    (hsink : t.sink = .conn reqId) :
    Fed { c.note t.id [.offered p.serial] with
      buffer := c.buffer ++ [⟨reqId, p.event, t.id, p.serial⟩]
      publishers := pre ++ (some { p with rest }).toList ++ post } held due := by
  have hmem : (⟨reqId, p.event, t.id, p.serial⟩ : ServerPush F) ∈
      held ++ (c.buffer ++ [⟨reqId, p.event, t.id, p.serial⟩]) :=
    mem_append_right _ (mem_append_right _ mem_cons_self)
  have hsent := h.offer hp hstage hrest hsink [] nofun [⟨reqId, p.event, t.id, p.serial⟩]
    (fun _ hpush => mem_singleton.mp hpush) le_rfl { p with rest } rfl rfl rfl
    (.pending _ hmem rfl rfl rfl)
  refine hsent.of_same ?_ rfl (fun _ hdue => hdue) fun _ _ hmem => hmem
  simp only [Conn.feed, Option.toList_some, append_assoc, singleton_append]

theorem Fed.overflow (h : Fed c held due) (hp : c.publishers = pre ++ p :: post)
    (hstage : p.stage = .sending) (hrest : p.rest = t :: rest)
    (hsink : t.sink = .conn reqId) :
    Fed { c.note t.id [.offered p.serial, .dropped p.serial] with
      publishers := pre ++ (some { p with rest, stage := .flagging t.id }).toList ++ post } held
      due := by
  have hclosing : ∀ entry ∈ [.dropped p.serial], Entry.Closing (F := F) entry :=
    fun entry hentry => mem_singleton.mp hentry ▸ trivial
  have hdropped : .dropped p.serial ∈
      (c.note t.id [.offered p.serial, .dropped p.serial]).history t.id := by
    rw [note_history, if_pos rfl]
    exact mem_append_right _ (mem_cons_of_mem _ mem_cons_self)
  have hsent := h.offer hp hstage hrest hsink [.dropped p.serial] hclosing [] nofun zero_le_one
    { p with rest, stage := .flagging t.id } rfl rfl rfl
    (.flagging hdropped _ (mem_append_right _ mem_cons_self) rfl)
  refine hsent.of_same ?_ ?_ (fun _ hdue => hdue) fun _ _ hmem => hmem
  · simp only [Conn.feed, Option.toList_some, append_assoc, singleton_append]
  · change held ++ c.buffer = held ++ (c.buffer ++ [])
    rw [append_nil]

theorem Fed.deliver (h : Fed c held due) (i : Nat) : Fed (c.deliver i) held due := by
  unfold Conn.deliver
  split
  · exact h
  · rename_i p hget
    obtain ⟨hi, hget⟩ := List.getElem?_eq_some_iff.mp hget
    have hp : c.publishers = c.publishers.take i ++ p :: c.publishers.drop (i + 1) := by
      rw [← hget, getElem_cons_drop, take_append_drop]
    unfold Conn.advance
    cases hstage : p.stage with
    | notifying sub => exact h.notify hp hstage
    | flagging sub => exact h.flag hp hstage
    | sending =>
      cases hrest : p.rest with
      | nil =>
        apply h.pass hp hstage none nofun
        intro handle sub _ hmem
        rw [hrest] at hmem
        cases hmem
      | cons t rest =>
        have ht := (h.reaching p ((mem_publishers hp).mpr (.inl rfl))).mem_hub t
          (hrest ▸ mem_cons_self)
        dsimp only
        unfold Conn.trySend
        cases hsink : t.sink with
        | other =>
          apply h.pass hp hstage (some { p with rest })
          · rintro p' ⟨⟩
            exact ⟨rfl, rfl, hrest ▸ sublist_cons_self t rest⟩
          · intro handle sub hlookup hmem
            rw [hrest, map_cons, mem_cons] at hmem
            rcases hmem with rfl | hmem
            · exact (h.not_own ht hsink hlookup).elim
            · exact ⟨_, rfl, hmem⟩
        | conn reqId =>
          split_ifs with hroom
          · exact h.buffered hp hstage hrest hsink
          · exact h.overflow hp hstage hrest hsink

end

end RhypeDb.Server
