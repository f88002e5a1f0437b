import RhypeDb.Basic.Run
import RhypeDb.Server.Connection

/-! The feed of a network subscription. What a publish offers to a subscription's sink ends as an
event frame, as a refused event, or as a drop that a lag notice follows. -/

namespace RhypeDb.Server

open Function List Run

variable {F Q : Type}

section

def Entry.offer? : Entry F → Option Nat
  | .offered serial => some serial
  | _ => none

def Entry.push? : Entry F → Option Nat
  | .event serial _ => some serial
  | _ => none

def offers (history : List (Entry F)) : List Nat := history.filterMap Entry.offer?

/-- The order of its event frames. -/
def frames (history : List (Entry F)) : List Nat := history.filterMap Entry.push?

variable {history : List (Entry F)} {entries : List (Entry F)} {serial : Nat}

theorem mem_offers : serial ∈ offers history ↔ .offered serial ∈ history := by
  unfold offers
  rw [mem_filterMap]
  constructor
  · rintro ⟨entry, hentry, hoffer⟩
    cases entry with
    | offered n =>
      cases hoffer
      exact hentry
    | _ => cases hoffer
  · exact fun h => ⟨_, h, rfl⟩

@[simp] theorem offers_append (a b : List (Entry F)) : offers (a ++ b) = offers a ++ offers b :=
  filterMap_append

@[simp] theorem frames_append (a b : List (Entry F)) : frames (a ++ b) = frames a ++ frames b :=
  filterMap_append

/-- An entry about the end of an event, or a notice. -/
def Entry.Closing : Entry F → Prop
  | .dropped _ => True
  | .refused _ => True
  | .subLagged => True
  | _ => False

theorem offers_closing (h : ∀ entry ∈ entries, entry.Closing) : offers entries = [] := by
  unfold offers
  rw [filterMap_eq_nil_iff]
  intro entry hentry
  have hclosing := h entry hentry
  cases entry with
  | offered n => exact hclosing.elim
  | _ => rfl

theorem frames_closing (h : ∀ entry ∈ entries, entry.Closing) : frames entries = [] := by
  unfold frames
  rw [filterMap_eq_nil_iff]
  intro entry hentry
  have hclosing := h entry hentry
  cases entry with
  | event n e => exact hclosing.elim
  | _ => rfl

/-- What became of a published event: pushed, refused by the read rule, or dropped and announced. -/
def Accounted (history : List (Entry F)) (serial : Nat) (event : ChangeEvent F) : Prop :=
  .event serial event ∈ history ∨ .refused serial ∈ history ∨
    ∃ before after, history = before ++ .dropped serial :: after ∧ .subLagged ∈ after

theorem Accounted.append {event : ChangeEvent F} (h : Accounted history serial event)
    (more : List (Entry F)) : Accounted (history ++ more) serial event := by
  rcases h with h | h | ⟨before, after, heq, hlag⟩
  · exact .inl (mem_append_left _ h)
  · exact .inr (.inl (mem_append_left _ h))
  · refine .inr (.inr ⟨before, after ++ more, ?_, mem_append_left _ hlag⟩)
    rw [heq, append_assoc, cons_append]

theorem Accounted.of_notice (event : ChangeEvent F) (h : .dropped serial ∈ history) :
    Accounted (history ++ [.subLagged]) serial event := by
  obtain ⟨before, after, heq⟩ := append_of_mem h
  refine .inr (.inr ⟨before, after ++ [.subLagged], ?_, ?_⟩)
  · rw [heq, append_assoc, cons_append]
  · exact mem_append_right _ mem_cons_self

/-- Each event frame comes after the publish of its event. -/
def After (history : List (Entry F)) : Prop :=
  ∀ before serial event rest, history = before ++ .event serial event :: rest →
    .published serial event ∈ before

theorem After.append {history more : List (Entry F)} (h : After history)
    (hmore : ∀ serial event, .event serial event ∈ more → .published serial event ∈ history) :
    After (history ++ more) := by
  intro before serial event rest heq
  rcases append_eq_append_iff.mp heq with ⟨extra, hbefore, hmore'⟩ | ⟨extra, hhistory, hrest⟩
  · have hevent : .event serial event ∈ more := by
      rw [hmore']
      exact mem_append_right _ mem_cons_self
    rw [hbefore]
    exact mem_append_left _ (hmore serial event hevent)
  · cases extra with
    | nil =>
      rw [nil_append] at hrest
      rw [append_nil] at hhistory
      have hevent : .event serial event ∈ more := by
        rw [← hrest]
        exact mem_cons_self
      rw [← hhistory]
      exact hmore serial event hevent
    | cons entry extra =>
      obtain ⟨rfl, -⟩ := List.cons.inj hrest
      exact h before serial event extra hhistory

end

def Task.held : Task F Q → List (ServerPush F)
  | .received push => [push]
  | _ => []

def Task.due : Task F Q → List UInt32
  | .flushing handles => handles
  | _ => []

def Response.event? : Response F → Option (ChangeEvent F)
  | .event e => some e
  | _ => none

def serialsOf (pending : List (ServerPush F)) (sub : Nat) : List Nat :=
  (pending.filter fun push => push.sub = sub).map ServerPush.serial

/-- A publisher has its serial to itself, and has still to offer its event to subscriptions that
were active when it started. -/
structure Publisher.Reaching (c : Conn F Q) (p : Publisher F) : Prop where
  serial_lt : p.serial < c.nextSerial
  nodup : (p.rest.map Subscription.id).Nodup
  mem_hub : ∀ sub ∈ p.rest, sub ∈ c.hub.subscriptions
  published : ∀ sub ∈ p.rest, sub.sink ≠ .other →
    .published p.serial p.event ∈ c.history sub.id
  unoffered : ∀ sub ∈ p.rest, .offered p.serial ∉ c.history sub.id

/-- Where an event is before it is accounted for. -/
inductive Underway (c : Conn F Q) (pending : List (ServerPush F)) (sub serial : Nat)
    (event : ChangeEvent F) : Prop
  | publisher (p : Publisher F) (mem : p ∈ c.publishers) (serial_eq : p.serial = serial)
      (event_eq : p.event = event) (reaches : sub ∈ p.rest.map Subscription.id)
  | pending (push : ServerPush F) (mem : push ∈ pending) (sub_eq : push.sub = sub)
      (serial_eq : push.serial = serial) (event_eq : push.event = event)
  | lagged (dropped : .dropped serial ∈ c.history sub) (flagged : c.lagged sub = true)
  | flagging (dropped : .dropped serial ∈ c.history sub) (p : Publisher F)
      (mem : p ∈ c.publishers) (stage : p.stage = .flagging sub)

structure Recorded (c : Conn F Q) : Prop where
  started : ∀ sub, c.history sub = [] ∨
    ∃ handle filter rest, c.history sub = .subscribed handle filter :: rest
  opened : ∀ s ∈ c.hub.subscriptions, ∀ handle, s.sink = .conn handle →
    ∃ rest, c.history s.id = .subscribed handle s.filter :: rest
  unopened : ∀ sub, c.hub.nextId ≤ sub → c.history sub = []
  published_lt : ∀ sub serial event, .published serial event ∈ c.history sub →
    serial < c.nextSerial
  offered_lt : ∀ sub serial, .offered serial ∈ c.history sub → serial < c.nextSerial
  matched : ∀ sub handle filter rest, c.history sub = .subscribed handle filter :: rest →
    ∀ serial event, .published serial event ∈ c.history sub → filter.matches event = true
  after : ∀ sub, After (c.history sub)
  framed : ∀ handle event, (handle, .event event) ∈ c.written →
    ∃ sub filter rest serial, c.history sub = .subscribed handle filter :: rest ∧
      .event serial event ∈ c.history sub

/-- The invariant of a connection whose task holds some pushes and has some handles to flush. -/
structure Fed (c : Conn F Q) (held : List (ServerPush F)) (due : List UInt32) : Prop where
  recorded : Recorded c
  known : ∀ handle sub, c.subs.lookup handle = some sub ↔
    ∃ s ∈ c.hub.subscriptions, s.id = sub ∧ s.sink = .conn handle
  reaching : ∀ p ∈ c.publishers, p.Reaching c
  serials : (c.publishers.map Publisher.serial).Nodup
  sent : ∀ push ∈ held ++ c.buffer, .published push.serial push.event ∈ c.history push.sub ∧
    ∃ filter rest, c.history push.sub = .subscribed push.reqId filter :: rest
  order : ∀ sub, (frames (c.history sub) ++ serialsOf (held ++ c.buffer) sub).Sublist
    (offers (c.history sub))
  once : ∀ sub, (offers (c.history sub)).Nodup
  accounted : ∀ handle sub, c.subs.lookup handle = some sub → ∀ serial event,
    .published serial event ∈ c.history sub →
      Accounted (c.history sub) serial event ∨ Underway c (held ++ c.buffer) sub serial event
  woken : ∀ handle sub, c.subs.lookup handle = some sub → c.lagged sub = true →
    c.permit = true ∨ handle ∈ due ∨ ∃ p ∈ c.publishers, p.stage = .notifying sub

variable {c c' : Conn F Q} {held held' : List (ServerPush F)} {due due' : List UInt32} {sub : Nat}
  {p : Publisher F}

def Conn.feed (c : Conn F Q) : Hub Sink × List (Publisher F) × (Nat → Bool) × Bool ×
    (AList fun _ : UInt32 => Nat) × Nat × (Nat → List (Entry F)) :=
  (c.hub, c.publishers, c.lagged, c.permit, c.subs, c.nextSerial, c.history)

theorem Publisher.Reaching.of_same (h : p.Reaching c) (hhub : c'.hub = c.hub)
    (hserial : c'.nextSerial = c.nextSerial) (hhistory : c'.history = c.history) :
    p.Reaching c' := by
  constructor
  · rw [hserial]
    exact h.serial_lt
  · exact h.nodup
  · rw [hhub]
    exact h.mem_hub
  · rw [hhistory]
    exact h.published
  · rw [hhistory]
    exact h.unoffered

theorem Underway.mono {pending : List (ServerPush F)} {serial : Nat} {event : ChangeEvent F}
    (h : Underway c pending sub serial event) (hpublishers : ∀ p ∈ c.publishers, p ∈ c'.publishers)
    (hhistory : ∀ entry ∈ c.history sub, entry ∈ c'.history sub) (hlagged : c'.lagged = c.lagged) :
    Underway c' pending sub serial event := by
  cases h with
  | publisher p hmem hserial hevent hreaches =>
    exact .publisher p (hpublishers p hmem) hserial hevent hreaches
  | pending push hmem hsub hserial hevent => exact .pending push hmem hsub hserial hevent
  | lagged hdropped hflagged => exact .lagged (hhistory _ hdropped) (hlagged ▸ hflagged)
  | flagging hdropped p hmem hstage =>
    exact .flagging (hhistory _ hdropped) p (hpublishers p hmem) hstage

theorem Recorded.of_same (h : Recorded c) (hhub : c'.hub = c.hub)
    (hserial : c'.nextSerial = c.nextSerial) (hhistory : c'.history = c.history)
    (hwritten : ∀ handle event, (handle, .event event) ∈ c'.written →
      (handle, .event event) ∈ c.written) : Recorded c' := by
  constructor
  · rw [hhistory]
    exact h.started
  · rw [hhub, hhistory]
    exact h.opened
  · rw [hhub, hhistory]
    exact h.unopened
  · rw [hhistory, hserial]
    exact h.published_lt
  · rw [hhistory, hserial]
    exact h.offered_lt
  · rw [hhistory]
    exact h.matched
  · rw [hhistory]
    exact h.after
  · intro handle event hmem
    rw [hhistory]
    exact h.framed handle event (hwritten handle event hmem)

theorem Fed.of_same (h : Fed c held due) (hfeed : c'.feed = c.feed)
    (hpending : held' ++ c'.buffer = held ++ c.buffer) (hdue : ∀ handle ∈ due, handle ∈ due')
    (hwritten : ∀ handle event, (handle, .event event) ∈ c'.written →
      (handle, .event event) ∈ c.written) : Fed c' held' due' := by
  have hall := hfeed
  simp only [Conn.feed, Prod.mk.injEq] at hall
  obtain ⟨hhub, hpublishers, hlagged, hpermit, hsubs, hnext, hhistory⟩ := hall
  constructor
  · exact h.recorded.of_same hhub hnext hhistory hwritten
  · rw [hsubs, hhub]
    exact h.known
  · rw [hpublishers]
    exact fun p hp => (h.reaching p hp).of_same hhub hnext hhistory
  · rw [hpublishers]
    exact h.serials
  · rw [hpending, hhistory]
    exact h.sent
  · rw [hpending, hhistory]
    exact h.order
  · rw [hhistory]
    exact h.once
  · intro handle sub hlookup serial event hpublished
    rw [hsubs] at hlookup
    rw [hhistory] at hpublished
    rw [hhistory, hpending]
    exact (h.accounted handle sub hlookup serial event hpublished).imp_right
      fun hunder => hunder.mono (fun p hp => hpublishers ▸ hp) (fun _ hmem => hhistory ▸ hmem) hlagged
  · intro handle sub hlookup hflag
    rw [hsubs] at hlookup
    rw [hlagged] at hflag
    rw [hpermit, hpublishers]
    exact (h.woken handle sub hlookup hflag).imp_right fun hrest =>
      hrest.imp_left (hdue handle)

def Entry.Follows (c : Conn F Q) (nextSerial sub : Nat) : Entry F → Prop
  | .subscribed _ _ => False
  | .published serial e => serial < nextSerial ∧
    ∀ handle filter rest, c.history sub = .subscribed handle filter :: rest →
      filter.matches e = true
  | .offered serial => serial < nextSerial
  | .event serial e => .published serial e ∈ c.history sub
  | _ => True

theorem Recorded.grow (h : Recorded c) (more : Nat → List (Entry F)) (hhub : c'.hub = c.hub)
    (hserial : c.nextSerial ≤ c'.nextSerial)
    (hhistory : ∀ sub, c'.history sub = c.history sub ++ more sub)
    (hopen : ∀ sub, c.history sub = [] → more sub = [])
    (hmore : ∀ sub, ∀ entry ∈ more sub, entry.Follows c c'.nextSerial sub)
    (hwritten : ∀ handle event, (handle, .event event) ∈ c'.written →
      (handle, .event event) ∈ c.written ∨
        ∃ sub filter rest serial, c.history sub = .subscribed handle filter :: rest ∧
          .event serial event ∈ more sub) : Recorded c' := by
  constructor
  · intro sub
    rw [hhistory]
    rcases h.started sub with hempty | ⟨handle, filter, rest, hhead⟩
    · left
      rw [hempty, hopen sub hempty]
      rfl
    · right
      rw [hhead]
      exact ⟨handle, filter, _, rfl⟩
  · rw [hhub]
    intro s hs handle hsink
    obtain ⟨rest, hrest⟩ := h.opened s hs handle hsink
    refine ⟨rest ++ more s.id, ?_⟩
    rw [hhistory, hrest, cons_append]
  · rw [hhub]
    intro sub hsub
    have hempty := h.unopened sub hsub
    rw [hhistory, hempty, hopen sub hempty, append_nil]
  · intro sub serial event hmem
    rw [hhistory] at hmem
    rcases mem_append.mp hmem with hmem | hmem
    · have hlt := h.published_lt sub serial event hmem
      exact lt_of_lt_of_le hlt hserial
    · exact (hmore sub _ hmem).1
  · intro sub serial hmem
    rw [hhistory] at hmem
    rcases mem_append.mp hmem with hmem | hmem
    · have hlt := h.offered_lt sub serial hmem
      exact lt_of_lt_of_le hlt hserial
    · exact hmore sub _ hmem
  · intro sub handle filter rest heq serial event hmem
    -- A history that is not empty keeps its first entry.
    have hhead : ∃ rest', c.history sub = .subscribed handle filter :: rest' := by
      rw [hhistory] at heq
      rcases h.started sub with hempty | ⟨handle', filter', rest', hold⟩
      · rw [hempty, hopen sub hempty] at heq
        cases heq
      · rw [hold, cons_append] at heq
        cases (List.cons.inj heq).1
        exact ⟨rest', hold⟩
    obtain ⟨rest', hold⟩ := hhead
    rw [hhistory] at hmem
    rcases mem_append.mp hmem with hmem | hmem
    · exact h.matched sub handle filter rest' hold serial event hmem
    · exact (hmore sub _ hmem).2 handle filter rest' hold
  · intro sub
    rw [hhistory]
    exact (h.after sub).append fun serial event hmem => hmore sub _ hmem
  · intro handle event hmem
    rcases hwritten handle event hmem with hmem | ⟨sub, filter, rest, serial, hold, hevent⟩
    · obtain ⟨sub, filter, rest, serial, hold, hevent⟩ := h.framed handle event hmem
      refine ⟨sub, filter, rest ++ more sub, serial, ?_, ?_⟩
      · rw [hhistory, hold, cons_append]
      · rw [hhistory]
        exact mem_append_left _ hevent
    · refine ⟨sub, filter, rest ++ more sub, serial, ?_, ?_⟩
      · rw [hhistory, hold, cons_append]
      · rw [hhistory]
        exact mem_append_right _ hevent

theorem note_history (c : Conn F Q) (sub : Nat) (entries : List (Entry F)) (s : Nat) :
    (c.note sub entries).history s = c.history s ++ if s = sub then entries else [] := by
  by_cases hs : s = sub
  · subst hs
    rw [if_pos rfl]
    exact update_self ..
  · rw [if_neg hs, append_nil]
    exact update_of_ne hs ..

variable {entries : List (Entry F)} {entry : Entry F}

theorem mem_note {s : Nat} (h : entry ∈ c.history s) : entry ∈ (c.note sub entries).history s := by
  rw [note_history]
  exact mem_append_left _ h

theorem mem_note_iff {s : Nat} (h : entry ∉ entries) :
    entry ∈ (c.note sub entries).history s ↔ entry ∈ c.history s := by
  rw [note_history, mem_append]
  refine or_iff_left fun hmem => ?_
  split_ifs at hmem
  · exact h hmem
  · cases hmem

theorem offers_note (h : offers entries = []) (sub s : Nat) :
    offers ((c.note sub entries).history s) = offers (c.history s) := by
  rw [note_history, offers_append]
  split_ifs
  · rw [h, append_nil]
  · exact append_nil _

theorem frames_note (h : frames entries = []) (sub s : Nat) :
    frames ((c.note sub entries).history s) = frames (c.history s) := by
  rw [note_history, frames_append]
  split_ifs
  · rw [h, append_nil]
  · exact append_nil _

theorem not_mem_of_closing (h : ∀ entry ∈ entries, entry.Closing) (hentry : ¬ entry.Closing) :
    entry ∉ entries :=
  fun hmem => hentry (h entry hmem)

variable {handle : UInt32} {response : Response F}

theorem Fed.sub_lt (h : Fed c held due) (hlookup : c.subs.lookup handle = some sub) :
    sub < c.hub.nextId := by
  obtain ⟨s, hs, rfl, -⟩ := (h.known handle sub).mp hlookup
  exact c.hub.fresh s hs

theorem Fed.history_ne (h : Fed c held due) (hlookup : c.subs.lookup handle = some sub) :
    c.history sub ≠ [] := by
  obtain ⟨s, hs, rfl, hsink⟩ := (h.known handle sub).mp hlookup
  obtain ⟨rest, hopened⟩ := h.recorded.opened s hs handle hsink
  rw [hopened]
  exact cons_ne_nil _ _

theorem Publisher.Reaching.note (h : p.Reaching c) (sub : Nat)
    (hentries : .offered p.serial ∉ entries) : p.Reaching (c.note sub entries) := by
  constructor
  · exact h.serial_lt
  · exact h.nodup
  · exact h.mem_hub
  · exact fun s hs hsink => mem_note (h.published s hs hsink)
  · exact fun s hs hmem => h.unoffered s hs ((mem_note_iff hentries).mp hmem)

theorem Recorded.note_closing (h : Recorded c) (hsub : c.history sub ≠ [])
    (hentries : ∀ entry ∈ entries, entry.Closing) : Recorded (c.note sub entries) := by
  have hhub : (c.note sub entries).hub = c.hub := rfl
  apply h.grow (fun s => if s = sub then entries else []) hhub le_rfl (note_history c sub entries)
  · intro s hs
    refine if_neg fun heq => hsub ?_
    rw [← heq]
    exact hs
  · intro s entry hentry
    split_ifs at hentry
    · have hclosing := hentries entry hentry
      cases entry with
      | dropped => trivial
      | refused => trivial
      | subLagged => trivial
      | _ => exact hclosing.elim
    · cases hentry
  · exact fun handle event hmem => .inl hmem

theorem Fed.note_closing (h : Fed c held due) (hsub : c.history sub ≠ [])
    (hentries : ∀ entry ∈ entries, entry.Closing) : Fed (c.note sub entries) held due := by
  have hoffers := offers_closing hentries
  have hframes := frames_closing hentries
  constructor
  · exact h.recorded.note_closing hsub hentries
  · exact h.known
  · exact fun p hp => (h.reaching p hp).note sub (not_mem_of_closing hentries id)
  · exact h.serials
  · intro push hpush
    obtain ⟨hpublished, filter, rest, hhead⟩ := h.sent push hpush
    refine ⟨mem_note hpublished, filter, ?_⟩
    rw [note_history, hhead]
    exact ⟨_, rfl⟩
  · intro s
    rw [offers_note hoffers, frames_note hframes]
    exact h.order s
  · intro s
    rw [offers_note hoffers]
    exact h.once s
  · intro handle s hlookup serial event hpublished
    rw [mem_note_iff (not_mem_of_closing hentries id)] at hpublished
    rcases h.accounted handle s hlookup serial event hpublished with hdone | hunder
    · left
      rw [note_history]
      exact hdone.append _
    · exact .inr (hunder.mono (fun _ hp => hp) (fun _ hmem => mem_note hmem) rfl)
  · exact h.woken

theorem mem_written_write {handle handle' : UInt32} {response' : Response F}
    (h : (handle', response') ∈ (c.write handle response).written) :
    (handle', response') ∈ c.written ∨ (handle' = handle ∧ response' = response) := by
  rcases mem_append.mp h with h | h
  · exact .inl h
  · rw [mem_singleton, Prod.mk.injEq] at h
    exact .inr h

theorem Fed.write (h : Fed c held due) (handle : UInt32)
    (hresponse : response.event? = none) : Fed (c.write handle response) held due := by
  have hfeed : (c.write handle response).feed = c.feed := rfl
  refine h.of_same hfeed rfl (fun _ hdue => hdue) fun handle' event hmem => ?_
  rcases mem_written_write hmem with hmem | ⟨-, heq⟩
  · exact hmem
  · rw [← heq] at hresponse
    cases hresponse

theorem Fed.notice (h : Fed c held due) (handle : UInt32) (hsub : c.history sub ≠ []) :
    Fed (c.writeSublagged handle sub) held due := by
  have hwrite : Fed (c.write handle .subLagged) held due := h.write handle rfl
  refine hwrite.note_closing hsub fun entry hentry => ?_
  rw [mem_singleton.mp hentry]
  trivial

theorem Fed.unflag (h : Fed c held (handle :: due)) (hlookup : c.subs.lookup handle = some sub)
    {before : List (Entry F)} (hnotice : c.history sub = before ++ [.subLagged]) :
    Fed { c with lagged := Function.update c.lagged sub false } held due := by
  constructor
  · exact h.recorded.of_same rfl rfl rfl fun _ _ hmem => hmem
  · exact h.known
  · exact fun p hp => (h.reaching p hp).of_same rfl rfl rfl
  · exact h.serials
  · exact h.sent
  · exact h.order
  · exact h.once
  · intro handle' s hlookup' serial event hpublished
    rcases h.accounted handle' s hlookup' serial event hpublished with hdone | hunder
    · exact .inl hdone
    · cases hunder with
      | publisher p hmem hserial hevent hreaches =>
        exact .inr (.publisher p hmem hserial hevent hreaches)
      | pending push hmem hsub hserial hevent => exact .inr (.pending push hmem hsub hserial hevent)
      | flagging hdropped p hmem hstage => exact .inr (.flagging hdropped p hmem hstage)
      | lagged hdropped hflagged =>
        by_cases hs : s = sub
        · subst hs
          left
          change Accounted (c.history s) serial event
          rw [hnotice, mem_append, mem_singleton] at hdropped
          rw [hnotice]
          exact .of_notice event (hdropped.resolve_right nofun)
        · refine .inr (.lagged hdropped ?_)
          change Function.update c.lagged sub false s = true
          rw [update_of_ne hs]
          exact hflagged
  · intro handle' s hlookup' hflagged
    change Function.update c.lagged sub false s = true at hflagged
    by_cases hs : s = sub
    · subst hs
      rw [update_self] at hflagged
      cases hflagged
    · rw [update_of_ne hs] at hflagged
      rcases h.woken handle' s hlookup' hflagged with hpermit | hdue | hpublisher
      · exact .inl hpermit
      · rcases mem_cons.mp hdue with heq | hdue
        · subst heq
          rw [hlookup'] at hlookup
          exact absurd (Option.some.inj hlookup) hs
        · exact .inr (.inl hdue)
      · exact .inr (.inr hpublisher)

theorem Fed.swapLagged (h : Fed c held (handle :: due)) (hlookup : c.subs.lookup handle = some sub) :
    Fed (c.swapLagged handle sub) held due := by
  unfold Conn.swapLagged
  split_ifs with hflagged
  · have hnotice : Fed (c.writeSublagged handle sub) held (handle :: due) :=
      h.notice handle (h.history_ne hlookup)
    have hlast : (c.writeSublagged handle sub).history sub = c.history sub ++ [.subLagged] := by
      unfold Conn.writeSublagged
      rw [note_history, if_pos rfl]
      rfl
    exact hnotice.unflag hlookup hlast
  · refine ⟨h.recorded, h.known, h.reaching, h.serials, h.sent, h.order, h.once, h.accounted, ?_⟩
    intro handle' s hlookup' hflagged'
    refine (h.woken handle' s hlookup' hflagged').imp_right fun hrest => hrest.imp_left fun hdue => ?_
    rcases mem_cons.mp hdue with heq | hdue
    · subst heq
      rw [hlookup] at hlookup'
      cases hlookup'
      exact absurd hflagged' hflagged
    · exact hdue

variable {push : ServerPush F}

theorem Fed.pop (h : Fed c (push :: held) due)
    (hdone : ∀ handle, c.subs.lookup handle = some push.sub → Accounted (c.history push.sub)
      push.serial push.event) : Fed c held due := by
  refine ⟨h.recorded, h.known, h.reaching, h.serials, ?_, ?_, h.once, ?_, h.woken⟩
  · exact fun push' hpush' => h.sent push' (mem_cons_of_mem _ hpush')
  · intro sub
    have hsublist : (serialsOf (held ++ c.buffer) sub).Sublist
        (serialsOf (push :: held ++ c.buffer) sub) :=
      ((sublist_cons_self push _).filter _).map _
    exact (hsublist.append_left _).trans (h.order sub)
  · intro handle sub hlookup serial event hpublished
    rcases h.accounted handle sub hlookup serial event hpublished with hfinal | hunder
    · exact .inl hfinal
    · cases hunder with
      | publisher p hmem hserial hevent hreaches =>
        exact .inr (.publisher p hmem hserial hevent hreaches)
      | lagged hdropped hflagged => exact .inr (.lagged hdropped hflagged)
      | flagging hdropped p hmem hstage => exact .inr (.flagging hdropped p hmem hstage)
      | pending push' hmem hsub hserial hevent =>
        rcases mem_cons.mp hmem with heq | hmem
        · subst heq
          subst hsub hserial hevent
          exact .inl (hdone handle hlookup)
        · exact .inr (.pending push' hmem hsub hserial hevent)

theorem Fed.handle_eq (h : Fed c held due) (hpush : push ∈ held ++ c.buffer)
    (hlookup : c.subs.lookup handle = some push.sub) : handle = push.reqId := by
  obtain ⟨s, hs, hid, hsink⟩ := (h.known handle push.sub).mp hlookup
  obtain ⟨rest, hopened⟩ := h.recorded.opened s hs handle hsink
  obtain ⟨-, filter, rest', hsent⟩ := h.sent push hpush
  rw [hid, hsent] at hopened
  have hentry := (List.cons.inj hopened).1
  exact (Entry.subscribed.inj hentry).1.symm

theorem Fed.popEvent (h : Fed c (push :: held) due)
    (hlookup : c.subs.lookup push.reqId = some push.sub) :
    Fed ((c.write push.reqId (.event push.event)).note push.sub [.event push.serial push.event])
      held due := by
  have hmem : push ∈ push :: held ++ c.buffer := mem_cons_self
  obtain ⟨hsent, filter, rest, hhead⟩ := h.sent push hmem
  set c₁ := c.write push.reqId (.event push.event) with hc₁
  have hnote : ∀ s, (c₁.note push.sub [.event push.serial push.event]).history s =
      c.history s ++ if s = push.sub then [.event push.serial push.event] else [] :=
    note_history c₁ push.sub _
  constructor
  · have hhub : (c₁.note push.sub [.event push.serial push.event]).hub = c.hub := rfl
    refine h.recorded.grow _ hhub le_rfl hnote ?_ ?_ ?_
    · intro s hs
      refine if_neg fun heq => h.history_ne hlookup ?_
      rw [← heq]
      exact hs
    · intro s entry hentry
      split_ifs at hentry with hs
      · rw [mem_singleton] at hentry
        rw [hentry, hs]
        exact hsent
      · cases hentry
    · intro handle event hwritten
      rcases mem_written_write hwritten with hwritten | ⟨rfl, heq⟩
      · exact .inl hwritten
      · cases heq
        refine .inr ⟨push.sub, filter, rest, push.serial, hhead, ?_⟩
        rw [if_pos rfl]
        exact mem_cons_self
  · exact h.known
  · intro p hp
    have hreaching : p.Reaching c₁ := (h.reaching p hp).of_same rfl rfl rfl
    exact hreaching.note push.sub (by simp)
  · exact h.serials
  · intro push' hpush'
    obtain ⟨hpublished, filter', rest', hhead'⟩ := h.sent push' (mem_cons_of_mem _ hpush')
    rw [hnote, hhead']
    refine ⟨?_, filter', _, rfl⟩
    rw [← hhead']
    exact mem_append_left _ hpublished
  · intro s
    have horder := h.order s
    rw [hnote, offers_append, frames_append]
    by_cases hs : s = push.sub
    · subst hs
      have hserials : serialsOf (push :: held ++ c.buffer) push.sub =
          push.serial :: serialsOf (held ++ c.buffer) push.sub := by
        unfold serialsOf
        rw [cons_append, filter_cons_of_pos (by simp), map_cons]
      rw [hserials] at horder
      rw [if_pos rfl, append_assoc]
      change (frames (c.history push.sub) ++ ([push.serial] ++ _)).Sublist
        (offers (c.history push.sub) ++ [])
      rw [append_nil]
      exact horder
    · have hserials : serialsOf (push :: held ++ c.buffer) s = serialsOf (held ++ c.buffer) s := by
        unfold serialsOf
        rw [cons_append, filter_cons_of_neg (by simpa using Ne.symm hs)]
      rw [hserials] at horder
      rw [if_neg hs]
      change (frames (c.history s) ++ [] ++ _).Sublist (offers (c.history s) ++ [])
      rw [append_nil, append_nil]
      exact horder
  · intro s
    rw [hnote, offers_append]
    split_ifs
    · exact (append_nil (offers (c.history s))).symm ▸ h.once s
    · exact (append_nil (offers (c.history s))).symm ▸ h.once s
  · intro handle s hlookup' serial event hpublished
    have hold : .published serial event ∈ c.history s :=
      (mem_note_iff (c := c₁) (by simp)).mp hpublished
    rcases h.accounted handle s hlookup' serial event hold with hdone | hunder
    · left
      rw [hnote]
      exact hdone.append _
    · cases hunder with
      | publisher p hmem hserial hevent hreaches =>
        exact .inr (.publisher p hmem hserial hevent hreaches)
      | lagged hdropped hflagged => exact .inr (.lagged (mem_note (c := c₁) hdropped) hflagged)
      | flagging hdropped p hmem hstage =>
        exact .inr (.flagging (mem_note (c := c₁) hdropped) p hmem hstage)
      | pending push' hmem hsub hserial hevent =>
        rcases mem_cons.mp hmem with heq | hmem
        · subst heq
          subst hsub hserial hevent
          refine .inl (.inl ?_)
          rw [hnote, if_pos rfl]
          exact mem_append_right _ mem_cons_self
        · exact .inr (.pending push' hmem hsub hserial hevent)
  · exact h.woken

theorem Fed.weaken (h : Fed c held due) (hdue : ∀ handle ∈ due, handle ∈ due') : Fed c held due' :=
  h.of_same rfl rfl hdue fun _ _ hmem => hmem

theorem Fed.skip (h : Fed c held (handle :: due)) (hlookup : c.subs.lookup handle = none) :
    Fed c held due := by
  refine ⟨h.recorded, h.known, h.reaching, h.serials, h.sent, h.order, h.once, h.accounted, ?_⟩
  intro handle' sub hlookup' hflagged
  refine (h.woken handle' sub hlookup' hflagged).imp_right fun hrest => hrest.imp_left fun hdue => ?_
  rcases mem_cons.mp hdue with rfl | hdue
  · rw [hlookup] at hlookup'
    cases hlookup'
  · exact hdue

theorem Fed.flushOne (h : Fed c held (handle :: due)) : Fed (c.flushOne handle) held due := by
  unfold Conn.flushOne
  split
  · rename_i hlookup
    exact h.skip hlookup
  · rename_i sub hlookup
    exact h.swapLagged hlookup

theorem swapLagged_subs (c : Conn F Q) (handle : UInt32) (sub : Nat) :
    (c.swapLagged handle sub).subs = c.subs := by
  unfold Conn.swapLagged
  split_ifs
  · rfl
  · rfl

theorem Fed.pushArm [Authz.JsonNumber F] (server : AppState F Q) (h : Fed c (push :: held) due)
    (hown : c.pushes server push = true → c.subs.lookup push.reqId = some push.sub) :
    Fed (c.pushArm server push) held due := by
  have hmem : push ∈ push :: held ++ c.buffer := mem_cons_self
  unfold Conn.pushArm
  cases hlookup : c.subs.lookup push.reqId with
  | none =>
    apply h.pop
    intro handle hhandle
    rw [h.handle_eq hmem hhandle, hlookup] at hhandle
    cases hhandle
  | some sub =>
    have hsubs := swapLagged_subs c push.reqId sub
    have hswap : Fed (c.swapLagged push.reqId sub) (push :: held) due :=
      (h.weaken fun _ hdue => mem_cons_of_mem _ hdue).swapLagged hlookup
    rw [← hsubs] at hlookup
    have hsub := hswap.history_ne hlookup
    set c₁ := c.swapLagged push.reqId sub
    have hown_sub : ∀ handle, c₁.subs.lookup handle = some push.sub → push.sub = sub := by
      intro handle hhandle
      rw [hswap.handle_eq mem_cons_self hhandle, hlookup] at hhandle
      exact (Option.some.inj hhandle).symm
    split_ifs with hpermits
    · unfold Conn.writeEventPush
      split_ifs with hsize
      · have hcount : Fed { c₁ with eventsDropped := c₁.eventsDropped + 1 } (push :: held) due :=
          hswap.of_same rfl rfl (fun _ hdue => hdue) fun _ _ hmem => hmem
        have hclosing : ∀ entry ∈ [.dropped push.serial], Entry.Closing (F := F) entry :=
          fun entry hentry => mem_singleton.mp hentry ▸ trivial
        have hnoted := hcount.note_closing hsub hclosing
        have hlonger : (Conn.note { c₁ with eventsDropped := c₁.eventsDropped + 1 } sub
            [.dropped push.serial]).history sub ≠ [] := by
          rw [note_history]
          exact fun hempty => hsub (append_eq_nil_iff.mp hempty).1
        apply (hnoted.notice push.reqId hlonger).pop
        intro handle hhandle
        rw [hown_sub handle hhandle]
        unfold Conn.writeSublagged
        rw [note_history, if_pos rfl]
        apply Accounted.of_notice
        change .dropped push.serial ∈ Conn.history (Conn.note _ _ _) sub
        rw [note_history, if_pos rfl]
        exact mem_append_right _ mem_cons_self
      · have hpushes : c.pushes server push = true := by
          unfold Conn.pushes
          rw [← hsubs, hlookup, hpermits, decide_eq_false hsize]
          rfl
        have hpush := hown hpushes
        rw [← hsubs, hlookup] at hpush
        cases hpush
        have hpopped := hswap.popEvent hlookup
        exact hpopped.of_same rfl rfl (fun _ hdue => hdue) fun _ _ hmem => hmem
    · have hclosing : ∀ entry ∈ [.refused push.serial], Entry.Closing (F := F) entry :=
        fun entry hentry => mem_singleton.mp hentry ▸ trivial
      apply (hswap.note_closing hsub hclosing).pop
      intro handle hhandle
      rw [hown_sub handle hhandle, note_history, if_pos rfl]
      exact .inr (.inl (mem_append_right _ mem_cons_self))

end RhypeDb.Server
