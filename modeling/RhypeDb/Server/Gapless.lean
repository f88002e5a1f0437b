import RhypeDb.Server.Authority
import RhypeDb.Server.FeedSteps

/-! A subscription's feed has no silent gap and no foreign event, on every run in which the loop
never writes a push under a handle that has passed to another subscription. -/

namespace RhypeDb.Server

open Authz List Option Run

variable {F Q : Type}

structure Conn.Quiet (c : Conn F Q) : Prop where
  publishers : c.publishers = []
  buffer : c.buffer = []
  permit : c.permit = false
  task : c.task = .idle

/-- What a connection promises its subscriptions. A history starts with the subscription, and holds
the events published while it was active and matched it, and the frames written for it. -/
structure Gapless (c : Conn F Q) : Prop where
  framed : ∀ handle event, (handle, .event event) ∈ c.written →
    ∃ sub filter rest serial, c.history sub = .subscribed handle filter :: rest ∧
      .event serial event ∈ c.history sub
  genuine : ∀ sub before serial event rest,
    c.history sub = before ++ .event serial event :: rest →
      ∃ handle filter rest', before = .subscribed handle filter :: rest' ∧
        filter.matches event = true ∧ .published serial event ∈ before
  ordered : ∀ sub, (frames (c.history sub)).Sublist (offers (c.history sub)) ∧
    (offers (c.history sub)).Nodup
  accounted : c.Quiet → ∀ handle sub, c.subs.lookup handle = some sub → ∀ serial event,
    .published serial event ∈ c.history sub → Accounted (c.history sub) serial event

/-- The condition on a step: a push is written only for the subscription whose sink sent it. -/
def Conn.Own [JsonNumber F] (server : AppState F Q) (c : Conn F Q) : Action F → Prop
  | .push => ∀ push ∈ c.task.held, c.pushes server push = true →
      c.subs.lookup push.reqId = some push.sub
  | _ => True

instance [JsonNumber F] (server : AppState F Q) (c : Conn F Q) (a : Action F) :
    Decidable (Conn.Own server c a) := by
  unfold Conn.Own
  cases a <;> infer_instance

def Action.Inner : Action F → Prop
  | .deliver _ => True
  | .recv => True
  | .push => True
  | .wake _ => True
  | .flush => True
  | .execute => True
  | _ => False

section

variable {c : Conn F Q}

variable {held : List (ServerPush F)} {due : List UInt32}

theorem Fed.forget (h : Fed c held due) (hsubs : ∀ handle, c.subs.lookup handle = none) :
    Fed c [] [] := by
  induction held with
  | nil =>
    induction due with
    | nil => exact h
    | cons handle due ih => exact ih (h.skip (hsubs handle))
  | cons push held ih =>
    apply ih
    apply h.pop
    intro handle hlookup
    rw [hsubs handle] at hlookup
    cases hlookup

theorem Fed.wake (h : Fed c held due) {order : List UInt32} (horder : order.Perm c.subs.keys) :
    Fed { c with permit := false, task := .flushing order } held order := by
  refine ⟨h.recorded.of_same rfl rfl rfl fun _ _ hmem => hmem, h.known,
    fun p hp => (h.reaching p hp).of_same rfl rfl rfl, h.serials, h.sent, h.order, h.once, ?_, ?_⟩
  · intro handle sub hlookup serial event hpublished
    have hdone := h.accounted handle sub hlookup serial event hpublished
    exact hdone.imp_right fun hunder => hunder.mono (fun _ hp => hp) (fun _ hmem => hmem) rfl
  · intro handle sub hlookup _
    have hmem : handle ∈ c.subs := AList.lookup_isSome.mp (by rw [hlookup]; rfl)
    exact .inr (.inl (horder.mem_iff.mpr (AList.mem_keys.mp hmem)))

theorem Fed.run (h : Fed c held due) (reqId : UInt32) (query : Except String Q) :
    Fed (c.run reqId query) held due := by
  cases query with
  | ok query => exact h.of_same rfl rfl (fun _ hdue => hdue) fun _ _ hmem => hmem
  | error msg => exact h.write reqId rfl

theorem noticeAll_publishers (c : Conn F Q) : c.noticeAll.publishers = c.publishers := by
  unfold Conn.noticeAll
  generalize c.subs.entries = entries
  induction entries generalizing c with
  | nil => rfl
  | cons e entries ih =>
    rw [foldl_cons, ih]
    rfl

def Conn.IsFed (c : Conn F Q) : Prop := Fed c c.task.held c.task.due

theorem Conn.IsFed.of_task {c' : Conn F Q} (h : Fed c' held due) (hheld : c'.task.held = held)
    (hdue : c'.task.due = due) : c'.IsFed := by
  unfold IsFed
  rw [hheld, hdue]
  exact h

theorem Conn.IsFed.fed {task : Task F Q} (h : c.IsFed) (htask : c.task = task) :
    Fed c task.held task.due := htask ▸ h

theorem Fed.auth (h : Fed c held due) (server : AppState F Q) (reqId : UInt32)
    (payload : Option String) : Fed (c.auth server reqId payload) held due := by
  unfold Conn.auth
  extract_lets token principal
  have hfed : Fed { c with principal, bearer := token } held due :=
    h.of_same rfl rfl (fun _ hdue => hdue) fun _ _ hmem => hmem
  apply hfed.write reqId
  split_ifs
  · rfl
  · rfl

theorem Fed.prepare (h : Fed c held due) (server : AppState F Q) (reqId : UInt32)
    (payload : Except String String) : Fed (c.prepare server reqId payload) held due := by
  unfold Conn.prepare
  split
  · exact h.write reqId rfl
  · rename_i text query hprepared
    have hfed : Fed { c with
        prepared := (c.nextStmtId, query) :: c.prepared
        preparedBytes := c.preparedBytes + text.utf8ByteSize
        nextStmtId := c.nextStmtId + 1 } held due :=
      h.of_same rfl rfl (fun _ hdue => hdue) fun _ _ hmem => hmem
    exact hfed.write reqId rfl

end

section

variable [JsonNumber F] {server : AppState F Q} {c : Conn F Q}

theorem Fed.frameArm {held : List (ServerPush F)} {due : List UInt32} (h : Fed c held due)
    (server : AppState F Q) (reqId : UInt32) (frame : Frame) :
    Fed (c.frameArm server reqId frame) held due := by
  unfold Conn.frameArm
  split_ifs
  · exact h.write reqId rfl
  · cases frame with
    | ping => exact h.write reqId rfl
    | auth payload => exact h.auth server reqId payload
    | query payload => exact h.run reqId _
    | execute payload => exact h.run reqId _
    | unknown kind => exact h.write reqId rfl
    | prepare payload => exact h.prepare server reqId payload
    | vectorBatch ingested =>
      unfold Conn.serve Conn.vectorBatch
      dsimp only
      split_ifs
      · exact h.write reqId rfl
      · split
        · exact h.write reqId rfl
        · exact h.write reqId rfl
    | subscribe payload =>
      unfold Conn.serve Conn.subscribe
      dsimp only
      split
      · exact h.write reqId rfl
      · rename_i filter hfilter
        split_ifs with hidle
        · refine h.register (List.isEmpty_iff.mp hidle) ?_ filter
          unfold Conn.subscribeFilter at hfilter
          simp only [Fallible.bind_eq_ok, Fallible.require_eq_ok, Fallible.pure_eq_ok,
            exists_const] at hfilter
          obtain ⟨_, -, -, -, hfree, -⟩ := hfilter
          exact AList.lookup_eq_none.mpr hfree
        · exact h
    | unsubscribe payload =>
      unfold Conn.serve Conn.unsubscribe
      dsimp only
      split
      · exact h.write reqId rfl
      · split
        · exact h.write reqId rfl
        · rename_i sub hlookup
          split_ifs with hidle
          · exact (h.remove (List.isEmpty_iff.mp hidle) hlookup).write reqId rfl
          · exact h

theorem frameArm_task (c : Conn F Q) (server : AppState F Q) (hidle : c.task = .idle)
    (reqId : UInt32) (frame : Frame) :
    (c.frameArm server reqId frame).task.held = [] ∧
      (c.frameArm server reqId frame).task.due = [] := by
  have of_session : ∀ {c' : Conn F Q}, c'.session = c.session →
      c'.task.held = [] ∧ c'.task.due = [] := by
    intro c' hsame
    simp only [Conn.session, Prod.mk.injEq] at hsame
    rw [hsame.2.2.2.1, hidle]
    exact ⟨rfl, rfl⟩
  have of_run : ∀ query, (c.run reqId query).task.held = [] ∧ (c.run reqId query).task.due = [] := by
    intro query
    cases query with
    | ok query => exact ⟨rfl, rfl⟩
    | error msg => exact of_session rfl
  unfold Conn.frameArm
  split_ifs
  · exact of_session rfl
  · cases frame with
    | ping => exact of_session rfl
    | auth payload =>
      change c.task.held = [] ∧ c.task.due = []
      rw [hidle]
      exact ⟨rfl, rfl⟩
    | query payload => exact of_run _
    | prepare payload => exact of_session (c.session_prepare server reqId payload)
    | execute payload => exact of_run _
    | vectorBatch ingested => exact of_session (c.session_vectorBatch server reqId ingested)
    | subscribe payload => exact of_session (c.session_subscribe server reqId payload)
    | unsubscribe payload => exact of_session (c.session_unsubscribe reqId payload)
    | unknown kind => exact of_session rfl

theorem Conn.IsFed.step (h : c.IsFed) (a : Action F) (hown : c.Own server a) :
    (c.step server a).IsFed := by
  unfold Conn.step
  cases a with
  | clock now => exact Fed.of_same h rfl rfl (fun _ hdue => hdue) fun _ _ hmem => hmem
  | networkSubs n => exact Fed.of_same h rfl rfl (fun _ hdue => hdue) fun _ _ hmem => hmem
  | subscribeOther filter =>
    split_ifs
    · exact Fed.subscribeOther h filter
    · exact h
  | unsubscribeOther id =>
    split_ifs with hidle
    · exact Fed.unsubscribeOther h (List.isEmpty_iff.mp hidle) id
    · exact h
  | publish event => exact Fed.publish h event
  | deliver i =>
    have hsame := c.session_deliver i
    simp only [session, Prod.mk.injEq] at hsame
    exact .of_task (Fed.deliver h i) (by rw [hsame.2.2.2.1]) (by rw [hsame.2.2.2.1])
  | recv =>
    dsimp only
    split
    · rename_i push rest htask hbuffer
      have hfed := h.fed htask
      refine .of_task (hfed.of_same rfl ?_ (fun _ hdue => hdue) fun _ _ hmem => hmem) rfl rfl
      change [push] ++ rest = [] ++ c.buffer
      rw [hbuffer]
      rfl
    · exact h
  | push =>
    dsimp only
    split
    · rename_i push htask
      have hfed : Fed { c with task := .idle } [push] [] :=
        (h.fed htask).of_same rfl rfl (fun _ hdue => hdue) fun _ _ hmem => hmem
      have hsame := @pushArm_session F Q _ server { c with task := .idle } push
      simp only [session, Prod.mk.injEq] at hsame
      have harm := hfed.pushArm server fun hpushes => hown push (by rw [htask]; simp [Task.held]) hpushes
      exact .of_task harm (by rw [hsame.2.2.2.1]; rfl) (by rw [hsame.2.2.2.1]; rfl)
    · exact h
  | wake order =>
    dsimp only
    split
    · rename_i htask
      split_ifs with hwake
      · exact .of_task ((h.fed htask).wake hwake.2) rfl rfl
      · exact h
    · exact h
  | flush =>
    dsimp only
    split
    · rename_i htask
      exact .of_task ((h.fed htask).of_same rfl rfl (fun _ hdue => hdue) fun _ _ hmem => hmem) rfl rfl
    · rename_i handle handles htask
      have hfed : Fed { c with task := .flushing handles } [] (handle :: handles) :=
        (h.fed htask).of_same rfl rfl (fun _ hdue => hdue) fun _ _ hmem => hmem
      have hsame := session_flushOne { c with task := .flushing handles } handle
      simp only [session, Prod.mk.injEq] at hsame
      exact .of_task hfed.flushOne (by rw [hsame.2.2.2.1]; rfl) (by rw [hsame.2.2.2.1]; rfl)
    · exact h
  | frame reqId frame =>
    dsimp only
    split
    · rename_i htask
      obtain ⟨hheld, hdue⟩ := frameArm_task c server htask reqId frame
      exact .of_task ((h.fed htask).frameArm server reqId frame) hheld hdue
    · exact h
  | execute =>
    dsimp only
    split
    · rename_i reqId query principal htask
      have hfed : Fed ({ c with task := .idle }.used principal) [] [] :=
        (h.fed htask).of_same rfl rfl (fun _ hdue => hdue) fun _ _ hmem => hmem
      exact .of_task (hfed.write reqId rfl) rfl rfl
    · exact h
  | shutdown =>
    dsimp only
    split
    · rename_i htask
      split_ifs with hidle
      · refine .of_task ((h.fed htask).noticeAll.drop ?_) rfl rfl
        rw [noticeAll_publishers]
        exact List.isEmpty_iff.mp hidle
      · exact h
    · exact h
  | close =>
    split_ifs with hidle
    · have hfed : Fed c.drop c.task.held c.task.due := Fed.drop h (List.isEmpty_iff.mp hidle)
      exact .of_task (hfed.forget fun handle => AList.lookup_empty handle) rfl rfl
    · exact h

end

section

variable {c : Conn F Q} {p : Publisher F}

def Conn.queue (c : Conn F Q) :
    List (Publisher F) × List (ServerPush F) × Bool × AList fun _ : UInt32 => Nat :=
  (c.publishers, c.buffer, c.permit, c.subs)

theorem queue_swapLagged (c : Conn F Q) (handle : UInt32) (sub : Nat) :
    (c.swapLagged handle sub).queue = c.queue := by
  unfold Conn.swapLagged
  split_ifs
  · rfl
  · rfl

theorem queue_flushOne (c : Conn F Q) (handle : UInt32) : (c.flushOne handle).queue = c.queue := by
  unfold Conn.flushOne
  split
  · rfl
  · exact queue_swapLagged c handle _

theorem queue_pushArm [JsonNumber F] (c : Conn F Q) (server : AppState F Q) (push : ServerPush F) :
    (c.pushArm server push).queue = c.queue := by
  unfold Conn.pushArm
  split
  · rfl
  · rename_i sub hlookup
    split_ifs
    · unfold Conn.writeEventPush
      split_ifs
      · exact queue_swapLagged c push.reqId sub
      · exact queue_swapLagged c push.reqId sub
    · exact queue_swapLagged c push.reqId sub

def Stage.work (handles : Nat) : Stage → Nat
  | .sending => 1
  | .notifying _ => handles + 4
  | .flagging _ => handles + 5

def Publisher.work (handles : Nat) (p : Publisher F) : Nat :=
  (handles + 5) * p.rest.length + p.stage.work handles

def Task.work : Task F Q → Nat
  | .received _ => 1
  | .flushing handles => handles.length + 1
  | .running _ _ _ => 1
  | _ => 0

def Conn.work (c : Conn F Q) : Nat :=
  (c.publishers.map (Publisher.work c.subs.keys.length)).sum + 2 * c.buffer.length +
    (if c.permit then c.subs.keys.length + 2 else 0) + c.task.work

theorem Conn.work_eq (c : Conn F Q) {publishers : List (Publisher F)}
    {buffer : List (ServerPush F)} {permit : Bool} {subs : AList fun _ : UInt32 => Nat}
    {task : Task F Q} (hqueue : c.queue = (publishers, buffer, permit, subs))
    (htask : c.task = task) :
    c.work = (publishers.map (Publisher.work subs.keys.length)).sum + 2 * buffer.length +
      (if permit then subs.keys.length + 2 else 0) + task.work := by
  obtain ⟨rfl, rfl, rfl, rfl⟩ := hqueue
  rw [← htask]
  rfl

def Conn.permitWork (c : Conn F Q) : Nat := if c.permit then c.subs.keys.length + 2 else 0

theorem trySend_work (c : Conn F Q) (hstage : p.stage = .sending)
    {t : Subscription Sink} {rest : List (Subscription Sink)} (hrest : p.rest = t :: rest) :
    (c.trySend p t rest).2.work c.subs.keys.length + 2 * (c.trySend p t rest).1.buffer.length <
        p.work c.subs.keys.length + 2 * c.buffer.length ∧
      (c.trySend p t rest).1.permitWork = c.permitWork := by
  have hwork : p.work c.subs.keys.length =
      (c.subs.keys.length + 5) * rest.length + (c.subs.keys.length + 5) + 1 := by
    unfold Publisher.work
    rw [hrest, hstage, length_cons, Nat.mul_succ]
    rfl
  rw [hwork]
  unfold Conn.trySend Publisher.work
  split
  · refine ⟨?_, rfl⟩
    simp only [hstage, Stage.work]
    omega
  · split_ifs
    · refine ⟨?_, rfl⟩
      simp only [hstage, Stage.work, length_append, length_cons, length_nil]
      omega
    · refine ⟨?_, rfl⟩
      simp only [Stage.work, Conn.note]
      omega

theorem advance_work (c : Conn F Q) (p : Publisher F) :
    (c.advance p).2.elim 0 (Publisher.work c.subs.keys.length) +
        2 * (c.advance p).1.buffer.length + (c.advance p).1.permitWork <
      p.work c.subs.keys.length + 2 * c.buffer.length + c.permitWork := by
  unfold Conn.advance
  cases hstage : p.stage with
  | notifying sub =>
    simp only [elim_some, Publisher.work, Conn.permitWork, hstage, Stage.work, if_true]
    omega
  | flagging sub =>
    simp only [elim_some, Publisher.work, Conn.permitWork, hstage, Stage.work]
    omega
  | sending =>
    cases hrest : p.rest with
    | nil =>
      simp only [elim_none, Publisher.work, hstage, Stage.work]
      omega
    | cons t rest =>
      obtain ⟨hless, hpermit⟩ := trySend_work c hstage hrest
      dsimp only [elim_some]
      omega

theorem advance_subs (c : Conn F Q) (p : Publisher F) : (c.advance p).1.subs = c.subs := by
  unfold Conn.advance
  split
  · split
    · rfl
    · unfold Conn.trySend
      split
      · rfl
      · split_ifs
        · rfl
        · rfl
  · rfl
  · rfl

theorem deliver_work {rest : List (Publisher F)} (hp : c.publishers = p :: rest) :
    (c.deliver 0).work < c.work ∧ (c.deliver 0).subs = c.subs := by
  have hsubs := advance_subs c p
  have hsame := c.session_advance p
  simp only [Conn.session, Prod.mk.injEq] at hsame
  have hadvance := advance_work c p
  have hdeliver : c.deliver 0 =
      { (c.advance p).1 with publishers := (c.advance p).2.toList ++ rest } := by
    unfold Conn.deliver
    rw [hp]
    rfl
  have hsum : (((c.advance p).2.toList ++ rest).map (Publisher.work c.subs.keys.length)).sum =
      (c.advance p).2.elim 0 (Publisher.work c.subs.keys.length) +
        (rest.map (Publisher.work c.subs.keys.length)).sum := by
    rw [map_append, sum_append]
    cases (c.advance p).2 with
    | none => rfl
    | some q => rfl
  rw [hdeliver]
  refine ⟨?_, hsubs⟩
  unfold Conn.work
  dsimp only
  unfold Conn.permitWork at hadvance
  rw [hsubs] at hadvance ⊢
  rw [hsum, hsame.2.2.2.1, hp, map_cons, sum_cons]
  omega

theorem progress [JsonNumber F] (server : AppState F Q) (hopen : c.task ≠ .closed)
    (hquiet : ¬ c.Quiet) :
    ∃ a : Action F, a.Inner ∧ (c.step server a).work < c.work ∧
      (c.step server a).subs = c.subs ∧ (c.step server a).task ≠ .closed := by
  cases hp : c.publishers with
  | cons p rest =>
    obtain ⟨hwork, hsubs⟩ := deliver_work hp
    have hsame := c.session_deliver 0
    simp only [Conn.session, Prod.mk.injEq] at hsame
    refine ⟨.deliver 0, trivial, hwork, hsubs, ?_⟩
    change (c.deliver 0).task ≠ .closed
    rw [hsame.2.2.2.1]
    exact hopen
  | nil =>
    cases htask : c.task with
    | closed => exact absurd htask hopen
    | received push =>
      have hstep : c.step server .push = { c with task := .idle }.pushArm server push := by
        unfold Conn.step
        rw [htask]
      have hqueue := queue_pushArm { c with task := .idle } server push
      have hsame := @Conn.pushArm_session F Q _ server { c with task := .idle } push
      simp only [Conn.session, Prod.mk.injEq] at hsame
      refine ⟨.push, trivial, ?_, ?_, ?_⟩
      · rw [hstep, Conn.work_eq _ hqueue hsame.2.2.2.1, Conn.work_eq c rfl htask]
        exact Nat.lt_succ_self _
      · rw [hstep]
        exact congrArg (fun queue => queue.2.2.2) hqueue
      · rw [hstep, hsame.2.2.2.1]
        exact fun h => by cases h
    | flushing handles =>
      cases handles with
      | nil =>
        have hstep : c.step server .flush = { c with task := .idle } := by
          unfold Conn.step
          rw [htask]
        refine ⟨.flush, trivial, ?_, ?_, ?_⟩
        · rw [hstep, Conn.work_eq { c with task := .idle } rfl rfl, Conn.work_eq c rfl htask]
          exact Nat.lt_succ_self _
        · rw [hstep]
        · rw [hstep]
          exact fun h => by cases h
      | cons handle handles =>
        have hstep : c.step server .flush =
            { c with task := .flushing handles }.flushOne handle := by
          unfold Conn.step
          rw [htask]
        have hqueue := queue_flushOne { c with task := .flushing handles } handle
        have hsame := Conn.session_flushOne { c with task := .flushing handles } handle
        simp only [Conn.session, Prod.mk.injEq] at hsame
        refine ⟨.flush, trivial, ?_, ?_, ?_⟩
        · rw [hstep, Conn.work_eq _ hqueue hsame.2.2.2.1, Conn.work_eq c rfl htask]
          exact Nat.lt_succ_self _
        · rw [hstep]
          exact congrArg (fun queue => queue.2.2.2) hqueue
        · rw [hstep, hsame.2.2.2.1]
          exact fun h => by cases h
    | running reqId query principal =>
      have hstep : c.step server .execute =
          ({ c with task := .idle }.used principal).write reqId .result := by
        unfold Conn.step
        rw [htask]
      refine ⟨.execute, trivial, ?_, ?_, ?_⟩
      · rw [hstep, Conn.work_eq (Conn.write _ reqId .result) rfl rfl, Conn.work_eq c rfl htask]
        exact Nat.lt_succ_self _
      · rw [hstep]
        rfl
      · rw [hstep]
        exact fun h => by cases h
    | idle =>
      cases hbuffer : c.buffer with
      | cons push rest =>
        have hstep : c.step server .recv = { c with task := .received push, buffer := rest } := by
          unfold Conn.step
          rw [htask, hbuffer]
        refine ⟨.recv, trivial, ?_, ?_, ?_⟩
        · rw [hstep, Conn.work_eq { c with task := .received push, buffer := rest } rfl rfl,
            Conn.work_eq c rfl htask, hbuffer, length_cons]
          simp only [Task.work]
          omega
        · rw [hstep]
        · rw [hstep]
          exact fun h => by cases h
      | nil =>
        have hpermit : c.permit = true := by
          by_contra hpermit
          exact hquiet ⟨hp, hbuffer, Bool.not_eq_true _ ▸ hpermit, htask⟩
        have hstep : c.step server (.wake c.subs.keys) =
            { c with permit := false, task := .flushing c.subs.keys } := by
          unfold Conn.step
          rw [htask]
          exact if_pos ⟨hpermit, .refl _⟩
        refine ⟨.wake c.subs.keys, trivial, ?_, ?_, ?_⟩
        · rw [hstep, Conn.work_eq c rfl htask, hpermit,
            Conn.work_eq { c with permit := false, task := .flushing c.subs.keys } rfl rfl]
          simp only [Task.work, Bool.false_eq_true, if_false, if_true]
          omega
        · rw [hstep]
        · rw [hstep]
          exact fun h => by cases h

theorem settles [JsonNumber F] (server : AppState F Q) (c : Conn F Q) (hopen : c.task ≠ .closed) :
    ∃ as : List (Action F), (∀ a ∈ as, a.Inner) ∧ (exec (Conn.step server) c as).Quiet ∧
      (exec (Conn.step server) c as).subs = c.subs := by
  induction hwork : c.work using Nat.strong_induction_on generalizing c with
  | _ n ih =>
    by_cases hquiet : c.Quiet
    · exact ⟨[], nofun, hquiet, rfl⟩
    · obtain ⟨a, hinner, hless, hsubs, hopen'⟩ := progress server hopen hquiet
      rw [hwork] at hless
      obtain ⟨as, hall, hend, hend_subs⟩ := ih _ hless (c.step server a) hopen' rfl
      refine ⟨a :: as, forall_mem_cons.mpr ⟨hinner, hall⟩, hend, ?_⟩
      rw [exec_cons, hend_subs, hsubs]

end

theorem isFed_start (hub : Hub Sink) (networkSubs now : Nat) :
    (Conn.start hub networkSubs now : Conn F Q).IsFed := by
  have hother : ∀ s ∈ (hub.retain fun s => s.sink = .other).subscriptions, s.sink = .other :=
    fun s hs => of_decide_eq_true (mem_filter.mp hs).2
  constructor
  · refine ⟨fun _ => .inl rfl, ?_, fun _ _ => rfl, fun _ _ _ => nofun, fun _ _ => nofun,
      fun _ _ _ _ => nofun, ?_, fun _ _ => nofun⟩
    · intro s hs handle hsink
      rw [hother s hs] at hsink
      cases hsink
    · intro sub before serial event rest heq
      cases append_eq_nil_iff.mp heq.symm
      rename_i hnil
      cases hnil
  · intro handle sub
    change (∅ : AList fun _ : UInt32 => Nat).lookup handle = some sub ↔ _
    refine ⟨nofun, ?_⟩
    rintro ⟨s, hs, -, hsink⟩
    rw [hother s hs] at hsink
    cases hsink
  · exact nofun
  · exact nodup_nil
  · exact nofun
  · exact fun _ => .refl _
  · exact fun _ => nodup_nil
  · exact fun _ _ _ _ _ => nofun
  · exact fun _ _ _ => nofun

theorem Conn.IsFed.noGaps {c : Conn F Q} (h : c.IsFed) : Gapless c := by
  have hfed : Fed c c.task.held c.task.due := h
  constructor
  · exact hfed.recorded.framed
  · intro sub before serial event rest heq
    have hpublished := hfed.recorded.after sub before serial event rest heq
    rcases hfed.recorded.started sub with hempty | ⟨handle, filter, rest', hhead⟩
    · rw [hempty] at heq
      cases append_eq_nil_iff.mp heq.symm
      rename_i hnil
      cases hnil
    · have hmatches := hfed.recorded.matched sub handle filter rest' hhead serial event (by
        rw [heq]
        exact mem_append_left _ hpublished)
      cases before with
      | nil => cases hpublished
      | cons entry before =>
        rw [hhead, cons_append] at heq
        cases (List.cons.inj heq).1
        exact ⟨handle, filter, before, rfl, hmatches, hpublished⟩
  · intro sub
    have hsub := sublist_append_left (frames (c.history sub))
      (serialsOf (c.task.held ++ c.buffer) sub)
    exact ⟨hsub.trans (hfed.order sub), hfed.once sub⟩
  · intro hquiet handle sub hlookup serial event hpublished
    rcases hfed.accounted handle sub hlookup serial event hpublished with hdone | hunder
    · exact hdone
    · have hno : ∀ p, p ∉ c.publishers := by
        intro p hp
        rw [hquiet.publishers] at hp
        cases hp
      cases hunder with
      | publisher p hmem => exact absurd hmem (hno p)
      | flagging hdropped p hmem => exact absurd hmem (hno p)
      | pending push hmem =>
        rw [hquiet.task, hquiet.buffer] at hmem
        cases hmem
      | lagged hdropped hflagged =>
        rcases hfed.woken handle sub hlookup hflagged with hpermit | hdue | ⟨p, hp, -⟩
        · rw [hquiet.permit] at hpermit
          cases hpermit
        · rw [hquiet.task] at hdue
          cases hdue
        · exact absurd hp (hno p)

/-- On every run of a connection whose loop writes no push for another subscription than the one
whose sink sent it, the feeds have no silent gap and no foreign event. And left to itself, an open
connection comes to where every event is accounted for. -/
theorem gapless [JsonNumber F] (server : AppState F Q) (hub : Hub Sink) (networkSubs now : Nat)
    (as : List (Action F))
    (hown : Along (Conn.step server) (Conn.Own server) (Conn.start hub networkSubs now) as) :
    Gapless (exec (Conn.step server) (Conn.start hub networkSubs now) as) ∧
      ((exec (Conn.step server) (Conn.start hub networkSubs now) as).task ≠ .closed →
        ∃ bs : List (Action F), (∀ b ∈ bs, b.Inner) ∧
          (exec (Conn.step server) (Conn.start hub networkSubs now) (as ++ bs)).Quiet ∧
          (exec (Conn.step server) (Conn.start hub networkSubs now) (as ++ bs)).subs =
            (exec (Conn.step server) (Conn.start hub networkSubs now) as).subs) := by
  have hfed : (exec (Conn.step server) (Conn.start hub networkSubs now) as).IsFed :=
    exec_invariant (fun _ a h ha => h.step a ha) (isFed_start hub networkSubs now) hown
  refine ⟨hfed.noGaps, fun hopen => ?_⟩
  obtain ⟨bs, hinner, hquiet, hsubs⟩ := settles server _ hopen
  rw [← exec_append] at hquiet hsubs
  exact ⟨bs, hinner, hquiet, hsubs⟩

def openState : AppState ℤ Unit :=
  { rules := none
    principalSource := none
    crypto := hourCrypto
    parse := fun _ => .ok ()
    payloadLen := fun _ => 0 }

def postEvent : ChangeEvent ℤ :=
  { version := 1, kind := .create, typeName := "Post", objectId := 1, fields := none, origin := none }

def postRun : List (Action ℤ) :=
  [.frame 7 (.subscribe (.ok (.forType "Post"))), .publish postEvent, .deliver 0, .deliver 0]

def userEvent : ChangeEvent ℤ := { postEvent with typeName := "User" }

/-- One post more than the buffer takes, all read; and then the handle again, for users. -/
def overflowRun : List (Action ℤ) :=
  [.frame 7 (.subscribe (.ok (.forType "Post")))] ++
    (replicate 256 [.publish postEvent, .deliver 0, .deliver 0]).flatten ++
    [.publish postEvent, .deliver 0, .deliver 0, .deliver 0, .deliver 0] ++
    (replicate 256 [.recv, .push]).flatten ++
    [.frame 8 (.unsubscribe (.ok 7)), .frame 7 (.subscribe (.ok (.forType "User"))),
      .publish userEvent, .deliver 0, .deliver 0, .recv, .push]

theorem overflowRun_gapless :
    Gapless (exec (Conn.step openState) (Conn.start Hub.new 0 0) overflowRun) :=
  (gapless openState Hub.new 0 0 overflowRun (by decide +kernel)).1

def reusedRun : List (Action ℤ) :=
  postRun ++ [.frame 8 (.unsubscribe (.ok 7)), .frame 7 (.subscribe (.ok (.forType "User"))),
    .recv, .push]

theorem reusedRun_history :
    (exec (Conn.step openState) (Conn.start Hub.new 0 0) reusedRun).history 2 =
      [.subscribed 7 (.forType "User")] ++ .event 0 postEvent :: [] := rfl

/-- The post is pushed under the handle of the subscription to users. -/
theorem reused_foreign :
    ¬ Gapless (exec (Conn.step openState) (Conn.start Hub.new 0 0) reusedRun) := by
  intro h
  have hhistory := reusedRun_history
  obtain ⟨handle, filter, rest, hbefore, hmatches, -⟩ := h.genuine 2 _ 0 postEvent [] hhistory
  cases hbefore
  cases hmatches

end RhypeDb.Server
