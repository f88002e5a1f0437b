import RhypeDb.Basic.Run
import RhypeDb.Server.Connection

/-! Whose authority a connection uses. The principal is the one its last auth frame gave it, at the
time of that frame. Every later use is backed by the token exactly where the token's window covers
the time of the use. -/

namespace RhypeDb.Server

open Authz Jose List Option Run
open Wire (maxFramePayload)

variable {F Q : Type}

/-- The principal of a use is anonymous, or the token it was sent with is accepted at the time of
the use and gives it. -/
def Use.Backed (server : AppState F Q) (use : Use F) : Prop :=
  use.principal = .anonymous ∨
    ∃ source token v, server.principalSource = some source ∧ use.bearer = some token ∧
      verify server.crypto token source.jwks (source.policy use.now) = .ok v ∧
      use.principal = .fromVerified v

def InTime (server : AppState F Q) (bearer : Option String) (now : Nat) : Prop :=
  ∀ source ∈ server.principalSource, ∀ token ∈ bearer, ∀ v,
    authenticate server.crypto token source.jwks = .ok v →
      v.claims.InWindow source.leewaySecs now

theorem principal_cases (server : AppState F Q) (bearer : Option String) (now : Nat) :
    server.principal bearer now = .anonymous ∨
      ∃ source token v, server.principalSource = some source ∧ bearer = some token ∧
        verify server.crypto token source.jwks (source.policy now) = .ok v ∧
        server.principal bearer now = .fromVerified v := by
  unfold AppState.principal
  cases hsource : server.principalSource with
  | none => exact .inl rfl
  | some source =>
    rcases source.principalAt_cases server.crypto bearer now with h | ⟨token, v, hbearer, hv, h⟩
    · exact .inl h
    · exact .inr ⟨source, token, v, rfl, hbearer, hv, h⟩

theorem backed_iff {server : AppState F Q} {use : Use F} {then' : Nat}
    (h : use.principal = server.principal use.bearer then') :
    use.Backed server ↔
      use.principal.authenticated = false ∨ InTime server use.bearer use.now := by
  rcases principal_cases server use.bearer then' with hanon | ⟨source, token, v, hsource, hbearer,
    hv, hfrom⟩
  · have hprincipal := h.trans hanon
    constructor
    · intro _
      left
      rw [hprincipal]
      rfl
    · exact fun _ => .inl hprincipal
  · have hprincipal := h.trans hfrom
    have hauth : use.principal.authenticated = true := by
      rw [hprincipal]
      rfl
    have hagain := verify_again hv use.now
    constructor
    · rintro (hanon | ⟨source', token', w, hsource', hbearer', hw, -⟩)
      · rw [hanon] at hauth
        cases hauth
      · rw [hsource] at hsource'
        rw [hbearer] at hbearer'
        cases hsource'
        cases hbearer'
        right
        intro source' hsource' token' hbearer' v' hv'
        rw [hsource] at hsource'
        rw [hbearer] at hbearer'
        cases hsource'
        cases hbearer'
        rw [(verify_eq_ok.mp hv).1] at hv'
        cases hv'
        exact hagain.mp ⟨w, hw⟩
    · rintro (hanon | hin)
      · rw [hauth] at hanon
        cases hanon
      · right
        have hwindow := hin source hsource token hbearer v (verify_eq_ok.mp hv).1
        obtain ⟨w, hw⟩ := hagain.mpr hwindow
        have heq : w = v := by
          exact verify_unique hv hw
        rw [heq] at hw
        exact ⟨source, token, v, hsource, hbearer, hw, hprincipal⟩

namespace Conn

section

def session (c : Conn F Q) : Principal F × Option String × Nat × Task F Q × List (Use F) :=
  (c.principal, c.bearer, c.now, c.task, c.uses)

variable (c : Conn F Q)

@[simp] theorem session_swapLagged (handle : UInt32) (sub : Nat) :
    (c.swapLagged handle sub).session = c.session := by
  unfold swapLagged
  split_ifs
  · rfl
  · rfl

@[simp] theorem session_flushOne (handle : UInt32) : (c.flushOne handle).session = c.session := by
  unfold flushOne
  split
  · rfl
  · exact c.session_swapLagged handle _

@[simp] theorem session_noticeAll : c.noticeAll.session = c.session := by
  unfold noticeAll
  generalize c.subs.entries = entries
  induction entries generalizing c with
  | nil => rfl
  | cons e entries ih =>
    rw [foldl_cons, ih]
    rfl

theorem session_advance (p : Publisher F) : (c.advance p).1.session = c.session := by
  unfold advance
  split
  · split
    · rfl
    · unfold trySend
      split
      · rfl
      · split_ifs
        · rfl
        · rfl
  · rfl
  · rfl

theorem session_deliver (i : Nat) : (c.deliver i).session = c.session := by
  unfold deliver
  split
  · rfl
  · exact c.session_advance _

theorem session_unsubscribe (reqId : UInt32) (payload : Except String UInt32) :
    (c.unsubscribe reqId payload).session = c.session := by
  unfold unsubscribe
  split
  · rfl
  · split
    · rfl
    · split_ifs
      · rfl
      · rfl

theorem session_prepare (server : AppState F Q) (reqId : UInt32) (payload : Except String String) :
    (c.prepare server reqId payload).session = c.session := by
  unfold prepare
  split
  · rfl
  · rfl

theorem session_vectorBatch (server : AppState F Q) (reqId : UInt32) (ingested : Except String Unit) :
    (c.vectorBatch server reqId ingested).session = c.session := by
  unfold vectorBatch
  split_ifs
  · rfl
  · cases ingested with
    | error msg => rfl
    | ok _ => rfl

theorem run_uses (reqId : UInt32) (query : Except String Q) : (c.run reqId query).uses = c.uses := by
  cases query with
  | ok query => rfl
  | error msg => rfl

end

section

structure Authenticated (server : AppState F Q) (c : Conn F Q) : Prop where
  principal : ∃ then', c.principal = server.principal c.bearer then'
  running : ∀ reqId query principal, c.task = .running reqId query principal →
    principal = c.principal

variable {server : AppState F Q} {c : Conn F Q} {c' : Conn F Q}

theorem Authenticated.of_session (h : c.Authenticated server)
    (hsame : c'.session = c.session) : c'.Authenticated server := by
  simp only [session, Prod.mk.injEq] at hsame
  obtain ⟨hprincipal, hbearer, -, htask, -⟩ := hsame
  constructor
  · rw [hprincipal, hbearer]
    exact h.principal
  · intro reqId query principal hrun
    rw [hprincipal]
    rw [htask] at hrun
    exact h.running reqId query principal hrun

theorem Authenticated.of_task (h : c.Authenticated server)
    (hprincipal : c'.principal = c.principal) (hbearer : c'.bearer = c.bearer)
    (htask : ∀ reqId query principal, c'.task ≠ .running reqId query principal) :
    c'.Authenticated server := by
  constructor
  · rw [hprincipal, hbearer]
    exact h.principal
  · exact fun reqId query principal hrun => absurd hrun (htask reqId query principal)

theorem Authenticated.auth (server : AppState F Q) {c : Conn F Q} (hidle : c.task = .idle)
    (reqId : UInt32) (payload : Option String) :
    (c.auth server reqId payload).Authenticated server := by
  constructor
  · exact ⟨c.now, rfl⟩
  · intro reqId' query principal hrun
    change c.task = _ at hrun
    rw [hidle] at hrun
    cases hrun

theorem Authenticated.run (h : c.Authenticated server) (reqId : UInt32) (query : Except String Q) :
    (c.run reqId query).Authenticated server := by
  cases query with
  | error msg => exact h.of_session rfl
  | ok query =>
    constructor
    · exact h.principal
    · intro reqId' query' principal hrun
      cases hrun
      rfl

theorem Authenticated.start (server : AppState F Q) (hub : Hub Sink) (networkSubs now : Nat) :
    (start hub networkSubs now : Conn F Q).Authenticated server := by
  constructor
  · refine ⟨now, ?_⟩
    change Principal.anonymous = server.principal none now
    unfold AppState.principal
    cases server.principalSource with
    | none => rfl
    | some source => rfl
  · exact fun _ _ _ => nofun

end

variable [JsonNumber F] (server : AppState F Q) (c : Conn F Q)

theorem session_subscribe (handle : UInt32) (payload : Except String SubscriptionFilter) :
    (c.subscribe server handle payload).session = c.session := by
  unfold subscribe
  split
  · rfl
  · split_ifs
    · rfl
    · rfl

def usedBy : Action F → Option (Principal F)
  | .execute =>
    match c.task with
    | .running _ _ principal => some principal
    | _ => none
  | .push =>
    match c.task with
    | .received push => if c.pushes server push then some c.principal else none
    | _ => none
  | _ => none

def usesOf (a : Action F) : List (Use F) :=
  (c.usedBy server a).toList.map fun principal => { principal, bearer := c.bearer, now := c.now }

def Current (a : Action F) : Prop :=
  ∀ principal ∈ c.usedBy server a,
    principal.authenticated = false ∨ InTime server c.bearer c.now

variable {server c}

theorem pushArm_session (push : ServerPush F) :
    (c.pushArm server push).session =
      (c.principal, c.bearer, c.now, c.task,
        c.uses ++ if c.pushes server push then [⟨c.principal, c.bearer, c.now⟩] else []) := by
  unfold pushArm pushes
  cases hlookup : c.subs.lookup push.reqId with
  | none =>
    simp only [isSome_none, Bool.false_and, Bool.false_eq_true, if_false, append_nil]
    rfl
  | some sub =>
    have hswap := c.session_swapLagged push.reqId sub
    simp only [session, Prod.mk.injEq] at hswap
    obtain ⟨hprincipal, hbearer, hnow, htask, huses⟩ := hswap
    dsimp only
    by_cases hpermits : server.permits c.principal push.event = true
    · rw [if_pos hpermits, hpermits]
      unfold writeEventPush
      by_cases hsize : maxFramePayload < server.payloadLen push.event
      · simp only [hsize, decide_true, Bool.not_true, Bool.and_false,
          Bool.false_eq_true, if_false, append_nil]
        exact c.session_swapLagged push.reqId sub
      · rw [if_neg hsize, decide_eq_false hsize]
        simp only [session, used, note, write, hprincipal, hbearer, hnow, htask, huses,
          isSome_some, Bool.not_false, Bool.and_true, if_true]
    · rw [Bool.not_eq_true] at hpermits
      rw [hpermits, if_neg Bool.false_ne_true]
      simp only [Bool.and_false, Bool.false_and, Bool.false_eq_true, if_false, append_nil]
      exact c.session_swapLagged push.reqId sub

theorem frameArm_uses (reqId : UInt32) (frame : Frame) :
    (c.frameArm server reqId frame).uses = c.uses := by
  have of_session : ∀ {c' : Conn F Q}, c'.session = c.session → c'.uses = c.uses := by
    intro c' h
    simp only [session, Prod.mk.injEq] at h
    exact h.2.2.2.2
  unfold frameArm
  split_ifs
  · rfl
  · cases frame with
    | ping => rfl
    | auth payload => rfl
    | query payload => exact c.run_uses reqId _
    | prepare payload => exact of_session (c.session_prepare server reqId payload)
    | execute payload => exact c.run_uses reqId _
    | vectorBatch ingested => exact of_session (c.session_vectorBatch server reqId ingested)
    | subscribe payload => exact of_session (c.session_subscribe server reqId payload)
    | unsubscribe payload => exact of_session (c.session_unsubscribe reqId payload)
    | unknown kind => rfl

theorem Authenticated.frameArm (h : c.Authenticated server) (hidle : c.task = .idle)
    (reqId : UInt32) (frame : Frame) : (c.frameArm server reqId frame).Authenticated server := by
  unfold Conn.frameArm
  split_ifs
  · exact h.of_session rfl
  · cases frame with
    | ping => exact h.of_session rfl
    | auth payload => exact .auth server hidle reqId payload
    | query payload => exact h.run reqId _
    | prepare payload => exact h.of_session (c.session_prepare server reqId payload)
    | execute payload => exact h.run reqId _
    | vectorBatch ingested => exact h.of_session (c.session_vectorBatch server reqId ingested)
    | subscribe payload => exact h.of_session (c.session_subscribe server reqId payload)
    | unsubscribe payload => exact h.of_session (c.session_unsubscribe reqId payload)
    | unknown kind => exact h.of_session rfl

theorem Authenticated.step (h : c.Authenticated server) (a : Action F) :
    (c.step server a).Authenticated server := by
  unfold Conn.step
  cases a with
  | clock now => exact ⟨h.principal, h.running⟩
  | networkSubs n => exact h.of_session rfl
  | subscribeOther filter =>
    split_ifs
    · exact h.of_session rfl
    · exact h
  | unsubscribeOther id =>
    split_ifs
    · exact h.of_session rfl
    · exact h
  | publish event => exact h.of_session rfl
  | deliver i => exact h.of_session (c.session_deliver i)
  | recv =>
    dsimp only
    split
    · exact h.of_task rfl rfl fun _ _ _ => nofun
    · exact h
  | push =>
    dsimp only
    split
    · rename_i push htask
      have hpush := @pushArm_session F Q _ server { c with task := .idle } push
      simp only [session, Prod.mk.injEq] at hpush
      obtain ⟨hprincipal, hbearer, -, htask', -⟩ := hpush
      apply h.of_task hprincipal hbearer
      intro reqId query principal
      rw [htask']
      exact nofun
    · exact h
  | wake order =>
    dsimp only
    split
    · split_ifs
      · exact h.of_task rfl rfl fun _ _ _ => nofun
      · exact h
    · exact h
  | flush =>
    dsimp only
    split
    · exact h.of_task rfl rfl fun _ _ _ => nofun
    · rename_i handle handles htask
      have hflush := session_flushOne { c with task := .flushing handles } handle
      simp only [session, Prod.mk.injEq] at hflush
      obtain ⟨hprincipal, hbearer, -, htask', -⟩ := hflush
      apply h.of_task hprincipal hbearer
      intro reqId query principal
      rw [htask']
      exact nofun
    · exact h
  | frame reqId frame =>
    dsimp only
    split
    · rename_i htask
      exact h.frameArm htask reqId frame
    · exact h
  | execute =>
    dsimp only
    split
    · exact h.of_task rfl rfl fun _ _ _ => nofun
    · exact h
  | shutdown =>
    dsimp only
    split
    · split_ifs
      · have hnotice := c.session_noticeAll
        simp only [session, Prod.mk.injEq] at hnotice
        exact h.of_task hnotice.1 hnotice.2.1 fun _ _ _ => nofun
      · exact h
    · exact h
  | close =>
    split_ifs
    · exact h.of_task rfl rfl fun _ _ _ => nofun
    · exact h

theorem step_push_uses : (c.step server .push).uses = c.uses ++ c.usesOf server .push := by
  unfold usesOf step usedBy
  cases htask : c.task with
  | received push =>
    have hpush := @pushArm_session F Q _ server { c with task := .idle } push
    simp only [session, Prod.mk.injEq] at hpush
    dsimp only
    rw [hpush.2.2.2.2]
    change c.uses ++ (if c.pushes server push = true then _ else _) = _
    by_cases hpushes : c.pushes server push = true
    · rw [if_pos hpushes, if_pos hpushes]
      rfl
    · rw [if_neg hpushes, if_neg hpushes]
      rfl
  | _ => exact (append_nil _).symm

theorem step_execute_uses : (c.step server .execute).uses = c.uses ++ c.usesOf server .execute := by
  unfold usesOf step usedBy
  cases c.task with
  | running reqId query principal => rfl
  | _ => exact (append_nil _).symm

theorem step_uses (a : Action F) : (c.step server a).uses = c.uses ++ c.usesOf server a := by
  cases a with
  | clock now => exact (append_nil _).symm
  | networkSubs n => exact (append_nil _).symm
  | subscribeOther filter =>
    unfold step
    split_ifs
    · exact (append_nil _).symm
    · exact (append_nil _).symm
  | unsubscribeOther id =>
    unfold step
    split_ifs
    · exact (append_nil _).symm
    · exact (append_nil _).symm
  | publish event => exact (append_nil _).symm
  | deliver i =>
    have h := c.session_deliver i
    simp only [session, Prod.mk.injEq] at h
    exact h.2.2.2.2.trans (append_nil _).symm
  | recv =>
    unfold step
    dsimp only
    split
    · exact (append_nil _).symm
    · exact (append_nil _).symm
  | push => exact step_push_uses
  | wake order =>
    unfold step
    dsimp only
    split
    · split_ifs
      · exact (append_nil _).symm
      · exact (append_nil _).symm
    · exact (append_nil _).symm
  | flush =>
    unfold step
    dsimp only
    split
    · exact (append_nil _).symm
    · rename_i handle handles htask
      have hflush := session_flushOne { c with task := .flushing handles } handle
      simp only [session, Prod.mk.injEq] at hflush
      exact hflush.2.2.2.2.trans (append_nil _).symm
    · exact (append_nil _).symm
  | frame reqId frame =>
    unfold step
    dsimp only
    split
    · exact (frameArm_uses reqId frame).trans (append_nil _).symm
    · exact (append_nil _).symm
  | execute => exact step_execute_uses
  | shutdown =>
    unfold step
    dsimp only
    split
    · split_ifs
      · have hnotice := c.session_noticeAll
        simp only [session, Prod.mk.injEq] at hnotice
        exact hnotice.2.2.2.2.trans (append_nil _).symm
      · exact (append_nil _).symm
    · exact (append_nil _).symm
  | close =>
    unfold step
    split_ifs
    · exact (append_nil _).symm
    · exact (append_nil _).symm

theorem usedBy_eq_principal (h : c.Authenticated server) {a : Action F} {principal : Principal F}
    (hused : principal ∈ c.usedBy server a) : principal = c.principal := by
  unfold usedBy at hused
  split at hused
  · split at hused
    · rename_i reqId query principal' htask
      cases hused
      exact h.running reqId query principal htask
    · cases hused
  · split at hused
    · split_ifs at hused
      · cases hused
        rfl
      · cases hused
    · cases hused
  · cases hused

theorem current_iff (h : c.Authenticated server) (a : Action F) :
    c.Current server a ↔ ∀ use ∈ c.usesOf server a, use.Backed server := by
  obtain ⟨then', hthen⟩ := h.principal
  constructor
  · intro hcurrent use huse
    obtain ⟨principal, hused, rfl⟩ := List.mem_map.mp huse
    rw [mem_toList] at hused
    have heq := usedBy_eq_principal h hused
    exact (backed_iff (heq.trans hthen)).mpr (hcurrent principal hused)
  · intro hbacked principal hused
    have heq := usedBy_eq_principal h hused
    have huse := hbacked _ (List.mem_map.mpr ⟨principal, mem_toList.mpr hused, rfl⟩)
    exact (backed_iff (heq.trans hthen)).mp huse

theorem uses_backed_iff (h : c.Authenticated server) (as : List (Action F)) :
    (∀ use ∈ (exec (step server) c as).uses, use.Backed server) ↔
      (∀ use ∈ c.uses, use.Backed server) ∧ Along (step server) (Current server) c as := by
  induction as generalizing c with
  | nil => exact (and_iff_left trivial).symm
  | cons a as ih =>
    rw [exec_cons, ih (h.step a), Along, current_iff h a, step_uses]
    simp only [forall_mem_append, and_assoc]

end Conn

/-- Over every run of a connection: each query that executes and each event that is pushed has an
authority that holds at that time, exactly when every such step is taken as no one or in the
window of the token of the last auth frame. -/
theorem authority_iff [JsonNumber F] (server : AppState F Q) (hub : Hub Sink) (networkSubs now : Nat)
    (as : List (Action F)) :
    (∀ use ∈ (exec (Conn.step server) (Conn.start hub networkSubs now) as).uses,
        use.Backed server) ↔
      Along (Conn.step server) (Conn.Current server) (Conn.start hub networkSubs now) as := by
  rw [Conn.uses_backed_iff (Conn.Authenticated.start server hub networkSubs now) as]
  exact and_iff_right nofun

def hourClaims : Claims ℤ :=
  { iss := "auth", sub := "u1", aud := "proj", iat := 1000, exp := 4600, jti := "j", claims := none }

/-- A token of three texts as base64url decodes them, and a key of 32 zero bytes. -/
def hourCrypto : Crypto ℤ :=
  { Key := Unit
    Sig := Unit
    decode := fun s =>
      if s = "AQ" then some [1]
      else if s = "Ag" then some [2]
      else if s = "Aw" then some [3]
      else if s = "AAAAAAAAAAAAAAAAAAAAAAAAAAAAAAAAAAAAAAAAAAA" then some (List.replicate 32 0)
      else none
    headerFromSlice := fun raw =>
      if raw = [1] then some { alg := algEddsa, typ := "JWT", kid := "proj.1" } else none
    claimsFromSlice := fun raw => if raw = [2] then some hourClaims else none
    keyFromBytes := fun raw => if raw = List.replicate 32 0 then some () else none
    sigFromSlice := fun raw => if raw = [3] then some () else none
    verifyStrict := fun _ input _ => input = "AQ.Ag" }

def hourSource : JwtSource :=
  { jwks := { keys := [{ kty := "OKP", crv := "Ed25519", use := "sig", alg := algEddsa,
                         kid := "proj.1", x := "AAAAAAAAAAAAAAAAAAAAAAAAAAAAAAAAAAAAAAAAAAA" }] }
    leewaySecs := 60
    expectedIss := none
    expectedAud := none }

def hourState : AppState ℤ Unit :=
  { rules := some { types := ∅ }
    principalSource := some hourSource
    crypto := hourCrypto
    parse := fun _ => .ok ()
    payloadLen := fun _ => 0 }

def expiredRun : List (Action ℤ) :=
  [.frame 1 (.auth (some "AQ.Ag.Aw")), .clock 5000, .frame 2 (.query (.ok "Doc.get(1)")), .execute]

theorem expired_verify :
    verify hourCrypto "AQ.Ag.Aw" hourSource.jwks (hourSource.policy 5000) = .error .expired := rfl

/-- The query executes as `u1` after the token's hour and the leeway are over. -/
theorem expired_query_executes :
    ¬ ∀ use ∈ (exec (Conn.step hourState) (Conn.start Hub.new 0 1000) expiredRun).uses,
      use.Backed hourState := by
  intro h
  rcases h _ mem_cons_self with hanon | ⟨source, token, v, hsource, hbearer, hv, -⟩
  · have hauth := congrArg Principal.authenticated hanon
    cases hauth
  · cases hsource
    cases hbearer
    have hexpired := expired_verify.symm.trans hv
    cases hexpired

end RhypeDb.Server
