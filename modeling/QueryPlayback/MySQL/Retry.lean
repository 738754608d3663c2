import QueryPlayback.MySQL.Protocol

/-!
# Retrying a connection

`connect` is meant to attempt again while the server has too many connections.
The loop goes on only if `usleep` returns something other than zero, so with a
`usleep` that sleeps and returns zero there is exactly one attempt.
-/

namespace QueryPlayback

open MySQL Interruptible

namespace MySQL

/-- The attempt has failed because the user has too many connections. -/
def ConnectReply.tooManyConnections : ConnectReply → Bool
  | accepted => false
  | refused errno .. => decide (errno = 1203)

/-- The outcomes of the attempts among the calls that follow the first `made` ones. -/
def Server.connectReplies (server : Server) : (made : ℕ) → List Call → List ConnectReply
  | _, [] => []
  | made, c :: calls =>
      if c.isRealConnect then server.connect made :: server.connectReplies (made + 1) calls
      else server.connectReplies (made + 1) calls

end MySQL

namespace MySQLDBThread

/-- Attempts up to the first success, the first other error or the bound. -/
structure KeepsAttempting (bound : ℕ) (replies : List ConnectReply) : Prop where
  attempted : replies ≠ []
  bounded : replies.length ≤ bound
  retried : ∀ reply ∈ replies.dropLast, reply.tooManyConnections = true
  stopped : replies.length = bound ∨
    ∀ reply, replies.getLast? = some reply → reply.tooManyConnections = false

/-- `connect` makes its attempts and reports the last one. -/
def ConnectRetries (env : Env) (s : MySQLDBThread) : Prop :=
  ∃ connected s' calls, connect env s = .done connected s' ∧ s'.trace = s.trace ++ calls ∧
    KeepsAttempting (max 1 env.options.maxRetries.toNat)
      (env.server.connectReplies s.trace.length calls) ∧
    (connected = true ↔
      (env.server.connectReplies s.trace.length calls).getLast? = some .accepted) ∧
    s'.haveConnected = connected

variable {env : Env}

/-- One attempt, and what the loop learns from it. -/
theorem tryConnect_reply (s : MySQLDBThread) {reply : ConnectReply}
    (hreply : env.server.connect (s.trace.length + 1) = reply) :
    ∃ s', tryConnect env s = .done reply.tooManyConnections s' ∧
      s'.trace = s.trace ++
        [.init, .realConnect env.options.connectArguments reply.succeeded] ∧
      (s'.handle.error = [] ↔ reply = .accepted) := by
  let s₁ : MySQLDBThread := { s with handle := ⟨.idle, 0, []⟩, trace := s.trace ++ [.init] }
  have hconnect : realConnect env.server env.options.connectArguments s₁ =
      .done reply.succeeded
        { s₁ with
          handle := s₁.handle.connect reply
          trace := s₁.trace ++ [.realConnect env.options.connectArguments reply.succeeded] } := by
    have hlength : s₁.trace.length = s.trace.length + 1 := List.length_append
    rw [← hreply, ← hlength]
    rfl
  have htry : tryConnect env s = _ := bind_done (show init s = .done () s₁ from rfl) _
  rw [htry, bind_done hconnect]
  cases reply with
  | accepted => exact ⟨_, rfl, by simp [s₁], by simp [Handle.connect]⟩
  | refused errno error nonempty =>
      exact ⟨_, rfl, by simp [s₁], by simp [s₁, Handle.connect, nonempty]⟩

theorem connectReplies_append (server : Server) (made : ℕ) (xs ys : List Call) :
    server.connectReplies made (xs ++ ys) =
      server.connectReplies made xs ++ server.connectReplies (made + xs.length) ys := by
  induction xs generalizing made with
  | nil => rfl
  | cons c xs ih =>
      have hmade : made + (xs.length + 1) = made + 1 + xs.length := by omega
      simp only [List.cons_append, Server.connectReplies, ih, List.length_cons, hmade]
      split <;> rfl

/-- The calls of one attempt. -/
theorem connectReplies_attempt (server : Server) (made : ℕ) (arguments : ConnectArguments)
    (succeeded : Bool) :
    server.connectReplies made [.init, .realConnect arguments succeeded] =
      [server.connect (made + 1)] := rfl

/-- A single attempt is as many as promised if nothing has to be retried. -/
theorem keepsAttempting_singleton {bound : ℕ} (hbound : 1 ≤ bound) (reply : ConnectReply) :
    KeepsAttempting bound [reply] ↔ bound = 1 ∨ reply.tooManyConnections = false := by
  constructor
  · intro h
    apply h.stopped.imp
    · intro hlength
      simpa using hlength.symm
    · intro hlast
      exact hlast reply rfl
  · intro h
    refine ⟨by simp, by simpa using hbound, by simp, ?_⟩
    apply h.imp
    · intro hone
      simpa using hone.symm
    · intro hlast reply' hreply'
      obtain rfl : reply = reply' := by simpa using hreply'
      exact hlast

/-- One more attempt in front that has to be retried. -/
theorem KeepsAttempting.cons {bound : ℕ} {reply : ConnectReply} {replies : List ConnectReply}
    (h : KeepsAttempting bound replies) (htoo : reply.tooManyConnections = true) :
    KeepsAttempting (bound + 1) (reply :: replies) where
  attempted := List.cons_ne_nil _ _
  bounded := Nat.succ_le_succ h.bounded
  retried := by
    rw [List.dropLast_cons_of_ne_nil h.attempted]
    exact List.forall_mem_cons.mpr ⟨htoo, h.retried⟩
  stopped := by
    apply h.stopped.imp
    · intro hlength
      simp [hlength]
    · intro hlast last hmem
      rw [List.getLast?_cons_of_ne_nil h.attempted] at hmem
      exact hlast last hmem

/-- The loop leaves the outcome of its last attempt in the handle. -/
structure Attempted (env : Env) (s s' : MySQLDBThread) (replies : List ConnectReply) : Prop where
  made : ∃ calls, s'.trace = s.trace ++ calls ∧
    env.server.connectReplies s.trace.length calls = replies
  reported : s'.handle.error = [] ↔ replies.getLast? = some .accepted

/-- The pause between two attempts is no attempt. -/
theorem Attempted.pause {s s₁ : MySQLDBThread} {replies : List ConnectReply}
    (h : Attempted env s s₁ replies) (useconds : UInt32) :
    ∃ s₂, usleep env.server useconds s₁ = .done (env.server.usleep s₁.trace.length) s₂ ∧
      Attempted env s s₂ replies := by
  obtain ⟨calls, htrace, hreplies⟩ := h.made
  refine ⟨_, rfl, ⟨⟨calls ++ [.usleep useconds], ?_, ?_⟩, h.reported⟩⟩
  · simp [htrace]
  · rw [connectReplies_append, hreplies]
    exact List.append_nil replies

/-- The attempts of a loop that goes on are followed by those of the rest. -/
theorem Attempted.append {s s₁ s₂ : MySQLDBThread} {replies replies' : List ConnectReply}
    (h : Attempted env s s₁ replies) (h' : Attempted env s₁ s₂ replies') (hne : replies' ≠ []) :
    Attempted env s s₂ (replies ++ replies') := by
  obtain ⟨calls, htrace, hreplies⟩ := h.made
  obtain ⟨calls', htrace', hreplies'⟩ := h'.made
  constructor
  · refine ⟨calls ++ calls', by simp [htrace', htrace], ?_⟩
    rw [connectReplies_append, hreplies, ← List.length_append, ← htrace, hreplies']
  · rw [List.getLast?_append_of_ne_nil replies hne]
    exact h'.reported

theorem tryConnect_attempted (s : MySQLDBThread) :
    ∃ s₁, tryConnect env s =
        .done (env.server.connect (s.trace.length + 1)).tooManyConnections s₁ ∧
      Attempted env s s₁ [env.server.connect (s.trace.length + 1)] := by
  obtain ⟨s₁, htry, htrace, herror⟩ := @tryConnect_reply env s _ rfl
  refine ⟨s₁, htry, ⟨_, htrace, connectReplies_attempt ..⟩, ?_⟩
  simpa using herror

/-- With a `usleep` that returns zero the loop ends behind its first attempt. -/
theorem connectLoop_of_usleep_eq_zero (hsleep : ∀ n, env.server.usleep n = 0)
    (left numTries : ℕ) (s : MySQLDBThread) :
    ∃ s', connectLoop env left numTries s = .done () s' ∧
      Attempted env s s' [env.server.connect (s.trace.length + 1)] := by
  obtain ⟨s₁, htry, hfirst⟩ := @tryConnect_attempted env s
  cases left with
  | zero => exact ⟨s₁, bind_done htry _, hfirst⟩
  | succ left =>
      rw [connectLoop, bind_done htry]
      cases (env.server.connect (s.trace.length + 1)).tooManyConnections with
      | false => exact ⟨s₁, rfl, hfirst⟩
      | true =>
          obtain ⟨s₂, hpause, hpaused⟩ := hfirst.pause (UInt32.ofNat (1000000 * numTries))
          rw [hsleep] at hpause
          exact ⟨s₂, bind_done hpause _, hpaused⟩

/-- With a `usleep` that returns something else the loop goes on as it should. -/
theorem connectLoop_of_usleep_ne_zero (hsleep : ∀ n, env.server.usleep n ≠ 0)
    (left numTries : ℕ) (s : MySQLDBThread) :
    ∃ s' replies, connectLoop env left numTries s = .done () s' ∧
      Attempted env s s' replies ∧ KeepsAttempting (left + 1) replies := by
  induction left generalizing numTries s with
  | zero =>
      obtain ⟨s₁, htry, hfirst⟩ := @tryConnect_attempted env s
      refine ⟨s₁, _, bind_done htry _, hfirst, ?_⟩
      exact (keepsAttempting_singleton (Nat.le_refl 1) _).mpr (Or.inl rfl)
  | succ left ih =>
      obtain ⟨s₁, htry, hfirst⟩ := @tryConnect_attempted env s
      rw [connectLoop, bind_done htry]
      cases htoo : (env.server.connect (s.trace.length + 1)).tooManyConnections with
      | false =>
          refine ⟨s₁, _, rfl, hfirst, ?_⟩
          exact (keepsAttempting_singleton (Nat.succ_pos _) _).mpr (Or.inr htoo)
      | true =>
          obtain ⟨s₂, hpause, hpaused⟩ := hfirst.pause (UInt32.ofNat (1000000 * numTries))
          obtain ⟨s', replies, hloop, hrest, hkeeps⟩ := ih (numTries + 1) s₂
          refine ⟨s', _, ?_, hpaused.append hrest hkeeps.attempted, hkeeps.cons htoo⟩
          refine (bind_done hpause _).trans ?_
          rw [if_pos (hsleep _)]
          exact hloop

/-- What `connect` makes of the outcome its loop has left in the handle. -/
theorem connect_of_loop {s s₁ : MySQLDBThread} {replies : List ConnectReply}
    (hloop : connectLoop env (env.options.maxRetries.toNat - 1) 1 s = .done () s₁)
    (h : Attempted env s s₁ replies) :
    ∃ connected s', connect env s = .done connected s' ∧ s'.trace = s₁.trace ∧
      (connected = true ↔ replies.getLast? = some .accepted) ∧ s'.haveConnected = connected := by
  have hread : (gets (·.handle.error) : Client Bytes) s₁ = .done s₁.handle.error s₁ := rfl
  rw [connect, bind_done hloop, bind_done hread]
  by_cases herror : s₁.handle.error = []
  · rw [if_neg (not_not_intro herror)]
    exact ⟨true, _, rfl, rfl, by simp [h.reported.mp herror], rfl⟩
  · rw [if_pos herror]
    have hlast : replies.getLast? ≠ some .accepted := fun hlast => herror (h.reported.mpr hlast)
    exact ⟨false, _, rfl, rfl, by simp [hlast], rfl⟩

/-- The retry is right but for the value that `usleep` returns. -/
theorem connect_retries_of_usleep_ne_zero (env : Env) (hsleep : ∀ n, env.server.usleep n ≠ 0)
    (s : MySQLDBThread) : ConnectRetries env s := by
  obtain ⟨s₁, replies, hloop, hattempted, hkeeps⟩ :=
    connectLoop_of_usleep_ne_zero hsleep (env.options.maxRetries.toNat - 1) 1 s
  obtain ⟨connected, s', hconnect, htrace, hreported, hflag⟩ := connect_of_loop hloop hattempted
  obtain ⟨calls, hcalls, rfl⟩ := hattempted.made
  have hbound : env.options.maxRetries.toNat - 1 + 1 = max 1 env.options.maxRetries.toNat := by
    omega
  rw [hbound] at hkeeps
  exact ⟨connected, s', calls, hconnect, htrace.trans hcalls, hkeeps, hreported, hflag⟩

/-- With a `usleep` that returns zero there is one attempt, however many there should be. -/
theorem connectRetries_iff_keepsAttempting (hsleep : ∀ n, env.server.usleep n = 0)
    (s : MySQLDBThread) :
    ConnectRetries env s ↔ KeepsAttempting (max 1 env.options.maxRetries.toNat)
      [env.server.connect (s.trace.length + 1)] := by
  obtain ⟨s₁, hloop, hattempted⟩ :=
    connectLoop_of_usleep_eq_zero hsleep (env.options.maxRetries.toNat - 1) 1 s
  obtain ⟨connected, s', hconnect, htrace, hreported, hflag⟩ := connect_of_loop hloop hattempted
  obtain ⟨calls, hcalls, hreplies⟩ := hattempted.made
  constructor
  · rintro ⟨connected', s'', calls', hconnect', htrace', hkeeps, -⟩
    rw [hconnect] at hconnect'
    cases hconnect'
    have hsame : calls' = calls := by
      rw [htrace, hcalls] at htrace'
      exact (List.append_cancel_left htrace').symm
    rwa [hsame, hreplies] at hkeeps
  · intro hkeeps
    refine ⟨connected, s', calls, hconnect, htrace.trans hcalls, ?_, ?_, hflag⟩
    · rwa [hreplies]
    · rwa [hreplies]

/-- `connect` retries as it should only where there is nothing to retry. -/
theorem connect_retries_iff (env : Env) (hsleep : ∀ n, env.server.usleep n = 0)
    (s : MySQLDBThread) :
    ConnectRetries env s ↔
      (env.server.connect (s.trace.length + 1)).tooManyConnections = false ∨
        env.options.maxRetries ≤ 1 := by
  have hbound : max 1 env.options.maxRetries.toNat = 1 ↔ env.options.maxRetries ≤ 1 := by
    rw [UInt32.le_iff_toNat_le, show (1 : UInt32).toNat = 1 from rfl]
    omega
  calc ConnectRetries env s
      ↔ KeepsAttempting (max 1 env.options.maxRetries.toNat)
          [env.server.connect (s.trace.length + 1)] :=
        connectRetries_iff_keepsAttempting hsleep s
    _ ↔ max 1 env.options.maxRetries.toNat = 1 ∨
          (env.server.connect (s.trace.length + 1)).tooManyConnections = false :=
        keepsAttempting_singleton (Nat.le_max_left 1 _) _
    _ ↔ (env.server.connect (s.trace.length + 1)).tooManyConnections = false ∨
          env.options.maxRetries ≤ 1 := by rw [hbound, or_comm]

/-- The text of the error 1203. -/
def tooManyConnectionsError : Bytes :=
  bytes "User already has more than 'max_user_connections' active connections"

theorem tooManyConnectionsError_ne_nil : tooManyConnectionsError ≠ [] := by decide

/-- A server that refuses its first connection because there are too many. -/
def busyServer : Server where
  connect n :=
    if n = 1 then .refused 1203 tooManyConnectionsError tooManyConnectionsError_ne_nil
    else .accepted
  query _ := .accepted ⟨0, fun _ => none, fun _ => -1⟩
  usleep _ := 0

/-- A user with one attempt gets what is promised even there. -/
theorem connect_retries_sample :
    ConnectRetries ⟨{ maxRetries := 1 }, [], busyServer⟩ (created false) :=
  (connect_retries_iff ⟨{ maxRetries := 1 }, [], busyServer⟩ (fun _ => rfl) _).mpr
    (Or.inr (by decide))

/-- With nine retries the second attempt, which would succeed, is not made. -/
theorem connect_gives_up :
    (∀ n, busyServer.usleep n = 0) ∧ busyServer.connect 4 = .accepted ∧
      ¬ConnectRetries ⟨{}, [], busyServer⟩ (created false) := by
  refine ⟨fun _ => rfl, rfl, ?_⟩
  rw [connectRetries_iff_keepsAttempting fun _ => rfl]
  intro hkeeps
  exact absurd ((keepsAttempting_singleton (by decide) _).mp hkeeps) (by decide)

end MySQLDBThread

end QueryPlayback
