import QueryPlayback.MySQL.Depth

/-!
# When executing a query ends

A failed attempt reconnects, a reconnect initialises the session, and this
executes the init query with attempts of its own. As long as the server refuses
the init query, no call in this chain returns.
-/

namespace QueryPlayback

open MySQL Interruptible

/-- The server ends every answer it begins. -/
def MySQL.Server.AnswersEnd (server : Server) : Prop :=
  ∀ n answer, server.query n = .accepted answer → ∃ i, answer.next i ≠ 0

namespace MySQLDBThread

variable {env : Env}

/-- `execute_query` returns when it is called in the state `s`. -/
def Returns (env : Env) (origin : Origin) (query : Bytes) (r : QueryResult) (s : MySQLDBThread) :
    Prop := ∃ fuel r' s', executeQuery env fuel origin query r s = .done r' s'

section Ending

theorem usleep_ends (useconds : UInt32) : Ends (usleep env.server useconds) :=
  fun _ => ⟨_, _, rfl⟩

theorem tryConnect_ends : Ends (tryConnect env) := by
  have hinit : Ends init := Ends.modify _
  have hconnect : Ends (realConnect env.server env.options.connectArguments) :=
    fun _ => ⟨_, _, rfl⟩
  apply hinit.bind
  intro _
  apply hconnect.bind
  intro succeeded
  apply Ends.ite
  · exact fun _ => Ends.pure _
  · exact fun _ => (Ends.modify _).bind fun _ => Ends.gets _

theorem connectLoop_ends (left numTries : ℕ) : Ends (connectLoop env left numTries) := by
  induction left generalizing numTries with
  | zero => exact tryConnect_ends.bind fun _ => Ends.pure _
  | succ left ih =>
      apply tryConnect_ends.bind
      intro again
      refine Ends.ite (fun _ => ?_) fun _ => Ends.pure _
      apply (usleep_ends _).bind
      intro result
      exact Ends.ite (fun _ => ih _) fun _ => Ends.pure _

/-- However the server answers, `connect` returns. -/
theorem connect_returns :
    Triple (fun _ => True) (connect env) (fun connected s => connected = s.haveConnected)
      (fun _ => False) := by
  apply (connectLoop_ends _ _).triple.bind
  intro _
  apply (Ends.gets _).triple.bind
  intro error
  refine Triple.ite (fun _ => ?_) fun _ => ?_
  · exact Triple.bind (Q := fun _ s => s.haveConnected = false) (Triple.modify fun _ _ => rfl)
      fun _ => Triple.pure fun s hs => hs.symm
  · exact Triple.bind (Q := fun _ s => s.haveConnected = true) (Triple.modify fun _ _ => rfl)
      fun _ => Triple.pure fun s hs => hs.symm

theorem disconnect_ends : Ends disconnect := by
  apply (Ends.gets _).bind
  intro haveConnected
  refine Ends.bind (Ends.ite (fun _ => ?_) fun _ => Ends.pure _) fun _ => ?_
  · exact Ends.modify _
  · exact Ends.modify _

/-- An answer is read to its end. -/
theorem readResults_ends {answer : Answer} {j : ℕ} (hj : answer.next j ≠ 0) (fuel i : ℕ)
    (hi : i ≤ j) (hfuel : j < i + fuel) (r : QueryResult) :
    Ends (readResults answer fuel i r) := by
  induction fuel generalizing i r with
  | zero => omega
  | succ fuel ih =>
      have hstore : Ends (storeResult answer i) := (Ends.modify _).bind fun _ => Ends.pure _
      have hnext : Triple (fun _ => True) (nextResult answer i)
          (fun status _ => status = answer.next i) (fun _ => False) := fun _ _ => rfl
      apply hstore.bind
      intro result
      refine Ends.bind ?_ fun r => ?_
      · cases result <;> exact fun _ => ⟨_, _, rfl⟩
      · apply Triple.ends
        apply hnext.bind
        intro status
        refine Triple.ite (fun hzero s hs => ?_) fun _ => (Ends.pure _).triple
        have hne : i ≠ j := by
          rintro rfl
          exact hj (hs ▸ hzero)
        exact (ih (i + 1) (by omega) (by omega) r).triple (P := fun _ => True) s trivial

section Callers

variable {exec : Execute}

theorem connectAndInitSession_ends
    (hinit : Triple (fun s => s.haveConnected = true) (initSession env exec) (fun _ _ => True)
      fun _ => False) : Ends (connectAndInitSession env exec) := by
  apply Triple.ends
  apply connect_returns.bind
  intro connected
  refine Triple.ite (fun hconnected => ?_) fun _ => (Ends.pure _).triple
  refine (hinit.pre fun s hs => ?_).bind fun _ => (Ends.pure _).triple
  exact hs ▸ hconnected

theorem ensureConnected_ends (h : Ends (connectAndInitSession env exec)) :
    Ends (ensureConnected env exec) := by
  apply (Ends.gets _).bind
  intro haveConnected
  exact Ends.ite (fun _ => Ends.pure _) fun _ => h.bind fun _ => Ends.pure _

theorem reconnect_ends (h : Ends (connectAndInitSession env exec)) (i : ℕ) :
    Ends (reconnect env exec i) := by
  apply (Ends.gets _).bind
  intro errno
  apply Ends.bind (Ends.ite (fun _ => usleep_ends _) fun _ => Ends.pure _)
  intro _
  apply disconnect_ends.bind
  intro _
  exact h.bind fun _ => Ends.pure _

end Callers

theorem queryLoop_of_no_attempts (hattempts : attempts env = 0) (exec : Execute) (fuel : ℕ)
    (origin : Origin) (query : Bytes) (r : QueryResult) :
    queryLoop env exec fuel origin query (attempts env) 0 r = pure r := by
  rw [hattempts]
  rfl

/-- Without attempts no query is sent, so the inner call for the init query returns at once. -/
theorem executeQuery_ends_of_no_attempts (hattempts : attempts env = 0) (origin : Origin)
    (query : Bytes) (r : QueryResult) : Ends (executeQuery env 2 origin query r) := by
  have hinner : Triple (fun s => s.haveConnected = true)
      (executeQuery env 1 .sessionInit env.sessionInitQuery {}) (fun _ _ => True)
      (fun _ => False) := by
    refine Triple.bind (Q := fun _ _ => True) ?_ fun _ => ?_
    · apply Triple.bind (Q := fun b _ => b = true) (Triple.gets fun s hs => hs)
      intro b
      exact Triple.ite (fun _ => (Ends.pure _).triple) fun hb s hs => absurd hs hb
    · rw [queryLoop_of_no_attempts hattempts]
      exact (Ends.pure _).triple
  have hinit : Triple (fun s => s.haveConnected = true) (initSession env (executeQuery env 1))
      (fun _ _ => True) (fun _ => False) :=
    Triple.ite (fun _ => (Ends.pure _).triple) fun _ => hinner.bind fun _ => (Ends.pure _).triple
  apply (ensureConnected_ends (connectAndInitSession_ends hinit)).bind
  intro _
  rw [queryLoop_of_no_attempts hattempts]
  exact Ends.pure _

/-- Without an init query `init_session` executes nothing. -/
theorem initSession_of_empty (hempty : env.sessionInitQuery = []) (exec : Execute) :
    initSession env exec = pure () := if_pos hempty

theorem connectAndInitSession_ends_of_empty (hempty : env.sessionInitQuery = [])
    (exec : Execute) : Ends (connectAndInitSession env exec) := by
  apply connectAndInitSession_ends
  rw [initSession_of_empty hempty]
  exact (Ends.pure _).triple

theorem queryLoop_of_empty (hempty : env.sessionInitQuery = []) (exec exec' : Execute) (fuel : ℕ)
    (origin : Origin) (query : Bytes) (left i : ℕ) (r : QueryResult) :
    queryLoop env exec fuel origin query left i r =
      queryLoop env exec' fuel origin query left i r := by
  induction left generalizing i r with
  | zero => rfl
  | succ left ih =>
      simp only [queryLoop, reconnect, connectAndInitSession, initSession_of_empty hempty, ih]

/-- An accepted query has an answer of the server. -/
theorem realQuery_accepted {server : Server} {origin : Origin} {query : Bytes} {answer : Answer}
    {s s' : MySQLDBThread} (h : realQuery server origin query s = .done (.accepted answer) s') :
    ∃ n, server.query n = .accepted answer := by
  refine ⟨s.trace.length, ?_⟩
  have hreply : s.handle.query (server.query s.trace.length) = .accepted answer := by
    injection h
  unfold Handle.query at hreply
  split at hreply
  · exact hreply
  · cases hreply

/-- Every attempt ends, the last one with the answer or another failure. -/
theorem queryLoop_ends (hempty : env.sessionInitQuery = []) (hserver : env.server.AnswersEnd)
    (exec : Execute) (origin : Origin) (query : Bytes) (left i : ℕ) (r : QueryResult)
    (s : MySQLDBThread) :
    ∃ n, ∀ fuel, n ≤ fuel → ∃ r' s',
      queryLoop env exec fuel origin query left i r s = .done r' s' := by
  induction left generalizing i r s with
  | zero => exact ⟨0, fun _ _ => ⟨r, s, rfl⟩⟩
  | succ left ih =>
      cases hreply : realQuery env.server origin query s with
      | cut s₁ => cases hreply
      | done reply s₁ =>
          cases reply with
          | failed code errno error nonzero =>
              obtain ⟨_, s₂, hreconnect⟩ :=
                reconnect_ends (connectAndInitSession_ends_of_empty hempty exec) i s₁
              obtain ⟨n, hn⟩ := ih (i + 1) { r with error := code } s₂
              refine ⟨n, fun fuel hfuel => ?_⟩
              obtain ⟨r', s', hdone⟩ := hn fuel hfuel
              exact ⟨r', s', (bind_done hreply _).trans ((bind_done hreconnect _).trans hdone)⟩
          | accepted answer =>
              obtain ⟨n, hn⟩ := realQuery_accepted hreply
              obtain ⟨j, hj⟩ := hserver n answer hn
              refine ⟨j + 1, fun fuel hfuel => ?_⟩
              have hwarnings : Ends (warningCount answer) :=
                (Ends.modify _).bind fun _ => Ends.pure _
              have hread : Ends (readAnswer fuel answer { r with error := 0 }) :=
                hwarnings.bind fun _ => readResults_ends hj fuel 0 (by omega) (by omega) _
              obtain ⟨r', s', hdone⟩ := hread s₁
              exact ⟨r', s', (bind_done hreply _).trans hdone⟩

/-- Without an init query the recursion is one level deep. -/
theorem returns_of_empty (hempty : env.sessionInitQuery = []) (hserver : env.server.AnswersEnd)
    (origin : Origin) (query : Bytes) (r : QueryResult) (s : MySQLDBThread) :
    Returns env origin query r s := by
  have hensure : ∀ fuel, ensureConnected env (executeQuery env fuel) =
      ensureConnected env (executeQuery env 0) := by
    intro fuel
    simp only [ensureConnected, connectAndInitSession, initSession_of_empty hempty]
  obtain ⟨_, s₁, hconnected⟩ :=
    ensureConnected_ends (connectAndInitSession_ends_of_empty hempty (executeQuery env 0)) s
  obtain ⟨n, hn⟩ := queryLoop_ends hempty hserver (executeQuery env 0) origin query
    (attempts env) 0 r s₁
  obtain ⟨r', s', hdone⟩ := hn (n + 1) (Nat.le_succ n)
  refine ⟨n + 1, r', s', ?_⟩
  rw [queryLoop_of_empty hempty _ (executeQuery env n)] at hdone
  rw [← hensure n] at hconnected
  exact (bind_done hconnected _).trans hdone

end Ending

section Refusing

/-- A server that accepts every connection and refuses every query. -/
def refusingServer : Server where
  connect _ := .accepted
  query _ := .failed 1 1064 (bytes "You have an error in your SQL syntax") Int.one_ne_zero
  usleep _ := 0

theorem refusingServer_answersEnd : refusingServer.AnswersEnd := by
  intro n answer h
  cases h

/-- A function in the place of `execute_query` that does not return. -/
def NeverReturns (exec : Execute) : Prop :=
  ∀ origin query r, Triple (fun _ => True) (exec origin query r) (fun _ _ => False) fun _ => True

theorem tryConnect_accepted (hserver : env.server = refusingServer) :
    Triple (fun _ => True) (tryConnect env)
      (fun again s => again = false ∧ s.handle.error = []) (fun _ => True) := by
  have hinit : Ends init := Ends.modify _
  have hconnect : Triple (fun _ => True) (realConnect env.server env.options.connectArguments)
      (fun succeeded s => succeeded = true ∧ s.handle.error = []) (fun _ => True) := by
    intro s _
    rw [hserver]
    exact ⟨rfl, rfl⟩
  apply hinit.triple.bind
  intro _
  apply hconnect.bind
  intro succeeded
  apply Triple.ite (fun _ => Triple.pure fun s hs => ⟨rfl, hs.2⟩)
  intro hfailed s hs
  exact absurd hs.1 hfailed

theorem connect_accepted (hserver : env.server = refusingServer) :
    Triple (fun _ => True) (connect env) (fun connected _ => connected = true)
      (fun _ => True) := by
  refine Triple.bind (Q := fun _ s => s.handle.error = []) ?_ fun _ => ?_
  · cases env.options.maxRetries.toNat - 1 with
    | zero => exact (tryConnect_accepted hserver).bind fun _ => Triple.pure fun s hs => hs.2
    | succ left =>
        apply (tryConnect_accepted hserver).bind
        intro again
        refine Triple.ite (fun hagain s hs => ?_) fun _ => Triple.pure fun s hs => hs.2
        rw [hs.1] at hagain
        cases hagain
  · apply Triple.bind (Q := fun error _ => error = []) (Triple.gets fun s hs => hs)
    intro error
    apply Triple.ite (fun herror s hs => absurd hs herror)
    intro _
    apply (Ends.modify _).triple.bind
    exact fun _ => Triple.pure fun _ _ => rfl

theorem connectAndInitSession_cut (hserver : env.server = refusingServer)
    (hquery : env.sessionInitQuery ≠ []) {exec : Execute} (hexec : NeverReturns exec) :
    Triple (fun _ => True) (connectAndInitSession env exec) (fun _ _ => False)
      (fun _ => True) := by
  apply (connect_accepted hserver).bind
  intro connected
  refine Triple.ite (fun _ => ?_) fun hfailed s hs => absurd hs hfailed
  refine Triple.bind (Q := fun _ _ => False) ?_ fun _ => Triple.unreached
  apply Triple.ite (fun hempty => absurd hempty hquery)
  intro _
  exact ((hexec _ _ _).pre fun _ _ => trivial).bind fun _ => Triple.unreached

theorem reconnect_cut (hserver : env.server = refusingServer)
    (hquery : env.sessionInitQuery ≠ []) {exec : Execute} (hexec : NeverReturns exec) (i : ℕ) :
    Triple (fun _ => True) (reconnect env exec i) (fun _ _ => False) (fun _ => True) := by
  apply (Ends.gets _).triple.bind
  intro errno
  have hpause : Ends (if errno = 1203 then usleep env.server (UInt32.ofNat (1000000 * i))
      else pure 0) := Ends.ite (fun _ => usleep_ends _) fun _ => Ends.pure _
  apply hpause.triple.bind
  intro _
  apply disconnect_ends.triple.bind
  intro _
  exact (connectAndInitSession_cut hserver hquery hexec).bind fun _ => Triple.unreached

theorem realQuery_refused (hserver : env.server = refusingServer) (origin : Origin)
    (query : Bytes) :
    Triple (fun _ => True) (realQuery env.server origin query)
      (fun reply _ => reply.succeeded = false) (fun _ => True) := by
  intro s _
  rw [hserver]
  change (s.handle.query (refusingServer.query s.trace.length)).succeeded = false
  unfold Handle.query
  split <;> rfl

/-- Induction on the depth: the call waits for one that does not return. -/
theorem executeQuery_neverReturns (hserver : env.server = refusingServer)
    (hquery : env.sessionInitQuery ≠ []) (hattempts : attempts env ≠ 0) (fuel : ℕ) :
    NeverReturns (executeQuery env fuel) := by
  induction fuel with
  | zero => exact fun _ _ _ => Triple.cutOff fun _ _ => trivial
  | succ fuel ih =>
      intro origin query r
      refine Triple.bind (Q := fun _ _ => True) ?_ fun _ => ?_
      · apply (Ends.gets _).triple.bind
        intro haveConnected
        apply Triple.ite (fun _ => (Ends.pure _).triple)
        intro _
        exact (connectAndInitSession_cut hserver hquery ih).bind fun _ => Triple.unreached
      · obtain ⟨left, hleft⟩ := Nat.exists_eq_succ_of_ne_zero hattempts
        rw [hleft]
        apply (realQuery_refused hserver origin query).bind
        intro reply
        cases reply with
        | accepted answer => exact fun s hs => nomatch hs
        | failed code errno error nonzero =>
            apply ((reconnect_cut hserver hquery ih 0).pre fun _ _ => trivial).bind
            intro _
            exact Triple.unreached

end Refusing

/-- Executing a query ends whatever the server does only if there is no init query,
or if the number of attempts has wrapped around to zero and nothing is sent. -/
theorem executeQuery_returns_iff (options : MySQLOptions) (sessionInitQuery : Bytes)
    (origin : Origin) (query : Bytes) (r : QueryResult) (s : MySQLDBThread) :
    (∀ server : Server, server.AnswersEnd →
        Returns ⟨options, sessionInitQuery, server⟩ origin query r s) ↔
      sessionInitQuery = [] ∨ options.maxRetries + 1 = 0 := by
  constructor
  · intro h
    by_contra hcases
    obtain ⟨hquery, hretries⟩ := not_or.mp hcases
    obtain ⟨fuel, r', s', hdone⟩ := h refusingServer refusingServer_answersEnd
    have hattempts : attempts ⟨options, sessionInitQuery, refusingServer⟩ ≠ 0 := by
      intro hzero
      exact hretries (UInt32.toNat_inj.mp hzero)
    have hnever : NeverReturns (executeQuery ⟨options, sessionInitQuery, refusingServer⟩ fuel) :=
      executeQuery_neverReturns rfl hquery hattempts fuel
    obtain ⟨s'', hcut, -⟩ := (hnever origin query r).cut (s := s) trivial
    rw [hdone] at hcut
    cases hcut
  · rintro (hempty | hretries) server hserver
    · exact returns_of_empty hempty hserver origin query r s
    · have hattempts : attempts ⟨options, sessionInitQuery, server⟩ = 0 := by
        rw [attempts, hretries]
        rfl
      obtain ⟨r', s', hdone⟩ := executeQuery_ends_of_no_attempts hattempts origin query r s
      exact ⟨2, r', s', hdone⟩

/-- With an init query the server does not understand, a call on a new thread makes
library calls for ever. -/
theorem executeQuery_endless :
    let env : Env := ⟨{}, bytes "SET NAMES utf9", refusingServer⟩
    env.server.AnswersEnd ∧ ¬Returns env .user (bytes "SELECT 1") {} (created false) ∧
      ∀ n, ∃ s, executeQuery env n .user (bytes "SELECT 1") {} (created false) = .cut s ∧
        n ≤ s.trace.length := by
  intro env
  have hnever : ∀ n, ∃ s, executeQuery env n .user (bytes "SELECT 1") {} (created false) = .cut s ∧
      True := fun n =>
    ((executeQuery_neverReturns rfl (by decide) (by decide) n) _ _ _).cut trivial
  refine ⟨refusingServer_answersEnd, ?_, fun n => ?_⟩
  · rintro ⟨fuel, r', s', hdone⟩
    obtain ⟨s, hcut, -⟩ := hnever fuel
    rw [hdone] at hcut
    cases hcut
  · obtain ⟨s, hcut, -⟩ := hnever n
    have hlength := executeQuery_cut hcut
    exact ⟨s, hcut, by simpa [created] using hlength⟩

end MySQLDBThread

end QueryPlayback
