import QueryPlayback.MySQL.Calls
import QueryPlayback.MySQL.Runs

/-!
# Connections that are not used

Connecting is delayed until there is a query to execute, but a quit entry
reconnects at once. Whether that connection is used before it is closed depends
on the entries behind the quit.
-/

namespace QueryPlayback

open MySQL Interruptible Traces

namespace MySQL

/-- The call sends the query of an entry. -/
def Call.sendsEntry : Call → Bool
  | .realQuery .user .. => true
  | _ => false

/-- The call is a query that has failed. -/
def Call.fails : Call → Bool
  | .realQuery _ _ succeeded => !succeeded
  | _ => false

/-- The query of some entry is sent on every connection before it is closed. -/
def EveryConnectUsed (t : List Call) : Prop :=
  ∀ a x b c, t = a ++ x :: (b ++ .close :: c) → x.connects = true → .close ∉ b →
    ∃ y ∈ b, y.sendsEntry = true

/-- A connection is open on which no query of an entry has been sent. -/
def Idle (t : List Call) : Prop :=
  Since (fun c => c.connects = true) (fun c => c.sendsEntry = true ∨ c = .close) t

/-- Some query has failed. -/
def Disturbed (t : List Call) : Prop := ∃ x ∈ t, x.fails = true

/-- An idle connection is closed only behind a failure. -/
def Lazy (t : List Call) : Prop :=
  Always (fun past x => x = .close → Idle past → Disturbed past) t

/-- A connection that is not idle could be closed now. -/
def Spent (t : List Call) : Prop := Lazy t ∧ (Idle t → Disturbed t)

/-- Used connections: no idle connection is closed. -/
theorem everyConnectUsed_iff {t : List Call} :
    EveryConnectUsed t ↔ Always (fun past x => x = .close → ¬Idle past) t := by
  rw [show Always (fun past x => x = .close → ¬Idle past) t ↔ _ from always_not_since_iff]
  constructor
  · rintro h a x b y c ht hx rfl
    by_cases hclose : .close ∈ b
    · exact ⟨.close, hclose, Or.inr rfl⟩
    · obtain ⟨z, hz, hsends⟩ := h a x b c ht hx hclose
      exact ⟨z, hz, Or.inl hsends⟩
  · intro h a x b c ht hx hclose
    obtain ⟨z, hz, hsends | rfl⟩ := h a x b .close c ht hx rfl
    · exact ⟨z, hz, hsends⟩
    · exact absurd hz hclose

theorem Disturbed.append {t : List Call} (h : Disturbed t) (calls : List Call) :
    Disturbed (t ++ calls) := by
  obtain ⟨x, hx, hfails⟩ := h
  exact ⟨x, List.mem_append_left _ hx, hfails⟩

/-- Without a failure only used connections have been closed. -/
theorem Lazy.everyConnectUsed {t : List Call} (h : Lazy t) (hnone : ∀ x ∈ t, x.fails = false) :
    EveryConnectUsed t := by
  apply everyConnectUsed_iff.mpr
  rintro past x rest rfl hclose hidle
  obtain ⟨y, hy, hfails⟩ := h past x rest rfl hclose hidle
  rw [hnone y (List.mem_append_left _ hy)] at hfails
  cases hfails

theorem Lazy.append {t : List Call} {x : Call} (h : Lazy t) (hx : x ≠ .close) :
    Lazy (t ++ [x]) :=
  always_append_singleton.mpr ⟨h, fun hclose => absurd hclose hx⟩

theorem Spent.close {t : List Call} (h : Spent t) : Spent (t ++ [.close]) := by
  refine ⟨always_append_singleton.mpr ⟨h.1, fun _ => h.2⟩, fun hidle => ?_⟩
  rw [Idle, since_append_singleton] at hidle
  simp [Call.connects] at hidle

/-- A call that neither connects nor closes leaves a used connection used. -/
theorem Spent.append {t : List Call} {x : Call} (h : Spent t) (hclose : x ≠ .close)
    (hconnects : x.connects = false) : Spent (t ++ [x]) := by
  refine ⟨h.1.append hclose, fun hidle => ?_⟩
  rcases since_append_singleton.mp hidle with hx | ⟨-, hbefore⟩
  · rw [hconnects] at hx
    cases hx
  · exact (h.2 hbefore).append [x]

/-- Whatever the server and the init query do, these traces go on as such. -/
structure Tolerant (I : List Call → Prop) : Prop where
  append : ∀ t x, I t → x ≠ .close → I (t ++ [x])
  close : ∀ t, I t → Disturbed t → I (t ++ [.close])

theorem lazy_tolerant : Tolerant Lazy where
  append _ _ h hx := h.append hx
  close _ h hdisturbed := always_append_singleton.mpr ⟨h, fun _ _ => hdisturbed⟩

theorem Tolerant.disturbed {I : List Call → Prop} (h : Tolerant I) :
    Tolerant fun t => I t ∧ Disturbed t where
  append t x ht hx := ⟨h.append t x ht.1 hx, ht.2.append [x]⟩
  close t ht hdisturbed := ⟨h.close t ht.1 hdisturbed, hdisturbed.append [.close]⟩

end MySQL

namespace MySQLDBThread

section Executing

variable {env : Env} {A : Type} {I : List Call → Prop}

/-- The computation keeps a property of the trace, whether it returns or not. -/
def Keeps (I : List Call → Prop) (c : Client A) : Prop :=
  Triple (fun s => I s.trace) c (fun _ s => I s.trace) fun s => I s.trace

theorem Makes.keepsTrace {P : Call → Prop} {c : Client A} {Q : A → Prop} (h : Makes P c Q)
    (hI : ∀ t x, I t → P x → I (t ++ [x])) : Keeps I c :=
  (h.keeps hI).post fun _ _ hs => hs.1

theorem Keeps.bind {B : Type} {c : Client A} {f : A → Client B} (hc : Keeps I c)
    (hf : ∀ a, Keeps I (f a)) : Keeps I (c >>= f) :=
  Triple.bind hc hf

theorem Keeps.pure (a : A) : Keeps I (pure a) := Triple.pure fun _ => id

theorem Keeps.gets (f : MySQLDBThread → A) : Keeps I (gets f) := Triple.gets fun _ => id

theorem Keeps.ite {b : Prop} [Decidable b] {c d : Client A} (hc : Keeps I c) (hd : Keeps I d) :
    Keeps I (if b then c else d) :=
  Triple.ite (fun _ => hc) fun _ => hd

theorem disconnect_keeps (hclose : ∀ t, I t → I (t ++ [.close])) : Keeps I disconnect :=
  disconnect_makes.keepsTrace fun t _ ht hx => hx ▸ hclose t ht

theorem connect_keeps (hI : Tolerant I) : Keeps I (connect env) :=
  connect_makes.keepsTrace fun t _ ht hx => hI.append t _ ht (by rintro rfl; cases hx)

theorem readAnswer_keeps (hI : Tolerant I) (fuel : ℕ) (answer : Answer) (r : QueryResult) :
    Keeps I (readAnswer fuel answer r) :=
  (readAnswer_makes fuel answer r).keepsTrace fun t _ ht hx =>
    hI.append t _ ht (by rintro rfl; cases hx)

/-- In the place of `execute_query`, for the init query only. -/
def InitKeeps (exec : Execute) : Prop :=
  ∀ I, Tolerant I → ∀ query r, Keeps I (exec .sessionInit query r)

variable {exec : Execute}

theorem connectAndInitSession_keeps (hI : Tolerant I) (hexec : InitKeeps exec) :
    Keeps I (connectAndInitSession env exec) := by
  apply (connect_keeps hI).bind
  intro connected
  refine Keeps.ite ?_ (Keeps.pure _)
  apply Keeps.bind
  · exact Keeps.ite (Keeps.pure _) ((hexec I hI _ _).bind fun _ => Keeps.pure _)
  · exact fun _ => Keeps.pure _

theorem ensureConnected_keeps (hI : Tolerant I) (hexec : InitKeeps exec) :
    Keeps I (ensureConnected env exec) := by
  apply (Keeps.gets _).bind
  intro haveConnected
  apply Keeps.ite (Keeps.pure _)
  exact (connectAndInitSession_keeps hI hexec).bind fun _ => Keeps.pure _

/-- Behind a failure connections may be closed. -/
theorem reconnect_keeps (hI : Tolerant I) (hexec : InitKeeps exec) (i : ℕ) :
    Keeps (fun t => I t ∧ Disturbed t) (reconnect env exec i) := by
  have hsleep : ∀ useconds, Keeps (fun t => I t ∧ Disturbed t) (usleep env.server useconds) :=
    fun useconds => (usleep_makes useconds).keepsTrace fun t _ ht hx =>
      hI.disturbed.append t _ ht (by rintro rfl; cases hx)
  apply (Keeps.gets _).bind
  intro errno
  apply (Keeps.ite (hsleep _) (Keeps.pure _)).bind
  intro _
  apply (disconnect_keeps fun t ht => hI.disturbed.close t ht ht.2).bind
  intro _
  exact (connectAndInitSession_keeps hI.disturbed hexec).bind fun _ => Keeps.pure _

/-- A query has failed or has been accepted. -/
theorem realQuery_disturbs (hI : Tolerant I) (origin : Origin) (query : Bytes) :
    Triple (fun s => I s.trace) (realQuery env.server origin query)
      (fun reply s => I s.trace ∧ (reply.succeeded = false → Disturbed s.trace))
      fun s => I s.trace := by
  intro s hs
  refine ⟨hI.append _ _ hs (by simp), fun hfailed => ?_⟩
  refine ⟨_, List.mem_append_right _ (List.mem_singleton_self _), ?_⟩
  rw [Call.fails, hfailed]
  rfl

theorem queryLoop_keeps (hI : Tolerant I) (hexec : InitKeeps exec) (fuel : ℕ) (origin : Origin)
    (query : Bytes) (left i : ℕ) (r : QueryResult) :
    Keeps I (queryLoop env exec fuel origin query left i r) := by
  induction left generalizing i r with
  | zero => exact Keeps.pure r
  | succ left ih =>
      apply (realQuery_disturbs hI origin query).bind
      intro reply
      cases reply with
      | failed code errno error nonzero =>
          refine Triple.bind (Q := fun _ s => I s.trace) ?_ fun _ => ih (i + 1) _
          exact (reconnect_keeps hI hexec i).consequence (fun s hs => ⟨hs.1, hs.2 rfl⟩)
            (fun _ _ => And.left) fun _ => And.left
      | accepted answer => exact (readAnswer_keeps hI fuel answer _).pre fun _ => And.left

/-- Induction on the depth of the recursion through `init_session`. -/
theorem executeQuery_keeps (hI : Tolerant I) (fuel : ℕ) (origin : Origin) (query : Bytes)
    (r : QueryResult) : Keeps I (executeQuery env fuel origin query r) := by
  induction fuel generalizing I origin query r with
  | zero => exact Triple.cutOff fun _ => id
  | succ fuel ih =>
      have hexec : InitKeeps (executeQuery env fuel) := fun J hJ query r => ih hJ _ query r
      apply (ensureConnected_keeps hI hexec).bind
      intro _
      exact queryLoop_keeps hI hexec _ origin query _ 0 r

/-- The first attempt uses the connection, and the others follow a failure. -/
theorem queryLoop_spent (hexec : InitKeeps exec) (fuel : ℕ) (query : Bytes) (left i : ℕ)
    (r : QueryResult) :
    Triple (fun s => Lazy s.trace) (queryLoop env exec fuel .user query (left + 1) i r)
      (fun _ s => Spent s.trace) fun s => Lazy s.trace := by
  have hused : Triple (fun s => Lazy s.trace) (realQuery env.server .user query)
      (fun reply s => Spent s.trace ∧ (reply.succeeded = false → Disturbed s.trace))
      fun s => Lazy s.trace := by
    intro s hs
    obtain ⟨hlazy, hdisturbed⟩ := @realQuery_disturbs env Lazy lazy_tolerant .user query s hs
    refine ⟨⟨hlazy, fun hidle => ?_⟩, hdisturbed⟩
    rw [Idle, since_append_singleton] at hidle
    simp [Call.connects, Call.sendsEntry] at hidle
  apply hused.bind
  intro reply
  cases reply with
  | failed code errno error nonzero =>
      refine Triple.bind (Q := fun _ s => Lazy s.trace ∧ Disturbed s.trace) ?_ fun _ => ?_
      · exact (reconnect_keeps lazy_tolerant hexec i).consequence
          (fun s hs => ⟨hs.1.1, hs.2 rfl⟩) (fun _ _ => id) fun _ => And.left
      · exact (queryLoop_keeps lazy_tolerant.disturbed hexec _ _ _ _ _ _).consequence
          (fun _ => id) (fun _ _ hs => ⟨hs.1, fun _ => hs.2⟩) fun _ => And.left
  | accepted answer =>
      have hread : Keeps Spent (readAnswer fuel answer { r with error := 0 }) := by
        apply (readAnswer_makes fuel answer _).keepsTrace
        intro t x ht hx
        cases x with
        | realConnect arguments succeeded => cases hx
        | close => cases hx
        | _ => exact ht.append (by simp) rfl
      exact hread.consequence (fun _ => And.left) (fun _ _ => id) fun _ => And.left

theorem executeQuery_spent (hattempts : attempts env ≠ 0) (fuel : ℕ) (query : Bytes)
    (r : QueryResult) :
    Triple (fun s => Lazy s.trace) (executeQuery env fuel .user query r)
      (fun _ s => Spent s.trace) fun s => Lazy s.trace := by
  cases fuel with
  | zero => exact Triple.cutOff fun _ => id
  | succ fuel =>
      have hexec : InitKeeps (executeQuery env fuel) :=
        fun J hJ query r => executeQuery_keeps hJ fuel _ query r
      obtain ⟨left, hleft⟩ := Nat.exists_eq_succ_of_ne_zero hattempts
      apply Triple.bind (ensureConnected_keeps lazy_tolerant hexec)
      intro _
      rw [hleft]
      exact queryLoop_spent hexec _ query left 0 r

theorem disconnect_spent :
    Triple (fun s => Spent s.trace) disconnect (fun _ s => Spent s.trace)
      fun s => Lazy s.trace := by
  have hkeeps : Keeps Spent disconnect := disconnect_keeps fun _ => Spent.close
  exact hkeeps.consequence (fun _ => id) (fun _ _ => id) fun _ => And.left

end Executing

end MySQLDBThread

/-- Behind the entry a connection may be open on which no query of an entry has been sent. -/
def ThreadEntry.LeavesIdle (sends : Prop) (query : ThreadEntry) : Prop :=
  query.treatment = .quit ∨ ¬sends ∧ ∃ text, query.treatment = .executes text

/-- A query is sent for the entry. -/
def ThreadEntry.Sends (sends : Prop) (query : ThreadEntry) : Prop :=
  sends ∧ ∃ text, query.treatment = .executes text

/-- No query has been sent for an entry since a connection may have been opened in advance. -/
def Pending (sends : Prop) (entries : List ThreadEntry) : Prop :=
  Since (fun query => query.LeavesIdle sends) (fun query => query.Sends sends) entries

/-- The entries a thread takes from its queue, the last one of which is a shutdown. -/
def processed : List ThreadEntry → List ThreadEntry
  | [] => []
  | query :: queries => query :: if query.isShutdown then [] else processed queries

/-- At a quit no connection is left idle by the entries before it. -/
def QuitsFollow (sends : Prop) (entries : List ThreadEntry) : Prop :=
  Always (fun past query => query.treatment = .quit → ¬Pending sends past) entries

/-- A query is sent for an entry between a quit and the next one, and behind the last quit. -/
structure QueriesFollow (sends : Prop) (queries : List ThreadEntry) : Prop where
  quits : QuitsFollow sends (processed queries)
  ending : (∃ query ∈ queries, query.isShutdown = true) → ¬Pending sends (processed queries)

section Entries

variable {sends : Prop} {past : List ThreadEntry} {query : ThreadEntry}

theorem not_pending_nil : ¬Pending sends [] := not_since_nil

theorem pending_of_leavesIdle (h : query.LeavesIdle sends) : Pending sends (past ++ [query]) :=
  since_append_singleton.mpr (Or.inl h)

/-- An entry for which nothing is sent. -/
theorem Pending.append (hpast : Pending sends past) (h : ¬query.Sends sends) :
    Pending sends (past ++ [query]) :=
  since_append_singleton.mpr (Or.inr ⟨h, hpast⟩)

theorem not_leavesIdle_of_sends (h : query.Sends sends) : ¬query.LeavesIdle sends := by
  obtain ⟨hsends, text, hexecutes⟩ := h
  rintro (hquit | ⟨hnot, -⟩)
  · rw [hexecutes] at hquit
    cases hquit
  · exact hnot hsends

theorem not_leavesIdle_of_nothing (h : query.treatment = .nothing) : ¬query.LeavesIdle sends := by
  rintro (hquit | ⟨-, text, hexecutes⟩)
  · rw [h] at hquit
    cases hquit
  · rw [h] at hexecutes
    cases hexecutes

theorem not_sends_of_nothing (h : query.treatment = .nothing) : ¬query.Sends sends := by
  rintro ⟨-, text, hexecutes⟩
  rw [h] at hexecutes
  cases hexecutes

/-- The query of an entry uses whatever connection is open. -/
theorem not_pending_of_sends (h : query.Sends sends) : ¬Pending sends (past ++ [query]) := by
  intro hpending
  rcases since_append_singleton.mp hpending with hleaves | ⟨hnot, -⟩
  · exact not_leavesIdle_of_sends h hleaves
  · exact hnot h

theorem pending_of_append (h : ¬query.LeavesIdle sends)
    (hpending : Pending sends (past ++ [query])) : Pending sends past :=
  ((since_append_singleton.mp hpending).resolve_left h).2

end Entries

namespace MySQLDBThread

section Lazily

variable {env : Env} {past : List ThreadEntry}

/-- The connection is used unless the entries so far may have left it idle. -/
def Follows (sends : Prop) (past : List ThreadEntry) (s : MySQLDBThread) : Prop :=
  Lazy s.trace ∧ (¬Pending sends past → Spent s.trace)

theorem handleEntry_follows (fuel : ℕ) (query : ThreadEntry)
    (hquit : query.treatment = .quit → ¬Pending (attempts env ≠ 0) past) :
    Triple (Follows (attempts env ≠ 0) past) (handleEntry env fuel query)
      (fun _ => Follows (attempts env ≠ 0) (past ++ [query])) fun s => Lazy s.trace := by
  have hexec : InitKeeps (executeQuery env fuel) :=
    fun J hJ query r => executeQuery_keeps hJ fuel _ query r
  rw [handleEntry_eq]
  cases htreatment : query.treatment with
  | quit =>
      have hpending : Pending (attempts env ≠ 0) (past ++ [query]) :=
        pending_of_leavesIdle (Or.inl htreatment)
      apply Triple.bind (disconnect_spent.pre fun s hs => hs.2 (hquit htreatment))
      intro _
      have hconnect : Keeps Lazy (connectAndInitSession env (executeQuery env fuel)) :=
        connectAndInitSession_keeps lazy_tolerant hexec
      refine Triple.bind (hconnect.pre fun s hs => hs.1) fun _ => Triple.pure fun s hs => ?_
      exact ⟨hs, fun hnot => absurd hpending hnot⟩
  | executes text =>
      by_cases hsends : attempts env ≠ 0
      · refine Triple.bind ((executeQuery_spent hsends fuel text {}).pre fun s hs => hs.1)
          fun _ => Triple.pure fun s hs => ?_
        exact ⟨hs.1, fun _ => hs⟩
      · have hpending : Pending (attempts env ≠ 0) (past ++ [query]) :=
          pending_of_leavesIdle (Or.inr ⟨hsends, text, htreatment⟩)
        have hexecute : Keeps Lazy (executeQuery env fuel .user text {}) :=
          executeQuery_keeps lazy_tolerant fuel .user text {}
        refine Triple.bind (hexecute.pre fun s hs => hs.1) fun _ => Triple.pure fun s hs => ?_
        exact ⟨hs, fun hnot => absurd hpending hnot⟩
  | nothing =>
      refine Triple.pure fun s hs => ⟨hs.1, fun hnot => hs.2 fun hpast => hnot ?_⟩
      exact hpast.append (not_sends_of_nothing htreatment)

/-- Induction on the entries to come, behind those that have been processed. -/
theorem runEntries_lazy (fuel : ℕ) (queries : List ThreadEntry)
    (hquits : QuitsFollow (attempts env ≠ 0) (past ++ processed queries))
    (hending : (∃ query ∈ queries, query.isShutdown = true) →
      ¬Pending (attempts env ≠ 0) (past ++ processed queries)) :
    Triple (Follows (attempts env ≠ 0) past) (runEntries env fuel queries)
      (fun _ s => Lazy s.trace) fun s => Lazy s.trace := by
  induction queries generalizing past with
  | nil => exact Triple.cutOff fun s hs => hs.1
  | cons query queries ih =>
      rw [processed] at hquits hending
      apply (handleEntry_follows fuel query (hquits past query _ rfl)).bind
      intro _
      refine Triple.ite (fun hshutdown => ?_) fun hgoes => ?_
      · have hended := hending ⟨query, List.mem_cons_self, hshutdown⟩
        rw [if_pos hshutdown] at hended
        exact (disconnect_spent.pre fun s hs => hs.2 hended).post fun _ _ hs => hs.1
      · rw [if_neg hgoes, List.append_cons] at hquits hending
        apply ih hquits
        rintro ⟨later, hlater, hshutdown⟩
        exact hending ⟨later, List.mem_cons_of_mem _ hlater, hshutdown⟩

theorem run_lazy (fuel : ℕ) {queries : List ThreadEntry} (haveConnected : Bool)
    (h : QueriesFollow (attempts env ≠ 0) queries) :
    Triple (· = created haveConnected) (run env fuel queries) (fun _ s => Lazy s.trace)
      fun s => Lazy s.trace := by
  refine Triple.bind (Q := fun _ s => s = created false) (Triple.modify ?_) fun _ => ?_
  · rintro s rfl
    rfl
  · have hbegun : Spent ([] ++ [.threadInit]) :=
      Spent.append ⟨always_nil, fun hidle => absurd hidle not_since_nil⟩ (by simp) rfl
    refine Triple.bind (Q := fun _ => Follows (attempts env ≠ 0) []) (Triple.modify ?_) fun _ => ?_
    · rintro s rfl
      exact ⟨hbegun.1, fun _ => hbegun⟩
    · apply (runEntries_lazy fuel queries h.quits h.ending).bind
      exact fun _ => Triple.modify fun s hs => hs.append (by simp)

end Lazily

section Accepting

/-- A server that accepts every connection and every query. -/
def acceptingServer : Server where
  connect _ := .accepted
  query _ := .accepted ⟨0, fun _ => none, fun _ => -1⟩
  usleep _ := 0

/-- A thread that talks to the accepting server. -/
def accepting (options : MySQLOptions) (sessionInitQuery : Bytes) : Env :=
  ⟨options, sessionInitQuery, acceptingServer⟩

variable (options : MySQLOptions) (sessionInitQuery : Bytes)

theorem connect_accepting (s : MySQLDBThread) :
    connect (accepting options sessionInitQuery) s = .done true
      ⟨⟨.connected, 0, []⟩, s.numConnectErrors, true,
        s.trace ++ [.init, .realConnect options.connectArguments true]⟩ := by
  have hloop : ∀ left numTries, connectLoop (accepting options sessionInitQuery) left numTries s =
      .done () ⟨⟨.connected, 0, []⟩, s.numConnectErrors, s.haveConnected,
        s.trace ++ [.init] ++ [.realConnect options.connectArguments true]⟩ := by
    intro left numTries
    cases left <;> rfl
  rw [connect, bind_done (hloop _ _), List.append_assoc]
  rfl

/-- The calls for a query on an open connection. -/
def acceptedCalls (env : Env) (origin : Origin) (query : Bytes) : List Call :=
  if attempts env = 0 then []
  else [.realQuery origin query true, .warningCount, .storeResult, .nextResult]

theorem executeQuery_accepting (fuel : ℕ) (origin : Origin) (query : Bytes) (r : QueryResult)
    {s : MySQLDBThread} (hflag : s.haveConnected = true) (hstate : s.handle.state = .connected) :
    ∃ r' s', executeQuery (accepting options sessionInitQuery) (fuel + 1) origin query r s =
        .done r' s' ∧ s'.haveConnected = true ∧ s'.handle.state = .connected ∧
      s'.trace = s.trace ++ acceptedCalls (accepting options sessionInitQuery) origin query := by
  obtain ⟨⟨state, errno, error⟩, n, flag, trace⟩ := s
  obtain rfl : flag = true := hflag
  obtain rfl : state = .connected := hstate
  rw [executeQuery, acceptedCalls, bind_done (show ensureConnected _ _ _ = .done () _ from rfl)]
  cases attempts (accepting options sessionInitQuery) with
  | zero => exact ⟨_, _, rfl, rfl, rfl, (List.append_nil _).symm⟩
  | succ left =>
      refine ⟨_, _, rfl, rfl, rfl, ?_⟩
      change trace ++ [.realQuery origin query true] ++ [.warningCount] ++ [.storeResult] ++
        [.nextResult] = _
      simp

/-- The calls that connect and initialise the session. -/
def connectedCalls (env : Env) : List Call :=
  [.init, .realConnect env.options.connectArguments true] ++
    if env.sessionInitQuery = [] then [] else acceptedCalls env .sessionInit env.sessionInitQuery

theorem connectAndInitSession_accepting (fuel : ℕ) (s : MySQLDBThread) :
    ∃ s', connectAndInitSession (accepting options sessionInitQuery)
        (executeQuery (accepting options sessionInitQuery) (fuel + 1)) s = .done true s' ∧
      s'.haveConnected = true ∧ s'.handle.state = .connected ∧
      s'.trace = s.trace ++ connectedCalls (accepting options sessionInitQuery) := by
  let env : Env := accepting options sessionInitQuery
  rw [connectAndInitSession, bind_done (connect_accepting options sessionInitQuery s),
    if_pos rfl, connectedCalls]
  by_cases hempty : env.sessionInitQuery = []
  · have hnothing : initSession env (executeQuery env (fuel + 1)) = pure () := if_pos hempty
    rw [hnothing, if_pos hempty]
    exact ⟨_, rfl, rfl, rfl, rfl⟩
  · let s₁ : MySQLDBThread := ⟨⟨.connected, 0, []⟩, s.numConnectErrors, true,
      s.trace ++ [.init, .realConnect options.connectArguments true]⟩
    obtain ⟨r', s', hdone, hflag, hstate, htrace⟩ :=
      executeQuery_accepting options sessionInitQuery fuel .sessionInit env.sessionInitQuery {}
        (s := s₁) rfl rfl
    have hinit : initSession env (executeQuery env (fuel + 1)) s₁ = .done () s' := by
      rw [initSession, if_neg hempty]
      exact bind_done hdone _
    rw [bind_done hinit, if_neg hempty]
    refine ⟨s', rfl, hflag, hstate, ?_⟩
    rw [htrace, List.append_assoc]
    rfl

/-- An open connection is used for the query, and otherwise one is opened before. -/
theorem executeQuery_accepting_any (query : Bytes) {s : MySQLDBThread}
    (hflag : s.haveConnected = true → s.handle.state = .connected) :
    ∃ r' s', executeQuery (accepting options sessionInitQuery) 2 .user query {} s = .done r' s' ∧
      s'.haveConnected = true ∧ s'.handle.state = .connected ∧ s'.trace = s.trace ++
        ((if s.haveConnected = true then [] else
          connectedCalls (accepting options sessionInitQuery)) ++
        acceptedCalls (accepting options sessionInitQuery) .user query) := by
  let env : Env := accepting options sessionInitQuery
  by_cases hconnected : s.haveConnected = true
  · rw [if_pos hconnected]
    exact executeQuery_accepting options sessionInitQuery 1 .user query {} hconnected
      (hflag hconnected)
  · obtain ⟨s₁, hdone, hflag₁, hstate₁, htrace₁⟩ :=
      connectAndInitSession_accepting options sessionInitQuery 0 s
    obtain ⟨r', s', hquery, hflag', hstate', htrace'⟩ :=
      executeQuery_accepting options sessionInitQuery 1 .user query {} hflag₁ hstate₁
    have hensure : ensureConnected env (executeQuery env 1) s = .done () s₁ := by
      rw [ensureConnected, bind_done (show gets _ s = .done _ s from rfl), if_neg hconnected]
      exact bind_done hdone _
    have hensure₁ : ensureConnected env (executeQuery env 1) s₁ = .done () s₁ := by
      rw [ensureConnected, bind_done (show gets _ s₁ = .done _ s₁ from rfl), if_pos hflag₁]
      rfl
    refine ⟨r', s', ?_, hflag', hstate', ?_⟩
    · exact (bind_done hensure _).trans ((bind_done hensure₁ _).symm.trans hquery)
    · rw [htrace', htrace₁, if_neg hconnected, List.append_assoc]

theorem acceptedCalls_fails (env : Env) (origin : Origin) (query : Bytes) :
    ∀ x ∈ acceptedCalls env origin query, x.fails = false := by
  unfold acceptedCalls
  split <;> simp [Call.fails]

theorem connectedCalls_fails (env : Env) : ∀ x ∈ connectedCalls env, x.fails = false := by
  unfold connectedCalls
  refine List.forall_mem_append.mpr ⟨by simp [Call.fails], ?_⟩
  split
  · simp
  · exact acceptedCalls_fails env _ _

/-- The init query is none of an entry. -/
theorem idle_connectedCalls (env : Env) (t : List Call) : Idle (t ++ connectedCalls env) := by
  have hsplit : t ++ connectedCalls env = t ++ [.init] ++
      .realConnect env.options.connectArguments true :: (if env.sessionInitQuery = [] then []
        else acceptedCalls env .sessionInit env.sessionInitQuery) := by
    simp [connectedCalls]
  refine ⟨_, _, _, hsplit, rfl, ?_⟩
  split
  · simp
  · unfold acceptedCalls
    split <;> simp [Call.sendsEntry]

theorem disconnect_done (s : MySQLDBThread) :
    ∃ s', disconnect s = .done () s' ∧ s'.haveConnected = false ∧
      s'.trace = s.trace ++ if s.haveConnected = true then [.close] else [] := by
  obtain ⟨handle, n, flag, trace⟩ := s
  cases flag with
  | true => exact ⟨_, rfl, rfl, rfl⟩
  | false => exact ⟨_, rfl, rfl, (List.append_nil _).symm⟩

/-- What is known behind some entries: connections that may be idle are. -/
structure Obliged (env : Env) (past : List ThreadEntry) (s : MySQLDBThread) : Prop where
  connected : s.haveConnected = true → s.handle.state = .connected
  none_failed : ∀ x ∈ s.trace, x.fails = false
  open_of_pending : Pending (attempts env ≠ 0) past → s.haveConnected = true
  idle : s.haveConnected = true → attempts env = 0 ∨ Pending (attempts env ≠ 0) past →
    Idle s.trace

/-- Closing an idle connection is seen in the trace. -/
theorem not_idle_of_closed {t : List Call} (h : EveryConnectUsed (t ++ [.close])) : ¬Idle t :=
  (always_append_singleton.mp (everyConnectUsed_iff.mp h)).2 rfl

/-- One entry, and the connection it closes. -/
theorem handleEntry_accepting {past : List ThreadEntry} {s : MySQLDBThread}
    (h : Obliged (accepting options sessionInitQuery) past s) (query : ThreadEntry) :
    ∃ s', handleEntry (accepting options sessionInitQuery) 2 query s = .done () s' ∧
      Obliged (accepting options sessionInitQuery) (past ++ [query]) s' ∧
      (query.treatment = .quit → s.haveConnected = true →
        s.trace ++ [.close] <+: s'.trace) := by
  let env : Env := accepting options sessionInitQuery
  rw [handleEntry_eq]
  cases htreatment : query.treatment with
  | quit =>
      obtain ⟨s₁, hclosed, -, htrace₁⟩ := disconnect_done s
      obtain ⟨s', hdone, hflag, hstate, htrace⟩ :=
        connectAndInitSession_accepting options sessionInitQuery 1 s₁
      refine ⟨s', (bind_done hclosed _).trans (bind_done hdone _), ?_, ?_⟩
      · constructor
        · exact fun _ => hstate
        · rw [htrace, htrace₁]
          refine List.forall_mem_append.mpr ⟨?_, connectedCalls_fails env⟩
          refine List.forall_mem_append.mpr ⟨h.none_failed, ?_⟩
          split <;> simp [Call.fails]
        · exact fun _ => hflag
        · intro _ _
          rw [htrace]
          exact idle_connectedCalls env _
      · intro _ hconnected
        rw [htrace, htrace₁, if_pos hconnected]
        exact List.prefix_append _ _
  | executes text =>
      obtain ⟨r', s', hdone, hflag, hstate, htrace⟩ :=
        executeQuery_accepting_any options sessionInitQuery text h.connected
      refine ⟨s', bind_done hdone _, ?_, fun hquit => by cases hquit⟩
      · constructor
        · exact fun _ => hstate
        · rw [htrace]
          refine List.forall_mem_append.mpr ⟨h.none_failed, ?_⟩
          refine List.forall_mem_append.mpr ⟨?_, acceptedCalls_fails env _ _⟩
          split
          · simp
          · exact connectedCalls_fails env
        · exact fun _ => hflag
        · -- the connection is used unless nothing is ever sent
          intro _ hidle
          have hnone : attempts env = 0 := by
            by_contra hsends
            rcases hidle with hzero | hpending
            · exact hsends hzero
            · exact not_pending_of_sends ⟨hsends, text, htreatment⟩ hpending
          rw [htrace, acceptedCalls, if_pos hnone, List.append_nil]
          by_cases hconnected : s.haveConnected = true
          · rw [if_pos hconnected, List.append_nil]
            exact h.idle hconnected (Or.inl hnone)
          · rw [if_neg hconnected]
            exact idle_connectedCalls env _
  | nothing =>
      have hpast : Pending (attempts env ≠ 0) (past ++ [query]) →
          Pending (attempts env ≠ 0) past :=
        pending_of_append (not_leavesIdle_of_nothing htreatment)
      refine ⟨s, rfl, ?_, fun hquit => by cases hquit⟩
      exact ⟨h.connected, h.none_failed, fun hpending => h.open_of_pending (hpast hpending),
        fun hflag hidle => h.idle hflag (hidle.imp_right hpast)⟩

/-- Induction on the entries to come: the accepting server shows every idle connection. -/
theorem queriesFollow_of_accepting {past : List ThreadEntry} {s : MySQLDBThread}
    (hs : Obliged (accepting options sessionInitQuery) past s) (queries : List ThreadEntry)
    {env : Env} (henv : env = accepting options sessionInitQuery)
    (hpast : QuitsFollow (attempts env ≠ 0) past)
    (hused : ∀ t, t <+: (runEntries env 2 queries s).state.trace →
      (∀ x ∈ t, x.fails = false) → EveryConnectUsed t) :
    QuitsFollow (attempts env ≠ 0) (past ++ processed queries) ∧
      ((∃ query ∈ queries, query.isShutdown = true) →
        ¬Pending (attempts env ≠ 0) (past ++ processed queries)) := by
  subst henv
  let env : Env := accepting options sessionInitQuery
  induction queries generalizing past s with
  | nil =>
      rw [processed, List.append_nil]
      refine ⟨hpast, ?_⟩
      rintro ⟨query, hquery, -⟩
      cases hquery
  | cons query queries ih =>
      obtain ⟨s', hdone, hs', hcloses⟩ :=
        handleEntry_accepting options sessionInitQuery hs query
      have hrun : runEntries env 2 (query :: queries) s =
          (if query.isShutdown then disconnect else runEntries env 2 queries) s' :=
        bind_done hdone _
      rw [hrun] at hused
      -- closing an idle connection would be the end of a trace without a failure
      have hclosed : ∀ t, t ++ [.close] <+:
          ((if query.isShutdown then disconnect else runEntries env 2 queries) s').state.trace →
          (∀ x ∈ t, x.fails = false) → ¬Idle t := by
        intro t ht hnone
        refine not_idle_of_closed (hused _ ht (List.forall_mem_append.mpr ⟨hnone, ?_⟩))
        simp [Call.fails]
      have hrest : s'.trace <+:
          ((if query.isShutdown then disconnect else runEntries env 2 queries) s').state.trace :=
        Approximates.extends Earlier.trans
          (Begins.ite disconnect_begins (runEntries_begins (Nat.le_refl 2) queries)) s'
      have hquit : query.treatment = .quit → ¬Pending (attempts env ≠ 0) past := by
        intro hquit hpending
        have hopen : s.haveConnected = true := hs.open_of_pending hpending
        exact hclosed s.trace ((hcloses hquit hopen).trans hrest) hs.none_failed
          (hs.idle hopen (Or.inr hpending))
      have hpast' := always_append_singleton.mpr ⟨hpast, hquit⟩
      rw [processed, List.append_cons]
      by_cases hshutdown : query.isShutdown = true
      · rw [if_pos hshutdown] at hclosed ⊢
        rw [List.append_nil]
        refine ⟨hpast', fun _ hpending => ?_⟩
        have hopen : s'.haveConnected = true := hs'.open_of_pending hpending
        obtain ⟨s'', hdisconnected, -, htrace⟩ := disconnect_done s'
        rw [if_pos hopen] at htrace
        apply hclosed s'.trace _ hs'.none_failed (hs'.idle hopen (Or.inr hpending))
        rw [hdisconnected, ← htrace]
        exact List.prefix_refl _
      · rw [if_neg hshutdown] at hused ⊢
        obtain ⟨hquits, hending⟩ := ih hs' hpast' hused
        refine ⟨hquits, ?_⟩
        rintro ⟨later, hlater, hlast⟩
        rcases List.mem_cons.mp hlater with rfl | hlater
        · exact absurd hlast hshutdown
        · exact hending ⟨later, hlater, hlast⟩

end Accepting

section Runs

variable {env : Env}

/-- The thread when it takes its first entry. -/
def begun : MySQLDBThread := { created false with trace := [.threadInit] }

theorem runEntries_isPrefix (fuel : ℕ) (haveConnected : Bool) (queries : List ThreadEntry) :
    (runEntries env fuel queries begun).state.trace <+: calls env fuel haveConnected queries := by
  have hrun : run env fuel queries (created haveConnected) =
      (runEntries env fuel queries >>= fun _ => record .threadEnd) begun := rfl
  rw [calls, hrun]
  cases hentries : runEntries env fuel queries begun with
  | done _ s =>
      rw [bind_done hentries]
      exact List.prefix_append _ _
  | cut s =>
      exact ⟨[], by rw [bind_cut hentries, List.append_nil]⟩

theorem begun_obliged : Obliged env [] begun where
  connected := by rintro ⟨⟩
  none_failed := by simp [begun, Call.fails]
  open_of_pending h := absurd h not_pending_nil
  idle := by rintro ⟨⟩

/-- No attempt is made when the number of attempts wraps around. -/
theorem sends_eq (env : Env) : (attempts env ≠ 0) = (env.options.maxRetries + 1 ≠ 0) :=
  propext (not_congr (UInt32.toNat_inj (b := 0)))

end Runs

/-- Whatever the server answers as long as it accepts the queries, every connection is used
before it is closed, if and only if the entries send a query between the quits. -/
theorem everyConnectUsed_iff_queriesFollow (options : MySQLOptions) (sessionInitQuery : Bytes)
    (haveConnected : Bool) (queries : List ThreadEntry) :
    (∀ server t, RunPrefix ⟨options, sessionInitQuery, server⟩ haveConnected queries t →
      (∀ x ∈ t, x.fails = false) → EveryConnectUsed t) ↔
      QueriesFollow (options.maxRetries + 1 ≠ 0) queries := by
  constructor
  · intro h
    have hfollow := queriesFollow_of_accepting options sessionInitQuery begun_obliged queries rfl
      always_nil fun t ht hnone =>
        h acceptingServer t ⟨2, ht.trans (runEntries_isPrefix 2 haveConnected queries)⟩ hnone
    rw [List.nil_append, sends_eq] at hfollow
    exact ⟨hfollow.1, hfollow.2⟩
  · rintro h server t ⟨fuel, ht⟩ hnone
    let env : Env := ⟨options, sessionInitQuery, server⟩
    have hsends : QueriesFollow (attempts env ≠ 0) queries := by
      rw [sends_eq]
      exact h
    have hlazy : Lazy (calls env fuel haveConnected queries) :=
      (run_lazy fuel haveConnected hsends _ rfl).state
    exact Lazy.everyConnectUsed (hlazy.of_prefix ht) hnone

/-- A query, a quit and the end: the connection behind the quit is closed unused. -/
theorem quit_leaves_idle :
    let queries : List ThreadEntry :=
      [⟨false, false, some (bytes "SELECT 1")⟩, ⟨true, false, none⟩, finishEntry]
    ∃ t, Returned (accepting {} []) false queries t ∧ (∀ x ∈ t, x.fails = false) ∧
      ¬EveryConnectUsed t := by
  refine ⟨_, ⟨2, _, rfl, rfl⟩, by decide +kernel, fun h => ?_⟩
  have hsplit := h [.threadInit, .init, .realConnect ({} : MySQLOptions).connectArguments true,
    .realQuery .user (bytes "SELECT 1") true, .warningCount, .storeResult, .nextResult, .close,
    .init] (.realConnect ({} : MySQLOptions).connectArguments true) [] [.threadEnd] rfl rfl
    (List.not_mem_nil)
  obtain ⟨y, hy, -⟩ := hsplit
  cases hy

end MySQLDBThread

end QueryPlayback
