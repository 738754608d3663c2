import QueryPlayback.MySQL.Protocol

/-!
# The flag and the handle

`have_connected` says whether the handle is connected whenever a function of the
thread is entered or left, and a connected handle has an initialised session
whenever a query of an entry is about to be sent. There is one lemma for each
function of the thread; the recursion through `init_session` is an induction on
its depth.
-/

namespace QueryPlayback

open MySQL Interruptible Traces

namespace MySQLDBThread

variable {env : Env}

/-- The calls have been allowed, and the handle is in the state they say. -/
structure Safe (env : Env) (s : MySQLDBThread) : Prop where
  allowed : Always (Allowed env.sessionInitQuery) s.trace
  open_iff : Open s.trace ↔ s.handle.state = .connected
  usable_iff : Usable s.trace ↔ s.handle.state ≠ .raw

/-- The flag tells whether the handle is connected. -/
structure InStep (env : Env) (s : MySQLDBThread) : Prop extends Safe env s where
  flag_iff : s.haveConnected = true ↔ s.handle.state = .connected

/-- The handle can be used, connected or not. -/
structure Ready (env : Env) (s : MySQLDBThread) : Prop extends InStep env s where
  usable : s.handle.state ≠ .raw

/-- A connection has an initialised session. Without attempts no query is ever sent. -/
def Prepared (env : Env) (s : MySQLDBThread) : Prop :=
  attempts env ≠ 0 → env.sessionInitQuery ≠ [] → s.haveConnected = true →
    Initialised env.sessionInitQuery s.trace

/-- Calls that neither open nor close anything. -/
def Neutral (c : Call) : Prop := c ≠ .init ∧ c ≠ .close ∧ c.isRealConnect = false

theorem Neutral.open_iff {c : Call} (h : Neutral c) (t : List Call) :
    Open (t ++ [c]) ↔ Open t := by
  have hconnects : c.connects ≠ true := by
    cases c with
    | realConnect arguments succeeded => cases h.2.2
    | _ => exact Bool.false_ne_true
  rw [Open, since_append_singleton, or_iff_right hconnects]
  exact and_iff_right h.2.1

theorem Neutral.usable_iff {c : Call} (h : Neutral c) (t : List Call) :
    Usable (t ++ [c]) ↔ Usable t := by
  rw [Usable, since_append_singleton, or_iff_right h.1]
  exact and_iff_right h.2.1

theorem Neutral.initialised {c : Call} (h : Neutral c) {query : Bytes} {t : List Call}
    (ht : Initialised query t) : Initialised query (t ++ [c]) := by
  refine since_append_singleton.mpr (Or.inr ⟨?_, ht⟩)
  rintro (hclose | hconnect)
  · exact h.2.1 hclose
  · rw [h.2.2] at hconnect
    cases hconnect

/-- A neutral call that is allowed keeps the trace and the handle together. -/
theorem Safe.neutral {s s' : MySQLDBThread} {c : Call} (h : Safe env s) (hc : Neutral c)
    (hallowed : Allowed env.sessionInitQuery s.trace c) (htrace : s'.trace = s.trace ++ [c])
    (hstate : s'.handle.state = s.handle.state) : Safe env s' where
  allowed := by
    rw [htrace]
    exact always_append_singleton.mpr ⟨h.allowed, hallowed⟩
  open_iff := by rw [htrace, hstate, hc.open_iff, h.open_iff]
  usable_iff := by rw [htrace, hstate, hc.usable_iff, h.usable_iff]

theorem Ready.neutral {s s' : MySQLDBThread} {c : Call} (h : Ready env s) (hc : Neutral c)
    (hallowed : Allowed env.sessionInitQuery s.trace c) (htrace : s'.trace = s.trace ++ [c])
    (hstate : s'.handle.state = s.handle.state) (hflag : s'.haveConnected = s.haveConnected) :
    Ready env s' where
  toSafe := h.toSafe.neutral hc hallowed htrace hstate
  flag_iff := by rw [hflag, hstate, h.flag_iff]
  usable := by
    rw [hstate]
    exact h.usable

theorem Prepared.neutral {s s' : MySQLDBThread} {c : Call} (h : Prepared env s) (hc : Neutral c)
    (htrace : s'.trace = s.trace ++ [c]) (hflag : s'.haveConnected = s.haveConnected) :
    Prepared env s' := by
  intro hattempts hquery hconnected
  rw [htrace]
  exact hc.initialised (h hattempts hquery (hflag ▸ hconnected))

section Connecting

/-- What is known behind an attempt to connect. -/
structure Tried (env : Env) (s : MySQLDBThread) : Prop extends Safe env s where
  usable : s.handle.state ≠ .raw
  error_iff : s.handle.error = [] ↔ s.handle.state = .connected

theorem init_spec :
    Triple (fun s => Safe env s ∧ s.handle.state ≠ .connected) init
      (fun _ s => Safe env s ∧ s.handle.state = .idle) (Safe env) := by
  refine Triple.modify fun s ⟨hs, hstate⟩ => ⟨⟨?_, ?_, ?_⟩, rfl⟩
  · exact always_append_singleton.mpr ⟨hs.allowed, fun hopen => hstate (hs.open_iff.mp hopen)⟩
  · have hclosed : ¬Open s.trace := fun hopen => hstate (hs.open_iff.mp hopen)
    simpa [Open, Call.connects] using hclosed
  · simp [Usable]

theorem realConnect_spec :
    Triple (fun s => Safe env s ∧ s.handle.state = .idle)
      (realConnect env.server env.options.connectArguments)
      (fun succeeded s => Tried env s ∧ (succeeded = true → s.handle.state = .connected) ∧
        (succeeded = false → s.handle.state ≠ .connected)) (Safe env) := by
  intro s ⟨hs, hstate⟩
  have hclosed : ¬Open s.trace := by simp [hs.open_iff, hstate]
  have husable : Usable s.trace := by simp [hs.usable_iff, hstate]
  have hallowed : ∀ succeeded, Always (Allowed env.sessionInitQuery)
      (s.trace ++ [.realConnect env.options.connectArguments succeeded]) := fun succeeded =>
    always_append_singleton.mpr ⟨hs.allowed, husable, hclosed⟩
  have hopen : ∀ succeeded, Open (s.trace ++
      [.realConnect env.options.connectArguments succeeded]) ↔ succeeded = true := by
    intro succeeded
    rw [Open, since_append_singleton]
    exact or_iff_left fun h => hclosed h.2
  have husable' : ∀ succeeded, Usable (s.trace ++
      [.realConnect env.options.connectArguments succeeded]) := fun succeeded =>
    since_append_singleton.mpr (Or.inr ⟨by simp, husable⟩)
  unfold realConnect
  cases hreply : env.server.connect s.trace.length with
  | accepted =>
      refine ⟨⟨⟨hallowed _, ?_, ?_⟩, ?_, ?_⟩, ?_, ?_⟩
      · simpa [Handle.connect, ConnectReply.succeeded] using hopen true
      · simpa [Handle.connect, ConnectReply.succeeded] using husable' true
      · simp [Handle.connect]
      · simp [Handle.connect]
      · simp [Handle.connect]
      · simp [ConnectReply.succeeded]
  | refused errno error nonempty =>
      refine ⟨⟨⟨hallowed _, ?_, ?_⟩, ?_, ?_⟩, ?_, ?_⟩
      · simpa [Handle.connect, ConnectReply.succeeded, hstate] using hopen false
      · simpa [Handle.connect, ConnectReply.succeeded, hstate] using husable' false
      · simp [Handle.connect, hstate]
      · simp [Handle.connect, hstate, nonempty]
      · simp [ConnectReply.succeeded]
      · simp [Handle.connect, hstate]

/-- The loop goes on only behind a failure. -/
theorem tryConnect_spec :
    Triple (fun s => Safe env s ∧ s.handle.state ≠ .connected) (tryConnect env)
      (fun again s => Tried env s ∧ (again = true → s.handle.state ≠ .connected)) (Safe env) := by
  apply init_spec.bind
  intro _
  apply realConnect_spec.bind
  intro succeeded
  apply Triple.ite (fun _ => Triple.pure fun s hs => ⟨hs.1, by simp⟩)
  intro hfailed
  have hfailed : succeeded = false := by simpa using hfailed
  refine Triple.bind (Q := fun _ s => Tried env s ∧ s.handle.state ≠ .connected)
    (Triple.modify fun s hs => ?_) fun _ => Triple.gets fun s hs => ⟨hs.1, fun _ => hs.2⟩
  exact ⟨⟨⟨hs.1.allowed, hs.1.open_iff, hs.1.usable_iff⟩, hs.1.usable, hs.1.error_iff⟩,
    hs.2.2 hfailed⟩

theorem usleep_tried_spec (useconds : UInt32) :
    Triple (fun s => Tried env s ∧ s.handle.state ≠ .connected) (usleep env.server useconds)
      (fun _ s => Tried env s ∧ s.handle.state ≠ .connected) (Safe env) := by
  intro s ⟨hs, hstate⟩
  have hneutral : Neutral (.usleep useconds) := ⟨by simp, by simp, rfl⟩
  exact ⟨⟨hs.toSafe.neutral hneutral trivial rfl rfl, hs.usable, hs.error_iff⟩, hstate⟩

theorem connectLoop_spec (left numTries : Nat) :
    Triple (fun s => Safe env s ∧ s.handle.state ≠ .connected) (connectLoop env left numTries)
      (fun _ => Tried env) (Safe env) := by
  induction left generalizing numTries with
  | zero => exact tryConnect_spec.bind fun _ => Triple.pure fun s hs => hs.1
  | succ left ih =>
      apply tryConnect_spec.bind
      intro again
      refine Triple.ite (fun hagain => ?_) fun _ => Triple.pure fun s hs => hs.1
      apply Triple.bind ((usleep_tried_spec _).pre fun s hs => ⟨hs.1, hs.2 hagain⟩)
      intro result
      refine Triple.ite (fun _ => ?_) fun _ => Triple.pure fun s hs => hs.1
      exact (ih (numTries + 1)).pre fun s hs => ⟨hs.1.toSafe, hs.2⟩

theorem connect_spec :
    Triple (fun s => Safe env s ∧ s.handle.state ≠ .connected) (connect env)
      (fun connected s => Ready env s ∧ connected = s.haveConnected) (Safe env) := by
  refine (connectLoop_spec _ _).bind fun _ => Triple.bind
    (Triple.gets (Q := fun error s => Tried env s ∧ error = s.handle.error) fun s hs => ⟨hs, rfl⟩)
    fun error => ?_
  refine Triple.ite (fun herror => ?_) fun herror => ?_
  · refine Triple.bind (Q := fun _ s => Ready env s ∧ s.haveConnected = false)
      (Triple.modify fun s hs => ?_) fun _ => Triple.pure fun s hs => ⟨hs.1, hs.2.symm⟩
    obtain ⟨hs, rfl⟩ := hs
    have hstate : s.handle.state ≠ .connected := fun h => herror (hs.error_iff.mpr h)
    exact ⟨⟨⟨⟨hs.allowed, hs.open_iff, hs.usable_iff⟩, by simp [hstate]⟩, hs.usable⟩, rfl⟩
  · refine Triple.bind (Q := fun _ s => Ready env s ∧ s.haveConnected = true)
      (Triple.modify fun s hs => ?_) fun _ => Triple.pure fun s hs => ⟨hs.1, hs.2.symm⟩
    obtain ⟨hs, rfl⟩ := hs
    have hstate : s.handle.state = .connected := hs.error_iff.mp (by simpa using herror)
    exact ⟨⟨⟨⟨hs.allowed, hs.open_iff, hs.usable_iff⟩, by simp [hstate]⟩, hs.usable⟩, rfl⟩

end Connecting

section Executing

/-- The handle can be used, and a query of an entry could be sent. -/
structure Fit (env : Env) (s : MySQLDBThread) : Prop extends Ready env s where
  prepared : Prepared env s

theorem disconnect_spec :
    Triple (InStep env) disconnect (fun _ s => InStep env s ∧ s.haveConnected = false)
      (Safe env) := by
  refine Triple.bind (Triple.gets (Q := fun b s => InStep env s ∧ b = s.haveConnected)
    fun s hs => ⟨hs, rfl⟩) fun b => ?_
  refine Triple.bind (Q := fun _ s => Safe env s ∧ s.handle.state ≠ .connected)
    (Triple.ite (fun hb => ?_) fun hb => ?_) fun _ => Triple.modify fun s hs => ?_
  · apply Triple.modify
    intro s hs
    obtain ⟨hs, rfl⟩ := hs
    have hopen : Open s.trace := hs.open_iff.mpr (hs.flag_iff.mp hb)
    refine ⟨⟨always_append_singleton.mpr ⟨hs.allowed, hopen⟩, ?_, ?_⟩, by simp⟩
    · simp [Open, Call.connects]
    · simp [Usable]
  · refine Triple.pure fun s hs => ⟨hs.1.toSafe, ?_⟩
    obtain ⟨hs, rfl⟩ := hs
    exact fun hstate => hb (hs.flag_iff.mpr hstate)
  · exact ⟨⟨⟨hs.1.allowed, hs.1.open_iff, hs.1.usable_iff⟩, by simp [hs.2]⟩, rfl⟩

/-- The calls that read an answer. -/
theorem record_spec {c : Call} (hc : Neutral c)
    (hallowed : ∀ past, Usable past → Allowed env.sessionInitQuery past c) :
    Triple (Fit env) (record c) (fun _ => Fit env) (Safe env) := by
  refine Triple.modify fun s hs => ⟨hs.toReady.neutral hc ?_ rfl rfl rfl,
    hs.prepared.neutral hc rfl rfl⟩
  exact hallowed _ (hs.usable_iff.mpr hs.usable)

theorem recorded_spec {A : Type} {c : Call} {a : A} (hc : Neutral c)
    (hallowed : ∀ past, Usable past → Allowed env.sessionInitQuery past c) :
    Triple (Fit env) (record c >>= fun _ => pure a) (fun _ => Fit env) (Safe env) := by
  apply Triple.bind (record_spec hc hallowed)
  exact fun _ => Triple.pure fun s hs => hs

theorem countRows_spec (result : Option Nat) (r : QueryResult) :
    Triple (Fit env) (countRows result r) (fun _ => Fit env) (Safe env) := by
  cases result with
  | none => exact Triple.pure fun s hs => hs
  | some rows =>
      have hnumRows : Neutral .numRows := ⟨by simp, by simp, rfl⟩
      have hfreeResult : Neutral .freeResult := ⟨by simp, by simp, rfl⟩
      apply Triple.bind (recorded_spec hnumRows fun _ => id)
      intro rowsSent
      exact recorded_spec hfreeResult fun _ => id

theorem readResults_spec (answer : Answer) (fuel i : Nat) (r : QueryResult) :
    Triple (Fit env) (readResults answer fuel i r) (fun _ => Fit env) (Safe env) := by
  induction fuel generalizing i r with
  | zero => exact Triple.cutOff fun s hs => hs.toSafe
  | succ fuel ih =>
      have hstoreResult : Neutral .storeResult := ⟨by simp, by simp, rfl⟩
      have hnextResult : Neutral .nextResult := ⟨by simp, by simp, rfl⟩
      apply Triple.bind (recorded_spec hstoreResult fun _ => id)
      intro result
      apply (countRows_spec result r).bind
      intro r
      apply Triple.bind (recorded_spec hnextResult fun _ => id)
      intro status
      exact Triple.ite (fun _ => ih (i + 1) r) fun _ => Triple.pure fun s hs => hs

theorem readAnswer_spec (fuel : Nat) (answer : Answer) (r : QueryResult) :
    Triple (Fit env) (readAnswer fuel answer r) (fun _ => Fit env) (Safe env) := by
  have hwarningCount : Neutral .warningCount := ⟨by simp, by simp, rfl⟩
  apply Triple.bind (recorded_spec hwarningCount fun _ => id)
  intro warnings
  exact readResults_spec answer fuel 0 _

/-- Only the query of an entry needs the session to be initialised before. -/
def Fits (env : Env) (origin : Origin) (s : MySQLDBThread) : Prop :=
  origin = .user → Prepared env s

/-- What the callers of `execute_query` rely on. -/
def ExecuteSpec (env : Env) (exec : Execute) : Prop :=
  ∀ origin query r, (origin = .sessionInit → query = env.sessionInitQuery) →
    Triple (fun s => InStep env s ∧ Fits env origin s) (exec origin query r)
      (fun _ => Fit env) (Safe env)

variable {exec : Execute}

theorem connectAndInitSession_spec (hexecute : ExecuteSpec env exec) :
    Triple (fun s => InStep env s ∧ s.haveConnected = false)
      (connectAndInitSession env exec) (fun _ => Fit env) (Safe env) := by
  refine (connect_spec.pre fun s hs => ⟨hs.1.toSafe, fun hstate => ?_⟩).bind fun connected => ?_
  · have hflag := hs.1.flag_iff.mpr hstate
    rw [hs.2] at hflag
    cases hflag
  · refine Triple.ite (fun _ => ?_) fun hfailed => Triple.pure fun s hs => ⟨hs.1, ?_⟩
    · refine Triple.bind (Q := fun _ => Fit env) ?_ fun _ => Triple.pure fun s hs => hs
      refine Triple.ite (fun hempty => Triple.pure fun s hs => ⟨hs.1, ?_⟩) fun _ => ?_
      · exact fun _ hquery => absurd hempty hquery
      · refine Triple.bind ((hexecute .sessionInit _ {} fun _ => rfl).pre fun s hs => ?_) fun _ =>
          Triple.pure fun s hs => hs
        exact ⟨hs.1.toInStep, by rintro ⟨⟩⟩
    · obtain ⟨-, rfl⟩ := hs
      exact fun _ _ hconnected => absurd hconnected hfailed

theorem usleep_spec (useconds : UInt32) :
    Triple (Ready env) (usleep env.server useconds) (fun _ => Ready env) (Safe env) := by
  intro s hs
  have hneutral : Neutral (.usleep useconds) := ⟨by simp, by simp, rfl⟩
  exact hs.neutral hneutral trivial rfl rfl rfl

theorem reconnect_spec (hexecute : ExecuteSpec env exec) (i : Nat) :
    Triple (Ready env) (reconnect env exec i) (fun _ => Fit env) (Safe env) := by
  apply Triple.bind (Triple.gets (Q := fun _ => Ready env) fun s hs => hs)
  intro errno
  refine Triple.bind (Q := fun _ => Ready env)
    (Triple.ite (fun _ => usleep_spec _) fun _ => Triple.pure fun s hs => hs) fun _ => ?_
  apply (disconnect_spec.pre fun s hs => hs.toInStep).bind
  intro _
  exact (connectAndInitSession_spec hexecute).bind fun _ => Triple.pure fun s hs => hs

theorem realQuery_spec {origin : Origin} {query : Bytes} (hattempts : attempts env ≠ 0)
    (hquery : origin = .sessionInit → query = env.sessionInitQuery) :
    Triple (fun s => Ready env s ∧ Fits env origin s) (realQuery env.server origin query)
      (fun reply s => Ready env s ∧ (reply.succeeded = true → Prepared env s)) (Safe env) := by
  intro s ⟨hs, hfits⟩
  set reply := s.handle.query (env.server.query s.trace.length) with hreply
  have hneutral : Neutral (.realQuery origin query reply.succeeded) := ⟨by simp, by simp, rfl⟩
  refine ⟨hs.neutral hneutral ⟨hs.usable_iff.mpr hs.usable, fun hsucceeded => ?_,
    fun horigin hinit hopen => ?_⟩ rfl rfl rfl, fun hsucceeded => ?_⟩
  · apply hs.open_iff.mpr
    by_contra hstate
    have hgone : reply = .serverGone := by
      rw [hreply, Handle.query]
      split
      · rename_i hconnected
        exact absurd hconnected hstate
      · rfl
    rw [hgone] at hsucceeded
    cases hsucceeded
  · exact hfits horigin hattempts hinit (hs.flag_iff.mpr (hs.open_iff.mp hopen))
  · cases origin with
    | user => exact (hfits rfl).neutral hneutral rfl rfl
    | sessionInit =>
        intro _ _ _
        refine since_append_singleton.mpr (Or.inl ?_)
        rw [← hquery rfl]
        exact congrArg _ hsucceeded

theorem queryLoop_spec (hexecute : ExecuteSpec env exec) {origin : Origin} {query : Bytes}
    (hquery : origin = .sessionInit → query = env.sessionInitQuery) (fuel : Nat) {left : Nat}
    (hleft : left ≤ attempts env) (i : Nat) (r : QueryResult) :
    Triple (fun s => Ready env s ∧ Fits env origin s ∧ (left = 0 → Prepared env s))
      (queryLoop env exec fuel origin query left i r) (fun _ => Fit env) (Safe env) := by
  induction left generalizing i r with
  | zero => exact Triple.pure fun s hs => ⟨hs.1, hs.2.2 rfl⟩
  | succ left ih =>
      have hattempts : attempts env ≠ 0 := by omega
      apply ((realQuery_spec hattempts hquery).pre fun s hs => ⟨hs.1, hs.2.1⟩).bind
      intro reply
      cases reply with
      | failed code errno error nonzero =>
          apply Triple.bind ((reconnect_spec hexecute i).pre fun s hs => hs.1)
          intro _
          exact (ih (by omega) (i + 1) _).pre fun s hs =>
            ⟨hs.toReady, fun _ => hs.prepared, fun _ => hs.prepared⟩
      | accepted answer =>
          exact (readAnswer_spec fuel answer _).pre fun s hs => ⟨hs.1, hs.2 rfl⟩

theorem ensureConnected_spec (hexecute : ExecuteSpec env exec) (origin : Origin) :
    Triple (fun s => InStep env s ∧ Fits env origin s) (ensureConnected env exec)
      (fun _ s => Ready env s ∧ Fits env origin s) (Safe env) := by
  refine Triple.bind (Triple.gets (Q := fun b s => InStep env s ∧ Fits env origin s ∧
    b = s.haveConnected) fun s hs => ⟨hs.1, hs.2, rfl⟩) fun b => ?_
  refine Triple.ite (fun hb => Triple.pure fun s hs => ?_) fun hb => ?_
  · obtain ⟨hs, hfits, rfl⟩ := hs
    exact ⟨⟨hs, by simp [hs.flag_iff.mp hb]⟩, hfits⟩
  · refine Triple.bind ((connectAndInitSession_spec hexecute).pre fun s hs => ⟨hs.1, ?_⟩) fun _ =>
      Triple.pure fun s hs => ⟨hs.toReady, fun _ => hs.prepared⟩
    rw [← hs.2.2]
    simpa using hb

/-- Induction on the depth: the inner calls of `execute_query` are those of `init_session`. -/
theorem executeQuery_spec (fuel : Nat) : ExecuteSpec env (executeQuery env fuel) := by
  induction fuel with
  | zero => exact fun origin query r _ => Triple.cutOff fun s hs => hs.1.toSafe
  | succ fuel ih =>
      intro origin query r hquery
      apply (ensureConnected_spec ih origin).bind
      intro _
      exact (queryLoop_spec ih hquery (fuel + 1) (Nat.le_refl _) 0 r).pre fun s hs =>
        ⟨hs.1, hs.2, fun hnone hattempts => absurd hnone hattempts⟩

end Executing

section Running

/-- What is known between two entries. -/
structure Between (env : Env) (s : MySQLDBThread) : Prop extends InStep env s where
  prepared : Prepared env s

theorem Fit.between {s : MySQLDBThread} (h : Fit env s) : Between env s :=
  ⟨h.toInStep, h.prepared⟩

theorem handleEntry_spec (fuel : Nat) (query : ThreadEntry) :
    Triple (Between env) (handleEntry env fuel query) (fun _ => Between env) (Safe env) := by
  refine Triple.ite (fun _ => ?_) fun _ => ?_
  · apply (disconnect_spec.pre fun s hs => hs.toInStep).bind
    intro _
    exact (connectAndInitSession_spec (executeQuery_spec fuel)).bind fun _ =>
      Triple.pure fun s hs => hs.between
  · unfold execute
    cases query.text with
    | none => exact Triple.pure fun s hs => hs
    | some text =>
        have hspec : ExecuteSpec env (executeQuery env fuel) := executeQuery_spec fuel
        have huser := hspec .user text {} (by rintro ⟨⟩)
        exact Triple.bind (huser.pre fun s hs => ⟨hs.toInStep, fun _ => hs.prepared⟩) fun _ =>
          Triple.pure fun s hs => hs.between

/-- Behind the loop the connection is closed. -/
theorem runEntries_spec (fuel : Nat) (queries : List ThreadEntry) :
    Triple (Between env) (runEntries env fuel queries)
      (fun _ s => Safe env s ∧ s.handle.state ≠ .connected) (Safe env) := by
  induction queries with
  | nil => exact Triple.cutOff fun s hs => hs.toSafe
  | cons query queries ih =>
      refine (handleEntry_spec fuel query).bind fun _ => Triple.ite (fun _ => ?_) fun _ => ih
      refine (disconnect_spec.pre fun s hs => hs.toInStep).post fun _ s hs => ⟨hs.1.toSafe, ?_⟩
      intro hstate
      have hflag := hs.1.flag_iff.mpr hstate
      rw [hs.2] at hflag
      cases hflag

theorem run_spec (fuel : Nat) (queries : List ThreadEntry) (haveConnected : Bool) :
    Triple (· = created haveConnected) (run env fuel queries)
      (fun _ s => Safe env s ∧ s.handle.state ≠ .connected) (Safe env) := by
  refine Triple.bind (Q := fun _ s => s = created false) (Triple.modify ?_) fun _ => ?_
  · rintro s rfl
    rfl
  · refine Triple.bind (Q := fun _ => Between env) (Triple.modify ?_) fun _ => ?_
    · rintro s rfl
      refine ⟨⟨⟨?_, ?_, ?_⟩, by simp [created]⟩, fun _ _ hconnected => by cases hconnected⟩
      · exact always_append_singleton.mpr ⟨always_nil, trivial⟩
      · simp [created, Open, Since, List.singleton_eq_append_iff, Call.connects]
      · simp [created, Usable, Since, List.singleton_eq_append_iff]
    · have hneutral : Neutral .threadEnd := ⟨by simp, by simp, rfl⟩
      exact (runEntries_spec fuel queries).bind fun _ => Triple.modify fun s hs =>
        ⟨hs.1.neutral hneutral trivial rfl rfl, hs.2⟩

end Running

end MySQLDBThread

end QueryPlayback
