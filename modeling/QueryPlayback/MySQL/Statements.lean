import QueryPlayback.MySQL.Calls
import QueryPlayback.MySQL.Termination

/-!
# The errors of a text with several statements

The outcome of the first statement is the return value of `mysql_real_query`,
those of the others are the return values of `mysql_next_result`. `execute_query`
sets the error of its result from the first one and takes any other value of the
second one but zero for the end of the results.

## Implementation notes

The outcomes of the statements are the server's, one sequence for each call. The
server runs the statements of a text in turn up to the first one that fails.
-/

namespace QueryPlayback

open MySQL Interruptible

namespace MySQL

/-- What the server makes of one statement. -/
inductive StatementOutcome
  | executed (rows : Option ℕ)
  | failed (code : ℕ) (errno : ℕ) (error : Bytes) (positive : 0 < code)

namespace StatementOutcome

def succeeded : StatementOutcome → Bool
  | executed _ => true
  | failed .. => false

/-- The result set, if there is one. -/
def rows : StatementOutcome → Option ℕ
  | executed rows => rows
  | failed .. => none

/-- What `mysql_next_result` returns for the statement. -/
def status : StatementOutcome → Int
  | executed _ => 0
  | failed code .. => code

end StatementOutcome

/-- The outcomes of the statements of a text. -/
structure TextOutcome where
  warningCount : ℕ
  first : StatementOutcome
  others : List StatementOutcome

namespace TextOutcome

/-- All statements have been executed without an error. -/
def executedAll (o : TextOutcome) : Bool := o.first.succeeded && o.others.all (·.succeeded)

/-- The results as the library hands them out; behind the last one it returns `-1`. -/
def answer (o : TextOutcome) : Answer where
  warningCount := o.warningCount
  result
    | 0 => o.first.rows
    | i + 1 => (o.others[i]?).bind (·.rows)
  next i := ((o.others[i]?).map (·.status)).getD (-1)

/-- The outcome of `mysql_real_query` for the text. -/
def reply (o : TextOutcome) : QueryReply :=
  match o.first with
  | .executed _ => .accepted o.answer
  | .failed code errno error positive =>
      .failed code errno error (Int.natCast_ne_zero_iff_pos.mpr positive)

end TextOutcome

/-- A server given by the outcomes of the statements. -/
def statementServer (connect : ℕ → ConnectReply) (outcomes : ℕ → TextOutcome)
    (usleep : ℕ → Int) : Server where
  connect := connect
  query n := (outcomes n).reply
  usleep := usleep

/-- The call is the `n`-th one, and the server has accepted the text in it. -/
def AcceptedAt (calls : List Call) (query : Bytes) (n : ℕ) : Prop :=
  calls[n]? = some (.realQuery .user query true)

/-- No query of an entry is accepted. -/
def Quiet (c : Call) : Prop := ∀ query, c ≠ .realQuery .user query true

theorem quiet_of_connecting {c : Call} (h : c.connecting = true) : Quiet c := by
  rintro query rfl
  cases h

theorem quiet_of_reading {c : Call} (h : c.reading = true) : Quiet c := by
  rintro query rfl
  cases h

end MySQL

namespace MySQLDBThread

variable {A B : Type}

/-- Without accepting a query of an entry the computation returns what satisfies `Q`. -/
def Quietly (c : Client A) (Q : A → Prop) : Prop :=
  ∀ t, Triple (fun s => s.trace = t) c
    (fun a s => Q a ∧ ∃ calls, s.trace = t ++ calls ∧ ∀ x ∈ calls, Quiet x) fun _ => True

section Rules

variable {Q : A → Prop} {Q' : B → Prop}

theorem Quietly.pure {a : A} (ha : Q a) : Quietly (pure a) Q :=
  fun _ => Triple.pure fun _ hs => ⟨ha, [], by simpa using hs, by simp⟩

theorem Quietly.cutOff : Quietly cutOff Q := fun _ => Triple.cutOff fun _ _ => trivial

theorem Quietly.gets (f : MySQLDBThread → A) : Quietly (gets f) fun _ => True :=
  fun _ => Triple.gets fun _ hs => ⟨trivial, [], by simpa using hs, by simp⟩

/-- A library call returns and is recorded. -/
theorem Quietly.call {c : Client A}
    (h : ∀ s, ∃ a s' x, c s = .done a s' ∧ s'.trace = s.trace ++ [x] ∧ Quiet x ∧ Q a) :
    Quietly c Q := by
  rintro t s rfl
  obtain ⟨a, s', x, hc, htrace, hx, ha⟩ := h s
  rw [hc]
  exact ⟨ha, [x], htrace, by simpa using hx⟩

theorem Quietly.bind {c : Client A} {f : A → Client B} (hc : Quietly c Q)
    (hf : ∀ a, Q a → Quietly (f a) Q') : Quietly (c >>= f) Q' := by
  intro t
  apply (hc t).bind
  rintro a s ⟨ha, calls, htrace, hcalls⟩
  have hrest : Triple (fun s' => s'.trace = s.trace) (f a) (fun b s' => Q' b ∧
      ∃ calls, s'.trace = t ++ calls ∧ ∀ x ∈ calls, Quiet x) fun _ => True := by
    apply (hf a ha s.trace).post
    rintro b s' ⟨hb, calls', htrace', hcalls'⟩
    refine ⟨hb, calls ++ calls', by simp [htrace', htrace], ?_⟩
    exact List.forall_mem_append.mpr ⟨hcalls, hcalls'⟩
  exact hrest s rfl

theorem Quietly.ite {b : Prop} [Decidable b] {c d : Client A} (hc : Quietly c Q)
    (hd : Quietly d Q) : Quietly (if b then c else d) Q := by
  split
  · exact hc
  · exact hd

theorem Quietly.weaken {Q₁ : A → Prop} {c : Client A} (hc : Quietly c Q) (h : ∀ a, Q a → Q₁ a) :
    Quietly c Q₁ :=
  fun t => (hc t).post fun a _ hs => ⟨h a hs.1, hs.2⟩

/-- Calls of a quiet kind. -/
theorem Makes.quietly {P : Call → Prop} {c : Client A} (hc : Makes P c Q)
    (hP : ∀ x, P x → Quiet x) : Quietly c Q := by
  intro t
  refine (hc t).consequence (fun _ => id) ?_ fun _ _ => trivial
  rintro a s ⟨calls, htrace, ha, hcalls⟩
  exact ⟨ha, calls, htrace, fun x hx => hP x (hcalls x hx)⟩

end Rules

section Functions

variable {env : Env}

theorem usleep_quietly (useconds : UInt32) :
    Quietly (usleep env.server useconds) fun _ => True :=
  (usleep_makes useconds).quietly fun _ => quiet_of_connecting

theorem connect_quietly : Quietly (connect env) fun _ => True :=
  connect_makes.quietly fun _ => quiet_of_connecting

theorem disconnect_quietly : Quietly disconnect fun _ => True :=
  disconnect_makes.quietly fun x hx => by simp [hx, Quiet]

/-- Reading the results leaves the error as it is. -/
theorem readAnswer_quietly (fuel : ℕ) (answer : Answer) (r : QueryResult) :
    Quietly (readAnswer fuel answer r) fun r' => r'.error = r.error :=
  (readAnswer_makes fuel answer r).quietly fun _ => quiet_of_reading

/-- In the place of `execute_query`, for the init query only. -/
def InitQuietly (exec : Execute) : Prop :=
  ∀ query r, Quietly (exec .sessionInit query r) fun _ => True

variable {exec : Execute}

theorem connectAndInitSession_quietly (h : InitQuietly exec) :
    Quietly (connectAndInitSession env exec) fun _ => True := by
  apply connect_quietly.bind
  intro connected _
  refine Quietly.ite ?_ (Quietly.pure trivial)
  apply Quietly.bind (Q := fun _ => True)
  · apply Quietly.ite (Quietly.pure trivial)
    exact (h _ _).bind fun _ _ => Quietly.pure trivial
  · exact fun _ _ => Quietly.pure trivial

theorem ensureConnected_quietly (h : InitQuietly exec) :
    Quietly (ensureConnected env exec) fun _ => True := by
  apply (Quietly.gets _).bind
  intro haveConnected _
  apply Quietly.ite (Quietly.pure trivial)
  exact (connectAndInitSession_quietly h).bind fun _ _ => Quietly.pure trivial

theorem reconnect_quietly (h : InitQuietly exec) (i : ℕ) :
    Quietly (reconnect env exec i) fun _ => True := by
  apply (Quietly.gets _).bind
  intro errno _
  apply (Quietly.ite (usleep_quietly _) (Quietly.pure trivial)).bind
  intro _ _
  apply disconnect_quietly.bind
  intro _ _
  exact (connectAndInitSession_quietly h).bind fun _ _ => Quietly.pure trivial

/-- A query of the session is none of an entry. -/
theorem queryLoop_init_quietly (h : InitQuietly exec) (fuel : ℕ) (query : Bytes) (left i : ℕ)
    (r : QueryResult) :
    Quietly (queryLoop env exec fuel .sessionInit query left i r) fun _ => True := by
  induction left generalizing i r with
  | zero => exact Quietly.pure trivial
  | succ left ih =>
      have hquery : Quietly (realQuery env.server .sessionInit query) fun _ => True :=
        Quietly.call fun _ => ⟨_, _, _, rfl, rfl, by simp [Quiet], trivial⟩
      apply hquery.bind
      intro reply _
      cases reply with
      | failed code errno error nonzero =>
          exact (reconnect_quietly h i).bind fun _ _ => ih (i + 1) _
      | accepted answer => exact (readAnswer_quietly fuel answer _).weaken fun _ _ => trivial

/-- The recursion through `init_session`: induction on its depth. -/
theorem executeQuery_initQuietly (fuel : ℕ) : InitQuietly (executeQuery env fuel) := by
  induction fuel with
  | zero => exact fun _ _ => Quietly.cutOff
  | succ fuel ih =>
      intro query r
      apply (ensureConnected_quietly ih).bind
      intro _ _
      exact queryLoop_init_quietly ih _ query _ 0 r

end Functions

section Attempts

variable {env : Env}

/-- How `left` attempts at the text of an entry have ended, begun behind the calls `t`. -/
inductive Attempts (server : Server) (query : Bytes) (t : List Call) (left : ℕ)
    (r r' : QueryResult) (s : MySQLDBThread) : Prop
  | accepted (before after : List Call)
      (trace_eq : s.trace = t ++ before ++ .realQuery .user query true :: after)
      (before_quiet : ∀ x ∈ before, Quiet x) (after_quiet : ∀ x ∈ after, Quiet x)
      (served : (server.query (t ++ before).length).succeeded = true)
      (attempted : left ≠ 0) (error_eq : r'.error = 0)
  | refused (calls : List Call) (trace_eq : s.trace = t ++ calls)
      (quiet : ∀ x ∈ calls, Quiet x) (unset : left = 0 → r'.error = r.error)
      (set : left ≠ 0 → r'.error ≠ 0)

/-- One more attempt in front that has failed. -/
theorem Attempts.succ {server : Server} {query : Bytes} {t calls : List Call} {left : ℕ}
    {r r₁ r' : QueryResult} {s : MySQLDBThread}
    (h : Attempts server query (t ++ calls) left r₁ r' s)
    (hcalls : ∀ x ∈ calls, Quiet x) (hr₁ : r₁.error ≠ 0) :
    Attempts server query t (left + 1) r r' s := by
  cases h with
  | accepted before after trace_eq before_quiet after_quiet served attempted error_eq =>
      rw [List.append_assoc t] at trace_eq served
      refine Attempts.accepted (calls ++ before) after trace_eq ?_ after_quiet served
        (Nat.succ_ne_zero left) error_eq
      exact List.forall_mem_append.mpr ⟨hcalls, before_quiet⟩
  | refused calls' trace_eq quiet unset set =>
      apply Attempts.refused (calls ++ calls')
      · rw [trace_eq, List.append_assoc]
      · exact List.forall_mem_append.mpr ⟨hcalls, quiet⟩
      · intro hzero
        cases hzero
      · intro _
        cases left with
        | zero => rwa [unset rfl]
        | succ left => exact set (Nat.succ_ne_zero left)

/-- A text that is accepted has been sent to the server. -/
theorem query_eq_accepted {h : Handle} {reply : QueryReply} {answer : Answer}
    (heq : h.query reply = .accepted answer) : reply = .accepted answer := by
  unfold Handle.query at heq
  split at heq
  · exact heq
  · cases heq

theorem queryLoop_attempts {exec : Execute} (hexec : InitQuietly exec) (fuel : ℕ) (query : Bytes)
    (left i : ℕ) (r : QueryResult) (t : List Call) :
    Triple (fun s => s.trace = t) (queryLoop env exec fuel .user query left i r)
      (fun r' s => Attempts env.server query t left r r' s) fun _ => True := by
  induction left generalizing i r t with
  | zero =>
      refine Triple.pure fun s hs => Attempts.refused [] ?_ (by simp) (fun _ => rfl) ?_
      · rw [hs, List.append_nil]
      · exact fun hne => absurd rfl hne
  | succ left ih =>
      rintro s rfl
      rw [queryLoop, bind_done (show realQuery env.server .user query s = .done _ _ from rfl)]
      cases hreply : s.handle.query (env.server.query s.trace.length) with
      | failed code errno error nonzero =>
          refine Triple.bind ((reconnect_quietly hexec i) _) (fun _ => ?_) _ rfl
          rintro s₁ ⟨-, calls, htrace, hcalls⟩
          have hfailed : Quiet (.realQuery .user query false) := by simp [Quiet]
          refine ((ih (i + 1) { r with error := code } s₁.trace).post ?_) s₁ rfl
          intro r' s' hattempts
          rw [htrace, List.append_assoc] at hattempts
          exact hattempts.succ (List.forall_mem_cons.mpr ⟨hfailed, hcalls⟩) nonzero
      | accepted answer =>
          refine ((readAnswer_quietly fuel answer { r with error := 0 }) _).post ?_ _ rfl
          rintro r' s' ⟨herror, calls, htrace, hcalls⟩
          have hserved : (env.server.query s.trace.length).succeeded = true := by
            rw [query_eq_accepted hreply]
            rfl
          apply Attempts.accepted [] calls
          · rw [htrace, List.append_nil, ← List.append_cons]
            rfl
          · simp
          · exact hcalls
          · rw [List.append_nil]
            exact hserved
          · exact Nat.succ_ne_zero left
          · exact herror

/-- A call of `execute_query` for an entry. -/
theorem executeQuery_attempts (fuel : ℕ) (query : Bytes) (r : QueryResult) (t : List Call) :
    Triple (fun s => s.trace = t) (executeQuery env fuel .user query r)
      (fun r' s => ∃ calls, (∀ x ∈ calls, Quiet x) ∧
        Attempts env.server query (t ++ calls) (attempts env) r r' s) fun _ => True := by
  cases fuel with
  | zero => exact Triple.cutOff fun _ _ => trivial
  | succ fuel =>
      have hexec : InitQuietly (executeQuery env fuel) := executeQuery_initQuietly fuel
      refine Triple.bind (ensureConnected_quietly hexec t) fun _ => ?_
      rintro s ⟨-, calls, htrace, hcalls⟩
      refine ((queryLoop_attempts hexec _ query (attempts env) 0 r s.trace).post ?_) s rfl
      intro r' s' hattempts
      rw [htrace] at hattempts
      exact ⟨calls, hcalls, hattempts⟩

/-- Among quiet calls there is no accepted query. -/
theorem not_acceptedAt {t calls : List Call} {query : Bytes} {n : ℕ}
    (hcalls : ∀ x ∈ calls, Quiet x) (hn : t.length ≤ n) : ¬AcceptedAt (t ++ calls) query n := by
  intro h
  rw [AcceptedAt, List.getElem?_append_right hn] at h
  exact hcalls _ (List.mem_of_getElem? h) query rfl

/-- Between quiet calls there is the one that has been accepted. -/
theorem acceptedAt_iff {t before after : List Call} {query : Bytes} {n : ℕ}
    (hbefore : ∀ x ∈ before, Quiet x) (hafter : ∀ x ∈ after, Quiet x) (hn : t.length ≤ n) :
    AcceptedAt (t ++ before ++ .realQuery .user query true :: after) query n ↔
      n = t.length + before.length := by
  constructor
  · intro h
    rcases Nat.lt_trichotomy n (t ++ before).length with hlt | heq | hgt
    · rw [AcceptedAt, List.getElem?_append_left hlt] at h
      exact absurd h (not_acceptedAt hbefore hn)
    · rw [heq, List.length_append]
    · rw [AcceptedAt, List.append_cons] at h
      refine absurd h (not_acceptedAt hafter ?_)
      rw [List.length_append]
      exact hgt
  · rintro rfl
    rw [AcceptedAt, ← List.length_append]
    simp

/-- The error of the result tells whether an attempt has executed all statements. -/
def ReportsErrors (outcomes : ℕ → TextOutcome) (query : Bytes) (s s' : MySQLDBThread)
    (r' : QueryResult) : Prop :=
  r'.error = 0 ↔
    ∃ n, s.trace.length ≤ n ∧ AcceptedAt s'.trace query n ∧ (outcomes n).executedAll = true

theorem executedAll_of_served {connect : ℕ → ConnectReply} {outcomes : ℕ → TextOutcome}
    {usleep : ℕ → Int} {n : ℕ}
    (h : ((statementServer connect outcomes usleep).query n).succeeded = true) :
    (outcomes n).executedAll = (outcomes n).others.all (·.succeeded) := by
  change (outcomes n).reply.succeeded = true at h
  unfold TextOutcome.executedAll
  cases hfirst : (outcomes n).first with
  | executed rows => rfl
  | failed code errno error positive =>
      rw [TextOutcome.reply, hfirst] at h
      cases h

/-- No error is hidden unless an accepted text has a statement behind the first one that
fails, or nothing is attempted because the number of attempts has wrapped around. -/
theorem executeQuery_reportsErrors_iff (options : MySQLOptions) (sessionInitQuery : Bytes)
    (connect : ℕ → ConnectReply) (outcomes : ℕ → TextOutcome) (usleep : ℕ → Int) (fuel : ℕ)
    (query : Bytes) (r r' : QueryResult) (s s' : MySQLDBThread)
    (hdone : executeQuery ⟨options, sessionInitQuery, statementServer connect outcomes usleep⟩
      fuel .user query r s = .done r' s') :
    ReportsErrors outcomes query s s' r' ↔
      (∀ n, s.trace.length ≤ n → AcceptedAt s'.trace query n →
        (outcomes n).others.all (·.succeeded) = true) ∧
      (options.maxRetries + 1 ≠ 0 ∨ r.error ≠ 0) := by
  let env : Env := ⟨options, sessionInitQuery, statementServer connect outcomes usleep⟩
  have hspec := @executeQuery_attempts env fuel query r s.trace s rfl
  rw [hdone] at hspec
  obtain ⟨calls, hcalls, hattempts⟩ := hspec
  have hattempted : attempts env ≠ 0 ↔ options.maxRetries + 1 ≠ 0 :=
    not_congr (UInt32.toNat_inj (b := 0))
  rw [← hattempted, ReportsErrors]
  cases hattempts with
  | accepted before after trace_eq before_quiet after_quiet served attempted error_eq =>
      -- there is one accepted attempt, and the error says nothing about its other statements
      have hbefore : ∀ x ∈ calls ++ before, Quiet x :=
        List.forall_mem_append.mpr ⟨hcalls, before_quiet⟩
      rw [List.append_assoc s.trace] at trace_eq served
      have hall := executedAll_of_served served
      rw [List.length_append] at hall
      have hat : ∀ n, s.trace.length ≤ n →
          (AcceptedAt s'.trace query n ↔ n = s.trace.length + (calls ++ before).length) := by
        intro n hn
        rw [trace_eq]
        exact acceptedAt_iff hbefore after_quiet hn
      constructor
      · intro h
        obtain ⟨n, hn, haccepted, hexecuted⟩ := h.mp error_eq
        refine ⟨fun m hm hm' => ?_, Or.inl attempted⟩
        rw [(hat m hm).mp hm', ← hall, ← (hat n hn).mp haccepted]
        exact hexecuted
      · rintro ⟨hothers, -⟩
        have hlast := (hat _ (Nat.le_add_right _ _)).mpr rfl
        refine iff_of_true error_eq ⟨_, Nat.le_add_right _ _, hlast, ?_⟩
        rw [hall]
        exact hothers _ (Nat.le_add_right _ _) hlast
  | refused calls' trace_eq quiet unset set =>
      have hquiet : ∀ x ∈ calls ++ calls', Quiet x := List.forall_mem_append.mpr ⟨hcalls, quiet⟩
      have hnone : ∀ n, s.trace.length ≤ n → ¬AcceptedAt s'.trace query n := by
        intro n hn
        rw [trace_eq, List.append_assoc]
        exact not_acceptedAt hquiet hn
      have herror : r'.error ≠ 0 ↔ attempts env ≠ 0 ∨ r.error ≠ 0 := by
        by_cases hzero : attempts env = 0
        · simp [hzero, unset hzero]
        · simp [hzero, set hzero]
      rw [← herror]
      constructor
      · intro h
        refine ⟨fun n hn haccepted => absurd haccepted (hnone n hn), fun hzero => ?_⟩
        obtain ⟨n, hn, haccepted, -⟩ := h.mp hzero
        exact hnone n hn haccepted
      · rintro ⟨-, hne⟩
        apply iff_of_false hne
        rintro ⟨n, hn, haccepted, -⟩
        exact hnone n hn haccepted

/-- The results of a text are at an end behind its last statement. -/
theorem statementServer_answersEnd (connect : ℕ → ConnectReply) (outcomes : ℕ → TextOutcome)
    (usleep : ℕ → Int) : (statementServer connect outcomes usleep).AnswersEnd := by
  intro n answer h
  change (outcomes n).reply = .accepted answer at h
  unfold TextOutcome.reply at h
  split at h
  · cases h
    exact ⟨(outcomes n).others.length, by simp [TextOutcome.answer]⟩
  · cases h

/-- Without an init query a call for a text always returns. -/
theorem executeQuery_returns_of_statements (options : MySQLOptions) (connect : ℕ → ConnectReply)
    (outcomes : ℕ → TextOutcome) (usleep : ℕ → Int) (query : Bytes) (r : QueryResult)
    (s : MySQLDBThread) :
    Returns ⟨options, [], statementServer connect outcomes usleep⟩ .user query r s :=
  returns_of_empty rfl (statementServer_answersEnd connect outcomes usleep) .user query r s

/-- The text of an entry with `--query-log-set-timestamp`. -/
def sampleText : Bytes := bytes "SET timestamp=1237231200; SELECT id FROM t"

/-- Both statements are executed. -/
def executedText : TextOutcome := ⟨0, .executed none, [.executed (some 1)]⟩

/-- The statement of the entry fails. -/
def failedText : TextOutcome :=
  ⟨0, .executed none, [.failed 1 1146 (bytes "Table 'test.t' doesn't exist") Nat.one_pos]⟩

/-- A call on a new thread with a server that makes the same of the text every time. -/
def sampleCall (fuel : ℕ) (o : TextOutcome) : Outcome MySQLDBThread QueryResult :=
  executeQuery ⟨{}, [], statementServer (fun _ => .accepted) (fun _ => o) fun _ => 0⟩ fuel .user
    sampleText {} (created false)

theorem executeQuery_reports_sample :
    ∃ r' s', sampleCall 2 executedText = .done r' s' ∧
      ReportsErrors (fun _ => executedText) sampleText (created false) s' r' := by
  have hdone : ∃ r' s', sampleCall 2 executedText = .done r' s' := ⟨_, _, rfl⟩
  obtain ⟨r', s', hdone⟩ := hdone
  refine ⟨r', s', hdone, (executeQuery_reportsErrors_iff _ _ _ _ _ _ _ _ _ _ _ hdone).mpr ?_⟩
  exact ⟨fun _ _ _ => rfl, Or.inl (by decide)⟩

/-- The error of the second statement is hidden: no attempt executes it, and the error is zero. -/
theorem executeQuery_hides_error :
    ∃ r' s', sampleCall 1 failedText = .done r' s' ∧ r'.error = 0 ∧
      ¬ReportsErrors (fun _ => failedText) sampleText (created false) s' r' := by
  refine ⟨_, _, rfl, rfl, fun h => ?_⟩
  obtain ⟨n, -, -, hexecuted⟩ := h.mp rfl
  cases hexecuted

end Attempts

end MySQLDBThread

end QueryPlayback
