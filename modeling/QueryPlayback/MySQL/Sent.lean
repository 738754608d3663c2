import QueryPlayback.Lib.Retried
import QueryPlayback.MySQL.LazyConnect

/-!
# What reaches the server

A thread sends the queries of its entries in their order, each of them at most
as often as it may be attempted and before the next one, whatever the server
answers and wherever the run is cut off. Only behind a failure is a query sent
again.

## Implementation notes

A lower bound of one is lost when the number of attempts wraps around to zero.
Queries of `init_session` are no queries of entries.
-/

namespace QueryPlayback

open MySQL Interruptible

namespace MySQL

/-- The query of an entry that the call sends. -/
def Call.sentText? : Call → Option Bytes
  | .realQuery .user query _ => some query
  | _ => none

/-- The queries of entries that have been sent. -/
def sent (t : List Call) : List Bytes := t.filterMap Call.sentText?

theorem sent_append (t t' : List Call) : sent (t ++ t') = sent t ++ sent t' :=
  List.filterMap_append

theorem sent_eq_nil {t : List Call} (h : ∀ x ∈ t, x.sentText? = none) : sent t = [] :=
  List.filterMap_eq_nil_iff.mpr h

/-- What a function sends of a query `n` times. -/
def sentBy : Origin → ℕ → Bytes → List Bytes
  | .user, n, query => List.replicate n query
  | .sessionInit, _, _ => []

theorem sentBy_zero (origin : Origin) (query : Bytes) : sentBy origin 0 query = [] := by
  cases origin <;> rfl

theorem sentBy_succ (origin : Origin) (n : ℕ) (query : Bytes) :
    sentBy origin (n + 1) query = sentBy origin 1 query ++ sentBy origin n query := by
  cases origin <;> rfl

theorem sent_realQuery (origin : Origin) (query : Bytes) (succeeded : Bool) :
    sent [.realQuery origin query succeeded] = sentBy origin 1 query := by
  cases origin <;> rfl

end MySQL

/-- The text that goes to `execute_query` for the entry. -/
def ThreadEntry.queryText? (query : ThreadEntry) : Option Bytes :=
  match query.treatment with
  | .executes text => some text
  | _ => none

/-- The queries that the thread has to send for its entries. -/
def queryTexts (queries : List ThreadEntry) : List Bytes :=
  (processed queries).filterMap ThreadEntry.queryText?

/-- The entries behind a shutdown are not taken. -/
theorem queryTexts_cons (query : ThreadEntry) (queries : List ThreadEntry) :
    queryTexts (query :: queries) = query.queryText?.toList ++
      if query.isShutdown then [] else queryTexts queries := by
  rw [queryTexts, processed, List.filterMap_cons]
  cases query.queryText? <;> cases query.isShutdown <;> rfl

namespace MySQLDBThread

variable {env : Env}

/-- A number of repetitions that the calls allow: as many as there are attempts, and one when
none of them has failed. -/
def Allows (env : Env) (hi : ℕ) (calls : List Call) : Prop :=
  attempts env ≤ hi ∨ 1 ≤ hi ∧ ∀ x ∈ calls, x.fails = false

theorem Allows.left {hi : ℕ} {calls calls' : List Call} (h : Allows env hi (calls ++ calls')) :
    Allows env hi calls :=
  h.imp_right fun hone => ⟨hone.1, fun x hx => hone.2 x (List.mem_append_left _ hx)⟩

theorem Allows.right {hi : ℕ} {calls calls' : List Call} (h : Allows env hi (calls ++ calls')) :
    Allows env hi calls' :=
  h.imp_right fun hone => ⟨hone.1, fun x hx => hone.2 x (List.mem_append_right _ hx)⟩

section Query

/-- The query is sent at most `left` times, and again only behind a failure. -/
def Sends (origin : Origin) (query : Bytes) (lo left : ℕ) (calls : List Call) : Prop :=
  ∃ n, lo ≤ n ∧ n ≤ left ∧ sent calls = sentBy origin n query ∧
    (1 < n → ∃ x ∈ calls, x.fails = true)

variable {exec : Execute} {origin : Origin} {query : Bytes}

theorem Sends.nothing {left : ℕ} {calls : List Call} (h : ∀ x ∈ calls, x.sentText? = none) :
    Sends origin query 0 left calls :=
  ⟨0, Nat.le_refl 0, Nat.zero_le left, by rw [sent_eq_nil h, sentBy_zero], fun h => by omega⟩

theorem Sends.weaken {lo left : ℕ} {calls : List Call} (h : Sends origin query lo left calls) :
    Sends origin query 0 left calls := by
  obtain ⟨n, -, hrest⟩ := h
  exact ⟨n, Nat.zero_le n, hrest⟩

/-- Calls that send nothing make no difference. -/
theorem Sends.append {lo left : ℕ} {calls calls' : List Call}
    (h : Sends origin query lo left calls) (hnone : ∀ x ∈ calls', x.sentText? = none) :
    Sends origin query lo left (calls ++ calls') := by
  obtain ⟨n, hlo, hleft, hsent, hfail⟩ := h
  refine ⟨n, hlo, hleft, ?_, fun hn => ?_⟩
  · rw [sent_append, sent_eq_nil hnone, List.append_nil, hsent]
  · obtain ⟨x, hx, hfails⟩ := hfail hn
    exact ⟨x, List.mem_append_left _ hx, hfails⟩

theorem Sends.cons {lo left : ℕ} {calls calls' : List Call}
    (h : Sends origin query lo left calls') (hnone : ∀ x ∈ calls, x.sentText? = none) :
    Sends origin query lo left (calls ++ calls') := by
  obtain ⟨n, hlo, hleft, hsent, hfail⟩ := h
  refine ⟨n, hlo, hleft, ?_, fun hn => ?_⟩
  · rw [sent_append, sent_eq_nil hnone, List.nil_append, hsent]
  · obtain ⟨x, hx, hfails⟩ := hfail hn
    exact ⟨x, List.mem_append_right _ hx, hfails⟩

/-- One attempt. -/
theorem Sends.one {left : ℕ} (succeeded : Bool) :
    Sends origin query 1 (left + 1) [.realQuery origin query succeeded] :=
  ⟨1, Nat.le_refl 1, Nat.le_add_left 1 left, sent_realQuery .., fun h => by omega⟩

/-- The next attempt is behind the failure of this one. -/
theorem Sends.again {lo left : ℕ} {calls : List Call} (h : Sends origin query lo left calls) :
    Sends origin query 1 (left + 1) (.realQuery origin query false :: calls) := by
  obtain ⟨n, -, hleft, hsent, -⟩ := h
  refine ⟨n + 1, Nat.le_add_left 1 n, Nat.succ_le_succ hleft, ?_, fun _ => ?_⟩
  · rw [← List.singleton_append, sent_append, sent_realQuery, hsent, ← sentBy_succ]
  · exact ⟨_, List.mem_cons_self, rfl⟩

/-- In the place of `execute_query`, for the init query only. -/
def InitSendsNothing (exec : Execute) : Prop :=
  ∀ query r, Makes (·.sentText? = none) (exec .sessionInit query r) fun _ => True

theorem sentText?_of_connecting {x : Call} (h : x.connecting = true) : x.sentText? = none := by
  cases x <;> first | rfl | cases h

theorem sentText?_of_reading {x : Call} (h : x.reading = true) : x.sentText? = none := by
  cases x <;> first | rfl | cases h

theorem connectAndInitSession_sendsNothing (hexec : InitSendsNothing exec) :
    Makes (·.sentText? = none) (connectAndInitSession env exec) fun _ => True := by
  refine connectAndInitSession_makes (fun _ => sentText?_of_connecting) ?_
  exact Makes.ite (Makes.pure trivial) ((hexec _ _).bind fun _ _ => Makes.pure trivial)

theorem queryLoop_sends (hexec : InitSendsNothing exec) (fuel left i : ℕ) (r : QueryResult) :
    Adds (queryLoop env exec fuel origin query left i r)
      (fun calls _ => Sends origin query (min 1 left) left calls)
      fun calls => Sends origin query 0 left calls := by
  induction left generalizing i r with
  | zero => exact Adds.pure (Sends.nothing (by simp))
  | succ left ih =>
      have hmin : min 1 (left + 1) = 1 := by omega
      have hquery : Adds (realQuery env.server origin query)
          (fun calls reply => calls = [.realQuery origin query reply.succeeded])
          fun calls => Sends origin query 0 (left + 1) calls :=
        Adds.call fun s => ⟨_, _, _, rfl, rfl, rfl⟩
      rw [hmin]
      apply hquery.bind fun _ => id
      rintro calls reply rfl
      cases reply with
      | failed code errno error nonzero =>
          have hreconnect : Makes (·.sentText? = none) (reconnect env exec i) fun _ => True :=
            reconnect_makes (fun _ => sentText?_of_connecting) rfl
              (connectAndInitSession_sendsNothing hexec) i
          refine Adds.bind hreconnect ?_ ?_
          · intro calls hnone
            exact ((Sends.one false).append hnone).weaken
          · rintro calls _ ⟨-, hnone⟩
            refine (ih (i + 1) _).weaken ?_ ?_
            · intro calls' _ hsends
              exact (hsends.cons hnone).again
            · intro calls' hsends
              exact (hsends.cons hnone).again.weaken
      | accepted answer =>
          have hread := (readAnswer_makes fuel answer { r with error := 0 }).mono
            fun _ => sentText?_of_reading
          refine Adds.weaken hread ?_ ?_
          · rintro calls _ ⟨-, hnone⟩
            exact (Sends.one true).append hnone
          · intro calls hnone
            exact ((Sends.one true).append hnone).weaken

theorem ensureConnected_sendsNothing (hexec : InitSendsNothing exec) :
    Makes (·.sentText? = none) (ensureConnected env exec) fun _ => True :=
  ensureConnected_makes (connectAndInitSession_sendsNothing hexec)

theorem initSendsNothing_of_sends
    (h : ∀ query r, Adds (exec .sessionInit query r)
      (fun calls _ => Sends .sessionInit query (min 1 (attempts env)) (attempts env) calls)
      fun calls => Sends .sessionInit query 0 (attempts env) calls) :
    InitSendsNothing exec := by
  have hnothing : ∀ {query : Bytes} {lo : ℕ} {calls : List Call},
      Sends .sessionInit query lo (attempts env) calls → ∀ x ∈ calls, x.sentText? = none := by
    rintro query lo calls ⟨n, -, -, hsent, -⟩
    exact List.filterMap_eq_nil_iff.mp hsent
  intro query r
  exact (h query r).weaken (fun _ _ hs => ⟨trivial, hnothing hs⟩) fun _ => hnothing

/-- Induction on the depth of the recursion through `init_session`. -/
theorem executeQuery_sends (fuel : ℕ) (origin : Origin) (query : Bytes) (r : QueryResult) :
    Adds (executeQuery env fuel origin query r)
      (fun calls _ => Sends origin query (min 1 (attempts env)) (attempts env) calls)
      fun calls => Sends origin query 0 (attempts env) calls := by
  induction fuel generalizing origin query r with
  | zero => exact Adds.cutOff (Sends.nothing (by simp))
  | succ fuel ih =>
      have hexec : InitSendsNothing (executeQuery env fuel) :=
        initSendsNothing_of_sends fun query r => ih .sessionInit query r
      refine Adds.bind (ensureConnected_sendsNothing hexec) (fun _ => Sends.nothing) ?_
      rintro calls _ ⟨-, hnone⟩
      refine (queryLoop_sends hexec (fuel + 1) (attempts env) 0 r).weaken ?_ ?_
      · exact fun _ _ hsends => hsends.cons hnone
      · exact fun _ hsends => hsends.cons hnone

end Query

section Entries

/-- What has been sent for the entries, in every number of repetitions that the calls allow. -/
def SendsAll (env : Env) (texts : List Bytes) (lo : ℕ) (calls : List Call) : Prop :=
  ∀ hi, Allows env hi calls → Retried lo hi texts (sent calls)

variable {texts texts' : List Bytes} {lo : ℕ} {calls calls' : List Call}

theorem SendsAll.of_sends {query : Bytes} (h : Sends .user query lo (attempts env) calls) :
    SendsAll env [query] lo calls := by
  obtain ⟨n, hlo, hleft, hsent, hfail⟩ := h
  intro hi hallows
  have hhi : n ≤ hi := by
    rcases hallows with hattempts | ⟨hone, hnone⟩
    · exact hleft.trans hattempts
    · by_contra hmore
      obtain ⟨x, hx, hfails⟩ := hfail (by omega)
      rw [hnone x hx] at hfails
      cases hfails
  have hretried : Retried lo hi [query] (List.replicate n query ++ []) := .cons hlo hhi .nil
  rw [List.append_nil] at hretried
  rwa [hsent]

theorem SendsAll.of_none (h : ∀ x ∈ calls, x.sentText? = none) : SendsAll env [] lo calls := by
  intro hi _
  rw [sent_eq_nil h]
  exact .nil

theorem SendsAll.append (h : SendsAll env texts lo calls) (h' : SendsAll env texts' lo calls') :
    SendsAll env (texts ++ texts') lo (calls ++ calls') := by
  intro hi hallows
  rw [sent_append]
  exact (h hi hallows.left).append (h' hi hallows.right)

theorem SendsAll.weaken (h : SendsAll env texts lo calls) : SendsAll env texts 0 calls :=
  fun hi hallows => (h hi hallows).mono (Nat.zero_le lo) (Nat.le_refl hi)

/-- Queries that have not been sent yet may follow. -/
theorem SendsAll.append_texts (h : SendsAll env texts 0 calls) (more : List Bytes) :
    SendsAll env (texts ++ more) 0 calls :=
  fun hi hallows => (h hi hallows).append_items more

/-- The text of the entry is sent, and nothing for an entry without one. -/
theorem handleEntry_sends (fuel : ℕ) (query : ThreadEntry) :
    Adds (handleEntry env fuel query)
      (fun calls _ => SendsAll env query.queryText?.toList (min 1 (attempts env)) calls)
      fun calls => SendsAll env query.queryText?.toList 0 calls := by
  have hexec : InitSendsNothing (executeQuery env fuel) :=
    initSendsNothing_of_sends fun text r => executeQuery_sends fuel .sessionInit text r
  rw [handleEntry_eq, ThreadEntry.queryText?]
  cases query.treatment with
  | quit =>
      have hclose : Makes (·.sentText? = none) disconnect fun _ => True :=
        disconnect_makes.mono fun x hx => hx ▸ rfl
      have hquit : Makes (·.sentText? = none) (do
          disconnect
          let _ ← connectAndInitSession env (executeQuery env fuel)
          pure ()) fun _ => True :=
        hclose.bind fun _ _ =>
          (connectAndInitSession_sendsNothing hexec).bind fun _ _ => Makes.pure trivial
      exact Adds.weaken hquit (fun _ _ h => .of_none h.2) fun _ h => .of_none h
  | executes text =>
      refine Adds.bind (executeQuery_sends fuel .user text {}) (fun _ => .of_sends) ?_
      intro calls r hsends
      apply Adds.pure
      rw [List.append_nil]
      exact .of_sends hsends
  | nothing => exact Adds.pure (.of_none (by simp))

/-- Induction on the entries to come. -/
theorem runEntries_sends (fuel : ℕ) (queries : List ThreadEntry) :
    Adds (runEntries env fuel queries)
      (fun calls _ => SendsAll env (queryTexts queries) (min 1 (attempts env)) calls)
      fun calls => SendsAll env (queryTexts queries) 0 calls := by
  induction queries with
  | nil => exact Adds.cutOff (.of_none (by simp))
  | cons query queries ih =>
      rw [queryTexts_cons]
      refine Adds.bind (handleEntry_sends fuel query) (fun _ h => h.append_texts _) ?_
      intro calls _ hcalls
      cases query.isShutdown with
      | true =>
          have hclose : Makes (·.sentText? = none) disconnect fun _ => True :=
            disconnect_makes.mono fun x hx => hx ▸ rfl
          exact Adds.weaken hclose (fun _ _ h => hcalls.append (.of_none h.2))
            fun _ h => hcalls.weaken.append (.of_none h)
      | false =>
          exact ih.weaken (fun _ _ h => hcalls.append h) fun _ h => hcalls.weaken.append h

/-- A call that sends nothing makes no difference. -/
theorem Adds.sendsAll_then {c : Client Unit} {d : Client Unit}
    (hc : Makes (·.sentText? = none) c fun _ => True)
    (hd : Adds d (fun calls _ => SendsAll env texts lo calls)
      fun calls => SendsAll env texts 0 calls) :
    Adds (c >>= fun _ => d) (fun calls _ => SendsAll env texts lo calls)
      fun calls => SendsAll env texts 0 calls := by
  refine Adds.bind hc (fun _ h => (SendsAll.of_none h).append_texts texts) ?_
  rintro calls _ ⟨-, hnone⟩
  have hfirst : ∀ lo, SendsAll env [] lo calls := fun _ => .of_none hnone
  exact hd.weaken (fun _ _ h => (hfirst _).append h) fun _ h => (hfirst _).append h

theorem run_sends (fuel : ℕ) (queries : List ThreadEntry) :
    Adds (run env fuel queries)
      (fun calls _ => SendsAll env (queryTexts queries) (min 1 (attempts env)) calls)
      fun calls => SendsAll env (queryTexts queries) 0 calls := by
  have hrecord : ∀ x : Call, x.sentText? = none →
      Makes (·.sentText? = none) (record x) fun _ => True :=
    fun x hx => Makes.call fun s => ⟨(), _, x, rfl, rfl, hx, trivial⟩
  have hset : Makes (·.sentText? = none) (setHaveConnected false) fun _ => True :=
    Makes.modify fun _ => rfl
  apply Adds.sendsAll_then hset
  apply Adds.sendsAll_then (hrecord _ rfl)
  refine Adds.bind (runEntries_sends fuel queries) (fun _ => id) ?_
  intro calls _ hcalls
  have hmore : ∀ lo calls', SendsAll env (queryTexts queries) lo calls →
      (∀ x ∈ calls', x.sentText? = none) →
      SendsAll env (queryTexts queries) lo (calls ++ calls') := by
    intro lo calls' h hnone
    have happend := h.append (.of_none hnone)
    rwa [List.append_nil] at happend
  exact Adds.weaken (hrecord _ rfl) (fun _ _ h => hmore _ _ hcalls h.2)
    fun _ h => hmore _ _ hcalls.weaken h

end Entries

section Runs

variable {env : Env} {haveConnected : Bool} {queries : List ThreadEntry} {t : List Call}

theorem RunPrefix.retried (h : RunPrefix env haveConnected queries t) :
    Retried 0 (attempts env) (queryTexts queries) (sent t) := by
  obtain ⟨fuel, rest, ht⟩ := h
  have hsends : SendsAll env (queryTexts queries) 0 (calls env fuel haveConnected queries) := by
    have hrun := @run_sends env fuel queries [] (created haveConnected) rfl
    rw [calls]
    cases hdone : run env fuel queries (created haveConnected) with
    | done _ s =>
        rw [hdone] at hrun
        obtain ⟨calls, htrace, hcalls⟩ := hrun
        rw [Outcome.state, htrace, List.nil_append]
        exact hcalls.weaken
    | cut s =>
        rw [hdone] at hrun
        obtain ⟨calls, htrace, hcalls⟩ := hrun
        rw [Outcome.state, htrace, List.nil_append]
        exact hcalls
  rw [← ht] at hsends
  refine (hsends _ (Or.inl (Nat.le_refl _))).of_begins ?_
  rw [sent_append]
  exact List.prefix_append _ _

theorem Returned.sendsAll (h : Returned env haveConnected queries t) :
    SendsAll env (queryTexts queries) (min 1 (attempts env)) t := by
  obtain ⟨fuel, s, hdone, rfl⟩ := h
  have hrun := @run_sends env fuel queries [] (created haveConnected) rfl
  rw [hdone] at hrun
  obtain ⟨calls, htrace, hcalls⟩ := hrun
  rw [htrace, List.nil_append]
  exact hcalls

/-- Without failures every query has been sent once. -/
theorem Returned.sent_eq (h : Returned env haveConnected queries t) (hattempts : attempts env ≠ 0)
    (hnone : ∀ x ∈ t, x.fails = false) : sent t = queryTexts queries := by
  have hone := h.sendsAll 1 (Or.inr ⟨Nat.le_refl 1, hnone⟩)
  rw [Nat.min_eq_left (Nat.one_le_iff_ne_zero.mpr hattempts)] at hone
  exact hone.eq_of_one

/-- The queries of the entries are sent in their order, each at most as often as it may be
attempted. A thread that returns has sent every one of them, and where no query has failed it has
sent each of them once. Both suppose that `max_retries + 1` does not wrap around to zero. -/
theorem sent_in_order (env : Env) (haveConnected : Bool) (queries : List ThreadEntry) :
    (∀ t, RunPrefix env haveConnected queries t →
      Retried 0 (attempts env) (queryTexts queries) (sent t)) ∧
    ∀ t, Returned env haveConnected queries t →
      Retried (min 1 (attempts env)) (attempts env) (queryTexts queries) (sent t) ∧
        (attempts env ≠ 0 → (∀ x ∈ t, x.fails = false) → sent t = queryTexts queries) := by
  refine ⟨fun t ht => ht.retried, fun t ht => ⟨?_, ht.sent_eq⟩⟩
  exact ht.sendsAll _ (Or.inl (Nat.le_refl _))

/-- The accepting server gets the two queries of the sample once. -/
theorem sent_in_order_sample :
    let queries : List ThreadEntry := [⟨false, false, some (bytes "SELECT 1")⟩,
      ⟨true, false, none⟩, ⟨false, false, some (bytes "SELECT 2")⟩, finishEntry]
    ∃ t, Returned (accepting {} []) false queries t ∧
      sent t = [bytes "SELECT 1", bytes "SELECT 2"] := by
  intro queries
  refine ⟨_, ⟨2, _, rfl, rfl⟩, ?_⟩
  exact ((sent_in_order (accepting {} []) false queries).2 _ ⟨2, _, rfl, rfl⟩).2 (by decide)
    (by decide +kernel)

end Runs

end MySQLDBThread

end QueryPlayback
