import QueryPlayback.MySQL.Depth
import QueryPlayback.MySQL.Invariant

/-!
# What a thread does to its connections

The invariant of the thread read off the calls of its runs, for any entries and
any behaviour of the server.
-/

namespace QueryPlayback

open MySQL Interruptible Traces

namespace MySQLDBThread

variable {env : Env} {haveConnected : Bool} {queries : List ThreadEntry}

/-- The calls are the first calls of the thread that is given these entries. -/
def RunPrefix (env : Env) (haveConnected : Bool) (queries : List ThreadEntry) (t : List Call) :
    Prop := ∃ fuel, t <+: calls env fuel haveConnected queries

/-- The thread returns and has made these calls. -/
def Returned (env : Env) (haveConnected : Bool) (queries : List ThreadEntry) (t : List Call) :
    Prop := ∃ fuel s, run env fuel queries (created haveConnected) = .done () s ∧ s.trace = t

/-- There is only one run: of two of its beginnings one begins the other. -/
theorem RunPrefix.comparable {t t' : List Call} (h : RunPrefix env haveConnected queries t)
    (h' : RunPrefix env haveConnected queries t') : t <+: t' ∨ t' <+: t := by
  obtain ⟨fuel, ht⟩ := h
  obtain ⟨fuel', ht'⟩ := h'
  refine List.prefix_or_prefix_of_prefix
    (ht.trans (calls_mono (Nat.le_max_left fuel fuel') haveConnected queries))
    (ht'.trans (calls_mono (Nat.le_max_right fuel fuel') haveConnected queries))

/-- A thread that has returned makes no other calls. -/
theorem Returned.longest {t t' : List Call} (h : Returned env haveConnected queries t)
    (h' : RunPrefix env haveConnected queries t') : t' <+: t := by
  obtain ⟨fuel, s, hrun, rfl⟩ := h
  obtain ⟨fuel', ht'⟩ := h'
  refine ht'.trans ((calls_mono (Nat.le_max_right fuel fuel') haveConnected queries).trans ?_)
  rw [calls, run_done (Nat.le_max_left fuel fuel') hrun]
  exact List.prefix_refl _

theorem RunPrefix.always {t : List Call} (h : RunPrefix env haveConnected queries t) :
    Always (Allowed env.sessionInitQuery) t := by
  obtain ⟨fuel, ht⟩ := h
  have hsafe : Safe env (run env fuel queries (created haveConnected)).state :=
    ((run_spec fuel queries haveConnected).post (fun _ _ hs => hs.1) _ rfl).state
  exact hsafe.allowed.of_prefix ht

/-- The handle is used as an open/close protocol, and a thread that has returned
has closed every connection it has opened. -/
theorem handle_protocol (env : Env) (haveConnected : Bool) (queries : List ThreadEntry) :
    (∀ t, RunPrefix env haveConnected queries t → HandleProtocol t) ∧
      ∀ t, Returned env haveConnected queries t →
        ¬Open t ∧ t.countP Call.connects = t.count .close := by
  refine ⟨fun t ht => handleProtocol_of_always ht.always, ?_⟩
  rintro t ⟨fuel, s, hrun, rfl⟩
  have hspec : (run env fuel queries (created haveConnected)).Satisfies _ (Safe env) :=
    run_spec fuel queries haveConnected _ rfl
  rw [hrun] at hspec
  have hclosed : ¬Open s.trace := fun hopen => hspec.2 (hspec.1.open_iff.mp hopen)
  exact ⟨hclosed, (connects_count hspec.1.allowed).2 hclosed⟩

/-- The query of an entry is accepted on an open connection only, and on an open
connection it is sent behind a successful session-init query on that connection. -/
theorem user_query_initialised (env : Env) (hquery : env.sessionInitQuery ≠ [])
    (haveConnected : Bool) (queries : List ThreadEntry) (t a b : List Call)
    (ht : RunPrefix env haveConnected queries t) (query : Bytes) (succeeded : Bool)
    (hsplit : t = a ++ .realQuery .user query succeeded :: b) :
    (succeeded = true → Open a) ∧ (Open a → OnInitialisedSession env.sessionInitQuery a) := by
  have hallowed := ht.always a _ b hsplit
  refine ⟨hallowed.2.1, fun hopen => ?_⟩
  have hprefix : a <+: t := by
    rw [hsplit]
    exact List.prefix_append _ _
  exact onInitialisedSession_of_open (ht.always.of_prefix hprefix) hopen
    (hallowed.2.2 rfl hquery hopen)

/-- A server that drops the connection during the first query it gets. -/
def sampleServer : Server where
  connect _ := .accepted
  query n := if n = 3 then .failed 1 2013 (bytes "Lost connection") Int.one_ne_zero
    else .accepted ⟨0, fun _ => some 1, fun _ => -1⟩
  usleep _ := 0

def sampleEnv : Env := ⟨{}, bytes "SET NAMES utf8", sampleServer⟩

def sampleEntries : List ThreadEntry := [⟨false, false, some (bytes "SELECT 1")⟩, finishEntry]

/-- The init query is sent again after the reconnect, and the query of the entry behind it. -/
theorem user_query_initialised_sample :
    ∃ a b, calls sampleEnv 5 false sampleEntries =
        a ++ .realQuery .user (bytes "SELECT 1") true :: b ∧
      OnInitialisedSession (bytes "SET NAMES utf8") a := by
  have hsplit : calls sampleEnv 5 false sampleEntries =
      (calls sampleEnv 5 false sampleEntries).take 19 ++
        .realQuery .user (bytes "SELECT 1") true ::
          (calls sampleEnv 5 false sampleEntries).drop 20 := by decide +kernel
  have h := user_query_initialised sampleEnv (by decide +kernel) false sampleEntries _ _ _
    ⟨5, List.prefix_refl _⟩ _ _ hsplit
  exact ⟨_, _, hsplit, h.2 (h.1 rfl)⟩

end MySQLDBThread

end QueryPlayback
