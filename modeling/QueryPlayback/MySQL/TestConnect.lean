import QueryPlayback.MySQL.Thread

/-!
# The connection check at start-up

`test_connect` runs a thread whose only entry is a `FinishEntry`. Connecting is
delayed until a query is executed, and a `FinishEntry` executes none.
-/

namespace QueryPlayback

open MySQL Interruptible

namespace MySQLDBThread

variable (env : Env) (fuel : ℕ) (haveConnected : Bool)

/-- `test_connect(opt)`; the flag is what the constructor finds in `have_connected`. -/
def testConnect : Outcome MySQLDBThread Bool :=
  (do
    run env fuel [finishEntry]
    gets fun s => decide (s.numConnectErrors = 0)) (created haveConnected)

/-- What `processOptions` does about the connection: with the option `mysql-test-connect`
or without one it calls `exit` if this is true. -/
def exitsAtStartup (testConnectOption : Option Bool) : Outcome MySQLDBThread Bool :=
  if testConnectOption.getD true then
    match testConnect env fuel haveConnected with
    | .done connected s => .done (!connected) s
    | .cut s => .cut s
  else .done false (created haveConnected)

/-- The check returns, and its answer says whether a connection with the options of
the thread has been established. -/
def DecidesConnectability : Prop :=
  ∃ answer s, testConnect env fuel haveConnected = .done answer s ∧
    (answer = true ↔ .realConnect env.options.connectArguments true ∈ s.trace)

/-- No connection is attempted, and the answer is that there has been no error. -/
theorem testConnect_eq :
    testConnect env fuel haveConnected =
      .done true ⟨⟨.raw, 0, []⟩, 0, false, [.threadInit, .threadEnd]⟩ := rfl

/-- The check decides nothing, whatever the options and the server are. -/
theorem test_connect_never_decides : ¬DecidesConnectability env fuel haveConnected := by
  rintro ⟨answer, s, hdone, hiff⟩
  rw [testConnect_eq] at hdone
  cases hdone
  simpa using hiff.mp rfl

/-- A server that refuses every connection. -/
def closedServer : Server where
  connect _ := .refused 2003 (bytes "Can't connect to MySQL server") (List.cons_ne_nil _ _)
  query _ := .serverGone
  usleep _ := 0

/-- Every connection would be refused, and the check is passed. -/
theorem test_connect_closed :
    (∀ n, (closedServer.connect n).succeeded = false) ∧
      (∃ s, testConnect ⟨{}, [], closedServer⟩ 1 false = .done true s) ∧
      ¬DecidesConnectability ⟨{}, [], closedServer⟩ 1 false := by
  refine ⟨fun _ => rfl, ⟨_, testConnect_eq _ _ _⟩, ?_⟩
  rintro ⟨answer, s, hdone, hiff⟩
  rw [testConnect_eq] at hdone
  cases hdone
  have hconnected := hiff.mp rfl
  simp at hconnected

/-- The start-up never exits because of the connection. -/
theorem exitsAtStartup_eq_false (testConnectOption : Option Bool) :
    ∃ s, exitsAtStartup env fuel haveConnected testConnectOption = .done false s := by
  unfold exitsAtStartup
  split
  · exact ⟨_, rfl⟩
  · exact ⟨_, rfl⟩

end MySQLDBThread

end QueryPlayback
