import QueryPlayback.Dispatch.ThreadPool.Progress
import QueryPlayback.Playback.Unselected

/-!
# Settings of the thread pool

The number of threads and the depth of the queues go from the command line into the
dispatcher without a check. The number of threads is `hardware_concurrency()` by
default, which is zero when it cannot be told.
-/

namespace QueryPlayback.Startup

open QueryEntry QueryEntries ThreadPool

/-- The settings of the pool, with the checksum of the bytes of a thread id. -/
def Settings.poolConfig (s : Settings) (checksum : UInt64 → UInt32) : ThreadPool.Config where
  threadsCount := s.threadsCount.toNat
  queueDepth := s.queueDepth.toNat
  checksum := checksum

section Accepted

variable {r : Registry} {host : Host} {cl : CommandLine r} {st : Settings}

theorem bind_eq_ok {α β : Type} {x : Except Stop α} {f : α → Except Stop β} {b : β}
    (h : (x >>= f) = .ok b) : ∃ a, x = .ok a ∧ f a = .ok b := by
  cases x with
  | error e => cases h
  | ok a => exact ⟨a, rfl, h⟩

/-- A selected plugin is registered. -/
theorem selectPlugin_ok {kind : Kind} {given : Option String} {defaults : List Plugin}
    {invalid missing : String} {p : Plugin}
    (h : selectPlugin r kind given defaults invalid missing = .ok p) : r.registered p = true := by
  cases given with
  | some name =>
      rw [selectPlugin] at h
      cases hfind : r.find kind name with
      | none =>
          rw [hfind] at h
          cases h
      | some q =>
          rw [hfind] at h
          injection h with h
          exact h ▸ Registry.mem_allPlugins.mp (List.mem_of_find?_eq_some hfind)
  | none =>
      rw [selectPlugin] at h
      cases hfind : defaults.find? r.registered with
      | none =>
          rw [hfind] at h
          cases h
      | some q =>
          rw [hfind] at h
          injection h with h
          exact h ▸ List.find?_some hfind

theorem select_dispatcher {vm : VariablesMap} {sel : Selection} (h : select r vm = .ok sel) :
    r.registered sel.dispatcher = true := by
  obtain ⟨db, -, h⟩ := bind_eq_ok h
  obtain ⟨input, -, h⟩ := bind_eq_ok h
  obtain ⟨dispatcher, hdispatcher, h⟩ := bind_eq_ok h
  obtain ⟨disabled, -, h⟩ := bind_eq_ok h
  injection h with h
  exact h ▸ selectPlugin_ok hdispatcher

/-- The settings of a start-up that succeeds. -/
theorem perconaPlaybackArgv_ok (h : perconaPlaybackArgv r host cl = .ok st) :
    ∃ sel plugins, select r (cl.store host.hardwareConcurrency) = .ok sel ∧
      st = settings r sel (cl.store host.hardwareConcurrency) plugins := by
  obtain ⟨sel, hsel, h⟩ := bind_eq_ok h
  split at h
  · cases h
  · split at h
    · cases h
    · obtain ⟨plugins, -, h⟩ := bind_eq_ok h
      injection h with h
      exact ⟨sel, plugins, hsel, h.symm⟩

/-- Both settings are taken over as they are given. -/
theorem settings_of_accepted (haccepted : perconaPlaybackArgv r host cl = .ok st)
    (hpool : st.dispatcher = .threadPool) :
    st.threadsCount = (cl.given .threadPoolThreadsCount).getD host.hardwareConcurrency ∧
      st.queueDepth = (cl.given .queueDepth).getD (1 : UInt32) := by
  obtain ⟨sel, plugins, hsel, rfl⟩ := perconaPlaybackArgv_ok haccepted
  have hregistered := select_dispatcher hsel
  rw [show sel.dispatcher = .threadPool from hpool] at hregistered
  have hdeclared : r.declares .threadPoolThreadsCount = true := hregistered
  have hdepth : r.declares .queueDepth = true := rfl
  constructor
  · change ((cl.store host.hardwareConcurrency).value? .threadPoolThreadsCount).getD
      (0 : UInt32) = _
    rw [value?_store hdeclared]
    cases cl.given .threadPoolThreadsCount <;> rfl
  · change ((cl.store host.hardwareConcurrency).value? .queueDepth).getD (1 : UInt32) = _
    rw [value?_store hdepth]
    cases cl.given .queueDepth <;> rfl

/-- A run of the pool cannot break just when neither of the accepted settings is zero. -/
theorem acceptedSettings_canFinish_iff (haccepted : perconaPlaybackArgv r host cl = .ok st)
    (hpool : st.dispatcher = .threadPool) (checksum : UInt64 → UInt32) {σ ε : Type}
    [QueryEntry ε] [QueryEntries σ ε] {q : σ} {all : List ε} (hdrain : Drains q all)
    (hne : all ≠ []) (hno : ∀ e ∈ all, isShutdown e = false) :
    (∀ s, Reaches (st.poolConfig checksum) ((State.init q).run q) s →
        CanFinish (st.poolConfig checksum) all s) ↔
      (cl.given .threadPoolThreadsCount).getD host.hardwareConcurrency ≠ (0 : UInt32) ∧
        cl.given .queueDepth ≠ some (0 : UInt32) := by
  obtain ⟨hthreads, hdepth⟩ := settings_of_accepted haccepted hpool
  have hzero : ∀ n : UInt32, 0 < n.toNat ↔ n ≠ 0 := by
    intro n
    rw [Nat.pos_iff_ne_zero, Ne, Ne, ← UInt32.toNat_inj]
    rfl
  have hgiven : ∀ given : Option UInt32, given.getD 1 ≠ 0 ↔ given ≠ some 0 := by
    intro given
    cases given with
    | none => simp
    | some d => simp
  rw [canFinish_iff hdrain hne hno, ← hthreads]
  apply and_congr (hzero st.threadsCount)
  calc 0 < st.queueDepth.toNat ↔ st.queueDepth ≠ 0 := hzero st.queueDepth
    _ ↔ (cl.given .queueDepth).getD (1 : UInt32) ≠ (0 : UInt32) := by
        rw [hdepth]
        exact Iff.rfl
    _ ↔ cl.given .queueDepth ≠ some (0 : UInt32) := hgiven (cl.given .queueDepth)

end Accepted

section Samples

/-- `--dispatcher-plugin=thread-pool --thread-pool-threads-count=n --queue-depth=d
--db-plugin=null --query-log-file=slow.log`. -/
def poolCommand (n d : UInt32) : CommandLine .full where
  argc := 6
  given
    | .dispatcherPlugin => some "thread-pool"
    | .threadPoolThreadsCount => some n
    | .queueDepth => some d
    | .dbPlugin => some "null"
    | .queryLogFile => some (bytes "slow.log")
    | _ => none
  declared o _ := full_declares o
  nothing := nofun
  generalLogFlags := nofun
  queryLogFlags := ⟨nofun, nofun, nofun, nofun, nofun⟩
  simpleReportFlags := ⟨nofun, nofun⟩

/-- Every pair of settings is accepted. -/
theorem poolCommand_accepted (n d : UInt32) :
    ∃ st, perconaPlaybackArgv .full sampleHost (poolCommand n d) = .ok st ∧
      st.dispatcher = .threadPool ∧ st.threadsCount = n ∧ st.queueDepth = d :=
  ⟨_, rfl, rfl, rfl, rfl⟩

/-- The entries of the sample log. -/
theorem sampleLog_entries : Drains sampleLog sampleLog.toPop ∧ sampleLog.toPop ≠ [] ∧
    ∀ e ∈ sampleLog.toPop, isShutdown e = false :=
  ⟨sampleLog.drains_toPop, List.cons_ne_nil _ _,
    QueryLogEntries.Fresh.toPop_not_shutdown ⟨rfl, by decide⟩⟩

/-- A pool of no threads and queues without room are accepted, and break the run. -/
theorem poolCommand_breaks :
    (∃ st, perconaPlaybackArgv .full sampleHost (poolCommand 0 1) = .ok st ∧
        st.dispatcher = .threadPool ∧
        ∃ s, Reaches (st.poolConfig sampleConfig.checksum) (start sampleLog) s ∧
          s.pc = .crashed) ∧
      ∃ st, perconaPlaybackArgv .full sampleHost (poolCommand 2 0) = .ok st ∧
        st.dispatcher = .threadPool ∧
        ¬∀ s, Reaches (st.poolConfig sampleConfig.checksum) (start sampleLog) s →
          CanFinish (st.poolConfig sampleConfig.checksum) sampleLog.toPop s := by
  obtain ⟨hdrain, hne, hno⟩ := sampleLog_entries
  constructor
  · obtain ⟨st, haccepted, hpool, hthreads, -⟩ := poolCommand_accepted 0 1
    have hcount : (st.poolConfig sampleConfig.checksum).threadsCount = 0 :=
      congrArg UInt32.toNat hthreads
    exact ⟨st, haccepted, hpool, reaches_crashed hcount hdrain hne⟩
  · obtain ⟨st, haccepted, hpool, -, hdepth⟩ := poolCommand_accepted 2 0
    refine ⟨st, haccepted, hpool, fun hfinish => ?_⟩
    obtain ⟨-, hroom⟩ := (canFinish_iff hdrain hne hno).mp hfinish
    have hzero : (st.poolConfig sampleConfig.checksum).queueDepth = 0 :=
      congrArg UInt32.toNat hdepth
    omega

/-- Two threads with room for one entry each cannot break the run over the sample log. -/
theorem acceptedSettings_canFinish_sample : ∃ st,
    perconaPlaybackArgv .full sampleHost (poolCommand 2 1) = .ok st ∧
      ∀ s, Reaches (st.poolConfig sampleConfig.checksum) (start sampleLog) s →
        CanFinish (st.poolConfig sampleConfig.checksum) sampleLog.toPop s := by
  obtain ⟨hdrain, hne, hno⟩ := sampleLog_entries
  obtain ⟨st, haccepted, hpool, -, -⟩ := poolCommand_accepted 2 1
  refine ⟨st, haccepted, ?_⟩
  exact (acceptedSettings_canFinish_iff haccepted hpool sampleConfig.checksum hdrain hne hno).mpr
    ⟨(by decide : (2 : UInt32) ≠ 0), (by decide : some (1 : UInt32) ≠ some 0)⟩

end Samples

end QueryPlayback.Startup
