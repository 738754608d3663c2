import Mathlib.Data.ENat.Lattice
import QueryPlayback.MySQL.Calls
import QueryPlayback.MySQL.Termination

/-!
# The attempts at a query

Without an init query a call of `execute_query` sends its query until the first
success, and no more often than it is allowed to. The number of attempts is a sum
of 32-bit numbers; when it wraps around, nothing is sent.
-/

namespace QueryPlayback

open MySQL Interruptible

namespace MySQL

/-- The outcomes of the attempts at a query among the calls. -/
def sends (query : Bytes) (calls : List Call) : List Bool :=
  calls.filterMap fun
    | .realQuery _ text succeeded => if text = query then some succeeded else none
    | _ => none

/-- The position of the first attempt that has succeeded, counted from one. -/
def firstSuccess : List Bool → ℕ∞
  | [] => ⊤
  | true :: _ => 1
  | false :: rest => firstSuccess rest + 1

theorem sends_append (query : Bytes) (xs ys : List Call) :
    sends query (xs ++ ys) = sends query xs ++ sends query ys :=
  List.filterMap_append

/-- Calls that send no query contain no attempt. -/
theorem sends_eq_nil {calls : List Call} (h : ∀ x ∈ calls, x.isRealQuery = false)
    (query : Bytes) : sends query calls = [] := by
  rw [sends, List.filterMap_eq_nil_iff]
  intro x hx
  cases x with
  | realQuery origin text succeeded => cases h _ hx
  | _ => rfl

@[simp] theorem sends_singleton (origin : Origin) (query : Bytes) (succeeded : Bool) :
    sends query [.realQuery origin query succeeded] = [succeeded] := by
  simp [sends]

end MySQL

/-- The attempts go on to the first success within the budget, and the error of the
result is that of the last one; without any it is left as it was. -/
structure Spends (budget : ℕ) (sends : List Bool) (r r' : QueryResult) : Prop where
  length_eq : (sends.length : ℕ∞) = min (firstSuccess sends) budget
  error_eq_zero_iff : r'.error = 0 ↔ sends.getLast? = some true ∨ sends = [] ∧ r.error = 0

namespace Spends

theorem nothing (r : QueryResult) : Spends 0 [] r r where
  length_eq := by simp [firstSuccess]
  error_eq_zero_iff := by simp

theorem success (budget : ℕ) {r r' : QueryResult} (h : r'.error = 0) :
    Spends (budget + 1) [true] r r' where
  length_eq := by simp [firstSuccess]
  error_eq_zero_iff := by simp [h]

/-- One more attempt in front that has failed. -/
theorem failure {budget : ℕ} {sends : List Bool} {r r₁ r' : QueryResult}
    (h : Spends budget sends r₁ r') (hr₁ : r₁.error ≠ 0) :
    Spends (budget + 1) (false :: sends) r r' where
  length_eq := by
    rw [List.length_cons, Nat.cast_succ, Nat.cast_succ, firstSuccess, h.length_eq]
    exact (min_add_add_right _ _ 1).symm
  error_eq_zero_iff := by
    rw [h.error_eq_zero_iff]
    cases sends <;> simp [hr₁]

end Spends

namespace MySQLDBThread

variable {env : Env}

/-- The query is sent as often as the settings allow in exact arithmetic. -/
def RespectsBudget (env : Env) (query : Bytes) (r : QueryResult) (s : MySQLDBThread) : Prop :=
  ∃ fuel r' s' calls, executeQuery env fuel .user query r s = .done r' s' ∧
    s'.trace = s.trace ++ calls ∧
    ((sends query calls).length : ℕ∞) =
      min (firstSuccess (sends query calls)) (env.options.maxRetries.toNat + 1) ∧
    (r'.error = 0 ↔ (sends query calls).getLast? = some true) ∧ sends query calls ≠ []

section Attempts

variable {exec : Execute}

theorem connectAndInitSession_sends (hempty : env.sessionInitQuery = []) :
    Makes (·.isRealQuery = false) (connectAndInitSession env exec) fun _ => True :=
  connectAndInitSession_makes (fun _ => Call.isRealQuery_of_connecting)
    (initSession_makes_of_empty hempty)

/-- Reconnecting behind a failed attempt is not an attempt, whether it succeeds or not. -/
theorem reconnect_sends (hempty : env.sessionInitQuery = []) (i : ℕ) :
    Makes (·.isRealQuery = false) (reconnect env exec i) fun _ => True :=
  reconnect_makes (fun _ => Call.isRealQuery_of_connecting) rfl
    (connectAndInitSession_sends hempty) i

/-- Induction on the number of attempts to come. -/
theorem queryLoop_spends (hempty : env.sessionInitQuery = []) (exec : Execute) (fuel : ℕ)
    (origin : Origin) (query : Bytes) (left i : ℕ) (r : QueryResult) :
    Adds (queryLoop env exec fuel origin query left i r)
      (fun calls r' => Spends left (sends query calls) r r') fun _ => True := by
  induction left generalizing i r with
  | zero => exact Adds.pure (Spends.nothing r)
  | succ left ih =>
      have hquery : Adds (realQuery env.server origin query)
          (fun calls reply => calls = [.realQuery origin query reply.succeeded]) fun _ => True :=
        Adds.call fun _ => ⟨_, _, _, rfl, rfl, rfl⟩
      apply hquery.bind fun _ _ => trivial
      rintro calls reply rfl
      cases reply with
      | failed code errno error nonzero =>
          apply Adds.bind (reconnect_sends hempty i) fun _ _ => trivial
          rintro calls _ ⟨-, hcalls⟩
          refine (ih (i + 1) { r with error := code }).weaken ?_ fun _ _ => trivial
          intro calls' r' hspends
          rw [sends_append, sends_append, sends_singleton, sends_eq_nil hcalls]
          exact hspends.failure nonzero
      | accepted answer =>
          refine Adds.weaken (readAnswer_makes fuel answer { r with error := 0 }) ?_
            fun _ _ => trivial
          rintro calls r' ⟨herror, hcalls⟩
          have hnone : sends query calls = [] :=
            sends_eq_nil (fun x hx => Call.isRealQuery_of_reading (hcalls x hx)) query
          rw [sends_append, sends_singleton, hnone]
          exact Spends.success left herror

theorem executeQuery_spends (hempty : env.sessionInitQuery = []) (fuel : ℕ) (origin : Origin)
    (query : Bytes) (r : QueryResult) :
    Adds (executeQuery env fuel origin query r)
      (fun calls r' => Spends (attempts env) (sends query calls) r r') fun _ => True := by
  cases fuel with
  | zero => exact Adds.cutOff trivial
  | succ fuel =>
      have hensure : Makes (·.isRealQuery = false) (ensureConnected env (executeQuery env fuel))
          fun _ => True := ensureConnected_makes (connectAndInitSession_sends hempty)
      apply Adds.bind hensure fun _ _ => trivial
      rintro calls _ ⟨-, hcalls⟩
      refine (queryLoop_spends hempty _ _ origin query _ 0 r).weaken ?_ fun _ _ => trivial
      intro calls' r' hspends
      rw [sends_append, sends_eq_nil hcalls]
      exact hspends

/-- What the call adds to the trace is what it has sent. -/
theorem RespectsBudget.attempts_ne_zero (hempty : env.sessionInitQuery = []) {query : Bytes}
    {r : QueryResult} {s : MySQLDBThread} (h : RespectsBudget env query r s) :
    attempts env ≠ 0 := by
  obtain ⟨fuel, r', s', calls, hdone, htrace, -, -, hsent⟩ := h
  have hspec := executeQuery_spends hempty fuel .user query r s.trace s rfl
  rw [hdone] at hspec
  obtain ⟨calls', htrace', hspends⟩ := hspec
  obtain rfl : calls = calls' := List.append_cancel_left (htrace.symm.trans htrace')
  intro hzero
  have hlength := hspends.length_eq
  rw [hzero, Nat.cast_zero, min_zero, Nat.cast_eq_zero] at hlength
  exact hsent (List.eq_nil_of_length_eq_zero hlength)

end Attempts

theorem attempts_eq_of_ne_zero (h : env.options.maxRetries + 1 ≠ 0) :
    attempts env = env.options.maxRetries.toNat + 1 := by
  have hlt : env.options.maxRetries.toNat + 1 < 2 ^ 32 := by
    by_contra hge
    apply h
    apply UInt32.toNat_inj.mp
    have := env.options.maxRetries.toNat_lt
    rw [UInt32.toNat_add]
    simp
    omega
  rw [attempts, UInt32.toNat_add]
  exact Nat.mod_eq_of_lt hlt

/-- The budget is respected unless the number of attempts wraps around. -/
theorem executeQuery_respectsBudget_iff (options : MySQLOptions) (server : Server)
    (hserver : server.AnswersEnd) (query : Bytes) (r : QueryResult) (s : MySQLDBThread) :
    RespectsBudget ⟨options, [], server⟩ query r s ↔ options.maxRetries + 1 ≠ 0 := by
  let env : Env := ⟨options, [], server⟩
  constructor
  · intro h
    have hattempts : attempts env ≠ 0 := h.attempts_ne_zero rfl
    exact fun hzero => hattempts (congrArg UInt32.toNat hzero)
  · intro hne
    have hattempts : attempts env = options.maxRetries.toNat + 1 := attempts_eq_of_ne_zero hne
    obtain ⟨fuel, r', s', hdone⟩ := @returns_of_empty env rfl hserver .user query r s
    have hspec := @executeQuery_spends env rfl fuel .user query r s.trace s rfl
    rw [hdone, hattempts] at hspec
    obtain ⟨calls, htrace, hlength, herror⟩ := hspec
    have hsent : sends query calls ≠ [] := by
      intro hnil
      rw [hnil] at hlength
      rw [firstSuccess, top_inf_eq, Nat.cast_inj] at hlength
      cases hlength
    refine ⟨fuel, r', s', calls, hdone, htrace, ?_, ?_, hsent⟩
    · exact_mod_cast hlength
    · rw [herror, or_iff_left fun h => hsent h.1]

theorem executeQuery_respectsBudget_sample :
    RespectsBudget ⟨{}, [], refusingServer⟩ (bytes "SELECT 1") {} (created false) :=
  (executeQuery_respectsBudget_iff {} refusingServer refusingServer_answersEnd _ _ _).mpr
    (by decide)

/-- With the largest number of retries nothing is sent, and no error is reported. -/
theorem executeQuery_sends_nothing :
    let env : Env := ⟨{ maxRetries := 4294967295 }, [], refusingServer⟩
    (∃ r' s', executeQuery env 1 .user (bytes "SELECT 1") {} (created false) = .done r' s' ∧
      r'.error = 0 ∧ sends (bytes "SELECT 1") s'.trace = []) ∧
      ¬RespectsBudget env (bytes "SELECT 1") {} (created false) := by
  refine ⟨⟨_, _, rfl, rfl, rfl⟩, fun h => ?_⟩
  exact h.attempts_ne_zero rfl rfl

end MySQLDBThread

end QueryPlayback
