import QueryPlayback.MySQL.Thread

/-!
# The bound on the recursion

A larger bound continues the run of a smaller one, and a call of `execute_query`
that is cut off has made at least as many library calls as its bound allows. So
the runs that are cut off are the beginnings of one run, and a run that is cut
off at every bound makes library calls for ever.
-/

namespace QueryPlayback

open MySQL Interruptible

namespace MySQLDBThread

variable {env : Env}

/-- The calls of the first state are the first calls of the second one. -/
def Earlier (s s' : MySQLDBThread) : Prop := s.trace <+: s'.trace

theorem Earlier.refl (s : MySQLDBThread) : Earlier s s := List.prefix_refl _

theorem Earlier.trans (s s' s'' : MySQLDBThread) (h : Earlier s s') (h' : Earlier s' s'') :
    Earlier s s'' := List.IsPrefix.trans h h'

/-- The first computation makes the first calls of the second one: at least `k`
if it returns, at least `n` if it is cut off. -/
def Begins {A : Type} (k n : ℕ) (c d : Client A) : Prop :=
  Approximates Earlier (·.trace.length) k n c d

section Rules

variable {A B : Type} {k n : ℕ}

theorem Begins.pure (a : A) : Begins 0 n (pure a : Client A) (pure a) :=
  Approximates.pure Earlier.refl a

theorem Begins.weaken {c d : Client A} (h : Begins k n c d) : Begins 0 n c d :=
  h.mono (Nat.zero_le k) (Nat.le_refl n)

theorem Begins.bind {c d : Client A} {f g : A → Client B} (hcd : Begins k n c d)
    (hfg : ∀ a, Begins 0 n (f a) (g a)) : Begins k n (c >>= f) (d >>= g) :=
  Approximates.bind Earlier.trans hcd hfg (Nat.le_add_left n k)

/-- A call that has been made lets the rest be cut off one call earlier. -/
theorem Begins.bind_call {c d : Client A} {f g : A → Client B} (hcd : Begins 1 (n + 1) c d)
    (hfg : ∀ a, Begins 0 n (f a) (g a)) : Begins 0 (n + 1) (c >>= f) (d >>= g) :=
  (Approximates.bind Earlier.trans hcd hfg (Nat.le_of_eq (Nat.add_comm n 1))).mono
    (Nat.zero_le _) (Nat.le_refl _)

theorem Begins.ite {b : Prop} [Decidable b] {c d c' d' : Client A} (h : Begins k n c d)
    (h' : Begins k n c' d') : Begins k n (if b then c else c') (if b then d else d') := by
  split
  · exact h
  · exact h'

theorem Begins.gets {f : MySQLDBThread → A} : Begins 0 n (gets f) (gets f) :=
  Approximates.of_done fun s => ⟨f s, s, rfl, List.prefix_refl _, Nat.le_refl _⟩

/-- A change of the fields of the thread. -/
theorem Begins.modify {f : MySQLDBThread → MySQLDBThread} (h : ∀ s, (f s).trace = s.trace) :
    Begins 0 n (modify f) (modify f) := by
  refine Approximates.of_done fun s => ⟨(), f s, rfl, ?_, ?_⟩
  · simp [Earlier, h]
  · simp [h]

/-- A library call returns and is recorded. -/
theorem Begins.call {c : Client A}
    (h : ∀ s, ∃ a s' x, c s = .done a s' ∧ s'.trace = s.trace ++ [x]) : Begins 1 n c c := by
  apply Approximates.of_done
  intro s
  obtain ⟨a, s', x, hc, htrace⟩ := h s
  refine ⟨a, s', hc, ?_, ?_⟩
  · rw [Earlier, htrace]
    exact List.prefix_append _ _
  · simp [htrace]

end Rules

section Functions

variable {n : ℕ}

theorem record_begins (c : Call) : Begins 1 n (record c) (record c) :=
  Begins.call fun _ => ⟨_, _, _, rfl, rfl⟩

theorem recorded_begins {A : Type} (c : Call) (a : A) :
    Begins 1 n (record c >>= fun _ => pure a) (record c >>= fun _ => pure a) :=
  (record_begins c).bind fun _ => Begins.pure a

theorem usleep_begins (useconds : UInt32) :
    Begins 1 n (usleep env.server useconds) (usleep env.server useconds) :=
  Begins.call fun _ => ⟨_, _, _, rfl, rfl⟩

theorem setHaveConnected_begins (b : Bool) :
    Begins 0 n (setHaveConnected b) (setHaveConnected b) :=
  Begins.modify fun _ => rfl

theorem tryConnect_begins : Begins 1 n (tryConnect env) (tryConnect env) := by
  have hinit : Begins 1 n init init := Begins.call fun _ => ⟨_, _, _, rfl, rfl⟩
  have hconnect : Begins 1 n (realConnect env.server env.options.connectArguments)
      (realConnect env.server env.options.connectArguments) :=
    Begins.call fun _ => ⟨_, _, _, rfl, rfl⟩
  refine hinit.bind fun _ => (hconnect.bind fun succeeded => ?_).weaken
  apply Begins.ite (Begins.pure _)
  exact Begins.bind (Begins.modify fun s => by rfl) fun _ => Begins.gets

theorem connectLoop_begins (left numTries : ℕ) :
    Begins 1 n (connectLoop env left numTries) (connectLoop env left numTries) := by
  induction left generalizing numTries with
  | zero => exact tryConnect_begins.bind fun _ => Begins.pure _
  | succ left ih =>
      refine tryConnect_begins.bind fun again => Begins.ite ?_ (Begins.pure _)
      refine ((usleep_begins _).bind fun result => ?_).weaken
      exact Begins.ite (ih _).weaken (Begins.pure _)

theorem connect_begins : Begins 1 n (connect env) (connect env) := by
  refine (connectLoop_begins _ _).bind fun _ => Begins.gets.bind fun error => Begins.ite ?_ ?_
  · exact (setHaveConnected_begins false).bind fun _ => Begins.pure _
  · exact (setHaveConnected_begins true).bind fun _ => Begins.pure _

theorem disconnect_begins : Begins 0 n disconnect disconnect := by
  have hclose : Begins 1 n close close := Begins.call fun _ => ⟨_, _, _, rfl, rfl⟩
  apply Begins.gets.bind
  intro haveConnected
  apply Begins.bind (Begins.ite hclose.weaken (Begins.pure _))
  intro _
  exact setHaveConnected_begins false

theorem countRows_begins (result : Option ℕ) (r : QueryResult) :
    Begins 0 n (countRows result r) (countRows result r) := by
  cases result with
  | none => exact Begins.pure _
  | some rows =>
      apply Begins.bind (recorded_begins _ _).weaken
      intro rowsSent
      exact (recorded_begins _ _).weaken

theorem readResults_begins (answer : Answer) {fuel fuel' : ℕ} (hfuel : fuel ≤ fuel') (i : ℕ)
    (r : QueryResult) :
    Begins 0 fuel (readResults answer fuel i r) (readResults answer fuel' i r) := by
  refine approximates_of_bound (F := fun fuel (x : ℕ × QueryResult) =>
    readResults answer fuel x.1 x.2) Earlier.refl Earlier.trans (fun _ => rfl) ?_ hfuel (i, r)
  rintro n n' - ih ⟨i, r⟩
  apply Begins.bind_call (recorded_begins _ _)
  intro result
  apply (countRows_begins result r).bind
  intro r
  apply Begins.bind (recorded_begins _ _).weaken
  intro status
  exact Begins.ite (ih (i + 1, r)) (Begins.pure _)

/-- Of two functions in the place of `execute_query`, the first makes the first calls of
the second one, and `n` of them or more before it is cut off. -/
def ExecuteBegins (n : ℕ) (exec exec' : Execute) : Prop :=
  ∀ origin query r, Begins 0 n (exec origin query r) (exec' origin query r)

variable {exec exec' : Execute}

/-- The calls of `connect` come before those of the inner function. -/
theorem connectAndInitSession_begins (h : ExecuteBegins n exec exec') :
    Begins 0 (n + 1) (connectAndInitSession env exec) (connectAndInitSession env exec') := by
  refine connect_begins.bind_call fun connected => Begins.ite ?_ (Begins.pure _)
  refine Begins.bind (Begins.ite (Begins.pure _) ?_) fun _ => Begins.pure _
  exact (h _ _ _).bind fun _ => Begins.pure _

theorem reconnect_begins (h : ExecuteBegins n exec exec') (i : ℕ) :
    Begins 0 (n + 1) (reconnect env exec i) (reconnect env exec' i) := by
  apply Begins.gets.bind
  intro errno
  apply Begins.bind (Begins.ite (usleep_begins _).weaken (Begins.pure _))
  intro _
  apply disconnect_begins.bind
  intro _
  exact (connectAndInitSession_begins h).bind fun _ => Begins.pure _

theorem queryLoop_begins (h : ExecuteBegins n exec exec') {fuel : ℕ} (hfuel : n ≤ fuel)
    (origin : Origin) (query : Bytes) (left i : ℕ) (r : QueryResult) :
    Begins 0 (n + 1) (queryLoop env exec (n + 1) origin query left i r)
      (queryLoop env exec' (fuel + 1) origin query left i r) := by
  induction left generalizing i r with
  | zero => exact Begins.pure _
  | succ left ih =>
      have hquery : Begins 1 (n + 1) (realQuery env.server origin query)
          (realQuery env.server origin query) := Begins.call fun _ => ⟨_, _, _, rfl, rfl⟩
      refine (hquery.bind fun reply => ?_).weaken
      cases reply with
      | failed code errno error nonzero =>
          exact (reconnect_begins h i).bind fun _ => ih (i + 1) _
      | accepted answer =>
          apply Begins.bind (recorded_begins _ _).weaken
          intro warnings
          exact readResults_begins answer (Nat.succ_le_succ hfuel) 0 _

theorem ensureConnected_begins (h : ExecuteBegins n exec exec') :
    Begins 0 (n + 1) (ensureConnected env exec) (ensureConnected env exec') := by
  refine Begins.gets.bind fun b => Begins.ite (Begins.pure _) ?_
  exact (connectAndInitSession_begins h).bind fun _ => Begins.pure _

theorem executeQuery_begins {fuel fuel' : ℕ} (hfuel : fuel ≤ fuel') :
    ExecuteBegins fuel (executeQuery env fuel) (executeQuery env fuel') := by
  intro origin query r
  refine approximates_of_bound (F := fun fuel (x : Origin × Bytes × QueryResult) =>
    executeQuery env fuel x.1 x.2.1 x.2.2) Earlier.refl Earlier.trans (fun _ => rfl) ?_ hfuel
    (origin, query, r)
  rintro n n' hn ih ⟨origin, query, r⟩
  have hexec : ExecuteBegins n (executeQuery env n) (executeQuery env n') :=
    fun origin query r => ih (origin, query, r)
  exact (ensureConnected_begins hexec).bind fun _ => queryLoop_begins hexec hn origin query _ _ _

theorem handleEntry_begins {fuel fuel' : ℕ} (hfuel : fuel ≤ fuel') (query : ThreadEntry) :
    Begins 0 fuel (handleEntry env fuel query) (handleEntry env fuel' query) := by
  have hexec : ExecuteBegins fuel (executeQuery env fuel) (executeQuery env fuel') :=
    executeQuery_begins hfuel
  refine Begins.ite (disconnect_begins.bind fun _ => ?_) ?_
  · have hconnect : Begins 0 fuel (connectAndInitSession env (executeQuery env fuel))
        (connectAndInitSession env (executeQuery env fuel')) :=
      (connectAndInitSession_begins hexec).mono (Nat.le_refl 0) (Nat.le_succ fuel)
    exact hconnect.bind fun _ => Begins.pure _
  · unfold execute
    cases query.text with
    | none => exact Begins.pure _
    | some text => exact (hexec .user text {}).bind fun _ => Begins.pure _

/-- A thread that waits for an entry has made all the calls it could. -/
theorem runEntries_begins {fuel fuel' : ℕ} (hfuel : fuel ≤ fuel') (queries : List ThreadEntry) :
    Begins 0 0 (runEntries env fuel queries) (runEntries env fuel' queries) := by
  induction queries with
  | nil => exact Approximates.cutOff Earlier.refl Earlier.refl
  | cons query queries ih =>
      have hentry : Begins 0 0 (handleEntry env fuel query) (handleEntry env fuel' query) :=
        (handleEntry_begins hfuel query).mono (Nat.le_refl 0) (Nat.zero_le fuel)
      exact Begins.bind hentry fun _ => Begins.ite disconnect_begins ih

theorem run_begins {fuel fuel' : ℕ} (hfuel : fuel ≤ fuel') (queries : List ThreadEntry) :
    Begins 0 0 (run env fuel queries) (run env fuel' queries) := by
  apply (setHaveConnected_begins false).bind
  intro _
  refine ((record_begins .threadInit).bind fun _ => ?_).weaken
  exact (runEntries_begins hfuel queries).bind fun _ => (record_begins .threadEnd).weaken

end Functions

/-- With a larger bound the thread makes the same calls and perhaps more. -/
theorem calls_mono {fuel fuel' : ℕ} (hfuel : fuel ≤ fuel') (haveConnected : Bool)
    (queries : List ThreadEntry) :
    calls env fuel haveConnected queries <+: calls env fuel' haveConnected queries :=
  (run_begins hfuel queries).state Earlier.refl _

/-- A run that has returned is the same for every larger bound. -/
theorem run_done {fuel fuel' : ℕ} (hfuel : fuel ≤ fuel') {queries : List ThreadEntry}
    {s s' : MySQLDBThread} (h : run env fuel queries s = .done () s') :
    run env fuel' queries s = .done () s' :=
  (run_begins hfuel queries).done h

/-- A call of `execute_query` that has been cut off has used its bound up. -/
theorem executeQuery_cut {fuel : ℕ} {origin : Origin} {query : Bytes} {r : QueryResult}
    {s s' : MySQLDBThread} (h : executeQuery env fuel origin query r s = .cut s') :
    s.trace.length + fuel ≤ s'.trace.length :=
  (executeQuery_begins (Nat.le_refl fuel) origin query r).cut h

end MySQLDBThread

end QueryPlayback
