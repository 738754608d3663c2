import QueryPlayback.MySQL.Protocol

/-!
# The calls of the functions of a thread

`Adds` is a postcondition about the calls that a computation makes itself,
wherever it is begun and whether it returns or not. The functions that connect,
disconnect and read answers make calls of their own kind only; what sends queries
is left to the callers.
-/

namespace QueryPlayback

open MySQL Interruptible

namespace MySQL

/-- The call is made while connecting. -/
def Call.connecting : Call → Bool
  | .init | .realConnect .. | .usleep _ => true
  | _ => false

/-- The call reads a part of an answer. -/
def Call.reading : Call → Bool
  | .warningCount | .storeResult | .numRows | .freeResult | .nextResult => true
  | _ => false

/-- The call is a `mysql_real_query`, successful or not. -/
def Call.isRealQuery : Call → Bool
  | .realQuery .. => true
  | _ => false

theorem Call.isRealQuery_of_connecting {x : Call} (h : x.connecting = true) :
    x.isRealQuery = false := by
  cases x <;> first | rfl | cases h

theorem Call.isRealQuery_of_reading {x : Call} (h : x.reading = true) :
    x.isRealQuery = false := by
  cases x <;> first | rfl | cases h

end MySQL

namespace MySQLDBThread

variable {A B : Type}

/-- When the computation returns, the calls it has made and its result are as `Q` says;
when it is cut off, its calls are as `R` says. -/
def Adds (c : Client A) (Q : List Call → A → Prop) (R : List Call → Prop) : Prop :=
  ∀ t, Triple (fun s => s.trace = t) c (fun a s => ∃ calls, s.trace = t ++ calls ∧ Q calls a)
    fun s => ∃ calls, s.trace = t ++ calls ∧ R calls

/-- The computation makes only calls of one kind and returns what satisfies `Q`. -/
def Makes (P : Call → Prop) (c : Client A) (Q : A → Prop) : Prop :=
  Adds c (fun calls a => Q a ∧ ∀ x ∈ calls, P x) fun calls => ∀ x ∈ calls, P x

section Rules

variable {Q : List Call → A → Prop} {Q' : List Call → B → Prop} {R R' : List Call → Prop}

theorem Adds.pure {a : A} (h : Q [] a) : Adds (pure a) Q R :=
  fun t => Triple.pure fun _ hs => ⟨[], by rw [hs, List.append_nil], h⟩

theorem Adds.cutOff (h : R []) : Adds cutOff Q R :=
  fun t => Triple.cutOff fun _ hs => ⟨[], by rw [hs, List.append_nil], h⟩

theorem Adds.gets {f : MySQLDBThread → A} (h : ∀ a, Q [] a) : Adds (gets f) Q R :=
  fun _ => Triple.gets fun s hs => ⟨[], by rw [hs, List.append_nil], h (f s)⟩

/-- A change of the fields of the thread. -/
theorem Adds.modify {f : MySQLDBThread → MySQLDBThread} {Q : List Call → Unit → Prop}
    (hf : ∀ s, (f s).trace = s.trace) (h : Q [] ()) : Adds (modify f) Q R :=
  fun _ => Triple.modify fun s hs => ⟨[], by rw [hf s, hs, List.append_nil], h⟩

/-- A library call returns and is recorded. -/
theorem Adds.call {c : Client A}
    (h : ∀ s, ∃ a s' x, c s = .done a s' ∧ s'.trace = s.trace ++ [x] ∧ Q [x] a) : Adds c Q R := by
  rintro t s rfl
  obtain ⟨a, s', x, hc, htrace, hx⟩ := h s
  rw [hc]
  exact ⟨[x], htrace, hx⟩

theorem Adds.weaken {c : Client A} {Q₁ : List Call → A → Prop} (hc : Adds c Q R)
    (hQ : ∀ calls a, Q calls a → Q₁ calls a) (hR : ∀ calls, R calls → R' calls) :
    Adds c Q₁ R' := by
  intro t
  refine (hc t).consequence (fun _ => id) ?_ ?_
  · rintro a s ⟨calls, htrace, hcalls⟩
    exact ⟨calls, htrace, hQ calls a hcalls⟩
  · rintro s ⟨calls, htrace, hcalls⟩
    exact ⟨calls, htrace, hR calls hcalls⟩

/-- The calls of the second part stand behind those of the first one. -/
theorem Adds.bind {c : Client A} {f : A → Client B} (hc : Adds c Q R)
    (hR : ∀ calls, R calls → R' calls)
    (hf : ∀ calls a, Q calls a →
      Adds (f a) (fun calls' b => Q' (calls ++ calls') b) fun calls' => R' (calls ++ calls')) :
    Adds (c >>= f) Q' R' := by
  intro t
  apply ((hc.weaken (fun _ _ => id) hR) t).bind
  rintro a s ⟨calls, htrace, hcalls⟩
  have hrest : Triple (fun s' => s'.trace = s.trace) (f a)
      (fun b s' => ∃ calls', s'.trace = t ++ calls' ∧ Q' calls' b)
      fun s' => ∃ calls', s'.trace = t ++ calls' ∧ R' calls' := by
    refine (hf calls a hcalls s.trace).consequence (fun _ => id) ?_ ?_
    · rintro b s' ⟨calls', htrace', hcalls'⟩
      exact ⟨calls ++ calls', by rw [htrace', htrace, List.append_assoc], hcalls'⟩
    · rintro s' ⟨calls', htrace', hcalls'⟩
      exact ⟨calls ++ calls', by rw [htrace', htrace, List.append_assoc], hcalls'⟩
  exact hrest s rfl

theorem Adds.ite {b : Prop} [Decidable b] {c d : Client A} (hc : b → Adds c Q R)
    (hd : ¬b → Adds d Q R) : Adds (if b then c else d) Q R := by
  split
  · rename_i hb
    exact hc hb
  · rename_i hb
    exact hd hb

end Rules

section Kinds

variable {P P' : Call → Prop} {Q Q₁ : A → Prop} {Q' : B → Prop}

theorem Makes.pure {a : A} (ha : Q a) : Makes P (pure a) Q :=
  Adds.pure ⟨ha, by simp⟩

theorem Makes.cutOff : Makes P cutOff Q := Adds.cutOff (by simp)

theorem Makes.gets (f : MySQLDBThread → A) : Makes P (gets f) fun _ => True :=
  Adds.gets fun _ => ⟨trivial, by simp⟩

theorem Makes.modify {f : MySQLDBThread → MySQLDBThread} (hf : ∀ s, (f s).trace = s.trace) :
    Makes P (modify f) fun _ => True :=
  Adds.modify hf ⟨trivial, by simp⟩

theorem Makes.call {c : Client A}
    (h : ∀ s, ∃ a s' x, c s = .done a s' ∧ s'.trace = s.trace ++ [x] ∧ P x ∧ Q a) :
    Makes P c Q := by
  apply Adds.call
  intro s
  obtain ⟨a, s', x, hc, htrace, hx, ha⟩ := h s
  exact ⟨a, s', x, hc, htrace, ha, by simpa using hx⟩

theorem Makes.bind {c : Client A} {f : A → Client B} (hc : Makes P c Q)
    (hf : ∀ a, Q a → Makes P (f a) Q') : Makes P (c >>= f) Q' := by
  apply Adds.bind hc fun _ => id
  rintro calls a ⟨ha, hcalls⟩
  refine (hf a ha).weaken ?_ ?_
  · rintro calls' b ⟨hb, hcalls'⟩
    exact ⟨hb, List.forall_mem_append.mpr ⟨hcalls, hcalls'⟩⟩
  · exact fun calls' hcalls' => List.forall_mem_append.mpr ⟨hcalls, hcalls'⟩

theorem Makes.ite {b : Prop} [Decidable b] {c d : Client A} (hc : Makes P c Q)
    (hd : Makes P d Q) : Makes P (if b then c else d) Q :=
  Adds.ite (fun _ => hc) fun _ => hd

theorem Makes.weaken {c : Client A} (hc : Makes P c Q) (h : ∀ a, Q a → Q₁ a) : Makes P c Q₁ :=
  Adds.weaken hc (fun _ a hs => ⟨h a hs.1, hs.2⟩) fun _ => id

/-- A computation that makes only some calls makes only calls of a wider kind. -/
theorem Makes.mono {c : Client A} (hc : Makes P c Q) (h : ∀ x, P x → P' x) : Makes P' c Q :=
  Adds.weaken hc (fun _ _ hs => ⟨hs.1, fun x hx => h x (hs.2 x hx)⟩)
    fun _ hs x hx => h x (hs x hx)

/-- A property of the trace that calls of the kind keep holds behind the computation. -/
theorem Makes.keeps {c : Client A} {I : List Call → Prop} (hc : Makes P c Q)
    (hI : ∀ t x, I t → P x → I (t ++ [x])) :
    Triple (fun s => I s.trace) c (fun a s => I s.trace ∧ Q a) fun s => I s.trace := by
  have hcalls : ∀ t calls, I t → (∀ x ∈ calls, P x) → I (t ++ calls) := by
    intro t calls ht hP
    induction calls using List.reverseRecOn with
    | nil => rwa [List.append_nil]
    | append_singleton calls x ih =>
        obtain ⟨hbefore, hx⟩ := List.forall_mem_append.mp hP
        rw [← List.append_assoc]
        exact hI _ x (ih hbefore) (hx x (List.mem_singleton_self x))
  intro s hs
  refine ((hc s.trace).consequence (fun _ => id) ?_ ?_) s rfl
  · rintro a s' ⟨calls, htrace, ha, hP⟩
    rw [htrace]
    exact ⟨hcalls _ _ hs hP, ha⟩
  · rintro s' ⟨calls, htrace, hP⟩
    rw [htrace]
    exact hcalls _ _ hs hP

end Kinds

section Functions

variable {env : Env}

theorem record_makes (c : Call) : Makes (· = c) (record c) fun _ => True :=
  Makes.call fun _ => ⟨_, _, c, rfl, rfl, rfl, trivial⟩

theorem recorded_makes {c : Call} {P : Call → Prop} (hc : P c) {a : A} {Q : A → Prop}
    (ha : Q a) : Makes P (record c >>= fun _ => pure a) Q := by
  apply Makes.bind ((record_makes c).mono fun x hx => hx ▸ hc)
  exact fun _ _ => Makes.pure ha

theorem usleep_makes (useconds : UInt32) :
    Makes (·.connecting = true) (usleep env.server useconds) fun _ => True :=
  Makes.call fun _ => ⟨_, _, _, rfl, rfl, rfl, trivial⟩

theorem tryConnect_makes : Makes (·.connecting = true) (tryConnect env) fun _ => True := by
  have hinit : Makes (·.connecting = true) init fun _ => True :=
    Makes.call fun _ => ⟨_, _, .init, rfl, rfl, rfl, trivial⟩
  have hconnect : Makes (·.connecting = true)
      (realConnect env.server env.options.connectArguments) fun _ => True :=
    Makes.call fun _ => ⟨_, _, _, rfl, rfl, rfl, trivial⟩
  apply hinit.bind
  intro _ _
  apply hconnect.bind
  intro succeeded _
  apply Makes.ite (Makes.pure trivial)
  exact (Makes.modify fun s => by rfl).bind fun _ _ => Makes.gets _

theorem connectLoop_makes (left numTries : ℕ) :
    Makes (·.connecting = true) (connectLoop env left numTries) fun _ => True := by
  induction left generalizing numTries with
  | zero => exact tryConnect_makes.bind fun _ _ => Makes.pure trivial
  | succ left ih =>
      apply tryConnect_makes.bind
      intro again _
      refine Makes.ite ?_ (Makes.pure trivial)
      apply (usleep_makes _).bind
      intro result _
      exact Makes.ite (ih _) (Makes.pure trivial)

theorem connect_makes : Makes (·.connecting = true) (connect env) fun _ => True := by
  have hflag : ∀ b, Makes (·.connecting = true) (setHaveConnected b) fun _ => True :=
    fun b => Makes.modify fun s => by rfl
  apply (connectLoop_makes _ _).bind
  intro _ _
  apply (Makes.gets _).bind
  intro error _
  apply Makes.ite
  · exact (hflag false).bind fun _ _ => Makes.pure trivial
  · exact (hflag true).bind fun _ _ => Makes.pure trivial

theorem disconnect_makes : Makes (· = .close) disconnect fun _ => True := by
  have hclose : Makes (· = .close) close fun _ => True :=
    Makes.call fun _ => ⟨_, _, .close, rfl, rfl, rfl, trivial⟩
  apply (Makes.gets _).bind
  intro haveConnected _
  apply (Makes.ite hclose (Makes.pure trivial)).bind
  intro _ _
  exact Makes.modify fun s => by rfl

theorem reading_makes {c : Call} (hc : c.reading = true) {a : A} {Q : A → Prop} (ha : Q a) :
    Makes (·.reading = true) (record c >>= fun _ => pure a) Q :=
  recorded_makes hc ha

theorem countRows_makes (result : Option ℕ) (r : QueryResult) :
    Makes (·.reading = true) (countRows result r) fun r' => r'.error = r.error := by
  cases result with
  | none => exact Makes.pure rfl
  | some rows =>
      have hrows : Makes (·.reading = true) (numRows rows) fun _ => True :=
        reading_makes rfl trivial
      apply hrows.bind
      exact fun rowsSent _ => reading_makes rfl rfl

/-- Reading the results leaves the error as it is. -/
theorem readResults_makes (answer : Answer) (fuel i : ℕ) (r : QueryResult) :
    Makes (·.reading = true) (readResults answer fuel i r) fun r' => r'.error = r.error := by
  induction fuel generalizing i r with
  | zero => exact Makes.cutOff
  | succ fuel ih =>
      have hresult : Makes (·.reading = true) (storeResult answer i) fun _ => True :=
        reading_makes rfl trivial
      have hnext : Makes (·.reading = true) (nextResult answer i) fun _ => True :=
        reading_makes rfl trivial
      apply hresult.bind
      intro result _
      apply (countRows_makes result r).bind
      intro r₁ hr₁
      apply hnext.bind
      intro status _
      apply Makes.ite ((ih (i + 1) r₁).weaken fun r' hr' => hr'.trans hr₁)
      exact Makes.pure hr₁

theorem readAnswer_makes (fuel : ℕ) (answer : Answer) (r : QueryResult) :
    Makes (·.reading = true) (readAnswer fuel answer r) fun r' => r'.error = r.error := by
  have hwarnings : Makes (·.reading = true) (warningCount answer) fun _ => True :=
    reading_makes rfl trivial
  apply hwarnings.bind
  intro warnings _
  exact readResults_makes answer fuel 0 _

section Sessions

variable {exec : Execute} {P : Call → Prop}

theorem connectAndInitSession_makes (hconnect : ∀ x : Call, x.connecting = true → P x)
    (hinit : Makes P (initSession env exec) fun _ => True) :
    Makes P (connectAndInitSession env exec) fun _ => True := by
  apply (connect_makes.mono hconnect).bind
  intro connected _
  exact Makes.ite (hinit.bind fun _ _ => Makes.pure trivial) (Makes.pure trivial)

theorem ensureConnected_makes (h : Makes P (connectAndInitSession env exec) fun _ => True) :
    Makes P (ensureConnected env exec) fun _ => True := by
  apply (Makes.gets _).bind
  intro haveConnected _
  exact Makes.ite (Makes.pure trivial) (h.bind fun _ _ => Makes.pure trivial)

theorem reconnect_makes (hconnect : ∀ x : Call, x.connecting = true → P x) (hclose : P .close)
    (h : Makes P (connectAndInitSession env exec) fun _ => True) (i : ℕ) :
    Makes P (reconnect env exec i) fun _ => True := by
  apply (Makes.gets _).bind
  intro errno _
  apply (Makes.ite ((usleep_makes _).mono hconnect) (Makes.pure trivial)).bind
  intro _ _
  apply (disconnect_makes.mono fun x hx => hx ▸ hclose).bind
  intro _ _
  exact h.bind fun _ _ => Makes.pure trivial

/-- Without an init query there is nothing to initialise. -/
theorem initSession_makes_of_empty (hempty : env.sessionInitQuery = []) :
    Makes P (initSession env exec) fun _ => True := by
  rw [initSession, if_pos hempty]
  exact Makes.pure trivial

end Sessions

end Functions

end MySQLDBThread

end QueryPlayback
