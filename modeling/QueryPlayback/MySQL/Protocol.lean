import QueryPlayback.Lib.Traces
import QueryPlayback.MySQL.Thread

/-!
# The use of a connection handle

What a thread may call after the calls it has made: a handle is initialised
before it is used, connections are opened and closed in turn, and the query of
an entry meets an initialised session.
-/

namespace QueryPlayback.MySQL

open Traces

/-- The call has established a connection. -/
def Call.connects : Call → Bool
  | .realConnect _ succeeded => succeeded
  | _ => false

/-- The call is a `mysql_real_connect`, successful or not. -/
def Call.isRealConnect : Call → Bool
  | .realConnect .. => true
  | _ => false

/-- The call sends a query or reads a part of its answer. -/
def Call.queries : Call → Bool
  | .realQuery .. | .warningCount | .storeResult | .numRows | .freeResult | .nextResult => true
  | _ => false

/-- A connection has been established and not closed yet. -/
def Open (t : List Call) : Prop := Since (fun c => c.connects = true) (· = .close) t

/-- The handle has been initialised and not closed since. -/
def Usable (t : List Call) : Prop := Since (· = .init) (· = .close) t

/-- The server has accepted the query `sessionInitQuery` on the present connection. -/
def Initialised (sessionInitQuery : Bytes) (t : List Call) : Prop :=
  Since (· = .realQuery .sessionInit sessionInitQuery true)
    (fun c => c = .close ∨ c.isRealConnect = true) t

/-- What the calls made so far allow. An empty query needs no initialised session. -/
def Allowed (sessionInitQuery : Bytes) (past : List Call) : Call → Prop
  | .threadInit | .threadEnd | .usleep _ => True
  | .init => ¬Open past
  | .realConnect .. => Usable past ∧ ¬Open past
  | .close => Open past
  | .realQuery origin _ succeeded => Usable past ∧ (succeeded = true → Open past) ∧
      (origin = .user → sessionInitQuery ≠ [] → Open past → Initialised sessionInitQuery past)
  | .warningCount | .storeResult | .numRows | .freeResult | .nextResult => Usable past

variable {sessionInitQuery : Bytes}

/-- Whatever sends a query or reads an answer needs an initialised handle. -/
theorem Allowed.usable {past : List Call} {c : Call} (h : Allowed sessionInitQuery past c)
    (hc : c.queries = true) : Usable past := by
  cases c with
  | realQuery origin query succeeded => exact h.1
  | warningCount => exact h
  | storeResult => exact h
  | numRows => exact h
  | freeResult => exact h
  | nextResult => exact h
  | _ => cases hc

theorem Allowed.not_open {past : List Call} {c : Call} (h : Allowed sessionInitQuery past c)
    (hc : c.isRealConnect = true) : ¬Open past := by
  cases c with
  | realConnect arguments succeeded => exact h.2
  | _ => cases hc

/-- Connections are opened and closed in turn. -/
theorem connects_count {t : List Call} (h : Always (Allowed sessionInitQuery) t) :
    (Open t → t.countP Call.connects = t.count .close + 1) ∧
      (¬Open t → t.countP Call.connects = t.count .close) := by
  induction t using List.reverseRecOn with
  | nil => simp [Open]
  | append_singleton t c ih =>
      obtain ⟨ht, hc⟩ := always_append_singleton.mp h
      obtain ⟨hopen, hclosed⟩ := ih ht
      have hstep : Open (t ++ [c]) ↔ c.connects = true ∨ c ≠ .close ∧ Open t :=
        since_append_singleton
      rw [hstep, List.countP_append, List.count_append]
      cases c with
      | realConnect arguments succeeded =>
          have hno := hclosed hc.2
          cases succeeded <;> simp [Call.connects, hno, hc.2]
      | close =>
          have hyes := hopen hc
          simp [Call.connects, hyes]
      | _ => simpa [Call.connects] using ⟨hopen, hclosed⟩

/-- At any time no connection is open or one is. -/
theorem connects_count_cases {t : List Call} (h : Always (Allowed sessionInitQuery) t) :
    t.countP Call.connects = t.count .close ∨ t.countP Call.connects = t.count .close + 1 := by
  have hcount := connects_count h
  by_cases hopen : Open t
  · exact Or.inr (hcount.1 hopen)
  · exact Or.inl (hcount.2 hopen)

/-- Between a successful connect and the next one there is exactly one close. -/
theorem close_count_eq_one {a b c : List Call} {x y : Call}
    (h : Always (Allowed sessionInitQuery) (a ++ x :: (b ++ y :: c))) (hx : x.connects = true)
    (hb : ∀ z ∈ b, z.isRealConnect = false) (hy : y.isRealConnect = true) :
    b.count .close = 1 := by
  have hxopen : Open (a ++ [x]) := since_append_singleton.mpr (Or.inl hx)
  have hyclosed : ¬Open (a ++ x :: b) := (h (a ++ x :: b) y c (by simp)).not_open hy
  have hcountx := (connects_count (h.of_prefix ⟨b ++ y :: c, by simp⟩)).1 hxopen
  have hcounty := (connects_count (h.of_prefix ⟨y :: c, by simp⟩)).2 hyclosed
  have hnone : b.countP Call.connects = 0 := by
    apply List.countP_eq_zero.mpr
    intro z hz
    have hzb := hb z hz
    cases z with
    | realConnect arguments succeeded => cases hzb
    | _ => exact Bool.false_ne_true
  have hxclose : x ≠ .close := by
    rintro rfl
    cases hx
  rw [List.append_cons, List.countP_append, List.count_append, hnone] at hcounty
  omega

/-- A handle is used as an open/close protocol. -/
structure HandleProtocol (t : List Call) : Prop where
  at_most_one_open : t.countP Call.connects = t.count .close ∨
    t.countP Call.connects = t.count .close + 1
  closed_once : ∀ a x b y c, t = a ++ x :: (b ++ y :: c) → x.connects = true →
    (∀ z ∈ b, z.isRealConnect = false) → y.isRealConnect = true → b.count .close = 1
  close_open : ∀ a b, t = a ++ .close :: b → Open a
  queries_usable : ∀ a x b, t = a ++ x :: b → x.queries = true → Usable a

theorem handleProtocol_of_always {t : List Call} (h : Always (Allowed sessionInitQuery) t) :
    HandleProtocol t where
  at_most_one_open := connects_count_cases h
  closed_once := by
    rintro a x b y c rfl hx hb hy
    exact close_count_eq_one h hx hb hy
  close_open a b ht := h a .close b ht
  queries_usable a x b ht hx := (h a x b ht).usable hx

/-- The server has accepted the query behind the connect of the present connection. -/
def OnInitialisedSession (sessionInitQuery : Bytes) (t : List Call) : Prop :=
  ∃ a arguments b, t = a ++ .realConnect arguments true :: b ∧
    (∀ c ∈ b, c ≠ .close ∧ c.isRealConnect = false) ∧
    .realQuery .sessionInit sessionInitQuery true ∈ b

/-- On an open connection the accepted query lies behind the connect. -/
theorem onInitialisedSession_of_open {t : List Call} (h : Always (Allowed sessionInitQuery) t)
    (hopen : Open t) (hinit : Initialised sessionInitQuery t) :
    OnInitialisedSession sessionInitQuery t := by
  obtain ⟨a, x, b, rfl, hx, hb⟩ := hopen
  -- nothing behind the connect of the open connection connects again
  have hquiet : ∀ c ∈ b, c ≠ .close ∧ c.isRealConnect = false := by
    intro c hc
    refine ⟨hb c hc, ?_⟩
    by_contra hconnect
    obtain ⟨b₁, b₂, rfl⟩ := List.append_of_mem hc
    apply (h (a ++ x :: b₁) c b₂ (by simp)).not_open (by simpa using hconnect)
    exact ⟨a, x, b₁, rfl, hx, fun y hy => hb y (by simp [hy])⟩
  obtain ⟨a', i, b', ht, rfl, hb'⟩ := hinit
  cases x with
  | realConnect arguments succeeded =>
      obtain rfl : succeeded = true := hx
      refine ⟨a, arguments, b, rfl, hquiet, ?_⟩
      rcases List.append_eq_append_iff.mp ht with ⟨m, rfl, hm⟩ | ⟨m, rfl, hm⟩
      · cases m with
        | nil => simp at hm
        | cons y m =>
            obtain ⟨rfl, rfl⟩ := List.cons.inj hm
            simp
      · cases m with
        | nil => simp at hm
        | cons y m =>
            obtain ⟨rfl, rfl⟩ := List.cons.inj hm
            exact absurd (Or.inr rfl) (hb' (.realConnect arguments true) (by simp))
  | _ => cases hx

end QueryPlayback.MySQL
