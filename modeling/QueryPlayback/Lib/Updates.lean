import QueryPlayback.Lib.Interleaving
import Mathlib.Algebra.BigOperators.Group.List.Basic

/-!
# Interleaved programs of atomic updates

Each thread has a program, a list of updates of a shared state, and the threads
perform their updates one at a time in any order. A measure of the shared state
to which every update adds an amount of its own is, after any run, the sum of
the amounts performed so far, whatever the order was.

## Implementation notes

An update may rely on what earlier updates of its thread have left behind. The
predicate `Ok` says that a state is good for the rest of a program; the rules
ask that nobody's update takes this away.
-/

namespace QueryPlayback.Updates

open Relation Interleaving

/-- The shared state and what each thread still has to perform. -/
structure System (S U : Type*) where
  shared : S
  programs : List (List U)

section Runs

variable {S U : Type*} (perform : U → S → S)

/-- One thread performs its next update. -/
def Step (sys sys' : System S U) : Prop :=
  ∃ i u rest, sys.programs[i]? = some (u :: rest) ∧
    sys' = ⟨perform u sys.shared, sys.programs.set i rest⟩

/-- The threads perform some of their updates in some order. -/
abbrev Runs : System S U → System S U → Prop := ReflTransGen (Step perform)

/-- All programs have been performed. -/
def System.Finished (sys : System S U) : Prop := ∀ l ∈ sys.programs, l = []

variable {perform}

theorem Step.cons {s s' : S} {ls ls' : List (List U)} (l : List U)
    (h : Step perform ⟨s, ls⟩ ⟨s', ls'⟩) : Step perform ⟨s, l :: ls⟩ ⟨s', l :: ls'⟩ := by
  obtain ⟨i, u, rest, hget, heq⟩ := h
  obtain ⟨rfl, rfl⟩ := System.mk.inj heq
  exact ⟨i + 1, u, rest, hget, rfl⟩

theorem Runs.cons {sys sys' : System S U} (l : List U) (h : Runs perform sys sys') :
    Runs perform ⟨sys.shared, l :: sys.programs⟩ ⟨sys'.shared, l :: sys'.programs⟩ := by
  induction h with
  | refl => exact .refl
  | tail _ hlast ih => exact ih.tail (Step.cons l hlast)

/-- The first thread can perform its program to the end. -/
theorem runs_head (s : S) (l : List U) (ls : List (List U)) :
    ∃ s', Runs perform ⟨s, l :: ls⟩ ⟨s', [] :: ls⟩ := by
  induction l generalizing s with
  | nil => exact ⟨s, .refl⟩
  | cons u l ih =>
      obtain ⟨s', hrest⟩ := ih (perform u s)
      exact ⟨s', .head ⟨0, u, l, rfl, rfl⟩ hrest⟩

/-- Every run can be continued until all programs have been performed. -/
theorem runs_to_end (s : S) (ls : List (List U)) :
    ∃ sys', Runs perform ⟨s, ls⟩ sys' ∧ sys'.Finished := by
  induction ls generalizing s with
  | nil => exact ⟨⟨s, []⟩, .refl, by simp [System.Finished]⟩
  | cons l ls ih =>
      obtain ⟨s₁, hhead⟩ := @runs_head S U perform s l ls
      obtain ⟨sys', hrest, hfinished⟩ := ih s₁
      refine ⟨⟨sys'.shared, [] :: sys'.programs⟩, hhead.trans (hrest.cons []), ?_⟩
      simpa [System.Finished] using hfinished

end Runs

section Growing

variable {S U : Type*} {perform : U → S → S}

/-- What a thread is given to do behind the rest of its program takes no step away. -/
theorem Step.extend {s s' : S} {ls ls' : List (List U)} (i : ℕ) (us : List U)
    (h : Step perform ⟨s, ls⟩ ⟨s', ls'⟩) :
    Step perform ⟨s, ls.modify i (· ++ us)⟩ ⟨s', ls'.modify i (· ++ us)⟩ := by
  obtain ⟨j, u, rest, hget, heq⟩ := h
  obtain ⟨rfl, rfl⟩ := System.mk.inj heq
  refine ⟨j, u, if i = j then rest ++ us else rest, ?_, ?_⟩
  · rw [List.getElem?_modify, hget]
    by_cases hij : i = j <;> simp [hij]
  · congr 1
    apply List.ext_getElem?
    intro k
    by_cases hjk : j = k
    · subst hjk
      obtain ⟨hj, -⟩ := List.getElem?_eq_some_iff.mp hget
      by_cases hij : i = j <;> simp [hij, hj]
    · rw [List.getElem?_set_ne hjk, List.getElem?_modify, List.getElem?_modify,
        List.getElem?_set_ne hjk]

theorem Runs.extend {sys sys' : System S U} (i : ℕ) (us : List U) (h : Runs perform sys sys') :
    Runs perform ⟨sys.shared, sys.programs.modify i (· ++ us)⟩
      ⟨sys'.shared, sys'.programs.modify i (· ++ us)⟩ := by
  induction h with
  | refl => exact .refl
  | tail _ hlast ih => exact ih.tail (Step.extend i us hlast)

theorem Step.addThread {s s' : S} {ls ls' : List (List U)} (l : List U)
    (h : Step perform ⟨s, ls⟩ ⟨s', ls'⟩) : Step perform ⟨s, ls ++ [l]⟩ ⟨s', ls' ++ [l]⟩ := by
  obtain ⟨j, u, rest, hget, heq⟩ := h
  obtain ⟨rfl, rfl⟩ := System.mk.inj heq
  obtain ⟨hj, -⟩ := List.getElem?_eq_some_iff.mp hget
  refine ⟨j, u, rest, ?_, ?_⟩
  · rw [List.getElem?_append_left hj, hget]
  · rw [List.set_append_left _ _ hj]

/-- Another thread takes no step away from the others. -/
theorem Runs.addThread {sys sys' : System S U} (l : List U) (h : Runs perform sys sys') :
    Runs perform ⟨sys.shared, sys.programs ++ [l]⟩ ⟨sys'.shared, sys'.programs ++ [l]⟩ := by
  induction h with
  | refl => exact .refl
  | tail _ hlast ih => exact ih.tail (Step.addThread l hlast)

theorem Runs.programs_length {sys sys' : System S U} (h : Runs perform sys sys') :
    sys'.programs.length = sys.programs.length := by
  induction h with
  | refl => rfl
  | tail _ hlast ih =>
      obtain ⟨i, u, rest, -, rfl⟩ := hlast
      rw [← ih, List.length_set]

end Growing

section Performed

variable {U : Type*}

/-- Each program is divided into what is done and what is left. -/
structure Divided (programs done left : List (List U)) : Prop where
  length_eq : done.length = left.length
  whole : List.zipWith (· ++ ·) done left = programs

theorem Divided.start (programs : List (List U)) :
    Divided programs (programs.map fun _ => []) programs where
  length_eq := List.length_map _
  whole := by
    induction programs with
    | nil => rfl
    | cons l programs ih => rw [List.map_cons, List.zipWith_cons_cons, ih, List.nil_append]

/-- An update moves from what is left to what is done. -/
theorem Divided.step {programs done left : List (List U)} (h : Divided programs done left)
    {i : ℕ} {u : U} {rest : List U} (hget : left[i]? = some (u :: rest)) :
    Divided programs (done.modify i (· ++ [u])) (left.set i rest) := by
  obtain ⟨hlength, rfl⟩ := h
  constructor
  · simpa using hlength
  · induction done generalizing left i with
    | nil =>
        obtain rfl : left = [] := List.length_eq_zero_iff.mp hlength.symm
        simp
    | cons d done ih =>
        cases left with
        | nil => cases hlength
        | cons l left =>
            cases i with
            | zero =>
                obtain rfl : l = u :: rest := by simpa using hget
                simp
            | succ i =>
                have htail : left[i]? = some (u :: rest) := hget
                have hrest := ih htail (by simpa using hlength)
                simpa using hrest

/-- When nothing is left, everything is done. -/
theorem Divided.done_eq {programs done left : List (List U)} (h : Divided programs done left)
    (hleft : ∀ l ∈ left, l = []) : done = programs := by
  obtain ⟨hlength, rfl⟩ := h
  induction done generalizing left with
  | nil => rfl
  | cons d done ih =>
      cases left with
      | nil => cases hlength
      | cons l left =>
          obtain ⟨rfl, htail⟩ := List.forall_mem_cons.mp hleft
          have hrest := ih htail (by simpa using hlength)
          rw [List.zipWith_cons_cons, ← hrest, List.append_nil]

/-- What is done of a program is a beginning of it. -/
theorem Divided.beginning {programs done left : List (List U)} (h : Divided programs done left) :
    ∀ d ∈ done, ∃ l ∈ programs, d <+: l := by
  obtain ⟨hlength, rfl⟩ := h
  induction done generalizing left with
  | nil => simp
  | cons d done ih =>
      cases left with
      | nil => cases hlength
      | cons l left =>
          rw [List.zipWith_cons_cons, List.forall_mem_cons]
          constructor
          · exact ⟨d ++ l, List.mem_cons_self, List.prefix_append d l⟩
          · intro e he
            obtain ⟨l', hl', hbegins⟩ := ih (Nat.succ.inj hlength) e he
            exact ⟨l', List.mem_cons_of_mem _ hl', hbegins⟩

theorem flatten_modify_perm {done : List (List U)} {i : ℕ} (hi : i < done.length) (u : U) :
    (done.modify i (· ++ [u])).flatten.Perm (u :: done.flatten) := by
  induction done generalizing i with
  | nil => simp at hi
  | cons d done ih =>
      cases i with
      | zero =>
          rw [List.modify_zero_cons, List.flatten_cons, List.append_assoc, List.singleton_append]
          exact List.perm_middle
      | succ i =>
          have hrest := ih (Nat.lt_of_succ_lt_succ hi)
          rw [List.modify_succ_cons, List.flatten_cons, List.flatten_cons]
          exact (hrest.append_left d).trans List.perm_middle

variable {M : Type*} [AddCommMonoid M] (w : U → M)

/-- The amount added by all the updates of a list. -/
def amount (us : List U) : M := (us.map w).sum

@[simp] theorem amount_nil : amount w [] = 0 := rfl

@[simp] theorem amount_cons (u : U) (us : List U) : amount w (u :: us) = w u + amount w us := by
  simp [amount]

@[simp] theorem amount_append (us vs : List U) :
    amount w (us ++ vs) = amount w us + amount w vs := by
  simp [amount]

theorem amount_perm {us vs : List U} (h : us.Perm vs) : amount w us = amount w vs :=
  (h.map w).sum_eq

theorem amount_add {v v' : U → M} (h : ∀ u, w u = v u + v' u) (us : List U) :
    amount w us = amount v us + amount v' us := by
  obtain rfl : w = fun u => v u + v' u := funext h
  exact List.sum_map_add

theorem amount_flatMap {A : Type*} (program : A → List U) (as : List A) :
    amount w (as.flatMap program) = (as.map fun a => amount w (program a)).sum := by
  induction as with
  | nil => rfl
  | cons a as ih => rw [List.flatMap_cons, amount_append, ih, List.map_cons, List.sum_cons]

theorem amount_le_length {v : U → ℕ} (h : ∀ u, v u ≤ 1) (us : List U) :
    amount v us ≤ us.length := by
  induction us with
  | nil => exact Nat.le_refl _
  | cons u us ih =>
      have hu := h u
      rw [amount_cons, List.length_cons]
      omega

/-- The amount of the programs is divided like them. -/
theorem Divided.amount_eq {programs done left : List (List U)} (h : Divided programs done left) :
    amount w programs.flatten = amount w done.flatten + amount w left.flatten := by
  obtain ⟨hlength, rfl⟩ := h
  induction done generalizing left with
  | nil =>
      obtain rfl : left = [] := List.length_eq_zero_iff.mp hlength.symm
      simp
  | cons d done ih =>
      cases left with
      | nil => cases hlength
      | cons l left =>
          rw [List.zipWith_cons_cons, List.flatten_cons, List.flatten_cons, List.flatten_cons,
            amount_append, amount_append, amount_append, amount_append, ih (Nat.succ.inj hlength)]
          exact add_add_add_comm _ _ _ _

/-- The updates of all threads, one thread behind the other. -/
theorem flatten_programs {A : Type*} (program : A → List U) (threads : List (List A)) :
    (threads.map (·.flatMap program)).flatten = threads.flatten.flatMap program := by
  rw [← List.flatMap_def, ← List.flatMap_id, List.flatMap_assoc]
  rfl

/-- The updates of a part of the shared state, when each call makes some of them. -/
theorem filterMap_programs {A U' : Type*} {program : A → List U} {g : U → Option U'}
    {part : A → List U'} (h : ∀ a, (program a).filterMap g = part a) (threads : List (List A)) :
    (threads.map (·.flatMap program)).map (List.filterMap g) = threads.map (·.flatMap part) := by
  rw [List.map_map]
  refine List.map_congr_left fun calls _ => ?_
  rw [Function.comp_apply, List.filterMap_flatMap]
  simp only [h]

end Performed

section Log

variable {S U : Type*} {perform : U → S → S}

/-- A run performs the updates one behind the other, those of each thread in their order. -/
theorem Runs.performed {s : S} {programs : List (List U)} {sys : System S U}
    (h : Runs perform ⟨s, programs⟩ sys) : ∃ done log, Divided programs done sys.programs ∧
      log.Perm done.flatten ∧ (∀ d ∈ done, d.Sublist log) ∧
      sys.shared = log.foldl (fun s u => perform u s) s := by
  induction h with
  | refl =>
      refine ⟨_, [], Divided.start programs, by simp, ?_, rfl⟩
      intro d hd
      obtain ⟨l, -, rfl⟩ := List.mem_map.mp hd
      exact List.Sublist.refl []
  | @tail sys sys' _ hlast ih =>
      obtain ⟨done, log, hdivided, hperm, hsublist, hshared⟩ := ih
      obtain ⟨i, u, rest, hget, rfl⟩ := hlast
      obtain ⟨hi, -⟩ := List.getElem?_eq_some_iff.mp hget
      have hmoved := flatten_modify_perm (hdivided.length_eq.symm ▸ hi) u
      refine ⟨_, log ++ [u], hdivided.step hget, ?_, ?_, ?_⟩
      · exact (List.perm_append_singleton u log).trans ((hperm.cons u).trans hmoved.symm)
      · intro d hd
        obtain ⟨j, hj⟩ := List.mem_iff_getElem?.mp hd
        rw [List.getElem?_modify] at hj
        obtain ⟨d', hd', rfl⟩ := Option.map_eq_some_iff.mp hj
        have hbefore := hsublist d' (List.mem_of_getElem? hd')
        split
        · exact hbefore.append_right [u]
        · exact hbefore.trans (List.sublist_append_left log [u])
      · rw [List.foldl_append, ← hshared]
        rfl

/-- Where nothing is left to be performed, nothing happens. -/
theorem Runs.eq_of_finished {sys sys' : System S U} (h : Runs perform sys sys')
    (hfinished : sys.Finished) : sys' = sys := by
  rcases ReflTransGen.cases_head h with heq | ⟨sys₁, ⟨i, u, rest, hget, -⟩, -⟩
  · exact heq.symm
  · exact absurd (hfinished _ (List.mem_of_getElem? hget)) (List.cons_ne_nil u rest)

/-- A part of the shared state that the updates change on their own runs by itself. -/
theorem Runs.project {S' U' : Type*} (perform' : U' → S' → S') (f : S → S') (g : U → Option U')
    (hproject : ∀ s u, f (perform u s) = (g u).elim (f s) fun u' => perform' u' (f s))
    {sys sys' : System S U} (h : Runs perform sys sys') :
    Runs perform' ⟨f sys.shared, sys.programs.map (List.filterMap g)⟩
      ⟨f sys'.shared, sys'.programs.map (List.filterMap g)⟩ := by
  induction h with
  | refl => exact .refl
  | tail _ hlast ih =>
      obtain ⟨i, u, rest, hget, rfl⟩ := hlast
      dsimp only
      rw [List.map_set, hproject]
      have hget' := congrArg (Option.map (List.filterMap g)) hget
      rw [← List.getElem?_map, Option.map_some, List.filterMap_cons] at hget'
      cases hu : g u with
      | none =>
          -- the part is left alone
          rw [hu] at hget'
          obtain ⟨hi, hself⟩ := List.getElem?_eq_some_iff.mp hget'
          have hsame := List.set_getElem_self hi
          rw [hself] at hsame
          rwa [hsame]
      | some u' =>
          rw [hu] at hget'
          exact ih.tail ⟨i, u', _, hget', rfl⟩

end Log

section Measures

variable {S U : Type*} (perform : U → S → S) (Ok : S → List U → Prop)

/-- No update takes away what a program relies on. -/
structure Stable : Prop where
  next : ∀ s u l, Ok s (u :: l) → Ok (perform u s) l
  others : ∀ s u l, Ok s l → Ok (perform u s) l

/-- Every update of a program adds its amount to the measure. -/
def Measures {M : Type*} [AddCommMonoid M] (f : S → M) (w : U → M) : Prop :=
  ∀ s u l, Ok s (u :: l) → f (perform u s) = f s + w u

/-- A fact that holds from the first update of a kind on. -/
def Marks (P : S → Prop) (marks : U → Prop) : Prop :=
  ∀ s u, P (perform u s) ↔ P s ∨ marks u

variable {perform Ok}

/-- A step keeps the programs in order and moves one update to what is done. -/
theorem Step.ok {sys sys' : System S U} (hstable : Stable perform Ok)
    (h : Step perform sys sys') (hok : ∀ l ∈ sys.programs, Ok sys.shared l) :
    ∀ l ∈ sys'.programs, Ok sys'.shared l := by
  obtain ⟨i, u, rest, hget, rfl⟩ := h
  intro l hl
  rcases List.mem_or_eq_of_mem_set hl with hmem | rfl
  · exact hstable.others _ _ _ (hok l hmem)
  · exact hstable.next _ _ _ (hok _ (List.mem_of_getElem? hget))

/-- What the updates done in a run have made of the shared state. -/
structure Done (perform : U → S → S) (Ok : S → List U → Prop) (s s' : S) (us : List U) :
    Prop where
  measure : ∀ {M : Type} [AddCommMonoid M] (f : S → M) (w : U → M),
    Measures perform Ok f w → f s' = f s + amount w us
  mark : ∀ (P : S → Prop) (marks : U → Prop),
    Marks perform P marks → (P s' ↔ P s ∨ ∃ u ∈ us, marks u)

theorem Done.nil (s : S) : Done perform Ok s s [] where
  measure f w _ := by rw [amount_nil, add_zero]
  mark P marks _ := by simp

theorem Done.next {s s' : S} {us vs l : List U} {u : U} (h : Done perform Ok s s' us)
    (hok : Ok s' (u :: l)) (hvs : vs.Perm (u :: us)) : Done perform Ok s (perform u s') vs where
  measure f w hf := by
    rw [hf s' u l hok, h.measure f w hf, amount_perm w hvs, amount_cons, add_assoc,
      add_comm (w u)]
  mark P marks hP := by
    rw [hP s' u, h.mark P marks hP, or_assoc]
    apply or_congr_right
    constructor
    · rintro (⟨v, hv, hmarks⟩ | hmarks)
      · exact ⟨v, hvs.mem_iff.mpr (List.mem_cons_of_mem u hv), hmarks⟩
      · exact ⟨u, hvs.mem_iff.mpr List.mem_cons_self, hmarks⟩
    · rintro ⟨v, hv, hmarks⟩
      rcases List.mem_cons.mp (hvs.mem_iff.mp hv) with rfl | hv
      · exact Or.inr hmarks
      · exact Or.inl ⟨v, hv, hmarks⟩

/-- After a run the shared state is determined by what is done of each program. -/
theorem Runs.done {s : S} {programs : List (List U)} {sys : System S U}
    (hstable : Stable perform Ok) (hok : ∀ l ∈ programs, Ok s l)
    (h : Runs perform ⟨s, programs⟩ sys) :
    ∃ done, Divided programs done sys.programs ∧
      Done perform Ok s sys.shared done.flatten := by
  suffices hrun : (∀ l ∈ sys.programs, Ok sys.shared l) ∧
      ∃ done, Divided programs done sys.programs ∧
        Done perform Ok s sys.shared done.flatten from hrun.2
  induction h with
  | refl =>
      have hnothing : (programs.map fun _ => ([] : List U)).flatten = [] := by simp
      refine ⟨hok, _, Divided.start programs, ?_⟩
      rw [hnothing]
      exact Done.nil s
  | @tail sys sys' _ hlast ih =>
      obtain ⟨hok, done, hdivided, hdone⟩ := ih
      refine ⟨hlast.ok hstable hok, ?_⟩
      obtain ⟨i, u, rest, hget, rfl⟩ := hlast
      obtain ⟨hi, -⟩ := List.getElem?_eq_some_iff.mp hget
      have hmoved := flatten_modify_perm (hdivided.length_eq.symm ▸ hi) u
      exact ⟨_, hdivided.step hget, hdone.next (hok _ (List.mem_of_getElem? hget)) hmoved⟩

/-- When all programs have been performed, the order has made no difference. -/
theorem Runs.done_of_finished {s : S} {programs : List (List U)} {sys : System S U}
    (hstable : Stable perform Ok) (hok : ∀ l ∈ programs, Ok s l)
    (h : Runs perform ⟨s, programs⟩ sys) (hfinished : sys.Finished) :
    Done perform Ok s sys.shared programs.flatten := by
  obtain ⟨done, hdivided, hdone⟩ := h.done hstable hok
  rwa [hdivided.done_eq hfinished] at hdone

end Measures

section Covered

variable {U : Type*} (v w : U → ℕ)

/-- With `n` in hand, what an update takes in `v` has been added in `w` before. -/
def Covered : (n : ℕ) → List U → Prop
  | _, [] => True
  | n, u :: us => v u ≤ n + w u ∧ Covered (n + w u - v u) us

variable {v w}

theorem Covered.mono {n m : ℕ} {us : List U} (h : Covered v w n us) (hle : n ≤ m) :
    Covered v w m us := by
  induction us generalizing n m with
  | nil => trivial
  | cons u us ih =>
      obtain ⟨hu, hus⟩ := h
      constructor
      · omega
      · apply ih hus
        omega

theorem Covered.append {n : ℕ} {us vs : List U} (h : Covered v w n us) (h' : Covered v w 0 vs) :
    Covered v w n (us ++ vs) := by
  induction us generalizing n with
  | nil => exact h'.mono (Nat.zero_le n)
  | cons u us ih => exact ⟨h.1, ih h.2⟩

theorem covered_flatMap {A : Type*} {program : A → List U} {as : List A}
    (h : ∀ a ∈ as, Covered v w 0 (program a)) : Covered v w 0 (as.flatMap program) := by
  induction as with
  | nil => trivial
  | cons a as ih =>
      obtain ⟨ha, has⟩ := List.forall_mem_cons.mp h
      rw [List.flatMap_cons]
      exact ha.append (ih has)

/-- What has been taken by a beginning of the list has been added by it. -/
theorem Covered.amount_le {n : ℕ} {us d : List U} (h : Covered v w n us) (hd : d <+: us) :
    amount v d ≤ n + amount w d := by
  induction us generalizing n d with
  | nil =>
      obtain rfl := List.prefix_nil.mp hd
      simp
  | cons u us ih =>
      cases d with
      | nil => simp
      | cons u' d =>
          obtain ⟨rfl, htail⟩ := List.cons_prefix_cons.mp hd
          have hrest := ih h.2 htail
          have hu := h.1
          simp only [amount_cons]
          omega

/-- After a run the measure in `v` is at most the measure in `w`. -/
theorem Divided.amount_le {programs done left : List (List U)} (h : Divided programs done left)
    (hcovered : ∀ l ∈ programs, Covered v w 0 l) :
    amount v done.flatten ≤ amount w done.flatten := by
  have hdone : ∀ d ∈ done, amount v d ≤ amount w d := by
    intro d hd
    obtain ⟨l, hl, hbegins⟩ := h.beginning d hd
    simpa using (hcovered l hl).amount_le hbegins
  clear h
  induction done with
  | nil => exact Nat.le_refl _
  | cons d done ih =>
      obtain ⟨hd, hdone⟩ := List.forall_mem_cons.mp hdone
      rw [List.flatten_cons, amount_append, amount_append]
      exact Nat.add_le_add hd (ih hdone)

end Covered

end QueryPlayback.Updates
