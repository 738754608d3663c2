import QueryPlayback.Dispatch.ThreadPerConnection
import Mathlib.Data.Finset.Card

/-!
# The table and the workers of thread-per-connection dispatch

What the single operations of the dispatcher keep. Each worker has been given
exactly the delivered entries of its connection, and a worker that has
returned has no entry still to come, because the flag it stopped at is on the
last entry of its connection.
-/

namespace QueryPlayback.ThreadPerConnection

open QueryEntry QueryEntries Interleaving Relation

section Table

/-- The ids whose pointer is not null. -/
def running (executors : Executors) : Finset UInt64 :=
  executors.keys.toFinset.filter fun id => (pointer executors id).isSome

variable {executors : Executors} {id id' : UInt64}

theorem mem_keys_of_pointer {i : Nat} (h : pointer executors id = some i) :
    id ∈ executors.keys := by
  rw [pointer, Option.join_eq_some_iff] at h
  rw [← AList.mem_keys, ← AList.lookup_isSome, h]
  rfl

theorem mem_running : id ∈ running executors ↔ ∃ i, pointer executors id = some i := by
  rw [running, Finset.mem_filter, List.mem_toFinset, Option.isSome_iff_exists]
  exact ⟨fun h => h.2, fun ⟨i, hi⟩ => ⟨mem_keys_of_pointer hi, i, hi⟩⟩

@[simp] theorem pointer_insert_self (slot : Option Nat) :
    pointer (executors.insert id slot) id = slot := by
  rw [pointer, AList.lookup_insert]
  rfl

theorem pointer_insert_of_ne (h : id' ≠ id) (slot : Option Nat) :
    pointer (executors.insert id slot) id' = pointer executors id' := by
  rw [pointer, AList.lookup_insert_ne h, pointer]

@[simp] theorem pointer_erase_self : pointer (executors.erase id) id = none := by
  rw [pointer, AList.lookup_erase]
  rfl

theorem pointer_erase_of_ne (h : id' ≠ id) :
    pointer (executors.erase id) id' = pointer executors id' := by
  rw [pointer, AList.lookup_erase_ne h, pointer]

/-- A null pointer for an id without a worker adds nothing. -/
theorem pointer_insert_none (h : pointer executors id = none) (id' : UInt64) :
    pointer (executors.insert id none) id' = pointer executors id' := by
  by_cases hid : id' = id
  · rw [hid, pointer_insert_self, h]
  · exact pointer_insert_of_ne hid none

theorem running_insert_none (h : pointer executors id = none) :
    running (executors.insert id none) = running executors := by
  ext id'
  rw [mem_running, mem_running, pointer_insert_none h]

theorem running_insert_some (i : Nat) :
    running (executors.insert id (some i)) = insert id (running executors) := by
  ext id'
  rw [Finset.mem_insert, mem_running, mem_running]
  by_cases hid : id' = id
  · simp [hid]
  · simp [hid, pointer_insert_of_ne hid]

theorem running_erase : running (executors.erase id) = (running executors).erase id := by
  ext id'
  rw [Finset.mem_erase, mem_running, mem_running]
  by_cases hid : id' = id
  · simp [hid]
  · simp [hid, pointer_erase_of_ne hid]

end Table

variable {ε : Type}

/-- What holds of the table and the workers. -/
structure TableOk (executors : Executors) (numRunning : Int) (workers : List (Worker ε)) :
    Prop where
  slot : ∀ id i, pointer executors id = some i → ∃ w, workers[i]? = some w ∧ w.threadId = id
  kept : ∀ i w, workers[i]? = some w → pointer executors w.threadId = some i ∨ w.pc = .returned
  numRunning_eq : numRunning = (running executors).card
  numRunning_le : numRunning ≤ 10001

namespace TableOk

variable {executors : Executors} {numRunning : Int} {workers : List (Worker ε)}

theorem of_componentStep [QueryEntry ε] (h : TableOk executors numRunning workers)
    {workers' : List (Worker ε)} (hstep : ComponentStep Worker.Step workers workers') :
    TableOk executors numRunning workers' where
  slot := by
    intro id i hptr
    obtain ⟨w, hget, hid⟩ := h.slot id i hptr
    obtain ⟨w', hget', rfl | hww⟩ := hstep.getElem?_old hget
    · exact ⟨w, hget', hid⟩
    · exact ⟨w', hget', hww.threadId_eq.trans hid⟩
  kept := by
    intro i w' hget'
    obtain ⟨w, hget, rfl | hww⟩ := hstep.getElem? hget'
    · exact h.kept i w hget
    · rw [hww.threadId_eq]
      exact Or.inl ((h.kept i w hget).resolve_right hww.pc_ne_returned)
  numRunning_eq := h.numRunning_eq
  numRunning_le := h.numRunning_le

/-- Replacing a worker by one with the same id that has returned if it had. -/
theorem set (h : TableOk executors numRunning workers) {i : Nat} {w w' : Worker ε}
    (hget : workers[i]? = some w) (hid : w'.threadId = w.threadId) (hpc : w'.pc = w.pc) :
    TableOk executors numRunning (workers.set i w') where
  slot := by
    intro id j hptr
    obtain ⟨v, hj, hv⟩ := h.slot id j hptr
    by_cases hij : i = j
    · subst hij
      obtain rfl : w = v := by
        rw [hget] at hj
        exact Option.some.inj hj
      exact ⟨w', List.getElem?_set_self (List.getElem?_eq_some_iff.mp hget).1, hid.trans hv⟩
    · exact ⟨v, by rwa [List.getElem?_set_ne hij], hv⟩
  kept := by
    intro j v hj
    by_cases hij : i = j
    · subst hij
      rw [List.getElem?_set_self (List.getElem?_eq_some_iff.mp hget).1, Option.some.injEq] at hj
      subst hj
      rw [hid, hpc]
      exact h.kept i w hget
    · rw [List.getElem?_set_ne hij] at hj
      exact h.kept j v hj
  numRunning_eq := h.numRunning_eq
  numRunning_le := h.numRunning_le

theorem insert_none (h : TableOk executors numRunning workers) {id : UInt64}
    (hnull : pointer executors id = none) :
    TableOk (executors.insert id none) numRunning workers where
  slot := by
    intro id' i hptr
    exact h.slot id' i (pointer_insert_none hnull id' ▸ hptr)
  kept := by
    intro i w hget
    rw [pointer_insert_none hnull]
    exact h.kept i w hget
  numRunning_eq := by
    rw [running_insert_none hnull]
    exact h.numRunning_eq
  numRunning_le := h.numRunning_le

theorem start (h : TableOk executors numRunning workers) {id : UInt64}
    (hnull : pointer executors id = none) (hnew : ∀ w ∈ workers, w.threadId ≠ id)
    (hle : numRunning ≤ maxRunning) :
    TableOk (executors.insert id (some workers.length)) (numRunning + 1)
      (workers ++ [Worker.start id]) where
  slot := by
    intro id' i hptr
    by_cases hid : id' = id
    · subst hid
      rw [pointer_insert_self, Option.some.injEq] at hptr
      subst hptr
      exact ⟨Worker.start id', by simp, rfl⟩
    · rw [pointer_insert_of_ne hid] at hptr
      obtain ⟨w, hget, hw⟩ := h.slot id' i hptr
      have hlt := (List.getElem?_eq_some_iff.mp hget).1
      exact ⟨w, by rwa [List.getElem?_append_left hlt], hw⟩
  kept := by
    intro i w hget
    rcases Nat.lt_or_ge i workers.length with hlt | hge
    · rw [List.getElem?_append_left hlt] at hget
      rw [pointer_insert_of_ne (hnew w (List.mem_of_getElem? hget))]
      exact h.kept i w hget
    · rw [List.getElem?_append_right hge, List.getElem?_singleton] at hget
      split at hget
      · rename_i hzero
        obtain rfl : Worker.start id = w := Option.some.inj hget
        left
        rw [show i = workers.length by omega]
        exact pointer_insert_self _
      · exact absurd hget (by simp)
  numRunning_eq := by
    have hnot : id ∉ running executors := by
      rw [mem_running, hnull]
      simp
    rw [running_insert_some, Finset.card_insert_of_notMem hnot, h.numRunning_eq]
    push_cast
    rfl
  numRunning_le := by
    rw [maxRunning] at hle
    omega

/-- Erasing a worker that has returned. -/
theorem erase (h : TableOk executors numRunning workers) {id : UInt64} {i : Nat} {w : Worker ε}
    (hptr : pointer executors id = some i) (hget : workers[i]? = some w)
    (hret : w.pc = .returned) : TableOk (executors.erase id) (numRunning - 1) workers where
  slot := by
    intro id' j hptr'
    by_cases hid : id' = id
    · subst hid
      simp at hptr'
    · rw [pointer_erase_of_ne hid] at hptr'
      exact h.slot id' j hptr'
  kept := by
    intro j v hj
    by_cases hid : v.threadId = id
    · rcases h.kept j v hj with hptr' | hret'
      · rw [hid, hptr, Option.some.injEq] at hptr'
        subst hptr'
        obtain rfl : w = v := by
          rw [hget] at hj
          exact Option.some.inj hj
        exact Or.inr hret
      · exact Or.inr hret'
    · rw [pointer_erase_of_ne hid]
      exact h.kept j v hj
  numRunning_eq := by
    have hmem : id ∈ running executors := mem_running.mpr ⟨i, hptr⟩
    have hpos := Finset.card_pos.mpr ⟨id, hmem⟩
    rw [running_erase, Finset.card_erase_of_mem hmem, h.numRunning_eq]
    omega
  numRunning_le := by
    have := h.numRunning_le
    omega

end TableOk

variable [QueryEntry ε]

/-- What holds of the workers and the delivered entries. -/
structure WorkersOk (delivered : List ε) (workers : List (Worker ε)) : Prop where
  stream : ∀ w ∈ workers, w.stream = ofThread w.threadId delivered
  ok : ∀ w ∈ workers, w.Ok
  distinct : (workers.map Worker.threadId).Nodup
  owned : ∀ e ∈ delivered, ∃ w ∈ workers, w.threadId = getThreadId e
  joined : ∀ w ∈ workers, w.destroyed = true → w.pc = .returned

namespace WorkersOk

variable {delivered : List ε} {workers : List (Worker ε)}

/-- A connection has at most one worker. -/
theorem index_eq (h : WorkersOk delivered workers) {i j : Nat} {w w' : Worker ε}
    (hi : workers[i]? = some w) (hj : workers[j]? = some w') (hid : w.threadId = w'.threadId) :
    i = j := by
  have hlt : i < (workers.map Worker.threadId).length := by
    simpa using (List.getElem?_eq_some_iff.mp hi).1
  refine (List.getElem?_inj hlt h.distinct).mp ?_
  rw [List.getElem?_map, List.getElem?_map, hi, hj, Option.map_some, Option.map_some, hid]

/-- The flag a worker stopped at has nothing behind it. -/
theorem returned_spec (h : WorkersOk delivered workers) {pending : List ε}
    (hmarked : LastMarked (delivered ++ pending)) {w : Worker ε} (hw : w ∈ workers)
    (hret : w.pc = .returned) : w.queue = [] ∧ ofThread w.threadId pending = [] := by
  obtain ⟨init, e, hprocessed, hshutdown, -⟩ : ∃ init e,
      w.processed.map Handled.entry = init ++ [e] ∧ isShutdown e = true ∧
        ∀ x ∈ init, isShutdown x = false := by
    have hok := (h.ok w hw).2
    rwa [hret] at hok
  have hinHand : w.inHand = [] := by simp [Worker.inHand, hret]
  have hsplit : ofThread w.threadId (delivered ++ pending) =
      init ++ e :: (w.queue ++ ofThread w.threadId pending) := by
    rw [ofThread_append, ← h.stream w hw, Worker.stream, hprocessed, hinHand]
    simp
  have hnil := (hmarked.isShutdown_iff_last hsplit).mp hshutdown
  exact List.append_eq_nil_iff.mp hnil

/-- A worker that is given nothing more and has worked off its queue has returned. -/
theorem returned_of_rest (h : WorkersOk delivered workers) {pending : List ε}
    (hmarked : LastMarked (delivered ++ pending)) {w : Worker ε} (hw : w ∈ workers)
    (hrest : w.step = none) (hnone : ofThread w.threadId pending = [])
    (hsome : ofThread w.threadId delivered ≠ []) : w.pc = .returned := by
  rcases Worker.step_eq_none_iff.mp hrest with hret | ⟨hpop, hqueue⟩
  · exact hret
  · have hstream : w.processed.map Handled.entry = ofThread w.threadId delivered := by
      rw [← h.stream w hw]
      simp [Worker.stream, Worker.inHand, hpop, hqueue]
    obtain ⟨init, e, hinit⟩ := (List.eq_nil_or_concat' _).resolve_left hsome
    have hsplit : ofThread w.threadId (delivered ++ pending) = init ++ e :: [] := by
      rw [ofThread_append, hnone, List.append_nil, hinit]
    have hshutdown := (hmarked.isShutdown_iff_last hsplit).mpr rfl
    have hno := (h.ok w hw).2
    rw [hpop] at hno
    have hfalse := hno e (by rw [hstream, hinit]; simp)
    exact absurd hshutdown (by simp [hfalse])

theorem of_componentStep (h : WorkersOk delivered workers) {workers' : List (Worker ε)}
    (hstep : ComponentStep Worker.Step workers workers') : WorkersOk delivered workers' where
  stream := by
    intro w' hw'
    obtain ⟨w, hw, rfl | hww⟩ := hstep.mem hw'
    · exact h.stream w hw
    · rw [hww.stream_eq, hww.threadId_eq, h.stream w hw]
  ok := by
    intro w' hw'
    obtain ⟨w, hw, rfl | hww⟩ := hstep.mem hw'
    · exact h.ok w hw
    · exact hww.ok (h.ok w hw)
  distinct := by
    rw [hstep.map_eq fun _ _ hww => Worker.Step.threadId_eq hww]
    exact h.distinct
  owned := by
    intro e he
    obtain ⟨w, hw, hid⟩ := h.owned e he
    obtain ⟨w', hw', rfl | hww⟩ := hstep.mem_old hw
    · exact ⟨w, hw', hid⟩
    · exact ⟨w', hw', hww.threadId_eq.trans hid⟩
  joined := by
    intro w' hw' hdead
    obtain ⟨w, hw, rfl | hww⟩ := hstep.mem hw'
    · exact h.joined w hw hdead
    · exact absurd (h.joined w hw (hww.destroyed_eq ▸ hdead)) hww.pc_ne_returned

/-- A new worker has been given nothing, so its connection must be a new one. -/
theorem start (h : WorkersOk delivered workers) {id : UInt64}
    (hnew : ∀ w ∈ workers, w.threadId ≠ id) :
    WorkersOk delivered (workers ++ [Worker.start id]) where
  stream := by
    intro w hw
    rcases List.mem_append.mp hw with hw | hw
    · exact h.stream w hw
    · obtain rfl : w = Worker.start id := by simpa using hw
      refine (ofThread_eq_nil_iff.mpr fun hmem => ?_).symm
      obtain ⟨e, he, hid⟩ := List.mem_map.mp hmem
      obtain ⟨w, hw, hid'⟩ := h.owned e he
      exact hnew w hw (hid'.trans hid)
  ok := by
    intro w hw
    rcases List.mem_append.mp hw with hw | hw
    · exact h.ok w hw
    · obtain rfl : w = Worker.start id := by simpa using hw
      exact Worker.start_ok id
  distinct := by
    rw [List.map_append, List.nodup_append]
    refine ⟨h.distinct, by simp, ?_⟩
    intro a ha b hb
    obtain ⟨w, hw, rfl⟩ := List.mem_map.mp ha
    obtain rfl : b = id := by simpa [Worker.start] using hb
    exact hnew w hw
  owned := by
    intro e he
    obtain ⟨w, hw, hid⟩ := h.owned e he
    exact ⟨w, List.mem_append_left _ hw, hid⟩
  joined := by
    intro w hw hdead
    rcases List.mem_append.mp hw with hw | hw
    · exact h.joined w hw hdead
    · obtain rfl : w = Worker.start id := by simpa using hw
      exact absurd hdead (by simp [Worker.start])

/-- Delivering an entry to the worker of its connection. -/
theorem push (h : WorkersOk delivered workers) {i : Nat} {w : Worker ε} {e : ε}
    (hget : workers[i]? = some w) (hid : w.threadId = getThreadId e) :
    WorkersOk (delivered ++ [e]) (workers.set i (w.push e)) := by
  obtain ⟨hi, -⟩ := List.getElem?_eq_some_iff.mp hget
  have hmem := List.mem_of_getElem? hget
  have hother : ∀ j w', workers[j]? = some w' → j ≠ i → getThreadId e ≠ w'.threadId := by
    intro j w' hj hne hsame
    exact hne (h.index_eq hj hget (hsame.symm.trans hid.symm))
  have hcases : ∀ w' ∈ workers.set i (w.push e),
      w' = w.push e ∨ w' ∈ workers ∧ getThreadId e ≠ w'.threadId := by
    intro w' hw'
    obtain ⟨j, hj⟩ := List.mem_iff_getElem?.mp hw'
    rw [List.getElem?_set] at hj
    split at hj
    · exact Or.inl (by simpa [hi] using hj.symm)
    · rename_i hne
      exact Or.inr ⟨List.mem_of_getElem? hj, hother j w' hj (Ne.symm hne)⟩
  refine ⟨?_, ?_, ?_, ?_, ?_⟩
  · intro w' hw'
    rcases hcases w' hw' with rfl | ⟨hw', hne⟩
    · have hthread : (w.push e).threadId = getThreadId e := hid
      rw [Worker.push_stream, h.stream w hmem, ofThread_append, hthread, hid,
        ofThread_singleton_self]
    · rw [ofThread_append, ofThread_singleton_of_ne hne, List.append_nil, h.stream w' hw']
  · intro w' hw'
    rcases hcases w' hw' with rfl | ⟨hw', -⟩
    · exact Worker.push_ok e (h.ok w hmem)
    · exact h.ok w' hw'
  · have hmap : (workers.set i (w.push e)).map Worker.threadId = workers.map Worker.threadId :=
      map_set_eq Worker.threadId hget rfl
    rw [hmap]
    exact h.distinct
  · intro x hx
    have hset : w.push e ∈ workers.set i (w.push e) := List.mem_set hi _
    rcases List.mem_append.mp hx with hx | hx
    · obtain ⟨w', hw', hid'⟩ := h.owned x hx
      obtain ⟨j, hj⟩ := List.mem_iff_getElem?.mp hw'
      by_cases hij : j = i
      · subst hij
        obtain rfl : w = w' := by
          rw [hget] at hj
          exact Option.some.inj hj
        exact ⟨w.push e, hset, hid'⟩
      · refine ⟨w', ?_, hid'⟩
        exact List.mem_of_getElem? (by rwa [List.getElem?_set_ne (Ne.symm hij)])
    · obtain rfl : x = e := by simpa using hx
      exact ⟨w.push x, hset, hid⟩
  · intro w' hw' hdead
    rcases hcases w' hw' with rfl | ⟨hw', -⟩
    · exact h.joined w hmem hdead
    · exact h.joined w' hw' hdead

/-- Deleting a worker that has returned. -/
theorem destroy (h : WorkersOk delivered workers) {i : Nat} {w : Worker ε}
    (hget : workers[i]? = some w) (hret : w.pc = .returned) :
    WorkersOk delivered (workers.set i w.destroy) := by
  have hcases : ∀ w' ∈ workers.set i w.destroy, w' = w.destroy ∨ w' ∈ workers := by
    intro w' hw'
    exact (List.mem_or_eq_of_mem_set hw').symm
  have hmem := List.mem_of_getElem? hget
  have hmap : (workers.set i w.destroy).map Worker.threadId = workers.map Worker.threadId :=
    map_set_eq Worker.threadId hget rfl
  refine ⟨?_, ?_, hmap ▸ h.distinct, ?_, ?_⟩
  · intro w' hw'
    rcases hcases w' hw' with rfl | hw'
    · exact h.stream w hmem
    · exact h.stream w' hw'
  · intro w' hw'
    rcases hcases w' hw' with rfl | hw'
    · exact Worker.destroy_ok (h.ok w hmem)
    · exact h.ok w' hw'
  · intro e he
    have hid : getThreadId e ∈ (workers.set i w.destroy).map Worker.threadId := by
      rw [hmap]
      obtain ⟨w', hw', hid⟩ := h.owned e he
      exact List.mem_map.mpr ⟨w', hw', hid⟩
    obtain ⟨w', hw', hid⟩ := List.mem_map.mp hid
    exact ⟨w', hw', hid⟩
  · intro w' hw' hdead
    rcases hcases w' hw' with rfl | hw'
    · exact hret
    · exact h.joined w' hw' hdead

end WorkersOk

end QueryPlayback.ThreadPerConnection
