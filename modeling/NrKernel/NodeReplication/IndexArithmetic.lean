import NrKernel.Lib.CheckedArith
import NrKernel.NodeReplication.BatchResponses
import NrKernel.NodeReplication.GarbageCollection

/-!
# Index arithmetic of the log

The sums and differences of `append`, `advance_head` and `execute` in 64-bit arithmetic, each
with the result it has on unbounded numbers. What an append reserves is room behind the head it
had loaded, however late that head is, because the margin covers the largest batch; and the head
that is stored is behind every replica.
-/

namespace NrKernel.NodeReplication

open Lib

universe u

namespace NrLog

/-! ## The code's arithmetic -/

/-- First index past the entries `append` puts behind a head (`exec/log.rs:798`, `855`). -/
def spaceLimit64 (head : Nat) : Option Nat := do
  let room ← Checked.sub logSize gcFromHead
  Checked.add 64 head room

/-- The space check and the new tail of `append` (`exec/log.rs:798–855`). -/
def appendChecked64 (tail head nops : Nat) : Option Pc := do
  let limit ← spaceLimit64 head
  if tail > limit then return .executeLoadLocal .append
  let newTail ← Checked.add 64 tail nops
  if newTail ≥ maxIdx then return .stuck
  let limit ← spaceLimit64 head
  return .appendReserve tail (decide (newTail > limit))

/-- Slot `append` writes (`exec/log.rs:986–987`). -/
def appendSlot64 (tail idx : Nat) : Option Nat := do
  let logical ← Checked.add 64 tail idx
  return index logical

/-- The write loop of `append` after a slot (`exec/log.rs:931`, `1017`). -/
def appendNext64 (nops tail idx : Nat) (advance : Bool) : Option Pc := do
  let idx ← Checked.add 64 idx 1
  return appendNext nops tail idx advance

/-- The test that ends `advance_head` (`exec/log.rs:1187`). -/
def advanceStored64 (globalTail minLocalVersion : Nat) : Option Pc := do
  let stop ← Checked.add 64 minLocalVersion logSize
  let limit ← Checked.sub stop gcFromHead
  return if globalTail < limit then .executeLoadLocal .combine else .executeLoadLocal .advanceHead

/-- The loop of `execute` after an entry (`exec/log.rs:1380`, `1559`). -/
def executeNext64 (ret : Return) (localVersion globalTail : Nat) : Option Pc := do
  let localVersion ← Checked.add 64 localVersion 1
  return executeNext ret localVersion globalTail

variable {DT : Dispatch.{u}}

/-- The arithmetic of a thread's next access neither overflows nor underflows, and leads where
the model goes. The index of a response in a call of `execute` is at most the number of
responses (`exec/log.rs:1531`). -/
structure Exact64 (c : State DT) (t : Thread DT) : Prop where
  append : ∀ tail, t.pc = .appendLoadHead tail →
    appendChecked64 tail c.head t.operations.length =
      some (appendChecked tail c.head t.operations.length)
  writeEntry : ∀ tail idx advance, t.pc = .appendWriteEntry tail idx advance →
    appendSlot64 tail idx = some (index (tail + idx))
  storeAlive : ∀ tail idx advance, t.pc = .appendStoreAlive tail idx advance →
    appendSlot64 tail idx = some (index (tail + idx)) ∧
      appendNext64 t.operations.length tail idx advance =
        some (appendNext t.operations.length tail (idx + 1) advance)
  advance : ∀ globalTail least, t.pc = .advanceStoreHead globalTail least →
    advanceStored64 globalTail least = some (advanceStored globalTail least)
  execute : ∀ ret version globalTail, t.pc = .executeDispatch ret version globalTail →
    executeNext64 ret version globalTail = some (executeNext ret (version + 1) globalTail) ∧
      Checked.add 64 t.responses.length 1 = some (t.responses.length + 1)

section Results

variable {tail head nops idx globalTail least version : Nat} {advance : Bool} {ret : Return}

private theorem spaceLimit64_eq (h : head < maxIdx) :
    spaceLimit64 head = some (head + (logSize - gcFromHead)) := by
  have hmax : maxIdx + logSize + maxRequests < 2 ^ 64 := by decide
  rw [spaceLimit64, Checked.sub_eq (by decide), Option.bind_eq_bind, Option.bind_some]
  exact Checked.add_eq (by omega)

private theorem appendChecked64_eq (htail : tail < maxIdx) (hhead : head < maxIdx)
    (hnops : nops ≤ maxRequests) :
    appendChecked64 tail head nops = some (appendChecked tail head nops) := by
  have hmax : maxIdx + logSize + maxRequests < 2 ^ 64 := by decide
  have hsum : Checked.add 64 tail nops = some (tail + nops) := Checked.add_eq (by omega)
  rw [appendChecked64, appendChecked, spaceLimit64_eq hhead, hsum]
  generalize head + (logSize - gcFromHead) = limit
  rw [Option.bind_eq_bind, Option.bind_some]
  by_cases hfull : tail > limit
  · rw [if_pos hfull, if_pos hfull]
    rfl
  · rw [if_neg hfull, if_neg hfull, Option.bind_some]
    by_cases hmaxIdx : tail + nops ≥ maxIdx
    · rw [if_pos hmaxIdx, if_pos hmaxIdx]
      rfl
    · rw [if_neg hmaxIdx, if_neg hmaxIdx, Option.bind_some]
      rfl

private theorem appendSlot64_eq (h : tail + idx < maxIdx) :
    appendSlot64 tail idx = some (index (tail + idx)) := by
  have hmax : maxIdx + logSize + maxRequests < 2 ^ 64 := by decide
  rw [appendSlot64, Checked.add_eq (by omega)]
  rfl

private theorem appendNext64_eq (h : idx < maxIdx) :
    appendNext64 nops tail idx advance = some (appendNext nops tail (idx + 1) advance) := by
  have hmax : maxIdx + logSize + maxRequests < 2 ^ 64 := by decide
  have hlog : 0 < logSize := by decide
  rw [appendNext64, Checked.add_eq (by omega)]
  rfl

private theorem advanceStored64_eq (h : least < maxIdx) :
    advanceStored64 globalTail least = some (advanceStored globalTail least) := by
  have hmax : maxIdx + logSize + maxRequests < 2 ^ 64 := by decide
  have hgc : gcFromHead ≤ logSize := by decide
  rw [advanceStored64, Checked.add_eq (by omega), Option.bind_eq_bind, Option.bind_some,
    Checked.sub_eq (by omega)]
  rfl

private theorem executeNext64_eq (h : version < maxIdx) :
    executeNext64 ret version globalTail = some (executeNext ret (version + 1) globalTail) := by
  have hmax : maxIdx + logSize + maxRequests < 2 ^ 64 := by decide
  have hlog : 0 < logSize := by decide
  rw [executeNext64, Checked.add_eq (by omega)]
  rfl

end Results

/-! ## The head an append observed -/

/-- The head every thread loaded last in `append`. While a thread is about to load it the record
follows the head, so it ends at the access of the thread (`exec/log.rs:785–794`). -/
def recordHead (pre : State DT) (_ : Label DT) (_ : State DT) (observed : NodeId → Nat) :
    NodeId → Nat :=
  fun n ↦
    match pre.threads n with
    | some ⟨.appendLoadHead _, _, _, _⟩ => pre.head
    | _ => observed n

variable (DT) in
/-- The log with a record of the heads its appends observe. -/
def headMachine : Machine (State DT × (NodeId → Nat)) (Label DT) :=
  (machine DT).withRecord (fun _ ↦ 0) recordHead

/-- The next access is one between the load of the tail and the reservation. -/
def Pc.Checking : Pc → Prop
  | .appendLoadHead _ => True
  | .appendReserve _ _ => True
  | _ => False

/-- What an append has loaded: a tail the log has reached, and a head with room for the tail. -/
structure Observed (c : State DT) (observed : NodeId → Nat) : Prop where
  tail_le : ∀ n t tail, c.threads n = some t → t.pc = .appendLoadHead tail → tail ≤ c.tail
  room : ∀ n t tail advance, c.threads n = some t → t.pc = .appendReserve tail advance →
    tail ≤ observed n + gcThreshold

section Observed

variable {c c' : State DT} {label : Label DT} {n : NodeId} {t t' : Thread DT}
  {observed : NodeId → Nat}

private theorem Pc.Reserved.not_checking {pc : Pc} (h : pc.Reserved) : ¬ pc.Checking := by
  cases pc <;> first | exact id | exact h.elim

private theorem not_checking_resume (ret : Return) : ¬ ret.resume.Checking := by
  cases ret <;> exact id

private theorem not_checking_executeNext (ret : Return) (version globalTail : Nat) :
    ¬ (executeNext ret version globalTail).Checking := by
  unfold executeNext
  split <;> exact id

private theorem not_checking_executeChecked (ret : Return) (version globalTail : Nat) :
    ¬ (executeChecked ret version globalTail).Checking := by
  unfold executeChecked
  split
  · exact not_checking_resume ret
  · exact not_checking_executeNext ret version globalTail

/-- A thread gets to these accesses by loading the tail, and to the reservation by the space
check with the head it loads. -/
theorem CombinerStep.checking_cases (h : CombinerStep n t c label c')
    (ht' : c'.threads n = some t') :
    ¬ t'.pc.Checking ∨ t'.pc = .appendLoadHead c.tail ∨
      ∃ tail, t.pc = .appendLoadHead tail ∧
        t'.pc = appendChecked tail c.head t.operations.length := by
  cases h with
  | appendLoadTail hpc =>
    obtain rfl := State.eq_of_setThread ht'
    exact .inr (.inl rfl)
  | appendLoadHead tail hpc =>
    obtain rfl := State.eq_of_setThread ht'
    exact .inr (.inr ⟨tail, hpc, rfl⟩)
  | reserve tail advance =>
    obtain rfl := State.eq_of_setThread ht'
    exact .inl reserved_appendNext.not_checking
  | storeAlive tail idx advance =>
    obtain rfl := State.eq_of_setThread ht'
    exact .inl reserved_appendNext.not_checking
  | advanceLoadFirst =>
    obtain rfl := State.eq_of_setThread ht'
    exact .inl reserved_advanceNext.not_checking
  | advanceLoadNext =>
    obtain rfl := State.eq_of_setThread ht'
    exact .inl reserved_advanceNext.not_checking
  | storeHead =>
    obtain rfl := State.eq_of_setThread ht'
    exact .inl reserved_advanceStored.not_checking
  | executeLoadTail =>
    obtain rfl := State.eq_of_setThread ht'
    exact .inl (not_checking_executeChecked _ _ _)
  | executeLoadAlive =>
    obtain rfl := State.eq_of_setThread ht'
    refine .inl ?_
    dsimp only
    split <;> exact id
  | dispatch =>
    obtain rfl := State.eq_of_setThread ht'
    exact .inl (not_checking_executeNext _ _ _)
  | storeLocal =>
    obtain rfl := State.eq_of_setThread ht'
    exact .inl (not_checking_resume _)
  | _ =>
    obtain rfl := State.eq_of_setThread ht'
    exact .inl id

private theorem le_of_appendChecked {tail head nops tail' : Nat} {advance : Bool}
    (h : appendChecked tail head nops = .appendReserve tail' advance) :
    tail' ≤ head + gcThreshold := by
  unfold appendChecked at h
  split at h
  · cases h
  · next hroom =>
    split at h
    · cases h
    · cases h
      exact Nat.le_of_not_lt hroom

private theorem Observed.next (h : Observed c observed) (hstep : Next c label c') :
    Observed c' (recordHead c label c' observed) where
  tail_le := by
    intro m t' tail ht' hpc
    have hgrows : c.tail ≤ c'.tail := by
      rcases hstep.tail_eq with ⟨_, hsame⟩ | ⟨p, _, _, hgrown⟩ <;> omega
    rcases hstep.thread_origin ht' with hold | ⟨t, ht, haccess⟩ | ⟨hcollected, _⟩ | ⟨_, hquiet⟩
    · exact (h.tail_le m t' tail hold hpc).trans hgrows
    · rcases haccess.checking_cases ht' with hnot | hload | ⟨tail', _, hchecked⟩
      · rw [hpc] at hnot
        exact absurd trivial hnot
      · cases hpc.symm.trans hload
        exact hgrows
      · rw [hpc, appendChecked] at hchecked
        split at hchecked
        · cases hchecked
        · split at hchecked <;> cases hchecked
    · cases hpc.symm.trans hcollected
    · rw [hpc] at hquiet
      exact absurd trivial hquiet
  room := by
    intro m t' tail advance ht' hpc
    rcases hstep.thread_origin ht' with hold | ⟨t, ht, haccess⟩ | ⟨hcollected, _⟩ | ⟨_, hquiet⟩
    · have hroom := h.room m t' tail advance hold hpc
      obtain ⟨pc, requestIds, operations, responses⟩ := t'
      obtain rfl : pc = _ := hpc
      rw [recordHead, hold]
      exact hroom
    · rcases haccess.checking_cases ht' with hnot | hload | ⟨tail', hload, hchecked⟩
      · rw [hpc] at hnot
        exact absurd trivial hnot
      · cases hpc.symm.trans hload
      · obtain ⟨pc, requestIds, operations, responses⟩ := t
        obtain rfl : pc = _ := hload
        rw [recordHead, ht]
        exact le_of_appendChecked (hchecked.symm.trans hpc)
    · cases hpc.symm.trans hcollected
    · rw [hpc] at hquiet
      exact absurd trivial hquiet

private theorem observed_of_reachable (h : (headMachine DT).Reachable (c, observed)) :
    Observed c observed := by
  refine Machine.Reachable.record_invariant ?_ (fun c label c' observed _ h hstep ↦
    h.next hstep) h
  rintro _ ⟨numReplicas, _, rfl⟩
  have hidle : ∀ n t, (initialState DT numReplicas).threads n = some t → t = .idle DT := by
    intro n t ht
    simp only [initialState] at ht
    split at ht
    · exact (Option.some.inj ht).symm
    · cases ht
  refine ⟨fun n t tail ht hpc ↦ ?_, fun n t tail advance ht hpc ↦ ?_⟩
  · rw [hidle n t ht] at hpc
    cases hpc
  · rw [hidle n t ht] at hpc
    cases hpc

end Observed

/-! ## Bounds -/

section Bounds

variable {c c' : State DT} {label : Label DT} {n : NodeId} {t : Thread DT}
  {observed : NodeId → Nat}

-- No thread has more responses than operations before it is done with a call of `execute`.
private theorem responses_length_le (hreach : (machine DT).Reachable c) (ht : c.threads n = some t)
    {ret : Return} {version globalTail : Nat}
    (hpc : t.pc = .executeDispatch ret version globalTail) :
    t.responses.length ≤ maxRequests := by
  obtain ⟨c₀, labels, hinit, hrun⟩ := hreach
  obtain ⟨u, ⟨hu, b, hb, hc⟩, _, hserved⟩ := served_of_run hinit hrun
  have hui := UnboundedLog.inv_of_reachable hu
  obtain ⟨phase, buffer, hphase, _, hcoupled⟩ :=
    hc.exists_phases hui (CyclicBuffer.inv_of_reachable hb) ht
  by_cases happend : ret = .append
  · simp only [Thread.Coupled, hpc] at hcoupled
    obtain ⟨_, _, queue, idx, _, ⟨hne, _⟩ | ⟨_, hwaiting⟩⟩ := hcoupled
    · exact absurd happend hne
    · subst happend
      rw [hwaiting.1]
      exact Nat.zero_le _
  · obtain ⟨version', hv⟩ := hui.exists_version hphase
    obtain ⟨tail, hbatch⟩ := hserved n t version' ht (hc.shared.localVersions ▸ hv)
      (by rw [hpc]; exact happend)
    have hle := hc.shared.operations_le n t ht
    rw [hbatch.responses, List.length_take, length_batchResults]
    omega

/-- The arithmetic of every thread of a reachable log is exact. -/
theorem exact64_of_reachable (hreach : (machine DT).Reachable c) (hobserved : Observed c observed)
    (ht : c.threads n = some t) : Exact64 c t := by
  obtain ⟨hhead, htail, _, hversions, _⟩ := counters_lt_maxIdx hreach
  obtain ⟨u, hu, b, hb, hc⟩ := exists_implements hreach
  have hbi := CyclicBuffer.inv_of_reachable hb
  obtain ⟨phase, buffer, _, hbuffer, hcoupled⟩ :=
    hc.exists_phases (UnboundedLog.inv_of_reachable hu) hbi ht
  obtain ⟨version, hversion⟩ := hbi.exists_version hbuffer
  have hwf := hbi.combiner_wf n buffer version hbuffer hversion
  rw [hc.shared.buffer_localVersions] at hversion
  -- a slot of the reserved range is behind the tail
  have hslot : ∀ {tail idx}, t.Appending n u.log phase buffer tail idx → tail + idx < maxIdx := by
    rintro tail idx ⟨_, rfl, _⟩
    have hle : tail + idx ≤ tail + t.operations.length := hwf.2.1
    have hreserved : tail + t.operations.length ≤ b.tail := hwf.2.2.1
    rw [hc.shared.buffer_tail] at hreserved
    omega
  constructor
  · intro tail hpc
    exact appendChecked64_eq ((hobserved.tail_le n t tail ht hpc).trans_lt htail) hhead
      (hc.shared.operations_le n t ht)
  · intro tail idx advance hpc
    simp only [Thread.Coupled, hpc] at hcoupled
    exact appendSlot64_eq (hslot hcoupled.1)
  · intro tail idx advance hpc
    simp only [Thread.Coupled, hpc] at hcoupled
    have hlt := hslot hcoupled.1
    exact ⟨appendSlot64_eq hlt, appendNext64_eq (by omega)⟩
  · intro globalTail least hpc
    simp only [Thread.Coupled, hpc] at hcoupled
    obtain ⟨_, rfl⟩ := hcoupled
    have hleast : least ≤ version := by
      refine hwf.2 n version ?_ (by rw [hc.shared.buffer_localVersions, hversion])
      exact (hc.shared.threads_dom n).mp ⟨t, ht⟩
    exact advanceStored64_eq (hleast.trans_lt (hversions n version hversion))
  · intro ret cur globalTail hpc
    have hresponses := responses_length_le hreach ht hpc
    simp only [Thread.Coupled, hpc] at hcoupled
    obtain ⟨hlt, ⟨start, val, rfl⟩, _⟩ := hcoupled
    have hstop : globalTail ≤ b.tail := hwf.2.2.2.1
    rw [hc.shared.buffer_tail] at hstop
    have hmax : maxRequests + 1 < 2 ^ 64 := by decide
    exact ⟨executeNext64_eq (by omega), Checked.add_eq (by omega)⟩

/-- The minimum a thread is about to store is behind every replica. -/
theorem le_version_of_advanceStoreHead (hreach : (machine DT).Reachable c)
    (ht : c.threads n = some t) {globalTail least : Nat}
    (hpc : t.pc = .advanceStoreHead globalTail least) {m : NodeId} {version : Nat}
    (hversion : c.localVersions m = some version) : least ≤ version := by
  obtain ⟨u, hu, b, hb, hc⟩ := exists_implements hreach
  have hbi := CyclicBuffer.inv_of_reachable hb
  obtain ⟨phase, buffer, _, hbuffer, hcoupled⟩ :=
    hc.exists_phases (UnboundedLog.inv_of_reachable hu) hbi ht
  obtain ⟨own, hown⟩ := hbi.exists_version hbuffer
  simp only [Thread.Coupled, hpc] at hcoupled
  obtain ⟨_, rfl⟩ := hcoupled
  rw [← hc.shared.buffer_localVersions] at hversion
  refine (hbi.combiner_wf n _ own hbuffer hown).2 m version ?_ hversion
  rw [← hc.shared.buffer_numReplicas]
  exact (hbi.versions_dom m).mp ⟨version, hversion⟩

/-- A range is reserved in the room behind the head the append observed. -/
theorem Observed.tail_le_of_reserve (h : Observed c observed) (hreach : (machine DT).Reachable c)
    {tail : Nat} {operations : List DT.WriteOperation}
    (hstep : Next c (.reserve n tail operations) c') :
    c'.tail = tail + operations.length ∧ c'.tail ≤ observed n + logSize := by
  cases hstep with
  | combiner m t ht hstep =>
    obtain ⟨rfl, rfl, _, advance, hpc⟩ := hstep.reserve_eq
    obtain ⟨u, _, b, _, hc⟩ := exists_implements hreach
    have hroom := h.room n t tail advance ht hpc
    have hnops := hc.shared.operations_le n t ht
    have hmargin : gcThreshold + maxRequests = logSize := by decide
    cases hstep with
    | reserve =>
      change tail + _ = _ ∧ tail + _ ≤ _
      omega

end Bounds

/-- In every reachable state of the log, whose tail is below the index the code refuses, no sum
or difference of log indices overflows or underflows at the next access of any thread: neither
in the space check and the new tail of `append`, nor for the slots it writes, nor in the test
that ends `advance_head`, nor in the loop of `execute`; each is what it is on unbounded numbers.
A successful compare-and-swap moves the tail to no more than the size of the log past the head
its append observed. And the head a thread stores is no further than any replica then is. -/
theorem index_arithmetic_exact {c : State DT} {observed : NodeId → Nat}
    (hreach : (headMachine DT).Reachable (c, observed)) {n : NodeId} {t : Thread DT}
    (ht : c.threads n = some t) :
    c.tail < maxIdx ∧ Exact64 c t ∧
    (∀ tail operations c', Next c (.reserve n tail operations) c' →
      c'.tail = tail + operations.length ∧ c'.tail ≤ observed n + logSize) ∧
    ∀ globalTail least label c', t.pc = .advanceStoreHead globalTail least →
      CombinerStep n t c label c' →
      c'.head = least ∧ ∀ m version, c'.localVersions m = some version → c'.head ≤ version := by
  have hobserved := observed_of_reachable hreach
  have hlog : (machine DT).Reachable c := withRecord_refines.reachable hreach
  refine ⟨(counters_lt_maxIdx hlog).2.1, exact64_of_reachable hlog hobserved ht,
    fun tail operations c' ↦ hobserved.tail_le_of_reserve hlog,
    fun globalTail least label c' hpc hstep ↦ ?_⟩
  cases hstep with
  | storeHead _ _ hpc' =>
    cases hpc.symm.trans hpc'
    exact ⟨rfl, fun m version hversion ↦ le_version_of_advanceStoreHead hlog ht hpc hversion⟩
  | _ => cases hpc.symm.trans ‹_ = _›

/-- The first append is about to reserve its range. -/
theorem index_arithmetic_exact_reserve :
    ∃ (c : State counter) (observed : NodeId → Nat) (t : Thread counter),
      (headMachine counter).Reachable (c, observed) ∧ c.threads 0 = some t ∧
      t.pc = .appendReserve 0 false ∧ c.tail < maxIdx ∧
      ∀ c', Next c (.reserve 0 0 [(5 : Nat)]) c' → c'.tail ≤ observed 0 + logSize := by
  have hrun : ∃ c : State counter, (machine counter).Run (initialState counter 1)
      [.start 7 (.write (5 : Nat)), .internal, .internal, .internal] c ∧
      ∃ t, c.threads 0 = some t ∧ t.pc = .appendReserve 0 false := by
    let t (pc : Pc) : Thread counter := ⟨pc, [7], [(5 : Nat)], []⟩
    refine Machine.Run.exists_cons (.startWrite 7 _ rfl rfl) ?_
    refine Machine.Run.exists_cons (.collect 0 _ [7] [(5 : Nat)] rfl rfl (by decide) (by decide)
      (.cons rfl .nil)) ?_
    refine Machine.Run.exists_cons (.combiner 0 (t _) rfl (.appendLoadTail rfl)) ?_
    refine Machine.Run.exists_cons (.combiner 0 (t _) rfl (.appendLoadHead 0 rfl)) ?_
    exact ⟨_, .nil _, t (appendChecked 0 0 1), rfl, appendChecked_one⟩
  obtain ⟨c, hrun, t, ht, hpc⟩ := hrun
  have hreach : (machine counter).Reachable c := ⟨_, _, ⟨1, by decide, rfl⟩, hrun⟩
  obtain ⟨observed, hrecorded⟩ : ∃ observed, (headMachine counter).Reachable (c, observed) :=
    hreach.exists_record
  obtain ⟨htail, _, hreserve, _⟩ := index_arithmetic_exact hrecorded ht
  exact ⟨c, observed, t, hrecorded, ht, hpc, htail, fun c' hstep ↦ (hreserve _ _ c' hstep).2⟩

end NrLog

end NrKernel.NodeReplication
