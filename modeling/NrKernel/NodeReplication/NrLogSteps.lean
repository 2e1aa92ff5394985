import NrKernel.NodeReplication.NrLogCoupling

/-!
# Steps of the executable log

Every access of the executable log is answered by transitions of the unbounded log and of the
cyclic buffer, in the order the code takes its ghost steps (`exec/log.rs:739–1607`). The
buffer's invariant is what shows that a slot read or written belongs to the index meant.
-/

namespace NrKernel.NodeReplication

open Lib

universe u

namespace NrLog

variable {DT : Dispatch.{u}} {c c' : State DT} {u : UnboundedLog.State DT}
  {b : CyclicBuffer.State DT} {n : NodeId} {t : Thread DT}

/-- Log entries after a step are old ones or those of the range the step reserves. -/
def LogExtends (label : Label DT) (log log' : PMap Nat (UnboundedLog.LogEntry DT)) : Prop :=
  ∀ i entry, log' i = some entry → log i = some entry ∨ ∃ tail operations,
    label = .reserve entry.nodeId tail operations ∧ tail ≤ i ∧
      operations[i - tail]? = some entry.op

/-- A dispatched entry is the one the log has at that index. -/
def DispatchesLog (label : Label DT) (log : PMap Nat (UnboundedLog.LogEntry DT)) : Prop :=
  ∀ n i entry, label = .dispatch n i entry → log i = some ⟨entry.op, entry.nodeId⟩

/-- Both machines have runs that answer a step: with what a client sees of it, into coupled
states, and with the log read and written as the step's label says. -/
def Answered (u : UnboundedLog.State DT) (b : CyclicBuffer.State DT) (label : Label DT)
    (c' : State DT) : Prop :=
  ∃ ms u' ls b', (UnboundedLog.machine DT).Run u ms u' ∧
    ms.filter AsyncLabel.visible = [label.async].filter AsyncLabel.visible ∧
    (CyclicBuffer.machine DT).Run b ls b' ∧ Coupled c' u' b' ∧
    LogExtends label u.log u'.log ∧ DispatchesLog label u.log

private theorem LogExtends.refl (label : Label DT) (log : PMap Nat (UnboundedLog.LogEntry DT)) :
    LogExtends label log log :=
  fun _ _ h ↦ .inl h

private theorem dispatchesLog_internal (log : PMap Nat (UnboundedLog.LogEntry DT)) :
    DispatchesLog .internal log :=
  nofun

/-- Neither machine moves. -/
theorem Answered.still (h : Coupled c' u b) : Answered u b .internal c' :=
  ⟨[], u, [], b, .nil u, rfl, .nil b, h, .refl _ _, dispatchesLog_internal _⟩

/-- Only the buffer moves. -/
theorem Answered.bufferRun {ls : List CyclicBuffer.Label} {b' : CyclicBuffer.State DT}
    (hb : (CyclicBuffer.machine DT).Run b ls b') (h : Coupled c' u b') :
    Answered u b .internal c' :=
  ⟨[], u, ls, b', .nil u, rfl, hb, h, .refl _ _, dispatchesLog_internal _⟩

private theorem Answered.buffer {l : CyclicBuffer.Label} {b' : CyclicBuffer.State DT}
    (hb : CyclicBuffer.Next b l b') (h : Coupled c' u b') : Answered u b .internal c' :=
  .bufferRun (.single hb) h

/-- Only the log moves, as a client sees it. -/
theorem Answered.log {label : Label DT} {u' : UnboundedLog.State DT}
    (hu : UnboundedLog.Next u label.async u') (hlog : u'.log = u.log)
    (hdispatch : DispatchesLog label u.log) (h : Coupled c' u' b) : Answered u b label c' :=
  ⟨[label.async], u', [], b, .single hu, rfl, .nil b, h, hlog ▸ .refl _ _, hdispatch⟩

/-- Both machines make one step. -/
theorem Answered.both {l : CyclicBuffer.Label} {u' : UnboundedLog.State DT}
    {b' : CyclicBuffer.State DT} (hu : UnboundedLog.Transition u u') (hlog : u'.log = u.log)
    (hb : CyclicBuffer.Next b l b') (h : Coupled c' u' b') : Answered u b .internal c' :=
  ⟨[.internal], u', [l], b', .single (.transition hu), rfl, .single hb, h,
    hlog ▸ .refl _ _, dispatchesLog_internal _⟩

section Append

private theorem Coupled.appendLoadTail (h : Coupled c u b) (hu : UnboundedLog.Inv u)
    (hb : CyclicBuffer.Inv b) (ht : c.threads n = some t) (hpc : t.pc = .appendLoadTail) :
    Answered u b .internal (c.goto n t (.appendLoadHead c.tail)) := by
  obtain ⟨phase, buffer, hphase, hbuffer, hc⟩ := h.exists_phases hu hb ht
  simp only [Thread.Coupled, hpc] at hc
  refine .still (h.gotoStill ht hphase hbuffer ?_)
  simp only [Thread.Coupled]
  exact hc

/-- The head just read leaves room for the whole batch, or nothing is reserved. -/
theorem Coupled.appendLoadHead (h : Coupled c u b) (hu : UnboundedLog.Inv u)
    (hb : CyclicBuffer.Inv b) (ht : c.threads n = some t) {tail : Nat}
    (hpc : t.pc = .appendLoadHead tail) :
    Answered u b .internal (c.goto n t (appendChecked tail c.head t.operations.length)) := by
  obtain ⟨phase, buffer, hphase, hbuffer, hc⟩ := h.exists_phases hu hb ht
  simp only [Thread.Coupled, hpc] at hc
  obtain ⟨rfl, rfl, hreq⟩ := hc
  unfold appendChecked
  split
  · refine .still (h.gotoStill ht hphase hbuffer ?_)
    simp only [Thread.Coupled]
    exact ⟨trivial, .inr ⟨trivial, hreq⟩⟩
  · next hroom =>
    split
    · refine .still (h.gotoStill ht hphase hbuffer ?_)
      simp only [Thread.Coupled, and_self]
    · refine .buffer (.advanceTailStart n hbuffer) (h.gotoBuffer ht hphase ?_)
      simp only [Thread.Coupled]
      refine ⟨trivial, hreq, b.head, rfl, ?_⟩
      have hops := h.shared.operations_le n t ht
      rw [h.shared.head]
      simp only [logSize, gcFromHead, maxRequests, maxPendingOps, maxThreadsPerReplica] at *
      omega

private theorem Coupled.reserveFail (h : Coupled c u b) (hu : UnboundedLog.Inv u)
    (hb : CyclicBuffer.Inv b) (ht : c.threads n = some t) {tail : Nat} {advance : Bool}
    (hpc : t.pc = .appendReserve tail advance) :
    Answered u b .internal (c.goto n t .appendLoadTail) := by
  obtain ⟨phase, buffer, hphase, hbuffer, hc⟩ := h.exists_phases hu hb ht
  simp only [Thread.Coupled, hpc] at hc
  obtain ⟨rfl, hreq, observedHead, rfl, _⟩ := hc
  refine .buffer (.advanceTailAbort n observedHead hbuffer) (h.gotoBuffer ht hphase ?_)
  simp only [Thread.Coupled]
  exact ⟨trivial, trivial, hreq⟩

private theorem exists_place_run {rids : List ReqId} {ops : List DT.WriteOperation}
    (u : UnboundedLog.State DT) {queue : List ReqId}
    (hphase : u.combiner n = some (.placed queue)) (hnodup : rids.Nodup)
    (hinit : List.Forall₂ (fun rid op ↦ u.localUpdates rid = some (.init op)) rids ops) :
    ∃ ms log updates, (UnboundedLog.machine DT).Run u ms
        { u with
          tail := u.tail + ops.length
          log := log
          localUpdates := updates
          combiner := u.combiner.insert n (.placed (queue ++ rids)) } ∧
      ms.filter AsyncLabel.visible = [] ∧
      (∀ i op, ops[i]? = some op → log (u.tail + i) = some ⟨op, n⟩) ∧
      (∀ i, i < u.tail ∨ u.tail + ops.length ≤ i → log i = u.log i) ∧
      (∀ rid ∉ rids, updates rid = u.localUpdates rid) ∧
      ∀ rid ∈ rids, updates rid ≠ none := by
  induction rids generalizing u queue ops with
  | nil =>
    cases hinit
    refine ⟨[], u.log, u.localUpdates, ?_, rfl, by simp, fun _ _ ↦ rfl, fun _ _ ↦ rfl, by simp⟩
    rw [List.append_nil, PMap.insert_of_eq_some hphase]
    exact .nil u
  | cons rid rids ih =>
    cases hinit with
    | @cons _ op _ ops hrid hrest =>
      obtain ⟨hnew, hnodup⟩ := List.nodup_cons.mp hnodup
      have hstep := UnboundedLog.Transition.updatePlaceOpsInLogOne n rid queue op hphase hrid
      have hrest' : List.Forall₂ (fun r x ↦
          u.localUpdates.insert rid (.placed op u.tail) r = some (.init x)) rids ops :=
        forall₂_frame (P := fun s x ↦ s = some (.init x))
          (fun r hr ↦ PMap.insert_of_ne _ _ (ne_of_mem_of_not_mem hr hnew)) hrest
      obtain ⟨ms, log, updates, hrun, hms, hlog, hold, hsame, hsome⟩ := ih
        { u with
          tail := u.tail + 1
          log := u.log.insert u.tail ⟨op, n⟩
          localUpdates := u.localUpdates.insert rid (.placed op u.tail)
          combiner := u.combiner.insert n (.placed (queue ++ [rid])) }
        (PMap.insert_self _ _ _) hnodup hrest'
      simp only [PMap.insert_insert, List.append_assoc, List.singleton_append] at hrun
      refine ⟨.internal :: ms, log, updates, .cons (.transition hstep) ?_, hms, ?_, ?_, ?_, ?_⟩
      · rwa [List.length_cons, Nat.add_comm ops.length 1, ← Nat.add_assoc]
      · intro i x hx
        cases i with
        | zero =>
          obtain rfl : op = x := by simpa using hx
          rw [Nat.add_zero, hold u.tail (.inl (Nat.lt_succ_self _))]
          exact PMap.insert_self _ _ _
        | succ i =>
          have hi := hlog i x (by simpa using hx)
          rwa [Nat.add_right_comm, Nat.add_assoc] at hi
      · intro i hi
        rw [List.length_cons] at hi
        have hne : i ≠ u.tail := by omega
        exact (hold i (by change i < u.tail + 1 ∨ u.tail + 1 + ops.length ≤ i; omega)).trans
          (PMap.insert_of_ne _ _ hne)
      · intro r hr
        rw [List.mem_cons, not_or] at hr
        exact (hsame r hr.2).trans (PMap.insert_of_ne _ _ hr.1)
      · intro r hr
        rcases List.mem_cons.mp hr with rfl | hr
        · rw [hsame r hnew]
          simp
        · exact hsome r hr

private theorem exists_appendNext (tail idx : Nat) (advance : Bool)
    {phase : UnboundedLog.CombinerState} {buffer : CyclicBuffer.CombinerState DT}
    (hs : Shared c u b) (hothers : ∀ m ≠ n, ThreadCoupled c u b m) (ht : c.threads n = some t)
    (hphase : u.combiner n = some phase) (hbuffer : b.combiner n = some buffer)
    (happ : t.Appending n u.log phase buffer tail idx) (hle : idx ≤ t.operations.length) :
    ∃ ls b', (CyclicBuffer.machine DT).Run b ls b' ∧
      Coupled (c.goto n t (appendNext t.operations.length tail idx advance)) u b' := by
  unfold appendNext
  split
  · next hlt =>
    refine ⟨[], b, .nil b, .setThread hs hothers ht hphase hbuffer ?_ rfl rfl⟩
    simp only [Thread.Coupled]
    exact ⟨happ, hlt⟩
  · obtain rfl : idx = t.operations.length := by omega
    obtain ⟨hplaced, rfl, _⟩ := happ
    refine ⟨[.appendFinish n], _, .single (.appendFinish n _ _ hbuffer rfl), ?_⟩
    refine .setThread { hs with } ?_ ht hphase (PMap.insert_self _ _ _) ?_ rfl rfl
    · intro m hm s phase' buffer' hthread hphase' hbuffer'
      exact hothers m hm s phase' buffer' hthread hphase' (by simpa [hm] using hbuffer')
    · split
      · simp only [Thread.Coupled]
        exact ⟨.inl hplaced, trivial⟩
      · simp only [Thread.Coupled]
        exact ⟨trivial, .inl ⟨nofun, hplaced⟩⟩

/-- A successful compare-and-swap places the whole batch. -/
theorem Coupled.reserve (h : Coupled c u b) (hu : UnboundedLog.Inv u)
    (hb : CyclicBuffer.Inv b) (ht : c.threads n = some t) {tail : Nat} {advance : Bool}
    (hpc : t.pc = .appendReserve tail advance) (htail : c.tail = tail) :
    Answered u b (.reserve n tail t.operations)
      ({ c with tail := tail + t.operations.length }.goto n t
        (appendNext t.operations.length tail 0 advance)) := by
  obtain ⟨phase, buffer, hphase, hbuffer, hc⟩ := h.exists_phases hu hb ht
  simp only [Thread.Coupled, hpc] at hc
  obtain ⟨rfl, ⟨hres, hinit⟩, observedHead, rfl, hroom⟩ := hc
  have hutail : u.tail = tail := h.shared.tail.trans htail
  have hbtail : b.tail = tail := h.shared.buffer_tail.trans htail
  have hstart := UnboundedLog.Transition.execTrivialStart n hphase
  obtain ⟨ms, log, updates, hrun, hms, hlog, hold, hsame, hsome⟩ := exists_place_run
    { u with combiner := u.combiner.insert n (.placed []) } (PMap.insert_self _ _ _)
    (h.shared.nodup n t ht) hinit
  rw [List.nil_append] at hrun
  have hfinish := CyclicBuffer.Next.advanceTailFinish n observedHead
    (tail + t.operations.length) hbuffer (by omega) (h.shared.bufferSize ▸ hroom)
  have hkeep : ∀ i entry, u.log i = some entry → log i = some entry := by
    intro i entry hi
    rw [hold i (.inl ((hu.log_dom i).mp ⟨entry, hi⟩))]
    exact hi
  have hshared : Shared { c with tail := tail + t.operations.length }
      { u with
        tail := u.tail + t.operations.length
        log := log
        localUpdates := updates
        combiner := (u.combiner.insert n (.placed [])).insert n (.placed t.requestIds) }
      { b with
        tail := tail + t.operations.length
        contents := CyclicBuffer.withdraw b.contents (b.tail - b.bufferSize)
          (((tail + t.operations.length : Nat) : Int) - b.bufferSize)
        combiner := b.combiner.insert n
          (.appending b.tail (tail + t.operations.length)) } :=
    { h.shared with
      tail := by rw [hutail]
      buffer_tail := rfl
      contents := fun i st hst ↦
        h.shared.contents i st (CyclicBuffer.withdraw_eq_some.mp hst).2
      tokens := fun i st hst ↦ by
        obtain ⟨entry, token, hi, htoken⟩ :=
          h.shared.tokens i st (CyclicBuffer.withdraw_eq_some.mp hst).2
        exact ⟨entry, token, hkeep i entry hi, htoken⟩
      tickets := h.shared.tickets_of_owned ht hsame hsome }
  obtain ⟨ls, b', hrun', hcoupled⟩ := exists_appendNext tail 0 advance hshared
    (h.others ht rfl (fun _ _ ↦ rfl)
      (fun _ hm ↦ (PMap.insert_of_ne _ _ hm).trans (PMap.insert_of_ne _ _ hm))
      (fun _ hm ↦ PMap.insert_of_ne _ _ hm) hsame hkeep fun _ _ _ _ _ _ _ _ ↦ rfl)
    ht (PMap.insert_self _ _ _) (PMap.insert_self _ _ _)
    ⟨⟨rfl, hres⟩, by rw [hbtail, Nat.add_zero], fun i op hop ↦ hutail ▸ hlog i op hop⟩
    (Nat.zero_le _)
  refine ⟨.internal :: ms, _, .advanceTailFinish n b.tail _ :: ls, b',
    .cons (.transition hstart) hrun, hms, .cons hfinish hrun', hcoupled, ?_, nofun⟩
  intro i entry hi
  by_cases hin : i < tail ∨ tail + t.operations.length ≤ i
  · refine .inl ?_
    rw [← hold i (hutail ▸ hin)]
    exact hi
  · obtain ⟨op, hop⟩ : ∃ op, t.operations[i - tail]? = some op :=
      ⟨_, List.getElem?_eq_getElem (by omega)⟩
    have hnew := hlog (i - tail) op hop
    change log (u.tail + (i - tail)) = _ at hnew
    rw [hutail, show tail + (i - tail) = i by omega] at hnew
    obtain rfl := Option.some.inj (hnew.symm.trans hi)
    exact .inr ⟨tail, t.operations, rfl, by omega, hop⟩

/-- The slot written is one no other thread looks at. -/
theorem Coupled.writeEntry (h : Coupled c u b) (hu : UnboundedLog.Inv u)
    (hb : CyclicBuffer.Inv b) (ht : c.threads n = some t) {tail idx : Nat} {advance : Bool}
    (hpc : t.pc = .appendWriteEntry tail idx advance) {op : DT.WriteOperation}
    (hop : t.operations[idx]? = some op) :
    Answered u b .internal
      ({ c with
        slog := Function.update c.slog (index (tail + idx))
          { c.slog (index (tail + idx)) with logEntry := some ⟨op, n⟩ } }.goto n t
        (.appendStoreAlive tail idx advance)) := by
  obtain ⟨phase, buffer, hphase, hbuffer, hc⟩ := h.exists_phases hu hb ht
  simp only [Thread.Coupled, hpc] at hc
  obtain ⟨happ, hlt⟩ := hc
  obtain ⟨hplaced, rfl, hlog⟩ := happ
  have hslot : CyclicBuffer.logEntryIdx ((tail + idx : Nat) : Int) b.bufferSize =
      index (tail + idx) := by
    rw [h.shared.bufferSize, logEntryIdx_eq]
  refine .still (.setThread
    { h.shared with
      aliveBits := fun i hi ↦ ?_
      contents := fun i st hst ↦ ?_ }
    (h.others ht rfl (fun _ _ ↦ rfl) (fun _ _ ↦ rfl) (fun _ _ ↦ rfl) (fun _ _ ↦ rfl)
      (fun _ _ hi ↦ hi) ?_) ht hphase hbuffer ?_ rfl rfl)
  · rw [h.shared.aliveBits i hi]
    by_cases heq : i = index (tail + idx)
    · simp [heq]
    · simp [heq]
  · have hfree := hb.appending_slot_free hbuffer (by omega) hst
    rw [hslot, h.shared.bufferSize] at hfree
    rw [h.shared.contents i st hst]
    simp [hfree]
  · intro m hm s hs tail' idx' advance' hs'
    obtain ⟨phase', buffer', hphase', hbuffer', hc'⟩ := h.exists_phases hu hb hs
    simp only [Thread.Coupled, hs'] at hc'
    obtain ⟨⟨_, rfl, _⟩, op', hop', _⟩ := hc'
    have hidx' : idx' < s.operations.length := (List.getElem?_eq_some_iff.mp hop').1
    have hne := hb.appending_slots_ne hm hbuffer' hbuffer (i := ((tail' + idx' : Nat) : Int))
      (j := ((tail + idx : Nat) : Int)) (Int.le_refl _) (by omega) (Int.le_refl _) (by omega)
    rw [hslot, h.shared.bufferSize, logEntryIdx_eq] at hne
    simp [hne]
  · simp only [Thread.Coupled]
    exact ⟨⟨hplaced, rfl, hlog⟩, op, hop, by simp⟩

/-- Storing the alive bit hands the entry over to the readers. -/
theorem Coupled.storeAlive (h : Coupled c u b) (hu : UnboundedLog.Inv u)
    (hb : CyclicBuffer.Inv b) (ht : c.threads n = some t) {tail idx : Nat} {advance : Bool}
    (hpc : t.pc = .appendStoreAlive tail idx advance) :
    Answered u b .internal
      ({ c with
        slog := Function.update c.slog (index (tail + idx))
          { c.slog (index (tail + idx)) with alive := isAliveValue (tail + idx) } }.goto n t
        (appendNext t.operations.length tail (idx + 1) advance)) := by
  obtain ⟨phase, buffer, hphase, hbuffer, hc⟩ := h.exists_phases hu hb ht
  simp only [Thread.Coupled, hpc] at hc
  obtain ⟨⟨hplaced, rfl, hlog⟩, op, hop, hentry⟩ := hc
  have hidx : idx < t.operations.length := (List.getElem?_eq_some_iff.mp hop).1
  have hslot : CyclicBuffer.logEntryIdx ((tail + idx : Nat) : Int) b.bufferSize =
      index (tail + idx) := by
    rw [h.shared.bufferSize, logEntryIdx_eq]
  have halive : CyclicBuffer.logEntryAliveValue ((tail + idx : Nat) : Int) b.bufferSize =
      isAliveValue (tail + idx) := by
    rw [h.shared.bufferSize, logEntryAliveValue_eq]
  let deposited : CyclicBuffer.StoredType DT :=
    ⟨⟨b.cellId (tail + idx : Nat), some (some ⟨op, n⟩)⟩,
      some ⟨tail + idx, b.unboundedLogInstance, ⟨op, n⟩⟩⟩
  obtain ⟨bit, hbit⟩ := (hb.bits_dom (CyclicBuffer.logEntryIdx ((tail + idx : Nat) : Int)
    b.bufferSize)).mpr (slot_lt hb.size_pos _)
  have hflip := CyclicBuffer.Next.appendFlipBit n (tail + idx) (tail + t.operations.length) bit
    deposited hbuffer hbit (by omega)
    ⟨nofun, rfl, fun _ ↦ ⟨_, _, rfl, rfl, rfl, rfl, rfl, rfl⟩⟩
  rw [hslot, halive] at hflip
  have hsame : ∀ i, (Function.update c.slog (index (tail + idx))
      { c.slog (index (tail + idx)) with alive := isAliveValue (tail + idx) } i).logEntry =
        (c.slog i).logEntry := by
    intro i
    by_cases heq : i = index (tail + idx)
    · simp [heq]
    · simp [heq]
  obtain ⟨ls, b', hrun, hcoupled⟩ := exists_appendNext tail (idx + 1) advance
    (c := { c with
      slog := Function.update c.slog (index (tail + idx))
        { c.slog (index (tail + idx)) with alive := isAliveValue (tail + idx) } })
    (b := { b with
      contents := b.contents.insert ((tail + idx : Nat) : Int) deposited
      aliveBits := b.aliveBits.insert (index (tail + idx)) (isAliveValue (tail + idx))
      combiner := b.combiner.insert n
        (.appending (tail + idx + 1) (tail + t.operations.length)) })
    { h.shared with
      aliveBits := fun i hi ↦ by
        by_cases heq : i = index (tail + idx)
        · simp [heq]
        · simpa [heq] using h.shared.aliveBits i hi
      contents := fun i st hst ↦ by
        rw [hsame]
        rcases (PMap.insert_eq_some _ _ _ _ _).mp hst with ⟨rfl, rfl⟩ | ⟨_, hold⟩
        · rw [logEntryIdx_eq, hentry]
        · exact h.shared.contents i st hold
      tokens := fun i st hst ↦ by
        rcases (PMap.insert_eq_some _ _ _ _ _).mp hst with ⟨heq, rfl⟩ | ⟨_, hold⟩
        · obtain rfl : i = tail + idx := Int.ofNat_inj.mp heq
          exact ⟨_, _, hlog idx op hop, rfl, rfl⟩
        · exact h.shared.tokens i st hold }
    (h.others ht rfl (fun _ _ ↦ rfl) (fun _ _ ↦ rfl) (fun _ hm ↦ PMap.insert_of_ne _ _ hm)
      (fun _ _ ↦ rfl) (fun _ _ hi ↦ hi) fun _ _ _ _ _ _ _ _ ↦ hsame _)
    ht hphase (PMap.insert_self _ _ _) ⟨hplaced, rfl, hlog⟩ hidx
  exact .bufferRun (.cons hflip hrun) hcoupled

end Append

section AdvanceHead

private theorem Coupled.advanceLoadHead (h : Coupled c u b) (hu : UnboundedLog.Inv u)
    (hb : CyclicBuffer.Inv b) (ht : c.threads n = some t) (hpc : t.pc = .advanceLoadHead) :
    Answered u b .internal (c.goto n t (.advanceLoadTail c.head)) := by
  obtain ⟨phase, buffer, hphase, hbuffer, hc⟩ := h.exists_phases hu hb ht
  simp only [Thread.Coupled, hpc] at hc
  refine .still (h.gotoStill ht hphase hbuffer ?_)
  simp only [Thread.Coupled]
  exact hc

private theorem Coupled.advanceLoadTail (h : Coupled c u b) (hu : UnboundedLog.Inv u)
    (hb : CyclicBuffer.Inv b) (ht : c.threads n = some t) {globalHead : Nat}
    (hpc : t.pc = .advanceLoadTail globalHead) :
    Answered u b .internal (c.goto n t (.advanceLoadFirst globalHead c.tail)) := by
  obtain ⟨phase, buffer, hphase, hbuffer, hc⟩ := h.exists_phases hu hb ht
  simp only [Thread.Coupled, hpc] at hc
  refine .still (h.gotoStill ht hphase hbuffer ?_)
  simp only [Thread.Coupled]
  exact hc

-- After a version is scanned: scan the next, give up, or go on to store the minimum.
private theorem Coupled.scanned (h : Coupled c u b) (ht : c.threads n = some t)
    {phase : UnboundedLog.CombinerState} (hphase : u.combiner n = some phase)
    (happ : t.Appended u.localUpdates phase) {globalHead globalTail least idx : Nat}
    {l : CyclicBuffer.Label} (hidx : idx ≤ c.numReplicas)
    (hscan : CyclicBuffer.Next b l
      { b with combiner := b.combiner.insert n (.advancingHead idx least) }) :
    Answered u b .internal
      (c.goto n t (advanceNext c.numReplicas globalHead globalTail least idx)) := by
  unfold advanceNext
  split
  · refine .buffer hscan (h.gotoBuffer ht hphase ?_)
    simp only [Thread.Coupled]
    exact ⟨happ, trivial⟩
  · obtain rfl : idx = c.numReplicas := by omega
    split
    · have habort : CyclicBuffer.Next
          { b with combiner := b.combiner.insert n (.advancingHead c.numReplicas least) }
          (.advanceHeadAbort n)
          { b with
            combiner := (b.combiner.insert n (.advancingHead c.numReplicas least)).insert n
              .idle } :=
        .advanceHeadAbort n c.numReplicas least (PMap.insert_self _ _ _)
      rw [PMap.insert_insert] at habort
      refine .bufferRun (.cons hscan (.single habort)) (h.gotoBuffer ht hphase ?_)
      simp only [Thread.Coupled]
      exact ⟨trivial, happ.imp (fun hp ↦ ⟨nofun, hp⟩) id⟩
    · refine .buffer hscan (h.gotoBuffer ht hphase ?_)
      simp only [Thread.Coupled]
      exact ⟨happ, trivial⟩

private theorem Coupled.advanceLoadFirst (h : Coupled c u b) (hu : UnboundedLog.Inv u)
    (hb : CyclicBuffer.Inv b) (ht : c.threads n = some t) {globalHead globalTail version : Nat}
    (hpc : t.pc = .advanceLoadFirst globalHead globalTail)
    (hlocal : c.localVersions 0 = some version) :
    Answered u b .internal
      (c.goto n t (advanceNext c.numReplicas globalHead globalTail version 1)) := by
  obtain ⟨phase, buffer, hphase, hbuffer, hc⟩ := h.exists_phases hu hb ht
  simp only [Thread.Coupled, hpc] at hc
  obtain ⟨happ, rfl⟩ := hc
  rw [← h.shared.buffer_localVersions] at hlocal
  have hpos : 1 ≤ c.numReplicas := h.shared.buffer_numReplicas ▸ hb.replicas_pos
  exact h.scanned ht hphase happ hpos (.advanceHeadStart n version hlocal hbuffer)

private theorem Coupled.advanceLoadNext (h : Coupled c u b) (hu : UnboundedLog.Inv u)
    (hb : CyclicBuffer.Inv b) (ht : c.threads n = some t)
    {globalHead globalTail least idx version : Nat}
    (hpc : t.pc = .advanceLoadNext globalHead globalTail least idx)
    (hlocal : c.localVersions idx = some version) :
    Answered u b .internal
      (c.goto n t (advanceNext c.numReplicas globalHead globalTail
        (if version < least then version else least) (idx + 1))) := by
  obtain ⟨phase, buffer, hphase, hbuffer, hc⟩ := h.exists_phases hu hb ht
  simp only [Thread.Coupled, hpc] at hc
  obtain ⟨happ, rfl⟩ := hc
  rw [← h.shared.buffer_localVersions] at hlocal
  have hidx : idx < b.numReplicas := (hb.versions_dom idx).mp ⟨version, hlocal⟩
  have hmin : (if version < least then version else least) = min least version := by
    rw [min_def]
    split <;> split <;> omega
  rw [hmin]
  exact h.scanned ht hphase happ (h.shared.buffer_numReplicas ▸ hidx)
    (.advanceHeadNext n idx least version hbuffer hlocal hidx)

/-- The late store of a minimum may move the head back. -/
theorem Coupled.storeHead (h : Coupled c u b) (hu : UnboundedLog.Inv u)
    (hb : CyclicBuffer.Inv b) (ht : c.threads n = some t) {globalTail least : Nat}
    (hpc : t.pc = .advanceStoreHead globalTail least) :
    Answered u b .internal
      ({ c with head := least }.goto n t (advanceStored globalTail least)) := by
  obtain ⟨phase, buffer, hphase, hbuffer, hc⟩ := h.exists_phases hu hb ht
  simp only [Thread.Coupled, hpc] at hc
  obtain ⟨happ, rfl⟩ := hc
  have hhead : Coupled { c with head := least } u { b with head := least } :=
    ⟨{ h.shared with head := rfl }, h.threads⟩
  refine .buffer (.advanceHeadFinish n c.numReplicas least hbuffer
    h.shared.buffer_numReplicas.symm) (hhead.gotoBuffer ht hphase ?_)
  have hret : ∀ ret : Return, ret ≠ .append →
      ret ≠ .append ∧ t.Placed phase ∨ phase = .ready ∧ t.Waiting u.localUpdates ret := by
    intro ret hret
    cases ret with
    | append => exact absurd rfl hret
    | advanceHead => exact happ.imp (fun hp ↦ ⟨hret, hp⟩) id
    | combine => exact happ.imp (fun hp ↦ ⟨hret, hp⟩) id
  unfold advanceStored
  split
  · simp only [Thread.Coupled]
    exact ⟨trivial, hret .combine nofun⟩
  · simp only [Thread.Coupled]
    exact ⟨trivial, hret .advanceHead nofun⟩

end AdvanceHead

section Execute

variable {ret : Return} {version globalTail : Nat}
  {log : PMap Nat (UnboundedLog.LogEntry DT)}
  {updates : PMap ReqId (UnboundedLog.UpdateState DT)} {slog : Nat → BufferEntry DT}

private theorem coupled_resume (hwait : t.Waiting updates ret) (numReplicas : Nat) :
    ({ t with pc := ret.resume } : Thread DT).Coupled numReplicas n log updates slog .ready
      .idle := by
  cases ret with
  | append =>
    simp only [Thread.Coupled, Return.resume]
    exact ⟨trivial, trivial, hwait⟩
  | advanceHead =>
    simp only [Thread.Coupled, Return.resume]
    exact ⟨.inr ⟨rfl, hwait⟩, trivial⟩
  | combine =>
    simp only [Thread.Coupled, Return.resume]
    exact ⟨trivial, trivial, hwait⟩

private theorem coupled_executeNext {start idx : Nat} {queue : List ReqId}
    (hle : version ≤ globalTail) (hqueue : t.Queue updates ret queue idx globalTail)
    (numReplicas : Nat) :
    ({ t with pc := executeNext ret version globalTail } : Thread DT).Coupled numReplicas n log
      updates slog (.loop queue version idx globalTail)
      (.reading (.range start globalTail version)) := by
  rw [executeNext]
  split
  · next hlt =>
    simp only [Thread.Coupled]
    exact ⟨hlt, ⟨start, rfl⟩, queue, idx, rfl, hqueue⟩
  · obtain rfl : version = globalTail := by omega
    simp only [Thread.Coupled]
    exact ⟨⟨start, rfl⟩, queue, idx, rfl, hqueue⟩

/-- Starting to execute: the log's combiner takes up the placed requests, or none. -/
theorem Coupled.executeLoadLocal (h : Coupled c u b) (hu : UnboundedLog.Inv u)
    (hb : CyclicBuffer.Inv b) (ht : c.threads n = some t)
    (hpc : t.pc = .executeLoadLocal ret) (hlocal : c.localVersions n = some version) :
    Answered u b .internal (c.goto n t (.executeLoadTail ret version)) := by
  obtain ⟨phase, buffer, hphase, hbuffer, hc⟩ := h.exists_phases hu hb ht
  simp only [Thread.Coupled, hpc] at hc
  obtain ⟨rfl, hstart⟩ := hc
  have hulocal : u.localVersions n = some version := h.shared.localVersions ▸ hlocal
  have hread : CyclicBuffer.Next b (.readerStart n)
      { b with combiner := b.combiner.insert n (.reading (.starting version)) } :=
    .readerStart n version (h.shared.buffer_localVersions ▸ hlocal) hbuffer
  have hnew : ∀ queue, t.Queue u.localUpdates ret queue 0 0 →
      Coupled (c.goto n t (.executeLoadTail ret version))
        { u with combiner := u.combiner.insert n (.loadedLocalVersion queue version) }
        { b with combiner := b.combiner.insert n (.reading (.starting version)) } := by
    intro queue hqueue
    refine h.goto ht ?_
    simp only [Thread.Coupled]
    exact ⟨trivial, queue, rfl, hqueue⟩
  rcases hstart with ⟨hret, rfl, hres⟩ | ⟨rfl, hwait⟩
  · refine .both (.execLoadLocalVersion n t.requestIds version hphase hulocal) rfl hread
      (hnew _ (.inl ⟨hret, rfl, by rw [hres]; rfl, ?_⟩))
    rw [hres, List.take_zero]
    exact .nil
  · have htrivial := UnboundedLog.Transition.execTrivialStart n hphase
    have hload : UnboundedLog.Transition { u with combiner := u.combiner.insert n (.placed []) }
        { u with
          combiner := (u.combiner.insert n (.placed [])).insert n
            (.loadedLocalVersion [] version) } :=
      .execLoadLocalVersion n [] version (PMap.insert_self _ _ _) hulocal
    rw [PMap.insert_insert] at hload
    exact ⟨[.internal, .internal], _, _, _,
      .cons (.transition htrivial) (.single (.transition hload)), rfl, .single hread,
      hnew [] (.inr ⟨rfl, hwait⟩), .refl _ _, dispatchesLog_internal _⟩

private theorem queue_eq_nil (hu : UnboundedLog.Inv u) {queue : List ReqId}
    (hphase : u.combiner n = some (.loadedLocalVersion queue u.tail)) : queue = [] := by
  obtain ⟨v, hv⟩ := hu.exists_version hphase
  have hpend := (hu.combiner_wf n _ v hphase hv).pending
  simpa [UnboundedLog.CombinerState.pending, UnboundedLog.CombinerState.queuedOps,
    UnboundedLog.CombinerState.answeredCount, UnboundedLog.CombinerState.currentVersion]
    using hpend

private theorem Coupled.executeLoadTail (h : Coupled c u b) (hu : UnboundedLog.Inv u)
    (hb : CyclicBuffer.Inv b) (ht : c.threads n = some t)
    (hpc : t.pc = .executeLoadTail ret version) :
    Answered u b .internal (c.goto n t (executeChecked ret version c.tail)) := by
  obtain ⟨phase, buffer, hphase, hbuffer, hc⟩ := h.exists_phases hu hb ht
  simp only [Thread.Coupled, hpc] at hc
  obtain ⟨rfl, queue, rfl, hqueue⟩ := hc
  unfold executeChecked
  split
  · next heq =>
    have hempty : queue = [] := by
      rw [heq, ← h.shared.tail] at hphase
      exact queue_eq_nil hu hphase
    have hwait : t.Waiting u.localUpdates ret := by
      rcases hqueue with ⟨hret, hids, hlen, _⟩ | ⟨_, hwait⟩
      · have hans : t.Answered u.localUpdates := by
          rw [Thread.Answered, ← hids, hempty, List.eq_nil_of_length_eq_zero hlen.symm]
          exact .nil
        cases ret with
        | append => exact absurd rfl hret
        | advanceHead => exact hans
        | combine => exact hans
      · exact hwait
    refine .both (.execFinishNoChange n queue version hphase (h.shared.tail ▸ heq)) rfl
      (.readerAbort n _ hbuffer nofun) (h.goto ht ?_)
    exact coupled_resume hwait _
  · next hne =>
    have hlt : version < c.tail := by
      obtain ⟨v, hv⟩ := hu.exists_version hphase
      have hle := hu.currentVersion_le hphase hv
      simp only [UnboundedLog.CombinerState.currentVersion, h.shared.tail] at hle
      omega
    refine .both (.execLoadGlobalHead n queue version hphase) rfl
      (.readerEnter n version hbuffer) (h.goto ht ?_)
    rw [h.shared.tail, h.shared.buffer_tail]
    refine coupled_executeNext hlt.le ?_ _
    exact hqueue.imp (fun hq ↦ ⟨hq.1, hq.2.1, hq.2.2.1, hq.2.2.2.imp fun rid res hx ↦ by
      obtain ⟨i, hi, hx⟩ := hx
      exact absurd hi (Nat.not_lt_zero i)⟩) id

private theorem Coupled.alive_iff (h : Coupled c u b) (i : Nat) :
    b.Alive i ↔ (c.slog (index i)).alive = isAliveValue i := by
  rw [CyclicBuffer.State.Alive, CyclicBuffer.logEntryIsAlive, h.shared.bufferSize,
    logEntryIdx_eq, logEntryAliveValue_eq, h.shared.aliveBits _ (index_lt i), Option.some_inj]

/-- A combiner that sees the bit of the present pass guards the entry. -/
theorem Coupled.executeLoadAlive (h : Coupled c u b) (hu : UnboundedLog.Inv u)
    (hb : CyclicBuffer.Inv b) (ht : c.threads n = some t)
    (hpc : t.pc = .executeLoadAlive ret version globalTail) :
    Answered u b .internal
      (c.goto n t
        (if (c.slog (index version)).alive = isAliveValue version
          then .executeDispatch ret version globalTail
          else .executeLoadAlive ret version globalTail)) := by
  obtain ⟨phase, buffer, hphase, hbuffer, hc⟩ := h.exists_phases hu hb ht
  simp only [Thread.Coupled, hpc] at hc
  obtain ⟨hlt, ⟨start, rfl⟩, queue, idx, rfl, hqueue⟩ := hc
  split
  · next halive =>
    have halive' : b.Alive version := (h.alive_iff version).mpr halive
    obtain ⟨v, hv⟩ := hb.exists_version hbuffer
    obtain ⟨hstart, hle, hstop, htail, hread⟩ := hb.combiner_wf n _ v hbuffer hv
    obtain ⟨val, hval⟩ := hb.contents_of_alive (i := version) hv (by omega) (by omega) halive'
    refine .buffer (.readerGuard n start globalTail version val hbuffer hlt halive'
      fun st hst ↦ Option.some.inj (hval.symm.trans hst)) (h.gotoBuffer ht hphase ?_)
    simp only [Thread.Coupled]
    exact ⟨hlt, ⟨start, val, rfl⟩, queue, idx, rfl, hqueue⟩
  · refine .still (h.gotoStill ht hphase hbuffer ?_)
    simp only [Thread.Coupled]
    exact ⟨hlt, ⟨start, rfl⟩, queue, idx, rfl, hqueue⟩

/-- What a reader has guarded is the log's entry, and the slot holds it. -/
theorem Coupled.guarded_entry (h : Coupled c u b) (hb : CyclicBuffer.Inv b)
    {start stop cur : Nat} {val : CyclicBuffer.StoredType DT}
    (hbuffer : b.combiner n = some (.reading (.guard start stop cur val))) :
    ∃ entry, (c.slog (index cur)).logEntry = some entry ∧
      u.log cur = some ⟨entry.op, entry.nodeId⟩ := by
  obtain ⟨v, hv⟩ := hb.exists_version hbuffer
  obtain ⟨_, _, _, _, _, hval⟩ := hb.combiner_wf n _ v hbuffer hv
  obtain ⟨_, _, hstored⟩ := hb.contents_fit cur val hval
  obtain ⟨token, entry, htoken, _, _, hentry, hnode, hop⟩ := hstored (Int.natCast_nonneg cur)
  obtain ⟨entry', token', hlog, htoken', heq⟩ := h.shared.tokens cur val hval
  obtain rfl : token' = token := Option.some.inj (htoken'.symm.trans htoken)
  have hslot := h.shared.contents cur val hval
  rw [logEntryIdx_eq, hentry] at hslot
  refine ⟨entry, (Option.some.inj hslot).symm, ?_⟩
  rw [hlog, ← heq, hop, hnode]

private theorem Coupled.dispatchRemote (h : Coupled c u b) (hu : UnboundedLog.Inv u)
    (hb : CyclicBuffer.Inv b) (ht : c.threads n = some t)
    (hpc : t.pc = .executeDispatch ret version globalTail)
    {entry : CyclicBuffer.ConcreteLogEntry DT} {view : DT.View}
    (hentry : (c.slog (index version)).logEntry = some entry)
    (hdata : c.data n = some view) (hnode : entry.nodeId ≠ n) :
    Answered u b (.dispatch n version entry)
      ({ c with
        data := c.data.insert n (DT.dispatchMutSpec view entry.op).1 }.goto n t
        (executeNext ret (version + 1) globalTail)) := by
  obtain ⟨phase, buffer, hphase, hbuffer, hc⟩ := h.exists_phases hu hb ht
  simp only [Thread.Coupled, hpc] at hc
  obtain ⟨hlt, ⟨start, val, rfl⟩, queue, idx, rfl, hqueue⟩ := hc
  obtain ⟨entry', hentry', hlog⟩ := h.guarded_entry hb hbuffer
  obtain rfl : entry' = entry := Option.some.inj (hentry'.symm.trans hentry)
  have hdata' : u.replicas n = some view := h.shared.replicas ▸ hdata
  refine ⟨[.internal], _, _, _, .single (.transition (.execDispatchRemote n queue version idx
    globalTail view ⟨entry'.op, entry'.nodeId⟩ hphase hdata' hlog hlt hnode)), rfl,
    .single (.readerUnguard n start globalTail version val hbuffer), ?_, .refl _ _, ?_⟩
  · have hdone : Coupled
        { c with data := c.data.insert n (DT.dispatchMutSpec view entry'.op).1 }
        { u with replicas := u.replicas.insert n (DT.dispatchMutSpec view entry'.op).1 } b :=
      ⟨{ h.shared with replicas := by rw [h.shared.replicas] }, h.threads⟩
    exact hdone.goto ht (coupled_executeNext hlt hqueue _)
  · rintro _ _ _ ⟨⟩
    exact hlog

private theorem Coupled.dispatchLocal (h : Coupled c u b) (hu : UnboundedLog.Inv u)
    (hb : CyclicBuffer.Inv b) (ht : c.threads n = some t)
    (hpc : t.pc = .executeDispatch ret version globalTail)
    {entry : CyclicBuffer.ConcreteLogEntry DT} {view : DT.View}
    (hentry : (c.slog (index version)).logEntry = some entry)
    (hdata : c.data n = some view) (hnode : entry.nodeId = n) :
    Answered u b (.dispatch n version entry)
      ({ c with
        data := c.data.insert n (DT.dispatchMutSpec view entry.op).1 }.setThread n
        { t with
          pc := executeNext ret (version + 1) globalTail
          responses := t.responses ++ [(DT.dispatchMutSpec view entry.op).2] }) := by
  obtain ⟨phase, buffer, hphase, hbuffer, hc⟩ := h.exists_phases hu hb ht
  simp only [Thread.Coupled, hpc] at hc
  obtain ⟨hlt, ⟨start, val, rfl⟩, queue, idx, rfl, hqueue⟩ := hc
  obtain ⟨entry', hentry', hlog⟩ := h.guarded_entry hb hbuffer
  obtain rfl : entry' = entry := Option.some.inj (hentry'.symm.trans hentry)
  obtain ⟨rid, op, hrid, hupdate⟩ := hu.next_placed hphase hlog hlt hnode
  -- the node wrote the entry, so it queued its request
  obtain ⟨hret, rfl, hidx, hres⟩ : ret ≠ .append ∧ queue = t.requestIds ∧
      idx = t.responses.length ∧ List.Forall₂
        (fun rid res ↦ ∃ i < globalTail, u.localUpdates rid = some (.applied res i))
        (t.requestIds.take idx) t.responses := by
    rcases hqueue with hown | ⟨rfl, _⟩
    · exact hown
    · simp at hrid
  have hmem : rid ∈ t.requestIds := List.mem_of_getElem? hrid
  have hdata' : u.replicas n = some view := h.shared.replicas ▸ hdata
  have hsame : ∀ r ∉ t.requestIds, u.localUpdates.insert rid
      (.applied (DT.dispatchMutSpec view entry'.op).2 version) r = u.localUpdates r :=
    fun r hr ↦ PMap.insert_of_ne _ _ fun heq ↦ hr (heq ▸ hmem)
  have hsome : ∀ r ∈ t.requestIds, u.localUpdates.insert rid
      (.applied (DT.dispatchMutSpec view entry'.op).2 version) r ≠ none := by
    intro r hr
    by_cases heq : r = rid
    · simp [heq]
    · simpa [heq] using h.shared.update_ne_none ht hr
  refine ⟨[.internal], _, _, _, .single (.transition (.execDispatchLocal n t.requestIds version
    idx globalTail view rid _ ⟨entry'.op, entry'.nodeId⟩ hphase hdata'
    (fun r hr ↦ Option.some.inj (hrid.symm.trans hr)) hupdate hlog hlt hnode)), rfl,
    .single (.readerUnguard n start globalTail version val hbuffer), ?_, .refl _ _, ?_⟩
  · have hshared : Shared
        { c with data := c.data.insert n (DT.dispatchMutSpec view entry'.op).1 }
        { u with
          localUpdates := u.localUpdates.insert rid
            (.applied (DT.dispatchMutSpec view entry'.op).2 version)
          replicas := u.replicas.insert n (DT.dispatchMutSpec view entry'.op).1 } b :=
      { h.shared with
        replicas := by rw [h.shared.replicas]
        tickets := h.shared.tickets_of_owned ht hsame hsome }
    refine .setThread { hshared with } (h.others ht rfl (fun _ _ ↦ rfl)
      (fun _ hm ↦ PMap.insert_of_ne _ _ hm) (fun _ hm ↦ PMap.insert_of_ne _ _ hm) hsame
      (fun _ _ hi ↦ hi) fun _ _ _ _ _ _ _ _ ↦ rfl) ht (PMap.insert_self _ _ _)
      (PMap.insert_self _ _ _) ?_ rfl rfl
    have hnext : ({ t with responses := t.responses ++ [(DT.dispatchMutSpec view entry'.op).2] } :
        Thread DT).Queue (u.localUpdates.insert rid
          (.applied (DT.dispatchMutSpec view entry'.op).2 version)) ret t.requestIds (idx + 1)
          globalTail := by
      refine .inl ⟨hret, rfl, by simp [hidx], ?_⟩
      rw [List.take_add_one, hrid]
      refine List.rel_append (hres.imp ?_) (.cons ⟨version, hlt, PMap.insert_self _ _ _⟩ .nil)
      rintro r res ⟨i, hi, hr⟩
      have hne : r ≠ rid := by
        rintro rfl
        cases hupdate.symm.trans hr
      exact ⟨i, hi, (PMap.insert_of_ne _ _ hne).trans hr⟩
    exact coupled_executeNext hlt hnext _
  · rintro _ _ _ ⟨⟩
    exact hlog

private theorem Coupled.dispatch (h : Coupled c u b) (hu : UnboundedLog.Inv u)
    (hb : CyclicBuffer.Inv b) (ht : c.threads n = some t)
    (hpc : t.pc = .executeDispatch ret version globalTail)
    {entry : CyclicBuffer.ConcreteLogEntry DT} {view : DT.View}
    (hentry : (c.slog (index version)).logEntry = some entry)
    (hdata : c.data n = some view) :
    Answered u b (.dispatch n version entry)
      ({ c with
        data := c.data.insert n (DT.dispatchMutSpec view entry.op).1 }.setThread n
        { t with
          pc := executeNext ret (version + 1) globalTail
          responses := pushResponse t.responses n entry
            (DT.dispatchMutSpec view entry.op).2 }) := by
  rw [pushResponse]
  split
  · next hnode => exact h.dispatchLocal hu hb ht hpc hentry hdata hnode
  · next hnode => exact h.dispatchRemote hu hb ht hpc hentry hdata hnode

private theorem exists_updateDone_run {rids : List ReqId} {rets : List DT.Response}
    (u : UnboundedLog.State DT) (hnodup : rids.Nodup)
    (happlied : List.Forall₂ (fun rid ret ↦ ∃ i < u.versionUpperBound,
      u.localUpdates rid = some (.applied ret i)) rids rets) :
    ∃ ms updates, (UnboundedLog.machine DT).Run u ms { u with localUpdates := updates } ∧
      ms.filter AsyncLabel.visible = [] ∧
      (∀ rid ∉ rids, updates rid = u.localUpdates rid) ∧
      List.Forall₂ (fun rid ret ↦ ∃ i, updates rid = some (.done ret i)) rids rets := by
  induction rids generalizing u rets with
  | nil =>
    cases happlied
    exact ⟨[], u.localUpdates, .nil u, rfl, fun _ _ ↦ rfl, .nil⟩
  | cons rid rids ih =>
    cases happlied with
    | @cons _ ret _ rets hrid hrest =>
      obtain ⟨i, hi, hupdate⟩ := hrid
      obtain ⟨hnew, hnodup⟩ := List.nodup_cons.mp hnodup
      have hstep := UnboundedLog.Transition.updateDone rid ret i hupdate hi
      have hrest' : List.Forall₂ (fun r x ↦ ∃ k < u.versionUpperBound,
          u.localUpdates.insert rid (.done ret i) r = some (.applied x k)) rids rets :=
        forall₂_frame (P := fun s x ↦ ∃ k < u.versionUpperBound, s = some (.applied x k))
          (fun r hr ↦ PMap.insert_of_ne _ _ (ne_of_mem_of_not_mem hr hnew)) hrest
      obtain ⟨ms, updates, hrun, hms, hsame, hdone⟩ :=
        ih { u with localUpdates := u.localUpdates.insert rid (.done ret i) } hnodup hrest'
      refine ⟨.internal :: ms, updates, .cons (.transition hstep) hrun, hms, fun r hr ↦ ?_,
        .cons ⟨i, ?_⟩ hdone⟩
      · rw [List.mem_cons, not_or] at hr
        rw [hsame r hr.2]
        exact PMap.insert_of_ne _ _ hr.1
      · rw [hsame rid hnew]
        exact PMap.insert_self _ _ _

/-- Raising the version upper bound lets the batch's requests be done. -/
theorem Coupled.fetchMax (h : Coupled c u b) (hu : UnboundedLog.Inv u)
    (hb : CyclicBuffer.Inv b) (ht : c.threads n = some t)
    (hpc : t.pc = .executeFetchMax ret globalTail) :
    Answered u b .internal
      ({ c with versionUpperBound := max c.versionUpperBound globalTail }.goto n t
        (.executeStoreLocal ret globalTail)) := by
  obtain ⟨phase, buffer, hphase, hbuffer, hc⟩ := h.exists_phases hu hb ht
  simp only [Thread.Coupled, hpc] at hc
  obtain ⟨⟨start, rfl⟩, queue, idx, rfl, hqueue⟩ := hc
  have hraise := UnboundedLog.Transition.execUpdateVersionUpperBound n queue globalTail idx
    globalTail hphase rfl
  have hmax : (if globalTail ≤ u.versionUpperBound then u.versionUpperBound else globalTail) =
      max c.versionUpperBound globalTail := by
    rw [← h.shared.versionUpperBound, max_comm, max_def]
  rw [hmax] at hraise
  have hraised : Coupled { c with versionUpperBound := max c.versionUpperBound globalTail }
      { u with versionUpperBound := max c.versionUpperBound globalTail } b :=
    ⟨{ h.shared with versionUpperBound := rfl }, h.threads⟩
  rcases hqueue with ⟨hret, rfl, hidx, hres⟩ | ⟨rfl, hwait⟩
  · obtain ⟨v, hv⟩ := hu.exists_version hphase
    have hwf := hu.combiner_wf n _ v hphase hv
    rw [hwf.all_answered, List.take_length] at hres
    have hres' : List.Forall₂ (fun rid ret ↦ ∃ i < max c.versionUpperBound globalTail,
        u.localUpdates rid = some (.applied ret i)) t.requestIds t.responses :=
      hres.imp fun rid x hx ↦ by
        obtain ⟨i, hi, hx⟩ := hx
        exact ⟨i, lt_max_of_lt_right hi, hx⟩
    obtain ⟨ms, updates, hrun, hms, hsame, hdone⟩ := exists_updateDone_run
      { u with
        versionUpperBound := max c.versionUpperBound globalTail
        combiner := u.combiner.insert n (.updatedVersion t.requestIds globalTail) }
      (h.shared.nodup n t ht) hres'
    have hsome : ∀ rid ∈ t.requestIds, updates rid ≠ none := by
      intro rid hrid hnone
      obtain ⟨ret', i, hi⟩ := exists_of_forall₂ hdone hrid
      cases hnone.symm.trans hi
    refine ⟨.internal :: ms, _, [], b, .cons (.transition hraise) hrun, hms, .nil b, ?_,
      .refl _ _, dispatchesLog_internal _⟩
    refine .setThread
      { h.shared with
        versionUpperBound := rfl
        tickets := h.shared.tickets_of_owned ht hsame hsome }
      (h.others ht rfl (fun _ _ ↦ rfl) (fun _ hm ↦ PMap.insert_of_ne _ _ hm) (fun _ _ ↦ rfl)
        hsame (fun _ _ hi ↦ hi) fun _ _ _ _ _ _ _ _ ↦ rfl)
      ht (PMap.insert_self _ _ _) hbuffer ?_ rfl rfl
    simp only [Thread.Coupled]
    refine ⟨⟨start, rfl⟩, ⟨t.requestIds, rfl, fun _ hr ↦ hr⟩, ?_⟩
    cases ret with
    | append => exact absurd rfl hret
    | advanceHead => exact hdone
    | combine => exact hdone
  · refine ⟨[.internal], _, [], b, .single (.transition hraise), rfl, .nil b, ?_, .refl _ _,
      dispatchesLog_internal _⟩
    refine .setThread { h.shared with versionUpperBound := rfl }
      (h.others ht rfl (fun _ _ ↦ rfl) (fun _ hm ↦ PMap.insert_of_ne _ _ hm) (fun _ _ ↦ rfl)
        (fun _ _ ↦ rfl) (fun _ _ hi ↦ hi) fun _ _ _ _ _ _ _ _ ↦ rfl)
      ht (PMap.insert_self _ _ _) hbuffer ?_ rfl rfl
    simp only [Thread.Coupled]
    exact ⟨⟨start, rfl⟩, ⟨[], rfl, List.nil_subset _⟩, hwait⟩

/-- Publishing the replica's version ends the call. -/
theorem Coupled.storeLocal (h : Coupled c u b) (hu : UnboundedLog.Inv u)
    (hb : CyclicBuffer.Inv b) (ht : c.threads n = some t)
    (hpc : t.pc = .executeStoreLocal ret globalTail) :
    Answered u b .internal
      ({ c with localVersions := c.localVersions.insert n globalTail }.goto n t ret.resume) := by
  obtain ⟨phase, buffer, hphase, hbuffer, hc⟩ := h.exists_phases hu hb ht
  simp only [Thread.Coupled, hpc] at hc
  obtain ⟨⟨start, rfl⟩, ⟨queue, rfl, _⟩, hwait⟩ := hc
  obtain ⟨v, hv⟩ := hu.exists_version hphase
  obtain ⟨v', hv'⟩ := hb.exists_version hbuffer
  have hstored : Coupled { c with localVersions := c.localVersions.insert n globalTail }
      { u with localVersions := u.localVersions.insert n globalTail }
      { b with localVersions := b.localVersions.insert n globalTail } :=
    ⟨{ h.shared with
        localVersions := by rw [h.shared.localVersions]
        buffer_localVersions := by rw [h.shared.buffer_localVersions] }, h.threads⟩
  exact .both (.execFinish n queue globalTail v hphase hv) rfl
    (.readerFinish n start globalTail globalTail v' hbuffer hv' rfl)
    (hstored.goto ht (coupled_resume hwait _))

end Execute

/-- Every step of a combiner thread is answered. -/
theorem Coupled.combiner {label : Label DT} (h : Coupled c u b) (hu : UnboundedLog.Inv u)
    (hb : CyclicBuffer.Inv b) (ht : c.threads n = some t)
    (hstep : CombinerStep n t c label c') : Answered u b label c' := by
  cases hstep with
  | appendLoadTail hpc => exact h.appendLoadTail hu hb ht hpc
  | appendLoadHead tail hpc => exact h.appendLoadHead hu hb ht hpc
  | reserve tail advance hpc htail => exact h.reserve hu hb ht hpc htail
  | reserveFail tail advance hpc => exact h.reserveFail hu hb ht hpc
  | writeEntry tail idx advance op hpc hop => exact h.writeEntry hu hb ht hpc hop
  | storeAlive tail idx advance hpc => exact h.storeAlive hu hb ht hpc
  | advanceLoadHead hpc => exact h.advanceLoadHead hu hb ht hpc
  | advanceLoadTail globalHead hpc => exact h.advanceLoadTail hu hb ht hpc
  | advanceLoadFirst globalHead globalTail version hpc hlocal =>
    exact h.advanceLoadFirst hu hb ht hpc hlocal
  | advanceLoadNext globalHead globalTail least idx version hpc hlocal =>
    exact h.advanceLoadNext hu hb ht hpc hlocal
  | storeHead globalTail least hpc => exact h.storeHead hu hb ht hpc
  | executeLoadLocal ret version hpc hlocal => exact h.executeLoadLocal hu hb ht hpc hlocal
  | executeLoadTail ret version hpc => exact h.executeLoadTail hu hb ht hpc
  | executeLoadAlive ret version globalTail hpc => exact h.executeLoadAlive hu hb ht hpc
  | dispatch ret version globalTail entry view hpc hentry hdata =>
    exact h.dispatch hu hb ht hpc hentry hdata
  | dispatchPanic ret version globalTail hpc hentry =>
    obtain ⟨phase, buffer, _, hbuffer, hc⟩ := h.exists_phases hu hb ht
    simp only [Thread.Coupled, hpc] at hc
    obtain ⟨_, ⟨start, val, rfl⟩, _⟩ := hc
    obtain ⟨entry, hsome, _⟩ := h.guarded_entry hb hbuffer
    cases hentry.symm.trans hsome
  | fetchMax ret globalTail hpc => exact h.fetchMax hu hb ht hpc
  | storeLocal ret globalTail hpc => exact h.storeLocal hu hb ht hpc

section Clients

variable {rid : ReqId}

private theorem Coupled.insertReader (h : Coupled c u b) {r : Reader DT}
    {r' : UnboundedLog.ReadonlyState DT} (hr : ReaderCoupled (some r) (some r')) :
    Coupled { c with readers := c.readers.insert rid r }
      { u with localReads := u.localReads.insert rid r' } b := by
  refine h.setReaders fun k ↦ ?_
  by_cases hk : k = rid
  · simpa [hk] using hr
  · simpa [hk] using h.shared.readers k

private theorem Coupled.ready_of_unlocked (h : Coupled c u b) (hu : UnboundedLog.Inv u)
    (hb : CyclicBuffer.Inv b) (ht : c.threads n = some t) (hlock : ¬ t.pc.Locked) :
    u.combiner n = some .ready := by
  obtain ⟨phase, buffer, hphase, _, hc⟩ := h.exists_phases hu hb ht
  simp only [Thread.Coupled] at hc
  cases hpc : t.pc with
  | idle =>
    simp only [hpc] at hc
    exact hc.1 ▸ hphase
  | finished =>
    simp only [hpc] at hc
    exact hc.1 ▸ hphase
  | _ =>
    rw [hpc] at hlock
    exact absurd trivial hlock

private theorem Coupled.reader (h : Coupled c u b) (hu : UnboundedLog.Inv u)
    (hb : CyclicBuffer.Inv b) (hstep : ReaderStep rid c c') : Answered u b .internal c' := by
  cases hstep with
  | getVersionUpperBound op nodeId hread =>
    have hr := h.shared.readers rid
    rw [hread] at hr
    refine .log (.transition (.readonlyVersionUpperBound rid op nodeId hr)) rfl
      (dispatchesLog_internal _) (h.insertReader ?_)
    rw [h.shared.versionUpperBound]
    exact rfl
  | isReplicaSyncedForReads op nodeId versionUpperBound version hread hlocal =>
    have hr := h.shared.readers rid
    rw [hread] at hr
    split
    · next hsync =>
      refine .log (.transition (.readonlyReadyToRead rid op nodeId versionUpperBound version hr
        (h.shared.localVersions ▸ hlocal) hsync)) rfl (dispatchesLog_internal _)
        (h.insertReader ?_)
      exact rfl
    · rw [PMap.insert_of_eq_some hread]
      exact .still h
  | apply op nodeId versionUpperBound t view hread hthread hlock hdata =>
    have hr := h.shared.readers rid
    rw [hread] at hr
    exact .log (.transition (.readonlyApply rid op nodeId versionUpperBound view hr
      (h.ready_of_unlocked hu hb hthread hlock) (h.shared.replicas ▸ hdata))) rfl
      (dispatchesLog_internal _) (h.insertReader ⟨op, nodeId, versionUpperBound, rfl⟩)

private theorem Coupled.startRead (h : Coupled c u b) (hu : UnboundedLog.Inv u)
    (hb : CyclicBuffer.Inv b) {op : DT.ReadOperation} {nodeId : NodeId}
    (hreaders : c.readers rid = none) (htickets : c.tickets rid = none) :
    Answered u b (.start rid (.read op nodeId))
      { c with readers := c.readers.insert rid (.called op nodeId) } := by
  refine .log (.addTicket rid _ (h.freshRid hu hb hreaders htickets)) rfl nofun
    (h.insertReader ?_)
  exact rfl

private theorem Coupled.startWrite (h : Coupled c u b) (hu : UnboundedLog.Inv u)
    (hb : CyclicBuffer.Inv b) {op : DT.WriteOperation} (hreaders : c.readers rid = none)
    (htickets : c.tickets rid = none) :
    Answered u b (.start rid (.write op))
      { c with tickets := c.tickets.insert rid (.pending op) } := by
  refine .log (.addTicket rid _ (h.freshRid hu hb hreaders htickets)) rfl nofun
    (h.setTickets (fun k ↦ ?_) fun n t k ht hk ↦ ?_)
  · by_cases hk : k = rid
    · simp [hk, TicketCoupled]
    · simpa [hk] using h.shared.tickets k
  · have hne : k ≠ rid := by
      rintro rfl
      cases htickets.symm.trans (h.shared.owned n t k ht hk)
    exact ⟨PMap.insert_of_ne _ _ hne, PMap.insert_of_ne _ _ hne⟩

private theorem Coupled.doneRead (h : Coupled c u b) {ret : DT.Response}
    (hread : c.readers rid = some (.returned ret)) :
    Answered u b (.done rid (.read ret)) { c with readers := c.readers.remove rid } := by
  have hr := h.shared.readers rid
  rw [hread] at hr
  obtain ⟨op, nodeId, version, hr⟩ := hr
  refine .log (.consumeRead rid op nodeId version ret hr) rfl nofun (h.setReaders fun k ↦ ?_)
  by_cases hk : k = rid
  · simp [hk, ReaderCoupled]
  · simpa [hk] using h.shared.readers k

private theorem Coupled.doneWrite (h : Coupled c u b) {ret : DT.Response}
    (hticket : c.tickets rid = some (.answered ret)) :
    Answered u b (.done rid (.write ret)) { c with tickets := c.tickets.remove rid } := by
  have hw := h.shared.tickets rid
  rw [hticket] at hw
  obtain ⟨idx, hw⟩ := hw
  refine .log (.consumeUpdate rid ret idx hw) rfl nofun
    (h.setTickets (fun k ↦ ?_) fun n t k ht hk ↦ ?_)
  · by_cases hk : k = rid
    · simp [hk, TicketCoupled]
    · simpa [hk] using h.shared.tickets k
  · have hne : k ≠ rid := by
      rintro rfl
      cases hticket.symm.trans (h.shared.owned n t k ht hk)
    exact ⟨PMap.remove_of_ne _ hne, PMap.remove_of_ne _ hne⟩

end Clients

section Combine

/-- While a thread is idle, so are both machines for it. -/
theorem Coupled.ready_of_idle (h : Coupled c u b) (hu : UnboundedLog.Inv u)
    (hb : CyclicBuffer.Inv b) (ht : c.threads n = some t) (hidle : t.pc = .idle) :
    u.combiner n = some .ready ∧ b.combiner n = some .idle := by
  obtain ⟨phase, buffer, hphase, hbuffer, hc⟩ := h.exists_phases hu hb ht
  simp only [Thread.Coupled, hidle] at hc
  obtain ⟨rfl, rfl⟩ := hc
  exact ⟨hphase, hbuffer⟩

/-- Collecting pending requests starts an append. -/
theorem Coupled.collectRequests (h : Coupled c u b) (hu : UnboundedLog.Inv u)
    (hb : CyclicBuffer.Inv b)
    (ht : c.threads n = some t) (hpc : t.pc = .idle) {requestIds : List ReqId}
    {operations : List DT.WriteOperation} (hnodup : requestIds.Nodup)
    (hmax : operations.length ≤ maxRequests)
    (htickets : List.Forall₂ (fun rid op ↦ c.tickets rid = some (.pending op)) requestIds
      operations) :
    Answered u b .internal
      ({ c with tickets := collect c.tickets n requestIds }.setThread n
        ⟨.appendLoadTail, requestIds, operations, []⟩) := by
  obtain ⟨hphase, hbuffer⟩ := h.ready_of_idle hu hb ht hpc
  have hpending : ∀ rid ∈ requestIds, ∃ op, c.tickets rid = some (.pending op) :=
    fun rid hrid ↦ exists_of_forall₂ htickets hrid
  have hinit : List.Forall₂ (fun rid op ↦ u.localUpdates rid = some (.init op)) requestIds
      operations := by
    refine htickets.imp fun rid op hop ↦ ?_
    have hw := h.shared.tickets rid
    rwa [hop] at hw
  have hset : Coupled { c with tickets := collect c.tickets n requestIds } u b := by
    refine h.setTickets (fun rid ↦ ?_) fun m s rid hs hrid ↦ ⟨?_, rfl⟩
    · rw [collect]
      split
      · next hrid =>
        obtain ⟨op, hop⟩ := hpending rid hrid
        have hw := h.shared.tickets rid
        rw [hop] at hw
        change u.localUpdates rid ≠ none
        rw [hw]
        simp
      · exact h.shared.tickets rid
    · refine if_neg fun hmem ↦ ?_
      obtain ⟨op, hop⟩ := hpending rid hmem
      cases hop.symm.trans (h.shared.owned m s rid hs hrid)
  refine .still (.replaceThread hset.shared (fun m _ ↦ hset.threads m) ht hphase hbuffer ?_
    (fun rid hrid ↦ if_pos hrid) hnodup hmax)
  simp only [Thread.Coupled]
  exact ⟨trivial, trivial, rfl, hinit⟩

private theorem Coupled.callExecute (h : Coupled c u b) (hu : UnboundedLog.Inv u)
    (hb : CyclicBuffer.Inv b) (ht : c.threads n = some t) (hpc : t.pc = .idle) :
    Answered u b .internal (c.setThread n ⟨.executeLoadLocal .combine, [], [], []⟩) := by
  obtain ⟨hphase, hbuffer⟩ := h.ready_of_idle hu hb ht hpc
  refine .still (.replaceThread h.shared (fun m _ ↦ h.threads m) ht hphase hbuffer ?_ nofun
    List.nodup_nil (Nat.zero_le _))
  simp only [Thread.Coupled]
  exact ⟨trivial, .inr ⟨trivial, .nil⟩⟩

private theorem ticketCoupled_distribute {updates : PMap ReqId (UnboundedLog.UpdateState DT)}
    {rids : List ReqId} {rets : List DT.Response}
    (hans : List.Forall₂ (fun rid ret ↦ ∃ idx, updates rid = some (.done ret idx)) rids rets)
    {tickets : PMap ReqId (Ticket DT)} (htickets : ∀ rid, TicketCoupled (tickets rid) (updates rid))
    (rid : ReqId) : TicketCoupled (distribute tickets (rids.zip rets) rid) (updates rid) := by
  induction hans generalizing tickets with
  | nil => exact htickets rid
  | @cons r ret rids rets hr _ ih =>
    refine ih fun k ↦ ?_
    by_cases hk : k = r
    · simpa [hk, TicketCoupled] using hr
    · simpa [hk] using htickets k

/-- Handing responses out leaves the tickets of other requests. -/
theorem distribute_of_not_mem {rids : List ReqId} {rets : List DT.Response}
    {tickets : PMap ReqId (Ticket DT)} {rid : ReqId} (hrid : rid ∉ rids) :
    distribute tickets (rids.zip rets) rid = tickets rid := by
  induction rids generalizing rets tickets with
  | nil => rfl
  | cons r rids ih =>
    rw [List.mem_cons, not_or] at hrid
    cases rets with
    | nil => rfl
    | cons ret rets => exact (ih hrid.2).trans (PMap.insert_of_ne _ _ hrid.1)

/-- Every response goes to its request. -/
theorem distribute_zip {rids : List ReqId} {rets : List DT.Response} (hnodup : rids.Nodup)
    (hlength : rids.length = rets.length) (tickets : PMap ReqId (Ticket DT)) :
    List.Forall₂ (fun rid ret ↦
      distribute tickets (rids.zip rets) rid = some (.answered ret)) rids rets := by
  induction rids generalizing rets tickets with
  | nil =>
    cases rets with
    | nil => exact .nil
    | cons => cases hlength
  | cons rid rids ih =>
    cases rets with
    | nil => cases hlength
    | cons ret rets =>
      obtain ⟨hrid, hnodup⟩ := List.nodup_cons.mp hnodup
      refine .cons ?_ (ih hnodup (Nat.succ.inj hlength) _)
      exact (distribute_of_not_mem hrid).trans (PMap.insert_self _ _ _)

/-- Handing out the responses answers the requests with the results of the log. -/
theorem Coupled.distributeResponses (h : Coupled c u b) (hu : UnboundedLog.Inv u)
    (hb : CyclicBuffer.Inv b) (ht : c.threads n = some t) (hpc : t.pc = .finished) :
    Answered u b .internal
      ({ c with
        tickets := distribute c.tickets (t.requestIds.zip t.responses) }.setThread n
        (.idle DT)) := by
  obtain ⟨phase, buffer, hphase, hbuffer, hc⟩ := h.exists_phases hu hb ht
  simp only [Thread.Coupled, hpc] at hc
  obtain ⟨rfl, rfl, hans⟩ := hc
  have hidle : Coupled (c.setThread n (.idle DT)) u b := by
    refine .replaceThread h.shared (fun m _ ↦ h.threads m) ht hphase hbuffer ?_ nofun
      List.nodup_nil (Nat.zero_le _)
    simp only [Thread.Coupled, Thread.idle]
    exact ⟨trivial, trivial⟩
  refine .still (hidle.setTickets (ticketCoupled_distribute hans h.shared.tickets)
    fun m s rid hs hrid ↦ ⟨distribute_of_not_mem fun hmem ↦ ?_, rfl⟩)
  rcases (PMap.insert_eq_some _ _ _ _ _).mp hs with ⟨_, rfl⟩ | ⟨hne, hold⟩
  · cases hrid
  · exact h.shared.not_mem_of_ne hne ht hold hrid hmem

end Combine

/-- Every step of the executable log is answered. -/
theorem Coupled.next {label : Label DT} (h : Coupled c u b) (hu : UnboundedLog.Inv u)
    (hb : CyclicBuffer.Inv b) (hstep : Next c label c') : Answered u b label c' := by
  cases hstep with
  | combiner nodeId t hthread hstep => exact h.combiner hu hb hthread hstep
  | reader rid hstep => exact h.reader hu hb hstep
  | startRead rid op nodeId hreaders htickets => exact h.startRead hu hb hreaders htickets
  | startWrite rid op hreaders htickets => exact h.startWrite hu hb hreaders htickets
  | doneRead rid ret hread => exact h.doneRead hread
  | doneWrite rid ret hticket => exact h.doneWrite hticket
  | collect nodeId t requestIds operations hthread hpc hnodup hmax htickets =>
    exact h.collectRequests hu hb hthread hpc hnodup hmax htickets
  | callExecute nodeId t hthread hpc => exact h.callExecute hu hb hthread hpc
  | distribute nodeId t hthread hpc => exact h.distributeResponses hu hb hthread hpc

end NrLog

end NrKernel.NodeReplication
