import NrKernel.NodeReplication.ReplicaRefinesNrLog

/-!
# Requests along a run

What the labels of a run say about its requests: which operations are in the log, where the log
has an update, and which updates had returned when a read was called. Next to the executable log
this gives the version a read waits for: it lies above the log index of every update that had
returned before.
-/

namespace NrKernel.NodeReplication

open Lib

universe u

namespace Replica

variable {DT : Dispatch.{u}}

/-! ## Labels -/

/-- The batch a step reserves a range for. -/
def Label.batch : Label DT → Option (Batch DT)
  | .reserve batch => some batch
  | _ => none

/-- The batches of a run, in the order of their places in the log. -/
def batches (labels : List (Label DT)) : List (Batch DT) := labels.filterMap Label.batch

/-- The operations in the log, first to last. -/
def appended (labels : List (Label DT)) : List DT.WriteOperation :=
  (batches labels).flatMap Batch.operations

/-- The index behind the last one of a batch. -/
def Batch.stop (batch : Batch DT) : Nat := batch.tail + batch.operations.length

/-- The call a request is at: the last one under its id, with the labels before and after. -/
def Called (labels : List (Label DT)) (rid : ReqId) (input : InputOperation DT)
    (before after : List (Label DT)) : Prop :=
  labels = before ++ .start rid input :: after ∧ ∀ input', .start rid input' ∉ after

/-- The request is at a call of `execute_mut` with an operation. -/
def Started (labels : List (Label DT)) (rid : ReqId) (op : DT.WriteOperation) : Prop :=
  ∃ before after, Called labels rid (.write op) before after

/-- Since its call, the operation of an update got its place in the log. -/
def LoggedAt (labels : List (Label DT)) (rid : ReqId) (op : DT.WriteOperation) (idx : Nat) :
    Prop :=
  ∃ before after batch j, Called labels rid (.write op) before after ∧
    batch ∈ batches after ∧ batch.requestIds[j]? = some rid ∧
    batch.operations[j]? = some op ∧ idx = batch.tail + j

/-- Every update whose `execute_mut` returned is in the log, at an index below the version. -/
def CompletedBelow (labels : List (Label DT)) (version : Nat) : Prop :=
  ∀ before after rid ret, labels = before ++ .done rid (.write ret) :: after →
    (∃ op idx, LoggedAt before rid op idx) ∧
      ∀ op idx, LoggedAt before rid op idx → idx < version

section Labels

variable {labels before after : List (Label DT)} {label : Label DT} {rid : ReqId}
  {input : InputOperation DT} {op : DT.WriteOperation} {idx version version' : Nat}

/-- The batches of a run are those of its parts. -/
@[simp] theorem batches_append (labels labels' : List (Label DT)) :
    batches (labels ++ labels') = batches labels ++ batches labels' :=
  List.filterMap_append

private theorem batches_cons (label : Label DT) (labels : List (Label DT)) :
    batches (label :: labels) = label.batch.toList ++ batches labels := by
  unfold batches
  cases h : label.batch with
  | none => rw [List.filterMap_cons_none h]; rfl
  | some batch => rw [List.filterMap_cons_some h]; rfl

/-- The batch of a single label. -/
@[simp] theorem batches_single (label : Label DT) : batches [label] = label.batch.toList := by
  rw [batches_cons]
  exact List.append_nil _

/-- The operations a run appends are those of its parts. -/
@[simp] theorem appended_append (labels labels' : List (Label DT)) :
    appended (labels ++ labels') = appended labels ++ appended labels' := by
  rw [appended, batches_append, List.flatMap_append]
  rfl

private theorem appended_snoc_none (h : label.batch = none) :
    appended (labels ++ [label]) = appended labels := by
  have hnil : appended [label] = [] := by
    rw [appended, batches_single, h]
    rfl
  rw [appended_append, hnil, List.append_nil]

private theorem appended_snoc_some {batch : Batch DT} (h : label.batch = some batch) :
    appended (labels ++ [label]) = appended labels ++ batch.operations := by
  have hsingle : appended [label] = batch.operations := by
    rw [appended, batches_single, h]
    exact List.append_nil _
  rw [appended_append, hsingle]

private theorem Called.snoc (h : Called labels rid input before after)
    (hlabel : ∀ input', label ≠ .start rid input') :
    Called (labels ++ [label]) rid input before (after ++ [label]) := by
  refine ⟨by rw [h.1, List.append_assoc, List.cons_append], fun input' hmem ↦ ?_⟩
  rcases List.mem_append.mp hmem with hold | hlast
  · exact h.2 input' hold
  · exact hlabel input' (List.mem_singleton.mp hlast).symm

private theorem called_snoc (labels : List (Label DT)) (rid : ReqId) (input : InputOperation DT) :
    Called (labels ++ [.start rid input]) rid input labels [] :=
  ⟨rfl, nofun⟩

private theorem Started.snoc (h : Started labels rid op)
    (hlabel : ∀ input', label ≠ .start rid input') : Started (labels ++ [label]) rid op := by
  obtain ⟨before, after, hcalled⟩ := h
  exact ⟨before, after ++ [label], hcalled.snoc hlabel⟩

private theorem LoggedAt.snoc (h : LoggedAt labels rid op idx)
    (hlabel : ∀ input', label ≠ .start rid input') : LoggedAt (labels ++ [label]) rid op idx := by
  obtain ⟨before, after, batch, j, hcalled, hbatch, hrest⟩ := h
  refine ⟨before, after ++ [label], batch, j, hcalled.snoc hlabel, ?_, hrest⟩
  rw [batches_append]
  exact List.mem_append_left _ hbatch

/-- A reservation gives the operation of a request of its batch a place. -/
theorem Started.reserve (h : Started labels rid op) {batch : Batch DT} {j : Nat}
    (hrid : batch.requestIds[j]? = some rid) (hop : batch.operations[j]? = some op) :
    LoggedAt (labels ++ [.reserve batch]) rid op (batch.tail + j) := by
  obtain ⟨before, after, hcalled⟩ := h
  refine ⟨before, after ++ [.reserve batch], batch, j,
    hcalled.snoc (by rintro _ ⟨⟩), ?_, hrid, hop, rfl⟩
  rw [batches_append]
  exact List.mem_append_right _ List.mem_cons_self

/-- A logged operation is in one of the batches. -/
theorem LoggedAt.exists_batch (h : LoggedAt labels rid op idx) :
    ∃ batch ∈ batches labels, ∃ j, batch.requestIds[j]? = some rid ∧
      batch.operations[j]? = some op ∧ idx = batch.tail + j := by
  obtain ⟨before, after, batch, j, ⟨rfl, _⟩, hbatch, hrest⟩ := h
  refine ⟨batch, ?_, j, hrest⟩
  rw [batches_append, batches_cons]
  exact List.mem_append_right _ (List.mem_append_right _ hbatch)

private theorem CompletedBelow.mono (h : CompletedBelow labels version) (hle : version ≤ version') :
    CompletedBelow labels version' :=
  fun before after rid ret heq ↦ ⟨(h before after rid ret heq).1,
    fun op idx hidx ↦ ((h before after rid ret heq).2 op idx hidx).trans_le hle⟩

private theorem CompletedBelow.snoc (h : CompletedBelow labels version)
    (hlabel : ∀ rid ret, label = .done rid (.write ret) →
      (∃ op idx, LoggedAt labels rid op idx) ∧ ∀ op idx, LoggedAt labels rid op idx →
        idx < version) : CompletedBelow (labels ++ [label]) version := by
  intro before after rid ret heq
  rcases snoc_eq_append_cons heq with ⟨rfl, hdone, _⟩ | ⟨after', _, hold⟩
  · exact hlabel rid ret hdone.symm
  · exact h before after' rid ret hold

end Labels

/-! ## History -/

/-- The batches follow one another up to the tail. -/
structure Positions (labels : List (Label DT)) (tail : Nat) : Prop where
  length_eq : (appended labels).length = tail
  stop_le : ∀ batch ∈ batches labels, batch.stop ≤ tail
  getElem_eq : ∀ batch ∈ batches labels, ∀ j op, batch.operations[j]? = some op →
    (appended labels)[batch.tail + j]? = some op

/-- Every batch is below a published version, or its combiner thread still owes that. -/
def Settled (labels : List (Label DT)) (log : NrLog.State DT) : Prop :=
  ∀ batch ∈ batches labels, batch.stop ≤ log.versionUpperBound ∨
    ∃ t, log.threads batch.nodeId = some t ∧ t.requestIds = batch.requestIds ∧
      t.pc.Owes batch.stop

/-- Where the updates stand that the log knows. -/
structure Updates (labels : List (Label DT)) (log : NrLog.State DT) : Prop where
  pending : ∀ rid op, log.tickets rid = some (.pending op) → Started labels rid op
  answered : ∀ rid ret, log.tickets rid = some (.answered ret) →
    ∃ op idx, LoggedAt labels rid op idx
  reserving : ∀ n t, log.threads n = some t → t.pc.Reserving →
    List.Forall₂ (Started labels) t.requestIds t.operations
  reserved : ∀ n t, log.threads n = some t → t.pc.Reserved → ∀ rid ∈ t.requestIds,
    ∃ op idx, LoggedAt labels rid op idx

/-- What a read has seen of the updates that had returned when it was called. -/
def ReadSince (labels : List (Label DT)) (rid : ReqId) : NrLog.Reader DT → Prop
  | .called op n => ∃ before after, Called labels rid (.read op n) before after
  | .syncing op n version =>
    ∃ before after, Called labels rid (.read op n) before after ∧ CompletedBelow before version
  | .synced op n version =>
    ∃ before after, Called labels rid (.read op n) before after ∧ CompletedBelow before version
  | .returned _ => True

/-- The log's abstract counterpart holds the operations that were appended. -/
def Recorded (labels : List (Label DT)) (log : NrLog.State DT) : Prop :=
  ∃ u, NrLog.Implements log u ∧
    ∀ i entry, u.log i = some entry → (appended labels)[i]? = some entry.op

/-- A run's labels next to the log it ends in. -/
structure History (labels : List (Label DT)) (log : NrLog.State DT) : Prop where
  positions : Positions labels log.tail
  recorded : Recorded labels log
  settled : Settled labels log
  updates : Updates labels log
  completed : CompletedBelow labels log.versionUpperBound
  readers : ∀ rid r, log.readers rid = some r → ReadSince labels rid r

section Steps

variable {labels : List (Label DT)} {log log' : NrLog.State DT} {label : Label DT}
  {l : NrLog.Label DT} {rid : ReqId} {tail : Nat}

/-- The label of a step of the log has the batch the step reserves. -/
theorem Shows.batch_cases (h : Shows log label l) :
    label.batch = none ∧ l.placement = none ∨
      ∃ n tail operations t, l = .reserve n tail operations ∧ log.threads n = some t ∧
        label = .reserve ⟨n, tail, t.requestIds, operations⟩ := by
  cases l with
  | reserve n tail operations =>
    obtain ⟨t, ht, hlabel⟩ := h
    exact .inr ⟨n, tail, operations, t, rfl, ht, hlabel⟩
  | internal => exact .inl ⟨by rw [show label = .internal from h]; rfl, rfl⟩
  | dispatch => exact .inl ⟨by rw [show label = .internal from h]; rfl, rfl⟩
  | start rid input => exact .inl ⟨by rw [show label = .start rid input from h]; rfl, rfl⟩
  | done rid output => exact .inl ⟨by rw [show label = .done rid output from h]; rfl, rfl⟩

private theorem Positions.snoc_none (h : Positions labels tail) (hbatch : label.batch = none) :
    Positions (labels ++ [label]) tail := by
  have hbatches : batches (labels ++ [label]) = batches labels := by
    rw [batches_append, batches_single, hbatch]
    exact List.append_nil _
  refine ⟨?_, ?_, ?_⟩
  · rw [appended_snoc_none hbatch]
    exact h.length_eq
  · rw [hbatches]
    exact h.stop_le
  · rw [hbatches, appended_snoc_none hbatch]
    exact h.getElem_eq

private theorem Positions.snoc_some (h : Positions labels tail) {batch : Batch DT}
    (htail : batch.tail = tail) :
    Positions (labels ++ [.reserve batch]) batch.stop := by
  have happended : appended (labels ++ [.reserve batch]) = appended labels ++ batch.operations :=
    appended_snoc_some rfl
  have hmem : ∀ b ∈ batches (labels ++ [.reserve batch]), b ∈ batches labels ∨ b = batch := by
    intro b hb
    rw [batches_append] at hb
    exact (List.mem_append.mp hb).imp id List.mem_singleton.mp
  refine ⟨?_, fun b hb ↦ ?_, fun b hb j op hop ↦ ?_⟩
  · rw [happended, List.length_append, h.length_eq, Batch.stop, htail]
  · rcases hmem b hb with hold | rfl
    · exact (h.stop_le b hold).trans (htail ▸ Nat.le_add_right _ _)
    · exact Nat.le_refl _
  · rw [happended]
    rcases hmem b hb with hold | rfl
    · have hget := h.getElem_eq b hold j op hop
      rw [List.getElem?_append_left (List.getElem?_eq_some_iff.mp hget).1]
      exact hget
    · rw [List.getElem?_append_right (by rw [h.length_eq, htail]; exact Nat.le_add_right _ _),
        h.length_eq, htail, Nat.add_sub_cancel_left]
      exact hop

private theorem Positions.next (h : Positions labels log.tail) (hstep : NrLog.Next log l log')
    (hshows : Shows log label l) : Positions (labels ++ [label]) log'.tail := by
  rcases hshows.batch_cases with ⟨hbatch, hplacement⟩ | ⟨n, tail, operations, t, rfl, ht, rfl⟩
  · rcases hstep.tail_eq with ⟨_, htail⟩ | ⟨p, hp, _⟩
    · rw [htail]
      exact h.snoc_none hbatch
    · cases hplacement.symm.trans hp
  · rcases hstep.tail_eq with ⟨hnone, _⟩ | ⟨p, hp, hptail, htail⟩
    · cases hnone
    · cases hp
      rw [htail, ← hptail]
      exact h.snoc_some hptail

private theorem Recorded.next (h : Recorded labels log) (hpositions : Positions labels log.tail)
    (hstep : NrLog.Next log l log') (hshows : Shows log label l) :
    Recorded (labels ++ [label]) log' := by
  obtain ⟨u, ⟨hu, b, hb, hc⟩, hlogged⟩ := h
  obtain ⟨ms, u', ls, b', hrun, _, hrun', hc', hlog, _⟩ :=
    hc.next (UnboundedLog.inv_of_reachable hu) (CyclicBuffer.inv_of_reachable hb) hstep
  refine ⟨u', ⟨hu.run hrun, b', hb.run hrun', hc'⟩, fun i entry hi ↦ ?_⟩
  rcases hlog i entry hi with hold | ⟨tail, operations, rfl, hle, hop⟩
  · have hget := hlogged i entry hold
    rw [appended_append, List.getElem?_append_left (List.getElem?_eq_some_iff.mp hget).1]
    exact hget
  · obtain ⟨t, _, rfl⟩ := hshows
    rcases hstep.tail_eq with ⟨hnone, _⟩ | ⟨p, hp, hptail, _⟩
    · cases hnone
    · cases hp
      have hlength : (appended labels).length = tail := hpositions.length_eq.trans hptail.symm
      rw [appended_snoc_some rfl, List.getElem?_append_right (hlength ▸ hle), hlength]
      exact hop

/-- A request the log knows is not called again. -/
theorem Shows.ne_start (h : Shows log label l) (hstep : NrLog.Next log l log')
    (hknown : log.readers rid ≠ none ∨ log.tickets rid ≠ none) (input : InputOperation DT) :
    label ≠ .start rid input := by
  rintro rfl
  cases l with
  | start rid' input' =>
    cases h
    obtain ⟨hreaders, htickets⟩ := hstep.fresh
    exact hknown.elim (fun hx ↦ hx hreaders) fun hx ↦ hx htickets
  | reserve =>
    obtain ⟨_, _, hlabel⟩ := h
    cases hlabel
  | _ => cases h

private theorem Shows.answered (h : Shows log label l) (hstep : NrLog.Next log l log')
    {ret : DT.Response}
    (hlabel : label = .done rid (.write ret)) : log.tickets rid = some (.answered ret) := by
  subst hlabel
  cases l with
  | done rid' output =>
    cases h
    exact hstep.answered
  | reserve =>
    obtain ⟨_, _, hlabel⟩ := h
    cases hlabel
  | _ => cases h

private theorem Settled.next (h : Settled labels log) (hpositions : Positions labels log.tail)
    (hlog : (NrLog.machine DT).Reachable log) (hstep : NrLog.Next log l log')
    (hshows : Shows log label l) : Settled (labels ++ [label]) log' := by
  intro batch hbatch
  rw [batches_append, batches_single, List.mem_append] at hbatch
  rcases hbatch with hold | hnew
  · rcases h batch hold with hle | ⟨t, ht, hids, howes⟩
    · exact .inl (hle.trans hstep.versionUpperBound_le)
    · rcases hstep.thread_cases ht with hsame | hidle | hfinished | haccess
      · exact .inr ⟨t, hsame, hids, howes⟩
      · rw [hidle] at howes
        exact howes.elim
      · rw [hfinished] at howes
        exact howes.elim
      · rcases haccess.owes howes (hpositions.stop_le batch hold)
          fun ret version hpc ↦ NrLog.loaded_le hlog ht hpc with hle | ⟨t', ht', hids', howes'⟩
        · exact .inl hle
        · exact .inr ⟨t', ht', hids'.trans hids, howes'⟩
  · rcases hshows.batch_cases with ⟨hnone, _⟩ | ⟨n, tail, operations, t, rfl, ht, rfl⟩
    · rw [hnone] at hnew
      cases hnew
    · obtain rfl : batch = ⟨n, tail, t.requestIds, operations⟩ := List.mem_singleton.mp hnew
      obtain ⟨_, t', ht', hids, howes⟩ := hstep.reserving ht
      exact .inr ⟨t', ht', hids, howes⟩

private theorem Updates.next (h : Updates labels log) (hlog : (NrLog.machine DT).Reachable log)
    (hstep : NrLog.Next log l log') (hshows : Shows log label l) :
    Updates (labels ++ [label]) log' := by
  have hlive : ∀ {rid : ReqId} {ticket : NrLog.Ticket DT}, log.tickets rid = some ticket →
      ∀ input, label ≠ .start rid input := by
    intro rid ticket hticket
    refine hshows.ne_start hstep (.inr ?_)
    rw [hticket]
    exact nofun
  have hmine : ∀ {n t rid}, log.threads n = some t → rid ∈ t.requestIds →
      ∀ input, label ≠ .start rid input :=
    fun ht hrid ↦ hlive (NrLog.ticket_of_mem hlog ht hrid)
  have hlogged : ∀ {rid : ReqId}, (∀ input, label ≠ .start rid input) →
      (∃ op idx, LoggedAt labels rid op idx) →
      ∃ op idx, LoggedAt (labels ++ [label]) rid op idx := by
    rintro rid hne ⟨op, idx, hidx⟩
    exact ⟨op, idx, hidx.snoc hne⟩
  refine ⟨fun rid op hticket ↦ ?_, fun rid ret hticket ↦ ?_, fun n t' ht' hpc ↦ ?_,
    fun n t' ht' hpc rid hrid ↦ ?_⟩
  · rcases hstep.ticket_origin hticket with
      hold | ⟨op', rfl, hop⟩ | ⟨n, hother⟩ | ⟨n, t, ret, _, _, _, hother⟩
    · exact (h.pending rid op hold).snoc (hlive hold)
    · cases hop
      obtain rfl : label = .start rid (.write op) := hshows
      exact ⟨labels, [], called_snoc labels rid _⟩
    · cases hother
    · cases hother
  · rcases hstep.ticket_origin hticket with
      hold | ⟨op, _, hother⟩ | ⟨n, hother⟩ | ⟨n, t, ret', ht, hfinished, hrid, _⟩
    · exact hlogged (hlive hold) (h.answered rid ret hold)
    · cases hother
    · cases hother
    · have hpc : t.pc.Reserved := by
        rw [hfinished]
        trivial
      exact hlogged (hmine ht hrid) (h.reserved n t ht hpc rid hrid)
  · rcases hstep.thread_origin ht' with hold | ⟨t, ht, haccess⟩ | ⟨_, hpending⟩ | ⟨_, hother⟩
    · exact forall₂_imp_mem (h.reserving n t' hold hpc)
        fun rid hrid op hop ↦ hop.snoc (hmine hold hrid)
    · obtain ⟨t'', ht'', hids, hops⟩ := haccess.frame.thread
      obtain rfl : t'' = t' := Option.some.inj (ht''.symm.trans ht')
      rw [hids, hops]
      exact forall₂_imp_mem (h.reserving n t ht ((haccess.reserved_cases ht').1 hpc))
        fun rid hrid op hop ↦ hop.snoc (hmine ht hrid)
    · exact hpending.imp fun rid op hop ↦ (h.pending rid op hop).snoc (hlive hop)
    · exact absurd hpc hother
  · rcases hstep.thread_origin ht' with hold | ⟨t, ht, haccess⟩ | ⟨hcollected, _⟩ | ⟨hnil, _⟩
    · exact hlogged (hmine hold hrid) (h.reserved n t' hold hpc rid hrid)
    · obtain ⟨t'', ht'', hids, _⟩ := haccess.frame.thread
      obtain rfl : t'' = t' := Option.some.inj (ht''.symm.trans ht')
      rw [hids] at hrid
      rcases (haccess.reserved_cases ht').2 hpc with hold | ⟨hold, tail, rfl⟩
      · exact hlogged (hmine ht hrid) (h.reserved n t ht hold rid hrid)
      · -- the step reserves the places of the batch of this request
        obtain ⟨t₀, ht₀, rfl⟩ := hshows
        obtain rfl : t = t₀ := Option.some.inj (ht.symm.trans ht₀)
        obtain ⟨j, hj⟩ := List.mem_iff_getElem?.mp hrid
        obtain ⟨op, hop, hstarted⟩ := getElem?_of_forall₂ (h.reserving n t ht hold) hj
        exact ⟨op, _, hstarted.reserve hj hop⟩
    · rw [hcollected] at hpc
      exact hpc.elim
    · rw [hnil] at hrid
      cases hrid

/-- The places of an answered update are below the version upper bound. -/
theorem Settled.lt_of_answered (h : Settled labels log)
    (hlog : (NrLog.machine DT).Reachable log) {ret : DT.Response}
    (hanswered : log.tickets rid = some (.answered ret)) {op : DT.WriteOperation} {idx : Nat}
    (hidx : LoggedAt labels rid op idx) : idx < log.versionUpperBound := by
  obtain ⟨batch, hbatch, j, hrid, hop, rfl⟩ := hidx.exists_batch
  rcases h batch hbatch with hle | ⟨t, ht, hids, _⟩
  · have hj := (List.getElem?_eq_some_iff.mp hop).1
    exact (Nat.add_lt_add_left hj _).trans_le hle
  · have hmem : rid ∈ t.requestIds := hids ▸ List.mem_of_getElem? hrid
    cases (NrLog.ticket_of_mem hlog ht hmem).symm.trans hanswered

private theorem ReadSince.snoc {r : NrLog.Reader DT} (h : ReadSince labels rid r)
    (hlabel : ∀ input, label ≠ .start rid input) : ReadSince (labels ++ [label]) rid r := by
  cases r with
  | called op n =>
    obtain ⟨before, after, hcalled⟩ := h
    exact ⟨before, _, hcalled.snoc hlabel⟩
  | syncing op n version =>
    obtain ⟨before, after, hcalled, hcompleted⟩ := h
    exact ⟨before, _, hcalled.snoc hlabel, hcompleted⟩
  | synced op n version =>
    obtain ⟨before, after, hcalled, hcompleted⟩ := h
    exact ⟨before, _, hcalled.snoc hlabel, hcompleted⟩
  | returned ret => trivial

/-- What had returned in a part of the run has returned in the run. -/
theorem CompletedBelow.of_called {labels before after : List (Label DT)} {version : Nat}
    {input : InputOperation DT} (h : CompletedBelow labels version)
    (hcalled : Called labels rid input before after) : CompletedBelow before version := by
  intro b a rid' ret heq
  refine h b (a ++ .start rid input :: after) rid' ret ?_
  rw [hcalled.1, heq, List.append_assoc, List.cons_append]

private theorem readSince_next (h : ∀ rid r, log.readers rid = some r → ReadSince labels rid r)
    (hcompleted : CompletedBelow labels log.versionUpperBound) (hstep : NrLog.Next log l log')
    (hshows : Shows log label l) (rid : ReqId) (r : NrLog.Reader DT)
    (hr : log'.readers rid = some r) : ReadSince (labels ++ [label]) rid r := by
  have hlive : ∀ {r : NrLog.Reader DT}, log.readers rid = some r →
      ∀ input, label ≠ .start rid input := by
    intro r hread
    refine hshows.ne_start hstep (.inl ?_)
    rw [hread]
    exact nofun
  rcases hstep.reader_origin hr with hold | ⟨op, n, rfl, rfl⟩ | ⟨op, n, hread, rfl⟩ |
    ⟨op, n, version, hread, rfl⟩ | ⟨ret, rfl⟩
  · exact (h rid r hold).snoc (hlive hold)
  · obtain rfl : label = .start rid (.read op n) := hshows
    exact ⟨labels, [], called_snoc labels rid _⟩
  · obtain ⟨before, after, hcalled⟩ := h rid _ hread
    exact ⟨before, _, hcalled.snoc (hlive hread), hcompleted.of_called hcalled⟩
  · obtain ⟨before, after, hcalled, hbelow⟩ := h rid _ hread
    exact ⟨before, _, hcalled.snoc (hlive hread), hbelow⟩
  · trivial

/-- Every step of the log keeps the history. -/
theorem History.next (h : History labels log) (hlog : (NrLog.machine DT).Reachable log)
    (hstep : NrLog.Next log l log') (hshows : Shows log label l) :
    History (labels ++ [label]) log' where
  positions := h.positions.next hstep hshows
  recorded := h.recorded.next h.positions hstep hshows
  settled := h.settled.next h.positions hlog hstep hshows
  updates := h.updates.next hlog hstep hshows
  completed := by
    refine CompletedBelow.snoc (h.completed.mono hstep.versionUpperBound_le) fun rid ret hdone ↦ ?_
    have hanswered := hshows.answered hstep hdone
    refine ⟨h.updates.answered rid ret hanswered, fun op idx hidx ↦ ?_⟩
    exact (h.settled.lt_of_answered hlog hanswered hidx).trans_le hstep.versionUpperBound_le
  readers := readSince_next h.readers h.completed hstep hshows

/-- A step outside the log keeps the history. -/
theorem History.internal (h : History labels log) : History (labels ++ [.internal]) log := by
  have happended : appended (labels ++ [.internal]) = appended labels := appended_snoc_none rfl
  have hbatches : batches (labels ++ [.internal]) = batches labels := by
    rw [batches_append, batches_single]
    exact List.append_nil _
  have hstarted : ∀ {rid op}, Started labels rid op → Started (labels ++ [.internal]) rid op :=
    fun hx ↦ hx.snoc (by rintro _ ⟨⟩)
  have hlogged : ∀ {rid}, (∃ op idx, LoggedAt labels rid op idx) →
      ∃ op idx, LoggedAt (labels ++ [.internal]) rid op idx := by
    rintro rid ⟨op, idx, hidx⟩
    exact ⟨op, idx, hidx.snoc (by rintro _ ⟨⟩)⟩
  refine ⟨h.positions.snoc_none rfl, ?_, ?_, ⟨fun rid op hx ↦ ?_, fun rid ret hx ↦ ?_,
    fun n t ht hpc ↦ ?_, fun n t ht hpc rid hrid ↦ ?_⟩, h.completed.snoc (by simp),
    fun rid r hr ↦ (h.readers rid r hr).snoc (by rintro _ ⟨⟩)⟩
  · rw [Recorded, happended]
    exact h.recorded
  · rw [Settled, hbatches]
    exact h.settled
  · exact hstarted (h.updates.pending rid op hx)
  · exact hlogged (h.updates.answered rid ret hx)
  · exact (h.updates.reserving n t ht hpc).imp fun _ _ ↦ hstarted
  · exact hlogged (h.updates.reserved n t ht hpc rid hrid)

private theorem history_initialState {numReplicas : Nat} (hpos : 0 < numReplicas) :
    History [] (NrLog.initialState DT numReplicas) where
  positions := ⟨rfl, by simp [batches], by simp [batches]⟩
  recorded := ⟨_, NrLog.implements_initialState hpos, fun _ _ heq ↦ by cases heq⟩
  settled := by simp [Settled, batches]
  updates := by
    have hidle : ∀ n t, (NrLog.initialState DT numReplicas).threads n = some t →
        t = .idle DT := by
      intro n t ht
      simp only [NrLog.initialState] at ht
      split at ht
      · exact (Option.some.inj ht).symm
      · cases ht
    refine ⟨fun rid op hop ↦ ?_, fun rid ret hret ↦ ?_, fun n t ht hpc ↦ ?_,
      fun n t ht hpc ↦ ?_⟩
    · cases hop
    · cases hret
    · rw [hidle n t ht] at hpc
      exact hpc.elim
    · rw [hidle n t ht] at hpc
      exact hpc.elim
  completed := fun before _ _ _ heq ↦ by cases before <;> cases heq
  readers := fun _ _ heq ↦ by cases heq

/-- A run of the log with the labels of the replicas has a history. -/
theorem history_of_run {log₀ : NrLog.State DT} (hinit : (logMachine DT).init log₀)
    (hrun : (logMachine DT).Run log₀ labels log) : History labels log := by
  obtain ⟨numReplicas, hpos, rfl⟩ := hinit
  have hstep : ∀ labels log label log',
      (History labels log ∧ (NrLog.machine DT).Reachable log) → LogStep log label log' →
      History (labels ++ [label]) log' ∧ (NrLog.machine DT).Reachable log' := by
    rintro labels log label log' ⟨h, hlog⟩ hstep
    refine ⟨?_, hstep.reachable hlog⟩
    rcases hstep with ⟨rfl, rfl⟩ | ⟨l, hnext, hshows⟩
    · exact h.internal
    · exact h.next hlog hnext hshows
  have hstart : History [] (NrLog.initialState DT numReplicas) ∧
      (NrLog.machine DT).Reachable (NrLog.initialState DT numReplicas) :=
    ⟨history_initialState hpos, .of_init ⟨numReplicas, hpos, rfl⟩⟩
  exact (hrun.history hstep hstart).1

end Steps

end Replica

end NrKernel.NodeReplication
