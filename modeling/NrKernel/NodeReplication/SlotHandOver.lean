import NrKernel.NodeReplication.FlatCombining

/-!
# The response to an operation

A thread that waits has its operation in its cell, and the round that answers the slot leaves the
operation there and adds the response. Once the thread reads zero the response is in the cell, it
is the one to the operation the thread put there last, and it is the result this operation has at
its log index. With the simulation of the flat combiner this is what the slots are for.
-/

namespace NrKernel.NodeReplication

open Lib

universe u

namespace Replica

variable {DT : Dispatch.{u}}

/-! ## Operations in cells -/

/-- What a client sees of a step. -/
def Label.async : Label DT → AsyncLabel DT
  | .internal => .internal
  | .start rid input => .start rid input
  | .done rid output => .done rid output
  | .reserve _ => .internal

/-- The operation a thread put into its cell last, with its request, after one more step of the
thread (`exec/context.rs:236–270`). -/
def enqueue (last : Option (ReqId × DT.WriteOperation)) :
    Phase DT → Phase DT → Option (ReqId × DT.WriteOperation)
  | .enqueueOp rid op, .storePending _ => some (rid, op)
  | _, _ => last

/-- The operations all threads put into their cells last, after one more step. -/
def recordEnqueue (s : State DT) (_ : Label DT) (t : State DT)
    (enqueued : NodeId → ThreadId → Option (ReqId × DT.WriteOperation)) :
    NodeId → ThreadId → Option (ReqId × DT.WriteOperation) :=
  fun n tid ↦
    enqueue (enqueued n tid) ((s.nodes n).threads tid).phase ((t.nodes n).threads tid).phase

variable (DT) in
/-- The replicas with a record of the operations the threads enqueued last. -/
def enqueueMachine :
    Machine (State DT × (NodeId → ThreadId → Option (ReqId × DT.WriteOperation))) (Label DT) :=
  (machine DT).withRecord (fun _ _ ↦ none) recordEnqueue

/-- The request whose operation a thread has in its cell. -/
def Phase.enqueued : Phase DT → Option ReqId
  | .storePending rid => some rid
  | .loadResponse rid _ => some rid
  | .takeResponse rid => some rid
  | _ => none

/-- A thread puts the operation of its call into its cell, and finds it there until it takes the
response. -/
structure Carries (called : PMap ReqId DT.WriteOperation)
    (last : Option (ReqId × DT.WriteOperation)) (context : Context DT) (phase : Phase DT) :
    Prop where
  input : ∀ rid op, phase = .enqueueOp rid op → called rid = some op
  cell : ∀ rid, phase.enqueued = some rid → ∃ op resp,
    last = some (rid, op) ∧ called rid = some op ∧ context.batch = some ⟨op, resp⟩

section Carries

variable {n : NodeId} {tid : ThreadId} {log log' : NrLog.State DT} {node node' : Node DT}
  {phase : Phase DT} {label : Label DT} {t : Thread DT} {r : Round DT}
  {round : Option (Round DT)} {rid : ReqId} {called called' : PMap ReqId DT.WriteOperation}
  {last : Option (ReqId × DT.WriteOperation)} {context context' : Context DT}

private theorem Phase.rid_of_enqueued (h : phase.enqueued = some rid) : phase.rid = some rid := by
  cases phase <;> first | exact h | cases h

private theorem enqueue_self : enqueue last phase phase = last := by
  cases phase <;> rfl

/-- The call of one request does not concern another. -/
theorem callWrite_of_ne {label : AsyncLabel DT} (h : ∀ input, label ≠ .start rid input) :
    callWrite called label rid = called rid := by
  cases label with
  | internal => rfl
  | done => rfl
  | start rid' input =>
    cases input with
    | read => rfl
    | write op =>
      refine PMap.insert_of_ne _ _ ?_
      rintro rfl
      exact h _ rfl

private theorem Carries.frame (h : Carries called last context phase)
    (hcalled : ∀ rid, phase.rid = some rid → called' rid = called rid)
    (hbatch : ∀ op resp, context.batch = some ⟨op, resp⟩ →
      ∃ resp', context'.batch = some ⟨op, resp'⟩) : Carries called' last context' phase where
  input := by
    rintro rid op rfl
    exact (hcalled rid rfl).trans (h.input rid op rfl)
  cell := by
    intro rid hrid
    obtain ⟨op, resp, hlast, hop, hcell⟩ := h.cell rid hrid
    obtain ⟨resp', hcell'⟩ := hbatch op resp hcell
    exact ⟨op, resp', hlast, (hcalled rid (Phase.rid_of_enqueued hrid)).trans hop, hcell'⟩

/-- A thread goes from its call to its response with one operation. -/
theorem ClientStep.carries (hstep : ClientStep n tid log node phase label log' node' t)
    (h : Carries called last (node.contexts tid) phase) :
    Carries (callWrite called label.async) (enqueue last phase t.phase) (node'.contexts tid)
      t.phase := by
  cases hstep with
  | startWrite rid op =>
    refine ⟨fun rid' op' heq ↦ ?_, by simp [Phase.enqueued]⟩
    cases heq
    exact PMap.insert_self _ _ _
  | enqueueOp rid op =>
    refine ⟨by simp, fun rid' heq ↦ ?_⟩
    cases heq
    refine ⟨op, none, rfl, h.input rid op rfl, ?_⟩
    simp only [Node.setContext, Function.update_self]
  | storePending rid =>
    refine ⟨by simp, fun rid' heq ↦ ?_⟩
    simp only [Node.setContext, Function.update_self]
    exact h.cell rid' heq
  | loadResponse rid iter =>
    refine ⟨by simp, fun rid' heq ↦ ?_⟩
    simp only [Node.setContext, Function.update_self]
    exact h.cell rid' heq
  | noResponse rid iter =>
    obtain ⟨iter', hphase⟩ := @pollAgain_phase DT rid iter
    rw [hphase]
    exact ⟨by simp, h.cell⟩
  | _ => exact ⟨by simp, by simp [Phase.enqueued]⟩

/-- A thread leaves the cells of the others alone. -/
theorem ClientStep.contexts_eq (hstep : ClientStep n tid log node phase label log' node' t)
    {j : ThreadId} (hj : j ≠ tid) : node'.contexts j = node.contexts j := by
  cases hstep with
  | enqueueOp | storePending | loadResponse | takeResponse => exact Function.update_of_ne hj _ _
  | _ => rfl

/-- A call takes a fresh request. -/
theorem ClientStep.fresh (hstep : ClientStep n tid log node phase label log' node' t)
    {input : InputOperation DT} (hlabel : label.async = .start rid input) :
    log.readers rid = none ∧ log.tickets rid = none := by
  cases hstep with
  | startRead rid' op hn htid hreaders htickets =>
    cases hlabel
    exact ⟨hreaders, htickets⟩
  | startWrite rid' op hn htid hreaders htickets =>
    cases hlabel
    exact ⟨hreaders, htickets⟩
  | _ => cases hlabel

/-- The round leaves the operations in the cells. -/
theorem CombineStep.keeps_op (hstep : CombineStep n tid log node r label log' node' round)
    {j : ThreadId} {op : DT.WriteOperation} {resp : Option DT.Response}
    (hbatch : (node.contexts j).batch = some ⟨op, resp⟩) :
    ∃ resp', (node'.contexts j).batch = some ⟨op, resp'⟩ := by
  have hkept : ∀ {i} {context : Context DT}, context.batch = (node.contexts i).batch →
      ∃ resp', ((node.setContext i context).contexts j).batch = some ⟨op, resp'⟩ := by
    intro i context hx
    by_cases hj : j = i
    · subst hj
      simp only [Node.setContext, Function.update_self]
      exact ⟨resp, hx.trans hbatch⟩
    · simp only [Node.setContext, Function.update_of_ne hj]
      exact ⟨resp, hbatch⟩
  cases hstep with
  | collectRequest i => exact hkept rfl
  | storeResponse i k => exact hkept rfl
  | respond i k numOps op' resp' ret hpc hsome hne hcell =>
    by_cases hj : j = i
    · subst hj
      cases hcell.symm.trans hbatch
      refine ⟨some ret, ?_⟩
      simp only [Node.setContext, Function.update_self]
    · simp only [Node.setContext, Function.update_of_ne hj]
      exact ⟨resp, hbatch⟩
  | _ => exact ⟨resp, hbatch⟩

/-- A client does not see the accesses of a round. -/
theorem CombineStep.async_eq (hstep : CombineStep n tid log node r label log' node' round) :
    label.async = .internal := by
  cases hstep with
  | appendExecute t l log' hpc ht hcombiner => cases hcombiner <;> rfl
  | _ => rfl

end Carries

/-- Every thread carries the operation of its call. -/
def AllCarry (labels : List (Label DT)) (s : State DT)
    (enqueued : NodeId → ThreadId → Option (ReqId × DT.WriteOperation)) : Prop :=
  ∀ n tid, Carries (calledWith (labels.map Label.async)) (enqueued n tid)
    ((s.nodes n).contexts tid) ((s.nodes n).threads tid).phase

section Runs

variable {n : NodeId} {tid : ThreadId} {s s' : State DT} {label : Label DT}
  {labels : List (Label DT)}
  {enqueued : NodeId → ThreadId → Option (ReqId × DT.WriteOperation)}

private theorem AllCarry.next (h : AllCarry labels s enqueued) (hinv : Inv s)
    (hstep : Next s label s') :
    AllCarry (labels ++ [label]) s' (recordEnqueue s label s' enqueued) := by
  intro m j
  rw [List.map_append, List.map_singleton, calledWith_snoc, recordEnqueue]
  have hold := h m j
  cases hstep with
  | client n tid phase label log node t hthread hstep =>
    -- a call does not concern the requests of the other threads
    have hcalled : ∀ rid, ((s.nodes m).threads j).phase.rid = some rid →
        callWrite (calledWith (labels.map Label.async)) label.async rid =
          calledWith (labels.map Label.async) rid := by
      intro rid hrid
      refine callWrite_of_ne fun input hlabel ↦ ?_
      obtain ⟨hreaders, htickets⟩ := hstep.fresh hlabel
      rcases hinv.known hrid with hknown | hknown
      · exact hknown hreaders
      · exact hknown htickets
    by_cases hm : m = n
    · subst hm
      simp only [Function.update_self, Node.setThread]
      by_cases hj : j = tid
      · subst hj
        rw [hthread] at hold ⊢
        simp only [Function.update_self]
        exact hstep.carries hold
      · simp only [hstep.threads_eq, Function.update_of_ne hj, hstep.contexts_eq hj, enqueue_self]
        exact hold.frame hcalled fun op resp hbatch ↦ ⟨resp, hbatch⟩
    · simp only [Function.update_of_ne hm, enqueue_self]
      exact hold.frame hcalled fun op resp hbatch ↦ ⟨resp, hbatch⟩
  | combine n tid phase r label log node round hthread hstep =>
    rw [hstep.async_eq]
    by_cases hm : m = n
    · subst hm
      have hphase : ((node.setThread tid ⟨phase, round⟩).threads j).phase =
          ((s.nodes m).threads j).phase := by
        by_cases hj : j = tid
        · subst hj
          simp only [Node.setThread, Function.update_self, hthread]
        · simp only [Node.setThread, Function.update_of_ne hj, hstep.threads_eq]
      simp only [Function.update_self, hphase, enqueue_self]
      exact hold.frame (fun _ _ ↦ rfl) fun op resp hbatch ↦ hstep.keeps_op hbatch
    · simp only [Function.update_of_ne hm, enqueue_self]
      exact hold

/-- After every run the slots carry what was enqueued. -/
theorem allCarry_of_run {s₀ : State DT × (NodeId → ThreadId → Option (ReqId × DT.WriteOperation))}
    (hinit : (enqueueMachine DT).init s₀)
    (hrun : (enqueueMachine DT).Run s₀ labels (s, enqueued)) : AllCarry labels s enqueued := by
  have hstart : (machine DT).Reachable s₀.1 ∧ AllCarry [] s₀.1 s₀.2 := by
    refine ⟨.of_init hinit.1, ?_⟩
    obtain ⟨numReplicas, _, hs₀⟩ := hinit.1
    rw [hs₀]
    exact fun _ _ ↦ ⟨nofun, nofun⟩
  refine (hrun.history (I := fun labels s ↦ (machine DT).Reachable s.1 ∧ AllCarry labels s.1 s.2)
    (fun labels s label t h hstep ↦ ?_) hstart).2
  refine ⟨h.1.step hstep.1, ?_⟩
  rw [hstep.2]
  exact h.2.next (inv_of_reachable h.1).1 hstep.1

/-- A run of the replicas is a run of the log with the same calls. -/
theorem exists_log_run {log log' : NrLog.State DT}
    (hrun : (logMachine DT).Run log labels log') :
    ∃ ls, (NrLog.machine DT).Run log ls log' ∧
      calledWith (ls.map NrLog.Label.async) = calledWith (labels.map Label.async) := by
  suffices hvisible : ∃ ls, (NrLog.machine DT).Run log ls log' ∧
      (ls.map NrLog.Label.async).filter AsyncLabel.visible =
        (labels.map Label.async).filter AsyncLabel.visible by
    obtain ⟨ls, hrun', heq⟩ := hvisible
    exact ⟨ls, hrun', calledWith_congr heq⟩
  induction hrun with
  | nil log => exact ⟨[], .nil log, rfl⟩
  | cons hstep _ ih =>
    obtain ⟨ls, hrun', heq⟩ := ih
    rcases hstep with ⟨rfl, rfl⟩ | ⟨l, hnext, hshows⟩
    · exact ⟨ls, hrun', heq⟩
    · refine ⟨l :: ls, .cons hnext hrun', ?_⟩
      rw [List.map_cons, List.map_cons, List.filter_cons, List.filter_cons, heq]
      cases l with
      | reserve =>
        obtain ⟨t, _, rfl⟩ := hshows
        rfl
      | _ =>
        obtain rfl := hshows
        rfl

/-- A thread that reads zero, or has read it, finds its response. -/
theorem NodeInv.responded_of_zero {log : NrLog.State DT} {node : Node DT} {rid : ReqId}
    (h : NodeInv n log node)
    (hread : (∃ iter, (node.threads tid).phase = .loadResponse rid iter) ∧
      (node.contexts tid).atomic = 0 ∨ (node.threads tid).phase = .takeResponse rid) :
    (node.threads tid).phase.enqueued = some rid ∧ (node.contexts tid).Responded log rid := by
  have hslot := h.slots tid
  rcases hread with ⟨⟨iter, hphase⟩, hzero⟩ | hphase
  · rw [hphase] at hslot ⊢
    refine ⟨rfl, ?_⟩
    rcases hslot with hreq | hprog | hresponded
    · exact absurd (hreq.1.symm.trans hzero) Nat.one_ne_zero
    · exact absurd hprog.1 (not_inProgress_of_zero hzero)
    · exact hresponded
  · rw [hphase] at hslot ⊢
    exact ⟨rfl, hslot⟩

end Runs

/-- The slots of every replica implement the flat combiner: an access of a thread is one
transition of it or none. Wherever a run of the replicas gets, at most one thread of a replica has
the combiner lock; a slot's word is one exactly while the slot of the flat combiner is a request
or in progress, and zero otherwise; at most one thread is at an access of a cell, its own thread
while the slot is empty or the round while it is in progress; and a thread that reads zero in the
word of its slot finds in the cell the operation it put there last, with a response, which is the
result of this operation at its log index. -/
theorem slots_implement_flatCombiner (n : NodeId) :
    ForwardSim (machine DT) FlatCombiner.machine (fun _ ls ↦ ls.length ≤ 1) (Simulates n) ∧
    ∀ s₀ labels s enqueued, (enqueueMachine DT).init s₀ →
      (enqueueMachine DT).Run s₀ labels (s, enqueued) →
      (∀ tid tid' r r', ((s.nodes n).threads tid).round = some r →
        ((s.nodes n).threads tid').round = some r' → r.pc.Owns → r'.pc.Owns → tid = tid') ∧
      (∃ fc, FlatCombiner.machine.Reachable fc ∧ (s.nodes n).Implements fc ∧
        (∀ i, i < maxThreadsPerReplica →
          (((s.nodes n).contexts i).atomic = 1 ↔
            ∃ rid, fc.slots i = some (.request rid) ∨ fc.slots i = some (.inProgress rid)) ∧
          (((s.nodes n).contexts i).atomic ≠ 1 → ((s.nodes n).contexts i).atomic = 0)) ∧
        ∀ tid i, ((s.nodes n).threads tid).Accesses tid i →
          (tid = i ∧ ((s.nodes n).threads tid).round = none ∧ fc.slots i = some .empty) ∨
          ∃ r rid, ((s.nodes n).threads tid).round = some r ∧ r.pc.Owns ∧
            fc.slots i = some (.inProgress rid)) ∧
      (∀ i tid tid', ((s.nodes n).threads tid).Accesses tid i →
        ((s.nodes n).threads tid').Accesses tid' i → tid = tid') ∧
      (∀ label s' i, Next s label s' →
        ((s'.nodes n).contexts i).batch ≠ ((s.nodes n).contexts i).batch →
        ∃ tid, ((s.nodes n).threads tid).Accesses tid i) ∧
      ∀ tid rid, (∃ iter, ((s.nodes n).threads tid).phase = .loadResponse rid iter) ∧
          ((s.nodes n).contexts tid).atomic = 0 ∨
          ((s.nodes n).threads tid).phase = .takeResponse rid →
        ∃ op ret, ((s.nodes n).contexts tid).batch = some ⟨op, some ret⟩ ∧
          enqueued n tid = some (rid, op) ∧
          calledWith (labels.map Label.async) rid = some op ∧
          s.log.tickets rid = some (.answered ret) ∧
          ∃ u idx m, NrLog.Implements s.log u ∧ u.log idx = some ⟨op, m⟩ ∧
            ret = (DT.dispatchMutSpec (UnboundedLog.computeNrstate u.log idx) op).2 := by
  refine ⟨forwardSim n, fun s₀ labels s enqueued hinit hrun ↦ ?_⟩
  have hrun' := withRecord_refines.run (.of_init hinit) hrun
  rw [List.map_id'] at hrun'
  have hinv := (inv_of_reachable ⟨_, _, hinit.1, hrun'⟩).1.nodes n
  obtain ⟨_, _, fc, _, _, _, _, hfc, himplements⟩ := (forwardSim n).run hinit.1 hrun'
  refine ⟨fun tid tid' r r' ↦ hinv.owner tid tid' r r', ⟨fc, hfc, himplements, fun i hi ↦ ?_,
    fun tid i haccess ↦ haccess.slot hinv himplements⟩,
    fun i tid tid' haccess haccess' ↦ haccess.unique haccess' hinv himplements,
    fun label s' i hstep hchanged ↦ hstep.accesses hchanged, fun tid rid hread ↦ ?_⟩
  · rw [himplements.slots i hi]
    simp only [Option.some.injEq]
    exact (hinv.slots i).atomic_eq_one_iff
  · obtain ⟨hphase, _, op, ret, hbatch, hanswered⟩ := hinv.responded_of_zero hread
    obtain ⟨op', resp, hlast, hcalled, hcell⟩ := (allCarry_of_run hinit hrun n tid).cell rid hphase
    cases hbatch.symm.trans hcell
    have hlogRun := refines_logMachine.run (.of_init hinit.1) hrun'
    rw [List.map_id'] at hlogRun
    obtain ⟨ls, hls, hsame⟩ := exists_log_run hlogRun
    obtain ⟨u, op', idx, m, hu, hop, hlog, hret⟩ :=
      NrLog.answer_of_called (refines_logMachine.init _ hinit.1) hls hanswered
    rw [hsame] at hop
    cases hcalled.symm.trans hop
    exact ⟨op, ret, hbatch, hlast, hcalled, hanswered, u, idx, m, hu, hlog, hret⟩

end Replica

end NrKernel.NodeReplication
