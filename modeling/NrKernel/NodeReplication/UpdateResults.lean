import NrKernel.NodeReplication.NrLogRefinesUnboundedLog
import NrKernel.NodeReplication.QueueMatching

/-!
# The operation behind a result

A request enters with an operation, and what it is answered with is the result of this operation
at the log index it got. The log's record of an update forgets the operation once it is applied;
the labels of the run still have it.
-/

namespace NrKernel.NodeReplication

open Lib

universe u

section Called

variable {DT : Dispatch.{u}}

/-- The operations the updates were called with, after one more label. -/
def callWrite (called : PMap ReqId DT.WriteOperation) : AsyncLabel DT → PMap ReqId DT.WriteOperation
  | .start rid (.write op) => called.insert rid op
  | _ => called

/-- The operation each update was last called with. -/
def calledWith (labels : List (AsyncLabel DT)) : PMap ReqId DT.WriteOperation :=
  labels.foldl callWrite .empty

/-- One more label records the operation it calls with, if any. -/
@[simp] theorem calledWith_snoc (labels : List (AsyncLabel DT)) (label : AsyncLabel DT) :
    calledWith (labels ++ [label]) = callWrite (calledWith labels) label :=
  List.foldl_concat ..

/-- Only what a client sees matters. -/
theorem calledWith_filter (labels : List (AsyncLabel DT)) :
    calledWith (labels.filter AsyncLabel.visible) = calledWith labels := by
  induction labels using List.reverseRecOn with
  | nil => rfl
  | append_singleton labels label ih =>
    rw [List.filter_append, calledWith_snoc, ← ih]
    cases label with
    | internal => exact congrArg calledWith (List.append_nil _)
    | start rid input => exact calledWith_snoc _ _
    | done rid output => exact calledWith_snoc _ _

/-- Runs with the same visible labels have the same calls. -/
theorem calledWith_congr {labels labels' : List (AsyncLabel DT)}
    (h : labels.filter AsyncLabel.visible = labels'.filter AsyncLabel.visible) :
    calledWith labels = calledWith labels' := by
  rw [← calledWith_filter labels, h, calledWith_filter]

end Called

namespace UnboundedLog

variable {DT : Dispatch.{u}}

/-- The update is about an operation: it entered with it and has it in the log. -/
structure UpdateState.Performs (u : UpdateState DT) (log : PMap Nat (LogEntry DT))
    (op : DT.WriteOperation) : Prop where
  init : ∀ op', u = .init op' → op' = op
  logged : ∀ idx, u.logIdx? = some idx → ∃ n, log idx = some ⟨op, n⟩

/-- Every update is about the operation it was called with. -/
def PerformsCalled (labels : List (AsyncLabel DT)) (s : State DT) : Prop :=
  ∀ rid u, s.localUpdates rid = some u →
    ∃ op, calledWith labels rid = some op ∧ u.Performs s.log op

section PerformsCalled

variable {labels : List (AsyncLabel DT)} {label : AsyncLabel DT} {s t : State DT} {rid : ReqId}

/-- An update that stays at its index stays about its operation. -/
theorem UpdateState.Performs.at_idx {u v : UpdateState DT} {log : PMap Nat (LogEntry DT)}
    {op : DT.WriteOperation} {idx : Nat} (h : u.Performs log op) (hu : u.logIdx? = some idx)
    (hv : v.logIdx? = some idx) : v.Performs log op where
  init := by
    rintro op' rfl
    cases hv
  logged := by
    intro i hi
    cases hv.symm.trans hi
    exact h.logged idx hu

/-- One update changes, about the same operation. -/
theorem PerformsCalled.insert (h : PerformsCalled labels s) {v : UpdateState DT}
    (hupdates : t.localUpdates = s.localUpdates.insert rid v) (hlog : t.log = s.log)
    (hv : ∃ op, calledWith labels rid = some op ∧ v.Performs s.log op) :
    PerformsCalled labels t := by
  intro r w hr
  rw [hupdates] at hr
  rw [hlog]
  rcases (PMap.insert_eq_some _ _ _ _ _).mp hr with ⟨rfl, rfl⟩ | ⟨_, hold⟩
  · exact hv
  · exact h r w hold

private theorem PerformsCalled.transition (h : PerformsCalled labels s) (hinv : Inv s)
    (hstep : Transition s t) : PerformsCalled labels t := by
  by_cases hdispatch : ∃ rid, DispatchesLocal rid s t
  · obtain ⟨rid, hrid⟩ := hdispatch
    have hlog : t.log = s.log := by
      cases hrid
      rfl
    obtain ⟨n, _, lversion, _, _, op, ret, _, _, hplaced, hupdates, _⟩ := hrid.answers hinv
    obtain ⟨op', hcalled, hperforms⟩ := h rid _ hplaced
    exact h.insert hupdates hlog ⟨op', hcalled, hperforms.at_idx rfl rfl⟩
  cases hstep with
  | readonlyVersionUpperBound | readonlyReadyToRead | readonlyApply | readonlyViewOob
  | execTrivialStart | execLoadLocalVersion | execLoadGlobalHead | execDispatchRemote
  | execUpdateVersionUpperBound | execFinish | execFinishNoChange => exact h
  | updateDone rid ret idx hupdate =>
    obtain ⟨op, hcalled, hperforms⟩ := h rid _ hupdate
    exact h.insert rfl rfl ⟨op, hcalled, hperforms.at_idx rfl rfl⟩
  | updatePlaceOpsInLogOne nodeId rid queuedOps op hcombiner hupdate =>
    intro r w hr
    rcases (PMap.insert_eq_some _ _ _ _ _).mp hr with ⟨rfl, rfl⟩ | ⟨_, hold⟩
    · obtain ⟨op', hcalled, hperforms⟩ := h r _ hupdate
      obtain rfl := hperforms.init op rfl
      refine ⟨op, hcalled, nofun, fun idx hidx ↦ ⟨nodeId, ?_⟩⟩
      cases hidx
      exact PMap.insert_self _ _ _
    · obtain ⟨op', hcalled, hperforms⟩ := h r w hold
      refine ⟨op', hcalled, hperforms.init, fun idx hidx ↦ ?_⟩
      obtain ⟨n, hn⟩ := hperforms.logged idx hidx
      have hlt := hinv.logIdx_lt hold hidx
      exact ⟨n, (PMap.insert_of_ne _ _ hlt.ne).trans hn⟩
  | execDispatchLocal nodeId queuedOps lversion idx tail d rid u entry hcombiner hreplica hrid
      hupdate hlog hrange hnode =>
    exact absurd ⟨rid, nodeId, queuedOps, lversion, idx, tail, d, u, entry, hcombiner, hreplica,
      hrid, hupdate, hlog, hrange, hnode⟩ hdispatch

private theorem PerformsCalled.next (h : PerformsCalled labels s) (hinv : Inv s)
    (hstep : Next s label t) : PerformsCalled (labels ++ [label]) t := by
  unfold PerformsCalled
  rw [calledWith_snoc]
  cases hstep with
  | transition hstep => exact h.transition hinv hstep
  | addTicket rid input hfresh =>
    cases input with
    | read op nodeId => exact h
    | write op =>
      intro r w hr
      rcases (PMap.insert_eq_some _ _ _ _ _).mp hr with ⟨rfl, rfl⟩ | ⟨hne, hold⟩
      · refine ⟨op, PMap.insert_self _ _ _, fun op' heq ↦ ?_, nofun⟩
        cases heq
        rfl
      · obtain ⟨op', hcalled, hperforms⟩ := h r w hold
        exact ⟨op', (PMap.insert_of_ne _ _ hne).trans hcalled, hperforms⟩
  | consumeRead => exact h
  | consumeUpdate rid =>
    intro r w hr
    exact h r w ((PMap.remove_eq_some _ _ _ _).mp hr).2

private theorem performsCalled_of_run {s₀ : State DT} (hinit : (machine DT).init s₀)
    (hrun : (machine DT).Run s₀ labels s) : PerformsCalled labels s := by
  obtain ⟨numberOfNodes, _, rfl⟩ := hinit
  have hstart : Inv (initialState DT numberOfNodes) ∧
      PerformsCalled [] (initialState DT numberOfNodes) := ⟨inv_initialState _, nofun⟩
  exact (hrun.history (I := fun labels s ↦ Inv s ∧ PerformsCalled labels s)
    (fun _ _ _ _ h hstep ↦ ⟨h.1.next hstep, h.2.next h.1 hstep⟩) hstart).2

/-- A finished update has the result of the operation it was called with, at the log index of
this operation. -/
theorem result_of_called {s₀ : State DT} (hinit : (machine DT).init s₀)
    (hrun : (machine DT).Run s₀ labels s) {ret : DT.Response} {idx : Nat}
    (hdone : s.localUpdates rid = some (.done ret idx)) :
    ∃ op n, calledWith labels rid = some op ∧ s.log idx = some ⟨op, n⟩ ∧
      ret = (DT.dispatchMutSpec (computeNrstate s.log idx) op).2 := by
  have hinv := inv_of_reachable ⟨s₀, labels, hinit, hrun⟩
  obtain ⟨op, hcalled, hperforms⟩ := performsCalled_of_run hinit hrun rid _ hdone
  obtain ⟨n, hn⟩ := hperforms.logged idx rfl
  obtain ⟨_, entry, hentry, hret⟩ := hinv.updates_wf rid _ hdone
  cases hn.symm.trans hentry
  exact ⟨op, n, hcalled, hn, hret⟩

end PerformsCalled

end UnboundedLog

namespace NrLog

variable {DT : Dispatch.{u}}

private theorem visible_flatten {labels : List (Label DT)} {parts : List (List (AsyncLabel DT))}
    (h : List.Forall₂ SameVisible labels parts) :
    parts.flatten.filter AsyncLabel.visible =
      (labels.map Label.async).filter AsyncLabel.visible := by
  induction h with
  | nil => rfl
  | cons hvisible _ ih =>
    rw [List.flatten_cons, List.filter_append, ih, hvisible, ← List.filter_append]
    rfl

/-- An answered request has the result of the operation it was called with, at a log index of
this operation. -/
theorem answer_of_called {c₀ c : State DT} {labels : List (Label DT)}
    (hinit : (machine DT).init c₀) (hrun : (machine DT).Run c₀ labels c) {rid : ReqId}
    {ret : DT.Response} (hanswered : c.tickets rid = some (.answered ret)) :
    ∃ u op idx n, Implements c u ∧ calledWith (labels.map Label.async) rid = some op ∧
      u.log idx = some ⟨op, n⟩ ∧
      ret = (DT.dispatchMutSpec (UnboundedLog.computeNrstate u.log idx) op).2 := by
  obtain ⟨u₀, parts, u, hinit', hparts, hrun', himplements⟩ := forwardSim.run hinit hrun
  have ⟨_, b, _, hc⟩ := himplements
  have hticket := hc.shared.tickets rid
  rw [hanswered] at hticket
  obtain ⟨idx, hdone⟩ := hticket
  obtain ⟨op, n, hcalled, hlog, hret⟩ := UnboundedLog.result_of_called hinit' hrun' hdone
  refine ⟨u, op, idx, n, himplements, ?_, hlog, hret⟩
  rw [← hcalled]
  exact congrFun (calledWith_congr (visible_flatten hparts).symm) rid

end NrLog

end NrKernel.NodeReplication
