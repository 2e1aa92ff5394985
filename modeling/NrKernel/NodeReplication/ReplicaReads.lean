import NrKernel.NodeReplication.RequestHistory
import NrKernel.NodeReplication.SoloRuns

/-!
# Reads of a replica

What `execute` finds when it dispatches its operation under the shared guard: no combiner has
the data, so the data is that of the log up to the version the replica has published; and this
version is past every update that had returned when the read was called.
-/

namespace NrKernel.NodeReplication

open Lib

universe u

namespace Replica

variable {DT : Dispatch.{u}}

private theorem computeNrstate_eq {log : PMap Nat (UnboundedLog.LogEntry DT)}
    {ops : List DT.WriteOperation} {version : Nat}
    (hlog : ∀ i, i < version → ∃ entry, log i = some entry ∧ ops[i]? = some entry.op) :
    UnboundedLog.computeNrstate log version = computeNrstateAtVersion ops version := by
  induction version with
  | zero => rfl
  | succ version ih =>
    obtain ⟨entry, hentry, hop⟩ := hlog version (Nat.lt_succ_self version)
    rw [UnboundedLog.computeNrstate_succ hentry, computeNrstateAtVersion_succ hop,
      ih fun i hi ↦ hlog i (Nat.lt_succ_of_lt hi)]

section History

variable {labels : List (Label DT)} {log : NrLog.State DT} {n : NodeId}

/-- While its combiner thread is idle, the data of a node is that of its published version. -/
theorem History.data_eq (h : History labels log) {t : NrLog.Thread DT} {view : DT.View}
    (ht : log.threads n = some t) (hidle : t.pc = .idle) (hdata : log.data n = some view) :
    ∃ version, log.localVersions n = some version ∧ version ≤ (appended labels).length ∧
      view = computeNrstateAtVersion (appended labels) version := by
  obtain ⟨u, ⟨hu, b, hb, hc⟩, hlogged⟩ := h.recorded
  have hui := UnboundedLog.inv_of_reachable hu
  have hphase := (hc.ready_of_idle hui (CyclicBuffer.inv_of_reachable hb) ht hidle).1
  obtain ⟨version, hversion⟩ := hui.exists_version hphase
  have hle : version ≤ u.tail := (hui.version_le n version hversion).trans hui.upperBound_le
  refine ⟨version, hc.shared.localVersions ▸ hversion, ?_, ?_⟩
  · rw [h.positions.length_eq, ← hc.shared.tail]
    exact hle
  · rw [hui.replica_state n view (hc.shared.replicas ▸ hdata),
      UnboundedLog.currentLocalVersion_eq hphase hversion]
    refine computeNrstate_eq fun i hi ↦ ?_
    obtain ⟨entry, hentry⟩ := (hui.log_dom i).mpr (hi.trans_le hle)
    exact ⟨entry, hentry, hlogged i entry hentry⟩

/-- A reader that found its replica synced stays below the published version. -/
theorem History.synced_le (h : History labels log) {t : NrLog.Thread DT} {rid : ReqId}
    {op : DT.ReadOperation} {seen version : Nat} (ht : log.threads n = some t)
    (hidle : t.pc = .idle) (hread : log.readers rid = some (.synced op n seen))
    (hversion : log.localVersions n = some version) : seen ≤ version := by
  obtain ⟨u, ⟨hu, b, hb, hc⟩, _⟩ := h.recorded
  have hui := UnboundedLog.inv_of_reachable hu
  have hphase := (hc.ready_of_idle hui (CyclicBuffer.inv_of_reachable hb) ht hidle).1
  have hreader := hc.shared.readers rid
  rw [hread] at hreader
  have hwf := (hui.reads_wf rid _ hreader).2.2
  rw [← hc.shared.localVersions] at hversion
  rwa [UnboundedLog.currentLocalVersion_eq hphase hversion] at hwf

private theorem LoggedAt.getElem_eq {before after : List (Label DT)} {rid : ReqId}
    {op : DT.WriteOperation} {idx tail : Nat} (h : LoggedAt before rid op idx)
    (hpositions : Positions (before ++ after) tail) :
    (appended (before ++ after))[idx]? = some op := by
  obtain ⟨batch, hbatch, j, _, hop, rfl⟩ := h.exists_batch
  refine hpositions.getElem_eq batch ?_ j op hop
  rw [batches_append]
  exact List.mem_append_left _ hbatch

end History

/-- Whenever a call of `execute` has the shared guard under which it dispatches its operation,
in whatever run of whatever replicas, the data of its replica is the fold of the log up to the
version the replica has published; and every update whose `execute_mut` had returned when the
read was called has its place in the log below this version. -/
theorem execute_reads_completed_updates {s₀ s : State DT} {labels : List (Label DT)}
    (hinit : (machine DT).init s₀) (hrun : (machine DT).Run s₀ labels s) {n : NodeId}
    {tid : ThreadId} {rid : ReqId} {op : DT.ReadOperation}
    (hguard : (s.nodes n).threads tid = ⟨.acquireRead rid op .sharedGuard, none⟩) :
    ∃ view version before after,
      (s.nodes n).lock.data = some view ∧ s.log.localVersions n = some version ∧
      version ≤ (appended labels).length ∧
      view = computeNrstateAtVersion (appended labels) version ∧
      Called labels rid (.read op n) before after ∧
      ∀ done later rid' ret, before = done ++ .done rid' (.write ret) :: later →
        (∃ op' idx, LoggedAt done rid' op' idx) ∧
        ∀ op' idx, LoggedAt done rid' op' idx →
          idx < version ∧ (appended labels)[idx]? = some op' := by
  obtain ⟨hinv, hlog⟩ := inv_of_reachable ⟨s₀, labels, hinit, hrun⟩
  have hlogRun := refines_logMachine.run (.of_init hinit) hrun
  rw [List.map_id'] at hlogRun
  have h := history_of_run (refines_logMachine.init s₀ hinit) hlogRun
  have hslot := (hinv.nodes n).slots tid
  have hactive := (hinv.nodes n).active tid rid
  rw [hguard] at hslot hactive
  obtain ⟨_, seen, hread⟩ := hslot
  obtain ⟨t, view, ht, hidle, hview, hdata⟩ :=
    (hinv.nodes n).reading hlog (by rw [hguard]; rfl) (hactive rfl).1
  obtain ⟨version, hversion, hle, hfold⟩ := h.data_eq ht hidle hdata
  have hseen := h.synced_le ht hidle hread hversion
  obtain ⟨before, after, hcalled, hcompleted⟩ := h.readers rid _ hread
  refine ⟨view, version, before, after, hview, hversion, hle, hfold, hcalled, ?_⟩
  intro done later rid' ret heq
  obtain ⟨hexists, hbelow⟩ := hcompleted done later rid' ret heq
  refine ⟨hexists, fun op' idx hidx ↦ ⟨(hbelow op' idx hidx).trans_le hseen, ?_⟩⟩
  have hlabels : labels = done ++ (.done rid' (.write ret) :: later ++ .start rid (.read op n) ::
      after) := by
    rw [hcalled.1, heq, List.append_assoc]
  have hpositions := h.positions
  rw [hlabels] at hpositions ⊢
  exact hidx.getElem_eq hpositions

/-- Two threads return from `execute_mut` and the first one calls `execute`: its guard finds the
data with both updates. -/
theorem execute_reads_completed_updates_both :
    ∃ labels s, (machine counter).Run (initialState counter 1) labels s ∧
      history labels = [.call 0 (.write (5 : Nat)), .call 1 (.write (7 : Nat)),
        .ret 0 (.write (0 : Nat)), .ret 1 (.write (5 : Nat)), .call 2 (.read () 0)] ∧
      (s.nodes 0).lock.data = some (12 : Nat) ∧
      ∃ view version before after,
        (s.nodes 0).lock.data = some view ∧ s.log.localVersions 0 = some version ∧
        version ≤ (appended labels).length ∧
        view = computeNrstateAtVersion (appended labels) version ∧
        Called labels 2 (.read () 0) before after ∧
        ∀ done later rid' ret, before = done ++ .done rid' (.write ret) :: later →
          (∃ op' idx, LoggedAt done rid' op' idx) ∧
          ∀ op' idx, LoggedAt done rid' op' idx →
            idx < version ∧ (appended labels)[idx]? = some op' := by
  obtain ⟨log, node, hupdated, hidle, hlock, hreplicas, hreaders, htickets, hbound, hlocal⟩ :=
    @gets_updated counter (5 : Nat) (7 : Nat)
  have hguard := hupdated.acquireRead 0 2 () (hidle 0)
    (by rw [hreplicas]; decide) (by decide) (by rw [hreaders]; rfl) htickets hlocal hbound.le
    (by rw [hlock]; rfl) (by rw [hlock]; rfl)
  obtain ⟨labels, s, hrun, hhistory, -, hnode⟩ := hguard
  have hthread : (s.nodes 0).threads 0 = ⟨.acquireRead 2 () .sharedGuard, none⟩ := by
    rw [hnode]
    rfl
  have hdata : (s.nodes 0).lock.data = some (12 : Nat) := by
    rw [hnode]
    exact congrArg RwLock.Shared.data hlock
  exact ⟨labels, s, hrun, hhistory, hdata,
    execute_reads_completed_updates ⟨1, by decide, rfl⟩ hrun hthread⟩

end Replica

end NrKernel.NodeReplication
