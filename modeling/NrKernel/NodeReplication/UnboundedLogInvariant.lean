import Mathlib.Data.List.Intervals
import NrKernel.NodeReplication.UnboundedLog

/-!
# Invariant of the unbounded log

What every reachable state satisfies: replicas equal the log prefix their version names,
results are those of the sequential data structure at their log index, and the part of a
combiner's queue still to be answered is, in order, the part of the log its node wrote and
has not applied yet. The last point replaces the source's recursive predicates
`LogRangeMatchesQueue` and `LogRangeNoNodeId` (`spec/unbounded_log.rs:1400–1475`) by one
equation between lists that covers all combiner phases.
-/

namespace NrKernel.NodeReplication

open Lib

universe u

namespace UnboundedLog

variable {DT : Dispatch.{u}}

/-- Log positions in a range that were written by a node, in order. -/
def localIdxs (log : PMap Nat (LogEntry DT)) (nodeId : NodeId) (lower upper : Nat) : List Nat :=
  (List.Ico lower upper).filter fun i ↦ (log i).any fun entry ↦ entry.nodeId == nodeId

section LocalIdxs

variable {log : PMap Nat (LogEntry DT)} {nodeId : NodeId} {lower upper : Nat}

/-- The local indices are those in range whose entry the node wrote. -/
theorem mem_localIdxs {i : Nat} : i ∈ localIdxs log nodeId lower upper ↔
    (lower ≤ i ∧ i < upper) ∧ ∃ entry, log i = some entry ∧ entry.nodeId = nodeId := by
  simp [localIdxs, Option.any_eq_true]

/-- An empty range has no local indices. -/
@[simp] theorem localIdxs_self : localIdxs log nodeId lower lower = [] := by
  simp [localIdxs]

private theorem localIdxs_of_local {entry : LogEntry DT} (h : lower < upper)
    (hlog : log lower = some entry) (hnode : entry.nodeId = nodeId) :
    localIdxs log nodeId lower upper = lower :: localIdxs log nodeId (lower + 1) upper := by
  simp [localIdxs, List.Ico.eq_cons h, hlog, hnode]

private theorem localIdxs_of_remote {entry : LogEntry DT} (h : lower < upper)
    (hlog : log lower = some entry) (hnode : entry.nodeId ≠ nodeId) :
    localIdxs log nodeId lower upper = localIdxs log nodeId (lower + 1) upper := by
  simp [localIdxs, List.Ico.eq_cons h, hlog, hnode]

/-- An entry written at or past the end of the range is not in it. -/
theorem localIdxs_insert_of_le {k : Nat} (entry : LogEntry DT) (h : upper ≤ k) :
    localIdxs (log.insert k entry) nodeId lower upper = localIdxs log nodeId lower upper := by
  refine List.filter_congr fun i hi ↦ ?_
  have hne : i ≠ k := by
    have := (List.Ico.mem.mp hi).2
    omega
  rw [PMap.insert_of_ne _ _ hne]

/-- Appending an own entry extends the list by its position. -/
theorem localIdxs_insert_local {entry : LogEntry DT} (h : lower ≤ upper)
    (hnode : entry.nodeId = nodeId) :
    localIdxs (log.insert upper entry) nodeId lower (upper + 1) =
      localIdxs log nodeId lower upper ++ [upper] := by
  rw [← localIdxs_insert_of_le entry (Nat.le_refl upper)]
  simp [localIdxs, List.Ico.succ_top h, hnode]

/-- Appending a foreign entry leaves the list alone. -/
theorem localIdxs_insert_remote {entry : LogEntry DT} (h : lower ≤ upper)
    (hnode : entry.nodeId ≠ nodeId) :
    localIdxs (log.insert upper entry) nodeId lower (upper + 1) =
      localIdxs log nodeId lower upper := by
  rw [← localIdxs_insert_of_le entry (Nat.le_refl upper)]
  simp [localIdxs, List.Ico.succ_top h, hnode]

end LocalIdxs

/-- An append does not change the states computed from the log before it. -/
theorem computeNrstate_insert {log : PMap Nat (LogEntry DT)} {k version : Nat}
    (entry : LogEntry DT) (h : version ≤ k) :
    computeNrstate (log.insert k entry) version = computeNrstate log version := by
  induction version with
  | zero => rfl
  | succ version ih =>
    have hne : version ≠ k := by omega
    simp only [computeNrstate, PMap.insert_of_ne _ _ hne, ih (by omega)]

/-- One version further one more entry of the log is applied. -/
theorem computeNrstate_succ {log : PMap Nat (LogEntry DT)} {version : Nat}
    {entry : LogEntry DT} (h : log version = some entry) :
    computeNrstate log (version + 1) =
      (DT.dispatchMutSpec (computeNrstate log version) entry.op).1 := by
  rw [computeNrstate, h]

/-- How many queued requests the combiner has answered. -/
def CombinerState.answeredCount : CombinerState → Nat
  | .ready => 0
  | .placed _ => 0
  | .loadedLocalVersion _ _ => 0
  | .loop _ _ idx _ => idx
  | .updatedVersion queuedOps _ => queuedOps.length

/-- The queued requests that still wait for their result. -/
def CombinerState.pending (c : CombinerState) : List ReqId := c.queuedOps.drop c.answeredCount

/-- The queued requests that have their result. -/
def CombinerState.answered (c : CombinerState) : List ReqId := c.queuedOps.take c.answeredCount

/-- The log index of an update that is placed and not applied yet. -/
def placedIdx (updates : PMap ReqId (UpdateState DT)) (rid : ReqId) : Option Nat :=
  match updates rid with
  | some (.placed _ idx) => some idx
  | _ => none

/-- The log index of an update is the one it is placed at. -/
theorem placedIdx_eq_some {updates : PMap ReqId (UpdateState DT)} {rid : ReqId} {idx : Nat} :
    placedIdx updates rid = some idx ↔ ∃ op, updates rid = some (.placed op idx) := by
  unfold placedIdx
  split
  · next op i heq => simp [heq]
  · next hne =>
    refine iff_of_false nofun ?_
    rintro ⟨op, heq⟩
    exact hne op idx heq

/-- The update has its result. -/
def UpdateState.HasResult : UpdateState DT → Prop
  | .init _ => False
  | .placed _ _ => False
  | .applied _ _ => True
  | .done _ _ => True

/-- A combiner phase fits the counters of the state (`spec/unbounded_log.rs:412–475`). -/
def CombinerState.PhaseWf (tail versionUpperBound localVersion : Nat) : CombinerState → Prop
  | .ready => True
  | .placed _ => True
  | .loadedLocalVersion _ lversion => lversion = localVersion
  | .loop queuedOps lversion idx loopTail =>
    localVersion ≤ lversion ∧ lversion ≤ loopTail ∧ loopTail ≤ tail ∧ idx ≤ queuedOps.length
  | .updatedVersion _ loopTail => localVersion ≤ loopTail ∧ loopTail ≤ versionUpperBound

/-- A combiner agrees with the log: its unanswered requests are placed at exactly the
positions its node wrote and has not applied (`spec/unbounded_log.rs:409–475`). -/
structure CombinerWf (log : PMap Nat (LogEntry DT)) (updates : PMap ReqId (UpdateState DT))
    (tail versionUpperBound : Nat) (nodeId : NodeId) (localVersion : Nat)
    (c : CombinerState) : Prop where
  phase : c.PhaseWf tail versionUpperBound localVersion
  pending : c.pending.map (placedIdx updates) =
    (localIdxs log nodeId (c.currentVersion localVersion) tail).map some
  -- no entry of the node lies past the tail the loop runs to
  noneAfter : ∀ queuedOps lversion idx loopTail, c = .loop queuedOps lversion idx loopTail →
    localIdxs log nodeId loopTail tail = []
  answered : ∀ rid ∈ c.answered, ∀ u, updates rid = some u → u.HasResult
  nodup : c.queuedOps.Nodup

/-- A read agrees with the versions (`spec/unbounded_log.rs:386–402,516–530`). -/
def ReadWf (log : PMap Nat (LogEntry DT)) (versionUpperBound numReplicas : Nat)
    (current : NodeId → Nat) : ReadonlyState DT → Prop
  | .init _ _ => True
  | .versionUpperBound _ _ version => version ≤ versionUpperBound
  | .readyToRead _ nodeId version =>
    nodeId < numReplicas ∧ version ≤ versionUpperBound ∧ version ≤ current nodeId
  | .done op nodeId version ret =>
    nodeId < numReplicas ∧ ∃ v, version ≤ v ∧ v ≤ versionUpperBound ∧ v ≤ current nodeId ∧
      ret = DT.dispatchSpec (computeNrstate log v) op

/-- An update agrees with the log (`spec/unbounded_log.rs:488–555`). -/
def UpdateWf (log : PMap Nat (LogEntry DT)) (tail versionUpperBound : Nat) :
    UpdateState DT → Prop
  | .init _ => True
  | .placed op idx => idx < tail ∧ ∃ entry, log idx = some entry ∧ entry.op = op
  | .applied ret idx =>
    idx < tail ∧ ∃ entry, log idx = some entry ∧
      ret = (DT.dispatchMutSpec (computeNrstate log idx) entry.op).2
  | .done ret idx =>
    idx < versionUpperBound ∧ ∃ entry, log idx = some entry ∧
      ret = (DT.dispatchMutSpec (computeNrstate log idx) entry.op).2

/-- The invariant (`spec/unbounded_log.rs:303–581`). -/
structure Inv (s : State DT) : Prop where
  replicas_dom : ∀ n, (∃ d, s.replicas n = some d) ↔ n < s.numReplicas
  versions_dom : ∀ n, (∃ v, s.localVersions n = some v) ↔ n < s.numReplicas
  combiner_dom : ∀ n, (∃ c, s.combiner n = some c) ↔ n < s.numReplicas
  log_dom : ∀ i, (∃ entry, s.log i = some entry) ↔ i < s.tail
  upperBound_le : s.versionUpperBound ≤ s.tail
  version_le : ∀ n v, s.localVersions n = some v → v ≤ s.versionUpperBound
  combiner_wf : ∀ n c v, s.combiner n = some c → s.localVersions n = some v →
    CombinerWf s.log s.localUpdates s.tail s.versionUpperBound n v c
  rids_distinct : ∀ n n' c c' rid, s.combiner n = some c → s.combiner n' = some c' →
    rid ∈ c.queuedOps → rid ∈ c'.queuedOps → n = n'
  reads_wf : ∀ rid r, s.localReads rid = some r →
    ReadWf s.log s.versionUpperBound s.numReplicas s.currentLocalVersion r
  updates_wf : ∀ rid u, s.localUpdates rid = some u →
    UpdateWf s.log s.tail s.versionUpperBound u
  replica_state : ∀ n d, s.replicas n = some d →
    d = computeNrstate s.log (s.currentLocalVersion n)

/-- The invariant holds at the start. -/
theorem inv_initialState (numberOfNodes : Nat) : Inv (initialState DT numberOfNodes) where
  replicas_dom := by simp [initialState]
  versions_dom := by simp [initialState]
  combiner_dom := by simp [initialState]
  log_dom := by simp [initialState]
  upperBound_le := Nat.le_refl 0
  version_le := by simp [initialState]
  combiner_wf := by
    intro n c v hc hv
    have hready : c = .ready := by simp_all [initialState]
    have hzero : v = 0 := by simp_all [initialState]
    subst hready hzero
    exact
      { phase := trivial
        pending := by simp [CombinerState.pending, CombinerState.queuedOps,
          CombinerState.currentVersion, initialState]
        noneAfter := by simp
        answered := by simp [CombinerState.answered, CombinerState.queuedOps]
        nodup := List.nodup_nil }
  rids_distinct := by
    intro n n' c c' rid hc _ hmem
    have hready : c = .ready := by simp_all [initialState]
    simp [hready, CombinerState.queuedOps] at hmem
  reads_wf := fun _ _ h ↦ nomatch h
  updates_wf := fun _ _ h ↦ nomatch h
  replica_state := by
    intro n d hd
    by_cases hn : n < numberOfNodes
    · have hinit : d = DT.initSpec := by simp_all [initialState]
      have hcur : (initialState DT numberOfNodes).currentLocalVersion n = 0 := by
        simp [State.currentLocalVersion, initialState, hn, CombinerState.currentVersion]
      rw [hinit, hcur]
      rfl
    · simp [initialState, hn] at hd

section Lookup

variable {s : State DT} {n : NodeId} {c : CombinerState} {v : Nat}

/-- The current version is read off the combiner and the published version. -/
theorem currentLocalVersion_eq (hc : s.combiner n = some c) (hv : s.localVersions n = some v) :
    s.currentLocalVersion n = c.currentVersion v := by
  simp [State.currentLocalVersion, hc, hv]

/-- A node with a combiner has a local version. -/
theorem Inv.exists_version (h : Inv s) (hc : s.combiner n = some c) :
    ∃ v, s.localVersions n = some v :=
  (h.versions_dom n).mpr ((h.combiner_dom n).mp ⟨c, hc⟩)

private theorem Inv.exists_combiner (h : Inv s) (hn : n < s.numReplicas) :
    ∃ c v, s.combiner n = some c ∧ s.localVersions n = some v := by
  obtain ⟨c, hc⟩ := (h.combiner_dom n).mpr hn
  obtain ⟨v, hv⟩ := h.exists_version hc
  exact ⟨c, v, hc, hv⟩

/-- A combiner never runs ahead of the tail. -/
theorem Inv.currentVersion_le (h : Inv s) (hc : s.combiner n = some c)
    (hv : s.localVersions n = some v) : c.currentVersion v ≤ s.tail := by
  have hphase := (h.combiner_wf n c v hc hv).phase
  have hle := h.version_le n v hv
  have hub := h.upperBound_le
  cases c <;> simp only [CombinerState.PhaseWf, CombinerState.currentVersion] at hphase ⊢ <;>
    omega

/-- A published version is never ahead of the prefix the replica has applied. -/
theorem Inv.version_le_current (h : Inv s) (hc : s.combiner n = some c)
    (hv : s.localVersions n = some v) : v ≤ c.currentVersion v := by
  have hphase := (h.combiner_wf n c v hc hv).phase
  cases c <;> simp only [CombinerState.PhaseWf, CombinerState.currentVersion] at hphase ⊢ <;>
    omega

/-- No replica is ahead of the tail. -/
theorem Inv.currentLocalVersion_le (h : Inv s) (hn : n < s.numReplicas) :
    s.currentLocalVersion n ≤ s.tail := by
  obtain ⟨c, v, hc, hv⟩ := h.exists_combiner hn
  rw [currentLocalVersion_eq hc hv]
  exact h.currentVersion_le hc hv

end Lookup

section CombinerWf

variable {log : PMap Nat (LogEntry DT)} {updates updates' : PMap ReqId (UpdateState DT)}
  {tail vub vub' : Nat} {n : NodeId} {v : Nat} {c : CombinerState}

/-- A waiting request is placed at a log position its node wrote and has not applied. -/
theorem CombinerWf.placed_of_pending (h : CombinerWf log updates tail vub n v c) {rid : ReqId}
    (hrid : rid ∈ c.pending) :
    ∃ i ∈ localIdxs log n (c.currentVersion v) tail, placedIdx updates rid = some i := by
  have hmem : placedIdx updates rid ∈ c.pending.map (placedIdx updates) :=
    List.mem_map_of_mem hrid
  rw [h.pending, List.mem_map] at hmem
  obtain ⟨i, hi, heq⟩ := hmem
  exact ⟨i, hi, heq.symm⟩

/-- A queued request waits or has been answered. -/
theorem mem_queuedOps {rid : ReqId} :
    rid ∈ c.queuedOps ↔ rid ∈ c.answered ∨ rid ∈ c.pending := by
  rw [← List.mem_append, CombinerState.answered, CombinerState.pending, List.take_append_drop]

/-- A request that has only just entered is in no queue. -/
theorem CombinerWf.not_queued_of_init (h : CombinerWf log updates tail vub n v c) {rid : ReqId}
    {op : DT.WriteOperation} (hinit : updates rid = some (.init op)) : rid ∉ c.queuedOps := by
  intro hmem
  rcases mem_queuedOps.mp hmem with hans | hpend
  · exact h.answered rid hans _ hinit
  · obtain ⟨i, _, hi⟩ := h.placed_of_pending hpend
    simp [placedIdx, hinit] at hi

/-- Only the log indices of waiting requests and the results of answered ones matter. -/
theorem CombinerWf.frame (h : CombinerWf log updates tail vub n v c) (hvub : vub ≤ vub')
    (hpend : ∀ rid ∈ c.pending, placedIdx updates' rid = placedIdx updates rid)
    (hans : ∀ rid ∈ c.answered, ∀ u, updates' rid = some u → u.HasResult) :
    CombinerWf log updates' tail vub' n v c where
  phase := by
    have hphase := h.phase
    cases c <;> simp only [CombinerState.PhaseWf] at hphase ⊢ <;> omega
  pending := by
    rw [← h.pending]
    exact List.map_congr_left hpend
  noneAfter := h.noneAfter
  answered := hans
  nodup := h.nodup

/-- An entry of another node does not concern a combiner. -/
theorem CombinerWf.append_remote (h : CombinerWf log updates tail vub n v c)
    {entry : LogEntry DT} (hnode : entry.nodeId ≠ n) (hcur : c.currentVersion v ≤ tail) :
    CombinerWf (log.insert tail entry) updates (tail + 1) vub n v c where
  phase := by
    have hphase := h.phase
    cases c <;> simp only [CombinerState.PhaseWf] at hphase ⊢ <;> omega
  pending := by
    rw [h.pending, localIdxs_insert_remote hcur hnode]
  noneAfter := by
    rintro q lversion idx loopTail rfl
    have hle : loopTail ≤ tail := h.phase.2.2.1
    rw [localIdxs_insert_remote hle hnode]
    exact h.noneAfter q lversion idx loopTail rfl
  answered := h.answered
  nodup := h.nodup

/-- An own entry extends the log and the queue alike. -/
theorem CombinerWf.append_local {rid : ReqId} {queuedOps : List ReqId}
    (h : CombinerWf log updates tail vub n v (.placed queuedOps)) (hrid : rid ∉ queuedOps)
    (hcur : v ≤ tail) (op : DT.WriteOperation) :
    CombinerWf (log.insert tail ⟨op, n⟩) (updates.insert rid (.placed op tail)) (tail + 1) vub
      n v (.placed (queuedOps ++ [rid])) where
  phase := trivial
  pending := by
    have hold : queuedOps.map (placedIdx updates) = (localIdxs log n v tail).map some :=
      h.pending
    have hsame : queuedOps.map (placedIdx (updates.insert rid (.placed op tail))) =
        queuedOps.map (placedIdx updates) :=
      List.map_congr_left fun r hr ↦ by
        have hne : r ≠ rid := fun heq ↦ hrid (heq ▸ hr)
        simp [placedIdx, hne]
    have hlast : placedIdx (updates.insert rid (.placed op tail)) rid = some tail := by
      simp [placedIdx]
    change (queuedOps ++ [rid]).map _ =
      (localIdxs (log.insert tail ⟨op, n⟩) n v (tail + 1)).map some
    rw [localIdxs_insert_local hcur rfl, List.map_append, List.map_append, hsame, hold,
      List.map_singleton, List.map_singleton, hlast]
  noneAfter := fun _ _ _ _ hloop ↦ nomatch hloop
  answered := fun _ hmem ↦ nomatch hmem
  nodup := List.nodup_append'.mpr ⟨h.nodup, List.nodup_singleton rid,
    List.disjoint_singleton.mpr hrid⟩

end CombinerWf

/-- Updates stay well formed when the log is appended to. -/
theorem UpdateWf.append {log : PMap Nat (LogEntry DT)} {tail vub : Nat} {u : UpdateState DT}
    (h : UpdateWf log tail vub u) (hvub : vub ≤ tail) (entry : LogEntry DT) :
    UpdateWf (log.insert tail entry) (tail + 1) vub u := by
  cases u with
  | init => trivial
  | placed op idx =>
    obtain ⟨hlt, e, he, hop⟩ := h
    exact ⟨Nat.lt_succ_of_lt hlt, e, by rwa [PMap.insert_of_ne _ _ (by omega)], hop⟩
  | applied ret idx =>
    obtain ⟨hlt, e, he, hret⟩ := h
    refine ⟨Nat.lt_succ_of_lt hlt, e, by rwa [PMap.insert_of_ne _ _ (by omega)], ?_⟩
    rw [computeNrstate_insert _ (by omega), hret]
  | done ret idx =>
    obtain ⟨hlt, e, he, hret⟩ := h
    refine ⟨hlt, e, by rwa [PMap.insert_of_ne _ _ (by omega)], ?_⟩
    rw [computeNrstate_insert _ (by omega), hret]

/-- Reads stay well formed while versions grow and the log is appended to. -/
theorem ReadWf.mono {log log' : PMap Nat (LogEntry DT)} {vub vub' numReplicas : Nat}
    {current current' : NodeId → Nat} {r : ReadonlyState DT}
    (h : ReadWf log vub numReplicas current r) (hvub : vub ≤ vub')
    (hcur : ∀ n, current n ≤ current' n)
    (hlog : ∀ v, v ≤ vub → computeNrstate log' v = computeNrstate log v) :
    ReadWf log' vub' numReplicas current' r := by
  cases r with
  | init => trivial
  | versionUpperBound op nodeId version => exact Nat.le_trans h hvub
  | readyToRead op nodeId version =>
    exact ⟨h.1, h.2.1.trans hvub, h.2.2.trans (hcur nodeId)⟩
  | done op nodeId version ret =>
    obtain ⟨hn, v, hle, hv, hvc, hret⟩ := h
    exact ⟨hn, v, hle, hv.trans hvub, hvc.trans (hcur nodeId), by rw [hlog v hv, hret]⟩

section Preservation

variable {s : State DT}

/-- Recording a well-formed read keeps the invariant. -/
theorem Inv.insertRead (h : Inv s) (rid : ReqId) {r : ReadonlyState DT}
    (hr : ReadWf s.log s.versionUpperBound s.numReplicas s.currentLocalVersion r) :
    Inv { s with localReads := s.localReads.insert rid r } :=
  { h with
    reads_wf := by
      intro rid' r' hr'
      rcases (PMap.insert_eq_some _ _ _ _ _).mp hr' with ⟨_, heq⟩ | ⟨_, hold⟩
      · exact heq ▸ hr
      · exact h.reads_wf rid' r' hold }

/-- Consuming a read keeps the invariant. -/
theorem Inv.removeRead (h : Inv s) (rid : ReqId) :
    Inv { s with localReads := s.localReads.remove rid } :=
  { h with
    reads_wf := by
      intro rid' r' hr'
      exact h.reads_wf rid' r' ((PMap.remove_eq_some _ _ _ _).mp hr').2 }

/-- Updates may change as long as waiting requests keep their log index and answered ones
keep a result. -/
theorem Inv.setUpdates (h : Inv s) {updates : PMap ReqId (UpdateState DT)}
    (hwf : ∀ rid u, updates rid = some u → UpdateWf s.log s.tail s.versionUpperBound u)
    (hpend : ∀ n c, s.combiner n = some c → ∀ rid ∈ c.pending,
      placedIdx updates rid = placedIdx s.localUpdates rid)
    (hans : ∀ n c, s.combiner n = some c → ∀ rid ∈ c.answered, ∀ u,
      updates rid = some u → u.HasResult) :
    Inv { s with localUpdates := updates } :=
  { h with
    combiner_wf := fun n c v hc hv ↦
      (h.combiner_wf n c v hc hv).frame (Nat.le_refl _) (hpend n c hc) (hans n c hc)
    updates_wf := hwf }

private theorem Inv.combinerDom_insert (h : Inv s) {n : NodeId} {c : CombinerState}
    (hc : s.combiner n = some c) (c' : CombinerState) (m : NodeId) :
    (∃ d, s.combiner.insert n c' m = some d) ↔ m < s.numReplicas := by
  by_cases hm : m = n
  · subst hm
    simpa using (h.combiner_dom m).mp ⟨c, hc⟩
  · simpa [hm] using h.combiner_dom m

-- Queues stay disjoint when a combiner gives requests up or takes one nobody has.
private theorem Inv.ridsDistinct_insert (h : Inv s) {n : NodeId} {c c' : CombinerState}
    (hc : s.combiner n = some c)
    (hq : ∀ rid ∈ c'.queuedOps, rid ∈ c.queuedOps ∨
      ∀ m d, s.combiner m = some d → rid ∉ d.queuedOps)
    (m m' : NodeId) (d d' : CombinerState) (rid : ReqId)
    (hd : s.combiner.insert n c' m = some d) (hd' : s.combiner.insert n c' m' = some d')
    (hm : rid ∈ d.queuedOps) (hm' : rid ∈ d'.queuedOps) : m = m' := by
  have hown : ∀ {k e}, s.combiner.insert n c' k = some e → rid ∈ e.queuedOps →
      (∃ e', s.combiner k = some e' ∧ rid ∈ e'.queuedOps) ∨
        (k = n ∧ ∀ m d, s.combiner m = some d → rid ∉ d.queuedOps) := by
    intro k e he hmem
    rcases (PMap.insert_eq_some _ _ _ _ _).mp he with ⟨rfl, rfl⟩ | ⟨_, hold⟩
    · rcases hq rid hmem with hin | hnone
      · exact .inl ⟨c, hc, hin⟩
      · exact .inr ⟨rfl, hnone⟩
    · exact .inl ⟨e, hold, hmem⟩
  rcases hown hd hm with ⟨e, he, hin⟩ | ⟨rfl, hnone⟩
  · rcases hown hd' hm' with ⟨e', he', hin'⟩ | ⟨_, hnone⟩
    · exact h.rids_distinct m m' e e' rid he he' hin hin'
    · exact absurd hin (hnone m e he)
  · rcases hown hd' hm' with ⟨e', he', hin'⟩ | ⟨rfl, _⟩
    · exact absurd hin' (hnone m' e' he')
    · rfl

/-- A combiner may change phase when it keeps its queue and the prefix it has applied. -/
theorem Inv.setCombiner (h : Inv s) {n : NodeId} {c c' : CombinerState}
    (hc : s.combiner n = some c) (hq : ∀ rid ∈ c'.queuedOps, rid ∈ c.queuedOps)
    (hcur : ∀ v, s.localVersions n = some v → c'.currentVersion v = c.currentVersion v)
    (hwf : ∀ v, s.localVersions n = some v →
      CombinerWf s.log s.localUpdates s.tail s.versionUpperBound n v c') :
    Inv { s with combiner := s.combiner.insert n c' } := by
  have hcur' : ∀ m, { s with combiner := s.combiner.insert n c' }.currentLocalVersion m =
      s.currentLocalVersion m := by
    intro m
    by_cases hm : m = n
    · subst hm
      obtain ⟨v, hv⟩ := h.exists_version hc
      rw [currentLocalVersion_eq hc hv, ← hcur v hv]
      exact currentLocalVersion_eq (PMap.insert_self _ _ _) hv
    · simp [State.currentLocalVersion, hm]
  exact
    { h with
      combiner_dom := h.combinerDom_insert hc c'
      combiner_wf := by
        intro m c₁ v hc₁ hv
        rcases (PMap.insert_eq_some _ _ _ _ _).mp hc₁ with ⟨rfl, rfl⟩ | ⟨_, hold⟩
        · exact hwf v hv
        · exact h.combiner_wf m c₁ v hold hv
      rids_distinct := h.ridsDistinct_insert hc fun rid hrid ↦ .inl (hq rid hrid)
      reads_wf := fun rid r hr ↦
        (h.reads_wf rid r hr).mono (Nat.le_refl _) (fun m ↦ (hcur' m).ge) fun _ _ ↦ rfl
      replica_state := by
        intro m d hd
        rw [hcur' m]
        exact h.replica_state m d hd }

/-- Placing an update appends it to the log and to its combiner's queue. -/
theorem Inv.placeOp (h : Inv s) {n : NodeId} {rid : ReqId} {queuedOps : List ReqId}
    {op : DT.WriteOperation} (hc : s.combiner n = some (.placed queuedOps))
    (hu : s.localUpdates rid = some (.init op)) :
    Inv { s with
      tail := s.tail + 1
      log := s.log.insert s.tail ⟨op, n⟩
      localUpdates := s.localUpdates.insert rid (.placed op s.tail)
      combiner := s.combiner.insert n (.placed (queuedOps ++ [rid])) } := by
  have hfree : ∀ m c, s.combiner m = some c → rid ∉ c.queuedOps := by
    intro m c hm
    obtain ⟨v, hv⟩ := h.exists_version hm
    exact (h.combiner_wf m c v hm hv).not_queued_of_init hu
  have hcur : ∀ m, { s with
      tail := s.tail + 1
      log := s.log.insert s.tail ⟨op, n⟩
      localUpdates := s.localUpdates.insert rid (.placed op s.tail)
      combiner := s.combiner.insert n (.placed (queuedOps ++ [rid])) }.currentLocalVersion m =
      s.currentLocalVersion m := by
    intro m
    by_cases hm : m = n
    · subst hm
      simp [State.currentLocalVersion, hc, CombinerState.currentVersion]
    · simp [State.currentLocalVersion, hm]
  exact
    { h with
      combiner_dom := h.combinerDom_insert hc _
      log_dom := by
        intro i
        by_cases hi : i = s.tail
        · simp [hi]
        · have hlog := h.log_dom i
          simp only [PMap.insert_of_ne _ _ hi, hlog]
          omega
      upperBound_le := Nat.le_succ_of_le h.upperBound_le
      combiner_wf := by
        intro m c v hm hv
        rcases (PMap.insert_eq_some _ _ _ _ _).mp hm with ⟨rfl, rfl⟩ | ⟨hne, hold⟩
        · exact (h.combiner_wf m _ v hc hv).append_local (hfree m _ hc)
            (h.currentVersion_le hc hv) op
        · have hwf := h.combiner_wf m c v hold hv
          have hq := hfree m c hold
          refine ((hwf.frame (Nat.le_refl _) ?_ ?_).append_remote (Ne.symm hne)
            (h.currentVersion_le hold hv))
          · intro r hr
            have hne' : r ≠ rid := fun heq ↦ hq (heq ▸ mem_queuedOps.mpr (.inr hr))
            simp [placedIdx, hne']
          · intro r hr u hu'
            have hne' : r ≠ rid := fun heq ↦ hq (heq ▸ mem_queuedOps.mpr (.inl hr))
            exact hwf.answered r hr u (by simpa [hne'] using hu')
      rids_distinct := h.ridsDistinct_insert hc fun r hr ↦ by
        rcases List.mem_append.mp hr with hold | hnew
        · exact .inl hold
        · exact .inr (List.mem_singleton.mp hnew ▸ hfree)
      reads_wf := fun r st hr ↦
        (h.reads_wf r st hr).mono (Nat.le_refl _) (fun m ↦ (hcur m).ge) fun v hv ↦
          computeNrstate_insert _ (hv.trans h.upperBound_le)
      updates_wf := by
        intro r u hu'
        rcases (PMap.insert_eq_some _ _ _ _ _).mp hu' with ⟨_, rfl⟩ | ⟨_, hold⟩
        · exact ⟨Nat.lt_succ_self _, _, PMap.insert_self _ _ _, rfl⟩
        · exact (h.updates_wf r u hold).append h.upperBound_le _
      replica_state := by
        intro m d hd
        have hle := h.currentLocalVersion_le ((h.replicas_dom m).mp ⟨d, hd⟩)
        rw [hcur m, computeNrstate_insert _ hle]
        exact h.replica_state m d hd }

-- Applying the entry at the loop's version to the replica, whatever becomes of the update that
-- placed it.
private theorem Inv.dispatch (h : Inv s) {n : NodeId} {queuedOps : List ReqId}
    {lversion idx idx' tail : Nat} {d : DT.View} {entry : LogEntry DT}
    {updates : PMap ReqId (UpdateState DT)}
    (hc : s.combiner n = some (.loop queuedOps lversion idx tail))
    (hd : s.replicas n = some d) (hlog : s.log lversion = some entry)
    (hwf : ∀ rid u, updates rid = some u → UpdateWf s.log s.tail s.versionUpperBound u)
    (hnew : ∀ v, s.localVersions n = some v →
      CombinerWf s.log updates s.tail s.versionUpperBound n v
        (.loop queuedOps (lversion + 1) idx' tail))
    (hothers : ∀ m c v, m ≠ n → s.combiner m = some c → s.localVersions m = some v →
      CombinerWf s.log updates s.tail s.versionUpperBound m v c) :
    Inv { s with
      localUpdates := updates
      replicas := s.replicas.insert n (DT.dispatchMutSpec d entry.op).1
      combiner := s.combiner.insert n (.loop queuedOps (lversion + 1) idx' tail) } := by
  obtain ⟨v, hv⟩ := h.exists_version hc
  have hcur : s.currentLocalVersion n = lversion := currentLocalVersion_eq hc hv
  have hcur' : ∀ m, { s with
      localUpdates := updates
      replicas := s.replicas.insert n (DT.dispatchMutSpec d entry.op).1
      combiner := s.combiner.insert n (.loop queuedOps (lversion + 1) idx' tail)
      }.currentLocalVersion m = if m = n then lversion + 1 else s.currentLocalVersion m := by
    intro m
    by_cases hm : m = n
    · simp [State.currentLocalVersion, CombinerState.currentVersion, hm]
    · simp [State.currentLocalVersion, hm]
  exact
    { h with
      replicas_dom := by
        intro m
        by_cases hm : m = n
        · subst hm
          simpa using (h.replicas_dom m).mp ⟨d, hd⟩
        · simpa [hm] using h.replicas_dom m
      combiner_dom := h.combinerDom_insert hc _
      combiner_wf := by
        intro m c v hm hv'
        rcases (PMap.insert_eq_some _ _ _ _ _).mp hm with ⟨rfl, rfl⟩ | ⟨hne, hold⟩
        · exact hnew v hv'
        · exact hothers m c v hne hold hv'
      rids_distinct := h.ridsDistinct_insert hc fun rid hrid ↦ .inl hrid
      reads_wf := fun rid r hr ↦
        (h.reads_wf rid r hr).mono (Nat.le_refl _) (fun m ↦ by
          rw [hcur' m]
          split
          · next heq => rw [heq, hcur]; exact Nat.le_succ _
          · exact Nat.le_refl _) fun _ _ ↦ rfl
      updates_wf := hwf
      replica_state := by
        intro m d' hd'
        rw [hcur' m]
        rcases (PMap.insert_eq_some _ _ _ _ _).mp hd' with ⟨rfl, rfl⟩ | ⟨hne, hold⟩
        · rw [if_pos rfl, computeNrstate_succ hlog, ← hcur, ← h.replica_state m d hd]
        · rw [if_neg hne]
          exact h.replica_state m d' hold }

/-- A local entry at the loop's version belongs to the next queued request. -/
theorem CombinerWf.next_local {log : PMap Nat (LogEntry DT)}
    {updates : PMap ReqId (UpdateState DT)} {gtail vub v : Nat} {n : NodeId}
    {queuedOps : List ReqId} {lversion idx tail : Nat} {entry : LogEntry DT}
    (h : CombinerWf log updates gtail vub n v (.loop queuedOps lversion idx tail))
    (hlog : log lversion = some entry) (hlt : lversion < tail) (hnode : entry.nodeId = n) :
    ∃ rid, queuedOps[idx]? = some rid ∧ placedIdx updates rid = some lversion ∧
      queuedOps.drop idx = rid :: queuedOps.drop (idx + 1) ∧
      (queuedOps.drop (idx + 1)).map (placedIdx updates) =
        (localIdxs log n (lversion + 1) gtail).map some := by
  have htail : tail ≤ gtail := h.phase.2.2.1
  have hpend : (queuedOps.drop idx).map (placedIdx updates) =
      (localIdxs log n lversion gtail).map some := h.pending
  rw [localIdxs_of_local (by omega) hlog hnode, List.map_cons] at hpend
  have hidx : idx < queuedOps.length := by
    by_contra hge
    rw [List.drop_eq_nil_of_le (by omega)] at hpend
    simp at hpend
  have hdrop : queuedOps.drop idx = queuedOps[idx] :: queuedOps.drop (idx + 1) :=
    List.drop_eq_getElem_cons hidx
  rw [hdrop, List.map_cons, List.cons.injEq] at hpend
  exact ⟨queuedOps[idx], List.getElem?_eq_getElem hidx, hpend.1, hdrop, hpend.2⟩

/-- The request a combiner answers next is placed at the version of its loop. -/
theorem Inv.next_placed (h : Inv s) {n : NodeId} {queuedOps : List ReqId}
    {lversion idx tail : Nat} {entry : LogEntry DT}
    (hc : s.combiner n = some (.loop queuedOps lversion idx tail))
    (hlog : s.log lversion = some entry) (hlt : lversion < tail) (hnode : entry.nodeId = n) :
    ∃ rid op, queuedOps[idx]? = some rid ∧
      s.localUpdates rid = some (.placed op lversion) := by
  obtain ⟨v, hv⟩ := h.exists_version hc
  obtain ⟨rid, hget, hplaced, _⟩ := (h.combiner_wf n _ v hc hv).next_local hlog hlt hnode
  obtain ⟨op, hop⟩ := placedIdx_eq_some.mp hplaced
  exact ⟨rid, op, hget, hop⟩

/-- Applying an own entry answers the next queued request. -/
theorem Inv.dispatchLocal (h : Inv s) {n : NodeId} {queuedOps : List ReqId}
    {lversion idx tail : Nat} {d : DT.View} {rid : ReqId} {entry : LogEntry DT}
    (hc : s.combiner n = some (.loop queuedOps lversion idx tail))
    (hd : s.replicas n = some d) (hrid : ∀ r, queuedOps[idx]? = some r → rid = r)
    (hlog : s.log lversion = some entry) (hlt : lversion < tail) (hnode : entry.nodeId = n) :
    Inv { s with
      localUpdates := s.localUpdates.insert rid
        (.applied (DT.dispatchMutSpec d entry.op).2 lversion)
      replicas := s.replicas.insert n (DT.dispatchMutSpec d entry.op).1
      combiner := s.combiner.insert n (.loop queuedOps (lversion + 1) (idx + 1) tail) } := by
  obtain ⟨v, hv⟩ := h.exists_version hc
  have hwf := h.combiner_wf n _ v hc hv
  obtain ⟨rid', hget, hplaced, hdrop, hrest⟩ := hwf.next_local hlog hlt hnode
  obtain rfl : rid = rid' := hrid rid' hget
  have hcur : s.currentLocalVersion n = lversion := currentLocalVersion_eq hc hv
  have htail : lversion < s.tail := (h.log_dom lversion).mp ⟨entry, hlog⟩
  -- any other waiting request sits at another log index
  have hkeep : ∀ r, placedIdx s.localUpdates r ≠ some lversion →
      placedIdx (s.localUpdates.insert rid
        (.applied (DT.dispatchMutSpec d entry.op).2 lversion)) r =
        placedIdx s.localUpdates r := by
    intro r hr
    have hne : r ≠ rid := fun heq ↦ hr (heq ▸ hplaced)
    simp [placedIdx, hne]
  have hresult : ∀ r u, s.localUpdates.insert rid
      (.applied (DT.dispatchMutSpec d entry.op).2 lversion) r = some u →
      (r ≠ rid → ∀ u', s.localUpdates r = some u' → u'.HasResult) → u.HasResult := by
    intro r u hu hold
    rcases (PMap.insert_eq_some _ _ _ _ _).mp hu with ⟨_, rfl⟩ | ⟨hne, hu'⟩
    · trivial
    · exact hold hne u hu'
  refine h.dispatch hc hd hlog ?_ ?_ ?_
  · intro r u hu
    rcases (PMap.insert_eq_some _ _ _ _ _).mp hu with ⟨_, rfl⟩ | ⟨_, hold⟩
    · refine ⟨htail, entry, hlog, ?_⟩
      rw [← hcur, ← h.replica_state n d hd]
    · exact h.updates_wf r u hold
  · intro v' hv'
    obtain rfl : v = v' := Option.some.inj (hv.symm.trans hv')
    obtain ⟨hlv, hle, htl, hidx⟩ := hwf.phase
    have hidx' : idx < queuedOps.length := (List.getElem?_eq_some_iff.mp hget).1
    exact
      { phase := ⟨Nat.le_succ_of_le hlv, hlt, htl, hidx'⟩
        pending := by
          change (queuedOps.drop (idx + 1)).map _ =
            (localIdxs s.log n (lversion + 1) s.tail).map some
          rw [← hrest]
          refine List.map_congr_left fun r hr ↦ hkeep r fun heq ↦ ?_
          have hmem : placedIdx s.localUpdates r ∈
              (localIdxs s.log n (lversion + 1) s.tail).map some :=
            hrest ▸ List.mem_map_of_mem hr
          obtain ⟨i, hi, hir⟩ := List.mem_map.mp hmem
          have hle' := (mem_localIdxs.mp hi).1.1
          have : i = lversion := Option.some.inj (hir.trans heq)
          omega
        noneAfter := by
          rintro q lv i t heq
          cases heq
          exact hwf.noneAfter _ _ _ _ rfl
        answered := by
          intro r hr u hu
          refine hresult r u hu fun hne u' hu' ↦ ?_
          have hmem : r ∈ queuedOps.take (idx + 1) := hr
          rw [List.take_add_one, hget] at hmem
          rcases List.mem_append.mp hmem with hold | hlast
          · exact hwf.answered r hold u' hu'
          · exact absurd (by simpa using hlast) hne
        nodup := hwf.nodup }
  · intro m c v' hm hc' hv'
    have hwf' := h.combiner_wf m c v' hc' hv'
    refine hwf'.frame (Nat.le_refl _) ?_ ?_
    · intro r hr
      refine hkeep r fun heq ↦ hm ?_
      obtain ⟨i, hi, hir⟩ := hwf'.placed_of_pending hr
      obtain rfl : i = lversion := Option.some.inj (hir.symm.trans heq)
      obtain ⟨_, e, he, hem⟩ := mem_localIdxs.mp hi
      rw [hlog] at he
      cases he
      exact hem.symm.trans hnode
    · exact fun r hr u hu ↦ hresult r u hu fun _ u' hu' ↦ hwf'.answered r hr u' hu'

/-- Applying a foreign entry answers nobody. -/
theorem Inv.dispatchRemote (h : Inv s) {n : NodeId} {queuedOps : List ReqId}
    {lversion idx tail : Nat} {d : DT.View} {entry : LogEntry DT}
    (hc : s.combiner n = some (.loop queuedOps lversion idx tail))
    (hd : s.replicas n = some d) (hlog : s.log lversion = some entry) (hlt : lversion < tail)
    (hnode : entry.nodeId ≠ n) :
    Inv { s with
      replicas := s.replicas.insert n (DT.dispatchMutSpec d entry.op).1
      combiner := s.combiner.insert n (.loop queuedOps (lversion + 1) idx tail) } := by
  have htail : lversion < s.tail := (h.log_dom lversion).mp ⟨entry, hlog⟩
  refine h.dispatch hc hd hlog h.updates_wf ?_ fun m c v _ hm hv ↦ h.combiner_wf m c v hm hv
  intro v hv
  have hwf := h.combiner_wf n _ v hc hv
  obtain ⟨hlv, hle, htl, hidx⟩ := hwf.phase
  exact
    { hwf with
      phase := ⟨Nat.le_succ_of_le hlv, hlt, htl, hidx⟩
      pending := by
        have hpend : (queuedOps.drop idx).map (placedIdx s.localUpdates) =
            (localIdxs s.log n lversion s.tail).map some := hwf.pending
        rwa [localIdxs_of_remote htail hlog hnode] at hpend
      noneAfter := by
        rintro q lv i t heq
        cases heq
        exact hwf.noneAfter _ _ _ _ rfl }

/-- When the loop reaches its tail every queued request has been answered. -/
theorem CombinerWf.all_answered {log : PMap Nat (LogEntry DT)}
    {updates : PMap ReqId (UpdateState DT)} {gtail vub v : Nat} {n : NodeId}
    {queuedOps : List ReqId} {idx tail : Nat}
    (h : CombinerWf log updates gtail vub n v (.loop queuedOps tail idx tail)) :
    idx = queuedOps.length := by
  have hpend : (queuedOps.drop idx).map (placedIdx updates) =
      (localIdxs log n tail gtail).map some := h.pending
  rw [h.noneAfter _ _ _ _ rfl, List.map_nil, List.map_eq_nil_iff, List.drop_eq_nil_iff] at hpend
  exact Nat.le_antisymm h.phase.2.2.2 hpend

/-- The version upper bound may grow up to the tail. -/
theorem Inv.raiseUpperBound (h : Inv s) {vub : Nat} (hle : s.versionUpperBound ≤ vub)
    (htail : vub ≤ s.tail) : Inv { s with versionUpperBound := vub } :=
  { h with
    upperBound_le := htail
    version_le := fun n v hv ↦ (h.version_le n v hv).trans hle
    combiner_wf := fun n c v hc hv ↦
      have hwf := h.combiner_wf n c v hc hv
      hwf.frame hle (fun _ _ ↦ rfl) hwf.answered
    reads_wf := fun rid r hr ↦
      (h.reads_wf rid r hr).mono hle (fun _ ↦ Nat.le_refl _) fun _ _ ↦ rfl
    updates_wf := by
      intro rid u hu
      have hwf := h.updates_wf rid u hu
      cases u with
      | init => trivial
      | placed => exact hwf
      | applied => exact hwf
      | done ret idx => exact ⟨hwf.1.trans_le hle, hwf.2⟩ }

/-- Publishing the version of a finished loop. -/
theorem Inv.updateVersionUpperBound (h : Inv s) {n : NodeId} {queuedOps : List ReqId}
    {idx tail : Nat} (hc : s.combiner n = some (.loop queuedOps tail idx tail)) :
    Inv { s with
      versionUpperBound := if tail ≤ s.versionUpperBound then s.versionUpperBound else tail
      combiner := s.combiner.insert n (.updatedVersion queuedOps tail) } := by
  obtain ⟨v, hv⟩ := h.exists_version hc
  have hwf := h.combiner_wf n _ v hc hv
  have htl : tail ≤ s.tail := hwf.phase.2.2.1
  have hub := h.upperBound_le
  have h' : Inv { s with versionUpperBound :=
      if tail ≤ s.versionUpperBound then s.versionUpperBound else tail } :=
    h.raiseUpperBound (by split <;> omega) (by split <;> omega)
  refine h'.setCombiner hc (fun _ hrid ↦ hrid) (fun _ _ ↦ rfl) fun v' hv' ↦ ?_
  have hwf' := h'.combiner_wf n _ v' hc hv'
  obtain rfl := hwf'.all_answered
  exact
    { phase := by
        refine ⟨hwf'.phase.1, ?_⟩
        change tail ≤ if tail ≤ s.versionUpperBound then s.versionUpperBound else tail
        split <;> omega
      pending := hwf'.pending
      noneAfter := fun _ _ _ _ hloop ↦ nomatch hloop
      answered := hwf'.answered
      nodup := hwf'.nodup }

/-- Publishing the local version ends the round. -/
theorem Inv.finish (h : Inv s) {n : NodeId} {queuedOps : List ReqId} {tail : Nat}
    (hc : s.combiner n = some (.updatedVersion queuedOps tail)) :
    Inv { s with
      localVersions := s.localVersions.insert n tail
      combiner := s.combiner.insert n .ready } := by
  obtain ⟨v, hv⟩ := h.exists_version hc
  have hwf := h.combiner_wf n _ v hc hv
  have hcur : ∀ m, { s with
      localVersions := s.localVersions.insert n tail
      combiner := s.combiner.insert n .ready }.currentLocalVersion m =
      s.currentLocalVersion m := by
    intro m
    by_cases hm : m = n
    · simp [State.currentLocalVersion, CombinerState.currentVersion, hm, hc]
    · simp [State.currentLocalVersion, hm]
  exact
    { h with
      versions_dom := by
        intro m
        by_cases hm : m = n
        · subst hm
          simpa using (h.versions_dom m).mp ⟨v, hv⟩
        · simpa [hm] using h.versions_dom m
      combiner_dom := h.combinerDom_insert hc _
      version_le := by
        intro m v' hv'
        rcases (PMap.insert_eq_some _ _ _ _ _).mp hv' with ⟨_, rfl⟩ | ⟨_, hold⟩
        · exact hwf.phase.2
        · exact h.version_le m v' hold
      combiner_wf := by
        intro m c v' hm hv'
        by_cases hmn : m = n
        · subst hmn
          obtain rfl : CombinerState.ready = c := by simpa using hm
          obtain rfl : tail = v' := by simpa using hv'
          exact
            { phase := trivial
              pending := by
                have hpend := hwf.pending
                rw [show (CombinerState.updatedVersion queuedOps tail).pending = [] from
                  List.drop_length] at hpend
                exact hpend
              noneAfter := fun _ _ _ _ hloop ↦ nomatch hloop
              answered := fun _ hmem ↦ nomatch hmem
              nodup := List.nodup_nil }
        · exact h.combiner_wf m c v' (by simpa [hmn] using hm) (by simpa [hmn] using hv')
      rids_distinct := h.ridsDistinct_insert hc fun _ hmem ↦ nomatch hmem
      reads_wf := fun rid r hr ↦
        (h.reads_wf rid r hr).mono (Nat.le_refl _) (fun m ↦ (hcur m).ge) fun _ _ ↦ rfl
      replica_state := by
        intro m d hd
        rw [hcur m]
        exact h.replica_state m d hd }

/-- Every transition keeps the invariant. -/
theorem Inv.transition {post : State DT} (h : Inv s) (hstep : Transition s post) : Inv post := by
  cases hstep with
  | readonlyVersionUpperBound rid op nodeId hread => exact h.insertRead rid (Nat.le_refl _)
  | readonlyReadyToRead rid op nodeId version localHead hread hlocal hsync =>
    have hn := (h.versions_dom nodeId).mp ⟨localHead, hlocal⟩
    obtain ⟨c, hc⟩ := (h.combiner_dom nodeId).mpr hn
    refine h.insertRead rid ⟨hn, h.reads_wf rid _ hread, ?_⟩
    rw [currentLocalVersion_eq hc hlocal]
    exact hsync.trans (h.version_le_current hc hlocal)
  | readonlyApply rid op nodeId version state hread hcombiner hreplica =>
    obtain ⟨hn, hub, hcur⟩ := h.reads_wf rid _ hread
    obtain ⟨v, hv⟩ := h.exists_version hcombiner
    have heq : s.currentLocalVersion nodeId = v := currentLocalVersion_eq hcombiner hv
    refine h.insertRead rid ⟨hn, v, heq ▸ hcur, h.version_le nodeId v hv, heq.ge, ?_⟩
    rw [h.replica_state nodeId state hreplica, heq]
  | readonlyViewOob => exact h
  | updatePlaceOpsInLogOne nodeId rid queuedOps op hcombiner hupdate =>
    exact h.placeOp hcombiner hupdate
  | updateDone rid ret idx hupdate hversion =>
    refine h.setUpdates (fun r u hu ↦ ?_) (fun n c hc r hr ↦ ?_) fun n c hc r hr u hu ↦ ?_
    · rcases (PMap.insert_eq_some _ _ _ _ _).mp hu with ⟨_, rfl⟩ | ⟨_, hold⟩
      · exact ⟨hversion, (h.updates_wf rid _ hupdate).2⟩
      · exact h.updates_wf r u hold
    · by_cases heq : r = rid
      · simp [placedIdx, heq, hupdate]
      · simp [placedIdx, heq]
    · obtain ⟨v, hv⟩ := h.exists_version hc
      rcases (PMap.insert_eq_some _ _ _ _ _).mp hu with ⟨_, rfl⟩ | ⟨_, hold⟩
      · trivial
      · exact (h.combiner_wf n c v hc hv).answered r hr u hold
  | execTrivialStart nodeId hcombiner =>
    refine h.setCombiner hcombiner (fun _ hmem ↦ hmem) (fun _ _ ↦ rfl) fun v hv ↦ ?_
    have hwf := h.combiner_wf nodeId _ v hcombiner hv
    exact
      { phase := trivial, pending := hwf.pending, answered := hwf.answered, nodup := hwf.nodup
        noneAfter := fun _ _ _ _ hloop ↦ nomatch hloop }
  | execLoadLocalVersion nodeId queuedOps lversion hcombiner hlocal =>
    refine h.setCombiner hcombiner (fun _ hmem ↦ hmem) (fun v hv ↦ ?_) fun v hv ↦ ?_
    · exact Option.some.inj (hlocal.symm.trans hv)
    · obtain rfl : lversion = v := Option.some.inj (hlocal.symm.trans hv)
      have hwf := h.combiner_wf nodeId _ lversion hcombiner hv
      exact
        { phase := rfl, pending := hwf.pending, answered := hwf.answered, nodup := hwf.nodup
          noneAfter := fun _ _ _ _ hloop ↦ nomatch hloop }
  | execLoadGlobalHead nodeId queuedOps lversion hcombiner =>
    refine h.setCombiner hcombiner (fun _ hmem ↦ hmem) (fun _ _ ↦ rfl) fun v hv ↦ ?_
    have hwf := h.combiner_wf nodeId _ v hcombiner hv
    exact
      { phase := ⟨hwf.phase.ge, h.currentVersion_le hcombiner hv, Nat.le_refl _, Nat.zero_le _⟩
        pending := hwf.pending, answered := hwf.answered, nodup := hwf.nodup
        noneAfter := by
          rintro q lv i t heq
          cases heq
          exact localIdxs_self }
  | execDispatchLocal nodeId queuedOps lversion idx tail d rid u entry hc hd hrid hu hlog hlt hn =>
    exact h.dispatchLocal hc hd hrid hlog hlt hn
  | execDispatchRemote nodeId queuedOps lversion idx tail d entry hc hd hlog hlt hn =>
    exact h.dispatchRemote hc hd hlog hlt hn
  | execUpdateVersionUpperBound nodeId queuedOps lversion idx tail hc hdone =>
    subst hdone
    exact h.updateVersionUpperBound hc
  | execFinish nodeId queuedOps tail oldLocalHead hc hlocal => exact h.finish hc
  | execFinishNoChange nodeId queuedOps lversion hc hdone =>
    subst hdone
    refine h.setCombiner hc (fun _ hmem ↦ nomatch hmem) (fun v hv ↦ ?_) fun v hv ↦ ?_
    · exact (h.combiner_wf nodeId _ v hc hv).phase.symm
    · have hv' : s.tail = v := (h.combiner_wf nodeId _ v hc hv).phase
      exact
        { phase := trivial
          pending := by
            change [] = (localIdxs s.log nodeId v s.tail).map some
            rw [← hv', localIdxs_self, List.map_nil]
          noneAfter := fun _ _ _ _ hloop ↦ nomatch hloop
          answered := fun _ hmem ↦ nomatch hmem
          nodup := List.nodup_nil }

/-- Every step of the system keeps the invariant. -/
theorem Inv.next {label : AsyncLabel DT} {post : State DT} (h : Inv s)
    (hstep : Next s label post) : Inv post := by
  cases hstep with
  | transition hstep => exact h.transition hstep
  | addTicket rid input hfresh =>
    cases input with
    | read op nodeId => exact h.insertRead rid trivial
    | write op =>
      refine h.setUpdates (fun r u hu ↦ ?_) (fun n c hc r hr ↦ ?_) fun n c hc r hr u hu ↦ ?_
      · rcases (PMap.insert_eq_some _ _ _ _ _).mp hu with ⟨_, rfl⟩ | ⟨_, hold⟩
        · trivial
        · exact h.updates_wf r u hold
      · have hne : r ≠ rid := fun heq ↦
          hfresh.combiner n c hc (heq ▸ mem_queuedOps.mpr (.inr hr))
        simp [placedIdx, hne]
      · obtain ⟨v, hv⟩ := h.exists_version hc
        have hne : r ≠ rid := fun heq ↦
          hfresh.combiner n c hc (heq ▸ mem_queuedOps.mpr (.inl hr))
        exact (h.combiner_wf n c v hc hv).answered r hr u (by simpa [hne] using hu)
  | consumeRead rid => exact h.removeRead rid
  | consumeUpdate rid ret idx hupdate =>
    refine h.setUpdates (fun r u hu ↦ ?_) (fun n c hc r hr ↦ ?_) fun n c hc r hr u hu ↦ ?_
    · exact h.updates_wf r u ((PMap.remove_eq_some _ _ _ _).mp hu).2
    · by_cases heq : r = rid
      · simp [placedIdx, heq, hupdate]
      · simp [placedIdx, heq]
    · obtain ⟨v, hv⟩ := h.exists_version hc
      exact (h.combiner_wf n c v hc hv).answered r hr u ((PMap.remove_eq_some _ _ _ _).mp hu).2

end Preservation

/-- The invariant holds in every reachable state. -/
theorem inv_of_reachable {s : State DT} (h : (machine DT).Reachable s) : Inv s :=
  h.invariant (fun _ ⟨n, _, hs⟩ ↦ hs ▸ inv_initialState n) fun _ _ _ hI hs ↦ hI.next hs

/-! ## Replicas and results -/

/-- The entries at the first positions of the log, up to a version. -/
def IsPrefix (log : PMap Nat (LogEntry DT)) (version : Nat) (entries : List (LogEntry DT)) :
    Prop :=
  entries.length = version ∧ ∀ i, i < version → log i = entries[i]?

/-- The data structure after some updates. -/
def foldUpdates (entries : List (LogEntry DT)) : DT.View :=
  entries.foldl (fun state entry ↦ (DT.dispatchMutSpec state entry.op).1) DT.initSpec

/-- Within the log, the state at a version is the fold of the updates before it. -/
theorem Inv.exists_isPrefix {s : State DT} (h : Inv s) {version : Nat} (hle : version ≤ s.tail) :
    ∃ entries, IsPrefix s.log version entries ∧
      computeNrstate s.log version = foldUpdates entries := by
  induction version with
  | zero => exact ⟨[], ⟨rfl, fun i hi ↦ absurd hi (Nat.not_lt_zero i)⟩, rfl⟩
  | succ version ih =>
    obtain ⟨entries, ⟨hlength, hentries⟩, hfold⟩ := ih (Nat.le_of_succ_le hle)
    obtain ⟨entry, hentry⟩ := (h.log_dom version).mpr hle
    refine ⟨entries ++ [entry], ⟨?_, fun i hi ↦ ?_⟩, ?_⟩
    · rw [List.length_append, hlength, List.length_singleton]
    · rcases Nat.lt_succ_iff_lt_or_eq.mp hi with hlt | heq
      · rw [List.getElem?_append_left (hlength.symm ▸ hlt)]
        exact hentries i hlt
      · rw [heq, hentry, List.getElem?_append_right hlength.le, hlength, Nat.sub_self]
        rfl
    · rw [computeNrstate_succ hentry, hfold, foldUpdates, foldUpdates, List.foldl_append]
      rfl

/-- Every reachable state of the unbounded log has correct replicas and results: each replica
is the fold of the updates before its current version, each finished update returned what its
operation returns after the updates before it, and each finished read what it returns after
some prefix between the version it saw when it started and the current one. -/
theorem unboundedLog_results {s : State DT} (hreach : (machine DT).Reachable s) :
    (∀ n, n < s.numReplicas → ∃ entries, IsPrefix s.log (s.currentLocalVersion n) entries ∧
      s.replicas n = some (foldUpdates entries)) ∧
    (∀ rid ret idx,
      s.localUpdates rid = some (.applied ret idx) ∨ s.localUpdates rid = some (.done ret idx) →
      ∃ entries entry, IsPrefix s.log idx entries ∧ s.log idx = some entry ∧
        ret = (DT.dispatchMutSpec (foldUpdates entries) entry.op).2) ∧
    ∀ rid op n observed ret, s.localReads rid = some (.done op n observed ret) →
      ∃ version entries, observed ≤ version ∧ version ≤ s.versionUpperBound ∧
        IsPrefix s.log version entries ∧ ret = DT.dispatchSpec (foldUpdates entries) op := by
  have h := inv_of_reachable hreach
  refine ⟨fun n hn ↦ ?_, fun rid ret idx hupdate ↦ ?_, fun rid op n observed ret hread ↦ ?_⟩
  · obtain ⟨d, hd⟩ := (h.replicas_dom n).mpr hn
    obtain ⟨entries, hprefix, hfold⟩ := h.exists_isPrefix (h.currentLocalVersion_le hn)
    refine ⟨entries, hprefix, ?_⟩
    rw [hd, h.replica_state n d hd, hfold]
  · have hwf : idx < s.tail ∧ ∃ entry, s.log idx = some entry ∧
        ret = (DT.dispatchMutSpec (computeNrstate s.log idx) entry.op).2 := by
      rcases hupdate with hupdate | hupdate
      · exact h.updates_wf rid _ hupdate
      · obtain ⟨hlt, hret⟩ := h.updates_wf rid _ hupdate
        exact ⟨hlt.trans_le h.upperBound_le, hret⟩
    obtain ⟨hlt, entry, hentry, hret⟩ := hwf
    obtain ⟨entries, hprefix, hfold⟩ := h.exists_isPrefix hlt.le
    exact ⟨entries, entry, hprefix, hentry, hfold ▸ hret⟩
  · obtain ⟨_, version, hobserved, hle, _, hret⟩ := h.reads_wf rid _ hread
    obtain ⟨entries, hprefix, hfold⟩ := h.exists_isPrefix (hle.trans h.upperBound_le)
    exact ⟨version, entries, hobserved, hle, hprefix, hfold ▸ hret⟩

/-- One node adds five to the counter and reads it back. -/
theorem unboundedLog_results_read_back : ∃ s : State counter,
    (∃ entries entry, IsPrefix s.log 0 entries ∧ s.log 0 = some entry ∧
      (0 : Nat) = (counter.dispatchMutSpec (foldUpdates entries) entry.op).2) ∧
    ∃ version entries, 1 ≤ version ∧ version ≤ s.versionUpperBound ∧
      IsPrefix s.log version entries ∧
      (5 : Nat) = counter.dispatchSpec (foldUpdates entries) () := by
  have hrun : ∃ s, (machine counter).Run (initialState counter 1)
      [.start 0 (.write (5 : Nat)), .internal, .internal, .internal, .internal, .internal,
        .internal, .internal, .internal, .start 1 (.read () 0), .internal, .internal, .internal] s ∧
      s.localUpdates 0 = some (.done (0 : Nat) 0) ∧
      s.localReads 1 = some (.done () 0 1 (5 : Nat)) := by
    refine Machine.Run.exists_cons (.addTicket 0 _ ⟨rfl, rfl, fun n c hc ↦ ?_⟩) ?_
    · have hready : c = .ready := by simp_all [initialState]
      rw [hready]
      exact List.not_mem_nil
    refine Machine.Run.exists_cons (.transition (.execTrivialStart 0 rfl)) ?_
    refine Machine.Run.exists_cons
      (.transition (.updatePlaceOpsInLogOne 0 0 [] (5 : Nat) rfl rfl)) ?_
    refine Machine.Run.exists_cons (.transition (.execLoadLocalVersion 0 _ 0 rfl rfl)) ?_
    refine Machine.Run.exists_cons (.transition (.execLoadGlobalHead 0 _ 0 rfl)) ?_
    refine Machine.Run.exists_cons (.transition (.execDispatchLocal 0 [0] 0 0 1 (0 : Nat) 0
      (.placed (5 : Nat) 0) ⟨(5 : Nat), 0⟩ rfl rfl (fun r h ↦ Option.some.inj h) rfl rfl
      (by decide) rfl)) ?_
    refine Machine.Run.exists_cons (.transition (.execUpdateVersionUpperBound 0 _ 1 _ 1 rfl rfl)) ?_
    refine Machine.Run.exists_cons (.transition (.execFinish 0 _ 1 0 rfl rfl)) ?_
    refine Machine.Run.exists_cons (.transition (.updateDone 0 (0 : Nat) 0 rfl (by decide))) ?_
    refine Machine.Run.exists_cons (.addTicket 1 _ ⟨rfl, rfl, fun n c hc ↦ ?_⟩) ?_
    · by_cases hn : n = 0
      · subst hn
        cases hc
        exact List.not_mem_nil
      · simp [initialState, State.addTicket, hn] at hc
    refine Machine.Run.exists_cons (.transition (.readonlyVersionUpperBound 1 () 0 rfl)) ?_
    refine Machine.Run.exists_cons
      (.transition (.readonlyReadyToRead 1 () 0 1 1 rfl rfl (by decide))) ?_
    refine Machine.Run.exists_cons (.transition (.readonlyApply 1 () 0 1 (5 : Nat) rfl rfl rfl)) ?_
    exact ⟨_, .nil _, rfl, rfl⟩
  obtain ⟨s, hrun, hupdate, hread⟩ := hrun
  have h := unboundedLog_results ⟨_, _, ⟨1, Nat.one_pos, rfl⟩, hrun⟩
  exact ⟨s, h.2.1 0 _ 0 (.inr hupdate), h.2.2 1 _ 0 1 _ hread⟩

end UnboundedLog

end NrKernel.NodeReplication
