import NrKernel.NodeReplication.UnboundedLogInvariant

/-!
# Queues match the log

While a combiner applies the log to its replica, the requests it still has to answer are, in
order, the entries its node wrote into the part of the log that is left
(`LogRangeMatchesQueue`, `spec/unbounded_log.rs:1422–1473`). Runs are counted along: how often
`exec_dispatch_local` recorded a result for a request since the request entered. A queued request
gets its result once, and when the loop is done all of them have it.
-/

namespace NrKernel.NodeReplication

open Lib

universe u

namespace UnboundedLog

variable {DT : Dispatch.{u}}

/-! ## Log indices -/

/-- The log index of an update that is in the log (`spec/unbounded_log.rs:219–228`). -/
def UpdateState.logIdx? : UpdateState DT → Option Nat
  | .init _ => none
  | .placed _ idx => some idx
  | .applied _ idx => some idx
  | .done _ idx => some idx

/-- No two updates are at the same position of the log. -/
def IdxsDistinct (updates : PMap ReqId (UpdateState DT)) : Prop :=
  ∀ rid rid' u u' i, updates rid = some u → updates rid' = some u' → u.logIdx? = some i →
    u'.logIdx? = some i → rid = rid'

section Idxs

variable {updates : PMap ReqId (UpdateState DT)} {rid : ReqId} {u v : UpdateState DT}
  {s post : State DT} {label : AsyncLabel DT}

/-- An update may be rewritten when no other one is at its index. -/
theorem IdxsDistinct.insert (h : IdxsDistinct updates)
    (hfresh : ∀ i, u.logIdx? = some i → ∀ rid' u', rid' ≠ rid → updates rid' = some u' →
      u'.logIdx? ≠ some i) : IdxsDistinct (updates.insert rid u) := by
  intro r r' w w' i hr hr' hi hi'
  rcases (PMap.insert_eq_some _ _ _ _ _).mp hr with ⟨rfl, rfl⟩ | ⟨hne, hold⟩
  · rcases (PMap.insert_eq_some _ _ _ _ _).mp hr' with ⟨rfl, _⟩ | ⟨hne', hold'⟩
    · rfl
    · exact absurd hi' (hfresh i hi r' w' hne' hold')
  · rcases (PMap.insert_eq_some _ _ _ _ _).mp hr' with ⟨rfl, rfl⟩ | ⟨_, hold'⟩
    · exact absurd hi (hfresh i hi' r w hne hold)
    · exact h r r' w w' i hold hold' hi hi'

/-- An update may be rewritten when it stays at its index. -/
theorem IdxsDistinct.insert_same (h : IdxsDistinct updates) (hrid : updates rid = some v)
    (hidx : u.logIdx? = v.logIdx?) : IdxsDistinct (updates.insert rid u) :=
  h.insert fun i hi r' u' hne hr' hi' ↦ hne (h r' rid u' v i hr' hrid hi' (hidx ▸ hi))

/-- Indices lie below the tail. -/
theorem Inv.logIdx_lt (h : Inv s) {i : Nat} (hu : s.localUpdates rid = some u)
    (hi : u.logIdx? = some i) : i < s.tail := by
  have hwf := h.updates_wf rid u hu
  have hle := h.upperBound_le
  cases u with
  | init op => cases hi
  | placed op idx =>
    cases hi
    exact hwf.1
  | applied ret idx =>
    cases hi
    exact hwf.1
  | done ret idx =>
    cases hi
    exact hwf.1.trans_le hle

/-- Every step of the machine keeps updates at distinct indices. -/
theorem IdxsDistinct.transition (h : IdxsDistinct s.localUpdates) (hinv : Inv s)
    (hstep : Transition s post) : IdxsDistinct post.localUpdates := by
  cases hstep with
  | readonlyVersionUpperBound | readonlyReadyToRead | readonlyApply | readonlyViewOob
  | execTrivialStart | execLoadLocalVersion | execLoadGlobalHead | execDispatchRemote
  | execUpdateVersionUpperBound | execFinish | execFinishNoChange => exact h
  | updatePlaceOpsInLogOne nodeId rid queuedOps op hcombiner hupdate =>
    refine h.insert fun i hi r' u' _ hr' hi' ↦ ?_
    cases hi
    exact absurd (hinv.logIdx_lt hr' hi') (Nat.lt_irrefl _)
  | updateDone rid ret idx hupdate hversion => exact h.insert_same hupdate rfl
  | execDispatchLocal nodeId queuedOps lversion idx tail d rid u entry hcombiner hreplica hrid
      hupdate hlog hrange hnode =>
    obtain ⟨rid', op, hget, hop⟩ := hinv.next_placed hcombiner hlog hrange hnode
    obtain rfl : rid = rid' := hrid rid' hget
    exact h.insert_same hop rfl

/-- Every step of the system keeps updates at distinct indices. -/
theorem IdxsDistinct.next (h : IdxsDistinct s.localUpdates) (hinv : Inv s)
    (hstep : Next s label post) : IdxsDistinct post.localUpdates := by
  cases hstep with
  | transition hstep => exact h.transition hinv hstep
  | addTicket rid input hfresh =>
    cases input with
    | read op nodeId => exact h
    | write op => exact h.insert fun i hi ↦ nomatch hi
  | consumeRead => exact h
  | consumeUpdate rid =>
    intro r r' u u' i hr hr' hi hi'
    exact h r r' u u' i ((PMap.remove_eq_some _ _ _ _).mp hr).2
      ((PMap.remove_eq_some _ _ _ _).mp hr').2 hi hi'

private theorem idxsDistinct_of_reachable (hreach : (machine DT).Reachable s) :
    IdxsDistinct s.localUpdates := by
  have h : Inv s ∧ IdxsDistinct s.localUpdates := by
    refine hreach.invariant (I := fun s ↦ Inv s ∧ IdxsDistinct s.localUpdates) ?_ ?_
    · rintro _ ⟨n, _, rfl⟩
      exact ⟨inv_initialState n, nofun⟩
    · exact fun _ _ _ hI hs ↦ ⟨hI.1.next hs, hI.2.next hI.1 hs⟩
  exact h.2

end Idxs

/-! ## Counted runs -/

/-- The step `exec_dispatch_local` that records the result of a request
(`spec/unbounded_log.rs:752–775`). -/
inductive DispatchesLocal (rid : ReqId) : State DT → State DT → Prop
  | intro {pre : State DT} (nodeId : NodeId) (queuedOps : List ReqId)
      (lversion idx tail : Nat) (oldNrState : DT.View) (localUpdate : UpdateState DT)
      (logEntry : LogEntry DT)
      (hcombiner : pre.combiner nodeId = some (.loop queuedOps lversion idx tail))
      (hreplica : pre.replicas nodeId = some oldNrState)
      (hrid : ∀ r, queuedOps[idx]? = some r → rid = r)
      (hupdate : pre.localUpdates rid = some localUpdate)
      (hlog : pre.log lversion = some logEntry) (hrange : lversion < tail)
      (hnode : logEntry.nodeId = nodeId) :
      DispatchesLocal rid pre
        { pre with
          localUpdates := pre.localUpdates.insert rid
            (.applied (DT.dispatchMutSpec oldNrState logEntry.op).2 lversion)
          replicas := pre.replicas.insert nodeId (DT.dispatchMutSpec oldNrState logEntry.op).1
          combiner := pre.combiner.insert nodeId
            (.loop queuedOps (lversion + 1) (idx + 1) tail) }

/-- A dispatch answers the next request of the queue, which was placed at the version of the loop;
nothing else about updates and combiners changes. -/
theorem DispatchesLocal.answers {rid : ReqId} {pre post : State DT}
    (h : DispatchesLocal rid pre post) (hinv : Inv pre) :
    ∃ n queuedOps lversion idx tail op ret,
      pre.combiner n = some (.loop queuedOps lversion idx tail) ∧ queuedOps[idx]? = some rid ∧
      pre.localUpdates rid = some (.placed op lversion) ∧
      post.localUpdates = pre.localUpdates.insert rid (.applied ret lversion) ∧
      post.combiner = pre.combiner.insert n (.loop queuedOps (lversion + 1) (idx + 1) tail) := by
  obtain ⟨n, queuedOps, lversion, idx, tail, d, u, entry, hcombiner, hreplica, hrid, hupdate,
    hlog, hrange, hnode⟩ := h
  obtain ⟨rid', op, hget, hop⟩ := hinv.next_placed hcombiner hlog hrange hnode
  obtain rfl : rid = rid' := hrid rid' hget
  exact ⟨n, queuedOps, lversion, idx, tail, op, _, hcombiner, hget, hop, rfl, rfl⟩

/-- A step answers one request. -/
theorem DispatchesLocal.unique {rid rid' : ReqId} {pre post : State DT}
    (h : DispatchesLocal rid pre post) (h' : DispatchesLocal rid' pre post) (hinv : Inv pre) :
    rid = rid' := by
  obtain ⟨n, queue, lv, idx, tail, _, _, hc, hget, _, _, hpost⟩ := h.answers hinv
  obtain ⟨n', queue', lv', idx', tail', _, _, hc', hget', _, _, hpost'⟩ := h'.answers hinv
  have hn : n = n' := by
    by_contra hne
    have hsame : post.combiner n = pre.combiner n := by rw [hpost', PMap.insert_of_ne _ _ hne]
    rw [hpost, PMap.insert_self, hc, Option.some.injEq, CombinerState.loop.injEq] at hsame
    exact absurd hsame.2.1 (Nat.succ_ne_self lv)
  subst hn
  cases hc.symm.trans hc'
  exact Option.some.inj (hget.symm.trans hget')

open scoped Classical in
/-- The number of results recorded for each request since it entered, after one more step. -/
noncomputable def countResults (pre : State DT) (label : AsyncLabel DT) (post : State DT)
    (count : ReqId → Nat) : ReqId → Nat :=
  match label with
  | .start rid _ => Function.update count rid 0
  | .internal => fun rid ↦ if DispatchesLocal rid pre post then count rid + 1 else count rid
  | .done _ _ => count

variable (DT) in
/-- The unbounded log with counted results. -/
noncomputable def countedMachine : Machine (State DT × (ReqId → Nat)) (AsyncLabel DT) :=
  (machine DT).withRecord (fun _ ↦ 0) countResults

/-- No update gains or loses a result and no combiner counts more requests as answered. -/
structure KeepsResults (pre post : State DT) : Prop where
  updates : ∀ rid u', post.localUpdates rid = some u' →
    ∃ u, pre.localUpdates rid = some u ∧ (u'.HasResult ↔ u.HasResult)
  answered : ∀ n c', post.combiner n = some c' → ∀ rid ∈ c'.answered,
    ∃ c, pre.combiner n = some c ∧ rid ∈ c.answered

section KeepsResults

variable {updates : PMap ReqId (UpdateState DT)} {combiner : PMap NodeId CombinerState}
  {pre post : State DT}

private theorem hasResult_insert {rid : ReqId} {u v : UpdateState DT}
    (hu : updates rid = some u) (hiff : v.HasResult ↔ u.HasResult) (r : ReqId)
    (w : UpdateState DT) (hr : updates.insert rid v r = some w) :
    ∃ w', updates r = some w' ∧ (w.HasResult ↔ w'.HasResult) := by
  rcases (PMap.insert_eq_some _ _ _ _ _).mp hr with ⟨rfl, rfl⟩ | ⟨_, hold⟩
  · exact ⟨u, hu, hiff⟩
  · exact ⟨w, hold, .rfl⟩

private theorem answered_insert {n : NodeId} {c c' : CombinerState} (hc : combiner n = some c)
    (hsub : ∀ rid ∈ c'.answered, rid ∈ c.answered) (m : NodeId) (d : CombinerState)
    (hd : combiner.insert n c' m = some d) (rid : ReqId) (hrid : rid ∈ d.answered) :
    ∃ e, combiner m = some e ∧ rid ∈ e.answered := by
  rcases (PMap.insert_eq_some _ _ _ _ _).mp hd with ⟨rfl, rfl⟩ | ⟨_, hold⟩
  · exact ⟨c, hc, hsub rid hrid⟩
  · exact ⟨d, hold, hrid⟩

/-- The steps between two dispatches leave the results alone. -/
theorem KeepsResults.of_transition (hinv : Inv pre) (hstep : Transition pre post)
    (hdispatch : ∀ rid, ¬DispatchesLocal rid pre post) : KeepsResults pre post := by
  cases hstep with
  | readonlyVersionUpperBound | readonlyReadyToRead | readonlyApply | readonlyViewOob =>
    exact ⟨fun _ u hu ↦ ⟨u, hu, .rfl⟩, fun _ c hc _ hrid ↦ ⟨c, hc, hrid⟩⟩
  | updatePlaceOpsInLogOne nodeId rid queuedOps op hcombiner hupdate =>
    exact ⟨hasResult_insert hupdate .rfl, answered_insert hcombiner fun _ hrid ↦ nomatch hrid⟩
  | updateDone rid ret idx hupdate =>
    exact ⟨hasResult_insert hupdate .rfl, fun _ c hc _ hrid ↦ ⟨c, hc, hrid⟩⟩
  | execTrivialStart nodeId hcombiner | execLoadLocalVersion nodeId _ _ hcombiner
  | execLoadGlobalHead nodeId _ _ hcombiner | execFinishNoChange nodeId _ _ hcombiner
  | execFinish nodeId _ _ _ hcombiner =>
    exact ⟨fun _ u hu ↦ ⟨u, hu, .rfl⟩, answered_insert hcombiner (by
      simp [CombinerState.answered, CombinerState.answeredCount])⟩
  | execDispatchRemote nodeId _ _ _ _ _ _ hcombiner =>
    exact ⟨fun _ u hu ↦ ⟨u, hu, .rfl⟩, answered_insert hcombiner fun _ hrid ↦ hrid⟩
  | execUpdateVersionUpperBound nodeId queuedOps lversion idx tail hcombiner hdone =>
    refine ⟨fun _ u hu ↦ ⟨u, hu, .rfl⟩, answered_insert hcombiner fun rid hrid ↦ ?_⟩
    subst hdone
    obtain ⟨v, hv⟩ := hinv.exists_version hcombiner
    rw [(hinv.combiner_wf nodeId _ v hcombiner hv).all_answered]
    exact hrid
  | execDispatchLocal nodeId queuedOps lversion idx tail d rid u entry hcombiner hreplica hrid
      hupdate hlog hrange hnode =>
    exact absurd ⟨nodeId, queuedOps, lversion, idx, tail, d, u, entry, hcombiner, hreplica, hrid,
      hupdate, hlog, hrange, hnode⟩ (hdispatch rid)

end KeepsResults

/-- Updates with a result and requests a combiner counts as answered were answered once, the
others not yet. -/
structure CountWf (s : State DT) (count : ReqId → Nat) : Prop where
  waiting : ∀ rid u, s.localUpdates rid = some u → ¬u.HasResult → count rid = 0
  result : ∀ rid u, s.localUpdates rid = some u → u.HasResult → count rid = 1
  answered : ∀ n c, s.combiner n = some c → ∀ rid ∈ c.answered, count rid = 1

section CountWf

variable {s post : State DT} {count : ReqId → Nat} {label : AsyncLabel DT}

private theorem CountWf.keeps (h : CountWf s count) (hkeeps : KeepsResults s post) :
    CountWf post count where
  waiting := by
    intro rid u' hu' hnot
    obtain ⟨u, hu, hiff⟩ := hkeeps.updates rid u' hu'
    exact h.waiting rid u hu fun hres ↦ hnot (hiff.mpr hres)
  result := by
    intro rid u' hu' hres
    obtain ⟨u, hu, hiff⟩ := hkeeps.updates rid u' hu'
    exact h.result rid u hu (hiff.mp hres)
  answered := by
    intro n c' hc' rid hrid
    obtain ⟨c, hc, hold⟩ := hkeeps.answered n c' hc' rid hrid
    exact h.answered n c hc rid hold

/-- A request enters unanswered. -/
theorem CountWf.enters (h : CountWf s count) {rid : ReqId} {input : InputOperation DT}
    (hstep : Next s (.start rid input) post) :
    CountWf post (Function.update count rid 0) := by
  cases hstep with
  | addTicket _ _ hfresh =>
    have hcount : ∀ r, r ≠ rid → Function.update count rid 0 r = count r :=
      fun r hr ↦ Function.update_of_ne hr 0 count
    have hother : ∀ r u, (s.addTicket rid input).localUpdates r = some u → r ≠ rid →
        s.localUpdates r = some u := by
      intro r u hu hne
      cases input with
      | read op nodeId => exact hu
      | write op => exact (PMap.insert_of_ne _ _ hne).symm.trans hu
    refine ⟨fun r u hu hnot ↦ ?_, fun r u hu hres ↦ ?_, fun n c hc r hr ↦ ?_⟩
    · by_cases hr : r = rid
      · rw [hr, Function.update_self]
      · rw [hcount r hr]
        exact h.waiting r u (hother r u hu hr) hnot
    · have hne : r ≠ rid := by
        rintro rfl
        cases input with
        | read op nodeId => exact nomatch hfresh.updates.symm.trans hu
        | write op =>
          cases (PMap.insert_self _ _ _).symm.trans hu
          exact hres
      rw [hcount r hne]
      exact h.result r u (hother r u hu hne) hres
    · have hold : s.combiner n = some c := by
        cases input with
        | read op nodeId => exact hc
        | write op => exact hc
      have hne : r ≠ rid := by
        rintro rfl
        exact hfresh.combiner n c hold (mem_queuedOps.mpr (.inl hr))
      rw [hcount r hne]
      exact h.answered n c hold r hr

/-- A dispatch answers a request that was not answered before. -/
theorem CountWf.dispatchesLocal (h : CountWf s count) (hinv : Inv s) {rid : ReqId}
    (hstep : DispatchesLocal rid s post) :
    CountWf post (Function.update count rid (count rid + 1)) := by
  obtain ⟨n, queuedOps, lversion, idx, tail, op, ret, hcombiner, hget, hop, hupdates,
    hcombiners⟩ := hstep.answers hinv
  have hzero : count rid = 0 := h.waiting rid _ hop id
  have hone : Function.update count rid (count rid + 1) rid = 1 := by
    rw [Function.update_self, hzero]
  have hcount : ∀ r, r ≠ rid → Function.update count rid (count rid + 1) r = count r :=
    fun r hr ↦ Function.update_of_ne hr _ count
  refine ⟨fun r w hw hnot ↦ ?_, fun r w hw hres ↦ ?_, fun m c hc r hr ↦ ?_⟩
  · rw [hupdates] at hw
    rcases (PMap.insert_eq_some _ _ _ _ _).mp hw with ⟨_, rfl⟩ | ⟨hne, hold⟩
    · exact absurd trivial hnot
    · rw [hcount r hne]
      exact h.waiting r w hold hnot
  · rw [hupdates] at hw
    rcases (PMap.insert_eq_some _ _ _ _ _).mp hw with ⟨rfl, _⟩ | ⟨hne, hold⟩
    · exact hone
    · rw [hcount r hne]
      exact h.result r w hold hres
  · by_cases hne : r = rid
    · rw [hne, hone]
    · rw [hcount r hne]
      rw [hcombiners] at hc
      rcases (PMap.insert_eq_some _ _ _ _ _).mp hc with ⟨_, rfl⟩ | ⟨_, hold⟩
      · -- the answered part of the queue grew by the request of this step
        have hmem : r ∈ queuedOps.take (idx + 1) := hr
        rw [List.take_add_one, hget] at hmem
        rcases List.mem_append.mp hmem with hold | hlast
        · exact h.answered n _ hcombiner r hold
        · exact absurd (by simpa using hlast) hne
      · exact h.answered m c hold r hr

private theorem countResults_of_dispatchesLocal (hinv : Inv s) {rid : ReqId}
    (hstep : DispatchesLocal rid s post) :
    countResults s .internal post count = Function.update count rid (count rid + 1) := by
  funext r
  by_cases hr : r = rid
  · rw [hr, Function.update_self]
    exact if_pos hstep
  · rw [Function.update_of_ne hr]
    exact if_neg fun h ↦ hr (h.unique hstep hinv)

/-- Every step keeps the counts right. -/
theorem CountWf.next (h : CountWf s count) (hinv : Inv s) (hstep : Next s label post) :
    CountWf post (countResults s label post count) := by
  cases hstep with
  | transition hstep =>
    by_cases hdispatch : ∃ rid, DispatchesLocal rid s post
    · obtain ⟨rid, hrid⟩ := hdispatch
      rw [countResults_of_dispatchesLocal hinv hrid]
      exact h.dispatchesLocal hinv hrid
    · have hnone : ∀ rid, ¬DispatchesLocal rid s post := fun rid hrid ↦ hdispatch ⟨rid, hrid⟩
      have hcount : countResults s .internal post count = count :=
        funext fun rid ↦ if_neg (hnone rid)
      rw [hcount]
      exact h.keeps (.of_transition hinv hstep hnone)
  | addTicket rid input hfresh => exact h.enters (.addTicket rid input hfresh)
  | consumeRead =>
    exact h.keeps ⟨fun _ u hu ↦ ⟨u, hu, .rfl⟩, fun _ c hc _ hrid ↦ ⟨c, hc, hrid⟩⟩
  | consumeUpdate =>
    exact h.keeps ⟨fun _ u hu ↦ ⟨u, ((PMap.remove_eq_some _ _ _ _).mp hu).2, .rfl⟩,
      fun _ c hc _ hrid ↦ ⟨c, hc, hrid⟩⟩

private theorem countWf_of_reachable (hreach : (countedMachine DT).Reachable (s, count)) :
    CountWf s count := by
  refine hreach.record_invariant ?_ fun s label post count hreach h hstep ↦
    h.next (inv_of_reachable hreach) hstep
  rintro _ ⟨numberOfNodes, _, rfl⟩
  refine ⟨fun rid u hu ↦ ?_, fun rid u hu ↦ ?_, fun n c hc rid hrid ↦ ?_⟩
  · cases hu
  · cases hu
  · have hready : c = .ready := by simp_all [initialState]
    rw [hready] at hrid
    cases hrid

end CountWf

/-! ## The queue of a running loop -/

section Queue

variable {log : PMap Nat (LogEntry DT)} {n : NodeId}

-- Positions past the middle of a range do not count when the node wrote none of them.
private theorem localIdxs_eq_of_noneAfter {lower middle upper : Nat} (hlower : lower ≤ middle)
    (hupper : middle ≤ upper) (hnone : localIdxs log n middle upper = []) :
    localIdxs log n lower upper = localIdxs log n lower middle := by
  rw [localIdxs, ← List.Ico.append_consecutive hlower hupper, List.filter_append]
  exact (congrArg (localIdxs log n lower middle ++ ·) hnone).trans (List.append_nil _)

/-- The requests a loop has left over are, in order, the entries its node has left over. -/
theorem Inv.forall₂_entries {s : State DT} (h : Inv s) {queuedOps : List ReqId}
    {lversion idx tail : Nat} (hc : s.combiner n = some (.loop queuedOps lversion idx tail)) :
    List.Forall₂
      (fun rid i ↦ ∃ op, s.localUpdates rid = some (.placed op i) ∧ s.log i = some ⟨op, n⟩)
      (queuedOps.drop idx) (localIdxs s.log n lversion tail) := by
  obtain ⟨v, hv⟩ := h.exists_version hc
  have hwf := h.combiner_wf n _ v hc hv
  obtain ⟨_, hle, htail, _⟩ := hwf.phase
  have hpend : (queuedOps.drop idx).map (placedIdx s.localUpdates) =
      (localIdxs s.log n lversion s.tail).map some := hwf.pending
  rw [localIdxs_eq_of_noneAfter hle htail (hwf.noneAfter _ _ _ _ rfl)] at hpend
  have hplaced : List.Forall₂ (· = ·) ((queuedOps.drop idx).map (placedIdx s.localUpdates))
      ((localIdxs s.log n lversion tail).map some) := by
    rw [hpend, List.forall₂_eq_eq_eq]
  rw [List.forall₂_map_left_iff, List.forall₂_map_right_iff] at hplaced
  have hown : ∀ rid ∈ queuedOps.drop idx, ∃ op i, s.localUpdates rid = some (.placed op i) ∧
      s.log i = some ⟨op, n⟩ := by
    intro rid hrid
    obtain ⟨i, hi, hidx⟩ := hwf.placed_of_pending hrid
    obtain ⟨op, hop⟩ := placedIdx_eq_some.mp hidx
    obtain ⟨_, entry, hentry, hnode⟩ := mem_localIdxs.mp hi
    obtain ⟨_, entry', hentry', hop'⟩ := h.updates_wf rid _ hop
    obtain rfl : entry = entry' := Option.some.inj (hentry.symm.trans hentry')
    subst hop' hnode
    exact ⟨entry.op, i, hop, hentry⟩
  refine ((List.forall₂_and_left _ _).mpr ⟨hown, hplaced⟩).imp fun rid i hrid ↦ ?_
  obtain ⟨⟨op, j, hop, hlog⟩, hi⟩ := hrid
  obtain ⟨op', hop'⟩ := placedIdx_eq_some.mp hi
  cases hop.symm.trans hop'
  exact ⟨op, hop, hlog⟩

/-- Behind the tail of a loop its node has written nothing. -/
theorem Inv.nodeId_ne_of_tail_le {s : State DT} (h : Inv s) {queuedOps : List ReqId}
    {lversion idx tail : Nat} (hc : s.combiner n = some (.loop queuedOps lversion idx tail))
    {i : Nat} {entry : LogEntry DT} (htail : tail ≤ i) (hi : i < s.tail)
    (hentry : s.log i = some entry) : entry.nodeId ≠ n := by
  intro hnode
  obtain ⟨v, hv⟩ := h.exists_version hc
  have hmem : i ∈ localIdxs s.log n tail s.tail :=
    mem_localIdxs.mpr ⟨⟨htail, hi⟩, entry, hentry, hnode⟩
  rw [(h.combiner_wf n _ v hc hv).noneAfter _ _ _ _ rfl] at hmem
  exact List.not_mem_nil hmem

end Queue

/-- In every reachable state, the requests a combiner in its loop has left over are, in log
order, the entries its node wrote in the part of the log the loop has left over; behind the tail
of the loop the node wrote none; updates have distinct log indices and no request is queued
twice. Along every run the requests in front of `idx` have got their result once and the others
not at all. When the loop has reached its tail, all of the queue is in front of `idx`. -/
theorem queue_matches_log {s : State DT} (hreach : (machine DT).Reachable s) {n : NodeId}
    {queuedOps : List ReqId} {lversion idx tail : Nat}
    (hc : s.combiner n = some (.loop queuedOps lversion idx tail)) :
    List.Forall₂
      (fun rid i ↦ ∃ op, s.localUpdates rid = some (.placed op i) ∧ s.log i = some ⟨op, n⟩)
      (queuedOps.drop idx) (localIdxs s.log n lversion tail) ∧
    (∀ i entry, tail ≤ i → i < s.tail → s.log i = some entry → entry.nodeId ≠ n) ∧
    queuedOps.Nodup ∧ IdxsDistinct s.localUpdates ∧
    (∀ n₁ n₂ c₁ c₂ rid, s.combiner n₁ = some c₁ → s.combiner n₂ = some c₂ →
      rid ∈ c₁.queuedOps → rid ∈ c₂.queuedOps → n₁ = n₂) ∧
    (∃ count, (countedMachine DT).Reachable (s, count)) ∧
    (∀ count, (countedMachine DT).Reachable (s, count) →
      (∀ rid ∈ queuedOps.take idx, count rid = 1) ∧
      ∀ rid ∈ queuedOps.drop idx, count rid = 0) ∧
    (lversion = tail → idx = queuedOps.length ∧
      (∀ rid ∈ queuedOps, ∀ u, s.localUpdates rid = some u → u.HasResult) ∧
      ∀ count, (countedMachine DT).Reachable (s, count) → ∀ rid ∈ queuedOps, count rid = 1) := by
  have h := inv_of_reachable hreach
  obtain ⟨v, hv⟩ := h.exists_version hc
  have hwf := h.combiner_wf n _ v hc hv
  have hentries := h.forall₂_entries hc
  have hcounts : ∀ count, (countedMachine DT).Reachable (s, count) →
      (∀ rid ∈ queuedOps.take idx, count rid = 1) ∧
      ∀ rid ∈ queuedOps.drop idx, count rid = 0 := by
    intro count hcounted
    have hcount := countWf_of_reachable hcounted
    refine ⟨hcount.answered n _ hc, fun rid hrid ↦ ?_⟩
    obtain ⟨i, _, hidx⟩ := hwf.placed_of_pending hrid
    obtain ⟨op, hop⟩ := placedIdx_eq_some.mp hidx
    exact hcount.waiting rid _ hop id
  refine ⟨hentries, fun i entry ↦ h.nodeId_ne_of_tail_le hc, hwf.nodup,
    idxsDistinct_of_reachable hreach, h.rids_distinct, hreach.exists_record, hcounts, ?_⟩
  rintro rfl
  have hidx := hwf.all_answered
  have htake : queuedOps.take idx = queuedOps := List.take_of_length_le hidx.ge
  have hfront : ∀ rid ∈ queuedOps, rid ∈ queuedOps.take idx := fun rid hrid ↦ by rwa [htake]
  exact ⟨hidx, fun rid hrid ↦ hwf.answered rid (hfront rid hrid),
    fun count hcounted rid hrid ↦ (hcounts count hcounted).1 rid (hfront rid hrid)⟩

/-- One node has placed an update and starts its loop: the request is left over, at index zero,
and has no result yet. -/
theorem queue_matches_log_placed : ∃ s : State counter,
    List.Forall₂
      (fun rid i ↦ ∃ op, s.localUpdates rid = some (.placed op i) ∧ s.log i = some ⟨op, 0⟩)
      [0] (localIdxs s.log 0 0 1) ∧
    ∃ count, (countedMachine counter).Reachable (s, count) ∧ count 0 = 0 := by
  have hrun : ∃ s, (machine counter).Run (initialState counter 1)
      [.start 0 (.write (5 : Nat)), .internal, .internal, .internal, .internal] s ∧
      s.combiner 0 = some (.loop [0] 0 0 1) := by
    refine Machine.Run.exists_cons (.addTicket 0 _ ⟨rfl, rfl, fun n c hc ↦ ?_⟩) ?_
    · have hready : c = .ready := by simp_all [initialState]
      rw [hready]
      exact List.not_mem_nil
    refine Machine.Run.exists_cons (.transition (.execTrivialStart 0 rfl)) ?_
    refine Machine.Run.exists_cons
      (.transition (.updatePlaceOpsInLogOne 0 0 [] (5 : Nat) rfl rfl)) ?_
    refine Machine.Run.exists_cons (.transition (.execLoadLocalVersion 0 _ 0 rfl rfl)) ?_
    refine Machine.Run.exists_cons (.transition (.execLoadGlobalHead 0 _ 0 rfl)) ?_
    exact ⟨_, .nil _, rfl⟩
  obtain ⟨s, hrun, hloop⟩ := hrun
  obtain ⟨hentries, _, _, _, _, ⟨count, hcounted⟩, hcounts, _⟩ :=
    queue_matches_log ⟨_, _, ⟨1, Nat.one_pos, rfl⟩, hrun⟩ hloop
  exact ⟨s, hentries, count, hcounted, (hcounts count hcounted).2 0 List.mem_cons_self⟩

end UnboundedLog

end NrKernel.NodeReplication
