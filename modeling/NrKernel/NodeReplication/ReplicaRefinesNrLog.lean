import NrKernel.NodeReplication.ReplicaRounds

/-!
# The replicas run the executable log

Every access of a thread is a step of the executable log, or none: the requests enter, are
collected, answered and leave there as the threads call, combine and return. What the log shows
of an append is joined by the requests of the round.
-/

namespace NrKernel.NodeReplication

open Lib

universe u

namespace Replica

variable {DT : Dispatch.{u}}

/-- What a step shows of a step of the log. -/
def Shows (log : NrLog.State DT) (label : Label DT) : NrLog.Label DT → Prop
  | .internal => label = .internal
  | .start rid input => label = .start rid input
  | .done rid output => label = .done rid output
  | .reserve nodeId tail operations =>
    ∃ t, log.threads nodeId = some t ∧ label = .reserve ⟨nodeId, tail, t.requestIds, operations⟩
  | .dispatch _ _ _ => label = .internal

/-- The log makes a step that shows as much, or none. -/
def LogStep (log : NrLog.State DT) (label : Label DT) (log' : NrLog.State DT) : Prop :=
  label = .internal ∧ log' = log ∨ ∃ l, NrLog.Next log l log' ∧ Shows log label l

variable (DT) in
/-- The executable log with the labels of the replicas. -/
def logMachine : Machine (NrLog.State DT) (Label DT) where
  init := (NrLog.machine DT).init
  step := LogStep

/-- Replicas keep the log in reachable states. -/
theorem LogStep.reachable {log log' : NrLog.State DT} {label : Label DT}
    (h : LogStep log label log') (hlog : (NrLog.machine DT).Reachable log) :
    (NrLog.machine DT).Reachable log' := by
  rcases h with ⟨_, rfl⟩ | ⟨l, hstep, _⟩
  · exact hlog
  · exact hlog.step hstep

section Steps

variable {n m : NodeId} {tid : ThreadId} {log log' : NrLog.State DT} {node node' : Node DT}
  {phase : Phase DT} {label : Label DT} {t : Thread DT} {r : Round DT}
  {round : Option (Round DT)} {rid : ReqId}

/-- The guard to read finds the data of the log, and no combiner at work. -/
theorem NodeInv.reading (h : NodeInv n log node) (hlog : (NrLog.machine DT).Reachable log)
    (hguard : (node.threads tid).lock = .sharedGuard) (hn : n < log.numReplicas) :
    ∃ t view, log.threads n = some t ∧ t.pc = .idle ∧ node.lock.data = some view ∧
      log.data n = some view := by
  obtain ⟨t, ht⟩ := NrLog.exists_thread hlog hn
  obtain ⟨view, hview⟩ := h.lock.exists_data hguard
  refine ⟨t, view, ht, (h.thread t ht).resolve_right ?_, hview, h.data view hn hview⟩
  rintro ⟨j, r, hr, hexec⟩
  refine h.lock.not_owning hguard (?_ : (node.threads j).lock.Owning)
  rw [Thread.lock, hr]
  exact hexec.owning

/-- A client's access is a step of the log. -/
theorem ClientStep.logStep (hstep : ClientStep n tid log node phase label log' node' t)
    (h : NodeInv n log node) (hlog : (NrLog.machine DT).Reachable log)
    (hthread : node.threads tid = ⟨phase, none⟩) : LogStep log label log' := by
  have hslot := h.slots tid
  have hactive := h.active tid
  rw [hthread] at hslot hactive
  cases hstep with
  | startRead rid op hn htid hreaders htickets =>
    exact .inr ⟨_, .startRead rid op n hreaders htickets, rfl⟩
  | startWrite rid op hn htid hreaders htickets =>
    exact .inr ⟨_, .startWrite rid op hreaders htickets, rfl⟩
  | getVersionUpperBound rid op =>
    exact .inr ⟨_, .reader rid (.getVersionUpperBound op n hslot.2), rfl⟩
  | synced rid op versionUpperBound version hlocal hsynced =>
    have hread : NrLog.ReaderStep rid log _ :=
      .isReplicaSyncedForReads op n versionUpperBound version hslot.2 hlocal
    rw [if_pos hsynced] at hread
    exact .inr ⟨_, .reader rid hread, rfl⟩
  | dispatch rid op view hlock =>
    obtain ⟨_, versionUpperBound, hread⟩ := hslot
    obtain ⟨t, view', ht, hidle, hview', hdata⟩ :=
      h.reading hlog (by rw [hthread]; rfl) (hactive rid rfl).1
    cases hlock with
    | borrow _ hview =>
      obtain rfl : view' = view := Option.some.inj (hview'.symm.trans hview)
      refine .inr ⟨_, .reader rid (.apply op n versionUpperBound t view' hread ht ?_ hdata), rfl⟩
      rw [hidle]
      exact id
  | doneRead rid ret => exact .inr ⟨_, .doneRead rid ret hslot.2, rfl⟩
  | doneWrite rid ret => exact .inr ⟨_, .doneWrite rid ret hslot.2, rfl⟩
  | _ => exact .inl ⟨rfl, rfl⟩

private theorem NodeInv.collected_requests (h : NodeInv n log node)
    (hdistinct : ∀ i j rid, (node.threads i).phase.rid = some rid →
      (node.threads j).phase.rid = some rid → i = j)
    (hr : (node.threads tid).round = some r)
    (hslots : r.slots = occupied 0 r.numOpsPerThread)
    (hlength : r.numOpsPerThread.length = maxThreadsPerReplica) :
    r.heldIds.Nodup ∧ r.heldIds.length ≤ maxRequests := by
  have hheld := h.held tid r hr
  refine ⟨nodup_of_forall₂ (fun i j rid hi hj ↦ hdistinct i j rid hi.rid_eq hj.rid_eq) hheld ?_, ?_⟩
  · rw [hslots]
    exact nodup_occupied 0 _
  · have hle := length_occupied_le 0 r.numOpsPerThread
    rw [← hslots, hheld.length_eq, hlength] at hle
    exact hle

/-- An access in a round is a step of the log. -/
theorem CombineStep.logStep (hstep : CombineStep n tid log node r label log' node' round)
    (h : NodeInv n log node)
    (hdistinct : ∀ i j rid, (node.threads i).phase.rid = some rid →
      (node.threads j).phase.rid = some rid → i = j)
    (hlog : (NrLog.machine DT).Reachable log)
    (hthread : node.threads tid = ⟨phase, some r⟩) : LogStep log label log' := by
  have hr : (node.threads tid).round = some r := by rw [hthread]
  have hprogress := h.progress tid r hr
  cases hstep with
  | takeData pc lock view hpc hlock =>
    obtain ⟨rid, hrid⟩ := (h.working tid r hr).1
    have hn := (h.active tid rid hrid).1
    obtain ⟨t, ht⟩ := NrLog.exists_thread hlog hn
    have howns : r.pc.Owns := Round.owns_of_eq hpc trivial
    have hidle := h.thread_idle hr howns (by rw [hpc]; exact id) ht
    have hdata : log.data n = some view := by
      cases hlock with
      | take _ hview => exact h.data view hn hview
    simp only [Round.Progress, hpc] at hprogress
    have hrequests :=
      h.collected_requests hdistinct hr (by simp only [Round.slots, hpc]) hprogress.1
    simp only [Round.heldIds, hpc] at hrequests
    have hcollect := NrLog.Next.collect n t r.requestIds r.operations ht hidle hrequests.1
      (hprogress.2.length_eq ▸ hrequests.2) hprogress.2
    rw [PMap.insert_of_eq_some hdata]
    exact .inr ⟨_, hcollect, rfl⟩
  | appendExecute t l log' hpc ht hcombiner =>
    simp only [Round.Progress, hpc] at hprogress
    obtain ⟨_, t₀, ht₀, hids⟩ := hprogress
    obtain rfl : t = t₀ := Option.some.inj (ht.symm.trans ht₀)
    refine .inr ⟨l, .combiner n t ht hcombiner, ?_⟩
    cases hcombiner with
    | reserve tail advance _ _ => exact ⟨t, ht, by rw [hids]; rfl⟩
    | _ => rfl
  | unlockExc lock hpc hlock =>
    simp only [Round.Progress, hpc] at hprogress
    obtain ⟨_, t, ht, hfinished, hids, hresponses⟩ := hprogress
    refine .inr ⟨.internal, ?_, rfl⟩
    rw [← hids, ← hresponses]
    exact .distribute n t ht hfinished
  | _ => exact .inl ⟨rfl, rfl⟩

/-- An access in a round leaves the combiner threads of the other nodes alone. -/
theorem CombineStep.sameCombiner (h : CombineStep n tid log node r label log' node' round)
    (hm : m ≠ n) : SameCombiner m log log' := by
  cases h with
  | takeData => exact ⟨PMap.insert_of_ne _ _ hm, PMap.insert_of_ne _ _ hm, rfl⟩
  | appendExecute t l log' hpc ht hcombiner =>
    have hframe := hcombiner.frame
    exact ⟨(hframe.others m hm).1, (hframe.others m hm).2, hframe.numReplicas⟩
  | unlockExc => exact ⟨PMap.insert_of_ne _ _ hm, rfl, rfl⟩
  | _ => exact ⟨rfl, rfl, rfl⟩

/-- An access in a round changes the records of the requests of the round only. -/
theorem CombineStep.sameRequest (h : CombineStep n tid log node r label log' node' round)
    (hrid : rid ∉ r.heldIds) : SameRequest log log' rid := by
  cases h with
  | takeData pc lock view hpc =>
    simp only [Round.heldIds, hpc] at hrid
    exact ⟨rfl, if_neg hrid⟩
  | appendExecute t l log' hpc ht hcombiner =>
    have hframe := hcombiner.frame
    exact ⟨congrFun hframe.readers rid, congrFun hframe.tickets rid⟩
  | unlockExc lock hpc =>
    simp only [Round.heldIds, hpc] at hrid
    exact ⟨rfl, NrLog.distribute_of_not_mem hrid⟩
  | _ => exact ⟨rfl, rfl⟩

/-- An access outside `try_combine` leaves the threads; its thread is updated by `Next`. -/
theorem ClientStep.threads_eq (h : ClientStep n tid log node phase label log' node' t) :
    node'.threads = node.threads := by
  cases h <;> rfl

/-- A thread enters `try_combine` at its start. -/
theorem ClientStep.round_eq (hstep : ClientStep n tid log node phase label log' node' t)
    (hround : t.round = some r) : r = .start DT := by
  cases hstep with
  | notSynced | storePending => exact (Option.some.inj hround).symm
  | noResponse rid iter => exact pollAgain_round rid iter hround
  | _ => cases hround

/-- An access of a round leaves the threads; its thread is updated by `Next`. -/
theorem CombineStep.threads_eq (h : CombineStep n tid log node r label log' node' round) :
    node'.threads = node.threads := by
  cases h <;> rfl

end Steps

section Invariant

variable {s s' : State DT} {label : Label DT} {n : NodeId} {tid : ThreadId}

/-- A thread works on its request alone. -/
theorem Inv.distinct_of_ne (h : Inv s) {m : NodeId} {j : ThreadId} {rid rid' : ReqId}
    (hne : m ≠ n ∨ j ≠ tid) (hrid : ((s.nodes m).threads j).phase.rid = some rid)
    (hrid' : ((s.nodes n).threads tid).phase.rid = some rid') : rid ≠ rid' := by
  rintro rfl
  obtain ⟨hm, hj⟩ := h.distinct m n j tid rid hrid hrid'
  rcases hne with hne | hne
  · exact hne hm
  · exact hne hj

/-- The log knows the request of every thread. -/
theorem Inv.known (h : Inv s) {rid : ReqId}
    (hrid : ((s.nodes n).threads tid).phase.rid = some rid) :
    s.log.readers rid ≠ none ∨ s.log.tickets rid ≠ none :=
  (((h.nodes n).slots tid)).known hrid

/-- A step changes one replica. -/
theorem Inv.update (h : Inv s) {log : NrLog.State DT} {node : Node DT} {t : Thread DT}
    (hthreads : node.threads = (s.nodes n).threads)
    (hnode : NodeInv n log (node.setThread tid t))
    (hothers : ∀ m, m ≠ n → NodeInv m log (s.nodes m))
    (hrid : ∀ rid, t.phase.rid = some rid →
      ((s.nodes n).threads tid).phase.rid = some rid ∨
        s.log.readers rid = none ∧ s.log.tickets rid = none) :
    Inv ⟨log, Function.update s.nodes n (node.setThread tid t)⟩ where
  nodes := by
    intro m
    by_cases hm : m = n
    · subst hm
      simpa only [Function.update_self] using hnode
    · simpa only [Function.update_of_ne hm] using hothers m hm
  distinct := by
    -- a thread has the request it had, or a fresh one at the place of the step
    have hcases : ∀ m j rid,
        ((Function.update s.nodes n (node.setThread tid t) m).threads j).phase.rid = some rid →
        ((s.nodes m).threads j).phase.rid = some rid ∨
          (m = n ∧ j = tid ∧ s.log.readers rid = none ∧ s.log.tickets rid = none) := by
      intro m j rid hx
      by_cases hm : m = n
      · subst hm
        rw [Function.update_self] at hx
        by_cases hj : j = tid
        · subst hj
          simp only [Node.setThread, Function.update_self] at hx
          exact (hrid rid hx).imp id fun hfresh ↦ ⟨rfl, rfl, hfresh⟩
        · simp only [Node.setThread, Function.update_of_ne hj, hthreads] at hx
          exact .inl hx
      · rw [Function.update_of_ne hm] at hx
        exact .inl hx
    have hfresh : ∀ m j rid, ((s.nodes m).threads j).phase.rid = some rid →
        ¬ (s.log.readers rid = none ∧ s.log.tickets rid = none) := by
      rintro m j rid hx ⟨hreaders, htickets⟩
      rcases h.known hx with hknown | hknown
      · exact hknown hreaders
      · exact hknown htickets
    intro m m' j j' rid hx hx'
    rcases hcases m j rid hx with hold | ⟨rfl, rfl, hnone⟩
    · rcases hcases m' j' rid hx' with hold' | ⟨rfl, rfl, hnone⟩
      · exact h.distinct m m' j j' rid hold hold'
      · exact absurd hnone (hfresh m j rid hold)
    · rcases hcases m' j' rid hx' with hold' | ⟨rfl, rfl, _⟩
      · exact absurd hnone (hfresh m' j' rid hold')
      · exact ⟨rfl, rfl⟩

/-- Every step of the replicas is a step of the log and keeps the invariant. -/
theorem Inv.next (h : Inv s) (hlog : (NrLog.machine DT).Reachable s.log)
    (hstep : Next s label s') : LogStep s.log label s'.log ∧ Inv s' := by
  cases hstep with
  | client n tid phase label log node t hthread hstep =>
    have hphase : ((s.nodes n).threads tid).phase.rid = phase.rid := by rw [hthread]
    have hsame : ∀ m j rid, m ≠ n ∨ j ≠ tid →
        ((s.nodes m).threads j).phase.rid = some rid → SameRequest s.log log rid := by
      intro m j rid hne hrid
      refine hstep.sameRequest (fun hx ↦ ?_) fun hx ↦ ?_
      · exact h.distinct_of_ne hne hrid (hphase.trans hx) rfl
      · rcases hstep.rid_cases hx with hx | ⟨hreaders, htickets⟩
        · exact h.distinct_of_ne hne hrid (hphase.trans hx) rfl
        · rcases h.known hrid with hknown | hknown
          · exact hknown hreaders
          · exact hknown htickets
    refine ⟨hstep.logStep (h.nodes n) hlog hthread, h.update hstep.threads_eq
      ((h.nodes n).clientStep hthread hstep fun j rid hj ↦ hsame n j rid (.inr hj))
      (fun m hm ↦ (h.nodes m).frame hstep.sameCombiner fun j rid ↦ hsame m j rid (.inl hm))
      fun rid hx ↦ ?_⟩
    rw [hphase]
    exact hstep.rid_cases hx
  | combine n tid phase r label log node round hthread hstep =>
    have hdistinct : ∀ i j rid, ((s.nodes n).threads i).phase.rid = some rid →
        ((s.nodes n).threads j).phase.rid = some rid → i = j :=
      fun i j rid hi hj ↦ (h.distinct n n i j rid hi hj).2
    have hr : ((s.nodes n).threads tid).round = some r := by rw [hthread]
    refine ⟨hstep.logStep (h.nodes n) hdistinct hlog hthread, h.update hstep.threads_eq
      ((h.nodes n).combineStep hdistinct hlog hthread hstep)
      (fun m hm ↦ (h.nodes m).frame (hstep.sameCombiner hm) fun j rid hrid ↦ ?_)
      fun rid hx ↦ ?_⟩
    · refine hstep.sameRequest fun hmem ↦ ?_
      obtain ⟨i, _, hholds⟩ := (h.nodes n).exists_waiting hr hmem
      exact h.distinct_of_ne (.inl hm) hrid hholds.rid_eq rfl
    · rw [hthread]
      exact .inl hx

private theorem inv_initialState (numReplicas : Nat) : Inv (initialState DT numReplicas) where
  nodes := fun n ↦
    { lock := RwLock.inv_initialState _
      owner := nofun
      owned := nofun
      held := nofun
      progress := nofun
      inProgress := fun _ _ hholds ↦ absurd hholds.1.atomic nofun
      slots := fun _ ↦ rfl
      active := nofun
      working := nofun
      data := by
        rintro view hn hview
        simp only [initialState, NrLog.initialState] at hn ⊢
        rw [if_pos hn]
        exact hview
      thread := by
        intro t ht
        simp only [initialState, NrLog.initialState] at ht
        split at ht
        · cases ht
          exact .inl rfl
        · cases ht }
  distinct := nofun

/-- Every reachable state of the replicas fits a reachable log. -/
theorem inv_of_reachable (h : (machine DT).Reachable s) :
    Inv s ∧ (NrLog.machine DT).Reachable s.log := by
  refine h.invariant (I := fun s ↦ Inv s ∧ (NrLog.machine DT).Reachable s.log) ?_
    fun s l s' hs hstep ↦ ?_
  · rintro _ ⟨numReplicas, hpos, rfl⟩
    exact ⟨inv_initialState numReplicas, .of_init ⟨numReplicas, hpos, rfl⟩⟩
  · obtain ⟨hstep', hinv⟩ := hs.1.next hs.2 hstep
    exact ⟨hinv, hstep'.reachable hs.2⟩

/-- The replicas refine the executable log. -/
theorem refines_logMachine :
    Refines (machine DT) (logMachine DT) State.log fun _ label ↦ label where
  init := by
    rintro _ ⟨numReplicas, hpos, rfl⟩
    exact ⟨numReplicas, hpos, rfl⟩
  step := by
    intro s label s' hreach hstep
    obtain ⟨hinv, hlog⟩ := inv_of_reachable hreach
    exact (hinv.next hlog hstep).1

end Invariant

end Replica

end NrKernel.NodeReplication
