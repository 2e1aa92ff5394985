import NrKernel.NodeReplication.GarbageCollection
import NrKernel.NodeReplication.RwLockProgress
import NrKernel.NodeReplication.SlotHandOver
import NrKernel.NodeReplication.SoloRuns

/-!
# No access of a thread fails

In every reachable state of the replicas, a thread inside a call has its next access, and finds
what the access needs: the entry `execute` dispatches, the operation and the response in a slot,
the value in the cell of the lock. A round comes to a stop at the log's last index only, where
`append` panics; no thread gets to the panic of the reader-writer lock. On the way there every
access of the lock around the data is one of the lock on its own.
-/

namespace NrKernel.NodeReplication

open Lib

universe u

variable {DT : Dispatch.{u}}

namespace NrLog

/-! ## The combiner threads of the log -/

/-- The thread is inside `append` or `execute`, and its next access fits the log's counters. -/
def Pc.Running (tail numReplicas : Nat) : Pc → Prop
  | .idle => False
  | .appendLoadHead observed => observed ≤ tail
  | .advanceLoadNext _ _ _ idx => idx < numReplicas
  | .stuck => maxIdx ≤ tail + maxRequests
  | _ => True

section Combiner

variable {c c' : State DT} {n : NodeId} {t t' : Thread DT} {label : Label DT}
  {tail numReplicas : Nat}

private theorem Pc.Running.mono {pc : Pc} (h : pc.Running tail numReplicas) {tail' : Nat}
    (hle : tail ≤ tail') : pc.Running tail' numReplicas := by
  cases pc with
  | appendLoadHead observed => exact Nat.le_trans h hle
  | stuck => exact Nat.le_trans h (Nat.add_le_add_right hle _)
  | _ => exact h

private theorem running_appendNext {nops first idx : Nat} {advance : Bool} :
    (appendNext nops first idx advance).Running tail numReplicas := by
  unfold appendNext
  split
  · trivial
  · split <;> trivial

private theorem running_advanceNext {globalHead globalTail least idx : Nat} :
    (advanceNext numReplicas globalHead globalTail least idx).Running tail numReplicas := by
  unfold advanceNext
  split
  · assumption
  · split <;> trivial

private theorem running_advanceStored {globalTail least : Nat} :
    (advanceStored globalTail least).Running tail numReplicas := by
  unfold advanceStored
  split <;> trivial

private theorem running_resume {ret : Return} : ret.resume.Running tail numReplicas := by
  cases ret <;> trivial

private theorem running_executeNext {ret : Return} {version globalTail : Nat} :
    (executeNext ret version globalTail).Running tail numReplicas := by
  unfold executeNext
  split <;> trivial

private theorem running_executeChecked {ret : Return} {version globalTail : Nat} :
    (executeChecked ret version globalTail).Running tail numReplicas := by
  unfold executeChecked
  split
  · exact running_resume
  · exact running_executeNext

private theorem running_appendChecked {observed head nops : Nat} (hle : observed ≤ tail)
    (hnops : nops ≤ maxRequests) :
    (appendChecked observed head nops).Running tail numReplicas := by
  unfold appendChecked
  split
  · trivial
  · split
    · show maxIdx ≤ tail + maxRequests
      omega
    · trivial

/-- Every replica of a reachable log has its data and its version. -/
theorem exists_data_version (h : (machine DT).Reachable c) (hn : n < c.numReplicas) :
    (∃ view, c.data n = some view) ∧ ∃ version, c.localVersions n = some version := by
  obtain ⟨u, hu, b, _, hc⟩ := exists_implements h
  have hinv := UnboundedLog.inv_of_reachable hu
  rw [← hc.shared.numReplicas] at hn
  rw [← hc.shared.replicas, ← hc.shared.localVersions]
  exact ⟨(hinv.replicas_dom n).mpr hn, (hinv.versions_dom n).mpr hn⟩

/-- A combiner thread stops at the last index only. -/
theorem CombinerStep.running (hstep : CombinerStep n t c label c')
    (hreach : (machine DT).Reachable c) (ht : c.threads n = some t)
    (h : t.pc = .idle ∨ t.pc.Running c.tail c.numReplicas) (ht' : c'.threads n = some t') :
    t'.pc.Running c'.tail c'.numReplicas := by
  cases hstep with
  | appendLoadTail =>
    obtain rfl := State.eq_of_setThread ht'
    exact Nat.le_refl _
  | appendLoadHead observed hpc =>
    obtain rfl := State.eq_of_setThread ht'
    rw [hpc] at h
    obtain ⟨u, _, b, _, hc⟩ := exists_implements hreach
    exact running_appendChecked (h.resolve_left nofun) (hc.shared.operations_le n t ht)
  | reserve | storeAlive =>
    obtain rfl := State.eq_of_setThread ht'
    exact running_appendNext
  | advanceLoadFirst | advanceLoadNext =>
    obtain rfl := State.eq_of_setThread ht'
    exact running_advanceNext
  | storeHead =>
    obtain rfl := State.eq_of_setThread ht'
    exact running_advanceStored
  | executeLoadTail =>
    obtain rfl := State.eq_of_setThread ht'
    exact running_executeChecked
  | executeLoadAlive =>
    obtain rfl := State.eq_of_setThread ht'
    dsimp only
    split <;> trivial
  | dispatch =>
    obtain rfl := State.eq_of_setThread ht'
    exact running_executeNext
  | dispatchPanic ret version globalTail hpc hentry =>
    obtain ⟨entry, hsome⟩ :=
      Option.ne_none_iff_exists'.mp (logEntry_ne_none_of_dispatch hreach ht hpc)
    cases hentry.symm.trans hsome
  | storeLocal =>
    obtain rfl := State.eq_of_setThread ht'
    exact running_resume
  | reserveFail | writeEntry | advanceLoadHead | advanceLoadTail | executeLoadLocal | fetchMax =>
    obtain rfl := State.eq_of_setThread ht'
    trivial

private theorem Next.running (hstep : Next c label c') (hreach : (machine DT).Reachable c)
    (h : ∀ n t, c.threads n = some t → t.pc = .idle ∨ t.pc.Running c.tail c.numReplicas)
    (ht' : c'.threads n = some t') : t'.pc = .idle ∨ t'.pc.Running c'.tail c'.numReplicas := by
  have hinsert : ∀ {m : NodeId} {s : Thread DT}, (c.threads.insert m s) n = some t' →
      s.pc = .idle ∨ s.pc.Running c.tail c.numReplicas →
      t'.pc = .idle ∨ t'.pc.Running c.tail c.numReplicas := by
    intro m s hn hs
    rcases (PMap.insert_eq_some _ _ _ _ _).mp hn with ⟨_, rfl⟩ | ⟨_, hold⟩
    · exact hs
    · exact h n t' hold
  have hgrows : c.tail ≤ c'.tail := by
    rcases hstep.tail_eq with ⟨_, hsame⟩ | ⟨p, _, _, hgrown⟩ <;> omega
  cases hstep with
  | combiner m t ht hstep =>
    by_cases hnm : n = m
    · subst hnm
      exact .inr (hstep.running hreach ht (h n t ht) ht')
    · rw [(hstep.frame.others n hnm).1] at ht'
      rw [hstep.frame.numReplicas]
      exact (h n t' ht').imp id fun hold ↦ hold.mono hgrows
  | reader rid hstep => cases hstep <;> exact h n t' ht'
  | startRead | startWrite | doneRead | doneWrite => exact h n t' ht'
  | collect | callExecute => exact hinsert ht' (.inr trivial)
  | distribute => exact hinsert ht' (.inl rfl)

/-- In every reachable log the next accesses fit the counters. -/
theorem running_of_reachable (h : (machine DT).Reachable c) (ht : c.threads n = some t) :
    t.pc = .idle ∨ t.pc.Running c.tail c.numReplicas := by
  have hboth : (machine DT).Reachable c ∧
      ∀ n t, c.threads n = some t → t.pc = .idle ∨ t.pc.Running c.tail c.numReplicas := by
    refine h.invariant (I := fun c ↦ (machine DT).Reachable c ∧
      ∀ n t, c.threads n = some t → t.pc = .idle ∨ t.pc.Running c.tail c.numReplicas) ?_ ?_
    · rintro _ ⟨numReplicas, hpos, rfl⟩
      refine ⟨.of_init ⟨numReplicas, hpos, rfl⟩, fun n t ht ↦ ?_⟩
      simp only [initialState] at ht
      split at ht
      · cases ht
        exact .inl rfl
      · cases ht
    · rintro c label c' ⟨hreach, hrunning⟩ hstep
      exact ⟨hreach.step hstep, fun n t ↦ hstep.running hreach hrunning⟩
  exact hboth.2 n t ht

/-- A combiner thread inside `append` or `execute` has its next access. -/
theorem exists_combinerStep (h : (machine DT).Reachable c) (ht : c.threads n = some t)
    (hidle : t.pc ≠ .idle) (hfinished : t.pc ≠ .finished) (hstuck : t.pc ≠ .stuck) :
    ∃ label c', CombinerStep n t c label c' := by
  have hrunning := running_of_reachable h ht
  obtain ⟨u, hu, b, hb, hc⟩ := exists_implements h
  have hn := (hc.shared.threads_dom n).mp ⟨t, ht⟩
  obtain ⟨phase, buffer, _, _, hcoupled⟩ :=
    hc.exists_phases (UnboundedLog.inv_of_reachable hu) (CyclicBuffer.inv_of_reachable hb) ht
  obtain ⟨⟨view, hview⟩, version, hversion⟩ := exists_data_version h hn
  simp only [Thread.Coupled] at hcoupled
  cases hpc : t.pc with
  | idle => exact absurd hpc hidle
  | finished => exact absurd hpc hfinished
  | stuck => exact absurd hpc hstuck
  | appendLoadTail => exact ⟨_, _, .appendLoadTail hpc⟩
  | appendLoadHead tail => exact ⟨_, _, .appendLoadHead tail hpc⟩
  | appendReserve tail advance =>
    by_cases htail : c.tail = tail
    · exact ⟨_, _, .reserve tail advance hpc htail⟩
    · exact ⟨_, _, .reserveFail tail advance hpc⟩
  | appendWriteEntry tail idx advance =>
    rw [hpc] at hcoupled
    exact ⟨_, _, .writeEntry tail idx advance _ hpc (List.getElem?_eq_getElem hcoupled.2)⟩
  | appendStoreAlive tail idx advance => exact ⟨_, _, .storeAlive tail idx advance hpc⟩
  | advanceLoadHead => exact ⟨_, _, .advanceLoadHead hpc⟩
  | advanceLoadTail globalHead => exact ⟨_, _, .advanceLoadTail globalHead hpc⟩
  | advanceLoadFirst globalHead globalTail =>
    obtain ⟨_, first, hfirst⟩ := exists_data_version h (Nat.zero_lt_of_lt hn)
    exact ⟨_, _, .advanceLoadFirst globalHead globalTail first hpc hfirst⟩
  | advanceLoadNext globalHead globalTail least idx =>
    rw [hpc] at hrunning
    have hidx : idx < c.numReplicas := hrunning.resolve_left (by simp)
    obtain ⟨_, next, hnext⟩ := exists_data_version h hidx
    exact ⟨_, _, .advanceLoadNext globalHead globalTail least idx next hpc hnext⟩
  | advanceStoreHead globalTail least => exact ⟨_, _, .storeHead globalTail least hpc⟩
  | executeLoadLocal ret => exact ⟨_, _, .executeLoadLocal ret version hpc hversion⟩
  | executeLoadTail ret version => exact ⟨_, _, .executeLoadTail ret version hpc⟩
  | executeLoadAlive ret version globalTail =>
    exact ⟨_, _, .executeLoadAlive ret version globalTail hpc⟩
  | executeDispatch ret version globalTail =>
    obtain ⟨entry, hentry⟩ :=
      Option.ne_none_iff_exists'.mp (logEntry_ne_none_of_dispatch h ht hpc)
    exact ⟨_, _, .dispatch ret version globalTail entry view hpc hentry hview⟩
  | executeFetchMax ret globalTail => exact ⟨_, _, .fetchMax ret globalTail hpc⟩
  | executeStoreLocal ret globalTail => exact ⟨_, _, .storeLocal ret globalTail hpc⟩

end Combiner

end NrLog

namespace Replica

/-! ## The lock around the data -/

/-- The lock of a replica with its threads. -/
def Node.lockState (node : Node DT) : RwLock.State DT.View ThreadId :=
  ⟨node.lock, fun tid ↦ (node.threads tid).lock⟩

/-- The lock makes a step, or none. -/
def LockStep (node node' : Node DT) : Prop :=
  node'.lockState = node.lockState ∨
    ∃ label, RwLock.Next maxThreadsPerReplica id node.lockState label node'.lockState

section Lock

variable {n : NodeId} {tid : ThreadId} {log log' : NrLog.State DT} {node node' : Node DT}
  {phase : Phase DT} {label : Label DT} {t : Thread DT} {r : Round DT}
  {round : Option (Round DT)}

/-- The lock of a replica after a thread's step. -/
theorem lockState_setThread (hthreads : node'.threads = node.threads) :
    (node'.setThread tid t).lockState =
      ⟨node'.lock, Function.update (fun j ↦ (node.threads j).lock) tid t.lock⟩ := by
  rw [Node.lockState, Node.setThread, hthreads]
  exact congrArg _ (lock_update node.threads tid t)

private theorem LockStep.same (hthreads : node'.threads = node.threads)
    (hlock : node'.lock = node.lock)
    (hpc : t.lock = (node.threads tid).lock) : LockStep node (node'.setThread tid t) := by
  rw [LockStep, lockState_setThread hthreads, hlock, hpc, Function.update_eq_self]
  exact .inl rfl

private theorem LockStep.step (hthreads : node'.threads = node.threads) {old : RwLock.Pc}
    {l : RwLock.Label DT.View} (hold : (node.threads tid).lock = old)
    (hstep : RwLock.Step maxThreadsPerReplica tid node.lock old l node'.lock t.lock) :
    LockStep node (node'.setThread tid t) := by
  subst hold
  rw [LockStep, lockState_setThread hthreads]
  exact .inr ⟨(tid, l), .step tid l node'.lock t.lock hstep⟩

/-- An access outside `try_combine` is a step of the lock, or none. -/
theorem ClientStep.lockStep (hstep : ClientStep n tid log node phase label log' node' t)
    (h : NodeInv n log node) (hthread : node.threads tid = ⟨phase, none⟩) :
    LockStep node (node'.setThread tid t) := by
  have hthreads := hstep.threads_eq
  have hactive := h.active tid
  have hold : (node.threads tid).lock = phase.lock := by rw [hthread]; rfl
  rw [hthread] at hactive
  cases hstep with
  | synced rid op versionUpperBound version hlocal hsynced =>
    rw [LockStep, lockState_setThread hthreads]
    exact .inr ⟨(tid, .internal), .acquireRead tid hold (hactive rid rfl).2⟩
  | acquireRead rid op pc lock pc' hpc hlock => exact .step hthreads hold hlock
  | dispatch rid op view hlock => exact .step hthreads hold hlock
  | releaseRead rid ret lock hlock => exact .step hthreads hold hlock
  | noResponse rid iter =>
    refine .same rfl rfl ?_
    rw [hold]
    unfold pollAgain
    split <;> rfl
  | _ => exact .same hthreads rfl hold.symm

/-- An access in a round is a step of the lock, or none. -/
theorem CombineStep.lockStep (hstep : CombineStep n tid log node r label log' node' round)
    (h : NodeInv n log node) (hthread : node.threads tid = ⟨phase, some r⟩) :
    LockStep node (node'.setThread tid ⟨phase, round⟩) := by
  have hthreads := hstep.threads_eq
  have hold : (node.threads tid).lock = r.pc.lock := by rw [hthread]; rfl
  have hphase : phase.lock = .idle := by
    have hworking := (h.working tid r (by rw [hthread])).2
    rwa [hthread] at hworking
  have hsame : ∀ {pc : RoundPc}, r.pc = pc → node'.lock = node.lock →
      (⟨phase, round⟩ : Thread DT).lock = pc.lock →
      LockStep node (node'.setThread tid ⟨phase, round⟩) := by
    rintro _ rfl hlock hnew
    exact .same hthreads hlock (hnew.trans hold.symm)
  cases hstep with
  | combinerTaken hpc | casCombinerFail hpc | releaseCombiner hpc => exact hsame hpc rfl hphase
  | collected hpc =>
    rw [LockStep, lockState_setThread hthreads]
    exact .inr ⟨(tid, .internal), .acquireWrite tid (hold.trans (congrArg RoundPc.lock hpc))⟩
  | acquireWrite pc lock pc' hpc hlock =>
    exact .step hthreads (hold.trans (congrArg RoundPc.lock hpc)) hlock
  | takeData pc lock view hpc hlock =>
    exact .step hthreads (hold.trans (congrArg RoundPc.lock hpc)) hlock
  | putData lock view hpc hdata hlock =>
    exact .step hthreads (hold.trans (congrArg RoundPc.lock hpc)) hlock
  | unlockExc lock hpc hlock =>
    exact .step hthreads (hold.trans (congrArg RoundPc.lock hpc)) hlock
  | appendExecute t l log' hpc => exact hsame hpc rfl (congrArg RoundPc.lock hpc)
  | combinerFree hpc | casCombiner hpc | collectRequest i hpc | collectEmpty i hpc
  | copyOp i op resp hpc | executed t hpc | respondNone i k hpc
  | respond i k numOps op resp ret hpc | storeResponse i k hpc | responded k hpc =>
    exact hsame hpc rfl rfl

end Lock

/-! ## Where a thread can be -/

/-- A reader has its guard or is on its way to it. -/
def Phase.Live : Phase DT → Prop
  | .acquireRead _ _ pc => pc.awaits = some .sharedGuard ∨ pc = .sharedGuard
  | _ => True

/-- A round is on its way to its guard, at work in the log, or at one of the slots. -/
def RoundPc.Live (x : Option (NrLog.Thread DT)) : RoundPc → Prop
  | .acquireWrite pc => pc.awaits = some .excGuard
  | .appendExecute => ∀ t, x = some t → t.pc ≠ .idle
  | .respond i _ => i ≤ maxThreadsPerReplica
  | _ => True

/-- A thread is somewhere it can go on from, next to the log's combiner thread of its node. -/
structure Thread.Live (x : Option (NrLog.Thread DT)) (t : Thread DT) : Prop where
  phase : t.phase.Live
  round : ∀ r, t.round = some r → r.pc.Live x

section Live

variable {n : NodeId} {tid : ThreadId} {log log' : NrLog.State DT} {node node' : Node DT}
  {phase : Phase DT} {label : Label DT} {t : Thread DT} {r r' : Round DT}
  {round : Option (Round DT)}

/-- An access outside `try_combine` leads to another one, unless the lock panics. -/
theorem ClientStep.live (hstep : ClientStep n tid log node phase label log' node' t)
    (h : phase.Live) (hstuck : t.lock ≠ .stuck) (x : Option (NrLog.Thread DT)) : t.Live x where
  phase := by
    cases hstep with
    | synced => exact .inl rfl
    | acquireRead rid op pc lock pc' hpc hlock =>
      rcases hlock.awaits (h.resolve_right hpc) with hguard | hawaits | hpanic
      · exact .inr hguard
      · exact .inl hawaits
      · exact absurd hpanic hstuck
    | noResponse rid iter =>
      obtain ⟨iter', hphase⟩ := @pollAgain_phase DT rid iter
      rw [hphase]
      trivial
    | _ => trivial
  round := by
    intro r hr
    rw [hstep.round_eq hr]
    trivial

/-- An access in a round leads to another one. -/
theorem CombineStep.live (hstep : CombineStep n tid log node r label log' node' (some r'))
    (h : NodeInv n log node) (hlog : (NrLog.machine DT).Reachable log)
    (hr : (node.threads tid).round = some r) (hlive : r.pc.Live (log.threads n)) :
    r'.pc.Live (log'.threads n) := by
  have hprogress := h.progress tid r hr
  cases hstep with
  | collected => rfl
  | acquireWrite pc lock pc' hpc hlock =>
    rw [hpc] at hlive
    exact hlock.awaits_exc hlive
  | takeData pc lock view hpc hlock =>
    intro x hx
    cases (PMap.insert_self _ _ _).symm.trans hx
    exact nofun
  | appendExecute t l log' hpc ht hcombiner =>
    rw [hpc]
    intro x hx hidle
    have hrunning := hcombiner.running hlog ht (NrLog.running_of_reachable hlog ht) hx
    rw [hidle] at hrunning
    exact hrunning
  | unlockExc => exact Nat.zero_le _
  | respondNone i k hpc hnone =>
    simp only [Round.Progress, hpc] at hprogress
    obtain ⟨hlt, _⟩ := List.getElem?_eq_some_iff.mp hnone
    show i + 1 ≤ maxThreadsPerReplica
    omega
  | storeResponse i k hpc =>
    simp only [Round.Progress, hpc] at hprogress
    obtain ⟨hlength, _, ⟨numOps, hnum, _⟩, _⟩ := hprogress
    obtain ⟨hlt, _⟩ := List.getElem?_eq_some_iff.mp hnum
    show i + 1 ≤ maxThreadsPerReplica
    omega
  | combinerFree | casCombiner | collectRequest | collectEmpty | copyOp | executed | putData
  | respond | responded => trivial

/-- Only a round that has the combiner lock changes the combiner threads of the log. -/
theorem CombineStep.threads_of_not_owns
    (hstep : CombineStep n tid log node r label log' node' round) (howns : ¬ r.pc.Owns) :
    log'.threads = log.threads := by
  cases hstep with
  | takeData pc lock view hpc => exact absurd (Round.owns_of_eq hpc trivial) howns
  | appendExecute t l log' hpc => exact absurd (Round.owns_of_eq hpc trivial) howns
  | unlockExc lock hpc => exact absurd (Round.owns_of_eq hpc trivial) howns
  | _ => rfl

/-- A thread whose round has the combiner lock or is at another place than the log's combiner
thread stays where it is. -/
theorem Thread.Live.frame {x y : Option (NrLog.Thread DT)} (h : t.Live x)
    (hround : ∀ r, t.round = some r → r.pc.Owns → y = x) : t.Live y where
  phase := h.phase
  round := by
    intro r hr
    have hlive := h.round r hr
    by_cases howns : r.pc.Owns
    · rw [hround r hr howns]
      exact hlive
    · cases hpc : r.pc with
      | loadCombiner | casCombiner => trivial
      | _ =>
        rw [hpc] at howns
        exact absurd trivial howns

end Live

section Reachable

variable {n : NodeId} {tid : ThreadId} {s s' : State DT} {label : Label DT}

/-- The locks of the replicas run as the lock does on its own. -/
theorem lockState_reachable (h : (machine DT).Reachable s) (n : NodeId) :
    (RwLock.machine DT.View maxThreadsPerReplica id).Reachable (s.nodes n).lockState := by
  have hboth : (machine DT).Reachable s ∧ ∀ n,
      (RwLock.machine DT.View maxThreadsPerReplica id).Reachable (s.nodes n).lockState := by
    refine h.invariant (I := fun s ↦ (machine DT).Reachable s ∧ ∀ n,
      (RwLock.machine DT.View maxThreadsPerReplica id).Reachable (s.nodes n).lockState) ?_ ?_
    · rintro _ ⟨numReplicas, hpos, rfl⟩
      exact ⟨.of_init ⟨numReplicas, hpos, rfl⟩, fun n ↦ .of_init ⟨DT.initSpec, rfl⟩⟩
    · rintro s label s' ⟨hreach, hlocks⟩ hstep
      refine ⟨hreach.step hstep, fun n ↦ ?_⟩
      have hlock : LockStep (s.nodes n) (s'.nodes n) := by
        have hinv := (inv_of_reachable hreach).1.nodes n
        rcases hstep.node_cases with hsame | ⟨tid, phase, node, t, hthread, hstep, hnode⟩ |
          ⟨tid, phase, r, node, round, hthread, hstep, hnode⟩
        · rw [hsame]
          exact .inl rfl
        · rw [hnode]
          exact hstep.lockStep hinv hthread
        · rw [hnode]
          exact hstep.lockStep hinv hthread
      rcases hlock with hsame | ⟨l, hnext⟩
      · rw [hsame]
        exact hlocks n
      · exact (hlocks n).step hnext
  exact hboth.2 n

/-- No thread of a replica gets to the panic of the lock. -/
theorem lock_live (h : (machine DT).Reachable s) (n : NodeId) :
    RwLock.Live maxThreadsPerReplica (s.nodes n).lockState :=
  RwLock.live_of_reachable (RwLock.fewThreads_of_injective Function.injective_id)
    (lockState_reachable h n)

private theorem Next.live (hstep : Next s label s') (hreach : (machine DT).Reachable s)
    (h : ∀ n tid, ((s.nodes n).threads tid).Live (s.log.threads n)) (n : NodeId)
    (tid : ThreadId) : ((s'.nodes n).threads tid).Live (s'.log.threads n) := by
  have hlock := (lock_live (hreach.step hstep) n).stuck tid
  obtain ⟨hinv, hlog⟩ := inv_of_reachable hreach
  have hold := h n tid
  cases hstep with
  | client m j phase label log node t hthread hstep =>
    have hthreads := (hstep.sameCombiner (m := n)).threads
    by_cases hnm : n = m
    · subst hnm
      simp only [Node.lockState, Function.update_self, Node.setThread, hstep.threads_eq] at hlock ⊢
      by_cases htid : tid = j
      · subst htid
        rw [hthread] at hold
        rw [Function.update_self] at hlock ⊢
        exact hstep.live hold.phase hlock _
      · rw [Function.update_of_ne htid, hthreads]
        exact hold
    · simp only [Function.update_of_ne hnm]
      rw [hthreads]
      exact hold
  | combine m j phase r label log node round hthread hstep =>
    by_cases hnm : n = m
    · subst hnm
      have hr : ((s.nodes n).threads j).round = some r := by rw [hthread]
      simp only [Function.update_self, Node.setThread, hstep.threads_eq]
      by_cases htid : tid = j
      · subst htid
        rw [Function.update_self]
        refine ⟨?_, ?_⟩
        · rw [hthread] at hold
          exact hold.phase
        · rintro r' rfl
          exact hstep.live (hinv.nodes n) hlog hr (hold.round r hr)
      · rw [Function.update_of_ne htid]
        refine hold.frame fun r' hr' howns' ↦ ?_
        refine congrFun (hstep.threads_of_not_owns fun howns ↦ htid ?_) n
        exact (hinv.nodes n).owner tid j r' r hr' hr howns' howns
    · simp only [Function.update_of_ne hnm]
      rw [(hstep.sameCombiner hnm).threads]
      exact hold

/-- In every reachable state every thread is somewhere it can go on from. -/
theorem live_of_reachable (h : (machine DT).Reachable s) (n : NodeId) (tid : ThreadId) :
    ((s.nodes n).threads tid).Live (s.log.threads n) := by
  have hboth : (machine DT).Reachable s ∧
      ∀ n tid, ((s.nodes n).threads tid).Live (s.log.threads n) := by
    refine h.invariant (I := fun s ↦ (machine DT).Reachable s ∧
      ∀ n tid, ((s.nodes n).threads tid).Live (s.log.threads n)) ?_ ?_
    · rintro _ ⟨numReplicas, hpos, rfl⟩
      exact ⟨.of_init ⟨numReplicas, hpos, rfl⟩, fun n tid ↦ ⟨trivial, nofun⟩⟩
    · rintro s label s' ⟨hreach, hlive⟩ hstep
      exact ⟨hreach.step hstep, hstep.live hreach hlive⟩
  exact hboth.2 n tid

/-- A thread that waits for its response has its operation in its slot. -/
theorem exists_batch (h : (machine DT).Reachable s) {rid : ReqId}
    (hphase : ((s.nodes n).threads tid).phase.enqueued = some rid) :
    ∃ op resp, ((s.nodes n).contexts tid).batch = some ⟨op, resp⟩ := by
  obtain ⟨enqueued, s₀, labels, hinit, hrun⟩ :
      ∃ enqueued, (enqueueMachine DT).Reachable (s, enqueued) := h.exists_record
  obtain ⟨op, resp, _, _, hbatch⟩ := (allCarry_of_run hinit hrun n tid).cell rid hphase
  exact ⟨op, resp, hbatch⟩

/-! ## The next access -/

/-- A thread outside `try_combine` has its next access. -/
theorem exists_clientStep (h : (machine DT).Reachable s) {phase : Phase DT} {rid : ReqId}
    (hthread : (s.nodes n).threads tid = ⟨phase, none⟩) (hrid : phase.rid = some rid) :
    ∃ label log node t, ClientStep n tid s.log (s.nodes n) phase label log node t := by
  obtain ⟨hinv, hlog⟩ := inv_of_reachable h
  have hnode := hinv.nodes n
  have hslot := hnode.slots tid
  have hactive := hnode.active tid rid
  have hlive := (live_of_reachable h n tid).phase
  have hlock : ((s.nodes n).threads tid).lock = phase.lock := by rw [hthread]; rfl
  rw [hthread] at hslot hactive hlive
  obtain ⟨_, version, hversion⟩ := NrLog.exists_data_version hlog (hactive hrid).1
  cases phase with
  | idle => cases hrid
  | getVersionUpperBound rid op => exact ⟨_, _, _, _, .getVersionUpperBound rid op⟩
  | isReplicaSynced rid op versionUpperBound =>
    by_cases hsynced : version ≥ versionUpperBound
    · exact ⟨_, _, _, _, .synced rid op versionUpperBound version hversion hsynced⟩
    · exact ⟨_, _, _, _, .notSynced rid op versionUpperBound version hversion hsynced⟩
  | acquireRead rid op pc =>
    rcases hlive with hawaits | rfl
    · have hidx : ∀ idx, pc = .excPending idx → idx < maxThreadsPerReplica := by
        rintro idx rfl
        cases hawaits
      obtain ⟨lock, pc', hstep⟩ := RwLock.exists_step_of_awaits maxThreadsPerReplica tid
        (s.nodes n).lock hawaits hidx
      refine ⟨_, _, _, _, .acquireRead rid op pc lock pc' ?_ hstep⟩
      rintro rfl
      cases hawaits
    · obtain ⟨view, hview⟩ := hnode.lock.exists_data hlock
      exact ⟨_, _, _, _, .dispatch rid op view (.borrow view hview)⟩
  | releaseRead rid ret => exact ⟨_, _, _, _, .releaseRead rid ret _ .releaseRead⟩
  | readDone rid ret => exact ⟨_, _, _, _, .doneRead rid ret⟩
  | enqueueOp rid op => exact ⟨_, _, _, _, .enqueueOp rid op⟩
  | storePending rid => exact ⟨_, _, _, _, .storePending rid⟩
  | loadResponse rid iter =>
    by_cases hatomic : ((s.nodes n).contexts tid).atomic = 0
    · exact ⟨_, _, _, _, .loadResponse rid iter hatomic⟩
    · exact ⟨_, _, _, _, .noResponse rid iter hatomic⟩
  | takeResponse rid =>
    obtain ⟨_, op, ret, hbatch, _⟩ := hslot
    exact ⟨_, _, _, _, .takeResponse rid op ret hbatch⟩
  | writeDone rid ret => exact ⟨_, _, _, _, .doneWrite rid ret⟩

-- The round at the first of the slots left finds an operation and a response for it.
private theorem NodeInv.exists_answer {log : NrLog.State DT} {node : Node DT} {r : Round DT}
    {i k : Nat}
    (h : NodeInv n log node) (hr : (node.threads tid).round = some r) (hpc : r.pc = .respond i k)
    {numOps : Nat} (hnum : r.numOpsPerThread[i]? = some numOps) (hne : numOps ≠ 0) :
    (∃ rid, (node.threads i).phase.enqueued = some rid) ∧ ∃ ret, r.responses[k]? = some ret := by
  have hheld := h.held tid r hr
  have hprogress := h.progress tid r hr
  simp only [Round.slots, Round.heldIds, hpc] at hheld
  simp only [Round.Progress, hpc] at hprogress
  rw [occupied_drop_of_ne_zero hnum hne] at hheld
  have hanswered := hprogress.2
  unfold Round.Answered at hanswered
  cases hids : r.requestIds.drop k with
  | nil =>
    rw [hids] at hheld
    cases hheld
  | cons rid rids =>
    rw [hids] at hheld hanswered
    obtain ⟨⟨_, iter, hphase⟩, _⟩ := List.forall₂_cons.mp hheld
    refine ⟨⟨rid, by rw [hphase]; rfl⟩, ?_⟩
    obtain ⟨ret, rets, _, _, hrets⟩ := List.forall₂_cons_left_iff.mp hanswered
    refine ⟨ret, ?_⟩
    rw [show r.responses[k]? = (r.responses.drop k)[0]? by rw [List.getElem?_drop, Nat.add_zero],
      hrets]
    rfl

/-- A thread inside `try_combine` has its next access, unless its `append` panicked. -/
theorem exists_combineStep (h : (machine DT).Reachable s) {phase : Phase DT} {r : Round DT}
    (hthread : (s.nodes n).threads tid = ⟨phase, some r⟩)
    (hstuck : r.pc = .appendExecute → ∀ t, s.log.threads n = some t → t.pc ≠ .stuck) :
    ∃ label log node round, CombineStep n tid s.log (s.nodes n) r label log node round := by
  obtain ⟨hinv, hlog⟩ := inv_of_reachable h
  have hnode := hinv.nodes n
  have hr : ((s.nodes n).threads tid).round = some r := by rw [hthread]
  have hprogress := hnode.progress tid r hr
  have hlive := (live_of_reachable h n tid).round r hr
  have hlock : ((s.nodes n).threads tid).lock = r.pc.lock := by rw [hthread]; rfl
  obtain ⟨⟨rid, hrid⟩, _⟩ := hnode.working tid r hr
  obtain ⟨⟨view, hview⟩, _⟩ := NrLog.exists_data_version hlog (hnode.active tid rid hrid).1
  cases hpc : r.pc with
  | loadCombiner =>
    by_cases hfree : (s.nodes n).combiner = 0
    · exact ⟨_, _, _, _, .combinerFree hpc hfree⟩
    · exact ⟨_, _, _, _, .combinerTaken hpc hfree⟩
  | casCombiner =>
    by_cases hfree : (s.nodes n).combiner = 0
    · exact ⟨_, _, _, _, .casCombiner hpc hfree⟩
    · exact ⟨_, _, _, _, .casCombinerFail hpc hfree⟩
  | collect i =>
    simp only [Round.Progress, hpc] at hprogress
    rcases Nat.lt_or_eq_of_le hprogress.2.1 with hi | rfl
    · by_cases hatomic : ((s.nodes n).contexts i).atomic = 1
      · exact ⟨_, _, _, _, .collectRequest i hpc hi hatomic⟩
      · exact ⟨_, _, _, _, .collectEmpty i hpc hi hatomic⟩
    · exact ⟨_, _, _, _, .collected hpc⟩
  | copyOp i =>
    simp only [Round.Progress, hpc] at hprogress
    obtain ⟨_, _, _, op, resp, hbatch, _⟩ := hprogress
    exact ⟨_, _, _, _, .copyOp i op resp hpc hbatch⟩
  | acquireWrite pc =>
    rw [hpc] at hlive hlock
    have hpending := (lock_live h n).pending tid
    by_cases hlast : pc = .excPending maxThreadsPerReplica
    · -- all counts seen: the value is in the cell
      subst hlast
      have hexc : ((s.nodes n).threads tid).lock.Exclusive := by
        rw [hlock]
        trivial
      have hdata : (s.nodes n).lock.data ≠ none := by
        rw [ne_eq, hnode.lock.data_eq_none_iff hexc]
        intro htaken
        cases hlock.symm.trans htaken
      obtain ⟨val, hval⟩ := Option.ne_none_iff_exists'.mp hdata
      exact ⟨_, _, _, _, .takeData _ _ val hpc (.take val hval)⟩
    · have hidx : ∀ idx, pc = .excPending idx → idx < maxThreadsPerReplica := by
        rintro idx rfl
        exact Nat.lt_of_le_of_ne (hpending idx hlock) fun heq ↦ hlast (congrArg _ heq)
      obtain ⟨lock, pc', hstep⟩ :=
        RwLock.exists_step_of_awaits maxThreadsPerReplica tid (s.nodes n).lock hlive hidx
      exact ⟨_, _, _, _, .acquireWrite pc lock pc' hpc hstep⟩
  | appendExecute =>
    simp only [Round.Progress, hpc] at hprogress
    obtain ⟨_, t, ht, _⟩ := hprogress
    rw [hpc] at hlive
    by_cases hfinished : t.pc = .finished
    · exact ⟨_, _, _, _, .executed t hpc ht hfinished⟩
    · obtain ⟨label, log, hstep⟩ :=
        NrLog.exists_combinerStep hlog ht (hlive t ht) hfinished (hstuck hpc t ht)
      exact ⟨_, _, _, _, .appendExecute t label log hpc ht hstep⟩
  | putData => exact ⟨_, _, _, _, .putData _ view hpc hview (.put view)⟩
  | unlockExc => exact ⟨_, _, _, _, .unlockExc _ hpc .unlockExc⟩
  | respond i k =>
    rw [hpc] at hlive
    simp only [Round.Progress, hpc] at hprogress
    rcases Nat.lt_or_eq_of_le hlive with hi | rfl
    · have hnum := List.getElem?_eq_getElem (hprogress.1.symm ▸ hi : i < r.numOpsPerThread.length)
      by_cases hzero : r.numOpsPerThread[i] = 0
      · exact ⟨_, _, _, _, .respondNone i k hpc (hzero ▸ hnum)⟩
      · obtain ⟨⟨rid', hphase⟩, ret, hret⟩ := hnode.exists_answer hr hpc hnum hzero
        obtain ⟨op, resp, hbatch⟩ := exists_batch h hphase
        exact ⟨_, _, _, _, .respond i k _ op resp ret hpc hnum hzero hbatch hret⟩
    · exact ⟨_, _, _, _, .responded k hpc⟩
  | storeResponse i k => exact ⟨_, _, _, _, .storeResponse i k hpc⟩
  | releaseCombiner => exact ⟨_, _, _, _, .releaseCombiner hpc⟩

/-- The thread has a next access: outside `try_combine`, or in its round. -/
def CanStep (s : State DT) (n : NodeId) (tid : ThreadId) : Prop :=
  match (s.nodes n).threads tid with
  | ⟨phase, none⟩ =>
    ∃ label log node t, ClientStep n tid s.log (s.nodes n) phase label log node t
  | ⟨_, some r⟩ =>
    ∃ label log node round, CombineStep n tid s.log (s.nodes n) r label log node round

end Reachable

/-- No access of a thread fails, whatever the others do. In every reachable state of the replicas
the lock around the data of each is a reachable lock, in which no thread gets to the panic; a
combiner thread of the log panics only if the largest batch would go past the last index; and every
thread inside a call has its next access, unless it is the one whose own `append` ended in this
panic: the operations, entries, responses and values that `unwrap` and the indexing expect are
there. -/
theorem replicas_never_fail (s : State DT) (hreach : (machine DT).Reachable s) (n : NodeId) :
    ((RwLock.machine DT.View maxThreadsPerReplica id).Reachable (s.nodes n).lockState ∧
      ∀ tid, ((s.nodes n).threads tid).lock ≠ .stuck) ∧
    (∀ t, s.log.threads n = some t → t.pc = .stuck → maxIdx ≤ s.log.tail + maxRequests) ∧
    ∀ tid, ((s.nodes n).threads tid).phase.rid ≠ none →
      (∀ r, ((s.nodes n).threads tid).round = some r → r.pc = .appendExecute →
        ∀ t, s.log.threads n = some t → t.pc ≠ .stuck) → CanStep s n tid := by
  obtain ⟨_, hlog⟩ := inv_of_reachable hreach
  refine ⟨⟨lockState_reachable hreach n, (lock_live hreach n).stuck⟩, fun t ht hpc ↦ ?_,
    fun tid hcall hstuck ↦ ?_⟩
  · have hrunning := NrLog.running_of_reachable hlog ht
    rw [hpc] at hrunning
    exact hrunning.resolve_left nofun
  · obtain ⟨rid, hrid⟩ := Option.ne_none_iff_exists'.mp hcall
    unfold CanStep
    split
    · next phase hthread =>
      rw [hthread] at hrid
      exact exists_clientStep hreach hthread hrid
    · next phase r hthread =>
      have hround : ((s.nodes n).threads tid).round = some r := by rw [hthread]
      exact exists_combineStep hreach hthread (hstuck r hround)

/-- A thread is about to append for itself and another one, which waits for its response: both
have their next access. -/
theorem replicas_never_fail_appending : ∃ s, (machine counter).Reachable s ∧
    ((s.nodes 0).threads 0).round = some ⟨.appendExecute, [(5 : Nat), (7 : Nat)],
      1 :: 1 :: List.replicate 62 0, [0, 1], []⟩ ∧
    ((RwLock.machine counter.View maxThreadsPerReplica id).Reachable (s.nodes 0).lockState ∧
      ∀ tid, ((s.nodes 0).threads tid).lock ≠ .stuck) ∧ CanStep s 0 0 ∧ CanStep s 0 1 := by
  obtain ⟨labels, s, hrun, _, hlog, hnode⟩ := @gets_collected counter (5 : Nat) (7 : Nat)
  have hreach : (machine counter).Reachable s := ⟨_, labels, ⟨1, by decide, rfl⟩, hrun⟩
  have hstuck : ∀ t, s.log.threads 0 = some t → t.pc ≠ .stuck := by
    rw [hlog]
    rintro t ht
    cases ht
    simp
  obtain ⟨hlock, _, hstep⟩ := replicas_never_fail s hreach 0
  refine ⟨s, hreach, ?_, hlock, hstep 0 ?_ fun _ _ _ ↦ hstuck, hstep 1 ?_ fun _ _ _ ↦ hstuck⟩
  · rw [hnode]
    rfl
  · rw [hnode]
    simp [twoThreads, Phase.rid]
  · rw [hnode]
    simp [twoThreads, Phase.rid]

end Replica

end NrKernel.NodeReplication
