import NrKernel.NodeReplication.ReplicaLinearizability

/-!
# The interface of node replication

What clients call: threads register with a replica, get a token for it, and call `execute` and
`execute_mut` with the token. Model of `exec/mod.rs` with `Replica::new` and `Replica::register`
of `exec/replica.rs`. A call consumes its token and gives it back when it returns; nothing else
keeps a thread's slot to one call at a time. So every slot is used by one call at a time, and the
calls are linearizable.
-/

namespace NrKernel.NodeReplication

open Lib Lib.Linearizability

universe u

namespace NodeReplicated

open Replica (ThreadId)

/-! ## Model -/

/-- `ThreadToken` (`exec/context.rs:41–52`), with the id its `ReplicaToken` holds. -/
structure ThreadToken where
  rid : NodeId
  tid : ThreadId

/-- What registering uses of a `Replica`: its id and the tokens it still has
(`exec/replica.rs:146–209`). -/
structure Handle where
  replicaToken : NodeId
  threadTokens : List ThreadToken

/-- The tokens of a replica's first threads. -/
def tokensBelow (replicaToken : NodeId) (n : Nat) : List ThreadToken :=
  (List.range n).map fun idx ↦ ⟨replicaToken, idx⟩

/-- `Replica::new` (`exec/replica.rs:252–440`). -/
def Handle.new (replicaToken : NodeId) : Handle where
  replicaToken := replicaToken
  threadTokens := tokensBelow replicaToken maxThreadsPerReplica

/-- `Replica::register` (`exec/replica.rs:990–1001`). -/
def Handle.register (replica : Handle) : Option ThreadToken × Handle :=
  (replica.threadTokens.getLast?,
    { replica with threadTokens := replica.threadTokens.dropLast })

/-- `NodeReplicated::register` (`exec/mod.rs:221–237`): the replica is taken out of the vector and
put back. -/
def register (replicas : List Handle) (replicaId : Nat) : Option ThreadToken × List Handle :=
  if h : replicaId < replicas.length then
    let res := replicas[replicaId].register
    (res.1, (replicas.eraseIdx replicaId).insertIdx replicaId res.2)
  else (none, replicas)

variable (DT : Dispatch.{u})

/-- The data structure with its replicas and threads, and the tokens that clients have and no call
uses. -/
structure State where
  replicas : List Handle
  system : Replica.State DT
  tokens : Set ThreadToken

/-- What a client sees: a registration, a call with a token that is accepted or refused, and the
return of a call with its token. -/
inductive Label where
  | internal
  | registered (replicaId : Nat) (result : Option ThreadToken)
  | call (tkn : ThreadToken) (rid : ReqId) (input : InputOperation DT)
  | refused (tkn : ThreadToken)
  | ret (tkn : ThreadToken) (rid : ReqId) (output : OutputOperation DT)

variable {DT}

/-- A thread of a replica enters a call, whatever it was doing. -/
def enter (s : Replica.State DT) (n : NodeId) (tid : ThreadId) (log : NrLog.State DT)
    (phase : Replica.Phase DT) : Replica.State DT :=
  ⟨log, Function.update s.nodes n ((s.nodes n).setThread tid ⟨phase, none⟩)⟩

/-- The thread a token names is in no call. -/
def Idle (s : Replica.State DT) (tkn : ThreadToken) : Prop :=
  ((s.nodes tkn.rid).threads tkn.tid).phase = .idle

/-- Calls of clients with the tokens they have (`exec/mod.rs:221–303`), and the accesses of the
threads inside them. The request of a call is fresh, as its ticket is a new one. -/
inductive Next (s : State DT) : Label DT → State DT → Prop
  -- the exclusive reference excludes calls
  | register (replicaId : Nat) (hexclusive : ∀ tkn, Idle s.system tkn) :
      Next s (.registered replicaId (register s.replicas replicaId).1)
        { s with
          replicas := (register s.replicas replicaId).2
          tokens := s.tokens ∪ {tkn | (register s.replicas replicaId).1 = some tkn} }
  | execute (tkn : ThreadToken) (replica : Handle) (rid : ReqId) (op : DT.ReadOperation)
      (htkn : tkn ∈ s.tokens) (hreplica : s.replicas[tkn.rid]? = some replica)
      (hreaders : s.system.log.readers rid = none) (htickets : s.system.log.tickets rid = none) :
      Next s (.call tkn rid (.read op replica.replicaToken))
        { s with
          system := enter s.system replica.replicaToken tkn.tid
            { s.system.log with
              readers := s.system.log.readers.insert rid (.called op replica.replicaToken) }
            (.getVersionUpperBound rid op)
          tokens := s.tokens \ {tkn} }
  | executeMut (tkn : ThreadToken) (replica : Handle) (rid : ReqId) (op : DT.WriteOperation)
      (htkn : tkn ∈ s.tokens) (hreplica : s.replicas[tkn.rid]? = some replica)
      (hreaders : s.system.log.readers rid = none) (htickets : s.system.log.tickets rid = none) :
      Next s (.call tkn rid (.write op))
        { s with
          system := enter s.system replica.replicaToken tkn.tid
            { s.system.log with tickets := s.system.log.tickets.insert rid (.pending op) }
            (.enqueueOp rid op)
          tokens := s.tokens \ {tkn} }
  -- both calls give back the token and the ticket when there is no such replica
  | refuse (tkn : ThreadToken) (htkn : tkn ∈ s.tokens) (hnone : s.replicas[tkn.rid]? = none) :
      Next s (.refused tkn) s
  | step (label : Replica.Label DT) (system : Replica.State DT)
      (h : Replica.Next s.system label system) (hlabel : label.event = none) :
      Next s .internal { s with system := system }
  | ret (n : NodeId) (tid : ThreadId) (phase : Replica.Phase DT) (rid : ReqId)
      (output : OutputOperation DT) (log : NrLog.State DT) (node : Replica.Node DT)
      (t : Replica.Thread DT) (hthread : (s.system.nodes n).threads tid = ⟨phase, none⟩)
      (hstep : Replica.ClientStep n tid s.system.log (s.system.nodes n) phase (.done rid output)
        log node t) :
      Next s (.ret ⟨n, tid⟩ rid output)
        { s with
          system := ⟨log, Function.update s.system.nodes n (node.setThread tid t)⟩
          tokens := insert ⟨n, tid⟩ s.tokens }

variable (DT) in
/-- `NodeReplicated::new` (`exec/mod.rs:117–210`). -/
def initialState (numReplicas : Nat) : State DT where
  replicas := (List.range numReplicas).map Handle.new
  system := Replica.initialState DT numReplicas
  tokens := ∅

variable (DT) in
/-- The interface as a machine, with any positive number of replicas and any number of clients. -/
def machine : Machine (State DT) (Label DT) where
  init := fun s ↦ ∃ numReplicas, 0 < numReplicas ∧ s = initialState DT numReplicas
  step := Next

/-! ## Registering -/

/-- The replicas, with some number of tokens left each. -/
def handles (numReplicas : Nat) (left : NodeId → Nat) : List Handle :=
  (List.range numReplicas).map fun n ↦ ⟨n, tokensBelow n (left n)⟩

private theorem getElem?_handles (numReplicas : Nat) (left : NodeId → Nat) (n : NodeId) :
    (handles numReplicas left)[n]? =
      if n < numReplicas then some ⟨n, tokensBelow n (left n)⟩ else none := by
  rw [handles, List.getElem?_map]
  by_cases hn : n < numReplicas
  · rw [List.getElem?_range hn, if_pos hn, Option.map_some]
  · have hlength : (List.range numReplicas).length ≤ n := by
      rw [List.length_range]
      exact Nat.le_of_not_lt hn
    rw [List.getElem?_eq_none hlength, if_neg hn, Option.map_none]

/-- Registering takes the token of the last thread left. -/
theorem Handle.register_tokensBelow (n : NodeId) (left : Nat) :
    Handle.register ⟨n, tokensBelow n left⟩ =
      (if 0 < left then some ⟨n, left - 1⟩ else none, ⟨n, tokensBelow n (left - 1)⟩) := by
  cases left with
  | zero => rfl
  | succ left =>
    rw [Handle.register, tokensBelow, List.range_succ, List.map_append, List.map_singleton,
      List.getLast?_concat, List.dropLast_concat, if_pos (Nat.succ_pos left)]
    rfl

private theorem insertIdx_eraseIdx_eq_set {α : Type*} (xs : List α) (i : Nat) (x : α)
    (h : i < xs.length) : (xs.eraseIdx i).insertIdx i x = xs.set i x := by
  induction xs generalizing i with
  | nil => cases h
  | cons y ys ih =>
    cases i with
    | zero => rfl
    | succ i =>
      rw [List.eraseIdx_cons_succ, List.insertIdx_succ_cons, List.set_cons_succ,
        ih i (Nat.lt_of_succ_lt_succ h)]

/-- Registering with one replica leaves the others as they are. -/
theorem register_handles (numReplicas : Nat) (left : NodeId → Nat) (n : NodeId) :
    register (handles numReplicas left) n =
      (if n < numReplicas ∧ 0 < left n then some ⟨n, left n - 1⟩ else none,
        handles numReplicas (Function.update left n (left n - 1))) := by
  have hlength : (handles numReplicas left).length = numReplicas := by
    rw [handles, List.length_map, List.length_range]
  unfold register
  split
  · next hn =>
    have hlt : n < numReplicas := by rwa [hlength] at hn
    have hget : (handles numReplicas left)[n] = ⟨n, tokensBelow n (left n)⟩ := by
      apply Option.some.inj
      rw [← List.getElem?_eq_getElem hn, getElem?_handles, if_pos hlt]
    dsimp only
    rw [insertIdx_eraseIdx_eq_set _ _ _ hn, hget, Handle.register_tokensBelow]
    refine Prod.ext ?_ ?_
    · simp only [hlt, true_and]
    · apply List.ext_getElem?
      intro m
      rw [getElem?_handles, List.getElem?_set, hlength, getElem?_handles]
      by_cases hm : n = m
      · subst hm
        rw [if_pos rfl, Function.update_self]
      · rw [if_neg hm, Function.update_of_ne (Ne.symm hm)]
  · next hn =>
    have hge : ¬ n < numReplicas := by rwa [hlength] at hn
    refine Prod.ext ?_ ?_
    · rw [if_neg fun h ↦ hge h.1]
    · apply List.ext_getElem?
      intro m
      rw [getElem?_handles, getElem?_handles]
      by_cases hm : m < numReplicas
      · rw [if_pos hm, if_pos hm, Function.update_of_ne (by rintro rfl; exact hge hm)]
      · rw [if_neg hm, if_neg hm]

/-! ## Threads between calls -/

section Threads

variable {s s' : Replica.State DT} {n : NodeId} {tid : ThreadId} {tkn : ThreadToken}

/-- A thread in no call does not combine either. -/
theorem Idle.thread_eq (h : Idle s tkn) (hreach : (Replica.machine DT).Reachable s) :
    (s.nodes tkn.rid).threads tkn.tid = ⟨.idle, none⟩ := by
  have hworking := ((Replica.inv_of_reachable hreach).1.nodes tkn.rid).working tkn.tid
  cases ht : (s.nodes tkn.rid).threads tkn.tid with
  | mk phase round =>
    obtain rfl : phase = .idle := by
      rw [← h, ht]
    cases round with
    | none => rfl
    | some r =>
      obtain ⟨⟨rid, hrid⟩, _⟩ := hworking r (by rw [ht])
      rw [ht] at hrid
      cases hrid

/-- A thread in no call is one of any state that differs in another thread. -/
theorem idle_update_of_ne {log : NrLog.State DT} {node : Replica.Node DT} {t : Replica.Thread DT}
    (hthreads : node.threads = (s.nodes n).threads) (hne : tkn ≠ ⟨n, tid⟩) :
    Idle ⟨log, Function.update s.nodes n (node.setThread tid t)⟩ tkn ↔ Idle s tkn := by
  unfold Idle
  by_cases hn : tkn.rid = n
  · have htid : tkn.tid ≠ tid := by
      rintro rfl
      exact hne (by rw [← hn])
    subst hn
    simp only [Function.update_self, Replica.Node.setThread, Function.update_of_ne htid, hthreads]
  · simp only [Function.update_of_ne hn]

private theorem idle_update_self {log : NrLog.State DT} {node : Replica.Node DT}
    {t : Replica.Thread DT} :
    Idle ⟨log, Function.update s.nodes n (node.setThread tid t)⟩ ⟨n, tid⟩ ↔ t.phase = .idle := by
  simp only [Idle, Function.update_self, Replica.Node.setThread]

private theorem not_idle_of_clientStep {log log' : NrLog.State DT} {node node' : Replica.Node DT}
    {phase : Replica.Phase DT} {label : Replica.Label DT} {t : Replica.Thread DT}
    (h : Replica.ClientStep n tid log node phase label log' node' t) (hlabel : label.event = none) :
    phase ≠ .idle ∧ t.phase ≠ .idle := by
  cases h with
  | startRead | startWrite | doneRead | doneWrite => cases hlabel
  | noResponse rid iter =>
    have hpoll : ∃ iter', (Replica.pollAgain rid iter : Replica.Thread DT).phase =
        .loadResponse rid iter' := Replica.pollAgain_phase rid iter
    obtain ⟨iter', hphase⟩ := hpoll
    rw [hphase]
    constructor <;> rintro ⟨⟩
  | _ => constructor <;> rintro ⟨⟩

/-- Threads enter and leave calls when they are called and when they return. -/
theorem idle_iff_of_next {label : Replica.Label DT} (hstep : Replica.Next s label s')
    (hlabel : label.event = none) (tkn : ThreadToken) : Idle s' tkn ↔ Idle s tkn := by
  cases hstep with
  | client n tid phase label log node t hthread hclient =>
    obtain ⟨hold, hnew⟩ := not_idle_of_clientStep hclient hlabel
    by_cases heq : tkn = ⟨n, tid⟩
    · subst heq
      rw [idle_update_self, Idle, hthread]
      exact iff_of_false hnew hold
    · exact idle_update_of_ne hclient.threads_eq heq
  | combine n tid phase r label log node r' hthread hcombine =>
    by_cases heq : tkn = ⟨n, tid⟩
    · subst heq
      rw [idle_update_self, Idle, hthread]
    · exact idle_update_of_ne hcombine.threads_eq heq

private theorem numReplicas_eq_of_next {label : Replica.Label DT}
    (hstep : Replica.Next s label s') : s'.log.numReplicas = s.log.numReplicas := by
  cases hstep with
  | client n tid phase label log node t hthread hclient =>
    exact (hclient.sameCombiner (m := n)).numReplicas
  | combine n tid phase r label log node r' hthread hcombine =>
    exact (hcombine.sameCombiner (m := n + 1) (Nat.succ_ne_self n)).numReplicas

end Threads

/-! ## Runs -/

section Runs

/-- A registration with a replica. -/
def Label.registers (n : NodeId) : Label DT → Bool
  | .registered m _ => decide (m = n)
  | _ => false

/-- The number of registrations with a replica. -/
def registrations (labels : List (Label DT)) (n : NodeId) : Nat :=
  labels.countP (Label.registers n)

/-- The tokens a replica has left after some registrations. -/
def left (labels : List (Label DT)) (n : NodeId) : Nat :=
  maxThreadsPerReplica - registrations labels n

variable {s s' s₀ : State DT} {labels : List (Label DT)} {label : Label DT} {n : NodeId}

private theorem left_snoc (labels : List (Label DT)) (h : ∀ n, label.registers n = false) :
    left (labels ++ [label]) = left labels := by
  funext n
  rw [left, left, registrations, List.countP_append, List.countP_singleton, h n]
  rfl

private theorem left_snoc_registered (labels : List (Label DT)) (n : NodeId)
    (result : Option ThreadToken) :
    left (labels ++ [.registered n result]) =
      Function.update (left labels) n (left labels n - 1) := by
  funext m
  rw [left, registrations, List.countP_append, List.countP_singleton, Label.registers]
  by_cases hm : n = m
  · subst hm
    rw [decide_eq_true rfl, if_pos rfl, Function.update_self, left, registrations]
    omega
  · rw [decide_eq_false hm, if_neg Bool.false_ne_true, Function.update_of_ne (Ne.symm hm), left,
      registrations, Nat.add_zero]

/-- After some labels: the tokens of clients are those handed out and in no call, and the threads
of the tokens that are left never ran. -/
structure Inv (labels : List (Label DT)) (s : State DT) : Prop where
  reachable : (Replica.machine DT).Reachable s.system
  replicas : s.replicas = handles s.system.log.numReplicas (left labels)
  tokens : ∀ tkn ∈ s.tokens, tkn.rid < s.system.log.numReplicas ∧
    left labels tkn.rid ≤ tkn.tid ∧ tkn.tid < maxThreadsPerReplica ∧ Idle s.system tkn
  unregistered : ∀ n tid, tid < left labels n → Idle s.system ⟨n, tid⟩

private theorem inv_initialState (numReplicas : Nat) (hpos : 0 < numReplicas) :
    Inv [] (initialState DT numReplicas) where
  reachable := .of_init ⟨numReplicas, hpos, rfl⟩
  replicas := rfl
  tokens := fun _ htkn ↦ absurd htkn (Set.notMem_empty _)
  unregistered := fun _ _ _ ↦ rfl

/-- The replica of a token is found under its id. -/
theorem Inv.replica_of_token (h : Inv labels s) {tkn : ThreadToken} (htkn : tkn ∈ s.tokens) :
    s.replicas[tkn.rid]? = some ⟨tkn.rid, tokensBelow tkn.rid (left labels tkn.rid)⟩ := by
  rw [h.replicas, getElem?_handles, if_pos (h.tokens tkn htkn).1]

/-- What registering hands out. -/
theorem Inv.register_eq (h : Inv labels s) (n : NodeId) :
    register s.replicas n =
      (if n < s.system.log.numReplicas ∧ 0 < left labels n then some ⟨n, left labels n - 1⟩
        else none,
        handles s.system.log.numReplicas
          (Function.update (left labels) n (left labels n - 1))) := by
  rw [h.replicas, register_handles]

/-- A call takes a token whose thread is in no call, and starts there. -/
theorem Inv.next_call (h : Inv labels s) {tkn : ThreadToken} (htkn : tkn ∈ s.tokens)
    {log : NrLog.State DT} {phase : Replica.Phase DT} {rid : ReqId} {input : InputOperation DT}
    (hstep : Replica.ClientStep tkn.rid tkn.tid s.system.log (s.system.nodes tkn.rid) .idle
      (.start rid input) log (s.system.nodes tkn.rid) ⟨phase, none⟩) :
    Inv (labels ++ [.call tkn rid input])
      { s with
        system := enter s.system tkn.rid tkn.tid log phase
        tokens := s.tokens \ {tkn} } ∧
    Replica.Next s.system (.start rid input) (enter s.system tkn.rid tkn.tid log
      phase) := by
  obtain ⟨hrid, hleft, htid, hidle⟩ := h.tokens tkn htkn
  have hnext : Replica.Next s.system (.start rid input)
      (enter s.system tkn.rid tkn.tid log phase) :=
    .client tkn.rid tkn.tid .idle _ _ _ _ (hidle.thread_eq h.reachable) hstep
  have hreplicas : log.numReplicas = s.system.log.numReplicas := numReplicas_eq_of_next hnext
  have hlabels : left (labels ++ [.call tkn rid input]) = left labels :=
    left_snoc labels fun _ ↦ rfl
  have hother : ∀ tkn' ≠ tkn, Idle s.system tkn' →
      Idle (enter s.system tkn.rid tkn.tid log phase) tkn' :=
    fun tkn' hne hidle' ↦ (idle_update_of_ne rfl hne).mpr hidle'
  refine ⟨⟨h.reachable.step hnext, ?_, ?_, ?_⟩, hnext⟩
  · rw [hlabels]
    show s.replicas = handles log.numReplicas (left labels)
    rw [hreplicas, h.replicas]
  · rintro tkn' ⟨htkn', hne⟩
    obtain ⟨hrid', hleft', htid', hidle'⟩ := h.tokens tkn' htkn'
    rw [hlabels]
    exact ⟨hreplicas.symm ▸ hrid', hleft', htid', hother tkn' hne hidle'⟩
  · intro n tid hlt
    rw [hlabels] at hlt
    refine hother _ ?_ (h.unregistered n tid hlt)
    rintro rfl
    exact absurd hlt (Nat.not_lt.mpr hleft)

/-- The call or return a step shows. -/
def Label.event : Label DT → Option (Event ReqId (InputOperation DT) (OutputOperation DT))
  | .call _ rid input => some (.call rid input)
  | .ret _ rid output => some (.ret rid output)
  | _ => none

/-- What a step is to the replicas: nothing, or a step that shows the same. -/
def Label.Shows (label : Label DT) (system system' : Replica.State DT) : Prop :=
  label.event = none ∧ system' = system ∨
    ∃ l : Replica.Label DT, Replica.Next system l system' ∧ l.event = label.event

/-- Every step keeps the invariant, and is one of the replicas. -/
theorem Inv.next (h : Inv labels s) (hstep : Next s label s') :
    Inv (labels ++ [label]) s' ∧ label.Shows s.system s'.system := by
  cases hstep with
  | register n =>
    refine ⟨⟨h.reachable, ?_, ?_, ?_⟩, .inl ⟨rfl, rfl⟩⟩
    · rw [left_snoc_registered, h.register_eq]
    · have hle : ∀ m, left (labels ++ [.registered n (register s.replicas n).1]) m ≤
          left labels m := by
        intro m
        rw [left_snoc_registered, Function.update_apply]
        split
        · next hm =>
          rw [hm]
          exact Nat.sub_le _ _
        · exact Nat.le_refl _
      rintro tkn (htkn | hnew)
      · obtain ⟨hrid, hleft, htid, hidle⟩ := h.tokens tkn htkn
        exact ⟨hrid, Nat.le_trans (hle _) hleft, htid, hidle⟩
      · have hnew : (register s.replicas n).1 = some tkn := hnew
        rw [h.register_eq] at hnew
        split at hnew
        · next hcond =>
          obtain ⟨hlt, hpos⟩ := hcond
          cases hnew
          have hmax : left labels n ≤ maxThreadsPerReplica := Nat.sub_le _ _
          refine ⟨hlt, ?_, ?_, h.unregistered n _ (Nat.sub_lt hpos Nat.one_pos)⟩
          · rw [left_snoc_registered, Function.update_self]
          · show left labels n - 1 < maxThreadsPerReplica
            omega
        · cases hnew
    · intro m tid hlt
      rw [left_snoc_registered, Function.update_apply] at hlt
      apply h.unregistered m tid
      split at hlt
      · next hm =>
        rw [hm]
        omega
      · exact hlt
  | execute tkn replica rid op htkn hreplica hreaders htickets =>
    obtain rfl := Option.some.inj ((h.replica_of_token htkn).symm.trans hreplica)
    obtain ⟨hrid, _, htid, _⟩ := h.tokens tkn htkn
    obtain ⟨hinv, hnext⟩ := h.next_call htkn (.startRead rid op hrid htid hreaders htickets)
    exact ⟨hinv, .inr ⟨_, hnext, rfl⟩⟩
  | executeMut tkn replica rid op htkn hreplica hreaders htickets =>
    obtain rfl := Option.some.inj ((h.replica_of_token htkn).symm.trans hreplica)
    obtain ⟨hrid, _, htid, _⟩ := h.tokens tkn htkn
    obtain ⟨hinv, hnext⟩ := h.next_call htkn (.startWrite rid op hrid htid hreaders htickets)
    exact ⟨hinv, .inr ⟨_, hnext, rfl⟩⟩
  | refuse tkn htkn hnone =>
    rw [h.replica_of_token htkn] at hnone
    cases hnone
  | step l system hstep hl =>
    have hidle := idle_iff_of_next hstep hl
    have hreplicas := numReplicas_eq_of_next hstep
    have hlabels : left (labels ++ [.internal]) = left labels := left_snoc labels fun _ ↦ rfl
    refine ⟨⟨h.reachable.step hstep, ?_, ?_, ?_⟩, .inr ⟨l, hstep, hl⟩⟩
    · show s.replicas = handles system.log.numReplicas _
      rw [hlabels, hreplicas, h.replicas]
    · intro tkn htkn
      obtain ⟨hrid, hleft, htid, hidle'⟩ := h.tokens tkn htkn
      rw [hlabels]
      exact ⟨hreplicas.symm ▸ hrid, hleft, htid, (hidle tkn).mpr hidle'⟩
    · intro n tid hlt
      rw [hlabels] at hlt
      exact (hidle _).mpr (h.unregistered n tid hlt)
  | ret n tid phase rid output log node t hthread hclient =>
    have hnext : Replica.Next s.system (.done rid output)
        ⟨log, Function.update s.system.nodes n (node.setThread tid t)⟩ :=
      .client n tid phase _ _ _ _ hthread hclient
    have hphase : phase.rid = some rid ∧ t.phase = .idle := by
      cases hclient <;> exact ⟨rfl, rfl⟩
    have hactive := ((Replica.inv_of_reachable h.reachable).1.nodes n).active tid rid
      (by rw [hthread]; exact hphase.1)
    have hleft : left labels n ≤ tid := by
      by_contra hlt
      have hidle : ((s.system.nodes n).threads tid).phase = .idle :=
        h.unregistered n tid (Nat.lt_of_not_le hlt)
      rw [hthread] at hidle
      rw [show phase = .idle from hidle] at hphase
      cases hphase.1
    have hreplicas : log.numReplicas = s.system.log.numReplicas := numReplicas_eq_of_next hnext
    have hlabels : left (labels ++ [.ret ⟨n, tid⟩ rid output]) = left labels :=
      left_snoc labels fun _ ↦ rfl
    have hidle : ∀ tkn, Idle s.system tkn →
        Idle ⟨log, Function.update s.system.nodes n (node.setThread tid t)⟩ tkn := by
      intro tkn htkn
      by_cases heq : tkn = ⟨n, tid⟩
      · subst heq
        exact idle_update_self.mpr hphase.2
      · exact (idle_update_of_ne hclient.threads_eq heq).mpr htkn
    refine ⟨⟨h.reachable.step hnext, ?_, ?_, ?_⟩, .inr ⟨_, hnext, rfl⟩⟩
    · show s.replicas = handles log.numReplicas _
      rw [hlabels, hreplicas, h.replicas]
    · rw [hlabels]
      rintro tkn (rfl | htkn)
      · exact ⟨hreplicas.symm ▸ hactive.1, hleft, hactive.2, idle_update_self.mpr hphase.2⟩
      · obtain ⟨hrid, hleft', htid, hidle'⟩ := h.tokens tkn htkn
        exact ⟨hreplicas.symm ▸ hrid, hleft', htid, hidle tkn hidle'⟩
    · intro m j hlt
      rw [hlabels] at hlt
      exact hidle _ (h.unregistered m j hlt)

/-- The interface implements the replicas and their threads. -/
theorem machine_implements_replicas :
    Implements (machine DT) (Replica.machine DT) Label.event Replica.Label.event := by
  have hsim : ForwardSim (machine DT) (Replica.machine DT)
      (fun label ks ↦ ks.filterMap Replica.Label.event = [label].filterMap Label.event)
      (fun s system ↦ system = s.system ∧ ∃ labels, Inv labels s) := by
    constructor
    · rintro _ ⟨numReplicas, hpos, rfl⟩
      exact ⟨_, ⟨numReplicas, hpos, rfl⟩, rfl, [], inv_initialState numReplicas hpos⟩
    · rintro s label s' _ ⟨rfl, labels, hinv⟩ hstep
      obtain ⟨hinv', hshows⟩ := hinv.next hstep
      rcases hshows with ⟨hnone, hsame⟩ | ⟨l, hnext, hevent⟩
      · refine ⟨[], s.system, ?_, .nil _, hsame.symm, _, hinv'⟩
        rw [List.filterMap_cons_none hnone]
        rfl
      · refine ⟨[l], s'.system, ?_, .single hnext, rfl, _, hinv'⟩
        rw [List.filterMap_cons, List.filterMap_cons, hevent, List.filterMap_nil,
          List.filterMap_nil]
  exact hsim.implements fun _ _ h ↦ h

/-! ### All threads registered -/

/-- Clients have the tokens of all threads that are in no call. -/
def AllRegistered (s : State DT) : Prop :=
  ∀ n tid, n < s.system.log.numReplicas → tid < maxThreadsPerReplica → Idle s.system ⟨n, tid⟩ →
    ⟨n, tid⟩ ∈ s.tokens

private theorem AllRegistered.call (h : AllRegistered s) (tkn : ThreadToken)
    {log : NrLog.State DT} {phase : Replica.Phase DT} (hphase : phase ≠ .idle)
    (hreplicas : log.numReplicas = s.system.log.numReplicas) :
    AllRegistered { s with
      system := enter s.system tkn.rid tkn.tid log phase
      tokens := s.tokens \ {tkn} } := by
  intro n tid hn htid hidle
  have hne : (⟨n, tid⟩ : ThreadToken) ≠ tkn := by
    rintro rfl
    exact hphase (idle_update_self.mp hidle)
  exact ⟨h n tid (hreplicas ▸ hn) htid ((idle_update_of_ne rfl hne).mp hidle), hne⟩

private theorem AllRegistered.ret (h : AllRegistered s) {n : NodeId} {tid : ThreadId}
    {log : NrLog.State DT} {t : Replica.Thread DT}
    (hreplicas : log.numReplicas = s.system.log.numReplicas) :
    AllRegistered { s with
      system := ⟨log, Function.update s.system.nodes n ((s.system.nodes n).setThread tid t)⟩
      tokens := insert ⟨n, tid⟩ s.tokens } := by
  intro m j hm hj hidle
  by_cases heq : (⟨m, j⟩ : ThreadToken) = ⟨n, tid⟩
  · exact .inl heq
  · exact .inr (h m j (hreplicas ▸ hm) hj ((idle_update_of_ne rfl heq).mp hidle))

private theorem AllRegistered.exists_next (h : AllRegistered s) (hinv : Inv labels s)
    {l : Replica.Label DT} {system : Replica.State DT} (hstep : Replica.Next s.system l system) :
    ∃ label s', Next s label s' ∧ s'.system = system ∧ label.event = l.event ∧
      AllRegistered s' := by
  have hreplicas := numReplicas_eq_of_next hstep
  have hinternal : l.event = none → ∃ label s', Next s label s' ∧ s'.system = system ∧
      label.event = l.event ∧ AllRegistered s' := by
    intro hl
    refine ⟨.internal, { s with system := system }, .step l system hstep hl, rfl, hl.symm, ?_⟩
    intro n tid hn htid hidle
    exact h n tid (hreplicas ▸ hn) htid ((idle_iff_of_next hstep hl _).mp hidle)
  cases hstep with
  | combine n tid phase r l log node r' hthread hcombine =>
    exact hinternal hcombine.event_eq_none
  | client n tid phase l log node t hthread hclient =>
    cases hclient with
    | startRead rid op hn htid hreaders htickets =>
      have htkn : ⟨n, tid⟩ ∈ s.tokens := h n tid hn htid (by rw [Idle, hthread])
      exact ⟨_, _, .execute ⟨n, tid⟩ _ rid op htkn (hinv.replica_of_token htkn) hreaders htickets,
        rfl, rfl, h.call ⟨n, tid⟩ (by simp) rfl⟩
    | startWrite rid op hn htid hreaders htickets =>
      have htkn : ⟨n, tid⟩ ∈ s.tokens := h n tid hn htid (by rw [Idle, hthread])
      exact ⟨_, _, .executeMut ⟨n, tid⟩ _ rid op htkn (hinv.replica_of_token htkn) hreaders
        htickets, rfl, rfl, h.call ⟨n, tid⟩ (by simp) rfl⟩
    | doneRead rid ret =>
      exact ⟨_, _, .ret n tid _ rid _ _ _ _ hthread (.doneRead rid ret), rfl, rfl, h.ret rfl⟩
    | doneWrite rid ret =>
      exact ⟨_, _, .ret n tid _ rid _ _ _ _ hthread (.doneWrite rid ret), rfl, rfl, h.ret rfl⟩
    | _ => exact hinternal rfl

-- A run of registrations with fresh replicas: clients have the tokens that were handed out.
private structure Registering (numReplicas : Nat) (labels : List (Label DT)) (s : State DT) :
    Prop where
  run : (machine DT).Run (initialState DT numReplicas) labels s
  silent : labels.filterMap Label.event = []
  system : s.system = Replica.initialState DT numReplicas
  tokens : ∀ n tid, n < numReplicas → left labels n ≤ tid → tid < maxThreadsPerReplica →
    ⟨n, tid⟩ ∈ s.tokens

private theorem Registering.inv {numReplicas : Nat} (h : Registering numReplicas labels s)
    (hpos : 0 < numReplicas) : Inv labels s :=
  h.run.history_nil (I := Inv) (inv_initialState numReplicas hpos)
    fun _ _ _ _ hinv hstep ↦ (hinv.next hstep).1

private theorem Registering.next {numReplicas : Nat} (h : Registering numReplicas labels s)
    (hpos : 0 < numReplicas) {n : NodeId} (hn : n < numReplicas) :
    Registering numReplicas (labels ++ [.registered n (register s.replicas n).1])
      { s with
        replicas := (register s.replicas n).2
        tokens := s.tokens ∪ {tkn | (register s.replicas n).1 = some tkn} } where
  run := h.run.append (.single (.register n fun tkn ↦ by rw [h.system]; rfl))
  silent := by
    rw [List.filterMap_append, h.silent]
    rfl
  system := h.system
  tokens := by
    intro m tid hm hleft htid
    rw [left_snoc_registered, Function.update_apply] at hleft
    split at hleft
    · next heq =>
      subst heq
      rcases Nat.lt_or_ge tid (left labels m) with hlt | hge
      · have hlog : s.system.log.numReplicas = numReplicas := by
          rw [h.system]
          rfl
        have hlast : tid = left labels m - 1 := by omega
        right
        show (register s.replicas m).1 = some ⟨m, tid⟩
        rw [(h.inv hpos).register_eq, if_pos ⟨hlog ▸ hm, by omega⟩, hlast]
      · exact .inl (h.tokens m tid hm hge htid)
    · exact .inl (h.tokens m tid hm hleft htid)

private theorem Registering.exists_more {numReplicas : Nat} (h : Registering numReplicas labels s)
    (hpos : 0 < numReplicas) {n : NodeId} (hn : n < numReplicas) (k : Nat) :
    ∃ (labels' : List (Label DT)) (s' : State DT), Registering numReplicas labels' s' ∧
      left labels' n = left labels n - k ∧ ∀ m, m ≠ n → left labels' m = left labels m := by
  induction k with
  | zero => exact ⟨labels, s, h, rfl, fun _ _ ↦ rfl⟩
  | succ k ih =>
    obtain ⟨labels', s', h', hleft, hother⟩ := ih
    refine ⟨_, _, h'.next hpos hn, ?_, fun m hm ↦ ?_⟩
    · rw [left_snoc_registered, Function.update_self, hleft, Nat.sub_sub]
    · rw [left_snoc_registered, Function.update_of_ne hm, hother m hm]

variable (DT) in
private theorem exists_registering (numReplicas : Nat) (hpos : 0 < numReplicas) {k : Nat}
    (hk : k ≤ numReplicas) : ∃ (labels : List (Label DT)) (s : State DT),
      Registering numReplicas labels s ∧ ∀ n, n < k → left labels n = 0 := by
  induction k with
  | zero =>
    refine ⟨[], initialState DT numReplicas, ⟨.nil _, rfl, rfl, ?_⟩, fun n hn ↦ by omega⟩
    intro n tid _ hleft htid
    exact absurd htid (Nat.not_lt.mpr hleft)
  | succ k ih =>
    obtain ⟨labels, s, h, hzero⟩ := ih (Nat.le_of_succ_le hk)
    obtain ⟨labels', s', h', hleft, hother⟩ := h.exists_more hpos hk maxThreadsPerReplica
    refine ⟨labels', s', h', fun n hn ↦ ?_⟩
    by_cases heq : n = k
    · subst heq
      rw [hleft]
      exact Nat.sub_eq_zero_of_le (Nat.sub_le _ _)
    · rw [hother n heq]
      exact hzero n (by omega)

/-- The replicas implement the interface too: once clients have registered for all threads, the
interface shows whatever the replicas show. -/
theorem replicas_implement_machine :
    Implements (Replica.machine DT) (machine DT) Replica.Label.event Label.event := by
  rintro _ ls system ⟨numReplicas, hpos, rfl⟩ hrun
  obtain ⟨past, s₀, hregistered, hzero⟩ :=
    exists_registering DT numReplicas hpos (Nat.le_refl numReplicas)
  have hall : AllRegistered s₀ := by
    intro n tid hn htid _
    rw [hregistered.system] at hn
    exact hregistered.tokens n tid hn (by rw [hzero n hn]; exact Nat.zero_le tid) htid
  suffices hsim : ∀ {system system' ls}, (Replica.machine DT).Run system ls system' →
      ∀ labels s, s.system = system → Inv labels s → AllRegistered s →
        ∃ ks s', (machine DT).Run s ks s' ∧
          ks.filterMap Label.event = ls.filterMap Replica.Label.event by
    obtain ⟨ks, s, hrun', heq⟩ := hsim hrun past s₀ hregistered.system (hregistered.inv hpos) hall
    refine ⟨_, past ++ ks, s, ⟨numReplicas, hpos, rfl⟩, hregistered.run.append hrun', ?_⟩
    rw [List.filterMap_append, hregistered.silent, List.nil_append, heq]
  intro system system' ls hrun
  induction hrun with
  | nil => exact fun labels s _ _ _ ↦ ⟨[], s, .nil s, rfl⟩
  | @cons system system' system'' l ls hstep _ ih =>
    rintro labels s rfl hinv hall
    obtain ⟨label, s', hnext, hsystem, hevent, hall'⟩ := hall.exists_next hinv hstep
    obtain ⟨ks, s'', hrun', heq⟩ := ih _ s' hsystem (hinv.next hnext).1 hall'
    refine ⟨label :: ks, s'', .cons hnext hrun', ?_⟩
    rw [← List.singleton_append, ← List.singleton_append (l := ls), List.filterMap_append,
      List.filterMap_append, heq, List.filterMap_cons, List.filterMap_cons, hevent]
    rfl

/-- The call or return a step shows, under the token it uses. -/
def Label.tokenEvent : Label DT →
    Option (Event ThreadToken (ReqId × InputOperation DT) (ReqId × OutputOperation DT))
  | .call tkn rid input => some (.call tkn (rid, input))
  | .ret tkn rid output => some (.ret tkn (rid, output))
  | _ => none

/-- The calls and returns of a run, under their requests. -/
def history (labels : List (Label DT)) :
    List (Event ReqId (InputOperation DT) (OutputOperation DT)) :=
  labels.filterMap Label.event

/-- The calls and returns of a run, under their tokens. -/
def tokenHistory (labels : List (Label DT)) :
    List (Event ThreadToken (ReqId × InputOperation DT) (ReqId × OutputOperation DT)) :=
  labels.filterMap Label.tokenEvent

private theorem tokenHistory_snoc (labels : List (Label DT)) (label : Label DT) :
    tokenHistory (labels ++ [label]) = tokenHistory labels ++ label.tokenEvent.toList := by
  rw [tokenHistory, List.filterMap_append]
  cases h : label.tokenEvent with
  | none => rw [List.filterMap_cons_none h]; rfl
  | some e => rw [List.filterMap_cons_some h]; rfl

private theorem tokenHistory_snoc_of_none (labels : List (Label DT)) (h : label.tokenEvent = none) :
    tokenHistory (labels ++ [label]) = tokenHistory labels := by
  rw [tokenHistory_snoc, h, Option.toList_none, List.append_nil]

/-- A token is used by one call at a time, and its thread is in the call. -/
structure Apart (labels : List (Label DT)) (s : State DT) : Prop where
  wellFormed : WellFormed (tokenHistory labels)
  busy : ∀ tkn k op, OpenCall (tokenHistory labels) tkn k op → ¬ Idle s.system tkn

private theorem apart_nil (s : State DT) : Apart [] s where
  wellFormed := by
    intro k k' tkn op op' _ hk
    cases hk
  busy := by
    rintro tkn k op ⟨hk, _⟩
    cases hk

private theorem Apart.call (h : Apart labels s) (hinv : Inv labels s) {tkn : ThreadToken}
    (htkn : tkn ∈ s.tokens) (rid : ReqId) (input : InputOperation DT) {log : NrLog.State DT}
    {phase : Replica.Phase DT} (hphase : phase ≠ .idle)
    (hsystem : s'.system = enter s.system tkn.rid tkn.tid log phase) :
    Apart (labels ++ [.call tkn rid input]) s' where
  wellFormed := by
    rw [tokenHistory_snoc]
    exact h.wellFormed.snoc_call fun k op hcall ↦
      h.busy tkn k op hcall (hinv.tokens tkn htkn).2.2.2
  busy := by
    intro tkn' k op hcall hidle
    rw [tokenHistory_snoc] at hcall
    rw [hsystem] at hidle
    by_cases heq : tkn' = tkn
    · subst heq
      exact hphase (idle_update_self.mp hidle)
    · have hold := hcall.of_snoc_call.resolve_right heq
      exact h.busy tkn' k op hold ((idle_update_of_ne rfl heq).mp hidle)

private theorem Apart.next (h : Apart labels s) (hinv : Inv labels s) (hstep : Next s label s') :
    Apart (labels ++ [label]) s' := by
  cases hstep with
  | execute tkn replica rid op htkn hreplica =>
    obtain rfl := Option.some.inj ((hinv.replica_of_token htkn).symm.trans hreplica)
    exact h.call hinv htkn rid _ (by rintro ⟨⟩) rfl
  | executeMut tkn replica rid op htkn hreplica =>
    obtain rfl := Option.some.inj ((hinv.replica_of_token htkn).symm.trans hreplica)
    exact h.call hinv htkn rid _ (by rintro ⟨⟩) rfl
  | step l system hnext hl =>
    have hsame : tokenHistory (labels ++ [.internal]) = tokenHistory labels :=
      tokenHistory_snoc_of_none labels rfl
    refine ⟨by rw [hsame]; exact h.wellFormed, fun tkn k op hcall hidle ↦ ?_⟩
    rw [hsame] at hcall
    exact h.busy tkn k op hcall ((idle_iff_of_next hnext hl tkn).mp hidle)
  | ret n tid phase rid output log node t hthread hclient =>
    refine ⟨by rw [tokenHistory_snoc]; exact h.wellFormed.snoc_ret, fun tkn k op hcall hidle ↦ ?_⟩
    rw [tokenHistory_snoc] at hcall
    obtain ⟨hold, hne⟩ := hcall.of_snoc_ret
    exact h.busy tkn k op hold ((idle_update_of_ne hclient.threads_eq hne).mp hidle)
  | register n =>
    have hsame : tokenHistory (labels ++ [.registered n (register s.replicas n).1]) =
        tokenHistory labels := tokenHistory_snoc_of_none labels rfl
    exact ⟨by rw [hsame]; exact h.wellFormed, by rw [hsame]; exact h.busy⟩
  | refuse tkn =>
    have hsame : tokenHistory (labels ++ [.refused tkn]) = tokenHistory labels :=
      tokenHistory_snoc_of_none labels rfl
    exact ⟨by rw [hsame]; exact h.wellFormed, by rw [hsame]; exact h.busy⟩

/-- What the next registration with a replica is answered after some of them. -/
def grant (numReplicas past : Nat) (n : NodeId) : Option ThreadToken :=
  if n < numReplicas ∧ past < maxThreadsPerReplica then
    some ⟨n, maxThreadsPerReplica - 1 - past⟩
  else none

private theorem Inv.grant_eq (h : Inv labels s) (n : NodeId) :
    (register s.replicas n).1 = grant s.system.log.numReplicas (registrations labels n) n := by
  rw [h.register_eq, grant, left]
  by_cases hcond : n < s.system.log.numReplicas ∧ registrations labels n < maxThreadsPerReplica
  · have hpos : 0 < maxThreadsPerReplica - registrations labels n := Nat.sub_pos_of_lt hcond.2
    rw [if_pos hcond, if_pos ⟨hcond.1, hpos⟩, Nat.sub_right_comm]
  · rw [if_neg hcond, if_neg fun h ↦ hcond ⟨h.1, Nat.lt_of_sub_pos h.2⟩]

/-- The registrations so far were answered in order, and no call was refused. -/
structure Granted (numReplicas : Nat) (labels : List (Label DT)) : Prop where
  answers : ∀ k n result, labels[k]? = some (.registered n result) →
    result = grant numReplicas (registrations (labels.take k) n) n
  accepted : ∀ tkn, Label.refused tkn ∉ labels

private theorem granted_nil (numReplicas : Nat) : Granted numReplicas ([] : List (Label DT)) where
  answers := by
    intro k n result hk
    cases hk
  accepted := by
    intro tkn htkn
    cases htkn

private theorem Granted.next (h : Granted s.system.log.numReplicas labels) (hinv : Inv labels s)
    (hstep : Next s label s') : Granted s.system.log.numReplicas (labels ++ [label]) where
  answers := by
    intro k n result hk
    rcases Nat.lt_or_ge k labels.length with hlt | hge
    · rw [List.getElem?_append_left hlt] at hk
      rw [List.take_append_of_le_length (Nat.le_of_lt hlt)]
      exact h.answers k n result hk
    · have hlast := (List.getElem?_eq_some_iff.mp hk).choose
      rw [List.length_append, List.length_singleton] at hlast
      obtain rfl : k = labels.length := by omega
      rw [List.getElem?_concat_length] at hk
      cases hk
      rw [List.take_left]
      cases hstep with
      | register => rw [hinv.grant_eq]
  accepted := by
    intro tkn hmem
    rcases List.mem_append.mp hmem with hold | hnew
    · exact h.accepted tkn hold
    · rw [List.mem_singleton] at hnew
      subst hnew
      cases hstep with
      | refuse tkn htkn hnone =>
        rw [hinv.replica_of_token htkn] at hnone
        cases hnone

/-- What every run satisfies. -/
theorem facts_of_run (hinit : (machine DT).init s₀) (hrun : (machine DT).Run s₀ labels s) :
    Inv labels s ∧ Apart labels s ∧ Granted s₀.system.log.numReplicas labels := by
  have hend : Inv labels s ∧ Apart labels s ∧ Granted s.system.log.numReplicas labels ∧
      s.system.log.numReplicas = s₀.system.log.numReplicas := by
    refine hrun.history_nil (I := fun labels s ↦ Inv labels s ∧ Apart labels s ∧
      Granted s.system.log.numReplicas labels ∧
      s.system.log.numReplicas = s₀.system.log.numReplicas) ?_ ?_
    · obtain ⟨numReplicas, hpos, rfl⟩ := hinit
      exact ⟨inv_initialState numReplicas hpos, apart_nil _, granted_nil _, rfl⟩
    · rintro labels s label s' ⟨hinv, hapart, hgranted, hreplicas⟩ hstep
      obtain ⟨hinv', hshows⟩ := hinv.next hstep
      have hsame : s'.system.log.numReplicas = s.system.log.numReplicas := by
        rcases hshows with ⟨_, hsame⟩ | ⟨l, hnext, _⟩
        · rw [hsame]
        · exact numReplicas_eq_of_next hnext
      refine ⟨hinv', hapart.next hinv hstep, ?_, hsame.trans hreplicas⟩
      rw [hsame]
      exact hgranted.next hinv hstep
  obtain ⟨hinv, hapart, hgranted, hreplicas⟩ := hend
  rw [hreplicas] at hgranted
  exact ⟨hinv, hapart, hgranted⟩

end Runs

/-! ## Main results -/

variable {DT : Dispatch.{u}}

/-- The interface is linearizable: in every run of any number of clients that register with any
replicas and make calls with the tokens they got, the thread of a token is in no call when a call
with the token starts; and the calls that returned, and some of the others, have an order in which
the sequential data structure gives every response that was returned, and which keeps every two
calls in order of which the first one returned before the second one was made. -/
theorem nodeReplicated_linearizable {s₀ s : State DT} {labels : List (Label DT)}
    (hinit : (machine DT).init s₀) (hrun : (machine DT).Run s₀ labels s) :
    (∀ tkn rid input s', Next s (.call tkn rid input) s' → Idle s.system tkn) ∧
    WellFormed (history labels) ∧ Linearizable (object DT) (history labels) := by
  constructor
  · intro tkn rid input s' hcall
    have hinv := (facts_of_run hinit hrun).1
    cases hcall with
    | execute _ _ _ _ htkn => exact (hinv.tokens tkn htkn).2.2.2
    | executeMut _ _ _ _ htkn => exact (hinv.tokens tkn htkn).2.2.2
  · obtain ⟨system₀, ks, system, hinit', hrun', heq⟩ := machine_implements_replicas _ _ _ hinit hrun
    obtain ⟨hlog, hlogrun⟩ := Replica.logMachine_run hinit' hrun'
    rw [show history labels = Replica.history ks from heq.symm]
    exact Replica.linearizable_of_logMachine hlog hlogrun

-- Clients register, two of them update and a third call reads what both did.
private theorem exists_run_updates_read : ∃ (labels : List (Label counter)) (s₀ s : State counter),
    (machine counter).init s₀ ∧ (machine counter).Run s₀ labels s ∧
    history labels = [.call 0 (.write (5 : Nat)), .call 1 (.write (7 : Nat)),
      .ret 0 (.write (0 : Nat)), .ret 1 (.write (5 : Nat)), .call 2 (.read () 0),
      .ret 2 (.read (12 : Nat))] := by
  obtain ⟨ls, system, hrun, hhistory⟩ :=
    @Replica.exists_run_updates_read counter (5 : Nat) (7 : Nat) ()
  obtain ⟨s₀, labels, s, hinit, hrun', heq⟩ :=
    replicas_implement_machine _ ls system ⟨1, by decide, rfl⟩ hrun
  exact ⟨labels, s₀, s, hinit, hrun', heq.trans hhistory⟩

/-- Two clients update and a third call reads what both did. -/
theorem nodeReplicated_linearizable_updates : ∃ labels s₀ s,
    (machine counter).init s₀ ∧ (machine counter).Run s₀ labels s ∧
    history labels = [.call 0 (.write (5 : Nat)), .call 1 (.write (7 : Nat)),
      .ret 0 (.write (0 : Nat)), .ret 1 (.write (5 : Nat)), .call 2 (.read () 0),
      .ret 2 (.read (12 : Nat))] ∧
    (∀ tkn rid input s', Next s (.call tkn rid input) s' → Idle s.system tkn) ∧
    WellFormed (history labels) ∧ Linearizable (object counter) (history labels) := by
  obtain ⟨labels, s₀, s, hinit, hrun, hhistory⟩ := exists_run_updates_read
  exact ⟨labels, s₀, s, hinit, hrun, hhistory, nodeReplicated_linearizable hinit hrun⟩

/-- Tokens keep the threads apart. In every run, the registrations with a replica hand out its
threads, the last one first, each one once, and fail when there is no such replica or no thread
is left; no call is refused; and no call uses a token that another call uses. -/
theorem tokens_keep_threads_apart {s₀ s : State DT} {labels : List (Label DT)}
    (hinit : (machine DT).init s₀) (hrun : (machine DT).Run s₀ labels s) :
    (∀ k n result, labels[k]? = some (.registered n result) →
      result = grant s₀.system.log.numReplicas (registrations (labels.take k) n) n) ∧
    (∀ tkn, Label.refused tkn ∉ labels) ∧
    WellFormed (tokenHistory labels) := by
  obtain ⟨_, hapart, hgranted⟩ := facts_of_run hinit hrun
  exact ⟨hgranted.answers, hgranted.accepted, hapart.wellFormed⟩

/-- Two clients update and a third call reads what both did, with the tokens they got. -/
theorem tokens_keep_threads_apart_updates : ∃ labels s₀ s,
    (machine counter).init s₀ ∧ (machine counter).Run s₀ labels s ∧
    history labels = [.call 0 (.write (5 : Nat)), .call 1 (.write (7 : Nat)),
      .ret 0 (.write (0 : Nat)), .ret 1 (.write (5 : Nat)), .call 2 (.read () 0),
      .ret 2 (.read (12 : Nat))] ∧
    (∀ k n result, labels[k]? = some (.registered n result) →
      result = grant s₀.system.log.numReplicas (registrations (labels.take k) n) n) ∧
    (∀ tkn, Label.refused tkn ∉ labels) ∧
    WellFormed (tokenHistory labels) := by
  obtain ⟨labels, s₀, s, hinit, hrun, hhistory⟩ := exists_run_updates_read
  exact ⟨labels, s₀, s, hinit, hrun, hhistory, tokens_keep_threads_apart hinit hrun⟩

end NodeReplicated

end NrKernel.NodeReplication
