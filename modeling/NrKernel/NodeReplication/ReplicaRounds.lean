import NrKernel.NodeReplication.ReplicaSteps

/-!
# Rounds of combining

The accesses inside `try_combine` keep the invariant. A slot is collected once: the slots in
progress are those behind the position of the first scan, and the second scan finds the next
response in front of it. The data leaves the lock with the round and comes back with it.
-/

namespace NrKernel.NodeReplication

open Lib

universe u

namespace Replica

variable {DT : Dispatch.{u}}

section Rounds

variable {n : NodeId} {tid i : ThreadId} {log log' : NrLog.State DT} {node node' : Node DT}
  {phase : Phase DT} {label : Label DT} {r r' : Round DT} {rid : ReqId} {s : NrLog.Thread DT}

/-- Only the thread with the combiner lock is in a round that counts. -/
theorem NodeInv.others (h : NodeInv n log node) (hr : (node.threads tid).round = some r)
    (howns : r.pc.Owns) :
    ∀ j r', j ≠ tid → (node.threads j).round = some r' → ¬ r'.pc.Owns :=
  fun j r' hj hr' howns' ↦ hj (h.owner j tid r' r hr' hr howns' howns)

/-- A round with a slot in progress has the combiner lock. -/
theorem NodeInv.owns_of_mem (h : NodeInv n log node) (hr : (node.threads tid).round = some r)
    (hi : i ∈ r.slots) : r.pc.Owns := by
  by_contra hno
  rw [((h.progress tid r hr).empty hno).1] at hi
  cases hi

/-- A slot in progress is one of the round. -/
theorem NodeInv.mem_slots (h : NodeInv n log node) (hr : (node.threads tid).round = some r)
    (howns : r.pc.Owns) (hholds : node.Holds i rid) : i ∈ r.slots := by
  obtain ⟨j, r', hr', hi⟩ := h.inProgress i rid hholds
  obtain rfl := h.owner j tid r' r hr' hr (h.owns_of_mem hr' hi) howns
  obtain rfl : r' = r := Option.some.inj (hr'.symm.trans hr)
  exact hi

/-- While the round has not given its operations to the log, the log's thread is idle. -/
theorem NodeInv.thread_idle (h : NodeInv n log node) (hr : (node.threads tid).round = some r)
    (howns : r.pc.Owns) (hexec : ¬ r.pc.Executes) (hs : log.threads n = some s) :
    s.pc = .idle := by
  refine (h.thread s hs).resolve_right ?_
  rintro ⟨j, r', hr', hexec'⟩
  obtain rfl := h.owner j tid r' r hr' hr hexec'.owns howns
  obtain rfl : r' = r := Option.some.inj (hr'.symm.trans hr)
  exact hexec hexec'

/-- The rule for accesses of the slots in a round. -/
theorem NodeInv.roundStep (h : NodeInv n log node) (hthread : node.threads tid = ⟨phase, some r⟩)
    (howns : r.pc.Owns) (hexec : ¬ r.pc.Executes) (hpc : r'.pc.lock = r.pc.lock)
    (hcombiner : node'.combiner = node.combiner) (hlock : node'.lock = node.lock)
    (hthreads : node'.threads = node.threads)
    (hheld : List.Forall₂ node'.Holds r'.slots r'.heldIds) (hprogress : r'.Progress n log node')
    (hmem : ∀ i rid, node'.Holds i rid → i ∈ r'.slots)
    (hslots : ∀ i, SlotInv n log (node'.contexts i) (node.threads i).phase) :
    NodeInv n log (node'.setThread tid ⟨phase, some r'⟩) := by
  have hr : (node.threads tid).round = some r := by rw [hthread]
  have hiff : ∀ j rid, (node'.setThread tid ⟨phase, some r'⟩).Holds j rid ↔ node'.Holds j rid := by
    intro j rid
    refine Node.holds_setThread ?_
    rw [hthreads, hthread]
  refine h.combiner (t := ⟨phase, some r'⟩) (h.others hr howns)
    (by rw [Node.setThread, hthreads]) (by rw [hthread]) (by rw [hthread]; simp)
    (fun _ _ ↦ ?_) ?_ (fun r₀ hr₀ ↦ ?_) (fun r₀ hr₀ ↦ ?_) (fun j rid hx ↦ ?_) hslots rfl
    (fun view hn hview ↦ ?_) fun s hs ↦ .inl (h.thread_idle hr howns hexec hs)
  · rw [Node.setThread, hcombiner]
    exact h.owned tid r hr howns
  · rw [Node.setThread, hlock]
    refine h.lock_same ?_
    rw [hthread]
    exact hpc
  · cases hr₀
    exact hheld.imp fun j rid hx ↦ (hiff j rid).mpr hx
  · cases hr₀
    exact hprogress.frame (fun _ _ ↦ rfl) rfl fun _ _ ↦ rfl
  · exact ⟨r', rfl, hmem j rid ((hiff j rid).mp hx)⟩
  · rw [Node.setThread, hlock] at hview
    exact h.data view hn hview

/-- A round without the combiner lock looks at it and goes on or ends. -/
theorem NodeInv.spectate (h : NodeInv n log node) (hthread : node.threads tid = ⟨phase, some r⟩)
    (howns : ¬ r.pc.Owns) {round : Option (Round DT)}
    (hround : ∀ r', round = some r' → r' = { r with pc := .casCombiner }) :
    NodeInv n log (node.setThread tid ⟨phase, round⟩) := by
  have hr : (node.threads tid).round = some r := by rw [hthread]
  have hworking := h.working tid r hr
  have hprogress := h.progress tid r hr
  have hactive := h.active tid
  have hslot := h.slots tid
  rw [hthread] at hworking hactive hslot
  have hrlock : r.pc.lock = .idle := by
    cases hpc : r.pc with
    | loadCombiner => rfl
    | casCombiner => rfl
    | _ =>
      rw [hpc] at howns
      exact absurd trivial howns
  have hlock : Thread.lock ⟨phase, round⟩ = (node.threads tid).lock := by
    rw [hthread]
    cases round with
    | none => exact hworking.2.trans hrlock.symm
    | some r' =>
      rw [hround r' rfl]
      exact hrlock.symm
  refine h.client (t := ⟨phase, round⟩) (fun r₀ hr₀ ↦ ?_) (fun r₀ hr₀ ↦ ?_) rfl (fun _ _ ↦ rfl) rfl
    (h.lock_same hlock) rfl ⟨rfl, rfl, rfl⟩ (fun _ _ _ _ ↦ ⟨rfl, rfl⟩) (fun rid ↦ ?_)
    (fun _ _ ↦ ⟨⟨rfl, rfl⟩, rfl⟩) hslot hactive fun _ _ ↦ hworking
  · obtain rfl : r = r₀ := Option.some.inj (hr.symm.trans hr₀)
    exact howns
  · rw [hround r₀ hr₀]
    refine ⟨id, ?_⟩
    unfold Round.Progress at hprogress ⊢
    cases hpc : r.pc with
    | loadCombiner => simpa only [hpc] using hprogress
    | casCombiner => simpa only [hpc] using hprogress
    | _ =>
      rw [hpc] at howns
      exact absurd trivial howns
  · refine Node.holds_setThread ?_
    rw [hthread]

/-- The combiner lock is free while no round has it. -/
theorem NodeInv.not_owns_of_free (h : NodeInv n log node) (hfree : node.combiner = 0) :
    ∀ j r, (node.threads j).round = some r → ¬ r.pc.Owns :=
  fun j r hr howns ↦ h.owned j r hr howns hfree

/-- A round gets the combiner lock. -/
theorem NodeInv.casCombiner (h : NodeInv n log node)
    (hthread : node.threads tid = ⟨phase, some r⟩) (hpc : r.pc = .casCombiner)
    (hfree : node.combiner = 0) :
    NodeInv n log
      (({ node with combiner := 2 } : Node DT).setThread tid
        ⟨phase, some { r with pc := .collect 0 }⟩) := by
  have hr : (node.threads tid).round = some r := by rw [hthread]
  have hprogress := h.progress tid r hr
  simp only [Round.Progress, hpc] at hprogress
  obtain ⟨hnum, hids, hops⟩ := hprogress
  have hnone : ∀ j rid, ¬ node.Holds j rid := by
    intro j rid hholds
    obtain ⟨k, r', hr', hi⟩ := h.inProgress j rid hholds
    exact h.not_owns_of_free hfree k r' hr' (h.owns_of_mem hr' hi)
  refine h.combiner (t := ⟨phase, some { r with pc := .collect 0 }⟩)
    (fun j r' _ hr' ↦ h.not_owns_of_free hfree j r' hr') rfl (by rw [hthread])
    (by rw [hthread]; simp) (fun _ _ ↦ Nat.succ_ne_zero 1) ?_ (fun r₀ hr₀ ↦ ?_)
    (fun r₀ hr₀ ↦ ?_) (fun j rid hx ↦ absurd ?_ (hnone j rid)) h.slots rfl h.data fun s hs ↦ .inl ?_
  · refine h.lock_same ?_
    rw [hthread]
    exact (congrArg RoundPc.lock hpc).symm
  · cases hr₀
    simp only [Round.slots, Round.heldIds, hnum, hids]
    exact .nil
  · cases hr₀
    simp only [Round.Progress, Round.Pending, hnum, hids, hops]
    exact ⟨rfl, Nat.zero_le _, .nil⟩
  · refine (Node.holds_setThread ?_).mp hx
    rw [hthread]
  · refine (h.thread s hs).resolve_right ?_
    rintro ⟨j, r', hr', hexec⟩
    exact h.not_owns_of_free hfree j r' hr' hexec.owns

/-- A round gives the combiner lock back. -/
theorem NodeInv.releaseCombiner (h : NodeInv n log node)
    (hthread : node.threads tid = ⟨phase, some r⟩) (hpc : r.pc = .releaseCombiner) :
    NodeInv n log (({ node with combiner := 0 } : Node DT).setThread tid ⟨phase, none⟩) := by
  have hr : (node.threads tid).round = some r := by rw [hthread]
  have howns : r.pc.Owns := Round.owns_of_eq hpc trivial
  have hworking := h.working tid r hr
  rw [hthread] at hworking
  refine h.combiner (t := ⟨phase, none⟩) (h.others hr howns) rfl (by rw [hthread])
    (by rw [hthread]; simp) (by simp) ?_ (by simp) (by simp) (fun j rid hx ↦ ?_) h.slots rfl h.data
    fun s hs ↦ .inl (h.thread_idle hr howns (by rw [hpc]; exact id) hs)
  · refine h.lock_same ?_
    rw [hthread]
    exact hworking.2.trans (congrArg RoundPc.lock hpc).symm
  · have hi : j ∈ r.slots := by
      refine h.mem_slots hr howns ((Node.holds_setThread ?_).mp hx)
      rw [hthread]
    simp only [Round.slots, hpc] at hi
    cases hi

private theorem SlotInv.atomic_eq {context : Context DT} (h : SlotInv n log context phase)
    (hatomic : context.atomic ≠ 0) : context.atomic = 1 := by
  obtain ⟨_, _, _, hreq | hprog⟩ := h.waiting hatomic
  · exact hreq.1
  · exact hprog.1.atomic

/-- A flag that is not set is zero. -/
theorem SlotInv.atomic_eq_zero {context : Context DT} (h : SlotInv n log context phase)
    (hatomic : context.atomic ≠ 1) : context.atomic = 0 := by
  by_contra hne
  exact hatomic (h.atomic_eq hne)

/-- A slot of the round is in progress. -/
theorem NodeInv.held_of_mem (h : NodeInv n log node) (hr : (node.threads tid).round = some r)
    (hi : i ∈ r.slots) : ∃ rid, node.Holds i rid :=
  NrLog.exists_of_forall₂ (h.held tid r hr) hi

/-- The slot at the position of the first scan was not collected before: those in progress lie
behind it. -/
theorem NodeInv.requested (h : NodeInv n log node) (hr : (node.threads tid).round = some r)
    (hpc : r.pc = .collect i) (hatomic : (node.contexts i).atomic = 1) :
    ∃ rid iter, (node.threads i).phase = .loadResponse rid iter ∧
      (node.contexts i).Requested log rid := by
  have hprogress := h.progress tid r hr
  simp only [Round.Progress, hpc] at hprogress
  have howns : r.pc.Owns := Round.owns_of_eq hpc trivial
  obtain ⟨rid, iter, hphase, hslot⟩ :=
    (h.slots i).waiting (by rw [hatomic]; exact Nat.one_ne_zero)
  refine ⟨rid, iter, hphase, hslot.resolve_right fun hprog ↦ ?_⟩
  have hmem := h.mem_slots hr howns ⟨hprog.1, iter, hphase⟩
  simp only [Round.slots, hpc] at hmem
  have hlt := (mem_occupied hmem).2
  rw [hprogress.1, Nat.zero_add] at hlt
  exact Nat.lt_irrefl _ hlt

/-- The round collects the request of a slot. -/
theorem NodeInv.collectRequest (h : NodeInv n log node)
    (hthread : node.threads tid = ⟨phase, some r⟩) (hpc : r.pc = .collect i)
    (hi : i < maxThreadsPerReplica) (hatomic : (node.contexts i).atomic = 1) :
    NodeInv n log
      ((node.setContext i { node.contexts i with update := none }).setThread tid
        ⟨phase, some { r with
          pc := .copyOp i
          numOpsPerThread := r.numOpsPerThread ++ [1]
          requestIds := r.requestIds ++ (node.contexts i).update.toList }⟩) := by
  have hr : (node.threads tid).round = some r := by rw [hthread]
  have howns : r.pc.Owns := Round.owns_of_eq hpc trivial
  have hprogress := h.progress tid r hr
  have hheld := h.held tid r hr
  simp only [Round.Progress, hpc] at hprogress
  simp only [Round.slots, Round.heldIds, hpc] at hheld
  obtain ⟨hlength, _, hpending⟩ := hprogress
  obtain ⟨rid, iter, hphase, hreq⟩ := h.requested hr hpc hatomic
  obtain ⟨_, hupdate, op, hbatch, hticket⟩ := hreq
  have hoccupied : occupied 0 (r.numOpsPerThread ++ [1]) = occupied 0 r.numOpsPerThread ++ [i] := by
    rw [occupied_snoc_one, hlength]
  let node' := node.setContext i { node.contexts i with update := none }
  have hself : node'.Holds i rid := by
    refine ⟨⟨?_, ?_⟩, iter, hphase⟩
    · simp only [node', Node.setContext, Function.update_self, hatomic]
    · simp only [node', Node.setContext, Function.update_self]
  have hother : ∀ j rid', j ≠ i → (node'.Holds j rid' ↔ node.Holds j rid') :=
    fun j rid' hj ↦ Node.holds_congr (Function.update_of_ne hj _ _) rfl
  refine h.roundStep hthread howns (by rw [hpc]; exact id) (by rw [hpc]; rfl) rfl rfl rfl ?_ ?_
    (fun j rid' hx ↦ ?_) fun j ↦ ?_
  · simp only [Round.slots, Round.heldIds, hoccupied, hupdate]
    refine List.rel_append (forall₂_imp_mem hheld fun j hj rid' hx ↦ ?_) (.cons hself .nil)
    have hlt := (mem_occupied hj).2
    rw [hlength, Nat.zero_add] at hlt
    exact (hother j rid' (Nat.ne_of_lt hlt)).mpr hx
  · simp only [Round.Progress, hoccupied, hupdate]
    refine ⟨?_, hi, List.mem_append_right _ List.mem_cons_self, op, none, ?_, ?_⟩
    · rw [List.length_append, hlength, List.length_singleton]
    · simp only [Node.setContext, Function.update_self, hbatch]
    · exact List.rel_append hpending (.cons hticket .nil)
  · simp only [Round.slots, hoccupied]
    by_cases hj : j = i
    · exact List.mem_append_right _ (List.mem_singleton.mpr hj)
    · have hmem := h.mem_slots hr howns ((hother j rid' hj).mp hx)
      simp only [Round.slots, hpc] at hmem
      exact List.mem_append_left _ hmem
  · by_cases hj : j = i
    · subst hj
      rw [hphase]
      refine .inr (.inl ⟨hself.1, ?_⟩)
      rw [hticket]
      simp
    · simp only [Node.setContext, Function.update_of_ne hj]
      exact h.slots j

/-- The round passes an empty slot. -/
theorem NodeInv.collectEmpty (h : NodeInv n log node)
    (hthread : node.threads tid = ⟨phase, some r⟩) (hpc : r.pc = .collect i)
    (hi : i < maxThreadsPerReplica) (hatomic : (node.contexts i).atomic ≠ 1) :
    NodeInv n log
      (node.setThread tid
        ⟨phase, some { r with
          pc := .collect (i + 1)
          numOpsPerThread := r.numOpsPerThread ++ [(node.contexts i).atomic] }⟩) := by
  have hr : (node.threads tid).round = some r := by rw [hthread]
  have howns : r.pc.Owns := Round.owns_of_eq hpc trivial
  have hprogress := h.progress tid r hr
  have hheld := h.held tid r hr
  simp only [Round.Progress, hpc] at hprogress
  simp only [Round.slots, Round.heldIds, hpc] at hheld
  obtain ⟨hlength, _, hpending⟩ := hprogress
  have hzero := (h.slots i).atomic_eq_zero hatomic
  have hoccupied := occupied_snoc_zero r.numOpsPerThread
  refine h.roundStep hthread howns (by rw [hpc]; exact id) (by rw [hpc]; rfl) rfl rfl rfl ?_ ?_
    (fun j rid hx ↦ ?_) h.slots
  · simp only [Round.slots, Round.heldIds, hzero, hoccupied]
    exact hheld
  · simp only [Round.Progress, hzero]
    refine ⟨?_, hi, hpending⟩
    rw [List.length_append, hlength, List.length_singleton]
  · have hmem := h.mem_slots hr howns hx
    simp only [Round.slots, hpc] at hmem
    simp only [Round.slots, hzero, hoccupied]
    exact hmem

/-- The round copies the operation of a collected slot. -/
theorem NodeInv.copyOp (h : NodeInv n log node)
    (hthread : node.threads tid = ⟨phase, some r⟩) (hpc : r.pc = .copyOp i)
    {op : DT.WriteOperation} {resp : Option DT.Response}
    (hbatch : (node.contexts i).batch = some ⟨op, resp⟩) :
    NodeInv n log
      (node.setThread tid
        ⟨phase, some { r with pc := .collect (i + 1), operations := r.operations ++ [op] }⟩) := by
  have hr : (node.threads tid).round = some r := by rw [hthread]
  have howns : r.pc.Owns := Round.owns_of_eq hpc trivial
  have hprogress := h.progress tid r hr
  have hheld := h.held tid r hr
  simp only [Round.Progress, hpc] at hprogress
  simp only [Round.slots, Round.heldIds, hpc] at hheld
  obtain ⟨hlength, hi, _, op', resp', hbatch', hpending⟩ := hprogress
  rw [hbatch] at hbatch'
  cases hbatch'
  refine h.roundStep hthread howns (by rw [hpc]; exact id) (by rw [hpc]; rfl) rfl rfl rfl hheld
    ⟨hlength, hi, hpending⟩ (fun j rid hx ↦ ?_) h.slots
  have hmem := h.mem_slots hr howns hx
  simp only [Round.slots, hpc] at hmem
  exact hmem

/-- The round has seen all slots and asks for the write lock. -/
theorem NodeInv.collected (h : NodeInv n log node)
    (hthread : node.threads tid = ⟨phase, some r⟩) (hpc : r.pc = .collect maxThreadsPerReplica) :
    NodeInv n log
      (node.setThread tid ⟨phase, some { r with pc := .acquireWrite .excStart }⟩) := by
  have hr : (node.threads tid).round = some r := by rw [hthread]
  have howns : r.pc.Owns := Round.owns_of_eq hpc trivial
  have hprogress := h.progress tid r hr
  have hheld := h.held tid r hr
  simp only [Round.Progress, hpc] at hprogress
  simp only [Round.slots, Round.heldIds, hpc] at hheld
  have hiff : ∀ j rid, (node.setThread tid
      ⟨phase, some { r with pc := .acquireWrite .excStart }⟩).Holds j rid ↔ node.Holds j rid :=
    fun j rid ↦ Node.holds_setThread (by rw [hthread])
  refine h.combiner (t := ⟨phase, some { r with pc := .acquireWrite .excStart }⟩)
    (h.others hr howns) rfl (by rw [hthread]) (by rw [hthread]; simp)
    (fun _ _ ↦ h.owned tid r hr howns) ?_ (fun r₀ hr₀ ↦ ?_) (fun r₀ hr₀ ↦ ?_)
    (fun j rid hx ↦ ⟨_, rfl, ?_⟩) h.slots rfl h.data
    fun s hs ↦ .inl (h.thread_idle hr howns (by rw [hpc]; exact id) hs)
  · refine h.lock.acquireWrite ?_
    simp only [hthread]
    exact congrArg RoundPc.lock hpc
  · cases hr₀
    exact hheld.imp fun j rid hx ↦ (hiff j rid).mpr hx
  · cases hr₀
    exact ⟨hprogress.1, hprogress.2.2⟩
  · have hmem := h.mem_slots hr howns ((hiff j rid).mp hx)
    simp only [Round.slots, hpc] at hmem
    exact hmem

/-- The round passes a slot it collected nothing from. -/
theorem NodeInv.respondNone (h : NodeInv n log node)
    (hthread : node.threads tid = ⟨phase, some r⟩) {k : Nat} (hpc : r.pc = .respond i k)
    (hnone : r.numOpsPerThread[i]? = some 0) :
    NodeInv n log (node.setThread tid ⟨phase, some { r with pc := .respond (i + 1) k }⟩) := by
  have hr : (node.threads tid).round = some r := by rw [hthread]
  have howns : r.pc.Owns := Round.owns_of_eq hpc trivial
  have hprogress := h.progress tid r hr
  have hheld := h.held tid r hr
  simp only [Round.Progress, hpc] at hprogress
  simp only [Round.slots, Round.heldIds, hpc] at hheld
  rw [occupied_drop_of_zero hnone] at hheld
  refine h.roundStep hthread howns (by rw [hpc]; exact id) (by rw [hpc]; rfl) rfl rfl rfl hheld
    hprogress (fun j rid hx ↦ ?_) h.slots
  have hmem := h.mem_slots hr howns hx
  simp only [Round.slots, hpc] at hmem
  rwa [occupied_drop_of_zero hnone] at hmem

/-- The round puts the response into the cell of a slot. -/
theorem NodeInv.respond (h : NodeInv n log node)
    (hthread : node.threads tid = ⟨phase, some r⟩) {k numOps : Nat} (hpc : r.pc = .respond i k)
    (hsome : r.numOpsPerThread[i]? = some numOps) (hne : numOps ≠ 0) {op : DT.WriteOperation}
    {ret : DT.Response} (hret : r.responses[k]? = some ret) :
    NodeInv n log
      ((node.setContext i { node.contexts i with batch := some ⟨op, some ret⟩ }).setThread tid
        ⟨phase, some { r with pc := .storeResponse i k }⟩) := by
  have hr : (node.threads tid).round = some r := by rw [hthread]
  have howns : r.pc.Owns := Round.owns_of_eq hpc trivial
  have hprogress := h.progress tid r hr
  have hheld := h.held tid r hr
  simp only [Round.Progress, hpc] at hprogress
  simp only [Round.slots, Round.heldIds, hpc] at hheld
  obtain ⟨rid, hrid⟩ := NrLog.exists_of_forall₂ hheld (mem_occupied_drop hsome hne)
  let node' := node.setContext i { node.contexts i with batch := some ⟨op, some ret⟩ }
  have hprog : ∀ j, (node'.contexts j).InProgress ↔ (node.contexts j).InProgress := by
    intro j
    by_cases hj : j = i
    · subst hj
      simp only [node', Node.setContext, Function.update_self]
      exact ⟨fun hx ↦ ⟨hx.1, hx.2⟩, fun hx ↦ ⟨hx.1, hx.2⟩⟩
    · simp only [node', Node.setContext, Function.update_of_ne hj]
  have hiff : ∀ j rid', node'.Holds j rid' ↔ node.Holds j rid' :=
    fun j rid' ↦ and_congr_left' (hprog j)
  refine h.roundStep hthread howns (by rw [hpc]; exact id) (by rw [hpc]; rfl) rfl rfl rfl
    (hheld.imp fun j rid' hx ↦ (hiff j rid').mpr hx)
    ⟨hprogress.1, hprogress.2, ⟨numOps, hsome, hne⟩, op, ret, ?_, hret⟩ (fun j rid' hx ↦ ?_)
    fun j ↦ ?_
  · simp only [Node.setContext, Function.update_self]
  · have hmem := h.mem_slots hr howns ((hiff j rid').mp hx)
    simp only [Round.slots, hpc] at hmem
    exact hmem
  · by_cases hj : j = i
    · subst hj
      obtain ⟨hcontext, iter, hphase⟩ := hrid
      have hslots := h.slots j
      rw [hphase] at hslots ⊢
      rcases hslots with hreq | hknown | hresp
      · exact absurd (hcontext.update.symm.trans hreq.2.1) (by simp)
      · exact .inr (.inl ⟨(hprog j).mpr hcontext, hknown.2⟩)
      · exact absurd hcontext (not_inProgress_of_zero hresp.1)
    · simp only [Node.setContext, Function.update_of_ne hj]
      exact h.slots j

/-- The round hands the slot back to its thread. -/
theorem NodeInv.storeResponse (h : NodeInv n log node)
    (hthread : node.threads tid = ⟨phase, some r⟩) {k : Nat} (hpc : r.pc = .storeResponse i k) :
    NodeInv n log
      ((node.setContext i
          { node.contexts i with atomic := 0, update := r.requestIds[k]? }).setThread tid
        ⟨phase, some { r with pc := .respond (i + 1) (k + 1) }⟩) := by
  have hr : (node.threads tid).round = some r := by rw [hthread]
  have howns : r.pc.Owns := Round.owns_of_eq hpc trivial
  have hprogress := h.progress tid r hr
  have hheld := h.held tid r hr
  simp only [Round.Progress, hpc] at hprogress
  simp only [Round.slots, Round.heldIds, hpc] at hheld
  obtain ⟨hlength, hans, ⟨numOps, hsome, hne⟩, op, ret, hbatch, hret⟩ := hprogress
  have hoccupied := occupied_drop_of_ne_zero hsome hne
  obtain ⟨hk, hretk⟩ := List.getElem?_eq_some_iff.mp hret
  rw [Round.Answered, List.drop_eq_getElem_cons hk, hretk] at hans
  rw [hoccupied] at hheld
  -- the first slot left is the one at hand, and the first response left is its own
  obtain ⟨rid, rids, hholds, hrest, hids⟩ := List.forall₂_cons_left_iff.mp hheld
  rw [hids] at hans
  obtain ⟨hticket, hans⟩ := List.forall₂_cons.mp hans
  have hids' : r.requestIds.drop (k + 1) = rids := by
    rw [← List.tail_drop, hids, List.tail_cons]
  have hbehind : ∀ j ∈ occupied (i + 1) (r.numOpsPerThread.drop (i + 1)), j ≠ i :=
    fun j hj ↦ Nat.ne_of_gt (mem_occupied hj).1
  let node' := node.setContext i
    { node.contexts i with atomic := 0, update := r.requestIds[k]? }
  have hiff : ∀ j rid', j ≠ i → (node'.Holds j rid' ↔ node.Holds j rid') :=
    fun j rid' hj ↦ Node.holds_congr (Function.update_of_ne hj _ _) rfl
  have hself : ∀ rid', ¬ node'.Holds i rid' := by
    refine Node.not_holds (not_inProgress_of_zero ?_)
    simp only [node', Node.setContext, Function.update_self]
  refine h.roundStep hthread howns (by rw [hpc]; exact id) (by rw [hpc]; rfl) rfl rfl rfl ?_
    ⟨hlength, ?_⟩ (fun j rid' hx ↦ ?_) fun j ↦ ?_
  · simp only [Round.slots, Round.heldIds, hids']
    exact forall₂_imp_mem hrest fun j hj rid' hx ↦ (hiff j rid' (hbehind j hj)).mpr hx
  · simp only [Round.Answered, hids']
    exact hans
  · have hj : j ≠ i := by
      rintro rfl
      exact hself rid' hx
    have hmem := h.mem_slots hr howns ((hiff j rid' hj).mp hx)
    simp only [Round.slots, hpc, hoccupied] at hmem
    exact (List.mem_cons.mp hmem).resolve_left hj
  · by_cases hj : j = i
    · subst hj
      obtain ⟨_, iter, hphase⟩ := hholds
      simp only [Node.setContext, Function.update_self, hphase]
      exact .inr (.inr ⟨rfl, op, ret, hbatch, hticket⟩)
    · simp only [Node.setContext, Function.update_of_ne hj]
      exact h.slots j

/-- The round has answered all slots. -/
theorem NodeInv.responded (h : NodeInv n log node)
    (hthread : node.threads tid = ⟨phase, some r⟩) {k : Nat}
    (hpc : r.pc = .respond maxThreadsPerReplica k) :
    NodeInv n log (node.setThread tid ⟨phase, some { r with pc := .releaseCombiner }⟩) := by
  have hr : (node.threads tid).round = some r := by rw [hthread]
  have howns : r.pc.Owns := Round.owns_of_eq hpc trivial
  have hprogress := h.progress tid r hr
  simp only [Round.Progress, hpc] at hprogress
  refine h.roundStep hthread howns (by rw [hpc]; exact id) (by rw [hpc]; rfl) rfl rfl rfl .nil
    trivial (fun j rid hx ↦ ?_) h.slots
  have hmem := h.mem_slots hr howns hx
  simp only [Round.slots, hpc] at hmem
  rw [List.drop_eq_nil_of_le (Nat.le_of_eq hprogress.1)] at hmem
  exact hmem

/-- The rule for accesses of the lock and the log in a round, which keeps its slots. -/
theorem NodeInv.dataStep (h : NodeInv n log node) (hthread : node.threads tid = ⟨phase, some r⟩)
    (howns : r.pc.Owns) (hslots : r'.slots = r.slots) (hids : r'.heldIds = r.heldIds)
    {lock : RwLock.Shared DT.View}
    (hlock : RwLock.Inv maxThreadsPerReplica id
      ⟨lock, Function.update (fun j ↦ (node.threads j).lock) tid r'.pc.lock⟩)
    (hprogress : r'.Progress n log' node)
    (hclients : ∀ j, SlotInv n log' (node.contexts j) (node.threads j).phase)
    (hreplicas : log'.numReplicas = log.numReplicas)
    (hdata : ∀ view, n < log.numReplicas → lock.data = some view → log'.data n = some view)
    (hstate : ∀ s, log'.threads n = some s → s.pc = .idle ∨ r'.pc.Executes) :
    NodeInv n log' (({ node with lock := lock } : Node DT).setThread tid ⟨phase, some r'⟩) := by
  have hr : (node.threads tid).round = some r := by rw [hthread]
  have hiff : ∀ j rid, (({ node with lock := lock } : Node DT).setThread tid
      ⟨phase, some r'⟩).Holds j rid ↔ node.Holds j rid :=
    fun j rid ↦ Node.holds_setThread (by rw [hthread])
  refine h.combiner (t := ⟨phase, some r'⟩) (h.others hr howns) rfl (by rw [hthread])
    (by rw [hthread]; exact nofun) (fun _ _ ↦ h.owned tid r hr howns) hlock (fun r₀ hr₀ ↦ ?_)
    (fun r₀ hr₀ ↦ ?_) (fun j rid hx ↦ ⟨r', rfl, ?_⟩) hclients hreplicas hdata fun s hs ↦
      (hstate s hs).imp id fun hexec ↦ ⟨r', rfl, hexec⟩
  · cases hr₀
    rw [hslots, hids]
    exact (h.held tid r hr).imp fun j rid hx ↦ (hiff j rid).mpr hx
  · cases hr₀
    exact hprogress.frame (fun _ _ ↦ rfl) rfl fun _ _ ↦ rfl
  · rw [hslots]
    exact h.mem_slots hr howns ((hiff j rid).mp hx)

/-- Outside the accesses that take and put it, the data stays in the cell. -/
theorem lock_data_eq {k : Nat} {lock lock' : RwLock.Shared DT.View} {pc pc' : RwLock.Pc}
    (h : RwLock.Step maxThreadsPerReplica k lock pc .internal lock' pc') :
    lock'.data = lock.data := by
  cases h <;> rfl

/-- The round waits for the write lock. -/
theorem NodeInv.acquireWrite (h : NodeInv n log node)
    (hthread : node.threads tid = ⟨phase, some r⟩) {pc pc' : RwLock.Pc}
    {lock : RwLock.Shared DT.View} (hpc : r.pc = .acquireWrite pc)
    (hlock : RwLock.Step maxThreadsPerReplica tid node.lock pc .internal lock pc') :
    NodeInv n log
      (({ node with lock := lock } : Node DT).setThread tid
        ⟨phase, some { r with pc := .acquireWrite pc' }⟩) := by
  have hr : (node.threads tid).round = some r := by rw [hthread]
  have howns : r.pc.Owns := Round.owns_of_eq hpc trivial
  have hprogress := h.progress tid r hr
  simp only [Round.Progress, hpc] at hprogress
  refine h.dataStep hthread howns ?_ ?_ (h.lock_step ?_ hlock) hprogress h.slots rfl
    (fun view hn hview ↦ ?_)
    fun s hs ↦ .inl (h.thread_idle hr howns (by rw [hpc]; exact id) hs)
  · simp only [Round.slots, hpc]
  · simp only [Round.heldIds, hpc]
  · rw [hthread]
    exact congrArg RoundPc.lock hpc
  · rw [lock_data_eq hlock] at hview
    exact h.data view hn hview

/-- The requests of a round are those of waiting threads, so a change of their tickets does not
concern the others. -/
theorem NodeInv.slots_of_tickets (h : NodeInv n log node)
    (hdistinct : ∀ i j rid, (node.threads i).phase.rid = some rid →
      (node.threads j).phase.rid = some rid → i = j)
    (hr : (node.threads tid).round = some r) (hreaders : log'.readers = log.readers)
    (htickets : ∀ rid, rid ∉ r.heldIds → log'.tickets rid = log.tickets rid)
    (hknown : ∀ rid ∈ r.heldIds, log'.tickets rid ≠ none) (j : ThreadId) :
    SlotInv n log' (node.contexts j) (node.threads j).phase := by
  refine (h.slots j).frame fun rid hrid ↦ ?_
  by_cases hmem : rid ∈ r.heldIds
  · obtain ⟨i, _, hholds⟩ := h.exists_waiting hr hmem
    obtain rfl := hdistinct i j rid hholds.rid_eq hrid
    exact .inr ⟨hholds.1, hknown rid hmem⟩
  · exact .inl ⟨congrFun hreaders rid, htickets rid hmem⟩

/-- The round takes the data and gives its operations to the log. -/
theorem NodeInv.takeData (h : NodeInv n log node)
    (hdistinct : ∀ i j rid, (node.threads i).phase.rid = some rid →
      (node.threads j).phase.rid = some rid → i = j)
    (hthread : node.threads tid = ⟨phase, some r⟩) {pc : RwLock.Pc}
    {lock : RwLock.Shared DT.View} {view : DT.View} (hpc : r.pc = .acquireWrite pc)
    (hlock : RwLock.Step maxThreadsPerReplica tid node.lock pc (.take view) lock .excGuard) :
    NodeInv n
      ({ log with
        data := log.data.insert n view
        tickets := NrLog.collect log.tickets n r.requestIds }.setThread n
        ⟨.appendLoadTail, r.requestIds, r.operations, []⟩)
      (({ node with lock := lock } : Node DT).setThread tid
        ⟨phase, some { r with pc := .appendExecute }⟩) := by
  have hr : (node.threads tid).round = some r := by rw [hthread]
  have howns : r.pc.Owns := Round.owns_of_eq hpc trivial
  have hprogress := h.progress tid r hr
  simp only [Round.Progress, hpc] at hprogress
  have hheldIds : r.heldIds = r.requestIds := by simp only [Round.heldIds, hpc]
  refine h.dataStep hthread howns ?_ ?_ (h.lock_step ?_ hlock)
    ⟨hprogress.1, _, PMap.insert_self _ _ _, rfl⟩
    (h.slots_of_tickets hdistinct hr rfl (fun rid hrid ↦ ?_) fun rid hrid ↦ ?_) rfl
    (fun view' _ hview ↦ ?_) fun _ _ ↦ .inr trivial
  · simp only [Round.slots, hpc]
  · simp only [Round.heldIds, hpc]
  · rw [hthread]
    exact congrArg RoundPc.lock hpc
  · rw [hheldIds] at hrid
    exact if_neg hrid
  · rw [hheldIds] at hrid
    change NrLog.collect log.tickets n r.requestIds rid ≠ none
    rw [NrLog.collect, if_pos hrid]
    simp
  · cases hlock
    cases hview

/-- The round appends and executes. -/
theorem NodeInv.appendExecute (h : NodeInv n log node)
    (hthread : node.threads tid = ⟨phase, some r⟩) (hpc : r.pc = .appendExecute)
    {t : NrLog.Thread DT} {l : NrLog.Label DT} (ht : log.threads n = some t)
    (hstep : NrLog.CombinerStep n t log l log') :
    NodeInv n log' (node.setThread tid ⟨phase, some r⟩) := by
  have hr : (node.threads tid).round = some r := by rw [hthread]
  have howns : r.pc.Owns := Round.owns_of_eq hpc trivial
  have hprogress := h.progress tid r hr
  have hframe := hstep.frame
  obtain ⟨t', ht', hids, _⟩ := hframe.thread
  have hlock : (node.threads tid).lock = r.pc.lock := by rw [hthread]; rfl
  have htaken : node.lock.data = none := by
    rw [h.lock.data]
    exact ⟨tid, hlock.trans (congrArg RoundPc.lock hpc)⟩
  refine h.dataStep hthread howns rfl rfl ?_ ?_ (fun j ↦ (h.slots j).frame fun rid _ ↦ .inl
      ⟨congrFun hframe.readers rid, congrFun hframe.tickets rid⟩) hframe.numReplicas
    (fun view _ hview ↦ ?_) fun _ _ ↦ .inr ?_
  · rw [← hlock, Function.update_eq_self]
    exact h.lock
  · simp only [Round.Progress, hpc] at hprogress ⊢
    obtain ⟨hlength, t₀, ht₀, hids₀⟩ := hprogress
    obtain rfl : t = t₀ := Option.some.inj (ht.symm.trans ht₀)
    exact ⟨hlength, t', ht', hids.trans hids₀⟩
  · cases htaken.symm.trans hview
  · rw [hpc]
    trivial

/-- The log is done with the round's operations. -/
theorem NodeInv.executed (h : NodeInv n log node)
    (hthread : node.threads tid = ⟨phase, some r⟩) (hpc : r.pc = .appendExecute)
    {t : NrLog.Thread DT} (ht : log.threads n = some t) (hfinished : t.pc = .finished) :
    NodeInv n log
      (node.setThread tid
        ⟨phase, some { r with pc := .putData, responses := t.responses }⟩) := by
  have hr : (node.threads tid).round = some r := by rw [hthread]
  have howns : r.pc.Owns := Round.owns_of_eq hpc trivial
  have hprogress := h.progress tid r hr
  simp only [Round.Progress, hpc] at hprogress
  obtain ⟨hlength, t₀, ht₀, hids⟩ := hprogress
  obtain rfl : t = t₀ := Option.some.inj (ht.symm.trans ht₀)
  refine h.dataStep hthread howns ?_ ?_ (h.lock_same ?_)
    ⟨hlength, t, ht, hfinished, hids, rfl⟩ h.slots rfl h.data fun _ _ ↦ .inr trivial
  · simp only [Round.slots, hpc]
  · simp only [Round.heldIds, hpc]
  · rw [hthread]
    exact (congrArg RoundPc.lock hpc).symm

/-- The round gives the data back. -/
theorem NodeInv.putData (h : NodeInv n log node)
    (hthread : node.threads tid = ⟨phase, some r⟩) (hpc : r.pc = .putData)
    {lock : RwLock.Shared DT.View} {view : DT.View} (hdata : log.data n = some view)
    (hlock : RwLock.Step maxThreadsPerReplica tid node.lock .excGuard (.put view) lock
      .excRelease) :
    NodeInv n log
      (({ node with lock := lock } : Node DT).setThread tid
        ⟨phase, some { r with pc := .unlockExc }⟩) := by
  have hr : (node.threads tid).round = some r := by rw [hthread]
  have howns : r.pc.Owns := Round.owns_of_eq hpc trivial
  have hprogress := h.progress tid r hr
  simp only [Round.Progress, hpc] at hprogress
  refine h.dataStep hthread howns ?_ ?_ (h.lock_step ?_ hlock) hprogress h.slots rfl
    (fun view' _ hview ↦ ?_) fun _ _ ↦ .inr trivial
  · simp only [Round.slots, hpc]
  · simp only [Round.heldIds, hpc]
  · rw [hthread]
    exact congrArg RoundPc.lock hpc
  · cases hlock
    cases hview
    exact hdata

/-- The round releases the write lock, and its requests have their responses. -/
theorem NodeInv.unlockExc (h : NodeInv n log node)
    (hdistinct : ∀ i j rid, (node.threads i).phase.rid = some rid →
      (node.threads j).phase.rid = some rid → i = j)
    (hlog : (NrLog.machine DT).Reachable log)
    (hthread : node.threads tid = ⟨phase, some r⟩) (hpc : r.pc = .unlockExc)
    {lock : RwLock.Shared DT.View}
    (hlock : RwLock.Step maxThreadsPerReplica tid node.lock .excRelease .internal lock .idle) :
    NodeInv n
      ({ log with
        tickets := NrLog.distribute log.tickets (r.requestIds.zip r.responses) }.setThread n
        (.idle DT))
      (({ node with lock := lock } : Node DT).setThread tid
        ⟨phase, some { r with pc := .respond 0 0 }⟩) := by
  have hr : (node.threads tid).round = some r := by rw [hthread]
  have howns : r.pc.Owns := Round.owns_of_eq hpc trivial
  have hprogress := h.progress tid r hr
  simp only [Round.Progress, hpc] at hprogress
  obtain ⟨hlength, t, ht, hfinished, hids, hresponses⟩ := hprogress
  obtain ⟨hnodup, hlengths⟩ := NrLog.responses_of_finished hlog ht hfinished
  rw [hids] at hnodup
  rw [hids, hresponses] at hlengths
  have hanswered := NrLog.distribute_zip hnodup hlengths log.tickets
  have hheldIds : r.heldIds = r.requestIds := by simp only [Round.heldIds, hpc]
  refine h.dataStep hthread howns ?_ ?_ (h.lock_step ?_ hlock) ⟨hlength, hanswered⟩
    (h.slots_of_tickets hdistinct hr rfl (fun rid hrid ↦ ?_) fun rid hrid ↦ ?_) rfl
    (fun view hn hview ↦ ?_) fun s hs ↦ .inl ?_
  · simp only [Round.slots, hpc, List.drop_zero]
  · simp only [Round.heldIds, hpc, List.drop_zero]
  · rw [hthread]
    exact congrArg RoundPc.lock hpc
  · rw [hheldIds] at hrid
    exact NrLog.distribute_of_not_mem hrid
  · rw [hheldIds] at hrid
    obtain ⟨ret, hret⟩ := NrLog.exists_of_forall₂ hanswered hrid
    change NrLog.distribute log.tickets (r.requestIds.zip r.responses) rid ≠ none
    rw [hret]
    simp
  · rw [lock_data_eq hlock] at hview
    exact h.data view hn hview
  · obtain rfl := NrLog.State.eq_of_setThread hs
    rfl

/-- Every access of a thread inside `try_combine` keeps the invariant of its replica. -/
theorem NodeInv.combineStep (h : NodeInv n log node)
    (hdistinct : ∀ i j rid, (node.threads i).phase.rid = some rid →
      (node.threads j).phase.rid = some rid → i = j)
    (hlog : (NrLog.machine DT).Reachable log)
    (hthread : node.threads tid = ⟨phase, some r⟩) {round : Option (Round DT)}
    (hstep : CombineStep n tid log node r label log' node' round) :
    NodeInv n log' (node'.setThread tid ⟨phase, round⟩) := by
  have howns : ∀ {pc : RoundPc}, r.pc = pc → ¬ pc.Owns → ¬ r.pc.Owns := by
    rintro pc rfl hno
    exact hno
  cases hstep with
  | combinerFree hpc hfree =>
    exact h.spectate hthread (howns hpc id) fun r' hr' ↦ (Option.some.inj hr').symm
  | combinerTaken hpc htaken => exact h.spectate hthread (howns hpc id) nofun
  | casCombiner hpc hfree => exact h.casCombiner hthread hpc hfree
  | casCombinerFail hpc htaken => exact h.spectate hthread (howns hpc id) nofun
  | collectRequest i hpc hi hatomic => exact h.collectRequest hthread hpc hi hatomic
  | collectEmpty i hpc hi hatomic => exact h.collectEmpty hthread hpc hi hatomic
  | copyOp i op resp hpc hbatch => exact h.copyOp hthread hpc hbatch
  | collected hpc => exact h.collected hthread hpc
  | acquireWrite pc lock pc' hpc hlock => exact h.acquireWrite hthread hpc hlock
  | takeData pc lock view hpc hlock => exact h.takeData hdistinct hthread hpc hlock
  | appendExecute t l log' hpc ht hcombiner => exact h.appendExecute hthread hpc ht hcombiner
  | executed t hpc ht hfinished => exact h.executed hthread hpc ht hfinished
  | putData lock view hpc hdata hlock => exact h.putData hthread hpc hdata hlock
  | unlockExc lock hpc hlock => exact h.unlockExc hdistinct hlog hthread hpc hlock
  | respondNone i k hpc hnone => exact h.respondNone hthread hpc hnone
  | respond i k numOps op resp ret hpc hsome hne hbatch hret =>
    exact h.respond hthread hpc hsome hne hret
  | storeResponse i k hpc => exact h.storeResponse hthread hpc
  | responded k hpc => exact h.responded hthread hpc
  | releaseCombiner hpc => exact h.releaseCombiner hthread hpc

end Rounds

end Replica

end NrKernel.NodeReplication
