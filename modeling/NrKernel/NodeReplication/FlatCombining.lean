import Mathlib.Data.List.ReduceOption
import NrKernel.NodeReplication.FlatCombiner
import NrKernel.NodeReplication.ReplicaRefinesNrLog
import NrKernel.NodeReplication.UpdateResults

/-!
# The slots of a replica implement flat combining

The words, cells and buffers by which the threads of a replica hand over their operations stand
for a state of the flat combiner, and every access of a thread is one of its transitions or none.
A cell passes between its thread and the combiner with the word, so nobody else looks at it, and
the thread that reads zero finds the response to the operation it put there.
-/

namespace NrKernel.NodeReplication

open Lib

universe u

namespace Replica

variable {DT : Dispatch.{u}}

/-! ## The state of the flat combiner -/

/-- The flat combiner's client of a thread: it waits from the store of its word until it reads
zero (`exec/context.rs:253–270`, `310–333`). -/
def Phase.client : Phase DT → FlatCombiner.ClientState
  | .loadResponse rid _ => .waiting rid
  | _ => .idle

/-- The flat combiner's slot of a thread (`exec/context.rs:437–481`). -/
def Context.slot (context : Context DT) : Phase DT → FlatCombiner.SlotState
  | .loadResponse rid _ =>
    if context.atomic = 0 then .response rid
    else
      match context.update with
      | none => .inProgress rid
      | some _ => .request rid
  | _ => .empty

/-- What the flat combiner collected is what the round did, from a slot and a request on
(`rids_match`, `exec/replica.rs:745–765`). -/
structure Round.Collected (r : Round DT) (elems : List (Option ReqId)) (i k : Nat) : Prop where
  counts : List.Forall₂ (fun numOps e ↦ numOps = 0 ↔ e = none) r.numOpsPerThread elems
  requests : (elems.drop i).reduceOption = r.requestIds.drop k

/-- The flat combiner's combiner of a round with the combiner lock
(`exec/replica.rs:697–986`). -/
def Round.Fits (r : Round DT) (c : FlatCombiner.CombinerState) : Prop :=
  match r.pc with
  | .loadCombiner => True
  | .casCombiner => True
  | .collect _ => ∃ elems, c = .collecting elems ∧ r.Collected elems 0 0
  | .copyOp _ => ∃ elems, c = .collecting elems ∧ r.Collected elems 0 0
  | .acquireWrite _ => ∃ elems, c = .responding elems 0 ∧ r.Collected elems 0 0
  | .appendExecute => ∃ elems, c = .responding elems 0 ∧ r.Collected elems 0 0
  | .putData => ∃ elems, c = .responding elems 0 ∧ r.Collected elems 0 0
  | .unlockExc => ∃ elems, c = .responding elems 0 ∧ r.Collected elems 0 0
  | .respond i k => ∃ elems, c = .responding elems i ∧ r.Collected elems i k
  | .storeResponse i k => ∃ elems, c = .responding elems i ∧ r.Collected elems i k
  | .releaseCombiner => c = .collecting []

/-- The state of the flat combiner a replica stands for. -/
structure Node.Implements (node : Node DT) (fc : FlatCombiner.State) : Prop where
  numThreads : fc.numThreads = maxThreadsPerReplica
  clients : ∀ i, i < maxThreadsPerReplica → fc.clients i = some (node.threads i).phase.client
  slots : ∀ i, i < maxThreadsPerReplica →
    fc.slots i = some ((node.contexts i).slot (node.threads i).phase)
  round : ∀ tid r, (node.threads tid).round = some r → r.pc.Owns → r.Fits fc.combiner
  free : (∀ tid r, (node.threads tid).round = some r → ¬ r.pc.Owns) →
    fc.combiner = .collecting []

section Slot

variable {n : NodeId} {log : NrLog.State DT} {context : Context DT} {phase : Phase DT}
  {rid : ReqId} {iter : Nat}

private theorem Context.slot_requested (h : context.Requested log rid) :
    context.slot (.loadResponse rid iter) = .request rid := by
  rw [Context.slot, if_neg (by rw [h.1]; exact Nat.one_ne_zero), h.2.1]

private theorem Context.slot_inProgress (h : context.InProgress) :
    context.slot (.loadResponse rid iter) = .inProgress rid := by
  rw [Context.slot, if_neg (by rw [h.atomic]; exact Nat.one_ne_zero), h.update]

private theorem Context.slot_response (h : context.atomic = 0) :
    context.slot (.loadResponse rid iter) = .response rid :=
  if_pos h

/-- An empty word goes with an empty slot or one with a response. -/
theorem Context.slot_of_zero (h : context.atomic = 0) :
    context.slot phase = .empty ∨ ∃ rid, context.slot phase = .response rid := by
  cases phase with
  | loadResponse rid iter => exact .inr ⟨rid, slot_response h⟩
  | _ => exact .inl rfl

/-- The word is one exactly while the slot is a request or in progress, and zero otherwise
(`exec/context.rs:442–444`). -/
theorem SlotInv.atomic_eq_one_iff (h : SlotInv n log context phase) :
    (context.atomic = 1 ↔
      ∃ rid, context.slot phase = .request rid ∨ context.slot phase = .inProgress rid) ∧
    (context.atomic ≠ 1 → context.atomic = 0) := by
  refine ⟨?_, h.atomic_eq_zero⟩
  by_cases hzero : context.atomic = 0
  · refine iff_of_false (by rw [hzero]; exact Nat.zero_ne_one) ?_
    rintro ⟨rid, hreq | hprog⟩
    · rcases Context.slot_of_zero hzero with hslot | ⟨rid', hslot⟩ <;>
        cases hslot.symm.trans hreq
    · rcases Context.slot_of_zero hzero with hslot | ⟨rid', hslot⟩ <;>
        cases hslot.symm.trans hprog
  · obtain ⟨rid, iter, rfl, hreq | ⟨hprog, _⟩⟩ := h.waiting hzero
    · exact iff_of_true hreq.1 ⟨rid, .inl (Context.slot_requested hreq)⟩
    · exact iff_of_true hprog.atomic ⟨rid, .inr (Context.slot_inProgress hprog)⟩

end Slot

section Collected

variable {r : Round DT} {elems : List (Option ReqId)} {i k : Nat}

private theorem Round.Collected.length_eq (h : r.Collected elems i k) :
    elems.length = r.numOpsPerThread.length :=
  h.counts.length_eq.symm

/-- A slot without operations has an empty element. -/
theorem Round.Collected.passEmpty (h : r.Collected elems i k)
    (hnone : r.numOpsPerThread[i]? = some 0) :
    elems[i]? = some none ∧ r.Collected elems (i + 1) k := by
  obtain ⟨e, he, hiff⟩ := getElem?_of_forall₂ h.counts hnone
  obtain rfl := hiff.mp rfl
  obtain ⟨hlt, hget⟩ := List.getElem?_eq_some_iff.mp he
  have hrequests := h.requests
  rw [List.drop_eq_getElem_cons hlt, hget, List.reduceOption_cons_of_none] at hrequests
  exact ⟨he, h.counts, hrequests⟩

/-- A slot with operations has the next request of the round. -/
theorem Round.Collected.passRequest (h : r.Collected elems i k) {numOps : Nat}
    (hsome : r.numOpsPerThread[i]? = some numOps) (hne : numOps ≠ 0) :
    ∃ rid, elems[i]? = some (some rid) ∧ r.requestIds[k]? = some rid ∧
      r.Collected elems (i + 1) (k + 1) := by
  obtain ⟨e, he, hiff⟩ := getElem?_of_forall₂ h.counts hsome
  obtain ⟨rid, rfl⟩ := Option.ne_none_iff_exists'.mp fun hx ↦ hne (hiff.mpr hx)
  obtain ⟨hlt, hget⟩ := List.getElem?_eq_some_iff.mp he
  have hrequests := h.requests
  rw [List.drop_eq_getElem_cons hlt, hget, List.reduceOption_cons_of_some] at hrequests
  refine ⟨rid, he, ?_, h.counts, ?_⟩
  · rw [← List.head?_drop, ← hrequests, List.head?_cons]
  · rw [← List.tail_drop (l := r.requestIds), ← hrequests, List.tail_cons]

/-- The round passes a slot in its first walk. -/
theorem Round.Collected.snoc (h : r.Collected elems 0 0) {r' : Round DT} {numOps : Nat}
    {e : Option ReqId} (hcounts : r'.numOpsPerThread = r.numOpsPerThread ++ [numOps])
    (hrequests : r'.requestIds = r.requestIds ++ e.toList) (he : numOps = 0 ↔ e = none) :
    r'.Collected (elems ++ [e]) 0 0 := by
  refine ⟨?_, ?_⟩
  · rw [hcounts]
    exact List.rel_append h.counts (.cons he .nil)
  · have hold : elems.reduceOption = r.requestIds := h.requests
    rw [List.drop_zero, List.drop_zero, List.reduceOption_append, hold, hrequests]
    cases e <;> rfl

end Collected

/-! ## Simulation -/

section Rules

variable {n : NodeId} {tid i : ThreadId} {log log' : NrLog.State DT} {node node' : Node DT}
  {phase : Phase DT} {label : Label DT} {t : Thread DT} {r r' : Round DT} {rid : ReqId}
  {round : Option (Round DT)} {fc fc' : FlatCombiner.State}

/-- The rule for a thread without the combiner lock. -/
theorem Node.Implements.client (h : node.Implements fc)
    (hold : ∀ r, (node.threads tid).round = some r → ¬ r.pc.Owns)
    (hnew : ∀ r, t.round = some r → ¬ r.pc.Owns)
    (hthreads : node'.threads = Function.update node.threads tid t)
    (hcontexts : ∀ j, j ≠ tid → node'.contexts j = node.contexts j)
    (hnum : fc'.numThreads = fc.numThreads) (hcombiner : fc'.combiner = fc.combiner)
    (hclients : ∀ j, j ≠ tid → fc'.clients j = fc.clients j)
    (hslots : ∀ j, j ≠ tid → fc'.slots j = fc.slots j)
    (hself : tid < maxThreadsPerReplica → fc'.clients tid = some t.phase.client ∧
      fc'.slots tid = some ((node'.contexts tid).slot t.phase)) : node'.Implements fc' := by
  have hthread : node'.threads tid = t := by rw [hthreads, Function.update_self]
  have hother : ∀ j, j ≠ tid → node'.threads j = node.threads j :=
    fun j hj ↦ by rw [hthreads, Function.update_of_ne hj]
  -- the combiner lock has not moved
  have howner : ∀ j r, r.pc.Owns →
      ((node'.threads j).round = some r ↔ (node.threads j).round = some r) := by
    intro j r howns
    by_cases hj : j = tid
    · subst hj
      rw [hthread]
      exact iff_of_false (fun hx ↦ hnew r hx howns) fun hx ↦ hold r hx howns
    · rw [hother j hj]
  refine ⟨hnum.trans h.numThreads, fun j hlt ↦ ?_, fun j hlt ↦ ?_, fun j r hr howns ↦ ?_,
    fun hnone ↦ ?_⟩
  · by_cases hj : j = tid
    · subst hj
      rw [hthread]
      exact (hself hlt).1
    · rw [hother j hj, hclients j hj]
      exact h.clients j hlt
  · by_cases hj : j = tid
    · subst hj
      rw [hthread]
      exact (hself hlt).2
    · rw [hother j hj, hslots j hj, hcontexts j hj]
      exact h.slots j hlt
  · rw [hcombiner]
    exact h.round j r ((howner j r howns).mp hr) howns
  · rw [hcombiner]
    exact h.free fun j r hr howns ↦ hnone j r ((howner j r howns).mpr hr) howns

private theorem Round.not_owns_of_start (h : r = .start DT) : ¬ r.pc.Owns := by
  rw [h]
  exact id

/-- A step that no slot and no client of the flat combiner notices. -/
theorem Node.Implements.stutter (h : node.Implements fc)
    (hold : ∀ r, (node.threads tid).round = some r → ¬ r.pc.Owns)
    (hnew : ∀ r, t.round = some r → ¬ r.pc.Owns)
    (hthreads : node'.threads = Function.update node.threads tid t)
    (hcontexts : ∀ j, j ≠ tid → node'.contexts j = node.contexts j)
    (hclient : t.phase.client = (node.threads tid).phase.client)
    (hslot : (node'.contexts tid).slot t.phase =
      (node.contexts tid).slot (node.threads tid).phase) : node'.Implements fc := by
  refine h.client hold hnew hthreads hcontexts rfl rfl (fun _ _ ↦ rfl) (fun _ _ ↦ rfl)
    fun hlt ↦ ?_
  rw [hclient, hslot]
  exact ⟨h.clients tid hlt, h.slots tid hlt⟩

/-- The rule for the thread with the combiner lock, and for getting and releasing it. -/
theorem Node.Implements.combiner (h : node.Implements fc)
    (hothers : ∀ j r, j ≠ tid → (node.threads j).round = some r → ¬ r.pc.Owns)
    (hthreads : node'.threads = Function.update node.threads tid ⟨phase, round⟩)
    (hphase : (node.threads tid).phase = phase) (hnum : fc'.numThreads = fc.numThreads)
    (hclients : fc'.clients = fc.clients)
    (hslots : ∀ j, j < maxThreadsPerReplica →
      fc'.slots j = some ((node'.contexts j).slot (node.threads j).phase))
    (hfits : ∀ r, round = some r → r.pc.Owns ∧ r.Fits fc'.combiner)
    (hfree : round = none → fc'.combiner = .collecting []) : node'.Implements fc' := by
  have hphases : ∀ j, (node'.threads j).phase = (node.threads j).phase := by
    intro j
    rw [hthreads]
    by_cases hj : j = tid
    · subst hj
      rw [Function.update_self, hphase]
    · rw [Function.update_of_ne hj]
  have hself : (node'.threads tid).round = round := by rw [hthreads, Function.update_self]
  refine ⟨hnum.trans h.numThreads, fun j hlt ↦ ?_, fun j hlt ↦ ?_, fun j r hr howns ↦ ?_,
    fun hnone ↦ ?_⟩
  · rw [hclients, hphases]
    exact h.clients j hlt
  · rw [hphases]
    exact hslots j hlt
  · by_cases hj : j = tid
    · subst hj
      exact (hfits r (hself.symm.trans hr)).2
    · rw [hthreads, Function.update_of_ne hj] at hr
      exact absurd howns (hothers j r hj hr)
  · refine hfree (Option.eq_none_iff_forall_ne_some.mpr fun r hr ↦ ?_)
    exact hnone tid r (hself.trans hr) (hfits r hr).1

/-- Every access of a thread outside `try_combine` is one transition of the flat combiner or
none. -/
theorem ClientStep.simulates (hstep : ClientStep n tid log node phase label log' node' t)
    (hinv : NodeInv n log node) (hthread : node.threads tid = ⟨phase, none⟩)
    (h : node.Implements fc) :
    ∃ ls fc', ls.length ≤ 1 ∧ FlatCombiner.machine.Run fc ls fc' ∧
      (node'.setThread tid t).Implements fc' := by
  have hold : ∀ r, (node.threads tid).round = some r → ¬ r.pc.Owns := by
    rw [hthread]
    simp
  have hactive := hinv.active tid
  have hslot := h.slots tid
  have hclient := h.clients tid
  simp only [hthread] at hactive hslot hclient
  -- a step that keeps the slot empty
  have hidle : phase.client = .idle → t.phase.client = .idle →
      (∀ r, t.round = some r → r = .start DT) →
      (∀ j, j ≠ tid → node'.contexts j = node.contexts j) →
      ∃ ls fc', ls.length ≤ 1 ∧ FlatCombiner.machine.Run fc ls fc' ∧
        (node'.setThread tid t).Implements fc' := by
    intro hphase hphase' hstart hcontexts
    have hempty : ∀ {context : Context DT} {phase : Phase DT}, phase.client = .idle →
        context.slot phase = .empty := by
      intro context phase hx
      cases phase with
      | loadResponse => cases hx
      | _ => rfl
    refine ⟨[], fc, Nat.zero_le 1, .nil fc, h.stutter hold
      (fun r hr ↦ Round.not_owns_of_start (hstart r hr))
      (by rw [Node.setThread, hstep.threads_eq]) hcontexts ?_ ?_⟩
    · rw [hthread, hphase, hphase']
    · rw [hthread, hempty hphase, hempty hphase']
  cases hstep with
  | storePending rid =>
    have hlt := (hactive rid rfl).2
    refine ⟨[_], _, Nat.le_refl 1, .single (.sendRequest tid rid (hclient hlt) (hslot hlt)),
      h.client hold (fun r hr ↦ ?_) rfl (fun j hj ↦ Function.update_of_ne hj _ _) rfl rfl
      (fun j hj ↦ PMap.insert_of_ne _ _ hj) (fun j hj ↦ PMap.insert_of_ne _ _ hj) fun _ ↦ ?_⟩
    · cases hr
      exact id
    · refine ⟨PMap.insert_self _ _ _, (PMap.insert_self _ _ _).trans ?_⟩
      simp only [Node.setThread, Node.setContext, Function.update_self]
      rfl
  | loadResponse rid iter hatomic =>
    have hlt := (hactive rid rfl).2
    have hresponse := hslot hlt
    rw [Context.slot_response hatomic] at hresponse
    refine ⟨[_], _, Nat.le_refl 1, .single (.recvResponse tid rid (hclient hlt) hresponse),
      h.client (t := ⟨.takeResponse rid, none⟩) hold (by simp) rfl
      (fun j hj ↦ Function.update_of_ne hj _ _) rfl rfl
      (fun j hj ↦ PMap.insert_of_ne _ _ hj) (fun j hj ↦ PMap.insert_of_ne _ _ hj) fun _ ↦ ?_⟩
    exact ⟨PMap.insert_self _ _ _, PMap.insert_self _ _ _⟩
  | noResponse rid iter hatomic =>
    obtain ⟨iter', hphase⟩ := @pollAgain_phase DT rid iter
    refine ⟨[], fc, Nat.zero_le 1, .nil fc, h.stutter hold (fun r hr ↦ ?_) rfl (fun _ _ ↦ rfl)
      ?_ ?_⟩
    · rw [pollAgain_round rid iter hr]
      exact id
    · rw [hthread, hphase]
      rfl
    · rw [hthread, hphase]
      rfl
  | notSynced =>
    refine hidle rfl rfl (fun r hr ↦ ?_) fun _ _ ↦ rfl
    cases hr
    rfl
  | enqueueOp | takeResponse =>
    exact hidle rfl rfl (by simp) fun j hj ↦ Function.update_of_ne hj _ _
  | _ => exact hidle rfl rfl (by simp) fun _ _ ↦ rfl

/-- A round without the combiner lock looks at it. -/
theorem Node.Implements.look (h : node.Implements fc) (hthread : node.threads tid = ⟨phase, some r⟩)
    (howns : ¬ r.pc.Owns) (howns' : ∀ r', round = some r' → ¬ r'.pc.Owns) :
    ∃ ls fc', ls.length ≤ 1 ∧ FlatCombiner.machine.Run fc ls fc' ∧
      (node.setThread tid ⟨phase, round⟩).Implements fc' := by
  refine ⟨[], fc, Nat.zero_le 1, .nil fc, h.stutter (fun r₀ hr₀ ↦ ?_) howns' rfl
    (fun _ _ ↦ rfl) ?_ ?_⟩
  · rw [hthread] at hr₀
    cases hr₀
    exact howns
  · rw [hthread]
  · rw [hthread]
    rfl

/-- An access of a round that leaves the slots and the flat combiner's combiner alone. -/
theorem Node.Implements.roundStutter (h : node.Implements fc) (hinv : NodeInv n log node)
    (hthread : node.threads tid = ⟨phase, some r⟩) (howns : r.pc.Owns)
    (hthreads : node'.threads = node.threads)
    (hslots : ∀ i phase, (node'.contexts i).slot phase = (node.contexts i).slot phase)
    (howns' : r'.pc.Owns) (hfits : r'.Fits fc.combiner) :
    ∃ ls fc', ls.length ≤ 1 ∧ FlatCombiner.machine.Run fc ls fc' ∧
      (node'.setThread tid ⟨phase, some r'⟩).Implements fc' := by
  have hr : (node.threads tid).round = some r := by rw [hthread]
  have hthreads' : (node'.setThread tid ⟨phase, some r'⟩).threads =
      Function.update node.threads tid ⟨phase, some r'⟩ := by
    rw [Node.setThread, hthreads]
  refine ⟨[], fc, Nat.zero_le 1, .nil fc, h.combiner (hinv.others hr howns) hthreads'
    (by rw [hthread]) rfl rfl
    (fun j hlt ↦ (h.slots j hlt).trans (congrArg some (hslots j _).symm)) (fun r₀ hr₀ ↦ ?_)
    (by simp)⟩
  cases hr₀
  exact ⟨howns', hfits⟩

/-- An access of a round that only moves the flat combiner's combiner. -/
theorem Node.Implements.roundMove (h : node.Implements fc) (hinv : NodeInv n log node)
    (hthread : node.threads tid = ⟨phase, some r⟩) (howns : r.pc.Owns) {l : FlatCombiner.Label}
    {c : FlatCombiner.CombinerState} (hnext : FlatCombiner.Next fc l { fc with combiner := c })
    (howns' : r'.pc.Owns) (hfits : r'.Fits c) :
    ∃ ls fc', ls.length ≤ 1 ∧ FlatCombiner.machine.Run fc ls fc' ∧
      (node.setThread tid ⟨phase, some r'⟩).Implements fc' := by
  have hr : (node.threads tid).round = some r := by rw [hthread]
  refine ⟨[l], _, Nat.le_refl 1, .single hnext, h.combiner (hinv.others hr howns) rfl
    (by rw [hthread]) rfl rfl h.slots (fun r₀ hr₀ ↦ ?_) (by simp)⟩
  cases hr₀
  exact ⟨howns', hfits⟩

private theorem Node.Implements.slots_insert (h : node.Implements fc) {context : Context DT}
    {slot : FlatCombiner.SlotState} (hslot : context.slot (node.threads i).phase = slot)
    (j : ThreadId) (hj : j < maxThreadsPerReplica) :
    fc.slots.insert i slot j =
      some (((node.setContext i context).contexts j).slot (node.threads j).phase) := by
  by_cases hji : j = i
  · subst hji
    refine (PMap.insert_self _ _ _).trans ?_
    simp only [Node.setContext, Function.update_self, hslot]
  · refine (PMap.insert_of_ne _ _ hji).trans ?_
    simp only [Node.setContext, Function.update_of_ne hji]
    exact h.slots j hj

/-- Every access of a thread inside `try_combine` is one transition of the flat combiner or
none. -/
theorem CombineStep.simulates (hstep : CombineStep n tid log node r label log' node' round)
    (hinv : NodeInv n log node) (hthread : node.threads tid = ⟨phase, some r⟩)
    (h : node.Implements fc) :
    ∃ ls fc', ls.length ≤ 1 ∧ FlatCombiner.machine.Run fc ls fc' ∧
      (node'.setThread tid ⟨phase, round⟩).Implements fc' := by
  have hr : (node.threads tid).round = some r := by rw [hthread]
  have hphase : (node.threads tid).phase = phase := by rw [hthread]
  have hprogress := hinv.progress tid r hr
  have hfits := h.round tid r hr
  cases hstep with
  | combinerFree hpc =>
    refine h.look hthread (by rw [hpc]; exact id) fun r' hr' ↦ ?_
    cases hr'
    exact id
  | combinerTaken hpc | casCombinerFail hpc =>
    exact h.look hthread (by rw [hpc]; exact id) (by simp)
  | casCombiner hpc hfree =>
    simp only [Round.Progress, hpc] at hprogress
    obtain ⟨hnum, hids, _⟩ := hprogress
    refine ⟨[], fc, Nat.zero_le 1, .nil fc, h.combiner
      (fun j r' _ hr' ↦ hinv.not_owns_of_free hfree j r' hr') rfl hphase rfl rfl h.slots
      (fun r₀ hr₀ ↦ ?_) (by simp)⟩
    cases hr₀
    refine ⟨trivial, [], h.free (hinv.not_owns_of_free hfree), ?_, ?_⟩
    · simp only [hnum]
      exact .nil
    · simp only [hids]
      rfl
  | collectRequest i hpc hi hatomic =>
    obtain ⟨rid, iter, hwaiting, hreq⟩ := hinv.requested hr hpc hatomic
    simp only [Round.Progress, hpc] at hprogress
    simp only [Round.Fits, hpc] at hfits
    obtain ⟨elems, hcombiner, hcollected⟩ := hfits trivial
    obtain rfl : elems.length = i := hcollected.length_eq.trans hprogress.1
    have hslot := h.slots elems.length hi
    rw [hwaiting, Context.slot_requested hreq] at hslot
    have hprog : ({ node.contexts elems.length with update := none } : Context DT).InProgress :=
      ⟨hatomic, rfl⟩
    refine ⟨[_], _, Nat.le_refl 1, .single (.combinerCollectRequest elems rid hcombiner hslot),
      h.combiner (hinv.others hr (Round.owns_of_eq hpc trivial)) rfl hphase rfl rfl
      (h.slots_insert ?_) (fun r₀ hr₀ ↦ ?_) (by simp)⟩
    · rw [hwaiting]
      exact Context.slot_inProgress hprog
    · cases hr₀
      refine ⟨trivial, _, rfl, hcollected.snoc rfl ?_ (iff_of_false Nat.one_ne_zero (by simp))⟩
      rw [hreq.2.1]
  | collectEmpty i hpc hi hatomic =>
    have hzero := (hinv.slots i).atomic_eq_zero hatomic
    simp only [Round.Progress, hpc] at hprogress
    simp only [Round.Fits, hpc] at hfits
    obtain ⟨elems, hcombiner, hcollected⟩ := hfits trivial
    obtain rfl : elems.length = i := hcollected.length_eq.trans hprogress.1
    refine h.roundMove hinv hthread (Round.owns_of_eq hpc trivial)
      (.combinerCollectEmpty elems _ hcombiner (h.slots elems.length hi)
        (Context.slot_of_zero hzero)) trivial ⟨_, rfl, ?_⟩
    exact hcollected.snoc rfl (List.append_nil _).symm (iff_of_true hzero rfl)
  | copyOp i op resp hpc hbatch =>
    simp only [Round.Fits, hpc] at hfits
    obtain ⟨elems, hcombiner, hcollected⟩ := hfits trivial
    exact h.roundStutter hinv hthread (Round.owns_of_eq hpc trivial) rfl (fun _ _ ↦ rfl) trivial
      ⟨elems, hcombiner, hcollected.counts, hcollected.requests⟩
  | collected hpc =>
    simp only [Round.Progress, hpc] at hprogress
    simp only [Round.Fits, hpc] at hfits
    obtain ⟨elems, hcombiner, hcollected⟩ := hfits trivial
    have hall : elems.length = fc.numThreads := by
      rw [hcollected.length_eq, hprogress.1, h.numThreads]
    exact h.roundMove hinv hthread (Round.owns_of_eq hpc trivial)
      (.combinerRespondingStart elems hcombiner hall) trivial
      ⟨elems, rfl, hcollected.counts, hcollected.requests⟩
  | acquireWrite pc lock pc' hpc | takeData pc lock view hpc | executed t hpc
  | putData lock view hpc | unlockExc lock hpc =>
    simp only [Round.Fits, hpc] at hfits
    obtain ⟨elems, hcombiner, hcollected⟩ := hfits trivial
    exact h.roundStutter hinv hthread (Round.owns_of_eq hpc trivial) rfl (fun _ _ ↦ rfl) trivial
      ⟨elems, hcombiner, hcollected.counts, hcollected.requests⟩
  | appendExecute t label log' hpc =>
    have howns : r.pc.Owns := Round.owns_of_eq hpc trivial
    exact h.roundStutter hinv hthread howns rfl (fun _ _ ↦ rfl) howns (hfits howns)
  | respondNone i k hpc hnone =>
    simp only [Round.Progress, hpc] at hprogress
    simp only [Round.Fits, hpc] at hfits
    obtain ⟨elems, hcombiner, hcollected⟩ := hfits trivial
    obtain ⟨hget, hpast⟩ := hcollected.passEmpty hnone
    have hlt := (List.getElem?_eq_some_iff.mp hnone).1
    rw [hprogress.1, ← h.numThreads] at hlt
    refine h.roundMove hinv hthread (Round.owns_of_eq hpc trivial)
      (.combinerRespondingEmpty elems i hcombiner hlt fun e he ↦ ?_) trivial
      ⟨elems, rfl, hpast.counts, hpast.requests⟩
    exact (Option.some.inj (hget.symm.trans he)).symm
  | respond i k numOps op resp ret hpc =>
    simp only [Round.Fits, hpc] at hfits
    obtain ⟨elems, hcombiner, hcollected⟩ := hfits trivial
    refine h.roundStutter hinv hthread (Round.owns_of_eq hpc trivial) rfl (fun j phase ↦ ?_) trivial
      ⟨elems, hcombiner, hcollected.counts, hcollected.requests⟩
    by_cases hj : j = i
    · subst hj
      simp only [Node.setContext, Function.update_self]
      rfl
    · simp only [Node.setContext, Function.update_of_ne hj]
  | storeResponse i k hpc =>
    simp only [Round.Progress, hpc] at hprogress
    simp only [Round.Fits, hpc] at hfits
    obtain ⟨elems, hcombiner, hcollected⟩ := hfits trivial
    obtain ⟨hlength, _, ⟨numOps, hsome, hne⟩, _⟩ := hprogress
    have hmem : i ∈ r.slots := by
      simp only [Round.slots, hpc]
      exact mem_occupied_drop hsome hne
    obtain ⟨rid, hprog, iter, hwaiting⟩ := hinv.held_of_mem hr hmem
    obtain ⟨rid', hget, _, hpast⟩ := hcollected.passRequest hsome hne
    have hlt := (List.getElem?_eq_some_iff.mp hsome).1
    rw [hlength] at hlt
    have hslot := h.slots i hlt
    rw [hwaiting, Context.slot_inProgress hprog] at hslot
    refine ⟨[_], _, Nat.le_refl 1, .single (.combinerRespondingResult elems i _ rid hcombiner
      (h.numThreads ▸ hlt) (fun e he ↦ ?_) hslot fun r hr ↦ ?_),
      h.combiner (hinv.others hr (Round.owns_of_eq hpc trivial)) rfl hphase rfl rfl
      (h.slots_insert ?_) (fun r₀ hr₀ ↦ ?_) (by simp)⟩
    · rw [← Option.some.inj (hget.symm.trans he)]
      simp
    · cases hr
      rfl
    · rw [hwaiting]
      exact Context.slot_response rfl
    · cases hr₀
      exact ⟨trivial, elems, rfl, hpast.counts, hpast.requests⟩
  | responded k hpc =>
    simp only [Round.Fits, hpc] at hfits
    obtain ⟨elems, hcombiner, _⟩ := hfits trivial
    exact h.roundMove hinv hthread (Round.owns_of_eq hpc trivial)
      (.combinerRespondingDone elems _ hcombiner h.numThreads.symm) trivial rfl
  | releaseCombiner hpc =>
    simp only [Round.Fits, hpc] at hfits
    exact ⟨[], fc, Nat.zero_le 1, .nil fc,
      h.combiner (hinv.others hr (Round.owns_of_eq hpc trivial)) rfl hphase rfl rfl h.slots
        (by simp) fun _ ↦ hfits trivial⟩

end Rules

/-- A step leaves a replica as it is, or is one of a thread of this replica. -/
theorem Next.node_cases {n : NodeId} {s s' : State DT} {label : Label DT}
    (h : Next s label s') :
    s'.nodes n = s.nodes n ∨
    (∃ tid phase node t, (s.nodes n).threads tid = ⟨phase, none⟩ ∧
      ClientStep n tid s.log (s.nodes n) phase label s'.log node t ∧
      s'.nodes n = node.setThread tid t) ∨
    ∃ tid phase r node round, (s.nodes n).threads tid = ⟨phase, some r⟩ ∧
      CombineStep n tid s.log (s.nodes n) r label s'.log node round ∧
      s'.nodes n = node.setThread tid ⟨phase, round⟩ := by
  cases h with
  | client m tid phase label log node t hthread hstep =>
    by_cases hm : n = m
    · subst hm
      exact .inr (.inl ⟨tid, phase, node, t, hthread, hstep, Function.update_self _ _ _⟩)
    · exact .inl (Function.update_of_ne hm _ _)
  | combine m tid phase r label log node round hthread hstep =>
    by_cases hm : n = m
    · subst hm
      exact .inr (.inr ⟨tid, phase, r, node, round, hthread, hstep, Function.update_self _ _ _⟩)
    · exact .inl (Function.update_of_ne hm _ _)

private theorem implements_initialNode :
    (initialNode DT).Implements (FlatCombiner.initialState maxThreadsPerReplica) where
  numThreads := rfl
  clients := fun _ hlt ↦ if_pos hlt
  slots := fun _ hlt ↦ if_pos hlt
  round := nofun
  free := fun _ ↦ rfl

/-- The slots of a replica in a reachable state stand for a reachable state of the flat
combiner. -/
def Simulates (n : NodeId) (s : State DT) (fc : FlatCombiner.State) : Prop :=
  (machine DT).Reachable s ∧ FlatCombiner.machine.Reachable fc ∧ (s.nodes n).Implements fc

private theorem Simulates.next {n : NodeId} {s s' : State DT} {fc : FlatCombiner.State}
    {label : Label DT} (h : Simulates n s fc) (hstep : Next s label s') :
    ∃ ls fc', ls.length ≤ 1 ∧ FlatCombiner.machine.Run fc ls fc' ∧ Simulates n s' fc' := by
  obtain ⟨hreach, hfc, himplements⟩ := h
  have hreach' := hreach.step hstep
  have hinv := (inv_of_reachable hreach).1
  suffices hnext : ∃ ls fc', ls.length ≤ 1 ∧ FlatCombiner.machine.Run fc ls fc' ∧
      (s'.nodes n).Implements fc' by
    obtain ⟨ls, fc', hlength, hrun, himplements'⟩ := hnext
    exact ⟨ls, fc', hlength, hrun, hreach', hfc.run hrun, himplements'⟩
  rcases hstep.node_cases (n := n) with
    hsame | ⟨tid, phase, node, t, hthread, hclient, hnode⟩ |
      ⟨tid, phase, r, node, round, hthread, hcombine, hnode⟩
  · rw [hsame]
    exact ⟨[], fc, Nat.zero_le 1, .nil fc, himplements⟩
  · rw [hnode]
    exact hclient.simulates (hinv.nodes n) hthread himplements
  · rw [hnode]
    exact hcombine.simulates (hinv.nodes n) hthread himplements

/-- The slots of a replica implement the flat combiner. -/
theorem forwardSim (n : NodeId) :
    ForwardSim (machine DT) FlatCombiner.machine (fun _ ls ↦ ls.length ≤ 1) (Simulates n) where
  init := by
    rintro _ ⟨numReplicas, hpos, rfl⟩
    exact ⟨_, ⟨maxThreadsPerReplica, rfl⟩, .of_init ⟨numReplicas, hpos, rfl⟩,
      .of_init ⟨maxThreadsPerReplica, rfl⟩, implements_initialNode⟩
  step := fun _ _ _ _ h hstep ↦ h.next hstep

/-! ## Cells -/

/-- The next access of a thread is one of the cell of a slot (`exec/context.rs:236–360`,
`exec/replica.rs:747–771`, `877–965`). -/
def Thread.Accesses (t : Thread DT) (tid i : ThreadId) : Prop :=
  match t.round with
  | some r =>
    match r.pc with
    | .copyOp j => j = i
    | .respond j _ => j = i ∧ ∃ numOps, r.numOpsPerThread[j]? = some numOps ∧ numOps ≠ 0
    | _ => False
  | none =>
    match t.phase with
    | .enqueueOp _ _ => tid = i
    | .takeResponse _ => tid = i
    | _ => False

section Cells

variable {n : NodeId} {log log' : NrLog.State DT} {node node' : Node DT} {tid tid' i : ThreadId}
  {phase : Phase DT} {label : Label DT} {t : Thread DT} {r : Round DT} {round : Option (Round DT)}
  {fc : FlatCombiner.State}

private theorem Node.eq_of_batch_ne {j : ThreadId} {context : Context DT}
    (h : ((node.setContext j context).contexts i).batch ≠ (node.contexts i).batch) : j = i := by
  by_contra hj
  simp only [Node.setContext, Function.update_of_ne (Ne.symm hj)] at h
  exact h rfl

/-- Only a thread at such an access changes the cell of a slot. -/
theorem ClientStep.accesses (h : ClientStep n tid log node phase label log' node' t)
    (hchanged : (node'.contexts i).batch ≠ (node.contexts i).batch) :
    Thread.Accesses (⟨phase, none⟩ : Thread DT) tid i := by
  cases h with
  | enqueueOp | takeResponse => exact Node.eq_of_batch_ne hchanged
  | storePending | loadResponse =>
    obtain rfl := Node.eq_of_batch_ne hchanged
    simp only [Node.setContext, Function.update_self] at hchanged
    exact absurd rfl hchanged
  | _ => exact absurd rfl hchanged

private theorem CombineStep.accesses (h : CombineStep n tid log node r label log' node' round)
    (hchanged : (node'.contexts i).batch ≠ (node.contexts i).batch) :
    Thread.Accesses (⟨phase, some r⟩ : Thread DT) tid i := by
  cases h with
  | respond j k numOps op resp ret hpc hsome hne =>
    simp only [Thread.Accesses, hpc]
    exact ⟨Node.eq_of_batch_ne hchanged, numOps, hsome, hne⟩
  | collectRequest | storeResponse =>
    obtain rfl := Node.eq_of_batch_ne hchanged
    simp only [Node.setContext, Function.update_self] at hchanged
    exact absurd rfl hchanged
  | _ => exact absurd rfl hchanged

/-- Every change of a cell is an access of a thread. -/
theorem Next.accesses {s s' : State DT} (h : Next s label s')
    (hchanged : ((s'.nodes n).contexts i).batch ≠ ((s.nodes n).contexts i).batch) :
    ∃ tid, ((s.nodes n).threads tid).Accesses tid i := by
  rcases h.node_cases (n := n) with
    hsame | ⟨tid, phase, node, t, hthread, hclient, hnode⟩ |
      ⟨tid, phase, r, node, round, hthread, hcombine, hnode⟩
  · rw [hsame] at hchanged
    exact absurd rfl hchanged
  · rw [hnode] at hchanged
    refine ⟨tid, ?_⟩
    rw [hthread]
    exact hclient.accesses hchanged
  · rw [hnode] at hchanged
    refine ⟨tid, ?_⟩
    rw [hthread]
    exact hcombine.accesses hchanged

/-- A client looks at its cell while its slot is empty, and the round at the cells of slots in
progress. -/
theorem Thread.Accesses.slot (haccess : (node.threads tid).Accesses tid i)
    (hinv : NodeInv n log node) (h : node.Implements fc) :
    (tid = i ∧ (node.threads tid).round = none ∧ fc.slots i = some .empty) ∨
      ∃ r rid, (node.threads tid).round = some r ∧ r.pc.Owns ∧
        fc.slots i = some (.inProgress rid) := by
  cases hround : (node.threads tid).round with
  | none =>
    simp only [Thread.Accesses, hround] at haccess
    have hactive := hinv.active tid
    have hslot := h.slots tid
    cases hphase : (node.threads tid).phase with
    | enqueueOp rid op =>
      rw [hphase] at haccess hactive hslot
      obtain rfl := haccess
      exact .inl ⟨rfl, rfl, hslot (hactive rid rfl).2⟩
    | takeResponse rid =>
      rw [hphase] at haccess hactive hslot
      obtain rfl := haccess
      exact .inl ⟨rfl, rfl, hslot (hactive rid rfl).2⟩
    | _ =>
      rw [hphase] at haccess
      exact haccess.elim
  | some r =>
    simp only [Thread.Accesses, hround] at haccess
    have hprogress := hinv.progress tid r hround
    suffices hmem : r.pc.Owns ∧ i ∈ r.slots by
      obtain ⟨rid, hprog, iter, hphase⟩ := hinv.held_of_mem hround hmem.2
      have hslot := h.slots i (hinv.active i rid (by rw [hphase]; rfl)).2
      rw [hphase, Context.slot_inProgress hprog] at hslot
      exact .inr ⟨r, rid, rfl, hmem.1, hslot⟩
    cases hpc : r.pc with
    | copyOp j =>
      simp only [hpc, Round.Progress] at haccess hprogress
      subst haccess
      simp only [Round.slots, hpc]
      exact ⟨trivial, hprogress.2.2.1⟩
    | respond j k =>
      simp only [hpc] at haccess
      obtain ⟨rfl, numOps, hsome, hne⟩ := haccess
      simp only [Round.slots, hpc]
      exact ⟨trivial, mem_occupied_drop hsome hne⟩
    | _ =>
      rw [hpc] at haccess
      exact haccess.elim

/-- Two threads do not look at a cell at the same time. -/
theorem Thread.Accesses.unique (haccess : (node.threads tid).Accesses tid i)
    (haccess' : (node.threads tid').Accesses tid' i) (hinv : NodeInv n log node)
    (h : node.Implements fc) : tid = tid' := by
  rcases haccess.slot hinv h with ⟨hi, _, hempty⟩ | ⟨r, rid, hr, howns, hprog⟩
  · rcases haccess'.slot hinv h with ⟨hi', _, _⟩ | ⟨_, _, _, _, hprog'⟩
    · exact hi.trans hi'.symm
    · cases hempty.symm.trans hprog'
  · rcases haccess'.slot hinv h with ⟨_, _, hempty'⟩ | ⟨r', _, hr', howns', _⟩
    · cases hempty'.symm.trans hprog
    · exact hinv.owner tid tid' r r' hr hr' howns howns'

end Cells

end Replica

end NrKernel.NodeReplication
