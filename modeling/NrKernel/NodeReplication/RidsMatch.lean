import NrKernel.Lib.Segment
import NrKernel.NodeReplication.FlatCombining

/-!
# The requests of a round in the order of its slots

`rids_match` relates what the flat combiner collected, an optional request for each slot, to the
requests of a round (`exec/utils.rs`). It is defined from the end of both ranges. The walk that
collects adds at the end; the walk that hands out the responses takes from the front. Both laws
follow from what the predicate says of the ranges as a whole: the requests are the elements that
are present, in order.
-/

namespace NrKernel.NodeReplication

open Lib

/-- `rids_match` (`exec/utils.rs:14–43`), which the source defines for ranges of the sequences. -/
def ridsMatch (bools : List (Option ReqId)) (rids : List ReqId) (boolsStart : Nat) :
    Nat → Nat → Nat → Bool
  | 0, ridsStart, ridsEnd => ridsEnd == ridsStart
  | boolsEnd + 1, ridsStart, ridsEnd =>
    if boolsEnd + 1 = boolsStart then ridsEnd == ridsStart
    else
      match bools[boolsEnd]? with
      | some (some rid) =>
        decide (ridsStart < ridsEnd) && rids[ridsEnd - 1]? == some rid &&
          ridsMatch bools rids boolsStart boolsEnd ridsStart (ridsEnd - 1)
      | _ => ridsMatch bools rids boolsStart boolsEnd ridsStart ridsEnd

section Laws

variable {bools : List (Option ReqId)} {rids : List ReqId} {bs be rs re : Nat}

/-- The ranges `rids_match` is defined for. -/
structure ValidRanges (bools : List (Option ReqId)) (rids : List ReqId) (bs be rs re : Nat) :
    Prop where
  bools_le : bs ≤ be
  bools_end : be ≤ bools.length
  rids_le : rs ≤ re
  rids_end : re ≤ rids.length

private theorem nil_eq_segment_iff (hrs : rs ≤ re) (hre : re ≤ rids.length) :
    [] = segment rids rs re ↔ re = rs := by
  constructor
  · intro h
    have hlen := length_segment rs hre
    rw [← h, List.length_nil] at hlen
    omega
  · rintro rfl
    exact (segment_self rids re).symm

/-- The requests are those of the slots that have one, in order. -/
theorem ridsMatch_iff (h : ValidRanges bools rids bs be rs re) :
    ridsMatch bools rids bs be rs re ↔ (segment bools bs be).reduceOption = segment rids rs re := by
  obtain ⟨hbs, hbe, hrs, hre⟩ := h
  induction be generalizing re with
  | zero =>
    obtain rfl : bs = 0 := Nat.le_zero.mp hbs
    rw [segment_self, List.reduceOption_nil, nil_eq_segment_iff hrs hre, ridsMatch, beq_iff_eq]
  | succ be ih =>
    rw [ridsMatch]
    by_cases hempty : be + 1 = bs
    · rw [if_pos hempty, hempty, segment_self, List.reduceOption_nil, nil_eq_segment_iff hrs hre,
        beq_iff_eq]
    · have hle : bs ≤ be := by omega
      have hget : bools[be]? = some bools[be] := List.getElem?_eq_getElem hbe
      rw [if_neg hempty, segment_succ hle hget, hget, List.reduceOption_append]
      cases bools[be] with
      | none =>
        rw [List.reduceOption_singleton, Option.toList_none, List.append_nil]
        exact ih hle (by omega) hrs hre
      | some rid =>
        rw [List.reduceOption_singleton, Option.toList_some, concat_eq_segment_iff hre]
        simp only [Bool.and_eq_true, decide_eq_true_eq, beq_iff_eq, and_assoc]
        apply and_congr_right
        intro hlt
        apply and_congr_right
        intro _
        exact ih hle (by omega) (by omega) (by omega)

/-! ## What the walks rely on -/

/-- The ranges are still there in longer sequences. -/
theorem ValidRanges.append (h : ValidRanges bools rids bs be rs re)
    (bools' : List (Option ReqId)) (rids' : List ReqId) :
    ValidRanges (bools ++ bools') (rids ++ rids') bs be rs re := by
  refine ⟨h.bools_le, ?_, h.rids_le, ?_⟩
  · rw [List.length_append]
    exact Nat.le_add_right_of_le h.bools_end
  · rw [List.length_append]
    exact Nat.le_add_right_of_le h.rids_end

/-- What comes after the ranges does not matter
(`rids_match_add_none`, `rids_match_add_rid`, `exec/utils.rs:45–138`). -/
theorem ridsMatch_append (h : ValidRanges bools rids bs be rs re)
    (bools' : List (Option ReqId)) (rids' : List ReqId) :
    ridsMatch (bools ++ bools') (rids ++ rids') bs be rs re ↔
      ridsMatch bools rids bs be rs re := by
  rw [ridsMatch_iff h, ridsMatch_iff (h.append bools' rids'), segment_append _ _ h.bools_end,
    segment_append _ _ h.rids_end]

/-- The walk that collects passes a slot without a request
(`exec/replica.rs:793–799`). -/
theorem ridsMatch_collectEmpty (h : ValidRanges bools rids bs bools.length rs re) :
    ridsMatch (bools ++ [none]) rids bs (bools.length + 1) rs re ↔
      ridsMatch bools rids bs bools.length rs re := by
  have hlong : ValidRanges (bools ++ [none]) rids bs (bools.length + 1) rs re := by
    refine ⟨Nat.le_succ_of_le h.bools_le, ?_, h.rids_le, h.rids_end⟩
    rw [List.length_append, List.length_singleton]
  rw [ridsMatch_iff h, ridsMatch_iff hlong, segment_succ h.bools_le List.getElem?_concat_length,
    segment_append _ _ (Nat.le_refl _), List.reduceOption_append, List.reduceOption_singleton,
    Option.toList_none, List.append_nil]

/-- The walk that collects passes a slot with a request (`exec/replica.rs:783–791`, `814`). -/
theorem ridsMatch_collectRequest (h : ValidRanges bools rids bs bools.length rs rids.length)
    (rid : ReqId) :
    ridsMatch (bools ++ [some rid]) (rids ++ [rid]) bs (bools.length + 1) rs (rids.length + 1) ↔
      ridsMatch bools rids bs bools.length rs rids.length := by
  have hlong : ValidRanges (bools ++ [some rid]) (rids ++ [rid]) bs (bools.length + 1) rs
      (rids.length + 1) := by
    refine ⟨Nat.le_succ_of_le h.bools_le, ?_, Nat.le_succ_of_le h.rids_le, ?_⟩
    · rw [List.length_append, List.length_singleton]
    · rw [List.length_append, List.length_singleton]
  rw [ridsMatch_iff h, ridsMatch_iff hlong, segment_succ h.bools_le List.getElem?_concat_length,
    segment_succ h.rids_le List.getElem?_concat_length, segment_append _ _ (Nat.le_refl _),
    segment_append _ _ (Nat.le_refl _), List.reduceOption_append, List.reduceOption_singleton,
    Option.toList_some, List.append_left_inj]

/-- The walk that responds passes a slot without a request (`rids_match_pop`,
`exec/utils.rs:140–197`). -/
theorem ridsMatch_popNone (h : ValidRanges bools rids bs be rs re) (hlt : bs < be)
    (hget : bools[bs]? = some none) :
    ridsMatch bools rids bs be rs re ↔ ridsMatch bools rids (bs + 1) be rs re := by
  rw [ridsMatch_iff h, ridsMatch_iff ⟨hlt, h.bools_end, h.rids_le, h.rids_end⟩,
    segment_eq_cons hlt hget, List.reduceOption_cons_of_none]

/-- The walk that responds passes a slot with a request, which is the first one of the range
(`rids_match_pop`, `exec/utils.rs:140–197`). -/
theorem ridsMatch_popSome (h : ValidRanges bools rids bs be rs re) (hlt : bs < be) {rid : ReqId}
    (hget : bools[bs]? = some (some rid)) :
    ridsMatch bools rids bs be rs re ↔
      rs < re ∧ rids[rs]? = some rid ∧ ridsMatch bools rids (bs + 1) be (rs + 1) re := by
  rw [ridsMatch_iff h, segment_eq_cons hlt hget, List.reduceOption_cons_of_some,
    cons_eq_segment_iff h.rids_end]
  apply and_congr_right
  intro hrids
  rw [ridsMatch_iff ⟨hlt, h.bools_end, hrids, h.rids_end⟩]

/-- Ranges that match one range of slots have the same length. -/
theorem ridsMatch_start_unique (h : ValidRanges bools rids bs be rs re)
    (hmatch : ridsMatch bools rids bs be rs re) {rs' : Nat} (hrs' : rs' ≤ re)
    (hmatch' : ridsMatch bools rids bs be rs' re) : rs' = rs := by
  rw [ridsMatch_iff h] at hmatch
  rw [ridsMatch_iff ⟨h.bools_le, h.bools_end, hrs', h.rids_end⟩, hmatch] at hmatch'
  have hlen := congrArg List.length hmatch'
  rw [length_segment _ h.rids_end, length_segment _ h.rids_end] at hlen
  have := h.rids_le
  omega

/-- What the walks make of ranges that match: the slots and the requests grow together at the end
and are taken together from the front. -/
structure RidsMatchLaws (bools : List (Option ReqId)) (rids : List ReqId) (bs be rs re : Nat) :
    Prop where
  add_none : ridsMatch (bools ++ [none]) rids bs be rs re
  add_rid : ∀ rid, ridsMatch (bools ++ [some rid]) (rids ++ [rid]) bs be rs re
  collect_empty : be = bools.length → ridsMatch (bools ++ [none]) rids bs (be + 1) rs re
  collect_request : ∀ rid, be = bools.length → re = rids.length →
    ridsMatch (bools ++ [some rid]) (rids ++ [rid]) bs (be + 1) rs (re + 1)
  /-- A request at the front of the slots is the one at the front of the requests. -/
  front : ∀ rid, bs < be → bools[bs]? = some (some rid) → rs < re ∧ rids[rs]? = some rid
  /-- The first slot goes with the first request exactly when it has one. -/
  pop : ∀ e k, bs < be → bools[bs]? = some e → rs ≤ k → k ≤ re →
    (ridsMatch bools rids (bs + 1) be k re ↔ k = rs + e.toList.length)

/-- The requests of matching ranges are those of the slots that have one, in order, and so they
match after every step of a walk. -/
theorem ridsMatch_characterised (h : ValidRanges bools rids bs be rs re) :
    (ridsMatch bools rids bs be rs re ↔
      (segment bools bs be).reduceOption = segment rids rs re) ∧
    (ridsMatch bools rids bs be rs re → RidsMatchLaws bools rids bs be rs re) := by
  refine ⟨ridsMatch_iff h, fun hmatch ↦ ⟨?_, fun rid ↦ (ridsMatch_append h _ _).mpr hmatch, ?_,
    ?_, fun rid hlt hget ↦ ?_, fun e k hlt hget hk hk' ↦ ?_⟩⟩
  · rw [← List.append_nil rids]
    exact (ridsMatch_append h [none] []).mpr hmatch
  · rintro rfl
    exact (ridsMatch_collectEmpty h).mpr hmatch
  · rintro rid rfl rfl
    exact (ridsMatch_collectRequest h rid).mpr hmatch
  · obtain ⟨hrids, hfront, -⟩ := (ridsMatch_popSome h hlt hget).mp hmatch
    exact ⟨hrids, hfront⟩
  · -- the range that matches is the one the pop law gives
    have hpop : ridsMatch bools rids (bs + 1) be (rs + e.toList.length) re ∧
        rs + e.toList.length ≤ re := by
      cases e with
      | none => exact ⟨(ridsMatch_popNone h hlt hget).mp hmatch, h.rids_le⟩
      | some rid =>
        obtain ⟨hrids, -, hnext⟩ := (ridsMatch_popSome h hlt hget).mp hmatch
        exact ⟨hnext, hrids⟩
    constructor
    · intro hnext
      exact ridsMatch_start_unique ⟨hlt, h.bools_end, hpop.2, h.rids_end⟩ hpop.1 hk' hnext
    · rintro rfl
      exact hpop.1

/-- The middle slot of three has no request. -/
theorem ridsMatch_characterised_three :
    (ridsMatch [some 4, none, some 7] [4, 7] 0 3 0 2 ↔
      (segment [some 4, none, some 7] 0 3).reduceOption = segment [4, 7] 0 2) ∧
    (ridsMatch [some 4, none, some 7] [4, 7] 0 3 0 2 →
      RidsMatchLaws [some 4, none, some 7] [4, 7] 0 3 0 2) :=
  ridsMatch_characterised ⟨by decide, by decide, by decide, by decide⟩

end Laws

/-! ## The walks of a round -/

namespace Replica

universe u

variable {DT : Dispatch.{u}}

/-- What the walks of a round state of the flat combiner (`exec/replica.rs:763–770`, `903`,
`915–922`). -/
def Round.Matches (r : Round DT) (c : FlatCombiner.CombinerState) : Prop :=
  match r.pc with
  | .collect _ => ∃ elems, c = .collecting elems ∧
      ridsMatch elems r.requestIds 0 elems.length 0 r.requestIds.length
  | .respond i k => ∃ elems, c = .responding elems i ∧ k ≤ r.requestIds.length ∧
      ridsMatch elems r.requestIds i elems.length k r.requestIds.length
  | _ => True

/-- The walk that responds has not passed the requests of the round. -/
def Round.RespIdxLe (r : Round DT) : Prop :=
  match r.pc with
  | .respond _ k => k ≤ r.requestIds.length
  | .storeResponse _ k => k < r.requestIds.length
  | _ => True

section Walks

variable {n : NodeId} {tid : ThreadId} {log log' : NrLog.State DT} {node node' : Node DT}
  {r r' : Round DT} {label : Label DT} {s : State DT} {elems : List (Option ReqId)} {i k : Nat}

/-- The rule for what holds of every round: it holds at the start and each access keeps it. -/
theorem rounds_of_reachable {I : Round DT → Prop} (hstart : I (.start DT))
    (hnext : ∀ {n tid log node r label log' node' r'}, NodeInv n log node →
      (node.threads tid).round = some r →
      CombineStep n tid log node r label log' node' (some r') → I r → I r')
    (h : (machine DT).Reachable s) (n : NodeId) (tid : ThreadId) (r : Round DT)
    (hr : ((s.nodes n).threads tid).round = some r) : I r := by
  suffices hall : (machine DT).Reachable s ∧
      ∀ n tid r, ((s.nodes n).threads tid).round = some r → I r from hall.2 n tid r hr
  refine h.invariant (I := fun s ↦ (machine DT).Reachable s ∧
    ∀ n tid r, ((s.nodes n).threads tid).round = some r → I r) ?_ fun s label s' hs hstep ↦ ?_
  · rintro _ ⟨numReplicas, hpos, rfl⟩
    exact ⟨.of_init ⟨numReplicas, hpos, rfl⟩, by simp [initialState, initialNode]⟩
  · refine ⟨hs.1.step hstep, fun n j r hr ↦ ?_⟩
    have hinv := (inv_of_reachable hs.1).1.nodes n
    rcases hstep.node_cases (n := n) with
      hsame | ⟨tid, phase, node, t, hthread, hclient, hnode⟩ |
        ⟨tid, phase, r₀, node, round, hthread, hcombine, hnode⟩
    · rw [hsame] at hr
      exact hs.2 n j r hr
    · by_cases hj : j = tid
      · subst hj
        simp only [hnode, Node.setThread, Function.update_self] at hr
        rw [hclient.round_eq hr]
        exact hstart
      · simp only [hnode, Node.setThread, Function.update_of_ne hj, hclient.threads_eq] at hr
        exact hs.2 n j r hr
    · by_cases hj : j = tid
      · subst hj
        simp only [hnode, Node.setThread, Function.update_self] at hr
        subst hr
        have hr₀ : ((s.nodes n).threads j).round = some r₀ := by rw [hthread]
        exact hnext hinv hr₀ hcombine (hs.2 n j r₀ hr₀)
      · simp only [hnode, Node.setThread, Function.update_of_ne hj, hcombine.threads_eq] at hr
        exact hs.2 n j r hr

private theorem Round.Answered.lt_of_getElem? (h : r.Answered log k) {ret : DT.Response}
    (hret : r.responses[k]? = some ret) : k < r.requestIds.length := by
  have hlen := h.length_eq
  have hlt := (List.getElem?_eq_some_iff.mp hret).1
  rw [List.length_drop, List.length_drop] at hlen
  omega

/-- The walk passes a request only with its response. -/
theorem CombineStep.respIdxLe (hstep : CombineStep n tid log node r label log' node' (some r'))
    (hinv : NodeInv n log node) (hr : (node.threads tid).round = some r) (h : r.RespIdxLe) :
    r'.RespIdxLe := by
  have hprogress := hinv.progress tid r hr
  cases hstep with
  | appendExecute t label log' hpc => exact h
  | unlockExc lock hpc => exact Nat.zero_le _
  | respondNone i k hpc hnone =>
    simp only [Round.RespIdxLe, hpc] at h
    exact h
  | respond i k numOps op resp ret hpc hsome hne hbatch hret =>
    simp only [Round.Progress, hpc] at hprogress
    exact hprogress.2.lt_of_getElem? hret
  | storeResponse i k hpc =>
    simp only [Round.RespIdxLe, hpc] at h
    exact h
  | _ => exact trivial

-- What the flat combiner collected from a slot on are the requests of the round from a request on.
private theorem Round.collected_iff (hi : i ≤ elems.length) (hk : k ≤ r.requestIds.length) :
    r.Collected elems i k ↔
      List.Forall₂ (fun numOps e ↦ numOps = 0 ↔ e = none) r.numOpsPerThread elems ∧
      ridsMatch elems r.requestIds i elems.length k r.requestIds.length := by
  rw [ridsMatch_iff ⟨hi, Nat.le_refl _, hk, Nat.le_refl _⟩, segment_length, segment_length]
  constructor
  · intro h
    exact ⟨h.counts, h.requests⟩
  · intro h
    exact ⟨h.1, h.2⟩

/-- A round that does what the flat combiner does has the loop invariants of its walks. -/
theorem Round.Fits.matches {c : FlatCombiner.CombinerState} (h : r.Fits c)
    (hbounded : c.Bounded maxThreadsPerReplica) (hresp : r.RespIdxLe) : r.Matches c := by
  unfold Round.Matches
  split
  · rename_i i hpc
    simp only [Round.Fits, hpc] at h
    obtain ⟨elems, hcombiner, hcollected⟩ := h
    have hmatch := (Round.collected_iff (Nat.zero_le _) (Nat.zero_le _)).mp hcollected
    exact ⟨elems, hcombiner, hmatch.2⟩
  · rename_i i k hpc
    simp only [Round.Fits, hpc] at h
    simp only [Round.RespIdxLe, hpc] at hresp
    obtain ⟨elems, hcombiner, hcollected⟩ := h
    rw [hcombiner] at hbounded
    have hmatch := (Round.collected_iff hbounded.2 hresp).mp hcollected
    exact ⟨elems, hcombiner, hresp, hmatch.2⟩
  · trivial

/-- Wherever the replicas get, the walks of every round with the combiner lock have their loop
invariants. -/
theorem walks_match (h : (machine DT).Reachable s) (n : NodeId) :
    ∃ fc, FlatCombiner.machine.Reachable fc ∧ (s.nodes n).Implements fc ∧
      ∀ tid r, ((s.nodes n).threads tid).round = some r → r.pc.Owns → r.Matches fc.combiner := by
  obtain ⟨s₀, labels, hinit, hrun⟩ := h
  obtain ⟨_, _, fc, _, _, _, _, hfc, himplements⟩ := (forwardSim n).run hinit hrun
  have hbounded := (FlatCombiner.inv_of_reachable hfc).bounded
  rw [himplements.numThreads] at hbounded
  refine ⟨fc, hfc, himplements, fun tid r hr howns ↦ ?_⟩
  exact (himplements.round tid r hr howns).matches hbounded
    (rounds_of_reachable (I := Round.RespIdxLe) trivial
      (fun hinv hr hstep hI ↦ hstep.respIdxLe hinv hr hI) ⟨s₀, labels, hinit, hrun⟩ n tid r hr)

end Walks

end Replica

end NrKernel.NodeReplication
