import NrKernel.NodeReplication.AsynchronousSingleton
import NrKernel.NodeReplication.SimpleLog

/-!
# Linearization of the simple log

Every run of the simple log looks, to its clients, like a run of the atomic object. An
update takes effect when the version passes its log position. A read takes effect when the
version first reaches the version the read will return at, which is only decided when the
read finishes: the abstraction therefore carries a guess of that version for every read
(`r_points` of `spec/linearization.rs:50–66`) and the simulation runs backward.
-/

namespace NrKernel.NodeReplication

open Lib

universe u

variable {DT : Dispatch.{u}}

namespace SimpleLog

/-- For every read, the version at which it takes effect. -/
abbrev ReadPoints := ReqId → Nat

/-- The read has recorded a version, so it may already have taken effect. -/
def ReadReq.isReq {R : Type u} : ReadReq R → Bool
  | .init _ _ => false
  | .req _ _ _ => true

/-- A request still pending at the atomic object. -/
def State.pending (s : State DT) (points : ReadPoints) (rid : ReqId) :
    Option (InputOperation DT) :=
  match s.readonlyReqs rid with
  | some (.init op nodeId) => some (.read op nodeId)
  | some (.req _ op nodeId) => if points rid ≤ s.version then none else some (.read op nodeId)
  | none =>
    match s.updateReqs rid with
    | some op => some (.write op)
    | none =>
      match s.updateResps rid with
      | some idx => if idx < s.version then none else s.log[idx]?.map .write
      | none => none

/-- The result an answered update returns. -/
def State.updateResult (s : State DT) (idx : Nat) : Option (OutputOperation DT) :=
  s.log[idx]?.map fun op ↦ .write (DT.dispatchMutSpec (s.nrstateAtVersion idx) op).2

/-- A result waiting at the atomic object. -/
def State.answered (s : State DT) (points : ReadPoints) (rid : ReqId) :
    Option (OutputOperation DT) :=
  match s.readonlyReqs rid with
  | some (.init _ _) => none
  | some (.req _ op _) =>
    if points rid ≤ s.version then
      some (.read (DT.dispatchSpec (s.nrstateAtVersion (points rid)) op))
    else none
  | none =>
    match s.updateResps rid with
    | some idx => if idx < s.version then s.updateResult idx else none
    | none => none

/-- The atomic object a simple-log state stands for, once the read points are guessed. -/
def State.interp (s : State DT) (points : ReadPoints) : AsynchronousSingleton.State DT where
  state := s.nrstateAtVersion s.version
  reqs := s.pending points
  resps := s.answered points

/-- A guess is possible when no read takes effect before the version it recorded. -/
def State.Allows (s : State DT) (points : ReadPoints) : Prop :=
  ∀ rid v op nodeId, s.readonlyReqs rid = some (.req v op nodeId) → v ≤ points rid

open AsynchronousSingleton (Silent answerReads silent_answerReads takeEffect)

/-- The reads that take effect when the version becomes `v`. -/
def State.readsAt (s : State DT) (points : ReadPoints) (v : Nat) (rid : ReqId) : Prop :=
  (s.readonlyReqs rid).any ReadReq.isReq ∧ points rid = v

/-- Whether a read takes effect at a version can be decided. -/
instance (s : State DT) (points : ReadPoints) (v : Nat) :
    DecidablePred (s.readsAt points v) :=
  fun rid ↦ inferInstanceAs (Decidable ((s.readonlyReqs rid).any ReadReq.isReq ∧ points rid = v))

private theorem readsAt_finite {s : State DT} (hinv : Inv s) (points : ReadPoints)
    (v : Nat) : {rid | s.readsAt points v rid}.Finite := by
  refine hinv.reads_finite.subset fun rid h ↦ ?_
  obtain ⟨hreq, _⟩ := h
  cases hr : s.readonlyReqs rid with
  | none => simp [hr] at hreq
  | some req => exact PMap.mem_dom_of_eq hr

-- The object right after the update `op` of request `rid` took effect.
private def State.applied (s : State DT) (points : ReadPoints) (rid : ReqId)
    (op : DT.WriteOperation) : AsynchronousSingleton.State DT where
  state := (takeEffect (s.interp points).state (.write op)).1
  reqs := (s.interp points).reqs.remove rid
  resps := (s.interp points).resps.insert rid (takeEffect (s.interp points).state (.write op)).2

section IncrVersion

variable {s : State DT} {rid : ReqId} {op : DT.WriteOperation}

-- The owner of the log position is neither a read nor an update still to be logged.
private theorem owner_only_resp (hinv : Inv s) (hrid : s.updateResps rid = some s.version) :
    s.readonlyReqs rid = none ∧ s.updateReqs rid = none := by
  constructor
  · by_contra h
    simp [(hinv.read_update rid h).2] at hrid
  · by_contra h
    simp [hinv.req_resp rid h] at hrid

private theorem pending_succ (hinv : Inv s) (points : ReadPoints)
    (hrid : s.updateResps rid = some s.version) :
    { s with version := s.version + 1 }.pending points =
      (answerReads (s.applied points rid op) (s.readsAt points (s.version + 1))).reqs := by
  obtain ⟨hread, hupd⟩ := owner_only_resp hinv hrid
  funext r
  by_cases hr : r = rid
  · subst hr
    simp [State.applied, State.pending, answerReads, hread, hupd, hrid]
  cases hq : s.readonlyReqs r with
  | some q =>
    cases q with
    | init op nodeId =>
      simp [State.applied, State.interp, State.pending, answerReads, State.readsAt,
        ReadReq.isReq, hr, hq]
    | req v op nodeId =>
      rcases Nat.lt_trichotomy (points r) (s.version + 1) with hlt | heq | hgt
      · have hle : points r ≤ s.version := by omega
        have hle' : points r ≤ s.version + 1 := by omega
        simp [State.applied, State.interp, State.pending, answerReads, hr, hq, hle, hle']
      · have hle : ¬ s.version + 1 ≤ s.version := by omega
        simp [State.applied, State.interp, State.pending, answerReads, State.readsAt,
          ReadReq.isReq, hr, hq, heq, hle]
      · have hle : ¬ points r ≤ s.version := by omega
        have hle' : ¬ points r ≤ s.version + 1 := by omega
        have hne : points r ≠ s.version + 1 := by omega
        simp [State.applied, State.interp, State.pending, answerReads, State.readsAt, hr, hq,
          hle, hle', hne]
  | none =>
    cases hu : s.updateReqs r with
    | some op => simp [State.applied, State.interp, State.pending, answerReads, hr, hq, hu]
    | none =>
      cases hp : s.updateResps r with
      | none => simp [State.applied, State.interp, State.pending, answerReads, hr, hq, hu, hp]
      | some idx =>
        have hne : idx ≠ s.version := fun h ↦ hr (hinv.resp_inj r rid idx hp (h ▸ hrid))
        have hiff : idx < s.version + 1 ↔ idx < s.version := by omega
        simp only [State.applied, State.interp, State.pending, answerReads,
          PMap.remove_of_ne _ hr, hq, hu, hp, hiff]
        split
        · rfl
        · cases s.log[idx]? <;> rfl

private theorem answered_succ (hinv : Inv s) (points : ReadPoints)
    (hrid : s.updateResps rid = some s.version) (hop : s.log[s.version]? = some op) :
    { s with version := s.version + 1 }.answered points =
      (answerReads (s.applied points rid op) (s.readsAt points (s.version + 1))).resps := by
  obtain ⟨hread, hupd⟩ := owner_only_resp hinv hrid
  have hnext : s.nrstateAtVersion (s.version + 1) =
      (DT.dispatchMutSpec (s.nrstateAtVersion s.version) op).1 :=
    computeNrstateAtVersion_succ hop
  funext r
  by_cases hr : r = rid
  · subst hr
    simp [State.applied, State.interp, State.answered, State.updateResult, answerReads,
      takeEffect, hread, hrid, hop]
    rfl
  cases hq : s.readonlyReqs r with
  | some q =>
    cases q with
    | init op nodeId =>
      simp [State.applied, State.interp, State.pending, State.answered, answerReads,
        State.readsAt, ReadReq.isReq, hr, hq]
    | req v op nodeId =>
      rcases Nat.lt_trichotomy (points r) (s.version + 1) with hlt | heq | hgt
      · have hle : points r ≤ s.version := by omega
        have hle' : points r ≤ s.version + 1 := by omega
        simp [State.applied, State.interp, State.pending, State.answered, answerReads, hr, hq,
          hle, hle']
        rfl
      · have hle : ¬ s.version + 1 ≤ s.version := by omega
        simp [State.applied, State.interp, State.pending, State.answered, answerReads,
          State.readsAt, ReadReq.isReq, takeEffect, hr, hq, heq, hle, ← hnext]
        rfl
      · have hle : ¬ points r ≤ s.version := by omega
        have hle' : ¬ points r ≤ s.version + 1 := by omega
        have hne : points r ≠ s.version + 1 := by omega
        simp [State.applied, State.interp, State.pending, State.answered, answerReads,
          State.readsAt, hr, hq, hle, hle', hne]
  | none =>
    -- An update is not selected, so answering reads leaves its result alone.
    have hkeep : (answerReads (s.applied points rid op)
        (s.readsAt points (s.version + 1))).resps r = s.answered points r := by
      have hwho : ¬ s.readsAt points (s.version + 1) r := by simp [State.readsAt, hq]
      simp only [State.applied, State.interp, answerReads, PMap.remove_of_ne _ hr,
        PMap.insert_of_ne _ _ hr, if_neg hwho]
      split <;> rfl
    rw [hkeep]
    cases hp : s.updateResps r with
    | none => simp [State.answered, hq, hp]
    | some idx =>
      have hne : idx ≠ s.version := fun h ↦ hr (hinv.resp_inj r rid idx hp (h ▸ hrid))
      have hiff : idx < s.version + 1 ↔ idx < s.version := by omega
      simp only [State.answered, hq, hp, hiff]
      rfl

-- Advancing the version by one makes the update at that position take effect, and then the reads
-- guessed to see exactly it.
private theorem silent_interp_succ (hinv : Inv s) (points : ReadPoints)
    (hlt : s.version < s.log.length) :
    Silent (s.interp points) ({ s with version := s.version + 1 }.interp points) := by
  obtain ⟨rid, hrid⟩ := hinv.resp_complete s.version (Nat.le_refl _) hlt
  have hop : s.log[s.version]? = some s.log[s.version] := List.getElem?_eq_getElem hlt
  obtain ⟨hread, hupd⟩ := owner_only_resp hinv hrid
  have hreq : (s.interp points).reqs rid = some (.write s.log[s.version]) := by
    simp [State.interp, State.pending, hread, hupd, hrid, hop]
  have happly : Silent (s.interp points) (s.applied points rid s.log[s.version]) :=
    .single (.internalNext rid _ hreq)
  have hanswer := silent_answerReads (s.applied points rid s.log[s.version])
    (s.readsAt points (s.version + 1)) (readsAt_finite hinv points _)
  have heq : { s with version := s.version + 1 }.interp points =
      answerReads (s.applied points rid s.log[s.version])
        (s.readsAt points (s.version + 1)) := by
    ext1
    · exact computeNrstateAtVersion_succ hop
    · exact pending_succ hinv points hrid
    · exact answered_succ hinv points hrid hop
  rw [heq]
  exact happly.trans hanswer

/-- Advancing the version to any log position makes the updates on the way take effect. -/
theorem silent_interp_incr (hinv : Inv s) (points : ReadPoints) (n : Nat)
    (hle : s.version + n ≤ s.log.length) :
    Silent (s.interp points) ({ s with version := s.version + n }.interp points) := by
  induction n with
  | zero => exact .refl _
  | succ n ih =>
    have hinv' : Inv { s with version := s.version + n } :=
      hinv.next (.updateIncrVersion _ (Nat.le_add_right _ n) (by omega))
    exact (ih (by omega)).trans (silent_interp_succ hinv' points hle)

end IncrVersion

/-- `points` explains `s` as the atomic object `a`. -/
def Explains (s : State DT) (a : AsynchronousSingleton.State DT) : Prop :=
  ∃ points, s.Allows points ∧ a = s.interp points

section Steps

variable {s : State DT} {points : ReadPoints} {rid : ReqId}

-- One lemma per transition that is not a bump of the version.
private theorem step_readonlyStart (hfresh : s.Fresh rid) (op : DT.ReadOperation)
    (nodeId : NodeId) :
    AsynchronousSingleton.Next (s.interp points) (.start rid (.read op nodeId))
      ({ s with readonlyReqs := s.readonlyReqs.insert rid (.init op nodeId) }.interp points) := by
  obtain ⟨hread, hupd, hresp⟩ := hfresh
  have hnone : (s.interp points).reqs rid = none := by
    simp [State.interp, State.pending, hread, hupd, hresp]
  convert AsynchronousSingleton.Next.start rid (.read op nodeId) hnone using 1
  ext1
  · rfl
  · funext r
    by_cases hr : r = rid
    · simp [State.interp, State.pending, hr]
    · simp [State.interp, State.pending, hr]
  · funext r
    by_cases hr : r = rid
    · simp [State.interp, State.answered, hr, hread, hresp]
    · simp [State.interp, State.answered, State.updateResult, State.nrstateAtVersion, hr]

private theorem step_updateStart (hfresh : s.Fresh rid) (op : DT.WriteOperation) :
    AsynchronousSingleton.Next (s.interp points) (.start rid (.write op))
      ({ s with updateReqs := s.updateReqs.insert rid op }.interp points) := by
  obtain ⟨hread, hupd, hresp⟩ := hfresh
  have hnone : (s.interp points).reqs rid = none := by
    simp [State.interp, State.pending, hread, hupd, hresp]
  convert AsynchronousSingleton.Next.start rid (.write op) hnone using 1
  ext1
  · rfl
  · funext r
    by_cases hr : r = rid
    · simp [State.interp, State.pending, hr, hread]
    · simp [State.interp, State.pending, hr]
  · rfl

-- A read that records the version takes effect there and then if that is its point.
private theorem step_readonlyReadVersion {op : DT.ReadOperation} {nodeId : NodeId}
    (hreq : s.readonlyReqs rid = some (.init op nodeId))
    (hpoints : s.version ≤ points rid) :
    Silent (s.interp points)
      ({ s with readonlyReqs := s.readonlyReqs.insert rid (.req s.version op nodeId) }.interp
        points) := by
  have hpend : (s.interp points).reqs rid = some (.read op nodeId) := by
    simp [State.interp, State.pending, hreq]
  by_cases hnow : points rid = s.version
  · refine .single ?_
    convert AsynchronousSingleton.Next.internalNext rid _ hpend using 1
    ext1
    · rfl
    · funext r
      by_cases hr : r = rid
      · simp [State.interp, State.pending, hr, hnow]
      · simp [State.interp, State.pending, hr]
    · funext r
      by_cases hr : r = rid
      · simp [State.interp, State.answered, State.nrstateAtVersion, takeEffect, hr, hnow]
      · simp [State.interp, State.answered, State.updateResult, State.nrstateAtVersion, hr]
  · have hlater : ¬ points rid ≤ s.version := by omega
    have heq : { s with readonlyReqs :=
        s.readonlyReqs.insert rid (.req s.version op nodeId) }.interp points =
        s.interp points := by
      ext1
      · rfl
      · funext r
        by_cases hr : r = rid
        · simp [State.interp, State.pending, hr, hreq, hlater]
        · simp [State.interp, State.pending, hr]
      · funext r
        by_cases hr : r = rid
        · simp [State.interp, State.answered, hr, hreq, hlater]
        · simp [State.interp, State.answered, State.updateResult, State.nrstateAtVersion, hr]
    rw [heq]
    exact .refl _

-- A finished read took effect at the version it returns at, which is thereby its point.
private theorem step_readonlyFinish (hinv : Inv s) {version current : Nat}
    {op : DT.ReadOperation} {nodeId : NodeId}
    (hreq : s.readonlyReqs rid = some (.req current op nodeId))
    (hversion : version ≤ s.version) :
    AsynchronousSingleton.Next (s.interp (Function.update points rid version))
      (.done rid (.read (DT.dispatchSpec (s.nrstateAtVersion version) op)))
      ({ s with readonlyReqs := s.readonlyReqs.remove rid }.interp points) := by
  obtain ⟨hupd, hresp⟩ := hinv.read_update rid (by simp [hreq])
  have hdone : (s.interp (Function.update points rid version)).resps rid =
      some (.read (DT.dispatchSpec (s.nrstateAtVersion version) op)) := by
    simp [State.interp, State.answered, hreq, hversion]
  convert AsynchronousSingleton.Next.done rid _ hdone using 1
  ext1
  · rfl
  · funext r
    by_cases hr : r = rid
    · subst hr
      simp [State.interp, State.pending, hreq, hupd, hresp, hversion]
    · simp [State.interp, State.pending, hr]
  · funext r
    by_cases hr : r = rid
    · subst hr
      simp [State.interp, State.answered, hresp]
    · simp [State.interp, State.answered, State.updateResult, State.nrstateAtVersion, hr]

-- Logging an update is invisible to the object: it has not taken effect yet.
private theorem interp_updateAddOpToLog (hinv : Inv s) {op : DT.WriteOperation}
    (hreq : s.updateReqs rid = some op) :
    { s with
      log := s.log ++ [op]
      updateReqs := s.updateReqs.remove rid
      updateResps := s.updateResps.insert rid s.log.length }.interp points =
      s.interp points := by
  have hver := hinv.version_le
  have hresp : s.updateResps rid = none := hinv.req_resp rid (by simp [hreq])
  have hread : s.readonlyReqs rid = none := by
    by_contra h
    simp [(hinv.read_update rid h).1] at hreq
  have hnr : ∀ v, v ≤ s.log.length → computeNrstateAtVersion (s.log ++ [op]) v =
      computeNrstateAtVersion s.log v := fun v hv ↦ computeNrstateAtVersion_append _ _ hv
  ext1
  · exact hnr s.version hver
  · funext r
    by_cases hr : r = rid
    · subst hr
      have hge : ¬ s.log.length < s.version := by omega
      simp [State.interp, State.pending, hread, hreq, hge]
    · cases hp : s.updateResps r with
      | none => simp [State.interp, State.pending, hr, hp]
      | some idx =>
        have hlt := hinv.resp_lt r idx hp
        simp [State.interp, State.pending, hr, hp, List.getElem?_append_left hlt]
  · funext r
    by_cases hr : r = rid
    · subst hr
      have hge : ¬ s.log.length < s.version := by omega
      simp [State.interp, State.answered, hread, hresp, hge]
    · cases hq : s.readonlyReqs r with
      | some q =>
        cases q with
        | init op' nodeId => simp [State.interp, State.answered, hq]
        | req v op' nodeId =>
          by_cases hle : points r ≤ s.version
          · simp [State.interp, State.answered, State.nrstateAtVersion, hq, hle,
              hnr _ (hle.trans hver)]
          · simp [State.interp, State.answered, hq, hle]
      | none =>
        cases hp : s.updateResps r with
        | none => simp [State.interp, State.answered, hr, hq, hp]
        | some idx =>
          have hlt := hinv.resp_lt r idx hp
          simp [State.interp, State.answered, State.updateResult, State.nrstateAtVersion, hr,
            hq, hp, List.getElem?_append_left hlt, hnr _ (Nat.le_of_lt hlt)]

private theorem step_updateFinish (hinv : Inv s) {uidx : Nat} {op : DT.WriteOperation}
    (hresp : s.updateResps rid = some uidx) (hdone : uidx < s.version)
    (hop : s.log[uidx]? = some op) :
    AsynchronousSingleton.Next (s.interp points)
      (.done rid (.write (DT.dispatchMutSpec (s.nrstateAtVersion uidx) op).2))
      ({ s with updateResps := s.updateResps.remove rid }.interp points) := by
  have hread : s.readonlyReqs rid = none := by
    by_contra h
    simp [(hinv.read_update rid h).2] at hresp
  have hupd : s.updateReqs rid = none := by
    by_contra h
    simp [hinv.req_resp rid h] at hresp
  have hres : (s.interp points).resps rid =
      some (.write (DT.dispatchMutSpec (s.nrstateAtVersion uidx) op).2) := by
    simp [State.interp, State.answered, State.updateResult, hread, hresp, hdone, hop]
  convert AsynchronousSingleton.Next.done rid _ hres using 1
  ext1
  · rfl
  · funext r
    by_cases hr : r = rid
    · subst hr
      simp [State.interp, State.pending, hread, hupd, hresp, hdone]
    · simp [State.interp, State.pending, hr]
  · funext r
    by_cases hr : r = rid
    · subst hr
      simp [State.interp, State.answered, hread]
    · simp [State.interp, State.answered, State.updateResult, State.nrstateAtVersion, hr]

end Steps

-- One step of the simple log, read backward: any explanation of its end extends to one of its
-- start.
private theorem step_explains {s t : State DT} {label : AsyncLabel DT} (hinv : Inv s)
    (hstep : Next s label t) {b : AsynchronousSingleton.State DT} (hb : Explains t b) :
    ∃ a ms, Explains s a ∧ (AsynchronousSingleton.machine DT).Run a ms b ∧
      ms.filter AsyncLabel.visible = [label].filter AsyncLabel.visible := by
  obtain ⟨points, hallows, rfl⟩ := hb
  have hsilent : label = .internal → s.Allows points → Silent (s.interp points) (t.interp points) →
      ∃ a ms, Explains s a ∧ (AsynchronousSingleton.machine DT).Run a ms (t.interp points) ∧
        ms.filter AsyncLabel.visible = [label].filter AsyncLabel.visible := by
    rintro rfl hs ⟨ms, hrun, hms⟩
    exact ⟨_, ms, ⟨points, hs, rfl⟩, hrun, by rw [hms]; rfl⟩
  have hsingle : ∀ points', s.Allows points' →
      AsynchronousSingleton.Next (s.interp points') label (t.interp points) →
      ∃ a ms, Explains s a ∧ (AsynchronousSingleton.machine DT).Run a ms (t.interp points) ∧
        ms.filter AsyncLabel.visible = [label].filter AsyncLabel.visible :=
    fun points' hs hnext ↦ ⟨_, [label], ⟨points', hs, rfl⟩, .single hnext, rfl⟩
  cases hstep with
  | readonlyStart rid nodeId op hfresh =>
    refine hsingle points (fun r v op' nodeId' hr ↦ ?_) (step_readonlyStart hfresh op nodeId)
    have hne : r ≠ rid := fun h ↦ by simp [h, hfresh.1] at hr
    exact hallows r v op' nodeId' (by simpa [hne] using hr)
  | readonlyReadVersion rid op nodeId hreq =>
    refine hsilent rfl (fun r v op' nodeId' hr ↦ ?_) (step_readonlyReadVersion hreq ?_)
    · have hne : r ≠ rid := fun h ↦ by simp [h, hreq] at hr
      exact hallows r v op' nodeId' (by simpa [hne] using hr)
    · exact hallows rid s.version op nodeId (by simp)
  | readonlyFinish rid version ret current op nodeId hreq hreplica hcurrent hlog hversion hret =>
    subst hret
    refine hsingle _ (fun r v op' nodeId' hr ↦ ?_) (step_readonlyFinish hinv hreq hversion)
    by_cases heq : r = rid
    · subst heq
      rw [hreq] at hr
      cases hr
      simpa using hcurrent
    · rw [Function.update_of_ne heq]
      exact hallows r v op' nodeId' (by simpa [heq] using hr)
  | readonlyViewOob => exact hsilent rfl hallows (.refl _)
  | updateStart rid op hfresh => exact hsingle points hallows (step_updateStart hfresh op)
  | updateAddOpToLog rid op hreq =>
    refine hsilent rfl hallows ?_
    rw [interp_updateAddOpToLog hinv hreq]
    exact .refl _
  | updateIncrVersion newVersion hmono hlog =>
    obtain ⟨n, rfl⟩ := Nat.exists_eq_add_of_le hmono
    exact hsilent rfl hallows (silent_interp_incr hinv points n hlog)
  | updateFinish rid ret uidx op hresp hdone hlog hop hret =>
    subst hret
    exact hsingle points hallows (step_updateFinish hinv hresp hdone hop)
  | updateReplicaUpdate => exact hsilent rfl hallows (.refl _)
  | noOp => exact hsilent rfl hallows (.refl _)

/-- The explanations form a backward simulation of the simple log by the atomic object. -/
theorem backwardSim : BackwardSim (machine DT) (AsynchronousSingleton.machine DT)
    AsyncLabel.visible Explains where
  init := by
    rintro s a ⟨numReplicas, rfl⟩ ⟨points, _, rfl⟩
    rfl
  total := by
    intro s hs
    have hinv := inv_of_reachable hs
    exact ⟨_, fun _ ↦ s.version, fun rid v op nodeId h ↦ hinv.read_le rid v op nodeId h, rfl⟩
  step := fun _ _ _ _ hs hstep hb ↦ step_explains (inv_of_reachable hs) hstep hb

/-- The simple log is linearizable: every finite run has a run of the atomic object with the
same requests, results and order of both. -/
theorem simpleLog_linearizable {s t : State DT} {labels : List (AsyncLabel DT)}
    (hinit : (machine DT).init s) (hrun : (machine DT).Run s labels t) :
    ∃ a labels' b, (AsynchronousSingleton.machine DT).init a ∧
      (AsynchronousSingleton.machine DT).Run a labels' b ∧
      labels'.filter AsyncLabel.visible = labels.filter AsyncLabel.visible :=
  backwardSim.run hinit hrun

/-- A read that started before an update and returns its effect. -/
theorem simpleLog_linearizable_overlapping_read : ∃ a labels b,
    (AsynchronousSingleton.machine counter).init a ∧
    (AsynchronousSingleton.machine counter).Run a labels b ∧
    labels.filter AsyncLabel.visible =
      [.start 0 (.read () 0), .start 1 (.write (5 : Nat)), .done 0 (.read (5 : Nat))] := by
  have hrun : ∃ t, (machine counter).Run (initialState counter 1)
      [.start 0 (.read () 0), .internal, .start 1 (.write (5 : Nat)), .internal, .internal,
        .internal, .done 0 (.read (5 : Nat))] t := by
    refine ⟨?_, .cons (.readonlyStart 0 0 _ ⟨rfl, rfl, rfl⟩) ?_⟩
    rotate_left
    refine .cons (.readonlyReadVersion 0 _ 0 rfl) ?_
    refine .cons (.updateStart 1 _ ⟨rfl, rfl, rfl⟩) ?_
    refine .cons (.updateAddOpToLog 1 _ rfl) ?_
    refine .cons (.updateIncrVersion 1 (by decide) (by decide)) ?_
    refine .cons
      (.updateReplicaUpdate 0 1 (by decide) (fun v h ↦ by cases h; decide) (by decide)) ?_
    refine .cons (.readonlyFinish 0 1 _ 0 _ 0 rfl (fun v h ↦ by cases h; decide)
      (by decide) (by decide) (by decide) rfl) ?_
    exact .nil _
  obtain ⟨t, hrun⟩ := hrun
  exact simpleLog_linearizable ⟨1, rfl⟩ hrun

end SimpleLog

end NrKernel.NodeReplication
