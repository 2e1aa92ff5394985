import NrKernel.NodeReplication.Types

/-!
# The atomic object

The machine a client is promised: a single copy of the data structure on which every
request takes effect in one internal step between its start and its end. Model of
`AsynchronousSingleton` (`lib.rs:565–625`). The source text predates the replica argument
of a read request, which the object ignores.
-/

namespace NrKernel.NodeReplication

open Lib

universe u

variable {DT : Dispatch.{u}}

namespace AsynchronousSingleton

variable (DT) in
/-- The copy of the data structure, the pending requests and the unclaimed results
(`lib.rs:566–570`). -/
@[ext] structure State where
  state : DT.View
  reqs : PMap ReqId (InputOperation DT)
  resps : PMap ReqId (OutputOperation DT)

variable (DT) in
/-- Nothing requested yet (`lib.rs:574–580`). -/
def initialState : State DT := ⟨DT.initSpec, .empty, .empty⟩

/-- What an operation returns and the copy it leaves (the `match` of `lib.rs:590–599`). -/
def takeEffect (view : DT.View) : InputOperation DT → DT.View × OutputOperation DT
  | .read op _ => (view, .read (DT.dispatchSpec view op))
  | .write op => ((DT.dispatchMutSpec view op).1, .write (DT.dispatchMutSpec view op).2)

/-- Transitions of the atomic object (`lib.rs:582–624`). -/
inductive Next : State DT → AsyncLabel DT → State DT → Prop
  | internalNext {pre : State DT} (rid : ReqId) (input : InputOperation DT)
      (hreq : pre.reqs rid = some input) :
      Next pre .internal
        { state := (takeEffect pre.state input).1
          reqs := pre.reqs.remove rid
          resps := pre.resps.insert rid (takeEffect pre.state input).2 }
  | noOp {pre : State DT} : Next pre .internal pre
  | start {pre : State DT} (rid : ReqId) (input : InputOperation DT)
      (hfresh : pre.reqs rid = none) :
      Next pre (.start rid input) { pre with reqs := pre.reqs.insert rid input }
  | done {pre : State DT} (rid : ReqId) (output : OutputOperation DT)
      (hresp : pre.resps rid = some output) :
      Next pre (.done rid output) { pre with resps := pre.resps.remove rid }

variable (DT) in
/-- The atomic object as a machine. -/
def machine : Machine (State DT) (AsyncLabel DT) where
  init := fun s ↦ s = initialState DT
  step := Next

/-- `b` is reached from `a` by steps a client does not observe. -/
def Silent (a b : State DT) : Prop :=
  ∃ ms, (machine DT).Run a ms b ∧ ms.filter AsyncLabel.visible = []

/-- The empty run is silent. -/
theorem Silent.refl (a : State DT) : Silent a a := ⟨[], .nil a, rfl⟩

/-- Silent runs compose. -/
theorem Silent.trans {a b c : State DT} (h : Silent a b) (h' : Silent b c) : Silent a c := by
  obtain ⟨ms, hrun, hms⟩ := h
  obtain ⟨ks, hrun', hks⟩ := h'
  exact ⟨ms ++ ks, hrun.append hrun', by rw [List.filter_append, hms, hks, List.append_nil]⟩

/-- An internal step is silent. -/
theorem Silent.single {a b : State DT} (h : Next a .internal b) : Silent a b :=
  ⟨[.internal], .single h, rfl⟩

/-- Let every pending read that `who` selects take effect on the current copy. -/
def answerReads (a : State DT) (who : ReqId → Prop) [DecidablePred who] : State DT where
  state := a.state
  reqs := fun rid ↦
    match a.reqs rid with
    | some (.read op nodeId) => if who rid then none else some (.read op nodeId)
    | input => input
  resps := fun rid ↦
    match a.reqs rid with
    | some (.read op _) =>
      if who rid then some (.read (DT.dispatchSpec a.state op)) else a.resps rid
    | _ => a.resps rid

private theorem answerReads_congr (a : State DT) {who who' : ReqId → Prop}
    [DecidablePred who] [DecidablePred who']
    (h : ∀ rid op nodeId, a.reqs rid = some (.read op nodeId) → (who rid ↔ who' rid)) :
    answerReads a who = answerReads a who' := by
  ext1
  · rfl
  · funext rid
    simp only [answerReads]
    split
    · next op nodeId hreq => simp only [h rid op nodeId hreq]
    · rfl
  · funext rid
    simp only [answerReads]
    split
    · next op nodeId hreq => simp only [h rid op nodeId hreq]
    · rfl

private theorem answerReads_false (a : State DT) : answerReads a (fun _ ↦ False) = a := by
  ext1
  · rfl
  · funext rid
    simp only [answerReads, if_false]
    split
    · next hreq => exact hreq.symm
    · rfl
  · funext rid
    simp only [answerReads, if_false]
    split <;> rfl

private theorem silent_answerReads_or (a : State DT) (who : ReqId → Prop) [DecidablePred who]
    {x : ReqId} {op : DT.ReadOperation} {nodeId : NodeId} (hx : ¬ who x)
    (hreq : a.reqs x = some (.read op nodeId)) :
    Silent (answerReads a who) (answerReads a fun rid ↦ who rid ∨ rid = x) := by
  have hreq' : (answerReads a who).reqs x = some (.read op nodeId) := by
    simp [answerReads, hreq, hx]
  have hstep := Next.internalNext x _ hreq'
  have heq : answerReads a (fun rid ↦ who rid ∨ rid = x) =
      { state := (takeEffect (answerReads a who).state (.read op nodeId)).1
        reqs := (answerReads a who).reqs.remove x
        resps := (answerReads a who).resps.insert x
          (takeEffect (answerReads a who).state (.read op nodeId)).2 } := by
    ext1
    · rfl
    · funext rid
      by_cases hrid : rid = x
      · subst hrid
        simp [answerReads, hreq]
      · simp [answerReads, hrid]
    · funext rid
      by_cases hrid : rid = x
      · subst hrid
        simp [answerReads, hreq, takeEffect]
      · simp [answerReads, hrid]
  rw [heq]
  exact .single hstep

-- Induction on the list of candidates; `who` cuts it down to the selected ones.
private theorem silent_answerReads_list (a : State DT) (who : ReqId → Prop) [DecidablePred who]
    (rids : List ReqId) : Silent a (answerReads a fun rid ↦ who rid ∧ rid ∈ rids) := by
  induction rids with
  | nil =>
    have heq : answerReads a (fun rid ↦ who rid ∧ rid ∈ ([] : List ReqId)) = a :=
      (answerReads_congr a fun _ _ _ _ ↦ by simp).trans (answerReads_false a)
    rw [heq]
    exact .refl a
  | cons x rids ih =>
    by_cases hnew : who x ∧ x ∉ rids ∧ ∃ op nodeId, a.reqs x = some (.read op nodeId)
    · obtain ⟨hx, hmem, op, nodeId, hreq⟩ := hnew
      have hstep := silent_answerReads_or a (fun rid ↦ who rid ∧ rid ∈ rids)
        (fun h ↦ hmem h.2) hreq
      have heq : answerReads a (fun rid ↦ who rid ∧ rid ∈ x :: rids) =
          answerReads a (fun rid ↦ (who rid ∧ rid ∈ rids) ∨ rid = x) :=
        answerReads_congr a fun rid _ _ _ ↦ by
          by_cases hrid : rid = x
          · simp [hrid, hx]
          · simp [hrid]
      rw [heq]
      exact ih.trans hstep
    · have heq : answerReads a (fun rid ↦ who rid ∧ rid ∈ x :: rids) =
          answerReads a (fun rid ↦ who rid ∧ rid ∈ rids) :=
        answerReads_congr a fun rid op nodeId hreq ↦ by
          by_cases hrid : rid = x
          · subst hrid
            simp only [List.mem_cons, true_or, and_true]
            exact ⟨fun h ↦ ⟨h, by_contra fun hm ↦ hnew ⟨h, hm, op, nodeId, hreq⟩⟩, And.left⟩
          · simp [hrid]
      rw [heq]
      exact ih

/-- Reads commute: finitely many pending reads can take effect one after the other, leaving
the copy as it is. -/
theorem silent_answerReads (a : State DT) (who : ReqId → Prop) [DecidablePred who]
    (hfin : {rid | who rid}.Finite) : Silent a (answerReads a who) := by
  have h := silent_answerReads_list a who hfin.toFinset.toList
  have heq : answerReads a (fun rid ↦ who rid ∧ rid ∈ hfin.toFinset.toList) =
      answerReads a who :=
    answerReads_congr a fun _ _ _ _ ↦ by simp
  rwa [heq] at h

end AsynchronousSingleton

end NrKernel.NodeReplication
