import NrKernel.Lib.Linearizability
import NrKernel.Lib.TraceInclusion
import NrKernel.NodeReplication.ReplicaRefinesNrLog
import NrKernel.NodeReplication.SoloRuns
import NrKernel.NodeReplication.UnboundedLogRefinesSimpleLog

/-!
# The replicated data structure is linearizable

The refinements, one on top of the other: the threads of the replicas run the executable log,
which implements the unbounded log, which refines the simple log, whose runs look like runs of
the atomic object (`lib.rs:60–90`, theorems 1 to 3). So the calls of `execute` and `execute_mut`,
by any threads on any number of replicas, have an order that explains their responses and keeps
the order of calls that do not overlap.
-/

namespace NrKernel.NodeReplication

open Lib Lib.Linearizability

universe u

variable {DT : Dispatch.{u}}

/-! ## What clients see -/

/-- The call or return a label shows. -/
def AsyncLabel.event : AsyncLabel DT → Option (Event ReqId (InputOperation DT) (OutputOperation DT))
  | .internal => none
  | .start rid input => some (.call rid input)
  | .done rid output => some (.ret rid output)

private theorem AsyncLabel.event_of_not_visible {label : AsyncLabel DT}
    (h : label.visible = false) : label.event = none := by
  cases label with
  | internal => rfl
  | start => cases h
  | done => cases h

/-- Labels that agree on what is visible show the same events. -/
theorem AsyncLabel.events_congr {labels labels' : List (AsyncLabel DT)}
    (h : labels.filter AsyncLabel.visible = labels'.filter AsyncLabel.visible) :
    labels.filterMap AsyncLabel.event = labels'.filterMap AsyncLabel.event := by
  have hvis : ∀ ls : List (AsyncLabel DT),
      ls.filterMap AsyncLabel.event =
        (ls.filter AsyncLabel.visible).filterMap AsyncLabel.event := by
    intro ls
    rw [List.filterMap_filter]
    refine List.filterMap_congr fun l _ ↦ ?_
    by_cases hl : l.visible = true
    · rw [if_pos hl]
    · rw [if_neg hl, AsyncLabel.event_of_not_visible (eq_false_of_ne_true hl)]
  rw [hvis labels, h, ← hvis labels']

variable (DT) in
/-- The data structure as an object of one client. -/
def object : SeqObject DT.View (InputOperation DT) (OutputOperation DT) :=
  ⟨DT.initSpec, AsynchronousSingleton.takeEffect⟩

/-- The atomic object of `lib.rs` is the atomic object of the data structure. -/
theorem AsynchronousSingleton.implements_atomic : Implements (AsynchronousSingleton.machine DT)
    (atomic ReqId (object DT)) AsyncLabel.event id := by
  have href : Refines (AsynchronousSingleton.machine DT) (atomic ReqId (object DT))
      (fun s ↦ ⟨s.state, s.reqs, s.resps⟩) fun _ ↦ AsyncLabel.event := by
    constructor
    · intro s hs
      obtain rfl : s = AsynchronousSingleton.initialState DT := hs
      rfl
    · intro s label t _ hstep
      cases hstep with
      | internalNext rid input hreq => exact .takeEffect rid input hreq
      | noOp => exact .stutter
      | start rid input hfresh => exact .call rid input hfresh
      | done rid output hresp => exact .ret rid output hresp
  exact href.implements fun _ ↦ rfl

namespace Replica

/-! ## The refinements -/

private theorem Shows.event_eq {log : NrLog.State DT} {label : Label DT} {l : NrLog.Label DT}
    (h : Shows log label l) : l.async.event = label.event := by
  cases l with
  | reserve n tail ops =>
    obtain ⟨t, _, rfl⟩ := h
    rfl
  | internal | start | done | dispatch =>
    obtain rfl := h
    rfl

/-- The log with the labels of the replicas implements the unbounded log. -/
theorem logMachine_implements_unboundedLog :
    Implements (logMachine DT) (UnboundedLog.machine DT) Label.event AsyncLabel.event := by
  have hsim : ForwardSim (logMachine DT) (UnboundedLog.machine DT)
      (fun label ks ↦ ks.filterMap AsyncLabel.event = [label].filterMap Label.event)
      NrLog.Implements := by
    constructor
    · exact NrLog.forwardSim.init
    · intro log label log' u hR hstep
      rcases hstep with ⟨rfl, rfl⟩ | ⟨l, hstep, hshows⟩
      · exact ⟨[], u, rfl, .nil u, hR⟩
      · obtain ⟨ks, u', hok, hrun, hR'⟩ := NrLog.forwardSim.step _ _ _ _ hR hstep
        refine ⟨ks, u', ?_, hrun, hR'⟩
        rw [AsyncLabel.events_congr hok, List.filterMap_cons, List.filterMap_cons,
          hshows.event_eq, List.filterMap_nil, List.filterMap_nil]
  exact hsim.implements fun _ _ h ↦ h

/-- The unbounded log implements the atomic object. -/
theorem unboundedLog_implements_singleton : Implements (UnboundedLog.machine DT)
    (AsynchronousSingleton.machine DT) AsyncLabel.event AsyncLabel.event := by
  have href : Refines (UnboundedLog.machine DT) (SimpleLog.machine DT)
      UnboundedLog.State.interp fun _ label ↦ label := by
    constructor
    · rintro s ⟨numberOfNodes, _, rfl⟩
      exact ⟨numberOfNodes, UnboundedLog.interp_initialState numberOfNodes⟩
    · exact fun _ _ _ hs hstep ↦ UnboundedLog.interp_next (UnboundedLog.inv_of_reachable hs) hstep
  have hlin : Implements (SimpleLog.machine DT) (AsynchronousSingleton.machine DT)
      AsyncLabel.event AsyncLabel.event :=
    SimpleLog.backwardSim.implements fun _ ↦ AsyncLabel.event_of_not_visible
  exact (href.implements fun _ ↦ rfl).trans hlin

/-- The log with the labels of the replicas implements the atomic object. -/
theorem logMachine_implements_singleton : Implements (logMachine DT)
    (AsynchronousSingleton.machine DT) Label.event AsyncLabel.event :=
  logMachine_implements_unboundedLog.trans unboundedLog_implements_singleton

/-- The replicas, their threads and the log together implement the atomic object: every run of
any number of replicas shows the calls and returns of a run of a single copy of the data
structure. -/
theorem replicas_implement_singleton : Implements (machine DT) (AsynchronousSingleton.machine DT)
    Label.event AsyncLabel.event :=
  (refines_logMachine.implements fun _ ↦ rfl).trans logMachine_implements_singleton

/-! ## Histories -/

section Histories

variable {log log' : NrLog.State DT} {l : NrLog.Label DT} {rid : ReqId}

/-- A request that did not return. -/
def InFlight (log : NrLog.State DT) (rid : ReqId) : Prop :=
  log.readers rid ≠ none ∨ log.tickets rid ≠ none

private theorem distribute_ne_none {answers : List (ReqId × DT.Response)}
    {tickets : PMap ReqId (NrLog.Ticket DT)} (h : tickets rid ≠ none) :
    NrLog.distribute tickets answers rid ≠ none := by
  induction answers generalizing tickets with
  | nil => exact h
  | cons answer rest ih =>
    apply ih
    by_cases hrid : rid = answer.1
    · rw [hrid, PMap.insert_self]
      exact Option.some_ne_none _
    · rwa [PMap.insert_of_ne _ _ hrid]

private theorem insert_ne_none {V : Type*} {m : PMap ReqId V} {rid' : ReqId} {v : V}
    (h : m rid ≠ none) : m.insert rid' v rid ≠ none := by
  by_cases hrid : rid = rid'
  · rw [hrid, PMap.insert_self]
    exact Option.some_ne_none _
  · rwa [PMap.insert_of_ne _ _ hrid]

/-- A request stays in flight until it returns. -/
theorem InFlight.next (h : InFlight log rid) (hstep : NrLog.Next log l log')
    (hdone : ∀ output, l ≠ .done rid output) : InFlight log' rid := by
  have hremove : ∀ {V : Type u} {m : PMap ReqId V} {rid' : ReqId}, rid ≠ rid' → m rid ≠ none →
      m.remove rid' rid ≠ none := by
    intro V m rid' hne hm
    rwa [PMap.remove_of_ne _ hne]
  cases hstep with
  | combiner n t ht hcombiner =>
    rw [InFlight, hcombiner.frame.readers, hcombiner.frame.tickets]
    exact h
  | reader rid' hreader =>
    cases hreader <;> exact h.imp insert_ne_none id
  | startRead => exact h.imp insert_ne_none id
  | startWrite => exact h.imp id insert_ne_none
  | doneRead rid' ret hread =>
    have hne : rid ≠ rid' := fun heq ↦ hdone (.read ret) (by rw [heq])
    exact h.imp (hremove hne) id
  | doneWrite rid' ret hticket =>
    have hne : rid ≠ rid' := fun heq ↦ hdone (.write ret) (by rw [heq])
    exact h.imp id (hremove hne)
  | collect n t requestIds operations =>
    refine h.imp id fun htickets ↦ ?_
    change NrLog.collect log.tickets n requestIds rid ≠ none
    rw [NrLog.collect]
    split
    · exact Option.some_ne_none _
    · exact htickets
  | callExecute => exact h
  | distribute => exact h.imp id distribute_ne_none

/-- What a step of the log under a label of the replicas does to the requests in flight. -/
theorem LogStep.inFlight {label : Label DT} (hstep : LogStep log label log')
    (h : InFlight log rid) (hdone : ∀ output, label ≠ .done rid output) : InFlight log' rid := by
  rcases hstep with ⟨_, rfl⟩ | ⟨l, hstep, hshows⟩
  · exact h
  · refine h.next hstep fun output hl ↦ hdone output ?_
    subst hl
    exact hshows

/-- A call takes an identifier without a request in flight, and puts one there. -/
theorem LogStep.start {input : InputOperation DT} (hstep : LogStep log (.start rid input) log') :
    ¬ InFlight log rid ∧ InFlight log' rid := by
  rcases hstep with ⟨heq, _⟩ | ⟨l, hstep, hshows⟩
  · cases heq
  cases l with
  | start rid' input' =>
    cases hshows
    have hfresh := hstep.fresh
    refine ⟨fun h ↦ h.elim (· hfresh.1) (· hfresh.2), ?_⟩
    cases hstep with
    | combiner _ _ _ hcombiner => cases hcombiner
    | startRead rid op n =>
      exact .inl ((PMap.insert_self _ _ _).trans_ne (Option.some_ne_none _))
    | startWrite rid op =>
      exact .inr ((PMap.insert_self _ _ _).trans_ne (Option.some_ne_none _))
  | reserve n tail ops =>
    obtain ⟨_, _, heq⟩ := hshows
    cases heq
  | internal | done | dispatch => cases hshows

/-- Histories of the replicas are well formed: the identifier of a request in flight is not used
for another call. -/
theorem history_wellFormed {log₀ : NrLog.State DT} {labels : List (Label DT)}
    (hrun : (logMachine DT).Run log₀ labels log) : WellFormed (history labels) := by
  have hstart : WellFormed (history ([] : List (Label DT))) ∧
      ∀ id k op, OpenCall (history ([] : List (Label DT))) id k op → InFlight log₀ id := by
    constructor
    · intro k k' id op op' _ hk
      cases hk
    · rintro id k op ⟨hk, _⟩
      cases hk
  have hend : WellFormed (history labels) ∧
      ∀ id k op, OpenCall (history labels) id k op → InFlight log id := by
    refine hrun.history_nil (I := fun labels log ↦ WellFormed (history labels) ∧
      ∀ id k op, OpenCall (history labels) id k op → InFlight log id) hstart ?_
    rintro labels log label log' ⟨hwf, hopen⟩ hstep
    have hstep : LogStep log label log' := hstep
    have hkeep : label.event = none → WellFormed (history (labels ++ [label])) ∧
        ∀ id k op, OpenCall (history (labels ++ [label])) id k op → InFlight log' id := by
      intro hevent
      rw [history_snoc, hevent, Option.toList_none, List.append_nil]
      refine ⟨hwf, fun id k op hcall ↦ hstep.inFlight (hopen id k op hcall) ?_⟩
      rintro output rfl
      cases hevent
    cases label with
    | internal => exact hkeep rfl
    | reserve batch => exact hkeep rfl
    | start rid input =>
      rw [history_snoc]
      refine ⟨hwf.snoc_call fun k op hcall ↦ hstep.start.1 (hopen rid k op hcall), ?_⟩
      intro id k op hcall
      rcases hcall.of_snoc_call with hold | rfl
      · refine hstep.inFlight (hopen id k op hold) ?_
        rintro output ⟨⟩
      · exact hstep.start.2
    | done rid output =>
      rw [history_snoc]
      refine ⟨hwf.snoc_ret, fun id k op hcall ↦ ?_⟩
      obtain ⟨hold, hne⟩ := hcall.of_snoc_ret
      refine hstep.inFlight (hopen id k op hold) ?_
      rintro output' ⟨⟩
      exact hne rfl
  exact hend.1

end Histories

/-- The histories of the log with the labels of the replicas are linearizable. -/
theorem linearizable_of_logMachine {log₀ log : NrLog.State DT} {labels : List (Label DT)}
    (hinit : (logMachine DT).init log₀) (hrun : (logMachine DT).Run log₀ labels log) :
    WellFormed (history labels) ∧ Linearizable (object DT) (history labels) := by
  have hwf := history_wellFormed hrun
  refine ⟨hwf, ?_⟩
  obtain ⟨a, ks, b, hinit', hrun', heq⟩ :=
    (logMachine_implements_singleton.trans AsynchronousSingleton.implements_atomic) _ _ _ hinit hrun
  have hevents : events ks = history labels := heq
  rw [← hevents] at hwf ⊢
  exact linearizable_of_run hinit' hrun' hwf

/-- The log of a run of the replicas. -/
theorem logMachine_run {s₀ s : State DT} {labels : List (Label DT)} (hinit : (machine DT).init s₀)
    (hrun : (machine DT).Run s₀ labels s) :
    (logMachine DT).init s₀.log ∧ (logMachine DT).Run s₀.log labels s.log := by
  refine ⟨refines_logMachine.init s₀ hinit, ?_⟩
  have hlog := refines_logMachine.run (.of_init hinit) hrun
  rwa [List.map_id'] at hlog

/-- Node replication is linearizable: for every run of any number of replicas, threads and
requests, the calls that returned, and some of the others, have an order in which the sequential
data structure gives every response that was returned, and which keeps every two calls in order
of which the first one returned before the second one was made. -/
theorem replicas_linearizable {s₀ s : State DT} {labels : List (Label DT)}
    (hinit : (machine DT).init s₀) (hrun : (machine DT).Run s₀ labels s) :
    WellFormed (history labels) ∧ Linearizable (object DT) (history labels) := by
  obtain ⟨hinit', hrun'⟩ := logMachine_run hinit hrun
  exact linearizable_of_logMachine hinit' hrun'

/-- Two clients update and a third call reads what both did. -/
theorem replicas_linearizable_updates : ∃ labels s,
    (machine counter).Run (initialState counter 1) labels s ∧
    history labels = [.call 0 (.write (5 : Nat)), .call 1 (.write (7 : Nat)),
      .ret 0 (.write (0 : Nat)), .ret 1 (.write (5 : Nat)), .call 2 (.read () 0),
      .ret 2 (.read (12 : Nat))] ∧
    WellFormed (history labels) ∧ Linearizable (object counter) (history labels) := by
  obtain ⟨labels, s, hrun, hhistory⟩ := @exists_run_updates_read counter (5 : Nat) (7 : Nat) ()
  exact ⟨labels, s, hrun, hhistory, replicas_linearizable ⟨1, by decide, rfl⟩ hrun⟩

end Replica

end NrKernel.NodeReplication
