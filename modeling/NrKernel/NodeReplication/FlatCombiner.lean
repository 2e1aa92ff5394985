import NrKernel.NodeReplication.Types

/-!
# Flat combining

The protocol by which the threads of a replica hand their requests to a combiner and get the
responses back: a slot per thread, and a combiner that walks over all slots twice a round, once
to collect requests and once to answer what it collected. Model of the `FlatCombiner` state
machine in `spec/flat_combiner.rs`, its invariant, and what it gives along runs: every request
goes through its slot once, in one round.
-/

namespace NrKernel.NodeReplication

open Lib

namespace FlatCombiner

/-- Identifier of a thread within its replica (`lib.rs`, `ThreadId`). -/
abbrev ThreadId := Nat

/-- Phase of a client thread (`spec/flat_combiner.rs:16–21`). -/
inductive ClientState where
  | idle
  | waiting (rid : ReqId)

/-- Phase of a thread's slot (`spec/flat_combiner.rs:23–30`). -/
inductive SlotState where
  | empty
  | request (rid : ReqId)
  | inProgress (rid : ReqId)
  | response (rid : ReqId)

/-- The request in a slot that is not empty (`spec/flat_combiner.rs:32–41`). -/
def SlotState.reqId? : SlotState → Option ReqId
  | .empty => none
  | .request rid => some rid
  | .inProgress rid => some rid
  | .response rid => some rid

/-- Phase of the combiner: the slots looked at so far with what was collected from them, and in
the second walk the next slot to answer (`spec/flat_combiner.rs:43–48`). -/
inductive CombinerState where
  | collecting (elems : List (Option ReqId))
  | responding (elems : List (Option ReqId)) (idx : Nat)

/-- State of the machine (`spec/flat_combiner.rs:84–97`). -/
structure State where
  numThreads : Nat
  clients : PMap ThreadId ClientState
  slots : PMap ThreadId SlotState
  combiner : CombinerState

/-- Idle clients, empty slots and a combiner that has looked at none
(`spec/flat_combiner.rs:181–190`). -/
def initialState (numThreads : Nat) : State where
  numThreads := numThreads
  clients := fun i ↦ if i < numThreads then some .idle else none
  slots := fun i ↦ if i < numThreads then some .empty else none
  combiner := .collecting []

/-- Names of the transitions, with the thread and the request they are about. -/
inductive Label where
  | combinerCollectEmpty (tid : ThreadId)
  | combinerCollectRequest (tid : ThreadId) (rid : ReqId)
  | combinerRespondingStart
  | combinerRespondingEmpty (tid : ThreadId)
  | combinerRespondingResult (tid : ThreadId) (rid : ReqId)
  | combinerRespondingDone
  | sendRequest (tid : ThreadId) (rid : ReqId)
  | recvResponse (tid : ThreadId) (rid : ReqId)

/-- Transitions of the machine (`spec/flat_combiner.rs:199–345`). What the source asserts inside
a transition is not a guard; an element past the end of a sequence and the request of a slot that
is not in progress are unspecified. -/
inductive Next : State → Label → State → Prop
  | combinerCollectEmpty {pre : State} (elems : List (Option ReqId)) (slot : SlotState)
      (hcombiner : pre.combiner = .collecting elems) (hslot : pre.slots elems.length = some slot)
      (hempty : slot = .empty ∨ ∃ rid, slot = .response rid) :
      Next pre (.combinerCollectEmpty elems.length)
        { pre with combiner := .collecting (elems ++ [none]) }
  | combinerCollectRequest {pre : State} (elems : List (Option ReqId)) (rid : ReqId)
      (hcombiner : pre.combiner = .collecting elems)
      (hslot : pre.slots elems.length = some (.request rid)) :
      Next pre (.combinerCollectRequest elems.length rid)
        { pre with
          slots := pre.slots.insert elems.length (.inProgress rid)
          combiner := .collecting (elems ++ [some rid]) }
  | combinerRespondingStart {pre : State} (elems : List (Option ReqId))
      (hcombiner : pre.combiner = .collecting elems) (hall : elems.length = pre.numThreads) :
      Next pre .combinerRespondingStart { pre with combiner := .responding elems 0 }
  | combinerRespondingEmpty {pre : State} (elems : List (Option ReqId)) (tid : ThreadId)
      (hcombiner : pre.combiner = .responding elems tid) (htid : tid < pre.numThreads)
      (hnone : ∀ e, elems[tid]? = some e → e = none) :
      Next pre (.combinerRespondingEmpty tid)
        { pre with combiner := .responding elems (tid + 1) }
  | combinerRespondingResult {pre : State} (elems : List (Option ReqId)) (tid : ThreadId)
      (slot : SlotState) (rid : ReqId) (hcombiner : pre.combiner = .responding elems tid)
      (htid : tid < pre.numThreads) (hsome : ∀ e, elems[tid]? = some e → e ≠ none)
      (hslot : pre.slots tid = some slot) (hrid : ∀ r, slot = .inProgress r → rid = r) :
      Next pre (.combinerRespondingResult tid rid)
        { pre with
          slots := pre.slots.insert tid (.response rid)
          combiner := .responding elems (tid + 1) }
  | combinerRespondingDone {pre : State} (elems : List (Option ReqId)) (tid : ThreadId)
      (hcombiner : pre.combiner = .responding elems tid) (hall : tid = pre.numThreads) :
      Next pre .combinerRespondingDone { pre with combiner := .collecting [] }
  | sendRequest {pre : State} (tid : ThreadId) (rid : ReqId)
      (hclient : pre.clients tid = some .idle) (hslot : pre.slots tid = some .empty) :
      Next pre (.sendRequest tid rid)
        { pre with
          clients := pre.clients.insert tid (.waiting rid)
          slots := pre.slots.insert tid (.request rid) }
  | recvResponse {pre : State} (tid : ThreadId) (rid : ReqId)
      (hclient : pre.clients tid = some (.waiting rid))
      (hslot : pre.slots tid = some (.response rid)) :
      Next pre (.recvResponse tid rid)
        { pre with
          clients := pre.clients.insert tid .idle
          slots := pre.slots.insert tid .empty }

/-- Flat combining as a machine, any number of threads. -/
def machine : Machine State Label where
  init := fun s ↦ ∃ numThreads, s = initialState numThreads
  step := Next

/-! ## Invariant -/

/-- The current round collected the request from the slot of the thread and has not answered it
(`spec/flat_combiner.rs:141–171`). -/
def CombinerState.Unanswered (tid : ThreadId) (rid : ReqId) : CombinerState → Prop
  | .collecting elems => elems[tid]? = some (some rid)
  | .responding elems idx => idx ≤ tid ∧ elems[tid]? = some (some rid)

/-- How far the walks are (`spec/flat_combiner.rs:124–136`). -/
def CombinerState.Bounded (numThreads : Nat) : CombinerState → Prop
  | .collecting elems => elems.length ≤ numThreads
  | .responding elems idx => elems.length = numThreads ∧ idx ≤ elems.length

/-- The invariant (`spec/flat_combiner.rs:103–171`). -/
structure Inv (s : State) : Prop where
  clients_dom : ∀ i, (∃ c, s.clients i = some c) ↔ i < s.numThreads
  slots_dom : ∀ i, (∃ slot, s.slots i = some slot) ↔ i < s.numThreads
  waiting : ∀ tid rid, s.clients tid = some (.waiting rid) ↔
    ∃ slot, s.slots tid = some slot ∧ slot.reqId? = some rid
  bounded : s.combiner.Bounded s.numThreads
  inProgress : ∀ tid rid, s.slots tid = some (.inProgress rid) ↔ s.combiner.Unanswered tid rid

private theorem inv_initialState (numThreads : Nat) : Inv (initialState numThreads) where
  clients_dom := by simp [initialState]
  slots_dom := by simp [initialState]
  waiting := by
    intro tid rid
    by_cases htid : tid < numThreads
    · simp [initialState, htid, SlotState.reqId?]
    · simp [initialState, htid]
  bounded := Nat.zero_le numThreads
  inProgress := by
    intro tid rid
    simp [initialState, CombinerState.Unanswered]

section Preservation

variable {s t : State} {label : Label} {tid : ThreadId} {rid : ReqId} {elems : List (Option ReqId)}

private theorem dom_insert {V : Type} {m : PMap ThreadId V} {v : V} (w : V) (n : Nat)
    (hdom : ∀ i, (∃ u, m i = some u) ↔ i < n) (hv : m tid = some v) (i : ThreadId) :
    (∃ u, m.insert tid w i = some u) ↔ i < n := by
  by_cases hi : i = tid
  · subst hi
    simpa using (hdom i).mp ⟨v, hv⟩
  · simpa [hi] using hdom i

/-- The combiner may move on when no slot changes and the same requests are unanswered. -/
theorem Inv.setCombiner (h : Inv s) {c : CombinerState} (hbounded : c.Bounded s.numThreads)
    (hsame : ∀ tid rid, c.Unanswered tid rid ↔ s.combiner.Unanswered tid rid) :
    Inv { s with combiner := c } :=
  { h with
    bounded := hbounded
    inProgress := fun tid rid ↦ (h.inProgress tid rid).trans (hsame tid rid).symm }

/-- The combiner may change the phase of a slot that keeps its request. -/
theorem Inv.setSlot (h : Inv s) {slot slot' : SlotState} {c : CombinerState}
    (hslot : s.slots tid = some slot) (hreq : slot'.reqId? = slot.reqId?)
    (hbounded : c.Bounded s.numThreads)
    (hown : ∀ rid, slot' = .inProgress rid ↔ c.Unanswered tid rid)
    (hothers : ∀ i rid, i ≠ tid → (c.Unanswered i rid ↔ s.combiner.Unanswered i rid)) :
    Inv { s with slots := s.slots.insert tid slot', combiner := c } :=
  { h with
    slots_dom := dom_insert slot' s.numThreads h.slots_dom hslot
    waiting := by
      intro i rid
      by_cases hi : i = tid
      · subst hi
        simpa [hslot, hreq] using h.waiting i rid
      · simpa [hi] using h.waiting i rid
    bounded := hbounded
    inProgress := by
      intro i rid
      by_cases hi : i = tid
      · subst hi
        simpa using hown rid
      · simpa [hi] using (h.inProgress i rid).trans (hothers i rid hi).symm }

/-- A client may change its phase together with its slot, outside of a round. -/
theorem Inv.setClient (h : Inv s) {client client' : ClientState} {slot slot' : SlotState}
    (hclient : s.clients tid = some client) (hslot : s.slots tid = some slot)
    (hold : ∀ rid, slot ≠ .inProgress rid) (hnew : ∀ rid, slot' ≠ .inProgress rid)
    (hwaiting : ∀ rid, client' = .waiting rid ↔ slot'.reqId? = some rid) :
    Inv { s with
      clients := s.clients.insert tid client'
      slots := s.slots.insert tid slot' } :=
  { h with
    clients_dom := dom_insert client' s.numThreads h.clients_dom hclient
    slots_dom := dom_insert slot' s.numThreads h.slots_dom hslot
    waiting := by
      intro i rid
      by_cases hi : i = tid
      · subst hi
        simpa using hwaiting rid
      · simpa [hi] using h.waiting i rid
    inProgress := by
      intro i rid
      by_cases hi : i = tid
      · subst hi
        have hprogress := h.inProgress i rid
        rw [hslot, Option.some.injEq] at hprogress
        simpa [hnew rid] using fun hx ↦ hold rid (hprogress.mpr hx)
      · simpa [hi] using h.inProgress i rid }

/-- The slot of a collected element that is still to be answered is in progress with this
request: what `combiner_responding_result` asserts (`spec/flat_combiner.rs:261–276`). -/
theorem Inv.responding_slot (h : Inv s) (hcombiner : s.combiner = .responding elems tid)
    (htid : tid < s.numThreads)
    (hsome : ∀ e, elems[tid]? = some e → e ≠ none) :
    ∃ rid, elems[tid]? = some (some rid) ∧ s.slots tid = some (.inProgress rid) := by
  have hbounded := h.bounded
  rw [hcombiner] at hbounded
  have hlt : tid < elems.length := hbounded.1 ▸ htid
  have hget := List.getElem?_eq_getElem hlt
  obtain ⟨rid, hrid⟩ := Option.ne_none_iff_exists'.mp (hsome _ hget)
  rw [hrid] at hget
  refine ⟨rid, hget, (h.inProgress tid rid).mpr ?_⟩
  rw [hcombiner]
  exact ⟨Nat.le_refl tid, hget⟩

private theorem getElem?_snoc {e : Option ReqId} :
    (elems ++ [e])[tid]? = some (some rid) ↔
      elems[tid]? = some (some rid) ∨ tid = elems.length ∧ e = some rid := by
  rcases Nat.lt_trichotomy tid elems.length with hlt | rfl | hgt
  · rw [List.getElem?_append_left hlt]
    simp [hlt.ne]
  · simp
  · rw [List.getElem?_append_right hgt.le, List.getElem?_eq_none hgt.le]
    have hne : tid - elems.length ≠ 0 := (Nat.sub_pos_of_lt hgt).ne'
    simp [hne, hgt.ne']

private theorem bounded_snoc {e : Option ReqId} {n : Nat} (h : elems.length < n) :
    (CombinerState.collecting (elems ++ [e])).Bounded n := by
  rw [CombinerState.Bounded, List.length_append]
  exact h

/-- Every transition keeps the invariant. -/
theorem Inv.next (h : Inv s) (hstep : Next s label t) : Inv t := by
  have hbounded := h.bounded
  cases hstep with
  | combinerCollectEmpty elems slot hcombiner hslot hempty =>
    refine h.setCombiner (bounded_snoc ((h.slots_dom _).mp ⟨slot, hslot⟩)) fun tid rid ↦ ?_
    have hnone : ¬((none : Option ReqId) = some rid) := nofun
    rw [hcombiner, CombinerState.Unanswered, CombinerState.Unanswered, getElem?_snoc]
    tauto
  | combinerCollectRequest elems rid hcombiner hslot =>
    have hlt := (h.slots_dom _).mp ⟨_, hslot⟩
    refine h.setSlot hslot rfl (bounded_snoc hlt) (fun rid' ↦ ?_) fun i rid' hi ↦ ?_
    · have hpast : elems[elems.length]? = none := List.getElem?_eq_none (Nat.le_refl _)
      rw [CombinerState.Unanswered, getElem?_snoc, hpast]
      simp
    · rw [hcombiner, CombinerState.Unanswered, CombinerState.Unanswered, getElem?_snoc]
      tauto
  | combinerRespondingStart elems hcombiner hall =>
    refine h.setCombiner ⟨hall, Nat.zero_le _⟩ fun tid rid ↦ ?_
    rw [hcombiner]
    exact and_iff_right (Nat.zero_le tid)
  | combinerRespondingEmpty elems idx hcombiner htid hnone =>
    rw [hcombiner] at hbounded
    refine h.setCombiner ⟨hbounded.1, hbounded.1 ▸ htid⟩ fun tid rid ↦ ?_
    rw [hcombiner]
    refine and_congr_left fun hget ↦ ⟨Nat.le_of_succ_le, fun hle ↦ ?_⟩
    refine Nat.lt_of_le_of_ne hle ?_
    rintro rfl
    exact nomatch hnone _ hget
  | combinerRespondingResult elems idx slot rid hcombiner htid hsome hslot hrid =>
    obtain ⟨rid', hget, hprogress⟩ := h.responding_slot hcombiner htid hsome
    cases hslot.symm.trans hprogress
    obtain rfl := hrid rid' rfl
    rw [hcombiner] at hbounded
    refine h.setSlot hslot rfl ⟨hbounded.1, hbounded.1 ▸ htid⟩ (fun rid' ↦ ?_) fun i rid' hi ↦ ?_
    · exact iff_of_false nofun fun hx ↦ absurd hx.1 (Nat.not_succ_le_self idx)
    · rw [hcombiner]
      exact and_congr_left fun _ ↦
        ⟨Nat.le_of_succ_le, fun hle ↦ Nat.lt_of_le_of_ne hle (Ne.symm hi)⟩
  | combinerRespondingDone elems idx hcombiner hall =>
    rw [hcombiner] at hbounded
    refine h.setCombiner (Nat.zero_le _) fun tid rid ↦ ?_
    rw [hcombiner]
    refine iff_of_false nofun fun ⟨hle, hget⟩ ↦ ?_
    have hlt := (List.getElem?_eq_some_iff.mp hget).1
    rw [hbounded.1, ← hall] at hlt
    exact absurd hlt (Nat.not_lt.mpr hle)
  | sendRequest tid rid hclient hslot =>
    exact h.setClient hclient hslot nofun nofun fun rid' ↦ by simp [SlotState.reqId?]
  | recvResponse tid rid hclient hslot =>
    exact h.setClient hclient hslot nofun nofun fun rid' ↦ by simp [SlotState.reqId?]

end Preservation

/-- The invariant holds in every reachable state. -/
theorem inv_of_reachable {s : State} (h : machine.Reachable s) : Inv s := by
  refine h.invariant (I := Inv) ?_ fun _ _ _ hI hs ↦ hI.next hs
  rintro _ ⟨numThreads, rfl⟩
  exact inv_initialState numThreads

/-! ## Requests along a run -/

/-- What happens to a request in the slot of its thread; the combiner's steps with the number of
the round. -/
inductive Event where
  | sent (rid : ReqId)
  | collected (round : Nat) (rid : ReqId)
  | answered (round : Nat) (rid : ReqId)
  | received (rid : ReqId)

/-- The rounds completed and, for each thread, the events of its slot, first to last. -/
structure History where
  round : Nat
  events : ThreadId → List Event

/-- One more event at the slot of a thread. -/
def History.add (h : History) (tid : ThreadId) (e : Event) : History :=
  { h with events := Function.update h.events tid (h.events tid ++ [e]) }

/-- An event is appended to its thread's history. -/
@[simp] theorem History.add_self (h : History) (tid : ThreadId) (e : Event) :
    (h.add tid e).events tid = h.events tid ++ [e] :=
  Function.update_self ..

/-- An event of a thread leaves the other histories. -/
@[simp] theorem History.add_of_ne (h : History) {tid i : ThreadId} (e : Event) (hne : i ≠ tid) :
    (h.add tid e).events i = h.events i :=
  Function.update_of_ne hne ..

/-- The history after one more step. -/
def record (_ : State) (label : Label) (_ : State) (h : History) : History :=
  match label with
  | .sendRequest tid rid => h.add tid (.sent rid)
  | .combinerCollectRequest tid rid => h.add tid (.collected h.round rid)
  | .combinerRespondingResult tid rid => h.add tid (.answered h.round rid)
  | .recvResponse tid rid => h.add tid (.received rid)
  | .combinerRespondingDone => { h with round := h.round + 1 }
  | _ => h

/-- Flat combining with the history of the slots. -/
def recordedMachine : Machine (State × History) Label :=
  machine.withRecord ⟨0, fun _ ↦ []⟩ record

/-- The events of a request that went through its slot, in one round. -/
def exchange (request : ReqId × Nat) : List Event :=
  [.sent request.1, .collected request.2 request.1, .answered request.2 request.1,
    .received request.1]

/-- The events so far of the request in a slot. -/
def Underway (round : Nat) : SlotState → List Event → Prop
  | .empty, events => events = []
  | .request rid, events => events = [.sent rid]
  | .inProgress rid, events => events = [.sent rid, .collected round rid]
  | .response rid, events =>
    ∃ r, r ≤ round ∧ events = [.sent rid, .collected r rid, .answered r rid]

/-- The events of a slot are those of complete exchanges and of the request that is in it. -/
def HistoryWf (s : State) (h : History) : Prop :=
  ∀ tid slot, s.slots tid = some slot → ∃ (requests : List (ReqId × Nat)) (events : List Event),
    h.events tid = requests.flatMap exchange ++ events ∧ Underway h.round slot events

section History

variable {s t : State} {h : History} {label : Label} {tid : ThreadId}

/-- An event at one slot continues the request in it, and leaves the other slots alone. -/
theorem HistoryWf.add (hwf : HistoryWf s h) {slot slot' : SlotState} (e : Event)
    (hslot : s.slots tid = some slot) (hslots : t.slots = s.slots.insert tid slot')
    (hnext : ∀ (requests : List (ReqId × Nat)) (events : List Event),
      Underway h.round slot events → ∃ requests' : List (ReqId × Nat), ∃ events',
        requests.flatMap exchange ++ events ++ [e] = requests'.flatMap exchange ++ events' ∧
          Underway h.round slot' events') : HistoryWf t (h.add tid e) := by
  intro i slot'' hi
  rw [hslots] at hi
  rcases (PMap.insert_eq_some _ _ _ _ _).mp hi with ⟨rfl, rfl⟩ | ⟨hne, hold⟩
  · obtain ⟨requests, events, hevents, hunderway⟩ := hwf i slot hslot
    obtain ⟨requests', events', heq, hunderway'⟩ := hnext requests events hunderway
    refine ⟨requests', events', ?_, hunderway'⟩
    rw [History.add_self, hevents, heq]
  · obtain ⟨requests, events, hevents, hunderway⟩ := hwf i slot'' hold
    refine ⟨requests, events, ?_, hunderway⟩
    rw [History.add_of_ne h e hne, hevents]

/-- Every step keeps the histories of the slots in order. -/
theorem HistoryWf.next (hwf : HistoryWf s h) (hinv : Inv s) (hstep : Next s label t) :
    HistoryWf t (record s label t h) := by
  cases hstep with
  | combinerCollectEmpty | combinerRespondingStart | combinerRespondingEmpty => exact hwf
  | combinerCollectRequest elems rid hcombiner hslot =>
    refine hwf.add _ hslot rfl fun requests events hunderway ↦ ⟨requests, _, ?_, rfl⟩
    rw [show events = [.sent rid] from hunderway, List.append_assoc]
    rfl
  | combinerRespondingResult elems idx slot rid hcombiner htid hsome hslot hrid =>
    obtain ⟨rid', _, hprogress⟩ := hinv.responding_slot hcombiner htid hsome
    cases hslot.symm.trans hprogress
    obtain rfl := hrid rid' rfl
    refine hwf.add _ hslot rfl fun requests events hunderway ↦
      ⟨requests, _, ?_, h.round, Nat.le_refl _, rfl⟩
    rw [show events = [.sent rid, .collected h.round rid] from hunderway, List.append_assoc]
    rfl
  | combinerRespondingDone elems idx hcombiner hall =>
    intro i slot hslot
    obtain ⟨requests, events, hevents, hunderway⟩ := hwf i slot hslot
    refine ⟨requests, events, hevents, ?_⟩
    cases slot with
    | empty => exact hunderway
    | request rid => exact hunderway
    | inProgress rid =>
      -- a finished walk has answered everything
      have hunanswered := (hinv.inProgress i rid).mp hslot
      have hbounded := hinv.bounded
      rw [hcombiner] at hunanswered hbounded
      have hlt := (List.getElem?_eq_some_iff.mp hunanswered.2).1
      rw [hbounded.1, ← hall] at hlt
      exact absurd hlt (Nat.not_lt.mpr hunanswered.1)
    | response rid =>
      obtain ⟨r, hr, hevents⟩ := hunderway
      exact ⟨r, Nat.le_succ_of_le hr, hevents⟩
  | sendRequest tid rid hclient hslot =>
    refine hwf.add _ hslot rfl fun requests events hunderway ↦ ⟨requests, _, ?_, rfl⟩
    rw [show events = [] from hunderway, List.append_nil]
  | recvResponse tid rid hclient hslot =>
    refine hwf.add _ hslot rfl fun requests events hunderway ↦ ?_
    obtain ⟨r, _, rfl⟩ := hunderway
    refine ⟨requests ++ [(rid, r)], [], ?_, rfl⟩
    rw [List.flatMap_append, List.append_assoc, List.append_nil]
    rfl

private theorem historyWf_of_reachable (hreach : recordedMachine.Reachable (s, h)) :
    HistoryWf s h := by
  refine hreach.record_invariant ?_ fun _ _ _ _ hs hwf hstep ↦
    hwf.next (inv_of_reachable hs) hstep
  rintro _ ⟨numThreads, rfl⟩ tid slot hslot
  have hempty : slot = .empty := by simp_all [initialState]
  exact ⟨[], [], rfl, hempty ▸ rfl⟩

/-- A response stays in its slot until its client takes it. -/
theorem Inv.response_kept (hinv : Inv s) (hstep : Next s label t) {rid : ReqId}
    (hslot : s.slots tid = some (.response rid)) :
    label = .recvResponse tid rid ∨ t.slots tid = some (.response rid) := by
  have hkept : ∀ {i slot slot'}, s.slots i = some slot → slot ≠ .response rid →
      s.slots.insert i slot' tid = some (.response rid) := by
    intro i slot slot' hi hne
    have htid : tid ≠ i := by
      rintro rfl
      exact hne (Option.some.inj (hi.symm.trans hslot))
    rw [PMap.insert_of_ne _ _ htid, hslot]
  cases hstep with
  | combinerCollectEmpty | combinerRespondingStart | combinerRespondingEmpty
  | combinerRespondingDone => exact .inr hslot
  | combinerCollectRequest elems rid' hcombiner hrequest => exact .inr (hkept hrequest nofun)
  | combinerRespondingResult elems idx slot rid' hcombiner htid hsome hold hrid =>
    obtain ⟨rid', _, hprogress⟩ := hinv.responding_slot hcombiner htid hsome
    exact .inr (hkept hprogress nofun)
  | sendRequest tid' rid' hclient hempty => exact .inr (hkept hempty nofun)
  | recvResponse tid' rid' hclient hresponse =>
    by_cases htid : tid = tid'
    · subst htid
      cases hslot.symm.trans hresponse
      exact .inl rfl
    · refine .inr ?_
      simp only [PMap.insert_of_ne _ _ htid]
      exact hslot

end History

/-- Flat combining, in every reachable state and along every run: a client waits for a request
exactly while its slot carries it, the slots in progress are those the current round collected
and has not answered, the events at a slot are exchanges (sent, collected and answered in one
round, received) of one request after the other, and a response stays until its client takes
it. -/
theorem flatCombiner_protocol {s : State} (hreach : machine.Reachable s) :
    (∀ tid rid, s.clients tid = some (.waiting rid) ↔
      ∃ slot, s.slots tid = some slot ∧ slot.reqId? = some rid) ∧
    (∀ tid rid, s.slots tid = some (.inProgress rid) ↔ s.combiner.Unanswered tid rid) ∧
    (∃ h, recordedMachine.Reachable (s, h)) ∧
    (∀ h, recordedMachine.Reachable (s, h) → HistoryWf s h) ∧
    ∀ label t tid rid, Next s label t → s.slots tid = some (.response rid) →
      label = .recvResponse tid rid ∨ t.slots tid = some (.response rid) := by
  have hinv := inv_of_reachable hreach
  exact ⟨hinv.waiting, hinv.inProgress, hreach.exists_record, fun h ↦ historyWf_of_reachable,
    fun label t tid rid hstep hslot ↦ hinv.response_kept hstep hslot⟩

/-- The second of two threads has sent a request and the round has answered it. -/
theorem flatCombiner_protocol_answered : ∃ s, s.slots 1 = some (.response 7) ∧
    s.clients 1 = some (.waiting 7) ∧ ∃ h, recordedMachine.Reachable (s, h) ∧ HistoryWf s h := by
  have hrun : ∃ s, machine.Run (initialState 2)
      [.sendRequest 1 7, .combinerCollectEmpty 0, .combinerCollectRequest 1 7,
        .combinerRespondingStart, .combinerRespondingEmpty 0, .combinerRespondingResult 1 7] s ∧
      s.slots 1 = some (.response 7) := by
    refine Machine.Run.exists_cons (.sendRequest 1 7 rfl rfl) ?_
    refine Machine.Run.exists_cons (.combinerCollectEmpty [] .empty rfl rfl (.inl rfl)) ?_
    refine Machine.Run.exists_cons (.combinerCollectRequest [none] 7 rfl rfl) ?_
    refine Machine.Run.exists_cons (.combinerRespondingStart [none, some 7] rfl rfl) ?_
    refine Machine.Run.exists_cons
      (.combinerRespondingEmpty [none, some 7] 0 rfl (by decide) fun e he ↦ ?_) ?_
    · exact (Option.some.inj he).symm
    refine Machine.Run.exists_cons
      (.combinerRespondingResult [none, some 7] 1 (.inProgress 7) 7 rfl (by decide)
        (fun e he ↦ ?_) rfl fun r hr ↦ ?_) ?_
    · rw [← Option.some.inj he]
      exact nofun
    · cases hr
      rfl
    exact ⟨_, .nil _, rfl⟩
  obtain ⟨s, hrun, hslot⟩ := hrun
  obtain ⟨hwaiting, _, ⟨h, hrecorded⟩, hhistory, _⟩ :=
    flatCombiner_protocol ⟨_, _, ⟨2, rfl⟩, hrun⟩
  exact ⟨s, hslot, (hwaiting 1 7).mpr ⟨_, hslot, rfl⟩, h, hrecorded, hhistory h hrecorded⟩

end FlatCombiner

end NrKernel.NodeReplication
