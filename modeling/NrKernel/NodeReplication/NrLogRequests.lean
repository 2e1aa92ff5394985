import NrKernel.NodeReplication.NrLogRefinesUnboundedLog

/-!
# Requests of the combiner threads

What a combiner thread still owes to the requests it collected: before its reservation their
places in the log, after it the publication of a version past these places. An access of one
thread leaves the requests of the others alone.
-/

namespace NrKernel.NodeReplication

open Lib

universe u

namespace NrLog

variable {DT : Dispatch.{u}}

/-! ## Phases of a batch -/

/-- The batch is collected and not reserved (`exec/log.rs:779–888`). -/
def Pc.Reserving : Pc → Prop
  | .appendLoadTail => True
  | .appendLoadHead _ => True
  | .appendReserve _ _ => True
  | .executeLoadLocal ret => ret = .append
  | .executeLoadTail ret _ => ret = .append
  | .executeLoadAlive ret _ _ => ret = .append
  | .executeDispatch ret _ _ => ret = .append
  | .executeFetchMax ret _ => ret = .append
  | .executeStoreLocal ret _ => ret = .append
  | _ => False

/-- The batch is reserved (`exec/log.rs:889–1056`, `1098–1607`). -/
def Pc.Reserved : Pc → Prop
  | .appendWriteEntry _ _ _ => True
  | .appendStoreAlive _ _ _ => True
  | .advanceLoadHead => True
  | .advanceLoadTail _ => True
  | .advanceLoadFirst _ _ => True
  | .advanceLoadNext _ _ _ _ => True
  | .advanceStoreHead _ _ => True
  | .executeLoadLocal ret => ret ≠ .append
  | .executeLoadTail ret _ => ret ≠ .append
  | .executeLoadAlive ret _ _ => ret ≠ .append
  | .executeDispatch ret _ _ => ret ≠ .append
  | .executeFetchMax ret _ => ret ≠ .append
  | .executeStoreLocal ret _ => ret ≠ .append
  | .finished => True
  | _ => False

/-- The version of a batch that ends at `stop` may not be published: once a tail is loaded it
is past the batch, and once that is published nothing is owed. -/
def Pc.Owes (stop : Nat) : Pc → Prop
  | .appendWriteEntry _ _ _ => True
  | .appendStoreAlive _ _ _ => True
  | .advanceLoadHead => True
  | .advanceLoadTail _ => True
  | .advanceLoadFirst _ _ => True
  | .advanceLoadNext _ _ _ _ => True
  | .advanceStoreHead _ _ => True
  | .executeLoadLocal ret => ret ≠ .append
  | .executeLoadTail ret _ => ret ≠ .append
  | .executeLoadAlive ret _ globalTail => ret ≠ .append ∧ stop ≤ globalTail
  | .executeDispatch ret _ globalTail => ret ≠ .append ∧ stop ≤ globalTail
  | .executeFetchMax ret globalTail => ret ≠ .append ∧ stop ≤ globalTail
  | .stuck => True
  | _ => False

section Next

variable {stop tail idx nops head version globalTail numReplicas globalHead least : Nat}
  {advance : Bool} {ret : Return}

/-- In its write loop a thread has its batch reserved. -/
theorem reserved_appendNext : (appendNext nops tail idx advance).Reserved := by
  unfold appendNext
  split
  · trivial
  · split
    · trivial
    · simp [Pc.Reserved]

private theorem owes_appendNext : (appendNext nops tail idx advance).Owes stop := by
  unfold appendNext
  split
  · trivial
  · split
    · trivial
    · simp [Pc.Owes]

private theorem not_reserved_appendChecked : ¬ (appendChecked tail head nops).Reserved := by
  unfold appendChecked
  split
  · exact fun h ↦ h rfl
  · split <;> exact id

/-- Scanning the versions after an append a thread has its batch reserved. -/
theorem reserved_advanceNext :
    (advanceNext numReplicas globalHead globalTail least idx).Reserved := by
  unfold advanceNext
  split
  · trivial
  · split
    · simp [Pc.Reserved]
    · trivial

private theorem owes_advanceNext :
    (advanceNext numReplicas globalHead globalTail least idx).Owes stop := by
  unfold advanceNext
  split
  · trivial
  · split
    · simp [Pc.Owes]
    · trivial

/-- Having stored the head after an append a thread has its batch reserved. -/
theorem reserved_advanceStored : (advanceStored globalTail least).Reserved := by
  unfold advanceStored
  split <;> simp [Pc.Reserved]

private theorem owes_advanceStored : (advanceStored globalTail least).Owes stop := by
  unfold advanceStored
  split <;> simp [Pc.Owes]

private theorem reserved_executeNext :
    (executeNext ret version globalTail).Reserved ↔ ret ≠ .append := by
  unfold executeNext
  split <;> exact Iff.rfl

private theorem reserving_executeNext :
    (executeNext ret version globalTail).Reserving ↔ ret = .append := by
  unfold executeNext
  split <;> exact Iff.rfl

private theorem owes_executeNext (hret : ret ≠ .append) (hstop : stop ≤ globalTail) :
    (executeNext ret version globalTail).Owes stop := by
  unfold executeNext
  split <;> exact ⟨hret, hstop⟩

private theorem reserved_resume : ret.resume.Reserved ↔ ret ≠ .append := by
  cases ret with
  | append => exact iff_of_false id fun h ↦ h rfl
  | advanceHead => exact iff_of_true trivial nofun
  | combine => exact iff_of_true trivial nofun

private theorem reserving_resume : ret.resume.Reserving ↔ ret = .append := by
  cases ret with
  | append => exact iff_of_true trivial rfl
  | advanceHead => exact iff_of_false id nofun
  | combine => exact iff_of_false id nofun

private theorem reserved_executeChecked :
    (executeChecked ret version globalTail).Reserved ↔ ret ≠ .append := by
  unfold executeChecked
  split
  · exact reserved_resume
  · exact reserved_executeNext

private theorem reserving_executeChecked :
    (executeChecked ret version globalTail).Reserving ↔ ret = .append := by
  unfold executeChecked
  split
  · exact reserving_resume
  · exact reserving_executeNext

private theorem Pc.Reserved.not_reserving {pc : Pc} (h : pc.Reserved) : ¬ pc.Reserving := by
  cases pc <;> first | exact id | exact h | exact h.elim

end Next

/-- A ticket stays or is answered when responses are handed out. -/
theorem distribute_eq {answers : List (ReqId × DT.Response)} {tickets : PMap ReqId (Ticket DT)}
    {rid : ReqId} {ticket : Ticket DT} (h : distribute tickets answers rid = some ticket) :
    tickets rid = some ticket ∨ ∃ ret, ticket = .answered ret := by
  induction answers generalizing tickets with
  | nil => exact .inl h
  | cons answer rest ih =>
    rcases ih h with hticket | hret
    · rcases (PMap.insert_eq_some _ _ _ _ _).mp hticket with ⟨_, rfl⟩ | ⟨_, hold⟩
      · exact .inr ⟨answer.2, rfl⟩
      · exact .inl hold
    · exact .inr hret

section Steps

variable {pre post : State DT} {label : Label DT} {n m : NodeId} {t t' : Thread DT}

/-- What an access of a combiner thread leaves alone. -/
structure CombinerStep.Frame (n : NodeId) (t : Thread DT) (pre post : State DT) : Prop where
  others : ∀ m, m ≠ n → post.threads m = pre.threads m ∧ post.data m = pre.data m
  readers : post.readers = pre.readers
  tickets : post.tickets = pre.tickets
  numReplicas : post.numReplicas = pre.numReplicas
  thread : ∃ t', post.threads n = some t' ∧ t'.requestIds = t.requestIds ∧
    t'.operations = t.operations

/-- An access of a combiner thread changes the log, its own thread and its own data. -/
theorem CombinerStep.frame (h : CombinerStep n t pre label post) : Frame n t pre post := by
  have hgoto : ∀ {s : State DT} {t' : Thread DT} {m : NodeId}, m ≠ n →
      (s.setThread n t').threads m = s.threads m := fun hm ↦ PMap.insert_of_ne _ _ hm
  cases h with
  | dispatch =>
    exact ⟨fun m hm ↦ ⟨hgoto hm, PMap.insert_of_ne _ _ hm⟩, rfl, rfl, rfl, _,
      PMap.insert_self _ _ _, rfl, rfl⟩
  | _ => exact ⟨fun m hm ↦ ⟨hgoto hm, rfl⟩, rfl, rfl, rfl, _, PMap.insert_self _ _ _, rfl, rfl⟩

/-- A thread gets past its reservation by reserving, and never back. -/
theorem CombinerStep.reserved_cases (h : CombinerStep n t pre label post)
    (ht' : post.threads n = some t') :
    (t'.pc.Reserving → t.pc.Reserving) ∧
      (t'.pc.Reserved → t.pc.Reserved ∨
        t.pc.Reserving ∧ ∃ tail, label = .reserve n tail t.operations) := by
  have hforward : t.pc.Reserved → t'.pc.Reserved →
      (t'.pc.Reserving → t.pc.Reserving) ∧ (t'.pc.Reserved → t.pc.Reserved ∨
        t.pc.Reserving ∧ ∃ tail, label = .reserve n tail t.operations) :=
    fun hold hnew ↦ ⟨fun hx ↦ absurd hx hnew.not_reserving, fun _ ↦ .inl hold⟩
  cases h with
  | appendLoadTail hold =>
    obtain rfl := State.eq_of_setThread ht'
    rw [hold]
    exact ⟨fun _ ↦ trivial, False.elim⟩
  | appendLoadHead tail hold =>
    obtain rfl := State.eq_of_setThread ht'
    rw [hold]
    exact ⟨fun _ ↦ trivial, fun hx ↦ absurd hx not_reserved_appendChecked⟩
  | reserve tail advance hold =>
    rw [hold]
    exact ⟨fun _ ↦ trivial, fun _ ↦ .inr ⟨trivial, tail, rfl⟩⟩
  | reserveFail tail advance hold =>
    obtain rfl := State.eq_of_setThread ht'
    rw [hold]
    exact ⟨fun _ ↦ trivial, False.elim⟩
  | writeEntry tail idx advance op hold =>
    obtain rfl := State.eq_of_setThread ht'
    exact hforward (by rw [hold]; trivial) trivial
  | storeAlive tail idx advance hold =>
    obtain rfl := State.eq_of_setThread ht'
    exact hforward (by rw [hold]; trivial) reserved_appendNext
  | advanceLoadHead hold =>
    obtain rfl := State.eq_of_setThread ht'
    exact hforward (by rw [hold]; trivial) trivial
  | advanceLoadTail globalHead hold =>
    obtain rfl := State.eq_of_setThread ht'
    exact hforward (by rw [hold]; trivial) trivial
  | advanceLoadFirst globalHead globalTail version hold =>
    obtain rfl := State.eq_of_setThread ht'
    exact hforward (by rw [hold]; trivial) reserved_advanceNext
  | advanceLoadNext globalHead globalTail least idx version hold =>
    obtain rfl := State.eq_of_setThread ht'
    exact hforward (by rw [hold]; trivial) reserved_advanceNext
  | storeHead globalTail least hold =>
    obtain rfl := State.eq_of_setThread ht'
    exact hforward (by rw [hold]; trivial) reserved_advanceStored
  | executeLoadLocal ret version hold =>
    obtain rfl := State.eq_of_setThread ht'
    rw [hold]
    exact ⟨id, .inl⟩
  | executeLoadTail ret version hold =>
    obtain rfl := State.eq_of_setThread ht'
    rw [hold]
    exact ⟨reserving_executeChecked.mp, fun hx ↦ .inl (reserved_executeChecked.mp hx)⟩
  | executeLoadAlive ret version globalTail hold =>
    obtain rfl := State.eq_of_setThread ht'
    rw [hold]
    dsimp only
    split <;> exact ⟨id, .inl⟩
  | dispatch ret version globalTail entry view hold =>
    obtain rfl := State.eq_of_setThread ht'
    rw [hold]
    exact ⟨reserving_executeNext.mp, fun hx ↦ .inl (reserved_executeNext.mp hx)⟩
  | dispatchPanic ret version globalTail hold =>
    obtain rfl := State.eq_of_setThread ht'
    exact ⟨False.elim, False.elim⟩
  | fetchMax ret globalTail hold =>
    obtain rfl := State.eq_of_setThread ht'
    rw [hold]
    exact ⟨id, .inl⟩
  | storeLocal ret globalTail hold =>
    obtain rfl := State.eq_of_setThread ht'
    rw [hold]
    exact ⟨reserving_resume.mp, fun hx ↦ .inl (reserved_resume.mp hx)⟩

/-- What a thread owes is published or still owed after its access. -/
theorem CombinerStep.owes (h : CombinerStep n t pre label post) {stop : Nat}
    (howes : t.pc.Owes stop) (hstop : stop ≤ pre.tail)
    (hversion : ∀ ret version, t.pc = .executeLoadTail ret version →
      version ≤ pre.versionUpperBound) :
    stop ≤ post.versionUpperBound ∨ ∃ t', post.threads n = some t' ∧
      t'.requestIds = t.requestIds ∧ t'.pc.Owes stop := by
  have hgoto : ∀ {s : State DT} {pc : Pc}, pc.Owes stop →
      ∃ t', (s.goto n t pc).threads n = some t' ∧ t'.requestIds = t.requestIds ∧
        t'.pc.Owes stop := fun hpc ↦ ⟨_, PMap.insert_self _ _ _, rfl, hpc⟩
  cases h with
  | appendLoadTail hold =>
    rw [hold] at howes
    exact howes.elim
  | appendLoadHead tail hold =>
    rw [hold] at howes
    exact howes.elim
  | reserve tail advance hold =>
    rw [hold] at howes
    exact howes.elim
  | reserveFail tail advance hold =>
    rw [hold] at howes
    exact howes.elim
  | writeEntry => exact .inr (hgoto trivial)
  | storeAlive => exact .inr (hgoto owes_appendNext)
  | advanceLoadHead => exact .inr (hgoto trivial)
  | advanceLoadTail => exact .inr (hgoto trivial)
  | advanceLoadFirst => exact .inr (hgoto owes_advanceNext)
  | advanceLoadNext => exact .inr (hgoto owes_advanceNext)
  | storeHead => exact .inr (hgoto owes_advanceStored)
  | executeLoadLocal ret version hold =>
    rw [hold] at howes
    exact .inr (hgoto howes)
  | executeLoadTail ret version hold =>
    rw [hold] at howes
    by_cases heq : version = pre.tail
    · -- nothing to execute: the version loaded was published before
      exact .inl (hstop.trans (heq ▸ hversion ret version hold))
    · refine .inr (hgoto ?_)
      rw [executeChecked, if_neg heq]
      exact owes_executeNext howes hstop
  | executeLoadAlive ret version globalTail hold =>
    rw [hold] at howes
    refine .inr (hgoto ?_)
    split <;> exact howes
  | dispatch ret version globalTail entry view hold =>
    rw [hold] at howes
    exact .inr ⟨_, PMap.insert_self _ _ _, rfl, owes_executeNext howes.1 howes.2⟩
  | dispatchPanic => exact .inr (hgoto trivial)
  | fetchMax ret globalTail hold =>
    rw [hold] at howes
    exact .inl (howes.2.trans (Nat.le_max_right _ _))
  | storeLocal ret globalTail hold =>
    rw [hold] at howes
    exact howes.elim

/-- The version upper bound never falls. -/
theorem Next.versionUpperBound_le (h : Next pre label post) :
    pre.versionUpperBound ≤ post.versionUpperBound := by
  cases h with
  | combiner nodeId t hthread hstep =>
    cases hstep with
    | fetchMax => exact Nat.le_max_left _ _
    | _ => exact Nat.le_refl _
  | reader rid hstep => cases hstep <;> exact Nat.le_refl _
  | _ => exact Nat.le_refl _

/-- A thread with requests goes on by its own accesses until it is done. -/
theorem Next.thread_cases (h : Next pre label post) (ht : pre.threads m = some t) :
    post.threads m = some t ∨ t.pc = .idle ∨ t.pc = .finished ∨
      CombinerStep m t pre label post := by
  have hset : ∀ {s : State DT} {n : NodeId} {x y : Thread DT}, s.threads = pre.threads →
      pre.threads n = some x → (s.setThread n y).threads m = some t ∨ t = x := by
    intro s n x y hs hx
    by_cases hm : m = n
    · subst hm
      exact .inr (Option.some.inj (ht.symm.trans hx))
    · exact .inl ((PMap.insert_of_ne _ _ hm).trans ((congrFun hs m).trans ht))
  cases h with
  | combiner n x hx hstep =>
    by_cases hm : m = n
    · subst hm
      obtain rfl : t = x := Option.some.inj (ht.symm.trans hx)
      exact .inr (.inr (.inr hstep))
    · exact .inl ((hstep.frame.others m hm).1.trans ht)
  | reader rid hstep => cases hstep <;> exact .inl ht
  | collect n x requestIds operations hx hpc =>
    rcases hset rfl hx with hsame | rfl
    · exact .inl hsame
    · exact .inr (.inl hpc)
  | callExecute n x hx hpc =>
    rcases hset rfl hx with hsame | rfl
    · exact .inl hsame
    · exact .inr (.inl hpc)
  | distribute n x hx hpc =>
    rcases hset rfl hx with hsame | rfl
    · exact .inl hsame
    · exact .inr (.inr (.inl hpc))
  | _ => exact .inl ht

/-- Where the thread of a node comes from in a step. -/
theorem Next.thread_origin (h : Next pre label post) (ht' : post.threads m = some t') :
    pre.threads m = some t' ∨
      (∃ t, pre.threads m = some t ∧ CombinerStep m t pre label post) ∨
      t'.pc = .appendLoadTail ∧ List.Forall₂
        (fun rid op ↦ pre.tickets rid = some (.pending op)) t'.requestIds t'.operations ∨
      t'.requestIds = [] ∧ ¬ t'.pc.Reserving := by
  cases h with
  | combiner n x hx hstep =>
    by_cases hm : m = n
    · subst hm
      exact .inr (.inl ⟨x, hx, hstep⟩)
    · exact .inl ((hstep.frame.others m hm).1.symm.trans ht')
  | reader rid hstep => cases hstep <;> exact .inl ht'
  | collect n x requestIds operations hx hpc hnodup hmax htickets =>
    rcases (PMap.insert_eq_some _ _ _ _ _).mp ht' with ⟨_, rfl⟩ | ⟨_, hold⟩
    · exact .inr (.inr (.inl ⟨rfl, htickets⟩))
    · exact .inl hold
  | callExecute n x hx hpc =>
    rcases (PMap.insert_eq_some _ _ _ _ _).mp ht' with ⟨_, rfl⟩ | ⟨_, hold⟩
    · exact .inr (.inr (.inr ⟨rfl, nofun⟩))
    · exact .inl hold
  | distribute n x hx hpc =>
    rcases (PMap.insert_eq_some _ _ _ _ _).mp ht' with ⟨_, rfl⟩ | ⟨_, hold⟩
    · exact .inr (.inr (.inr ⟨rfl, id⟩))
    · exact .inl hold
  | _ => exact .inl ht'

/-- Where the ticket of a request comes from in a step. -/
theorem Next.ticket_origin (h : Next pre label post) {rid : ReqId} {ticket : Ticket DT}
    (hticket : post.tickets rid = some ticket) :
    pre.tickets rid = some ticket ∨
      (∃ op, label = .start rid (.write op) ∧ ticket = .pending op) ∨
      (∃ n, ticket = .collected n) ∨
      ∃ n t ret, pre.threads n = some t ∧ t.pc = .finished ∧ rid ∈ t.requestIds ∧
        ticket = .answered ret := by
  cases h with
  | combiner n x hx hstep => exact .inl (hstep.frame.tickets ▸ hticket)
  | reader rid' hstep => cases hstep <;> exact .inl hticket
  | startWrite rid' op =>
    rcases (PMap.insert_eq_some _ _ _ _ _).mp hticket with ⟨rfl, rfl⟩ | ⟨_, hold⟩
    · exact .inr (.inl ⟨op, rfl, rfl⟩)
    · exact .inl hold
  | doneWrite rid' ret =>
    by_cases hrid : rid = rid'
    · subst hrid
      cases (PMap.remove_self _ _).symm.trans hticket
    · exact .inl ((PMap.remove_of_ne _ hrid).symm.trans hticket)
  | collect n x requestIds operations =>
    change NrLog.collect pre.tickets n requestIds rid = some ticket at hticket
    rw [NrLog.collect] at hticket
    split at hticket
    · exact .inr (.inr (.inl ⟨n, (Option.some.inj hticket).symm⟩))
    · exact .inl hticket
  | distribute n x hx hpc =>
    change NrLog.distribute pre.tickets (x.requestIds.zip x.responses) rid = some ticket at hticket
    by_cases hrid : rid ∈ x.requestIds
    · rcases distribute_eq hticket with hold | ⟨ret, rfl⟩
      · exact .inl hold
      · exact .inr (.inr (.inr ⟨n, x, ret, hx, hpc, hrid, rfl⟩))
    · exact .inl ((distribute_of_not_mem hrid).symm.trans hticket)
  | _ => exact .inl hticket

/-- Where the state of a reader comes from in a step. -/
theorem Next.reader_origin (h : Next pre label post) {rid : ReqId} {r : Reader DT}
    (hr : post.readers rid = some r) :
    pre.readers rid = some r ∨
      (∃ op n, label = .start rid (.read op n) ∧ r = .called op n) ∨
      (∃ op n, pre.readers rid = some (.called op n) ∧
        r = .syncing op n pre.versionUpperBound) ∨
      (∃ op n version, pre.readers rid = some (.syncing op n version) ∧
        r = .synced op n version) ∨
      ∃ ret, r = .returned ret := by
  have hinsert : ∀ {rid' : ReqId} {x : Reader DT}, pre.readers.insert rid' x rid = some r →
      pre.readers rid = some r ∨ rid = rid' ∧ r = x := by
    intro rid' x hx
    rcases (PMap.insert_eq_some _ _ _ _ _).mp hx with ⟨hrid, hval⟩ | ⟨_, hold⟩
    · exact .inr ⟨hrid, hval.symm⟩
    · exact .inl hold
  cases h with
  | combiner n x hx hstep => exact .inl (hstep.frame.readers ▸ hr)
  | reader rid' hstep =>
    cases hstep with
    | getVersionUpperBound op n hread =>
      rcases hinsert hr with hold | ⟨rfl, rfl⟩
      · exact .inl hold
      · exact .inr (.inr (.inl ⟨op, n, hread, rfl⟩))
    | isReplicaSyncedForReads op n version version' hread =>
      rcases hinsert hr with hold | ⟨rfl, rfl⟩
      · exact .inl hold
      · split
        · exact .inr (.inr (.inr (.inl ⟨op, n, version, hread, rfl⟩)))
        · exact .inl hread
    | apply op n version x view hread =>
      rcases hinsert hr with hold | ⟨rfl, rfl⟩
      · exact .inl hold
      · exact .inr (.inr (.inr (.inr ⟨_, rfl⟩)))
  | startRead rid' op n =>
    rcases hinsert hr with hold | ⟨rfl, rfl⟩
    · exact .inl hold
    · exact .inr (.inl ⟨op, n, rfl, rfl⟩)
  | doneRead rid' ret =>
    by_cases hrid : rid = rid'
    · subst hrid
      cases (PMap.remove_self _ _).symm.trans hr
    · exact .inl ((PMap.remove_of_ne _ hrid).symm.trans hr)
  | _ => exact .inl hr

/-- A call takes an id that nothing has. -/
theorem Next.fresh {rid : ReqId} {input : InputOperation DT}
    (h : Next pre (.start rid input) post) :
    pre.readers rid = none ∧ pre.tickets rid = none := by
  cases h with
  | combiner n x hx hstep => cases hstep
  | startRead rid op n hreaders htickets => exact ⟨hreaders, htickets⟩
  | startWrite rid op hreaders htickets => exact ⟨hreaders, htickets⟩

/-- An update returns when its request is answered. -/
theorem Next.answered {rid : ReqId} {ret : DT.Response}
    (h : Next pre (.done rid (.write ret)) post) :
    pre.tickets rid = some (.answered ret) := by
  cases h with
  | combiner n x hx hstep => cases hstep
  | doneWrite rid ret hticket => exact hticket

/-- A thread reserves its own operations in its own name. -/
theorem Next.reserving {tail : Nat} {operations : List DT.WriteOperation}
    (h : Next pre (.reserve n tail operations) post) (ht : pre.threads n = some t) {stop : Nat} :
    t.operations = operations ∧ ∃ t', post.threads n = some t' ∧
      t'.requestIds = t.requestIds ∧ t'.pc.Owes stop := by
  cases h with
  | combiner _ x hx hstep =>
    cases hstep with
    | reserve tail advance hpc =>
      obtain rfl : t = x := Option.some.inj (ht.symm.trans hx)
      exact ⟨rfl, _, PMap.insert_self _ _ _, rfl, owes_appendNext⟩

end Steps

section Reachable

variable {c : State DT} {n : NodeId} {t : Thread DT}

/-- The version a thread has loaded is a published one. -/
theorem loaded_le (h : (machine DT).Reachable c) (ht : c.threads n = some t) {ret : Return}
    {version : Nat} (hpc : t.pc = .executeLoadTail ret version) :
    version ≤ c.versionUpperBound := by
  obtain ⟨u, hu, b, hb, hc⟩ := exists_implements h
  have hui := UnboundedLog.inv_of_reachable hu
  obtain ⟨phase, buffer, hphase, _, hcoupled⟩ :=
    hc.exists_phases hui (CyclicBuffer.inv_of_reachable hb) ht
  simp only [Thread.Coupled, hpc] at hcoupled
  obtain ⟨_, queue, rfl, _⟩ := hcoupled
  obtain ⟨v, hv⟩ := hui.exists_version hphase
  have hwf := (hui.combiner_wf n _ v hphase hv).phase
  rw [← hc.shared.versionUpperBound]
  exact (show version = v from hwf) ▸ hui.version_le n v hv

/-- The ticket of a request says which thread collected it. -/
theorem ticket_of_mem (h : (machine DT).Reachable c) (ht : c.threads n = some t) {rid : ReqId}
    (hrid : rid ∈ t.requestIds) : c.tickets rid = some (.collected n) := by
  obtain ⟨u, _, b, _, hc⟩ := exists_implements h
  exact hc.shared.owned n t rid ht hrid

end Reachable

end NrLog

end NrKernel.NodeReplication
