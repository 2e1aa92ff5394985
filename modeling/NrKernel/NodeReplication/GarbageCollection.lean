import NrKernel.NodeReplication.NrLogRefinesUnboundedLog

/-!
# Garbage collection of the executable log

Once the log is nearly full, appends only help and wait for the combiner that crossed the
threshold to advance the head. As long as no store lowers the head, such a combiner is there
whenever appends wait. A combiner that stores a minimum it computed before another one
advanced the head further takes the head back, and then the log can be full with nobody left
to collect it. A combiner that is still advancing the head when another one has collected the
whole log, and all threads have loaded what is there now, does not return until something is
appended.
-/

namespace NrKernel.NodeReplication

open Lib

universe u

namespace NrLog

variable {DT : Dispatch.{u}}

/-- Entries the log may hold before appends wait (`exec/log.rs:797`). -/
def gcThreshold : Nat := logSize - gcFromHead

/-- The thread is between the reservation that found the log nearly full and its return from
`advance_head` (`exec/log.rs:856–1056`, `1100–1209`). -/
def Pc.Advancing : Pc → Prop
  | .appendWriteEntry _ _ advance => advance = true
  | .appendStoreAlive _ _ advance => advance = true
  | .advanceLoadHead => True
  | .advanceLoadTail _ => True
  | .advanceLoadFirst _ _ => True
  | .advanceLoadNext _ _ _ _ => True
  | .advanceStoreHead _ _ => True
  | .executeLoadLocal ret => ret = .advanceHead
  | .executeLoadTail ret _ => ret = .advanceHead
  | .executeLoadAlive ret _ _ => ret = .advanceHead
  | .executeDispatch ret _ _ => ret = .advanceHead
  | .executeFetchMax ret _ => ret = .advanceHead
  | .executeStoreLocal ret _ => ret = .advanceHead
  | _ => False

/-- Appends have to wait (`exec/log.rs:797`). -/
def State.NearlyFull (c : State DT) : Prop := c.tail > c.head + gcThreshold

/-- When appends wait, some combiner is advancing the head (`exec/log.rs:793–796`). -/
def State.Collected (c : State DT) : Prop :=
  c.NearlyFull → ∃ n t, c.threads n = some t ∧ t.pc.Advancing

/-- A step that stores no stale minimum: a combiner that goes on from its store of the head
finds the head no further than the minimum it stores. -/
def FreshStore (pre : State DT) (_ : Label DT) (post : State DT) : Prop :=
  ∀ n t globalTail least, pre.threads n = some t → t.pc = .advanceStoreHead globalTail least →
    post.threads n ≠ some t → pre.head ≤ least

section Collecting

/-- The thread is advancing the head on account of an entry: the tail it has loaded for the
test that lets it return lies past the entry. -/
def Pc.Collecting (i : Nat) : Pc → Prop
  | .advanceLoadFirst _ globalTail => i < globalTail
  | .advanceLoadNext _ globalTail _ _ => i < globalTail
  | .advanceStoreHead globalTail _ => i < globalTail
  | pc => pc.Advancing

private theorem Pc.Collecting.advancing {pc : Pc} {i : Nat} (h : pc.Collecting i) :
    pc.Advancing := by
  cases pc with
  | advanceLoadFirst => exact trivial
  | advanceLoadNext => exact trivial
  | advanceStoreHead => exact trivial
  | _ => exact h

/-- Every entry past the threshold has a thread that advances the head on its account, and a
reservation below the threshold is still below it. -/
structure Collects (c : State DT) : Prop where
  collecting : ∀ i, c.head + gcThreshold ≤ i → i < c.tail →
    ∃ n t, c.threads n = some t ∧ t.pc.Collecting i
  reserve : ∀ n t tail, c.threads n = some t → t.pc = .appendReserve tail false →
    tail + t.operations.length ≤ c.head + gcThreshold

private theorem Collects.collected {c : State DT} (h : Collects c) : c.Collected := by
  intro hfull
  obtain ⟨n, t, ht, hpc⟩ := h.collecting (c.head + gcThreshold) le_rfl hfull
  exact ⟨n, t, ht, hpc.advancing⟩

variable {c : State DT} {n : NodeId} {t t' : Thread DT}

/-- A thread may go on when it goes on collecting what lies past the threshold. -/
theorem Collects.setThread (h : Collects c) (ht : c.threads n = some t)
    (hpc : ∀ i, c.head + gcThreshold ≤ i → i < c.tail →
      t.pc.Collecting i → t'.pc.Collecting i)
    (hreserve : ∀ tail, t'.pc = .appendReserve tail false →
      tail + t'.operations.length ≤ c.head + gcThreshold) : Collects (c.setThread n t') where
  collecting := by
    intro i hle hlt
    obtain ⟨m, s, hs, hcollecting⟩ := h.collecting i hle hlt
    by_cases hm : m = n
    · subst hm
      obtain rfl : t = s := Option.some.inj (ht.symm.trans hs)
      exact ⟨m, t', PMap.insert_self _ _ _, hpc i hle hlt hcollecting⟩
    · exact ⟨m, s, (PMap.insert_of_ne _ _ hm).trans hs, hcollecting⟩
  reserve := by
    intro m s tail hs heq
    rcases (PMap.insert_eq_some _ _ _ _ _).mp hs with ⟨_, rfl⟩ | ⟨_, hold⟩
    · exact hreserve tail heq
    · exact h.reserve m s tail hold heq

/-- A thread goes on to another access than a compare-and-swap. -/
theorem Collects.goto {old pc : Pc} (h : Collects c) (ht : c.threads n = some t)
    (hold : t.pc = old) (hpc : ∀ i < c.tail, old.Collecting i → pc.Collecting i)
    (hquiet : pc.Quiet) : Collects (c.goto n t pc) := by
  apply h.setThread ht
  · rw [hold]
    exact fun i _ hlt ↦ hpc i hlt
  · exact fun tail heq ↦ absurd heq (hquiet tail false)

private theorem collecting_appendNext (nops tail idx i : Nat) :
    (appendNext nops tail idx true).Collecting i := by
  rw [appendNext]
  split
  · exact rfl
  · exact trivial

private theorem collecting_advanceNext {numReplicas globalHead globalTail least idx i : Nat}
    (h : i < globalTail) :
    (advanceNext numReplicas globalHead globalTail least idx).Collecting i := by
  rw [advanceNext]
  split
  · exact h
  · split
    · exact rfl
    · exact h

/-- Inside `execute` a thread collects when `advance_head` called it. -/
theorem collecting_executeNext {ret : Return} (h : ret = .advanceHead)
    (version globalTail i : Nat) : (executeNext ret version globalTail).Collecting i := by
  rw [executeNext]
  split <;> exact h

private theorem collecting_resume {ret : Return} (h : ret = .advanceHead) (i : Nat) :
    ret.resume.Collecting i := by
  subst h
  exact trivial

private theorem collecting_executeChecked {ret : Return} (h : ret = .advanceHead)
    (version globalTail i : Nat) : (executeChecked ret version globalTail).Collecting i := by
  rw [executeChecked]
  split
  · exact collecting_resume h i
  · exact collecting_executeNext h version globalTail i

/-- A reservation below the threshold was tested against the head it then found. -/
theorem le_of_appendChecked_eq {tail head nops tail' : Nat}
    (h : appendChecked tail head nops = .appendReserve tail' false) :
    tail' + nops ≤ head + gcThreshold := by
  rw [appendChecked] at h
  split at h
  · cases h
  · split at h
    · cases h
    · injection h with htail hadvance
      subst htail
      exact Nat.le_of_not_lt (of_decide_eq_false hadvance)

end Collecting

/-- The slot `execute` unwraps is filled. -/
theorem logEntry_ne_none_of_dispatch {c : State DT} (h : (machine DT).Reachable c) {n : NodeId}
    {t : Thread DT} {ret : Return} {version globalTail : Nat} (ht : c.threads n = some t)
    (hpc : t.pc = .executeDispatch ret version globalTail) :
    (c.slog (index version)).logEntry ≠ none := by
  obtain ⟨u, hu, b, hb, hc⟩ := exists_implements h
  have hbi := CyclicBuffer.inv_of_reachable hb
  obtain ⟨phase, buffer, _, hbuffer, hcoupled⟩ :=
    hc.exists_phases (UnboundedLog.inv_of_reachable hu) hbi ht
  simp only [Thread.Coupled, hpc] at hcoupled
  obtain ⟨_, ⟨start, val, rfl⟩, _⟩ := hcoupled
  obtain ⟨entry, hsome, _⟩ := hc.guarded_entry hbi hbuffer
  rw [hsome]
  simp

section Steps

variable {c c' : State DT} {n : NodeId} {t : Thread DT} {label : Label DT}

private theorem advanceStored_ne_store (globalTail least : Nat) :
    advanceStored globalTail least ≠ .advanceStoreHead globalTail least := by
  rw [advanceStored]
  split <;> simp

/-- A reservation: whoever crosses the threshold advances the head. -/
theorem Collects.reserved (h : Collects c) (ht : c.threads n = some t) {tail : Nat}
    {advance : Bool} (hpc : t.pc = .appendReserve tail advance) :
    Collects ({ c with tail := tail + t.operations.length }.goto n t
      (appendNext t.operations.length tail 0 advance)) where
  collecting := by
    intro i hle hlt
    change c.head + gcThreshold ≤ i at hle
    change i < tail + t.operations.length at hlt
    cases advance with
    | true => exact ⟨n, _, PMap.insert_self _ _ _, collecting_appendNext _ _ _ i⟩
    | false =>
      have := h.reserve n t tail ht hpc
      omega
  reserve := by
    intro m s tail' hs heq
    rcases (PMap.insert_eq_some _ _ _ _ _).mp hs with ⟨_, rfl⟩ | ⟨_, hold⟩
    · exact absurd heq (quiet_appendNext _ _ _ _ _ _)
    · exact h.reserve m s tail' hold heq

/-- A head stored no lower: the thread returns only when the tail it had loaded left room, so
what still lies past the threshold is on another thread's account. -/
theorem Collects.headStored (h : Collects c) (ht : c.threads n = some t)
    {globalTail least : Nat} (hpc : t.pc = .advanceStoreHead globalTail least)
    (hhead : c.head ≤ least) :
    Collects ({ c with head := least }.goto n t (advanceStored globalTail least)) := by
  have hstored : Collects { c with head := least } :=
    { collecting := fun i hle hlt ↦
        h.collecting i ((Nat.add_le_add_right hhead _).trans hle) hlt
      reserve := fun m s tail hs heq ↦
        (h.reserve m s tail hs heq).trans (Nat.add_le_add_right hhead _) }
  apply hstored.setThread ht
  · intro i hle _ hi
    rw [hpc] at hi
    change least + gcThreshold ≤ i at hle
    change i < globalTail at hi
    change (advanceStored globalTail least).Collecting i
    rw [advanceStored]
    split
    · next hroom =>
      have hgc : gcThreshold = logSize - gcFromHead := rfl
      omega
    · exact rfl
  · exact fun tail heq ↦ absurd heq (quiet_advanceStored _ _ tail false)

private theorem Collects.combiner (h : Collects c) (hc : (machine DT).Reachable c)
    (ht : c.threads n = some t) (hstep : CombinerStep n t c label c')
    (hfresh : FreshStore c label c') : Collects c' := by
  cases hstep with
  | appendLoadTail hpc => exact h.goto ht hpc (fun _ _ hi ↦ hi.elim) (by simp [Pc.Quiet])
  | appendLoadHead tail hpc =>
    apply h.setThread ht
    · rw [hpc]
      exact fun _ _ _ hi ↦ False.elim hi
    · exact fun _ heq ↦ le_of_appendChecked_eq heq
  | reserve tail advance hpc htail => exact h.reserved ht hpc
  | reserveFail tail advance hpc => exact h.goto ht hpc (fun _ _ hi ↦ hi.elim) (by simp [Pc.Quiet])
  | writeEntry tail idx advance op hpc hop =>
    exact .goto ⟨h.collecting, h.reserve⟩ ht hpc (fun _ _ hi ↦ hi) (by simp [Pc.Quiet])
  | storeAlive tail idx advance hpc =>
    refine .goto ⟨h.collecting, h.reserve⟩ ht hpc ?_ (quiet_appendNext _ _ _ _)
    intro i _ hi
    change advance = true at hi
    rw [hi]
    exact collecting_appendNext _ _ _ i
  | advanceLoadHead hpc => exact h.goto ht hpc (fun _ _ hi ↦ hi) (by simp [Pc.Quiet])
  | advanceLoadTail globalHead hpc => exact h.goto ht hpc (fun _ hlt _ ↦ hlt) (by simp [Pc.Quiet])
  | advanceLoadFirst globalHead globalTail version hpc hlocal =>
    exact h.goto ht hpc (fun _ _ hi ↦ collecting_advanceNext hi) (quiet_advanceNext _ _ _ _ _)
  | advanceLoadNext globalHead globalTail least idx version hpc hlocal =>
    exact h.goto ht hpc (fun _ _ hi ↦ collecting_advanceNext hi) (quiet_advanceNext _ _ _ _ _)
  | storeHead globalTail least hpc =>
    apply h.headStored ht hpc
    apply hfresh n t globalTail least ht hpc
    intro heq
    have hold := Option.some.inj ((PMap.insert_self _ _ _).symm.trans heq)
    rw [← hold] at hpc
    exact advanceStored_ne_store globalTail least hpc
  | executeLoadLocal ret version hpc hlocal =>
    exact h.goto ht hpc (fun _ _ hi ↦ hi) (by simp [Pc.Quiet])
  | executeLoadTail ret version hpc =>
    exact h.goto ht hpc (fun i _ hi ↦ collecting_executeChecked hi version c.tail i)
      (quiet_executeChecked _ _ _)
  | executeLoadAlive ret version globalTail hpc =>
    refine h.goto ht hpc (fun i _ hi ↦ ?_) ?_
    · split <;> exact hi
    · split <;> simp [Pc.Quiet]
  | dispatch ret version globalTail entry view hpc hentry hdata =>
    refine .setThread ⟨h.collecting, h.reserve⟩ ht ?_ fun tail heq ↦
      absurd heq (quiet_executeNext _ _ _ tail false)
    rw [hpc]
    exact fun i _ _ hi ↦ collecting_executeNext hi (version + 1) globalTail i
  | dispatchPanic ret version globalTail hpc hentry =>
    exact absurd hentry (logEntry_ne_none_of_dispatch hc ht hpc)
  | fetchMax ret globalTail hpc =>
    exact .goto ⟨h.collecting, h.reserve⟩ ht hpc (fun _ _ hi ↦ hi) (by simp [Pc.Quiet])
  | storeLocal ret globalTail hpc =>
    exact .goto ⟨h.collecting, h.reserve⟩ ht hpc (fun i _ hi ↦ collecting_resume hi i)
      (quiet_resume ret)

/-- A step without a stale store keeps a collector for every entry past the threshold. -/
theorem Collects.next (h : Collects c) (hc : (machine DT).Reachable c)
    (hstep : Next c label c') (hfresh : FreshStore c label c') : Collects c' := by
  cases hstep with
  | combiner nodeId t hthread hstep => exact h.combiner hc hthread hstep hfresh
  | reader rid hstep => cases hstep <;> exact ⟨h.collecting, h.reserve⟩
  | collect nodeId t requestIds operations hthread hpc hnodup hmax htickets =>
    refine .setThread ⟨h.collecting, h.reserve⟩ hthread ?_ nofun
    rw [hpc]
    exact fun _ _ _ hi ↦ hi.elim
  | callExecute nodeId t hthread hpc =>
    refine h.setThread hthread ?_ nofun
    rw [hpc]
    exact fun _ _ _ hi ↦ hi.elim
  | distribute nodeId t hthread hpc =>
    refine .setThread ⟨h.collecting, h.reserve⟩ hthread ?_ nofun
    rw [hpc]
    exact fun _ _ _ hi ↦ hi.elim
  | _ => exact ⟨h.collecting, h.reserve⟩

/-- A thread about to store the head goes on only by storing it. -/
theorem Next.head_eq_of_store (hstep : Next c label c') {globalTail least : Nat}
    (ht : c.threads n = some t) (hpc : t.pc = .advanceStoreHead globalTail least)
    (hmoved : c'.threads n ≠ some t) : c'.head = least := by
  have hother : ∀ {m : NodeId} {s : Thread DT}, c'.threads = c.threads.insert m s → m = n := by
    intro m s heq
    by_contra hne
    exact hmoved (by rw [heq, PMap.insert_of_ne _ _ (Ne.symm hne), ht])
  cases hstep with
  | combiner m s hs hstep =>
    obtain rfl : m = n := by cases hstep <;> exact hother rfl
    obtain rfl : s = t := Option.some.inj (hs.symm.trans ht)
    cases hstep with
    | storeHead globalTail' least' hpc' =>
      injection hpc'.symm.trans hpc
    | _ => cases ‹_ = _›.symm.trans hpc
  | reader rid hstep => cases hstep <;> exact absurd ht hmoved
  | collect m s requestIds operations hs hpc' hnodup hmax htickets =>
    obtain rfl := hother rfl
    obtain rfl : s = t := Option.some.inj (hs.symm.trans ht)
    cases hpc'.symm.trans hpc
  | callExecute m s hs hpc' =>
    obtain rfl := hother rfl
    obtain rfl : s = t := Option.some.inj (hs.symm.trans ht)
    cases hpc'.symm.trans hpc
  | distribute m s hs hpc' =>
    obtain rfl := hother rfl
    obtain rfl : s = t := Option.some.inj (hs.symm.trans ht)
    cases hpc'.symm.trans hpc
  | _ => exact absurd ht hmoved

/-- A step that does not take the head back stores no stale minimum. -/
theorem freshStore_of_head_le (hstep : Next c label c') (hhead : c.head ≤ c'.head) :
    FreshStore c label c' :=
  fun _ _ _ _ ht hpc hmoved ↦ hhead.trans (hstep.head_eq_of_store ht hpc hmoved).le

end Steps

private theorem collects_initialState (numReplicas : Nat) :
    Collects (initialState DT numReplicas) where
  collecting := fun _ _ hlt ↦ absurd hlt (Nat.not_lt_zero _)
  reserve := by
    intro n t tail ht hpc
    simp only [initialState] at ht
    split at ht
    · cases ht
      cases hpc
    · cases ht

/-- In every run without a stale store of the head, whenever appends wait some combiner is
between the reservation that crossed the threshold and its return from `advance_head`. -/
theorem collected_of_freshStore {c : State DT}
    (h : ((machine DT).restrict FreshStore).Reachable c) : c.Collected := by
  have hboth : (machine DT).Reachable c ∧ Collects c := by
    refine h.invariant (I := fun s ↦ (machine DT).Reachable s ∧ Collects s) ?_ ?_
    · rintro _ ⟨numReplicas, hpos, rfl⟩
      exact ⟨.of_init ⟨numReplicas, hpos, rfl⟩, collects_initialState numReplicas⟩
    · rintro s label s' ⟨hs, hcollects⟩ ⟨hstep, hfresh⟩
      exact ⟨hs.step hstep, hcollects.next hs hstep hfresh⟩
  exact hboth.2.collected

section Orphaned

/-- Appends wait, nobody advances the head, and no thread is about to reserve at the tail. -/
structure Orphaned (c : State DT) : Prop where
  nearlyFull : c.NearlyFull
  nobody : ∀ n t, c.threads n = some t → ¬ t.pc.Advancing
  reserve : ∀ n t advance, c.threads n = some t → t.pc ≠ .appendReserve c.tail advance

variable {c c' : State DT} {n : NodeId} {t t' : Thread DT} {label : Label DT}

private theorem Orphaned.not_collected (h : Orphaned c) : ¬ c.Collected := by
  intro hcollected
  obtain ⟨n, t, ht, hpc⟩ := hcollected h.nearlyFull
  exact h.nobody n t ht hpc

private theorem Orphaned.setThread (h : Orphaned c) (hpc : ¬ t'.pc.Advancing)
    (hreserve : ∀ advance, t'.pc ≠ .appendReserve c.tail advance) :
    Orphaned (c.setThread n t') where
  nearlyFull := h.nearlyFull
  nobody := by
    intro m s hs
    rcases (PMap.insert_eq_some _ _ _ _ _).mp hs with ⟨_, rfl⟩ | ⟨_, hold⟩
    · exact hpc
    · exact h.nobody m s hold
  reserve := by
    intro m s advance hs
    rcases (PMap.insert_eq_some _ _ _ _ _).mp hs with ⟨_, rfl⟩ | ⟨_, hold⟩
    · exact hreserve advance
    · exact h.reserve m s advance hold

private theorem Orphaned.goto {pc : Pc} (h : Orphaned c) (hpc : ¬ pc.Advancing)
    (hquiet : pc.Quiet) : Orphaned (c.goto n t pc) :=
  h.setThread hpc (hquiet c.tail)

private theorem not_advancing_appendNext (nops tail idx : Nat) :
    ¬ (appendNext nops tail idx false).Advancing := by
  rw [appendNext]
  split
  · simp [Pc.Advancing]
  · simp [Pc.Advancing]

private theorem not_advancing_executeNext {ret : Return} (h : ret ≠ .advanceHead)
    (version globalTail : Nat) : ¬ (executeNext ret version globalTail).Advancing := by
  rw [executeNext]
  split <;> exact h

private theorem not_advancing_resume {ret : Return} (h : ret ≠ .advanceHead) :
    ¬ ret.resume.Advancing := by
  cases ret with
  | append => exact nofun
  | advanceHead => exact absurd rfl h
  | combine => exact nofun

private theorem not_advancing_executeChecked {ret : Return} (h : ret ≠ .advanceHead)
    (version globalTail : Nat) : ¬ (executeChecked ret version globalTail).Advancing := by
  rw [executeChecked]
  split
  · exact not_advancing_resume h
  · exact not_advancing_executeNext h version globalTail

-- An append that loads both ends of a nearly full log does not reserve at the tail.
private theorem appendChecked_ne_reserve {tail head nops : Nat} (hfull : c.NearlyFull)
    (hhead : head = c.head) (advance : Bool) :
    appendChecked tail head nops ≠ .appendReserve c.tail advance := by
  subst hhead
  change c.head + gcThreshold < c.tail at hfull
  rw [gcThreshold] at hfull
  intro heq
  rw [appendChecked] at heq
  split at heq
  · cases heq
  · split at heq
    · cases heq
    · injection heq with htail _
      omega

private theorem Orphaned.combiner (h : Orphaned c) (ht : c.threads n = some t)
    (hstep : CombinerStep n t c label c') :
    Orphaned c' ∧ c'.head = c.head ∧ c'.tail = c.tail := by
  have hnot := h.nobody n t ht
  cases hstep with
  | appendLoadTail hpc => exact ⟨h.goto id (by simp [Pc.Quiet]), rfl, rfl⟩
  | appendLoadHead tail hpc =>
    refine ⟨h.setThread ?_ (appendChecked_ne_reserve h.nearlyFull rfl), rfl, rfl⟩
    change ¬ (appendChecked _ _ _).Advancing
    rw [appendChecked]
    split
    · simp [Pc.Advancing]
    · split <;> exact id
  | reserve tail advance hpc htail => exact absurd (htail ▸ hpc) (h.reserve n t advance ht)
  | reserveFail tail advance hpc => exact ⟨h.goto id (by simp [Pc.Quiet]), rfl, rfl⟩
  | writeEntry tail idx advance op hpc hop =>
    rw [hpc] at hnot
    exact ⟨.goto ⟨h.nearlyFull, h.nobody, h.reserve⟩ hnot (by simp [Pc.Quiet]), rfl, rfl⟩
  | storeAlive tail idx advance hpc =>
    rw [hpc] at hnot
    obtain rfl : advance = false := Bool.not_eq_true _ ▸ hnot
    exact ⟨.goto ⟨h.nearlyFull, h.nobody, h.reserve⟩ (not_advancing_appendNext _ _ _)
      (quiet_appendNext _ _ _ _), rfl, rfl⟩
  | executeLoadLocal ret version hpc hlocal =>
    rw [hpc] at hnot
    exact ⟨h.goto hnot (by simp [Pc.Quiet]), rfl, rfl⟩
  | executeLoadTail ret version hpc =>
    rw [hpc] at hnot
    exact ⟨h.goto (not_advancing_executeChecked hnot _ _) (quiet_executeChecked _ _ _), rfl,
      rfl⟩
  | executeLoadAlive ret version globalTail hpc =>
    rw [hpc] at hnot
    refine ⟨h.goto ?_ ?_, rfl, rfl⟩
    · split <;> exact hnot
    · split <;> simp [Pc.Quiet]
  | dispatch ret version globalTail entry view hpc hentry hdata =>
    rw [hpc] at hnot
    exact ⟨.setThread ⟨h.nearlyFull, h.nobody, h.reserve⟩ (not_advancing_executeNext hnot _ _)
      (quiet_executeNext _ _ _ c.tail), rfl, rfl⟩
  | dispatchPanic ret version globalTail hpc hentry =>
    exact ⟨h.goto id (by simp [Pc.Quiet]), rfl, rfl⟩
  | fetchMax ret globalTail hpc =>
    rw [hpc] at hnot
    exact ⟨.goto ⟨h.nearlyFull, h.nobody, h.reserve⟩ hnot (by simp [Pc.Quiet]), rfl, rfl⟩
  | storeLocal ret globalTail hpc =>
    rw [hpc] at hnot
    exact ⟨.goto ⟨h.nearlyFull, h.nobody, h.reserve⟩ (not_advancing_resume hnot)
      (quiet_resume ret), rfl, rfl⟩
  | advanceLoadHead hpc => exact absurd (hpc ▸ trivial) hnot
  | advanceLoadTail globalHead hpc => exact absurd (hpc ▸ trivial) hnot
  | advanceLoadFirst globalHead globalTail version hpc hlocal => exact absurd (hpc ▸ trivial) hnot
  | advanceLoadNext globalHead globalTail least idx version hpc hlocal =>
    exact absurd (hpc ▸ trivial) hnot
  | storeHead globalTail least hpc => exact absurd (hpc ▸ trivial) hnot

/-- With collection orphaned, no step moves an end of the log or starts collecting again. -/
theorem Orphaned.next (h : Orphaned c) (hstep : Next c label c') :
    Orphaned c' ∧ c'.head = c.head ∧ c'.tail = c.tail := by
  cases hstep with
  | combiner nodeId t hthread hstep => exact h.combiner hthread hstep
  | reader rid hstep =>
    cases hstep <;> exact ⟨⟨h.nearlyFull, h.nobody, h.reserve⟩, rfl, rfl⟩
  | collect nodeId t requestIds operations hthread hpc hnodup hmax htickets =>
    exact ⟨.setThread ⟨h.nearlyFull, h.nobody, h.reserve⟩ nofun nofun, rfl, rfl⟩
  | callExecute nodeId t hthread hpc => exact ⟨h.setThread nofun nofun, rfl, rfl⟩
  | distribute nodeId t hthread hpc =>
    exact ⟨.setThread ⟨h.nearlyFull, h.nobody, h.reserve⟩ nofun nofun, rfl, rfl⟩
  | _ => exact ⟨⟨h.nearlyFull, h.nobody, h.reserve⟩, rfl, rfl⟩

/-- Orphaned collection stays orphaned in every continuation of the run. -/
theorem Orphaned.run {labels : List (Label DT)} (h : Orphaned c)
    (hrun : (machine DT).Run c labels c') :
    Orphaned c' ∧ c'.head = c.head ∧ c'.tail = c.tail := by
  refine hrun.invariant (I := fun s ↦ Orphaned s ∧ s.head = c.head ∧ s.tail = c.tail) ?_
    ⟨h, rfl, rfl⟩
  rintro s label s' ⟨hs, hhead, htail⟩ hstep
  obtain ⟨hs', hhead', htail'⟩ := hs.next hstep
  exact ⟨hs', hhead'.trans hhead, htail'.trans htail⟩

end Orphaned

section StaleHead

variable {α : Type} {head tail : Nat} {version : Bool → Nat} {pc : Bool → Pc}

/-- What the first and the second replica have. -/
def two (first second : α) (n : Bool) : α := cond n second first

private theorem update_two_false (a b x : α) : Function.update (two a b) false x = two x b := by
  funext n
  cases n <;> rfl

private theorem update_two_true (a b x : α) : Function.update (two a b) true x = two a x := by
  funext n
  cases n <;> rfl

/-- Two replicas of a counter whose log has not wrapped around: its ends, the versions both
replicas published and the next access of both threads. -/
structure Scene (head tail : Nat) (version : Bool → Nat) (pc : Bool → Pc) (c : State counter) :
    Prop where
  numReplicas : c.numReplicas = 2
  slots : ∀ i < tail, ∃ entry, c.slog (index i) = ⟨some entry, isAliveValue i⟩
  head : c.head = head
  tail : c.tail = tail
  localVersions : ∀ n : Bool, c.localVersions n.toNat = some (version n)
  threads : ∀ n : Bool, ∃ t, c.threads n.toNat = some t ∧ t.pc = pc n
  nobody : ∀ n : Nat, 2 ≤ n → c.threads n = none
  data : ∀ n : Bool, ∃ view, c.data n.toNat = some view
  readers : c.readers = .empty
  tickets : ∃ k, ∀ rid : Nat, k ≤ rid → c.tickets rid = none

/-- Such a state that is reached without a stale store of the head. -/
def Staged (head tail : Nat) (version : Bool → Nat) (pc : Bool → Pc) : Prop :=
  ∃ c, ((machine counter).restrict FreshStore).Reachable c ∧ Scene head tail version pc c

private theorem freshStep {c c' : State counter} {label : Label counter}
    (hc : ((machine counter).restrict FreshStore).Reachable c) (hstep : Next c label c')
    (hhead : c.head ≤ c'.head) : ((machine counter).restrict FreshStore).Reachable c' :=
  hc.step ⟨hstep, freshStore_of_head_le hstep hhead⟩

private theorem toNat_ne {m n : Bool} (h : m ≠ n) : m.toNat ≠ n.toNat := by
  cases m <;> cases n <;> simp_all

private theorem Scene.setThread {c : State counter} (h : Scene head tail version pc c) (n : Bool)
    (t : Thread counter) :
    Scene head tail version (Function.update pc n t.pc) (c.setThread n.toNat t) :=
  { h with
    threads := by
      intro m
      by_cases hm : m = n
      · subst hm
        rw [Function.update_self]
        exact ⟨t, PMap.insert_self _ _ _, rfl⟩
      · rw [Function.update_of_ne hm]
        obtain ⟨s, hs, hpc⟩ := h.threads m
        exact ⟨s, (PMap.insert_of_ne _ _ (toNat_ne hm)).trans hs, hpc⟩
    nobody := by
      intro m hm
      have hne : m ≠ n.toNat := fun heq ↦ absurd n.toNat_lt (by omega)
      exact (PMap.insert_of_ne _ _ hne).trans (h.nobody m hm) }

private theorem Scene.goto {c : State counter} (h : Scene head tail version pc c) (n : Bool)
    (t : Thread counter) (pc' : Pc) :
    Scene head tail version (Function.update pc n pc') (c.goto n.toNat t pc') :=
  h.setThread n { t with pc := pc' }

private theorem Staged.goto (h : Staged head tail version pc) (n : Bool) {pc' : Pc}
    (hstep : ∀ c t, Scene head tail version pc c → t.pc = pc n →
      CombinerStep n.toNat t c .internal (c.goto n.toNat t pc')) :
    Staged head tail version (Function.update pc n pc') := by
  obtain ⟨c, hc, hs⟩ := h
  obtain ⟨t, ht, hpc⟩ := hs.threads n
  exact ⟨_, freshStep hc (.combiner n.toNat t ht (hstep c t hs hpc)) le_rfl, hs.goto n t pc'⟩

private theorem Staged.executeEntry (h : Staged head tail version pc) (n : Bool) {ret : Return}
    {i globalTail : Nat} (hpc : pc n = .executeLoadAlive ret i globalTail) (hlt : i < tail) :
    Staged head tail version (Function.update pc n (executeNext ret (i + 1) globalTail)) := by
  have halive : Staged head tail version
      (Function.update pc n (.executeDispatch ret i globalTail)) := by
    apply h.goto n
    intro c t hs hold
    obtain ⟨entry, hslot⟩ := hs.slots i hlt
    have hstep := @CombinerStep.executeLoadAlive counter n.toNat t c ret i globalTail
      (hold.trans hpc)
    rwa [hslot, if_pos rfl] at hstep
  obtain ⟨c, hc, hs⟩ := halive
  obtain ⟨t, ht, hold⟩ := hs.threads n
  rw [Function.update_self] at hold
  obtain ⟨entry, hslot⟩ := hs.slots i hlt
  obtain ⟨view, hview⟩ := hs.data n
  have happlied : Scene head tail version (Function.update pc n (.executeDispatch ret i globalTail))
      { c with data := c.data.insert n.toNat (counter.dispatchMutSpec view entry.op).1 } :=
    { hs with
      data := by
        intro m
        by_cases hm : m = n
        · subst hm
          exact ⟨_, PMap.insert_self _ _ _⟩
        · obtain ⟨w, hw⟩ := hs.data m
          exact ⟨w, (PMap.insert_of_ne _ _ (toNat_ne hm)).trans hw⟩ }
  have hnext := happlied.setThread n ⟨executeNext ret (i + 1) globalTail, t.requestIds,
    t.operations, pushResponse t.responses n.toNat entry
      (counter.dispatchMutSpec view entry.op).2⟩
  rw [Function.update_idem] at hnext
  exact ⟨_, freshStep hc (.combiner n.toNat t ht (.dispatch ret i globalTail entry view hold
    (congrArg BufferEntry.logEntry hslot) hview)) le_rfl, hnext⟩

private theorem Staged.executeLoop (h : Staged head tail version pc) (n : Bool) {ret : Return}
    (k i : Nat) (hi : i + k = tail) (hpc : pc n = executeNext ret i tail) :
    Staged head tail version (Function.update pc n (.executeFetchMax ret tail)) := by
  induction k generalizing i pc with
  | zero =>
    rw [executeNext, if_neg (by omega)] at hpc
    rwa [← hpc, Function.update_eq_self]
  | succ k ih =>
    rw [executeNext, if_pos (by omega)] at hpc
    have hrest := ih (h.executeEntry n hpc (by omega)) (i + 1) (by omega)
      (Function.update_self _ _ _)
    rwa [Function.update_idem] at hrest

-- A thread that has entries to apply loads the tail, applies them and raises the bound.
private theorem Staged.execute (h : Staged head tail version pc) (n : Bool) {ret : Return}
    (hpc : pc n = .executeLoadLocal ret) (hlt : version n < tail) :
    Staged head tail version (Function.update pc n (.executeStoreLocal ret tail)) := by
  have hlocal : Staged head tail version
      (Function.update pc n (.executeLoadTail ret (version n))) :=
    h.goto n fun c t hs hold ↦ .executeLoadLocal ret (version n) (hold.trans hpc)
      (hs.localVersions n)
  have htail : Staged head tail version
      (Function.update pc n (executeNext ret (version n) tail)) := by
    rw [← Function.update_idem (f := pc)]
    apply hlocal.goto n
    intro c t hs hold
    rw [Function.update_self] at hold
    have hstep := @CombinerStep.executeLoadTail counter n.toNat t c ret (version n) hold
    rwa [hs.tail, executeChecked, if_neg hlt.ne] at hstep
  have hloop := htail.executeLoop n (tail - version n) (version n) (by omega)
    (Function.update_self _ _ _)
  rw [Function.update_idem] at hloop
  obtain ⟨c, hc, hs⟩ := hloop
  obtain ⟨t, ht, hold⟩ := hs.threads n
  rw [Function.update_self] at hold
  have hraised : Scene head tail version (Function.update pc n (.executeFetchMax ret tail))
      { c with versionUpperBound := max c.versionUpperBound tail } := { hs with }
  have hnext := hraised.goto n t (.executeStoreLocal ret tail)
  rw [Function.update_idem] at hnext
  exact ⟨_, freshStep hc (.combiner n.toNat t ht (.fetchMax ret tail hold)) le_rfl, hnext⟩

private theorem Staged.publish (h : Staged head tail version pc) (n : Bool) {ret : Return}
    {globalTail : Nat} (hpc : pc n = .executeStoreLocal ret globalTail) :
    Staged head tail (Function.update version n globalTail)
      (Function.update pc n ret.resume) := by
  obtain ⟨c, hc, hs⟩ := h
  obtain ⟨t, ht, hold⟩ := hs.threads n
  have hstored : Scene head tail (Function.update version n globalTail) pc
      { c with localVersions := c.localVersions.insert n.toNat globalTail } :=
    { hs with
      localVersions := by
        intro m
        by_cases hm : m = n
        · subst hm
          rw [Function.update_self]
          exact PMap.insert_self _ _ _
        · rw [Function.update_of_ne hm]
          exact (PMap.insert_of_ne _ _ (toNat_ne hm)).trans (hs.localVersions m) }
  exact ⟨_, freshStep hc (.combiner n.toNat t ht
    (.storeLocal ret globalTail (hold.trans hpc))) le_rfl, hstored.goto n t ret.resume⟩

private theorem exists_unused_distribute (responses : List (ReqId × counter.Response))
    {tickets : PMap ReqId (Ticket counter)}
    (h : ∃ k, ∀ rid : Nat, k ≤ rid → tickets rid = none) :
    ∃ k, ∀ rid : Nat, k ≤ rid → distribute tickets responses rid = none := by
  induction responses generalizing tickets with
  | nil => exact h
  | cons head rest ih =>
    apply ih
    obtain ⟨k, hk⟩ := h
    refine ⟨max k (head.1 + 1), fun rid hle ↦ ?_⟩
    rw [PMap.insert_of_ne _ _ (Nat.ne_of_gt (by omega))]
    exact hk rid (by omega)

private theorem Staged.finish (h : Staged head tail version pc) (n : Bool)
    (hpc : pc n = .finished) :
    Staged head tail version (Function.update pc n .idle) := by
  obtain ⟨c, hc, hs⟩ := h
  obtain ⟨t, ht, hold⟩ := hs.threads n
  have hanswered : Scene head tail version pc
      { c with tickets := distribute c.tickets (t.requestIds.zip t.responses) } :=
    { hs with tickets := exists_unused_distribute _ hs.tickets }
  exact ⟨_, freshStep hc (.distribute n.toNat t ht (hold.trans hpc)) le_rfl,
    hanswered.setThread n (.idle counter)⟩

private theorem Staged.catchUp (h : Staged head tail version pc) (n : Bool)
    (hpc : pc n = .executeLoadLocal .combine) (hlt : version n < tail) :
    Staged head tail (Function.update version n tail) (Function.update pc n .idle) := by
  have hpublished := (h.execute n hpc hlt).publish n (Function.update_self _ _ _)
  have hfinished := hpublished.finish n (Function.update_self _ _ _)
  rwa [Function.update_idem, Function.update_idem] at hfinished

-- A thread with the operations it collected, at an access.
private def Combining (n : Bool) (operations : List counter.WriteOperation) (pc : Pc)
    (c : State counter) : Prop :=
  ∃ requestIds, c.threads n.toNat = some ⟨pc, requestIds, operations, []⟩

private theorem Staged.collectOne (h : Staged head tail version pc) (n : Bool)
    (hpc : pc n = .idle) :
    ∃ c, ((machine counter).restrict FreshStore).Reachable c ∧
      Scene head tail version (Function.update pc n .appendLoadTail) c ∧
      Combining n [(1 : Nat)] .appendLoadTail c := by
  obtain ⟨c, hc, hs⟩ := h
  obtain ⟨t, ht, hold⟩ := hs.threads n
  obtain ⟨rid, hunused⟩ := hs.tickets
  have hstarted := freshStep hc (.startWrite rid (1 : Nat) (congrFun hs.readers rid)
    (hunused rid le_rfl)) le_rfl
  have hcollected := freshStep hstarted (.collect n.toNat t [rid] [(1 : Nat)] ht (hold.trans hpc)
    (List.nodup_singleton rid) (by decide) (.cons (PMap.insert_self _ _ _) .nil)) le_rfl
  have hscene : Scene head tail version pc
      { c with
        tickets := collect (c.tickets.insert rid (.pending (1 : Nat))) n.toNat [rid] } :=
    { hs with
      tickets := by
        refine ⟨rid + 1, fun other hle ↦ ?_⟩
        have hne : other ≠ rid := Nat.ne_of_gt hle
        apply (if_neg (fun hmem ↦ hne (List.mem_singleton.mp hmem))).trans
        exact (PMap.insert_of_ne _ _ hne).trans (hunused other (by omega)) }
  exact ⟨_, hcollected, hscene.setThread n ⟨.appendLoadTail, [rid], [(1 : Nat)], []⟩,
    [rid], PMap.insert_self _ _ _⟩

private theorem Staged.collectNone (h : Staged head tail version pc) (n : Bool)
    (hpc : pc n = .idle) :
    ∃ c, ((machine counter).restrict FreshStore).Reachable c ∧
      Scene head tail version (Function.update pc n .appendLoadTail) c ∧
      Combining n [] .appendLoadTail c := by
  obtain ⟨c, hc, hs⟩ := h
  obtain ⟨t, ht, hold⟩ := hs.threads n
  have hcollected := freshStep hc (.collect n.toNat t [] [] ht (hold.trans hpc) List.nodup_nil
    (by decide) .nil) le_rfl
  have hscene : Scene head tail version pc { c with tickets := collect c.tickets n.toNat [] } :=
    { hs with tickets := hs.tickets }
  exact ⟨_, hcollected, hscene.setThread n ⟨.appendLoadTail, [], [], []⟩, [],
    PMap.insert_self _ _ _⟩

private theorem Scene.appended {c : State counter} (h : Scene head tail version pc c)
    (hwrap : tail < logSize) (entry : CyclicBuffer.ConcreteLogEntry counter) :
    Scene head (tail + 1) version pc
      { c with
        tail := tail + 1
        slog := Function.update c.slog (index tail) ⟨some entry, isAliveValue tail⟩ } :=
  { h with
    tail := rfl
    slots := by
      intro i hi
      change ∃ entry', Function.update c.slog (index tail) _ (index i) = _
      rcases Nat.lt_succ_iff_lt_or_eq.mp hi with hlt | rfl
      · rw [Function.update_of_ne]
        · exact h.slots i hlt
        · rw [index, index, Nat.mod_eq_of_lt hwrap, Nat.mod_eq_of_lt (hlt.trans hwrap)]
          exact hlt.ne
      · rw [Function.update_self]
        exact ⟨entry, rfl⟩ }

-- An append that finds room tries to reserve, and remembers whether it crosses the threshold.
private theorem appendChecked_of_room {tail head nops : Nat} (hroom : tail ≤ head + gcThreshold)
    (hmax : tail + nops < maxIdx) :
    appendChecked tail head nops =
      .appendReserve tail (decide (tail + nops > head + gcThreshold)) := by
  rw [gcThreshold] at hroom ⊢
  rw [appendChecked, if_neg (Nat.not_lt_of_le hroom), if_neg (Nat.not_le_of_lt hmax)]

private theorem Scene.check {c : State counter}
    (hc : ((machine counter).restrict FreshStore).Reachable c)
    (hs : Scene head tail version pc c) (n : Bool) {operations : List counter.WriteOperation}
    (ht : Combining n operations .appendLoadTail c) (hroom : tail ≤ head + gcThreshold)
    (hmax : tail + operations.length < maxIdx) {next : Pc}
    (hnext : .appendReserve tail (decide (tail + operations.length > head + gcThreshold)) = next) :
    ∃ c, ((machine counter).restrict FreshStore).Reachable c ∧
      Scene head tail version (Function.update pc n next) c ∧ Combining n operations next c := by
  obtain ⟨requestIds, ht⟩ := ht
  let thread (pc : Pc) : Thread counter := ⟨pc, requestIds, operations, []⟩
  have hloaded := freshStep hc (.combiner n.toNat (thread _) ht (.appendLoadTail rfl)) le_rfl
  have hchecked := freshStep hloaded (.combiner n.toNat (thread _) (PMap.insert_self _ _ _)
    (.appendLoadHead c.tail rfl)) le_rfl
  have hscene := (hs.goto n (thread .appendLoadTail) (.appendLoadHead c.tail)).goto n
    (thread (.appendLoadHead c.tail)) (appendChecked c.tail c.head operations.length)
  have hreserve : appendChecked c.tail c.head operations.length = next := by
    rw [hs.tail, hs.head, ← hnext]
    exact appendChecked_of_room hroom hmax
  rw [Function.update_idem, hreserve] at hscene
  refine ⟨_, hchecked, hreserve ▸ hscene, requestIds, ?_⟩
  exact (PMap.insert_self _ _ _).trans (congrArg (fun pc ↦ some (thread pc)) hreserve)

private theorem Scene.reserve {c : State counter}
    (hc : ((machine counter).restrict FreshStore).Reachable c)
    (hs : Scene head tail version pc c) (hwrap : tail < logSize) (n : Bool) {advance : Bool}
    (ht : Combining n [(1 : Nat)] (.appendReserve tail advance) c) :
    Staged head (tail + 1) version (Function.update pc n (appendNext 1 tail 1 advance)) := by
  obtain ⟨requestIds, ht⟩ := ht
  let thread (pc : Pc) : Thread counter := ⟨pc, requestIds, [(1 : Nat)], []⟩
  have hreserved := freshStep hc (.combiner n.toNat (thread _) ht
    (.reserve tail advance rfl hs.tail)) le_rfl
  have hwritten := freshStep hreserved (.combiner n.toNat
    (thread (.appendWriteEntry tail 0 advance)) (PMap.insert_self _ _ _)
    (.writeEntry tail 0 advance (1 : Nat) rfl rfl)) le_rfl
  have halive := freshStep hwritten (.combiner n.toNat (thread _) (PMap.insert_self _ _ _)
    (.storeAlive tail 0 advance rfl)) le_rfl
  have hend := (hs.appended hwrap ⟨(1 : Nat), n.toNat⟩).goto n (thread .idle)
    (appendNext 1 tail 1 advance)
  refine ⟨_, halive, ?_⟩
  convert hend using 1
  simp only [State.goto, State.setThread, PMap.insert_insert, Function.update_idem,
    Function.update_self]
  rfl

-- A write comes in and its thread appends it, below the index at which the log wraps.
private theorem Staged.append (h : Staged head tail version pc) (n : Bool)
    (hpc : pc n = .idle) (hroom : tail ≤ head + gcThreshold) (hwrap : tail + 1 < logSize) :
    Staged head (tail + 1) version (Function.update pc n
      (if tail + 1 > head + gcThreshold then .advanceLoadHead
        else .executeLoadLocal .combine)) := by
  obtain ⟨c, hc, hs, ht⟩ := h.collectOne n hpc
  obtain ⟨c', hc', hs', ht'⟩ := hs.check hc n ht hroom (hwrap.trans (by decide))
    (rfl : Pc.appendReserve tail (decide (tail + 1 > head + gcThreshold)) = _)
  have hnext : appendNext 1 tail 1 (decide (tail + 1 > head + gcThreshold)) =
      if tail + 1 > head + gcThreshold then .advanceLoadHead else .executeLoadLocal .combine := by
    simp only [appendNext, Nat.lt_irrefl, if_false, decide_eq_true_eq]
  have hend := hs'.reserve hc' (by omega) n ht'
  rwa [Function.update_idem, Function.update_idem, hnext] at hend

private theorem Staged.appendNone (h : Staged head tail version pc) (n : Bool)
    (hpc : pc n = .idle) (hroom : tail ≤ head + gcThreshold) (hmax : tail < maxIdx) :
    Staged head tail version (Function.update pc n (.executeLoadLocal .combine)) := by
  obtain ⟨c, hc, hs, ht⟩ := h.collectNone n hpc
  have hcheck : decide (tail + 0 > head + gcThreshold) = false :=
    decide_eq_false (Nat.not_lt_of_le hroom)
  obtain ⟨c', hc', hs', requestIds, ht'⟩ := hs.check hc n ht hroom hmax
    (congrArg (Pc.appendReserve tail) hcheck)
  let thread : Thread counter := ⟨.appendReserve tail false, requestIds, [], []⟩
  have hreserved := freshStep hc' (.combiner n.toNat thread ht'
    (.reserve tail false rfl hs'.tail)) le_rfl
  have hscene : Scene head tail version
      (Function.update (Function.update pc n .appendLoadTail) n (.appendReserve tail false))
      { c' with tail := tail } := { hs' with tail := rfl }
  have hend := hscene.goto n thread (.executeLoadLocal .combine)
  rw [Function.update_idem, Function.update_idem] at hend
  exact ⟨_, hreserved, hend⟩

-- A combiner loads both ends of the log and finds the least published version.
private theorem Staged.scan (h : Staged head tail version pc) (n : Bool)
    (hpc : pc n = .advanceLoadHead) {least : Nat}
    (hleast : min (version false) (version true) = least) (hne : least ≠ head) :
    Staged head tail version (Function.update pc n (.advanceStoreHead tail least)) := by
  have h₁ : Staged head tail version (Function.update pc n (.advanceLoadTail head)) := by
    apply h.goto n
    intro c t hs hold
    rw [← hs.head]
    exact .advanceLoadHead (hold.trans hpc)
  have h₂ : Staged head tail version (Function.update pc n (.advanceLoadFirst head tail)) := by
    rw [← Function.update_idem (f := pc)]
    apply h₁.goto n
    intro c t hs hold
    rw [← hs.tail]
    rw [Function.update_self] at hold
    exact .advanceLoadTail head hold
  have h₃ : Staged head tail version
      (Function.update pc n (.advanceLoadNext head tail (version false) 1)) := by
    rw [← Function.update_idem (f := pc)]
    apply h₂.goto n
    intro c t hs hold
    rw [Function.update_self] at hold
    have hstep := @CombinerStep.advanceLoadFirst counter n.toNat t c head tail (version false) hold
      (hs.localVersions false)
    rwa [hs.numReplicas] at hstep
  rw [← Function.update_idem (f := pc)]
  apply h₃.goto n
  intro c t hs hold
  rw [Function.update_self] at hold
  have hstep := @CombinerStep.advanceLoadNext counter n.toNat t c head tail (version false) 1
    (version true) hold (hs.localVersions true)
  have hmin : (if version true < version false then version true else version false) = least := by
    rw [← hleast]
    split <;> omega
  rwa [hs.numReplicas, hmin, advanceNext, if_neg (by decide), if_neg hne] at hstep

-- A combiner stores the least version it found, where that does not take the head back.
private theorem Staged.storeHead (h : Staged head tail version pc) (n : Bool)
    {globalTail least : Nat} (hpc : pc n = .advanceStoreHead globalTail least)
    (hle : head ≤ least) :
    Staged least tail version (Function.update pc n (advanceStored globalTail least)) := by
  obtain ⟨c, hc, hs⟩ := h
  obtain ⟨t, ht, hold⟩ := hs.threads n
  have hstored : Scene least tail version pc { c with head := least } :=
    { hs with head := rfl }
  exact ⟨_, freshStep hc (.combiner n.toNat t ht
    (.storeHead globalTail least (hold.trans hpc))) (hs.head.le.trans hle),
    hstored.goto n t (advanceStored globalTail least)⟩

-- A thread that finds room appends one write, applies the log and publishes.
private theorem Staged.round (h : Staged head tail version pc) (n : Bool) (hpc : pc n = .idle)
    (hroom : tail + 1 ≤ head + gcThreshold) (hwrap : tail + 1 < logSize)
    (hlt : version n ≤ tail) :
    Staged head (tail + 1) (Function.update version n (tail + 1)) pc := by
  have happended := h.append n hpc (by omega) hwrap
  rw [if_neg (by omega)] at happended
  have hdone := happended.catchUp n (Function.update_self _ _ _) (Nat.lt_succ_of_le hlt)
  rwa [Function.update_idem, ← hpc, Function.update_eq_self] at hdone

private theorem staged_initial : Staged 0 0 (two 0 0) (two .idle .idle) := by
  refine ⟨initialState counter 2, .of_init ⟨2, by decide, rfl⟩, ?_⟩
  exact
    { numReplicas := rfl
      head := rfl
      tail := rfl
      localVersions := fun n ↦ by cases n <;> rfl
      threads := fun n ↦ ⟨.idle counter, by cases n <;> exact ⟨rfl, rfl⟩⟩
      nobody := fun n hn ↦ if_neg (Nat.not_lt_of_le hn)
      data := fun n ↦ ⟨counter.initSpec, by cases n <;> rfl⟩
      slots := nofun
      readers := rfl
      tickets := ⟨0, fun _ _ ↦ rfl⟩ }

-- The first replica fills the log to the threshold, while the second one has published version 1
-- and is about to publish version 2.
private theorem staged_full :
    Staged 0 gcThreshold (two gcThreshold 1) (two .idle (.executeStoreLocal .combine 2)) := by
  have hthreshold : gcThreshold = 524224 := rfl
  have hsize : logSize = 524288 := rfl
  have hfirst : Staged 0 1 (two 1 0) (two .idle .idle) := by
    have hround := staged_initial.round false rfl (by omega) (by omega) le_rfl
    rwa [update_two_false] at hround
  have hbehind : Staged 0 1 (two 1 1) (two .idle .idle) := by
    have hcaught := (hfirst.appendNone true rfl (by omega) (by decide)).catchUp true
      (Function.update_self _ _ _) (by decide)
    rwa [Function.update_idem, update_two_true, update_two_true] at hcaught
  have hsecond : Staged 0 2 (two 2 1) (two .idle .idle) := by
    have hround := hbehind.round false rfl (by omega) (by omega) le_rfl
    rwa [update_two_false] at hround
  have hpaused : Staged 0 2 (two 2 1) (two .idle (.executeStoreLocal .combine 2)) := by
    have hexecuted := (hsecond.appendNone true rfl (by omega) (by decide)).execute true
      (Function.update_self _ _ _) (by decide)
    rwa [Function.update_idem, update_two_true] at hexecuted
  have hfill : ∀ k, 2 + k ≤ gcThreshold →
      Staged 0 (2 + k) (two (2 + k) 1) (two .idle (.executeStoreLocal .combine 2)) := by
    intro k hk
    induction k with
    | zero => exact hpaused
    | succ k ih =>
      have hround := (ih (by omega)).round false rfl (by omega) (by omega) le_rfl
      rwa [update_two_false] at hround
  have hfull := hfill (gcThreshold - 2) (by omega)
  rwa [show 2 + (gcThreshold - 2) = gcThreshold by omega] at hfull

-- The first replica appends once more and has to advance the head.
private theorem staged_nearlyFull :
    Staged 0 (gcThreshold + 1) (two gcThreshold 1)
      (two .advanceLoadHead (.executeStoreLocal .combine 2)) := by
  have happended := staged_full.append false rfl (by omega) (by decide)
  rwa [if_pos (by omega), update_two_false] at happended

-- The first replica has advanced the head to 1, which is not enough, and found 2 as the next least
-- version.
private theorem staged_scanned :
    Staged 1 (gcThreshold + 1) (two (gcThreshold + 1) 2)
      (two (.advanceStoreHead (gcThreshold + 1) 2) .idle) := by
  have hthreshold : gcThreshold = 524224 := rfl
  have hstored : Staged 1 (gcThreshold + 1) (two gcThreshold 1)
      (two (.executeLoadLocal .advanceHead) (.executeStoreLocal .combine 2)) := by
    have hscan := staged_nearlyFull.scan false rfl (rfl : min gcThreshold 1 = 1) (by decide)
    have hstore := hscan.storeHead false (Function.update_self _ _ _) (by decide)
    rwa [Function.update_idem, update_two_false] at hstore
  have hexecuted : Staged 1 (gcThreshold + 1) (two (gcThreshold + 1) 1)
      (two .advanceLoadHead (.executeStoreLocal .combine 2)) := by
    have hexecute := (hstored.execute false rfl (Nat.lt_succ_self gcThreshold)).publish false
      (Function.update_self _ _ _)
    rwa [Function.update_idem, update_two_false, update_two_false] at hexecute
  have hpublished : Staged 1 (gcThreshold + 1) (two (gcThreshold + 1) 2)
      (two .advanceLoadHead .idle) := by
    have hpublish := (hexecuted.publish true rfl).finish true (Function.update_self _ _ _)
    rwa [Function.update_idem, update_two_true, update_two_true] at hpublish
  have hscan := hpublished.scan false rfl (rfl : min (gcThreshold + 1) 2 = 2) (by decide)
  rwa [update_two_false] at hscan

-- Meanwhile the second replica has appended, advanced the head further and appended again.
private theorem staged_overtaken :
    Staged (gcThreshold + 1) (gcThreshold + 3) (two (gcThreshold + 1) (gcThreshold + 2))
      (two (.advanceStoreHead (gcThreshold + 1) 2) (.executeLoadLocal .combine)) := by
  have hthreshold : gcThreshold = 524224 := rfl
  have hsize : logSize = 524288 := rfl
  have hcaught : Staged 1 (gcThreshold + 1) (two (gcThreshold + 1) (gcThreshold + 1))
      (two (.advanceStoreHead (gcThreshold + 1) 2) .idle) := by
    have hcatch := (staged_scanned.appendNone true rfl (by omega) (by decide)).catchUp true
      (Function.update_self _ _ _) (by decide)
    rwa [Function.update_idem, update_two_true, update_two_true] at hcatch
  have hcrossed : Staged 1 (gcThreshold + 2) (two (gcThreshold + 1) (gcThreshold + 1))
      (two (.advanceStoreHead (gcThreshold + 1) 2) .advanceLoadHead) := by
    have happend := hcaught.append true rfl (by omega) (by omega)
    rwa [if_pos (by omega), update_two_true] at happend
  have hadvanced : Staged (gcThreshold + 1) (gcThreshold + 2)
      (two (gcThreshold + 1) (gcThreshold + 1))
      (two (.advanceStoreHead (gcThreshold + 1) 2) (.executeLoadLocal .combine)) := by
    have hscan := hcrossed.scan true rfl (Nat.min_self (gcThreshold + 1)) (by decide)
    have hstore := hscan.storeHead true (Function.update_self _ _ _) (by omega)
    rwa [Function.update_idem, update_two_true, advanceStored, if_pos (by decide)] at hstore
  have hidle : Staged (gcThreshold + 1) (gcThreshold + 2)
      (two (gcThreshold + 1) (gcThreshold + 2))
      (two (.advanceStoreHead (gcThreshold + 1) 2) .idle) := by
    have hcatch := hadvanced.catchUp true rfl (Nat.lt_succ_self (gcThreshold + 1))
    rwa [update_two_true, update_two_true] at hcatch
  have happend := hidle.append true rfl (by omega) (by omega)
  rwa [if_neg (by omega), update_two_true] at happend

-- In a full log with neither thread advancing the head, collection is orphaned.
private theorem Scene.orphaned {c : State counter} (h : Scene head tail version pc c)
    (hfull : head + gcThreshold < tail) (hpc : ∀ n, ¬ (pc n).Advancing ∧ (pc n).Quiet) :
    Orphaned c := by
  have hthread : ∀ n t, c.threads n = some t → ∃ m, t.pc = pc m := by
    intro n t ht
    have hn : n < 2 := by
      by_contra hle
      cases ht.symm.trans (h.nobody n (Nat.le_of_not_lt hle))
    obtain ⟨m, rfl⟩ : ∃ m : Bool, m.toNat = n :=
      match n, hn with
      | 0, _ => ⟨false, rfl⟩
      | 1, _ => ⟨true, rfl⟩
    obtain ⟨s, hs, hpc⟩ := h.threads m
    obtain rfl : s = t := Option.some.inj (hs.symm.trans ht)
    exact ⟨m, hpc⟩
  refine ⟨?_, fun n t ht ↦ ?_, fun n t advance ht ↦ ?_⟩
  · rw [State.NearlyFull, h.head, h.tail]
    exact hfull
  · obtain ⟨m, hm⟩ := hthread n t ht
    rw [hm]
    exact (hpc m).1
  · obtain ⟨m, hm⟩ := hthread n t ht
    rw [hm]
    exact (hpc m).2 c.tail advance

/-- A reached state in which appends wait and the first replica is about to advance the head. -/
theorem collected_of_freshStore_nearlyFull :
    ∃ c : State counter, ((machine counter).restrict FreshStore).Reachable c ∧ c.NearlyFull ∧
      c.Collected := by
  obtain ⟨c, hc, hs⟩ := staged_nearlyFull
  refine ⟨c, hc, ?_, collected_of_freshStore hc⟩
  rw [State.NearlyFull, hs.head, hs.tail]
  omega

/-- The first replica takes the head back from `gcThreshold + 1` to 2 and returns: appends wait
for a combiner that is not there, now and in every continuation of the run. -/
theorem stale_head_orphans_collection :
    ∃ c : State counter, (machine counter).Reachable c ∧ ¬ c.Collected ∧
      ∀ labels c', (machine counter).Run c labels c' →
        ¬ c'.Collected ∧ c'.head = c.head ∧ c'.tail = c.tail := by
  obtain ⟨c, hc, hs⟩ := staged_overtaken
  obtain ⟨t, ht, hpc⟩ := hs.threads false
  have hstored : Scene 2 (gcThreshold + 3) (two (gcThreshold + 1) (gcThreshold + 2))
      (two (.advanceStoreHead (gcThreshold + 1) 2) (.executeLoadLocal .combine))
      { c with head := 2 } := { hs with head := rfl }
  have hend := hstored.goto false t (.executeLoadLocal .combine)
  rw [update_two_false] at hend
  have hreach := hc.of_restrict.step (.combiner 0 t ht (.storeHead (gcThreshold + 1) 2 hpc))
  rw [advanceStored, if_pos (by decide)] at hreach
  have horphaned : Orphaned ({ c with head := 2 }.goto 0 t (.executeLoadLocal .combine)) :=
    hend.orphaned (by omega) fun n ↦ by cases n <;> simp [two, Pc.Advancing, Pc.Quiet]
  refine ⟨_, hreach, horphaned.not_collected, fun labels c' hrun ↦ ?_⟩
  obtain ⟨hc', hhead, htail⟩ := horphaned.run hrun
  exact ⟨hc'.not_collected, hhead, htail⟩

end StaleHead

section Spent

/-- What the thread has loaded is what the ends of a log are that is collected up to `tail`. -/
def Pc.Spent (tail : Nat) : Pc → Prop
  | .advanceLoadTail globalHead => globalHead = tail
  | .advanceLoadFirst globalHead _ => globalHead = tail
  | .advanceLoadNext globalHead _ least _ => globalHead = tail ∧ least = tail
  | .advanceStoreHead _ _ => False
  | .executeLoadTail _ version => version = tail
  | .executeLoadAlive _ _ _ => False
  | .executeDispatch _ _ _ => False
  | .executeFetchMax _ _ => False
  | .executeStoreLocal _ _ => False
  | _ => True

/-- The log is collected up to its tail: every replica has published the tail, and no thread is
about to publish something else. -/
structure State.Spent (c : State DT) : Prop where
  head : c.head = c.tail
  versions : ∀ n version, c.localVersions n = some version → version = c.tail
  threads : ∀ n t, c.threads n = some t → t.pc.Spent c.tail

/-- A reader that waits for a replica to catch up, or for the lock of its data. -/
def Reader.WaitsAt (n : NodeId) : Reader DT → Prop
  | .called _ nodeId => nodeId = n
  | .syncing _ nodeId _ => nodeId = n
  | .synced _ nodeId _ => nodeId = n
  | .returned _ => False

/-- The read has not been applied. -/
def State.ReadWaits (c : State DT) (n : NodeId) (rid : ReqId) : Prop :=
  ∃ reader, c.readers rid = some reader ∧ reader.WaitsAt n

/-- Nothing is appended, collected or published, and no thread returns from `advance_head`. -/
structure State.Idles (c c' : State DT) : Prop where
  spent : c'.Spent
  head : c'.head = c.head
  tail : c'.tail = c.tail
  localVersions : c'.localVersions = c.localVersions
  advancing : ∀ n t, c.threads n = some t → t.pc.Advancing →
    ∃ t', c'.threads n = some t' ∧ t'.pc.Advancing ∧ t'.requestIds = t.requestIds
  waits : ∀ n t rid, c.threads n = some t → t.pc.Advancing → c.ReadWaits n rid →
    c'.ReadWaits n rid

variable {c c' : State DT} {n : NodeId} {t t' : Thread DT} {label : Label DT}

private theorem Pc.Advancing.locked {pc : Pc} (h : pc.Advancing) : pc.Locked := by
  cases pc with
  | idle => cases h
  | finished => cases h
  | _ => trivial

/-- A log that differs in a thread and what the ends of the log do not depend on. -/
theorem State.Spent.idles (h : c.Spent) (ht : c.threads n = some t)
    (hthreads : c'.threads = c.threads.insert n t') (hhead : c'.head = c.head)
    (htail : c'.tail = c.tail) (hversions : c'.localVersions = c.localVersions)
    (hreaders : c'.readers = c.readers) (hpc : t'.pc.Spent c.tail)
    (hstays : t.pc.Advancing → t'.pc.Advancing ∧ t'.requestIds = t.requestIds) :
    c.Idles c' where
  spent :=
    { head := by rw [hhead, htail, h.head]
      versions := by
        rw [hversions, htail]
        exact h.versions
      threads := by
        intro m s hs
        rw [htail]
        rw [hthreads] at hs
        rcases (PMap.insert_eq_some _ _ _ _ _).mp hs with ⟨_, rfl⟩ | ⟨_, hold⟩
        · exact hpc
        · exact h.threads m s hold }
  head := hhead
  tail := htail
  localVersions := hversions
  advancing := by
    intro m s hs hadvancing
    rw [hthreads]
    by_cases hm : m = n
    · subst hm
      obtain rfl : t = s := Option.some.inj (ht.symm.trans hs)
      exact ⟨t', PMap.insert_self _ _ _, hstays hadvancing⟩
    · exact ⟨s, (PMap.insert_of_ne _ _ hm).trans hs, hadvancing, rfl⟩
  waits := by
    intro m s rid _ _ hwaits
    rwa [State.ReadWaits, hreaders]

private theorem spent_appendNext (nops tail first idx : Nat) (advance : Bool) :
    (appendNext nops first idx advance).Spent tail := by
  unfold appendNext
  split
  · trivial
  · split <;> trivial

private theorem spent_appendChecked (observed head nops tail : Nat) :
    (appendChecked observed head nops).Spent tail := by
  unfold appendChecked
  split
  · trivial
  · split <;> trivial

private theorem spent_resume (ret : Return) (tail : Nat) : ret.resume.Spent tail := by
  cases ret <;> trivial

private theorem spent_advanceNext (numReplicas tail globalTail idx : Nat) :
    (advanceNext numReplicas tail globalTail tail idx).Spent tail := by
  unfold advanceNext
  split
  · exact ⟨rfl, rfl⟩
  · rw [if_pos rfl]
    trivial

private theorem advancing_advanceNext (numReplicas globalHead globalTail least idx : Nat) :
    (advanceNext numReplicas globalHead globalTail least idx).Advancing := by
  unfold advanceNext
  split
  · trivial
  · split <;> trivial

private theorem advancing_appendNext (nops first idx : Nat) :
    (appendNext nops first idx true).Advancing :=
  (collecting_appendNext nops first idx 0).advancing

/-- An access of a combiner thread that appends nothing leaves the log as it is, and the thread in
`advance_head`. -/
theorem State.Spent.combiner (h : c.Spent) (ht : c.threads n = some t)
    (hstep : CombinerStep n t c label c')
    (hnone : ∀ m tail operations, label = .reserve m tail operations → operations = []) :
    c.Idles c' := by
  have hspent := h.threads n t ht
  cases hstep with
  | appendLoadTail hpc =>
    refine h.idles ht rfl rfl rfl rfl rfl trivial fun hold ↦ ?_
    rw [hpc] at hold
    cases hold
  | appendLoadHead observed hpc =>
    refine h.idles ht rfl rfl rfl rfl rfl (spent_appendChecked _ _ _ _) fun hold ↦ ?_
    rw [hpc] at hold
    cases hold
  | reserve observed advance hpc htail =>
    have hempty := hnone n observed t.operations rfl
    have hlength : observed + t.operations.length = c.tail := by rw [hempty, htail]; rfl
    refine h.idles ht rfl rfl hlength rfl rfl (spent_appendNext _ _ _ _ _) fun hold ↦ ?_
    rw [hpc] at hold
    cases hold
  | reserveFail observed advance hpc =>
    refine h.idles ht rfl rfl rfl rfl rfl trivial fun hold ↦ ?_
    rw [hpc] at hold
    cases hold
  | writeEntry first idx advance op hpc hop =>
    refine h.idles ht rfl rfl rfl rfl rfl trivial fun hold ↦ ⟨?_, rfl⟩
    rw [hpc] at hold
    exact hold
  | storeAlive first idx advance hpc =>
    refine h.idles ht rfl rfl rfl rfl rfl (spent_appendNext _ _ _ _ _) fun hold ↦ ⟨?_, rfl⟩
    rw [hpc] at hold
    obtain rfl : advance = true := hold
    exact advancing_appendNext _ _ _
  | advanceLoadHead hpc => exact h.idles ht rfl rfl rfl rfl rfl h.head fun _ ↦ ⟨trivial, rfl⟩
  | advanceLoadTail globalHead hpc =>
    rw [hpc] at hspent
    exact h.idles ht rfl rfl rfl rfl rfl hspent fun _ ↦ ⟨trivial, rfl⟩
  | advanceLoadFirst globalHead globalTail version hpc hlocal =>
    rw [hpc] at hspent
    obtain rfl : globalHead = c.tail := hspent
    obtain rfl : version = c.tail := h.versions _ _ hlocal
    exact h.idles ht rfl rfl rfl rfl rfl (spent_advanceNext _ _ _ _)
      fun _ ↦ ⟨advancing_advanceNext _ _ _ _ _, rfl⟩
  | advanceLoadNext globalHead globalTail least idx version hpc hlocal =>
    rw [hpc] at hspent
    obtain ⟨rfl, rfl⟩ : globalHead = c.tail ∧ least = c.tail := hspent
    obtain rfl : version = c.tail := h.versions _ _ hlocal
    refine h.idles ht rfl rfl rfl rfl rfl ?_ fun _ ↦ ⟨advancing_advanceNext _ _ _ _ _, rfl⟩
    show (advanceNext _ _ _ (if _ < _ then _ else _) _).Spent _
    rw [ite_self]
    exact spent_advanceNext _ _ _ _
  | storeHead globalTail least hpc =>
    rw [hpc] at hspent
    cases hspent
  | executeLoadLocal ret version hpc hlocal =>
    refine h.idles ht rfl rfl rfl rfl rfl (h.versions _ _ hlocal) fun hold ↦ ⟨?_, rfl⟩
    rw [hpc] at hold
    exact hold
  | executeLoadTail ret version hpc =>
    rw [hpc] at hspent
    obtain rfl : version = c.tail := hspent
    have hchecked : executeChecked ret c.tail c.tail = ret.resume := if_pos rfl
    rw [hchecked]
    refine h.idles ht rfl rfl rfl rfl rfl (spent_resume _ _) fun hold ↦ ⟨?_, rfl⟩
    rw [hpc] at hold
    obtain rfl : ret = .advanceHead := hold
    trivial
  | executeLoadAlive ret version globalTail hpc =>
    rw [hpc] at hspent
    cases hspent
  | dispatch ret version globalTail entry view hpc hentry hdata =>
    rw [hpc] at hspent
    cases hspent
  | dispatchPanic ret version globalTail hpc hentry =>
    rw [hpc] at hspent
    cases hspent
  | fetchMax ret globalTail hpc =>
    rw [hpc] at hspent
    cases hspent
  | storeLocal ret globalTail hpc =>
    rw [hpc] at hspent
    cases hspent

/-- A step that leaves the combiner threads and the log as they are. -/
theorem State.Spent.idles_of_threads (h : c.Spent) (hthreads : c'.threads = c.threads)
    (hhead : c'.head = c.head) (htail : c'.tail = c.tail)
    (hversions : c'.localVersions = c.localVersions)
    (hwaits : ∀ n t rid, c.threads n = some t → t.pc.Advancing → c.ReadWaits n rid →
      c'.ReadWaits n rid) : c.Idles c' where
  spent := by
    constructor
    · rw [hhead, htail, h.head]
    · rw [hversions, htail]
      exact h.versions
    · rw [hthreads, htail]
      exact h.threads
  head := hhead
  tail := htail
  localVersions := hversions
  advancing := by
    intro m s hs hadvancing
    exact ⟨s, by rw [hthreads, hs], hadvancing, rfl⟩
  waits := hwaits

/-- A read that goes on waiting where it waits. -/
theorem State.ReadWaits.insert {rid rid' : ReqId} {reader reader' : Reader DT}
    (h : c.ReadWaits n rid) (hreader : c.readers rid' = some reader)
    (hwaits : reader.WaitsAt n → reader'.WaitsAt n)
    (hreaders : c'.readers = c.readers.insert rid' reader') : c'.ReadWaits n rid := by
  obtain ⟨old, hold, hwait⟩ := h
  by_cases heq : rid = rid'
  · subst heq
    obtain rfl : old = reader := Option.some.inj (hold.symm.trans hreader)
    exact ⟨reader', by rw [hreaders, PMap.insert_self], hwaits hwait⟩
  · exact ⟨old, by rw [hreaders, PMap.insert_of_ne _ _ heq, hold], hwait⟩

/-- A reader does not apply its read where a thread advances the head. -/
theorem ReaderStep.waits {rid rid' : ReqId} (hstep : ReaderStep rid' c c')
    (ht : c.threads n = some t) (hpc : t.pc.Advancing) (h : c.ReadWaits n rid) :
    c'.ReadWaits n rid := by
  cases hstep with
  | getVersionUpperBound op nodeId hread =>
    refine h.insert hread ?_ rfl
    exact id
  | isReplicaSyncedForReads op nodeId bound version hread hlocal =>
    refine h.insert hread ?_ rfl
    split <;> exact id
  | apply op nodeId bound s view hread hthread hlock hdata =>
    refine h.insert hread (fun hwait ↦ ?_) rfl
    obtain rfl : nodeId = n := hwait
    obtain rfl : s = t := Option.some.inj (hthread.symm.trans ht)
    exact absurd hpc.locked hlock

/-- No step but an append changes a log that is collected up to its tail. -/
theorem State.Spent.next (h : c.Spent) (hstep : Next c label c')
    (hnone : ∀ m tail operations, label = .reserve m tail operations → operations = []) :
    c.Idles c' := by
  cases hstep with
  | combiner nodeId t hthread hstep => exact h.combiner hthread hstep hnone
  | reader rid hstep =>
    have hwaits : ∀ n t rid', c.threads n = some t → t.pc.Advancing → c.ReadWaits n rid' →
        c'.ReadWaits n rid' := fun n t rid' ht hpc hwait ↦ hstep.waits ht hpc hwait
    cases hstep <;> exact h.idles_of_threads rfl rfl rfl rfl hwaits
  | startRead rid op nodeId hreaders htickets =>
    refine h.idles_of_threads rfl rfl rfl rfl fun n t rid' _ _ hwait ↦ ?_
    obtain ⟨reader, hreader, hwait⟩ := hwait
    have hne : rid' ≠ rid := by
      rintro rfl
      cases hreaders.symm.trans hreader
    exact ⟨reader, (PMap.insert_of_ne _ _ hne).trans hreader, hwait⟩
  | doneRead rid ret hread =>
    refine h.idles_of_threads rfl rfl rfl rfl fun n t rid' _ _ hwait ↦ ?_
    obtain ⟨reader, hreader, hwait⟩ := hwait
    have hne : rid' ≠ rid := by
      rintro rfl
      cases hread.symm.trans hreader
      cases hwait
    exact ⟨reader, (PMap.remove_of_ne _ hne).trans hreader, hwait⟩
  | startWrite | doneWrite => exact h.idles_of_threads rfl rfl rfl rfl fun _ _ _ _ _ hwait ↦ hwait
  | collect nodeId t requestIds operations hthread hpc hnodup hmax htickets =>
    refine h.idles hthread rfl rfl rfl rfl rfl trivial fun hold ↦ ?_
    rw [hpc] at hold
    cases hold
  | callExecute nodeId t hthread hpc =>
    refine h.idles hthread rfl rfl rfl rfl rfl trivial fun hold ↦ ?_
    rw [hpc] at hold
    cases hold
  | distribute nodeId t hthread hpc =>
    refine h.idles hthread rfl rfl rfl rfl rfl trivial fun hold ↦ ?_
    rw [hpc] at hold
    cases hold

private theorem State.Idles.trans {c'' : State DT} (h : c.Idles c') (h' : c'.Idles c'') :
    c.Idles c'' where
  spent := h'.spent
  head := h'.head.trans h.head
  tail := h'.tail.trans h.tail
  localVersions := h'.localVersions.trans h.localVersions
  advancing := by
    intro n t ht hpc
    obtain ⟨t', ht', hpc', hids⟩ := h.advancing n t ht hpc
    obtain ⟨t'', ht'', hpc'', hids'⟩ := h'.advancing n t' ht' hpc'
    exact ⟨t'', ht'', hpc'', hids'.trans hids⟩
  waits := by
    intro n t rid ht hpc hwait
    obtain ⟨t', ht', hpc', _⟩ := h.advancing n t ht hpc
    exact h'.waits n t' rid ht' hpc' (h.waits n t rid ht hpc hwait)

/-- Without an append, a log that is collected up to its tail idles in every continuation of the
run. -/
theorem State.Spent.run {labels : List (Label DT)} (h : c.Spent)
    (hrun : (machine DT).Run c labels c')
    (hnone : ∀ m tail operations, .reserve m tail operations ∈ labels → operations = []) :
    c.Idles c' := by
  induction hrun with
  | nil c =>
    exact ⟨h, rfl, rfl, rfl, fun _ t ht hpc ↦ ⟨t, ht, hpc, rfl⟩, fun _ _ _ _ _ hwait ↦ hwait⟩
  | cons hstep _ ih =>
    have hfirst := h.next hstep fun m tail operations heq ↦
      hnone m tail operations (heq ▸ List.mem_cons_self)
    exact hfirst.trans (ih hfirst.spent fun m tail operations hmem ↦
      hnone m tail operations (List.mem_cons_of_mem _ hmem))

/-- `advance_head` waits for an append. In a reached state in which the head and the version of
every replica are the tail, every thread that has loaded the head, a minimum or a version has
loaded this value, and no thread is applying entries, about to raise the bound or about to store a
head or a version, a combiner that is still advancing the head finds nothing to collect; and in
every continuation of the run in which nobody appends it goes round its loop: its requests are not
answered, and no read of its replica is applied, whatever the other threads do. -/
theorem advance_head_waits_for_append {c c' : State DT} {labels : List (Label DT)} {n : NodeId}
    {t : Thread DT} (hreach : (machine DT).Reachable c) (hspent : c.Spent)
    (ht : c.threads n = some t) (hpc : t.pc.Advancing) (hrun : (machine DT).Run c labels c')
    (hnone : ∀ m tail operations, .reserve m tail operations ∈ labels → operations = []) :
    (∃ t', c'.threads n = some t' ∧ t'.pc.Advancing ∧ t'.requestIds = t.requestIds) ∧
    (∀ rid ∈ t.requestIds, c'.tickets rid = some (.collected n)) ∧
    (∀ rid, c.ReadWaits n rid → c'.ReadWaits n rid) ∧
    c'.head = c.head ∧ c'.tail = c.tail ∧ c'.localVersions = c.localVersions := by
  have hidles := hspent.run hrun hnone
  obtain ⟨t', ht', hpc', hids⟩ := hidles.advancing n t ht hpc
  obtain ⟨u, _, b, _, hc⟩ := exists_implements (hreach.run hrun)
  refine ⟨⟨t', ht', hpc', hids⟩, fun rid hrid ↦ ?_, fun rid ↦ hidles.waits n t rid ht hpc,
    hidles.head, hidles.tail, hidles.localVersions⟩
  rw [← hids] at hrid
  exact hc.shared.owned n t' rid ht' hrid

section TwoReplicas

variable {head tail : Nat} {version : Bool → Nat} {pc : Bool → Pc}

private theorem exists_toNat {n : Nat} (hn : n < 2) : ∃ m : Bool, m.toNat = n :=
  match n, hn with
  | 0, _ => ⟨false, rfl⟩
  | 1, _ => ⟨true, rfl⟩

private theorem Scene.spent {c : State counter} (hreach : (machine counter).Reachable c)
    (h : Scene tail tail version pc c) (hversion : ∀ n, version n = tail)
    (hpc : ∀ n, (pc n).Spent tail) : c.Spent where
  head := h.head.trans h.tail.symm
  versions := by
    intro n v hv
    obtain ⟨u, hu, b, _, hc⟩ := exists_implements hreach
    rw [← hc.shared.localVersions] at hv
    have hn := ((UnboundedLog.inv_of_reachable hu).versions_dom n).mp ⟨v, hv⟩
    rw [hc.shared.numReplicas, h.numReplicas] at hn
    obtain ⟨m, rfl⟩ := exists_toNat hn
    rw [hc.shared.localVersions, h.localVersions m] at hv
    rw [h.tail, ← hversion m]
    exact (Option.some.inj hv).symm
  threads := by
    intro n t ht
    have hn : n < 2 := by
      by_contra hle
      cases ht.symm.trans (h.nobody n (Nat.le_of_not_lt hle))
    obtain ⟨m, rfl⟩ := exists_toNat hn
    obtain ⟨s, hs, heq⟩ := h.threads m
    obtain rfl : s = t := Option.some.inj (hs.symm.trans ht)
    rw [heq, h.tail]
    exact hpc m

-- Both replicas have applied the whole log and are advancing the head: the first one has not gone
-- far enough, and the second one appended in the meantime.
private theorem staged_caughtUp :
    Staged 2 (gcThreshold + 2) (two (gcThreshold + 2) (gcThreshold + 2))
      (two .advanceLoadHead .advanceLoadHead) := by
  have hthreshold : gcThreshold = 524224 := rfl
  have hsize : logSize = 524288 := rfl
  have hstored : Staged 1 (gcThreshold + 1) (two gcThreshold 1)
      (two (.executeLoadLocal .advanceHead) (.executeStoreLocal .combine 2)) := by
    have hscan := staged_nearlyFull.scan false rfl (rfl : min gcThreshold 1 = 1) (by decide)
    have hstore := hscan.storeHead false (Function.update_self _ _ _) (by decide)
    rwa [Function.update_idem, update_two_false] at hstore
  have hpublished : Staged 1 (gcThreshold + 1) (two gcThreshold 2)
      (two (.executeLoadLocal .advanceHead) .idle) := by
    have hpublish := (hstored.publish true rfl).finish true (Function.update_self _ _ _)
    rwa [Function.update_idem, update_two_true, update_two_true] at hpublish
  have happended : Staged 1 (gcThreshold + 2) (two gcThreshold 2)
      (two (.executeLoadLocal .advanceHead) .advanceLoadHead) := by
    have happend := hpublished.append true rfl (by omega) (by omega)
    rwa [if_pos (by omega), update_two_true] at happend
  have hadvanced : Staged 2 (gcThreshold + 2) (two gcThreshold 2)
      (two (.executeLoadLocal .advanceHead) (.executeLoadLocal .advanceHead)) := by
    have hscan := happended.scan true rfl (rfl : min gcThreshold 2 = 2) (by decide)
    have hstore := hscan.storeHead true (Function.update_self _ _ _) (by decide)
    rwa [Function.update_idem, update_two_true, advanceStored, if_neg (by decide)] at hstore
  have hsecond : Staged 2 (gcThreshold + 2) (two gcThreshold (gcThreshold + 2))
      (two (.executeLoadLocal .advanceHead) .advanceLoadHead) := by
    have hexecute := (hadvanced.execute true rfl (by decide)).publish true
      (Function.update_self _ _ _)
    rwa [Function.update_idem, update_two_true, update_two_true] at hexecute
  have hfirst := (hsecond.execute false rfl (by show gcThreshold < _; omega)).publish false
    (Function.update_self _ _ _)
  rwa [Function.update_idem, update_two_false, update_two_false] at hfirst

/-- The second replica stores the tail as the head and returns; the first one is left. -/
theorem advance_head_waits_for_append_two : ∃ (c : State counter) (t : Thread counter),
    (machine counter).Reachable c ∧ c.threads 0 = some t ∧ t.pc = .advanceLoadHead ∧
    ∀ labels c', (machine counter).Run c labels c' →
      (∀ m tail operations, .reserve m tail operations ∈ labels → operations = []) →
      (∃ t', c'.threads 0 = some t' ∧ t'.pc.Advancing ∧ t'.requestIds = t.requestIds) ∧
      (∀ rid ∈ t.requestIds, c'.tickets rid = some (.collected 0)) ∧
      (∀ rid, c.ReadWaits 0 rid → c'.ReadWaits 0 rid) ∧
      c'.head = c.head ∧ c'.tail = c.tail ∧ c'.localVersions = c.localVersions := by
  have hscan := staged_caughtUp.scan true rfl (Nat.min_self (gcThreshold + 2)) (by decide)
  have hstore := hscan.storeHead true (Function.update_self _ _ _) (by decide)
  rw [Function.update_idem, update_two_true, advanceStored, if_pos (by decide)] at hstore
  obtain ⟨c, hc, hs⟩ := hstore
  obtain ⟨t, ht, hpc⟩ := hs.threads false
  have hspent : c.Spent := hs.spent hc.of_restrict (fun n ↦ by cases n <;> rfl)
    fun n ↦ by cases n <;> trivial
  have hadvancing : t.pc.Advancing := hpc ▸ trivial
  exact ⟨c, t, hc.of_restrict, ht, hpc, fun labels c' hrun hnone ↦
    advance_head_waits_for_append hc.of_restrict hspent ht hadvancing hrun hnone⟩

end TwoReplicas

end Spent

end NrLog

end NrKernel.NodeReplication
