import NrKernel.NodeReplication.NrLogCoupling

/-!
# Alive bits tell generations apart

A slot of the cyclic buffer carries one bit for all the passes over the buffer, and a reader
trusts it: an alive bit of its index means that the slot holds the entry of this index, not the
one of an earlier pass and not a reserved index that is still to be written
(`spec/cyclicbuffer.rs:229–252`). Runs carry the list of all deposits, so that what a slot holds
is the last deposit made into it.
-/

namespace NrKernel.NodeReplication

open Lib

universe u

namespace CyclicBuffer

variable {DT : Dispatch.{u}}

/-! ## Deposits -/

/-- The deposits of a run after one more step, the last one first: `append_flip_bit` writes the
next reserved index (`spec/cyclicbuffer.rs:585–610`). -/
def recordDeposit (pre : State DT) (label : Label) (post : State DT)
    (deposits : List (Nat × StoredType DT)) : List (Nat × StoredType DT) :=
  match label with
  | .appendFlipBit nodeId =>
    match pre.combiner nodeId with
    | some (.appending curIdx _) =>
      match post.contents curIdx with
      | some deposited => (curIdx, deposited) :: deposits
      | none => deposits
    | _ => deposits
  | _ => deposits

variable (DT) in
/-- The cyclic buffer with its deposits. -/
def recordedMachine : Machine (State DT × List (Nat × StoredType DT)) Label :=
  (machine DT).withRecord [] recordDeposit

/-- The last deposit into a physical slot, with the index it was made for. -/
def lastDeposit (deposits : List (Nat × StoredType DT)) (bufferSize i : Nat) :
    Option (Nat × StoredType DT) :=
  deposits.find? fun deposit ↦ logEntryIdx deposit.1 bufferSize == i

/-- The buffer and its deposits agree: a stored entry is the last deposit into its slot, and an
index is written once, by the append that reserved it. -/
structure DepositsWf (s : State DT) (deposits : List (Nat × StoredType DT)) : Prop where
  stored : ∀ (i : Nat) st, s.contents i = some st →
    lastDeposit deposits s.bufferSize (logEntryIdx i s.bufferSize) = some (i, st)
  below_tail : ∀ deposit ∈ deposits, deposit.1 < s.tail
  written : ∀ deposit ∈ deposits, ∀ n curIdx tail,
    s.combiner n = some (.appending curIdx tail) → deposit.1 < curIdx ∨ tail ≤ deposit.1
  nodup : (deposits.map Prod.fst).Nodup

section DepositsWf

variable {s t : State DT} {deposits : List (Nat × StoredType DT)} {n : NodeId}

private theorem depositsWf_of_init (h : Init s) : DepositsWf s [] where
  stored := by
    intro i st hst
    have := ((h.contents_dom i).mp ⟨st, hst⟩).2
    omega
  below_tail := fun _ hmem ↦ nomatch hmem
  written := fun _ hmem ↦ nomatch hmem
  nodup := List.nodup_nil

/-- A change of phase into one that does not append leaves the deposits as they are. -/
theorem DepositsWf.quiet (h : DepositsWf s deposits) {c' : CombinerState DT}
    (hcontents : t.contents = s.contents) (hsize : t.bufferSize = s.bufferSize)
    (htail : t.tail = s.tail) (hcombiner : t.combiner = s.combiner.insert n c')
    (hquiet : ∀ curIdx tail, c' ≠ .appending curIdx tail) : DepositsWf t deposits where
  stored := by
    rw [hcontents, hsize]
    exact h.stored
  below_tail := by
    rw [htail]
    exact h.below_tail
  written := by
    intro deposit hmem m curIdx tail hm
    rw [hcombiner] at hm
    rcases (PMap.insert_eq_some _ _ _ _ _).mp hm with ⟨_, heq⟩ | ⟨_, hold⟩
    · exact absurd heq (hquiet curIdx tail)
    · exact h.written deposit hmem m curIdx tail hold
  nodup := h.nodup

/-- A range is reserved above all deposits. -/
theorem DepositsWf.advanceTail (h : DepositsWf s deposits) {newTail : Nat}
    (hadvance : s.tail ≤ newTail) {lower upper : Int} :
    DepositsWf { s with
      tail := newTail
      contents := withdraw s.contents lower upper
      combiner := s.combiner.insert n (.appending s.tail newTail) } deposits where
  stored := fun i st hst ↦ h.stored i st (withdraw_eq_some.mp hst).2
  below_tail := fun deposit hmem ↦ (h.below_tail deposit hmem).trans_le hadvance
  written := by
    intro deposit hmem m curIdx tail hm
    rcases (PMap.insert_eq_some _ _ _ _ _).mp hm with ⟨_, heq⟩ | ⟨_, hold⟩
    · cases heq
      exact .inl (h.below_tail deposit hmem)
    · exact h.written deposit hmem m curIdx tail hold
  nodup := h.nodup

/-- A deposit goes into a slot that holds no entry, and is the only one for its index. -/
theorem DepositsWf.appendFlipBit (h : DepositsWf s deposits) (hinv : Inv s) {curIdx tail : Nat}
    (hc : s.combiner n = some (.appending curIdx tail)) (hlt : curIdx < tail)
    (deposited : StoredType DT) (bits : PMap Nat Bool) :
    DepositsWf { s with
      contents := s.contents.insert (curIdx : Int) deposited
      aliveBits := bits
      combiner := s.combiner.insert n (.appending (curIdx + 1) tail) }
      ((curIdx, deposited) :: deposits) where
  stored := by
    intro i st hst
    rcases (PMap.insert_eq_some _ _ _ _ _).mp hst with ⟨heq, rfl⟩ | ⟨_, hold⟩
    · obtain rfl : i = curIdx := Int.ofNat_inj.mp heq
      exact List.find?_cons_of_pos (beq_self_eq_true _)
    · have hslot := hinv.appending_slot_free hc hlt hold
      refine (List.find?_cons_of_neg ?_).trans (h.stored i st hold)
      simpa using fun heq ↦ hslot heq.symm
  below_tail := by
    obtain ⟨v, hv⟩ := hinv.exists_version hc
    have htail : tail ≤ s.tail := (hinv.combiner_wf n _ v hc hv).2.2.1
    intro deposit hmem
    rcases List.mem_cons.mp hmem with rfl | hold
    · exact hlt.trans_le htail
    · exact h.below_tail deposit hold
  written := by
    intro deposit hmem m curIdx' tail' hm
    rcases List.mem_cons.mp hmem with rfl | hold
    · rcases (PMap.insert_eq_some _ _ _ _ _).mp hm with ⟨_, heq⟩ | ⟨hne, hold⟩
      · cases heq
        exact .inl (Nat.lt_succ_self curIdx)
      · -- the ranges of two appends do not overlap
        have hover : tail' ≤ curIdx ∨ tail ≤ curIdx' :=
          hinv.no_overlap n m _ _ hc hold (Ne.symm hne)
        change curIdx < curIdx' ∨ tail' ≤ curIdx
        omega
    · rcases (PMap.insert_eq_some _ _ _ _ _).mp hm with ⟨_, heq⟩ | ⟨_, hm'⟩
      · cases heq
        rcases h.written deposit hold n curIdx tail hc with hlow | hhigh
        · exact .inl (Nat.lt_succ_of_lt hlow)
        · exact .inr hhigh
      · exact h.written deposit hold m curIdx' tail' hm'
  nodup := by
    refine List.nodup_cons.mpr ⟨fun hmem ↦ ?_, h.nodup⟩
    obtain ⟨deposit, hdeposit, heq⟩ := List.mem_map.mp hmem
    rcases h.written deposit hdeposit n curIdx tail hc with hlow | hhigh <;> omega

/-- Every transition keeps buffer and deposits in agreement. -/
theorem DepositsWf.next (h : DepositsWf s deposits) (hinv : Inv s) {label : Label}
    (hstep : Next s label t) : DepositsWf t (recordDeposit s label t deposits) := by
  cases hstep with
  | advanceTailFinish nodeId observedHead newTail hc hadvance hspace =>
    exact h.advanceTail hadvance
  | appendFlipBit nodeId curIdx tail bit deposited hc hbit hcur hdeposit =>
    have hrecord : recordDeposit s (.appendFlipBit nodeId)
        { s with
          contents := s.contents.insert (curIdx : Int) deposited
          aliveBits := s.aliveBits.insert (logEntryIdx curIdx s.bufferSize)
            (logEntryAliveValue curIdx s.bufferSize)
          combiner := s.combiner.insert nodeId (.appending (curIdx + 1) tail) } deposits =
        (curIdx, deposited) :: deposits := by
      simp only [recordDeposit, hc, PMap.insert_self]
    rw [hrecord]
    exact h.appendFlipBit hinv hc hcur deposited _
  | readerStart | readerEnter | readerGuard | readerUnguard | readerFinish | readerAbort
  | advanceHeadStart | advanceHeadNext | advanceHeadFinish | advanceHeadAbort
  | advanceTailStart | advanceTailAbort | appendFinish =>
    exact h.quiet rfl rfl rfl rfl nofun

private theorem depositsWf_of_reachable (hreach : (recordedMachine DT).Reachable (s, deposits)) :
    DepositsWf s deposits :=
  hreach.record_invariant (fun _ hs ↦ depositsWf_of_init hs) fun _ _ _ _ hs h hstep ↦
    h.next (inv_of_reachable hs) hstep

end DepositsWf

/-! ## Observing an alive bit -/

section Observation

variable {s : State DT}

/-- Buffers keep the size of the log. -/
theorem bufferSize_of_reachable (hreach : (machine DT).Reachable s) : s.bufferSize = logSize := by
  refine hreach.invariant (I := fun s ↦ s.bufferSize = logSize) (fun _ (hs : Init _) ↦ hs.size) ?_
  intro s label t hsize hstep
  cases hstep <;> exact hsize

/-- What is stored now was deposited for the pass at hand, and none of the passes before has an
entry left. -/
theorem Inv.contents_stale (h : Inv s) {i : Int} (hi : i < s.tail) {k : Int} (hk : 0 < k) :
    s.contents (i - k * s.bufferSize) = none := by
  refine Option.eq_none_iff_forall_ne_some.mpr fun st hst ↦ ?_
  have hlower := (h.contents_dom _ st hst).1
  have hle : (s.bufferSize : Int) ≤ k * s.bufferSize := by
    have := Int.mul_le_mul_of_nonneg_right (show 1 ≤ k from hk) (Int.natCast_nonneg s.bufferSize)
    rwa [Int.one_mul] at this
  omega

/-- An alive index is not waiting for its append. -/
theorem Inv.alive_not_reserved (h : Inv s) {i : Nat} (halive : s.Alive i) {m : NodeId}
    {curIdx tail : Nat} (hm : s.combiner m = some (.appending curIdx tail)) :
    i < curIdx ∨ tail ≤ i := by
  obtain ⟨v, hv⟩ := h.exists_version hm
  obtain ⟨_, _, _, hdead⟩ := h.combiner_wf m _ v hm hv
  by_contra hin
  exact hdead i (by omega) (by omega) halive

end Observation

/-- In every reachable state, a reader at `cur` that sees the alive bit of `cur` in slot
`cur % bufferSize` finds there the entry deposited for `cur`: it is stored, it fits the index, it
is the last deposit into the slot in every run to this state and the only one for the index, no
entry of an earlier pass is left, and no append still has to write `cur`. The slot and the bit are
those the code computes. -/
theorem alive_entry_is_deposited {s : State DT} (hreach : (machine DT).Reachable s) {n : NodeId}
    {start stop cur : Nat} (hc : s.combiner n = some (.reading (.range start stop cur)))
    (hcur : cur < stop)
    (halive : s.aliveBits (cur % s.bufferSize) = some (logEntryAliveValue cur s.bufferSize)) :
    (NrLog.index cur = cur % s.bufferSize ∧
      NrLog.isAliveValue cur = logEntryAliveValue cur s.bufferSize) ∧
    ∃ st, s.contents cur = some st ∧ s.Fits st cur ∧
      (∃ deposits, (recordedMachine DT).Reachable (s, deposits)) ∧
      (∀ deposits, (recordedMachine DT).Reachable (s, deposits) →
        lastDeposit deposits s.bufferSize (cur % s.bufferSize) = some (cur, st) ∧
        ∀ st', (cur, st') ∈ deposits → st' = st) ∧
      (∀ k : Int, 0 < k → s.contents (cur - k * s.bufferSize) = none) ∧
      ∀ m curIdx tail, s.combiner m = some (.appending curIdx tail) →
        cur < curIdx ∨ tail ≤ cur := by
  have h := inv_of_reachable hreach
  have hsize := bufferSize_of_reachable hreach
  have hindex : NrLog.index cur = cur % s.bufferSize := by rw [hsize, NrLog.index]
  have hslot : logEntryIdx cur s.bufferSize = cur % s.bufferSize := by
    rw [hsize, NrLog.logEntryIdx_eq, NrLog.index]
  have hbit : s.Alive cur := by rwa [State.Alive, logEntryIsAlive, hslot]
  obtain ⟨v, hv⟩ := h.exists_version hc
  obtain ⟨hstart, hle, _, htail, _⟩ := h.combiner_wf n _ v hc hv
  obtain ⟨st, hst⟩ := h.contents_of_alive hv (by omega) (by omega) hbit
  refine ⟨⟨hindex, by rw [hsize, NrLog.logEntryAliveValue_eq]⟩, st, hst, h.contents_fit cur st hst,
    hreach.exists_record, fun deposits hdeposits ↦ ?_, fun k hk ↦ h.contents_stale (by omega) hk,
    fun m curIdx tail hm ↦ h.alive_not_reserved hbit hm⟩
  have hwf := depositsWf_of_reachable hdeposits
  have hlast := hwf.stored cur st hst
  rw [hslot] at hlast
  refine ⟨hlast, fun st' hst' ↦ ?_⟩
  have heq := List.inj_on_of_nodup_map hwf.nodup hst' (List.mem_of_find?_eq_some hlast) rfl
  exact congrArg Prod.snd heq

/-- A reader looks at the first entry, which replica 0 has deposited. -/
theorem alive_entry_is_deposited_first : ∃ s : State counter, ∃ st,
    s.contents 0 = some st ∧ s.Fits st 0 ∧
    ∀ deposits, (recordedMachine counter).Reachable (s, deposits) →
      lastDeposit deposits s.bufferSize 0 = some (0, st) := by
  let deposited : StoredType counter :=
    ⟨⟨0, some (some ⟨(1 : Nat), 0⟩)⟩, some ⟨0, 0, ⟨(1 : Nat), 0⟩⟩⟩
  have hrun : ∃ s : State counter, (machine counter).Run initialState
      [.advanceTailStart 0, .advanceTailFinish 0 0 1, .appendFlipBit 0, .appendFinish 0,
        .readerStart 0, .readerEnter 0] s ∧
      s.combiner 0 = some (.reading (.range 0 1 0)) ∧
      s.aliveBits (0 % s.bufferSize) = some (logEntryAliveValue 0 s.bufferSize) := by
    refine Machine.Run.exists_cons (.advanceTailStart 0 rfl) ?_
    refine Machine.Run.exists_cons (.advanceTailFinish 0 0 1 rfl (by decide) (by decide)) ?_
    refine Machine.Run.exists_cons (.appendFlipBit 0 0 1 _ deposited rfl rfl (by decide) ?_) ?_
    · exact ⟨nofun, rfl, fun _ ↦ ⟨_, _, rfl, rfl, rfl, rfl, rfl, rfl⟩⟩
    refine Machine.Run.exists_cons (.appendFinish 0 1 1 rfl rfl) ?_
    refine Machine.Run.exists_cons (.readerStart 0 0 rfl rfl) ?_
    refine Machine.Run.exists_cons (.readerEnter 0 0 rfl) ?_
    exact ⟨_, .nil _, rfl, rfl⟩
  obtain ⟨s, hrun, hrange, halive⟩ := hrun
  obtain ⟨_, st, hst, hfits, _, hlast, _⟩ :=
    alive_entry_is_deposited ⟨_, _, initialState_init, hrun⟩ hrange Nat.one_pos halive
  refine ⟨s, st, hst, hfits, fun deposits hdeposits ↦ ?_⟩
  have := (hlast deposits hdeposits).1
  rwa [Nat.zero_mod] at this

end CyclicBuffer

end NrKernel.NodeReplication
