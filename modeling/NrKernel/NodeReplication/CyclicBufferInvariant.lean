import Mathlib.Data.Int.ConditionallyCompleteOrder
import Mathlib.Data.List.Pairwise
import Mathlib.Order.CompletePartialOrder
import Mathlib.Order.ConditionallyCompleteLattice.Basic
import NrKernel.NodeReplication.CyclicBuffer

/-!
# Invariant of the cyclic buffer

The bounds between head, local versions and tail, what each combiner phase may rely on while
others move, and which slots hold the entry of which logical index
(`spec/cyclicbuffer.rs:189–333`). From it: appends in progress never touch each other's slots
nor one a reader is looking at.
-/

namespace NrKernel.NodeReplication

open Lib

universe u

namespace CyclicBuffer

variable {DT : Dispatch.{u}}

/-- An appender's remaining range misses the other's range or guarded entry
(`spec/cyclicbuffer.rs:112–134`). -/
def CombinerState.NoOverlapWith : CombinerState DT → CombinerState DT → Prop
  | .appending curIdx tail, .reading (.guard _ _ cur _) => cur < curIdx ∨ tail ≤ cur
  | .appending curIdx tail, .appending curIdx' tail' => tail' ≤ curIdx ∨ tail ≤ curIdx'
  | _, _ => True

/-- What a phase may rely on (`spec/cyclicbuffer.rs:258–333`); `v` is the node's own version. -/
def State.CombinerWf (s : State DT) (v : Nat) : CombinerState DT → Prop
  | .idle => True
  | .reading (.starting start) => start = v
  | .reading (.range start stop cur) =>
    start = v ∧ start ≤ cur ∧ cur ≤ stop ∧ stop ≤ s.tail ∧
      ∀ i : Int, start ≤ i → i < cur → s.Alive i
  | .reading (.guard start stop cur val) =>
    start = v ∧ start ≤ cur ∧ cur < stop ∧ stop ≤ s.tail ∧
      (∀ i : Int, start ≤ i → i ≤ cur → s.Alive i) ∧ s.contents cur = some val
  | .advancingHead idx minLocalVersion =>
    idx ≤ s.numReplicas ∧ ∀ n w, n < idx → s.localVersions n = some w → minLocalVersion ≤ w
  | .advancingTail observedHead => ∀ n w, s.localVersions n = some w → observedHead ≤ w
  | .appending curIdx tail =>
    v ≤ curIdx ∧ curIdx ≤ tail ∧ tail ≤ s.tail ∧
      ∀ i : Int, curIdx ≤ i → i < tail → ¬ s.Alive i

/-- The invariant (`spec/cyclicbuffer.rs:189–333`). Being below the minimum of the local
versions is spelled out as being below each of them. -/
structure Inv (s : State DT) : Prop where
  size_pos : 0 < s.bufferSize
  replicas_pos : 0 < s.numReplicas
  versions_dom : ∀ n, (∃ v, s.localVersions n = some v) ↔ n < s.numReplicas
  combiner_dom : ∀ n, (∃ c, s.combiner n = some c) ↔ n < s.numReplicas
  bits_dom : ∀ i, (∃ b, s.aliveBits i = some b) ↔ i < s.bufferSize
  head_le : ∀ n v, s.localVersions n = some v → s.head ≤ v
  version_le : ∀ n v, s.localVersions n = some v → v ≤ s.tail
  tail_le : ∀ n v, s.localVersions n = some v → s.tail ≤ v + s.bufferSize
  no_overlap : ∀ n m c d, s.combiner n = some c → s.combiner m = some d → n ≠ m →
    c.NoOverlapWith d
  upcoming : ∀ i : Int, s.tail ≤ i → (∀ n v, s.localVersions n = some v → i < v + s.bufferSize) →
    ¬ s.Alive i
  contents_dom : ∀ i st, s.contents i = some st →
    (s.tail : Int) - s.bufferSize ≤ i ∧ i < s.tail
  contents_iff : ∀ i : Int, (s.tail : Int) - s.bufferSize ≤ i → i < s.tail →
    ((∃ st, s.contents i = some st) ↔
      s.Alive i ∨ ∀ n v, s.localVersions n = some v → i < v)
  contents_fit : ∀ i st, s.contents i = some st → s.Fits st i
  combiner_wf : ∀ n c v, s.combiner n = some c → s.localVersions n = some v → s.CombinerWf v c

section Alive

variable {s : State DT} {i j : Int}

/-- An entry one pass later uses the same slot with the other bit. -/
theorem not_alive_add_size (hpos : 0 < s.bufferSize) (h : s.Alive i) :
    ¬ s.Alive (i + s.bufferSize) := by
  intro h'
  rw [State.Alive, logEntryIsAlive, logEntryIdx, slot_add_size, logEntryAliveValue,
    passBit_add_size hpos] at h'
  rw [State.Alive, logEntryIsAlive, logEntryIdx, logEntryAliveValue, h'] at h
  simp at h

/-- Entries less than one pass apart have different slots. -/
theorem logEntryIdx_ne (hpos : 0 < s.bufferSize) (hne : i ≠ j) (hij : i < j + s.bufferSize)
    (hji : j < i + s.bufferSize) :
    logEntryIdx i s.bufferSize ≠ logEntryIdx j s.bufferSize := by
  intro heq
  rcases Int.lt_or_lt_of_ne hne with hlt | hlt
  · exact hne (slot_inj hpos (Int.le_refl i) (by omega) (by omega) hji heq)
  · exact hne (slot_inj hpos (by omega) hij (Int.le_refl j) (by omega) heq)

end Alive

private theorem inv_of_init {s : State DT} (h : Init s) : Inv s := by
  have hzero : ∀ n v, s.localVersions n = some v → v = 0 := by
    intro n v hv
    rw [h.localVersions] at hv
    split at hv
    · exact (Option.some.inj hv).symm
    · cases hv
  have hidle : ∀ n c, s.combiner n = some c → c = .idle := by
    intro n c hc
    rw [h.combiner] at hc
    split at hc
    · exact (Option.some.inj hc).symm
    · cases hc
  have hpos : 0 < s.bufferSize := by
    rw [h.size]
    decide
  have hdead : ∀ i : Int, 0 ≤ i → i < s.bufferSize → ¬ s.Alive i := by
    intro i h0 hi
    have hslot : logEntryIdx i s.bufferSize < s.bufferSize := slot_lt hpos i
    have hval : (logEntryIdx i s.bufferSize : Int) = i := by
      rw [logEntryIdx, slot, Int.emod_eq_of_lt h0 hi]
      omega
    rw [State.Alive, logEntryIsAlive, h.aliveBits, if_pos hslot, hval]
    simp
  exact
    { size_pos := hpos
      replicas_pos := h.replicas_pos
      versions_dom := by
        intro n
        rw [h.localVersions]
        split <;> simp_all
      combiner_dom := by
        intro n
        rw [h.combiner]
        split <;> simp_all
      bits_dom := by
        intro i
        rw [h.aliveBits]
        split <;> simp_all
      head_le := fun n v _ ↦ h.head ▸ Nat.zero_le v
      version_le := fun n v hv ↦ by simp [hzero n v hv]
      tail_le := fun n v _ ↦ h.tail ▸ Nat.zero_le _
      no_overlap := fun n m c d hc _ _ ↦ by
        rw [hidle n c hc]
        trivial
      upcoming := by
        intro i hi hlt
        have hv : s.localVersions 0 = some 0 := by
          rw [h.localVersions, if_pos h.replicas_pos]
        have hi' := hlt 0 0 hv
        rw [h.tail] at hi
        exact hdead i (by simpa using hi) (by simpa using hi')
      contents_dom := by
        intro i st hst
        have hdom := (h.contents_dom i).mp ⟨st, hst⟩
        rw [h.tail]
        exact ⟨by omega, hdom.2⟩
      contents_iff := by
        intro i hi hlt
        rw [h.tail] at hi hlt
        refine iff_of_true ((h.contents_dom i).mpr ⟨by simpa using hi, hlt⟩) (.inr ?_)
        intro n v hv
        rw [hzero n v hv]
        exact hlt
      contents_fit := h.contents
      combiner_wf := fun n c v hc _ ↦ by
        rw [hidle n c hc]
        trivial }

section Lookup

variable {s : State DT} {n : NodeId} {c : CombinerState DT}

/-- A node with a combiner has a local version. -/
theorem Inv.exists_version (h : Inv s) (hc : s.combiner n = some c) :
    ∃ v, s.localVersions n = some v :=
  (h.versions_dom n).mpr ((h.combiner_dom n).mp ⟨c, hc⟩)

private theorem Inv.exists_some_version (h : Inv s) : ∃ n v, s.localVersions n = some v := by
  obtain ⟨v, hv⟩ := (h.versions_dom 0).mpr h.replicas_pos
  exact ⟨0, v, hv⟩

/-- The head does not pass the tail. -/
theorem Inv.head_le_tail (h : Inv s) : s.head ≤ s.tail := by
  obtain ⟨n, v, hv⟩ := h.exists_some_version
  exact (h.head_le n v hv).trans (h.version_le n v hv)

end Lookup

/-- A phase that appends nothing overlaps with nothing. -/
def CombinerState.Quiet : CombinerState DT → Prop
  | .reading (.guard _ _ _ _) => False
  | .appending _ _ => False
  | _ => True

private theorem CombinerState.Quiet.noOverlap {c : CombinerState DT} (h : c.Quiet)
    (d : CombinerState DT) : c.NoOverlapWith d ∧ d.NoOverlapWith c := by
  cases c with
  | appending => exact h.elim
  | reading r =>
    cases r with
    | guard => exact h.elim
    | starting => cases d <;> exact ⟨trivial, trivial⟩
    | range => cases d <;> exact ⟨trivial, trivial⟩
  | idle => cases d <;> exact ⟨trivial, trivial⟩
  | advancingHead => cases d <;> exact ⟨trivial, trivial⟩
  | advancingTail => cases d <;> exact ⟨trivial, trivial⟩

section Preservation

variable {s : State DT} {n : NodeId} {c : CombinerState DT}

private theorem Inv.combinerDom_insert (h : Inv s) (hc : s.combiner n = some c)
    (c' : CombinerState DT) (m : NodeId) :
    (∃ d, s.combiner.insert n c' m = some d) ↔ m < s.numReplicas := by
  by_cases hm : m = n
  · subst hm
    simpa using (h.combiner_dom m).mp ⟨c, hc⟩
  · simpa [hm] using h.combiner_dom m

private theorem Inv.noOverlap_insert (h : Inv s) {c' : CombinerState DT}
    (hov : ∀ m d, m ≠ n → s.combiner m = some d → c'.NoOverlapWith d ∧ d.NoOverlapWith c')
    (m m' : NodeId) (d d' : CombinerState DT) (hd : s.combiner.insert n c' m = some d)
    (hd' : s.combiner.insert n c' m' = some d') (hne : m ≠ m') : d.NoOverlapWith d' := by
  rcases (PMap.insert_eq_some _ _ _ _ _).mp hd with ⟨rfl, rfl⟩ | ⟨hm, hold⟩
  · rcases (PMap.insert_eq_some _ _ _ _ _).mp hd' with ⟨rfl, _⟩ | ⟨hm', hold'⟩
    · exact absurd rfl hne
    · exact (hov m' d' hm' hold').1
  · rcases (PMap.insert_eq_some _ _ _ _ _).mp hd' with ⟨rfl, rfl⟩ | ⟨_, hold'⟩
    · exact (hov m d hm hold).2
    · exact h.no_overlap m m' d d' hold hold' hne

/-- A node may change phase when the new one is justified and overlaps with nobody. -/
theorem Inv.setCombiner (h : Inv s) (hc : s.combiner n = some c) {c' : CombinerState DT}
    (hwf : ∀ v, s.localVersions n = some v → s.CombinerWf v c')
    (hov : ∀ m d, m ≠ n → s.combiner m = some d → c'.NoOverlapWith d ∧ d.NoOverlapWith c') :
    Inv { s with combiner := s.combiner.insert n c' } :=
  { h with
    combiner_dom := h.combinerDom_insert hc c'
    no_overlap := h.noOverlap_insert hov
    combiner_wf := by
      intro m d v hd hv
      rcases (PMap.insert_eq_some _ _ _ _ _).mp hd with ⟨rfl, rfl⟩ | ⟨_, hold⟩
      · exact hwf v hv
      · exact h.combiner_wf m d v hold hv }

/-- A phase that neither appends nor guards only has to be justified. -/
theorem Inv.setQuiet (h : Inv s) (hc : s.combiner n = some c) {c' : CombinerState DT}
    (hquiet : c'.Quiet) (hwf : ∀ v, s.localVersions n = some v → s.CombinerWf v c') :
    Inv { s with combiner := s.combiner.insert n c' } :=
  h.setCombiner hc hwf fun _ d _ _ ↦ hquiet.noOverlap d

/-- Moving the head below every local version. -/
theorem Inv.setHead (h : Inv s) {head : Nat}
    (hle : ∀ n v, s.localVersions n = some v → head ≤ v) : Inv { s with head := head } :=
  { h with
    head_le := hle
    combiner_wf := h.combiner_wf }

/-- An alive entry between the local version and the tail is stored. -/
theorem Inv.contents_of_alive (h : Inv s) {v : Nat} {i : Int}
    (hv : s.localVersions n = some v) (hi : v ≤ i) (htail : i < s.tail) (halive : s.Alive i) :
    ∃ st, s.contents i = some st := by
  have hle := h.tail_le n v hv
  exact (h.contents_iff i (by omega) htail).mpr (.inl halive)

/-- Looking at an alive entry keeps every appender off it. -/
theorem Inv.readerGuard (h : Inv s) {start stop cur : Nat} {val : StoredType DT}
    (hc : s.combiner n = some (.reading (.range start stop cur))) (hcur : cur < stop)
    (halive : s.Alive cur) (hval : ∀ st, s.contents cur = some st → val = st) :
    Inv { s with
      combiner := s.combiner.insert n (.reading (.guard start stop cur val)) } := by
  refine h.setCombiner hc (fun v hv ↦ ?_) fun m d hm hd ↦ ⟨trivial, ?_⟩
  · obtain ⟨hstart, hle, _, htail, hread⟩ := h.combiner_wf n _ v hc hv
    obtain ⟨st, hst⟩ := h.contents_of_alive (i := cur) hv (by omega) (by omega) halive
    refine ⟨hstart, hle, hcur, htail, fun i hi hi' ↦ ?_, by rw [hval st hst, hst]⟩
    rcases Int.lt_or_eq_of_le hi' with hlt | rfl
    · exact hread i hi hlt
    · exact halive
  · cases d with
    | appending curIdx tail =>
      obtain ⟨w, hw⟩ := h.exists_version hd
      obtain ⟨_, _, _, hdead⟩ := h.combiner_wf m _ w hd hw
      change cur < curIdx ∨ tail ≤ cur
      by_contra hin
      exact hdead cur (by omega) (by omega) halive
    | _ => trivial

/-- Publishing a version: every entry read so far is alive, so the slots it releases are
dead for the next pass. -/
theorem Inv.readerFinish (h : Inv s) {start stop old : Nat}
    (hc : s.combiner n = some (.reading (.range start stop stop)))
    (hold : s.localVersions n = some old) :
    Inv { s with
      localVersions := s.localVersions.insert n stop
      combiner := s.combiner.insert n .idle } := by
  obtain ⟨rfl, hle, _, htail, hread⟩ := h.combiner_wf n _ old hc hold
  have hgrow : ∀ m v, s.localVersions m = some v →
      ∃ w, s.localVersions.insert n stop m = some w ∧ v ≤ w := by
    intro m v hv
    by_cases hm : m = n
    · subst hm
      obtain rfl : start = v := Option.some.inj (hold.symm.trans hv)
      exact ⟨stop, by simp, hle⟩
    · exact ⟨v, by simp [hm, hv], Nat.le_refl v⟩
  have hshrink : ∀ m w, s.localVersions.insert n stop m = some w →
      ∃ v, s.localVersions m = some v ∧ v ≤ w ∧ (w = v ∨ (m = n ∧ w = stop)) := by
    intro m w hw
    rcases (PMap.insert_eq_some _ _ _ _ _).mp hw with ⟨rfl, rfl⟩ | ⟨_, hv⟩
    · exact ⟨start, hold, hle, .inr ⟨rfl, rfl⟩⟩
    · exact ⟨w, hv, Nat.le_refl w, .inl rfl⟩
  -- a bound below all new versions but not all old ones lies in the range just read
  have hsplit : ∀ (k : Int) (b : Nat),
      (∀ m w, s.localVersions.insert n stop m = some w → k < w + b) →
      (∀ m v, s.localVersions m = some v → k < v + b) ∨ (start + b ≤ k ∧ k < stop + b) := by
    intro k b hk
    by_cases hlt : k < start + b
    · refine .inl fun m v hv ↦ ?_
      by_cases hm : m = n
      · subst hm
        obtain rfl : start = v := Option.some.inj (hold.symm.trans hv)
        exact hlt
      · exact hk m v (by simp [hm, hv])
    · exact .inr ⟨by omega, hk n stop (by simp)⟩
  exact
    { h with
      versions_dom := by
        intro m
        by_cases hm : m = n
        · subst hm
          simpa using (h.versions_dom m).mp ⟨start, hold⟩
        · simpa [hm] using h.versions_dom m
      combiner_dom := h.combinerDom_insert hc _
      head_le := by
        intro m w hw
        obtain ⟨v, hv, hvw, _⟩ := hshrink m w hw
        exact (h.head_le m v hv).trans hvw
      version_le := by
        intro m w hw
        obtain ⟨v, hv, _, heq | ⟨_, heq⟩⟩ := hshrink m w hw
        · exact heq ▸ h.version_le m v hv
        · exact heq ▸ htail
      tail_le := by
        intro m w hw
        obtain ⟨v, hv, hvw, _⟩ := hshrink m w hw
        exact (h.tail_le m v hv).trans (Nat.add_le_add_right hvw _)
      no_overlap :=
        have hquiet : (CombinerState.idle : CombinerState DT).Quiet := trivial
        h.noOverlap_insert fun _ d _ _ ↦ hquiet.noOverlap d
      upcoming := by
        intro k hk hlt
        rcases hsplit k s.bufferSize hlt with hall | ⟨hlo, hhi⟩
        · exact h.upcoming k hk hall
        · have hdead := not_alive_add_size h.size_pos
            (hread (k - s.bufferSize) (by omega) (by omega))
          rwa [Int.sub_add_cancel] at hdead
      contents_iff := by
        intro k hk hlt
        rw [h.contents_iff k hk hlt]
        constructor
        · rintro (halive | hbelow)
          · exact .inl halive
          · refine .inr fun m w hw ↦ ?_
            obtain ⟨v, hv, hvw, _⟩ := hshrink m w hw
            have := hbelow m v hv
            omega
        · rintro (halive | hbelow)
          · exact .inl halive
          · rcases hsplit k 0 (by simpa using hbelow) with hall | ⟨hlo, hhi⟩
            · exact .inr (by simpa using hall)
            · exact .inl (hread k (by simpa using hlo) (by simpa using hhi))
      combiner_wf := by
        intro m d w hd hw
        rcases (PMap.insert_eq_some _ _ _ _ _).mp hd with ⟨rfl, rfl⟩ | ⟨hne, hd'⟩
        · trivial
        · have hw' : s.localVersions m = some w := by simpa [hne] using hw
          have hwf := h.combiner_wf m d w hd' hw'
          cases d with
          | advancingHead idx least =>
            refine ⟨hwf.1, fun k x hk hx ↦ ?_⟩
            obtain ⟨v, hv, hvx, _⟩ := hshrink k x hx
            exact (hwf.2 k v hk hv).trans hvx
          | advancingTail observedHead =>
            intro k x hx
            obtain ⟨v, hv, hvx, _⟩ := hshrink k x hx
            exact (hwf k v hv).trans hvx
          | idle => trivial
          | reading r => cases r <;> exact hwf
          | appending => exact hwf }

/-- Reserving a range: it lies within one pass of every local version, so its slots hold
nothing anyone still needs. -/
theorem Inv.advanceTailFinish (h : Inv s) {observedHead newTail : Nat}
    (hc : s.combiner n = some (.advancingTail observedHead)) (hadvance : s.tail ≤ newTail)
    (hspace : newTail ≤ observedHead + s.bufferSize) :
    Inv { s with
      tail := newTail
      contents := withdraw s.contents (s.tail - s.bufferSize) (newTail - s.bufferSize)
      combiner := s.combiner.insert n (.appending s.tail newTail) } := by
  obtain ⟨v₀, hv₀⟩ := h.exists_version hc
  have hobs : ∀ m v, s.localVersions m = some v → observedHead ≤ v := h.combiner_wf n _ v₀ hc hv₀
  have hroom : ∀ m v, s.localVersions m = some v → newTail ≤ v + s.bufferSize :=
    fun m v hv ↦ hspace.trans (Nat.add_le_add_right (hobs m v hv) _)
  exact
    { h with
      combiner_dom := h.combinerDom_insert hc _
      version_le := fun m v hv ↦ (h.version_le m v hv).trans hadvance
      tail_le := hroom
      no_overlap := by
        refine h.noOverlap_insert fun m d hm hd ↦ ?_
        obtain ⟨w, hw⟩ := h.exists_version hd
        have hwf := h.combiner_wf m d w hd hw
        cases d with
        | reading r =>
          cases r with
          | guard start stop cur val =>
            obtain ⟨_, _, hstop, htail, _⟩ := hwf
            exact ⟨.inl (by omega), trivial⟩
          | _ => exact ⟨trivial, trivial⟩
        | appending curIdx tail =>
          have htail : tail ≤ s.tail := hwf.2.2.1
          exact ⟨.inl htail, .inr htail⟩
        | _ => exact ⟨trivial, trivial⟩
      upcoming := by
        intro i (hi : (newTail : Int) ≤ i) hlt
        exact h.upcoming i (by omega) hlt
      contents_dom := by
        intro i st hst
        obtain ⟨hout, hold⟩ := withdraw_eq_some.mp hst
        have hdom := h.contents_dom i st hold
        change (newTail : Int) - s.bufferSize ≤ i ∧ i < (newTail : Int)
        exact ⟨by omega, by omega⟩
      contents_iff := by
        intro i (hi : (newTail : Int) - s.bufferSize ≤ i) (hlt : i < newTail)
        have hkeep : (∃ st, withdraw s.contents (s.tail - s.bufferSize) (newTail - s.bufferSize) i =
            some st) ↔ ∃ st, s.contents i = some st := by
          simp only [withdraw_eq_some]
          constructor
          · rintro ⟨st, _, hst⟩
            exact ⟨st, hst⟩
          · rintro ⟨st, hst⟩
            exact ⟨st, by omega, hst⟩
        refine hkeep.trans ?_
        by_cases hold : i < s.tail
        · exact h.contents_iff i (by omega) hold
        · refine iff_of_false ?_ ?_
          · rintro ⟨st, hst⟩
            exact hold (h.contents_dom i st hst).2
          · rintro (halive | hbelow)
            · refine h.upcoming i (by omega) (fun m v hv ↦ ?_) halive
              have := hroom m v hv
              omega
            · have := hbelow n v₀ hv₀
              have := h.version_le n v₀ hv₀
              omega
      contents_fit := fun i st hst ↦ h.contents_fit i st (withdraw_eq_some.mp hst).2
      combiner_wf := by
        intro m d w hd hw
        rcases (PMap.insert_eq_some _ _ _ _ _).mp hd with ⟨rfl, rfl⟩ | ⟨hne, hd'⟩
        · refine ⟨h.version_le m w hw, hadvance, Nat.le_refl _, fun i hi hlt ↦ ?_⟩
          refine h.upcoming i hi fun k v hv ↦ ?_
          have := hroom k v hv
          omega
        · have hwf := h.combiner_wf m d w hd' hw
          cases d with
          | reading r =>
            cases r with
            | starting => exact hwf
            | range =>
              obtain ⟨h1, h2, h3, h4, h5⟩ := hwf
              exact ⟨h1, h2, h3, h4.trans hadvance, h5⟩
            | guard start stop cur val =>
              obtain ⟨h1, h2, h3, h4, h5, h6⟩ := hwf
              refine ⟨h1, h2, h3, h4.trans hadvance, h5, withdraw_eq_some.mpr ⟨?_, h6⟩⟩
              have := hroom m w hw
              omega
          | appending =>
            obtain ⟨h1, h2, h3, h4⟩ := hwf
            exact ⟨h1, h2, h3.trans hadvance, h4⟩
          | idle => trivial
          | advancingHead => exact hwf
          | advancingTail => exact hwf }

/-- Writing one reserved entry and flipping its bit concerns no other slot in use. -/
theorem Inv.appendFlipBit (h : Inv s) {curIdx tail : Nat} {deposited : StoredType DT}
    (hc : s.combiner n = some (.appending curIdx tail)) (hcur : curIdx < tail)
    (hdeposit : s.Fits deposited curIdx) :
    Inv { s with
      contents := s.contents.insert (curIdx : Int) deposited
      aliveBits := s.aliveBits.insert (logEntryIdx curIdx s.bufferSize)
        (logEntryAliveValue curIdx s.bufferSize)
      combiner := s.combiner.insert n (.appending (curIdx + 1) tail) } := by
  obtain ⟨v₀, hv₀⟩ := h.exists_version hc
  obtain ⟨hlo, _, htail, hdead⟩ := h.combiner_wf n _ v₀ hc hv₀
  have hsize := h.tail_le n v₀ hv₀
  have hslot : logEntryIdx (curIdx : Int) s.bufferSize < s.bufferSize := slot_lt h.size_pos _
  have hself : ¬ s.Alive curIdx := hdead curIdx (Int.le_refl _) (by omega)
  -- the bit of an entry less than a pass away is not the one that flips
  have hkeep : ∀ i : Int, i ≠ curIdx → i < curIdx + s.bufferSize → curIdx < i + s.bufferSize →
      (logEntryIsAlive (s.aliveBits.insert (logEntryIdx curIdx s.bufferSize)
        (logEntryAliveValue curIdx s.bufferSize)) i s.bufferSize ↔ s.Alive i) := by
    intro i hne h1 h2
    have hne' := logEntryIdx_ne h.size_pos hne h1 h2
    rw [logEntryIsAlive, PMap.insert_of_ne _ _ hne']
    rfl
  have hwindow : ∀ m w, s.localVersions m = some w → ∀ i : Int, (w : Int) ≤ i → i < s.tail →
      i ≠ curIdx →
      (logEntryIsAlive (s.aliveBits.insert (logEntryIdx curIdx s.bufferSize)
        (logEntryAliveValue curIdx s.bufferSize)) i s.bufferSize ↔ s.Alive i) := by
    intro m w hw i hi hlt hne
    have := h.tail_le m w hw
    exact hkeep i hne (by omega) (by omega)
  exact
    { h with
      combiner_dom := h.combinerDom_insert hc _
      bits_dom := by
        intro i
        by_cases hi : i = logEntryIdx curIdx s.bufferSize
        · simp [hi, hslot]
        · simpa [hi] using h.bits_dom i
      no_overlap := by
        refine h.noOverlap_insert fun m d hm hd ↦ ?_
        have h1 := h.no_overlap n m _ d hc hd (Ne.symm hm)
        have h2 := h.no_overlap m n d _ hd hc hm
        cases d with
        | reading r =>
          cases r with
          | guard start stop cur val =>
            exact ⟨h1.imp (fun hlt ↦ Nat.lt_succ_of_lt hlt) id, trivial⟩
          | _ => exact ⟨trivial, trivial⟩
        | appending curIdx' tail' =>
          exact ⟨h1.imp (fun hle ↦ Nat.le_succ_of_le hle) id,
            h2.imp id fun hle ↦ Nat.le_succ_of_le hle⟩
        | _ => exact ⟨trivial, trivial⟩
      upcoming := by
        intro i (hi : (s.tail : Int) ≤ i) hlt
        have hlt₀ : i < v₀ + s.bufferSize := hlt n v₀ hv₀
        change ¬ logEntryIsAlive _ _ _
        rw [hkeep i (by omega) (by omega) (by omega)]
        exact h.upcoming i hi hlt
      contents_dom := by
        intro i st hst
        change (s.tail : Int) - s.bufferSize ≤ i ∧ i < (s.tail : Int)
        rcases (PMap.insert_eq_some _ _ _ _ _).mp hst with ⟨rfl, _⟩ | ⟨_, hold⟩
        · exact ⟨by omega, by omega⟩
        · exact h.contents_dom i st hold
      contents_iff := by
        intro i (hi : (s.tail : Int) - s.bufferSize ≤ i) (hlt : i < s.tail)
        by_cases heq : i = curIdx
        · subst heq
          exact iff_of_true ⟨deposited, PMap.insert_self _ _ _⟩
            (.inl (PMap.insert_self _ _ _))
        · change (∃ st, s.contents.insert _ _ i = some st) ↔ logEntryIsAlive _ _ _ ∨ _
          rw [PMap.insert_of_ne _ _ heq, hkeep i heq (by omega) (by omega)]
          exact h.contents_iff i hi hlt
      contents_fit := by
        intro i st hst
        rcases (PMap.insert_eq_some _ _ _ _ _).mp hst with ⟨rfl, rfl⟩ | ⟨_, hold⟩
        · exact hdeposit
        · exact h.contents_fit i st hold
      combiner_wf := by
        intro m d w hd hw
        rcases (PMap.insert_eq_some _ _ _ _ _).mp hd with ⟨rfl, rfl⟩ | ⟨hne, hd'⟩
        · obtain rfl : v₀ = w := Option.some.inj (hv₀.symm.trans hw)
          refine ⟨Nat.le_succ_of_le hlo, hcur, htail, fun i hi hlt ↦ ?_⟩
          change ¬ logEntryIsAlive _ _ _
          rw [hwindow m v₀ hv₀ i (by omega) (by omega) (by omega)]
          exact hdead i (by omega) hlt
        · have hwf := h.combiner_wf m d w hd' hw
          have hov := h.no_overlap n m _ d hc hd' (Ne.symm hne)
          cases d with
          | reading r =>
            cases r with
            | starting => exact hwf
            | range start stop cur =>
              obtain ⟨h1, h2, h3, h4, h5⟩ := hwf
              refine ⟨h1, h2, h3, h4, fun i hi hlt ↦ ?_⟩
              have hi' := h5 i hi hlt
              change logEntryIsAlive _ _ _
              rwa [hwindow m w hw i (by omega) (by omega) fun heq ↦ hself (heq ▸ hi')]
            | guard start stop cur val =>
              obtain ⟨h1, h2, h3, h4, h5, h6⟩ := hwf
              refine ⟨h1, h2, h3, h4, fun i hi hlt ↦ ?_, ?_⟩
              · have hi' := h5 i hi hlt
                change logEntryIsAlive _ _ _
                rwa [hwindow m w hw i (by omega) (by omega) fun heq ↦ hself (heq ▸ hi')]
              · have hne' : (cur : Int) ≠ curIdx := fun heq ↦
                  hself (heq ▸ h5 cur (by omega) (Int.le_refl _))
                exact (PMap.insert_of_ne _ _ hne').trans h6
          | appending curIdx' tail' =>
            obtain ⟨h1, h2, h3, h4⟩ := hwf
            refine ⟨h1, h2, h3, fun i hi hlt ↦ ?_⟩
            have hne' : i ≠ curIdx := by
              rcases hov with hle | hle <;> omega
            change ¬ logEntryIsAlive _ _ _
            rw [hwindow m w hw i (by omega) (by omega) hne']
            exact h4 i hi hlt
          | idle => trivial
          | advancingHead => exact hwf
          | advancingTail => exact hwf }

/-- Every transition keeps the invariant. -/
theorem Inv.next {label : Label} {post : State DT} (h : Inv s) (hstep : Next s label post) :
    Inv post := by
  cases hstep with
  | readerStart nodeId localHead hlocal hc =>
    exact h.setQuiet hc trivial fun v hv ↦ Option.some.inj (hlocal.symm.trans hv)
  | readerEnter nodeId start hc =>
    refine h.setQuiet hc trivial fun v hv ↦ ?_
    have hstart : start = v := h.combiner_wf nodeId _ v hc hv
    have hle := h.version_le nodeId v hv
    exact ⟨hstart, Nat.le_refl _, hstart ▸ hle, Nat.le_refl _, fun i hi hlt ↦ by omega⟩
  | readerGuard nodeId start stop cur val hc hcur halive hval =>
    exact h.readerGuard hc hcur halive hval
  | readerUnguard nodeId start stop cur val hc =>
    refine h.setQuiet hc trivial fun v hv ↦ ?_
    obtain ⟨h1, h2, h3, h4, h5, _⟩ := h.combiner_wf nodeId _ v hc hv
    exact ⟨h1, by omega, h3, h4, fun i hi hlt ↦ h5 i hi (by omega)⟩
  | readerFinish nodeId start stop cur old hc hlocal hcur =>
    subst hcur
    exact h.readerFinish hc hlocal
  | readerAbort nodeId reader hc => exact h.setQuiet hc trivial fun _ _ ↦ trivial
  | advanceHeadStart nodeId localHead0 hlocal hc =>
    refine h.setQuiet hc trivial fun _ _ ↦ ⟨h.replicas_pos, fun n w hn hw ↦ ?_⟩
    obtain rfl : n = 0 := by omega
    exact (Option.some.inj (hlocal.symm.trans hw)).le
  | advanceHeadNext nodeId idx least localHead hc hlocal hidx =>
    refine h.setQuiet hc trivial fun v hv ↦ ⟨hidx, fun n w hn hw ↦ ?_⟩
    have hwf := h.combiner_wf nodeId _ v hc hv
    by_cases heq : n = idx
    · subst heq
      rw [← Option.some.inj (hlocal.symm.trans hw)]
      exact Nat.min_le_right _ _
    · exact (Nat.min_le_left _ _).trans (hwf.2 n w (by omega) hw)
  | advanceHeadFinish nodeId idx least hc hidx =>
    obtain ⟨v, hv⟩ := h.exists_version hc
    have hwf := h.combiner_wf nodeId _ v hc hv
    have hhead : Inv { s with head := least } :=
      h.setHead fun n w hw ↦ hwf.2 n w (hidx ▸ (h.versions_dom n).mp ⟨w, hw⟩) hw
    exact hhead.setQuiet hc trivial fun _ _ ↦ trivial
  | advanceHeadAbort nodeId idx least hc => exact h.setQuiet hc trivial fun _ _ ↦ trivial
  | advanceTailStart nodeId hc =>
    exact h.setQuiet hc trivial fun _ _ ↦ h.head_le
  | advanceTailFinish nodeId observedHead newTail hc hadvance hspace =>
    exact h.advanceTailFinish hc hadvance hspace
  | advanceTailAbort nodeId observedHead hc => exact h.setQuiet hc trivial fun _ _ ↦ trivial
  | appendFlipBit nodeId curIdx tail bit deposited hc hbit hcur hdeposit =>
    exact h.appendFlipBit hc hcur hdeposit
  | appendFinish nodeId curIdx tail hc hcur => exact h.setQuiet hc trivial fun _ _ ↦ trivial

end Preservation

/-- The invariant holds in every reachable state. -/
theorem inv_of_reachable {s : State DT} (h : (machine DT).Reachable s) : Inv s :=
  h.invariant (I := Inv) (fun _ hs ↦ inv_of_init hs) fun _ _ _ hI hs ↦ hI.next hs

/-- The indices an append takes out are all there (`spec/cyclicbuffer.rs:548–555`). -/
theorem Inv.withdrawn_present {s : State DT} (h : Inv s) {n : NodeId} {observedHead newTail : Nat}
    (hc : s.combiner n = some (.advancingTail observedHead))
    (hspace : newTail ≤ observedHead + s.bufferSize) {i : Int}
    (hlo : (s.tail : Int) - s.bufferSize ≤ i) (hhi : i < (newTail : Int) - s.bufferSize) :
    ∃ st, s.contents i = some st := by
  obtain ⟨v, hv⟩ := h.exists_version hc
  have hobs : ∀ m w, s.localVersions m = some w → observedHead ≤ w := h.combiner_wf n _ v hc hv
  have hbelow : ∀ m w, s.localVersions m = some w → i < w := by
    intro m w hw
    have := hobs m w hw
    omega
  have htail := h.version_le n v hv
  have := hbelow n v hv
  exact (h.contents_iff i hlo (by omega)).mpr (.inr hbelow)

-- What an append still has to give back is not in the buffer (`spec/cyclicbuffer.rs:596–607`).
private theorem Inv.appending_absent {s : State DT} (h : Inv s) {n : NodeId} {curIdx tail : Nat}
    (hc : s.combiner n = some (.appending curIdx tail)) {i : Int} (hlo : curIdx ≤ i)
    (hhi : i < tail) : s.contents i = none ∧ s.contents (i - s.bufferSize) = none := by
  obtain ⟨v, hv⟩ := h.exists_version hc
  obtain ⟨hver, hcur, htail, hdead⟩ := h.combiner_wf n _ v hc hv
  have hsize := h.tail_le n v hv
  constructor
  · refine Option.eq_none_iff_forall_ne_some.mpr fun st hst ↦ ?_
    rcases (h.contents_iff i (by omega) (by omega)).mp ⟨st, hst⟩ with halive | hbelow
    · exact hdead i hlo hhi halive
    · have := hbelow n v hv
      omega
  · refine Option.eq_none_iff_forall_ne_some.mpr fun st hst ↦ ?_
    have := h.contents_dom _ st hst
    omega

/-- The next slot an append writes holds no entry of the buffer. -/
theorem Inv.appending_slot_free {s : State DT} (h : Inv s) {n : NodeId} {curIdx tail : Nat}
    (hc : s.combiner n = some (.appending curIdx tail)) (hlt : curIdx < tail) {i : Int}
    {st : StoredType DT} (hst : s.contents i = some st) :
    logEntryIdx i s.bufferSize ≠ logEntryIdx curIdx s.bufferSize := by
  obtain ⟨v, hv⟩ := h.exists_version hc
  obtain ⟨hver, _, htail, _⟩ := h.combiner_wf n _ v hc hv
  have hsize := h.tail_le n v hv
  have hdom := h.contents_dom i st hst
  refine logEntryIdx_ne h.size_pos ?_ (by omega) (by omega)
  rintro rfl
  have habsent := (h.appending_absent hc (Int.le_refl _) (by omega)).1
  cases habsent.symm.trans hst

/-- Appends in progress write to different slots. -/
theorem Inv.appending_slots_ne {s : State DT} (h : Inv s) {n m : NodeId}
    {curIdx tail curIdx' tail' : Nat} (hne : n ≠ m)
    (hn : s.combiner n = some (.appending curIdx tail))
    (hm : s.combiner m = some (.appending curIdx' tail')) {i j : Int} (hi : curIdx ≤ i)
    (hi' : i < tail) (hj : curIdx' ≤ j) (hj' : j < tail') :
    logEntryIdx i s.bufferSize ≠ logEntryIdx j s.bufferSize := by
  obtain ⟨v, hv⟩ := h.exists_version hn
  obtain ⟨v', hv'⟩ := h.exists_version hm
  obtain ⟨hver, _, htail, _⟩ := h.combiner_wf n _ v hn hv
  obtain ⟨hver', _, htail', _⟩ := h.combiner_wf m _ v' hm hv'
  have hsize := h.tail_le n v hv
  have hsize' := h.tail_le m v' hv'
  refine logEntryIdx_ne h.size_pos ?_ (by omega) (by omega)
  rcases h.no_overlap n m _ _ hn hm hne with hle | hle <;> omega

/-- The ranges reserved in a run are ordered, lie below the tail and contain what each
appender in progress still has to write. -/
structure Reserved (labels : List Label) (s : State DT) : Prop where
  ordered : (labels.filterMap Label.reserved).Pairwise fun a b ↦ a.stop ≤ b.start
  below : ∀ r ∈ labels.filterMap Label.reserved, r.stop ≤ s.tail
  appending : ∀ n curIdx tail, s.combiner n = some (.appending curIdx tail) →
    ∃ start ≤ curIdx, ⟨n, start, tail⟩ ∈ labels.filterMap Label.reserved

private theorem reserved_of_init {s : State DT} (h : Init s) : Reserved [] s where
  ordered := .nil
  below := fun r hr ↦ absurd hr List.not_mem_nil
  appending := by
    intro n curIdx tail hn
    rw [h.combiner] at hn
    split at hn <;> cases hn

-- A step that reserves nothing and starts no append keeps the reservations.
private theorem Reserved.quiet {labels : List Label} {s t : State DT} {label : Label}
    (h : Reserved labels s) (hlabel : label.reserved = none) (htail : t.tail = s.tail)
    (happ : ∀ n curIdx tail, t.combiner n = some (.appending curIdx tail) →
      ∃ c ≤ curIdx, s.combiner n = some (.appending c tail)) :
    Reserved (labels ++ [label]) t := by
  have heq : (labels ++ [label]).filterMap Label.reserved =
      labels.filterMap Label.reserved := by
    simp [hlabel]
  refine ⟨heq ▸ h.ordered, fun r hr ↦ ?_, fun n curIdx tail hn ↦ ?_⟩
  · rw [htail]
    exact h.below r (heq ▸ hr)
  · obtain ⟨c, hle, hc⟩ := happ n curIdx tail hn
    obtain ⟨start, hstart, hmem⟩ := h.appending n c tail hc
    exact ⟨start, hstart.trans hle, heq ▸ hmem⟩

private theorem Reserved.next {labels : List Label} {s t : State DT} {label : Label}
    (h : Reserved labels s) (hstep : Next s label t) : Reserved (labels ++ [label]) t := by
  -- unless the phase written is an append, the appenders were there before
  have hset : ∀ {n : NodeId} {c : CombinerState DT},
      (∀ curIdx tail, c ≠ .appending curIdx tail) →
      ∀ m curIdx tail, s.combiner.insert n c m = some (.appending curIdx tail) →
        ∃ c' ≤ curIdx, s.combiner m = some (.appending c' tail) := by
    intro n c hc m curIdx tail hm
    rcases (PMap.insert_eq_some _ _ _ _ _).mp hm with ⟨_, heq⟩ | ⟨_, hold⟩
    · exact absurd heq (hc curIdx tail)
    · exact ⟨curIdx, Nat.le_refl _, hold⟩
  cases hstep with
  | advanceTailFinish nodeId observedHead newTail hc hadvance hspace =>
    have heq : (labels ++ [Label.advanceTailFinish nodeId s.tail newTail]).filterMap
        Label.reserved = labels.filterMap Label.reserved ++ [⟨nodeId, s.tail, newTail⟩] := by
      simp [Label.reserved]
    refine ⟨?_, fun r hr ↦ ?_, fun n curIdx tail hn ↦ ?_⟩
    · rw [heq, List.pairwise_append]
      exact ⟨h.ordered, List.pairwise_singleton _ _, fun a ha b hb ↦ by
        rw [List.mem_singleton.mp hb]
        exact h.below a ha⟩
    · rw [heq, List.mem_append] at hr
      rcases hr with hold | hnew
      · exact (h.below r hold).trans hadvance
      · rw [List.mem_singleton.mp hnew]
    · rw [heq]
      rcases (PMap.insert_eq_some _ _ _ _ _).mp hn with ⟨rfl, hnew⟩ | ⟨_, hold⟩
      · cases hnew
        exact ⟨s.tail, Nat.le_refl _, by simp⟩
      · obtain ⟨start, hle, hmem⟩ := h.appending n curIdx tail hold
        exact ⟨start, hle, List.mem_append_left _ hmem⟩
  | appendFlipBit nodeId curIdx tail bit deposited hc hbit hcur hdeposit =>
    refine h.quiet rfl rfl fun m c t hm ↦ ?_
    rcases (PMap.insert_eq_some _ _ _ _ _).mp hm with ⟨rfl, hnew⟩ | ⟨_, hold⟩
    · cases hnew
      exact ⟨curIdx, Nat.le_succ _, hc⟩
    · exact ⟨c, Nat.le_refl _, hold⟩
  | _ => exact h.quiet rfl rfl (hset fun _ _ h' ↦ nomatch h')

private theorem reserved_of_run {s₀ s : State DT} {labels : List Label} (hinit : Init s₀)
    (hrun : (machine DT).Run s₀ labels s) : Reserved labels s := by
  have h := hrun.history (I := Reserved) (fun _ _ _ _ hres hstep ↦ hres.next hstep)
    (reserved_of_init hinit)
  rwa [List.nil_append] at h

/-- Appends in progress of two nodes reserved ranges that do not meet. -/
theorem Reserved.disjoint {labels : List Label} {s : State DT} (h : Reserved labels s)
    {n m : NodeId} (hne : n ≠ m) {start stop start' stop' : Nat}
    (hn : ⟨n, start, stop⟩ ∈ labels.filterMap Label.reserved)
    (hm : ⟨m, start', stop'⟩ ∈ labels.filterMap Label.reserved) :
    stop ≤ start' ∨ stop' ≤ start := by
  let apart (a b : Reservation) : Prop := a.stop ≤ b.start ∨ b.stop ≤ a.start
  have hsymm : Std.Symm apart := ⟨fun _ _ hab ↦ hab.symm⟩
  have hpair : (labels.filterMap Label.reserved).Pairwise apart := h.ordered.imp .inl
  refine hpair.forall hn hm fun heq ↦ hne ?_
  exact congrArg Reservation.nodeId heq

/-- Only its own release ends a guard. -/
theorem guard_kept {s t : State DT} {label : Label} (hstep : Next s label t) {n : NodeId}
    {start stop cur : Nat} {val : StoredType DT}
    (hguard : s.combiner n = some (.reading (.guard start stop cur val)))
    (hlabel : label ≠ .readerUnguard n) :
    t.combiner n = some (.reading (.guard start stop cur val)) := by
  have hother : ∀ {m : NodeId} {c c' : CombinerState DT}, s.combiner m = some c →
      c ≠ .reading (.guard start stop cur val) →
      s.combiner.insert m c' n = some (.reading (.guard start stop cur val)) := by
    intro m c c' hc hne
    have hm : n ≠ m := by
      rintro rfl
      exact hne (Option.some.inj (hc.symm.trans hguard))
    rw [PMap.insert_of_ne _ _ hm, hguard]
  cases hstep with
  | readerUnguard nodeId start' stop' cur' val' hc =>
    have hm : n ≠ nodeId := fun heq ↦ hlabel (heq ▸ rfl)
    exact (PMap.insert_of_ne _ _ hm).trans hguard
  | readerAbort nodeId reader hc hreader =>
    exact hother hc fun heq ↦ hreader start stop cur val (by injection heq)
  | readerStart _ _ _ hc => exact hother hc nofun
  | readerEnter _ _ hc => exact hother hc nofun
  | readerGuard _ _ _ _ _ hc => exact hother hc nofun
  | readerFinish _ _ _ _ _ hc => exact hother hc nofun
  | advanceHeadStart _ _ _ hc => exact hother hc nofun
  | advanceHeadNext _ _ _ _ hc => exact hother hc nofun
  | advanceHeadFinish _ _ _ hc => exact hother hc nofun
  | advanceHeadAbort _ _ _ hc => exact hother hc nofun
  | advanceTailStart _ hc => exact hother hc nofun
  | advanceTailFinish _ _ _ hc => exact hother hc nofun
  | advanceTailAbort _ _ hc => exact hother hc nofun
  | appendFlipBit _ _ _ _ _ hc => exact hother hc nofun
  | appendFinish _ _ _ hc => exact hother hc nofun

private theorem guard_kept_run {s t : State DT} {labels : List Label}
    (hrun : (machine DT).Run s labels t) {n : NodeId} {start stop cur : Nat}
    {val : StoredType DT} (hguard : s.combiner n = some (.reading (.guard start stop cur val)))
    (hlabels : .readerUnguard n ∉ labels) :
    t.combiner n = some (.reading (.guard start stop cur val)) := by
  induction hrun with
  | nil => exact hguard
  | cons hstep _ ih =>
    rw [List.mem_cons, not_or] at hlabels
    exact ih (guard_kept hstep hguard (Ne.symm hlabels.1)) hlabels.2

section Statement

variable (s : State DT)

/-- Every version lies between the head and the tail, and the tail at most one pass ahead. -/
def State.VersionsBounded : Prop :=
  ∀ r < s.numReplicas, ∃ v, s.localVersions r = some v ∧
    s.head ≤ v ∧ v ≤ s.tail ∧ s.tail ≤ v + s.bufferSize

/-- The logical indices taken out of the buffer for positions `lower` to `upper`. -/
def State.withdrawnRange (lower upper : Nat) : Set Int :=
  Set.Ico ((lower : Int) - s.bufferSize) ((upper : Int) - s.bufferSize)

/-- The appends in progress took disjoint ranges out of the buffer, and no slot of what one
of them has still out is a slot of another's. -/
def State.AppendsDisjoint (labels : List Label) : Prop :=
  ∀ n m curIdx tail curIdx' tail', n ≠ m →
    s.combiner n = some (.appending curIdx tail) →
    s.combiner m = some (.appending curIdx' tail') →
    (∃ start ≤ curIdx, ∃ start' ≤ curIdx',
      .advanceTailFinish n start tail ∈ labels ∧ .advanceTailFinish m start' tail' ∈ labels ∧
      Disjoint (s.withdrawnRange start tail) (s.withdrawnRange start' tail')) ∧
    ∀ i ∈ s.withdrawnRange curIdx tail, ∀ j ∈ s.withdrawnRange curIdx' tail',
      logEntryIdx i s.bufferSize ≠ logEntryIdx j s.bufferSize

/-- No slot of what an append has still out is the slot of a guarded entry. -/
def State.GuardsSpared : Prop :=
  ∀ n m curIdx tail start stop cur val,
    s.combiner n = some (.appending curIdx tail) →
    s.combiner m = some (.reading (.guard start stop cur val)) →
    ∀ i ∈ s.withdrawnRange curIdx tail,
      logEntryIdx i s.bufferSize ≠ logEntryIdx cur s.bufferSize

/-- A guarded value stays where it is for as long as its reader does not release it. -/
def State.GuardsStable : Prop :=
  ∀ n start stop cur val, s.combiner n = some (.reading (.guard start stop cur val)) →
    ∀ labels t, (machine DT).Run s labels t → .readerUnguard n ∉ labels →
      t.combiner n = some (.reading (.guard start stop cur val)) ∧ t.contents cur = some val

end Statement

section Safety

variable {s : State DT}

private theorem Inv.versionsBounded (h : Inv s) : s.VersionsBounded := by
  intro r hr
  obtain ⟨v, hv⟩ := (h.versions_dom r).mpr hr
  exact ⟨v, hv, h.head_le r v hv, h.version_le r v hv, h.tail_le r v hv⟩

/-- The slot of an index taken out is the slot of the position it is taken out for. -/
theorem logEntryIdx_withdrawn (i : Int) :
    logEntryIdx (i + s.bufferSize) s.bufferSize = logEntryIdx i s.bufferSize :=
  slot_add_size _

private theorem Inv.appendsDisjoint (h : Inv s) {labels : List Label} (hres : Reserved labels s) :
    s.AppendsDisjoint labels := by
  intro n m curIdx tail curIdx' tail' hne hn hm
  have hmem : ∀ {k : NodeId} {start stop : Nat},
      ⟨k, start, stop⟩ ∈ labels.filterMap Label.reserved →
      .advanceTailFinish k start stop ∈ labels := by
    intro k start stop hk
    obtain ⟨label, hlabel, heq⟩ := List.mem_filterMap.mp hk
    cases label <;> cases heq
    exact hlabel
  constructor
  · obtain ⟨start, hstart, hn'⟩ := hres.appending n curIdx tail hn
    obtain ⟨start', hstart', hm'⟩ := hres.appending m curIdx' tail' hm
    refine ⟨start, hstart, start', hstart', hmem hn', hmem hm', Set.disjoint_left.mpr ?_⟩
    rintro i ⟨hlo, hhi⟩ ⟨hlo', hhi'⟩
    rcases hres.disjoint hne hn' hm' with hle | hle <;> omega
  · rintro i ⟨hlo, hhi⟩ j ⟨hlo', hhi'⟩
    rw [← logEntryIdx_withdrawn i, ← logEntryIdx_withdrawn j]
    exact h.appending_slots_ne hne hn hm (by omega) (by omega) (by omega) (by omega)

private theorem Inv.guardsSpared (h : Inv s) : s.GuardsSpared := by
  rintro n m curIdx tail start stop cur val hn hm i ⟨hlo, hhi⟩
  obtain ⟨v, hv⟩ := h.exists_version hn
  obtain ⟨w, hw⟩ := h.exists_version hm
  obtain ⟨hver, _, htail, _⟩ := h.combiner_wf n _ v hn hv
  obtain ⟨hstart, hcur, hstop, htail', _⟩ := h.combiner_wf m _ w hm hw
  have hsize := h.tail_le n v hv
  have hsize' := h.tail_le m w hw
  have hne : n ≠ m := by
    rintro rfl
    cases hn.symm.trans hm
  rw [← logEntryIdx_withdrawn]
  refine logEntryIdx_ne h.size_pos ?_ (by omega) (by omega)
  rcases h.no_overlap n m _ _ hn hm hne with hlt | hle <;> omega

private theorem Inv.guardsStable (h : Inv s) : s.GuardsStable := by
  intro n start stop cur val hguard labels t hrun hlabels
  have hkept := guard_kept_run hrun hguard hlabels
  have ht : Inv t := hrun.invariant (fun _ _ _ hI hs ↦ hI.next hs) h
  obtain ⟨v, hv⟩ := ht.exists_version hkept
  obtain ⟨_, _, _, _, _, hval⟩ := ht.combiner_wf n _ v hkept hv
  exact ⟨hkept, hval⟩

end Safety

/-- The buffer never overwrites an unread entry: at the end of every run the versions bound
head and tail, appends in progress have disjoint ranges out of the buffer, off every guarded
slot, and guarded values stay put until they are released. -/
theorem cyclicBuffer_never_overwrites {s₀ s : State DT} {labels : List Label}
    (hinit : (machine DT).init s₀) (hrun : (machine DT).Run s₀ labels s) :
    s.VersionsBounded ∧ s.AppendsDisjoint labels ∧ s.GuardsSpared ∧ s.GuardsStable :=
  have h : Inv s := inv_of_reachable ⟨s₀, labels, hinit, hrun⟩
  ⟨h.versionsBounded, h.appendsDisjoint (reserved_of_run hinit hrun), h.guardsSpared,
    h.guardsStable⟩

/-- Entry of the pass before the first in every slot of a two-replica buffer. -/
def initialState : State counter where
  unboundedLogInstance := 0
  cellIds := List.replicate logSize 0
  bufferSize := logSize
  numReplicas := 2
  head := 0
  tail := 0
  localVersions := fun n ↦ if n < 2 then some 0 else none
  contents := fun i ↦ if -(logSize : Int) ≤ i ∧ i < 0 then some ⟨⟨0, some none⟩, none⟩ else none
  aliveBits := fun i ↦ if i < logSize then some (!logEntryAliveValue i logSize) else none
  combiner := fun n ↦ if n < 2 then some .idle else none

/-- `initialState` is an initial state. -/
theorem initialState_init : Init initialState where
  replicas_pos := by decide
  size := rfl
  cells := List.length_replicate
  head := rfl
  tail := rfl
  localVersions := fun _ ↦ rfl
  contents_dom := by
    intro i
    simp only [initialState]
    split <;> simp_all
  contents := by
    intro i st hst
    simp only [initialState] at hst
    split at hst
    · next hi =>
      cases hst
      refine ⟨by simp, ?_, fun h0 ↦ absurd h0 (by omega)⟩
      simp only [State.cellId, initialState, List.getD_eq_getElem?_getD, List.getElem?_replicate]
      split <;> rfl
    · cases hst
  aliveBits := fun _ ↦ rfl
  combiner := fun _ ↦ rfl

/-- Replica 0 appends and guards its entry while replica 1 has reserved the next one. -/
theorem cyclicBuffer_never_overwrites_guarded :
    ∃ (labels : List Label) (s : State counter), (machine counter).Run initialState labels s ∧
      (∃ val, s.combiner 0 = some (.reading (.guard 0 1 0 val))) ∧
      s.combiner 1 = some (.appending 1 2) ∧
      s.VersionsBounded ∧ s.AppendsDisjoint labels ∧ s.GuardsSpared ∧ s.GuardsStable := by
  have hrun : ∃ s : State counter, (machine counter).Run initialState
      [.advanceTailStart 0, .advanceTailFinish 0 0 1, .appendFlipBit 0, .appendFinish 0,
        .readerStart 0, .readerEnter 0, .readerGuard 0, .advanceTailStart 1,
        .advanceTailFinish 1 1 2] s ∧
      (∃ val, s.combiner 0 = some (.reading (.guard 0 1 0 val))) ∧
      s.combiner 1 = some (.appending 1 2) := by
    let deposited : StoredType counter :=
      ⟨⟨0, some (some ⟨(1 : Nat), 0⟩)⟩, some ⟨0, 0, ⟨(1 : Nat), 0⟩⟩⟩
    refine Machine.Run.exists_cons (.advanceTailStart 0 rfl) ?_
    refine Machine.Run.exists_cons (.advanceTailFinish 0 0 1 rfl (by decide) (by decide)) ?_
    refine Machine.Run.exists_cons (.appendFlipBit 0 0 1 _ deposited rfl rfl (by decide) ?_) ?_
    · refine ⟨nofun, rfl, fun _ ↦ ⟨_, _, rfl, rfl, rfl, rfl, rfl, rfl⟩⟩
    refine Machine.Run.exists_cons (.appendFinish 0 1 1 rfl rfl) ?_
    refine Machine.Run.exists_cons (.readerStart 0 0 rfl rfl) ?_
    refine Machine.Run.exists_cons (.readerEnter 0 0 rfl) ?_
    refine Machine.Run.exists_cons (.readerGuard 0 0 1 0 deposited rfl (by decide) ?_ ?_) ?_
    · rfl
    · exact fun _ hst ↦ Option.some.inj hst
    refine Machine.Run.exists_cons (.advanceTailStart 1 rfl) ?_
    refine Machine.Run.exists_cons (.advanceTailFinish 1 0 2 rfl (by decide) (by decide)) ?_
    exact ⟨_, .nil _, ⟨deposited, rfl⟩, rfl⟩
  obtain ⟨s, hrun, hguard, happend⟩ := hrun
  exact ⟨_, s, hrun, hguard, happend, cyclicBuffer_never_overwrites initialState_init hrun⟩

end CyclicBuffer

end NrKernel.NodeReplication
