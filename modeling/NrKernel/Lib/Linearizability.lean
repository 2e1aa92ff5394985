import Mathlib.Data.List.ReduceOption
import Mathlib.Data.Set.Card
import NrKernel.Lib.PartialMap
import NrKernel.Lib.Transition

/-!
# Linearizability

A sequential object, histories of calls and returns of any number of clients, and what it means
that a history is explained by an order of its calls: replaying the calls in that order on the
object gives every client the response it got, and a call that returned before another one was
made comes first. A call is named by its position, since an identifier may be used again after
its call returned. The atomic object, which lets a call take effect in one step at any time
before it returns, has only such histories.
-/

namespace Lib.Linearizability

universe u v w x

/-- A call of an operation, or the return of the call under the same identifier. -/
inductive Event (Id : Type u) (Op : Type v) (Resp : Type w) where
  | call (id : Id) (op : Op)
  | ret (id : Id) (resp : Resp)

/-- An object that is used by one client. -/
structure SeqObject (S : Type x) (Op : Type v) (Resp : Type w) where
  init : S
  apply : S → Op → S × Resp

/-- A call in an explanation: where the history has it, and what it returned. -/
structure Taken (Op : Type v) (Resp : Type w) where
  pos : Nat
  op : Op
  resp : Resp

variable {Id : Type u} {Op : Type v} {Resp : Type w} {S : Type x}

/-- What the clients see of a run. -/
def events (labels : List (Option (Event Id Op Resp))) : List (Event Id Op Resp) :=
  labels.reduceOption

/-- A silent step leaves the history as it is. -/
@[simp] theorem events_snoc_none (labels : List (Option (Event Id Op Resp))) :
    events (labels ++ [none]) = events labels := by
  rw [events, List.reduceOption_append, List.reduceOption_cons_of_none, List.reduceOption_nil,
    List.append_nil]
  rfl

/-- A step with an event appends it to the history. -/
@[simp] theorem events_snoc_some (labels : List (Option (Event Id Op Resp)))
    (e : Event Id Op Resp) : events (labels ++ [some e]) = events labels ++ [e] := by
  rw [events, List.reduceOption_append, List.reduceOption_cons_of_some, List.reduceOption_nil]
  rfl

section Histories

variable {h : List (Event Id Op Resp)} {e : Event Id Op Resp} {id id' : Id} {op op' : Op}
  {r r' : Resp} {k k' m : Nat}

/-- The call at `k` under `id` has not returned. -/
def OpenCall (h : List (Event Id Op Resp)) (id : Id) (k : Nat) (op : Op) : Prop :=
  h[k]? = some (.call id op) ∧ ∀ m r, k < m → h[m]? ≠ some (.ret id r)

/-- The call at `k` returns `r` at `m`. -/
def Returns (h : List (Event Id Op Resp)) (k m : Nat) (r : Resp) : Prop :=
  ∃ id op, h[k]? = some (.call id op) ∧ k < m ∧ h[m]? = some (.ret id r) ∧
    ∀ j r', k < j → j < m → h[j]? ≠ some (.ret id r')

/-- An identifier is not used again before its call returned. -/
def WellFormed (h : List (Event Id Op Resp)) : Prop :=
  ∀ (k k' : Nat) (id : Id) (op op' : Op), k < k' → h[k]? = some (.call id op) →
    h[k']? = some (.call id op') → ∃ m r, k < m ∧ m < k' ∧ h[m]? = some (.ret id r)

private theorem getElem?_snoc {x : Event Id Op Resp} :
    (h ++ [e])[k]? = some x ↔ h[k]? = some x ∨ k = h.length ∧ e = x := by
  rcases Nat.lt_trichotomy k h.length with hlt | rfl | hgt
  · rw [List.getElem?_append_left hlt]
    exact ⟨.inl, fun hk ↦ hk.resolve_right fun heq ↦ absurd heq.1 hlt.ne⟩
  · rw [List.getElem?_concat_length, List.getElem?_eq_none (Nat.le_refl _)]
    simp
  · have hnone : (h ++ [e])[k]? = none := by
      apply List.getElem?_eq_none
      rw [List.length_append, List.length_singleton]
      exact hgt
    rw [hnone, List.getElem?_eq_none hgt.le]
    simp [hgt.ne']

private theorem lt_length_of_getElem? {x : Event Id Op Resp} (hk : h[k]? = some x) : k < h.length :=
  (List.getElem?_eq_some_iff.mp hk).1

/-- What holds of the whole history held before its last event. -/
theorem WellFormed.of_snoc (hwf : WellFormed (h ++ [e])) : WellFormed h := by
  intro k k' id op op' hlt hk hk'
  obtain ⟨m, r, hkm, hmk', hm⟩ := hwf k k' id op op' hlt (getElem?_snoc.mpr (.inl hk))
    (getElem?_snoc.mpr (.inl hk'))
  have hlength := lt_length_of_getElem? hk'
  refine ⟨m, r, hkm, hmk', (getElem?_snoc.mp hm).resolve_right fun heq ↦ ?_⟩
  omega

/-- An identifier has at most one open call. -/
theorem WellFormed.open_unique (hwf : WellFormed h) (hopen : OpenCall h id k op)
    (hopen' : OpenCall h id k' op') : k = k' := by
  rcases Nat.lt_trichotomy k k' with hlt | heq | hgt
  · obtain ⟨m, r, hkm, _, hm⟩ := hwf k k' id op op' hlt hopen.1 hopen'.1
    exact absurd hm (hopen.2 m r hkm)
  · exact heq
  · obtain ⟨m, r, hkm, _, hm⟩ := hwf k' k id op' op hgt hopen'.1 hopen.1
    exact absurd hm (hopen'.2 m r hkm)

/-- An open call has not returned. -/
theorem OpenCall.not_returns (hopen : OpenCall h id k op) : ¬ Returns h k m r := by
  rintro ⟨id', op', hk, hkm, hm, _⟩
  obtain ⟨rfl, rfl⟩ := Event.call.inj (Option.some.inj (hopen.1.symm.trans hk))
  exact hopen.2 m r hkm hm

/-- A further call closes no call. -/
theorem OpenCall.snoc_call (hopen : OpenCall h id k op) :
    OpenCall (h ++ [.call id' op']) id k op := by
  refine ⟨getElem?_snoc.mpr (.inl hopen.1), fun m r hkm hm ↦ ?_⟩
  rcases getElem?_snoc.mp hm with hold | ⟨_, heq⟩
  · exact hopen.2 m r hkm hold
  · cases heq

private theorem openCall_last : OpenCall (h ++ [.call id op]) id h.length op := by
  refine ⟨List.getElem?_concat_length, fun m r hkm hm ↦ ?_⟩
  rcases getElem?_snoc.mp hm with hold | ⟨_, heq⟩
  · exact absurd (lt_length_of_getElem? hold) (by omega)
  · cases heq

/-- A call open after one more call was open before it, or has its id. -/
theorem OpenCall.of_snoc_call (hopen : OpenCall (h ++ [.call id' op']) id k op) :
    OpenCall h id k op ∨ id = id' := by
  rcases getElem?_snoc.mp hopen.1 with hold | ⟨_, heq⟩
  · exact .inl ⟨hold, fun m r hkm hm ↦ hopen.2 m r hkm (getElem?_snoc.mpr (.inl hm))⟩
  · cases heq
    exact .inr rfl

/-- A call under an identifier without an open call keeps the history well formed. -/
theorem WellFormed.snoc_call (hwf : WellFormed h) (hfresh : ∀ k op, ¬ OpenCall h id k op) :
    WellFormed (h ++ [.call id op]) := by
  intro k k' id' op' op'' hlt hk hk'
  have hkold : h[k]? = some (.call id' op') := by
    refine (getElem?_snoc.mp hk).resolve_right fun heq ↦ ?_
    rcases getElem?_snoc.mp hk' with hold | ⟨hlast, _⟩
    · exact absurd (lt_length_of_getElem? hold) (by omega)
    · omega
  have hret : ∃ m r, k < m ∧ m < k' ∧ h[m]? = some (.ret id' r) := by
    rcases getElem?_snoc.mp hk' with hold | ⟨rfl, heq⟩
    · exact hwf k k' id' op' op'' hlt hkold hold
    · cases heq
      by_contra hnone
      refine hfresh k op' ⟨hkold, fun m r hkm hm ↦ hnone ⟨m, r, hkm, ?_, hm⟩⟩
      exact lt_length_of_getElem? hm
  obtain ⟨m, r, hkm, hmk', hm⟩ := hret
  exact ⟨m, r, hkm, hmk', getElem?_snoc.mpr (.inl hm)⟩

/-- A return keeps the history well formed. -/
theorem WellFormed.snoc_ret (hwf : WellFormed h) : WellFormed (h ++ [.ret id r]) := by
  intro k k' id' op' op'' hlt hk hk'
  have hcall : ∀ (j : Nat) (op₀ : Op),
      (h ++ [Event.ret id r])[j]? = some (Event.call id' op₀) →
      h[j]? = some (Event.call id' op₀) := by
    intro j op₀ hj
    rcases getElem?_snoc.mp hj with hold | ⟨_, heq⟩
    · exact hold
    · cases heq
  obtain ⟨m, r', hkm, hmk', hm⟩ := hwf k k' id' op' op'' hlt (hcall _ _ hk) (hcall _ _ hk')
  exact ⟨m, r', hkm, hmk', getElem?_snoc.mpr (.inl hm)⟩

/-- A return closes the calls under its identifier only. -/
theorem OpenCall.snoc_ret (hopen : OpenCall h id k op) (hne : id ≠ id') :
    OpenCall (h ++ [.ret id' r']) id k op := by
  refine ⟨getElem?_snoc.mpr (.inl hopen.1), fun m r hkm hm ↦ ?_⟩
  rcases getElem?_snoc.mp hm with hold | ⟨_, heq⟩
  · exact hopen.2 m r hkm hold
  · cases heq
    exact hne rfl

/-- A call open after a return was open before it, and it is not the one that returned. -/
theorem OpenCall.of_snoc_ret (hopen : OpenCall (h ++ [.ret id' r']) id k op) :
    OpenCall h id k op ∧ id ≠ id' := by
  have hk : h[k]? = some (.call id op) := by
    rcases getElem?_snoc.mp hopen.1 with hold | ⟨_, heq⟩
    · exact hold
    · cases heq
  refine ⟨⟨hk, fun m r hkm hm ↦ hopen.2 m r hkm (getElem?_snoc.mpr (.inl hm))⟩, ?_⟩
  rintro rfl
  exact hopen.2 h.length r' (lt_length_of_getElem? hk) List.getElem?_concat_length

private theorem Returns.of_snoc_call (hret : Returns (h ++ [.call id op]) k m r) :
    Returns h k m r := by
  obtain ⟨id', op', hk, hkm, hm, hfirst⟩ := hret
  have hm' : h[m]? = some (.ret id' r) := by
    rcases getElem?_snoc.mp hm with hold | ⟨_, heq⟩
    · exact hold
    · cases heq
  have hlength := lt_length_of_getElem? hm'
  refine ⟨id', op', (getElem?_snoc.mp hk).resolve_right fun heq ↦ ?_, hkm, hm',
    fun j r' hkj hjm hj ↦ hfirst j r' hkj hjm (getElem?_snoc.mpr (.inl hj))⟩
  omega

/-- A return that is new in a history is the one that was added, to an open call. -/
theorem Returns.of_snoc_ret (hret : Returns (h ++ [.ret id r']) k m r) :
    Returns h k m r ∨ m = h.length ∧ r = r' ∧ ∃ op, OpenCall h id k op := by
  obtain ⟨id', op', hk, hkm, hm, hfirst⟩ := hret
  have hk' : h[k]? = some (.call id' op') := by
    rcases getElem?_snoc.mp hk with hold | ⟨_, heq⟩
    · exact hold
    · cases heq
  have hfirst' : ∀ j r'', k < j → j < m → h[j]? ≠ some (.ret id' r'') :=
    fun j r'' hkj hjm hj ↦ hfirst j r'' hkj hjm (getElem?_snoc.mpr (.inl hj))
  rcases getElem?_snoc.mp hm with hold | ⟨rfl, heq⟩
  · exact .inl ⟨id', op', hk', hkm, hold, hfirst'⟩
  · cases heq
    exact .inr ⟨rfl, rfl, op', hk', fun j r'' hkj hj ↦
      hfirst' j r'' hkj (lt_length_of_getElem? hj) hj⟩

end Histories

/-! ## Explanations -/

namespace SeqObject

variable (obj : SeqObject S Op Resp)

/-- The object after some calls. -/
def exec (s : S) (ts : List (Taken Op Resp)) : S := ts.foldl (fun s t ↦ (obj.apply s t.op).1) s

/-- The object answers the calls, one after the other, with the responses they have. -/
def Legal : S → List (Taken Op Resp) → Prop
  | _, [] => True
  | s, t :: ts => (obj.apply s t.op).2 = t.resp ∧ Legal (obj.apply s t.op).1 ts

variable {obj}

private theorem legal_append {s : S} {ts us : List (Taken Op Resp)} :
    obj.Legal s (ts ++ us) ↔ obj.Legal s ts ∧ obj.Legal (obj.exec s ts) us := by
  induction ts generalizing s with
  | nil => simp [Legal, exec]
  | cons t ts ih =>
    simp only [List.cons_append, Legal, ih, and_assoc]
    rfl

/-- The last operation applies to the state the others lead to. -/
theorem exec_snoc {s : S} {ts : List (Taken Op Resp)} {t : Taken Op Resp} :
    obj.exec s (ts ++ [t]) = (obj.apply (obj.exec s ts) t.op).1 := by
  simp [exec]

end SeqObject

/-- The calls in `ts` explain the history, in this order. -/
structure Linearizes (obj : SeqObject S Op Resp) (h : List (Event Id Op Resp))
    (ts : List (Taken Op Resp)) : Prop where
  legal : obj.Legal obj.init ts
  unique : (ts.map Taken.pos).Nodup
  called : ∀ t ∈ ts, ∃ id, h[t.pos]? = some (.call id t.op)
  completed : ∀ k m r, Returns h k m r → ∃ op, ⟨k, op, r⟩ ∈ ts
  real_time : ts.Pairwise fun t u ↦ ∀ m r, Returns h u.pos m r → t.pos < m

/-- Some order of its calls explains the history. -/
def Linearizable (obj : SeqObject S Op Resp) (h : List (Event Id Op Resp)) : Prop :=
  ∃ ts, Linearizes obj h ts

/-- A call comes before another one in an explanation exactly if it comes first in every split
of it. What comes before a call was made before the call returned, and what returned before the
call was made comes before it. -/
theorem Linearizes.before {obj : SeqObject S Op Resp} {h : List (Event Id Op Resp)}
    {ts us : List (Taken Op Resp)} {t : Taken Op Resp}
    (hlin : Linearizes obj h (ts ++ t :: us)) :
    (obj.apply (obj.exec obj.init ts) t.op).2 = t.resp ∧
    (∀ u ∈ ts, ∀ m r, Returns h t.pos m r → u.pos < m) ∧
    ∀ k m r, Returns h k m r → m ≤ t.pos → ∃ op, ⟨k, op, r⟩ ∈ ts := by
  have hpair := List.pairwise_append.mp hlin.real_time
  refine ⟨(SeqObject.legal_append.mp hlin.legal).2.1, fun u hu m r ↦
    hpair.2.2 u hu t List.mem_cons_self m r, fun k m r hret hle ↦ ?_⟩
  obtain ⟨op, hmem⟩ := hlin.completed k m r hret
  rcases List.mem_append.mp hmem with hts | htu
  · exact ⟨op, hts⟩
  rcases List.mem_cons.mp htu with rfl | hus
  · obtain ⟨_, _, _, hlt, _⟩ := hret
    exact absurd hle (by dsimp only; omega)
  · have hlt := (List.pairwise_cons.mp hpair.2.1).1 _ hus m r hret
    omega

section Counting

variable {obj : SeqObject S Op Resp} {h : List (Event Id Op Resp)} {ts us : List (Taken Op Resp)}
  {t : Taken Op Resp}

/-- The calls that come before the one at `k`. -/
def earlier (ts : List (Taken Op Resp)) (k : Nat) : List (Taken Op Resp) :=
  ts.takeWhile fun u ↦ u.pos ≠ k

private theorem earlier_eq (hunique : ((ts ++ t :: us).map Taken.pos).Nodup) :
    earlier (ts ++ t :: us) t.pos = ts := by
  rw [List.map_append, List.map_cons] at hunique
  have hne : ∀ u ∈ ts, decide (u.pos ≠ t.pos) = true := by
    intro u hu
    apply decide_eq_true
    exact (List.nodup_append.mp hunique).2.2 _ (List.mem_map_of_mem hu) _ List.mem_cons_self
  rw [earlier, List.takeWhile_append_of_pos hne, List.takeWhile_cons_of_neg (by simp),
    List.append_nil]

/-- A call that returned is in every explanation, with its operation and its response. -/
theorem Linearizes.split {k m : Nat} {id : Id} {op : Op} {r : Resp} (hlin : Linearizes obj h ts)
    (hcall : h[k]? = some (.call id op)) (hret : Returns h k m r) :
    ∃ us, ts = earlier ts k ++ ⟨k, op, r⟩ :: us := by
  obtain ⟨op', hmem⟩ := hlin.completed k m r hret
  obtain ⟨id', hcall'⟩ := hlin.called _ hmem
  obtain ⟨_, rfl⟩ := Event.call.inj (Option.some.inj (hcall.symm.trans hcall'))
  obtain ⟨as, us, rfl⟩ := List.append_of_mem hmem
  have heq : earlier (as ++ ⟨k, op, r⟩ :: us) k = as := earlier_eq hlin.unique
  exact ⟨us, by rw [heq]⟩

/-- What comes before a call that returned comes before every call that was made later. -/
theorem Linearizes.earlier_prefix {k m k' m' : Nat} {r r' : Resp} (hlin : Linearizes obj h ts)
    (hret : Returns h k m r) (hle : m ≤ k') (hret' : Returns h k' m' r') :
    earlier ts k <+: earlier ts k' := by
  have ⟨_, _, hcall', _⟩ := hret'
  obtain ⟨us, hsplit⟩ := hlin.split hcall' hret'
  have hlin' := hlin
  rw [hsplit] at hlin'
  obtain ⟨op, hmem⟩ := hlin'.before.2.2 k m r hret hle
  obtain ⟨as, bs, hearlier⟩ := List.append_of_mem hmem
  rw [hearlier, List.append_assoc, List.cons_append] at hsplit
  have hunique := hlin.unique
  rw [hsplit] at hunique
  have heq : earlier ts k = as := by
    rw [hsplit]
    exact earlier_eq hunique
  rw [heq, hearlier]
  exact List.prefix_append _ _

/-- The calls of operations with a property. -/
def Calls (h : List (Event Id Op Resp)) (P : Op → Prop) : Set Nat :=
  {k | ∃ id op, h[k]? = some (.call id op) ∧ P op}

/-- The calls that returned by `k`. -/
def ReturnedBy (h : List (Event Id Op Resp)) (P : Op → Prop) (k : Nat) : Set Nat :=
  {j ∈ Calls h P | ∃ m r, m ≤ k ∧ Returns h j m r}

/-- The calls made before `m`. -/
def CalledBy (h : List (Event Id Op Resp)) (P : Op → Prop) (m : Nat) : Set Nat :=
  {j ∈ Calls h P | j < m}

-- The positions of the calls of an explanation are as many as the calls.
private theorem ncard_positions (hunique : (ts.map Taken.pos).Nodup) (P : Op → Prop)
    [DecidablePred P] :
    {j | ∃ u ∈ ts, u.pos = j ∧ P u.op}.ncard = (ts.filter fun u ↦ P u.op).length := by
  have hnodup : ((ts.filter fun u ↦ P u.op).map Taken.pos).Nodup :=
    hunique.sublist (List.filter_sublist.map _)
  have heq : {j | ∃ u ∈ ts, u.pos = j ∧ P u.op} =
      (((ts.filter fun u ↦ P u.op).map Taken.pos).toFinset : Set Nat) := by
    ext j
    simp only [Set.mem_ofPred_eq, List.coe_toFinset, List.mem_map, List.mem_filter,
      decide_eq_true_eq]
    constructor
    · rintro ⟨u, hu, hpos, hP⟩
      exact ⟨u, ⟨hu, hP⟩, hpos⟩
    · rintro ⟨u, ⟨hu, hP⟩, hpos⟩
      exact ⟨u, hu, hpos, hP⟩
  rw [heq, Set.ncard_coe_finset, List.toFinset_card_of_nodup hnodup, List.length_map]

/-- Of the operations with a property, an explanation puts before a call at least those that
returned before the call was made and at most those that were called before it returned. -/
theorem Linearizes.count_before (hlin : Linearizes obj h (ts ++ t :: us)) (P : Op → Prop)
    [DecidablePred P] {m : Nat} {r : Resp} (hret : Returns h t.pos m r) :
    (ReturnedBy h P t.pos).ncard ≤ (ts.filter fun u ↦ P u.op).length ∧
      (ts.filter fun u ↦ P u.op).length ≤ (CalledBy h P m).ncard := by
  obtain ⟨_, hcalled, hreturned⟩ := hlin.before
  have hunique : (ts.map Taken.pos).Nodup := by
    have hall := hlin.unique
    rw [List.map_append] at hall
    exact hall.of_append_left
  have hfinite : {j | ∃ u ∈ ts, u.pos = j ∧ P u.op}.Finite := by
    apply (ts.map Taken.pos).toFinset.finite_toSet.subset
    rintro j ⟨u, hu, rfl, _⟩
    rw [List.coe_toFinset]
    exact List.mem_map_of_mem hu
  rw [← ncard_positions hunique P]
  constructor
  · refine Set.ncard_le_ncard ?_ hfinite
    rintro j ⟨⟨id, op, hj, hP⟩, m', r', hle, hret'⟩
    obtain ⟨op', hmem⟩ := hreturned j m' r' hret' hle
    obtain ⟨id', hj'⟩ := hlin.called _ (List.mem_append_left _ hmem)
    have hop := (Event.call.inj (Option.some.inj (hj.symm.trans hj'))).2
    exact ⟨_, hmem, rfl, hop ▸ hP⟩
  · refine Set.ncard_le_ncard ?_ ((Set.finite_lt_nat m).subset fun j hj ↦ hj.2)
    rintro j ⟨u, hu, rfl, hP⟩
    obtain ⟨id, hcall⟩ := hlin.called u (List.mem_append_left _ hu)
    exact ⟨⟨id, u.op, hcall, hP⟩, hcalled u hu m r hret⟩

end Counting

/-! ## The atomic object -/

/-- The object, the calls that did not take effect and the responses that were not returned. -/
structure AtomicState (Id : Type u) (S : Type x) (Op : Type v) (Resp : Type w) where
  state : S
  reqs : PMap Id Op
  resps : PMap Id Resp

section Atomic

variable [DecidableEq Id] (obj : SeqObject S Op Resp)

/-- A call enters, takes effect on the object, or returns. -/
inductive AtomicNext : AtomicState Id S Op Resp → Option (Event Id Op Resp) →
    AtomicState Id S Op Resp → Prop
  | takeEffect {s : AtomicState Id S Op Resp} (id : Id) (op : Op) (hreq : s.reqs id = some op) :
      AtomicNext s none
        { state := (obj.apply s.state op).1
          reqs := s.reqs.remove id
          resps := s.resps.insert id (obj.apply s.state op).2 }
  | stutter {s : AtomicState Id S Op Resp} : AtomicNext s none s
  | call {s : AtomicState Id S Op Resp} (id : Id) (op : Op) (hfresh : s.reqs id = none) :
      AtomicNext s (some (.call id op)) { s with reqs := s.reqs.insert id op }
  | ret {s : AtomicState Id S Op Resp} (id : Id) (r : Resp) (hresp : s.resps id = some r) :
      AtomicNext s (some (.ret id r)) { s with resps := s.resps.remove id }

/-- The atomic object, from its first state on. -/
def atomic (Id : Type u) [DecidableEq Id] (obj : SeqObject S Op Resp) :
    Machine (AtomicState Id S Op Resp) (Option (Event Id Op Resp)) where
  init := fun s ↦ s = ⟨obj.init, .empty, .empty⟩
  step := AtomicNext obj

variable {obj} {h : List (Event Id Op Resp)} {s t : AtomicState Id S Op Resp}
  {ts : List (Taken Op Resp)}

-- The order in which the calls took effect explains the history. The calls that wait to take effect
-- are not in it yet, those that wait to return are.
private structure Explains (obj : SeqObject S Op Resp) (h : List (Event Id Op Resp))
    (s : AtomicState Id S Op Resp) (ts : List (Taken Op Resp)) : Prop where
  lin : Linearizes obj h ts
  state_eq : s.state = obj.exec obj.init ts
  pending : ∀ id op, s.reqs id = some op → ∃ k, OpenCall h id k op ∧ k ∉ ts.map Taken.pos
  waiting : ∀ id r, s.resps id = some r → ∃ k op, OpenCall h id k op ∧ ⟨k, op, r⟩ ∈ ts

private theorem Explains.takeEffect (he : Explains obj h s ts) {id : Id} {op : Op}
    (hreq : s.reqs id = some op) : ∃ us, Explains obj h
      { state := (obj.apply s.state op).1
        reqs := s.reqs.remove id
        resps := s.resps.insert id (obj.apply s.state op).2 } us := by
  obtain ⟨k, hopen, hk⟩ := he.pending id op hreq
  refine ⟨ts ++ [⟨k, op, (obj.apply s.state op).2⟩], ⟨?_, ?_, ?_, ?_, ?_⟩, ?_, ?_, ?_⟩
  · rw [SeqObject.legal_append, ← he.state_eq]
    exact ⟨he.lin.legal, rfl, trivial⟩
  · rw [List.map_append, List.map_singleton, ← List.concat_eq_append]
    exact he.lin.unique.concat hk
  · intro t ht
    rcases List.mem_append.mp ht with hold | hnew
    · exact he.lin.called t hold
    · rw [List.mem_singleton.mp hnew]
      exact ⟨id, hopen.1⟩
  · intro k' m r hret
    obtain ⟨op', hmem⟩ := he.lin.completed k' m r hret
    exact ⟨op', List.mem_append_left _ hmem⟩
  · refine List.pairwise_append.mpr ⟨he.lin.real_time, List.pairwise_singleton _ _, ?_⟩
    intro t _ u hu m r hret
    rw [List.mem_singleton.mp hu] at hret
    exact absurd hret hopen.not_returns
  · rw [SeqObject.exec_snoc, ← he.state_eq]
  · intro id' op' hreq'
    obtain ⟨hne, hreq'⟩ := (PMap.remove_eq_some _ _ _ _).mp hreq'
    obtain ⟨k', hopen', hk'⟩ := he.pending id' op' hreq'
    refine ⟨k', hopen', ?_⟩
    rw [List.map_append, List.mem_append, List.map_singleton, List.mem_singleton]
    rintro (hold | rfl)
    · exact hk' hold
    · have heq := Option.some.inj (hopen.1.symm.trans hopen'.1)
      exact hne (Event.call.inj heq).1.symm
  · intro id' r hresp
    rcases (PMap.insert_eq_some _ _ _ _ _).mp hresp with ⟨rfl, rfl⟩ | ⟨_, hold⟩
    · exact ⟨k, op, hopen, List.mem_append_right _ List.mem_cons_self⟩
    · obtain ⟨k', op', hopen', hmem⟩ := he.waiting id' r hold
      exact ⟨k', op', hopen', List.mem_append_left _ hmem⟩

private theorem Explains.call (he : Explains obj h s ts) (id : Id) (op : Op) :
    Explains obj (h ++ [.call id op]) { s with reqs := s.reqs.insert id op } ts where
  lin :=
    { legal := he.lin.legal
      unique := he.lin.unique
      called := fun t ht ↦ (he.lin.called t ht).imp fun _ hk ↦ getElem?_snoc.mpr (.inl hk)
      completed := fun k m r hret ↦ he.lin.completed k m r hret.of_snoc_call
      real_time := he.lin.real_time.imp fun htu m r hret ↦ htu m r hret.of_snoc_call }
  state_eq := he.state_eq
  pending := by
    intro id' op' hreq
    rcases (PMap.insert_eq_some _ _ _ _ _).mp hreq with ⟨rfl, rfl⟩ | ⟨_, hold⟩
    · refine ⟨h.length, openCall_last, fun hmem ↦ ?_⟩
      obtain ⟨t, ht, hpos⟩ := List.mem_map.mp hmem
      obtain ⟨id', hcall⟩ := he.lin.called t ht
      exact absurd (lt_length_of_getElem? hcall) (by omega)
    · obtain ⟨k, hopen, hk⟩ := he.pending id' op' hold
      exact ⟨k, hopen.snoc_call, hk⟩
  waiting := by
    intro id' r hresp
    obtain ⟨k, op', hopen, hmem⟩ := he.waiting id' r hresp
    exact ⟨k, op', hopen.snoc_call, hmem⟩

private theorem Explains.ret (he : Explains obj h s ts) (hwf : WellFormed h) {id : Id} {r : Resp}
    (hresp : s.resps id = some r) :
    Explains obj (h ++ [.ret id r]) { s with resps := s.resps.remove id } ts := by
  obtain ⟨k, op, hopen, hmem⟩ := he.waiting id r hresp
  refine ⟨⟨he.lin.legal, he.lin.unique, ?_, ?_, ?_⟩, he.state_eq, ?_, ?_⟩
  · exact fun t ht ↦ (he.lin.called t ht).imp fun _ hk ↦ getElem?_snoc.mpr (.inl hk)
  · intro k' m r' hret
    rcases hret.of_snoc_ret with hold | ⟨_, rfl, op', hopen'⟩
    · exact he.lin.completed k' m r' hold
    · rw [hwf.open_unique hopen' hopen]
      exact ⟨op, hmem⟩
  · refine he.lin.real_time.imp_of_mem fun {t u} ht _ htu m r' hret ↦ ?_
    rcases hret.of_snoc_ret with hold | ⟨rfl, _, _⟩
    · exact htu m r' hold
    · obtain ⟨_, hcall⟩ := he.lin.called t ht
      exact lt_length_of_getElem? hcall
  · intro id' op' hreq
    obtain ⟨k', hopen', hk'⟩ := he.pending id' op' hreq
    have hne : id' ≠ id := by
      rintro rfl
      rw [hwf.open_unique hopen' hopen] at hk'
      exact hk' (List.mem_map_of_mem hmem)
    exact ⟨k', hopen'.snoc_ret hne, hk'⟩
  · intro id' r' hresp'
    obtain ⟨hne, hold⟩ := (PMap.remove_eq_some _ _ _ _).mp hresp'
    obtain ⟨k', op', hopen', hmem'⟩ := he.waiting id' r' hold
    exact ⟨k', op', hopen'.snoc_ret hne, hmem'⟩

/-- The well-formed histories of the atomic object are linearizable. -/
theorem linearizable_of_run {labels : List (Option (Event Id Op Resp))}
    (hinit : (atomic Id obj).init s) (hrun : (atomic Id obj).Run s labels t)
    (hwf : WellFormed (events labels)) : Linearizable obj (events labels) := by
  have hstart : WellFormed (events ([] : List (Option (Event Id Op Resp)))) →
      ∃ ts, Explains obj (events []) s ts := by
    intro _
    obtain rfl : s = ⟨obj.init, .empty, .empty⟩ := hinit
    refine ⟨[], ⟨trivial, List.nodup_nil, ?_, ?_, .nil⟩, rfl, ?_, ?_⟩
    · intro t ht
      cases ht
    · rintro k m r ⟨_, _, hk, _⟩
      cases hk
    · intro id op hreq
      cases hreq
    · intro id r hresp
      cases hresp
  have hend : WellFormed (events labels) → ∃ ts, Explains obj (events labels) t ts := by
    refine hrun.history_nil (I := fun labels s ↦ WellFormed (events labels) →
      ∃ ts, Explains obj (events labels) s ts) hstart ?_
    intro labels s label t hI hstep hwf
    cases hstep with
    | takeEffect id op hreq =>
      rw [events_snoc_none] at hwf ⊢
      obtain ⟨ts, he⟩ := hI hwf
      exact he.takeEffect hreq
    | stutter =>
      rw [events_snoc_none] at hwf ⊢
      exact hI hwf
    | call id op hfresh =>
      rw [events_snoc_some] at hwf ⊢
      obtain ⟨ts, he⟩ := hI hwf.of_snoc
      exact ⟨ts, he.call id op⟩
    | ret id r hresp =>
      rw [events_snoc_some] at hwf ⊢
      obtain ⟨ts, he⟩ := hI hwf.of_snoc
      exact ⟨ts, he.ret hwf.of_snoc hresp⟩
  obtain ⟨ts, he⟩ := hend hwf
  exact ⟨ts, he.lin⟩

end Atomic

end Lib.Linearizability
