import NrKernel.PageTable.Tree

/-!
# Table words as the implementation builds and reads them

The executable half of `PageDirectoryEntry` (`impl_u/l2_impl.rs:93–500`): words for pages and
directories, and the reading of the present bit, the kind, the address and the flags. The
view of a new word has exactly the requested fields; on a word that meets the invariant the
implementation reads what the MMU sees.
-/

namespace NrKernel.PageTable

open Lib Lib.WordBits PtMemory

namespace PageDirectoryEntry

/-- The word `new_entry` builds (`impl_u/l2_impl.rs:400–409`). -/
def newWord (layer : Nat) (address : BitVec 64)
    (isPage isWritable isSupervisor isWritethrough disableCache disableExecute : Bool) :
    BitVec 64 :=
  address
    ||| maskFlagP
    ||| (if isPage && layer != 3 then maskL1PgFlagPS else 0)
    ||| (if isWritable then maskFlagRW else 0)
    ||| (if isSupervisor then 0 else maskFlagUS)
    ||| (if isWritethrough then maskFlagPWT else 0)
    ||| (if disableCache then maskFlagPCD else 0)
    ||| (if disableExecute then maskFlagXD else 0)

/-- `new_entry` (`impl_u/l2_impl.rs:366–419`). -/
def newEntry (layer : Nat) (address : BitVec 64)
    (isPage isWritable isSupervisor isWritethrough disableCache disableExecute : Bool) :
    PageDirectoryEntry where
  entry := newWord layer address isPage isWritable isSupervisor isWritethrough disableCache
    disableExecute
  layer := layer

/-- `new_page_entry` (`impl_u/l2_impl.rs:317–341`). -/
def newPageEntry (layer : Nat) (pte : PageTableEntry) : PageDirectoryEntry :=
  newEntry layer (BitVec.ofNat 64 pte.frame.base) true pte.flags.isWritable
    pte.flags.isSupervisor false false pte.flags.disableExecute

/-- `new_dir_entry` (`impl_u/l2_impl.rs:343–364`). -/
def newDirEntry (layer : Nat) (address : BitVec 64) : PageDirectoryEntry :=
  newEntry layer address
    false -- is_page
    true  -- is_writable
    false -- is_supervisor
    false -- is_writethrough
    false -- disable_cache
    false -- disable_execute

/-- `flags` (`impl_u/l2_impl.rs:421–435`). -/
def flags (e : PageDirectoryEntry) : Flags where
  isWritable := hasFlag e.entry maskFlagRW
  isSupervisor := !hasFlag e.entry maskFlagUS
  disableExecute := hasFlag e.entry maskFlagXD

/-- `is_mapping` (`impl_u/l2_impl.rs:461–469`). -/
def isMapping (e : PageDirectoryEntry) : Bool := hasFlag e.entry maskFlagP

/-- `is_page` (`impl_u/l2_impl.rs:471–487`). -/
def isPage (e : PageDirectoryEntry) (layer : Nat) : Bool :=
  if layer = 3 then true
  else if layer = 0 then false
  else hasFlag e.entry maskL1PgFlagPS

/-- `is_dir` (`impl_u/l2_impl.rs:489–498`). -/
def isDir (e : PageDirectoryEntry) (layer : Nat) : Bool := !e.isPage layer

/-- The least significant address bit of an entry of the given kind and layer. -/
def addrLow (pg : Bool) (layer : Nat) : Nat :=
  if pg && layer == 1 then 30 else if pg && layer == 2 then 21 else 12

private theorem le_addrLow (pg : Bool) (layer : Nat) : 12 ≤ addrLow pg layer := by
  unfold addrLow
  split
  · decide
  · split <;> decide

/-- The kinds of entries a layer can hold. -/
def KindLegal (pg : Bool) (layer : Nat) : Prop :=
  layer ≤ 3 ∧ if pg then 0 < layer else layer < 3

private theorem getLsbD_ite_bit (b : Bool) {k : Nat} (hk : k < 64) (i : Nat) :
    (if b then bit k else 0#64).getLsbD i = (b && decide (i = k)) := by
  cases b with
  | false => simp
  | true => simp [getLsbD_bit, hk]

/-- The bits of a new word: those of the address and the requested flags. -/
theorem getLsbD_newWord (layer : Nat) (address : BitVec 64) (pg w s wt dc xd : Bool) (i : Nat) :
    (newWord layer address pg w s wt dc xd).getLsbD i =
      (address.getLsbD i || decide (i = 0) || (pg && layer != 3 && decide (i = 7))
        || (w && decide (i = 1)) || (!s && decide (i = 2)) || (wt && decide (i = 3))
        || (dc && decide (i = 4)) || (xd && decide (i = 63))) := by
  have hs : (if s then 0#64 else bit 2).getLsbD i = (!s && decide (i = 2)) := by
    cases s with
    | false => simp [getLsbD_bit]
    | true => simp
  have hP : (bit 0).getLsbD i = decide (i = 0) := by simp [getLsbD_bit]
  unfold newWord maskFlagP maskL1PgFlagPS maskFlagRW maskFlagUS maskFlagPWT maskFlagPCD maskFlagXD
  simp only [BitVec.getLsbD_or, BitVec.ofNat_eq_ofNat]
  rw [hP, hs, getLsbD_ite_bit _ (by decide), getLsbD_ite_bit _ (by decide),
    getLsbD_ite_bit _ (by decide), getLsbD_ite_bit _ (by decide), getLsbD_ite_bit _ (by decide)]

variable [PhyAddrWidth]

/-- `address` (`impl_u/l2_impl.rs:437–459`). -/
def address (e : PageDirectoryEntry) : BitVec 64 := e.entry &&& maskAddr

/-! ## Reading words that meet the invariant -/

/-- An entry that is not present is empty to the MMU. -/
theorem view_of_not_mapping {e : PageDirectoryEntry} (h : e.isMapping = false) :
    e.view = .empty := by
  unfold isMapping at h
  simp only [view, h, Bool.false_and, Bool.false_eq_true, if_false, ite_self]

/-- What the implementation takes for a directory is one to the MMU, at the same address. -/
theorem view_of_dir {e : PageDirectoryEntry} (hlayer : e.layer ≤ 3)
    (hmb0 : e.allMb0BitsAreZero = true) (hmap : e.isMapping = true)
    (hdir : e.isDir e.layer = true) :
    ∃ x, e.view = .directory x ∧ x.addr = e.address.toNat := by
  unfold isMapping at hmap
  refine ⟨dirView e.entry, ?_, rfl⟩
  unfold isDir isPage at hdir
  unfold view
  rw [if_pos hlayer, if_pos (by rw [hmap, hmb0]; rfl)]
  have hcases : e.layer = 0 ∨ e.layer = 1 ∨ e.layer = 2 ∨ e.layer = 3 := by omega
  rcases hcases with h | h | h | h
  · rw [if_pos h]
  · have hps : hasFlag e.entry maskL1PgFlagPS = false := by simpa [h] using hdir
    simp [h, hps]
  · have hps : hasFlag e.entry maskL2PgFlagPS = false := by
      simpa [h, maskL1PgFlagPS, maskL2PgFlagPS] using hdir
    simp [h, hps]
  · simp [h] at hdir

-- Without the PAT bit, all address masks of a page keep the same bits
-- (`lemma_addr_mask_when_hp_pat_is_zero`, `impl_u/l2_impl.rs:119–135`).
private theorem and_addrMask_eq {v : BitVec 64} {low : Nat} (hpat : v.getLsbD 12 = false)
    (hmb0 : ∀ i, 13 ≤ i → i < low → v.getLsbD i = false) (hlow : 12 ≤ low) :
    v &&& bitmaskInc low (maxPhyaddrWidth - 1) = v &&& maskAddr := by
  apply BitVec.eq_of_getLsbD_eq
  intro i _
  rw [maskAddr, BitVec.getLsbD_and, BitVec.getLsbD_and, getLsbD_bitmaskInc, getLsbD_bitmaskInc]
  by_cases h12 : i = 12
  · rw [h12, hpat]
    simp
  · by_cases hi : 13 ≤ i ∧ i < low
    · rw [hmb0 i hi.1 hi.2]
      simp
    · have hiff : (low ≤ i) ↔ (12 ≤ i) := by omega
      simp [hiff]

/-- What the implementation takes for a page is one to the MMU, with the same frame address
and rights. -/
theorem view_of_page {e : PageDirectoryEntry} (hlayer : e.layer ≤ 3)
    (hmb0 : e.allMb0BitsAreZero = true) (hpat : e.HpPatIsZero) (hmap : e.isMapping = true)
    (hpage : e.isDir e.layer = false) :
    ∃ p, e.view = .page p ∧ p.addr = e.address.toNat ∧
      (⟨p.flagRW, !p.flagUS, p.flagXD⟩ : Flags) = e.flags := by
  have hmap' : hasFlag e.entry maskFlagP = true := hmap
  have hcases : e.layer = 0 ∨ e.layer = 1 ∨ e.layer = 2 ∨ e.layer = 3 := by omega
  unfold isDir isPage at hpage
  rcases hcases with h | h | h | h
  · simp [h] at hpage
  · have hps : hasFlag e.entry maskL1PgFlagPS = true := by simpa [h] using hpage
    have hview : e.view = .page (pageView e.entry maskL1PgAddr maskPgFlagPAT) := by
      simp [view, h, hmap', hmb0, hps]
    refine ⟨_, hview, ?_, rfl⟩
    have hzero := hpat.1 ⟨by rw [hview]; rfl, h⟩
    rw [maskPgFlagPAT, BitVec.ofNat_eq_ofNat, and_bit_eq_zero _ (by decide)] at hzero
    simp only [allMb0BitsAreZero, hmap', h, hps, if_true, Nat.one_ne_zero, if_false,
      Bool.and_eq_true, beq_iff_eq, BitVec.ofNat_eq_ofNat, and_bitmaskInc_eq_zero] at hmb0
    exact congrArg BitVec.toNat (and_addrMask_eq hzero
      (fun i h13 h30 ↦ hmb0.2 i h13 (by omega) (by omega)) (by decide))
  · have hps : hasFlag e.entry maskL2PgFlagPS = true := by
      simpa [h, maskL1PgFlagPS, maskL2PgFlagPS] using hpage
    have hview : e.view = .page (pageView e.entry maskL2PgAddr maskPgFlagPAT) := by
      simp [view, h, hmap', hmb0, hps]
    refine ⟨_, hview, ?_, rfl⟩
    have hzero := hpat.2 ⟨by rw [hview]; rfl, h⟩
    rw [maskPgFlagPAT, BitVec.ofNat_eq_ofNat, and_bit_eq_zero _ (by decide)] at hzero
    simp only [allMb0BitsAreZero, hmap', h, hps, if_true, OfNat.ofNat_ne_zero, if_false,
      OfNat.ofNat_ne_one, Bool.and_eq_true, beq_iff_eq, BitVec.ofNat_eq_ofNat,
      and_bitmaskInc_eq_zero] at hmb0
    exact congrArg BitVec.toNat (and_addrMask_eq hzero
      (fun i h13 h21 ↦ hmb0.2 i h13 (by omega) (by omega)) (by decide))
  · have hview : e.view = .page (pageView e.entry maskL3PgAddr maskL3PgFlagPAT) := by
      simp [view, h, hmap', hmb0]
    exact ⟨_, hview, rfl, rfl⟩

/-- In a table of the tree the implementation and the MMU agree on which entries are
present. -/
theorem isMapping_eq_false_iff {e : PageDirectoryEntry} (hlayer : e.layer ≤ 3)
    (hmb0 : e.allMb0BitsAreZero = true) (hpat : e.HpPatIsZero) :
    e.isMapping = false ↔ e.view = .empty := by
  refine ⟨view_of_not_mapping, fun hempty ↦ ?_⟩
  by_contra hne
  have hmap := Bool.eq_true_of_not_eq_false hne
  cases hdir : e.isDir e.layer with
  | true =>
    obtain ⟨x, hx, _⟩ := view_of_dir hlayer hmb0 hmap hdir
    rw [hempty] at hx
    cases hx
  | false =>
    obtain ⟨p, hp, _⟩ := view_of_page hlayer hmb0 hpat hmap hdir
    rw [hempty] at hp
    cases hp

/-! ## Decoding new words -/

section NewWord

variable {layer low : Nat} {address : BitVec 64} {pg w s wt dc xd : Bool}

/-- The addresses `new_entry` takes: all their bits lie between `low` and the physical
address width. -/
def AddrBits (low : Nat) (address : BitVec 64) : Prop :=
  ∀ i, i < 64 → address.getLsbD i = true → low ≤ i ∧ i ≤ maxPhyaddrWidth - 1

private theorem addrBits_of_and_eq {low : Nat} {address : BitVec 64}
    (h : address &&& bitmaskInc low (maxPhyaddrWidth - 1) = address) : AddrBits low address :=
  (and_bitmaskInc_eq_self _ _ _).mp h

private theorem AddrBits.getLsbD_lt (h : AddrBits low address) {i : Nat} (hi : i < low) :
    address.getLsbD i = false := by
  rw [Bool.eq_false_iff]
  intro hbit
  by_cases h64 : i < 64
  · have := h i h64 hbit
    omega
  · rw [BitVec.getLsbD_of_ge _ _ (by omega)] at hbit
    cases hbit

private theorem AddrBits.getLsbD_ge (h : AddrBits low address) {i : Nat}
    (hi : maxPhyaddrWidth ≤ i) : address.getLsbD i = false := by
  rw [Bool.eq_false_iff]
  intro hbit
  by_cases h64 : i < 64
  · have := h i h64 hbit
    have := PhyAddrWidth.width_ge
    omega
  · rw [BitVec.getLsbD_of_ge _ _ (by omega)] at hbit
    cases hbit

/-- Masking a new word with the address bits gives the address back
(`lemma_new_entry_addr_mask_is_address`, `impl_u/l2_impl.rs:240–315`). -/
theorem AddrBits.newWord_and (h : AddrBits low address) (hlow : 12 ≤ low) :
    newWord layer address pg w s wt dc xd &&& bitmaskInc low (maxPhyaddrWidth - 1) = address := by
  have hwidth := PhyAddrWidth.width_le
  apply BitVec.eq_of_getLsbD_eq
  intro i hi
  rw [BitVec.getLsbD_and, getLsbD_newWord, getLsbD_bitmaskInc]
  by_cases hin : low ≤ i ∧ i ≤ maxPhyaddrWidth - 1
  · have h0 : i ≠ 0 := by omega
    have h1 : i ≠ 1 := by omega
    have h2 : i ≠ 2 := by omega
    have h3 : i ≠ 3 := by omega
    have h4 : i ≠ 4 := by omega
    have h7 : i ≠ 7 := by omega
    have h63 : i ≠ 63 := by omega
    simp [hin, h0, h1, h2, h3, h4, h7, h63, hi]
  · have hfalse : address.getLsbD i = false := by
      rw [Bool.eq_false_iff]
      exact fun hbit ↦ hin (h i hi hbit)
    have hmask :
        (decide (low ≤ i) && decide (i ≤ maxPhyaddrWidth - 1) && decide (i < 64)) = false := by
      rw [Bool.eq_false_iff]
      intro hm
      simp only [Bool.and_eq_true, decide_eq_true_eq] at hm
      exact hin hm.1
    rw [hmask, Bool.and_false, hfalse]

/-- No bit of a new word lies between the address bits and bit 62. -/
theorem AddrBits.newWord_reserved (h : AddrBits low address) {high : Nat} (hhigh : high ≤ 62) :
    newWord layer address pg w s wt dc xd &&& bitmaskInc maxPhyaddrWidth high = 0#64 := by
  rw [and_bitmaskInc_eq_zero]
  intro i hlow hle _
  have hwidth := PhyAddrWidth.width_ge
  have h0 : i ≠ 0 := by omega
  have h1 : i ≠ 1 := by omega
  have h2 : i ≠ 2 := by omega
  have h3 : i ≠ 3 := by omega
  have h4 : i ≠ 4 := by omega
  have h7 : i ≠ 7 := by omega
  have h63 : i ≠ 63 := by omega
  simp [getLsbD_newWord, h.getLsbD_ge hlow, h0, h1, h2, h3, h4, h7, h63]

/-- No bit of a new word lies between bit 13 and the address bits. -/
theorem AddrBits.newWord_padding (h : AddrBits low address) {high : Nat} (hhigh : high < low)
    (hle : high ≤ 62) : newWord layer address pg w s wt dc xd &&& bitmaskInc 13 high = 0#64 := by
  rw [and_bitmaskInc_eq_zero]
  intro i h13 hi _
  have h0 : i ≠ 0 := by omega
  have h1 : i ≠ 1 := by omega
  have h2 : i ≠ 2 := by omega
  have h3 : i ≠ 3 := by omega
  have h4 : i ≠ 4 := by omega
  have h7 : i ≠ 7 := by omega
  have h63 : i ≠ 63 := by omega
  simp [getLsbD_newWord, h.getLsbD_lt (Nat.lt_of_le_of_lt hi hhigh), h0, h1, h2, h3, h4, h7, h63]

/-- A flag outside the address bits of a new word is set when it was requested
(`lemma_new_entry_addr_mask_is_address`). -/
theorem AddrBits.hasFlag_newWord (h : AddrBits low address) {i : Nat} (hi : i < 64)
    (hout : i < low ∨ 52 ≤ i) :
    hasFlag (newWord layer address pg w s wt dc xd) (bit i) =
      (decide (i = 0) || (pg && layer != 3 && decide (i = 7))
        || (w && decide (i = 1)) || (!s && decide (i = 2)) || (wt && decide (i = 3))
        || (dc && decide (i = 4)) || (xd && decide (i = 63))) := by
  have hfalse : address.getLsbD i = false := by
    rcases hout with hlt | hge
    · exact h.getLsbD_lt hlt
    · exact h.getLsbD_ge (Nat.le_trans PhyAddrWidth.width_le hge)
  rw [hasFlag_bit _ hi, getLsbD_newWord, hfalse, Bool.false_or]

end NewWord

section NewEntry

variable {layer : Nat} {address : BitVec 64} {pg w s wt dc xd : Bool}

private theorem newEntry_present (h : AddrBits (addrLow pg layer) address) :
    hasFlag (newWord layer address pg w s wt dc xd) maskFlagP = true := by
  have hlow := le_addrLow pg layer
  rw [maskFlagP, h.hasFlag_newWord (by decide) (.inl (by omega))]
  simp

private theorem newEntry_pageSize (h : AddrBits (addrLow pg layer) address) :
    hasFlag (newWord layer address pg w s wt dc xd) maskL1PgFlagPS = (pg && layer != 3) := by
  have hlow := le_addrLow pg layer
  rw [maskL1PgFlagPS, h.hasFlag_newWord (by decide) (.inl (by omega))]
  simp

/-- The must-be-zero bits of a new entry are zero (`lemma_new_entry_mb0_bits_are_zero`,
`impl_u/l2_impl.rs:151–238`). -/
theorem newEntry_mb0 (hkind : KindLegal pg layer) (h : AddrBits (addrLow pg layer) address) :
    (newEntry layer address pg w s wt dc xd).allMb0BitsAreZero = true := by
  obtain ⟨hle, hkind⟩ := hkind
  have hP : hasFlag (newWord layer address pg w s wt dc xd) maskFlagP = true := newEntry_present h
  have hPS : hasFlag (newWord layer address pg w s wt dc xd) maskL1PgFlagPS = (pg && layer != 3) :=
    newEntry_pageSize h
  have hPS2 : hasFlag (newWord layer address pg w s wt dc xd) maskL2PgFlagPS = (pg && layer != 3) :=
    hPS
  have h51 : newWord layer address pg w s wt dc xd &&& bitmaskInc maxPhyaddrWidth 51 = 0#64 :=
    h.newWord_reserved (by decide)
  have h62 : newWord layer address pg w s wt dc xd &&& bitmaskInc maxPhyaddrWidth 62 = 0#64 :=
    h.newWord_reserved (by decide)
  cases pg with
  | false =>
    -- a directory: bit 7 is reserved
    have h7 : newWord layer address false w s wt dc xd &&& bit 7 = 0#64 := by
      rw [and_bit_eq_zero _ (by decide), ← hasFlag_bit _ (by decide)]
      exact hPS
    have hcases : layer = 0 ∨ layer = 1 ∨ layer = 2 := by
      simp only [Bool.false_eq_true, if_false] at hkind
      omega
    rcases hcases with rfl | rfl | rfl <;>
      simp [allMb0BitsAreZero, newEntry, hP, hPS, hPS2, h51, h62, h7]
  | true =>
    -- a page: the bits below the frame address are reserved
    have hcases : layer = 1 ∨ layer = 2 ∨ layer = 3 := by
      simp only [if_true] at hkind
      omega
    rcases hcases with rfl | rfl | rfl
    · have h29 : newWord 1 address true w s wt dc xd &&& bitmaskInc 13 29 = 0#64 :=
        h.newWord_padding (by decide) (by decide)
      simp [allMb0BitsAreZero, newEntry, hP, hPS, h51, h29]
    · have h20 : newWord 2 address true w s wt dc xd &&& bitmaskInc 13 20 = 0#64 :=
        h.newWord_padding (by decide) (by decide)
      simp [allMb0BitsAreZero, newEntry, hP, hPS2, h62, h20]
    · simp [allMb0BitsAreZero, newEntry, hP, h62]

/-- The MMU sees a new directory entry with the requested address and flags. -/
theorem newEntry_view_directory (hlayer : layer < 3) (h : AddrBits 12 address) :
    (newEntry layer address false w s wt dc xd).view =
      .directory ⟨address.toNat, true, w, !s, wt, dc, false, xd⟩ := by
  have hbits : AddrBits (addrLow false layer) address := by simpa [addrLow] using h
  have hP : hasFlag (newWord layer address false w s wt dc xd) maskFlagP = true :=
    newEntry_present hbits
  have hPS : hasFlag (newWord layer address false w s wt dc xd) maskL1PgFlagPS = false :=
    newEntry_pageSize hbits
  have hPS2 : hasFlag (newWord layer address false w s wt dc xd) maskL2PgFlagPS = false := hPS
  have hmb0 : (newEntry layer address false w s wt dc xd).allMb0BitsAreZero = true :=
    newEntry_mb0 ⟨by omega, by simpa using hlayer⟩ hbits
  have hview : dirView (newWord layer address false w s wt dc xd) =
      ⟨address.toNat, true, w, !s, wt, dc, false, xd⟩ := by
    unfold dirView
    rw [hP, maskAddr, h.newWord_and (by decide)]
    unfold maskFlagRW maskFlagUS maskFlagPWT maskFlagPCD maskFlagA maskFlagXD
    repeat rw [h.hasFlag_newWord (by decide) (by decide)]
    simp
  have hcases : layer = 0 ∨ layer = 1 ∨ layer = 2 := by omega
  rw [← hview]
  rcases hcases with rfl | rfl | rfl <;>
    simp [view, hmb0] <;> simp [newEntry, hP, hPS, hPS2]

private theorem newWord_pageView {low : Nat} (h : AddrBits low address) (hlow : 12 ≤ low)
    {patMask : BitVec 64}
    (hpat : hasFlag (newWord layer address true w s wt dc xd) patMask = false) :
    PageDirectoryEntry.pageView (newWord layer address true w s wt dc xd)
        (bitmaskInc low (maxPhyaddrWidth - 1)) patMask =
      ⟨address.toNat, true, w, !s, wt, dc, false, false, false, false, xd⟩ := by
  have hlt : ∀ i, i < 12 → i < low ∨ 52 ≤ i := fun i hi ↦ .inl (by omega)
  unfold pageView
  rw [hpat, h.newWord_and hlow]
  unfold maskFlagP maskFlagRW maskFlagUS maskFlagPWT maskFlagPCD maskFlagA maskFlagXD maskPgFlagD
    maskPgFlagG
  repeat rw [h.hasFlag_newWord (by decide) (hlt _ (by decide))]
  rw [h.hasFlag_newWord (by decide) (.inr (by decide))]
  simp

/-- The MMU sees a new page entry with the requested address and flags. -/
theorem newEntry_view_page (hpos : 0 < layer) (hle : layer ≤ 3)
    (h : AddrBits (addrLow true layer) address) :
    (newEntry layer address true w s wt dc xd).view =
      .page ⟨address.toNat, true, w, !s, wt, dc, false, false, false, false, xd⟩ := by
  have hP : hasFlag (newWord layer address true w s wt dc xd) maskFlagP = true :=
    newEntry_present h
  have hPS : hasFlag (newWord layer address true w s wt dc xd) maskL1PgFlagPS = (layer != 3) :=
    newEntry_pageSize h
  have hPS2 : hasFlag (newWord layer address true w s wt dc xd) maskL2PgFlagPS = (layer != 3) := hPS
  have hmb0 : (newEntry layer address true w s wt dc xd).allMb0BitsAreZero = true :=
    newEntry_mb0 ⟨hle, by simpa using hpos⟩ h
  have hcases : layer = 1 ∨ layer = 2 ∨ layer = 3 := by omega
  rcases hcases with rfl | rfl | rfl
  · have hpat : hasFlag (newWord 1 address true w s wt dc xd) maskPgFlagPAT = false := by
      rw [maskPgFlagPAT, h.hasFlag_newWord (by decide) (.inl (by decide))]
      simp
    rw [← newWord_pageView h (by decide) hpat]
    simp [view, hmb0]
    simp [newEntry, hP, hPS]
    rfl
  · have hpat : hasFlag (newWord 2 address true w s wt dc xd) maskPgFlagPAT = false := by
      rw [maskPgFlagPAT, h.hasFlag_newWord (by decide) (.inl (by decide))]
      simp
    rw [← newWord_pageView h (by decide) hpat]
    simp [view, hmb0]
    simp [newEntry, hP, hPS2]
    rfl
  · have hpat : hasFlag (newWord 3 address true w s wt dc xd) maskL3PgFlagPAT = false := hPS
    rw [← newWord_pageView h (by decide) hpat]
    simp [view, hmb0]
    simp [newEntry, hP]
    rfl

/-- The PAT bit of a new huge or super page is zero. -/
theorem newEntry_hpPatIsZero (h : AddrBits (addrLow pg layer) address)
    (hdir : (newEntry layer address pg w s wt dc xd).view.isPage = true → pg = true) :
    (newEntry layer address pg w s wt dc xd).HpPatIsZero := by
  have hzero : ∀ l, layer = l → addrLow true l ≠ 12 →
      (newEntry layer address pg w s wt dc xd).view.isPage = true →
      newWord layer address pg w s wt dc xd &&& maskPgFlagPAT = 0 := by
    rintro l rfl hlow hpage
    have hlt : 12 < addrLow pg layer := by
      have := le_addrLow true layer
      rw [hdir hpage]
      omega
    rw [maskPgFlagPAT, BitVec.ofNat_eq_ofNat, and_bit_eq_zero _ (by decide),
      ← hasFlag_bit _ (by decide), h.hasFlag_newWord (by decide) (.inl hlt)]
    simp
  exact ⟨fun hp ↦ hzero 1 hp.2 (by decide) hp.1, fun hp ↦ hzero 2 hp.2 (by decide) hp.1⟩

end NewEntry

/-! ## The words `map_frame` writes -/

/-- The physical addresses an entry can hold. -/
theorem addrBits_ofNat {n low : Nat} (hle : n ≤ maxPhyaddr) (hal : n % 2 ^ low = 0) :
    AddrBits low (BitVec.ofNat 64 n) := by
  have hwidth := PhyAddrWidth.width_ge
  have hpos : 0 < 2 ^ maxPhyaddrWidth := Nat.two_pow_pos _
  unfold maxPhyaddr at hle
  apply addrBits_of_and_eq
  apply ofNat_and_bitmaskInc_eq_self _ hal
  rw [show maxPhyaddrWidth - 1 + 1 = maxPhyaddrWidth by omega]
  omega

/-- A physical address fits in a word. -/
theorem toNat_ofNat_of_le {n : Nat} (hle : n ≤ maxPhyaddr) : (BitVec.ofNat 64 n).toNat = n := by
  have hwidth : 2 ^ maxPhyaddrWidth ≤ 2 ^ 52 :=
    Nat.pow_le_pow_right (by decide) PhyAddrWidth.width_le
  unfold maxPhyaddr at hle
  rw [BitVec.toNat_ofNat, Nat.mod_eq_of_lt (by omega)]

variable {M : Type} [PtMemoryOps M]

/-- A new page entry meets the invariant and represents exactly the requested mapping. -/
theorem newPageEntry_spec (mem : M) {layer : Nat} {pte : PageTableEntry} (hpos : 0 < layer)
    (hle : layer ≤ 3) (hsize : pte.frame.size = x86Arch.entrySize layer)
    (hal : aligned pte.frame.base pte.frame.size) (hbase : pte.frame.base ≤ maxPhyaddr) :
    EntryInvAt mem (newPageEntry layer pte) none ∧
      ∀ base, interpWord mem (newPageEntry layer pte) none base = .page pte := by
  have hlow : 2 ^ addrLow true layer = x86Arch.entrySize layer := by
    have hcases : layer = 1 ∨ layer = 2 ∨ layer = 3 := by omega
    rcases hcases with rfl | rfl | rfl <;> decide
  have hbits : AddrBits (addrLow true layer) (BitVec.ofNat 64 pte.frame.base) := by
    apply addrBits_ofNat hbase
    rw [hlow, ← hsize]
    exact hal
  have hview : (newPageEntry layer pte).view = .page _ := newEntry_view_page hpos hle hbits
  constructor
  · exact {
      has_flags := by
        intro x hx
        rw [hview] at hx
        cases hx
      matches_structure := by
        rw [hview]
        rfl
      hp_pat_is_zero := newEntry_hpPatIsZero hbits (fun _ ↦ rfl)
      mb0_bits_are_zero := newEntry_mb0 ⟨hle, by simpa using hpos⟩ hbits
      obeys_invariant := by
        intro x d hx
        rw [hview] at hx
        cases hx }
  · intro base
    rw [interpWord_page mem hview]
    dsimp only
    rw [toNat_ofNat_of_le hbase, show (newPageEntry layer pte).layer = layer from rfl, ← hsize,
      Bool.not_not]

/-- A new directory entry refers to the given page with all rights. -/
theorem newDirEntry_view {layer n : Nat} (hlayer : layer < 3) (hle : n ≤ maxPhyaddr)
    (hal : aligned n pageSize) :
    ∃ x, (newDirEntry layer (BitVec.ofNat 64 n)).view = .directory x ∧ x.addr = n ∧
      x.flagRW = true ∧ x.flagUS = true ∧ x.flagXD = false :=
  ⟨_, newEntry_view_directory hlayer (addrBits_ofNat hle hal), toNat_ofNat_of_le hle, rfl, rfl, rfl⟩

/-- A new directory entry meets the invariant when the page it refers to does. -/
theorem newDirEntry_entryInvAt {mem : M} {layer n : Nat} {d : PTDir} (hlayer : layer < 3)
    (hle : n ≤ maxPhyaddr) (hal : aligned n pageSize) (hd : InvAt mem d (layer + 1) n) :
    EntryInvAt mem (newDirEntry layer (BitVec.ofNat 64 n)) (some d) := by
  obtain ⟨x, hview, haddr, hrw, hus, hxd⟩ := newDirEntry_view hlayer hle hal
  have hbits : AddrBits (addrLow false layer) (BitVec.ofNat 64 n) := addrBits_ofNat hle hal
  exact {
    has_flags := by
      intro y hy
      rw [hview, GhostPageDirectoryEntry.directory.injEq] at hy
      subst hy
      exact ⟨hrw, hus, hxd⟩
    matches_structure := by
      rw [hview]
      rfl
    hp_pat_is_zero := newEntry_hpPatIsZero hbits (by
      intro hpage
      have hview' := hview
      unfold newDirEntry at hview'
      rw [hview'] at hpage
      cases hpage)
    mb0_bits_are_zero := newEntry_mb0 ⟨by omega, by simpa using hlayer⟩ hbits
    obeys_invariant := by
      intro y d' hy hd'
      rw [hview, GhostPageDirectoryEntry.directory.injEq] at hy
      cases hd'
      subst hy
      rw [haddr]
      exact hd }

end PageDirectoryEntry

end NrKernel.PageTable
