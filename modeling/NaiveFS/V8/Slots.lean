import Mathlib.Data.Finset.Card
import NaiveFS.Lib.Ownership
import NaiveFS.V8.Effects

/-!
# Records and the block bitmap (`naivefs-8`)

Where the records of the inodes, the block bitmap and the data area lie, who
owns which block, and what one change of a write does to that.
-/

namespace NaiveFS.V8

open Bytes

variable {e : Endian} {sbi : SbInfo} {nii nii' : NaiveInodeInfo} {m m' : Bytes} {v v' : Int}

/-- Where the block bitmap, the records and the data area lie. -/
structure Laid (e : Endian) (sbi : SbInfo) (recs : Records) : Prop where
  first : 0 < sbi.dataStart e
  last : sbi.dataEnd e ≤ 4096
  bitmap : sbi.blockBitmap = bData naiveBlockBitmapBlock
  bitmapApart : ¬ sbi.InData e naiveBlockBitmapBlock
  start : ∀ id nii, recs id = some nii → nii.diskInode = bData nii.inodeBh
  inodeApart : ∀ id nii, recs id = some nii →
    nii.inodeBh ≠ naiveBlockBitmapBlock ∧ ¬ sbi.InData e nii.inodeBh
  distinct : ∀ id id' nii nii', recs id = some nii → recs id' = some nii' →
    nii.inodeBh = nii'.inodeBh → id = id'

/-- The record of one inode, at the start of block `b`. -/
def onlyRecord (id b : Nat) : Records := fun x => if x = id then some ⟨bData b, b⟩ else none

theorem onlyRecord_some {id b x : Nat} (h : onlyRecord id b x = some nii) :
    x = id ∧ nii.diskInode = bData nii.inodeBh ∧ nii.inodeBh = b := by
  unfold onlyRecord at h
  split at h
  · cases h
    exact ⟨‹_›, rfl, rfl⟩
  · cases h

theorem onlyRecord_self {id b : Nat} : onlyRecord id b id = some ⟨bData b, b⟩ := if_pos rfl

/-- What holds of all records holds of one. -/
theorem Laid.only {recs : Records} {id : Nat} (h : Laid e sbi recs) (hid : recs id = some nii) :
    Laid e sbi (onlyRecord id nii.inodeBh) where
  first := h.first
  last := h.last
  bitmap := h.bitmap
  bitmapApart := h.bitmapApart
  start _ _ hx := (onlyRecord_some hx).2.1
  inodeApart x nii' hx := by
    rw [(onlyRecord_some hx).2.2]
    exact h.inodeApart id nii hid
  distinct x y nii nii' hx hy _ := (onlyRecord_some hx).1.trans (onlyRecord_some hy).1.symm

/-! ## What the records and the bitmap say -/

/-- Slot `k.2` of inode `k.1` owns the block it points to. -/
def owner (recs : Records) (m : Bytes) (k : Nat × Nat) : Option Nat :=
  (recs k.1).bind fun nii =>
    if k.2 < naiveDirectBlocks ∧ nii.slot m k.2 ≠ 0 then some (nii.slot m k.2) else none

/-- Data block `x` is marked. -/
def Marked (e : Endian) (sbi : SbInfo) (m : Bytes) (x : Nat) : Prop :=
  sbi.InData e x ∧ m.bit (sbi.blockBit x) = true

/-- The indexes of a record that hold a block. -/
def NaiveInodeInfo.heldSlots (nii : NaiveInodeInfo) (m : Bytes) : Finset Nat :=
  (Finset.range naiveDirectBlocks).filter fun i => nii.slot m i ≠ 0

/-- `disk_inode->i_blocks`. -/
def NaiveInodeInfo.iBlocks (nii : NaiveInodeInfo) (m : Bytes) : Nat :=
  m.getLE32 (nii.diskInode + 8)

/-- `i_blocks` of every inode counts the blocks it holds. -/
def Counted (recs : Records) (m : Bytes) : Prop :=
  ∀ id nii, recs id = some nii → nii.iBlocks m = (nii.heldSlots m).card

/-- The accounts are in order; the blocks of `base` are marked and nobody's. -/
structure Accounts (e : Endian) (sbi : SbInfo) (recs : Records) (base : Nat → Prop) (m : Bytes) :
    Prop where
  counted : Counted recs m
  exact : Ownership.Exact (owner recs m) (Marked e sbi m) base

theorem owner_eq_some {recs : Records} {k : Nat × Nat} {x : Nat} :
    owner recs m k = some x ↔
      ∃ nii, recs k.1 = some nii ∧ k.2 < naiveDirectBlocks ∧ x ≠ 0 ∧ nii.slot m k.2 = x := by
  unfold owner
  cases recs k.1 with
  | none => simp
  | some nii =>
      simp only [Option.bind_some, Option.ite_none_right_eq_some, Option.some.injEq,
        exists_eq_left']
      constructor
      · rintro ⟨⟨hi, h0⟩, rfl⟩
        exact ⟨hi, h0, rfl⟩
      · rintro ⟨hi, h0, rfl⟩
        exact ⟨⟨hi, h0⟩, rfl⟩

/-! ## Frames -/

/-- Bytes `lo` to `hi` of a record read alike. -/
def SameBytes (nii : NaiveInodeInfo) (lo hi : Nat) (m m' : Bytes) : Prop :=
  ∀ a, nii.diskInode + lo ≤ a → a < nii.diskInode + hi → m' a = m a

/-- `i_blocks` and `i_block` of a record read alike. -/
abbrev SameRecord (nii : NaiveInodeInfo) : Bytes → Bytes → Prop := SameBytes nii 8 44

theorem SameRecord.slot {i : Nat} (h : SameRecord nii m m') (hi : i < naiveDirectBlocks) :
    nii.slot m' i = nii.slot m i := by
  unfold naiveDirectBlocks at hi
  refine getLE32_congr fun a ha ha' => ?_
  unfold NaiveInodeInfo.iBlock at ha ha'
  exact h a (by omega) (by omega)

theorem SameRecord.iBlocks (h : SameRecord nii m m') : nii.iBlocks m' = nii.iBlocks m :=
  getLE32_congr fun a ha ha' => h a (by omega) (by omega)

theorem SameRecord.heldSlots (h : SameRecord nii m m') : nii.heldSlots m' = nii.heldSlots m := by
  apply Finset.filter_congr
  intro i hi
  rw [h.slot (Finset.mem_range.mp hi)]

/-- The block bitmap reads alike. -/
def SameBitmap (m m' : Bytes) : Prop :=
  ∀ a, bData naiveBlockBitmapBlock ≤ a → a < bData naiveBlockBitmapBlock + naiveBlockSize →
    m' a = m a

theorem blockBit_div (h : sbi.blockBitmap = bData naiveBlockBitmapBlock) {x : Nat}
    (hx : x < 4096) : bData naiveBlockBitmapBlock ≤ sbi.blockBit x / 8 ∧
      sbi.blockBit x / 8 < bData naiveBlockBitmapBlock + naiveBlockSize := by
  unfold SbInfo.blockBit
  rw [h]
  unfold bData naiveBlockSize naiveBlockBitmapBlock
  omega

theorem SameBitmap.bit (h : SameBitmap m m') (hb : sbi.blockBitmap = bData naiveBlockBitmapBlock)
    {x : Nat} (hx : x < 4096) : m'.bit (sbi.blockBit x) = m.bit (sbi.blockBit x) := by
  obtain ⟨h1, h2⟩ := blockBit_div hb hx
  exact bit_congr (h _ h1 h2)

/-- A byte of one block is in no other. -/
theorem bData_apart {a b i : Nat} (h : a ≠ b) (ha : bData a ≤ i)
    (ha' : i < bData a + naiveBlockSize) : i < bData b ∨ bData b + naiveBlockSize ≤ i := by
  unfold bData naiveBlockSize at *
  omega

/-- The owners are what the slots say. -/
theorem owner_congr {recs : Records} (h : ∀ id nii j, recs id = some nii →
    j < naiveDirectBlocks → nii.slot m' j = nii.slot m j) : owner recs m' = owner recs m := by
  funext k
  unfold owner
  cases hnii : recs k.1 with
  | none => rfl
  | some nii =>
      simp only [Option.bind_some]
      by_cases hk : k.2 < naiveDirectBlocks
      · rw [h _ _ _ hnii hk]
      · simp [hk]

theorem marked_congr {recs : Records} (hlaid : Laid e sbi recs) (h : SameBitmap m m') :
    Marked e sbi m' = Marked e sbi m := by
  funext x
  apply propext
  apply and_congr_right
  intro hx
  have hlast := hlaid.last
  have hend := hx.2
  rw [h.bit hlaid.bitmap (by omega)]

/-- Nothing the accounts are made of changed. -/
theorem Accounts.same {recs : Records} {base : Nat → Prop} (h : Accounts e sbi recs base m)
    (hlaid : Laid e sbi recs) (hrec : ∀ id nii, recs id = some nii → SameRecord nii m m')
    (hbit : SameBitmap m m') : Accounts e sbi recs base m' := by
  refine ⟨fun id nii hid => ?_, ?_⟩
  · rw [(hrec id nii hid).iBlocks, (hrec id nii hid).heldSlots]
    exact h.counted id nii hid
  · rw [owner_congr fun _ _ _ hid hj => (hrec _ _ hid).slot hj, marked_congr hlaid hbit]
    exact h.exact

/-! ## One slot changes -/

/-- Slot `i` and `i_blocks` are stored. -/
def putSlot (nii : NaiveInodeInfo) (d : Int) (i x : Nat) (m : Bytes) : Bytes :=
  bumpBlocks nii d (m.putLE32 (nii.iBlock i) x)

section PutSlot

variable {d : Int} {i x : Nat}

theorem putSlot_out {a : Nat} (hi : i < naiveDirectBlocks)
    (h : a < nii.diskInode + 8 ∨ nii.diskInode + 44 ≤ a) : putSlot nii d i x m a = m a := by
  unfold naiveDirectBlocks at hi
  unfold putSlot
  rw [bumpBlocks_out (by omega), putLE32_out (by unfold NaiveInodeInfo.iBlock; omega)]

theorem slot_putSlot_self (hx : x < 2 ^ 32) : nii.slot (putSlot nii d i x m) i = x :=
  slot_attached hx

theorem slot_putSlot_ne {j : Nat} (h : j ≠ i) :
    nii.slot (putSlot nii d i x m) j = nii.slot m j := by
  refine getLE32_congr fun a ha ha' => ?_
  unfold NaiveInodeInfo.iBlock at ha ha'
  unfold putSlot
  rw [bumpBlocks_out (by omega), putLE32_out (by unfold NaiveInodeInfo.iBlock; omega)]

theorem iBlocks_putSlot :
    nii.iBlocks (putSlot nii d i x m) = toU32 ((nii.iBlocks m : Int) + d) := by
  have hsame : (m.putLE32 (nii.iBlock i) x).getLE32 (nii.diskInode + 8) = nii.iBlocks m := by
    apply getLE32_putLE32_ne
    unfold NaiveInodeInfo.iBlock
    omega
  unfold NaiveInodeInfo.iBlocks putSlot bumpBlocks
  rw [getLE32_putLE32, hsame, Nat.mod_eq_of_lt (toU32_lt _)]
  rfl

/-- The other records are left alone, and so is the bitmap. -/
theorem putSlot_record {recs : Records} {id id' lo up : Nat} (hlaid : Laid e sbi recs)
    (hid : recs id = some nii) (hid' : recs id' = some nii') (hne : id' ≠ id)
    (hi : i < naiveDirectBlocks) (hup : up ≤ naiveBlockSize) :
    SameBytes nii' lo up m (putSlot nii d i x m) := by
  intro a ha ha'
  have hb : nii'.inodeBh ≠ nii.inodeBh := fun h => hne (hlaid.distinct _ _ _ _ hid' hid h)
  rw [hlaid.start _ _ hid'] at ha ha'
  have hout := bData_apart (i := a) hb (by omega) (by omega)
  rw [← hlaid.start _ _ hid] at hout
  unfold naiveBlockSize at hout
  exact putSlot_out hi (by omega)

theorem putSlot_bitmap {recs : Records} {id : Nat} (hlaid : Laid e sbi recs)
    (hid : recs id = some nii) (hi : i < naiveDirectBlocks) :
    SameBitmap m (putSlot nii d i x m) := by
  intro a ha ha'
  have hout := bData_apart (i := a) (hlaid.inodeApart _ _ hid).1.symm ha ha'
  rw [← hlaid.start _ _ hid] at hout
  unfold naiveBlockSize at hout
  exact putSlot_out hi (by omega)

end PutSlot

/-- Marking or clearing a data block leaves the records alone. -/
theorem bitmap_record {recs : Records} {id lo up : Nat} (hlaid : Laid e sbi recs)
    (hid : recs id = some nii) (hup : up ≤ naiveBlockSize)
    (hout : ∀ a, a < bData naiveBlockBitmapBlock ∨
      bData naiveBlockBitmapBlock + naiveBlockSize ≤ a → m' a = m a) :
    SameBytes nii lo up m m' := by
  intro a ha ha'
  rw [hlaid.start _ _ hid] at ha ha'
  exact hout a (bData_apart (hlaid.inodeApart _ _ hid).1 (by omega) (by omega))

theorem SameRecord.trans {m'' : Bytes} (h : SameRecord nii m m') (h' : SameRecord nii m' m'') :
    SameRecord nii m m'' := fun a ha ha' => (h' a ha ha').trans (h a ha ha')

section Step

variable {recs : Records} {base : Nat → Prop} {id i x : Nat} {d : Int} {m₁ : Bytes}

/-- `m'` differs from `m` in what slot `i` of inode `id` holds. -/
structure SlotStored (recs : Records) (id i x : Nat) (m m' : Bytes) : Prop where
  self : ∀ nii, recs id = some nii → nii.slot m' i = x
  others : ∀ id' nii' j, recs id' = some nii' → j < naiveDirectBlocks → (id', j) ≠ (id, i) →
    nii'.slot m' j = nii'.slot m j

/-- Only the slot's own entry of `owner` changes. -/
theorem SlotStored.owner (h : SlotStored recs id i x m m') (hid : recs id = some nii)
    (hi : i < naiveDirectBlocks) (k : Nat × Nat) :
    owner recs m' k
      = if k = (id, i) then if x ≠ 0 then some x else none else owner recs m k := by
  obtain ⟨id', j⟩ := k
  by_cases hk : (id', j) = (id, i)
  · cases hk
    simp [V8.owner, hid, hi, h.self _ hid]
  rw [if_neg hk]
  cases hnii : recs id' with
  | none => simp [V8.owner, hnii]
  | some nii' =>
      simp only [V8.owner, hnii, Option.bind_some]
      by_cases hj : j < naiveDirectBlocks
      · rw [h.others _ _ _ hnii hj hk]
      · simp [hj]

theorem SlotStored.putSlot (hlaid : Laid e sbi recs) (hid : recs id = some nii)
    (hi : i < naiveDirectBlocks) (hx : x < 2 ^ 32)
    (hrec : ∀ id nii, recs id = some nii → SameRecord nii m m₁) :
    SlotStored recs id i x m (putSlot nii d i x m₁) where
  self nii' hid' := by
    obtain rfl := Option.some.inj (hid.symm.trans hid')
    exact slot_putSlot_self hx
  others id' nii' j hid' hj hne := by
    by_cases heq : id' = id
    · subst heq
      obtain rfl := Option.some.inj (hid.symm.trans hid')
      have hji : j ≠ i := fun h => hne (by rw [h])
      rw [slot_putSlot_ne hji, (hrec _ _ hid).slot hj]
    · exact ((hrec _ _ hid').trans (putSlot_record hlaid hid hid' heq hi (by decide))).slot hj

/-- A slot gives up its block, whose mark is cleared. -/
theorem SlotStored.release (hexact : Ownership.Exact (V8.owner recs m) (Marked e sbi m) base)
    (h : SlotStored recs id i 0 m m') (hlaid : Laid e sbi recs) (hid : recs id = some nii)
    (hi : i < naiveDirectBlocks) (held : nii.slot m i = x) (hx0 : 0 < x)
    (hbits : ∀ c, c < 4096 → m'.bit (sbi.blockBit c) =
      (m.clearBit (sbi.blockBit x)).bit (sbi.blockBit c)) :
    Ownership.Exact (V8.owner recs m') (Marked e sbi m') base := by
  have hown : V8.owner recs m (id, i) = some x :=
    owner_eq_some.mpr ⟨nii, hid, hi, Nat.ne_of_gt hx0, held⟩
  have hlast := hlaid.last
  refine hexact.release (· = (id, i)) ?_ ?_
  · intro k c
    rw [h.owner hid hi, if_neg (not_not.mpr rfl)]
    by_cases hk : k = (id, i)
    · simp [hk]
    · simp [hk]
  · intro c
    unfold Marked
    constructor
    · rintro ⟨hc, hset⟩
      have hc' := hc.2
      rw [hbits c (by omega), bit_clearBit, Bool.and_eq_true, decide_eq_true_eq] at hset
      refine ⟨⟨hc, hset.2⟩, ?_⟩
      rintro k rfl hkc
      exact hset.1 (by rw [Option.some.inj (hown.symm.trans hkc)])
    · rintro ⟨⟨hc, hset⟩, hfree⟩
      have hc' := hc.2
      have hcx : sbi.blockBit c ≠ sbi.blockBit x := by
        intro heq
        unfold SbInfo.blockBit at heq
        exact hfree _ rfl (hown.trans (congrArg some (by omega)))
      rw [hbits c (by omega), bit_clearBit, hset]
      exact ⟨hc, by simp [hcx]⟩

theorem mem_heldSlots {j : Nat} :
    j ∈ nii.heldSlots m ↔ j < naiveDirectBlocks ∧ nii.slot m j ≠ 0 := by
  simp [NaiveInodeInfo.heldSlots]

theorem heldSlots_putSlot (hi : i < naiveDirectBlocks) (hx : x < 2 ^ 32)
    (hrec : SameRecord nii m m₁) :
    nii.heldSlots (putSlot nii d i x m₁)
      = if x ≠ 0 then insert i (nii.heldSlots m) else (nii.heldSlots m).erase i := by
  ext j
  by_cases hji : j = i
  · subst hji
    rw [mem_heldSlots, slot_putSlot_self hx]
    by_cases hx0 : x = 0
    · simp [hx0]
    · simp [hx0, hi]
  · have hmem : j ∈ nii.heldSlots (putSlot nii d i x m₁) ↔ j ∈ nii.heldSlots m := by
      rw [mem_heldSlots, mem_heldSlots]
      apply and_congr_right
      intro hj
      rw [slot_putSlot_ne hji, hrec.slot hj]
    rw [hmem]
    by_cases hx0 : x = 0
    · simp [hx0, hji]
    · simp [hx0, hji]

theorem card_heldSlots_le : (nii.heldSlots m).card ≤ 8 :=
  (Finset.card_filter_le _ _).trans (by simp)

/-- The count follows when it changes as the slots do. -/
theorem Counted.putSlot (h : Counted recs m) (hlaid : Laid e sbi recs) (hid : recs id = some nii)
    (hi : i < naiveDirectBlocks) (hrec : ∀ id nii, recs id = some nii → SameRecord nii m m₁)
    (hcard : toU32 (((nii.heldSlots m).card : Int) + d)
      = (nii.heldSlots (putSlot nii d i x m₁)).card) :
    Counted recs (putSlot nii d i x m₁) := by
  intro id' nii' hid'
  by_cases hne : id' = id
  · subst hne
    obtain rfl := Option.some.inj (hid.symm.trans hid')
    rw [iBlocks_putSlot, (hrec _ _ hid).iBlocks, h _ _ hid, hcard]
  · have hsame := (hrec _ _ hid').trans (putSlot_record (d := d) (x := x) hlaid hid hid' hne hi
      (by decide))
    rw [hsame.iBlocks, hsame.heldSlots]
    exact h _ _ hid'

/-- A free block is attached to an empty slot. -/
theorem Accounts.attach (h : Accounts e sbi recs base m) (hlaid : Laid e sbi recs)
    (hid : recs id = some nii) (hi : i < naiveDirectBlocks) (free : nii.slot m i = 0)
    (hx : sbi.InData e x) (clear : m.bit (sbi.blockBit x) = false) :
    Accounts e sbi recs base (putSlot nii 1 i x (m.setBit (sbi.blockBit x))) := by
  have hlast := hlaid.last
  have hend := hx.2
  have hx0 : x ≠ 0 := Nat.ne_of_gt (hx.pos hlaid.first)
  obtain ⟨hlo, hhi⟩ := blockBit_div (x := x) hlaid.bitmap (by omega)
  have hrec : ∀ id nii, recs id = some nii → SameRecord nii m (m.setBit (sbi.blockBit x)) :=
    fun _ _ h => bitmap_record hlaid h (by decide) fun a _ => setBit_out (by omega)
  have hslots := heldSlots_putSlot (d := 1) hi (show x < 2 ^ 32 by omega) (hrec _ _ hid)
  rw [if_pos hx0] at hslots
  refine ⟨h.counted.putSlot hlaid hid hi hrec ?_, h.exact.grant (k := (id, i)) (b := x) ?_ ?_ ?_⟩
  · have hnew : i ∉ nii.heldSlots m := fun hmem => (mem_heldSlots.mp hmem).2 free
    rw [hslots, Finset.card_insert_of_notMem hnew]
    have hcard : (nii.heldSlots m).card ≤ 8 := card_heldSlots_le
    unfold toU32
    omega
  · rintro ⟨-, hset⟩
    rw [clear] at hset
    cases hset
  · intro k c
    rw [(SlotStored.putSlot hlaid hid hi (by omega) hrec).owner hid hi, if_pos hx0]
    by_cases hk : k = (id, i)
    · have hnone : owner recs m k = none := by simp [hk, owner, hid, free]
      simp [hk, hk ▸ hnone, eq_comm]
    · simp [hk]
  · intro c
    unfold Marked
    constructor
    · rintro ⟨hc, hset⟩
      have hc' := hc.2
      rw [(putSlot_bitmap hlaid hid hi).bit hlaid.bitmap (by omega), bit_setBit] at hset
      by_cases hcx : c = x
      · exact .inr hcx
      · have hne : sbi.blockBit c ≠ sbi.blockBit x := fun h => hcx (by
          unfold SbInfo.blockBit at h
          omega)
        exact .inl ⟨hc, by simpa [hne] using hset⟩
    · rintro (⟨hc, hset⟩ | rfl)
      · have hc' := hc.2
        rw [(putSlot_bitmap hlaid hid hi).bit hlaid.bitmap (by omega), bit_setBit, hset]
        exact ⟨hc, Bool.or_true _⟩
      · rw [(putSlot_bitmap hlaid hid hi).bit hlaid.bitmap (by omega), bit_setBit]
        exact ⟨hx, by simp⟩

/-- A held block is in the data area. -/
theorem Accounts.inData (h : Accounts e sbi recs base m) (hid : recs id = some nii)
    (hi : i < naiveDirectBlocks) (hx0 : 0 < nii.slot m i) : sbi.InData e (nii.slot m i) :=
  (h.exact.marked (id, i) _ (owner_eq_some.mpr ⟨nii, hid, hi, Nat.ne_of_gt hx0, rfl⟩)).1

/-- A held block is given back. -/
theorem Accounts.detach (h : Accounts e sbi recs base m) (hlaid : Laid e sbi recs)
    (hid : recs id = some nii) (hi : i < naiveDirectBlocks) (held : nii.slot m i = x)
    (hx0 : 0 < x) :
    Accounts e sbi recs base (putSlot nii (-1) i 0 (m.clearBit (sbi.blockBit x))) := by
  have hx : sbi.InData e x := held ▸ h.inData hid hi (held ▸ hx0)
  have hlast := hlaid.last
  have hend := hx.2
  obtain ⟨hlo, hhi⟩ := blockBit_div (x := x) hlaid.bitmap (by omega)
  have hrec : ∀ id nii, recs id = some nii → SameRecord nii m (m.clearBit (sbi.blockBit x)) :=
    fun _ _ h => bitmap_record hlaid h (by decide) fun a _ => clearBit_out (by omega)
  have hslots := heldSlots_putSlot (d := -1) hi (show 0 < 2 ^ 32 by omega) (hrec _ _ hid)
  rw [if_neg (not_not.mpr rfl)] at hslots
  refine ⟨h.counted.putSlot hlaid hid hi hrec ?_,
    (SlotStored.putSlot hlaid hid hi (by omega) hrec).release h.exact hlaid hid hi held hx0 ?_⟩
  · have hmem : i ∈ nii.heldSlots m := mem_heldSlots.mpr ⟨hi, by omega⟩
    have hpos : 0 < (nii.heldSlots m).card := Finset.card_pos.mpr ⟨i, hmem⟩
    rw [hslots, Finset.card_erase_of_mem hmem]
    have hcard : (nii.heldSlots m).card ≤ 8 := card_heldSlots_le
    unfold toU32
    omega
  · intro c hc
    exact (putSlot_bitmap hlaid hid hi).bit hlaid.bitmap hc

/-- Each change of a write keeps the accounts. -/
theorem Accounts.effect (h : Accounts e sbi recs base m) (hlaid : Laid e sbi recs)
    (hid : recs id = some nii) (heff : Effect e sbi nii (m, v) (m', v')) :
    Accounts e sbi recs base m' := by
  cases heff with
  | attach i x hi free data clear => exact h.attach hlaid hid hi free data clear
  | detach i x hi held pos => exact h.detach hlaid hid hi held pos
  | data i x off bytes hi held pos inBlock =>
      have hx : sbi.InData e x := held ▸ h.inData hid hi (held ▸ pos)
      have hout : ∀ a b, x ≠ b → bData b ≤ a → a < bData b + naiveBlockSize →
          m.blit (bData x + off) bytes a = m a := by
        intro a b hb ha ha'
        have := bData_apart hb.symm ha ha'
        exact blit_out (by omega)
      refine h.same hlaid ?_ ?_
      · intro id' nii' hid' a ha ha'
        have hb : x ≠ nii'.inodeBh := by
          rintro rfl
          exact (hlaid.inodeApart _ _ hid').2 hx
        rw [hlaid.start _ _ hid'] at ha ha'
        exact hout a _ hb (by omega) (by unfold naiveBlockSize; omega)
      · intro a ha ha'
        have hb : x ≠ naiveBlockBitmapBlock := by
          rintro rfl
          exact hlaid.bitmapApart hx
        exact hout a _ hb ha ha'
  | size w hw =>
      refine h.same hlaid ?_ ?_
      · intro id' nii' hid' a ha ha'
        by_cases hne : nii'.inodeBh = nii.inodeBh
        · rw [hlaid.start _ _ hid', hne, ← hlaid.start _ _ hid] at ha ha'
          exact putLE32_out (by omega)
        · rw [hlaid.start _ _ hid'] at ha ha'
          have := bData_apart (i := a) hne (by omega) (by unfold naiveBlockSize; omega)
          rw [hlaid.start _ _ hid]
          unfold naiveBlockSize at this
          exact putLE32_out (by omega)
      · intro a ha ha'
        have := bData_apart (i := a) (hlaid.inodeApart _ _ hid).1.symm ha ha'
        rw [hlaid.start _ _ hid]
        unfold naiveBlockSize at this
        exact putLE32_out (by omega)

/-! ## Release -/

/-- `i_blocks` takes no part in what the slots hold. -/
theorem slot_putCount (hlaid : Laid e sbi recs) (hid : recs id = some nii) (id' : Nat)
    (nii' : NaiveInodeInfo) (j : Nat) (hid' : recs id' = some nii') (hj : j < naiveDirectBlocks) :
    nii'.slot (m.putLE32 (nii.diskInode + 8) x) j = nii'.slot m j := by
  apply getLE32_putLE32_ne
  unfold NaiveInodeInfo.iBlock
  unfold naiveDirectBlocks at hj
  by_cases hb : nii'.inodeBh = nii.inodeBh
  · rw [hlaid.start _ _ hid', hlaid.start _ _ hid, hb]
    omega
  · rw [hlaid.start _ _ hid', hlaid.start _ _ hid]
    unfold bData naiveBlockSize
    omega

theorem SlotStored.store (hlaid : Laid e sbi recs) (hid : recs id = some nii)
    (hi : i < naiveDirectBlocks) (hx : x < 2 ^ 32)
    (hrec : ∀ id nii, recs id = some nii → SameRecord nii m m₁) :
    SlotStored recs id i x m (m₁.putLE32 (nii.iBlock i) x) := by
  have hput := SlotStored.putSlot (d := 0) hlaid hid hi hx hrec
  have hslot : ∀ id' nii' j, recs id' = some nii' → j < naiveDirectBlocks →
      nii'.slot (V8.putSlot nii 0 i x m₁) j = nii'.slot (m₁.putLE32 (nii.iBlock i) x) j :=
    slot_putCount hlaid hid
  refine ⟨fun nii' hid' => ?_, fun id' nii' j hid' hj hne => ?_⟩
  · rw [← hslot _ _ _ hid' hi]
    exact hput.self _ hid'
  · rw [← hslot _ _ _ hid' hj]
    exact hput.others _ _ _ hid' hj hne

/-- Byte `a` is neither in the block bitmap nor in the record's `i_block`. -/
def Elsewhere (nii : NaiveInodeInfo) (a : Nat) : Prop :=
  (a < nii.diskInode + 12 ∨ nii.diskInode + 44 ≤ a) ∧
    (a < bData naiveBlockBitmapBlock ∨ bData naiveBlockBitmapBlock + naiveBlockSize ≤ a)

theorem freeFileBlocksLoop_empty {n : Nat} (h0 : nii.slot m i = 0) :
    freeFileBlocksLoop e sbi.blockBitmap nii.diskInode (n + 1) i m
      = freeFileBlocksLoop e sbi.blockBitmap nii.diskInode n (i + 1) m := by
  have hload : load32 e m (nii.diskInode + 12 + 4 * i) = 0 := load32_eq_zero h0
  simp [freeFileBlocksLoop, hload]

theorem ok_bind {α β ε : Type} (a : α) (f : α → Except ε β) : (Except.ok a >>= f) = f a := rfl

theorem freeFileBlocksLoop_held {n : Nat} (h0 : nii.slot m i ≠ 0)
    (hx : sbi.InData e (nii.slot m i)) :
    freeFileBlocksLoop e sbi.blockBitmap nii.diskInode (n + 1) i m
      = freeFileBlocksLoop e sbi.blockBitmap nii.diskInode n (i + 1)
        ((m.clearBit (sbi.blockBit (nii.slot m i))).putLE32 (nii.iBlock i) 0) := by
  have hslot : nii.diskInode + 12 + 4 * i = nii.iBlock i := rfl
  have hload : load32 e m (nii.iBlock i) ≠ 0 := fun h => h0 (load32_eq_zero_iff.mp h)
  have hnum : toInt32 (nii.slot m i : Nat) = (nii.slot m i : Nat) := by
    have := hx.lt
    exact toInt32_of_small (by omega) (by omega)
  have hclear : naiveClearBit (nii.slot m i : Nat) sbi.blockBitmap m
      = .ok (m.clearBit (sbi.blockBit (nii.slot m i))) := naiveClearBit_nat ..
  rw [freeFileBlocksLoop, hslot, if_pos hload, load32_slot, hnum]
  dsimp only
  rw [hclear, ok_bind, store32_zero]

/-- Memory after the round that gives back the block slot `i` holds. -/
def giveBack (sbi : SbInfo) (nii : NaiveInodeInfo) (i : Nat) (m : Bytes) : Bytes :=
  (m.clearBit (sbi.blockBit (nii.slot m i))).putLE32 (nii.iBlock i) 0

/-- Such a round empties the slot, and changes bytes of the bitmap and the pointers only. -/
theorem giveBack_stored (hlaid : Laid e sbi recs) (hid : recs id = some nii)
    (hi : i < naiveDirectBlocks) (hx : sbi.InData e (nii.slot m i)) :
    SlotStored recs id i 0 m (giveBack sbi nii i m) ∧
      SameBitmap (m.clearBit (sbi.blockBit (nii.slot m i))) (giveBack sbi nii i m) ∧
      ∀ a, Elsewhere nii a → giveBack sbi nii i m a = m a := by
  have hlast := hlaid.last
  have hend := hx.2
  obtain ⟨hlo, hhi⟩ := blockBit_div (x := nii.slot m i) hlaid.bitmap (by omega)
  refine ⟨SlotStored.store hlaid hid hi (show 0 < 2 ^ 32 by omega) fun _ _ h =>
    bitmap_record hlaid h (by decide) fun a _ => clearBit_out (by omega), ?_, ?_⟩
  · intro a ha ha'
    have := bData_apart (i := a) (hlaid.inodeApart _ _ hid).1.symm ha ha'
    apply putLE32_out
    unfold NaiveInodeInfo.iBlock
    rw [hlaid.start _ _ hid]
    unfold naiveBlockSize naiveDirectBlocks at *
    omega
  · rintro a ⟨ha, ha'⟩
    unfold naiveDirectBlocks at hi
    rw [giveBack, putLE32_out (by unfold NaiveInodeInfo.iBlock; omega), clearBit_out (by omega)]

/-- The loop empties slots `i` to `i + n - 1`, and keeps what each round keeps. The
induction is on the rounds. -/
theorem freeFileBlocksLoop_keeps {I : Bytes → Prop} {n : Nat} (hlaid : Laid e sbi recs)
    (hid : recs id = some nii) (hin : i + n ≤ naiveDirectBlocks)
    (hdata : ∀ m i, I m → i < naiveDirectBlocks → nii.slot m i ≠ 0 →
      sbi.InData e (nii.slot m i))
    (hround : ∀ m i, I m → i < naiveDirectBlocks → nii.slot m i ≠ 0 → I (giveBack sbi nii i m))
    (h : I m) :
    ∃ m', freeFileBlocksLoop e sbi.blockBitmap nii.diskInode n i m = .ok m' ∧ I m' ∧
      (∀ j, i ≤ j → j < i + n → nii.slot m' j = 0) ∧
      (∀ j, j < i → nii.slot m' j = nii.slot m j) ∧
      ∀ a, Elsewhere nii a → m' a = m a := by
  induction n generalizing i m with
  | zero => exact ⟨m, rfl, h, fun j h1 h2 => by omega, fun _ _ => rfl, fun _ _ => rfl⟩
  | succ n ih =>
      by_cases h0 : nii.slot m i = 0
      · rw [freeFileBlocksLoop_empty h0]
        obtain ⟨m', hm', hI, hzero, hbelow, hout⟩ := ih (i := i + 1) (by omega) h
        refine ⟨m', hm', hI, fun j hj hj' => ?_, fun j hj => hbelow j (by omega), hout⟩
        by_cases hji : j = i
        · rw [hji, hbelow i (by omega), h0]
        · exact hzero j (by omega) (by omega)
      · have hi : i < naiveDirectBlocks := by omega
        have hx := hdata m i h hi h0
        obtain ⟨hstored, -, hout₁⟩ := giveBack_stored hlaid hid hi hx
        rw [freeFileBlocksLoop_held h0 hx]
        obtain ⟨m', hm', hI, hzero, hbelow, hout⟩ := ih (i := i + 1) (by omega)
          (hround m i h hi h0)
        refine ⟨m', hm', hI, fun j hj hj' => ?_, fun j hj => ?_, fun a ha => ?_⟩
        · by_cases hji : j = i
          · rw [hji, hbelow i (by omega), hstored.self _ hid]
          · exact hzero j (by omega) (by omega)
        · rw [hbelow j (by omega)]
          exact hstored.others _ _ _ hid (by omega) fun h => by
            have := congrArg Prod.snd h
            simp only at this
            omega
        · rw [hout a ha, hout₁ a ha]

/-- `naive_free_file_blocks` keeps the accounts and empties every slot. -/
theorem Accounts.free (h : Accounts e sbi recs base m) (hlaid : Laid e sbi recs)
    (hid : recs id = some nii) :
    ∃ m', freeFileBlocksLoop e sbi.blockBitmap nii.diskInode naiveDirectBlocks 0 m = .ok m' ∧
      Accounts e sbi recs base (store32 e m' (nii.diskInode + 8) 0) := by
  have hdata : ∀ m i, Ownership.Exact (V8.owner recs m) (Marked e sbi m) base →
      i < naiveDirectBlocks → nii.slot m i ≠ 0 → sbi.InData e (nii.slot m i) :=
    fun m i hexact hi h0 =>
      (hexact.marked (id, i) _ (owner_eq_some.mpr ⟨nii, hid, hi, h0, rfl⟩)).1
  -- slot after slot is given back; then `i_blocks` becomes 0
  obtain ⟨m', hm', hexact, hzero, -, hout⟩ := freeFileBlocksLoop_keeps hlaid hid
    (Nat.zero_add _).le hdata (fun m i hexact hi h0 => by
      obtain ⟨hstored, hbits, -⟩ := giveBack_stored hlaid hid hi (hdata m i hexact hi h0)
      exact hstored.release hexact hlaid hid hi rfl (Nat.pos_of_ne_zero h0)
        fun c hc => hbits.bit hlaid.bitmap hc) h.exact
  refine ⟨m', hm', ?_⟩
  rw [store32_zero]
  have hslots := slot_putCount (m := m') (x := 0) hlaid hid
  have hbitmap : SameBitmap m' (m'.putLE32 (nii.diskInode + 8) 0) := by
    intro a ha ha'
    have := bData_apart (i := a) (hlaid.inodeApart _ _ hid).1.symm ha ha'
    apply putLE32_out
    rw [hlaid.start _ _ hid]
    unfold naiveBlockSize at *
    omega
  refine ⟨fun id' nii' hid' => ?_, ?_⟩
  · by_cases hne : id' = id
    · subst hne
      obtain rfl := Option.some.inj (hid.symm.trans hid')
      have hempty : nii.heldSlots (m'.putLE32 (nii.diskInode + 8) 0) = ∅ := by
        apply Finset.filter_eq_empty_iff.mpr
        intro j hj
        have hj' := Finset.mem_range.mp hj
        rw [hslots _ _ _ hid hj', hzero j (by omega) (by omega)]
        simp
      rw [hempty, Finset.card_empty]
      exact getLE32_putLE32 ..
    · -- another record is in another block
      have hsame : SameRecord nii' m (m'.putLE32 (nii.diskInode + 8) 0) := by
        intro a ha ha'
        have hb : nii'.inodeBh ≠ nii.inodeBh := fun h => hne (hlaid.distinct _ _ _ _ hid' hid h)
        rw [hlaid.start _ _ hid'] at ha ha'
        have h1 := bData_apart (i := a) hb (by omega) (by unfold naiveBlockSize; omega)
        have h2 := bData_apart (i := a) (hlaid.inodeApart _ _ hid').1 (by omega)
          (by unfold naiveBlockSize; omega)
        rw [← hlaid.start _ _ hid] at h1
        unfold naiveBlockSize at h1
        rw [putLE32_out (by omega), hout a ⟨by omega, h2⟩]
      rw [hsame.iBlocks, hsame.heldSlots]
      exact h.counted _ _ hid'
  · rw [owner_congr hslots, marked_congr hlaid hbitmap]
    exact hexact

end Step

end NaiveFS.V8
