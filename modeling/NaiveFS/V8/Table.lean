import NaiveFS.V8.Release

/-!
# The inode table in a run (`naivefs-8`)

On a device whose inode table lies between the bitmaps and the data area, the inodes in
memory have their records in pairwise different blocks of the table. The record of a new
inode reaches 12 bytes into the next block: into another record's only if that one's number
follows a free one, which no live number does.
-/

namespace NaiveFS.V8

open Bytes

variable {e : Endian} {sbi : SbInfo} {nii nii' : NaiveInodeInfo} {m m' : Bytes} {id id' n k : Nat}
  {s t : FS} {base : Nat → Prop}

/-! ## Layout -/

/-- `inode_table_start` and `inodes_count` as the code uses them. -/
def SbInfo.tableStart (e : Endian) (sbi : SbInfo) : Nat := le32ToCpu e sbi.inodeTableStart

def SbInfo.inodeTotal (e : Endian) (sbi : SbInfo) : Nat := le32ToCpu e sbi.inodesCount

/-- Bitmaps, inode table and data area follow one another, and the device is not larger than
one bitmap block covers. -/
structure SbInfo.InOrder (e : Endian) (sbi : SbInfo) : Prop where
  table : naiveInodeBitmapBlock < sbi.tableStart e
  numbers : 2 ≤ sbi.inodeTotal e
  data : sbi.tableStart e + sbi.inodeTotal e ≤ le32ToCpu e sbi.dataBlocksStart
  area : le32ToCpu e sbi.dataBlocksStart ≤ le32ToCpu e sbi.blocksCount
  last : le32ToCpu e sbi.blocksCount ≤ 4096

instance : Decidable (sbi.InOrder e) :=
  decidable_of_iff (naiveInodeBitmapBlock < sbi.tableStart e ∧ 2 ≤ sbi.inodeTotal e ∧
      sbi.tableStart e + sbi.inodeTotal e ≤ le32ToCpu e sbi.dataBlocksStart ∧
      le32ToCpu e sbi.dataBlocksStart ≤ le32ToCpu e sbi.blocksCount ∧
      le32ToCpu e sbi.blocksCount ≤ 4096)
    ⟨fun ⟨h1, h2, h3, h4, h5⟩ => ⟨h1, h2, h3, h4, h5⟩, fun h => ⟨h.1, h.2, h.3, h.4, h.5⟩⟩

/-- The record of the inode with number `n`. -/
def SbInfo.record (e : Endian) (sbi : SbInfo) (n : Nat) : NaiveInodeInfo :=
  ⟨bData (sbi.tableStart e + n), sbi.tableStart e + n⟩

/-- The bit of number `n`. -/
def SbInfo.inodeBit (sbi : SbInfo) (n : Nat) : Nat := 8 * sbi.inodeBitmap + n

section Layout

variable (h : sbi.InOrder e)

include h

theorem SbInfo.InOrder.dataStart : sbi.dataStart e = le32ToCpu e sbi.dataBlocksStart := by
  have := h.area
  have := h.last
  exact toInt32_of_small (by omega) (by omega)

theorem SbInfo.InOrder.dataEnd : sbi.dataEnd e = le32ToCpu e sbi.blocksCount := by
  have := h.last
  exact toInt32_of_small (by omega) (by omega)

/-- Blocks below the end of the table hold no data. -/
theorem SbInfo.InOrder.notData {x : Nat} (hx : x < sbi.tableStart e + sbi.inodeTotal e) :
    ¬ sbi.InData e x := by
  rintro ⟨hlo, -⟩
  have := h.data
  rw [h.dataStart] at hlo
  omega

theorem SbInfo.InOrder.tableBlock (hn : n < sbi.inodeTotal e) :
    sbi.tableBlock e n = sbi.tableStart e + n := by
  have hdata := h.data
  have harea := h.area
  have hlast := h.last
  unfold SbInfo.tableStart SbInfo.inodeTotal at *
  unfold SbInfo.tableBlock
  rw [toInt32_of_small (by omega) (by omega), ← Int.natCast_add, toU64_natCast (by omega)]

theorem SbInfo.InOrder.rootBlock : sbi.rootBlock e = sbi.tableStart e := by
  have hdata := h.data
  have harea := h.area
  have hlast := h.last
  unfold SbInfo.tableStart at *
  unfold SbInfo.rootBlock naiveRootIno
  rw [Int.natCast_one, Int.add_sub_cancel, toU32_natCast (by omega)]

end Layout

@[simp] theorem inodeBh_record : (sbi.record e n).inodeBh = sbi.tableStart e + n := rfl

@[simp] theorem diskInode_record :
    (sbi.record e n).diskInode = bData (sbi.tableStart e + n) := rfl

theorem record_inj (h : sbi.record e n = sbi.record e k) : n = k :=
  Nat.add_left_cancel (congrArg NaiveInodeInfo.inodeBh h)

/-! ## What a run keeps -/

/-- Number, link count and record of each inode in memory. -/
def FS.identities (s : FS) (id : Nat) : Option (Nat × Nat × Option NaiveInodeInfo) :=
  (s.inodes id).map fun nd => (nd.iIno, nd.iNlink, nd.iPrivate)

/-- Only sizes, times, marks and memory differ. -/
structure Standing (s t : FS) : Prop where
  info : t.sFsInfo = s.sFsInfo
  identities : t.identities = s.identities
  dcache : t.dcache = s.dcache
  next : t.nextInode = s.nextInode

theorem identities_eq_some {x : Nat × Nat × Option NaiveInodeInfo} :
    s.identities id = some x ↔ ∃ nd, s.inodes id = some nd ∧
      nd.iIno = x.1 ∧ nd.iNlink = x.2.1 ∧ nd.iPrivate = x.2.2 := by
  simp [FS.identities, Prod.ext_iff]

theorem identities_eq_none : s.identities id = none ↔ s.inodes id = none := by
  simp [FS.identities]

theorem records_of_identities : s.records id = (s.identities id).bind (·.2.2) := by
  unfold FS.records FS.identities
  cases s.inodes id <;> rfl

theorem Standing.records (h : Standing s t) : t.records = s.records := by
  funext id
  rw [records_of_identities, records_of_identities, h.identities]

/-- The inode table and the block accounts are in order: each inode in memory has a record of
its own, number and bit fit the record, and no bit before a record's is free. -/
structure Orderly (e : Endian) (sbi : SbInfo) (base : Nat → Prop) (s : FS) : Prop where
  order : sbi.InOrder e
  blockBitmap : sbi.blockBitmap = bData naiveBlockBitmapBlock
  inodeBitmap : sbi.inodeBitmap = bData naiveInodeBitmapBlock
  info : s.sFsInfo = .live sbi
  accounts : Accounts e sbi s.records base s.mem
  root : s.records 0 = some (sbi.record e 0)
  placed : ∀ id x, s.identities id = some x → ∃ n, n < sbi.inodeTotal e ∧
    x.2.2 = some (sbi.record e n) ∧ (id ≠ 0 → x.1 = n ∧ x.2.1 = 1)
  alone : ∀ id id' nii, s.records id = some nii → s.records id' = some nii → id = id'
  marked : ∀ id n, s.records id = some (sbi.record e n) →
    s.mem.bit (sbi.inodeBit n) = true ∧ s.mem.bit (sbi.inodeBit (n - 1)) = true
  named : ∀ dir name id, s.dcache dir name = some id → id ≠ 0 ∧ s.identities id ≠ none
  oneName : ∀ dir name dir' name' id, s.dcache dir name = some id →
    s.dcache dir' name' = some id → dir = dir' ∧ name = name'
  fresh : ∀ id, s.nextInode ≤ id → s.identities id = none

section Orderly

variable (h : Orderly e sbi base s)

include h

theorem Orderly.record_cases (hid : s.records id = some nii) :
    ∃ n, n < sbi.inodeTotal e ∧ nii = sbi.record e n := by
  rw [records_of_identities] at hid
  cases hx : s.identities id with
  | none => simp [hx] at hid
  | some x =>
    obtain ⟨n, hn, hrec, -⟩ := h.placed id x hx
    simp only [hx, Option.bind_some, hrec, Option.some.injEq] at hid
    exact ⟨n, hn, hid.symm⟩

/-- The records lie as the accounts want them to. -/
theorem Orderly.laid : Laid e sbi s.records where
  first := by
    have := h.order.table
    have := h.order.data
    rw [h.order.dataStart]
    omega
  last := by
    have := h.order.last
    rw [h.order.dataEnd]
    omega
  bitmap := h.blockBitmap
  bitmapApart := by
    have := h.order.table
    apply h.order.notData
    unfold naiveBlockBitmapBlock naiveInodeBitmapBlock at *
    omega
  start id nii hid := by
    obtain ⟨n, -, rfl⟩ := h.record_cases hid
    rfl
  inodeApart id nii hid := by
    have := h.order.table
    obtain ⟨n, hn, rfl⟩ := h.record_cases hid
    refine ⟨?_, h.order.notData (Nat.add_lt_add_left hn _)⟩
    rw [inodeBh_record]
    unfold naiveBlockBitmapBlock naiveInodeBitmapBlock at *
    omega
  distinct id id' nii nii' hid hid' heq := by
    obtain ⟨n, -, rfl⟩ := h.record_cases hid
    obtain ⟨k, -, rfl⟩ := h.record_cases hid'
    obtain rfl : n = k := Nat.add_left_cancel heq
    exact h.alone id id' _ hid hid'

/-- Nothing but memory, sizes, times and marks changed, and the marks in use stayed. -/
theorem Orderly.standing (hst : Standing s t) (hacc : Accounts e sbi s.records base t.mem)
    (hbits : ∀ n, n < sbi.inodeTotal e → s.mem.bit (sbi.inodeBit n) = true →
      t.mem.bit (sbi.inodeBit n) = true) : Orderly e sbi base t where
  order := h.order
  blockBitmap := h.blockBitmap
  inodeBitmap := h.inodeBitmap
  info := hst.info.trans h.info
  accounts := hst.records ▸ hacc
  root := hst.records ▸ h.root
  placed := hst.identities ▸ h.placed
  alone := hst.records ▸ h.alone
  marked id n hid := by
    rw [hst.records] at hid
    obtain ⟨hbit, hbefore⟩ := h.marked id n hid
    obtain ⟨k, hk, hrec⟩ := h.record_cases hid
    obtain rfl := record_inj hrec
    exact ⟨hbits _ hk hbit, hbits _ (by omega) hbefore⟩
  named := by
    rw [hst.dcache, hst.identities]
    exact h.named
  oneName := hst.dcache ▸ h.oneName
  fresh := by
    rw [hst.next, hst.identities]
    exact h.fresh

end Orderly

/-! ## Records come and go -/

section Records

variable {recs : Records}

/-- A record without blocks owns none. -/
theorem owner_update {x : Option NaiveInodeInfo} (hold : ∀ nii, recs id = some nii →
      ∀ i, i < naiveDirectBlocks → nii.slot m i = 0)
    (hnew : ∀ nii, x = some nii → ∀ i, i < naiveDirectBlocks → nii.slot m i = 0) :
    owner (Function.update recs id x) m = owner recs m := by
  funext k
  unfold owner
  by_cases hk : k.1 = id
  · have hnone : ∀ y : Option NaiveInodeInfo, (∀ nii, y = some nii →
        ∀ i, i < naiveDirectBlocks → nii.slot m i = 0) → (y.bind fun nii =>
          if k.2 < naiveDirectBlocks ∧ nii.slot m k.2 ≠ 0 then some (nii.slot m k.2) else none)
            = none := by
      intro y hy
      cases y with
      | none => rfl
      | some nii =>
        rw [Option.bind_some, if_neg]
        rintro ⟨hlt, h0⟩
        exact h0 (hy nii rfl k.2 hlt)
    rw [hk, Function.update_self, hnone x hnew, hnone (recs id) hold]
  · rw [Function.update_of_ne hk]

/-- An empty record is added. -/
theorem Accounts.addRecord (h : Accounts e sbi recs base m) (hnone : recs id = none)
    (hcount : nii.iBlocks m = 0) (hempty : ∀ i, i < naiveDirectBlocks → nii.slot m i = 0) :
    Accounts e sbi (Function.update recs id (some nii)) base m := by
  refine ⟨fun id' nii' hid' => ?_, ?_⟩
  · by_cases hid : id' = id
    · rw [hid, Function.update_self] at hid'
      obtain rfl := Option.some.inj hid'
      have hheld : nii.heldSlots m = ∅ := Finset.filter_eq_empty_iff.mpr fun i hi =>
        not_not.mpr (hempty i (Finset.mem_range.mp hi))
      rw [hcount, hheld, Finset.card_empty]
    · rw [Function.update_of_ne hid] at hid'
      exact h.counted id' nii' hid'
  · rw [owner_update (by simp [hnone]) (by simpa using hempty)]
    exact h.exact

/-- An empty record is taken away. -/
theorem Accounts.dropRecord (h : Accounts e sbi recs base m) (hid : recs id = some nii)
    (hempty : ∀ i, i < naiveDirectBlocks → nii.slot m i = 0) :
    Accounts e sbi (Function.update recs id none) base m := by
  refine ⟨fun id' nii' hid' => ?_, ?_⟩
  · by_cases hne : id' = id
    · rw [hne, Function.update_self] at hid'
      cases hid'
    · rw [Function.update_of_ne hne] at hid'
      exact h.counted id' nii' hid'
  · rw [owner_update (by simpa [hid] using hempty) (by simp)]
    exact h.exact

end Records

/-! ## The mount -/

section Mount

variable {image : Bytes} (h : MountOf e image s) (horder : (SbInfo.ofImage image).InOrder e)

include h horder

/-- The root is the only inode. -/
theorem MountOf.identities : ∃ ino links, ∀ id, s.identities id =
    if id = 0 then some (ino, links, some ((SbInfo.ofImage image).record e 0)) else none := by
  obtain ⟨nd, hinodes, hino, hnii⟩ := h.inodes
  rw [horder.rootBlock] at hnii
  refine ⟨nd.iIno, nd.iNlink, fun id => ?_⟩
  unfold FS.identities
  rw [hinodes]
  by_cases hid : id = 0
  · rw [hid, Function.update_self, Option.map_some, if_pos rfl, hnii]
    rfl
  · rw [Function.update_of_ne hid, if_neg hid]
    rfl

theorem MountOf.records_iff :
    s.records id = some nii ↔ id = 0 ∧ nii = (SbInfo.ofImage image).record e 0 := by
  obtain ⟨ino, links, hids⟩ := h.identities horder
  rw [records_of_identities, hids]
  by_cases hid : id = 0
  · simp [hid, eq_comm]
  · simp [hid]

theorem MountOf.mem_root : ∃ nd ts, s.mem =
    initDiskInode e (bData ((SbInfo.ofImage image).tableStart e)) nd 1 2 ts
      (image.setBit (8 * 1536)) := by
  obtain ⟨nd, ts, hmem⟩ := h.mem
  rw [horder.rootBlock] at hmem
  exact ⟨nd, ts, hmem⟩

/-- It holds no block. -/
theorem MountOf.slot {i : Nat} (hid : s.records id = some nii) (hi : i < naiveDirectBlocks) :
    nii.slot s.mem i = 0 := by
  obtain ⟨-, rfl⟩ := (h.records_iff horder).mp hid
  obtain ⟨nd, ts, hmem⟩ := h.mem_root horder
  rw [hmem]
  exact initDiskInode_slot hi

/-- Its bit is set. -/
theorem MountOf.bit_zero : s.mem.bit ((SbInfo.ofImage image).inodeBit 0) = true := by
  obtain ⟨nd, ts, hmem⟩ := h.mem_root horder
  have htable := horder.table
  have hbyte : s.mem ((8 * 1536 + 0) / 8) = (image.setBit (8 * 1536)) ((8 * 1536 + 0) / 8) := by
    rw [hmem]
    apply initDiskInode_out
    unfold bData naiveBlockSize naiveInodeBitmapBlock at *
    omega
  have hbit : s.mem.bit (8 * 1536 + 0) = true := by
    rw [bit_congr hbyte, bit_setBit]
    simp
  exact hbit

/-- The marks of the data blocks are those of the image. -/
theorem MountOf.accounts : Accounts e (.ofImage image) s.records
    (MarkedUnheld e (.ofImage image) s) s.mem := by
  have hown : ∀ k x, owner s.records s.mem k ≠ some x := by
    intro k x hk
    obtain ⟨nii, hid, hi, h0, hx⟩ := owner_eq_some.mp hk
    rw [h.slot horder hid hi] at hx
    exact h0 hx.symm
  refine ⟨fun id nii hid => ?_, ⟨⟨fun k x hk => absurd hk (hown k x), fun k l x hk =>
    absurd hk (hown k x)⟩, fun _ hx => hx.1, fun k x hk => absurd hk (hown k x), ?_⟩⟩
  · have hheld : nii.heldSlots s.mem = ∅ := Finset.filter_eq_empty_iff.mpr fun i hi =>
      not_not.mpr (h.slot horder hid (Finset.mem_range.mp hi))
    obtain ⟨-, rfl⟩ := (h.records_iff horder).mp hid
    obtain ⟨nd, ts, hmem⟩ := h.mem_root horder
    rw [hheld, Finset.card_empty, hmem]
    exact getLE32_initDiskInode (by omega)
  · rintro x ⟨hx, hset⟩
    refine .inl ⟨⟨hx, hset⟩, fun id nii i hid hi hslot => ?_⟩
    rw [h.slot horder hid hi] at hslot
    have := horder.numbers
    exact horder.notData (by omega) hx

theorem MountOf.orderly :
    Orderly e (.ofImage image) (MarkedUnheld e (.ofImage image) s) s := by
  have honly : ∀ id nii, s.records id = some nii →
      id = 0 ∧ nii = (SbInfo.ofImage image).record e 0 :=
    fun id nii hid => (h.records_iff horder).mp hid
  have hbit := h.bit_zero horder
  obtain ⟨ino, links, hids⟩ := h.identities horder
  refine ⟨horder, rfl, rfl, h.info, h.accounts horder,
    (h.records_iff horder).mpr ⟨rfl, rfl⟩, fun id x hx => ?_,
    fun id id' nii hid hid' => (honly id nii hid).1.trans (honly id' nii hid').1.symm,
    fun id n hid => ?_, fun dir name id hid => ?_, fun dir name dir' name' id hid => ?_,
    fun id hid => ?_⟩
  · rw [hids] at hx
    by_cases hid : id = 0
    · rw [if_pos hid] at hx
      obtain rfl := Option.some.inj hx
      have := horder.numbers
      exact ⟨0, by omega, rfl, fun h0 => absurd hid h0⟩
    · rw [if_neg hid] at hx
      cases hx
  · obtain rfl := record_inj (honly id _ hid).2
    exact ⟨hbit, hbit⟩
  · rw [h.dentry] at hid
    cases hid
  · rw [h.dentry] at hid
    cases hid
  · rw [h.next] at hid
    rw [hids, if_neg (by omega)]

end Mount

end NaiveFS.V8
