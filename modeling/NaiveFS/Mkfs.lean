import NaiveFS.Lib.File
import NaiveFS.Run

/-!
# `mkfs.naive.c`

`format_disk` writes its structures one after the other through the descriptor.
After the superblock it seeks to offset 512, the start of the superblock, so the
block bitmap lands on the superblock and the inode bitmap on block 2.
-/

namespace NaiveFS

open Bytes

/-! ## The structures it fills -/

abbrev naiveInodeSize : Nat := 512

/-- `sizeof(struct naive_inode)`. -/
abbrev sizeofInode : Nat := 424

/-- The superblock for a device of `diskSize` bytes. -/
def formatSuperBlock (diskSize : Int) : Bytes :=
  let inodeTotal : Nat := 128
  let inodeTableSize := toInt32
    (toU32 (inodeTotal * naiveInodeSize + naiveBlockSize - 1 : Nat) / naiveBlockSize : Nat)
  let inodeTableBlockNo : Nat := 4
  ((((zeros.putLE32 0 naiveMagic).putLE32 8 (toU32 (diskSize.tdiv naiveBlockSize))).putLE32 4
    inodeTotal).putLE32 12 inodeTableBlockNo).putLE32 16
    (toU32 (inodeTableBlockNo + inodeTableSize))

/-- The root's disk inode, with its block. -/
def formatRootInode (dataBlockNo uid gid now : Nat) : Bytes :=
  (((((((((zeros.putLE32 0 0o040755).putLE32 4 naiveRootInodeNo).putLE32 8 1).putLE32 12
    dataBlockNo).putLE32 44 2).putLE32 48 uid).putLE32 52 gid).putLE32 56 2).putLE32 60
    now).putLE32 68 now |>.putLE32 64 now

/-- A record of the root's block: number 1 and the name. -/
def formatRecord (name : List Byte) : Bytes :=
  (zeros.putLE32 0 naiveRootInodeNo).blit 4 (name ++ [0])

/-- The first block bitmap: blocks 0 to 4. -/
def formatBlockBitmap : Bytes := Function.update zeros 0 0x1F#8

/-- The inode bitmap: inode 1. -/
def formatInodeBitmap : Bytes := Function.update zeros 0 0x01#8

/-- `format_disk`, for a device of stat size `statSize`, every write succeeding. -/
def formatDisk (statSize : Nat) (uid gid now : Nat) (f : File) : File :=
  let nsb := formatSuperBlock (toInt32 statSize)
  let tableNo := SuperBlock.inodeTableBlockNo nsb
  let dataNo := SuperBlock.dataBlockNo nsb
  let bmap := formatBlockBitmap
  let f := f.write zeros naiveBlockSize
  let f := f.write nsb naiveBlockSize
  let f := f.seek naiveBlockSize
  let f := f.write bmap naiveBlockSize
  let f := f.write formatInodeBitmap naiveBlockSize
  let f := f.seek (toU32 (tableNo * naiveBlockSize : Nat))
  let f := f.write (formatRootInode dataNo uid gid now) sizeofInode
  let f := f.seek (toU32 (dataNo * naiveBlockSize : Nat))
  let f := f.write (formatRecord dotBytes) naiveDirRecordSize
  let f := f.write (formatRecord dotdotBytes) naiveDirRecordSize
  let bmap := bmap.setBit dataNo
  let f := f.seek (2 * naiveBlockSize)
  f.write bmap naiveBlockSize

/-! ## What the kernel reads -/

/-- The blocks of the device as `sb_bread` returns them. -/
def deviceOf (f : File) : Nat → Bytes := f.block naiveBlockSize

/-- The device holds an empty file system of `statSize` bytes, as
`naive_fill_super`, `naive_iget` and `naive_lookup` read it. -/
structure Formatted (statSize : Nat) (disk : Nat → Bytes) : Prop where
  magic : SuperBlock.magic (disk naiveSuperBlockBlock) = naiveMagic
  inodeTotal : SuperBlock.inodeTotal (disk naiveSuperBlockBlock) = 128
  blockTotal : SuperBlock.blockTotal (disk naiveSuperBlockBlock) = statSize / naiveBlockSize
  inodeTableBlockNo : SuperBlock.inodeTableBlockNo (disk naiveSuperBlockBlock) = 4
  dataBlockNo : SuperBlock.dataBlockNo (disk naiveSuperBlockBlock) = 132
  blockBitmap : ∀ b, 132 ≤ b → b < 4096 → ((disk 2).bit b = true ↔ b = 132)
  inodeBitmap : ∀ n, n < 4096 → ((disk 3).bit n = true ↔ n = 0)
  root : ∃ nd, decodeInode { iIno := 1 } (disk 4) = .ok nd ∧ DiskInode.iIno (disk 4) = 1 ∧
    nd.isDir = true ∧ nd.blockCount = 1 ∧ nd.blockPointers 0 = 132
  dot : DirRecord.iIno (disk 132) 0 = 1 ∧ DirRecord.name (disk 132) 0 = dotBytes
  dotdot : DirRecord.iIno (disk 132) 1 = 1 ∧ DirRecord.name (disk 132) 1 = dotdotBytes
  others : DirRecord.iIno (disk 132) 2 = 0

section Format

variable {statSize uid gid now : Nat} {f : File}

theorem dataBlockNo_formatSuperBlock (size : Int) :
    SuperBlock.dataBlockNo (formatSuperBlock size) = 132 := by
  unfold SuperBlock.dataBlockNo formatSuperBlock
  rw [getLE32_putLE32]
  decide

theorem inodeTableBlockNo_formatSuperBlock (size : Int) :
    SuperBlock.inodeTableBlockNo (formatSuperBlock size) = 4 := by
  unfold SuperBlock.inodeTableBlockNo formatSuperBlock
  rw [getLE32_putLE32_ne (by omega), getLE32_putLE32]
  rfl

/-- The same writes with the positions worked out. -/
theorem formatDisk_eq : formatDisk statSize uid gid now f =
    ((((((((((f.write zeros 512).write (formatSuperBlock (toInt32 statSize)) 512).seek 512).write
      formatBlockBitmap 512).write formatInodeBitmap 512).seek 2048).write
      (formatRootInode 132 uid gid now) 424).seek 67584).write (formatRecord dotBytes) 132).write
      (formatRecord dotdotBytes) 132 |>.seek 1024).write (formatBlockBitmap.setBit 132) 512 := by
  have htable : toU32 (4 * naiveBlockSize : Nat) = 2048 := by decide
  have hdata : toU32 (132 * naiveBlockSize : Nat) = 67584 := by decide
  unfold formatDisk
  simp only [dataBlockNo_formatSuperBlock, inodeTableBlockNo_formatSuperBlock, htable, hdata]
  rfl

/-- Block 1 holds the block bitmap. -/
theorem formatDisk_block_one {i : Nat} (hi : i < 512) :
    deviceOf (formatDisk statSize uid gid now f) 1 i = formatBlockBitmap i := by
  rw [formatDisk_eq, deviceOf]
  unfold naiveBlockSize
  rw [File.block_write_out (by simp; omega), File.block_seek, File.block_write_out (by simp; omega),
    File.block_write_out (by simp; omega), File.block_seek, File.block_write_out (by simp; omega),
    File.block_seek, File.block_write_out (by simp; omega), File.block_write_in (by simp) hi]

/-- Block 2 holds the last block bitmap. -/
theorem formatDisk_block_two {i : Nat} (hi : i < 512) :
    deviceOf (formatDisk statSize uid gid now f) 2 i = formatBlockBitmap.setBit 132 i := by
  rw [formatDisk_eq, deviceOf]
  unfold naiveBlockSize
  rw [File.block_write_in (by simp) hi]

/-- Block 3 is not written: it holds what the device held. -/
theorem formatDisk_block_three {i : Nat} (hf : f.pos = 0) (hi : i < 512) :
    deviceOf (formatDisk statSize uid gid now f) 3 i = f.bytes (1536 + i) := by
  rw [formatDisk_eq, deviceOf]
  unfold naiveBlockSize
  rw [File.block_write_out (by simp), File.block_seek, File.block_write_out (by simp; omega),
    File.block_write_out (by simp; omega), File.block_seek, File.block_write_out (by simp; omega),
    File.block_seek, File.block_write_out (by simp), File.block_write_out (by simp; omega),
    File.block_seek, File.block_write_out (by simp [hf]; omega),
    File.block_write_out (by simp [hf]; omega)]
  rfl

/-- The first block of the inode table starts with the root's inode. -/
theorem formatDisk_block_four {i : Nat} (hi : i < 424) :
    deviceOf (formatDisk statSize uid gid now f) 4 i = formatRootInode 132 uid gid now i := by
  rw [formatDisk_eq, deviceOf]
  unfold naiveBlockSize
  rw [File.block_write_out (by simp; omega), File.block_seek, File.block_write_out (by simp; omega),
    File.block_write_out (by simp; omega), File.block_seek, File.block_write_in (by simp) hi]

/-- The root's block starts with its two records. -/
theorem formatDisk_block_data {i : Nat} (hi : i < 264) :
    deviceOf (formatDisk statSize uid gid now f) 132 i
      = if i < 132 then formatRecord dotBytes i else formatRecord dotdotBytes (i - 132) := by
  rw [formatDisk_eq, deviceOf]
  unfold naiveBlockSize
  rw [File.block_write_out (by simp; omega), File.block_seek]
  split
  · rename_i hlt
    rw [File.block_write_out (by simp; omega), File.block_write_in (by simp) hlt]
  · rename_i hge
    rw [File.block, File.write_in (by simp; omega) (by simp; omega)]
    simp only [File.pos_write, File.pos_seek]
    rw [show 512 * 132 + i - (67584 + 132) = i - 132 by omega]

/-- The kernel reads the first bytes of the block bitmap as the magic number. -/
theorem magic_formatDisk :
    SuperBlock.magic (deviceOf (formatDisk statSize uid gid now f) naiveSuperBlockBlock)
      = 0x1F := by
  have hread : SuperBlock.magic (deviceOf (formatDisk statSize uid gid now f) 1)
      = SuperBlock.magic formatBlockBitmap :=
    getLE32_congr fun i _ hi => formatDisk_block_one (by omega)
  rw [hread]
  decide

/-- The block bitmap, the root's inode and its two records are read as intended. -/
theorem formatDisk_blockBitmap {b : Nat} (hb : 132 ≤ b) (hb' : b < 4096) :
    (deviceOf (formatDisk statSize uid gid now f) 2).bit b = true ↔ b = 132 := by
  have hread : (deviceOf (formatDisk statSize uid gid now f) 2).bit b
      = (formatBlockBitmap.setBit 132).bit b := by
    unfold bit
    rw [formatDisk_block_two (by omega)]
  have hzero : formatBlockBitmap.bit b = false := by
    unfold bit formatBlockBitmap
    rw [Function.update_of_ne (by omega)]
    exact BitVec.getLsbD_zero
  rw [hread, bit_setBit, hzero, Bool.or_false, decide_eq_true_eq]

theorem formatDisk_root : ∃ nd,
    decodeInode { iIno := 1 } (deviceOf (formatDisk statSize uid gid now f) 4) = .ok nd ∧
      DiskInode.iIno (deviceOf (formatDisk statSize uid gid now f) 4) = 1 ∧ nd.isDir = true ∧
      nd.blockCount = 1 ∧ nd.blockPointers 0 = 132 := by
  have hword : ∀ off, off + 4 ≤ 424 →
      (deviceOf (formatDisk statSize uid gid now f) 4).getLE32 off
        = (formatRootInode 132 uid gid now).getLE32 off := fun off hoff =>
    getLE32_congr fun i _ hi => formatDisk_block_four (by omega)
  have hmode : DiskInode.mode (deviceOf (formatDisk statSize uid gid now f) 4) = 0o040755 := by
    rw [DiskInode.mode, hword 0 (by omega), formatRootInode]
    simp (disch := omega) only [getLE32_putLE32_ne, getLE32_putLE32]
    rfl
  have hino : DiskInode.iIno (deviceOf (formatDisk statSize uid gid now f) 4) = 1 := by
    rw [DiskInode.iIno, hword 4 (by omega), formatRootInode]
    simp (disch := omega) only [getLE32_putLE32_ne, getLE32_putLE32]
    rfl
  have hcount : DiskInode.blockCount (deviceOf (formatDisk statSize uid gid now f) 4) = 1 := by
    rw [DiskInode.blockCount, hword 8 (by omega), formatRootInode]
    simp (disch := omega) only [getLE32_putLE32_ne, getLE32_putLE32]
    rfl
  have hblock : DiskInode.block (deviceOf (formatDisk statSize uid gid now f) 4) 0 = 132 := by
    rw [DiskInode.block, hword _ (by omega), formatRootInode]
    simp (disch := omega) only [getLE32_putLE32_ne, getLE32_putLE32]
    rfl
  generalize deviceOf (formatDisk statSize uid gid now f) 4 = d at hmode hino hcount hblock
  refine ⟨_, by rw [decodeInode, hcount]; rfl, hino, ?_, rfl, ?_⟩
  · show sIsdir (DiskInode.mode d % 2 ^ 16) = true
    rw [hmode]
    decide
  · show toInt32 (DiskInode.block d 0) = 132
    rw [hblock]
    decide

/-- A record as `format_disk` fills it, read back. -/
theorem formatRecord_read {b : Bytes} {j : Nat} {name : List Byte} (hname : ∀ c ∈ name, c ≠ 0)
    (hlen : name.length ≤ 127) (h : ∀ i, i < 132 → b (132 * j + i) = formatRecord name i) :
    DirRecord.iIno b j = 1 ∧ DirRecord.name b j = name := by
  constructor
  · have hword : ∀ i, i < 4 → b (132 * j + i) = zeros.putLE32 0 1 i := fun i hi =>
      (h i (by omega)).trans (blit_out (.inl (by omega)))
    have h0 : b (132 * j) = zeros.putLE32 0 1 0 := hword 0 (by omega)
    unfold DirRecord.iIno naiveDirRecordSize getLE32
    rw [h0, hword 1 (by omega), hword 2 (by omega), hword 3 (by omega)]
    decide
  · refine field_of_cstr hname (by unfold naiveMaxFilenameLen; omega) fun i hi => ?_
    unfold naiveMaxFilenameLen at hi
    unfold naiveDirRecordSize
    rw [Nat.add_assoc, h (4 + i) (by omega), formatRecord]
    by_cases hin : i < name.length + 1
    · rw [blit_in (by omega) (by simp; omega), Nat.add_sub_cancel_left]
      unfold cstr
      rcases Nat.lt_or_ge i name.length with hlt | hge
      · simp [hlt, List.getElem?_append_left]
      · simp [show i = name.length by omega]
    · rw [blit_out (by simp; omega), putLE32_out (by omega)]
      unfold cstr
      rw [List.getD_eq_getElem?_getD, List.getElem?_eq_none (by omega)]
      rfl

theorem formatDisk_records :
    (DirRecord.iIno (deviceOf (formatDisk statSize uid gid now f) 132) 0 = 1 ∧
      DirRecord.name (deviceOf (formatDisk statSize uid gid now f) 132) 0 = dotBytes) ∧
    (DirRecord.iIno (deviceOf (formatDisk statSize uid gid now f) 132) 1 = 1 ∧
      DirRecord.name (deviceOf (formatDisk statSize uid gid now f) 132) 1 = dotdotBytes) := by
  constructor
  · refine formatRecord_read (by decide) (by decide) fun i hi => ?_
    rw [formatDisk_block_data (by omega), if_pos (by omega), Nat.mul_zero, Nat.zero_add]
  · refine formatRecord_read (by decide) (by decide) fun i hi => ?_
    rw [formatDisk_block_data (by omega), if_neg (by omega), Nat.mul_one, Nat.add_sub_cancel_left]

/-- No image is formatted: the superblock is overwritten. -/
theorem format_disk_never (statSize uid gid now : Nat) (f : File) :
    ¬ Formatted statSize (deviceOf (formatDisk statSize uid gid now f)) := by
  intro h
  have hmagic := h.magic
  rw [magic_formatDisk] at hmagic
  exact absurd hmagic (by decide)

/-- The smallest image, full of zeros, is not formatted. -/
theorem format_disk_zero_image : ¬ ∀ (statSize uid gid now : Nat) (f : File),
    133 * 512 ≤ statSize → statSize ≤ 4096 * 512 → f.pos = 0 →
    Formatted statSize (deviceOf (formatDisk statSize uid gid now f)) := by
  intro hall
  have hmagic := (hall 68096 0 0 0 ⟨zeros, 0⟩ (by decide) (by decide) rfl).magic
  rw [magic_formatDisk] at hmagic
  exact absurd hmagic (by decide)

/-- What is formatted cannot be mounted. -/
theorem not_mounted_formatDisk {s : FS} :
    ¬ Mounted (deviceOf (formatDisk statSize uid gid now f)) s := by
  intro h
  have hmagic := (mounted_eq h).1
  rw [show (1 : Nat) = naiveSuperBlockBlock from rfl, magic_formatDisk] at hmagic
  exact absurd hmagic (by decide)

end Format

/-! ## The geometry -/

/-- The superblock describes a device of `statSize` bytes: its blocks are those that fit,
the inode table and the root's block are among them, and one bitmap block covers them. -/
structure Usable (statSize : Nat) (nsb : Bytes) : Prop where
  fits : SuperBlock.blockTotal nsb * naiveBlockSize ≤ statSize
  all : statSize < (SuperBlock.blockTotal nsb + 1) * naiveBlockSize
  table : SuperBlock.inodeTableBlockNo nsb + SuperBlock.inodeTotal nsb ≤ SuperBlock.dataBlockNo nsb
  root : SuperBlock.dataBlockNo nsb < SuperBlock.blockTotal nsb
  bitmap : SuperBlock.blockTotal nsb ≤ 8 * naiveBlockSize

section Geometry

variable {statSize : Nat}

theorem inodeTotal_formatSuperBlock (size : Int) :
    SuperBlock.inodeTotal (formatSuperBlock size) = 128 := by
  unfold SuperBlock.inodeTotal formatSuperBlock
  rw [getLE32_putLE32_ne (by omega), getLE32_putLE32_ne (by omega), getLE32_putLE32]
  rfl

theorem blockTotal_formatSuperBlock (size : Int) :
    SuperBlock.blockTotal (formatSuperBlock size) = toU32 (size.tdiv naiveBlockSize) := by
  unfold SuperBlock.blockTotal formatSuperBlock
  rw [getLE32_putLE32_ne (by omega), getLE32_putLE32_ne (by omega), getLE32_putLE32_ne (by omega),
    getLE32_putLE32, Nat.mod_eq_of_lt (toU32_lt _)]

/-- Below 2 GiB the total is the number of blocks that fit. -/
theorem blockTotal_small (h : statSize < 2 ^ 31) :
    SuperBlock.blockTotal (formatSuperBlock (toInt32 statSize)) = statSize / naiveBlockSize := by
  have hsize : toInt32 statSize = statSize := toInt32_of_small (by omega) (by omega)
  have hdiv : (statSize : Int).tdiv naiveBlockSize = (statSize / naiveBlockSize : Nat) :=
    (Int.ofNat_tdiv statSize naiveBlockSize).symm
  rw [blockTotal_formatSuperBlock, hsize, hdiv]
  exact toU32_natCast (by unfold naiveBlockSize; omega)

/-- A device of 2 GiB or more is said to be smaller, or far larger, than it is. -/
theorem blockTotal_large (h : 2 ^ 31 ≤ statSize) :
    SuperBlock.blockTotal (formatSuperBlock (toInt32 statSize)) < statSize / naiveBlockSize ∨
      8 * naiveBlockSize < SuperBlock.blockTotal (formatSuperBlock (toInt32 statSize)) := by
  rw [blockTotal_formatSuperBlock]
  have hlow : -2 ^ 31 ≤ toInt32 statSize := by
    unfold toInt32
    omega
  have hhigh : toInt32 statSize < 2 ^ 31 := by
    unfold toInt32
    omega
  generalize toInt32 (statSize : Int) = size at hlow hhigh
  unfold naiveBlockSize
  -- the quotient truncates: from -512 on it is 0, below that it wraps
  rcases Int.lt_or_le size 0 with hneg | hpos
  · have hdiv : size.tdiv (512 : Nat) = -(-size / 512) := by
      rw [show size = -(-size) by omega, Int.neg_tdiv, Int.tdiv_eq_ediv_of_nonneg (by omega),
        Int.neg_neg]
      rfl
    rw [hdiv]
    unfold toU32
    omega
  · have hdiv : size.tdiv (512 : Nat) = size / 512 := Int.tdiv_eq_ediv_of_nonneg hpos
    rw [hdiv]
    unfold toU32
    omega

/-- The geometry is usable for the sizes from 133 to 4096 blocks. -/
theorem usable_iff (statSize : Nat) : Usable statSize (formatSuperBlock (toInt32 statSize)) ↔
    133 * naiveBlockSize ≤ statSize ∧ statSize < 4097 * naiveBlockSize := by
  have htable := inodeTableBlockNo_formatSuperBlock (toInt32 statSize)
  have hinodes := inodeTotal_formatSuperBlock (toInt32 statSize)
  have hdata := dataBlockNo_formatSuperBlock (toInt32 statSize)
  constructor
  · rintro ⟨hfits, hall, -, hroot, hbitmap⟩
    rcases Nat.lt_or_ge statSize (2 ^ 31) with hsmall | hlarge
    · have htotal := blockTotal_small hsmall
      unfold naiveBlockSize at *
      omega
    · have htotal := blockTotal_large hlarge
      unfold naiveBlockSize at *
      omega
  · rintro ⟨hlow, hhigh⟩
    unfold naiveBlockSize at hlow hhigh
    have hsmall : statSize < 2 ^ 31 := by omega
    have htotal := blockTotal_small hsmall
    unfold naiveBlockSize at htotal
    have hbitmap : statSize / 512 ≤ 8 * 512 := by omega
    refine ⟨?_, ?_, by omega, by omega, ?_⟩
    · rw [htotal]
      exact Nat.div_mul_le_self statSize 512
    · rw [htotal]
      exact Nat.lt_mul_of_div_lt (Nat.lt_succ_self _) (by decide)
    · rw [htotal]
      exact hbitmap

/-- A device of 128 blocks has no room for the root's block. -/
theorem small_device_unusable :
    ¬ ∀ statSize : Nat, Usable statSize (formatSuperBlock (toInt32 statSize)) := by
  intro hall
  have h := hall 65536
  have hroot := h.root
  rw [dataBlockNo_formatSuperBlock, blockTotal_small (by decide)] at hroot
  exact absurd hroot (by decide)

end Geometry

end NaiveFS
