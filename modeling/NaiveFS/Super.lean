import NaiveFS.State

/-!
# Super block and block management (`naivefs_super.c`)

The two allocators and `naive_free_block` work on `sbi` and the superblock's
buffer only; they are functions that return the updated `sbi` or fault at the
first access outside its array. Everything else is code over the kernel state.

A mask `1 << j` with a negative `j` is undefined in C. The machine takes the count modulo 32, so
the mask lies above the byte it is used on: it tests a clear bit, and no bit is set or cleared.
-/

namespace NaiveFS

open Bytes

/-! ## Block management -/

/-- `for (j = start; j < 8; j++) if (!(byte & (1 << j)))`: the first such `j`. -/
def firstClear (byte : Byte) (start : Nat) : Option Nat :=
  (List.range' start (8 - start)).find? fun j => byte &&& (1#8 <<< j) = 0#8

/-- The byte loop of `naive_find_free_inode`, `n` rounds from byte `i` on. -/
def findFreeInodeScan (imap : Bytes) (totalInodes : Int) : Nat → Nat → Except Fault Int
  | 0, _ => .ok 0
  | n + 1, i =>
    if naiveBlockSize ≤ i then .error (.inodeBitmap i)
    else if imap i ≠ 0xFF#8 then
      match firstClear (imap i) 0 with
      | some j =>
        let ino : Int := i * 8 + j + 1
        if ino > totalInodes then .ok 0 else .ok ino
      | none => findFreeInodeScan imap totalInodes n (i + 1)
    else findFreeInodeScan imap totalInodes n (i + 1)

def naiveFindFreeInode (diskSb : Bytes) (sbi : SbInfo) : Except Fault Int :=
  let totalInodes := toInt32 (SuperBlock.inodeTotal diskSb)
  findFreeInodeScan sbi.inodeBitmap totalInodes (totalInodes.tdiv 8).toNat 0

/-- The byte loop of `naive_alloc_block`, `n` rounds from byte `i` on. The
update `bmap[i] |= 1 << j` sets bit `i * 8 + j`. -/
def allocBlockScan (sbi : SbInfo) (totalBlocks startByte startBit : Int) :
    Nat → Int → Except Fault (Int × SbInfo)
  | 0, _ => .ok (-ENOSPC, sbi)
  | n + 1, i =>
    let start := if i = startByte then startBit else 0
    if i < 0 ∨ naiveBlockSize ≤ i then .error (.blockBitmap i)
    -- the first mask lies above the byte
    else if start < 0 then .ok (i * 8 + start, sbi)
    else
      match firstClear (sbi.blockBitmap i.toNat) start.toNat with
      | some j =>
        let blockNo := i * 8 + j
        if blockNo ≥ totalBlocks then .ok (-ENOSPC, sbi)
        else .ok (blockNo, { sbi with blockBitmap := sbi.blockBitmap.setBit blockNo.toNat })
      | none => allocBlockScan sbi totalBlocks startByte startBit n (i + 1)

def naiveAllocBlock (diskSb : Bytes) (sbi : SbInfo) : Except Fault (Int × SbInfo) :=
  let totalBlocks := toInt32 (SuperBlock.blockTotal diskSb)
  let dataStart := toInt32 (SuperBlock.dataBlockNo diskSb)
  let startByte := dataStart.tdiv 8
  let startBit := dataStart.tmod 8
  allocBlockScan sbi totalBlocks startByte startBit
    (totalBlocks.tdiv 8 - startByte).toNat startByte

def naiveFreeBlock (sbi : SbInfo) (blockNo : Int) : Except Fault SbInfo :=
  let i := blockNo.tdiv 8
  let j := blockNo.tmod 8
  if i < sbi.blockBitmapBlocks * naiveBlockSize then
    if i < 0 ∨ naiveBlockSize ≤ i then .error (.blockBitmap i)
    else if j < 0 then .ok sbi
    else .ok { sbi with blockBitmap := sbi.blockBitmap.clearBit (i * 8 + j).toNat }
  else .ok sbi

def findFreeInode : K Int := Prog.step fun s => do
  let ino ← naiveFindFreeInode (s.block naiveSuperBlockBlock) s.sbi
  pure (ino, s)

def allocBlock : K Int := Prog.step fun s => do
  let (b, sbi) ← naiveAllocBlock (s.block naiveSuperBlockBlock) s.sbi
  pure (b, { s with sbi := sbi })

def freeBlock (b : Int) : K Unit := Prog.step fun s => do
  let sbi ← naiveFreeBlock s.sbi b
  pure ((), { s with sbi := sbi })

/-- An access to `sbi->inode_bitmap[(ino - 1) / 8]` through the mask
`1 << ((ino - 1) % 8)`; `f` is given the number of the bit, if the mask has one in the byte. -/
def inodeBitAccess (ino : Int) (f : Bytes → Nat → Bytes) : K Unit := Prog.step fun s =>
  let i := (ino - 1).tdiv 8
  let j := (ino - 1).tmod 8
  if i < 0 ∨ naiveBlockSize ≤ i then .error (.inodeBitmap i)
  else if j < 0 then .ok ((), s)
  else .ok ((), { s with sbi :=
    { s.sbi with inodeBitmap := f s.sbi.inodeBitmap (i * 8 + j).toNat } })

/-- `sbi->inode_bitmap[(ino - 1) / 8] |= (1 << ((ino - 1) % 8))`. -/
def setInodeBit (ino : Int) : K Unit := inodeBitAccess ino Bytes.setBit

/-- `sbi->inode_bitmap[(ino - 1) / 8] &= ~(1 << ((ino - 1) % 8))`. -/
def clearInodeBit (ino : Int) : K Unit := inodeBitAccess ino Bytes.clearBit

/-! ## Mount and unmount -/

/-- The new in-memory inode of `naive_alloc_inode`. -/
def naiveAllocInode : K (Option Nat) := do
  let ok : Bool ← Prog.ask (Call.kmalloc .rootInode)
  if ok then
    let id ← Prog.read (·.nextInode)
    Prog.modify fun s => { s.setInode id {} with nextInode := id + 1 }
    pure (some id)
  else pure none

/-- The labels of the clean-up ladder from `free_inode_bitmap` on: `bh` is still
the inode bitmap's buffer, so it falls through two `brelse(bh)`. -/
def fillSuperFreeInodeBitmap : K Int := do
  brelse 3
  brelse 3
  brelse naiveSuperBlockBlock
  pure (-ENOMEM)

/-- The part of `naive_fill_super` that sets up the root. -/
def fillSuperRoot : K Int := do
  match ← naiveAllocInode with
  | none => fillSuperFreeInodeBitmap
  | some id =>
    updInode id fun nd => { nd with iIno := naiveRootInodeNo, iMode := sIfdir ||| 0o755 }
    let ts ← ktime
    updInode id fun nd => nd.setTimes ts
    updInode id fun nd => { nd with iNlink := 2 }
    let ok : Bool ← Prog.ask Call.dMakeRoot
    if ok then
      Prog.modify fun s => { s with sRoot := id }
      pure 0
    else
      iput id
      fillSuperFreeInodeBitmap

def naiveFillSuper : K Int := do
  let ok : Bool ← Prog.ask (Call.kmalloc .sbInfo)
  if !ok then pure (-ENOMEM) else
  Prog.modify (·.setSbi {})
  if !(← sbBread .fillSuper 0 naiveSuperBlockBlock) then pure (- EIO) else
  let nsb ← diskSb
  if SuperBlock.magic nsb ≠ naiveMagic then
    brelse naiveSuperBlockBlock
    pure (-EINVAL)
  else
  if !(← sbBread .fillSuperBlockBitmap 0 2) then
    brelse naiveSuperBlockBlock
    pure (- EIO)
  else
  let ok : Bool ← Prog.ask (Call.kmalloc .blockBitmap)
  if !ok then
    brelse 2
    brelse naiveSuperBlockBlock
    pure (-ENOMEM)
  else
  let bm ← bData 2
  Prog.modify fun s => s.setSbi { s.sbi with blockBitmap := bm, blockBitmapBlocks := 1 }
  brelse 2
  if !(← sbBread .fillSuperInodeBitmap 0 3) then
    -- `bh` is NULL here, so the ladder's `brelse(bh)` does nothing
    brelse naiveSuperBlockBlock
    pure (- EIO)
  else
  let ok : Bool ← Prog.ask (Call.kmalloc .inodeBitmap)
  if !ok then fillSuperFreeInodeBitmap else
  let im ← bData 3
  Prog.modify fun s => s.setSbi { s.sbi with inodeBitmap := im, inodeBitmapBlocks := 1 }
  brelse 3
  fillSuperRoot

/-- `naive_put_super`: the bitmaps are freed as they are. -/
def naivePutSuper : K Unit := do
  brelse naiveSuperBlockBlock
  Prog.modify (·.setSbi {})

/-! ## Inode write-back -/

/-- The loop that stores `block_pointers` into `disk_inode->block`. -/
def writePointers (nii : Inode) : Nat → Nat → Bytes → Except Fault Bytes
  | 0, _, d => .ok d
  | n + 1, i, d =>
    if naiveBlockPerFile ≤ i then .error (.diskBlock i)
    else writePointers nii n (i + 1) (d.putLE32 (12 + 4 * i) (toU32 (nii.blockPointers i)))

/-- The disk inode `naive_write_inode` leaves over the block's old bytes. -/
def encodeInode (nd : Inode) (d : Bytes) : Except Fault Bytes := do
  let d := ((d.putLE32 0 nd.iMode).putLE32 4 nd.iIno).putLE32 8 (toU32 nd.blockCount)
  let d ← writePointers nd nd.blockCount.toNat 0 d
  let d := if nd.isDir then d.putLE32 44 (toU32 (nd.iSize.tdiv naiveDirRecordSize))
    else d.putLE32 44 (toU32 nd.iSize)
  pure ((((((d.putLE32 48 nd.iUid).putLE32 52 nd.iGid).putLE32 56 nd.iNlink).putLE32 60
    (toU32 nd.iAtime.tvSec)).putLE32 68 (toU32 nd.iMtime.tvSec)).putLE32 64
    (toU32 nd.iCtime.tvSec))

/-- The inode-table block of inode `ino`. -/
def inodeTableBlock (diskSb : Bytes) (ino : Nat) : Int :=
  toInt32 (SuperBlock.inodeTableBlockNo diskSb) + ((ino : Int) - 1)

def naiveWriteInode (id : Nat) : K Int := do
  let nd ← inode id
  let sb ← diskSb
  let b := inodeTableBlock sb nd.iIno
  if !(← sbBread .writeInode 0 b) then pure (- EIO) else
  let d ← bData b
  let d ← Prog.lift (encodeInode nd d)
  putData b d
  brelse b
  pure 0

end NaiveFS
