import NaiveFS.Super

/-!
# Directories (`naivefs_dir.c`)

The block loops of the source differ in what they do with a block; they share
`forBlocks`. A body returns `some a` to leave the loop (and, in the source, the
function or the scan) and `none` to go on with the next block.
-/

namespace NaiveFS

open Bytes

/-- Read `nii->block_pointers[i]`. -/
def pointer (nii : Inode) (i : Int) : K Int :=
  if i < 0 ∨ naiveBlockPerFile ≤ i then Prog.fault (.blockPointers i)
  else pure (nii.blockPointers i.toNat)

/-- `for (...; i < nii->block_count; i++) { if (nii->block_pointers[i] == 0)
continue; ... }`, `n` rounds from `i` on. -/
def forBlocks {α : Type} (nii : Inode) (body : Nat → Int → K (Option α)) :
    Nat → Nat → K (Option α)
  | 0, _ => pure none
  | n + 1, i => do
    let p ← pointer nii i
    if p = 0 then forBlocks nii body n (i + 1) else
    match ← body i p with
    | some a => pure (some a)
    | none => forBlocks nii body n (i + 1)

/-- `for (j = 0; j < NAIVE_DIR_RECORDS_PER_BLOCK; j++)` up to the first record
that satisfies the test. -/
def findRecord (test : Nat → Bool) : Option Nat := (List.range naiveDirRecordsPerBlock).find? test

/-- One round of a scan: read the block, look for a record that passes the
test, deal with it or release the block. -/
def scanBlock {α : Type} (site : Site) (test : Bytes → Nat → Bool) (miss : Option α)
    (hit : Int → Bytes → Nat → K α) (i : Nat) (b : Int) : K (Option α) := do
  if !(← sbBread site i b) then pure miss else
  let d ← bData b
  match findRecord (test d) with
  | some j =>
    let a ← hit b d j
    pure (some a)
  | none =>
    brelse b
    pure none

/-- The scans of the source: `miss` says how a failed read ends the round. -/
def scanRecords {α : Type} (nii : Inode) (site : Site) (test : Bytes → Nat → Bool)
    (miss : Option α) (hit : Int → Bytes → Nat → K α) : K (Option α) :=
  forBlocks nii (scanBlock site test miss hit) nii.blockCount.toNat 0

/-- `record->i_ino == 0`. -/
def isFree (d : Bytes) (j : Nat) : Bool := DirRecord.iIno d j = 0

/-- The loop over the attached blocks that looks for a free record. The record
found is filled and the buffer released, twice: at the record and after the
inner loop. -/
def addEntryScan (nii : Inode) (name : Name) (ino : Int) : K (Option Int) :=
  scanRecords nii .addEntryScan isFree (some (- EIO)) fun b d j => do
    putData b (DirRecord.put d j (toU32 ino) name.bytes)
    brelse b
    brelse b
    pure 0

/-- The first zero slot of `block_pointers`. -/
def zeroSlot (nii : Inode) : Option Nat :=
  (List.range naiveBlockPerFile).find? fun i => nii.blockPointers i = 0

/-- Attach a block at the first zero slot, if there is one. -/
def attachBlock (nii : Inode) (b : Int) : Inode :=
  match zeroSlot nii with
  | some i => { nii.setPointer i b with blockCount := nii.blockCount + 1 }
  | none => nii

/-- The part of `naive_add_entry` that needs a new block. -/
def addEntryNew (dir : Nat) (name : Name) (ino : Int) : K Int := do
  let newBlock ← allocBlock
  if newBlock < 0 then pure (-ENOSPC) else
  updInode dir fun nii => attachBlock nii newBlock
  if !(← sbBread .addEntryNew 0 newBlock) then
    freeBlock newBlock
    pure (- EIO)
  else
  let d ← bData newBlock
  putData newBlock (DirRecord.put (d.zero 0 naiveBlockSize) 0 (toU32 ino) name.bytes)
  brelse newBlock
  updInode dir fun nii => { nii with iSize := nii.iSize + naiveBlockSize, iDirty := true }
  pure 0

def naiveAddEntry (dir : Nat) (name : Name) (ino : Int) : K Int := do
  let nii ← inode dir
  match ← addEntryScan nii name ino with
  | some r => pure r
  | none => addEntryNew dir name ino

/-- The record names `name`. -/
def isNamed (name : Name) (d : Bytes) (j : Nat) : Bool := DirRecord.isNamed d j name.bytes

def naiveRemoveEntry (dir : Nat) (name : Name) : K Int := do
  let nii ← inode dir
  let r ← scanRecords nii .removeEntry (isNamed name) (some (- EIO)) fun b d j => do
    putData b (DirRecord.clear d j)
    brelse b
    pure 0
  pure (r.getD (-ENOENT))

/-- `"."` and `".."`. -/
def dotBytes : List Byte := [0x2E#8]
def dotdotBytes : List Byte := [0x2E#8, 0x2E#8]

/-- The block of a new directory: `.` and `..`. -/
def dotBlock (d : Bytes) (ino parent : Nat) : Bytes :=
  DirRecord.putDot (DirRecord.putDot (d.zero 0 naiveBlockSize) 0 ino dotBytes) 1 parent dotdotBytes

/-- The end of `naive_mkdir`, once the new inode has its block. -/
def mkdirLink (dir : Nat) (name : Name) (id : Nat) (ino blockNo : Int) : K Int := do
  let ret ← naiveAddEntry dir name ino
  if ret < 0 then
    freeBlock blockNo
    iput id
    pure ret
  else
  updInode dir fun nd => { nd with iNlink := toU32 (nd.iNlink + 1 : Int), iDirty := true }
  dInstantiate dir name id
  pure 0

/-- The part of `naive_mkdir` that sets up the new inode, once its block is written. -/
def mkdirFill (dir : Nat) (name : Name) (mode : Nat) (id : Nat) (ino blockNo : Int) : K Int := do
  inodeInitOwner id dir (sIfdir ||| (mode &&& 0o777))
  let ts ← ktime
  updInode id fun nd => nd.setTimes ts
  updInode id fun nd => { nd with
    iNlink := 2, iSize := naiveBlockSize,
    blockCount := 1, blockPointers := Function.update nd.blockPointers 0 blockNo }
  setInodeBit ino
  mkdirLink dir name id ino blockNo

/-- The middle of `naive_mkdir`, once the new inode exists. -/
def mkdirInode (dir : Nat) (name : Name) (mode : Nat) (id : Nat) (ino : Int) : K Int := do
  updInode id fun nd => { nd with iIno := toU64 ino }
  let blockNo ← allocBlock
  if blockNo < 0 then
    iput id
    pure (-ENOSPC)
  else
  if !(← sbBread .mkdirNew 0 blockNo) then
    freeBlock blockNo
    iput id
    pure (- EIO)
  else
  let d ← bData blockNo
  let parent ← inode dir
  putData blockNo (dotBlock d (toU32 ino) parent.iIno)
  brelse blockNo
  mkdirFill dir name mode id ino blockNo

def naiveMkdir (dir : Nat) (name : Name) (mode : Nat) : K Int := do
  let _ ← inode dir
  let ino ← findFreeInode
  if ino = 0 then pure (-ENOSPC) else
  match ← newInode with
  | none => pure (-ENOMEM)
  | some id => mkdirInode dir name mode id ino

/-- The loop that frees an inode's blocks, `n` rounds from `i` on. -/
def freeBlocks (id : Nat) : Nat → Nat → K Unit
  | 0, _ => pure ()
  | n + 1, i => do
    let nii ← inode id
    let p ← pointer nii i
    if p = 0 then freeBlocks id n (i + 1) else
    freeBlock p
    updInode id fun nd => nd.setPointer i 0
    freeBlocks id n (i + 1)

/-- A record in use that is neither `.` nor `..`. -/
def isOther (d : Bytes) (j : Nat) : Bool :=
  DirRecord.iIno d j ≠ 0 && (strcmp (DirRecord.filename d j) dotBytes ≠ 0 &&
    strcmp (DirRecord.filename d j) dotdotBytes ≠ 0)

/-- The emptiness check of `naive_rmdir`: a negative code when it stops. -/
def rmdirScan (nii : Inode) : K (Option Int) :=
  scanRecords nii .rmdirScan isOther (some (- EIO)) fun b _ _ => do
    brelse b
    pure (-ENOTEMPTY)

/-- What `naive_unlink` and `naive_rmdir` do to the blocks and the number of
the inode, once its entry is gone. -/
def releaseInode (id : Nat) : K Unit := do
  let nii ← inode id
  freeBlocks id nii.blockCount.toNat 0
  updInode id fun nd => { nd with blockCount := 0 }
  clearInodeBit (toInt32 nii.iIno)

def naiveRmdir (dir : Nat) (name : Name) (id : Nat) : K Int := do
  let _ ← inode dir
  let nii ← inode id
  if !nii.isDir then pure (-ENOTDIR) else
  match ← rmdirScan nii with
  | some ret => pure ret
  | none =>
  let ret ← naiveRemoveEntry dir name
  if ret < 0 then pure ret else
  releaseInode id
  updInode dir fun nd => { nd with iNlink := toU32 (nd.iNlink - 1 : Int), iDirty := true }
  updInode id fun nd => { nd with iNlink := 0, iSize := 0 }
  dDrop dir name
  pure 0

end NaiveFS
