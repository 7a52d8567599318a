import NaiveFS.Dir

/-!
# Inodes and files (`naivefs_inode.c`, `naivefs_file.c`)
-/

namespace NaiveFS

open Bytes

/-! ## Files in a directory -/

/-- The part of `naive_create` after `new_inode` succeeded. -/
def createInode (dir : Nat) (name : Name) (mode : Nat) (id : Nat) (ino : Int) : K Int := do
  updInode id fun nd => { nd with iIno := toU64 ino }
  inodeInitOwner id dir mode
  let ts ← ktime
  updInode id fun nd => nd.setTimes ts
  updInode id fun nd => { nd with iNlink := 1, iSize := 0 }
  setInodeBit ino
  let ret ← naiveAddEntry dir name ino
  if ret < 0 then
    iput id
    pure ret
  else
  dInstantiate dir name id
  pure 0

def naiveCreate (dir : Nat) (name : Name) (mode : Nat) : K Int := do
  let _ ← inode dir
  let ino ← findFreeInode
  if ino = 0 then pure (-ENOSPC) else
  match ← newInode with
  | none => pure (-ENOMEM)
  | some id => createInode dir name mode id ino

def naiveUnlink (dir : Nat) (name : Name) (id : Nat) : K Int := do
  let ret ← naiveRemoveEntry dir name
  if ret < 0 then pure ret else
  releaseInode id
  updInode id fun nd => { nd with iNlink := 0, iSize := 0 }
  pure 0

/-! ## Loading an inode -/

/-- The hashed in-memory inode with number `ino`. -/
def FS.findHashed (s : FS) (ino : Nat) : Option Nat :=
  (List.range s.nextInode).find? fun id =>
    match s.inodes id with
    | some nd => nd.iHashed && nd.iIno = ino
    | none => false

/-- The loop that fills `block_pointers` from `disk_inode->block`. -/
def readPointers (d : Bytes) : Nat → Nat → (Nat → Int) → Except Fault (Nat → Int)
  | 0, _, p => .ok p
  | n + 1, i, p =>
    if naiveBlockPerFile ≤ i then .error (.blockPointers i)
    else readPointers d n (i + 1) (Function.update p i (toInt32 (DiskInode.block d i)))

/-- The fields `naive_iget` fills from the disk inode. -/
def decodeInode (nd : Inode) (d : Bytes) : Except Fault Inode := do
  let count := toInt32 (DiskInode.blockCount d)
  let pointers ← readPointers d count.toNat 0 nd.blockPointers
  pure { nd with
    iMode := DiskInode.mode d % 2 ^ 16
    iUid := DiskInode.iUid d
    iGid := DiskInode.iGid d
    iSize := DiskInode.fileSize d
    iNlink := DiskInode.iNlink d
    iAtime := ⟨DiskInode.iAtime d, 0⟩
    iMtime := ⟨DiskInode.iMtime d, 0⟩
    iCtime := ⟨DiskInode.iCtime d, 0⟩
    blockCount := count
    blockPointers := pointers }

/-- `naive_iget`: an inode, or the code of an `ERR_PTR`. -/
def naiveIget (ino : Nat) : K (Except Int Nat) := do
  let ok : Bool ← Prog.ask (Call.igetLocked ino)
  if !ok then pure (.error (-ENOMEM)) else
  match ← Prog.read (·.findHashed ino) with
  | some id => pure (.ok id)
  | none =>
    let id ← Prog.read (·.nextInode)
    Prog.modify fun s =>
      { s.setInode id { iIno := ino, iNlink := 1, iHashed := true } with nextInode := id + 1 }
    let sb ← diskSb
    let b := inodeTableBlock sb ino
    if !(← sbBread .iget 0 b) then
      iput id
      pure (.error (- EIO))
    else
    let d ← bData b
    let nd ← inode id
    let nd ← Prog.lift (decodeInode nd d)
    Prog.modify (·.setInode id nd)
    brelse b
    pure (.ok id)

/-- `naive_lookup`: NULL, or the inode (or `ERR_PTR`) given to `d_splice_alias`,
which attaches an inode to the dentry. -/
def naiveLookup (dir : Nat) (name : Name) : K (Option (Except Int Nat)) := do
  let nii ← inode dir
  let found ← scanRecords nii .lookup (isNamed name) none fun b d j => do
    let r ← naiveIget (DirRecord.iIno d j)
    brelse b
    pure r
  match found with
  | some (.ok id) =>
    dInstantiate dir name id
    pure found
  | _ => pure found

/-! ## Reading and writing a file -/

/-- The block loop of `naive_file_read` with `remaining` bytes to go; `fuel`
bounds the rounds. Returns `ret`, the new `*pos` and the bytes given to the
user. -/
def fileReadLoop (id : Nat) : Nat → Nat → Nat → List Byte → K (Int × Nat × List Byte)
  | 0, pos, _, out => pure (out.length, pos, out)
  | fuel + 1, pos, remaining, out => do
    if remaining = 0 then pure (out.length, pos, out) else
    let nii ← inode id
    let blockIndex := toInt32 (pos / naiveBlockSize : Nat)
    if blockIndex ≥ nii.blockCount then pure (out.length, pos, out) else
    let p ← pointer nii blockIndex
    if p = 0 then pure (out.length, pos, out) else
    if !(← sbBread .fileRead (pos / naiveBlockSize) p) then pure (- EIO, pos, out) else
    let offsetInBlock := pos % naiveBlockSize
    let toCopy := min remaining (naiveBlockSize - offsetInBlock)
    let d ← bData p
    let left : Nat ← Prog.ask (Call.copyToUser (pos / naiveBlockSize))
    brelse p
    if left ≠ 0 then
      pure (-EFAULT, pos, out ++ d.slice offsetInBlock (toCopy - left))
    else
    fileReadLoop id fuel (pos + toCopy) (remaining - toCopy) (out ++ d.slice offsetInBlock toCopy)

/-- `naive_file_read(filp, buf, len, pos)`. -/
def naiveFileRead (id len pos : Nat) : K (Int × Nat × List Byte) := do
  let nd ← inode id
  if (pos : Int) ≥ nd.iSize then pure (0, pos, []) else
  let remaining := min len (toU64 (nd.iSize - pos))
  fileReadLoop id remaining pos remaining []

/-- The allocation loop of `naive_file_write`: 0, or `-ENOSPC`. -/
def fileWriteAlloc (id : Nat) : Nat → K Int
  | 0 => pure 0
  | n + 1 => do
    let newBlock ← allocBlock
    if newBlock < 0 then pure (-ENOSPC) else
    let nii ← inode id
    if nii.blockCount < naiveBlockPerFile then
      if nii.blockCount < 0 then Prog.fault (.blockPointers nii.blockCount) else
      updInode id fun nd => { nd.setPointer nd.blockCount.toNat newBlock with
        blockCount := nd.blockCount + 1 }
      fileWriteAlloc id n
    else
      freeBlock newBlock
      pure (-ENOSPC)

/-- The copy loop of `naive_file_write`: `data` is what is left to write, `ret`
the bytes written so far; `fuel` bounds the rounds. Returns `ret` and `*pos`.
A user copy that fails has stored the bytes it did copy and zeros. -/
def fileWriteLoop (id : Nat) : Nat → Nat → List Byte → Int → K (Int × Nat)
  | 0, pos, _, ret => pure (ret, pos)
  | fuel + 1, pos, data, ret => do
    if data = [] then pure (ret, pos) else
    let nii ← inode id
    let blockIndex := toInt32 (pos / naiveBlockSize : Nat)
    if blockIndex ≥ nii.blockCount then pure (-ENOSPC, pos) else
    let p ← pointer nii blockIndex
    if !(← sbBread .fileWrite (pos / naiveBlockSize) p) then pure (- EIO, pos) else
    let offsetInBlock := pos % naiveBlockSize
    let toCopy := min data.length (naiveBlockSize - offsetInBlock)
    let d ← bData p
    let left : Nat ← Prog.ask (Call.copyFromUser (pos / naiveBlockSize))
    if left ≠ 0 then
      let d := d.blit offsetInBlock (copiedFromUser data toCopy left)
      Prog.modify fun s => { s with cache := Function.update s.cache (toU64 p) d }
      brelse p
      pure (-EFAULT, pos)
    else
    putData p (d.blit offsetInBlock (data.take toCopy))
    brelse p
    fileWriteLoop id fuel (pos + toCopy) (data.drop toCopy) (ret + toCopy)

/-- The number of blocks `naive_file_write` sets out to add; the sum is a
`size_t`, the difference is stored in an `int`. -/
def neededBlocks (iSize : Int) (pos len : Nat) : Int :=
  let total := toU64 (toU64 (pos + len) + naiveBlockSize - 1 : Int) / naiveBlockSize
  toInt32 (total - iSize.tdiv naiveBlockSize)

/-- The part of `naive_file_write` after the blocks are there. -/
def fileWriteData (id : Nat) (data : List Byte) (pos : Nat) : K (Int × Nat) := do
  let (ret, pos) ← fileWriteLoop id data.length pos data 0
  let nd ← inode id
  if (pos : Int) > nd.iSize then
    updInode id fun nd => { nd with iSize := pos, iDirty := true }
  else pure ()
  let ts ← ktime
  updInode id fun nd => { nd with iMtime := ts, iCtime := ts }
  pure (ret, pos)

/-- `naive_file_write(filp, buf, len, pos)`. -/
def naiveFileWrite (id : Nat) (data : List Byte) (pos : Nat) : K (Int × Nat) := do
  let nd ← inode id
  let total := toU64 (pos + data.length)
  if total > naiveMaxFileSize then pure (-EFBIG, pos) else
  if total > toU64 nd.iSize then
    let ret ← fileWriteAlloc id (neededBlocks nd.iSize pos data.length).toNat
    if ret < 0 then pure (ret, pos) else fileWriteData id data pos
  else fileWriteData id data pos

end NaiveFS
