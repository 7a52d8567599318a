import Mathlib.Logic.Relation
import NaiveFS.V8.State

/-!
# The single-file module: allocation, creation, deletion, mount

`naive_find_free_block`, `naive_find_free_inode`, `naive_free_file_blocks`,
`naive_unlink`, `naive_create` and `naive_fill_super` of
`naivefs-8/naivefs.c`.
-/

namespace NaiveFS.V8

open Bytes

/-! ## Bits

`addr + (nr >> 3)` is a byte of the flat memory, whichever block it falls in;
`nr` may be negative. -/

/-- The byte that holds bit `nr` of the bitmap at `addr`. -/
def bitByte (nr : Int) (addr : Nat) : Except Fault Nat :=
  let p := (addr : Int) + nr / 8
  if p < 0 then .error (.address p) else .ok p.toNat

def naiveSetBit (nr : Int) (addr : Nat) (m : Bytes) : Except Fault Bytes := do
  let p ← bitByte nr addr
  pure (m.setBit (8 * p + (nr % 8).toNat))

def naiveClearBit (nr : Int) (addr : Nat) (m : Bytes) : Except Fault Bytes := do
  let p ← bitByte nr addr
  pure (m.clearBit (8 * p + (nr % 8).toNat))

def naiveTestBit (nr : Int) (addr : Nat) (m : Bytes) : Except Fault Bool := do
  let p ← bitByte nr addr
  pure (m.bit (8 * p + (nr % 8).toNat))

/-! ## Allocation -/

/-- The loop of both allocators: the first clear bit among the `n` from `i` on. -/
def findClear (bitmap : Nat) (m : Bytes) : Nat → Int → Except Fault (Option Int)
  | 0, _ => .ok none
  | n + 1, i => do
    if 2 ^ 31 ≤ i then throw .overflow
    else if !(← naiveTestBit i bitmap m) then pure (some i)
    else findClear bitmap m n (i + 1)

/-- Take the first clear bit: set it, mark the bitmap's buffer, return it, or -1. -/
def takeClear (bitmap bh n : Nat) (i : Int) : K Int := Prog.step fun s => do
  match ← findClear bitmap s.mem n i with
  | some k =>
    let m ← naiveSetBit k bitmap s.mem
    pure (k, (s.setMem m).markDirty bh)
  | none => pure (-1, s)

def naiveFindFreeBlock (e : Endian) (sbi : SbInfo) : K Int :=
  let totalBlocks := toInt32 (le32ToCpu e sbi.blocksCount)
  let startBlock := toInt32 (le32ToCpu e sbi.dataBlocksStart)
  takeClear sbi.blockBitmap sbi.blockBitmapBh (totalBlocks - startBlock).toNat startBlock

def naiveFindFreeInode (e : Endian) (sbi : SbInfo) : K Int :=
  takeClear sbi.inodeBitmap sbi.inodeBitmapBh (le32ToCpu e sbi.inodesCount) 0

/-- The loop of `naive_free_file_blocks`, `n` rounds from `i` on. -/
def freeFileBlocksLoop (e : Endian) (blockBitmap diskInode : Nat) :
    Nat → Nat → Bytes → Except Fault Bytes
  | 0, _, m => .ok m
  | n + 1, i, m => do
    let a := diskInode + 12 + 4 * i
    if load32 e m a ≠ 0 then
      let blockNo := toInt32 (le32ToCpu e (load32 e m a))
      let m ← naiveClearBit blockNo blockBitmap m
      freeFileBlocksLoop e blockBitmap diskInode n (i + 1) (store32 e m a 0)
    else freeFileBlocksLoop e blockBitmap diskInode n (i + 1) m

def naiveFreeFileBlocks (e : Endian) (diskInode : Nat) : K Unit := do
  let sbi ← naiveSb
  tryMem (freeFileBlocksLoop e sbi.blockBitmap diskInode naiveDirectBlocks 0)
  updMem fun m => store32 e m (diskInode + 8) 0
  markBufferDirty sbi.blockBitmapBh

/-! ## Deletion -/

/-- The three stores that clear the inode's contents. -/
def clearDiskInode (e : Endian) (a : Nat) (m : Bytes) : Bytes :=
  store32 e (store32 e (store32 e m (a + 44) 0) (a + 8) 0) (a + 56) 0

/-- What `naive_unlink` does when the inode's link count reached 0. -/
def unlinkRelease (e : Endian) (sbi : SbInfo) (nii : NaiveInodeInfo) (nd : Inode) : K Unit := do
  if nd.iNlink ≠ 0 then pure () else
  naiveFreeFileBlocks e nii.diskInode
  updMem (clearDiskInode e nii.diskInode)
  tryMem (naiveClearBit (toInt32 ((nd.iIno : Int) - 1)) sbi.inodeBitmap)
  markBufferDirty sbi.inodeBitmapBh
  markBufferDirty nii.inodeBh

def naiveUnlink (e : Endian) (dir id : Nat) : K Int := do
  let nii ← naiveI id
  let sbi ← naiveSb
  inodeDecLinkCount id
  let nd ← inode id
  unlinkRelease e sbi nii nd
  let ts ← ktime
  updInode dir fun d => { d with iMtime := ts, iCtime := ts }
  pure 0

/-- `naive_destroy_inode`, and the inode's memory is gone. -/
def naiveDestroyInode (id : Nat) : K Unit := do
  let nd ← inode id
  match nd.iPrivate with
  | some nii => brelse nii.inodeBh
  | none => pure ()
  Prog.modify (·.dropInode id)

/-- `iput` of an inode nobody else holds: it is evicted and destroyed. -/
def iput (id : Nat) : K Unit := naiveDestroyInode id

/-! ## Creation -/

/-- What `naive_create` and `naive_fill_super` store for a new inode: the
`memset` over `sizeof(struct naive_disk_inode)` bytes and eight fields. -/
def initDiskInode (e : Endian) (a : Nat) (nd : Inode) (ino links : Nat) (ts : Timespec)
    (m : Bytes) : Bytes :=
  let m := m.zero a sizeofDiskInode
  let m := store32 e m a (cpuToLe32 e nd.iMode)
  let m := store32 e m (a + 4) (cpuToLe32 e ino)
  let m := store32 e m (a + 48) (cpuToLe32 e nd.iUid)
  let m := store32 e m (a + 52) (cpuToLe32 e nd.iGid)
  let m := store32 e m (a + 56) (cpuToLe32 e links)
  let m := store32 e m (a + 60) (cpuToLe32 e (toU32 ts.tvSec))
  let m := store32 e m (a + 68) (cpuToLe32 e (toU32 ts.tvSec))
  store32 e m (a + 64) (cpuToLe32 e (toU32 ts.tvSec))

/-- `S_ISDIR(mode)` selects the operation tables. -/
def Operations.ofMode (mode : Nat) : Operations := if sIsdir mode then .dir else .file

/-- The part of `naive_create` from `sb_bread` of inode-table block `b` on. -/
def createOnDisk (e : Endian) (sbi : SbInfo) (dir : Nat) (name : Name) (mode : Nat) (ino : Int)
    (id : Nat) (ts : Timespec) (b : Nat) : K Int := do
  if !(← sbBread .create b) then
    iput id
    tryMem (naiveClearBit ino sbi.inodeBitmap)
    pure (- EIO)
  else
  let nd ← inode id
  updMem (initDiskInode e (bData b) nd (toU32 ino) 1 ts)
  updInode id fun nd => { nd with iOp := .ofMode mode }
  let ok : Bool ← Prog.ask (Call.kmalloc .inodeInfo)
  if !ok then
    brelse b
    iput id
    tryMem (naiveClearBit ino sbi.inodeBitmap)
    pure (-ENOMEM)
  else
  updInode id fun nd => { nd with iPrivate := some ⟨bData b, b⟩ }
  dAdd dir name id
  markBufferDirty b
  markBufferDirty sbi.sbBh
  pure 0

/-- The inode-table block `naive_create` computes for number `ino`, as the
`sector_t` that `sb_bread` gets. -/
def SbInfo.tableBlock (e : Endian) (sbi : SbInfo) (ino : Int) : Nat :=
  toU64 (toInt32 (le32ToCpu e sbi.inodeTableStart + ino))

/-- The part of `naive_create` after `new_inode` succeeded. -/
def createInode (e : Endian) (sbi : SbInfo) (dir : Nat) (name : Name) (mode : Nat) (ino : Int)
    (id : Nat) : K Int := do
  updInode id fun nd => { nd with iIno := toU64 ino }
  let d ← inode dir
  inodeInitOwner id (some d) mode
  let ts ← ktime
  updInode id fun nd => nd.setTimes ts
  updInode id fun nd => { nd with iNlink := 1 }
  createOnDisk e sbi dir name mode ino id ts (sbi.tableBlock e ino)

def naiveCreate (e : Endian) (dir : Nat) (name : Name) (mode : Nat) : K Int := do
  let sbi ← naiveSb
  let ino ← naiveFindFreeInode e sbi
  if ino < 0 then pure (-ENOSPC) else
  match ← newInode with
  | none =>
    tryMem (naiveClearBit ino sbi.inodeBitmap)
    pure (-ENOMEM)
  | some id => createInode e sbi dir name mode ino id

/-! ## Mount -/

/-- The labels of the clean-up ladder, each falling through to the next. -/
def outFreeSbi (ret : Int) : K Int := do
  Prog.modify (·.setInfo .freed)
  pure ret

def outBrelseSb (ret : Int) : K Int := do
  let sbi ← naiveSb
  brelse sbi.sbBh
  outFreeSbi ret

def outBrelseBlockBitmap (ret : Int) : K Int := do
  let sbi ← naiveSb
  brelse sbi.blockBitmapBh
  outBrelseSb ret

def outBrelseInodeBitmap (ret : Int) : K Int := do
  let sbi ← naiveSb
  brelse sbi.inodeBitmapBh
  outBrelseBlockBitmap ret

/-- The part of `naive_fill_super` from `sb_bread` of the root's block `b` on. -/
def fillSuperOnDisk (e : Endian) (id : Nat) (ts : Timespec) (b : Nat) : K Int := do
  if !(← sbBread .fillSuperRoot b) then
    iput id
    outBrelseInodeBitmap (- EIO)
  else
  let ok : Bool ← Prog.ask (Call.kmalloc .rootInfo)
  if !ok then
    brelse b
    iput id
    outBrelseInodeBitmap (-ENOMEM)
  else
  updInode id fun nd => { nd with iPrivate := some ⟨bData b, b⟩ }
  let nd ← inode id
  updMem (initDiskInode e (bData b) nd naiveRootIno 2 ts)
  markBufferDirty b
  let ok : Bool ← Prog.ask Call.dMakeRoot
  if ok then
    Prog.modify fun s => { s with sRoot := some id }
    pure 0
  else
    -- `d_make_root` drops the inode when it fails; the code then drops it again
    iput id
    brelse b
    iput id
    outBrelseInodeBitmap (-ENOMEM)

/-- The root's inode-table block; the sum is unsigned. -/
def SbInfo.rootBlock (e : Endian) (sbi : SbInfo) : Nat :=
  toU32 ((le32ToCpu e sbi.inodeTableStart : Int) + naiveRootIno - 1)

/-- The part of `naive_fill_super` after the root's `new_inode` succeeded. -/
def fillSuperRoot (e : Endian) (id : Nat) : K Int := do
  updInode id fun nd => { nd with iIno := naiveRootIno, iMode := sIfdir ||| 0o755 }
  inodeInitOwner id none (sIfdir ||| 0o755)
  let ts ← ktime
  updInode id fun nd => nd.setTimes ts
  updInode id fun nd => { nd with iNlink := 2, iOp := .dir }
  let sbi ← naiveSb
  fillSuperOnDisk e id ts (sbi.rootBlock e)

/-- The part of `naive_fill_super` after all three buffers are there. -/
def fillSuperInfo (e : Endian) : K Int := do
  let nsb := bData naiveSuperBlockBlock
  let m ← Prog.read (·.mem)
  updSbi fun sbi => { sbi with
    inodesCount := le32ToCpu e (load32 e m (nsb + 4))
    blocksCount := le32ToCpu e (load32 e m (nsb + 8))
    inodeTableStart := le32ToCpu e (load32 e m (nsb + 12))
    dataBlocksStart := le32ToCpu e (load32 e m (nsb + 16)) }
  let sbi ← naiveSb
  tryMem (naiveSetBit (naiveRootIno - 1) sbi.inodeBitmap)
  markBufferDirty sbi.inodeBitmapBh
  match ← newInode with
  | none => outBrelseInodeBitmap (-ENOMEM)
  | some id => fillSuperRoot e id

/-- The part of `naive_fill_super` after the magic number was checked. -/
def fillSuperBitmaps (e : Endian) : K Int := do
  if !(← sbBread .fillSuperBlockBitmap naiveBlockBitmapBlock) then outBrelseSb (- EIO) else
  updSbi fun sbi => { sbi with
    blockBitmapBh := naiveBlockBitmapBlock, blockBitmap := bData naiveBlockBitmapBlock }
  if !(← sbBread .fillSuperInodeBitmap naiveInodeBitmapBlock) then
    outBrelseBlockBitmap (- EIO)
  else
  updSbi fun sbi => { sbi with
    inodeBitmapBh := naiveInodeBitmapBlock, inodeBitmap := bData naiveInodeBitmapBlock }
  fillSuperInfo e

def naiveFillSuper (e : Endian) : K Int := do
  let ok : Bool ← Prog.ask (Call.kmalloc .sbInfo)
  if !ok then pure (-ENOMEM) else
  Prog.modify (·.setInfo (.live {}))
  if !(← sbBread .fillSuper naiveSuperBlockBlock) then outFreeSbi (- EIO) else
  updSbi fun sbi => { sbi with sbBh := naiveSuperBlockBlock }
  let magic ← Prog.read fun s => le32ToCpu e (load32 e s.mem (bData naiveSuperBlockBlock))
  if magic ≠ naiveMagic then outBrelseSb (-EINVAL) else
  fillSuperBitmaps e

/-! ## Operations as the VFS issues them -/

inductive Op where
  | create (dir : Nat) (name : Name) (perm : Nat)
  | unlink (dir : Nat) (name : Name)

/-- `vfs_unlink` of a file nobody has open: after a successful `naive_unlink` the
dentry goes and the inode is evicted. So in a run nothing is used after its name was
removed; a file that is open then would stay in memory until it is closed. -/
def vfsUnlink (e : Endian) (dir : Nat) (name : Name) : K Int := do
  match ← Prog.read fun s => s.dcache dir name with
  | none => pure (-ENOENT)
  | some id =>
    let ret ← naiveUnlink e dir id
    if ret = 0 then
      Prog.modify (·.setDentry dir name none)
      iput id
      pure ret
    else pure ret

/-- The code of an operation; the result is its return value. -/
def Op.prog (e : Endian) : Op → K Int
  | .create dir name perm => naiveCreate e dir name (sIfreg ||| (perm &&& 0o7777))
  | .unlink dir name => vfsUnlink e dir name

/-- One step of a run: an operation that satisfies `P` (state before, operation,
result). -/
def Step (e : Endian) (P : FS → Op → Int → Prop) (s t : FS) : Prop :=
  ∃ op ans r, P s op r ∧ (op.prog e).exec ans s = .ok (r, t)

/-- A run of any length. -/
def Run (e : Endian) (P : FS → Op → Int → Prop) : FS → FS → Prop :=
  Relation.ReflTransGen (Step e P)

/-- `s` is the state after a successful mount of a device that holds `image`. -/
def Mounted (e : Endian) (image : Bytes) (s : FS) : Prop :=
  ∃ ans, (naiveFillSuper e).exec ans { mem := image } = .ok (0, s)

end NaiveFS.V8
