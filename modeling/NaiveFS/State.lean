import NaiveFS.Lib.Prog
import NaiveFS.Layout

/-!
# Kernel state

What the module's functions see of the kernel: the buffer cache over the
device, `sbi`, the in-memory inodes, the dentries. The code itself is a `K`:
a program over this state whose calls (`sb_bread`, `new_inode`, user copies,
the clock) are answered from outside.
-/

namespace NaiveFS

/-- A name the VFS passes down: 1 to 255 bytes without NUL. -/
structure Name where
  bytes : List Byte
  noNul : ∀ c ∈ bytes, c ≠ 0
  pos : 0 < bytes.length
  le255 : bytes.length ≤ 255
  deriving DecidableEq

theorem Name.ext' {m n : Name} (h : m.bytes = n.bytes) : m = n := by
  cases m
  cases n
  cases h
  rfl

/-- The name of `n` letters `a`. -/
def Name.letters (n : Nat) (hpos : 0 < n) (hle : n ≤ 255) : Name where
  bytes := List.replicate n 0x61#8
  noNul := fun c hc => by rw [List.eq_of_mem_replicate hc]; decide
  pos := by simpa using hpos
  le255 := by simpa using hle

theorem Name.one_le_max : 1 ≤ 255 := by decide

theorem Name.two_le_max : 2 ≤ 255 := by decide

structure Timespec where
  tvSec : Int
  tvNsec : Int
  deriving DecidableEq, Repr, Inhabited

/-! ## Error codes -/

abbrev ENOENT : Int := 2
abbrev EIO : Int := 5
abbrev ENOMEM : Int := 12
abbrev EFAULT : Int := 14
abbrev ENOTDIR : Int := 20
abbrev EINVAL : Int := 22
abbrev EFBIG : Int := 27
abbrev ENOSPC : Int := 28
abbrev ENOTEMPTY : Int := 39

/-! ## File modes -/

abbrev sIfmt : Nat := 0o170000
abbrev sIfdir : Nat := 0o040000
abbrev sIfreg : Nat := 0o100000
abbrev sIsgid : Nat := 0o002000

/-- `S_ISDIR(mode)`. -/
def sIsdir (mode : Nat) : Bool := mode &&& sIfmt = sIfdir

/-! ## Inodes -/

/-- `struct naive_inode_info` with the `struct inode` it embeds. -/
structure Inode where
  iIno : Nat := 0
  iMode : Nat := 0
  iUid : Nat := 0
  iGid : Nat := 0
  iSize : Int := 0
  iNlink : Nat := 0
  iAtime : Timespec := default
  iMtime : Timespec := default
  iCtime : Timespec := default
  /-- In the inode hash, where `iget_locked` looks. -/
  iHashed : Bool := false
  /-- `mark_inode_dirty` was called since it was last written or loaded. -/
  iDirty : Bool := false
  blockCount : Int := 0
  blockPointers : Nat → Int := fun _ => 0

def Inode.isDir (nd : Inode) : Bool := sIsdir nd.iMode

/-- Store into `block_pointers[i]`. -/
def Inode.setPointer (nd : Inode) (i : Nat) (b : Int) : Inode :=
  { nd with blockPointers := Function.update nd.blockPointers i b }

/-! ## The mounted file system -/

/-- `struct naive_sb_info`. `disk_sb` points into block 1's buffer, so the
superblock fields are read from there. -/
structure SbInfo where
  blockBitmap : Bytes := fun _ => 0
  inodeBitmap : Bytes := fun _ => 0
  blockBitmapBlocks : Int := 0
  inodeBitmapBlocks : Int := 0

/-- The kernel state the module works on. Blocks are keyed by their sector
number, in-memory inodes by the address they were allocated at. -/
structure FS where
  /-- What the device holds. -/
  disk : Nat → Bytes
  /-- What a buffer returned by `sb_bread` holds. -/
  cache : Nat → Bytes
  /-- `mark_buffer_dirty` was called since the last write-back. -/
  bDirty : Nat → Bool := fun _ => false
  /-- `bh->b_count`. -/
  bCount : Nat → Int := fun _ => 0
  sbi : SbInfo := {}
  /-- The inodes in memory. -/
  inodes : Nat → Option Inode := fun _ => none
  nextInode : Nat := 0
  /-- The dentries: parent and name to inode. -/
  dcache : Nat → Name → Option Nat := fun _ _ => none
  sRoot : Nat := 0

/-- A device whose buffers are clean and on which nothing is mounted. -/
def FS.ofDisk (disk : Nat → Bytes) : FS := { disk := disk, cache := disk }

namespace FS

/-- `bh->b_data` of block `b`. -/
def block (s : FS) (b : Int) : Bytes := s.cache (toU64 b)

/-- Write a buffer and mark it dirty. -/
def writeBlock (s : FS) (b : Int) (v : Bytes) : FS :=
  { s with
    cache := Function.update s.cache (toU64 b) v
    bDirty := Function.update s.bDirty (toU64 b) true }

/-- Add `d` to the reference count of block `b`'s buffer. -/
def addRef (s : FS) (b d : Int) : FS :=
  { s with bCount := Function.update s.bCount (toU64 b) (s.bCount (toU64 b) + d) }

def setSbi (s : FS) (sbi : SbInfo) : FS := { s with sbi := sbi }

def setInode (s : FS) (id : Nat) (nd : Inode) : FS :=
  { s with inodes := Function.update s.inodes id (some nd) }

def dropInode (s : FS) (id : Nat) : FS :=
  { s with inodes := Function.update s.inodes id none }

def setDentry (s : FS) (dir : Nat) (name : Name) (id : Option Nat) : FS :=
  { s with dcache := Function.update s.dcache dir (Function.update (s.dcache dir) name id) }

/-- Bit `b` of the in-memory block bitmap. -/
def marked (s : FS) (b : Nat) : Bool := s.sbi.blockBitmap.bit b

/-- The bit of inode number `ino` in the in-memory inode bitmap. -/
def inoMarked (s : FS) (ino : Nat) : Bool := s.sbi.inodeBitmap.bit (ino - 1)

def markBlock (s : FS) (b : Nat) : FS :=
  { s with sbi := { s.sbi with blockBitmap := s.sbi.blockBitmap.setBit b } }

def unmarkBlock (s : FS) (b : Nat) : FS :=
  { s with sbi := { s.sbi with blockBitmap := s.sbi.blockBitmap.clearBit b } }

def markInode (s : FS) (ino : Nat) : FS :=
  { s with sbi := { s.sbi with inodeBitmap := s.sbi.inodeBitmap.setBit (ino - 1) } }

def unmarkInode (s : FS) (ino : Nat) : FS :=
  { s with sbi := { s.sbi with inodeBitmap := s.sbi.inodeBitmap.clearBit (ino - 1) } }

end FS

/-! ## Calls out of the module -/

/-- The `sb_bread` calls of the source. -/
inductive Site where
  | addEntryScan | addEntryNew | removeEntry | mkdirNew | rmdirScan
  | lookup | iget | writeInode | fileRead | fileWrite
  | fillSuper | fillSuperBlockBitmap | fillSuperInodeBitmap
  deriving DecidableEq

/-- The `kmalloc`/`kzalloc` calls of the source. -/
inductive AllocSite where
  | sbInfo | blockBitmap | inodeBitmap | rootInode
  deriving DecidableEq

/-- A call answered by the environment. Within one operation every call is
different: a loop passes its index. -/
inductive Call where
  | sbBread (site : Site) (i : Nat) (b : Int)
  | newInode
  | kmalloc (site : AllocSite)
  | dMakeRoot
  | igetLocked (ino : Nat)
  | copyFromUser (i : Nat)
  | copyToUser (i : Nat)
  | ktime
  | currentFsuid
  | currentFsgid
  deriving DecidableEq

/-- The type of the answer: success for an allocation or a read, the number of
bytes not copied for a user copy. -/
@[reducible] def Call.Ans : Call → Type
  | .sbBread .. | .newInode | .kmalloc _ | .dMakeRoot | .igetLocked _ => Bool
  | .copyFromUser _ | .copyToUser _ | .currentFsuid | .currentFsgid => Nat
  | .ktime => Timespec

/-- The answers to the calls of one operation. -/
abbrev Answers := (e : Call) → e.Ans

/-- The answers when nothing fails, at time `ts`, for user `uid:gid`. -/
def Answers.good (ts : Timespec) (uid gid : Nat) : Answers
  | .sbBread .. | .newInode | .kmalloc _ | .dMakeRoot | .igetLocked _ => true
  | .copyFromUser _ | .copyToUser _ => 0
  | .currentFsuid => uid
  | .currentFsgid => gid
  | .ktime => ts

/-- The same, except that the reads of one `sb_bread` call fail. -/
def Answers.unreadable (site : Site) (ts : Timespec) (uid gid : Nat) : Answers
  | .sbBread st _ _ => decide (st ≠ site)
  | e => Answers.good ts uid gid e

/-- Undefined behaviour the code can reach. -/
inductive Fault where
  | blockBitmap (i : Int)
  | inodeBitmap (i : Int)
  | blockPointers (i : Int)
  | diskBlock (i : Int)
  | noInode (id : Nat)
  deriving DecidableEq, Repr

/-- An array index outside its array. -/
def Fault.isIndex : Fault → Bool
  | .blockBitmap _ | .inodeBitmap _ | .blockPointers _ | .diskBlock _ => true
  | .noInode _ => false

/-- Code of the module. -/
abbrev K := Prog FS Call Call.Ans Fault

/-! ## Kernel functions the module calls -/

def sbBread (site : Site) (i : Nat) (b : Int) : K Bool := do
  let ok : Bool ← Prog.ask (Call.sbBread site i b)
  if ok then
    Prog.modify (·.addRef b 1)
    pure true
  else pure false

def brelse (b : Int) : K Unit := Prog.modify (·.addRef b (-1))

/-- `bh->b_data` of the buffer of block `b`. -/
def bData (b : Int) : K Bytes := Prog.read (·.block b)

/-- Store into `bh->b_data`, then `mark_buffer_dirty(bh)`. -/
def putData (b : Int) (v : Bytes) : K Unit := Prog.modify (·.writeBlock b v)

/-- `sbi->disk_sb`. -/
def diskSb : K Bytes := Prog.read (·.block naiveSuperBlockBlock)

/-- Dereference an inode pointer. -/
def inode (id : Nat) : K Inode := Prog.step fun s =>
  match s.inodes id with
  | some nd => .ok (nd, s)
  | none => .error (.noInode id)

/-- Assign to fields of an inode. -/
def updInode (id : Nat) (f : Inode → Inode) : K Unit := do
  let nd ← inode id
  Prog.modify (·.setInode id (f nd))

/-- `new_inode`: `naive_alloc_inode` zeroes the structure, the kernel sets the
link count to 1. -/
def newInode : K (Option Nat) := do
  let ok : Bool ← Prog.ask Call.newInode
  if ok then
    let id ← Prog.read (·.nextInode)
    Prog.modify fun s => { s.setInode id { iNlink := 1 } with nextInode := id + 1 }
    pure (some id)
  else pure none

/-- `iput` of an inode nobody else holds: it is evicted and destroyed. -/
def iput (id : Nat) : K Unit := Prog.modify (·.dropInode id)

def dInstantiate (dir : Nat) (name : Name) (id : Nat) : K Unit :=
  Prog.modify (·.setDentry dir name (some id))

def dDrop (dir : Nat) (name : Name) : K Unit := Prog.modify (·.setDentry dir name none)

/-- What `copy_from_user` stores of the `n` bytes asked for when it leaves `left` of them uncopied:
zeros behind those it copied. -/
def copiedFromUser (data : List Byte) (n left : Nat) : List Byte :=
  data.take (n - left) ++ List.replicate (n - (n - left)) 0#8

@[simp] theorem length_copiedFromUser {data : List Byte} {n left : Nat} (hn : n ≤ data.length) :
    (copiedFromUser data n left).length = n := by
  rw [copiedFromUser, List.length_append, List.length_take, List.length_replicate]
  omega

@[simp] theorem copiedFromUser_zero (data : List Byte) (n : Nat) :
    copiedFromUser data n 0 = data.take n := by
  simp [copiedFromUser]

def ktime : K Timespec := Prog.ask Call.ktime

/-- The owner, group and mode `inode_init_owner` gives an inode created in `d`. -/
def Inode.initOwner (nd d : Inode) (uid gid mode : Nat) : Inode :=
  if d.iMode &&& sIsgid = 0 then { nd with iUid := uid, iGid := gid, iMode := mode }
  else { nd with
    iUid := uid, iGid := d.iGid, iMode := if sIsdir mode then mode ||| sIsgid else mode }

/-- `inode_init_owner(idmap, inode, dir, mode)`. -/
def inodeInitOwner (id dir mode : Nat) : K Unit := do
  let uid : Nat ← Prog.ask Call.currentFsuid
  let gid : Nat ← Prog.ask Call.currentFsgid
  let d ← inode dir
  updInode id fun nd => nd.initOwner d uid gid mode

def Inode.setTimes (nd : Inode) (ts : Timespec) : Inode :=
  { nd with iAtime := ts, iMtime := ts, iCtime := ts }

/-! ## How the kernel functions run -/

section Exec

variable {ans : Answers} {s : FS} {id dir : Nat} {nd d : Inode} {b : Int}

theorem exec_sbBread_ok {site : Site} {i : Nat} (h : ans (.sbBread site i b) = true) :
    (sbBread site i b).exec ans s = .ok (true, s.addRef b 1) := by
  have h' : (ans (.sbBread site i b) : Bool) = true := h
  simp [sbBread, h']

theorem exec_sbBread_fail {site : Site} {i : Nat} (h : ans (.sbBread site i b) = false) :
    (sbBread site i b).exec ans s = .ok (false, s) := by
  have h' : (ans (.sbBread site i b) : Bool) = false := h
  simp [sbBread, h']

@[simp] theorem exec_brelse : (brelse b).exec ans s = .ok ((), s.addRef b (-1)) := rfl

@[simp] theorem exec_bData : (bData b).exec ans s = .ok (s.block b, s) := rfl

@[simp] theorem exec_putData {v : Bytes} :
    (putData b v).exec ans s = .ok ((), s.writeBlock b v) := rfl

@[simp] theorem exec_diskSb : diskSb.exec ans s = .ok (s.block naiveSuperBlockBlock, s) := rfl

theorem exec_inode (h : s.inodes id = some nd) : (inode id).exec ans s = .ok (nd, s) := by
  simp [inode, h]

/-- An inode pointer that can be read points to an inode in memory. -/
theorem exec_inode_ok {t : FS} (h : (inode id).exec ans s = .ok (nd, t)) :
    s.inodes id = some nd ∧ t = s := by
  rw [inode, Prog.exec_step] at h
  cases hs : s.inodes id with
  | none => simp [hs] at h
  | some nd' =>
      simp only [hs, Except.ok.injEq, Prod.mk.injEq] at h
      exact ⟨by rw [h.1], h.2.symm⟩

/-- Code that begins by reading an inode and returns had it in memory. -/
theorem exec_inode_bind_ok {α : Type} {f : Inode → K α} {b : α} {t : FS}
    (h : (inode id >>= f).exec ans s = .ok (b, t)) : ∃ nd, s.inodes id = some nd := by
  obtain ⟨nd, u, hnode, -⟩ := Prog.exec_bind_ok.mp h
  exact ⟨nd, (exec_inode_ok hnode).1⟩

theorem exec_updInode (h : s.inodes id = some nd) {f : Inode → Inode} :
    (updInode id f).exec ans s = .ok ((), s.setInode id (f nd)) := by
  rw [updInode, Prog.exec_bind_of (exec_inode h)]
  rfl

theorem exec_inodeInitOwner {mode : Nat} (h : s.inodes id = some nd) (hd : s.inodes dir = some d) :
    (inodeInitOwner id dir mode).exec ans s = .ok ((), s.setInode id
      (nd.initOwner d (ans .currentFsuid) (ans .currentFsgid) mode)) := by
  rw [inodeInitOwner, Prog.exec_ask_bind, Prog.exec_ask_bind, Prog.exec_bind_of (exec_inode hd),
    exec_updInode h]

@[simp] theorem exec_iput : (iput id).exec ans s = .ok ((), s.dropInode id) := rfl

@[simp] theorem exec_dInstantiate {name : Name} :
    (dInstantiate dir name id).exec ans s = .ok ((), s.setDentry dir name (some id)) := rfl

@[simp] theorem exec_dDrop {name : Name} :
    (dDrop dir name).exec ans s = .ok ((), s.setDentry dir name none) := rfl

@[simp] theorem exec_ktime : ktime.exec ans s = .ok (ans .ktime, s) := rfl

end Exec

/-! ## How the updates of the state compose -/

namespace FS

variable {s : FS} {id id' : Nat} {nd nd' : Inode}

/-- A reference taken and dropped leaves the buffers as they were. -/
@[simp] theorem addRef_cancel (s : FS) (b : Int) : (s.addRef b 1).addRef b (-1) = s := by
  have hc : Function.update (Function.update s.bCount (toU64 b) (s.bCount (toU64 b) + 1))
      (toU64 b) (Function.update s.bCount (toU64 b) (s.bCount (toU64 b) + 1) (toU64 b) + -1)
      = s.bCount := by
    simp
  simp only [addRef, hc]

@[simp] theorem block_addRef (s : FS) (b c d : Int) : (s.addRef c d).block b = s.block b := rfl

@[simp] theorem block_setInode (s : FS) (b : Int) : (s.setInode id nd).block b = s.block b := rfl

@[simp] theorem block_markBlock (s : FS) (b : Int) (c : Nat) :
    (s.markBlock c).block b = s.block b := rfl

theorem setSbi_addRef (s : FS) (b d : Int) (v : SbInfo) :
    (s.addRef b d).setSbi v = (s.setSbi v).addRef b d := rfl

theorem writeBlock_addRef (s : FS) (b c d : Int) (v : Bytes) :
    (s.addRef c d).writeBlock b v = (s.writeBlock b v).addRef c d := rfl

@[simp] theorem inodes_setInode_self : (s.setInode id nd).inodes id = some nd := by
  simp [setInode]

theorem inodes_setInode_ne (h : id' ≠ id) : (s.setInode id nd).inodes id' = s.inodes id' := by
  simp [setInode, h]

@[simp] theorem setInode_setInode : (s.setInode id nd).setInode id nd' = s.setInode id nd' := by
  simp [setInode]

@[simp] theorem inodes_dropInode_self : (s.dropInode id).inodes id = none := by
  simp [dropInode]

theorem inodes_dropInode_ne (h : id' ≠ id) : (s.dropInode id).inodes id' = s.inodes id' := by
  simp [dropInode, h]

theorem dcache_setDentry {dir dir' : Nat} {name name' : Name} {x : Option Nat} :
    (s.setDentry dir name x).dcache dir' name'
      = if dir' = dir ∧ name' = name then x else s.dcache dir' name' := by
  show Function.update s.dcache dir (Function.update (s.dcache dir) name x) dir' name' = _
  by_cases hdir : dir' = dir
  · subst hdir
    by_cases hname : name' = name
    · simp [hname]
    · simp [hname]
  · simp [hdir]

@[simp] theorem block_writeBlock_self (s : FS) (b : Int) (v : Bytes) :
    (s.writeBlock b v).block b = v := by
  simp [block, writeBlock]

theorem block_writeBlock_ne {b c : Int} {v : Bytes} (h : toU64 b ≠ toU64 c) :
    (s.writeBlock c v).block b = s.block b := by
  simp [block, writeBlock, h]

end FS

end NaiveFS
