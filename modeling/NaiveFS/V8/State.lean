import NaiveFS.Lib.Prog
import NaiveFS.State

/-!
# The single-file module: memory and kernel state (`naivefs-8/naivefs.c`)

The cached device is one byte array: block `b` occupies the bytes from
`512 * b` on, and `bh->b_data` and the pointers derived from it are addresses
in it. The module runs on a host of either byte order.
-/

namespace NaiveFS.V8

open Bytes

/-! ## Words in memory -/

/-- The byte order of the host. -/
inductive Endian where
  | little | big
  deriving DecidableEq

/-- The byte swap of a 32-bit word. -/
def swab32 (v : Nat) : Nat :=
  v % 256 * 16777216 + v / 256 % 256 * 65536 + v / 65536 % 256 * 256 + v / 16777216 % 256

def le32ToCpu : Endian → Nat → Nat
  | .little, v => v
  | .big, v => swab32 v

def cpuToLe32 : Endian → Nat → Nat := le32ToCpu

/-- Load a 32-bit word as the host does. -/
def load32 (e : Endian) (m : Bytes) (a : Nat) : Nat := le32ToCpu e (m.getLE32 a)

/-- Store a 32-bit word as the host does. -/
def store32 (e : Endian) (m : Bytes) (a v : Nat) : Bytes := m.putLE32 a (le32ToCpu e v)

/-- The swap reverses four bytes. -/
theorem swab32_digits {a b c d : Nat} (ha : a < 256) (hb : b < 256) (hc : c < 256)
    (hd : d < 256) :
    swab32 (a + 256 * b + 65536 * c + 16777216 * d) = d + 256 * c + 65536 * b + 16777216 * a := by
  unfold swab32
  omega

theorem swab32_swab32 {v : Nat} (h : v < 2 ^ 32) : swab32 (swab32 v) = v := by
  have hv : v = v % 256 + 256 * (v / 256 % 256) + 65536 * (v / 65536 % 256)
      + 16777216 * (v / 16777216) := by omega
  rw [hv, swab32_digits (by omega) (by omega) (by omega) (by omega),
    swab32_digits (by omega) (by omega) (by omega) (by omega)]

/-- A little-endian field reads alike on both hosts. -/
theorem le32ToCpu_load32 (e : Endian) (m : Bytes) (a : Nat) :
    le32ToCpu e (load32 e m a) = m.getLE32 a := by
  cases e with
  | little => rfl
  | big => exact swab32_swab32 (getLE32_lt m a)

theorem load32_eq_zero {e : Endian} {m : Bytes} {a : Nat} (h : m.getLE32 a = 0) :
    load32 e m a = 0 := by
  rw [load32, h]
  cases e <;> rfl

theorem store32_out {e : Endian} {m : Bytes} {a v i : Nat} (h : i < a ∨ a + 4 ≤ i) :
    store32 e m a v i = m i := putLE32_out h

/-! ## Layout -/

abbrev naiveDirectBlocks : Nat := 8
abbrev naiveRootIno : Nat := 1
abbrev naiveBlockBitmapBlock : Nat := 2
abbrev naiveInodeBitmapBlock : Nat := 3

/-- `sizeof(struct naive_disk_inode)`: the 452 padding bytes do not end the
structure with its block. -/
abbrev sizeofDiskInode : Nat := 524

/-- `bh->b_data` of block `b`. -/
def bData (b : Nat) : Nat := naiveBlockSize * b

/-! ## Kernel state -/

structure NaiveInodeInfo where
  /-- The address of the `naive_disk_inode`. -/
  diskInode : Nat
  /-- The block `inode_bh` is the buffer of. -/
  inodeBh : Nat
  deriving DecidableEq

/-- The `i_op` and `i_fop` tables. -/
inductive Operations where
  | none | dir | file
  deriving DecidableEq

structure Inode where
  iIno : Nat := 0
  iMode : Nat := 0
  iUid : Nat := 0
  iGid : Nat := 0
  iSize : Int := 0
  iNlink : Nat := 0
  iAtime : Timespec := default
  iMtime : Timespec := default
  iCtime : Timespec := default
  iOp : Operations := .none
  iDirty : Bool := false
  iPrivate : Option NaiveInodeInfo := none

def Inode.setTimes (nd : Inode) (ts : Timespec) : Inode :=
  { nd with iAtime := ts, iMtime := ts, iCtime := ts }

/-- The owner, group and mode `inode_init_owner` gives an inode created in
`dir`, or one without a directory. -/
def Inode.initOwner (nd : Inode) (dir : Option Inode) (uid gid mode : Nat) : Inode :=
  match dir with
  | some d =>
    if d.iMode &&& sIsgid = 0 then { nd with iUid := uid, iGid := gid, iMode := mode }
    else { nd with
      iUid := uid, iGid := d.iGid, iMode := if sIsdir mode then mode ||| sIsgid else mode }
  | none => { nd with iUid := uid, iGid := gid, iMode := mode }

/-- `struct naive_sb_info`: three buffers, two addresses, four `__le32`. -/
structure SbInfo where
  sbBh : Nat := 0
  blockBitmapBh : Nat := 0
  inodeBitmapBh : Nat := 0
  blockBitmap : Nat := 0
  inodeBitmap : Nat := 0
  inodeTableStart : Nat := 0
  dataBlocksStart : Nat := 0
  inodesCount : Nat := 0
  blocksCount : Nat := 0

/-- `sb->s_fs_info`: NULL, a live structure, or one that was freed. -/
inductive SbPtr where
  | null
  | live (sbi : SbInfo)
  | freed

structure FS where
  mem : Bytes
  bDirty : Nat → Bool := fun _ => false
  bCount : Nat → Int := fun _ => 0
  sFsInfo : SbPtr := .null
  inodes : Nat → Option Inode := fun _ => none
  nextInode : Nat := 0
  dcache : Nat → Name → Option Nat := fun _ _ => none
  sRoot : Option Nat := none

namespace FS

def setInode (s : FS) (id : Nat) (nd : Inode) : FS :=
  { s with inodes := Function.update s.inodes id (some nd) }

def dropInode (s : FS) (id : Nat) : FS :=
  { s with inodes := Function.update s.inodes id none }

def setDentry (s : FS) (dir : Nat) (name : Name) (id : Option Nat) : FS :=
  { s with dcache := Function.update s.dcache dir (Function.update (s.dcache dir) name id) }

def addRef (s : FS) (b : Nat) (d : Int) : FS :=
  { s with bCount := Function.update s.bCount b (s.bCount b + d) }

def markDirty (s : FS) (b : Nat) : FS := { s with bDirty := Function.update s.bDirty b true }

def setInfo (s : FS) (p : SbPtr) : FS := { s with sFsInfo := p }

def setMem (s : FS) (m : Bytes) : FS := { s with mem := m }

/-- Put a new inode where `new_inode` allocates it. -/
def withNew (s : FS) (nd : Inode) : FS :=
  { s.setInode s.nextInode nd with nextInode := s.nextInode + 1 }

variable {s : FS} {id id' : Nat} {nd nd' : Inode}

@[simp] theorem inodes_setInode_self : (s.setInode id nd).inodes id = some nd := by
  simp [setInode]

theorem inodes_setInode_ne (h : id' ≠ id) : (s.setInode id nd).inodes id' = s.inodes id' := by
  simp [setInode, h]

@[simp] theorem setInode_setInode : (s.setInode id nd).setInode id nd' = s.setInode id nd' := by
  simp [setInode]

@[simp] theorem inodes_dropInode_self : (s.dropInode id).inodes id = none := by
  simp [dropInode]

theorem inodes_dropInode_ne (h : id' ≠ id) : (s.dropInode id).inodes id' = s.inodes id' := by
  simp [dropInode, h]

@[simp] theorem inodes_withNew_self : (s.withNew nd).inodes s.nextInode = some nd :=
  inodes_setInode_self

@[simp] theorem setInode_withNew :
    (s.withNew nd).setInode s.nextInode nd' = s.withNew nd' := by
  unfold withNew setInode
  simp

theorem dcache_setDentry {dir dir' : Nat} {name name' : Name} {x : Option Nat} :
    (s.setDentry dir name x).dcache dir' name'
      = if dir' = dir ∧ name' = name then x else s.dcache dir' name' := by
  show Function.update s.dcache dir (Function.update (s.dcache dir) name x) dir' name' = _
  by_cases hdir : dir' = dir
  · subst hdir
    by_cases hname : name' = name
    · simp [hname]
    · simp [hname]
  · simp [hdir]

end FS

/-! ## Calls out of the module -/

/-- The `sb_bread` calls of the source. -/
inductive Site where
  | fillSuper | fillSuperBlockBitmap | fillSuperInodeBitmap | fillSuperRoot | create
  | fileRead (i : Nat) | fileWrite (i : Nat)
  deriving DecidableEq

/-- The `kmalloc`/`kzalloc` calls of the source. -/
inductive AllocSite where
  | sbInfo | rootInfo | inodeInfo
  deriving DecidableEq

/-- A call answered by the environment; a loop passes its block index. -/
inductive Call where
  | sbBread (site : Site) (b : Nat)
  | newInode
  | kmalloc (site : AllocSite)
  | dMakeRoot
  | copyFromUser (i : Nat)
  | copyToUser (i : Nat)
  | ktime
  | currentFsuid
  | currentFsgid
  deriving DecidableEq

/-- The type of the answer: success for an allocation or a read, the number of
bytes not copied for a user copy. -/
@[reducible] def Call.Ans : Call → Type
  | .sbBread .. | .newInode | .kmalloc _ | .dMakeRoot => Bool
  | .copyFromUser _ | .copyToUser _ | .currentFsuid | .currentFsgid => Nat
  | .ktime => Timespec

abbrev Answers := (e : Call) → e.Ans

/-- The answers when nothing fails, at time `ts`, for user `uid:gid`. -/
def Answers.good (ts : Timespec) (uid gid : Nat) : Answers
  | .sbBread .. | .newInode | .kmalloc _ | .dMakeRoot => true
  | .copyFromUser _ | .copyToUser _ => 0
  | .currentFsuid => uid
  | .currentFsgid => gid
  | .ktime => ts

/-- Undefined behaviour the code can reach. -/
inductive Fault where
  /-- An access below the start of memory. -/
  | address (a : Int)
  /-- An `int` counter passes its maximum. -/
  | overflow
  | noInode (id : Nat)
  | noInfo (id : Nat)
  | noSbi
  /-- A loop that makes no progress. -/
  | endless
  deriving DecidableEq, Repr

abbrev K := Prog FS Call Call.Ans Fault

/-! ## Kernel functions the module calls -/

def sbBread (site : Site) (b : Nat) : K Bool := do
  let ok : Bool ← Prog.ask (Call.sbBread site b)
  if ok then
    Prog.modify (·.addRef b 1)
    pure true
  else pure false

def brelse (b : Nat) : K Unit := Prog.modify (·.addRef b (-1))

def markBufferDirty (b : Nat) : K Unit := Prog.modify (·.markDirty b)

/-- Store into memory. -/
def updMem (f : Bytes → Bytes) : K Unit := Prog.modify fun s => s.setMem (f s.mem)

/-- Store into memory through addresses that may be wrong. -/
def tryMem (f : Bytes → Except Fault Bytes) : K Unit := Prog.step fun s => do
  let m ← f s.mem
  pure ((), s.setMem m)

/-- Dereference an inode pointer. -/
def inode (id : Nat) : K Inode := Prog.step fun s =>
  match s.inodes id with
  | some nd => .ok (nd, s)
  | none => .error (.noInode id)

def updInode (id : Nat) (f : Inode → Inode) : K Unit := do
  let nd ← inode id
  Prog.modify (·.setInode id (f nd))

/-- Dereference `NAIVE_I(inode)`, the structure `naive_create` stored. -/
def naiveI (id : Nat) : K NaiveInodeInfo := Prog.step fun s =>
  match (s.inodes id).bind (·.iPrivate) with
  | some nii => .ok (nii, s)
  | none => .error (.noInfo id)

/-- Dereference `NAIVE_SB(sb)`. -/
def naiveSb : K SbInfo := Prog.step fun s =>
  match s.sFsInfo with
  | .live sbi => .ok (sbi, s)
  | _ => .error .noSbi

/-- Assign to fields of `sbi`. -/
def updSbi (f : SbInfo → SbInfo) : K Unit := do
  let sbi ← naiveSb
  Prog.modify (·.setInfo (.live (f sbi)))

def newInode : K (Option Nat) := do
  let ok : Bool ← Prog.ask Call.newInode
  if ok then
    let id ← Prog.read (·.nextInode)
    Prog.modify (·.withNew { iNlink := 1 })
    pure (some id)
  else pure none

/-- `inode_init_owner(&nop_mnt_idmap, inode, dir, mode)`. -/
def inodeInitOwner (id : Nat) (dir : Option Inode) (mode : Nat) : K Unit := do
  let uid : Nat ← Prog.ask Call.currentFsuid
  let gid : Nat ← Prog.ask Call.currentFsgid
  updInode id fun nd => nd.initOwner dir uid gid mode

/-- `inode_dec_link_count`; the count is unsigned. -/
def inodeDecLinkCount (id : Nat) : K Unit :=
  updInode id fun nd => { nd with iNlink := (nd.iNlink + 2 ^ 32 - 1) % 2 ^ 32, iDirty := true }

def ktime : K Timespec := Prog.ask Call.ktime

/-- `d_add`. -/
def dAdd (dir : Nat) (name : Name) (id : Nat) : K Unit :=
  Prog.modify (·.setDentry dir name (some id))

/-! ## How the kernel functions run -/

section Exec

variable {ans : Answers} {s t : FS} {id : Nat} {nd : Inode} {sbi : SbInfo}

theorem exec_sbBread_ok {site : Site} {b : Nat} (h : ans (.sbBread site b) = true) :
    (sbBread site b).exec ans s = .ok (true, s.addRef b 1) := by
  have h' : (ans (.sbBread site b) : Bool) = true := h
  simp [sbBread, h']

theorem exec_sbBread_fail {site : Site} {b : Nat} (h : ans (.sbBread site b) = false) :
    (sbBread site b).exec ans s = .ok (false, s) := by
  have h' : (ans (.sbBread site b) : Bool) = false := h
  simp [sbBread, h']

theorem exec_newInode_ok (h : ans .newInode = true) :
    newInode.exec ans s = .ok (some s.nextInode, s.withNew { iNlink := 1 }) := by
  have h' : (ans .newInode : Bool) = true := h
  simp [newInode, h']

theorem exec_newInode_fail (h : ans .newInode = false) :
    newInode.exec ans s = .ok (none, s) := by
  have h' : (ans .newInode : Bool) = false := h
  simp [newInode, h']

@[simp] theorem exec_brelse {b : Nat} : (brelse b).exec ans s = .ok ((), s.addRef b (-1)) := rfl

@[simp] theorem exec_markBufferDirty {b : Nat} :
    (markBufferDirty b).exec ans s = .ok ((), s.markDirty b) := rfl

@[simp] theorem exec_updMem {f : Bytes → Bytes} :
    (updMem f).exec ans s = .ok ((), s.setMem (f s.mem)) := rfl

@[simp] theorem exec_ktime : ktime.exec ans s = .ok (ans .ktime, s) := rfl

@[simp] theorem exec_dAdd {dir : Nat} {name : Name} :
    (dAdd dir name id).exec ans s = .ok ((), s.setDentry dir name (some id)) := rfl

theorem exec_tryMem {f : Bytes → Except Fault Bytes} {m : Bytes} (h : f s.mem = .ok m) :
    (tryMem f).exec ans s = .ok ((), s.setMem m) := by
  rw [tryMem, Prog.exec_step, h]
  rfl

theorem exec_inode (h : s.inodes id = some nd) : (inode id).exec ans s = .ok (nd, s) := by
  simp [inode, h]

/-- An inode pointer that can be read points to an inode in memory. -/
theorem exec_inode_ok (h : (inode id).exec ans s = .ok (nd, t)) :
    s.inodes id = some nd ∧ t = s := by
  rw [inode, Prog.exec_step] at h
  cases hs : s.inodes id with
  | none => simp [hs] at h
  | some nd' =>
      simp only [hs, Except.ok.injEq, Prod.mk.injEq] at h
      exact ⟨by rw [h.1], h.2.symm⟩

theorem exec_updInode (h : s.inodes id = some nd) {f : Inode → Inode} :
    (updInode id f).exec ans s = .ok ((), s.setInode id (f nd)) := by
  rw [updInode, Prog.exec_bind_of (exec_inode h)]
  rfl

theorem exec_inodeInitOwner {dir : Option Inode} {mode : Nat} (h : s.inodes id = some nd) :
    (inodeInitOwner id dir mode).exec ans s = .ok ((), s.setInode id
      (nd.initOwner dir (ans .currentFsuid) (ans .currentFsgid) mode)) := by
  rw [inodeInitOwner, Prog.exec_ask_bind, Prog.exec_ask_bind, exec_updInode h]

theorem exec_naiveI {nii : NaiveInodeInfo} (h : s.inodes id = some nd)
    (hp : nd.iPrivate = some nii) : (naiveI id).exec ans s = .ok (nii, s) := by
  rw [naiveI, Prog.exec_step, h, Option.bind_some, hp]

theorem exec_naiveSb (h : s.sFsInfo = .live sbi) : naiveSb.exec ans s = .ok (sbi, s) := by
  rw [naiveSb, Prog.exec_step, h]

theorem exec_updSbi (h : s.sFsInfo = .live sbi) {f : SbInfo → SbInfo} :
    (updSbi f).exec ans s = .ok ((), s.setInfo (.live (f sbi))) := by
  rw [updSbi, Prog.exec_bind_of (exec_naiveSb h)]
  rfl

end Exec

end NaiveFS.V8
