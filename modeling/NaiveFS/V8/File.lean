import NaiveFS.V8.Code

/-!
# The single-file module: reading, writing, write-back

`naive_file_read`, `naive_file_write` and `naive_write_inode` of
`naivefs-8/naivefs.c`, and what `simple_setattr` does to an inode.
-/

namespace NaiveFS.V8

open Bytes

/-- The address of `disk_inode->i_block[i]`. -/
def NaiveInodeInfo.iBlock (nii : NaiveInodeInfo) (i : Nat) : Nat := nii.diskInode + 12 + 4 * i

/-! ## Writing -/

/-- `disk_inode->i_blocks = cpu_to_le32(le32_to_cpu(disk_inode->i_blocks) + d)`. -/
def addBlocks (e : Endian) (nii : NaiveInodeInfo) (d : Int) (m : Bytes) : Bytes :=
  store32 e m (nii.diskInode + 8)
    (cpuToLe32 e (toU32 ((le32ToCpu e (load32 e m (nii.diskInode + 8)) : Int) + d)))

/-- Give block index `i` a block if it has none: `new_block_needed`, or nothing
when no block is free. -/
def fileWriteAttach (e : Endian) (sbi : SbInfo) (nii : NaiveInodeInfo) (i : Nat) :
    K (Option Bool) := do
  let p ← Prog.read fun s => load32 e s.mem (nii.iBlock i)
  if p ≠ 0 then pure (some false) else
  let newBlock ← naiveFindFreeBlock e sbi
  if newBlock < 0 then pure none else
  updMem fun m => store32 e m (nii.iBlock i) (cpuToLe32 e (toU32 newBlock))
  updMem (addBlocks e nii 1)
  pure (some true)

/-- Undo it after a failed read. -/
def fileWriteDetach (e : Endian) (sbi : SbInfo) (nii : NaiveInodeInfo) (i : Nat) : K Unit := do
  let p ← Prog.read fun s => le32ToCpu e (load32 e s.mem (nii.iBlock i))
  tryMem (naiveClearBit (toInt32 p) sbi.blockBitmap)
  updMem fun m => store32 e m (nii.iBlock i) 0
  updMem (addBlocks e nii (-1))

/-- How one round of the write loop ends: the loop is left (with the value of
`bytes_written`), or `n` bytes were written and `file_size` is now `size`. -/
inductive Round where
  | stop (written : Int)
  | next (n size : Nat)

/-- The end of a round, once the block `p` was read. A user copy that fails has
stored the bytes it did copy and zeros. -/
def fileWriteCopy (e : Endian) (id : Nat) (nii : NaiveInodeInfo) (i p pos : Nat)
    (data : List Byte) (fileSize : Nat) : K Round := do
  let blockOffset := pos % naiveBlockSize
  let n := min data.length (naiveBlockSize - blockOffset)
  let left : Nat ← Prog.ask (Call.copyFromUser i)
  updMem fun m => m.blit (bData p + blockOffset) (copiedFromUser data n left)
  if left ≠ 0 then
    brelse p
    pure (.stop (-EFAULT))
  else
  markBufferDirty p
  brelse p
  if pos + n > fileSize then
    updMem fun m => store32 e m (nii.diskInode + 44) (cpuToLe32 e (toU32 (pos + n : Nat)))
    updInode id fun nd => { nd with iSize := toU32 (pos + n : Nat) }
    pure (.next n (toU32 (pos + n : Nat)))
  else pure (.next n fileSize)

/-- One round of the loop of `naive_file_write`. -/
def fileWriteRound (e : Endian) (sbi : SbInfo) (id : Nat) (nii : NaiveInodeInfo) (pos : Nat)
    (data : List Byte) (fileSize : Nat) (written : Int) : K Round := do
  let i := toU32 (pos / naiveBlockSize : Nat)
  if naiveDirectBlocks ≤ i then pure (.stop written) else
  match ← fileWriteAttach e sbi nii i with
  | none => pure (.stop written)
  | some isNew =>
    let p ← Prog.read fun s => le32ToCpu e (load32 e s.mem (nii.iBlock i))
    if !(← sbBread (.fileWrite i) p) then
      if isNew then
        fileWriteDetach e sbi nii i
        pure (.stop written)
      else pure (.stop written)
    else fileWriteCopy e id nii i p pos data fileSize

/-- The loop of `naive_file_write` with `data` left to write; `fuel` bounds the
rounds, each of which writes a byte. Returns `bytes_written` and `pos`. -/
def fileWriteLoop (e : Endian) (sbi : SbInfo) (id : Nat) (nii : NaiveInodeInfo) :
    Nat → Nat → List Byte → Nat → Int → K (Int × Nat)
  | 0, pos, _, _, written => pure (written, pos)
  | fuel + 1, pos, data, fileSize, written => do
    if data = [] then pure (written, pos) else
    match ← fileWriteRound e sbi id nii pos data fileSize written with
    | .stop written => pure (written, pos)
    | .next n size =>
      fileWriteLoop e sbi id nii fuel (pos + n) (data.drop n) size (written + n)

/-- `naive_file_write(filp, buf, len, ppos)`: the return value and the new
`*ppos`. -/
def naiveFileWrite (e : Endian) (id : Nat) (data : List Byte) (pos : Nat) : K (Int × Nat) := do
  let nii ← naiveI id
  let sbi ← naiveSb
  let fileSize ← Prog.read fun s => le32ToCpu e (load32 e s.mem (nii.diskInode + 44))
  if toU64 (pos + data.length : Nat) > naiveMaxFileSize then pure (-EFBIG, pos) else
  let r ← fileWriteLoop e sbi id nii data.length pos data fileSize 0
  let ts ← ktime
  updInode id fun nd => { nd with iMtime := ts, iCtime := ts }
  markBufferDirty nii.inodeBh
  pure r

/-! ## Reading -/

/-- The loop of `naive_file_read` with `len` bytes to go; `out` is what the user
was given. Without a wrapped `pos + len` every round but the last copies a
byte, so `fuel = len` rounds are enough. -/
def fileReadLoop (e : Endian) (nii : NaiveInodeInfo) (fileSize : Nat) :
    Nat → Nat → Nat → List Byte → Int → K (Int × Nat × List Byte)
  | 0, pos, len, out, bytesRead =>
    if len = 0 then pure (bytesRead, pos, out) else Prog.fault .endless
  | fuel + 1, pos, len, out, bytesRead => do
    if len = 0 then pure (bytesRead, pos, out) else
    let i := toU32 (pos / naiveBlockSize : Nat)
    let p ← Prog.read fun s => le32ToCpu e (load32 e s.mem (nii.iBlock i))
    if naiveDirectBlocks ≤ i ∨ p = 0 then pure (bytesRead, pos, out) else
    if !(← sbBread (.fileRead i) p) then pure (bytesRead, pos, out) else
    let blockOffset := pos % naiveBlockSize
    let n := min (min len (naiveBlockSize - blockOffset)) (toU64 ((fileSize : Int) - pos))
    let d ← Prog.read fun s => s.mem.slice (bData p + blockOffset) n
    let left : Nat ← Prog.ask (Call.copyToUser i)
    brelse p
    if left ≠ 0 then pure (-EFAULT, pos, out ++ d.take (n - left)) else
    fileReadLoop e nii fileSize fuel (pos + n) (len - n) (out ++ d) (bytesRead + n)

/-- `naive_file_read(filp, buf, len, ppos)`: the return value, the new `*ppos` and
the bytes the user was given. -/
def naiveFileRead (e : Endian) (id len pos : Nat) : K (Int × Nat × List Byte) := do
  let nii ← naiveI id
  let fileSize ← Prog.read fun s => le32ToCpu e (load32 e s.mem (nii.diskInode + 44))
  if fileSize ≤ pos then pure (0, pos, []) else
  let len := if toU64 (pos + len : Nat) > fileSize then fileSize - pos else len
  let r ← fileReadLoop e nii fileSize len pos len [] 0
  let ts ← ktime
  updInode id fun nd => { nd with iAtime := ts }
  pure r

/-! ## Write-back and truncation -/

/-- The stores of `naive_write_inode`. -/
def writeDiskInode (e : Endian) (a : Nat) (nd : Inode) (m : Bytes) : Bytes :=
  let m := store32 e m a (cpuToLe32 e nd.iMode)
  let m := store32 e m (a + 44) (cpuToLe32 e (toU32 nd.iSize))
  let m := store32 e m (a + 48) (cpuToLe32 e nd.iUid)
  let m := store32 e m (a + 52) (cpuToLe32 e nd.iGid)
  let m := store32 e m (a + 56) (cpuToLe32 e nd.iNlink)
  let m := store32 e m (a + 60) (cpuToLe32 e (toU32 nd.iAtime.tvSec))
  let m := store32 e m (a + 68) (cpuToLe32 e (toU32 nd.iMtime.tvSec))
  store32 e m (a + 64) (cpuToLe32 e (toU32 nd.iCtime.tvSec))

def naiveWriteInode (e : Endian) (id : Nat) : K Int := do
  let nd ← inode id
  match nd.iPrivate with
  | none => pure (- EIO)
  | some nii =>
    updMem (writeDiskInode e nii.diskInode nd)
    markBufferDirty nii.inodeBh
    pure 0

/-- `sb->s_maxbytes`, which the module leaves at the kernel's `MAX_NON_LFS`. -/
abbrev sMaxbytes : Nat := 2 ^ 31 - 1

/-- `simple_setattr` with a new size (`truncate`, `ftruncate`, `O_TRUNC`): the VFS
size changes and the inode is dirty. -/
def simpleSetattr (id size : Nat) : K Int := do
  if sMaxbytes < size then pure (-EFBIG) else
  updInode id fun nd => { nd with iSize := size, iDirty := true }
  pure 0

/-- What is done with inodes in memory. -/
inductive Action where
  | op (o : Op)
  | write (id : Nat) (data : List Byte) (pos : Nat)
  | read (id len pos : Nat)
  | setattr (id size : Nat)
  | writeInode (id : Nat)
  | freeBlocks (id : Nat)

/-- `naive_free_file_blocks` on an inode's record, as a call of its own. -/
def freeInodeBlocks (e : Endian) (id : Nat) : K Int := do
  let nii ← naiveI id
  naiveFreeFileBlocks e nii.diskInode
  pure 0

/-- The code of an action; the result is its return value. -/
def Action.prog (e : Endian) : Action → K Int
  | .op o => o.prog e
  | .write id data pos => do
    let (r, _) ← naiveFileWrite e id data pos
    pure r
  | .read id len pos => do
    let (r, _) ← naiveFileRead e id len pos
    pure r
  | .setattr id size => simpleSetattr id size
  | .writeInode id => naiveWriteInode e id
  | .freeBlocks id => freeInodeBlocks e id

/-- `act`, answered by `ans`, returns `r` and leaves `t`. -/
def Acts (e : Endian) (s : FS) (act : Action) (ans : Answers) (r : Int) (t : FS) : Prop :=
  (act.prog e).exec ans s = .ok (r, t)

/-- A run of actions that satisfy `P`. -/
def Actions (e : Endian) (P : FS → Action → Prop) : FS → FS → Prop :=
  Relation.ReflTransGen fun s t => ∃ act ans r, P s act ∧ Acts e s act ans r t

/-- The action returns, and its result and the state it leaves pass the check. -/
def returnsTo (e : Endian) (act : Action) (ans : Answers) (s : FS) (check : Int → FS → Bool) :
    Bool :=
  match (act.prog e).exec ans s with
  | .ok (r, t) => check r t
  | .error _ => false

theorem exists_of_returnsTo {e : Endian} {act : Action} {ans : Answers} {s : FS}
    {check : Int → FS → Bool} (h : returnsTo e act ans s check = true) :
    ∃ r t, Acts e s act ans r t ∧ check r t = true := by
  unfold returnsTo at h
  split at h
  · rename_i r t ht
    exact ⟨r, t, ht, h⟩
  · cases h

/-- The actions all return and the state they leave passes the check. -/
def actsTo (e : Endian) : List (Action × Answers) → FS → (FS → Bool) → Bool
  | [], s, check => check s
  | (act, ans) :: acts, s, check =>
    match (act.prog e).exec ans s with
    | .ok (_, t) => actsTo e acts t check
    | .error _ => false

theorem exists_of_actsTo {e : Endian} {P : FS → Action → Prop} {acts : List (Action × Answers)}
    {s : FS} {check : FS → Bool} (hP : ∀ s x, x ∈ acts → P s x.1)
    (h : actsTo e acts s check = true) : ∃ t, Actions e P s t ∧ check t = true := by
  induction acts generalizing s with
  | nil => exact ⟨s, .refl, h⟩
  | cons x acts ih =>
      obtain ⟨act, ans⟩ := x
      rw [actsTo] at h
      split at h
      · rename_i r u hu
        obtain ⟨t, ht, hcheck⟩ := ih (fun s x hx => hP s x (by simp [hx])) h
        exact ⟨t, .head ⟨act, ans, r, hP s (act, ans) (by simp), hu⟩ ht, hcheck⟩
      · cases h

end NaiveFS.V8
