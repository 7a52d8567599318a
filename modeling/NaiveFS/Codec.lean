import NaiveFS.Run

/-!
# The inode codec

What `naive_iget` reads back from a block that `naive_write_inode` wrote. The words
of the disk inode first, then the two functions over a block, then a run in which
other inodes are written, loaded and evicted in between.
-/

namespace NaiveFS

open Bytes

/-! ## What is written and what is loaded -/

/-- The fields hold values of their types, the size and the block count are those of a
file or directory, and the times can be stored. -/
structure Inode.Valid (nd : Inode) : Prop where
  ino : nd.iIno < 2 ^ 64
  mode : nd.iMode < 2 ^ 16
  uid : nd.iUid < 2 ^ 32
  gid : nd.iGid < 2 ^ 32
  nlink : nd.iNlink < 2 ^ 32
  size : 0 ≤ nd.iSize ∧ nd.iSize ≤ 4096
  count : -2 ^ 31 ≤ nd.blockCount ∧ nd.blockCount ≤ 8
  pointers : ∀ i, i < 8 → -2 ^ 31 ≤ nd.blockPointers i ∧ nd.blockPointers i < 2 ^ 31
  atime : 0 ≤ nd.iAtime.tvSec ∧ nd.iAtime.tvSec < 2 ^ 32
  mtime : 0 ≤ nd.iMtime.tvSec ∧ nd.iMtime.tvSec < 2 ^ 32
  ctime : 0 ≤ nd.iCtime.tvSec ∧ nd.iCtime.tvSec < 2 ^ 32

instance (nd : Inode) : Decidable nd.Valid :=
  decidable_of_iff (nd.iIno < 2 ^ 64 ∧ nd.iMode < 2 ^ 16 ∧ nd.iUid < 2 ^ 32 ∧ nd.iGid < 2 ^ 32 ∧
    nd.iNlink < 2 ^ 32 ∧ (0 ≤ nd.iSize ∧ nd.iSize ≤ 4096) ∧
    (-2 ^ 31 ≤ nd.blockCount ∧ nd.blockCount ≤ 8) ∧
    (∀ i, i < 8 → -2 ^ 31 ≤ nd.blockPointers i ∧ nd.blockPointers i < 2 ^ 31) ∧
    (0 ≤ nd.iAtime.tvSec ∧ nd.iAtime.tvSec < 2 ^ 32) ∧
    (0 ≤ nd.iMtime.tvSec ∧ nd.iMtime.tvSec < 2 ^ 32) ∧
    0 ≤ nd.iCtime.tvSec ∧ nd.iCtime.tvSec < 2 ^ 32)
    ⟨fun ⟨hino, hmode, huid, hgid, hnlink, hsize, hcount, hptr, hatime, hmtime, hctime⟩ =>
      ⟨hino, hmode, huid, hgid, hnlink, hsize, hcount, hptr, hatime, hmtime, hctime⟩,
    fun h => ⟨h.ino, h.mode, h.uid, h.gid, h.nlink, h.size, h.count, h.pointers, h.atime,
      h.mtime, h.ctime⟩⟩

/-- The loaded inode agrees with the one that was written. -/
structure Inode.Agrees (nd' nd : Inode) : Prop where
  mode : nd'.iMode = nd.iMode
  uid : nd'.iUid = nd.iUid
  gid : nd'.iGid = nd.iGid
  size : nd'.iSize = nd.iSize
  nlink : nd'.iNlink = nd.iNlink
  atime : nd'.iAtime.tvSec = nd.iAtime.tvSec
  mtime : nd'.iMtime.tvSec = nd.iMtime.tvSec
  ctime : nd'.iCtime.tvSec = nd.iCtime.tvSec
  count : nd'.blockCount = nd.blockCount
  pointers : ∀ i, i < 8 → nd'.blockPointers i = nd.blockPointers i

/-- The inode-table block of number `ino` is not the superblock's. -/
def FS.InTable (s : FS) (ino : Nat) : Prop :=
  toU64 (inodeTableBlock (s.block naiveSuperBlockBlock) ino) ≠ naiveSuperBlockBlock

instance (s : FS) (ino : Nat) : Decidable (s.InTable ino) := inferInstanceAs (Decidable (_ ≠ _))

/-- Inodes with other numbers are written back; any inode is loaded or evicted. -/
inductive Meanwhile (ino : Nat) (s : FS) : FS → Prop where
  | refl : Meanwhile ino s s
  | write {t u : FS} {id : Nat} {nd : Inode} {ans : Answers} {r : Int} :
      Meanwhile ino s t → t.inodes id = some nd → nd.iIno < 2 ^ 64 → nd.iIno ≠ ino →
      t.InTable nd.iIno → (naiveWriteInode id).exec ans t = .ok (r, u) → Meanwhile ino s u
  | load {t u : FS} {ino' : Nat} {ans : Answers} {r : Except Int Nat} :
      Meanwhile ino s t → (naiveIget ino').exec ans t = .ok (r, u) → Meanwhile ino s u
  | evict {t : FS} (id : Nat) : Meanwhile ino s t → Meanwhile ino s (t.dropInode id)

/-- The inode `id`, which is `nd`, survives its write-back: the write ends, and whatever is
done with other inodes, loading the number ends with an inode that agrees. -/
structure Survives (s : FS) (id : Nat) (nd : Inode) : Prop where
  writes : ∀ ans : Answers, ans (.sbBread .writeInode 0
      (inodeTableBlock (s.block naiveSuperBlockBlock) nd.iIno)) = true →
    ∃ t, (naiveWriteInode id).exec ans s = .ok (0, t)
  loads : ∀ (ans ans' : Answers) (t u : FS), (naiveWriteInode id).exec ans s = .ok (0, t) →
    Meanwhile nd.iIno t u → u.findHashed nd.iIno = none → ans' (.igetLocked nd.iIno) = true →
    ans' (.sbBread .iget 0 (inodeTableBlock (s.block naiveSuperBlockBlock) nd.iIno)) = true →
    ∃ id' v nd', (naiveIget nd.iIno).exec ans' u = .ok (.ok id', v) ∧
      v.inodes id' = some nd' ∧ nd'.Agrees nd

/-- What is loaded after the inode `id`, which is `nd`, was written back does not depend on
what is done with other inodes. -/
def LoadsOne (s : FS) (id : Nat) (nd : Inode) : Prop :=
  ∃ nd', ∀ (ans ans' : Answers) (t u : FS), (naiveWriteInode id).exec ans s = .ok (0, t) →
    Meanwhile nd.iIno t u → u.findHashed nd.iIno = none → ans' (.igetLocked nd.iIno) = true →
    ans' (.sbBread .iget 0 (inodeTableBlock (s.block naiveSuperBlockBlock) nd.iIno)) = true →
    ∃ id' v, (naiveIget nd.iIno).exec ans' u = .ok (.ok id', v) ∧ v.inodes id' = some nd'

/-- What `naive_iget` makes of a block with `nd` in it: it takes the word of the union for
the size, whichever of the two `naive_write_inode` stored there, and leaves the pointers
from `block_count` on as they are in the new inode. -/
def Inode.reloaded (nd new : Inode) : Inode :=
  { new with
    iMode := nd.iMode
    iUid := nd.iUid
    iGid := nd.iGid
    iSize := if nd.isDir then nd.iSize.tdiv naiveDirRecordSize else nd.iSize
    iNlink := nd.iNlink
    iAtime := ⟨nd.iAtime.tvSec, 0⟩
    iMtime := ⟨nd.iMtime.tvSec, 0⟩
    iCtime := ⟨nd.iCtime.tvSec, 0⟩
    blockCount := nd.blockCount
    blockPointers := fun i =>
      if (i : Int) < nd.blockCount then nd.blockPointers i else new.blockPointers i }

/-! ## The two functions over a block -/

section Codec

variable {nd new : Inode} {d v : Bytes}

/-- The pointer loop writes the words of `block` it is to write, and no others. -/
theorem writePointers_words (nd : Inode) {n i : Nat} (hn : i + n ≤ 8) (d : Bytes) :
    ∃ v, writePointers nd n i d = .ok v ∧
      (∀ k, i ≤ k → k < i + n → v.getLE32 (12 + 4 * k) = toU32 (nd.blockPointers k)) ∧
      ∀ off, off + 4 ≤ 12 + 4 * i ∨ 12 + 4 * (i + n) ≤ off → v.getLE32 off = d.getLE32 off := by
  induction n generalizing i d with
  | zero => exact ⟨d, rfl, fun k hk hk' => by omega, fun _ _ => rfl⟩
  | succ n ih =>
    obtain ⟨v, hv, hin, hout⟩ :=
      ih (i := i + 1) (by omega) (d.putLE32 (12 + 4 * i) (toU32 (nd.blockPointers i)))
    refine ⟨v, ?_, fun k hk hk' => ?_, fun off hoff => ?_⟩
    · rw [writePointers]
      unfold naiveBlockPerFile
      rw [if_neg (by omega)]
      exact hv
    · rcases Nat.eq_or_lt_of_le hk with rfl | hlt
      · rw [hout _ (by omega), getLE32_putLE32, Nat.mod_eq_of_lt (toU32_lt _)]
      · exact hin k hlt (by omega)
    · rw [hout off (by omega), getLE32_putLE32_ne (by omega)]

/-- The loop of `naive_iget` reads them. -/
theorem readPointers_words {n i : Nat} (hn : i + n ≤ 8) (p : Nat → Int) :
    readPointers d n i p = .ok fun k =>
      if i ≤ k ∧ k < i + n then toInt32 (DiskInode.block d k) else p k := by
  induction n generalizing i p with
  | zero =>
    rw [readPointers]
    congr 1
    funext k
    rw [if_neg (by omega)]
  | succ n ih =>
    rw [readPointers]
    unfold naiveBlockPerFile
    rw [if_neg (by omega), ih (by omega)]
    congr 1
    funext k
    by_cases hk : k = i
    · subst hk
      simp
    · by_cases hin : i + 1 ≤ k ∧ k < i + 1 + n
      · rw [if_pos hin, if_pos (by omega)]
      · rw [if_neg hin, if_neg (by omega), Function.update_of_ne hk]

/-- The words of a disk inode that holds `nd`. -/
structure Inode.InBlock (nd : Inode) (v : Bytes) : Prop where
  mode : DiskInode.mode v = nd.iMode % 2 ^ 32
  count : DiskInode.blockCount v = toU32 nd.blockCount
  block : ∀ k : Nat, (k : Int) < nd.blockCount → DiskInode.block v k = toU32 (nd.blockPointers k)
  size : DiskInode.fileSize v =
    toU32 (if nd.isDir then nd.iSize.tdiv naiveDirRecordSize else nd.iSize)
  uid : DiskInode.iUid v = nd.iUid % 2 ^ 32
  gid : DiskInode.iGid v = nd.iGid % 2 ^ 32
  nlink : DiskInode.iNlink v = nd.iNlink % 2 ^ 32
  atime : DiskInode.iAtime v = toU32 nd.iAtime.tvSec
  mtime : DiskInode.iMtime v = toU32 nd.iMtime.tvSec
  ctime : DiskInode.iCtime v = toU32 nd.iCtime.tvSec

/-- `naive_write_inode` leaves a disk inode that holds the inode. -/
theorem encodeInode_inBlock (hcount : nd.blockCount ≤ 8) (d : Bytes) :
    ∃ v, encodeInode nd d = .ok v ∧ nd.InBlock v := by
  obtain ⟨w, hw, hin, hout⟩ := writePointers_words nd (n := nd.blockCount.toNat) (i := 0)
    (by omega) (((d.putLE32 0 nd.iMode).putLE32 4 nd.iIno).putLE32 8 (toU32 nd.blockCount))
  let x := w.putLE32 44 (toU32 (if nd.isDir then nd.iSize.tdiv naiveDirRecordSize else nd.iSize))
  let v := (((((x.putLE32 48 nd.iUid).putLE32 52 nd.iGid).putLE32 56 nd.iNlink).putLE32 60
    (toU32 nd.iAtime.tvSec)).putLE32 68 (toU32 nd.iMtime.tvSec)).putLE32 64
    (toU32 nd.iCtime.tvSec)
  refine ⟨v, ?_, ?_⟩
  · have hsize : (if nd.isDir then w.putLE32 44 (toU32 (nd.iSize.tdiv naiveDirRecordSize))
        else w.putLE32 44 (toU32 nd.iSize)) = x := by
      show _ = w.putLE32 44 _
      split <;> rfl
    rw [encodeInode, hw]
    exact congrArg (fun y : Bytes => Except.ok (((((((y.putLE32 48 nd.iUid).putLE32 52
      nd.iGid).putLE32 56 nd.iNlink).putLE32 60 (toU32 nd.iAtime.tvSec)).putLE32 68
      (toU32 nd.iMtime.tvSec)).putLE32 64 (toU32 nd.iCtime.tvSec)))) hsize
  · -- the later words leave the earlier ones alone
    have hbefore : ∀ off, off + 4 ≤ 44 → v.getLE32 off = w.getLE32 off := by
      intro off hoff
      simp (disch := omega) only [v, x, getLE32_putLE32_ne]
    have hlt := toU32_lt
    constructor
    · rw [DiskInode.mode, hbefore _ (by omega), hout _ (by omega)]
      simp (disch := omega) only [getLE32_putLE32_ne, getLE32_putLE32]
    · rw [DiskInode.blockCount, hbefore _ (by omega), hout _ (by omega), getLE32_putLE32,
        Nat.mod_eq_of_lt (hlt _)]
    · intro k hk
      rw [DiskInode.block, hbefore _ (by omega), hin k (by omega) (by omega)]
    · simp (disch := omega) only [DiskInode.fileSize, v, x, getLE32_putLE32_ne, getLE32_putLE32,
        Nat.mod_eq_of_lt (hlt _)]
    · simp (disch := omega) only [DiskInode.iUid, v, x, getLE32_putLE32_ne, getLE32_putLE32]
    · simp (disch := omega) only [DiskInode.iGid, v, x, getLE32_putLE32_ne, getLE32_putLE32]
    · simp (disch := omega) only [DiskInode.iNlink, v, x, getLE32_putLE32_ne, getLE32_putLE32]
    · simp (disch := omega) only [DiskInode.iAtime, v, x, getLE32_putLE32_ne, getLE32_putLE32,
        Nat.mod_eq_of_lt (hlt _)]
    · simp (disch := omega) only [DiskInode.iMtime, v, x, getLE32_putLE32_ne, getLE32_putLE32,
        Nat.mod_eq_of_lt (hlt _)]
    · simp only [DiskInode.iCtime, v, getLE32_putLE32, Nat.mod_eq_of_lt (hlt _)]

/-- A word that stores a value of an `int` is read as that value. -/
theorem toInt32_toU32 {x : Int} (h : -2 ^ 31 ≤ x ∧ x < 2 ^ 31) : toInt32 (toU32 x) = x := by
  unfold toInt32 toU32
  omega

/-- The fields fit the words of the disk inode, times apart. -/
structure Inode.Fits (nd : Inode) : Prop where
  mode : nd.iMode < 2 ^ 16
  uid : nd.iUid < 2 ^ 32
  gid : nd.iGid < 2 ^ 32
  nlink : nd.iNlink < 2 ^ 32
  size : 0 ≤ nd.iSize ∧ nd.iSize < 2 ^ 32
  count : -2 ^ 31 ≤ nd.blockCount ∧ nd.blockCount ≤ 8
  pointers : ∀ i, i < 8 → -2 ^ 31 ≤ nd.blockPointers i ∧ nd.blockPointers i < 2 ^ 31

theorem Inode.Valid.fits (h : nd.Valid) : nd.Fits :=
  ⟨h.mode, h.uid, h.gid, h.nlink, by have := h.size; omega, h.count, h.pointers⟩

/-- `naive_iget` over such a block, which has the times as words. -/
theorem decodeInode_words (hfits : nd.Fits) (h : nd.InBlock v) (new : Inode) :
    decodeInode new v = .ok { nd.reloaded new with
      iAtime := ⟨DiskInode.iAtime v, 0⟩
      iMtime := ⟨DiskInode.iMtime v, 0⟩
      iCtime := ⟨DiskInode.iCtime v, 0⟩ } := by
  have hcount : toInt32 (DiskInode.blockCount v) = nd.blockCount := by
    have := hfits.count
    rw [h.count, toInt32_toU32 (by omega)]
  have hsize : (DiskInode.fileSize v : Int) =
      if nd.isDir then nd.iSize.tdiv naiveDirRecordSize else nd.iSize := by
    have := hfits.size
    rw [h.size]
    unfold naiveDirRecordSize toU32
    split
    · rw [Int.tdiv_eq_ediv_of_nonneg this.1]
      omega
    · omega
  have hpointers : ∀ k : Nat, (if 0 ≤ k ∧ k < 0 + nd.blockCount.toNat then
      toInt32 (DiskInode.block v k) else new.blockPointers k) =
      if (k : Int) < nd.blockCount then nd.blockPointers k else new.blockPointers k := by
    intro k
    have := hfits.count
    by_cases hk : (k : Int) < nd.blockCount
    · rw [if_pos (by omega), if_pos hk, h.block k hk,
        toInt32_toU32 (hfits.pointers k (by omega))]
    · rw [if_neg (by omega), if_neg hk]
  have hmode : DiskInode.mode v % 2 ^ 16 = nd.iMode := by
    have := hfits.mode
    rw [h.mode]
    omega
  have huid : DiskInode.iUid v = nd.iUid := h.uid.trans (Nat.mod_eq_of_lt hfits.uid)
  have hgid : DiskInode.iGid v = nd.iGid := h.gid.trans (Nat.mod_eq_of_lt hfits.gid)
  have hnlink : DiskInode.iNlink v = nd.iNlink := h.nlink.trans (Nat.mod_eq_of_lt hfits.nlink)
  rw [decodeInode, hcount, readPointers_words (by have := hfits.count; omega)]
  simp only [hpointers, hmode, huid, hgid, hnlink, hsize]
  rfl

/-- The times come back where they can be stored. -/
theorem decodeInode_inBlock (hvalid : nd.Valid) (h : nd.InBlock v) (new : Inode) :
    decodeInode new v = .ok (nd.reloaded new) := by
  have hword {x : Int} (hx : 0 ≤ x ∧ x < 2 ^ 32) : ((toU32 x : Nat) : Int) = x := by
    unfold toU32
    omega
  rw [decodeInode_words hvalid.fits h, h.atime, h.mtime, h.ctime, hword hvalid.atime,
    hword hvalid.mtime, hword hvalid.ctime]
  rfl

end Codec

/-! ## What happens meanwhile -/

section Runs

variable {ans : Answers} {s t u : FS} {id ino : Nat} {nd : Inode}

/-- Loading an inode leaves the buffers alone. -/
theorem keeps_cache_naiveIget (c : Nat → Bytes) :
    Prog.Keeps ans (fun u => u.cache = c) (naiveIget ino) := by
  have hmodify {f : FS → FS} (hf : ∀ s, (f s).cache = s.cache) :
      Prog.Keeps ans (fun u => u.cache = c) (Prog.modify f : K Unit) :=
    .modify fun s hs => (hf s).trans hs
  have hbread {site : Site} {i : Nat} {b : Int} :
      Prog.Keeps ans (fun u => u.cache = c) (sbBread site i b) :=
    .bind (.ask _) fun _ => .ite (.bind (hmodify fun _ => rfl) fun _ => .pure _) (.pure _)
  refine .bind (.ask _) fun ok => .ite (.pure _) (.bind (.read _) fun found => ?_)
  cases found with
  | some id => exact .pure _
  | none =>
    refine .bind (.read _) fun id => .bind (hmodify fun _ => rfl) fun _ => .bind (.read _)
      fun sb => .bind hbread fun ok => .ite (.bind (hmodify fun _ => rfl) fun _ => .pure _)
        (.bind (.read _) fun d => .bind ?_ fun nd => .bind ?_ fun nd =>
          .bind (hmodify fun _ => rfl) fun _ => .bind (hmodify fun _ => rfl) fun _ => .pure _)
    · intro s a t hs h
      obtain ⟨-, rfl⟩ := exec_inode_ok h
      exact hs
    · intro s a t hs h
      obtain ⟨-, rfl⟩ := Prog.exec_lift_ok.mp h
      exact hs

/-- Different numbers have different inode-table blocks. -/
theorem inodeTableBlock_ne (sb : Bytes) {m n : Nat} (hm : m < 2 ^ 64) (hn : n < 2 ^ 64)
    (hne : m ≠ n) : toU64 (inodeTableBlock sb m) ≠ toU64 (inodeTableBlock sb n) := by
  unfold inodeTableBlock toU64
  omega

/-- Neither the superblock nor the inode-table block of the number is touched. -/
theorem Meanwhile.frame (h : Meanwhile ino s u) (hino : ino < 2 ^ 64) :
    u.block naiveSuperBlockBlock = s.block naiveSuperBlockBlock ∧
    u.block (inodeTableBlock (s.block naiveSuperBlockBlock) ino) =
      s.block (inodeTableBlock (s.block naiveSuperBlockBlock) ino) := by
  induction h with
  | refl => exact ⟨rfl, rfl⟩
  | @write t u id nd ans r _ hnd hlt hne htable hrun ih =>
    rcases naiveWriteInode_cases hnd hrun with ⟨-, rfl⟩ | ⟨v, -, -, rfl⟩
    · exact ih
    · have hother := inodeTableBlock_ne (t.block naiveSuperBlockBlock) hino hlt (Ne.symm hne)
      rw [FS.InTable, ih.1] at htable
      rw [ih.1] at hother ⊢
      rw [FS.block_writeBlock_ne (Ne.symm htable), FS.block_writeBlock_ne hother]
      exact ih
  | @load t u ino' ans r _ hrun ih =>
    have hcache : u.cache = t.cache := keeps_cache_naiveIget t.cache _ _ _ rfl hrun
    unfold FS.block at ih ⊢
    rw [hcache]
    exact ih
  | evict id _ ih => exact ih

theorem exec_naiveWriteInode {v : Bytes} (hnd : s.inodes id = some nd)
    (hread : ans (.sbBread .writeInode 0
      (inodeTableBlock (s.block naiveSuperBlockBlock) nd.iIno)) = true)
    (hv : encodeInode nd
      (s.block (inodeTableBlock (s.block naiveSuperBlockBlock) nd.iIno)) = .ok v) :
    (naiveWriteInode id).exec ans s =
      .ok (0, s.writeBlock (inodeTableBlock (s.block naiveSuperBlockBlock) nd.iIno) v) := by
  rw [naiveWriteInode, Prog.exec_bind_of (exec_inode hnd), Prog.exec_bind_of exec_diskSb,
    Prog.exec_bind_of (exec_sbBread_ok hread), if_neg (by decide), Prog.exec_bind_of exec_bData,
    FS.block_addRef, Prog.exec_bind_of (Prog.exec_lift_ok.mpr ⟨hv, rfl⟩),
    Prog.exec_bind_of exec_putData, FS.writeBlock_addRef, Prog.exec_bind_of exec_brelse,
    FS.addRef_cancel]
  rfl

/-- An inode that is not in the hash is made of the bytes of its inode-table block. -/
theorem exec_naiveIget_absent (hmem : ans (.igetLocked ino) = true)
    (hfind : s.findHashed ino = none)
    (hread : ans (.sbBread .iget 0
      (inodeTableBlock (s.block naiveSuperBlockBlock) ino)) = true) :
    (naiveIget ino).exec ans s = (decodeInode { iIno := ino, iNlink := 1, iHashed := true }
      (s.block (inodeTableBlock (s.block naiveSuperBlockBlock) ino))).map
        fun nd => (.ok s.nextInode, s.withNew nd) := by
  have hmem' : ¬ (!(ans (.igetLocked ino) : Bool)) = true := by
    have h : (ans (.igetLocked ino) : Bool) = true := hmem
    simp [h]
  generalize hb : inodeTableBlock (s.block naiveSuperBlockBlock) ino = b at hread
  have hnew : ((s.withNew { iIno := ino, iNlink := 1, iHashed := true }).addRef b 1).inodes
      s.nextInode = some { iIno := ino, iNlink := 1, iHashed := true } :=
    FS.inodes_withNew_self
  have hstart : ({ s.setInode s.nextInode { iIno := ino, iNlink := 1, iHashed := true } with
      nextInode := s.nextInode + 1 } : FS)
      = s.withNew { iIno := ino, iNlink := 1, iHashed := true } := rfl
  rw [naiveIget, Prog.exec_ask_bind, if_neg hmem', Prog.exec_read_bind, hfind]
  simp only
  rw [Prog.exec_read_bind, Prog.exec_modify_bind, hstart, Prog.exec_bind_of exec_diskSb]
  have hb' : inodeTableBlock ((s.withNew { iIno := ino, iNlink := 1, iHashed := true }).block
    naiveSuperBlockBlock) ino = b := hb
  have hblock : ((s.withNew { iIno := ino, iNlink := 1, iHashed := true }).addRef b 1).block b
      = s.block b := rfl
  rw [hb', Prog.exec_bind_of (exec_sbBread_ok hread), if_neg (by decide),
    Prog.exec_bind_of exec_bData, Prog.exec_bind_of (exec_inode hnew), hblock]
  cases hnd : decodeInode { iIno := ino, iNlink := 1, iHashed := true } (s.block b) with
  | error e => rfl
  | ok nd =>
      have hstate : (((s.withNew { iIno := ino, iNlink := 1, iHashed := true }).addRef b
          1).setInode s.nextInode nd).addRef b (-1) = s.withNew nd :=
        (FS.addRef_cancel _ b).trans FS.setInode_withNew
      rw [Prog.exec_bind_of (Prog.exec_lift_ok.mpr ⟨rfl, rfl⟩), Prog.exec_modify_bind,
        Prog.exec_bind_of exec_brelse, hstate]
      rfl

theorem exec_naiveIget_load (hmem : ans (.igetLocked ino) = true)
    (hfind : s.findHashed ino = none)
    (hread : ans (.sbBread .iget 0
      (inodeTableBlock (s.block naiveSuperBlockBlock) ino)) = true)
    (hnd : decodeInode { iIno := ino, iNlink := 1, iHashed := true }
      (s.block (inodeTableBlock (s.block naiveSuperBlockBlock) ino)) = .ok nd) :
    (naiveIget ino).exec ans s = .ok (.ok s.nextInode, s.withNew nd) := by
  rw [exec_naiveIget_absent hmem hfind hread, hnd]
  rfl

end Runs

/-! ## Writing and loading -/

section Survive

variable {s : FS} {id : Nat} {nd : Inode}

/-- Where the inode comes back as it was. -/
theorem reloaded_agrees_iff (hvalid : nd.Valid) (ino : Nat) :
    (nd.reloaded { iIno := ino, iNlink := 1, iHashed := true }).Agrees nd ↔
      (nd.isDir = true → nd.iSize = 0) ∧
        ∀ i : Nat, nd.blockCount ≤ i → i < 8 → nd.blockPointers i = 0 := by
  have hrange := hvalid.size
  constructor
  · intro h
    constructor
    · intro hdir
      have hsize : (if nd.isDir then nd.iSize.tdiv naiveDirRecordSize else nd.iSize) = nd.iSize :=
        h.size
      rw [if_pos hdir, Int.tdiv_eq_ediv_of_nonneg hrange.1] at hsize
      unfold naiveDirRecordSize at hsize
      omega
    · intro i hi hi8
      have hptr : (if (i : Int) < nd.blockCount then nd.blockPointers i else 0) =
          nd.blockPointers i := h.pointers i hi8
      rw [if_neg (by omega)] at hptr
      exact hptr.symm
  · rintro ⟨hsize, hptr⟩
    refine ⟨rfl, rfl, rfl, ?_, rfl, rfl, rfl, rfl, rfl, ?_⟩
    · show (if nd.isDir then nd.iSize.tdiv naiveDirRecordSize else nd.iSize) = nd.iSize
      split
      · rename_i hdir
        rw [hsize hdir]
        rfl
      · rfl
    · intro i hi
      show (if (i : Int) < nd.blockCount then nd.blockPointers i else 0) = nd.blockPointers i
      split
      · rfl
      · rename_i hge
        exact (hptr i (by omega) hi).symm

/-- The written inode, loaded after anything that may happen meanwhile, is `reloaded`. -/
theorem reload_eq (hnd : s.inodes id = some nd) (hvalid : nd.Valid) (htable : s.InTable nd.iIno)
    {ans ans' : Answers} {t u : FS} (hwrite : (naiveWriteInode id).exec ans s = .ok (0, t))
    (hmean : Meanwhile nd.iIno t u) (hfind : u.findHashed nd.iIno = none)
    (hmem : ans' (.igetLocked nd.iIno) = true)
    (hread : ans' (.sbBread .iget 0
      (inodeTableBlock (s.block naiveSuperBlockBlock) nd.iIno)) = true) :
    (naiveIget nd.iIno).exec ans' u = .ok (.ok u.nextInode,
      u.withNew (nd.reloaded { iIno := nd.iIno, iNlink := 1, iHashed := true })) := by
  rcases naiveWriteInode_cases hnd hwrite with ⟨h0, -⟩ | ⟨v, hv, -, rfl⟩
  · cases h0
  obtain ⟨w, hw, hblock⟩ := encodeInode_inBlock hvalid.count.2
    (s.block (inodeTableBlock (s.block naiveSuperBlockBlock) nd.iIno))
  obtain rfl : v = w := Except.ok.inj (hv.symm.trans hw)
  obtain ⟨hsuper, hkept⟩ := hmean.frame hvalid.ino
  have hne : toU64 (naiveSuperBlockBlock : Int) ≠
      toU64 (inodeTableBlock (s.block naiveSuperBlockBlock) nd.iIno) := Ne.symm htable
  rw [FS.block_writeBlock_ne hne] at hsuper hkept
  rw [FS.block_writeBlock_self] at hkept
  apply exec_naiveIget_load hmem hfind
  · rw [hsuper]
    exact hread
  · rw [hsuper, hkept]
    exact decodeInode_inBlock hvalid hblock _

/-- All inodes may be evicted. -/
theorem exists_evicted (ino : Nat) (t : FS) :
    ∃ u, Meanwhile ino t u ∧ ∀ m, u.findHashed m = none := by
  have hdrop : ∀ n, ∃ u, Meanwhile ino t u ∧ u.nextInode = t.nextInode ∧
      ∀ id, id < n → u.inodes id = none := by
    intro n
    induction n with
    | zero => exact ⟨t, .refl, rfl, fun id hid => by omega⟩
    | succ n ih =>
      obtain ⟨u, hmean, hnext, hnone⟩ := ih
      refine ⟨u.dropInode n, hmean.evict n, hnext, fun id hid => ?_⟩
      rcases Nat.lt_succ_iff_lt_or_eq.mp hid with hlt | rfl
      · rw [FS.inodes_dropInode_ne (by omega)]
        exact hnone id hlt
      · exact FS.inodes_dropInode_self
  obtain ⟨u, hmean, hnext, hnone⟩ := hdrop t.nextInode
  refine ⟨u, hmean, fun m => ?_⟩
  rw [FS.findHashed, List.find?_range_eq_none]
  intro id hid
  rw [hnone id (by omega)]
  rfl

/-- An inode survives its write-back exactly when it is no directory with a size, and no
pointer is left behind its blocks. Other inodes do not matter in any case. -/
theorem survives_iff (hnd : s.inodes id = some nd) (hvalid : nd.Valid)
    (htable : s.InTable nd.iIno) :
    (Survives s id nd ↔ (nd.isDir = true → nd.iSize = 0) ∧
      ∀ i : Nat, nd.blockCount ≤ i → i < 8 → nd.blockPointers i = 0) ∧ LoadsOne s id nd := by
  have hone : LoadsOne s id nd :=
    ⟨_, fun ans ans' t u hwrite hmean hfind hmem hread => ⟨_, _,
      reload_eq hnd hvalid htable hwrite hmean hfind hmem hread, FS.inodes_withNew_self⟩⟩
  refine ⟨?_, hone⟩
  rw [← reloaded_agrees_iff hvalid nd.iIno]
  constructor
  · intro h
    obtain ⟨t, ht⟩ := h.writes (Answers.good default 0 0) rfl
    obtain ⟨u, hmean, hfind⟩ := exists_evicted nd.iIno t
    obtain ⟨id', v, nd', hload, hnd', hagrees⟩ :=
      h.loads _ (Answers.good default 0 0) t u ht hmean (hfind _) rfl rfl
    have heq := reload_eq hnd hvalid htable ht hmean (hfind _)
      (show Answers.good default 0 0 (.igetLocked nd.iIno) = true from rfl) rfl
    rw [heq] at hload
    cases hload
    rw [FS.inodes_withNew_self] at hnd'
    cases hnd'
    exact hagrees
  · intro hagrees
    constructor
    · intro ans hread
      obtain ⟨v, hv, -⟩ := encodeInode_inBlock hvalid.count.2
        (s.block (inodeTableBlock (s.block naiveSuperBlockBlock) nd.iIno))
      exact ⟨_, exec_naiveWriteInode hnd hread hv⟩
    · intro ans ans' t u hwrite hmean hfind hmem hread
      exact ⟨_, _, _, reload_eq hnd hvalid htable hwrite hmean hfind hmem hread,
        FS.inodes_withNew_self, hagrees⟩

/-- A file of 600 bytes in two blocks. -/
theorem written_file_survives : ∃ s nd,
    runOps (FS.mounted (sampleDisk 128 1000 4 132) default)
      [(.create 0 (.letters 1 (by decide) (by decide)) 0o644, Answers.good default 0 0),
        (.write 1 (List.replicate 600 0x61#8) 0, Answers.good default 0 0)] = .ok s ∧
    s.inodes 1 = some nd ∧ nd.iSize = 600 ∧ nd.blockCount = 2 ∧ Survives s 1 nd ∧
    LoadsOne s 1 nd := by
  obtain ⟨s, hs, hcheck⟩ := exists_of_runsTo (show runsTo
    (FS.mounted (sampleDisk 128 1000 4 132) default)
    [(.create 0 (.letters 1 (by decide) (by decide)) 0o644, Answers.good default 0 0),
      (.write 1 (List.replicate 600 0x61#8) 0, Answers.good default 0 0)]
    (fun s => (s.inodes 1).any fun nd => decide (nd.Valid ∧ s.InTable nd.iIno ∧
      nd.isDir = false ∧ nd.iSize = 600 ∧ nd.blockCount = 2 ∧
      ∀ i : Nat, i < 8 → 2 ≤ i → nd.blockPointers i = 0)) = true by decide +kernel)
  simp only [Option.any_eq_true, decide_eq_true_eq] at hcheck
  obtain ⟨nd, hnd, hvalid, htable, hdir, hsize, hcount, hptr⟩ := hcheck
  obtain ⟨hiff, hone⟩ := survives_iff hnd hvalid htable
  refine ⟨s, nd, hs, hnd, hsize, hcount, hiff.mpr ⟨fun h => ?_, fun i hi hi8 => ?_⟩, hone⟩
  · rw [hdir] at h
    cases h
  · exact hptr i hi8 (by omega)

/-- A directory that `naive_mkdir` made has 512 bytes; written back, evicted and loaded, it
has 3. -/
theorem directory_size_lost : ∃ s nd,
    runOps (FS.mounted (sampleDisk 128 1000 4 132) default)
      [(.mkdir 0 (.letters 1 (by decide) (by decide)) 0o755, Answers.good default 0 0)] = .ok s ∧
    s.inodes 1 = some nd ∧ nd.Valid ∧ s.InTable nd.iIno ∧ ¬ Survives s 1 nd := by
  obtain ⟨s, hs, hcheck⟩ := exists_of_runsTo (show runsTo
    (FS.mounted (sampleDisk 128 1000 4 132) default)
    [(.mkdir 0 (.letters 1 (by decide) (by decide)) 0o755, Answers.good default 0 0)]
    (fun s => (s.inodes 1).any fun nd =>
      decide (nd.Valid ∧ s.InTable nd.iIno ∧ nd.isDir = true ∧ nd.iSize = 512)) = true
    by decide +kernel)
  simp only [Option.any_eq_true, decide_eq_true_eq] at hcheck
  obtain ⟨nd, hnd, hvalid, htable, hdir, hsize⟩ := hcheck
  refine ⟨s, nd, hs, hnd, hvalid, htable, fun h => ?_⟩
  -- written, evicted and loaded
  obtain ⟨t, ht⟩ := h.writes (Answers.good default 0 0) rfl
  obtain ⟨u, hmean, hfind⟩ := exists_evicted nd.iIno t
  obtain ⟨id', v, nd', hload, hnd', hagrees⟩ :=
    h.loads _ (Answers.good default 0 0) t u ht hmean (hfind _) rfl rfl
  rw [reload_eq hnd hvalid htable ht hmean (hfind _) rfl rfl] at hload
  cases hload
  rw [FS.inodes_withNew_self] at hnd'
  cases hnd'
  have h3 : (if nd.isDir then nd.iSize.tdiv naiveDirRecordSize else nd.iSize) = nd.iSize :=
    hagrees.size
  rw [hdir, if_pos rfl, hsize] at h3
  exact absurd h3 (by decide)

end Survive

end NaiveFS
