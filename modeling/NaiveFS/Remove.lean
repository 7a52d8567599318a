import NaiveFS.Make

/-!
# What `naive_unlink` and `naive_rmdir` do

Releasing an inode's blocks and number first, then one relation for each of the
two operations, with the eviction of the inode by the VFS.
-/

namespace NaiveFS

open Bytes

/-! ## Releasing an inode -/

namespace FS

/-- What `naive_free_block(sbi, p)` leaves when it returns: a pointer that the bitmap does not
cover changes nothing. -/
def freed (s : FS) (p : Int) : FS := if 0 ≤ p ∧ p < 4096 then s.unmarkBlock p.toNat else s

/-- Free the blocks in `n` slots of `nd`, from slot `i` on. -/
def freedSlots (s : FS) (nd : Inode) : Nat → Nat → FS
  | 0, _ => s
  | n + 1, i =>
    (if nd.blockPointers i = 0 then s else s.freed (nd.blockPointers i)).freedSlots nd n (i + 1)

/-- The bitmap without the bit of number `ino`; a number below 1 has none. -/
def clearNumber (bm : Bytes) (ino : Int) : Bytes := fun i =>
  if i = (ino.toNat - 1) / 8 ∧ 1 ≤ ino then bm.clearBit (ino.toNat - 1) i else bm i

theorem clearNumber_of_pos {bm : Bytes} {ino : Int} (h : 1 ≤ ino) :
    clearNumber bm ino = bm.clearBit (ino.toNat - 1) := by
  funext i
  unfold clearNumber
  by_cases hi : i = (ino.toNat - 1) / 8
  · rw [if_pos ⟨hi, h⟩]
  · rw [if_neg fun hand => hi hand.1, clearBit_out hi]

/-- Give number `ino` back. -/
def numberFreed (s : FS) (ino : Int) : FS :=
  { s with sbi := { s.sbi with inodeBitmap := clearNumber s.sbi.inodeBitmap ino } }

theorem numberFreed_of_pos {s : FS} {ino : Int} (h : 1 ≤ ino) :
    s.numberFreed ino = s.unmarkInode ino.toNat := by
  rw [numberFreed, clearNumber_of_pos h, unmarkInode]

theorem numberFreed_of_neg {s : FS} {ino : Int} (h : ¬ 1 ≤ ino) : s.numberFreed ino = s := by
  unfold numberFreed clearNumber
  simp only [h, and_false, if_false]

theorem numberFreed_setInode {s : FS} {ino : Int} {id : Nat} {nd : Inode} :
    (s.setInode id nd).numberFreed ino = (s.numberFreed ino).setInode id nd := rfl

/-- Free every block of `nd` and its number. -/
def released (s : FS) (nd : Inode) : FS :=
  (s.freedSlots nd nd.blockCount.toNat 0).numberFreed (toInt32 nd.iIno)

end FS

/-- Zero `n` slots from slot `i` on. -/
def Inode.zeroSlots (nd : Inode) (n i : Nat) : Inode :=
  { nd with blockPointers := fun k => if i ≤ k ∧ k < i + n then 0 else nd.blockPointers k }

section Release

variable {ans : Answers} {s t : FS} {id : Nat} {nd : Inode}

theorem exec_freeBlock_ok {p : Int} (hs : s.sbi.blockBitmapBlocks = 1)
    (h : (freeBlock p).exec ans s = .ok ((), t)) : t = s.freed p := by
  unfold FS.freed
  split
  · rename_i hp
    have hfree : (freeBlock p.toNat).exec ans s = .ok ((), s.unmarkBlock p.toNat) :=
      exec_freeBlock (by omega) hs
    rw [Int.toNat_of_nonneg hp.1, h] at hfree
    cases hfree
    rfl
  · rename_i hp
    have hdiv := tdiv_eight p
    have hmod := tmod_eight p
    rw [freeBlock, Prog.exec_step, naiveFreeBlock] at h
    simp only [naiveBlockSize, hs] at h
    rcases Int.lt_or_le p 0 with hneg | hpos
    · rw [if_neg (by omega)] at hdiv
      rw [if_pos (by omega)] at h
      split at h
      · cases h
      · rw [if_pos (by omega)] at h
        cases h
        rfl
    · rw [if_pos hpos] at hdiv
      rw [if_neg (by omega)] at h
      cases h
      rfl

theorem exec_clearInodeBit_ok {ino : Int} (h : (clearInodeBit ino).exec ans s = .ok ((), t)) :
    ino ≤ 4096 ∧ t = s.numberFreed ino := by
  by_cases hpos : 1 ≤ ino
  · have hrange : ino ≤ 4096 := by
      rw [clearInodeBit, inodeBitAccess, Prog.exec_step] at h
      have hdiv := tdiv_eight (ino - 1)
      unfold naiveBlockSize at h
      simp only at h
      split at h
      · cases h
      · split at hdiv <;> omega
    have hclear : (clearInodeBit ino.toNat).exec ans s = .ok ((), s.unmarkInode ino.toNat) :=
      exec_clearInodeBit (by omega) (by omega)
    rw [Int.toNat_of_nonneg (by omega), h] at hclear
    cases hclear
    exact ⟨hrange, (FS.numberFreed_of_pos hpos).symm⟩
  · have hdiv := tdiv_eight (ino - 1)
    have hmod := tmod_eight (ino - 1)
    rw [clearInodeBit, inodeBitAccess, Prog.exec_step] at h
    rw [if_neg (by omega)] at hdiv
    simp only at h
    split at h
    · cases h
    · rw [if_pos (by omega)] at h
      cases h
      exact ⟨by omega, (FS.numberFreed_of_neg hpos).symm⟩

theorem FS.freedSlots_frame (s : FS) (nd : Inode) (n i : Nat) : ∃ bm, s.freedSlots nd n i =
    { s with sbi := { s.sbi with blockBitmap := bm } } := by
  induction n generalizing s i with
  | zero => exact ⟨_, rfl⟩
  | succ n ih =>
      rw [FS.freedSlots]
      obtain ⟨bm, hbm⟩ := ih (if nd.blockPointers i = 0 then s else s.freed (nd.blockPointers i))
        (i + 1)
      refine ⟨bm, hbm.trans ?_⟩
      unfold FS.freed FS.unmarkBlock
      split <;> [rfl; (split <;> rfl)]

theorem FS.marked_freed {s : FS} {p : Int} {b : Nat} (hb : b < 4096) :
    (s.freed p).marked b = true ↔ s.marked b = true ∧ p ≠ b := by
  unfold FS.freed
  split
  · rename_i hp
    have hpb : b ≠ p.toNat ↔ p ≠ b := by omega
    unfold FS.unmarkBlock FS.marked
    rw [bit_clearBit, Bool.and_eq_true, decide_eq_true_eq, hpb, and_comm]
  · rename_i hp
    have hpb : p ≠ b := by omega
    simp [hpb]

/-- The bits that freeing the slots leaves set. -/
theorem FS.marked_freedSlots {s : FS} {nd : Inode} {n i b : Nat} (hb : b < 4096) :
    (s.freedSlots nd n i).marked b = true ↔ s.marked b = true ∧
      ∀ k, i ≤ k → k < i + n → nd.blockPointers k ≠ 0 → nd.blockPointers k ≠ b := by
  induction n generalizing s i with
  | zero => exact ⟨fun h => ⟨h, fun k hk hk' => by omega⟩, fun h => h.1⟩
  | succ n ih =>
      have hone : (if nd.blockPointers i = 0 then s else s.freed (nd.blockPointers i)).marked b
          = true ↔ s.marked b = true ∧ (nd.blockPointers i ≠ 0 → nd.blockPointers i ≠ b) := by
        split
        · rename_i hz
          simp [hz]
        · rename_i hnz
          rw [FS.marked_freed hb]
          simp only [ne_eq, hnz, not_false_eq_true, true_implies]
      rw [FS.freedSlots, ih, hone]
      constructor
      · rintro ⟨⟨hm, hi⟩, hall⟩
        refine ⟨hm, fun k hk hk' hp => ?_⟩
        rcases Nat.eq_or_lt_of_le hk with rfl | hlt
        · exact hi hp
        · exact hall k hlt (by omega) hp
      · rintro ⟨hm, hall⟩
        exact ⟨⟨hm, hall i (Nat.le_refl _) (by omega)⟩,
          fun k hk hk' hp => hall k (by omega) (by omega) hp⟩

theorem FS.freedSlots_congr {s : FS} {nd nd' : Inode} {n i : Nat}
    (h : ∀ k, i ≤ k → nd.blockPointers k = nd'.blockPointers k) :
    s.freedSlots nd n i = s.freedSlots nd' n i := by
  induction n generalizing s i with
  | zero => rfl
  | succ n ih =>
      rw [FS.freedSlots, FS.freedSlots, h i (Nat.le_refl _), ih fun k hk => h k (by omega)]

theorem FS.freedSlots_setInode (s : FS) (id : Nat) (nd nd' : Inode) (n i : Nat) :
    (s.setInode id nd').freedSlots nd n i = (s.freedSlots nd n i).setInode id nd' := by
  induction n generalizing s i with
  | zero => rfl
  | succ n ih =>
      have hone : (if nd.blockPointers i = 0 then s.setInode id nd' else
          (s.setInode id nd').freed (nd.blockPointers i))
          = (if nd.blockPointers i = 0 then s
            else s.freed (nd.blockPointers i)).setInode id nd' := by
        unfold FS.freed
        split <;> [rfl; (split <;> rfl)]
      rw [FS.freedSlots, hone, ih, FS.freedSlots]

/-- Zeroing slot `i`, or finding it zero, and then the slots after it. -/
theorem Inode.zeroSlots_succ {nd nd' : Inode} {n i : Nat}
    (h : nd' = nd.setPointer i 0 ∨ (nd' = nd ∧ nd.blockPointers i = 0)) :
    nd'.zeroSlots n (i + 1) = nd.zeroSlots (n + 1) i := by
  have hptr : (fun k => if i + 1 ≤ k ∧ k < i + 1 + n then (0 : Int) else nd'.blockPointers k)
      = fun k => if i ≤ k ∧ k < i + (n + 1) then (0 : Int) else nd.blockPointers k := by
    funext k
    by_cases hk : k = i
    · subst hk
      rw [if_neg (by omega), if_pos (by omega)]
      rcases h with rfl | ⟨rfl, hz⟩
      · simp [Inode.setPointer]
      · exact hz
    · have hother : nd'.blockPointers k = nd.blockPointers k := by
        rcases h with rfl | ⟨rfl, _⟩
        · simp [Inode.setPointer, hk]
        · rfl
      rw [hother]
      exact if_congr (by omega) rfl rfl
  rw [zeroSlots, hptr, zeroSlots]
  rcases h with rfl | ⟨rfl, _⟩ <;> rfl

theorem FS.setInode_eq_self {s : FS} {id : Nat} {nd : Inode} (h : s.inodes id = some nd) :
    s.setInode id nd = s := by
  have : Function.update s.inodes id (some nd) = s.inodes := by rw [← h, Function.update_eq_self]
  rw [FS.setInode, this]

theorem freeBlocks_ok {s t : FS} {nd : Inode} {n i : Nat} (hs : s.sbi.blockBitmapBlocks = 1)
    (hnd : s.inodes id = some nd) (h : (freeBlocks id n i).exec ans s = .ok ((), t)) :
    (n = 0 ∨ i + n ≤ 8) ∧ t = (s.freedSlots nd n i).setInode id (nd.zeroSlots n i) := by
  induction n generalizing s nd i with
  | zero =>
      cases h
      refine ⟨.inl rfl, ?_⟩
      have hptr : (fun k => if i ≤ k ∧ k < i + 0 then (0 : Int) else nd.blockPointers k)
          = nd.blockPointers := funext fun k => if_neg (by omega)
      rw [Inode.zeroSlots, hptr, FS.freedSlots, FS.setInode_eq_self hnd]
  | succ n ih =>
      rw [freeBlocks, Prog.exec_bind_of (exec_inode hnd)] at h
      obtain ⟨p, u, hp, h1⟩ := Prog.exec_bind_ok.mp h
      obtain ⟨hi, rfl, rfl⟩ := exec_pointer_ok hp
      split at h1
      · rename_i hz
        obtain ⟨hn, rfl⟩ := ih hs hnd h1
        rw [FS.freedSlots, if_pos hz, Inode.zeroSlots_succ (.inr ⟨rfl, hz⟩)]
        exact ⟨.inr (by omega), rfl⟩
      · rename_i hnz
        obtain ⟨_, v, hfree, h2⟩ := Prog.exec_bind_ok.mp h1
        obtain rfl := exec_freeBlock_ok hs hfree
        have hmem : (u.freed (nd.blockPointers i)).inodes id = some nd := by
          unfold FS.freed
          split <;> exact hnd
        have hblocks : (u.freed (nd.blockPointers i)).sbi.blockBitmapBlocks = 1 := by
          unfold FS.freed
          split <;> exact hs
        rw [Prog.exec_bind_of (exec_updInode hmem)] at h2
        obtain ⟨hn, hset⟩ := ih (s := (u.freed (nd.blockPointers i)).setInode id
          (nd.setPointer i 0)) hblocks FS.inodes_setInode_self h2
        have hrest : ∀ k, i + 1 ≤ k → (nd.setPointer i 0).blockPointers k = nd.blockPointers k :=
          fun k hk => Function.update_of_ne (by omega) _ _
        rw [hset, FS.freedSlots_setInode, FS.setInode_setInode, FS.freedSlots, if_neg hnz,
          Inode.zeroSlots_succ (.inl rfl), FS.freedSlots_congr hrest]
        exact ⟨.inr (by omega), rfl⟩

/-- An inode whose blocks and number can be released. -/
structure Inode.Releasable (nd : Inode) : Prop where
  le : toInt32 nd.iIno ≤ 4096
  count : nd.blockCount ≤ 8

theorem releaseInode_ok {s t : FS} {nd : Inode} (hs : s.sbi.blockBitmapBlocks = 1)
    (hnd : s.inodes id = some nd) (h : (releaseInode id).exec ans s = .ok ((), t)) :
    nd.Releasable ∧
      t = (s.released nd).setInode id
        { nd.zeroSlots nd.blockCount.toNat 0 with blockCount := 0 } := by
  rw [releaseInode, Prog.exec_bind_of (exec_inode hnd)] at h
  obtain ⟨_, u, hfree, h1⟩ := Prog.exec_bind_ok.mp h
  obtain ⟨hn, rfl⟩ := freeBlocks_ok hs hnd hfree
  rw [Prog.exec_bind_of (exec_updInode FS.inodes_setInode_self), FS.setInode_setInode] at h1
  obtain ⟨hle, rfl⟩ := exec_clearInodeBit_ok h1
  rw [FS.numberFreed_setInode]
  exact ⟨⟨hle, by omega⟩, rfl⟩

end Release

/-! ## `naive_unlink` and `naive_rmdir` -/

namespace FS

variable {s : FS} {id dir : Nat} {nd : Inode}

@[simp] theorem dropInode_setInode : (s.setInode id nd).dropInode id = s.dropInode id := by
  simp [setInode, dropInode]

@[simp] theorem setDentry_setDentry (s : FS) (dir : Nat) (name : Name) (x y : Option Nat) :
    (s.setDentry dir name x).setDentry dir name y = s.setDentry dir name y := by
  simp [setDentry]

theorem setDentry_setInode {x : Option Nat} {name : Name} :
    (s.setInode id nd).setDentry dir name x = (s.setDentry dir name x).setInode id nd := rfl

theorem setInode_comm {nd' : Inode} (h : id ≠ dir) :
    (s.setInode id nd).setInode dir nd' = (s.setInode dir nd').setInode id nd := by
  unfold setInode
  simp only [Function.update_comm h]

/-- Freeing an inode's blocks and number concerns the bitmaps only. -/
theorem released_frame (s : FS) (nd : Inode) : ∃ bm im, s.released nd =
    { s with sbi := { s.sbi with blockBitmap := bm, inodeBitmap := im } } := by
  obtain ⟨bm, hbm⟩ := freedSlots_frame s nd nd.blockCount.toNat 0
  rw [released, hbm]
  exact ⟨_, _, rfl⟩

@[simp] theorem released_inodes (s : FS) (nd : Inode) : (s.released nd).inodes = s.inodes := by
  obtain ⟨bm, im, h⟩ := s.released_frame nd
  rw [h]

/-- The state after the last name of the inode `nd` at `id` is removed. -/
def removed (s : FS) (dir : Nat) (name : Name) (id : Nat) (nd : Inode) : FS :=
  ((s.released nd).setDentry dir name none).dropInode id

/-- What is assigned to an inode before it is evicted is lost with it. -/
theorem removed_setInode (s : FS) (dir : Nat) (name : Name) (id : Nat) (nd nd' : Inode) :
    (((s.released nd).setInode id nd').setDentry dir name none).dropInode id
      = s.removed dir name id nd := by
  rw [setDentry_setInode, dropInode_setInode, removed]

theorem released_setInode (s : FS) (id : Nat) (nd nd' : Inode) :
    (s.setInode id nd').released nd = (s.released nd).setInode id nd' := by
  rw [released, freedSlots_setInode, numberFreed_setInode, released]

/-- The same with an assignment to the parent in between, also when the parent
is the inode evicted. -/
theorem removed_mapInode {d e nd x y : Inode} {name : Name} {f : Inode → Inode}
    (hd : s.inodes dir = some d) (he : ((s.released nd).setInode id x).inodes dir = some e) :
    (((((s.released nd).setInode id x).setInode dir (f e)).setInode id y).setDentry dir name
      none).dropInode id = (s.mapInode dir f).removed dir name id nd := by
  rw [mapInode_of hd, removed, released_setInode]
  by_cases hdir : dir = id
  · subst hdir
    rw [setInode_setInode, setInode_setInode]
    exact (removed_setInode s dir name dir nd y).trans (removed_setInode s dir name dir nd _).symm
  · rw [inodes_setInode_ne hdir, released_inodes, hd] at he
    cases he
    rw [setInode_comm (Ne.symm hdir), setInode_setInode, setDentry_setInode, dropInode_setInode]

end FS

/-- What `naive_unlink` leaves of an inode. -/
def Inode.unlinked (nd : Inode) : Inode :=
  { nd.zeroSlots nd.blockCount.toNat 0 with blockCount := 0, iNlink := 0, iSize := 0 }

/-- What `vfs_unlink` returns and leaves. -/
inductive Unlink (ans : Answers) (s : FS) (dir : Nat) (name : Name) : Int → FS → Prop where
  | noDentry (none : s.dcache dir name = none) : Unlink ans s dir name (-ENOENT) s
  | notRemoved {d : Inode} {id : Nat} {r : Int} (dentry : s.dcache dir name = some id)
      (parent : s.inodes dir = some d) (entry : RemoveEntry ans s d name r s) (fail : r < 0) :
      Unlink ans s dir name r s
  | removed {d nd : Inode} {id i j : Nat} (dentry : s.dcache dir name = some id)
      (parent : s.inodes dir = some d) (target : s.inodes id = some nd) (node : nd.Releasable)
      (stop : StopsAt ans s d .removeEntry (isNamed name) i j) :
      Unlink ans s dir name 0 ((s.clearRecord d i j).removed dir name id nd)

/-- The parent of a removed directory loses its link. -/
def Inode.dropLink (nd : Inode) : Inode :=
  { nd with iNlink := toU32 (nd.iNlink - 1 : Int), iDirty := true }

/-- What `vfs_rmdir` returns and leaves. -/
inductive Rmdir (ans : Answers) (s : FS) (dir : Nat) (name : Name) : Int → FS → Prop where
  | noDentry (none : s.dcache dir name = none) : Rmdir ans s dir name (-ENOENT) s
  | notDir {nd : Inode} {id : Nat} (dentry : s.dcache dir name = some id)
      (target : s.inodes id = some nd) (file : nd.isDir = false) :
      Rmdir ans s dir name (-ENOTDIR) s
  | unreadable {nd : Inode} {id i : Nat} (dentry : s.dcache dir name = some id)
      (target : s.inodes id = some nd) (fail : FailsAt ans s nd .rmdirScan isOther i) :
      Rmdir ans s dir name (- EIO) s
  | notEmpty {nd : Inode} {id i j : Nat} (dentry : s.dcache dir name = some id)
      (target : s.inodes id = some nd) (stop : StopsAt ans s nd .rmdirScan isOther i j) :
      Rmdir ans s dir name (-ENOTEMPTY) s
  | notRemoved {d : Inode} {id : Nat} {r : Int} (dentry : s.dcache dir name = some id)
      (parent : s.inodes dir = some d) (entry : RemoveEntry ans s d name r s) (fail : r < 0) :
      Rmdir ans s dir name r s
  | removed {d nd : Inode} {id i j : Nat} (dentry : s.dcache dir name = some id)
      (parent : s.inodes dir = some d) (target : s.inodes id = some nd) (node : nd.Releasable)
      (isDir : nd.isDir = true) (empty : FindsNone ans s nd .rmdirScan isOther)
      (stop : StopsAt ans s d .removeEntry (isNamed name) i j) :
      Rmdir ans s dir name 0
        (((s.clearRecord d i j).mapInode dir Inode.dropLink).removed dir name id nd)

section Remove

variable {ans : Answers} {s t : FS} {dir id : Nat} {d nd : Inode} {name : Name} {r : Int}

/-- Removing an entry either fails and changes nothing or clears its record. -/
theorem RemoveEntry.cases_ret (h : RemoveEntry ans s d name r t) :
    (r < 0 ∧ t = s) ∨
      (r = 0 ∧ ∃ i j, StopsAt ans s d .removeEntry (isNamed name) i j ∧
        t = s.clearRecord d i j) := by
  cases h with
  | cleared stop => exact .inr ⟨rfl, _, _, stop, rfl⟩
  | unreadable | absent => exact .inl ⟨by decide, rfl⟩

/-- What `naive_unlink` returns and leaves. -/
theorem naiveUnlink_cases (hs : s.Ready) (h : (naiveUnlink dir name id).exec ans s = .ok (r, t)) :
    ∃ d, s.inodes dir = some d ∧ ((r < 0 ∧ RemoveEntry ans s d name r s ∧ t = s) ∨
      (r = 0 ∧ ∃ i j nd, StopsAt ans s d .removeEntry (isNamed name) i j ∧
        s.inodes id = some nd ∧ nd.Releasable ∧
        t = ((s.clearRecord d i j).released nd).setInode id nd.unlinked)) := by
  rw [naiveUnlink] at h
  obtain ⟨q, v, hentry, h1⟩ := Prog.exec_bind_ok.mp h
  have hparent : ∃ d, s.inodes dir = some d := by
    rw [naiveRemoveEntry] at hentry
    obtain ⟨d, w, hd, _⟩ := Prog.exec_bind_ok.mp hentry
    exact ⟨d, (exec_inode_ok hd).1⟩
  obtain ⟨d, hd⟩ := hparent
  refine ⟨d, hd, ?_⟩
  have hremove := naiveRemoveEntry_cases hd hentry
  rcases hremove.cases_ret with ⟨hneg, rfl⟩ | ⟨rfl, i, j, hstop, rfl⟩
  · rw [if_pos hneg] at h1
    cases h1
    exact .inl ⟨hneg, hremove, rfl⟩
  · rw [if_neg (by decide)] at h1
    obtain ⟨_, w, hrelease, h2⟩ := Prog.exec_bind_ok.mp h1
    have htarget : ∃ nd, (s.clearRecord d i j).inodes id = some nd := by
      rw [releaseInode] at hrelease
      obtain ⟨nd, w', hnd, _⟩ := Prog.exec_bind_ok.mp hrelease
      exact ⟨nd, (exec_inode_ok hnd).1⟩
    obtain ⟨nd, hnd⟩ := htarget
    obtain ⟨hnode, rfl⟩ := releaseInode_ok (s := s.clearRecord d i j) hs.bitmapBlocks hnd hrelease
    rw [Prog.exec_bind_of (exec_updInode FS.inodes_setInode_self), FS.setInode_setInode] at h2
    cases h2
    exact .inr ⟨rfl, i, j, nd, hstop, hnd, hnode, rfl⟩

theorem vfsUnlink_of_dentry (hs : s.Ready) (hdentry : s.dcache dir name = some id)
    (h : (vfsUnlink dir name).exec ans s = .ok (r, t)) : Unlink ans s dir name r t := by
  rw [vfsUnlink, Prog.exec_read_bind] at h
  simp only [hdentry] at h
  obtain ⟨q, u, hunlink, hend⟩ := Prog.exec_bind_ok.mp h
  obtain ⟨d, hd, ⟨hneg, hremove, rfl⟩ | ⟨rfl, i, j, nd, hstop, hnd, hnode, rfl⟩⟩ :=
    naiveUnlink_cases hs hunlink
  · rw [if_neg (by omega)] at hend
    cases hend
    exact .notRemoved hdentry hd hremove hneg
  · rw [if_pos rfl, dDelete] at hend
    cases hend
    have hfinal := Unlink.removed hdentry hd hnd hnode hstop
    rwa [← FS.removed_setInode] at hfinal

theorem vfsRmdir_of_dentry (hs : s.Ready) (hdentry : s.dcache dir name = some id)
    (h : (vfsRmdir dir name).exec ans s = .ok (r, t)) : Rmdir ans s dir name r t := by
  rw [vfsRmdir, Prog.exec_read_bind] at h
  simp only [hdentry] at h
  obtain ⟨q, u, hrmdir, hend⟩ := Prog.exec_bind_ok.mp h
  have hfail : q ≠ 0 → r = q ∧ t = u := by
    intro hq
    rw [if_neg hq] at hend
    cases hend
    exact ⟨rfl, rfl⟩
  rw [naiveRmdir] at hrmdir
  obtain ⟨d, u1, hdir, h1⟩ := Prog.exec_bind_ok.mp hrmdir
  obtain ⟨hd, rfl⟩ := exec_inode_ok hdir
  obtain ⟨nd, u2, htarget, h2⟩ := Prog.exec_bind_ok.mp h1
  obtain ⟨hnd, rfl⟩ := exec_inode_ok htarget
  -- the refusals in their order: no directory, a block unread, an entry, no record to clear
  cases hisDir : nd.isDir with
  | false =>
      rw [hisDir, if_pos (by decide)] at h2
      cases h2
      obtain ⟨rfl, rfl⟩ := hfail (by decide)
      exact .notDir hdentry hnd hisDir
  | true =>
  rw [hisDir, if_neg (by decide)] at h2
  obtain ⟨scan, u3, hscan, h3⟩ := Prog.exec_bind_ok.mp h2
  obtain ⟨rfl, ⟨i, hi, rfl⟩ | ⟨i, j, hij, rfl⟩ | ⟨hempty, rfl⟩⟩ := rmdirScan_cases hscan
  · cases h3
    obtain ⟨rfl, rfl⟩ := hfail (by decide)
    exact .unreadable hdentry hnd hi
  · cases h3
    obtain ⟨rfl, rfl⟩ := hfail (by decide)
    exact .notEmpty hdentry hnd hij
  obtain ⟨q', v, hentry, h4⟩ := Prog.exec_bind_ok.mp h3
  have hremove := naiveRemoveEntry_cases hd hentry
  rcases hremove.cases_ret with ⟨hneg, rfl⟩ | ⟨rfl, i, j, hstop, rfl⟩
  · rw [if_pos hneg] at h4
    cases h4
    obtain ⟨rfl, rfl⟩ := hfail (by omega)
    exact .notRemoved hdentry hd hremove hneg
  rw [if_neg (by decide)] at h4
  obtain ⟨_, w, hrelease, h5⟩ := Prog.exec_bind_ok.mp h4
  obtain ⟨hnode, rfl⟩ := releaseInode_ok (s := u3.clearRecord d i j) hs.bitmapBlocks hnd hrelease
  obtain ⟨_, x, hlink, h6⟩ := Prog.exec_bind_ok.mp h5
  obtain ⟨e, he, rfl⟩ := exec_updInode_ok hlink
  obtain ⟨_, y, hzero, h7⟩ := Prog.exec_bind_ok.mp h6
  obtain ⟨e', _, rfl⟩ := exec_updInode_ok hzero
  cases h7
  rw [if_pos rfl] at hend
  cases hend
  have hfinal := Rmdir.removed hdentry hd hnd hnode hisDir hempty hstop
  rw [← FS.removed_mapInode (s := u3.clearRecord d i j) hd he] at hfinal
  simp only [FS.setDentry_setDentry]
  exact hfinal

theorem vfsUnlink_cases (hs : s.Ready) (h : (vfsUnlink dir name).exec ans s = .ok (r, t)) :
    Unlink ans s dir name r t := by
  cases hdentry : s.dcache dir name with
  | some id => exact vfsUnlink_of_dentry hs hdentry h
  | none =>
      rw [vfsUnlink, Prog.exec_read_bind] at h
      simp only [hdentry] at h
      cases h
      exact .noDentry hdentry

theorem vfsRmdir_cases (hs : s.Ready) (h : (vfsRmdir dir name).exec ans s = .ok (r, t)) :
    Rmdir ans s dir name r t := by
  cases hdentry : s.dcache dir name with
  | some id => exact vfsRmdir_of_dentry hs hdentry h
  | none =>
      rw [vfsRmdir, Prog.exec_read_bind] at h
      simp only [hdentry] at h
      cases h
      exact .noDentry hdentry

end Remove

end NaiveFS
