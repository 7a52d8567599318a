import NaiveFS.Remove

/-!
# What `naive_file_write` does

The allocation loop attaches blocks one at a time; the copy loop stores into the
file's own blocks only.
-/

namespace NaiveFS

open Bytes

/-! ## `naive_file_write` -/

/-- The inode and the bitmap after some rounds of the allocation loop. -/
inductive Extend (id : Nat) (s : FS) : FS → Prop where
  | refl : Extend id s s
  | step {t : FS} {b : Nat} {nd : Inode} (rest : Extend id s t) (free : t.NextFree b)
      (node : t.inodes id = some nd) (low : 0 ≤ nd.blockCount) (room : nd.blockCount < 8) :
      Extend id s ((t.markBlock b).setInode id
        { nd.setPointer nd.blockCount.toNat b with blockCount := nd.blockCount + 1 })

/-- `t` is `s` with other bytes in blocks of `nd` and other buffer states. -/
structure DataOf (nd : Inode) (s t : FS) : Prop where
  disk : t.disk = s.disk
  sbi : t.sbi = s.sbi
  inodes : t.inodes = s.inodes
  nextInode : t.nextInode = s.nextInode
  dcache : t.dcache = s.dcache
  sRoot : t.sRoot = s.sRoot
  cache : ∀ b, (∀ k : Nat, k < 8 → (k : Int) < nd.blockCount → toU64 (nd.blockPointers k) ≠ b) →
    t.cache b = s.cache b

/-- What `naive_file_write` keeps of an inode when it stores its size and times. -/
structure Inode.SameBlocks (nd nd' : Inode) : Prop where
  iIno : nd'.iIno = nd.iIno
  iMode : nd'.iMode = nd.iMode
  blockCount : nd'.blockCount = nd.blockCount
  blockPointers : nd'.blockPointers = nd.blockPointers

/-- What `naive_file_write` returns and leaves. -/
inductive Write (s : FS) (id : Nat) : Int → FS → Prop where
  | tooBig : Write s id (-EFBIG) s
  | noSpace {t : FS} (grow : Extend id s t) : Write s id (-ENOSPC) t
  | written {t u : FS} {nd nd' : Inode} {r : Int} (grow : Extend id s t)
      (node : t.inodes id = some nd) (data : DataOf nd t u) (same : nd.SameBlocks nd') :
      Write s id r (u.setInode id nd')

section Write

variable {ans : Answers} {s t : FS} {id : Nat} {nd : Inode} {r : Int}

theorem DataOf.refl (nd : Inode) (s : FS) : DataOf nd s s :=
  ⟨rfl, rfl, rfl, rfl, rfl, rfl, fun _ _ => rfl⟩

theorem DataOf.trans {u : FS} (h : DataOf nd s t) (h' : DataOf nd t u) : DataOf nd s u :=
  ⟨h'.disk.trans h.disk, h'.sbi.trans h.sbi, h'.inodes.trans h.inodes,
    h'.nextInode.trans h.nextInode, h'.dcache.trans h.dcache, h'.sRoot.trans h.sRoot,
    fun b hb => (h'.cache b hb).trans (h.cache b hb)⟩

theorem Extend.frame (h : Extend id s t) :
    t.sbi.blockBitmapBlocks = s.sbi.blockBitmapBlocks ∧ t.nextInode = s.nextInode ∧
      t.cache = s.cache ∧ ∀ k, k ≠ id → t.inodes k = s.inodes k := by
  induction h with
  | refl => exact ⟨rfl, rfl, rfl, fun _ _ => rfl⟩
  | step _ _ _ _ _ ih =>
      obtain ⟨h1, h2, h3, h4⟩ := ih
      exact ⟨h1, h2, h3, fun k hk => (FS.inodes_setInode_ne hk).trans (h4 k hk)⟩

theorem Extend.head {b : Nat} (free : s.NextFree b) (node : s.inodes id = some nd)
    (low : 0 ≤ nd.blockCount) (room : nd.blockCount < 8)
    (h : Extend id ((s.markBlock b).setInode id
      { nd.setPointer nd.blockCount.toNat b with blockCount := nd.blockCount + 1 }) t) :
    Extend id s t := by
  induction h with
  | refl => exact .step .refl free node low room
  | step _ free' node' low' room' ih => exact .step ih free' node' low' room'

/-- The allocation loop attaches one block after the other. -/
theorem fileWriteAlloc_cases {n : Nat} (hs : s.sbi.blockBitmapBlocks = 1)
    (h : (fileWriteAlloc id n).exec ans s = .ok (r, t)) :
    (r = 0 ∨ r = -ENOSPC) ∧ Extend id s t := by
  induction n generalizing s with
  | zero =>
      cases h
      exact ⟨.inl rfl, .refl⟩
  | succ n ih =>
      rw [fileWriteAlloc] at h
      obtain ⟨b, u, halloc, h1⟩ := Prog.exec_bind_ok.mp h
      rcases exec_allocBlock_cases halloc with ⟨hneg, rfl, _⟩ | ⟨b, rfl, rfl, hfree⟩
      · rw [if_pos hneg] at h1
        cases h1
        exact ⟨.inr rfl, .refl⟩
      rw [if_neg (by omega)] at h1
      obtain ⟨nd, v, hnode, h2⟩ := Prog.exec_bind_ok.mp h1
      obtain ⟨hnd, rfl⟩ := exec_inode_ok hnode
      have hnd' : s.inodes id = some nd := hnd
      unfold naiveBlockPerFile at h2
      split at h2
      · rename_i hroom
        split at h2
        · cases h2
        · rename_i hlow
          rw [Prog.exec_bind_of (exec_updInode hnd)] at h2
          obtain ⟨hr, hext⟩ := ih (s := (s.markBlock b).setInode id
            { nd.setPointer nd.blockCount.toNat b with blockCount := nd.blockCount + 1 }) hs h2
          exact ⟨hr, hext.head hfree hnd' (by omega) (by omega)⟩
      · rw [Prog.exec_bind_of (exec_freeBlock (s := s.markBlock b) hfree.bitmap hs),
          FS.unmarkBlock_markBlock hfree.clear] at h2
        cases h2
        exact ⟨.inr rfl, .refl⟩

/-- A store into a block of the file. -/
private theorem DataOf.store {k : Nat} (hk : k < 8) (hcount : (k : Int) < nd.blockCount)
    (v : Bytes) (bd : Nat → Bool) (bc : Nat → Int) :
    DataOf nd s { s with
      cache := Function.update s.cache (toU64 (nd.blockPointers k)) v
      bDirty := bd
      bCount := bc } :=
  ⟨rfl, rfl, rfl, rfl, rfl, rfl, fun _ hb => Function.update_of_ne (Ne.symm (hb k hk hcount)) _ _⟩

theorem exec_pointer_int {i p : Int} (h : (pointer nd i).exec ans s = .ok (p, t)) :
    0 ≤ i ∧ i < 8 ∧ p = nd.blockPointers i.toNat ∧ t = s := by
  rw [pointer] at h
  unfold naiveBlockPerFile at h
  split at h
  · cases h
  · cases h
    exact ⟨by omega, by omega, rfl, rfl⟩

/-- The copy loop stores into the file's blocks only. -/
theorem fileWriteLoop_data {fuel pos : Nat} {data : List Byte} {ret : Int} {q : Int × Nat}
    (hnd : s.inodes id = some nd)
    (h : (fileWriteLoop id fuel pos data ret).exec ans s = .ok (q, t)) : DataOf nd s t := by
  induction fuel generalizing s pos data ret with
  | zero =>
      cases h
      exact .refl nd _
  | succ fuel ih =>
      rw [fileWriteLoop] at h
      split at h
      · cases h
        exact .refl nd _
      rw [Prog.exec_bind_of (exec_inode hnd)] at h
      dsimp only at h
      split at h
      · cases h
        exact .refl nd _
      rename_i hindex
      obtain ⟨p, u, hp, h1⟩ := Prog.exec_bind_ok.mp h
      obtain ⟨hlo, hhi, rfl, rfl⟩ := exec_pointer_int hp
      obtain ⟨k, hk⟩ := Int.eq_ofNat_of_zero_le hlo
      rw [hk] at hindex hhi h1
      rw [Int.toNat_natCast] at h1
      have hk8 : k < 8 := by omega
      have hcount : (k : Int) < nd.blockCount := by omega
      cases hread : ans (.sbBread .fileWrite (pos / naiveBlockSize) (nd.blockPointers k)) with
      | false =>
          rw [Prog.exec_bind_of (exec_sbBread_fail hread)] at h1
          cases h1
          exact .refl nd _
      | true =>
          rw [Prog.exec_bind_of (exec_sbBread_ok hread)] at h1
          simp only [Bool.not_true, Bool.false_eq_true, if_false] at h1
          rw [Prog.exec_bind_of exec_bData, Prog.exec_ask_bind] at h1
          split at h1
          · cases h1
            exact .store hk8 hcount _ _ _
          · rw [Prog.exec_bind_of exec_putData, Prog.exec_bind_of exec_brelse] at h1
            exact (DataOf.store hk8 hcount _ _ _).trans (ih hnd h1)

theorem Extend.node (hnd : s.inodes id = some nd) (h : Extend id s t) :
    ∃ nd', t.inodes id = some nd' := by
  cases h with
  | refl => exact ⟨nd, hnd⟩
  | step => exact ⟨_, FS.inodes_setInode_self⟩

theorem fileWriteData_cases {u : FS} {data : List Byte} {pos : Nat} {q : Int × Nat}
    (grow : Extend id s u) (hnd : u.inodes id = some nd)
    (h : (fileWriteData id data pos).exec ans u = .ok (q, t)) : Write s id q.1 t := by
  rw [fileWriteData] at h
  obtain ⟨⟨ret, pos'⟩, v, hloop, h1⟩ := Prog.exec_bind_ok.mp h
  have hdata := fileWriteLoop_data hnd hloop
  have hv : v.inodes id = some nd := by rw [hdata.inodes, hnd]
  rw [Prog.exec_bind_of (exec_inode hv)] at h1
  dsimp only at h1
  split at h1
  · rw [Prog.exec_bind_of (exec_updInode hv), Prog.exec_bind_of exec_ktime,
      Prog.exec_bind_of (exec_updInode FS.inodes_setInode_self), FS.setInode_setInode] at h1
    cases h1
    exact .written grow hnd hdata ⟨rfl, rfl, rfl, rfl⟩
  · rw [Prog.exec_bind_of exec_ktime, Prog.exec_bind_of (exec_updInode hv)] at h1
    cases h1
    exact .written grow hnd hdata ⟨rfl, rfl, rfl, rfl⟩

theorem naiveFileWrite_cases {data : List Byte} {pos : Nat} {q : Int × Nat} (hs : s.Ready)
    (h : (naiveFileWrite id data pos).exec ans s = .ok (q, t)) : Write s id q.1 t := by
  rw [naiveFileWrite] at h
  obtain ⟨nd, u, hnode, h1⟩ := Prog.exec_bind_ok.mp h
  obtain ⟨hnd, rfl⟩ := exec_inode_ok hnode
  dsimp only at h1
  split at h1
  · cases h1
    exact .tooBig
  split at h1
  · obtain ⟨ret, v, halloc, h2⟩ := Prog.exec_bind_ok.mp h1
    obtain ⟨hret, hgrow⟩ := fileWriteAlloc_cases hs.bitmapBlocks halloc
    rcases hret with rfl | rfl
    · rw [if_neg (by decide)] at h2
      obtain ⟨nd', hnd'⟩ := hgrow.node hnd
      exact fileWriteData_cases hgrow hnd' h2
    · rw [if_pos (by decide)] at h2
      cases h2
      exact .noSpace hgrow
  · exact fileWriteData_cases .refl hnd h1

end Write

end NaiveFS
