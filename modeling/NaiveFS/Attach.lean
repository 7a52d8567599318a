import NaiveFS.Lib.FirstFit
import NaiveFS.Write

/-!
# The blocks a write attaches

`naive_alloc_block` takes the free blocks in order. The allocation loop of
`naive_file_write` attaches the first of them, as many as it is asked for and as
there are blocks and slots.
-/

namespace NaiveFS

open Bytes

/-! ## Free blocks -/

namespace FS

/-- The numbers `naive_alloc_block` looks at end here: the last, partial byte of the
bitmap is left out. -/
def scanEnd (s : FS) : Nat := (8 * s.totalBlocks.tdiv 8).toNat

/-- The free blocks, in the order in which `naive_alloc_block` takes them. -/
def freeList (s : FS) : List Nat :=
  (List.range s.scanEnd).filter fun k => decide (s.dataStart ≤ k) && !s.marked k

/-- The data blocks are numbered from 0 or more on, and one bitmap block covers them. -/
structure Scannable (s : FS) : Prop where
  bitmapBlocks : s.sbi.blockBitmapBlocks = 1
  start : 0 ≤ s.dataStart
  total : s.totalBlocks ≤ 4096

/-- One bitmap block has a bit for every number the scan looks at. -/
theorem Scannable.scanEnd_le {s : FS} (h : s.Scannable) : s.scanEnd ≤ 4096 := by
  have htotal := h.total
  have htd := tdiv_eight s.totalBlocks
  unfold scanEnd
  split at htd
  · omega
  · omega

/-- Mark every block of a list. -/
def markAll (s : FS) : List Nat → FS
  | [] => s
  | b :: l => (s.markBlock b).markAll l

variable {s : FS} {id b : Nat} {nd : Inode} {l : List Nat}

theorem mem_freeList {k : Nat} :
    k ∈ s.freeList ↔ k < s.scanEnd ∧ s.dataStart ≤ k ∧ s.marked k = false := by
  simp [freeList]

theorem markAll_setInode : (s.setInode id nd).markAll l = (s.markAll l).setInode id nd := by
  induction l generalizing s with
  | nil => rfl
  | cons b l ih => exact ih (s := s.markBlock b)

theorem cache_markAll : (s.markAll l).cache = s.cache := by
  induction l generalizing s with
  | nil => rfl
  | cons b l ih => exact ih (s := s.markBlock b)

/-- Storing an inode where it is already changes nothing. -/
theorem setInode_self (h : s.inodes id = some nd) : s.setInode id nd = s := by
  have hinodes : Function.update s.inodes id (some nd) = s.inodes := by
    rw [← h, Function.update_eq_self]
  unfold setInode
  rw [hinodes]

theorem Scannable.markBlock (h : s.Scannable) (b : Nat) : (s.markBlock b).Scannable :=
  ⟨h.bitmapBlocks, h.start, h.total⟩

theorem Scannable.setInode (h : s.Scannable) (id : Nat) (nd : Inode) :
    (s.setInode id nd).Scannable :=
  ⟨h.bitmapBlocks, h.start, h.total⟩

theorem marked_markBlock {k : Nat} : (s.markBlock b).marked k = (decide (k = b) || s.marked k) :=
  bit_setBit s.sbi.blockBitmap b k

/-- The next free block is the first of the list, and once it is marked the rest is left. -/
theorem NextFree.freeList_eq (h : s.NextFree b) :
    s.freeList = b :: (s.markBlock b).freeList := by
  have hlt : b < s.scanEnd := by
    have := h.total
    unfold scanEnd
    omega
  have hbefore : ∀ k : Nat, k < b → (decide (s.dataStart ≤ k) && !s.marked k) = false := by
    intro k hk
    by_cases hstart : s.dataStart ≤ k
    · simp [h.least k hstart hk]
    · simp [hstart]
  have hrest : (s.markBlock b).freeList = (List.range s.scanEnd).filter
      fun k : Nat => (decide (s.dataStart ≤ k) && !s.marked k) && !decide (k = b) := by
    apply List.filter_congr
    intro k _
    show (decide (s.dataStart ≤ k) && !(s.markBlock b).marked k) = _
    rw [marked_markBlock, Bool.not_or, Bool.and_comm (!decide (k = b)), Bool.and_assoc]
  rw [hrest]
  exact FirstFit.filter_range_cons hlt hbefore (by simp [h.start, h.clear])

theorem Exhausted.freeList_eq (h : s.Exhausted) (hs : s.Scannable) : s.freeList = [] := by
  rw [List.eq_nil_iff_forall_not_mem]
  intro k hk
  obtain ⟨hend, hstart, hclear⟩ := mem_freeList.mp hk
  obtain hneg | hset := h
  · have := hs.start
    omega
  · rw [hset k hstart (by unfold scanEnd at hend; omega)] at hclear
    cases hclear

end FS

/-! ## Taking one -/

theorem exists_allocBlockScan {sbi : SbInfo} {total startByte startBit : Int} {n : Nat} {i : Int}
    (hbit : 0 ≤ startBit) (hi : 0 ≤ i) (hn : i + n ≤ 512 ∨ n = 0) :
    ∃ x, allocBlockScan sbi total startByte startBit n i = .ok x := by
  induction n generalizing i with
  | zero => exact ⟨_, rfl⟩
  | succ n ih =>
    have hstart : ¬ (if i = startByte then startBit else 0) < 0 := by
      split <;> omega
    rw [allocBlockScan]
    unfold naiveBlockSize
    simp only
    rw [if_neg (by omega), if_neg hstart]
    split
    · split
      · exact ⟨_, rfl⟩
      · exact ⟨_, rfl⟩
    · exact ih (by omega) (by omega)

section Alloc

variable {ans : Answers} {s : FS} {b : Nat} {l : List Nat}

theorem FS.Scannable.exists_allocBlock (h : s.Scannable) (ans : Answers) :
    ∃ r t, allocBlock.exec ans s = .ok (r, t) := by
  have hstart := h.start
  have htotal := h.total
  unfold FS.dataStart at hstart
  unfold FS.totalBlocks at htotal
  have hds := tdiv_eight (toInt32 (SuperBlock.dataBlockNo (s.block naiveSuperBlockBlock)))
  have hmod := tmod_eight (toInt32 (SuperBlock.dataBlockNo (s.block naiveSuperBlockBlock)))
  have htd := tdiv_eight (toInt32 (SuperBlock.blockTotal (s.block naiveSuperBlockBlock)))
  obtain ⟨x, hx⟩ : ∃ x, naiveAllocBlock (s.block naiveSuperBlockBlock) s.sbi = .ok x := by
    apply exists_allocBlockScan
    · split at hds <;> omega
    · split at hds <;> omega
    · split at hds <;> split at htd <;> omega
  rw [allocBlock, Prog.exec_step, hx]
  exact ⟨_, _, rfl⟩

/-- With no free block the allocation fails. -/
theorem exec_allocBlock_nil (h : s.Scannable) (ans : Answers) (hl : s.freeList = []) :
    ∃ r < 0, allocBlock.exec ans s = .ok (r, s) := by
  obtain ⟨r, t, ht⟩ := h.exists_allocBlock ans
  rcases exec_allocBlock_cases ht with ⟨hneg, rfl, -⟩ | ⟨b, rfl, rfl, hfree⟩
  · exact ⟨r, hneg, ht⟩
  · rw [hfree.freeList_eq] at hl
    cases hl

/-- It takes the first free block. -/
theorem exec_allocBlock_cons (h : s.Scannable) (ans : Answers) (hl : s.freeList = b :: l) :
    allocBlock.exec ans s = .ok ((b : Int), s.markBlock b) ∧ s.NextFree b ∧
      (s.markBlock b).freeList = l := by
  obtain ⟨r, t, ht⟩ := h.exists_allocBlock ans
  rcases exec_allocBlock_cases ht with ⟨-, rfl, hnone⟩ | ⟨c, rfl, rfl, hfree⟩
  · rw [hnone.freeList_eq h] at hl
    cases hl
  · obtain ⟨rfl, hrest⟩ := List.cons.inj (hfree.freeList_eq.symm.trans hl)
    exact ⟨ht, hfree, hrest⟩

end Alloc

/-! ## The allocation loop -/

/-- Put blocks into the slots behind the last. -/
def Inode.attach (nd : Inode) : List Nat → Inode
  | [] => nd
  | b :: l => ({ nd.setPointer nd.blockCount.toNat b with
      blockCount := nd.blockCount + 1 } : Inode).attach l

section Attach

variable {ans : Answers} {s : FS} {id : Nat} {nd : Inode}

theorem blockCount_attach (nd : Inode) (l : List Nat) :
    (nd.attach l).blockCount = nd.blockCount + l.length := by
  induction l generalizing nd with
  | nil => simp [Inode.attach]
  | cons b l ih =>
    rw [Inode.attach, ih, List.length_cons]
    show nd.blockCount + 1 + (l.length : Int) = _
    omega

theorem iSize_attach (nd : Inode) (l : List Nat) : (nd.attach l).iSize = nd.iSize := by
  induction l generalizing nd with
  | nil => rfl
  | cons b l ih => exact (ih _).trans rfl

/-- The slots in use keep their blocks, the next ones get those of the list. -/
theorem blockPointers_attach (hcount : 0 ≤ nd.blockCount) (l : List Nat) {i : Nat}
    (hi : (i : Int) < nd.blockCount + l.length) : (nd.attach l).blockPointers i =
      if (i : Int) < nd.blockCount then nd.blockPointers i
      else l.getD (i - nd.blockCount.toNat) 0 := by
  induction l generalizing nd with
  | nil =>
    rw [List.length_nil] at hi
    rw [if_pos (by omega)]
    rfl
  | cons b l ih =>
    rw [List.length_cons] at hi
    rw [Inode.attach, ih (by show 0 ≤ nd.blockCount + 1; omega)
      (by show (i : Int) < nd.blockCount + 1 + l.length; omega)]
    show (if (i : Int) < nd.blockCount + 1 then
      Function.update nd.blockPointers nd.blockCount.toNat (b : Int) i else
      (l.getD (i - (nd.blockCount + 1).toNat) 0 : Nat)) = _
    rcases Int.lt_trichotomy (i : Int) nd.blockCount with hlt | heq | hgt
    · rw [if_pos (by omega), if_pos hlt, Function.update_of_ne (by omega)]
    · rw [if_pos (by omega), if_neg (by omega), show i = nd.blockCount.toNat by omega]
      simp
    · rw [if_neg (by omega), if_neg (by omega),
        show i - nd.blockCount.toNat = (i - (nd.blockCount + 1).toNat) + 1 by omega]
      simp

/-- The blocks `n` rounds of the loop attach. -/
def attached (s : FS) (nd : Inode) (n : Nat) : List Nat :=
  s.freeList.take (min n (8 - nd.blockCount.toNat))

theorem attached_cons {b : Nat} {l : List Nat} (hl : s.freeList = b :: l)
    (hcount : 0 ≤ nd.blockCount ∧ nd.blockCount < 8) (n : Nat) :
    attached s nd (n + 1) = b :: l.take (min n (8 - (nd.blockCount + 1).toNat)) := by
  rw [attached, hl, show min (n + 1) (8 - nd.blockCount.toNat) =
    min n (8 - (nd.blockCount + 1).toNat) + 1 by omega, List.take_succ_cons]

/-- The loop attaches the free blocks it can, and returns 0 if those are as many as it
was asked for. -/
theorem exec_fileWriteAlloc (hmap : s.Scannable) (ans : Answers) (hnd : s.inodes id = some nd)
    (hcount : 0 ≤ nd.blockCount ∧ nd.blockCount ≤ 8) (n : Nat) :
    (fileWriteAlloc id n).exec ans s =
      .ok (if (attached s nd n).length = n then 0 else -ENOSPC,
        (s.markAll (attached s nd n)).setInode id (nd.attach (attached s nd n))) := by
  induction n generalizing s nd with
  | zero =>
    have hnone : attached s nd 0 = [] := by simp [attached]
    rw [hnone, List.length_nil, if_pos rfl, FS.markAll, Inode.attach, FS.setInode_self hnd]
    rfl
  | succ n ih =>
    -- nothing is attached where no block is free or no slot
    have hnothing (h : attached s nd (n + 1) = []) :
        (Except.ok (-ENOSPC, s) : Except Fault (Int × FS)) =
          .ok (if (attached s nd (n + 1)).length = n + 1 then 0 else -ENOSPC,
            (s.markAll (attached s nd (n + 1))).setInode id
              (nd.attach (attached s nd (n + 1)))) := by
      rw [h, if_neg (by simp), FS.markAll, Inode.attach, FS.setInode_self hnd]
    rw [fileWriteAlloc]
    cases hl : s.freeList with
    | nil =>
      obtain ⟨r, hneg, halloc⟩ := exec_allocBlock_nil hmap ans hl
      rw [Prog.exec_bind_of halloc, if_pos hneg]
      exact hnothing (by rw [attached, hl, List.take_nil])
    | cons b l =>
      obtain ⟨halloc, hfree, hrest⟩ := exec_allocBlock_cons hmap ans hl
      have hnd' : (s.markBlock b).inodes id = some nd := hnd
      rw [Prog.exec_bind_of halloc, if_neg (by omega), Prog.exec_bind_of (exec_inode hnd')]
      unfold naiveBlockPerFile
      by_cases hroom : nd.blockCount < 8
      · rw [if_pos (by omega), if_neg (by omega), Prog.exec_bind_of (exec_updInode hnd')]
        generalize hnext : ({ nd.setPointer nd.blockCount.toNat b with
          blockCount := nd.blockCount + 1 } : Inode) = nd'
        have hcount' : nd'.blockCount = nd.blockCount + 1 := by rw [← hnext]
        have hfree' : ((s.markBlock b).setInode id nd').freeList = l := hrest
        have hlist : attached s nd (n + 1) =
            b :: attached ((s.markBlock b).setInode id nd') nd' n := by
          rw [attached_cons hl ⟨hcount.1, hroom⟩, attached, hfree', hcount']
        rw [ih ((hmap.markBlock b).setInode id nd') FS.inodes_setInode_self (by omega), hlist,
          List.length_cons, FS.markAll_setInode, FS.setInode_setInode, FS.markAll, Inode.attach,
          hnext]
        simp
      · rw [if_neg (by omega), Prog.exec_bind_of
            (exec_freeBlock (s := s.markBlock b) hfree.bitmap hmap.bitmapBlocks),
          FS.unmarkBlock_markBlock hfree.clear]
        exact hnothing (by rw [attached, show min (n + 1) (8 - nd.blockCount.toNat) = 0 by omega,
          List.take_zero])

end Attach

end NaiveFS
