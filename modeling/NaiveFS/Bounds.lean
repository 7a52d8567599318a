import NaiveFS.Run

/-!
# Array indices

Which calls on a mounted image index outside `sbi->block_bitmap`,
`sbi->inode_bitmap`, `block_pointers` or the disk inode's `block`. Nothing is
checked at mount time except the magic number, so the totals, `data_block_no`
and the fields of the disk inodes are arbitrary 32-bit words.
-/

namespace NaiveFS

open Bytes

/-- The computation ends at an index outside an array. -/
def OutOfBounds {α : Type} (x : Except Fault α) : Prop := ∃ e, x = .error e ∧ e.isIndex = true

section OutOfBounds

variable {α β : Type} {ans : Answers} {s t : FS}

@[simp] theorem outOfBounds_ok (a : α) : ¬ OutOfBounds (.ok a : Except Fault α) := by
  rintro ⟨e, h, _⟩
  cases h

@[simp] theorem outOfBounds_error (e : Fault) :
    OutOfBounds (.error e : Except Fault α) ↔ e.isIndex = true :=
  ⟨fun ⟨_, h, he⟩ => by cases h; exact he, fun he => ⟨e, rfl, he⟩⟩

/-- Code that stays inside its arrays whatever it returns, followed by code that does not matter. -/
theorem outOfBounds_bind {p : K α} {f : α → K β}
    (hf : ∀ a t, p.exec ans s = .ok (a, t) → ¬ OutOfBounds ((f a).exec ans t)) :
    OutOfBounds ((p >>= f).exec ans s) ↔ OutOfBounds (p.exec ans s) := by
  cases hp : p.exec ans s with
  | error e =>
      rw [Prog.exec_bind_error hp]
      simp
  | ok r =>
      rw [Prog.exec_bind_of hp]
      exact iff_of_false (hf r.1 r.2 hp) (outOfBounds_ok r)

/-- Dropping the result of a call does not matter. -/
theorem outOfBounds_discard (p : K α) :
    OutOfBounds ((p >>= fun _ => pure ()).exec ans s) ↔ OutOfBounds (p.exec ans s) :=
  outOfBounds_bind fun _ _ _ => outOfBounds_ok _

end OutOfBounds

/-! ## The allocators -/

/-- All bits from `i` on are set in the 512 bytes of the bitmap. -/
def AllSet (bm : Bytes) (i : Int) : Prop := ∀ k : Nat, i ≤ k → k < 4096 → bm.bit k = true

theorem findFreeInodeScan_outOfBounds {imap : Bytes} {total : Int} {n i : Nat} (hi : i ≤ 512) :
    OutOfBounds (findFreeInodeScan imap total n i) ↔ 512 < i + n ∧ AllSet imap (8 * i) := by
  induction n generalizing i with
  | zero => exact iff_of_false (outOfBounds_ok _) (by omega)
  | succ n ih =>
      rw [findFreeInodeScan]
      by_cases hend : 512 ≤ i
      · rw [if_pos hend, outOfBounds_error]
        exact iff_of_true rfl ⟨by omega, fun k hk hk' => by omega⟩
      rw [if_neg hend]
      have hnext (hall : ∀ j, j < 8 → (imap i).getLsbD j = true) :
          OutOfBounds (findFreeInodeScan imap total n (i + 1)) ↔
            512 < i + (n + 1) ∧ AllSet imap (8 * i) := by
        rw [ih (by omega)]
        refine and_congr (by omega) ⟨fun h k hk hk' => ?_, fun h k hk => h k (by omega)⟩
        rcases Nat.lt_or_ge k (8 * (i + 1)) with hlt | hge
        · rw [show k = 8 * i + (k - 8 * i) by omega, bit_byte _ _ _ (by omega)]
          exact hall _ (by omega)
        · exact h k (by omega) hk'
      split
      · cases hc : firstClear (imap i) 0 with
        | none => exact hnext fun j hj => firstClear_none hc j (Nat.zero_le _) hj
        | some j =>
            obtain ⟨_, hj8, hj, _⟩ := firstClear_some hc
            refine iff_of_false ?_ fun h => ?_
            · simp only
              split <;> exact outOfBounds_ok _
            · have := h.2 (8 * i + j) (by omega) (by omega)
              rw [bit_byte _ _ _ hj8, hj] at this
              cases this
      · rename_i hff
        have hff' : imap i = 0xFF#8 := by simpa using hff
        exact hnext fun j hj => by rw [hff']; exact getLsbD_ff hj

theorem allocBlockScan_outOfBounds {sbi : SbInfo} {total : Int} {ds n i : Nat} (hi : i ≤ 512)
    (hds : ds / 8 ≤ i) :
    OutOfBounds (allocBlockScan sbi total (ds / 8 : Nat) (ds % 8 : Nat) n i) ↔
      512 < i + n ∧ AllSet sbi.blockBitmap (max ds (8 * i)) := by
  induction n generalizing i with
  | zero => exact iff_of_false (outOfBounds_ok _) (by omega)
  | succ n ih =>
      rw [allocBlockScan]
      have hstart : ∃ start : Nat, (max (ds : Int) (8 * i) = 8 * i + start) ∧ start ≤ 8 ∧
          (if (i : Int) = (ds / 8 : Nat) then ((ds % 8 : Nat) : Int) else 0) = start := by
        by_cases hi : i = ds / 8
        · exact ⟨ds % 8, by omega, by omega, by rw [if_pos (by rw [hi])]⟩
        · exact ⟨0, by omega, by omega, by rw [if_neg (by omega)]; rfl⟩
      obtain ⟨start, hfrom, hs8, hif⟩ := hstart
      simp only [hif, hfrom]
      unfold naiveBlockSize
      by_cases hend : 512 ≤ i
      · rw [if_pos (by omega), outOfBounds_error]
        exact iff_of_true rfl ⟨by omega, fun k hk hk' => by omega⟩
      rw [if_neg (by omega), if_neg (by omega), Int.toNat_natCast, Int.toNat_natCast]
      cases hc : firstClear (sbi.blockBitmap i) start with
      | none =>
          rw [show ((i : Int) + 1) = ((i + 1 : Nat) : Int) from rfl, ih (by omega) (by omega)]
          refine and_congr (by omega) ⟨fun h k hk hk' => ?_, fun h k hk => h k (by omega)⟩
          rcases Nat.lt_or_ge k (8 * (i + 1)) with hlt | hge
          · rw [show k = 8 * i + (k - 8 * i) by omega, bit_byte _ _ _ (by omega)]
            exact firstClear_none hc _ (by omega) (by omega)
          · exact h k (by omega) hk'
      | some j =>
          obtain ⟨hsj, hj8, hj, _⟩ := firstClear_some hc
          refine iff_of_false ?_ fun h => ?_
          · simp only
            split <;> exact outOfBounds_ok _
          · have := h.2 (8 * i + j) (by omega) (by omega)
            rw [bit_byte _ _ _ hj8, hj] at this
            cases this

/-- `naive_find_free_inode` runs out of the bitmap when it has more bytes to
search than the bitmap and none of the bitmap's bits is clear. -/
def FindInBounds (s : FS) : Prop :=
  s.totalInodes.tdiv 8 ≤ 512 ∨ ¬ AllSet s.sbi.inodeBitmap 0

/-- `naive_alloc_block` stays inside when it makes no round, or starts inside and
has few enough bytes to search, ends at its first bit, or finds a clear one. -/
def AllocInBounds (s : FS) : Prop :=
  s.totalBlocks.tdiv 8 ≤ s.dataStart.tdiv 8 ∨
    ((0 ≤ s.dataStart.tdiv 8 ∧ s.dataStart.tdiv 8 < 512) ∧
      (s.totalBlocks.tdiv 8 ≤ 512 ∨ s.dataStart < 0 ∨ ¬ AllSet s.sbi.blockBitmap s.dataStart))

section Allocators

variable {ans : Answers} {s t : FS} {b : Int}

theorem exec_findFreeInode_outOfBounds :
    ¬ OutOfBounds (findFreeInode.exec ans s) ↔ FindInBounds s := by
  have hexec : OutOfBounds (findFreeInode.exec ans s) ↔
      OutOfBounds (naiveFindFreeInode (s.block naiveSuperBlockBlock) s.sbi) := by
    rw [findFreeInode, Prog.exec_step]
    cases naiveFindFreeInode (s.block naiveSuperBlockBlock) s.sbi with
    | error e => exact (outOfBounds_error e).trans (outOfBounds_error e).symm
    | ok r => exact iff_of_false (outOfBounds_ok _) (outOfBounds_ok _)
  rw [hexec]
  unfold naiveFindFreeInode FindInBounds
  simp only
  rw [findFreeInodeScan_outOfBounds (by omega), show (8 * ((0 : Nat) : Int)) = 0 from rfl,
    not_and_or]
  refine or_congr ?_ Iff.rfl
  unfold FS.totalInodes
  omega

/-- The whole scan of `naive_alloc_block`. -/
private theorem allocBlockScan_from_outOfBounds {sbi : SbInfo} {total ds : Int} :
    OutOfBounds (allocBlockScan sbi total (ds.tdiv 8) (ds.tmod 8) (total.tdiv 8 - ds.tdiv 8).toNat
      (ds.tdiv 8)) ↔ ¬ (total.tdiv 8 ≤ ds.tdiv 8 ∨ ((0 ≤ ds.tdiv 8 ∧ ds.tdiv 8 < 512) ∧
        (total.tdiv 8 ≤ 512 ∨ ds < 0 ∨ ¬ AllSet sbi.blockBitmap ds))) := by
  rcases hrounds : (total.tdiv 8 - ds.tdiv 8).toNat with _ | n
  · exact iff_of_false (outOfBounds_ok _) (not_not.mpr (.inl (by omega)))
  have hlt : ¬ total.tdiv 8 ≤ ds.tdiv 8 := by omega
  by_cases hin : 0 ≤ ds.tdiv 8 ∧ ds.tdiv 8 < 512
  · rcases Int.lt_or_le ds 0 with hneg | hpos
    · -- byte 0 is read, and the mask of its first bit lies above it
      have hdiv := tdiv_eight ds
      have hmod := tmod_eight ds
      rw [if_neg (by omega)] at hdiv
      rw [allocBlockScan, if_pos rfl]
      simp only
      unfold naiveBlockSize
      rw [if_neg (by omega), if_pos (by omega)]
      exact iff_of_false (outOfBounds_ok _) (not_not.mpr (.inr ⟨hin, .inr (.inl hneg)⟩))
    · obtain ⟨d, rfl⟩ := Int.eq_ofNat_of_zero_le hpos
      have hdiv : (d : Int).tdiv 8 = (d / 8 : Nat) := (Int.ofNat_tdiv d 8).symm
      have hmod : (d : Int).tmod 8 = (d % 8 : Nat) := (Int.ofNat_tmod d 8).symm
      rw [hdiv] at hin hlt hrounds
      rw [hdiv, hmod, allocBlockScan_outOfBounds (by omega) (Nat.le_refl _),
        show max (d : Int) (8 * (d / 8 : Nat)) = d by omega]
      have hbytes : 512 < d / 8 + (n + 1) ↔ ¬ total.tdiv 8 ≤ 512 := by omega
      rw [hbytes]
      simp only [hlt, hin, and_self, true_and, false_or, not_or, not_not,
        show ¬ (d : Int) < 0 by omega]
  · rw [allocBlockScan, if_pos rfl]
    simp only
    unfold naiveBlockSize
    rw [if_pos (by omega), outOfBounds_error]
    refine iff_of_true rfl ?_
    rintro (h | ⟨h, _⟩)
    · exact hlt h
    · exact hin h

theorem exec_allocBlock_outOfBounds : ¬ OutOfBounds (allocBlock.exec ans s) ↔ AllocInBounds s := by
  have hexec : OutOfBounds (allocBlock.exec ans s) ↔
      OutOfBounds (naiveAllocBlock (s.block naiveSuperBlockBlock) s.sbi) := by
    rw [allocBlock, Prog.exec_step]
    cases naiveAllocBlock (s.block naiveSuperBlockBlock) s.sbi with
    | error e => exact (outOfBounds_error e).trans (outOfBounds_error e).symm
    | ok r => exact iff_of_false (outOfBounds_ok _) (outOfBounds_ok _)
  rw [hexec]
  exact (not_congr allocBlockScan_from_outOfBounds).trans not_not

theorem exec_freeBlock_outOfBounds (ans : Answers) (b : Int) (hs : s.sbi.blockBitmapBlocks = 1) :
    (-8 < b ∧ ∃ t, (freeBlock b).exec ans s = .ok ((), t)) ∨
      (b ≤ -8 ∧ ∃ e, (freeBlock b).exec ans s = .error e ∧ e.isIndex = true) := by
  have hdiv := tdiv_eight b
  rw [freeBlock, Prog.exec_step, naiveFreeBlock]
  simp only [naiveBlockSize, hs]
  by_cases hlow : b ≤ -8
  · rw [if_neg (by omega)] at hdiv
    rw [if_pos (by omega), if_pos (by omega)]
    exact .inr ⟨hlow, _, rfl, rfl⟩
  · refine .inl ⟨by omega, ?_⟩
    have hnonneg : 0 ≤ b.tdiv 8 := by split at hdiv <;> omega
    by_cases hin : b.tdiv 8 < 512
    · rw [if_pos (by omega), if_neg (by omega)]
      split
      · exact ⟨_, rfl⟩
      · exact ⟨_, rfl⟩
    · rw [if_neg (by omega)]
      exact ⟨_, rfl⟩

theorem exec_clearInodeBit_outOfBounds {ino : Int} :
    OutOfBounds ((clearInodeBit ino).exec ans s) ↔ ¬ (-8 < ino - 1 ∧ ino - 1 < 4096) := by
  have hdiv := tdiv_eight (ino - 1)
  rw [clearInodeBit, inodeBitAccess, Prog.exec_step]
  unfold naiveBlockSize
  simp only
  split
  · rw [outOfBounds_error]
    exact iff_of_true rfl (by split at hdiv <;> omega)
  · refine iff_of_false ?_ (by split at hdiv <;> omega)
    split
    · exact outOfBounds_ok _
    · exact outOfBounds_ok _

end Allocators

/-! ## Inodes -/

section Inodes

variable {ans : Answers} {s t : FS} {dir id ino : Nat} {d nd nd' : Inode} {name : Name}

/-- The loop that frees the blocks stays inside the bitmap unless a pointer is below -7. -/
theorem freeBlocks_outcome (ans : Answers) {n i : Nat} (hs : s.sbi.blockBitmapBlocks = 1)
    (hnd : s.inodes id = some nd) (hn : i + n ≤ 8) :
    ((∀ k, i ≤ k → k < i + n → -8 < nd.blockPointers k) ∧
        ∃ t, (freeBlocks id n i).exec ans s = .ok ((), t)) ∨
      ((∃ k, i ≤ k ∧ k < i + n ∧ nd.blockPointers k ≤ -8) ∧
        ∃ e, (freeBlocks id n i).exec ans s = .error e ∧ e.isIndex = true) := by
  induction n generalizing s nd i with
  | zero => exact .inl ⟨fun k hk hk' => absurd hk' (by omega), s, rfl⟩
  | succ n ih =>
      have hp : (pointer nd i).exec ans s = .ok (nd.blockPointers i, s) := by
        unfold pointer naiveBlockPerFile
        rw [if_neg (by omega)]
        rfl
      -- the rest of the loop, with the pointers behind slot `i` as they were
      have hrest {nd' : Inode} {x : Except Fault (Unit × FS)}
          (hptr : ∀ k, i + 1 ≤ k → nd'.blockPointers k = nd.blockPointers k)
          (hlow : -8 < nd.blockPointers i)
          (h : ((∀ k, i + 1 ≤ k → k < i + 1 + n → -8 < nd'.blockPointers k) ∧
              ∃ t, x = .ok ((), t)) ∨
            ((∃ k, i + 1 ≤ k ∧ k < i + 1 + n ∧ nd'.blockPointers k ≤ -8) ∧
              ∃ e, x = .error e ∧ e.isIndex = true)) :
          ((∀ k, i ≤ k → k < i + (n + 1) → -8 < nd.blockPointers k) ∧ ∃ t, x = .ok ((), t)) ∨
            ((∃ k, i ≤ k ∧ k < i + (n + 1) ∧ nd.blockPointers k ≤ -8) ∧
              ∃ e, x = .error e ∧ e.isIndex = true) := by
        refine h.imp (fun ⟨hall, ht⟩ => ⟨fun k hk hk' => ?_, ht⟩)
          (fun ⟨⟨k, hk, hk', hneg⟩, he⟩ => ⟨⟨k, by omega, by omega, hptr k hk ▸ hneg⟩, he⟩)
        rcases Nat.eq_or_lt_of_le hk with rfl | hlt
        · exact hlow
        · exact hptr k hlt ▸ hall k hlt (by omega)
      rw [freeBlocks, Prog.exec_bind_of (exec_inode hnd), Prog.exec_bind_of hp, Prog.exec_ite]
      by_cases hz : nd.blockPointers i = 0
      · rw [if_pos hz]
        exact hrest (fun _ _ => rfl) (by omega) (ih hs hnd (by omega))
      rw [if_neg hz]
      rcases exec_freeBlock_outOfBounds ans (nd.blockPointers i) hs with
        ⟨hlow, t, hfree⟩ | ⟨hneg, e, hfree, he⟩
      · obtain rfl := exec_freeBlock_ok hs hfree
        have hmem : (s.freed (nd.blockPointers i)).inodes id = some nd := by
          unfold FS.freed
          split <;> exact hnd
        have hblocks : (s.freed (nd.blockPointers i)).sbi.blockBitmapBlocks = 1 := by
          unfold FS.freed
          split <;> exact hs
        rw [Prog.exec_bind_of hfree, Prog.exec_bind_of (exec_updInode hmem)]
        exact hrest (fun k hk => Function.update_of_ne (by omega) _ _) hlow
          (ih (s := (s.freed (nd.blockPointers i)).setInode id (nd.setPointer i 0)) hblocks
            FS.inodes_setInode_self (by omega))
      · rw [Prog.exec_bind_error hfree]
        exact .inr ⟨⟨i, Nat.le_refl _, by omega, hneg⟩, e, rfl, he⟩

/-- Releasing an inode stays inside the bitmaps: every one of its pointers and its number do. -/
structure Inode.ReleaseInBounds (nd : Inode) : Prop where
  pointers : ∀ k : Nat, (k : Int) < nd.blockCount → -8 < nd.blockPointers k
  number : -8 < toInt32 nd.iIno - 1 ∧ toInt32 nd.iIno - 1 < 4096

theorem updInode_not_outOfBounds {f : Inode → Inode} :
    ¬ OutOfBounds ((updInode id f).exec ans s) := by
  cases hnd : s.inodes id with
  | some nd =>
      rw [exec_updInode hnd]
      exact outOfBounds_ok _
  | none =>
      have hfault : (inode id).exec ans s = .error (.noInode id) := by simp [inode, hnd]
      rw [updInode, Prog.exec_bind_error hfault, outOfBounds_error]
      exact Bool.false_ne_true

theorem releaseInode_outOfBounds (hs : s.sbi.blockBitmapBlocks = 1) (hnd : s.inodes id = some nd)
    (hcount : nd.blockCount ≤ 8) :
    ¬ OutOfBounds ((releaseInode id).exec ans s) ↔ nd.ReleaseInBounds := by
  rw [releaseInode, Prog.exec_bind_of (exec_inode hnd)]
  rcases freeBlocks_outcome ans (n := nd.blockCount.toNat) (i := 0) hs hnd (by omega) with
    ⟨hall, t, hfree⟩ | ⟨⟨k, -, hk, hneg⟩, e, hfree, he⟩
  · obtain ⟨_, rfl⟩ := freeBlocks_ok hs hnd hfree
    rw [Prog.exec_bind_of hfree, Prog.exec_bind_of (exec_updInode FS.inodes_setInode_self),
      exec_clearInodeBit_outOfBounds, not_not]
    exact ⟨fun hnumber => ⟨fun k hk => hall k (Nat.zero_le _) (by omega), hnumber⟩,
      fun h => h.number⟩
  · rw [Prog.exec_bind_error hfree, outOfBounds_error]
    exact iff_of_false (not_not.mpr he) fun h => absurd (h.pointers k (by omega)) (by omega)

/-- `naive_unlink` stays inside: the name is not removed, or its inode can be
released. -/
def UnlinkInBounds (s : FS) (ans : Answers) (dir : Nat) (name : Name) (id : Nat) : Prop :=
  ∀ d nd, s.inodes dir = some d → s.inodes id = some nd →
    (∃ i j, StopsAt ans s d .removeEntry (isNamed name) i j) → nd.ReleaseInBounds

theorem naiveUnlink_outOfBounds (hs : s.sbi.blockBitmapBlocks = 1) (hd : s.inodes dir = some d)
    (hnd : s.inodes id = some nd) (hdcount : d.blockCount ≤ 8) (hcount : nd.blockCount ≤ 8) :
    ¬ OutOfBounds ((naiveUnlink dir name id).exec ans s) ↔ UnlinkInBounds s ans dir name id := by
  obtain ⟨r, t, hremove⟩ := exists_naiveRemoveEntry ans name hd hdcount
  have hcond : UnlinkInBounds s ans dir name id ↔
      ((∃ i j, StopsAt ans s d .removeEntry (isNamed name) i j) → nd.ReleaseInBounds) := by
    refine ⟨fun h => h d nd hd hnd, fun h d' nd' hd' hnd' => ?_⟩
    obtain rfl := Option.some.inj (hd.symm.trans hd')
    obtain rfl := Option.some.inj (hnd.symm.trans hnd')
    exact h
  rw [hcond, naiveUnlink, Prog.exec_bind_of hremove]
  cases naiveRemoveEntry_cases hd hremove with
  | unreadable fail =>
      refine iff_of_true (outOfBounds_ok _) ?_
      rintro ⟨i, j, stop⟩
      exact (stop.not_failsAt fail).elim
  | absent hnone =>
      refine iff_of_true (outOfBounds_ok _) ?_
      rintro ⟨i, j, stop⟩
      exact absurd hnone stop.not_findsNone
  | @cleared i j stop =>
      rw [if_neg (by decide), outOfBounds_bind,
        releaseInode_outOfBounds (s := s.clearRecord d i j) hs hnd hcount]
      · exact ⟨fun h _ => h, fun h => h ⟨i, j, stop⟩⟩
      · intro _ u _
        refine (outOfBounds_bind ?_).not.mpr updInode_not_outOfBounds
        exact fun _ _ _ => outOfBounds_ok _

/-! ### Loading and writing back -/

theorem readPointers_outOfBounds {b : Bytes} {n i : Nat} {p : Nat → Int} (hi : i ≤ 8) :
    OutOfBounds (readPointers b n i p) ↔ 8 < i + n := by
  induction n generalizing i p with
  | zero => exact iff_of_false (outOfBounds_ok _) (by omega)
  | succ n ih =>
      rw [readPointers]
      unfold naiveBlockPerFile
      split
      · exact iff_of_true ((outOfBounds_error _).mpr rfl) (by omega)
      · rw [ih (by omega)]
        omega

theorem decodeInode_outOfBounds (nd : Inode) {b : Bytes} :
    OutOfBounds (decodeInode nd b) ↔ 8 < toInt32 (DiskInode.blockCount b) := by
  have hread := readPointers_outOfBounds (b := b) (n := (toInt32 (DiskInode.blockCount b)).toNat)
    (p := nd.blockPointers) (Nat.zero_le 8)
  have hcount : 8 < 0 + (toInt32 (DiskInode.blockCount b)).toNat ↔
      8 < toInt32 (DiskInode.blockCount b) := by omega
  rw [← hcount, ← hread, decodeInode]
  cases readPointers b (toInt32 (DiskInode.blockCount b)).toNat 0 nd.blockPointers with
  | error e => exact (outOfBounds_error e).trans (outOfBounds_error e).symm
  | ok p => exact iff_of_false (outOfBounds_ok _) (outOfBounds_ok _)

/-- The block count of a loaded inode. -/
theorem blockCount_decodeInode {b : Bytes} (h : decodeInode nd b = .ok nd') :
    nd'.blockCount ≤ 8 := by
  have hin : ¬ OutOfBounds (decodeInode nd b) := by
    rw [h]
    exact outOfBounds_ok _
  rw [decodeInode_outOfBounds] at hin
  rw [decodeInode] at h
  cases hread : readPointers b (toInt32 (DiskInode.blockCount b)).toNat 0 nd.blockPointers with
  | error e =>
      rw [hread] at h
      cases h
  | ok p =>
      rw [hread] at h
      cases h
      exact Int.not_lt.mp hin

theorem exists_writePointers (nd : Inode) {b : Bytes} {n i : Nat} (hn : i + n ≤ 8) :
    ∃ v, writePointers nd n i b = .ok v := by
  induction n generalizing i b with
  | zero => exact ⟨b, rfl⟩
  | succ n ih =>
      rw [writePointers]
      unfold naiveBlockPerFile
      rw [if_neg (by omega)]
      exact ih (by omega)

/-- An inode with at most eight blocks can be written. -/
theorem exists_encodeInode (hcount : nd.blockCount ≤ 8) (b : Bytes) :
    ∃ v, encodeInode nd b = .ok v := by
  obtain ⟨v, hv⟩ := exists_writePointers nd
    (b := ((b.putLE32 0 nd.iMode).putLE32 4 nd.iIno).putLE32 8 (toU32 nd.blockCount))
    (n := nd.blockCount.toNat) (i := 0) (by omega)
  unfold encodeInode
  simp only
  rw [hv]
  exact ⟨_, rfl⟩

/-- `naive_iget` stays inside: the inode is not loaded, or has at most eight blocks. -/
def IgetInBounds (s : FS) (ans : Answers) (ino : Nat) : Prop :=
  let b := inodeTableBlock (s.block naiveSuperBlockBlock) ino
  ans (.igetLocked ino) = false ∨ s.findHashed ino ≠ none ∨ ans (.sbBread .iget 0 b) = false ∨
    toInt32 (DiskInode.blockCount (s.block b)) ≤ 8

theorem naiveIget_outOfBounds :
    ¬ OutOfBounds ((naiveIget ino).exec ans s) ↔ IgetInBounds s ans ino := by
  unfold IgetInBounds
  simp only
  rw [naiveIget, Prog.exec_ask_bind]
  cases hmem : ans (.igetLocked ino) with
  | false => exact iff_of_true (outOfBounds_ok _) (.inl rfl)
  | true =>
  rw [if_neg (by decide), Prog.exec_read_bind]
  cases hfind : s.findHashed ino with
  | some id => exact iff_of_true (outOfBounds_ok _) (.inr (.inl (Option.some_ne_none _)))
  | none =>
  simp only [ne_eq, not_true_eq_false, false_or, Bool.true_eq_false]
  rw [Prog.exec_read_bind, Prog.exec_modify_bind, Prog.exec_bind_of exec_diskSb]
  have hnew : ({ s.setInode s.nextInode { iIno := ino, iNlink := 1, iHashed := true } with
      nextInode := s.nextInode + 1 } : FS)
      = s.withNew { iIno := ino, iNlink := 1, iHashed := true } := rfl
  have hsb : (s.withNew { iIno := ino, iNlink := 1, iHashed := true }).block naiveSuperBlockBlock
      = s.block naiveSuperBlockBlock := rfl
  rw [hnew, hsb]
  generalize hb : inodeTableBlock (s.block naiveSuperBlockBlock) ino = b
  cases hread : ans (.sbBread .iget 0 b) with
  | false =>
      rw [Prog.exec_bind_of (exec_sbBread_fail hread)]
      exact iff_of_true (outOfBounds_ok _) (.inl rfl)
  | true =>
  have hmem : ((s.withNew { iIno := ino, iNlink := 1, iHashed := true }).addRef b 1).inodes
      s.nextInode = some { iIno := ino, iNlink := 1, iHashed := true } := FS.inodes_withNew_self
  have hblock : ((s.withNew { iIno := ino, iNlink := 1, iHashed := true }).addRef b 1).block b
      = s.block b := rfl
  rw [Prog.exec_bind_of (exec_sbBread_ok hread), if_neg (by decide), Prog.exec_bind_of exec_bData,
    Prog.exec_bind_of (exec_inode hmem), hblock, outOfBounds_bind]
  · simp only [Bool.true_eq_false, false_or]
    rw [← Int.not_lt, ← decodeInode_outOfBounds { iIno := ino, iNlink := 1, iHashed := true }]
    cases decodeInode { iIno := ino, iNlink := 1, iHashed := true } (s.block b) with
    | error e => exact not_congr ((outOfBounds_error e).trans (outOfBounds_error e).symm)
    | ok nd => exact iff_of_true (outOfBounds_ok _) (outOfBounds_ok _)
  · exact fun _ _ _ => outOfBounds_ok _

/-- `naive_write_inode` never leaves the array. -/
theorem naiveWriteInode_inBounds (hnd : s.inodes id = some nd) (hcount : nd.blockCount ≤ 8) :
    ¬ OutOfBounds ((naiveWriteInode id).exec ans s) := by
  rw [naiveWriteInode, Prog.exec_bind_of (exec_inode hnd), Prog.exec_bind_of exec_diskSb]
  cases hread : ans (.sbBread .writeInode 0
      (inodeTableBlock (s.block naiveSuperBlockBlock) nd.iIno)) with
  | false =>
      rw [Prog.exec_bind_of (exec_sbBread_fail hread)]
      exact outOfBounds_ok _
  | true =>
      rw [Prog.exec_bind_of (exec_sbBread_ok hread), if_neg (by decide),
        Prog.exec_bind_of exec_bData]
      obtain ⟨v, hv⟩ := exists_encodeInode hcount (((s.addRef (inodeTableBlock (s.block
        naiveSuperBlockBlock) nd.iIno) 1)).block (inodeTableBlock (s.block naiveSuperBlockBlock)
        nd.iIno))
      rw [hv]
      exact outOfBounds_ok _

end Inodes

/-! ## Sequences of calls -/

/-- A call of one of the functions that index arrays by what the device holds. -/
inductive ModuleCall where
  | allocBlock
  | findFreeInode
  | freeBlock (b : Int)
  | iget (ino : Nat)
  | writeInode (id : Nat)
  | unlink (dir : Nat) (name : Name) (id : Nat)

namespace ModuleCall

/-- The call, without its result. -/
def prog : ModuleCall → K Unit
  | .allocBlock => do
    let _ ← NaiveFS.allocBlock
    pure ()
  | .findFreeInode => do
    let _ ← NaiveFS.findFreeInode
    pure ()
  | .freeBlock b => NaiveFS.freeBlock b
  | .iget ino => do
    let _ ← naiveIget ino
    pure ()
  | .writeInode id => do
    let _ ← naiveWriteInode id
    pure ()
  | .unlink dir name id => do
    let _ ← naiveUnlink dir name id
    pure ()

/-- The inodes passed to the call are in memory. -/
def Valid (s : FS) : ModuleCall → Prop
  | .writeInode id => ∃ nd, s.inodes id = some nd
  | .unlink dir _ id => (∃ d, s.inodes dir = some d) ∧ ∃ nd, s.inodes id = some nd
  | _ => True

/-- When the call stays inside its arrays. -/
def InBounds (s : FS) (ans : Answers) : ModuleCall → Prop
  | .allocBlock => AllocInBounds s
  | .findFreeInode => FindInBounds s
  | .freeBlock b => -8 < b
  | .iget ino => IgetInBounds s ans ino
  | .writeInode _ => True
  | .unlink dir name id => UnlinkInBounds s ans dir name id

end ModuleCall

/-- States reached from `s0` by calls that return. -/
inductive Calls (s0 : FS) : FS → Prop where
  | refl : Calls s0 s0
  | call {s t : FS} {c : ModuleCall} {ans : Answers} :
      Calls s0 s → c.Valid s → c.prog.exec ans s = .ok ((), t) → Calls s0 t

/-- No inode in memory has more than eight blocks. -/
structure FS.EightBlocks (s : FS) : Prop extends s.Ready where
  count : ∀ id nd, s.inodes id = some nd → nd.blockCount ≤ 8

section Calls

variable {ans : Answers} {disk : Nat → Bytes} {s0 s t : FS} {dir id : Nat} {nd nd' : Inode}
  {name : Name} {c : ModuleCall}

theorem FS.EightBlocks.same (hs : s.EightBlocks) (t : FS)
    (h : t.sbi.blockBitmapBlocks = s.sbi.blockBitmapBlocks ∧ t.nextInode = s.nextInode ∧
      t.inodes = s.inodes) : t.EightBlocks :=
  ⟨hs.toReady.same t h, fun id nd hnd => hs.count id nd (by rw [← h.2.2, hnd])⟩

theorem FS.EightBlocks.setInode (hs : s.EightBlocks) (hnd : s.inodes id = some nd)
    (hcount : nd'.blockCount ≤ 8) : (s.setInode id nd').EightBlocks := by
  refine ⟨hs.toReady.setInode hnd nd', fun k e he => ?_⟩
  by_cases hk : k = id
  · rw [hk, FS.inodes_setInode_self] at he
    cases he
    exact hcount
  · rw [FS.inodes_setInode_ne hk] at he
    exact hs.count k e he

/-- `naive_iget` loads no inode with more than eight blocks. -/
theorem Iget.eightBlocks {ino : Nat} {q : Except Int Nat} (hs : s.EightBlocks)
    (h : Iget ans s ino q t) : t.EightBlocks := by
  refine ⟨h.ready hs.toReady, fun k e he => ?_⟩
  cases h with
  | noMemory | cached | unreadable => exact hs.count k e he
  | loaded _ decode =>
      by_cases hk : k = s.nextInode
      · rw [hk, FS.inodes_withNew_self] at he
        cases he
        exact blockCount_decodeInode decode
      · rw [FS.inodes_withNew_ne hk] at he
        exact hs.count k e he

theorem naiveUnlink_eightBlocks {r : Int} (hs : s.EightBlocks) (hnd : s.inodes id = some nd)
    (h : (naiveUnlink dir name id).exec ans s = .ok (r, t)) : t.EightBlocks := by
  rw [naiveUnlink] at h
  obtain ⟨r', u, hremove, h1⟩ := Prog.exec_bind_ok.mp h
  have hdir : ∃ d, s.inodes dir = some d := by
    rw [naiveRemoveEntry] at hremove
    obtain ⟨d, v, hd, _⟩ := Prog.exec_bind_ok.mp hremove
    exact ⟨d, (exec_inode_ok hd).1⟩
  obtain ⟨d, hd⟩ := hdir
  rcases (naiveRemoveEntry_cases hd hremove).cases_ret with ⟨hr, rfl⟩ | ⟨rfl, i, j, _, rfl⟩
  · rw [if_pos hr] at h1
    cases h1
    exact hs
  · have hcleared : (s.clearRecord d i j).EightBlocks := hs.same _ ⟨rfl, rfl, rfl⟩
    rw [if_neg (by decide)] at h1
    obtain ⟨_, v, hrelease, h2⟩ := Prog.exec_bind_ok.mp h1
    obtain ⟨_, rfl⟩ := releaseInode_ok (s := s.clearRecord d i j) hs.bitmapBlocks hnd hrelease
    rw [Prog.exec_bind_of (exec_updInode FS.inodes_setInode_self), FS.setInode_setInode] at h2
    cases h2
    obtain ⟨bm, im, hframe⟩ := (s.clearRecord d i j).released_frame nd
    have hreleased : ((s.clearRecord d i j).released nd).EightBlocks := by
      rw [hframe]
      exact hcleared.same _ ⟨rfl, rfl, rfl⟩
    exact hreleased.setInode (by rw [FS.released_inodes]; exact hnd)
      (by show (0 : Int) ≤ 8; decide)

theorem ModuleCall.eightBlocks (hs : s.EightBlocks) (hv : c.Valid s)
    (h : c.prog.exec ans s = .ok ((), t)) : t.EightBlocks := by
  cases c with
  | allocBlock =>
      obtain ⟨r, u, halloc, hend⟩ := Prog.exec_bind_ok.mp h
      cases hend
      rcases exec_allocBlock_cases halloc with ⟨_, rfl, _⟩ | ⟨b, _, rfl, _⟩
      · exact hs
      · exact hs.same _ ⟨rfl, rfl, rfl⟩
  | findFreeInode =>
      obtain ⟨r, u, hfind, hend⟩ := Prog.exec_bind_ok.mp h
      cases hend
      exact (exec_findFreeInode hfind).1 ▸ hs
  | freeBlock b =>
      obtain rfl := exec_freeBlock_ok hs.bitmapBlocks h
      unfold FS.freed
      split
      · exact hs.same _ ⟨rfl, rfl, rfl⟩
      · exact hs
  | iget ino =>
      obtain ⟨r, u, higet, hend⟩ := Prog.exec_bind_ok.mp h
      cases hend
      exact (naiveIget_cases hs.toReady higet).eightBlocks hs
  | writeInode id =>
      obtain ⟨r, u, hwrite, hend⟩ := Prog.exec_bind_ok.mp h
      cases hend
      obtain ⟨nd, hnd⟩ := hv
      rcases naiveWriteInode_cases hnd hwrite with ⟨_, rfl⟩ | ⟨v, _, _, rfl⟩
      · exact hs
      · exact hs.same _ ⟨rfl, rfl, rfl⟩
  | unlink dir name id =>
      obtain ⟨r, u, hunlink, hend⟩ := Prog.exec_bind_ok.mp h
      cases hend
      obtain ⟨nd, hnd⟩ := hv.2
      exact naiveUnlink_eightBlocks hs hnd hunlink

theorem Mounted.eightBlocks (h : Mounted disk s) : s.EightBlocks := by
  refine ⟨h.ready, fun id nd hnd => ?_⟩
  obtain ⟨_, ts, rfl⟩ := mounted_eq h
  by_cases hid : id = 0
  · subst hid
    cases hnd
    show (0 : Int) ≤ 8
    decide
  · simp [FS.mounted, hid] at hnd

theorem Calls.eightBlocks (h0 : s0.EightBlocks) (h : Calls s0 s) : s.EightBlocks := by
  induction h with
  | refl => exact h0
  | call _ hv hexec ih => exact ModuleCall.eightBlocks ih hv hexec

/-- On every mounted image, after any calls, a call indexes outside an array
exactly when it does not meet its condition. -/
theorem in_bounds_iff (h0 : Mounted disk s0) (h : Calls s0 s) (hv : c.Valid s) :
    ¬ OutOfBounds (c.prog.exec ans s) ↔ c.InBounds s ans := by
  have hs := h.eightBlocks h0.eightBlocks
  cases c with
  | allocBlock => exact (outOfBounds_discard _).not.trans exec_allocBlock_outOfBounds
  | findFreeInode => exact (outOfBounds_discard _).not.trans exec_findFreeInode_outOfBounds
  | freeBlock b =>
      show ¬ OutOfBounds ((freeBlock b).exec ans s) ↔ -8 < b
      rcases exec_freeBlock_outOfBounds ans b hs.bitmapBlocks with
        ⟨hlow, t, hfree⟩ | ⟨hneg, e, hfree, he⟩
      · rw [hfree]
        exact iff_of_true (outOfBounds_ok _) hlow
      · rw [hfree, outOfBounds_error]
        exact iff_of_false (not_not.mpr he) (by omega)
  | iget ino => exact (outOfBounds_discard _).not.trans naiveIget_outOfBounds
  | writeInode id =>
      obtain ⟨nd, hnd⟩ := hv
      exact iff_of_true ((outOfBounds_discard _).not.mpr
        (naiveWriteInode_inBounds hnd (hs.count id nd hnd)))
        trivial
  | unlink dir name id =>
      obtain ⟨⟨d, hd⟩, nd, hnd⟩ := hv
      exact (outOfBounds_discard _).not.trans
        (naiveUnlink_outOfBounds hs.bitmapBlocks hd hnd (hs.count dir d hd)
        (hs.count id nd hnd))

end Calls

/-- On an image with 1000 blocks: a block is taken and given back and an inode is loaded, and then
the allocator stays inside its bitmap. -/
theorem calls_in_bounds : ∃ s, Calls (FS.mounted (sampleDisk 128 1000 4 132) default) s ∧
    s.nextInode = 2 ∧
    ¬ OutOfBounds (ModuleCall.allocBlock.prog.exec (Answers.good default 0 0) s) := by
  obtain ⟨_, s, hexec, hcheck⟩ := exists_of_execTo
    (show execTo (FS.mounted (sampleDisk 128 1000 4 132) default) (do
        ModuleCall.allocBlock.prog
        (ModuleCall.freeBlock 132).prog
        (ModuleCall.iget 2).prog) (Answers.good default 0 0)
      (fun _ s => decide (s.nextInode = 2 ∧ s.totalBlocks.tdiv 8 ≤ 512 ∧
        0 ≤ s.dataStart.tdiv 8 ∧ s.dataStart.tdiv 8 < 512)) = true by decide +kernel)
  simp only [decide_eq_true_eq] at hcheck
  obtain ⟨hnext, htotal, hstart⟩ := hcheck
  obtain ⟨_, s1, halloc, hexec⟩ := Prog.exec_bind_ok.mp hexec
  obtain ⟨_, s2, hfree, hget⟩ := Prog.exec_bind_ok.mp hexec
  have hcalls : Calls (FS.mounted (sampleDisk 128 1000 4 132) default) s :=
    .call (c := .iget 2) (.call (c := .freeBlock 132)
      (.call (c := .allocBlock) .refl trivial halloc) trivial hfree) trivial hget
  exact ⟨s, hcalls, hnext, (in_bounds_iff (c := .allocBlock)
    (sampleDisk_mounted 128 1000 4 132 default) hcalls trivial).mpr (.inr ⟨hstart, .inl htotal⟩)⟩

/-- On an image that says its data starts at block 4096, the allocator reads
`block_bitmap[512]`. -/
theorem alloc_out_of_bounds : ¬ ∀ (disk : Nat → Bytes) (s0 s : FS) (c : ModuleCall) (ans : Answers),
    Mounted disk s0 → Calls s0 s → c.Valid s → ¬ OutOfBounds (c.prog.exec ans s) := by
  intro hall
  have hno := hall _ _ _ .allocBlock (Answers.good default 0 0)
    (sampleDisk_mounted 128 8192 4 4096 default) .refl trivial
  rcases exec_allocBlock_outOfBounds.mp ((outOfBounds_discard allocBlock).not.mp hno) with
    hempty | ⟨⟨_, hlt⟩, _⟩
  · exact absurd hempty (by decide +kernel)
  · exact absurd hlt (by decide +kernel)

end NaiveFS
