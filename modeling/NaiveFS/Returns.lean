import NaiveFS.Allocators
import NaiveFS.Attach
import NaiveFS.Bounds
import NaiveFS.Eviction
import NaiveFS.Lib.Total

/-!
# Every call returns

On a device whose blocks and inode numbers one bitmap block each covers, no call runs out of an
array or follows a pointer to an inode that is gone: whatever fails, it returns. `Sane` is what
the code relies on for that, and every run keeps it.
-/

namespace NaiveFS

open Bytes Prog

/-! ## What the code relies on -/

/-- The bitmaps cover the device, the block maps stay in their arrays and lead to blocks, the
numbers have bits, a file ends within its eight blocks, and dentries lead to inodes in memory. -/
structure FS.Sane (s : FS) : Prop where
  ready : s.Ready
  scannable : s.Scannable
  inodeTotal : s.totalInodes ≤ 4096
  count : ∀ id nd, s.inodes id = some nd → 0 ≤ nd.blockCount ∧ nd.blockCount ≤ 8
  pointers : ∀ id nd i, s.inodes id = some nd → i < 8 → 0 ≤ nd.blockPointers i
  number : ∀ id nd, s.inodes id = some nd → 1 ≤ nd.iIno ∧ nd.iIno ≤ 4096
  size : ∀ id nd, s.inodes id = some nd → nd.isDir = false → nd.iSize ≤ naiveMaxFileSize
  dentry : ∀ dir name id, s.dcache dir name = some id → ∃ nd, s.inodes id = some nd
  free : ∀ b, s.NextFree b → b ≠ naiveSuperBlockBlock

/-- One block of bits covers the blocks of the device, and one its inode numbers. -/
structure BitmapsCover (sb : Bytes) : Prop where
  blocks : SuperBlock.blockTotal sb ≤ 4096
  inodes : SuperBlock.inodeTotal sb ≤ 4096

theorem OneBitmapBlock.cover {sb : Bytes} (h : OneBitmapBlock sb) : BitmapsCover sb :=
  ⟨h.blocks, h.inodes⟩

/-- The inode an operation is called on. -/
def Op.target : Op → Nat
  | .create dir .. | .mkdir dir .. | .unlink dir .. | .rmdir dir .. | .lookup dir .. => dir
  | .write id .. => id

/-- What is written ends below the largest file offset. -/
def Op.InRange : Op → Prop
  | .write _ data pos => pos + data.length < 2 ^ 63
  | _ => True

section Parts

variable {ans : Answers} {s t m : FS} {id dir ino : Nat} {d nd : Inode} {name : Name}

theorem FS.Sane.total_findFreeInode (h : s.Sane) : findFreeInode.Total ans s fun r t =>
    t = s ∧ ((r = 0 ∧ s.NoIno) ∨ ∃ ino : Nat, r = ino ∧ s.NextIno ino) := by
  refine .of_returns ?_ fun _ _ => exec_findFreeInode
  have htotal : toInt32 (SuperBlock.inodeTotal (s.block naiveSuperBlockBlock)) ≤ 4096 :=
    h.inodeTotal
  have hdiv := tdiv_eight (toInt32 (SuperBlock.inodeTotal (s.block naiveSuperBlockBlock)))
  obtain ⟨r, hr⟩ : ∃ r, naiveFindFreeInode (s.block naiveSuperBlockBlock) s.sbi = .ok r :=
    findFreeInodeScan_total (by split at hdiv <;> omega)
  rw [findFreeInode, exec_step, hr]
  exact ⟨r, s, rfl⟩

theorem total_updInode {f : Inode → Inode} (h : ∃ nd, s.inodes id = some nd) :
    (updInode id f).Total ans s fun _ t =>
      ∃ nd, s.inodes id = some nd ∧ t = s.setInode id (f nd) := by
  obtain ⟨nd, hnd⟩ := h
  exact .of_exec (exec_updInode hnd) ⟨nd, hnd, rfl⟩

theorem FS.Scannable.total_allocBlock (h : s.Scannable) : allocBlock.Total ans s fun r t =>
    (r < 0 ∧ t = s ∧ s.Exhausted) ∨
      ∃ b : Nat, r = b ∧ t = s.markBlock b ∧ s.NextFree b :=
  .of_returns (h.exists_allocBlock ans) fun _ _ => exec_allocBlock_cases

/-- `naive_add_entry` returns. -/
theorem total_naiveAddEntry {i : Int} (h : s.Scannable) (hd : s.inodes dir = some d)
    (hcount : d.blockCount ≤ 8) :
    (naiveAddEntry dir name i).Total ans s (AddEntry ans s dir d name i) := by
  refine .of_returns ?_ fun r t => naiveAddEntry_cases h.bitmapBlocks hd
  have hnew (u : FS) (hu : u.Scannable) (hud : u.inodes dir = some d) :
      (addEntryNew dir name i).Total ans u fun _ _ => True := by
    refine hu.total_allocBlock.bind fun r v hv => ?_
    rcases hv with ⟨hneg, rfl, -⟩ | ⟨b, rfl, rfl, hfree⟩
    · exact .ite (fun _ => .pure trivial) fun hneg' => absurd hneg hneg'
    refine .ite (fun _ => .pure trivial) fun _ =>
      .bind_of (exec_updInode (s := u.markBlock b) hud) ?_
    cases hread : ans (.sbBread .addEntryNew 0 b) with
    | false =>
        refine .bind_of (exec_sbBread_fail hread) (.bind_of (exec_freeBlock
          (s := (u.markBlock b).setInode dir (attachBlock d b)) hfree.bitmap hu.bitmapBlocks) ?_)
        exact .pure trivial
    | true =>
        have hgrown : ((u.markBlock b).setInode dir (attachBlock d b)).inodes dir
            = some (attachBlock d b) := FS.inodes_setInode_self
        refine .bind_of (exec_sbBread_ok hread) (.bind_of exec_bData (.bind_of exec_putData
          (.bind_of exec_brelse (.bind (total_updInode ⟨_, hgrown⟩) fun _ _ _ => ?_))))
        exact .pure trivial
  have hscan : (addEntryScan d name i).Total ans s fun q u => q = none → u = s := by
    refine .of_returns (exists_scanRecords hcount fun b v j s => ⟨0, _, rfl⟩) fun q u hq => ?_
    rcases scanRecords_cases (.inl (by simp)) hq with
      ⟨_, -, rfl, -⟩ | ⟨_, _, _, -, rfl, -⟩ | ⟨-, -, rfl⟩
    · exact fun hnone => nomatch hnone
    · exact fun hnone => nomatch hnone
    · exact fun _ => rfl
  refine (Total.bind_of (P := fun _ _ => True) (exec_inode hd) (hscan.bind fun q u hu => ?_)).returns
  cases q with
  | some r => exact .pure trivial
  | none =>
      obtain rfl := hu rfl
      exact hnew u h hd

end Parts

/-! ## `naive_create` and `naive_mkdir` -/

section Make

variable {ans : Answers} {s m : FS} {dir ino : Nat} {d : Inode} {name : Name} {mode : Nat}

theorem FS.Scannable.of_sbi (h : s.Scannable) (hblocks : m.sbi.blockBitmapBlocks = 1)
    (hsb : m.block naiveSuperBlockBlock = s.block naiveSuperBlockBlock) : m.Scannable := by
  refine ⟨hblocks, ?_, ?_⟩
  · show 0 ≤ toInt32 (SuperBlock.dataBlockNo (m.block naiveSuperBlockBlock))
    rw [hsb]
    exact h.start
  · show toInt32 (SuperBlock.blockTotal (m.block naiveSuperBlockBlock)) ≤ 4096
    rw [hsb]
    exact h.total

theorem total_createLink {i : Int} (id : Nat) (h : m.Scannable) (hd : m.inodes dir = some d)
    (hcount : d.blockCount ≤ 8) : (createLink dir name id i).Total ans m fun _ _ => True := by
  refine (total_naiveAddEntry h hd hcount).bind fun r t hentry => .ite (fun _ => ?_) fun _ => ?_
  · exact .bind_of exec_iput (.pure trivial)
  · exact .bind_of exec_dInstantiate (.pure trivial)

/-- `naive_create` returns. -/
theorem FS.Sane.total_naiveCreate (h : s.Sane) (hd : s.inodes dir = some d) :
    (naiveCreate dir name mode).Total ans s fun _ _ => True := by
  refine .bind_of (exec_inode hd) (h.total_findFreeInode.bind fun r t hr => ?_)
  obtain ⟨rfl, ⟨rfl, -⟩ | ⟨ino, rfl, hfree⟩⟩ := hr
  · exact .pure trivial
  refine .ite (fun _ => .pure trivial) fun _ => ?_
  cases hmem : ans .newInode with
  | false => exact .bind_of (exec_newInode_fail hmem) (.pure trivial)
  | true =>
      refine .bind_of (exec_newInode_ok hmem) (.congr (exec_createInode ans name mode h.ready hd
        hfree.pos hfree.bitmap) ?_)
      exact total_createLink _ (h.scannable.of_sbi h.scannable.bitmapBlocks rfl)
        (h.ready.inodes_fileMade hd) (h.count dir d hd).2

theorem total_mkdirLink {b : Nat} {i : Int} (id : Nat) (h : m.Scannable)
    (hd : m.inodes dir = some d) (hcount : d.blockCount ≤ 8) (hb : b < 4096) :
    (mkdirLink dir name id i b).Total ans m fun _ _ => True := by
  refine (total_naiveAddEntry h hd hcount).bind fun r t hentry => ?_
  obtain ⟨hblocks, hdir, -, -⟩ := hentry.frame hd
  refine .ite (fun _ => ?_) fun _ => ?_
  · exact .bind_of (exec_freeBlock hb (hblocks.trans h.bitmapBlocks))
      (.bind_of exec_iput (.pure trivial))
  · exact .bind (total_updInode hdir) fun _ _ _ => .bind_of exec_dInstantiate (.pure trivial)

/-- `naive_mkdir` returns. -/
theorem FS.Sane.total_naiveMkdir (h : s.Sane) (hd : s.inodes dir = some d) :
    (naiveMkdir dir name mode).Total ans s fun _ _ => True := by
  refine .bind_of (exec_inode hd) (h.total_findFreeInode.bind fun r t hr => ?_)
  obtain ⟨rfl, ⟨rfl, -⟩ | ⟨ino, rfl, hfree⟩⟩ := hr
  · exact .pure trivial
  refine .ite (fun _ => .pure trivial) fun _ => ?_
  cases hmem : ans .newInode with
  | false => exact .bind_of (exec_newInode_fail hmem) (.pure trivial)
  | true =>
      refine .bind_of (exec_newInode_ok hmem) (.bind_of (exec_updInode FS.inodes_withNew_self) ?_)
      rw [FS.setInode_withNew, toU64_ino hfree.bitmap]
      have hnew : (t.withNew { iNlink := 1, iIno := ino }).Scannable :=
        h.scannable.of_sbi h.scannable.bitmapBlocks rfl
      refine hnew.total_allocBlock.bind fun r u hr => ?_
      rcases hr with ⟨hneg, rfl, -⟩ | ⟨b, rfl, rfl, hblock⟩
      · exact .ite (fun _ => .bind_of exec_iput (.pure trivial)) fun hneg' => absurd hneg hneg'
      have hb : t.NextFree b := FS.NextFree.congr (s := t) (t := t.withNew _) rfl rfl hblock
      refine .ite (fun _ => .bind_of exec_iput (.pure trivial)) fun _ => ?_
      cases hread : ans (.sbBread .mkdirNew 0 b) with
      | false =>
          exact .bind_of (exec_sbBread_fail hread) (.bind_of (exec_freeBlock hblock.bitmap
            hnew.bitmapBlocks) (.bind_of exec_iput (.pure trivial)))
      | true =>
          have hdir : ((t.withNew { iNlink := 1, iIno := ino }).markBlock b).inodes dir = some d :=
            h.ready.inodes_withNew hd
          refine .bind_of (exec_sbBread_ok hread) (.bind_of exec_bData (.bind_of
            (exec_inode hdir) (.bind_of exec_putData (.bind_of exec_brelse ?_))))
          rw [FS.writeBlock_addRef, FS.addRef_cancel,
            toU32_natCast (by have := hfree.bitmap; omega)]
          have hfill := exec_mkdirFill ans name mode b
            (m := (t.markBlock b).writeBlock b (dotBlock (t.block b) ino d.iIno))
            (h.ready.inodes_withNew hd) hfree.pos hfree.bitmap
          have hsb : (t.dirMade ans d mode ino b).block naiveSuperBlockBlock
              = t.block naiveSuperBlockBlock := by
            have hb64 : toU64 (b : Int) = b := toU64_ino (Nat.le_of_lt hb.bitmap)
            exact FS.block_writeBlock_ne fun heq => h.free b hb (hb64.symm.trans heq.symm)
          exact .congr hfill (total_mkdirLink _
            (h.scannable.of_sbi h.scannable.bitmapBlocks hsb) (h.ready.inodes_dirMade hd)
            (h.count dir d hd).2 hb.bitmap)

end Make

/-! ## `naive_unlink` and `naive_rmdir` -/

section Remove

variable {ans : Answers} {s t : FS} {id dir : Nat} {d nd : Inode} {name : Name}

theorem total_freeBlock {p : Int} (hs : s.sbi.blockBitmapBlocks = 1) (hp : 0 ≤ p) :
    (freeBlock p).Total ans s fun _ t => t = s.freed p := by
  refine .of_returns ?_ fun _ _ => exec_freeBlock_ok hs
  by_cases hlt : p < 4096
  · have hfree : (freeBlock p.toNat).exec ans s = .ok ((), s.unmarkBlock p.toNat) :=
      exec_freeBlock (by omega) hs
    rw [Int.toNat_of_nonneg hp] at hfree
    exact ⟨(), _, hfree⟩
  · have hdiv := tdiv_eight p
    rw [if_pos hp] at hdiv
    rw [freeBlock, exec_step, naiveFreeBlock]
    simp only [naiveBlockSize, hs]
    rw [if_neg (by omega)]
    exact ⟨(), s, rfl⟩

/-- The loop over the slots ends, as all of them hold block numbers. -/
theorem total_freeBlocks {n i : Nat} (hs : s.sbi.blockBitmapBlocks = 1)
    (hnd : s.inodes id = some nd) (hn : i + n ≤ 8)
    (hp : ∀ k, k < 8 → 0 ≤ nd.blockPointers k) :
    (freeBlocks id n i).Total ans s fun _ _ => True := by
  induction n generalizing s nd i with
  | zero => exact .pure trivial
  | succ n ih =>
      have hi : i < 8 := by omega
      have hpointer : (pointer nd i).exec ans s = .ok (nd.blockPointers i, s) := exec_pointer hi
      refine .bind_of (exec_inode hnd) (.bind_of hpointer (.ite (fun _ => ?_) fun _ => ?_))
      · exact ih hs hnd (by omega) hp
      refine (total_freeBlock hs (hp i hi)).bind fun _ u hu => ?_
      have hmem : u.inodes id = some nd := by
        rw [hu, FS.freed]
        split <;> exact hnd
      have hblocks : u.sbi.blockBitmapBlocks = 1 := by
        rw [hu, FS.freed]
        split <;> exact hs
      refine .bind_of (exec_updInode hmem) (ih (s := u.setInode id (nd.setPointer i 0)) hblocks
        FS.inodes_setInode_self (by omega) fun k hk => ?_)
      by_cases hki : k = i
      · rw [hki]
        show (0 : Int) ≤ Function.update nd.blockPointers i 0 i
        rw [Function.update_self]
      · show (0 : Int) ≤ Function.update nd.blockPointers i 0 k
        rw [Function.update_of_ne hki]
        exact hp k hk

/-- An inode with block numbers in its slots and a number is released. -/
theorem total_releaseInode (hs : s.sbi.blockBitmapBlocks = 1) (hnd : s.inodes id = some nd)
    (hcount : nd.blockCount ≤ 8) (hp : ∀ k, k < 8 → 0 ≤ nd.blockPointers k)
    (hino : 1 ≤ nd.iIno ∧ nd.iIno ≤ 4096) :
    (releaseInode id).Total ans s fun _ t => t =
      (s.released nd).setInode id { nd.zeroSlots nd.blockCount.toNat 0 with blockCount := 0 } := by
  refine .of_returns ?_ fun _ _ h => (releaseInode_ok hs hnd h).2
  have hloop : (freeBlocks id nd.blockCount.toNat 0).Total ans s fun _ u => True ∧ u =
      (s.freedSlots nd nd.blockCount.toNat 0).setInode id (nd.zeroSlots nd.blockCount.toNat 0) :=
    (total_freeBlocks hs hnd (by omega) hp).and fun _ u h => (freeBlocks_ok hs hnd h).2
  refine (Total.bind_of (P := fun _ _ => True) (exec_inode hnd)
    (hloop.bind fun _ u hu => ?_)).returns
  obtain ⟨-, rfl⟩ := hu
  have hsmall : toInt32 (nd.iIno : Int) = nd.iIno := toInt32_of_small (by omega) (by omega)
  rw [hsmall]
  exact .bind_of (exec_updInode FS.inodes_setInode_self)
    (.of_exec (exec_clearInodeBit hino.1 hino.2) trivial)

theorem FS.Sane.total_releaseInode (h : s.Sane) (hnd : s.inodes id = some nd)
    (hsbi : t.sbi = s.sbi) (hinodes : t.inodes = s.inodes) :
    (releaseInode id).Total ans t fun _ u => u =
      (t.released nd).setInode id { nd.zeroSlots nd.blockCount.toNat 0 with blockCount := 0 } :=
  NaiveFS.total_releaseInode (hsbi ▸ h.ready.bitmapBlocks) (hinodes ▸ hnd) (h.count id nd hnd).2
    (fun k hk => h.pointers id nd k hnd hk) (h.number id nd hnd)

theorem total_naiveRemoveEntry (hd : s.inodes dir = some d) (hcount : d.blockCount ≤ 8) :
    (naiveRemoveEntry dir name).Total ans s (RemoveEntry ans s d name) :=
  .of_returns (exists_naiveRemoveEntry ans name hd hcount) fun _ _ => naiveRemoveEntry_cases hd

theorem FS.Sane.total_naiveUnlink (h : s.Sane) (hd : s.inodes dir = some d)
    (hnd : s.inodes id = some nd) : (naiveUnlink dir name id).Total ans s fun _ _ => True := by
  refine (total_naiveRemoveEntry hd (h.count dir d hd).2).bind fun r t hentry => ?_
  rcases hentry.cases_ret with ⟨hneg, rfl⟩ | ⟨rfl, i, j, -, rfl⟩
  · exact .ite (fun _ => .pure trivial) fun hneg' => absurd hneg hneg'
  refine .ite (fun _ => .pure trivial) fun _ => ?_
  refine .bind (h.total_releaseInode (t := _) hnd rfl rfl) fun _ u hu => ?_
  exact .bind (total_updInode ⟨_, hu ▸ FS.inodes_setInode_self⟩) fun _ _ _ => .pure trivial

theorem FS.Sane.total_naiveRmdir (h : s.Sane) (hd : s.inodes dir = some d)
    (hnd : s.inodes id = some nd) : (naiveRmdir dir name id).Total ans s fun _ _ => True := by
  refine .bind_of (exec_inode hd) (.bind_of (exec_inode hnd) (.ite (fun _ => .pure trivial)
    fun _ => ?_))
  have hscan : (rmdirScan nd).Total ans s fun _ t => t = s :=
    .of_returns (exists_scanRecords (h.count id nd hnd).2 fun b v j s => ⟨_, _, rfl⟩)
      fun _ _ hq => (rmdirScan_cases hq).1
  refine hscan.bind fun q t ht => ?_
  subst ht
  cases q with
  | some r => exact .pure trivial
  | none =>
  refine (total_naiveRemoveEntry hd (h.count dir d hd).2).bind fun r u hentry => ?_
  rcases hentry.cases_ret with ⟨hneg, rfl⟩ | ⟨rfl, i, j, -, rfl⟩
  · exact .ite (fun _ => .pure trivial) fun hneg' => absurd hneg hneg'
  refine .ite (fun _ => .pure trivial) fun _ => ?_
  refine .bind (h.total_releaseInode (t := _) hnd rfl rfl) fun _ u hu => ?_
  -- both inodes stay in memory, also where the directory is the inode removed
  have hin (k : Nat) (e : Inode) (he : t.inodes k = some e) : ∃ e, u.inodes k = some e := by
    by_cases hk : k = id
    · rw [hu, hk, FS.inodes_setInode_self]
      exact ⟨_, rfl⟩
    · exact ⟨e, by rw [hu, FS.inodes_setInode_ne hk, FS.released_inodes]; exact he⟩
  refine .bind (total_updInode (hin dir d hd)) fun _ v hv => ?_
  obtain ⟨e, he, rfl⟩ := hv
  refine .bind (total_updInode ?_) fun _ _ _ => .bind_of exec_dDrop (.pure trivial)
  by_cases hk : id = dir
  · rw [hk, FS.inodes_setInode_self]
    exact ⟨_, rfl⟩
  · rw [FS.inodes_setInode_ne hk]
    exact hin id nd hnd

/-- `vfs_unlink` and `vfs_rmdir` return. -/
theorem FS.Sane.total_vfsUnlink (h : s.Sane) (hd : s.inodes dir = some d) :
    (vfsUnlink dir name).Total ans s fun _ _ => True := by
  refine .bind_of (exec_read _) ?_
  cases hdentry : s.dcache dir name with
  | none => exact .pure trivial
  | some id =>
      obtain ⟨nd, hnd⟩ := h.dentry dir name id hdentry
      exact (h.total_naiveUnlink hd hnd).bind fun r t _ =>
        .ite (fun _ => .of_exec rfl trivial) fun _ => .pure trivial

theorem FS.Sane.total_vfsRmdir (h : s.Sane) (hd : s.inodes dir = some d) :
    (vfsRmdir dir name).Total ans s fun _ _ => True := by
  refine .bind_of (exec_read _) ?_
  cases hdentry : s.dcache dir name with
  | none => exact .pure trivial
  | some id =>
      obtain ⟨nd, hnd⟩ := h.dentry dir name id hdentry
      exact (h.total_naiveRmdir hd hnd).bind fun r t _ =>
        .ite (fun _ => .of_exec rfl trivial) fun _ => .pure trivial

end Remove

/-! ## Files -/

section Files

variable {ans : Answers} {s : FS} {id pos : Nat} {nd : Inode} {data : List Byte}

/-- The slot of an offset within the largest file. -/
theorem exec_pointer_pos (hpos : pos < naiveMaxFileSize) :
    (pointer nd (toInt32 (pos / naiveBlockSize : Nat))).exec ans s
      = .ok (nd.blockPointers (pos / naiveBlockSize), s) := by
  have hslot : pos / naiveBlockSize < 8 := by
    unfold naiveMaxFileSize naiveBlockPerFile naiveBlockSize at *
    omega
  rw [blockIndex_eq hslot]
  exact exec_pointer hslot

/-- The copy loop ends, at most as far as the data reaches. -/
theorem total_fileWriteLoop {fuel : Nat} {ret : Int} (hnd : s.inodes id = some nd)
    (hmax : pos + data.length ≤ naiveMaxFileSize) :
    (fileWriteLoop id fuel pos data ret).Total ans s fun q t =>
      t.inodes = s.inodes ∧ q.2 ≤ pos + data.length := by
  induction fuel generalizing s pos data ret with
  | zero => exact .pure ⟨rfl, Nat.le_add_right _ _⟩
  | succ fuel ih =>
      have hstop {r : Int} {u : FS} (hu : u.inodes = s.inodes) :
          (pure (r, pos) : K (Int × Nat)).Total ans u fun q t =>
            t.inodes = s.inodes ∧ q.2 ≤ pos + data.length :=
        .pure ⟨hu, Nat.le_add_right _ _⟩
      refine .ite (fun _ => hstop rfl) fun hdata => .bind_of (exec_inode hnd) ?_
      have hpos : 0 < data.length := List.length_pos_of_ne_nil hdata
      refine .ite (fun _ => hstop rfl) fun _ => .bind_of (exec_pointer_pos (by omega)) ?_
      cases hread : ans (.sbBread .fileWrite (pos / naiveBlockSize)
          (nd.blockPointers (pos / naiveBlockSize))) with
      | false => exact .bind_of (exec_sbBread_fail hread) (hstop rfl)
      | true =>
          refine .bind_of (exec_sbBread_ok hread) (.bind_of exec_bData (.bind_of (exec_ask _) ?_))
          refine .ite (fun _ => ?_) fun _ => ?_
          · exact .bind_of (exec_modify _) (.bind_of exec_brelse (hstop rfl))
          refine .bind_of exec_putData (.bind_of exec_brelse (.mono (ih hnd ?_) fun q t ht => ?_))
          · rw [List.length_drop]
            omega
          · refine ⟨ht.1, Nat.le_trans ht.2 ?_⟩
            rw [List.length_drop]
            omega

theorem total_fileWriteData (hnd : s.inodes id = some nd)
    (hmax : pos + data.length ≤ naiveMaxFileSize) :
    (fileWriteData id data pos).Total ans s fun _ t =>
      ∃ e, t.inodes id = some e ∧ e.iSize ≤ max nd.iSize naiveMaxFileSize := by
  refine (total_fileWriteLoop hnd hmax).bind fun q t ht => ?_
  obtain ⟨hinodes, hend⟩ := ht
  have hin : t.inodes id = some nd := hinodes ▸ hnd
  refine .bind_of (exec_inode hin) (.ite (fun _ => ?_) fun _ => ?_)
  · refine .bind_of (exec_updInode hin) (.bind_of exec_ktime
      (.bind_of (exec_updInode FS.inodes_setInode_self) ?_))
    refine .pure ⟨_, FS.inodes_setInode_self, ?_⟩
    show (q.2 : Int) ≤ max nd.iSize naiveMaxFileSize
    omega
  · exact .bind_of exec_ktime (.bind_of (exec_updInode hin)
      (.pure ⟨_, FS.inodes_setInode_self, Int.le_max_left _ _⟩))

/-- `naive_file_write` returns, and no file is larger than its eight blocks. -/
theorem FS.Sane.total_naiveFileWrite (h : s.Sane) (hnd : s.inodes id = some nd)
    (hrange : pos + data.length < 2 ^ 63) :
    (naiveFileWrite id data pos).Total ans s fun _ t =>
      ∃ e, t.inodes id = some e ∧ e.iSize ≤ max nd.iSize naiveMaxFileSize := by
  have hcount := h.count id nd hnd
  have htotal : toU64 ((pos : Int) + data.length) = pos + data.length := by
    unfold toU64
    omega
  refine .bind_of (exec_inode hnd) ?_
  dsimp only
  rw [htotal]
  refine .ite (fun _ => .pure ⟨nd, hnd, Int.le_max_left _ _⟩) fun hmax =>
    .ite (fun _ => ?_) fun _ => ?_
  · refine .bind_of (exec_fileWriteAlloc h.scannable ans hnd hcount _) (.ite (fun _ => ?_)
      fun _ => ?_)
    · refine .pure ⟨_, FS.inodes_setInode_self, ?_⟩
      rw [iSize_attach]
      exact Int.le_max_left _ _
    · refine .mono (total_fileWriteData FS.inodes_setInode_self (by omega)) fun _ t ht => ?_
      rwa [iSize_attach] at ht
  · exact total_fileWriteData hnd (by omega)

theorem total_fileReadLoop {fuel remaining : Nat} {out : List Byte} (hnd : s.inodes id = some nd)
    (hmax : pos + remaining ≤ naiveMaxFileSize) :
    (fileReadLoop id fuel pos remaining out).Total ans s fun _ _ => True := by
  induction fuel generalizing s pos remaining out with
  | zero => exact .pure trivial
  | succ fuel ih =>
      refine .ite (fun _ => .pure trivial) fun hrest => .bind_of (exec_inode hnd) ?_
      refine .ite (fun _ => .pure trivial) fun _ => .bind_of (exec_pointer_pos (by omega)) ?_
      refine .ite (fun _ => .pure trivial) fun _ => ?_
      cases hread : ans (.sbBread .fileRead (pos / naiveBlockSize)
          (nd.blockPointers (pos / naiveBlockSize))) with
      | false => exact .bind_of (exec_sbBread_fail hread) (.pure trivial)
      | true =>
          refine .bind_of (exec_sbBread_ok hread) (.bind_of exec_bData (.bind_of (exec_ask _)
            (.bind_of exec_brelse (.ite (fun _ => .pure trivial) fun _ => ih hnd ?_))))
          omega

/-- `naive_file_read` returns. -/
theorem FS.Sane.total_naiveFileRead (h : s.Sane) (hnd : s.inodes id = some nd)
    (hfile : nd.isDir = false) (len : Nat) :
    (naiveFileRead id len pos).Total ans s fun _ _ => True := by
  have hsize := h.size id nd hnd hfile
  refine .bind_of (exec_inode hnd) (.ite (fun _ => .pure trivial) fun hpos => ?_)
  refine total_fileReadLoop hnd ?_
  have hleft : toU64 (nd.iSize - pos) = (nd.iSize - pos).toNat := by
    unfold toU64 naiveMaxFileSize naiveBlockPerFile naiveBlockSize at *
    omega
  rw [hleft]
  omega

/-- `naive_write_inode` returns. -/
theorem FS.Sane.total_naiveWriteInode (h : s.Sane) (hnd : s.inodes id = some nd) :
    (naiveWriteInode id).Total ans s fun _ _ => True := by
  refine .bind_of (exec_inode hnd) (.bind_of exec_diskSb ?_)
  generalize hb : inodeTableBlock (s.block naiveSuperBlockBlock) nd.iIno = b
  cases hread : ans (.sbBread .writeInode 0 b) with
  | false => exact .bind_of (exec_sbBread_fail hread) (.pure trivial)
  | true =>
      obtain ⟨v, hv⟩ := exists_encodeInode (h.count id nd hnd).2 ((s.addRef b 1).block b)
      exact .bind_of (exec_sbBread_ok hread) (.bind_of exec_bData
        (.bind_of (exec_lift_ok.mpr ⟨hv, rfl⟩) (.of_exec rfl trivial)))

/-- A call on inodes in memory returns. -/
theorem FS.Sane.total_op {op : Op} (h : s.Sane) (hop : op.cached)
    (hnd : s.inodes op.target = some nd) (hrange : op.InRange) :
    op.prog.Total ans s fun _ _ => True := by
  cases op with
  | create dir name perm => exact h.total_naiveCreate hnd
  | mkdir dir name mode => exact h.total_naiveMkdir hnd
  | unlink dir name => exact h.total_vfsUnlink hnd
  | rmdir dir name => exact h.total_vfsRmdir hnd
  | write id data pos =>
      exact (h.total_naiveFileWrite hnd hrange).bind fun _ _ _ => .pure trivial
  | lookup => exact hop.elim

end Files

/-! ## Every run -/

/-- What every run keeps, whatever fails. -/
structure FS.Steady (disk : Nat → Bytes) (s : FS) : Prop where
  ready : s.Ready
  mapped : s.Mapped (· = naiveSuperBlockBlock) disk
  number : ∀ id v, s.number id = some v → 1 ≤ v ∧ v ≤ 4096
  size : ∀ id nd, s.inodes id = some nd → nd.isDir = false → nd.iSize ≤ naiveMaxFileSize
  dentry : ∀ dir name id, s.dcache dir name = some id → ∃ nd, s.inodes id = some nd
  once : s.NamedOnce

section Runs

variable {disk : Nat → Bytes} {ans : Answers} {s s0 t : FS} {id dir k : Nat} {d nd : Inode}
  {name : Name} {r : Int} {op : Op}

theorem FS.Steady.sane (hg : Disk.Guarded (· = naiveSuperBlockBlock) disk)
    (hcover : BitmapsCover (disk naiveSuperBlockBlock)) (h : s.Steady disk) : s.Sane := by
  have hsb : s.block naiveSuperBlockBlock = disk naiveSuperBlockBlock := h.mapped.guarded _ rfl
  have hstart := hg.start
  have hblocks := hcover.blocks
  have hinodes := hcover.inodes
  have hp (id : Nat) (nd : Inode) (hnd : s.inodes id = some nd) : nd.Prefix (0 ≤ ·) :=
    (h.mapped.node id nd hnd).mono fun p hp => by
      have hlow := hp.1.1
      omega
  refine ⟨h.ready, ⟨h.ready.bitmapBlocks, ?_, ?_⟩, ?_, fun id nd hnd => ?_, fun id nd i hnd hi => ?_,
    fun id nd hnd => h.number id _ (FS.number_of hnd), h.size, h.dentry, fun b hb => ?_⟩
  · show 0 ≤ toInt32 (SuperBlock.dataBlockNo (s.block naiveSuperBlockBlock))
    rw [hsb]
    exact Int.le_of_lt hstart
  · show toInt32 (SuperBlock.blockTotal (s.block naiveSuperBlockBlock)) ≤ 4096
    rw [hsb, toInt32_of_small (by omega) (by omega)]
    omega
  · show toInt32 (SuperBlock.inodeTotal (s.block naiveSuperBlockBlock)) ≤ 4096
    rw [hsb, toInt32_of_small (by omega) (by omega)]
    omega
  · exact ⟨(hp id nd hnd).count_nonneg, (hp id nd hnd).count_le⟩
  · rcases Int.lt_or_le (i : Int) nd.blockCount with hlt | hge
    · exact (hp id nd hnd).below i hlt
    · rw [(hp id nd hnd).above i hge hi]
  · have hne := (h.mapped.freeData hg hb).not_guarded hg rfl
    rw [toU64_ino (Nat.le_of_lt hb.bitmap)] at hne
    exact hne.symm

/-! ### What stays in memory -/

theorem FS.exists_mapInode (id : Nat) (f : Inode → Inode) (hnd : s.inodes k = some nd) :
    ∃ nd', (s.mapInode id f).inodes k = some nd' := by
  by_cases hk : k = id
  · rw [hk] at hnd ⊢
    rw [FS.mapInode_of hnd, FS.inodes_setInode_self]
    exact ⟨f nd, rfl⟩
  · exact ⟨nd, (FS.inodes_mapInode_ne hk).trans hnd⟩

theorem Write.node (hw : Write s id r t) (hnd : s.inodes id = some nd) :
    ∃ nd', t.inodes id = some nd' := by
  cases hw with
  | tooBig => exact ⟨nd, hnd⟩
  | noSpace grow => exact grow.node hnd
  | written => exact ⟨_, FS.inodes_setInode_self⟩

theorem AddEntry.remain {ino : Int} (hd : s.inodes dir = some d)
    (he : AddEntry ans s dir d name ino r t) (hnd : s.inodes k = some nd) :
    ∃ nd', t.inodes k = some nd' := by
  obtain ⟨-, hdir, -, hother⟩ := he.frame hd
  by_cases hk : k = dir
  · rw [hk]
    exact hdir
  · exact ⟨nd, (hother k hk).trans hnd⟩

theorem Create.remain {mode : Nat} (hs : s.Ready) (hd : s.inodes dir = some d)
    (hc : Create ans s dir d name mode r t) (hnd : s.inodes k = some nd) :
    ∃ nd', t.inodes k = some nd' := by
  cases hc with
  | noInode | noMemory => exact ⟨nd, hnd⟩
  | notLinked free mem entry =>
      rw [FS.inodes_dropInode_ne (hs.ne_next hnd)]
      exact entry.remain (hs.inodes_fileMade hd) (hs.inodes_fileMade hnd)
  | linked free mem entry =>
      obtain ⟨e, he⟩ := entry.remain (hs.inodes_fileMade hd) (hs.inodes_fileMade hnd)
      exact ⟨e, he⟩

theorem Mkdir.remain {mode : Nat} (hs : s.Ready) (hd : s.inodes dir = some d)
    (hm : Mkdir ans s dir d name mode r t) (hnd : s.inodes k = some nd) :
    ∃ nd', t.inodes k = some nd' := by
  cases hm with
  | noInode | noMemory | noBlock | blockUnreadable => exact ⟨nd, hnd⟩
  | @notLinked _ b _ u free mem block read entry fail =>
      obtain ⟨e, he⟩ := entry.remain (hs.inodes_dirMade hd) (hs.inodes_dirMade hnd)
      exact ⟨e, (FS.inodes_dropInode_ne (hs.ne_next hnd)).trans he⟩
  | @linked _ _ u free mem block read entry =>
      obtain ⟨e, he⟩ := entry.remain (hs.inodes_dirMade hd) (hs.inodes_dirMade hnd)
      exact FS.exists_mapInode dir Inode.addLink he

/-- A call leaves the inodes in memory but for the one whose name it removes. -/
theorem Step.remain (hs : s.Ready) (hop : op.cached) (hstep : Step s op ans r t)
    (hnd : s.inodes k = some nd) : (∃ nd', t.inodes k = some nd') ∨
      ∃ dir name, s.dcache dir name = some k ∧ t.dcache dir name = none := by
  have hgone {u : FS} {dir id : Nat} {name : Name} (e : Inode) (hu : ∃ nd', u.inodes k = some nd')
      (hid : s.dcache dir name = some id) :
      (∃ nd', (u.removed dir name id e).inodes k = some nd') ∨ ∃ dir' name',
        s.dcache dir' name' = some k ∧ (u.removed dir name id e).dcache dir' name' = none := by
    by_cases hk : k = id
    · refine .inr ⟨dir, name, hk ▸ hid, ?_⟩
      rw [removed_dcache, FS.dcache_setDentry, if_pos ⟨rfl, rfl⟩]
    · rw [inodes_removed_ne hk]
      exact .inl hu
  cases op with
  | create dir name perm =>
      obtain ⟨d, hd, hc⟩ := naiveCreate_cases hs hstep
      exact .inl (hc.remain hs hd hnd)
  | mkdir dir name mode =>
      obtain ⟨d, hd, hm⟩ := naiveMkdir_cases hs hstep
      exact .inl (hm.remain hs hd hnd)
  | unlink dir name =>
      cases vfsUnlink_cases hs hstep with
      | noDentry | notRemoved => exact .inl ⟨nd, hnd⟩
      | removed dentry parent target node stop => exact hgone _ ⟨nd, hnd⟩ dentry
  | rmdir dir name =>
      cases vfsRmdir_cases hs hstep with
      | noDentry | notDir | unreadable | notEmpty | notRemoved => exact .inl ⟨nd, hnd⟩
      | @removed d e id i j dentry parent target node isDir empty stop =>
          exact hgone _ (FS.exists_mapInode (s := s.clearRecord d i j) dir Inode.dropLink hnd) dentry
  | write id data pos =>
      obtain ⟨q, u, hwrite, hend⟩ := exec_bind_ok.mp hstep
      cases hend
      have hcases := naiveFileWrite_cases hs hwrite
      by_cases hk : k = id
      · rw [hk] at hnd ⊢
        exact .inl (hcases.node hnd)
      · exact .inl ⟨nd, (hcases.inodes hk).trans hnd⟩
  | lookup => exact hop.elim

/-- A dentry leads where it led, or to the inode just made. -/
theorem Step.dentry (hs : s.Ready) (hop : op.cached) (hstep : Step s op ans r t)
    (hid : t.dcache dir name = some k) :
    s.dcache dir name = some k ∨ ∃ nd, t.inodes k = some nd := by
  have hnew (u : FS) {x : Name} {n i : Nat} (hu : u.dcache = s.dcache)
      (hn : ∃ nd, u.inodes i = some nd) (hk : (u.setDentry n x (some i)).dcache dir name = some k) :
      s.dcache dir name = some k ∨ ∃ nd, (u.setDentry n x (some i)).inodes k = some nd := by
    rw [FS.dcache_setDentry] at hk
    split at hk
    · cases hk
      exact .inr hn
    · exact .inl (hu ▸ hk)
  have hremoved (u : FS) {x : Name} {n i : Nat} {e : Inode} (hu : u.dcache = s.dcache)
      (hk : (u.removed n x i e).dcache dir name = some k) : s.dcache dir name = some k := by
    rw [removed_dcache, FS.dcache_setDentry] at hk
    split at hk
    · cases hk
    · exact hu ▸ hk
  -- a dentry is an old one, or leads to the inode the call made
  cases op with
  | create n x perm =>
      obtain ⟨d, hd, hc⟩ := naiveCreate_cases hs hstep
      cases hc with
      | noInode | noMemory => exact .inl hid
      | @notLinked _ _ u free mem entry =>
          have hu : u.dcache = s.dcache := entry.dcache
          exact .inl (hu ▸ hid)
      | @linked _ u free mem entry =>
          obtain ⟨nd, hnd⟩ := entry.remain (hs.inodes_fileMade hd) FS.inodes_withNew_self
          exact hnew u entry.dcache ⟨nd, hnd⟩ hid
  | mkdir n x mode =>
      obtain ⟨d, hd, hm⟩ := naiveMkdir_cases hs hstep
      cases hm with
      | noInode | noMemory | noBlock | blockUnreadable => exact .inl hid
      | @notLinked _ _ _ u free mem block read entry =>
          have hu : u.dcache = s.dcache := entry.dcache
          exact .inl (hu ▸ hid)
      | @linked _ _ u free mem block read entry =>
          obtain ⟨nd, hnd⟩ := entry.remain (hs.inodes_dirMade hd) FS.inodes_withNew_self
          exact hnew _ ((mapInode_dcache u n _).trans entry.dcache)
            (FS.exists_mapInode n Inode.addLink hnd) hid
  | unlink n x =>
      cases vfsUnlink_cases hs hstep with
      | noDentry | notRemoved => exact .inl hid
      | removed => exact .inl (hremoved (s.clearRecord _ _ _) rfl hid)
  | rmdir n x =>
      cases vfsRmdir_cases hs hstep with
      | noDentry | notDir | unreadable | notEmpty | notRemoved => exact .inl hid
      | removed => exact .inl (hremoved _ (mapInode_dcache (s.clearRecord _ _ _) n _) hid)
  | write id data pos =>
      obtain ⟨q, u, hwrite, hend⟩ := exec_bind_ok.mp hstep
      cases hend
      exact .inl ((naiveFileWrite_cases hs hwrite).dcache ▸ hid)
  | lookup => exact hop.elim

/-! ### The invariant -/

/-- A file's size stays within its eight blocks. -/
theorem Step.fileSize (hs : s.Sane) (hop : op.cached) (hcheck : op.Checked s)
    (hstep : Step s op ans r t) (hnd : t.inodes k = some nd) (hfile : nd.isDir = false) :
    nd.iSize ≤ naiveMaxFileSize := by
  cases op with
  | create dir name perm =>
      obtain ⟨d, hd, hcases⟩ := naiveCreate_cases hs.ready hstep
      by_cases hk : k = dir
      · subst hk
        obtain ⟨d', hd', -, hmode⟩ := hcases.parent hs.ready hd
        obtain rfl := Option.some.inj (hd'.symm.trans hnd)
        rw [isDir_of_iMode hmode, hcheck d hd] at hfile
        cases hfile
      · rcases hcases.inodes hs.ready hd hk hnd with hold | ⟨-, -, ino, -, rfl⟩
        · exact hs.size k nd hold hfile
        · exact show (0 : Int) ≤ naiveMaxFileSize by decide
  | mkdir dir name mode =>
      obtain ⟨d, hd, hcases⟩ := naiveMkdir_cases hs.ready hstep
      by_cases hk : k = dir
      · subst hk
        obtain ⟨d', hd', -, hmode⟩ := hcases.parent hs.ready hd
        obtain rfl := Option.some.inj (hd'.symm.trans hnd)
        rw [isDir_of_iMode hmode, hcheck d hd] at hfile
        cases hfile
      · rcases hcases.inodes hs.ready hd hk hnd with hold | ⟨-, -, ino, b, -, -, rfl⟩
        · exact hs.size k nd hold hfile
        · exact show (512 : Int) ≤ naiveMaxFileSize by decide
  | unlink dir name =>
      exact hs.size k nd ((vfsUnlink_cases hs.ready hstep).inodes hnd) hfile
  | rmdir dir name =>
      rcases (vfsRmdir_cases hs.ready hstep).inodes hnd with hold | ⟨rfl, d, hd, rfl⟩
      · exact hs.size k nd hold hfile
      · exact hs.size k d hd hfile
  | write id data pos =>
      obtain ⟨q, u, hwrite, hend⟩ := exec_bind_ok.mp hstep
      cases hend
      by_cases hk : k = id
      · subst hk
        obtain ⟨e, he⟩ := exec_inode_bind_ok hwrite
        obtain ⟨q', u', hexec, e', he', hsize⟩ := hs.total_naiveFileWrite he hcheck.2
        cases hwrite.symm.trans hexec
        obtain rfl := Option.some.inj (hnd.symm.trans he')
        exact Int.le_trans hsize (Int.max_le.mpr ⟨hs.size k e he (hcheck.1 e he), Int.le_refl _⟩)
      · exact hs.size k nd ((naiveFileWrite_cases hs.ready hwrite).inodes hk ▸ hnd) hfile
  | lookup => exact hop.elim

/-- Every step keeps it, whatever fails in it. -/
theorem Step.steady (hg : Disk.Guarded (· = naiveSuperBlockBlock) disk)
    (hcover : BitmapsCover (disk naiveSuperBlockBlock)) (h : s.Steady disk) (hop : op.cached)
    (hcheck : op.Checked s) (hstep : Step s op ans r t) : t.Steady disk := by
  have hs := h.ready
  have honce : t.NamedOnce := (hstep.dentries hs hop).once h.once fun dir name hid => by
    obtain ⟨nd, hnd⟩ := h.dentry dir name _ hid
    cases (hs.fresh _ (Nat.le_refl _)).symm.trans hnd
  refine ⟨hstep.ready hs, hstep.mapped hg hs h.mapped hop, fun id v hv => ?_,
    fun id nd => hstep.fileSize (h.sane hg hcover) hop hcheck, fun dir name id hid => ?_, honce⟩
  · rcases hstep.numbers hs hop id v hv with hold | ⟨-, -, hfree⟩
    · exact h.number id v hold
    · exact ⟨hfree.pos, hfree.bitmap⟩
  · rcases hstep.dentry hs hop hid with hold | hnew
    · obtain ⟨nd, hnd⟩ := h.dentry dir name id hold
      rcases hstep.remain hs hop hnd with hstay | ⟨dir', name', hother, hgone⟩
      · exact hstay
      · obtain ⟨rfl, rfl⟩ := h.once dir name dir' name' id hold hother
        cases hid.symm.trans hgone
    · exact hnew

theorem steady_mounted (disk : Nat → Bytes) (ts : Timespec) :
    (FS.mounted disk ts).Steady disk := by
  refine ⟨⟨rfl, fun id hid => ?_⟩, mapped_mounted disk ts, fun id v hv => ?_,
    fun id nd hnd _ => ?_, fun _ _ _ h => absurd h (by simp [FS.mounted]),
    fun _ _ _ _ _ h => absurd h (by simp [FS.mounted])⟩
  · cases hnd : (FS.mounted disk ts).inodes id with
    | none => rfl
    | some nd =>
        obtain ⟨rfl, -⟩ := inodes_mounted hnd
        cases hid
  · obtain ⟨nd, hnd, rfl⟩ := FS.number_eq_some.mp hv
    obtain ⟨-, rfl⟩ := inodes_mounted hnd
    exact ⟨Nat.le_refl 1, show 1 ≤ 4096 by decide⟩
  · obtain ⟨-, rfl⟩ := inodes_mounted hnd
    exact show (0 : Int) ≤ naiveMaxFileSize by decide

/-- On a device that one bitmap block each covers, whose data area leaves out the boot block and
the superblock: in every state a run leads to, whatever failed before, every call on inodes in
memory returns, whatever fails in it, and nothing that a bit is computed from is negative. -/
theorem calls_return (h0 : Mounted disk s0) (hg : Disk.Guarded (· = naiveSuperBlockBlock) disk)
    (hcover : BitmapsCover (disk naiveSuperBlockBlock))
    (h : Reach (fun s op _ _ => op.cached ∧ op.Checked s) s0 s) (ans : Answers) :
    (∀ (op : Op) nd, op.cached → op.InRange → s.inodes op.target = some nd →
      ∃ r t, op.prog.exec ans s = .ok (r, t)) ∧
    (∀ id nd len pos, s.inodes id = some nd → nd.isDir = false →
      ∃ q t, (naiveFileRead id len pos).exec ans s = .ok (q, t)) ∧
    (∀ id nd, s.inodes id = some nd → ∃ r t, (naiveWriteInode id).exec ans s = .ok (r, t)) ∧
    0 ≤ s.dataStart ∧ ∀ id nd, s.inodes id = some nd →
      1 ≤ nd.iIno ∧ ∀ i, i < 8 → 0 ≤ nd.blockPointers i := by
  have hsteady : s.Steady disk := by
    obtain ⟨_, ts, rfl⟩ := mounted_eq h0
    exact h.invariant (steady_mounted disk ts) fun _ _ _ _ _ ht hP hstep =>
      hstep.steady hg hcover ht hP.1 hP.2
  have hsane := hsteady.sane hg hcover
  exact ⟨fun op nd hop hrange hnd => (hsane.total_op hop hnd hrange).returns,
    fun id nd len pos hnd hfile => (hsane.total_naiveFileRead hnd hfile len).returns,
    fun id nd hnd => (hsane.total_naiveWriteInode hnd).returns, hsane.scannable.start,
    fun id nd hnd => ⟨(hsane.number id nd hnd).1, fun i hi => hsane.pointers id nd i hnd hi⟩⟩

end Runs

/-! ### A run in which a read fails -/

/-- A directory in the root; the block of the next one cannot be read. -/
def unreadRun : List (Op × Answers) :=
  [(.mkdir 0 (.letters 1 Nat.one_pos Name.one_le_max) 0o755, Answers.good default 0 0),
    (.mkdir 1 (.letters 1 Nat.one_pos Name.one_le_max) 0o755,
      Answers.unreadable .mkdirNew default 0 0)]

theorem calls_return_sample : ∃ s,
    runOpsIf (fun s op _ => decide (op.Checked s)) (FS.mounted (sampleDisk 128 1000 4 132) default)
      unreadRun = some s ∧
    ∀ name ans, ∃ r t, (Op.rmdir 0 name).prog.exec ans s = .ok (r, t) := by
  obtain ⟨s, hs, hroot⟩ := (Option.any_eq_true _ _).mp (show
    (runOpsIf (fun s op _ => decide (op.Checked s)) (FS.mounted (sampleDisk 128 1000 4 132) default)
      unreadRun).any (fun s => (s.inodes 0).isSome) = true by decide +kernel)
  refine ⟨s, hs, fun name ans => ?_⟩
  obtain ⟨nd, hnd⟩ := Option.isSome_iff_exists.mp hroot
  have hrun : Reach (fun s op _ _ => op.cached ∧ op.Checked s)
      (FS.mounted (sampleDisk 128 1000 4 132) default) s := by
    refine Reach.of_runOpsIf (fun u x r hx hok => ⟨?_, of_decide_eq_true hok⟩) .refl hs
    simp only [unreadRun, List.mem_cons, List.not_mem_nil, or_false] at hx
    rcases hx with rfl | rfl <;> trivial
  exact (calls_return (sampleDisk_mounted 128 1000 4 132 default) guarded_sampleDisk
    ⟨by decide, by decide⟩ hrun ans).1 (.rmdir 0 name) nd trivial trivial hnd

end NaiveFS
