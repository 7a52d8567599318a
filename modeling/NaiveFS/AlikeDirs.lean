import NaiveFS.DirectoryMap
import NaiveFS.Alike

/-!
# The directory functions over different bytes

From states that are alike outside `H`, and in which `H` has no place in a block of a directory,
the functions of `naivefs_dir.c` and the two that unlink and create run alike. A block they take
is cleared before it is used, so it has no place in `H` afterwards.
-/

namespace NaiveFS

open Bytes Prog

section Directories

variable {H : Nat → Nat → Prop} {s s' t t' : FS} {nd : Inode}

/-- The places of `H` that are not in a block taken between `s` and `t`: the directory functions
clear the blocks they take. -/
def Unfilled (H : Nat → Nat → Prop) (s t : FS) (b o : Nat) : Prop :=
  H b o ∧ (t.isMarked b → s.isMarked b)

/-- A cleared block is the same in both. -/
theorem FS.Alike.zero_block (h : s.Alike H s') (b : Int) :
    (s'.block b).zero 0 naiveBlockSize = (s.block b).zero 0 naiveBlockSize := by
  funext o
  by_cases ho : o < naiveBlockSize
  · rw [zero_in (Nat.zero_le o) (by omega), zero_in (Nat.zero_le o) (by omega)]
  · rw [zero_out (.inr (by omega)), zero_out (.inr (by omega))]
    exact h.bytes _ o fun hH => ho (h.within _ o hH).2

theorem FS.Alike.block_dots (h : s.Alike H s') (b : Int) (m : Nat) :
    dotBlock (s'.block b) m = dotBlock (s.block b) m := by
  unfold dotBlock
  rw [h.zero_block]

/-- Nothing was taken on the way. -/
theorem FS.Alike.unfilled (h : t.Alike H t') (hm : ∀ b, t.isMarked b → s.isMarked b) :
    t.Alike (Unfilled H s t) t' :=
  h.mono (fun b _ ho => ⟨ho, hm b⟩) fun b o ho => h.within b o ho.1

/-- A block that is taken and filled with the same bytes in both has no place in `H` any more. -/
theorem FS.Alike.fill {b : Nat} (h : s.Alike H s') (hb : b < 4096) (v : Bytes) :
    (s.writeBlock b v).Alike (fun c o => H c o ∧ c ≠ b) (s'.writeBlock b v) := by
  have hsector : toU64 (b : Int) = b := toU64_natCast (by omega)
  exact h.writeBlock (fun _ _ => rfl) (fun c o hc ho => ⟨ho, by rwa [hsector] at hc⟩)
    fun c o ho => h.within c o ho.1

theorem Unfilled.taken {u : FS} {b c o : Nat} (hb : b < 4096)
    (hm : ∀ c, u.isMarked c → (s.markBlock b).isMarked c)
    (h : Unfilled (fun c o => H c o ∧ c ≠ b) u t c o) : Unfilled H s t c o := by
  refine ⟨h.1.1, fun ht => ?_⟩
  rcases (FS.isMarked_markBlock hb).mp (hm c (h.2 ht)) with hold | hnew
  · exact hold
  · exact absurd (Int.ofNat_inj.mp hnew) h.1.2

section Directory

variable {ans : Answers} {dir : Nat} {d : Inode} {name : Name} {ino : Int} {mode : Nat}

/-- The new block is cleared before the entry goes into it. -/
theorem twin_addEntryNew (hread : Readable ans) (hd : s.inodes dir = some d) (h : s.Alike H s') :
    Twin ans (addEntryNew dir name ino) s (addEntryNew dir name ino) s'
      fun r t r' t' => Same (Unfilled H s t) r t r' t' := by
  rw [addEntryNew]
  refine (blind_allocBlock.twin h).bind fun b u b' u' halloc hq => ?_
  obtain ⟨rfl, hu⟩ := hq
  rcases exec_allocBlock_cases halloc with ⟨hneg, rfl, _⟩ | ⟨b, rfl, rfl, hfree⟩
  · rw [if_pos hneg]
    exact Twin.pure ⟨rfl, hu.unfilled fun _ hm => hm⟩
  rw [if_neg (by omega)]
  have hd' : u'.inodes dir = some d := by
    rw [hu.inodes]
    exact hd
  refine .bind_ok (exec_updInode (s := s.markBlock b) hd) (exec_updInode hd') ?_
  refine .bind_ok (exec_sbBread_ok (hread _ _ _)) (exec_sbBread_ok (hread _ _ _)) ?_
  simp only [Bool.not_true, Bool.false_eq_true, if_false]
  refine .bind_ok exec_bData exec_bData ?_
  have hattach := (hu.map (f := (·.setInode dir (attachBlock d b))) fun _ _ _ => rfl).addRef b 1
  rw [hattach.zero_block b]
  generalize DirRecord.put _ 0 (toU32 ino) name.bytes = v
  refine .bind_ok exec_putData exec_putData (.bind_ok exec_brelse exec_brelse ?_)
  have hmem (w : FS) (v : Bytes) : ((((w.setInode dir (attachBlock d b)).addRef b 1).writeBlock b
      v).addRef b (-1)).inodes dir = some (attachBlock d b) := FS.inodes_setInode_self
  refine .bind_ok (exec_updInode (hmem _ _)) (exec_updInode (hmem _ _)) ?_
  have hfinal := ((hattach.fill hfree.bitmap v).addRef b (-1)).map (f := (·.setInode dir
    { attachBlock d b with
      iSize := (attachBlock d b).iSize + naiveBlockSize, iDirty := true })) fun _ _ _ => rfl
  exact Twin.pure ⟨rfl, (hfinal.unfilled fun _ hm => hm).mono
    (fun c o ho => ho.taken hfree.bitmap fun _ hm => hm) fun c o ho => h.within c o ho.1⟩

theorem twin_naiveAddEntry (hread : Readable ans) (h : s.Alike H s')
    (hclear : ∀ d, s.inodes dir = some d → d.ClearOf H) :
    Twin ans (naiveAddEntry dir name ino) s (naiveAddEntry dir name ino) s'
      fun r t r' t' => Same (Unfilled H s t) r t r' t' := by
  rw [naiveAddEntry]
  refine twin_inode h fun d hd => ?_
  have hscan : Twin ans (addEntryScan d name ino) s (addEntryScan d name ino) s' (Same H) := by
    refine twin_scanRecords h (hclear d hd) fun i j _ _ _ => ?_
    refine .bind_ok exec_putData exec_putData (.bind_ok exec_brelse exec_brelse ?_)
    refine .bind_ok exec_brelse exec_brelse (Twin.pure ⟨rfl, ?_⟩)
    exact (((h.addRef _ 1).writeBlock_same _).addRef _ (-1)).addRef _ (-1)
  refine hscan.bind fun r t r' t' hr hq => ?_
  obtain ⟨rfl, ht⟩ := hq
  rcases scanRecords_cases (.inl (by simp)) hr with
    ⟨i, _, rfl, rfl⟩ | ⟨i, j, a, _, rfl, hhit⟩ | ⟨_, rfl, rfl⟩
  · exact Twin.pure ⟨rfl, ht.unfilled fun _ hm => hm⟩
  · cases hhit
    exact Twin.pure ⟨rfl, ht.unfilled fun _ hm => hm⟩
  · exact twin_addEntryNew hread hd ht

theorem twin_naiveRemoveEntry (h : s.Alike H s')
    (hclear : ∀ d, s.inodes dir = some d → d.ClearOf H) :
    Twin ans (naiveRemoveEntry dir name) s (naiveRemoveEntry dir name) s' (Same H) := by
  rw [naiveRemoveEntry]
  refine twin_inode h fun d hd => twin_bind_blind ?_ fun _ => .pure _
  refine twin_scanRecords h (hclear d hd) fun i j _ _ _ => ?_
  refine .bind_ok exec_putData exec_putData (.bind_ok exec_brelse exec_brelse ?_)
  exact Twin.pure ⟨rfl, ((h.addRef _ 1).writeBlock_same _).addRef _ (-1)⟩

theorem twin_rmdirScan (hclear : d.ClearOf H) (h : s.Alike H s') :
    Twin ans (rmdirScan d) s (rmdirScan d) s' (Same H) :=
  twin_scanRecords h hclear fun _ _ _ _ _ =>
    ((blind_brelse _).bind fun _ => .pure _).twin (h.addRef _ 1)

/-! ## Removing -/

theorem twin_naiveUnlink (id : Nat) (h : s.Alike H s')
    (hclear : ∀ d, s.inodes dir = some d → d.ClearOf H) :
    Twin ans (naiveUnlink dir name id) s (naiveUnlink dir name id) s' (Same H) := by
  rw [naiveUnlink]
  refine twin_bind_blind (twin_naiveRemoveEntry h hclear) fun r => .ite (.pure _) ?_
  exact (blind_releaseInode id).bind fun _ => (blind_updInode id _).bind fun _ => .pure _

theorem twin_naiveRmdir (id : Nat) (h : s.Alike H s')
    (hclear : ∀ k d, s.inodes k = some d → d.isDir = true → d.ClearOf H)
    (hdir : ∀ d, s.inodes dir = some d → d.isDir = true) :
    Twin ans (naiveRmdir dir name id) s (naiveRmdir dir name id) s' (Same H) := by
  rw [naiveRmdir]
  refine twin_inode h fun d hd => twin_inode h fun nd hnd => ?_
  cases hisDir : nd.isDir with
  | false =>
      rw [if_pos (by decide)]
      exact Twin.pure ⟨rfl, h⟩
  | true =>
  rw [if_neg (by decide)]
  refine (twin_rmdirScan (hclear id nd hnd hisDir) h).bind fun r t r' t' hr hq => ?_
  obtain ⟨rfl, ht⟩ := hq
  obtain ⟨rfl, -⟩ := rmdirScan_cases hr
  cases r' with
  | some ret => exact Twin.pure ⟨rfl, ht⟩
  | none =>
      refine twin_bind_blind (twin_naiveRemoveEntry ht fun d hd =>
        hclear dir d hd (hdir d hd)) fun ret => .ite (.pure _) ?_
      exact (blind_releaseInode id).bind fun _ => (blind_updInode dir _).bind fun _ =>
        (blind_updInode id _).bind fun _ => (blind_dDrop dir name).bind fun _ => .pure _

theorem blind_dDelete (dir : Nat) (name : Name) (id : Nat) : Blind (dDelete dir name id) :=
  (blind_dDrop dir name).bind fun _ => blind_iput id

theorem twin_vfsUnlink (h : s.Alike H s')
    (hclear : ∀ d, s.inodes dir = some d → d.ClearOf H) :
    Twin ans (vfsUnlink dir name) s (vfsUnlink dir name) s' (Same H) := by
  rw [vfsUnlink]
  have hdentry : s'.dcache dir name = s.dcache dir name := by rw [h.dcache]
  refine .bind_ok (exec_read _) (exec_read _) ?_
  rw [hdentry]
  cases s.dcache dir name with
  | none => exact Twin.pure ⟨rfl, h⟩
  | some id =>
      refine twin_bind_blind (twin_naiveUnlink id h hclear) fun r => .ite ?_ (.pure _)
      exact (blind_dDelete dir name id).bind fun _ => .pure _

theorem twin_vfsRmdir (h : s.Alike H s')
    (hclear : ∀ k d, s.inodes k = some d → d.isDir = true → d.ClearOf H)
    (hdir : ∀ d, s.inodes dir = some d → d.isDir = true) :
    Twin ans (vfsRmdir dir name) s (vfsRmdir dir name) s' (Same H) := by
  rw [vfsRmdir]
  have hdentry : s'.dcache dir name = s.dcache dir name := by rw [h.dcache]
  refine .bind_ok (exec_read _) (exec_read _) ?_
  rw [hdentry]
  cases s.dcache dir name with
  | none => exact Twin.pure ⟨rfl, h⟩
  | some id =>
      refine twin_bind_blind (twin_naiveRmdir id h hclear hdir) fun r =>
        .ite ?_ (.pure _)
      exact (blind_dDelete dir name id).bind fun _ => .pure _

/-! ## Making -/

theorem twin_createLink (hread : Readable ans) (id : Nat) (h : s.Alike H s')
    (hclear : ∀ d, s.inodes dir = some d → d.ClearOf H) :
    Twin ans (createLink dir name id ino) s (createLink dir name id ino) s'
      fun r t r' t' => Same (Unfilled H s t) r t r' t' := by
  rw [createLink]
  refine (twin_naiveAddEntry hread h hclear).bind fun r t r' t' _ hq => ?_
  obtain ⟨rfl, ht⟩ := hq
  split
  · refine .bind_ok exec_iput exec_iput (Twin.pure ⟨rfl, ?_⟩)
    exact ht.map (f := (·.dropInode id)) fun _ _ _ => rfl
  · refine .bind_ok exec_dInstantiate exec_dInstantiate (Twin.pure ⟨rfl, ?_⟩)
    exact ht.map (f := (·.setDentry dir name (some id))) fun _ _ _ => rfl

theorem twin_naiveCreate (hs : s.Ready) (hread : Readable ans) (h : s.Alike H s')
    (hclear : ∀ d, s.inodes dir = some d → d.ClearOf H) :
    Twin ans (naiveCreate dir name mode) s (naiveCreate dir name mode) s'
      fun r t r' t' => Same (Unfilled H s t) r t r' t' := by
  rw [naiveCreate]
  refine twin_inode h fun d hd => ?_
  have hd' : s'.inodes dir = some d := by rw [h.inodes, hd]
  refine (blind_findFreeInode.twin h).bind fun ino t ino' t' hfind hq => ?_
  obtain ⟨rfl, ht⟩ := hq
  obtain ⟨rfl, ⟨rfl, -⟩ | ⟨ino, rfl, hfree⟩⟩ := exec_findFreeInode hfind
  · rw [if_pos rfl]
    exact Twin.pure ⟨rfl, ht.unfilled fun _ hm => hm⟩
  have hpos := hfree.pos
  rw [if_neg (by omega)]
  cases hmem : ans .newInode with
  | false =>
      refine .bind_ok (exec_newInode_fail hmem) (exec_newInode_fail hmem) ?_
      exact Twin.pure ⟨rfl, ht.unfilled fun _ hm => hm⟩
  | true =>
      refine .bind_ok (exec_newInode_ok hmem) (exec_newInode_ok hmem) ?_
      have hd'' : t'.inodes dir = some d := by rw [ht.inodes, hd]
      have hmade : (t.fileMade ans d mode ino).Alike H (t'.fileMade ans d mode ino) :=
        ht.map (f := fun u => u.fileMade ans d mode ino) fun _ _ _ => rfl
      refine .congr (exec_createInode ans name mode hs hd hfree.pos hfree.bitmap)
        (exec_createInode ans name mode (ht.ready hs) hd'' hfree.pos hfree.bitmap) ?_
      rw [ht.nextInode]
      refine twin_createLink hread t.nextInode hmade fun e he => hclear e ?_
      rwa [hs.inodes_fileMade hd, ← hd] at he

/-- A state alike to one with a new inode has the new inode too. -/
theorem FS.Alike.withNew_inv {m u : FS} (h : (m.withNew nd).Alike H u) :
    ∃ m', u = m'.withNew nd ∧ m.Alike H m' :=
  ⟨m.withData u.cache u.disk, h.rest, rfl, h.bytes, h.within⟩

theorem twin_mkdirLink {c : Nat} (hread : Readable ans) (id : Nat) (h : s.Alike H s')
    (hblocks : s.sbi.blockBitmapBlocks = 1) (hclear : ∀ d, s.inodes dir = some d → d.ClearOf H) :
    Twin ans (mkdirLink dir name id ino c) s (mkdirLink dir name id ino c) s'
      fun r t r' t' => Same (Unfilled H s t) r t r' t' := by
  rw [mkdirLink]
  refine (twin_naiveAddEntry hread h hclear).bind fun r t r' t' hr hq => ?_
  obtain ⟨rfl, ht⟩ := hq
  refine (Blind.twin (.ite ((blind_freeBlock c).bind fun _ => (blind_iput id).bind fun _ => .pure _)
    ((blind_updInode dir _).bind fun _ => (blind_dInstantiate dir name id).bind fun _ =>
      .pure _)) ht).mono fun q u q' u' hu hq => ⟨hq.1, hq.2.mono (fun b o ho => ?_)
        fun b o ho => h.within b o ho.1⟩
  -- what follows marks no block
  have hmarks : ∀ b, u.isMarked b → t.isMarked b := by
    obtain ⟨d, hd⟩ := exec_inode_bind_ok hr
    have hentry := naiveAddEntry_cases hblocks hd hr
    by_cases hneg : r' < 0
    · rw [if_pos hneg] at hu
      obtain ⟨_, v, hfree, hu⟩ := exec_bind_ok.mp hu
      have hv := exec_freeBlock_ok ((hentry.frame hd).1.trans hblocks) hfree
      cases hu
      rintro b ⟨h0, h1, hm⟩
      have hm' : v.marked b.toNat = true := hm
      rw [hv] at hm'
      exact ⟨h0, h1, ((FS.marked_freed (by omega)).mp hm').1⟩
    · rw [if_neg hneg] at hu
      obtain ⟨_, v, hupd, hu⟩ := exec_bind_ok.mp hu
      obtain ⟨e, _, rfl⟩ := exec_updInode_ok hupd
      cases hu
      exact fun b hm => hm
  exact ⟨ho.1, fun hm => ho.2 (hmarks b hm)⟩

theorem twin_mkdirFill {m b : Nat} (hread : Readable ans) (h : s.Alike H s')
    (hblocks : s.sbi.blockBitmapBlocks = 1)
    (hd : ∀ nd, (s.withNew nd).inodes dir = some d) (h1 : 1 ≤ m) (h2 : m ≤ 4096)
    (hclear : d.ClearOf H) :
    Twin ans (mkdirFill dir name mode s.nextInode m b) (s.withNew { iNlink := 1, iIno := m })
      (mkdirFill dir name mode s.nextInode m b) (s'.withNew { iNlink := 1, iIno := m })
      fun r t r' t' => Same (Unfilled H s t) r t r' t' := by
  have hd' : (s'.withNew { iNlink := 1, iIno := m }).inodes dir = some d := by
    rw [(h.map (f := (·.withNew { iNlink := 1, iIno := m })) fun _ _ _ => rfl).inodes, hd]
  have hfill := exec_mkdirFill ans name mode b hd' h1 h2
  rw [h.nextInode] at hfill
  refine .congr (exec_mkdirFill ans name mode b (hd _) h1 h2) hfill ?_
  have hmade := h.map (f := fun u => (u.withNew (Inode.newDir ans d mode m b)).markInode m)
    fun _ _ _ => rfl
  refine twin_mkdirLink hread s.nextInode hmade hblocks fun e he => ?_
  obtain rfl := Option.some.inj ((hd _).symm.trans he)
  exact hclear

/-- The block of a new directory is cleared before its records go into it. -/
theorem twin_mkdirInode {m : Nat} (hs : s.Ready) (hread : Readable ans) (h : s.Alike H s')
    (hd : s.inodes dir = some d) (hfree : s.NextIno m) (hclear : d.ClearOf H) :
    Twin ans (mkdirInode dir name mode s.nextInode m) (s.withNew { iNlink := 1 })
      (mkdirInode dir name mode s.nextInode m) (s'.withNew { iNlink := 1 })
      fun r t r' t' => Same (Unfilled H s t) r t r' t' := by
  have hnew (nd : Inode) : (s.withNew nd).Alike H (s'.withNew nd) :=
    h.map (f := (·.withNew nd)) fun _ _ _ => rfl
  have hat' (nd : Inode) : (s'.withNew nd).inodes s.nextInode = some nd := by
    rw [← h.nextInode]
    exact FS.inodes_withNew_self
  have hset' (nd nd' : Inode) : (s'.withNew nd).setInode s.nextInode nd' = s'.withNew nd' := by
    rw [← h.nextInode]
    exact FS.setInode_withNew
  rw [mkdirInode]
  refine .bind_ok (exec_updInode FS.inodes_withNew_self) (exec_updInode (hat' _)) ?_
  rw [FS.setInode_withNew, hset', toU64_ino hfree.bitmap]
  refine (blind_allocBlock.twin (hnew _)).bind fun b u b' u' halloc hq => ?_
  obtain ⟨rfl, hu⟩ := hq
  rcases exec_allocBlock_cases halloc with ⟨hneg, rfl, _⟩ | ⟨b, rfl, rfl, hblock⟩
  · rw [if_pos hneg]
    refine .bind_ok exec_iput exec_iput (Twin.pure ⟨rfl, ?_⟩)
    exact (hu.map (f := (·.dropInode s.nextInode)) fun _ _ _ => rfl).unfilled fun _ hm => hm
  rw [if_neg (by omega)]
  -- marking the block and allocating the inode commute
  obtain ⟨w, rfl, hw⟩ := FS.Alike.withNew_inv (m := s.markBlock b) hu
  have hcomm : (s.withNew { iNlink := 1, iIno := m }).markBlock b
      = (s.markBlock b).withNew { iNlink := 1, iIno := m } := rfl
  rw [hcomm]
  have hmem : ∀ nd, ((s.markBlock b).withNew nd).inodes dir = some d :=
    fun nd => hs.inodes_withNew hd
  have hmem' : ∀ nd, (w.withNew nd).inodes dir = some d := fun nd => by
    rw [(hw.map (f := (·.withNew nd)) fun _ _ _ => rfl).inodes]
    exact hmem nd
  refine .bind_ok (exec_sbBread_ok (hread _ _ _)) (exec_sbBread_ok (hread _ _ _)) ?_
  simp only [Bool.not_true, Bool.false_eq_true, if_false]
  refine .bind_ok exec_bData exec_bData ?_
  have hnew := (hw.map (f := (·.withNew { iNlink := 1, iIno := m })) fun _ _ _ => rfl).addRef b 1
  rw [hnew.block_dots]
  refine .bind_ok (exec_inode (hmem _)) (exec_inode (hmem' _)) ?_
  generalize dotBlock _ _ d.iIno = v
  refine .bind_ok exec_putData exec_putData (.bind_ok exec_brelse exec_brelse ?_)
  rw [FS.writeBlock_addRef, FS.addRef_cancel, FS.writeBlock_addRef, FS.addRef_cancel]
  refine Twin.mono (twin_mkdirFill hread (hw.fill hblock.bitmap v) hs.bitmapBlocks hmem hfree.pos
    hfree.bitmap fun i hi o ho => hclear i hi o ho.1) fun r t r' t' _ hq => ⟨hq.1, hq.2.mono
      (fun c o ho => ho.taken hblock.bitmap fun _ hm => hm) fun c o ho => h.within c o ho.1⟩

theorem twin_naiveMkdir (hs : s.Ready) (hread : Readable ans) (h : s.Alike H s')
    (hclear : ∀ d, s.inodes dir = some d → d.ClearOf H) :
    Twin ans (naiveMkdir dir name mode) s (naiveMkdir dir name mode) s'
      fun r t r' t' => Same (Unfilled H s t) r t r' t' := by
  rw [naiveMkdir]
  refine twin_inode h fun d hd => ?_
  refine (blind_findFreeInode.twin h).bind fun ino t ino' t' hfind hq => ?_
  obtain ⟨rfl, ht⟩ := hq
  obtain ⟨rfl, ⟨rfl, -⟩ | ⟨ino, rfl, hfree⟩⟩ := exec_findFreeInode hfind
  · rw [if_pos rfl]
    exact Twin.pure ⟨rfl, ht.unfilled fun _ hm => hm⟩
  have hpos := hfree.pos
  rw [if_neg (by omega)]
  cases hmem : ans .newInode with
  | false =>
      refine .bind_ok (exec_newInode_fail hmem) (exec_newInode_fail hmem) ?_
      exact Twin.pure ⟨rfl, ht.unfilled fun _ hm => hm⟩
  | true =>
      refine .bind_ok (exec_newInode_ok hmem) (exec_newInode_ok hmem) ?_
      rw [ht.nextInode]
      exact twin_mkdirInode hs hread ht hd hfree (hclear d hd)

end Directory

end Directories

end NaiveFS
