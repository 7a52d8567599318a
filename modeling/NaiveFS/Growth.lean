import NaiveFS.Transfer

/-!
# How files grow

A file created empty and written to any number of times. `naive_file_write` works out
the blocks to add from the size: rounded up for the end of the write, rounded down for
what the file has. The block count stays the size in blocks as long as no write grows a
file that ends inside a block.
-/

namespace NaiveFS

open Bytes

/-! ## Calls and states -/

/-- The arguments of a call of `naive_file_write`, within their types. -/
structure WriteCall where
  data : List Byte
  pos : Nat
  fits : pos + data.length < 2 ^ 64

/-- Where the call ends in the file. -/
def WriteCall.total (c : WriteCall) : Nat := c.pos + c.data.length

/-- The number of blocks that hold `n` bytes. -/
def blocksFor (n : Nat) : Nat := (n + naiveBlockSize - 1) / naiveBlockSize

/-- The unmarked blocks in `[data_block_no, block_total)`. -/
def FS.unmarked (s : FS) : List Nat :=
  (List.range s.totalBlocks.toNat).filter fun k => decide (s.dataStart ≤ k) && !s.marked k

/-- A call does not fail on the device or in the user's memory. -/
structure WritesOk (ans : Answers) : Prop where
  read : ∀ i p, ans (.sbBread .fileWrite i p) = true
  copy : ∀ i, ans (.copyFromUser i) = (0 : Nat)

/-- The inode `id` is `nd`, a file without bytes or blocks; the superblock lies before
the data blocks. -/
structure EmptyFile (s : FS) (id : Nat) (nd : Inode) : Prop where
  node : s.inodes id = some nd
  size : nd.iSize = 0
  count : nd.blockCount = 0
  scannable : s.Scannable
  super : (naiveSuperBlockBlock : Int) < s.dataStart

/-- A file none of whose blocks is the superblock. -/
structure Apart (s : FS) (id : Nat) (nd : Inode) : Prop extends FileState s id nd where
  super : (naiveSuperBlockBlock : Int) < s.dataStart
  pointers : ∀ i : Nat, (i : Int) < nd.blockCount →
    toU64 (nd.blockPointers i) ≠ toU64 (naiveSuperBlockBlock : Int)

/-- A file with as many blocks as its size needs. -/
structure Tight (s : FS) (id : Nat) (nd : Inode) : Prop extends Apart s id nd where
  blocks : nd.blockCount = blocksFor nd.iSize.toNat

/-- If the call grows the file, the file ends where a block does and the blocks the call
needs are there to be taken; or none can be taken and the call needs more than are
unmarked. -/
def GrowsWhole (s : FS) (nd : Inode) (c : WriteCall) : Prop :=
  c.total ≤ naiveMaxFileSize → nd.iSize < c.total →
    (nd.iSize % naiveBlockSize = 0 ∧ nd.newBlocks c.total ≤ s.freeList.length) ∨
      (s.freeList = [] ∧ (s.unmarked.length : Int) < blocksFor c.total - nd.blockCount)

instance (s : FS) (nd : Inode) (c : WriteCall) : Decidable (GrowsWhole s nd c) :=
  inferInstanceAs (Decidable (_ → _ → _ ∨ _))

/-- Calls of `naive_file_write` on one file, each of which meets a condition. -/
inductive Writes (id : Nat) (P : FS → Inode → WriteCall → Prop) (s0 : FS) : FS → Prop where
  | refl : Writes id P s0 s0
  | call {s t : FS} {nd : Inode} {c : WriteCall} {ans : Answers} {q : Int × Nat}
      (rest : Writes id P s0 s) (node : s.inodes id = some nd) (meets : P s nd c)
      (answers : WritesOk ans) (run : (naiveFileWrite id c.data c.pos).exec ans s = .ok (q, t)) :
      Writes id P s0 t

/-! ## One call -/

section Call

variable {ans : Answers} {s t : FS} {id : Nat} {nd : Inode}

theorem EmptyFile.tight (h : EmptyFile s id nd) : Tight s id nd := by
  have hsize := h.size
  have hcount := h.count
  refine ⟨⟨⟨h.node, ?_, ?_, h.scannable⟩, h.super, fun i hi => by omega⟩, ?_⟩
  · rw [hsize]
    exact ⟨le_refl _, by decide⟩
  · omega
  · rw [hsize, hcount]
    decide

theorem FS.Scannable.congr (h : s.Scannable) (hsbi : t.sbi = s.sbi)
    (hcache : t.block naiveSuperBlockBlock = s.block naiveSuperBlockBlock) : t.Scannable := by
  obtain ⟨hbitmap, hstart, htotal⟩ := h
  unfold FS.dataStart at hstart
  unfold FS.totalBlocks at htotal
  refine ⟨by rw [hsbi, hbitmap], ?_, ?_⟩
  · rw [FS.dataStart, hcache]
    exact hstart
  · rw [FS.totalBlocks, hcache]
    exact htotal

theorem FS.Scannable.markAll {l : List Nat} (h : s.Scannable) : (s.markAll l).Scannable := by
  induction l generalizing s with
  | nil => exact h
  | cons b l ih => exact ih (h.markBlock b)

/-- Storing bytes changes the blocks of the file only. -/
theorem putBytes_ne {q b : Nat} {xs : List Byte} {c : Nat → Bytes}
    (h : ∀ k, q ≤ k → k < q + xs.length → toU64 (nd.blockPointers (k / naiveBlockSize)) ≠ b) :
    putBytes nd q xs c b = c b := by
  induction xs generalizing q c with
  | nil => rfl
  | cons x xs ih =>
    rw [List.length_cons] at h
    rw [putBytes, ih fun k hk hk' => h k (by omega) (by omega),
      Function.update_of_ne (Ne.symm (h q (Nat.le_refl _) (by omega)))]

/-- A copy into blocks that are there stores all the bytes. -/
theorem Apart.write {data : List Byte} {pos : Nat} (h : Apart s id nd) (hok : WritesOk ans)
    (hend : pos + data.length ≤ 4096)
    (hblocks : ((pos + data.length : Nat) : Int) ≤ naiveBlockSize * nd.blockCount) :
    ∃ t nd', (fileWriteData id data pos).exec ans s =
        .ok (((data.length : Int), pos + data.length), t) ∧ Apart t id nd' ∧
      nd'.blockCount = nd.blockCount ∧ nd'.iSize = max nd.iSize (pos + data.length : Nat) := by
  have hno : ∀ i, ¬ WriteFails ans nd pos data.length i := by
    intro i hf
    apply hf.fails
    refine ⟨?_, hok.read _ _, hok.copy _⟩
    have := hf.reach.visits.2.2
    unfold naiveBlockSize at *
    omega
  obtain ⟨r, pos', t, hloop, hends⟩ :=
    fileWriteLoop_ends ans h.node 0 (Nat.le_refl _) hend
  obtain ⟨u, nd', hexec, hnd', hsame, hsize, hcache, hsbi⟩ := exec_fileWriteData h.node hloop
  generalize t.cache = c at hends hcache
  cases hends with
  | atFirst _ hf => exact absurd hf (hno _)
  | atLater _ _ _ hf => exact absurd hf (hno _)
  | done =>
    rw [Int.zero_add] at hexec
    -- the superblock is not among the blocks stored into
    have hsuper : u.block naiveSuperBlockBlock = s.block naiveSuperBlockBlock := by
      show u.cache _ = s.cache _
      rw [hcache]
      apply putBytes_ne
      intro k _ hk
      apply h.pointers
      unfold naiveBlockSize at *
      omega
    have hs := h.size
    refine ⟨u, nd', hexec, ⟨⟨hnd', ?_, ?_, h.scannable.congr hsbi hsuper⟩, ?_, ?_⟩,
      hsame.blockCount, hsize⟩
    · unfold naiveMaxFileSize naiveBlockSize naiveBlockPerFile at *
      omega
    · rw [hsame.blockCount]
      exact h.count
    · rw [FS.dataStart, hsuper]
      exact h.super
    · rw [hsame.blockCount, hsame.blockPointers]
      exact h.pointers

/-- The file with the blocks the loop attaches. -/
theorem Apart.attach {n : Nat} (h : Apart s id nd) :
    Apart ((s.markAll (attached s nd n)).setInode id (nd.attach (attached s nd n))) id
      (nd.attach (attached s nd n)) := by
  have hcount := h.count
  have hsuper := h.super
  have hlen : (attached s nd n).length ≤ 8 - nd.blockCount.toNat := by
    rw [attached, List.length_take]
    omega
  have hblock : ((s.markAll (attached s nd n)).setInode id (nd.attach (attached s nd n))).block
      naiveSuperBlockBlock = s.block naiveSuperBlockBlock :=
    congrFun (FS.cache_markAll (s := s) (l := attached s nd n)) _
  refine ⟨⟨FS.inodes_setInode_self, ?_, ?_, h.scannable.markAll.setInode _ _⟩, ?_, fun i hi => ?_⟩
  · rw [iSize_attach]
    exact h.size
  · rw [blockCount_attach]
    omega
  · rw [FS.dataStart, hblock]
    exact hsuper
  · rw [blockCount_attach] at hi
    rw [blockPointers_attach hcount.1 _ hi]
    split
    · rename_i hold
      exact h.pointers i hold
    · rename_i hnew
      have hmem : (attached s nd n).getD (i - nd.blockCount.toNat) 0 ∈ attached s nd n := by
        rw [List.getD_eq_getElem?_getD, List.getElem?_eq_getElem (by omega), Option.getD_some]
        exact List.getElem_mem _
      -- a free block is a data block
      obtain ⟨hend, hstart, -⟩ := FS.mem_freeList.mp (List.mem_of_mem_take hmem)
      have hle := h.scannable.scanEnd_le
      rw [toU64_natCast (by omega), toU64_natCast (by decide)]
      omega

/-- What the call returns and leaves: a size and as many blocks as it needs if it did
not fail, and all bytes stored if the limit and the unmarked blocks allow it. -/
def CallRight (ans : Answers) (s : FS) (id : Nat) (nd : Inode) (c : WriteCall) : Prop :=
  ∃ r pos' t nd', (naiveFileWrite id c.data c.pos).exec ans s = .ok ((r, pos'), t) ∧
    t.inodes id = some nd' ∧ (0 ≤ r → nd'.blockCount = blocksFor nd'.iSize.toNat) ∧
    (c.total ≤ naiveMaxFileSize →
      (blocksFor c.total : Int) - nd.blockCount ≤ s.unmarked.length → r = c.data.length)

/-- The slots that `n` more blocks fill are there. -/
theorem length_attached {n : Nat} (hn : n ≤ s.freeList.length) (hcount : 0 ≤ nd.blockCount)
    (hroom : nd.blockCount + n ≤ 8) : (attached s nd n).length = n := by
  rw [attached, List.length_take]
  omega

/-- A file that ends where a block does gets the blocks the larger size needs. -/
theorem Tight.newBlocks {total : Nat} (h : Tight s id nd) (hwhole : nd.iSize % naiveBlockSize = 0)
    (hgrow : nd.iSize < total) :
    nd.blockCount + nd.newBlocks total = blocksFor total := by
  have hsize := h.size
  rw [h.blocks]
  unfold Inode.newBlocks blocksFor
  unfold naiveBlockSize at *
  omega

/-- One call that grows the file by whole blocks does what it should, and keeps the file
tight. -/
theorem Tight.call {c : WriteCall} (h : Tight s id nd) (hok : WritesOk ans)
    (hwhole : GrowsWhole s nd c) :
    ∃ r pos' t nd', (naiveFileWrite id c.data c.pos).exec ans s = .ok ((r, pos'), t) ∧
      Tight t id nd' ∧ (c.total ≤ naiveMaxFileSize →
        (blocksFor c.total : Int) - nd.blockCount ≤ s.unmarked.length → r = c.data.length) := by
  have hmax : naiveMaxFileSize = 4096 := rfl
  have hsize := h.size
  have hblocks := h.blocks
  have hrun := naiveFileWrite_run h.toFileState ans c.fits
  unfold GrowsWhole WriteCall.total at hwhole
  unfold WriteCall.total
  generalize (naiveFileWrite id c.data c.pos).exec ans s = res at hrun
  cases hrun with
  | tooBig hbig => exact ⟨_, _, s, nd, rfl, h, fun hle => absurd hle (by omega)⟩
  | within hend hin =>
    obtain ⟨t, nd', hexec, happart, hcount, hmaxSize⟩ := h.toApart.write hok hend (by
      unfold blocksFor at hblocks
      unfold naiveBlockSize at *
      omega)
    rw [Int.max_eq_left hin] at hmaxSize
    refine ⟨_, _, t, nd', hexec, ⟨happart, ?_⟩, fun _ _ => rfl⟩
    rw [hcount, hmaxSize, hblocks]
  | @short l hend hgrow hl hfew =>
    rcases hwhole (by omega) hgrow with ⟨haligned, hfree⟩ | ⟨hnone, hfew'⟩
    · -- enough blocks are free and the file has slots for them
      exfalso
      have hnew := h.newBlocks haligned hgrow
      apply hfew
      rw [hl]
      apply length_attached hfree h.count.1
      rw [hnew]
      unfold blocksFor naiveBlockSize
      omega
    · obtain rfl : l = [] := by rw [hl, attached, hnone, List.take_nil]
      refine ⟨-ENOSPC, c.pos, s, nd, ?_, h, fun _ henough => absurd henough (by omega)⟩
      rw [FS.markAll, Inode.attach, FS.setInode_self h.node]
  | @grown l hend hgrow hl hall =>
    rcases hwhole (by omega) hgrow with ⟨haligned, -⟩ | ⟨hnone, -⟩
    · have hnew := h.newBlocks haligned hgrow
      -- the blocks attached are those the new size needs, as the old one filled its last
      have hattach : Apart ((s.markAll l).setInode id (nd.attach l)) id (nd.attach l) := by
        rw [hl]
        exact h.toApart.attach
      have hcount' : (nd.attach l).blockCount = blocksFor (c.pos + c.data.length) := by
        rw [blockCount_attach, hall]
        exact hnew
      obtain ⟨t, nd', hexec, happart, hcount, hmaxSize⟩ := hattach.write hok hend (by
        rw [hcount']
        unfold blocksFor naiveBlockSize
        omega)
      rw [iSize_attach, Int.max_eq_right hgrow.le] at hmaxSize
      refine ⟨_, _, t, nd', hexec, ⟨happart, ?_⟩, fun _ _ => rfl⟩
      rw [hcount, hcount', hmaxSize, Int.toNat_natCast]
    · exfalso
      have hnew := Inode.newBlocks_pos hsize.1 hgrow
      rw [hl, attached, hnone, List.take_nil, List.length_nil] at hall
      omega

end Call

/-! ## Any number of calls -/

section Runs

variable {s0 s : FS} {id : Nat} {nd0 : Inode}

theorem Writes.tight (h : EmptyFile s0 id nd0) (hrun : Writes id GrowsWhole s0 s) :
    ∃ nd, Tight s id nd := by
  induction hrun with
  | refl => exact ⟨nd0, h.tight⟩
  | @call s t nd c ans q _ hnd hwhole hok hexec ih =>
    obtain ⟨e, htight⟩ := ih
    obtain rfl := Option.some.inj (hnd.symm.trans htight.node)
    obtain ⟨r, pos', u, nd', hexec', htight', -⟩ := htight.call hok hwhole
    rw [hexec] at hexec'
    cases hexec'
    exact ⟨nd', htight'⟩

/-- A file created empty and grown by whole blocks only has the blocks its size needs,
and the next call that does so too stores all its bytes. -/
theorem file_grows_whole (h : EmptyFile s0 id nd0) (hrun : Writes id GrowsWhole s0 s) :
    ∃ nd, s.inodes id = some nd ∧ nd.blockCount = blocksFor nd.iSize.toNat ∧
      ∀ c ans, WritesOk ans → GrowsWhole s nd c → CallRight ans s id nd c := by
  obtain ⟨nd, htight⟩ := hrun.tight h
  refine ⟨nd, htight.node, htight.blocks, fun c ans hok hwhole => ?_⟩
  obtain ⟨r, pos', t, nd', hexec, htight', hall⟩ := htight.call hok hwhole
  exact ⟨r, pos', t, nd', hexec, htight'.node, fun _ => htight'.blocks, hall⟩

end Runs

/-- `n` bytes written at position `pos`. -/
def WriteCall.letters (n pos : Nat) (h : pos + n < 2 ^ 64) : WriteCall :=
  ⟨List.replicate n 0x61#8, pos, by rwa [List.length_replicate]⟩

/-- A file is created. -/
def newFileRun : List (Op × Answers) :=
  [(.create 0 (.letters 1 Nat.one_pos Name.one_le_max) 0o644, Answers.good default 0 0)]

theorem writesOk_good : WritesOk (Answers.good default 0 0) := ⟨fun _ _ => rfl, fun _ => rfl⟩

/-- A new file and a state after it. -/
theorem newFileRun_file (check : FS → Inode → Bool)
    (h : runsTo (FS.mounted (sampleDisk 128 1000 4 132) default) newFileRun (fun s =>
      (s.inodes 1).any fun nd => decide ((nd.iSize = 0 ∧ nd.blockCount = 0) ∧
        (s.sbi.blockBitmapBlocks = 1 ∧ 0 ≤ s.dataStart ∧ s.totalBlocks ≤ 4096) ∧
        (naiveSuperBlockBlock : Int) < s.dataStart) && check s nd) = true) :
    ∃ s nd, runOps (FS.mounted (sampleDisk 128 1000 4 132) default) newFileRun = .ok s ∧
      EmptyFile s 1 nd ∧ check s nd = true := by
  obtain ⟨s, hs, hcheck⟩ := exists_of_runsTo h
  obtain ⟨nd, hnd, hcheck⟩ := (Option.any_eq_true _ _).mp hcheck
  rw [Bool.and_eq_true] at hcheck
  obtain ⟨⟨hsize, hcount⟩, ⟨hbitmap, hstart, htotal⟩, hsuper⟩ := of_decide_eq_true hcheck.1
  exact ⟨s, nd, hs, ⟨hnd, hsize, hcount, ⟨hbitmap, hstart, htotal⟩, hsuper⟩, hcheck.2⟩

/-- A new file with one whole block written. -/
theorem file_grows_whole_one : ∃ s t nd,
    runOps (FS.mounted (sampleDisk 128 1000 4 132) default) newFileRun = .ok s ∧
      (naiveFileWrite 1 (List.replicate 512 0x61#8) 0).exec (Answers.good default 0 0) s =
        .ok ((512, 512), t) ∧
      t.inodes 1 = some nd ∧ nd.blockCount = blocksFor nd.iSize.toNat ∧
      ∀ c ans, WritesOk ans → GrowsWhole t nd c → CallRight ans t 1 nd c := by
  obtain ⟨s, nd0, hs, hempty, hcheck⟩ := newFileRun_file (fun s nd =>
    decide (GrowsWhole s nd (.letters 512 0 (by decide))) &&
      execTo s (naiveFileWrite 1 (List.replicate 512 0x61#8) 0) (Answers.good default 0 0)
        fun q _ => decide (q = (512, 512))) (by decide +kernel)
  rw [Bool.and_eq_true] at hcheck
  obtain ⟨q, t, hexec, hq⟩ := exists_of_execTo hcheck.2
  obtain rfl := of_decide_eq_true hq
  have hrun : Writes 1 GrowsWhole s t :=
    .call (c := .letters 512 0 (by decide)) .refl hempty.node (of_decide_eq_true hcheck.1)
      writesOk_good hexec
  obtain ⟨nd, hnd, hblocks, hcalls⟩ := file_grows_whole hempty hrun
  exact ⟨s, t, nd, hs, hexec, hnd, hblocks, hcalls⟩

/-- 100 bytes, and 100 more behind them: the file of 200 bytes has two blocks. -/
theorem append_takes_second_block : ¬ ∀ (s0 s : FS) (id : Nat) (nd0 nd : Inode) (c : WriteCall)
    (ans : Answers), EmptyFile s0 id nd0 → Writes id (fun _ _ _ => True) s0 s →
    s.inodes id = some nd → WritesOk ans → CallRight ans s id nd c := by
  intro hall
  obtain ⟨s, nd0, hs, hempty, hcheck⟩ := newFileRun_file (fun s _ =>
    execTo s (naiveFileWrite 1 (List.replicate 100 0x61#8) 0) (Answers.good default 0 0) fun _ t =>
      (t.inodes 1).isSome &&
        execTo t (naiveFileWrite 1 (List.replicate 100 0x61#8) 100) (Answers.good default 0 0)
          fun q u => decide (q.1 = 100) && (u.inodes 1).any fun nd : Inode =>
            decide (nd.blockCount = 2 ∧ nd.iSize = 200)) (by decide +kernel)
  obtain ⟨q, t, hfirst, hcheck⟩ := exists_of_execTo hcheck
  rw [Bool.and_eq_true] at hcheck
  obtain ⟨nd, hnd⟩ := Option.isSome_iff_exists.mp hcheck.1
  obtain ⟨q', u, hsecond, hcheck⟩ := exists_of_execTo hcheck.2
  rw [Bool.and_eq_true] at hcheck
  obtain ⟨nd', hnd', hfields⟩ := (Option.any_eq_true _ _).mp hcheck.2
  obtain ⟨hcount, hsize⟩ := of_decide_eq_true hfields
  have hrun : Writes 1 (fun _ _ _ => True) s t :=
    .call (c := .letters 100 0 (by decide)) .refl hempty.node trivial writesOk_good hfirst
  obtain ⟨r, pos', v, e, hexec, he, hblocks, -⟩ := hall s t 1 nd0 nd
    (.letters 100 100 (by decide)) _ hempty hrun hnd writesOk_good
  have hsame : (Except.ok (q', u) : Except Fault _) = .ok ((r, pos'), v) := hsecond.symm.trans hexec
  cases hsame
  obtain rfl := Option.some.inj (hnd'.symm.trans he)
  have hr : r = 100 := of_decide_eq_true hcheck.1
  rw [hcount, hsize] at hblocks
  exact absurd (hblocks (by omega)) (by decide)

end NaiveFS
