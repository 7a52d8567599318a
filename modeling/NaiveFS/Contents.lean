import NaiveFS.BlockMap
import NaiveFS.Cells
import NaiveFS.DirectoryMap

/-!
# The contents of files

The bytes of a file are those behind its block pointers, up to its size. Reading
and writing go through them block by block; together they read and overwrite a
list of bytes, and change no other inode's.
-/

namespace NaiveFS

open Bytes

/-- The bytes behind the block pointers of `nd`. -/
def FS.content (s : FS) (nd : Inode) : Bytes := fun q =>
  s.slotBlock nd (q / naiveBlockSize) (q % naiveBlockSize)

/-- The bytes of the file. -/
def FS.fileBytes (s : FS) (nd : Inode) : List Byte := (s.content nd).slice 0 nd.iSize.toNat

/-- The size does not reach beyond the blocks. -/
structure Inode.Sized (nd : Inode) : Prop where
  nonneg : 0 ≤ nd.iSize
  le_blocks : nd.iSize ≤ naiveBlockSize * nd.blockCount

section Content

variable {ans : Answers} {s t : FS} {id : Nat} {nd nd' : Inode} {v : Bytes}

/-- The part of a block that starts at byte `pos` of the file. -/
theorem slice_block {pos n : Nat} (hn : n ≤ naiveBlockSize - pos % naiveBlockSize) :
    (s.slotBlock nd (pos / naiveBlockSize)).slice (pos % naiveBlockSize) n
      = (s.content nd).slice pos n := by
  refine slice_congr fun i hi => ?_
  unfold FS.content
  unfold naiveBlockSize at *
  rw [show (pos + i) / 512 = pos / 512 by omega, show (pos + i) % 512 = pos % 512 + i by omega]

/-- The bytes depend on the pointers and the blocks behind them. -/
theorem Untouched.content (h : Untouched s t nd) {q : Nat} (hq : q / naiveBlockSize < 8)
    (hp : nd.blockPointers (q / naiveBlockSize) ≠ 0) : t.content nd q = s.content nd q := by
  unfold FS.content
  rw [h _ hq hp]

theorem content_of_pointers (hcache : t.cache = s.cache) {q : Nat}
    (hptr : nd'.blockPointers (q / naiveBlockSize) = nd.blockPointers (q / naiveBlockSize)) :
    t.content nd' q = s.content nd q := by
  unfold FS.content FS.slotBlock FS.block
  rw [hptr, hcache]

/-- A file whose blocks stay has the same bytes. -/
theorem Untouched.fileBytes (h : Untouched s t nd) (hshape : nd.Prefix (· ≠ 0)) (hsize : nd.Sized) :
    t.fileBytes nd = s.fileBytes nd := by
  have hle := hsize.le_blocks
  have hcount := hshape.count_le
  unfold FS.fileBytes
  refine slice_congr fun i hi => ?_
  unfold naiveBlockSize at hle
  refine h.content (by unfold naiveBlockSize; omega) (hshape.below _ ?_)
  unfold naiveBlockSize
  omega

/-- Storing into the block at byte `pos` stores into the file. -/
theorem content_store (h : s.OwnedOnce) (hnd : s.inodes id = some nd)
    (hshape : nd.Prefix (· ≠ 0)) {pos : Nat} {xs : List Byte}
    (hpos : ((pos / naiveBlockSize : Nat) : Int) < nd.blockCount)
    (hlen : xs.length ≤ naiveBlockSize - pos % naiveBlockSize) {q : Nat}
    (hq : (q : Int) < naiveBlockSize * nd.blockCount) :
    (s.writeBlock (nd.blockPointers (pos / naiveBlockSize))
        ((s.slotBlock nd (pos / naiveBlockSize)).blit (pos % naiveBlockSize) xs)).content nd q
      = ((s.content nd).blit pos xs) q := by
  have hcount := hshape.count_le
  unfold naiveBlockSize at *
  by_cases hk : q / 512 = pos / 512
  · unfold FS.content naiveBlockSize
    rw [hk, slotBlock_writeBlock_self]
    by_cases hin : pos ≤ q ∧ q < pos + xs.length
    · rw [blit_in (by omega) (by omega), blit_in hin.1 hin.2,
        show q % 512 - pos % 512 = q - pos by omega]
    · rw [blit_out (by omega), blit_out (by omega), hk]
  · have hout : q < pos ∨ pos + xs.length ≤ q := by omega
    have hblock : toU64 (nd.blockPointers (q / 512)) ≠ toU64 (nd.blockPointers (pos / 512)) := by
      apply h.toU64_ne (FS.own_slot hnd (by omega) (hshape.below _ (by omega)))
        (FS.own_slot hnd (by omega) (hshape.below _ hpos))
      intro heq
      exact hk (congrArg Prod.snd heq)
    rw [blit_out hout]
    unfold FS.content naiveBlockSize
    rw [slotBlock_writeBlock_ne hblock]

end Content

/-! ## Reading -/

section Read

variable {ans : Answers} {s t : FS} {id : Nat} {nd nd' : Inode}

theorem exec_pointer {i : Nat} (hi : i < 8) :
    (pointer nd i).exec ans s = .ok (nd.blockPointers i, s) := by
  unfold pointer naiveBlockPerFile
  rw [if_neg (by omega)]
  rfl

/-- The block index of a position within the eight blocks. -/
theorem blockIndex_eq {pos : Nat} (h : pos / naiveBlockSize < 8) :
    toInt32 (pos / naiveBlockSize : Nat) = (pos / naiveBlockSize : Nat) := by
  unfold naiveBlockSize at *
  exact toInt32_of_small (by omega) (by omega)

/-- No read fails and every byte reaches the user. -/
structure ReadsOk (ans : Answers) : Prop where
  read : ∀ i b, ans (.sbBread .fileRead i b) = true
  copy : ∀ i, ans (.copyToUser i) = (0 : Nat)

theorem exec_fileReadLoop (hok : ReadsOk ans) (hnd : s.inodes id = some nd)
    (hshape : nd.Prefix (· ≠ 0)) {fuel pos remaining : Nat} {out : List Byte}
    (hfuel : remaining ≤ fuel)
    (hend : ((pos + remaining : Nat) : Int) ≤ naiveBlockSize * nd.blockCount) :
    (fileReadLoop id fuel pos remaining out).exec ans s
      = .ok (((out.length + remaining : Nat), pos + remaining,
        out ++ (s.content nd).slice pos remaining), s) := by
  have hcount := hshape.count_le
  induction fuel generalizing pos remaining out with
  | zero =>
      obtain rfl : remaining = 0 := by omega
      rw [slice_zero, List.append_nil]
      rfl
  | succ fuel ih =>
      rw [fileReadLoop]
      by_cases hrem : remaining = 0
      · rw [if_pos hrem, hrem, slice_zero, List.append_nil]
        rfl
      have hk8 : pos / naiveBlockSize < 8 := by
        unfold naiveBlockSize at *
        omega
      have hkc : ((pos / naiveBlockSize : Nat) : Int) < nd.blockCount := by
        unfold naiveBlockSize at *
        omega
      rw [if_neg hrem, Prog.exec_bind_of (exec_inode hnd)]
      dsimp only
      rw [blockIndex_eq hk8, if_neg (by omega), Prog.exec_bind_of (exec_pointer hk8),
        if_neg (hshape.below _ hkc), Prog.exec_bind_of (exec_sbBread_ok (hok.read _ _)),
        if_neg (by decide), Prog.exec_bind_of exec_bData, Prog.exec_ask_bind,
        Prog.exec_bind_of exec_brelse, FS.addRef_cancel, if_neg (not_not.mpr (hok.copy _))]
      have hle : min remaining (naiveBlockSize - pos % naiveBlockSize) ≤ remaining :=
        Nat.min_le_left _ _
      have hpos : 0 < min remaining (naiveBlockSize - pos % naiveBlockSize) := by
        unfold naiveBlockSize
        omega
      rw [ih (by omega) (by omega)]
      have hslice : (s.slotBlock nd (pos / naiveBlockSize)).slice (pos % naiveBlockSize)
          (min remaining (naiveBlockSize - pos % naiveBlockSize)) = (s.content nd).slice pos _ :=
        slice_block (Nat.min_le_right remaining (naiveBlockSize - pos % naiveBlockSize))
      have hblock : (s.addRef (nd.blockPointers (pos / naiveBlockSize)) 1).block
          (nd.blockPointers (pos / naiveBlockSize)) = s.slotBlock nd (pos / naiveBlockSize) := rfl
      rw [hblock, hslice]
      generalize hn : min remaining (naiveBlockSize - pos % naiveBlockSize) = n at hle hpos
      have hsum : remaining = n + (remaining - n) := by omega
      have hbytes : (out ++ (s.content nd).slice pos n)
          ++ (s.content nd).slice (pos + n) (remaining - n)
            = out ++ (s.content nd).slice pos remaining := by
        rw [List.append_assoc, ← slice_add, ← hsum]
      have hlen : (out ++ (s.content nd).slice pos n).length + (remaining - n)
          = out.length + remaining := by
        rw [List.length_append, length_slice]
        omega
      rw [hbytes, hlen, show pos + n + (remaining - n) = pos + remaining by omega]

/-- `naive_file_read` returns the bytes of the file from `pos` on, at most `len`. -/
theorem exec_naiveFileRead (hok : ReadsOk ans) (hnd : s.inodes id = some nd)
    (hshape : nd.Prefix (· ≠ 0)) (hsize : nd.Sized) (len pos : Nat) :
    (naiveFileRead id len pos).exec ans s
      = .ok (((((s.fileBytes nd).drop pos).take len).length,
          pos + (((s.fileBytes nd).drop pos).take len).length,
          ((s.fileBytes nd).drop pos).take len), s) := by
  have hnonneg := hsize.nonneg
  have hle := hsize.le_blocks
  have hcount := hshape.count_le
  unfold FS.fileBytes
  rw [take_drop_slice, length_slice, naiveFileRead, Prog.exec_bind_of (exec_inode hnd)]
  by_cases hend : (pos : Int) ≥ nd.iSize
  · rw [if_pos hend, show min len (nd.iSize.toNat - pos) = 0 by omega, slice_zero]
    rfl
  · have hrem : toU64 (nd.iSize - pos) = nd.iSize.toNat - pos := by
      unfold toU64
      unfold naiveBlockSize at hle
      omega
    rw [if_neg hend]
    dsimp only
    rw [hrem, exec_fileReadLoop hok hnd hshape (Nat.le_refl _) (by omega)]
    rw [List.nil_append, List.length_nil, Nat.zero_add]

/-- A read gives the same in states with the same inode and the same blocks. -/
theorem fileReadLoop_congr (hs : s.inodes id = some nd) (ht : t.inodes id = some nd)
    (h : Untouched s t nd) (ans : Answers) (fuel pos remaining : Nat) (out : List Byte) :
    ((fileReadLoop id fuel pos remaining out).exec ans t).map Prod.fst
      = ((fileReadLoop id fuel pos remaining out).exec ans s).map Prod.fst := by
  induction fuel generalizing pos remaining out with
  | zero => rfl
  | succ fuel ih =>
      rw [fileReadLoop]
      by_cases hrem : remaining = 0
      · rw [if_pos hrem]
        rfl
      rw [if_neg hrem, Prog.exec_bind_of (exec_inode ht), Prog.exec_bind_of (exec_inode hs)]
      dsimp only
      by_cases hindex : toInt32 (pos / naiveBlockSize : Nat) ≥ nd.blockCount
      · rw [if_pos hindex]
        rfl
      rw [if_neg hindex, pointer]
      by_cases hbound : toInt32 (pos / naiveBlockSize : Nat) < 0 ∨
          naiveBlockPerFile ≤ toInt32 (pos / naiveBlockSize : Nat)
      · rw [if_pos hbound]
        rfl
      rw [if_neg hbound, Prog.exec_pure_bind, Prog.exec_pure_bind]
      generalize hk : (toInt32 (pos / naiveBlockSize : Nat)).toNat = k
      have hk8 : k < 8 := by
        unfold naiveBlockPerFile at hbound
        omega
      by_cases hp : nd.blockPointers k = 0
      · rw [if_pos hp]
        rfl
      rw [if_neg hp]
      cases hread : ans (.sbBread .fileRead (pos / naiveBlockSize) (nd.blockPointers k)) with
      | false =>
          rw [Prog.exec_bind_of (exec_sbBread_fail hread),
            Prog.exec_bind_of (exec_sbBread_fail hread)]
          rfl
      | true =>
          have hblock : (t.addRef (nd.blockPointers k) 1).block (nd.blockPointers k)
              = (s.addRef (nd.blockPointers k) 1).block (nd.blockPointers k) := h k hk8 hp
          rw [Prog.exec_bind_of (exec_sbBread_ok hread), Prog.exec_bind_of (exec_sbBread_ok hread)]
          simp only [Bool.not_true, Bool.false_eq_true, if_false]
          rw [Prog.exec_bind_of exec_bData,
            Prog.exec_bind_of exec_bData, hblock, Prog.exec_ask_bind, Prog.exec_ask_bind,
            Prog.exec_bind_of exec_brelse, Prog.exec_bind_of exec_brelse, FS.addRef_cancel,
            FS.addRef_cancel]
          split
          · rfl
          · exact ih _ _ _

theorem naiveFileRead_congr (hs : s.inodes id = some nd) (ht : t.inodes id = some nd)
    (h : Untouched s t nd) (ans : Answers) (len pos : Nat) :
    ((naiveFileRead id len pos).exec ans t).map Prod.fst
      = ((naiveFileRead id len pos).exec ans s).map Prod.fst := by
  rw [naiveFileRead, Prog.exec_bind_of (exec_inode ht), Prog.exec_bind_of (exec_inode hs)]
  split
  · rfl
  · exact fileReadLoop_congr hs ht h ans _ _ _ _

end Read

/-! ## Writing -/

/-- `data` is stored at byte `pos` of the file and nothing else of it changes. -/
def Stored (s t : FS) (nd : Inode) (pos : Nat) (data : List Byte) : Prop :=
  ∀ q : Nat, (q : Int) < naiveBlockSize * nd.blockCount →
    t.content nd q = (s.content nd).blit pos data q

section Write

variable {ans : Answers} {s t u : FS} {id : Nat} {nd nd' : Inode} {pos : Nat} {data : List Byte}

theorem Stored.nil (hcache : t.cache = s.cache) : Stored s t nd pos [] := by
  intro q _
  rw [content_of_pointers hcache rfl, blit_out (by simp; omega)]

/-- Two stores, one where the other ends. -/
theorem Stored.append {xs ys : List Byte} (h : Stored s t nd pos xs)
    (h' : Stored t u nd (pos + xs.length) ys) : Stored s u nd pos (xs ++ ys) := by
  intro q hq
  rw [h' q hq, ← blit_append]
  by_cases hin : pos + xs.length ≤ q ∧ q < pos + xs.length + ys.length
  · rw [blit_in hin.1 hin.2, blit_in hin.1 hin.2]
  · rw [blit_out (by omega), blit_out (by omega), h q hq]

/-- The copy loop stores its data or returns an error. -/
theorem fileWriteLoop_stored {fuel : Nat} {ret : Int} {q : Int × Nat} (howned : s.OwnedOnce)
    (hnd : s.inodes id = some nd) (hshape : nd.Prefix (· ≠ 0)) (hfuel : data.length ≤ fuel)
    (hend : ((pos + data.length : Nat) : Int) ≤ naiveBlockSize * nd.blockCount)
    (h : (fileWriteLoop id fuel pos data ret).exec ans s = .ok (q, t)) :
    q.2 ≤ pos + data.length ∧
      (q.1 < 0 ∨ (q = (ret + data.length, pos + data.length) ∧ Stored s t nd pos data)) := by
  have hcount := hshape.count_le
  induction fuel generalizing s pos data ret with
  | zero =>
      cases h
      obtain rfl : data = [] := List.length_eq_zero_iff.mp (by omega)
      exact ⟨by simp, .inr ⟨by simp, .nil rfl⟩⟩
  | succ fuel ih =>
      rw [fileWriteLoop] at h
      by_cases hdata : data = []
      · rw [if_pos hdata] at h
        cases h
        subst hdata
        exact ⟨by simp, .inr ⟨by simp, .nil rfl⟩⟩
      have hlen : 0 < data.length := List.length_pos_iff.mpr hdata
      have hk8 : pos / naiveBlockSize < 8 := by
        unfold naiveBlockSize at *
        omega
      have hkc : ((pos / naiveBlockSize : Nat) : Int) < nd.blockCount := by
        unfold naiveBlockSize at *
        omega
      rw [if_neg hdata, Prog.exec_bind_of (exec_inode hnd)] at h
      dsimp only at h
      rw [blockIndex_eq hk8, if_neg (by omega), Prog.exec_bind_of (exec_pointer hk8)] at h
      generalize hp : nd.blockPointers (pos / naiveBlockSize) = p at h
      cases hread : ans (.sbBread .fileWrite (pos / naiveBlockSize) p) with
      | false =>
          rw [Prog.exec_bind_of (exec_sbBread_fail hread), if_pos (by decide)] at h
          cases h
          exact ⟨Nat.le_add_right _ _, .inl (show (- EIO : Int) < 0 by decide)⟩
      | true =>
          rw [Prog.exec_bind_of (exec_sbBread_ok hread), if_neg (by decide),
            Prog.exec_bind_of exec_bData, Prog.exec_ask_bind] at h
          split at h
          · cases h
            exact ⟨Nat.le_add_right _ _, .inl (show (-EFAULT : Int) < 0 by decide)⟩
          rw [Prog.exec_bind_of exec_putData, FS.writeBlock_addRef, Prog.exec_bind_of exec_brelse,
            FS.addRef_cancel, FS.block_addRef] at h
          -- one block is stored, the rest of the data by induction
          generalize hn : min data.length (naiveBlockSize - pos % naiveBlockSize) = n at h
          have hn0 : 0 < n := by
            unfold naiveBlockSize at hn
            omega
          have hnlen : n ≤ data.length := by omega
          have htake : (data.take n).length = n := by
            rw [List.length_take, Nat.min_eq_left hnlen]
          have hdrop : (data.drop n).length = data.length - n := List.length_drop
          have hstore : Stored s (s.writeBlock p ((s.block p).blit (pos % naiveBlockSize)
              (data.take n))) nd pos (data.take n) := by
            intro q hq
            rw [← hp]
            exact content_store howned hnd hshape hkc (by omega) hq
          obtain ⟨hle, hres⟩ := ih (s := s.writeBlock p _)
            howned hnd (by omega) (by omega) h
          refine ⟨by omega, ?_⟩
          rcases hres with hneg | ⟨rfl, hrest⟩
          · exact .inl hneg
          · refine .inr ⟨?_, ?_⟩
            · rw [Prod.mk.injEq]
              constructor <;> omega
            · rw [← List.take_append_drop n data]
              refine hstore.append ?_
              rwa [htake]

/-- The copy loop of a write whose blocks can be read ends where user memory does not, or at the
end of the data. Outside its range the file stays. -/
theorem fileWriteLoop_outside {fuel : Nat} {ret : Int} {q : Int × Nat} (howned : s.OwnedOnce)
    (hread : ∀ i b, ans (.sbBread .fileWrite i b) = true) (hnd : s.inodes id = some nd)
    (hshape : nd.Prefix (· ≠ 0)) (hfuel : data.length ≤ fuel)
    (hend : ((pos + data.length : Nat) : Int) ≤ naiveBlockSize * nd.blockCount)
    (h : (fileWriteLoop id fuel pos data ret).exec ans s = .ok (q, t)) :
    (q.1 = -EFAULT ∨ q.1 = ret + data.length) ∧
      ∀ k : Nat, (k : Int) < naiveBlockSize * nd.blockCount → k < pos ∨ pos + data.length ≤ k →
        t.content nd k = s.content nd k := by
  have hcount := hshape.count_le
  induction fuel generalizing s pos data ret with
  | zero =>
      cases h
      obtain rfl : data = [] := List.length_eq_zero_iff.mp (by omega)
      exact ⟨.inr (by simp), fun _ _ _ => rfl⟩
  | succ fuel ih =>
      rw [fileWriteLoop] at h
      by_cases hdata : data = []
      · rw [if_pos hdata] at h
        cases h
        subst hdata
        exact ⟨.inr (by simp), fun _ _ _ => rfl⟩
      have hlen : 0 < data.length := List.length_pos_iff.mpr hdata
      have hk8 : pos / naiveBlockSize < 8 := by
        unfold naiveBlockSize at *
        omega
      have hkc : ((pos / naiveBlockSize : Nat) : Int) < nd.blockCount := by
        unfold naiveBlockSize at *
        omega
      rw [if_neg hdata, Prog.exec_bind_of (exec_inode hnd)] at h
      dsimp only at h
      rw [blockIndex_eq hk8, if_neg (by omega), Prog.exec_bind_of (exec_pointer hk8),
        Prog.exec_bind_of (exec_sbBread_ok (hread _ _)), if_neg (by decide),
        Prog.exec_bind_of exec_bData, Prog.exec_ask_bind] at h
      generalize hn : min data.length (naiveBlockSize - pos % naiveBlockSize) = n at h
      have hnlen : n ≤ data.length := by omega
      -- a store of at most `n` bytes at `pos`
      have hstore (xs : List Byte) (hxs : xs.length ≤ n) (k : Nat)
          (hk : (k : Int) < naiveBlockSize * nd.blockCount)
          (hout : k < pos ∨ pos + data.length ≤ k) :
          (s.writeBlock (nd.blockPointers (pos / naiveBlockSize))
            ((s.slotBlock nd (pos / naiveBlockSize)).blit (pos % naiveBlockSize) xs)).content nd k
              = s.content nd k := by
        rw [content_store howned hnd hshape hkc (by omega) hk, blit_out (by omega)]
      split at h
      · cases h
        exact ⟨.inl rfl, hstore _ (Nat.le_of_eq (length_copiedFromUser hnlen))⟩
      rw [Prog.exec_bind_of exec_putData, FS.writeBlock_addRef, Prog.exec_bind_of exec_brelse,
        FS.addRef_cancel, FS.block_addRef] at h
      have hn0 : 0 < n := by
        unfold naiveBlockSize at hn
        omega
      have hdrop : (data.drop n).length = data.length - n := List.length_drop
      obtain ⟨hret, hrest⟩ := ih (s := s.writeBlock _ _) howned hnd (by omega) (by omega) h
      refine ⟨hret.imp_right fun heq => ?_, fun k hk hout => ?_⟩
      · rw [heq]
        omega
      · rw [hrest k hk (by omega)]
        exact hstore (data.take n) (by rw [List.length_take]; omega) k hk hout

/-- The blocks of `nd` are those of `nd'` that come first. -/
structure Inode.Grown (nd nd' : Inode) : Prop where
  iIno : nd'.iIno = nd.iIno
  iMode : nd'.iMode = nd.iMode
  iSize : nd'.iSize = nd.iSize
  count : nd.blockCount ≤ nd'.blockCount
  pointers : ∀ i : Nat, (i : Int) < nd.blockCount → nd'.blockPointers i = nd.blockPointers i

theorem Extend.grown (hnd : s.inodes id = some nd) (h : Extend id s t) :
    ∃ nd', t.inodes id = some nd' ∧ nd.Grown nd' := by
  induction h with
  | refl => exact ⟨nd, hnd, rfl, rfl, rfl, Int.le_refl _, fun _ _ => rfl⟩
  | @step t b nd' _ free node low room ih =>
      obtain ⟨e, he, hgrown⟩ := ih
      obtain rfl := Option.some.inj (node.symm.trans he)
      have hcount := hgrown.count
      refine ⟨_, FS.inodes_setInode_self, hgrown.iIno, hgrown.iMode, hgrown.iSize, ?_, ?_⟩
      · show nd.blockCount ≤ nd'.blockCount + 1
        omega
      · intro i hi
        show Function.update nd'.blockPointers nd'.blockCount.toNat (b : Int) i = _
        rw [Function.update_of_ne (by omega)]
        exact hgrown.pointers i hi

/-- The allocation loop that returns 0 has attached all its blocks. -/
theorem fileWriteAlloc_count {n : Nat} (hnd : s.inodes id = some nd)
    (h : (fileWriteAlloc id n).exec ans s = .ok (0, t)) :
    ∃ nd', t.inodes id = some nd' ∧ nd'.blockCount = nd.blockCount + n := by
  induction n generalizing s nd with
  | zero =>
      cases h
      exact ⟨nd, hnd, by simp⟩
  | succ n ih =>
      rw [fileWriteAlloc] at h
      obtain ⟨b, v, halloc, h1⟩ := Prog.exec_bind_ok.mp h
      rcases exec_allocBlock_cases halloc with ⟨hneg, rfl, _⟩ | ⟨b, rfl, rfl, hfree⟩
      · rw [if_pos hneg] at h1
        cases h1
      rw [if_neg (by omega)] at h1
      obtain ⟨e, w, hnode, h2⟩ := Prog.exec_bind_ok.mp h1
      obtain ⟨he, rfl⟩ := exec_inode_ok hnode
      have hnd' : (s.markBlock b).inodes id = some nd := hnd
      obtain rfl := Option.some.inj (he.symm.trans hnd')
      split at h2
      · split at h2
        · cases h2
        · rw [Prog.exec_bind_of (exec_updInode he)] at h2
          obtain ⟨nd', hnd', hcount⟩ := ih FS.inodes_setInode_self h2
          refine ⟨nd', hnd', hcount.trans ?_⟩
          show e.blockCount + 1 + (n : Int) = e.blockCount + ((n + 1 : Nat) : Int)
          omega
      · obtain ⟨_, w, _, h3⟩ := Prog.exec_bind_ok.mp h2
        cases h3

/-- The part of `naive_file_write` after the blocks are there. -/
theorem fileWriteData_stored {q : Int × Nat} (howned : s.OwnedOnce) (hnd : s.inodes id = some nd)
    (hshape : nd.Prefix (· ≠ 0)) (hsize : nd.Sized)
    (hend : ((pos + data.length : Nat) : Int) ≤ naiveBlockSize * nd.blockCount)
    (h : (fileWriteData id data pos).exec ans s = .ok (q, t)) :
    ∃ nd', t.inodes id = some nd' ∧ nd.SameBlocks nd' ∧ nd'.iSize = max nd.iSize q.2 ∧ nd'.Sized ∧
      (q.1 < 0 ∨ (q = ((data.length : Int), pos + data.length) ∧ Stored s t nd pos data)) := by
  rw [fileWriteData] at h
  obtain ⟨⟨ret, pos'⟩, v, hloop, h1⟩ := Prog.exec_bind_ok.mp h
  have hdata := fileWriteLoop_data hnd hloop
  obtain ⟨hle, hres⟩ := fileWriteLoop_stored howned hnd hshape (Nat.le_refl _) hend hloop
  have hv : v.inodes id = some nd := by rw [hdata.inodes, hnd]
  have hnonneg := hsize.nonneg
  have hblocks := hsize.le_blocks
  have hfinal (e : Inode) (hptr : e.blockPointers = nd.blockPointers) :
      ret < 0 ∨ ((ret, pos') = ((data.length : Int), pos + data.length) ∧
        Stored s (v.setInode id e) nd pos data) := by
    rcases hres with hneg | ⟨hq, hstored⟩
    · exact .inl hneg
    · refine .inr ⟨by simpa using hq, fun k hk => ?_⟩
      rw [← hstored k hk]
      exact content_of_pointers rfl rfl
  rw [Prog.exec_bind_of (exec_inode hv)] at h1
  dsimp only at h1 hle
  by_cases hgrow : (pos' : Int) > nd.iSize
  · rw [if_pos hgrow, Prog.exec_bind_of (exec_updInode hv), Prog.exec_bind_of exec_ktime,
      Prog.exec_bind_of (exec_updInode FS.inodes_setInode_self), FS.setInode_setInode] at h1
    cases h1
    refine ⟨_, FS.inodes_setInode_self, ⟨rfl, rfl, rfl, rfl⟩, ?_, ⟨?_, ?_⟩, hfinal _ rfl⟩
    · show (pos' : Int) = max nd.iSize pos'
      omega
    · exact Int.natCast_nonneg pos'
    · show (pos' : Int) ≤ naiveBlockSize * nd.blockCount
      omega
  · rw [if_neg hgrow, Prog.exec_bind_of exec_ktime,
      Prog.exec_bind_of (exec_updInode hv)] at h1
    cases h1
    refine ⟨_, FS.inodes_setInode_self, ⟨rfl, rfl, rfl, rfl⟩, ?_, ⟨hnonneg, hblocks⟩, hfinal _ rfl⟩
    show nd.iSize = max nd.iSize pos'
    omega

/-- The copy loop comes first; what follows it stores no data. -/
theorem fileWriteData_loop {q : Int × Nat} (hnd : s.inodes id = some nd)
    (h : (fileWriteData id data pos).exec ans s = .ok (q, t)) :
    ∃ v, (fileWriteLoop id data.length pos data 0).exec ans s = .ok (q, v) ∧
      t.cache = v.cache := by
  rw [fileWriteData] at h
  obtain ⟨⟨ret, pos'⟩, v, hloop, h1⟩ := Prog.exec_bind_ok.mp h
  have hv : v.inodes id = some nd := by rw [(fileWriteLoop_data hnd hloop).inodes, hnd]
  rw [Prog.exec_bind_of (exec_inode hv)] at h1
  dsimp only at h1
  refine ⟨v, ?_⟩
  split at h1
  · rw [Prog.exec_bind_of (exec_updInode hv), Prog.exec_bind_of exec_ktime,
      Prog.exec_bind_of (exec_updInode FS.inodes_setInode_self)] at h1
    cases h1
    exact ⟨hloop, rfl⟩
  · rw [Prog.exec_bind_of exec_ktime, Prog.exec_bind_of (exec_updInode hv)] at h1
    cases h1
    exact ⟨hloop, rfl⟩

/-- The number of blocks to add, where nothing overflows. -/
theorem neededBlocks_eq {iSize : Int} {n : Nat} (h0 : 0 ≤ iSize) (h8 : iSize ≤ 4096)
    (hmax : pos + n ≤ naiveMaxFileSize) :
    neededBlocks iSize pos n = ((pos + n + 511) / 512 : Nat) - iSize / 512 := by
  unfold neededBlocks naiveBlockSize
  unfold naiveMaxFileSize naiveBlockSize naiveBlockPerFile at hmax
  have hu : toU64 ((pos : Int) + n) = pos + n := by
    unfold toU64
    omega
  have hu' : toU64 (((pos + n : Nat) : Int) + (512 : Nat) - 1) = pos + n + 511 := by
    unfold toU64
    omega
  rw [hu, hu']
  dsimp only
  rw [Int.tdiv_eq_ediv_of_nonneg h0]
  apply toInt32_of_small <;> omega

/-- The blocks that `naive_file_write` adds hold the range it writes. -/
theorem neededBlocks_enough {iSize : Int} {n : Nat} (h0 : 0 ≤ iSize) (h8 : iSize ≤ 4096)
    (htotal : iSize < (pos + n : Nat)) (hmax : pos + n ≤ naiveMaxFileSize) :
    0 ≤ neededBlocks iSize pos n ∧
      ((pos + n : Nat) : Int)
        ≤ naiveBlockSize * (iSize / naiveBlockSize + neededBlocks iSize pos n) := by
  rw [neededBlocks_eq h0 h8 hmax]
  unfold naiveMaxFileSize naiveBlockPerFile at hmax
  unfold naiveBlockSize at *
  omega

/-- What `naive_file_write` makes of the file: its size stays within its blocks,
and it returns an error or stores all its data. -/
structure Written (s t : FS) (nd nd' : Inode) (data : List Byte) (pos : Nat) (q : Int × Nat) :
    Prop where
  iMode : nd'.iMode = nd.iMode
  sized : nd'.Sized
  result : q.1 < 0 ∨ (q = ((data.length : Int), pos + data.length) ∧
    nd'.iSize = max nd.iSize (pos + data.length : Nat) ∧
    ∀ k : Nat, (k : Int) < nd.iSize ∨ (pos ≤ k ∧ k < pos + data.length) →
      t.content nd' k = (s.content nd).blit pos data k)

theorem Inode.Sized.grown (h : nd.Sized) (hgrown : nd.Grown nd') : nd'.Sized := by
  have hcount := hgrown.count
  obtain ⟨h0, h1⟩ := h
  refine ⟨by rw [hgrown.iSize]; exact h0, ?_⟩
  rw [hgrown.iSize]
  unfold naiveBlockSize at *
  omega

/-- The data part on the file with its new blocks. -/
theorem fileWriteData_written {q : Int × Nat} (howned : u.OwnedOnce) (hcache : u.cache = s.cache)
    (hnd : u.inodes id = some nd') (hgrown : nd.Grown nd') (hshape : nd'.Prefix (· ≠ 0))
    (hsize : nd.Sized)
    (hend : ((pos + data.length : Nat) : Int) ≤ naiveBlockSize * nd'.blockCount)
    (h : (fileWriteData id data pos).exec ans u = .ok (q, t)) :
    ∃ e, t.inodes id = some e ∧ Written s t nd e data pos q := by
  obtain ⟨e, he, hsame, hmax, hsized, hres⟩ :=
    fileWriteData_stored howned hnd hshape (hsize.grown hgrown) hend h
  refine ⟨e, he, hsame.iMode.trans hgrown.iMode, hsized, ?_⟩
  rcases hres with hneg | ⟨hq, hstored⟩
  · exact .inl hneg
  refine .inr ⟨hq, ?_, fun k hk => ?_⟩
  · rw [hmax, hgrown.iSize, hq]
  have hblocks := hsize.le_blocks
  have hcount := hgrown.count
  have hk' : (k : Int) < naiveBlockSize * nd'.blockCount := by
    unfold naiveBlockSize at *
    omega
  -- the final inode has the pointers of the grown one, and outside the data those of the old one
  rw [content_of_pointers (s := t) rfl (congrFun hsame.blockPointers _), hstored k hk']
  by_cases hin : pos ≤ k ∧ k < pos + data.length
  · rw [blit_in hin.1 hin.2, blit_in hin.1 hin.2]
  · rw [blit_out (by omega), blit_out (by omega)]
    have hslot : ((k / naiveBlockSize : Nat) : Int) < nd.blockCount := by
      unfold naiveBlockSize at *
      omega
    exact content_of_pointers hcache (hgrown.pointers _ hslot)

/-- The ways of `naive_file_write`: the range ends too far, there is no space, or the data is
stored once the file has the blocks for it. -/
theorem naiveFileWrite_split {disk : Nat → Bytes} {M : Nat → Prop} {q : Int × Nat}
    (hg : Disk.Guarded M disk) (hs : s.Ready) (hmapped : s.Mapped M disk)
    (hnd : s.inodes id = some nd) (hsize : nd.Sized) (hrange : pos + data.length < 2 ^ 63)
    (h : (naiveFileWrite id data pos).exec ans s = .ok (q, t)) :
    (naiveMaxFileSize < pos + data.length ∧ q = (-EFBIG, pos) ∧ t = s) ∨
      (q = (-ENOSPC, pos) ∧ Extend id s t) ∨
      (pos + data.length ≤ naiveMaxFileSize ∧ ∃ u e, Extend id s u ∧ u.inodes id = some e ∧
        ((pos + data.length : Nat) : Int) ≤ naiveBlockSize * e.blockCount ∧
        (fileWriteData id data pos).exec ans u = .ok (q, t)) := by
  have hP : ∀ p, Disk.FreeData disk p → p ≠ 0 := fun p hp => hp.ne_zero hg
  have hcount := ((hmapped.node id nd hnd).mono hP).count_le
  have hlow := hsize.nonneg
  have hblocks := hsize.le_blocks
  rw [naiveFileWrite, Prog.exec_bind_of (exec_inode hnd)] at h
  have htotal : toU64 ((pos : Int) + data.length) = pos + data.length := by
    unfold toU64
    omega
  have hiSize : toU64 nd.iSize = nd.iSize.toNat := by
    unfold naiveBlockSize at hblocks
    unfold toU64
    omega
  dsimp only at h
  rw [htotal, hiSize] at h
  by_cases hbig : pos + data.length > naiveMaxFileSize
  · rw [if_pos hbig] at h
    cases h
    exact .inl ⟨hbig, rfl, rfl⟩
  rw [if_neg hbig] at h
  by_cases hmore : pos + data.length > nd.iSize.toNat
  · rw [if_pos hmore] at h
    obtain ⟨ret, v, halloc, h1⟩ := Prog.exec_bind_ok.mp h
    obtain ⟨hret, hgrow⟩ := fileWriteAlloc_cases hs.bitmapBlocks halloc
    rcases hret with rfl | rfl
    · rw [if_neg (by decide)] at h1
      have henough : 0 ≤ neededBlocks nd.iSize pos data.length
          ∧ ((pos + data.length : Nat) : Int) ≤ naiveBlockSize
            * (nd.iSize / naiveBlockSize + neededBlocks nd.iSize pos data.length) :=
        neededBlocks_enough hlow (by unfold naiveBlockSize at hblocks; omega) (by omega) (by omega)
      obtain ⟨e, he, hadded⟩ := fileWriteAlloc_count hnd halloc
      refine .inr (.inr ⟨by omega, v, e, hgrow, he, ?_, h1⟩)
      rw [hadded]
      unfold naiveBlockSize at *
      omega
    · rw [if_pos (by decide)] at h1
      cases h1
      exact .inr (.inl ⟨rfl, hgrow⟩)
  · rw [if_neg hmore] at h
    exact .inr (.inr ⟨by omega, s, nd, .refl, hnd, by omega, h⟩)

theorem naiveFileWrite_written {disk : Nat → Bytes} {M : Nat → Prop} {q : Int × Nat}
    (hg : Disk.Guarded M disk) (hs : s.Ready) (howned : s.OwnedOnce) (hmapped : s.Mapped M disk)
    (hnd : s.inodes id = some nd) (hsize : nd.Sized) (hrange : pos + data.length < 2 ^ 63)
    (h : (naiveFileWrite id data pos).exec ans s = .ok (q, t)) :
    ∃ nd', t.inodes id = some nd' ∧ Written s t nd nd' data pos q := by
  have hP : ∀ p, Disk.FreeData disk p → p ≠ 0 := fun p hp => hp.ne_zero hg
  rcases naiveFileWrite_split hg hs hmapped hnd hsize hrange h with
    ⟨_, rfl, rfl⟩ | ⟨rfl, hgrow⟩ | ⟨_, u, e, hgrow, he, hfull, hdata⟩
  · exact ⟨nd, hnd, rfl, hsize, .inl (show (-EFBIG : Int) < 0 by decide)⟩
  · obtain ⟨e, he, hgrown⟩ := hgrow.grown hnd
    exact ⟨e, he, hgrown.iMode, hsize.grown hgrown, .inl (show (-ENOSPC : Int) < 0 by decide)⟩
  · obtain ⟨e', he', hgrown⟩ := hgrow.grown hnd
    obtain rfl := Option.some.inj (he.symm.trans he')
    exact fileWriteData_written (hgrow.owned howned) hgrow.frame.2.2.1 he hgrown
      (((hgrow.mapped hg hmapped).node id e he).mono hP) hsize hfull hdata

end Write

/-! ## Runs -/

/-- What the VFS checks: entries are made in directories, and what is written to
is not one; the range written ends below the largest file offset. -/
def Op.Checked (s : FS) : Op → Prop
  | .create dir .. | .mkdir dir .. => ∀ d, s.inodes dir = some d → d.isDir = true
  | .write id data pos =>
      (∀ nd, s.inodes id = some nd → nd.isDir = false) ∧ pos + data.length < 2 ^ 63
  | _ => True

instance (s : FS) (op : Op) : Decidable (op.Checked s) :=
  match op with
  | .create dir .. | .mkdir dir .. =>
      decidable_of_iff ((s.inodes dir).all Inode.isDir = true) (Option.all_eq_true _ _)
  | .write id data pos =>
      decidable_of_iff ((s.inodes id).all (fun nd => nd.isDir = false) = true ∧
        pos + data.length < 2 ^ 63) (by simp [Op.Checked, Option.all_eq_true])
  | .unlink .. | .rmdir .. | .lookup .. => .isTrue trivial

/-- The files of a session reach as far as their blocks, which no other inode has. -/
structure FS.Filed (disk : Nat → Bytes) (s : FS) : Prop where
  ready : s.Ready
  owned : s.OwnedOnce
  mapped : s.Mapped (· = naiveSuperBlockBlock) disk
  sized : ∀ id nd, s.inodes id = some nd → nd.isDir = false → nd.Sized

section Runs

variable {disk : Nat → Bytes} {ans : Answers} {s t : FS} {id dir : Nat} {d nd : Inode}
  {name : Name} {r : Int}

/-- Where every block can be read, no operation fails to read a new one. -/
theorem Readable.attachReadable (h : Readable ans) (s : FS) (op : Op) :
    AttachReadable s ans op := by
  have hread {s : FS} {d : Inode} {b : Nat} : ¬ AttachFails ans s d b := by
    intro hfail
    have hunread := hfail.unread
    rw [h] at hunread
    cases hunread
  cases op with
  | create => exact fun _ _ _ _ _ _ => hread
  | mkdir => exact fun _ _ _ _ _ _ _ _ _ => hread
  | unlink | rmdir | write | lookup => trivial

theorem newFile_sized (ans : Answers) (d : Inode) (mode ino : Nat) :
    (Inode.newFile ans d mode ino).Sized := by
  obtain ⟨_, _, hcount⟩ := initOwner_fields { iNlink := 1, iIno := ino } d (ans .currentFsuid)
    (ans .currentFsgid) mode
  refine ⟨Int.le_refl 0, ?_⟩
  show (0 : Int) ≤ naiveBlockSize * (Inode.newFile ans d mode ino).blockCount
  have hzero : (Inode.newFile ans d mode ino).blockCount = 0 := hcount
  rw [hzero]
  exact Int.le_refl _

theorem newDir_sized (ans : Answers) (d : Inode) (mode ino b : Nat) :
    (Inode.newDir ans d mode ino b).Sized :=
  ⟨show (0 : Int) ≤ 512 by decide, show (512 : Int) ≤ 512 * 1 by decide⟩

/-- Every step keeps the sizes within the blocks. -/
theorem Step.sized {op : Op} (hg : Disk.Guarded (· = naiveSuperBlockBlock) disk)
    (h : s.Filed disk) (hop : op.cached) (hcheck : op.Checked s) (hstep : Step s op ans r t) :
    ∀ id nd, t.inodes id = some nd → nd.isDir = false → nd.Sized := by
  intro id nd hnd hfile
  cases op with
  | create dir name perm =>
      obtain ⟨d, hd, hcases⟩ := naiveCreate_cases h.ready hstep
      by_cases hid : id = dir
      · subst hid
        obtain ⟨d', hd', _, hmode⟩ := hcases.parent h.ready hd
        obtain rfl := Option.some.inj (hd'.symm.trans hnd)
        rw [isDir_of_iMode hmode, hcheck d hd] at hfile
        cases hfile
      · rcases hcases.inodes h.ready hd hid hnd with hold | ⟨_, _, ino, _, rfl⟩
        · exact h.sized id nd hold hfile
        · exact newFile_sized ans d _ ino
  | mkdir dir name mode =>
      obtain ⟨d, hd, hcases⟩ := naiveMkdir_cases h.ready hstep
      by_cases hid : id = dir
      · subst hid
        obtain ⟨d', hd', _, hmode⟩ := hcases.parent h.ready hd
        obtain rfl := Option.some.inj (hd'.symm.trans hnd)
        rw [isDir_of_iMode hmode, hcheck d hd] at hfile
        cases hfile
      · rcases hcases.inodes h.ready hd hid hnd with hold | ⟨_, _, ino, b, _, _, rfl⟩
        · exact h.sized id nd hold hfile
        · exact newDir_sized ans d mode ino b
  | unlink dir name =>
      exact h.sized id nd ((vfsUnlink_cases h.ready hstep).inodes hnd) hfile
  | rmdir dir name =>
      rcases (vfsRmdir_cases h.ready hstep).inodes hnd with hold | ⟨rfl, d, hd, rfl⟩
      · exact h.sized id nd hold hfile
      · have hsize := h.sized id d hd hfile
        exact ⟨hsize.nonneg, hsize.le_blocks⟩
  | write f data pos =>
      obtain ⟨q, u, hwrite, hend⟩ := Prog.exec_bind_ok.mp hstep
      cases hend
      by_cases hid : id = f
      · subst hid
        obtain ⟨e, v, hnode, _⟩ := Prog.exec_bind_ok.mp hwrite
        obtain ⟨he, _⟩ := exec_inode_ok hnode
        obtain ⟨nd', hnd', hwritten⟩ := naiveFileWrite_written hg h.ready h.owned h.mapped he
          (h.sized id e he (hcheck.1 e he)) hcheck.2 hwrite
        obtain rfl := Option.some.inj (hnd'.symm.trans hnd)
        exact hwritten.sized
      · rw [(naiveFileWrite_cases h.ready hwrite).inodes hid] at hnd
        exact h.sized id nd hnd hfile
  | lookup => exact hop.elim

theorem Step.filed {op : Op} (hg : Disk.Guarded (· = naiveSuperBlockBlock) disk)
    (h : s.Filed disk) (hop : op.cached) (hcheck : op.Checked s) (hread : Readable ans)
    (hstep : Step s op ans r t) : t.Filed disk :=
  ⟨hstep.ready h.ready, (hstep.owned_iff h.ready h.owned hop).mpr (hread.attachReadable s op),
    hstep.mapped hg h.ready h.mapped hop, hstep.sized hg h hop hcheck⟩

theorem filed_mounted {s0 : FS} (h0 : Mounted disk s0) : s0.Filed disk := by
  obtain ⟨_, ts, rfl⟩ := mounted_eq h0
  refine ⟨h0.ready, owned_mounted disk ts, mapped_mounted disk ts, fun id nd hnd _ => ?_⟩
  obtain ⟨_, rfl⟩ := inodes_mounted hnd
  exact ⟨Int.le_refl 0, Int.le_refl 0⟩

theorem Reach.filed {s0 : FS} (hg : Disk.Guarded (· = naiveSuperBlockBlock) disk)
    (h0 : Mounted disk s0)
    (h : Reach (fun s op ans _ => op.cached ∧ op.Checked s ∧ Readable ans) s0 s) :
    s.Filed disk :=
  h.invariant (filed_mounted h0) fun _ _ _ _ _ ht hP hstep =>
    hstep.filed hg ht hP.1 hP.2.1 hP.2.2

/-- On a device whose data area leaves out the boot block and has not the
superblock as a free block: after every run, a write that starts within the file
and returns a positive number has written all its data. Reading the file then
gives the old bytes overwritten by the data, and every other inode reads and
lists as before. -/
theorem file_is_byte_array {s0 : FS} {f pos pos' : Nat} {data : List Byte}
    (h0 : Mounted disk s0) (hg : Disk.Guarded (· = naiveSuperBlockBlock) disk)
    (h : Reach (fun s op ans _ => op.cached ∧ op.Checked s ∧ Readable ans) s0 s)
    (hnd : s.inodes f = some nd) (hcheck : (Op.write f data pos).Checked s)
    (hpos : (pos : Int) ≤ nd.iSize)
    (hwrite : (naiveFileWrite f data pos).exec ans s = .ok ((r, pos'), t)) (hr : 0 < r) :
    r = data.length ∧ pos' = pos + data.length ∧
      ∃ nd', t.inodes f = some nd' ∧ nd'.iSize = max nd.iSize pos' ∧
        (∀ ask, ReadsOk ask → ∀ p l,
          (naiveFileRead f l p).exec ask s = .ok (((((s.fileBytes nd).drop p).take l).length,
            p + (((s.fileBytes nd).drop p).take l).length, ((s.fileBytes nd).drop p).take l), s) ∧
          (naiveFileRead f l p).exec ask t
            = .ok (((((overwrite (s.fileBytes nd) pos data).drop p).take l).length,
              p + (((overwrite (s.fileBytes nd) pos data).drop p).take l).length,
              ((overwrite (s.fileBytes nd) pos data).drop p).take l), t)) ∧
        ∀ g e, g ≠ f → s.inodes g = some e → t.inodes g = some e ∧
          (∀ ask p l, ((naiveFileRead g l p).exec ask t).map Prod.fst
            = ((naiveFileRead g l p).exec ask s).map Prod.fst) ∧
          ∀ k, k < 24 → t.recordAt e k = s.recordAt e k := by
  have hs := h.filed hg h0
  have hP : ∀ p, Disk.FreeData disk p → p ≠ 0 := fun p hp => hp.ne_zero hg
  have hsize := hs.sized f nd hnd (hcheck.1 nd hnd)
  obtain ⟨nd', hnd', hwritten⟩ := naiveFileWrite_written hg hs.ready hs.owned hs.mapped hnd hsize
    hcheck.2 hwrite
  have hcases := naiveFileWrite_cases hs.ready hwrite
  have ht := hcases.mapped hg hs.mapped
  obtain ⟨hq, hmax, hcontent⟩ := hwritten.result.resolve_left (show ¬ r < 0 by omega)
  obtain ⟨rfl, rfl⟩ := Prod.mk.inj hq
  have hbytes : t.fileBytes nd' = overwrite (s.fileBytes nd) pos data := by
    have hlow := hsize.nonneg
    unfold FS.fileBytes
    rw [← slice_blit (by omega), hmax,
      show (max nd.iSize (pos + data.length : Nat)).toNat
        = max nd.iSize.toNat (pos + data.length) by
        omega]
    refine slice_congr fun k hk => ?_
    rw [Nat.zero_add]
    exact hcontent k (by omega)
  refine ⟨rfl, rfl, nd', hnd', hmax, fun ask hask p l => ⟨?_, ?_⟩, fun g e hne he => ?_⟩
  · exact exec_naiveFileRead hask hnd ((hs.mapped.node f nd hnd).mono hP) hsize l p
  · rw [← hbytes]
    exact exec_naiveFileRead hask hnd' ((ht.node f nd' hnd').mono hP) hwritten.sized l p
  · have hsame : t.inodes g = some e := (hcases.inodes hne).trans he
    have huntouched := hcases.untouched hs.owned he hne
    exact ⟨hsame, fun ask p l => naiveFileRead_congr he hsame huntouched ask l p,
      fun k hk => huntouched.recordAt hk⟩

end Runs

/-- A device with 128 inodes and its data behind the inode table. -/
theorem guarded_sampleDisk :
    Disk.Guarded (· = naiveSuperBlockBlock) (sampleDisk 128 1000 4 132) := by
  have hstart : Disk.dataStart (sampleDisk 128 1000 4 132) = 132 := by decide +kernel
  refine ⟨by rw [hstart]; decide, rfl, ?_⟩
  rintro c rfl hlow _
  rw [hstart] at hlow
  exact absurd hlow (by decide)

/-- A file is created and given three bytes. -/
def threeBytesRun : List (Op × Answers) :=
  [(.create 0 (.letters 1 Nat.one_pos Name.one_le_max) 0o644, Answers.good default 0 0),
    (.write 1 (List.replicate 3 0x61#8) 0, Answers.good default 0 0)]

/-- 600 bytes written at position 2 of a file of three bytes. -/
theorem file_is_byte_array_sample : ∃ s t nd nd',
    runOpsIf (fun s op _ => decide (op.Checked s))
      (FS.mounted (sampleDisk 128 1000 4 132) default) threeBytesRun = some s ∧
      (naiveFileWrite 1 (List.replicate 600 0x62#8) 2).exec (Answers.good default 0 0) s
        = .ok ((600, 602), t) ∧
      s.inodes 1 = some nd ∧ t.inodes 1 = some nd' ∧ nd'.iSize = max nd.iSize (602 : Nat) ∧
      ∀ p l, (naiveFileRead 1 l p).exec (Answers.good default 0 0) t
        = .ok (((((overwrite (s.fileBytes nd) 2 (List.replicate 600 0x62#8)).drop p).take l).length,
          p + (((overwrite (s.fileBytes nd) 2 (List.replicate 600 0x62#8)).drop p).take l).length,
          ((overwrite (s.fileBytes nd) 2 (List.replicate 600 0x62#8)).drop p).take l), t) := by
  obtain ⟨s, hs, hcheck⟩ := (Option.any_eq_true _ _).mp (show (runOpsIf
      (fun s op _ => decide (op.Checked s)) (FS.mounted (sampleDisk 128 1000 4 132) default)
      threeBytesRun).any (fun s =>
        (s.inodes 1).any (fun nd => decide (2 ≤ nd.iSize)) &&
        (decide ((Op.write 1 (List.replicate 600 0x62#8) 2).Checked s) &&
        execTo s (naiveFileWrite 1 (List.replicate 600 0x62#8) 2) (Answers.good default 0 0)
          (fun q _ => decide (q = (600, 602))))) = true by decide +kernel)
  simp only [Bool.and_eq_true] at hcheck
  obtain ⟨hpos, hop, hexec⟩ := hcheck
  obtain ⟨nd, hnd, hpos⟩ := (Option.any_eq_true _ _).mp hpos
  obtain ⟨q, t, hwrite, hq⟩ := exists_of_execTo hexec
  obtain rfl := of_decide_eq_true hq
  have hreach : Reach (fun s op ans _ => op.cached ∧ op.Checked s ∧ Readable ans)
      (FS.mounted (sampleDisk 128 1000 4 132) default) s := by
    refine Reach.of_runOpsIf (fun u x _ hx hok => ?_) .refl hs
    simp only [threeBytesRun, List.mem_cons, List.not_mem_nil, or_false] at hx
    rcases hx with rfl | rfl <;> exact ⟨trivial, of_decide_eq_true hok, fun _ _ _ => rfl⟩
  obtain ⟨_, _, nd', hnd', hsize, hread, _⟩ := file_is_byte_array
    (sampleDisk_mounted 128 1000 4 132 default) guarded_sampleDisk hreach hnd
    (of_decide_eq_true hop) (of_decide_eq_true hpos) hwrite (by decide)
  exact ⟨s, t, nd, nd', hs, hwrite, hnd, hnd', hsize,
    fun p l => (hread _ ⟨fun _ _ => rfl, fun _ => rfl⟩ p l).2⟩

/-- Names that fit a record with their NUL. -/
def Op.Short : Op → Prop
  | .create _ name _ | .mkdir _ name _ | .unlink _ name | .rmdir _ name => name.bytes.length ≤ 127
  | _ => True

/-- Where the superblock is a free data block, the first `create` puts the root's
records over it. With a name of eight letters `data_block_no` is then 0, so the
file is given block 0, which `naive_file_read` takes for no block. -/
theorem byte_lost_in_block_zero : ¬ ∀ (disk : Nat → Bytes) (s0 s t : FS) (f pos pos' : Nat)
    (nd : Inode) (data : List Byte) (ans : Answers) (r : Int), Mounted disk s0 →
    Reach (fun s op ans _ => op.cached ∧ op.Checked s ∧ op.Short ∧
      ∃ ts uid gid, ans = Answers.good ts uid gid) s0 s →
    s.inodes f = some nd → (Op.write f data pos).Checked s → (pos : Int) ≤ nd.iSize →
    (naiveFileWrite f data pos).exec ans s = .ok ((r, pos'), t) → 0 < r →
    ∀ ask, ReadsOk ask → ∀ p l, (naiveFileRead f l p).exec ask t
      = .ok (((((overwrite (s.fileBytes nd) pos data).drop p).take l).length,
        p + (((overwrite (s.fileBytes nd) pos data).drop p).take l).length,
        ((overwrite (s.fileBytes nd) pos data).drop p).take l), t) := by
  intro hall
  obtain ⟨s, hs, hcheck⟩ := (Option.any_eq_true _ _).mp (show (runOpsIf
      (fun s op _ => decide (op.Checked s)) (FS.mounted (sampleDisk 128 1000 4 1) default)
      [(.create 0 (.letters 8 (by decide) (by decide)) 0o644, Answers.good default 0 0)]).any
      (fun s => (s.inodes 1).any (fun nd => decide (nd.iSize = 0)) &&
        (decide ((Op.write 1 [0x62#8] 0).Checked s) &&
        execTo s (naiveFileWrite 1 [0x62#8] 0) (Answers.good default 0 0)
          (fun q t => decide (q = (1, 1)) && execTo t (naiveFileRead 1 1 0)
            (Answers.good default 0 0) fun q _ => decide (q.1 = 0)))) = true by decide +kernel)
  simp only [Bool.and_eq_true] at hcheck
  obtain ⟨hempty, hop, hexec⟩ := hcheck
  obtain ⟨nd, hnd, hempty⟩ := (Option.any_eq_true _ _).mp hempty
  have hempty := of_decide_eq_true hempty
  obtain ⟨q, t, hwrite, hq⟩ := exists_of_execTo hexec
  rw [Bool.and_eq_true] at hq
  obtain rfl := of_decide_eq_true hq.1
  obtain ⟨q, u, hread, hzero⟩ := exists_of_execTo hq.2
  have hreach : Reach (fun s op ans _ => op.cached ∧ op.Checked s ∧ op.Short ∧
      ∃ ts uid gid, ans = Answers.good ts uid gid)
      (FS.mounted (sampleDisk 128 1000 4 1) default) s := by
    refine Reach.of_runOpsIf (fun u x _ hx hok => ?_) .refl hs
    simp only [List.mem_cons, List.not_mem_nil, or_false] at hx
    subst hx
    exact ⟨trivial, of_decide_eq_true hok,
      show (Name.letters 8 (by decide) (by decide)).bytes.length ≤ 127 by decide, _, _, _, rfl⟩
  have hbytes : s.fileBytes nd = [] := by
    unfold FS.fileBytes
    rw [hempty]
    rfl
  have hreads := hall _ _ s t 1 0 1 nd [0x62#8] _ 1 (sampleDisk_mounted 128 1000 4 1 default) hreach
    hnd (of_decide_eq_true hop) (by rw [hempty]; decide) hwrite (by decide)
    (Answers.good default 0 0) ⟨fun _ _ => rfl, fun _ => rfl⟩ 0 1
  rw [hbytes, hread] at hreads
  obtain ⟨rfl, _⟩ := Prod.mk.inj (Except.ok.inj hreads)
  exact absurd (of_decide_eq_true hzero) (by decide)

end NaiveFS
