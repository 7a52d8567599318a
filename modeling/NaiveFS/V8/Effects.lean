import NaiveFS.V8.File
import NaiveFS.V8.Spec

/-!
# What a write stores (`naivefs-8`)

A call of `naive_file_write` is a sequence of four kinds of change: a free block
is attached to an index without one, a block is detached, bytes go into a block
the file holds, the size grows. What holds of a state after any write follows
from what each kind of change keeps.
-/

namespace NaiveFS.V8

open Bytes

variable {e : Endian} {sbi : SbInfo} {id : Nat} {nii : NaiveInodeInfo} {ans : Answers} {s t u : FS}

/-! ## Words -/

theorem le32ToCpu_cpuToLe32 {v : Nat} (h : v < 2 ^ 32) : le32ToCpu e (cpuToLe32 e v) = v := by
  cases e with
  | little => rfl
  | big => exact swab32_swab32 h

/-- A little-endian field is stored alike on both hosts. -/
theorem store32_cpuToLe32 {m : Bytes} {a v : Nat} (h : v < 2 ^ 32) :
    store32 e m a (cpuToLe32 e v) = m.putLE32 a v := by
  rw [store32, le32ToCpu_cpuToLe32 h]

theorem store32_zero {m : Bytes} {a : Nat} : store32 e m a 0 = m.putLE32 a 0 := by
  cases e <;> rfl

theorem load32_eq_zero_iff {m : Bytes} {a : Nat} : load32 e m a = 0 ↔ m.getLE32 a = 0 := by
  constructor
  · intro h
    rw [← le32ToCpu_load32 e m a, h]
    cases e <;> rfl
  · exact load32_eq_zero

/-! ## The changes -/

/-- The block index `i` of the record holds, 0 for none. -/
def NaiveInodeInfo.slot (nii : NaiveInodeInfo) (m : Bytes) (i : Nat) : Nat :=
  m.getLE32 (nii.iBlock i)

theorem load32_slot {m : Bytes} {i : Nat} :
    le32ToCpu e (load32 e m (nii.iBlock i)) = nii.slot m i := le32ToCpu_load32 ..

/-- `data_blocks_start` and `blocks_count` as the allocator uses them. -/
def SbInfo.dataStart (e : Endian) (sbi : SbInfo) : Int := toInt32 (le32ToCpu e sbi.dataBlocksStart)

def SbInfo.dataEnd (e : Endian) (sbi : SbInfo) : Int := toInt32 (le32ToCpu e sbi.blocksCount)

/-- `x` is a block the allocator may hand out. -/
def SbInfo.InData (e : Endian) (sbi : SbInfo) (x : Nat) : Prop :=
  sbi.dataStart e ≤ x ∧ x < sbi.dataEnd e

instance (x : Nat) : Decidable (sbi.InData e x) :=
  inferInstanceAs (Decidable (sbi.dataStart e ≤ x ∧ x < sbi.dataEnd e))

/-- The flat number of block `x`'s bit. -/
def SbInfo.blockBit (sbi : SbInfo) (x : Nat) : Nat := 8 * sbi.blockBitmap + x

/-- `i_blocks += d`. -/
def bumpBlocks (nii : NaiveInodeInfo) (d : Int) (m : Bytes) : Bytes :=
  m.putLE32 (nii.diskInode + 8) (toU32 ((m.getLE32 (nii.diskInode + 8) : Int) + d))

/-- One change of memory and of the inode's VFS size. -/
inductive Effect (e : Endian) (sbi : SbInfo) (nii : NaiveInodeInfo) :
    Bytes × Int → Bytes × Int → Prop where
  | attach {m : Bytes} {v : Int} (i x : Nat) (hi : i < naiveDirectBlocks)
      (free : nii.slot m i = 0) (data : sbi.InData e x) (clear : m.bit (sbi.blockBit x) = false) :
      Effect e sbi nii (m, v)
        (bumpBlocks nii 1 ((m.setBit (sbi.blockBit x)).putLE32 (nii.iBlock i) x), v)
  | detach {m : Bytes} {v : Int} (i x : Nat) (hi : i < naiveDirectBlocks)
      (held : nii.slot m i = x) (pos : 0 < x) :
      Effect e sbi nii (m, v)
        (bumpBlocks nii (-1) ((m.clearBit (sbi.blockBit x)).putLE32 (nii.iBlock i) 0), v)
  | data {m : Bytes} {v : Int} (i x off : Nat) (bytes : List Byte) (hi : i < naiveDirectBlocks)
      (held : nii.slot m i = x) (pos : 0 < x) (inBlock : off + bytes.length ≤ naiveBlockSize) :
      Effect e sbi nii (m, v) (m.blit (bData x + off) bytes, v)
  | size {m : Bytes} {v : Int} (w : Nat) (hw : w < 2 ^ 32) :
      Effect e sbi nii (m, v) (m.putLE32 (nii.diskInode + 44) w, w)

/-- Any number of changes. -/
abbrev Effects (e : Endian) (sbi : SbInfo) (nii : NaiveInodeInfo) :
    Bytes × Int → Bytes × Int → Prop := Relation.ReflTransGen (Effect e sbi nii)

/-- What every change keeps, any number of changes keep. -/
theorem Effects.keeps {P : Bytes × Int → Prop} {a b : Bytes × Int} (h : Effects e sbi nii a b)
    (hstep : ∀ a b, Effect e sbi nii a b → P a → P b) (ha : P a) : P b := by
  induction h with
  | refl => exact ha
  | tail _ hbc ih => exact hstep _ _ hbc ih

/-- `t` is `s` after changes through inode `id`; of the inode itself only the size and
two times differ. -/
structure Writes (e : Endian) (sbi : SbInfo) (id : Nat) (nii : NaiveInodeInfo) (s t : FS) :
    Prop where
  self : ∃ nd size mt ct, s.inodes id = some nd ∧
    t.inodes id = some { nd with iSize := size, iMtime := mt, iCtime := ct } ∧
    Effects e sbi nii (s.mem, nd.iSize) (t.mem, size)
  others : ∀ x, x ≠ id → t.inodes x = s.inodes x
  next : t.nextInode = s.nextInode
  dentry : t.dcache = s.dcache
  root : t.sRoot = s.sRoot
  info : t.sFsInfo = s.sFsInfo

theorem Writes.refl {nd : Inode} (h : s.inodes id = some nd) : Writes e sbi id nii s s where
  self := ⟨nd, nd.iSize, nd.iMtime, nd.iCtime, h, h, .refl⟩
  others _ _ := rfl
  next := rfl
  dentry := rfl
  root := rfl
  info := rfl

theorem Writes.trans (h : Writes e sbi id nii s t) (h' : Writes e sbi id nii t u) :
    Writes e sbi id nii s u where
  self := by
    obtain ⟨nd, size, mt, ct, hs, ht, hst⟩ := h.self
    obtain ⟨nd', size', mt', ct', ht', hu, htu⟩ := h'.self
    obtain rfl := Option.some.inj (ht.symm.trans ht')
    exact ⟨nd, size', mt', ct', hs, hu, hst.trans htu⟩
  others x hx := (h'.others x hx).trans (h.others x hx)
  next := h'.next.trans h.next
  dentry := h'.dentry.trans h.dentry
  root := h'.root.trans h.root
  info := h'.info.trans h.info

/-- The inode stays in memory, with its record. -/
theorem Writes.inode {nd : Inode} (h : Writes e sbi id nii s t) (hs : s.inodes id = some nd) :
    ∃ nd', t.inodes id = some nd' ∧ nd'.iPrivate = nd.iPrivate ∧ nd'.iIno = nd.iIno ∧
      nd'.iNlink = nd.iNlink := by
  obtain ⟨nd', size, mt, ct, hs', ht, -⟩ := h.self
  obtain rfl := Option.some.inj (hs.symm.trans hs')
  exact ⟨_, ht, rfl, rfl, rfl⟩

/-- A change of memory alone. -/
theorem Writes.of_mem {nd : Inode} (hs : s.inodes id = some nd) (hino : t.inodes = s.inodes)
    (h : Effects e sbi nii (s.mem, nd.iSize) (t.mem, nd.iSize))
    (hnext : t.nextInode = s.nextInode) (hdc : t.dcache = s.dcache) (hroot : t.sRoot = s.sRoot)
    (hinfo : t.sFsInfo = s.sFsInfo) : Writes e sbi id nii s t where
  self := ⟨nd, nd.iSize, nd.iMtime, nd.iCtime, hs, hino ▸ hs, h⟩
  others x _ := by rw [hino]
  next := hnext
  dentry := hdc
  root := hroot
  info := hinfo

/-- Buffer counts and marks are no change. -/
theorem Writes.of_eq {nd : Inode} (hs : s.inodes id = some nd) (hino : t.inodes = s.inodes)
    (hmem : t.mem = s.mem) (hnext : t.nextInode = s.nextInode) (hdc : t.dcache = s.dcache)
    (hroot : t.sRoot = s.sRoot) (hinfo : t.sFsInfo = s.sFsInfo) : Writes e sbi id nii s t :=
  .of_mem hs hino (by rw [hmem]) hnext hdc hroot hinfo

/-! ## The allocator -/

/-- From a non-negative start the scan does not fault. -/
theorem findClear_total {bitmap n i : Nat} {m : Bytes} (h : i + n ≤ 2 ^ 31) :
    ∃ r, findClear bitmap m n (i : Int) = .ok r := by
  induction n generalizing i with
  | zero => exact ⟨none, rfl⟩
  | succ n ih =>
      rw [findClear, if_neg (by omega), naiveTestBit_nat]
      cases m.bit (8 * bitmap + i) with
      | false => exact ⟨some i, rfl⟩
      | true =>
          obtain ⟨r, hr⟩ := ih (i := i + 1) (by omega)
          exact ⟨r, by exact_mod_cast hr⟩

theorem toInt32_lt (x : Int) : toInt32 x < 2 ^ 31 := by
  unfold toInt32
  omega

/-- From a non-negative start the scan takes a clear bit, or finds none. -/
theorem takeClear_exec {bitmap bh n i : Nat} (h : i + n ≤ 2 ^ 31) :
    (takeClear bitmap bh n i).exec ans s = .ok (-1, s) ∨
    ∃ k : Nat, i ≤ k ∧ k < i + n ∧ s.mem.bit (8 * bitmap + k) = false ∧
      (takeClear bitmap bh n i).exec ans s = .ok ((k : Int),
        (s.setMem (s.mem.setBit (8 * bitmap + k))).markDirty bh) := by
  rw [takeClear, Prog.exec_step]
  obtain ⟨r, hr⟩ := findClear_total (m := s.mem) h
  cases r with
  | none =>
      refine .inl ?_
      rw [hr]
      rfl
  | some k =>
      obtain ⟨x, rfl, hle, hlt, -, hfree, -⟩ := findClear_some hr
      have hset : naiveSetBit x bitmap s.mem = .ok _ := naiveSetBit_nat ..
      refine .inr ⟨x, hle, hlt, hfree, ?_⟩
      simp only [hr, hset, bind, Except.bind, pure, Except.pure]

/-- `naive_find_free_block` returns -1, or a free data block, now marked. -/
theorem naiveFindFreeBlock_exec (hD : 0 < sbi.dataStart e) :
    (naiveFindFreeBlock e sbi).exec ans s = .ok (-1, s) ∨
    ∃ x : Nat, sbi.InData e x ∧ s.mem.bit (sbi.blockBit x) = false ∧
      (naiveFindFreeBlock e sbi).exec ans s = .ok ((x : Int),
        (s.setMem (s.mem.setBit (sbi.blockBit x))).markDirty sbi.blockBitmapBh) := by
  have hT : sbi.dataEnd e < 2 ^ 31 := toInt32_lt _
  have hD' : sbi.dataStart e < 2 ^ 31 := toInt32_lt _
  have hd : sbi.dataStart e = ((sbi.dataStart e).toNat : Nat) := by omega
  have hcode : naiveFindFreeBlock e sbi = takeClear sbi.blockBitmap sbi.blockBitmapBh
      (sbi.dataEnd e - sbi.dataStart e).toNat (sbi.dataStart e).toNat := by
    rw [← hd]
    rfl
  rw [hcode]
  obtain h | ⟨x, hle, hlt, hfree, h⟩ := takeClear_exec (s := s)
    (i := (sbi.dataStart e).toNat)
    (n := (sbi.dataEnd e - sbi.dataStart e).toNat) (by omega)
  · exact .inl h
  · exact .inr ⟨x, ⟨by omega, by omega⟩, hfree, h⟩

theorem SbInfo.InData.lt {x : Nat} (h : sbi.InData e x) : x < 2 ^ 31 := by
  have hT : sbi.dataEnd e < 2 ^ 31 := toInt32_lt _
  have := h.2
  omega

theorem SbInfo.InData.pos {x : Nat} (h : sbi.InData e x) (hD : 0 < sbi.dataStart e) : 0 < x := by
  have := h.1
  omega

/-! ## The write -/

theorem addBlocks_eq (d : Int) (m : Bytes) : addBlocks e nii d m = bumpBlocks nii d m := by
  rw [addBlocks, store32_cpuToLe32 (toU32_lt _), le32ToCpu_load32, bumpBlocks]

theorem bumpBlocks_out {d : Int} {m : Bytes} {a : Nat}
    (h : a < nii.diskInode + 8 ∨ nii.diskInode + 12 ≤ a) : bumpBlocks nii d m a = m a :=
  putLE32_out (by omega)

/-- The block just attached is what the index holds. -/
theorem slot_attached {d : Int} {m : Bytes} {i x : Nat} (hx : x < 2 ^ 32) :
    nii.slot (bumpBlocks nii d (m.putLE32 (nii.iBlock i) x)) i = x := by
  have hcount : nii.slot (bumpBlocks nii d (m.putLE32 (nii.iBlock i) x)) i
      = (m.putLE32 (nii.iBlock i) x).getLE32 (nii.iBlock i) := by
    apply getLE32_congr
    intro a ha _
    unfold NaiveInodeInfo.iBlock at ha
    exact bumpBlocks_out (by omega)
  rw [hcount, getLE32_putLE32, Nat.mod_eq_of_lt hx]

/-- The index has a block afterwards, or no block is free. -/
theorem fileWriteAttach_exec {nd : Inode} {i : Nat} (hD : 0 < sbi.dataStart e)
    (hs : s.inodes id = some nd) (hi : i < naiveDirectBlocks) :
    ((fileWriteAttach e sbi nii i).exec ans s = .ok (none, s)) ∨
    ∃ isNew t, (fileWriteAttach e sbi nii i).exec ans s = .ok (some isNew, t) ∧
      Writes e sbi id nii s t ∧ 0 < nii.slot t.mem i ∧
      (isNew = true → sbi.InData e (nii.slot t.mem i)) := by
  rw [fileWriteAttach, Prog.exec_read_bind, Prog.exec_ite]
  by_cases hp : load32 e s.mem (nii.iBlock i) = 0
  · rw [if_neg (not_not.mpr hp)]
    obtain hnone | ⟨x, hx, hfree, hsome⟩ := naiveFindFreeBlock_exec (s := s) hD
    · rw [Prog.exec_bind_of hnone, if_pos (by decide)]
      exact .inl rfl
    · rw [Prog.exec_bind_of hsome, if_neg (by omega), Prog.exec_bind_of exec_updMem,
        Prog.exec_bind_of exec_updMem]
      have hx32 : x < 2 ^ 32 := by
        have := hx.lt
        omega
      have heffect : Effect e sbi nii (s.mem, nd.iSize) (addBlocks e nii 1 (store32 e
          (s.mem.setBit (sbi.blockBit x)) (nii.iBlock i) (cpuToLe32 e (toU32 x))), nd.iSize) := by
        rw [addBlocks_eq, store32_cpuToLe32 (toU32_lt _), toU32_natCast hx32]
        exact .attach i x hi (load32_eq_zero_iff.mp hp) hx hfree
      have hslot : nii.slot (addBlocks e nii 1 (store32 e (s.mem.setBit (sbi.blockBit x))
          (nii.iBlock i) (cpuToLe32 e (toU32 x)))) i = x := by
        rw [addBlocks_eq, store32_cpuToLe32 (toU32_lt _), toU32_natCast hx32,
          slot_attached hx32]
      exact .inr ⟨true, _, rfl, .of_mem hs rfl (.single heffect) rfl rfl rfl rfl,
        lt_of_lt_of_eq (hx.pos hD) hslot.symm, fun _ => (congrArg (sbi.InData e) hslot).mpr hx⟩
  · rw [if_pos hp]
    refine .inr ⟨false, s, rfl, .refl hs, ?_, fun h => absurd h (by decide)⟩
    exact Nat.pos_of_ne_zero fun h0 => hp (load32_eq_zero h0)

/-- Undoing gives back the block the index holds. -/
theorem fileWriteDetach_exec {nd : Inode} {i : Nat} (hs : s.inodes id = some nd)
    (hi : i < naiveDirectBlocks) (hx : sbi.InData e (nii.slot s.mem i))
    (hpos : 0 < nii.slot s.mem i) :
    ∃ t, (fileWriteDetach e sbi nii i).exec ans s = .ok ((), t) ∧ Writes e sbi id nii s t := by
  have hint : toInt32 (nii.slot s.mem i : Nat) = (nii.slot s.mem i : Nat) := by
    have := hx.lt
    exact toInt32_of_small (by omega) (by omega)
  rw [fileWriteDetach, Prog.exec_read_bind, load32_slot]
  have hbit : naiveClearBit (toInt32 (nii.slot s.mem i : Nat)) sbi.blockBitmap s.mem
      = .ok (s.mem.clearBit (sbi.blockBit (nii.slot s.mem i))) := by
    rw [hint]
    exact naiveClearBit_nat ..
  rw [Prog.exec_bind_of (exec_tryMem hbit), Prog.exec_bind_of exec_updMem]
  refine ⟨_, exec_updMem, .of_mem hs rfl (.single ?_) rfl rfl rfl rfl⟩
  show Effect e sbi nii (s.mem, nd.iSize) (addBlocks e nii (-1) (store32 e
    (s.mem.clearBit (sbi.blockBit (nii.slot s.mem i))) (nii.iBlock i) 0), nd.iSize)
  rw [addBlocks_eq, store32_zero]
  exact .detach i _ hi rfl hpos

/-- Both copies of the size are set. -/
theorem grow_exec {nd : Inode} {w : Nat} {q : Round} (hs : s.inodes id = some nd)
    (hw : w < 2 ^ 32) :
    ∃ t, (do
      updMem fun m => store32 e m (nii.diskInode + 44) (cpuToLe32 e w)
      updInode id fun nd => { nd with iSize := w }
      pure q : K Round).exec ans s = .ok (q, t) ∧ Writes e sbi id nii s t := by
  have hs' : (s.setMem (store32 e s.mem (nii.diskInode + 44) (cpuToLe32 e w))).inodes id
      = some nd := hs
  rw [Prog.exec_bind_of exec_updMem, Prog.exec_bind_of (exec_updInode hs')]
  refine ⟨_, rfl, ⟨nd, _, nd.iMtime, nd.iCtime, hs, FS.inodes_setInode_self, .single ?_⟩,
    fun x hx => FS.inodes_setInode_ne hx, rfl, rfl, rfl, rfl⟩
  show Effect e sbi nii (s.mem, nd.iSize)
    (store32 e s.mem (nii.diskInode + 44) (cpuToLe32 e w), (w : Int))
  rw [store32_cpuToLe32 hw]
  exact .size w hw

/-- The end of a round stores into the block the index holds. -/
theorem fileWriteCopy_exec {nd : Inode} {i pos fileSize : Nat} {data : List Byte}
    (hs : s.inodes id = some nd) (hi : i < naiveDirectBlocks) (hpos : 0 < nii.slot s.mem i) :
    ∃ q t, (fileWriteCopy e id nii i (nii.slot s.mem i) pos data fileSize).exec ans s
      = .ok (q, t) ∧ Writes e sbi id nii s t := by
  have hdata : ∀ left : Nat, Effect e sbi nii (s.mem, nd.iSize)
      (s.mem.blit (bData (nii.slot s.mem i) + pos % naiveBlockSize)
        (copiedFromUser data (min data.length (naiveBlockSize - pos % naiveBlockSize)) left),
        nd.iSize) := by
    intro left
    refine .data i _ _ _ hi rfl hpos ?_
    have hoff : pos % naiveBlockSize < naiveBlockSize := Nat.mod_lt _ (by decide)
    rw [length_copiedFromUser (Nat.min_le_left ..)]
    omega
  rw [fileWriteCopy, Prog.exec_ask_bind, Prog.exec_bind_of exec_updMem]
  by_cases hleft : (ans (.copyFromUser i) : Nat) = 0
  · have hcopied : ¬ (ans (.copyFromUser i) : Nat) ≠ 0 := not_not.mpr hleft
    rw [if_neg hcopied, Prog.exec_bind_of exec_markBufferDirty, Prog.exec_bind_of exec_brelse]
    have hu : Writes e sbi id nii s (((s.setMem (s.mem.blit
        (bData (nii.slot s.mem i) + pos % naiveBlockSize)
        (copiedFromUser data (min data.length (naiveBlockSize - pos % naiveBlockSize))
          (ans (.copyFromUser i))))).markDirty (nii.slot s.mem i)).addRef
        (nii.slot s.mem i) (-1)) := .of_mem hs rfl (.single (hdata _)) rfl rfl rfl rfl
    obtain ⟨nd', hnd', -⟩ := hu.inode hs
    rw [Prog.exec_ite]
    split
    · obtain ⟨t, ht, hw⟩ := grow_exec hnd' (toU32_lt _)
      exact ⟨_, t, ht, hu.trans hw⟩
    · exact ⟨_, _, rfl, hu⟩
  · rw [if_pos hleft, Prog.exec_bind_of exec_brelse]
    exact ⟨_, _, rfl, .of_mem hs rfl (.single (hdata _)) rfl rfl rfl rfl⟩

/-- A round adds its changes, whichever way it ends. -/
theorem fileWriteRound_exec {nd : Inode} {pos fileSize : Nat} {data : List Byte} {written : Int}
    (hD : 0 < sbi.dataStart e) (hs : s.inodes id = some nd) :
    ∃ q t, (fileWriteRound e sbi id nii pos data fileSize written).exec ans s = .ok (q, t) ∧
      Writes e sbi id nii s t := by
  rw [fileWriteRound]
  generalize toU32 (pos / naiveBlockSize : Nat) = i
  by_cases hi : naiveDirectBlocks ≤ i
  · rw [if_pos hi]
    exact ⟨_, s, rfl, .refl hs⟩
  rw [if_neg hi]
  obtain hnone | ⟨isNew, u, hsome, hu, hpos, hnew⟩ :=
    fileWriteAttach_exec hD hs (Nat.lt_of_not_le hi)
  · rw [Prog.exec_bind_of hnone]
    exact ⟨_, s, rfl, .refl hs⟩
  obtain ⟨ndu, hndu, -⟩ := hu.inode hs
  rw [Prog.exec_bind_of hsome]
  simp only
  rw [Prog.exec_read_bind, load32_slot]
  cases hread : ans (.sbBread (.fileWrite i) (nii.slot u.mem i)) with
  | false =>
      rw [Prog.exec_bind_of (exec_sbBread_fail hread), Bool.not_false, if_pos rfl]
      cases isNew with
      | false => exact ⟨_, u, rfl, hu⟩
      | true =>
          -- the new block is given back
          obtain ⟨t, ht, hw⟩ := fileWriteDetach_exec hndu (Nat.lt_of_not_le hi)
            (hnew rfl) hpos
          rw [if_pos rfl, Prog.exec_bind_of ht]
          exact ⟨_, t, rfl, hu.trans hw⟩
  | true =>
      rw [Prog.exec_bind_of (exec_sbBread_ok hread), Bool.not_true, if_neg Bool.false_ne_true]
      have hread' : Writes e sbi id nii u (u.addRef (nii.slot u.mem i) 1) :=
        .of_eq hndu rfl rfl rfl rfl rfl rfl
      obtain ⟨nd', hnd', -⟩ := hread'.inode hndu
      obtain ⟨q, t, ht, hw⟩ := fileWriteCopy_exec (e := e) hnd' (Nat.lt_of_not_le hi) hpos
      exact ⟨q, t, ht, (hu.trans hread').trans hw⟩

/-- The induction is on the rounds; each adds its changes. -/
theorem fileWriteLoop_exec {nd : Inode} {fuel pos fileSize : Nat} {data : List Byte}
    {written : Int} (hD : 0 < sbi.dataStart e) (hs : s.inodes id = some nd) :
    ∃ q t, (fileWriteLoop e sbi id nii fuel pos data fileSize written).exec ans s = .ok (q, t) ∧
      Writes e sbi id nii s t := by
  induction fuel generalizing s nd pos fileSize data written with
  | zero => exact ⟨_, s, rfl, .refl hs⟩
  | succ fuel ih =>
      rw [fileWriteLoop, Prog.exec_ite]
      split
      · exact ⟨_, s, rfl, .refl hs⟩
      obtain ⟨q, u, hq, hu⟩ := fileWriteRound_exec hD hs
      obtain ⟨ndu, hndu, -⟩ := hu.inode hs
      rw [Prog.exec_bind_of hq]
      cases q with
      | stop written => exact ⟨_, u, rfl, hu⟩
      | next n size =>
          obtain ⟨q, t, ht, hw⟩ := ih hndu
          exact ⟨q, t, ht, hu.trans hw⟩

/-- `naive_file_write` returns, and what it leaves comes from the four changes. -/
theorem naiveFileWrite_exec {nd : Inode} {pos : Nat} {data : List Byte}
    (hD : 0 < sbi.dataStart e) (hs : s.inodes id = some nd) (hnii : nd.iPrivate = some nii)
    (hsbi : s.sFsInfo = .live sbi) :
    ∃ q t, (naiveFileWrite e id data pos).exec ans s = .ok (q, t) ∧
      Writes e sbi id nii s t := by
  rw [naiveFileWrite, Prog.exec_bind_of (exec_naiveI hs hnii),
    Prog.exec_bind_of (exec_naiveSb hsbi), Prog.exec_read_bind, Prog.exec_ite]
  split
  · exact ⟨_, s, rfl, .refl hs⟩
  obtain ⟨q, u, hq, hu⟩ := fileWriteLoop_exec hD hs
  obtain ⟨ndu, hndu, -⟩ := hu.inode hs
  rw [Prog.exec_bind_of hq, Prog.exec_bind_of exec_ktime, Prog.exec_bind_of (exec_updInode hndu),
    Prog.exec_bind_of exec_markBufferDirty]
  refine ⟨q, _, rfl, hu.trans ?_⟩
  exact ⟨⟨ndu, ndu.iSize, ans .ktime, ans .ktime, hndu, FS.inodes_setInode_self, .refl⟩,
    fun x hx => FS.inodes_setInode_ne hx, rfl, rfl, rfl, rfl⟩

/-! ## Writes as actions -/

/-- The records of the inodes in memory. -/
abbrev Records := Nat → Option NaiveInodeInfo

def FS.records (s : FS) : Records := fun id => (s.inodes id).bind (·.iPrivate)

theorem records_eq_some : s.records id = some nii ↔
    ∃ nd, s.inodes id = some nd ∧ nd.iPrivate = some nii := by
  simp [FS.records, Option.bind_eq_some_iff]

theorem Writes.records (h : Writes e sbi id nii s t) : t.records = s.records := by
  funext x
  by_cases hx : x = id
  · obtain ⟨nd, size, mt, ct, hs, ht, -⟩ := h.self
    simp [FS.records, hx, hs, ht]
  · simp [FS.records, h.others x hx]

/-- Inode `id`'s record was read. -/
theorem exec_naiveI_ok (h : (naiveI id).exec ans s = .ok (nii, t)) :
    s.records id = some nii ∧ t = s := by
  rw [naiveI, Prog.exec_step] at h
  cases hp : (s.inodes id).bind (·.iPrivate) with
  | none => simp [hp] at h
  | some nii' =>
      simp only [hp, Except.ok.injEq, Prod.mk.injEq] at h
      exact ⟨by rw [FS.records, hp, h.1], h.2.symm⟩

/-- A write on an inode with a record returns. -/
theorem write_acts {data : List Byte} {pos : Nat} (hD : 0 < sbi.dataStart e)
    (hid : s.records id = some nii) (hsbi : s.sFsInfo = .live sbi) :
    ∃ r t, Acts e s (.write id data pos) ans r t ∧ Writes e sbi id nii s t := by
  obtain ⟨nd, hnd, hnii⟩ := records_eq_some.mp hid
  obtain ⟨q, t, ht, hw⟩ := naiveFileWrite_exec hD hnd
    hnii hsbi
  refine ⟨q.1, t, ?_, hw⟩
  rw [Acts, Action.prog, Prog.exec_bind_of ht]
  rfl

/-- A write that returns had an inode with a record. -/
theorem write_cases {data : List Byte} {pos : Nat} {r : Int} (hD : 0 < sbi.dataStart e)
    (hsbi : s.sFsInfo = .live sbi) (h : Acts e s (.write id data pos) ans r t) :
    ∃ nii, s.records id = some nii ∧ Writes e sbi id nii s t := by
  have hcode := h
  rw [Acts, Action.prog] at hcode
  obtain ⟨q, u, hq, -⟩ := Prog.exec_bind_ok.mp hcode
  rw [naiveFileWrite] at hq
  obtain ⟨nii, u', hnii, -⟩ := Prog.exec_bind_ok.mp hq
  have hid := (exec_naiveI_ok hnii).1
  obtain ⟨r', t', ht', hw⟩ := write_acts hD hid hsbi
  cases (Except.ok.inj (h.symm.trans ht'))
  exact ⟨nii, hid, hw⟩

end NaiveFS.V8
