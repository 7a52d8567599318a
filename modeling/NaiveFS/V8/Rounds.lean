import NaiveFS.Lib.BlockLoop
import NaiveFS.V8.View

/-!
# Rounds of a write (`naivefs-8`)

A round of `naive_file_write` asks for the block of the byte it starts at, stores into it
and lets the file reach to where it stored; or it leaves memory's sizes alone.
-/

namespace NaiveFS.V8

open Bytes BlockLoop FirstFit

variable {e : Endian} {sbi : SbInfo} {nii : NaiveInodeInfo} {m m' : Bytes} {id i x : Nat}
  {ans : Answers} {s t : FS}

/-! ## Attaching and detaching -/

section Attach

/-- A slot that holds a block keeps it. -/
theorem exec_fileWriteAttach_held (hi : i < naiveDirectBlocks) (h : nii.slots s.mem i ≠ 0) :
    (fileWriteAttach e sbi nii i).exec ans s = .ok (some false, s) := by
  rw [slots_of_lt hi] at h
  have hp : load32 e s.mem (nii.iBlock i) ≠ 0 := fun h0 => h (load32_eq_zero_iff.mp h0)
  rw [fileWriteAttach, Prog.exec_read_bind, if_pos hp]
  rfl

/-- An empty slot stays empty when no block is free. -/
theorem exec_fileWriteAttach_none (hD : 0 < sbi.dataStart e) (hi : i < naiveDirectBlocks)
    (h : nii.slots s.mem i = 0) (hl : freeBlocks e sbi s.mem = []) :
    (fileWriteAttach e sbi nii i).exec ans s = .ok (none, s) := by
  rw [slots_of_lt hi] at h
  rw [fileWriteAttach, Prog.exec_read_bind, if_neg (not_not.mpr (load32_eq_zero h)),
    Prog.exec_bind_of (exec_naiveFindFreeBlock_nil hD hl), if_pos (by decide)]
  rfl

/-- An empty slot is given the first free block. -/
theorem exec_fileWriteAttach_new {l : List Nat} (hD : 0 < sbi.dataStart e)
    (hi : i < naiveDirectBlocks) (h : nii.slots s.mem i = 0)
    (hl : freeBlocks e sbi s.mem = x :: l) :
    (fileWriteAttach e sbi nii i).exec ans s = .ok (some true,
      ((s.setMem (s.mem.setBit (sbi.blockBit x))).markDirty sbi.blockBitmapBh).setMem
        (putSlot nii 1 i x (s.mem.setBit (sbi.blockBit x)))) := by
  rw [slots_of_lt hi] at h
  have hx := (mem_freeBlocks.mp (show x ∈ freeBlocks e sbi s.mem by rw [hl]; simp)).1.lt
  rw [fileWriteAttach, Prog.exec_read_bind, if_neg (not_not.mpr (load32_eq_zero h)),
    Prog.exec_bind_of (exec_naiveFindFreeBlock_cons hD hl), if_neg (by omega),
    Prog.exec_bind_of exec_updMem, Prog.exec_bind_of exec_updMem]
  unfold putSlot
  rw [← addBlocks_eq (e := e), store32_cpuToLe32 (toU32_lt _), toU32_natCast (by omega)]
  rfl

/-- The slot gives its block back. -/
theorem exec_fileWriteDetach (hi : i < naiveDirectBlocks) (hx : sbi.InData e (nii.slots s.mem i)) :
    (fileWriteDetach e sbi nii i).exec ans s = .ok ((),
      (s.setMem (s.mem.clearBit (sbi.blockBit (nii.slots s.mem i)))).setMem
        (putSlot nii (-1) i 0 (s.mem.clearBit (sbi.blockBit (nii.slots s.mem i))))) := by
  rw [slots_of_lt hi] at hx ⊢
  have hint : toInt32 (nii.slot s.mem i : Nat) = (nii.slot s.mem i : Nat) := by
    have := hx.lt
    exact toInt32_of_small (by omega) (by omega)
  have hbit : naiveClearBit (toInt32 (nii.slot s.mem i : Nat)) sbi.blockBitmap s.mem
      = .ok (s.mem.clearBit (sbi.blockBit (nii.slot s.mem i))) := by
    rw [hint]
    exact naiveClearBit_nat ..
  rw [fileWriteDetach, Prog.exec_read_bind, load32_slot, Prog.exec_bind_of (exec_tryMem hbit),
    Prog.exec_bind_of exec_updMem, exec_updMem]
  unfold putSlot
  rw [← addBlocks_eq (e := e), ← store32_zero (e := e)]
  rfl

end Attach

/-! ## One round of a write -/

section Round

variable {pos : Nat} {data : List Byte} {written : Int}

/-- Block `i` is there or can be had, and can be read. -/
def Available (ans : Answers) (x i : Nat) : Prop :=
  x ≠ 0 ∧ ans (.sbBread (.fileWrite i) x) = true

/-- How a round ends that starts at byte `pos`, in the file's block of that byte. -/
inductive RoundEnd (ans : Answers) (e : Endian) (sbi : SbInfo) (id : Nat) (nii : NaiveInodeInfo)
    (s : FS) (pos : Nat) (data : List Byte) (written : Int) : Round → FS → Prop where
  | stop {t : FS} (size : nii.size t.mem = nii.size s.mem)
      (unavailable : ¬ Available ans
        (((view e sbi nii s.mem).plan.give (pos / naiveBlockSize)).slots
        (pos / naiveBlockSize)) (pos / naiveBlockSize)) :
      RoundEnd ans e sbi id nii s pos data written (.stop written) t
  | fault {t : FS} (size : nii.size t.mem = nii.size s.mem)
      (available : Available ans (((view e sbi nii s.mem).plan.give (pos / naiveBlockSize)).slots
        (pos / naiveBlockSize)) (pos / naiveBlockSize))
      (copy : ans (.copyFromUser (pos / naiveBlockSize)) ≠ (0 : Nat)) :
      RoundEnd ans e sbi id nii s pos data written (.stop (-EFAULT)) t
  | next {t : FS}
      (available : Available ans (((view e sbi nii s.mem).plan.give (pos / naiveBlockSize)).slots
        (pos / naiveBlockSize)) (pos / naiveBlockSize))
      (copy : ans (.copyFromUser (pos / naiveBlockSize)) = (0 : Nat))
        (file : OpenFile e sbi t id nii)
      (after : view e sbi nii t.mem = (((view e sbi nii s.mem).give (pos / naiveBlockSize)).put
        (pos / naiveBlockSize) (pos % naiveBlockSize)
          (data.take (chunk naiveBlockSize pos data.length))).grow
            (pos + chunk naiveBlockSize pos data.length)) :
      RoundEnd ans e sbi id nii s pos data written
        (.next (chunk naiveBlockSize pos data.length) (nii.size t.mem)) t

/-- A change of memory that keeps the blocks of the file among the data blocks. -/
theorem OpenFile.of_mem (h : OpenFile e sbi s id nii) (hinfo : t.sFsInfo = s.sFsInfo)
    (hrec : t.records = s.records)
    (hheld : ∀ i, nii.slots t.mem i ≠ 0 → sbi.InData e (nii.slots t.mem i)) :
    OpenFile e sbi t id nii := by
  refine ⟨hinfo.trans h.info, ?_, h.start, h.laid, hheld⟩
  rw [hrec]
  exact h.record

/-- A slot that was asked for holds a data block, or no block was free. -/
theorem OpenFile.held_give (h : OpenFile e sbi s id nii) (i j : Nat)
    (hj : ((view e sbi nii s.mem).plan.give i).slots j ≠ 0) :
    sbi.InData e (((view e sbi nii s.mem).plan.give i).slots j) := by
  by_cases h0 : (view e sbi nii s.mem).plan.slots i = 0
  · cases hl : (view e sbi nii s.mem).plan.free with
    | nil =>
      rw [give_of_none h0 hl, slots_view] at hj ⊢
      exact h.held j hj
    | cons x l =>
      rw [give_of_free h0 hl] at hj ⊢
      dsimp only at hj ⊢
      by_cases hji : j = i
      · rw [hji, Function.update_self]
        rw [free_view] at hl
        exact (mem_freeBlocks.mp (show x ∈ freeBlocks e sbi s.mem by rw [hl]; simp)).1
      · rw [Function.update_of_ne hji, slots_view] at hj ⊢
        exact h.held j hj
  · rw [give_of_held h0, slots_view] at hj ⊢
    exact h.held j hj

/-- The slot is asked for: it then holds a block, or none is free. -/
theorem OpenFile.attach (h : OpenFile e sbi s id nii) (hi : i < naiveDirectBlocks) (ans : Answers) :
    (((view e sbi nii s.mem).plan.give i).slots i = 0 ∧
      (fileWriteAttach e sbi nii i).exec ans s = .ok (none, s)) ∨
    ∃ isNew u, (fileWriteAttach e sbi nii i).exec ans s = .ok (some isNew, u) ∧
      OpenFile e sbi u id nii ∧ view e sbi nii u.mem = (view e sbi nii s.mem).give i ∧
      nii.slots u.mem i ≠ 0 := by
  have hD := h.laid.first
  by_cases h0 : nii.slots s.mem i = 0
  · cases hl : freeBlocks e sbi s.mem with
    | nil =>
      refine .inl ⟨?_, exec_fileWriteAttach_none hD hi h0 hl⟩
      rw [give_of_none (by rw [slots_view, h0]) (by rw [free_view, hl]), slots_view, h0]
    | cons x l =>
      have hslot : nii.slot s.mem i = 0 := by rw [← slots_of_lt hi, h0]
      have hview := view_attach h.laid h.only hi hslot hl
      have hx := (mem_freeBlocks.mp (show x ∈ freeBlocks e sbi s.mem by rw [hl]; simp)).1
      have hslots : nii.slots (putSlot nii 1 i x (s.mem.setBit (sbi.blockBit x))) =
          ((view e sbi nii s.mem).plan.give i).slots := slots_of_view hview
      refine .inr ⟨true, _, exec_fileWriteAttach_new hD hi h0 hl, h.of_mem rfl rfl ?_, hview, ?_⟩
      · intro j
        show nii.slots (putSlot nii 1 i x (s.mem.setBit (sbi.blockBit x))) j ≠ 0 → _
        intro hj
        show sbi.InData e (nii.slots (putSlot nii 1 i x (s.mem.setBit (sbi.blockBit x))) j)
        rw [hslots] at hj ⊢
        exact h.held_give i j hj
      · show nii.slots (putSlot nii 1 i x (s.mem.setBit (sbi.blockBit x))) i ≠ 0
        rw [slots_of_lt hi, slot_putSlot_self (by have := hx.lt; omega)]
        have := hx.pos hD
        omega
  · refine .inr ⟨false, s, exec_fileWriteAttach_held hi h0, h, ?_, h0⟩
    unfold View.give
    rw [give_of_held (by rw [slots_view]; exact h0)]

/-- A change of memory that keeps the slots. -/
theorem OpenFile.of_slots (h : OpenFile e sbi s id nii) (hinfo : t.sFsInfo = s.sFsInfo)
    (hrec : t.records = s.records) (hslots : nii.slots t.mem = nii.slots s.mem) :
    OpenFile e sbi t id nii := by
  refine h.of_mem hinfo hrec ?_
  rw [hslots]
  exact h.held

/-- The sizes are stored when the file grows. -/
theorem OpenFile.grow (h : OpenFile e sbi s id nii) (n : Nat) {k : Nat} (hk : k ≤ 4096)
    (ans : Answers) :
    ∃ t, (do
      if k > nii.size s.mem then
        updMem fun m => store32 e m (nii.diskInode + 44) (cpuToLe32 e (toU32 (k : Nat)))
        updInode id fun nd => { nd with iSize := toU32 (k : Nat) }
        pure (.next n (toU32 (k : Nat)))
      else pure (.next n (nii.size s.mem)) : K Round).exec ans s =
        .ok (.next n (nii.size t.mem), t) ∧
      OpenFile e sbi t id nii ∧ view e sbi nii t.mem = (view e sbi nii s.mem).grow k := by
  by_cases hgrow : k > nii.size s.mem
  · obtain ⟨nd, hnd, hnii⟩ := records_eq_some.mp h.record
    have hw : k < 2 ^ 32 := by omega
    have hview := view_size (m := s.mem) h.laid h.only hw
    have hslots := slots_of_view hview
    have hsize := size_of_view hview
    rw [← store32_cpuToLe32 (e := e) hw] at hview hslots hsize
    generalize hm : store32 e s.mem (nii.diskInode + 44) (cpuToLe32 e k) = m at hview hslots hsize
    have hnd' : (s.setMem m).inodes id = some nd := hnd
    rw [if_pos hgrow, toU32_natCast hw, Prog.exec_bind_of exec_updMem, hm,
      Prog.exec_bind_of (exec_updInode hnd')]
    have hrec : ((s.setMem m).setInode id { nd with iSize := (k : Nat) }).records = s.records := by
      funext y
      unfold FS.records
      by_cases hy : y = id
      · rw [hy, FS.inodes_setInode_self, hnd]
        rfl
      · rw [FS.inodes_setInode_ne hy]
        rfl
    refine ⟨(s.setMem m).setInode id { nd with iSize := (k : Nat) }, ?_,
      h.of_slots rfl hrec hslots, ?_⟩
    · show _ = Except.ok (Round.next n (nii.size m), _)
      rw [hsize]
      rfl
    · show view e sbi nii m = _
      rw [hview]
      unfold View.grow
      rw [size_view, Nat.max_eq_right hgrow.le]
  · rw [if_neg hgrow]
    refine ⟨s, rfl, h, ?_⟩
    unfold View.grow
    rw [size_view, Nat.max_eq_left (not_lt.mp hgrow)]
    rw [view]

/-- Bytes stored in a block of the file. -/
theorem OpenFile.put (h : OpenFile e sbi s id nii) (hx : nii.slots s.mem i ≠ 0) (pos : Nat)
    (xs : List Byte)
    (hxs : xs.length ≤ naiveBlockSize - pos % naiveBlockSize) :
    OpenFile e sbi (s.setMem (s.mem.blit (bData (nii.slots s.mem i) + pos % naiveBlockSize) xs)) id
        nii ∧
      view e sbi nii (s.mem.blit (bData (nii.slots s.mem i) + pos % naiveBlockSize) xs) =
        (view e sbi nii s.mem).put i (pos % naiveBlockSize) xs := by
  have hmod := Nat.mod_lt pos (show 0 < naiveBlockSize by decide)
  have hview : view e sbi nii (s.mem.blit (bData (nii.slots s.mem i) + pos % naiveBlockSize) xs) =
      _ := view_put h.laid h.only (h.held i hx) (by omega)
  refine ⟨h.of_slots rfl rfl ?_, hview⟩
  have hslots := slots_of_view hview
  rw [plan_put, slots_view] at hslots
  exact hslots

/-- The end of a round, with the block at hand. -/
theorem OpenFile.copy (h : OpenFile e sbi s id nii)
    (hx : nii.slots s.mem (pos / naiveBlockSize) ≠ 0) (hend : pos + data.length ≤ 4096)
    (ans : Answers) :
    ∃ q t, (fileWriteCopy e id nii (pos / naiveBlockSize) (nii.slots s.mem (pos / naiveBlockSize))
        pos data (nii.size s.mem)).exec ans s = .ok (q, t) ∧
      (ans (.copyFromUser (pos / naiveBlockSize)) ≠ (0 : Nat) ∧ q = .stop (-EFAULT) ∧
        nii.size t.mem = nii.size s.mem ∨
      ans (.copyFromUser (pos / naiveBlockSize)) = (0 : Nat) ∧
        q = .next (chunk naiveBlockSize pos data.length) (nii.size t.mem) ∧
        OpenFile e sbi t id nii ∧
        view e sbi nii t.mem = ((view e sbi nii s.mem).put (pos / naiveBlockSize)
          (pos % naiveBlockSize) (data.take (chunk naiveBlockSize pos data.length))).grow
            (pos + chunk naiveBlockSize pos data.length)) := by
  generalize hn : chunk naiveBlockSize pos data.length = n
  have hnblock : n ≤ naiveBlockSize - pos % naiveBlockSize := hn ▸ chunk_le_block
  have hndata : n ≤ data.length := hn ▸ chunk_le
  have hmin : min data.length (naiveBlockSize - pos % naiveBlockSize) = n := hn
  obtain ⟨hfile, hview⟩ := h.put hx pos
    (copiedFromUser data n (ans (.copyFromUser (pos / naiveBlockSize))))
    (by rw [length_copiedFromUser hndata]; exact hnblock)
  have hsize := size_of_view hview
  rw [size_put, size_view] at hsize
  rw [fileWriteCopy, Prog.exec_ask_bind, hmin, Prog.exec_bind_of exec_updMem]
  by_cases hcopy : ans (.copyFromUser (pos / naiveBlockSize)) = (0 : Nat)
  · rw [if_neg (not_not.mpr hcopy), Prog.exec_bind_of exec_markBufferDirty,
      Prog.exec_bind_of exec_brelse]
    rw [hcopy, copiedFromUser_zero] at hfile hview hsize ⊢
    generalize s.mem.blit (bData (nii.slots s.mem (pos / naiveBlockSize)) + pos % naiveBlockSize)
      (data.take n) = m at hfile hview hsize
    generalize hu : ((s.setMem m).markDirty (nii.slots s.mem (pos / naiveBlockSize))).addRef
      (nii.slots s.mem (pos / naiveBlockSize)) (-1) = u
    have hmem : u.mem = m := by rw [← hu]; rfl
    have hopen : OpenFile e sbi u id nii := by
      refine hfile.of_slots ?_ ?_ ?_
      · rw [← hu]
        rfl
      · rw [← hu]
        rfl
      · rw [hmem]
        rfl
    obtain ⟨t, hexec, hopen', hview'⟩ := hopen.grow n (k := pos + n) (by omega) ans
    rw [hmem, hsize] at hexec
    rw [hmem, hview] at hview'
    exact ⟨_, t, hexec, .inr ⟨rfl, rfl, hopen', hview'⟩⟩
  · rw [if_pos hcopy, Prog.exec_bind_of exec_brelse]
    exact ⟨_, _, rfl, .inl ⟨hcopy, rfl, hsize⟩⟩

/-- A round within the size limit ends in one of these ways. -/
theorem fileWriteRound_ends (h : OpenFile e sbi s id nii) (hdata : data ≠ [])
    (hend : pos + data.length ≤ 4096) (ans : Answers) (written : Int) :
    ∃ q t, (fileWriteRound e sbi id nii pos data (nii.size s.mem) written).exec ans s = .ok (q, t) ∧
      RoundEnd ans e sbi id nii s pos data written q t := by
  have hlen : 0 < data.length := List.length_pos_iff.mpr hdata
  have hi : pos / naiveBlockSize < naiveDirectBlocks := by
    unfold naiveBlockSize naiveDirectBlocks
    omega
  have hindex : toU32 (pos / naiveBlockSize : Nat) = pos / naiveBlockSize :=
    toU32_natCast (by unfold naiveDirectBlocks at hi; omega)
  rw [fileWriteRound, hindex, if_neg (by omega)]
  obtain ⟨h0, hnone⟩ | ⟨isNew, u, hsome, hopen, hview, hx⟩ := h.attach hi ans
  · rw [Prog.exec_bind_of hnone]
    exact ⟨_, s, rfl, .stop rfl fun havail => havail.1 h0⟩
  · have hslots := slots_of_view hview
    have hsize := size_of_view hview
    rw [plan_give] at hslots
    rw [size_give, size_view] at hsize
    rw [Prog.exec_bind_of hsome]
    dsimp only
    rw [Prog.exec_read_bind, load32_slot, ← slots_of_lt hi]
    cases hread : ans (.sbBread (.fileWrite (pos / naiveBlockSize))
        (nii.slots u.mem (pos / naiveBlockSize))) with
    | false =>
      have hno : ¬ Available ans (((view e sbi nii s.mem).plan.give (pos / naiveBlockSize)).slots
          (pos / naiveBlockSize)) (pos / naiveBlockSize) := by
        rintro ⟨-, hok⟩
        rw [← hslots, hread] at hok
        cases hok
      rw [Prog.exec_bind_of (exec_sbBread_fail hread), Bool.not_false, if_pos rfl]
      cases isNew with
      | false => exact ⟨_, u, rfl, .stop hsize hno⟩
      | true =>
        -- the new block is given back: bit and slot are cleared, the size stays
        have hin := hopen.held _ hx
        obtain ⟨hlo, hhi⟩ := blockBit_div hopen.laid.bitmap (hin.lt_last hopen.laid)
        have hbit : ∀ a, a < bData naiveBlockBitmapBlock ∨
            bData naiveBlockBitmapBlock + naiveBlockSize ≤ a →
            u.mem.clearBit (sbi.blockBit (nii.slots u.mem (pos / naiveBlockSize))) a = u.mem a :=
          fun a _ => clearBit_out (by omega)
        have hcleared := putSlot_size (d := -1) (y := 0) hopen.laid hopen.only hopen.only hi hbit
        rw [if_pos rfl, Prog.exec_bind_of (exec_fileWriteDetach hi hin)]
        exact ⟨_, _, rfl, .stop (hcleared.trans hsize) hno⟩
    | true =>
      have havail : Available ans (((view e sbi nii s.mem).plan.give (pos / naiveBlockSize)).slots
          (pos / naiveBlockSize)) (pos / naiveBlockSize) := by
        rw [← hslots]
        exact ⟨hx, hread⟩
      rw [Prog.exec_bind_of (exec_sbBread_ok hread), Bool.not_true, if_neg Bool.false_ne_true]
      have hopen' : OpenFile e sbi (u.addRef (nii.slots u.mem (pos / naiveBlockSize)) 1) id nii :=
        hopen.of_slots rfl rfl rfl
      obtain ⟨q, t, hexec, ⟨hcopy, rfl, hsize'⟩ | ⟨hcopy, rfl, hopen'', hview'⟩⟩ :=
        hopen'.copy hx hend ans
      · exact ⟨_, t, hsize ▸ hexec, .fault (hsize'.trans hsize) havail hcopy⟩
      · refine ⟨_, t, hsize ▸ hexec, .next havail hcopy hopen'' ?_⟩
        rw [← hview]
        exact hview'

end Round

end NaiveFS.V8
