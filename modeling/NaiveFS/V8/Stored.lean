import NaiveFS.Lib.Recall
import NaiveFS.V8.Gaps
import NaiveFS.V8.Session

/-!
# What a write stores (`naivefs-8`)

A write that returns a count has stored as many bytes, whatever stopped it; one that returns an
error may have stored some of its range. The bytes of the other files stay, and so do those outside
the range.
-/

namespace NaiveFS.V8

open Bytes BlockLoop FirstFit Recall

variable {e : Endian} {sbi : SbInfo} {nii nii' : NaiveInodeInfo} {m m' : Bytes}
  {id id' i n q : Nat} {s t : FS} {base : Nat → Prop} {ans : Answers} {r : Int}

/-! ## The bytes of a file -/

/-- Byte `q` of the file, if it is below the size and its block is there. -/
def NaiveInodeInfo.byte (nii : NaiveInodeInfo) (m : Bytes) (q : Nat) : Option Byte :=
  let x := nii.slots m (q / naiveBlockSize)
  if q < nii.size m ∧ x ≠ 0 then some (m (bData x + q % naiveBlockSize)) else none

def View.byte (v : View) (q : Nat) : Option Byte :=
  if q < v.size ∧ v.plan.slots (q / naiveBlockSize) ≠ 0 then some (v.content q) else none

theorem slots_congr (h : ∀ j, j < naiveDirectBlocks → nii.slot m' j = nii.slot m j) :
    nii.slots m' i = nii.slots m i := by
  unfold NaiveInodeInfo.slots
  split
  · exact h i ‹_›
  · rfl

theorem lt_of_slots (h : nii.slots m i ≠ 0) : i < naiveDirectBlocks := by
  by_contra hi
  exact h (if_neg hi)

theorem HeldInData.slots {recs : Records} (h : HeldInData e sbi recs m) (hid : recs id = some nii)
    (h0 : nii.slots m i ≠ 0) : sbi.InData e (nii.slots m i) := by
  have hi := lt_of_slots h0
  rw [slots_of_lt hi] at *
  exact h _ _ _ hid hi h0

theorem owner_of_slots {recs : Records} (hid : recs id = some nii) (h0 : nii.slots m i ≠ 0) :
    owner recs m (id, i) = some (nii.slots m i) := by
  have hi := lt_of_slots h0
  rw [slots_of_lt hi] at *
  exact owner_eq_some.mpr ⟨nii, hid, hi, h0, rfl⟩

theorem byte_bound {a : Byte} (h : nii.byte m q = some a) :
    q < nii.size m ∧ nii.slots m (q / naiveBlockSize) ≠ 0 :=
  (Option.ite_none_right_eq_some.mp h).1

/-- A byte stays where its block and the size do. -/
theorem byte_keep {a : Byte} (hsize : q < nii.size m → q < nii.size m')
    (hslot : nii.slots m' (q / naiveBlockSize) = nii.slots m (q / naiveBlockSize))
    (hdata : nii.slots m (q / naiveBlockSize) ≠ 0 →
      m' (bData (nii.slots m (q / naiveBlockSize)) + q % naiveBlockSize) =
        m (bData (nii.slots m (q / naiveBlockSize)) + q % naiveBlockSize))
    (h : nii.byte m q = some a) : nii.byte m' q = some a := by
  obtain ⟨hq, h0⟩ := byte_bound h
  unfold NaiveInodeInfo.byte at *
  rw [hslot]
  rw [if_pos ⟨hq, h0⟩, ← hdata h0] at h
  rw [if_pos ⟨hsize hq, h0⟩, h]

theorem byte_view (hheld : ∀ i, nii.slots m i ≠ 0 → sbi.InData e (nii.slots m i)) :
    (view e sbi nii m).byte = nii.byte m := by
  funext q
  unfold View.byte NaiveInodeInfo.byte View.content
  rw [slots_view, size_view]
  by_cases h0 : nii.slots m (q / naiveBlockSize) = 0
  · simp [h0]
  · have hdata : dataBytes e sbi m (nii.slots m (q / naiveBlockSize)) (q % naiveBlockSize) = _ :=
      if_pos ⟨hheld _ h0, Nat.mod_lt _ (by decide)⟩
    dsimp only
    rw [bytes_view, hdata]

/-- Stores that leave the contents alone keep the bytes below the new size. -/
theorem SameContents.byte {recs : Records} {a : Byte} (h : SameContents e sbi recs m m')
    (hdata : HeldInData e sbi recs m) (hid : recs id = some nii)
    (hsize : q < nii.size m → q < nii.size m') (ha : nii.byte m q = some a) :
    nii.byte m' q = some a := by
  have hmod := Nat.mod_lt q (show 0 < naiveBlockSize by decide)
  refine byte_keep hsize (slots_congr fun j hj => (h.record _ _ hid).slot hj) (fun h0 => ?_) ha
  exact h.data _ (hdata.slots hid h0) _ (by omega) (by omega)

/-! ## Other files -/

/-- Bytes of data blocks are in no record and not in the block bitmap. -/
theorem data_apart {recs : Records} {a x : Nat} (hlaid : Laid e sbi recs)
    (hid : recs id = some nii) (hx : sbi.InData e x) (ha : bData x ≤ a)
    (ha' : a < bData x + naiveBlockSize) :
    (a < nii.diskInode ∨ nii.diskInode + naiveBlockSize ≤ a) ∧
      (a < bData naiveBlockBitmapBlock ∨ bData naiveBlockBitmapBlock + naiveBlockSize ≤ a) := by
  have hrec : x ≠ nii.inodeBh := by
    rintro rfl
    exact (hlaid.inodeApart _ _ hid).2 hx
  have hbm : x ≠ naiveBlockBitmapBlock := by
    rintro rfl
    exact hlaid.bitmapApart hx
  rw [hlaid.start _ _ hid]
  exact ⟨bData_apart hrec ha ha', bData_apart hbm ha ha'⟩

/-- A slot and a mark are stored: bytes of data blocks stay. -/
theorem putSlot_data {recs : Records} {d : Int} {a x y : Nat} {b : Bytes}
    (hlaid : Laid e sbi recs) (hid : recs id = some nii) (hi : i < naiveDirectBlocks)
    (hbit : ∀ a, a < bData naiveBlockBitmapBlock ∨
      bData naiveBlockBitmapBlock + naiveBlockSize ≤ a → b a = m a)
    (hx : sbi.InData e x) (ha : bData x ≤ a) (ha' : a < bData x + naiveBlockSize) :
    putSlot nii d i y b a = m a := by
  obtain ⟨hrec, hbm⟩ := data_apart hlaid hid hx ha ha'
  unfold naiveBlockSize at hrec
  rw [putSlot_out hi (by omega)]
  exact hbit a hbm

/-- No change of a write reaches the bytes of another file. -/
theorem Effect.byte_other {recs : Records} {v v' : Int} (hlaid : Laid e sbi recs)
    (hacc : Accounts e sbi recs base m) (hid : recs id = some nii) (hid' : recs id' = some nii')
    (hne : id' ≠ id) (heff : Effect e sbi nii (m, v) (m', v')) {a : Byte}
    (ha : nii'.byte m q = some a) : nii'.byte m' q = some a := by
  have hsize : q < nii'.size m → q < nii'.size m' := by
    intro hq
    rwa [(heff.sizes hlaid hid hacc.heldInData).2.2 id' nii' hid' hne]
  have hheld : ∀ {j}, nii'.slots m j ≠ 0 → sbi.InData e (nii'.slots m j) :=
    hacc.heldInData.slots hid'
  have hother : ∀ {j k : Nat}, (id', j) ≠ (id, k) := fun h => hne (congrArg Prod.fst h)
  have hmod := Nat.mod_lt q (show 0 < naiveBlockSize by decide)
  cases heff with
  | attach i x hi free data clear =>
    obtain ⟨hlo, hhi⟩ := blockBit_div (x := x) hlaid.bitmap (data.lt_last hlaid)
    have hbit : ∀ a, a < bData naiveBlockBitmapBlock ∨
        bData naiveBlockBitmapBlock + naiveBlockSize ≤ a →
        m.setBit (sbi.blockBit x) a = m a := fun a _ => setBit_out (by omega)
    have hstored := SlotStored.putSlot (d := 1) hlaid hid hi
      (show x < 2 ^ 32 by have := data.lt; omega)
      fun _ _ h => bitmap_record hlaid h (by decide) hbit
    exact byte_keep hsize (slots_congr fun j hj => hstored.others _ _ _ hid' hj hother)
      (fun h0 => putSlot_data hlaid hid hi hbit (hheld h0) (by omega) (by omega)) ha
  | detach i x hi held pos =>
    have hx : sbi.InData e x := held ▸ hacc.inData hid hi (held ▸ pos)
    obtain ⟨hlo, hhi⟩ := blockBit_div (x := x) hlaid.bitmap (hx.lt_last hlaid)
    have hbit : ∀ a, a < bData naiveBlockBitmapBlock ∨
        bData naiveBlockBitmapBlock + naiveBlockSize ≤ a →
        m.clearBit (sbi.blockBit x) a = m a := fun a _ => clearBit_out (by omega)
    have hstored := SlotStored.putSlot (d := -1) hlaid hid hi (show 0 < 2 ^ 32 by omega)
      fun _ _ h => bitmap_record hlaid h (by decide) hbit
    exact byte_keep hsize (slots_congr fun j hj => hstored.others _ _ _ hid' hj hother)
      (fun h0 => putSlot_data hlaid hid hi hbit (hheld h0) (by omega) (by omega)) ha
  | data i x off bytes hi held pos inBlock =>
    have hx : sbi.InData e x := held ▸ hacc.inData hid hi (held ▸ pos)
    have hrec : SameRecord nii' m (m.blit (bData x + off) bytes) :=
      blit_record hlaid hid' (by decide) hx inBlock
    refine byte_keep hsize (slots_congr fun j hj => hrec.slot hj) (fun h0 => ?_) ha
    -- no block is held by two files
    have hne' : nii'.slots m (q / naiveBlockSize) ≠ x := fun heq =>
      hother (hacc.exact.inj _ (id, i) x (heq ▸ owner_of_slots hid' h0)
        (owner_eq_some.mpr ⟨nii, hid, hi, by omega, held⟩))
    have hapart := bData_apart hne'
      (Nat.le_add_right _ (q % naiveBlockSize)) (Nat.add_lt_add_left hmod _)
    exact blit_out (by omega)
  | size w hw =>
    refine byte_keep hsize (slots_congr fun j hj => ?_) (fun h0 => ?_) ha
    · refine SameRecord.slot (fun a ha ha' => ?_) hj
      have := record_apart hlaid hid hid' hne (by decide) ha ha'
      unfold naiveBlockSize at this
      exact putLE32_out (by omega)
    · obtain ⟨hrec, -⟩ := data_apart hlaid hid (hheld h0)
        (Nat.le_add_right _ (q % naiveBlockSize)) (by omega)
      unfold naiveBlockSize at *
      exact putLE32_out (by omega)

/-- So a write leaves the bytes of the other files alone. -/
theorem Orderly.write_other {data : List Byte} {pos : Nat} {a : Byte} (h : Orderly e sbi base s)
    (hstep : Acts e s (.write id data pos) ans r t) (hid' : s.records id' = some nii')
    (hne : id' ≠ id) (ha : nii'.byte s.mem q = some a) : nii'.byte t.mem q = some a := by
  obtain ⟨nii, hid, hw⟩ := write_cases h.laid.first h.info hstep
  obtain ⟨nd, size, mt, ct, -, -, heff⟩ := hw.self
  exact (heff.keeps
    (P := fun b => Accounts e sbi s.records base b.1 ∧ nii'.byte b.1 q = some a)
    (fun b c hbc hb => ⟨hb.1.effect h.laid hid hbc,
      hbc.byte_other h.laid hb.1 hid hid' hne hb.2⟩) ⟨h.accounts, ha⟩).2

/-! ## The file that is written -/

section Views

variable {v : View} {pos : Nat} {xs : List Byte}

theorem byte_eq_some {a : Byte} : v.byte q = some a ↔
    q < v.size ∧ v.plan.slots (q / naiveBlockSize) ≠ 0 ∧ v.content q = a := by
  unfold View.byte
  rw [Option.ite_none_right_eq_some, Option.some.injEq, and_assoc]

theorem keptOutside_grow : KeptOutside pos 0 v.byte (v.grow n).byte := by
  intro q a _ ha
  obtain ⟨hq, hbyte⟩ := byte_eq_some.mp ha
  exact byte_eq_some.mpr ⟨hq.trans_le (Nat.le_max_left _ _), hbyte⟩

/-- Asking for a slot changes no byte. -/
theorem keptOutside_give : KeptOutside pos 0 v.byte (v.give i).byte := by
  intro q a _ ha
  obtain ⟨hq, h0, hcontent⟩ := byte_eq_some.mp ha
  have hkeep : (v.give i).plan.slots (q / naiveBlockSize) = v.plan.slots (q / naiveBlockSize) :=
    slots_give_keep h0
  refine byte_eq_some.mpr ⟨hq, hkeep ▸ h0, ?_⟩
  unfold View.content at *
  rw [hkeep, bytes_give]
  exact hcontent

/-- A store within one block of the file. -/
theorem keptOutside_put (hs : v.plan.Sound) : KeptOutside pos xs.length v.byte
    (v.put (pos / naiveBlockSize) (pos % naiveBlockSize) xs).byte := by
  intro q a hq ha
  obtain ⟨hlt, h0, hcontent⟩ := byte_eq_some.mp ha
  refine byte_eq_some.mpr ⟨hlt, h0, ?_⟩
  rw [← hcontent]
  unfold View.content View.put
  dsimp only
  by_cases hb : q / naiveBlockSize = pos / naiveBlockSize
  · -- the same block, at another offset
    rw [hb, Function.update_self]
    apply blit_out
    unfold naiveBlockSize at *
    omega
  · rw [Function.update_of_ne fun h => hb (hs.inj _ _ h0 h)]

/-- The bytes that were stored, when the file reaches as far. -/
theorem byte_put {j : Nat} (hx : v.plan.slots (pos / naiveBlockSize) ≠ 0)
    (hxs : xs.length ≤ naiveBlockSize - pos % naiveBlockSize) (hj : j < xs.length) :
    ((v.put (pos / naiveBlockSize) (pos % naiveBlockSize) xs).grow (pos + xs.length)).byte
      (pos + j) = xs[j]? := by
  have hdiv : (pos + j) / naiveBlockSize = pos / naiveBlockSize := by
    unfold naiveBlockSize at *
    omega
  have hmod : (pos + j) % naiveBlockSize = pos % naiveBlockSize + j := by
    unfold naiveBlockSize at *
    omega
  rw [List.getElem?_eq_getElem hj]
  refine byte_eq_some.mpr ⟨?_, by rw [hdiv]; exact hx, ?_⟩
  · rw [size_grow]
    omega
  · unfold View.content View.put View.grow
    dsimp only
    rw [hdiv, hmod, Function.update_self, blit_in (by omega) (by omega), Nat.add_sub_cancel_left,
      List.getD_eq_getElem?_getD, List.getElem?_eq_getElem hj, Option.getD_some]

end Views

/-- A user copy that fails has stored what it did copy, and zeros. -/
theorem exec_fileWriteCopy_fault {p pos fileSize : Nat} {data : List Byte}
    (hcopy : ans (.copyFromUser i) ≠ (0 : Nat)) :
    (fileWriteCopy e id nii i p pos data fileSize).exec ans s = .ok (.stop (-EFAULT),
      (s.setMem (s.mem.blit (bData p + pos % naiveBlockSize)
        (copiedFromUser data (min data.length (naiveBlockSize - pos % naiveBlockSize))
          (ans (.copyFromUser i))))).addRef p (-1)) := by
  rw [fileWriteCopy, Prog.exec_ask_bind, Prog.exec_bind_of exec_updMem, if_pos hcopy,
    Prog.exec_bind_of exec_brelse]
  rfl

/-- A store into a block the file holds. -/
theorem OpenFile.keptOutside_blit {pos : Nat} (h : OpenFile e sbi s id nii)
    (hs : (view e sbi nii s.mem).plan.Sound) (hx : nii.slots s.mem (pos / naiveBlockSize) ≠ 0)
    (xs : List Byte) (hxs : xs.length ≤ naiveBlockSize - pos % naiveBlockSize) :
    KeptOutside pos xs.length (nii.byte s.mem) (nii.byte (s.mem.blit
      (bData (nii.slots s.mem (pos / naiveBlockSize)) + pos % naiveBlockSize) xs)) := by
  obtain ⟨hput, hview⟩ := h.put hx pos xs hxs
  have hbyte : (view e sbi nii (s.mem.blit (bData (nii.slots s.mem (pos / naiveBlockSize)) +
    pos % naiveBlockSize) xs)).byte = _ := byte_view hput.held
  rw [hview] at hbyte
  rw [← byte_view h.held]
  refine Eq.subst (motive := fun c => KeptOutside pos xs.length _ c) hbyte ?_
  exact keptOutside_put hs

/-! ## The loop of a write -/

/-- A block that is given back changes no byte of the other blocks of the file. -/
theorem byte_detach {a : Byte} (h : OpenFile e sbi s id nii) (hi : i < naiveDirectBlocks)
    (hx : nii.slots s.mem i ≠ 0) (hq : q / naiveBlockSize ≠ i) (ha : nii.byte s.mem q = some a) :
    nii.byte (putSlot nii (-1) i 0 (s.mem.clearBit (sbi.blockBit (nii.slots s.mem i)))) q =
      some a := by
  obtain ⟨hlo, hhi⟩ := blockBit_div h.laid.bitmap ((h.held i hx).lt_last h.laid)
  have hbit : ∀ a, a < bData naiveBlockBitmapBlock ∨
      bData naiveBlockBitmapBlock + naiveBlockSize ≤ a →
      s.mem.clearBit (sbi.blockBit (nii.slots s.mem i)) a = s.mem a :=
    fun a _ => clearBit_out (by omega)
  have hstored := SlotStored.putSlot (d := -1) h.laid h.only hi (show 0 < 2 ^ 32 by omega)
    fun _ _ h' => bitmap_record h.laid h' (by decide) hbit
  have hdata := fun hj => putSlot_data (d := -1) (y := 0) h.laid h.only hi hbit
    (h.held (q / naiveBlockSize) hj) (Nat.le_add_right _ (q % naiveBlockSize))
    (Nat.add_lt_add_left (Nat.mod_lt _ (by decide)) _)
  have hsize := putSlot_size (d := -1) (y := 0) h.laid h.only h.only hi hbit
  generalize putSlot nii (-1) i 0 (s.mem.clearBit (sbi.blockBit (nii.slots s.mem i))) = m'
    at hstored hdata hsize ⊢
  refine byte_keep (fun hlt => by rwa [hsize]) ?_ hdata ha
  unfold NaiveInodeInfo.slots
  split
  · rename_i hj
    exact hstored.others id nii _ h.only hj fun hsame => hq (congrArg Prod.snd hsame)
  · rfl

section Round

variable {pos : Nat} {data : List Byte} {written w : Int}

/-- A round that ends the loop has stored nothing, or a part of its block when the user copy
failed. -/
theorem fileWriteRound_stop (h : OpenFile e sbi s id nii) (hs : (view e sbi nii s.mem).plan.Sound)
    (hend : pos + data.length ≤ 4096) (hdata : data ≠ [])
    (hexec : (fileWriteRound e sbi id nii pos data (nii.size s.mem) written).exec ans s =
      .ok (.stop w, t)) : Wrote pos data written w (nii.byte s.mem) (nii.byte t.mem) := by
  have hlen : 0 < data.length := List.length_pos_iff.mpr hdata
  have hi : pos / naiveBlockSize < naiveDirectBlocks := by
    unfold naiveBlockSize naiveDirectBlocks
    omega
  have hindex : toU32 (pos / naiveBlockSize : Nat) = pos / naiveBlockSize :=
    toU32_natCast (by unfold naiveDirectBlocks at hi; omega)
  rw [fileWriteRound, hindex, if_neg (by omega)] at hexec
  obtain ⟨-, hnone⟩ | ⟨isNew, u, hsome, hopen, hview, hx⟩ := h.attach hi ans
  · rw [Prog.exec_bind_of hnone] at hexec
    cases hexec
    exact .nothing (.refl _ _ _)
  have hgive : KeptOutside pos 0 (nii.byte s.mem) (nii.byte u.mem) := by
    rw [← byte_view h.held, ← byte_view hopen.held, hview]
    exact keptOutside_give
  rw [Prog.exec_bind_of hsome] at hexec
  dsimp only at hexec
  rw [Prog.exec_read_bind, load32_slot, ← slots_of_lt hi] at hexec
  cases hread : ans (.sbBread (.fileWrite (pos / naiveBlockSize))
      (nii.slots u.mem (pos / naiveBlockSize))) with
  | false =>
    rw [Prog.exec_bind_of (exec_sbBread_fail hread), Bool.not_false, if_pos rfl] at hexec
    cases isNew with
    | false =>
      cases hexec
      exact .nothing hgive
    | true =>
      rw [if_pos rfl, Prog.exec_bind_of (exec_fileWriteDetach hi (hopen.held _ hx))] at hexec
      cases hexec
      refine .nothing fun q a hq ha => ?_
      have hne : q / naiveBlockSize ≠ pos / naiveBlockSize := by
        -- the slot was empty before
        intro heq
        have h0 : nii.slots s.mem (pos / naiveBlockSize) ≠ 0 := heq ▸ (byte_bound ha).2
        have hold := (exec_fileWriteAttach_held hi h0).symm.trans hsome
        cases hold
      exact byte_detach hopen hi hx hne (hgive q a hq ha)
  | true =>
    rw [Prog.exec_bind_of (exec_sbBread_ok hread), Bool.not_true,
      if_neg Bool.false_ne_true] at hexec
    have hopen' : OpenFile e sbi (u.addRef (nii.slots u.mem (pos / naiveBlockSize)) 1) id nii :=
      hopen.of_slots rfl rfl rfl
    by_cases hcopy : ans (.copyFromUser (pos / naiveBlockSize)) = (0 : Nat)
    · have hsize := size_of_view hview
      rw [size_give, size_view] at hsize
      obtain ⟨z, v, hcopied, ⟨hne, -⟩ | ⟨-, rfl, -⟩⟩ := hopen'.copy hx hend ans
      · exact absurd hcopy hne
      · have hboth := (hsize ▸ hcopied).symm.trans hexec
        cases hboth
    · rw [exec_fileWriteCopy_fault hcopy] at hexec
      cases hexec
      have hle : chunk naiveBlockSize pos data.length ≤ naiveBlockSize - pos % naiveBlockSize :=
        chunk_le_block
      have hlen' : chunk naiveBlockSize pos data.length ≤ data.length := chunk_le
      have hs' : (view e sbi nii u.mem).plan.Sound := by
        rw [hview, plan_give]
        exact hs.give _
      have hput := hopen.keptOutside_blit hs' hx
        (copiedFromUser data (chunk naiveBlockSize pos data.length)
          (ans (.copyFromUser (pos / naiveBlockSize))))
        (by rw [length_copiedFromUser hlen']; exact hle)
      rw [length_copiedFromUser hlen'] at hput
      exact .failed (by decide) (hgive.append hput) (by omega)

/-- A round that goes on has stored its part of the data. -/
theorem fileWriteRound_next (h : OpenFile e sbi s id nii)
    (hs : (view e sbi nii s.mem).plan.Sound)
    (hend : pos + data.length ≤ 4096) (hdata : data ≠ []) {n size : Nat}
    (hexec : (fileWriteRound e sbi id nii pos data (nii.size s.mem) written).exec ans s =
      .ok (.next n size, t)) :
    n = chunk naiveBlockSize pos data.length ∧ size = nii.size t.mem ∧ OpenFile e sbi t id nii ∧
      (view e sbi nii t.mem).plan.Sound ∧ KeptOutside pos n (nii.byte s.mem) (nii.byte t.mem) ∧
        ∀ j, j < n → nii.byte t.mem (pos + j) = data[j]? := by
  obtain ⟨z, u, hround, hends⟩ := fileWriteRound_ends h hdata hend ans written
  cases hround.symm.trans hexec
  cases hends with
  | next havail hcopy hopen hview =>
    have hle : chunk naiveBlockSize pos data.length ≤ data.length := chunk_le
    have htake : (data.take (chunk naiveBlockSize pos data.length)).length =
        chunk naiveBlockSize pos data.length := List.length_take_of_le hle
    have hxs : (data.take (chunk naiveBlockSize pos data.length)).length ≤
        naiveBlockSize - pos % naiveBlockSize := htake.symm ▸ chunk_le_block
    have hgive : ((view e sbi nii s.mem).give (pos / naiveBlockSize)).plan.Sound := by
      rw [plan_give]
      exact hs.give _
    have hplan : (view e sbi nii t.mem).plan.Sound := by
      rw [hview, plan_grow, plan_put]
      exact hgive
    refine ⟨rfl, rfl, hopen, hplan, ?_, ?_⟩
    · have hput : KeptOutside pos (data.take (chunk naiveBlockSize pos data.length)).length
          ((view e sbi nii s.mem).give (pos / naiveBlockSize)).byte _ := keptOutside_put hgive
      rw [htake] at hput
      rw [← byte_view h.held, ← byte_view hopen.held, hview]
      exact ((keptOutside_give.mono (Nat.zero_le _)).trans hput).trans
        (keptOutside_grow.mono (Nat.zero_le _))
    · intro j hj
      have hbyte := byte_put (v := (view e sbi nii s.mem).give (pos / naiveBlockSize)) havail.1 hxs
        (htake.symm ▸ hj)
      rw [htake] at hbyte
      rw [← byte_view hopen.held, hview, hbyte, List.getElem?_take_of_lt hj]

/-- What the loop returns and what it stored. -/
theorem fileWriteLoop_wrote {fuel : Nat} (h : OpenFile e sbi s id nii)
    (hs : (view e sbi nii s.mem).plan.Sound) (hfuel : data.length ≤ fuel)
    (hend : pos + data.length ≤ 4096) {pos' : Nat}
    (hexec : (fileWriteLoop e sbi id nii fuel pos data (nii.size s.mem) written).exec ans s =
      .ok ((r, pos'), t)) : Wrote pos data written r (nii.byte s.mem) (nii.byte t.mem) := by
  induction fuel generalizing s pos data written with
  | zero =>
    cases hexec
    exact .nothing (.refl _ _ _)
  | succ fuel ih =>
    rw [fileWriteLoop] at hexec
    by_cases hdata : data = []
    · rw [if_pos hdata] at hexec
      cases hexec
      exact .nothing (.refl _ _ _)
    rw [if_neg hdata] at hexec
    obtain ⟨z, u, hround, hrest⟩ := Prog.exec_bind_ok.mp hexec
    cases z with
    | stop w =>
      cases hrest
      exact fileWriteRound_stop h hs hend hdata hround
    | next n size =>
      obtain ⟨hn, rfl, hopen, hs', hout, hin⟩ := fileWriteRound_next h hs hend hdata hround
      have hpos : 0 < n := hn ▸ chunk_pos pos (by decide) (List.length_pos_iff.mpr hdata)
      have hle : n ≤ data.length := hn ▸ chunk_le
      refine .next hle hout hin (ih hopen hs' ?_ ?_ hrest)
      · rw [List.length_drop]
        omega
      · rw [List.length_drop]
        omega

end Round

/-! ## Calls of a write -/

section Orderly

variable (h : Orderly e sbi base s)

include h

/-- What is free is not held, and nothing is held twice. -/
theorem Orderly.sound (hid : s.records id = some nii) : (view e sbi nii s.mem).plan.Sound := by
  have hpos : ∀ {x}, x ∈ freeBlocks e sbi s.mem → 0 < x := fun hx =>
    (mem_freeBlocks.mp hx).1.pos h.laid.first
  refine ⟨?_, ?_, fun i hi => ?_, fun i j hi heq => ?_⟩
  · rw [free_view]
    exact fun h0 => Nat.lt_irrefl 0 (hpos h0)
  · rw [free_view]
    exact nodup_freeBlocks ..
  · rw [free_view, slots_view] at hi
    have hmarked := h.accounts.exact.marked _ _ (owner_of_slots hid (hpos hi).ne')
    have hclear := (mem_freeBlocks.mp hi).2
    rw [hmarked.2] at hclear
    cases hclear
  · rw [slots_view] at hi heq
    have hsame := h.accounts.exact.inj _ _ _ (owner_of_slots hid hi)
      (heq ▸ owner_of_slots hid (heq ▸ hi))
    exact congrArg Prod.snd hsame

/-- A write returns how much it stored, or an error. -/
theorem Orderly.wrote {data : List Byte} {pos : Nat} (hfits : pos + data.length < 2 ^ 64)
    (hid : s.records id = some nii) (hstep : Acts e s (.write id data pos) ans r t) :
    Wrote pos data 0 r (nii.byte s.mem) (nii.byte t.mem) := by
  have hopen := h.openFile hid
  obtain ⟨⟨w, pos'⟩, v, hwrite, hret⟩ := Prog.exec_bind_ok.mp hstep
  cases hret
  by_cases hbig : naiveMaxFileSize < pos + data.length
  · cases (exec_naiveFileWrite_big hopen hfits hbig).symm.trans hwrite
    exact .failed (by decide) (.refl pos 0 _) (Nat.zero_le _)
  · have hend : pos + data.length ≤ naiveMaxFileSize := by omega
    obtain ⟨w', pos'', u, hloop, -⟩ := fileWriteLoop_ends hopen (Nat.le_refl data.length) hend
      (fun i _ => rfl) ans 0
    obtain ⟨v', hexec, hmem, -⟩ := exec_naiveFileWrite_loop hopen hend hloop
    cases hexec.symm.trans hwrite
    rw [hmem]
    exact fileWriteLoop_wrote hopen (h.sound hid) (Nat.le_refl _) hend hloop

end Orderly

end NaiveFS.V8
