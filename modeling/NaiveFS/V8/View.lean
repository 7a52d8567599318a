import NaiveFS.Lib.FirstFit
import NaiveFS.V8.Sizes

/-!
# A file as it lies in memory (`naivefs-8`)

What `naive_file_read` and `naive_file_write` see of memory: the block pointers and the
size in the inode's record, the free data blocks in the order in which
`naive_find_free_block` takes them, and the bytes of the data blocks.
-/

namespace NaiveFS.V8

open Bytes FirstFit

variable {e : Endian} {sbi : SbInfo} {nii : NaiveInodeInfo} {m m' : Bytes} {id i x : Nat}
  {ans : Answers} {s : FS}

/-! ## The view -/

/-- What a file is made of. -/
structure View where
  plan : Plan
  size : Nat
  bytes : Nat → Bytes

/-- Data block `x` is free. -/
def isFree (e : Endian) (sbi : SbInfo) (m : Bytes) (x : Nat) : Bool :=
  decide (sbi.InData e x) && !m.bit (sbi.blockBit x)

/-- The free data blocks. -/
def freeBlocks (e : Endian) (sbi : SbInfo) (m : Bytes) : List Nat :=
  (List.range (sbi.dataEnd e).toNat).filter (isFree e sbi m)

/-- The slots of a record that name a block, in the first eight places. -/
def NaiveInodeInfo.slots (nii : NaiveInodeInfo) (m : Bytes) (i : Nat) : Nat :=
  if i < naiveDirectBlocks then nii.slot m i else 0

/-- The bytes of the data blocks. -/
def dataBytes (e : Endian) (sbi : SbInfo) (m : Bytes) (x : Nat) : Bytes := fun k =>
  if sbi.InData e x ∧ k < naiveBlockSize then m (bData x + k) else 0

def view (e : Endian) (sbi : SbInfo) (nii : NaiveInodeInfo) (m : Bytes) : View where
  plan := ⟨nii.slots m, freeBlocks e sbi m⟩
  size := nii.size m
  bytes := dataBytes e sbi m

@[simp] theorem free_view : (view e sbi nii m).plan.free = freeBlocks e sbi m := by
  rw [view]

@[simp] theorem slots_view : (view e sbi nii m).plan.slots = nii.slots m := by
  rw [view]

@[simp] theorem size_view : (view e sbi nii m).size = nii.size m := by
  rw [view]

theorem bytes_view : (view e sbi nii m).bytes = dataBytes e sbi m := by
  rw [view]

theorem slots_of_view {v : View} (h : view e sbi nii m = v) : nii.slots m = v.plan.slots := by
  rw [← h, slots_view]

theorem size_of_view {v : View} (h : view e sbi nii m = v) : nii.size m = v.size := by
  rw [← h, view]

theorem slots_of_lt (hi : i < naiveDirectBlocks) : nii.slots m i = nii.slot m i := if_pos hi

/-- Inode `id` is a file with the record `nii`, on a mounted device; the record, the bitmap
and the data area lie as they should, and the blocks the file holds are data blocks. -/
structure OpenFile (e : Endian) (sbi : SbInfo) (s : FS) (id : Nat) (nii : NaiveInodeInfo) :
    Prop where
  info : s.sFsInfo = .live sbi
  record : s.records id = some nii
  start : nii.diskInode = bData nii.inodeBh
  laid : Laid e sbi (onlyRecord id nii.inodeBh)
  held : ∀ i, nii.slots s.mem i ≠ 0 → sbi.InData e (nii.slots s.mem i)

theorem OpenFile.only (h : OpenFile e sbi s id nii) : onlyRecord id nii.inodeBh id = some nii := by
  rw [onlyRecord_self, ← h.start]

/-! ## Changes of the view -/

/-- Slot `i` is asked for. -/
def View.give (v : View) (i : Nat) : View := { v with plan := v.plan.give i }

/-- Bytes are stored in the block slot `i` holds. -/
def View.put (v : View) (i off : Nat) (xs : List Byte) : View :=
  let x := v.plan.slots i
  { v with bytes := Function.update v.bytes x ((v.bytes x).blit off xs) }

/-- The file reaches to `n` at least. -/
def View.grow (v : View) (n : Nat) : View := { v with size := max v.size n }

section Fields

variable {v : View} {off n : Nat} {xs : List Byte}

@[simp] theorem plan_give : (v.give i).plan = v.plan.give i := rfl
@[simp] theorem size_give : (v.give i).size = v.size := rfl
@[simp] theorem bytes_give : (v.give i).bytes = v.bytes := rfl
@[simp] theorem plan_put : (v.put i off xs).plan = v.plan := rfl
@[simp] theorem size_put : (v.put i off xs).size = v.size := rfl
@[simp] theorem plan_grow : (v.grow n).plan = v.plan := rfl
@[simp] theorem size_grow : (v.grow n).size = max v.size n := rfl
@[simp] theorem bytes_grow : (v.grow n).bytes = v.bytes := rfl

end Fields

theorem SbInfo.InData.lt_last {recs : Records} (h : sbi.InData e x) (hlaid : Laid e sbi recs) :
    x < 4096 := by
  have hlast := hlaid.last
  have hend := h.2
  omega

theorem freeBlocks_congr {recs : Records} (hlaid : Laid e sbi recs) (h : SameBitmap m m') :
    freeBlocks e sbi m' = freeBlocks e sbi m := by
  unfold freeBlocks
  apply List.filter_congr
  intro x _
  unfold isFree
  by_cases hx : sbi.InData e x
  · rw [h.bit hlaid.bitmap (hx.lt_last hlaid)]
  · simp [hx]

theorem mem_freeBlocks : x ∈ freeBlocks e sbi m ↔
    sbi.InData e x ∧ m.bit (sbi.blockBit x) = false := by
  unfold freeBlocks isFree
  rw [List.mem_filter, List.mem_range]
  constructor
  · rintro ⟨-, h⟩
    simpa using h
  · rintro ⟨hx, hbit⟩
    refine ⟨?_, by simp [hx, hbit]⟩
    have := hx.2
    omega

theorem nodup_freeBlocks (e : Endian) (sbi : SbInfo) (m : Bytes) : (freeBlocks e sbi m).Nodup :=
  List.nodup_range.filter _

/-- Marking the first free block leaves the others. -/
theorem freeBlocks_setBit {l : List Nat} (hl : freeBlocks e sbi m = x :: l) :
    freeBlocks e sbi (m.setBit (sbi.blockBit x)) = l := by
  have hnew : x ∉ l := by
    have hnodup := nodup_freeBlocks e sbi m
    rw [hl] at hnodup
    exact (List.nodup_cons.mp hnodup).1
  have hfilter : freeBlocks e sbi (m.setBit (sbi.blockBit x)) =
      (freeBlocks e sbi m).filter fun k => !decide (k = x) := by
    unfold freeBlocks
    rw [List.filter_filter]
    apply List.filter_congr
    intro k _
    unfold isFree
    rw [bit_setBit]
    have hsame : (sbi.blockBit k = sbi.blockBit x) ↔ k = x := by
      unfold SbInfo.blockBit
      omega
    simp only [hsame, Bool.not_or]
    cases decide (k = x) <;> simp
  rw [hfilter, hl, List.filter_cons_of_neg (by simp), List.filter_eq_self]
  intro k hk
  have hne : k ≠ x := fun h => hnew (h ▸ hk)
  simp [hne]

/-- A record's bytes and the bitmap are no data. -/
theorem dataBytes_congr (h : ∀ x, sbi.InData e x → ∀ a, bData x ≤ a → a < bData x + naiveBlockSize →
    m' a = m a) : dataBytes e sbi m' = dataBytes e sbi m := by
  funext x k
  unfold dataBytes
  split
  · rename_i hin
    exact h x hin.1 _ (by omega) (by omega)
  · rfl

section Changes

variable {recs : Records} (hlaid : Laid e sbi recs) (hid : recs id = some nii)

include hlaid hid

/-- A free block is attached to an empty slot. -/
theorem view_attach (hi : i < naiveDirectBlocks) (hfree : nii.slot m i = 0) {l : List Nat}
    (hl : freeBlocks e sbi m = x :: l) :
    view e sbi nii (putSlot nii 1 i x (m.setBit (sbi.blockBit x))) = (view e sbi nii m).give i := by
  obtain ⟨hx, hclear⟩ := mem_freeBlocks.mp (show x ∈ freeBlocks e sbi m by rw [hl]; simp)
  have hx4096 := hx.lt_last hlaid
  obtain ⟨hlo, hhi⟩ := blockBit_div (x := x) hlaid.bitmap hx4096
  have hbit : ∀ a, a < bData naiveBlockBitmapBlock ∨
      bData naiveBlockBitmapBlock + naiveBlockSize ≤ a → m.setBit (sbi.blockBit x) a = m a :=
    fun a _ => setBit_out (by omega)
  have hstored := SlotStored.putSlot (d := 1) hlaid hid hi (show x < 2 ^ 32 by omega)
    fun _ _ h => bitmap_record hlaid h (by decide) hbit
  have hslots : nii.slots (putSlot nii 1 i x (m.setBit (sbi.blockBit x))) =
      Function.update (nii.slots m) i x := by
    funext j
    unfold NaiveInodeInfo.slots
    by_cases hji : j = i
    · rw [hji, if_pos hi, Function.update_self, hstored.self nii hid]
    · rw [Function.update_of_ne hji]
      by_cases hj : j < naiveDirectBlocks
      · rw [if_pos hj, if_pos hj, hstored.others _ _ _ hid hj (by simp [hji])]
      · rw [if_neg hj, if_neg hj]
  have hrest : freeBlocks e sbi (putSlot nii 1 i x (m.setBit (sbi.blockBit x))) = l := by
    rw [freeBlocks_congr hlaid (putSlot_bitmap hlaid hid hi), freeBlocks_setBit hl]
  have hdata : dataBytes e sbi (putSlot nii 1 i x (m.setBit (sbi.blockBit x))) =
      dataBytes e sbi m := by
    apply dataBytes_congr
    intro y hy a ha ha'
    have hrecord := bData_apart (i := a) (b := nii.inodeBh)
      (fun h => (hlaid.inodeApart _ _ hid).2 (h ▸ hy)) ha ha'
    rw [← hlaid.start _ _ hid] at hrecord
    unfold naiveBlockSize at hrecord
    rw [putSlot_out hi (by omega)]
    apply hbit
    exact bData_apart (fun h => hlaid.bitmapApart (h ▸ hy)) ha ha'
  have hsize := putSlot_size (d := 1) (y := x) hlaid hid hid hi hbit
  have hgive : (view e sbi nii m).plan.give i = ⟨Function.update (nii.slots m) i x, l⟩ := by
    apply give_of_free
    · rw [slots_view, slots_of_lt hi, hfree]
    · rw [free_view, hl]
  unfold View.give
  rw [hgive]
  unfold view
  rw [hslots, hrest, hdata, hsize]

/-- Bytes are stored in a block the file holds. -/
theorem view_put {off : Nat} {xs : List Byte} (hx : sbi.InData e (nii.slots m i))
    (hin : off + xs.length ≤ naiveBlockSize) :
    view e sbi nii (m.blit (bData (nii.slots m i) + off) xs) = (view e sbi nii m).put i off xs := by
  generalize hslot : nii.slots m i = x at hx
  have hout : ∀ b, x ≠ b → ∀ a, bData b ≤ a → a < bData b + naiveBlockSize →
      m.blit (bData x + off) xs a = m a := by
    intro b hb a ha ha'
    have := bData_apart hb.symm ha ha'
    exact blit_out (by omega)
  have hrecord : ∀ lo up, up ≤ naiveBlockSize →
      SameBytes nii lo up m (m.blit (bData x + off) xs) :=
    fun lo up hup => blit_record hlaid hid hup hx hin
  have hslots : nii.slots (m.blit (bData x + off) xs) = nii.slots m := by
    funext j
    unfold NaiveInodeInfo.slots
    split
    · rename_i hj
      exact SameRecord.slot (hrecord 8 44 (by decide)) hj
    · rfl
  have hfree : freeBlocks e sbi (m.blit (bData x + off) xs) = freeBlocks e sbi m := by
    apply freeBlocks_congr hlaid
    apply hout
    rintro rfl
    exact hlaid.bitmapApart hx
  have hbytes : dataBytes e sbi (m.blit (bData x + off) xs) =
      Function.update (dataBytes e sbi m) x ((dataBytes e sbi m x).blit off xs) := by
    funext y k
    by_cases hy : y = x
    · rw [hy, Function.update_self]
      by_cases hk : off ≤ k ∧ k < off + xs.length
      · rw [blit_in hk.1 hk.2, dataBytes, if_pos ⟨hx, by omega⟩, blit_in (by omega) (by omega),
          Nat.add_sub_add_left]
      · rw [blit_out (by omega)]
        unfold dataBytes
        rw [blit_out (by omega)]
    · rw [Function.update_of_ne hy]
      unfold dataBytes
      split
      · exact hout y (Ne.symm hy) _ (by omega) (by omega)
      · rfl
  have hsize := SameBytes.size (hrecord 44 48 (by decide))
  unfold View.put
  rw [slots_view, hslot]
  unfold view
  rw [hslots, hfree, hbytes, hsize]

/-- The size is stored. -/
theorem view_size {w : Nat} (hw : w < 2 ^ 32) :
    view e sbi nii (m.putLE32 (nii.diskInode + 44) w) =
      { view e sbi nii m with size := w } := by
  have hslots : nii.slots (m.putLE32 (nii.diskInode + 44) w) = nii.slots m := by
    funext j
    unfold NaiveInodeInfo.slots
    split
    · rename_i hj
      exact SameRecord.slot (fun a _ _ => putLE32_out (by omega)) hj
    · rfl
  have hapart : ∀ b, nii.inodeBh ≠ b → ∀ a, bData b ≤ a → a < bData b + naiveBlockSize →
      m.putLE32 (nii.diskInode + 44) w a = m a := by
    intro b hb a ha ha'
    have hout := bData_apart hb.symm ha ha'
    rw [← hlaid.start _ _ hid] at hout
    unfold naiveBlockSize at hout
    exact putLE32_out (by omega)
  have hfree : freeBlocks e sbi (m.putLE32 (nii.diskInode + 44) w) = freeBlocks e sbi m :=
    freeBlocks_congr hlaid (hapart _ (hlaid.inodeApart _ _ hid).1)
  have hdata : dataBytes e sbi (m.putLE32 (nii.diskInode + 44) w) = dataBytes e sbi m := by
    apply dataBytes_congr
    intro y hy
    apply hapart
    rintro rfl
    exact (hlaid.inodeApart _ _ hid).2 hy
  have hsize : nii.size (m.putLE32 (nii.diskInode + 44) w) = w := by
    rw [NaiveInodeInfo.size, getLE32_putLE32, Nat.mod_eq_of_lt hw]
  unfold view
  rw [hslots, hfree, hdata, hsize]

end Changes

/-! ## The allocator -/

section Alloc

/-- The scan of the data area finds nothing where no data block is free. -/
theorem freeBlocks_of_none {D n : Nat} (hD : sbi.dataStart e = D)
    (hn : sbi.dataEnd e ≤ D + n) (h : findClear sbi.blockBitmap m n (D : Int) = .ok none) :
    freeBlocks e sbi m = [] := by
  rw [List.eq_nil_iff_forall_not_mem]
  intro x hx
  obtain ⟨⟨hlo, hhi⟩, hclear⟩ := mem_freeBlocks.mp hx
  have hset := findClear_none h x (by omega) (by omega)
  unfold SbInfo.blockBit at hclear
  rw [hclear] at hset
  cases hset

/-- It finds the first free data block. -/
theorem freeBlocks_of_some {D n : Nat} {k : Int} (hD : sbi.dataStart e = D)
    (hn : sbi.dataEnd e = D + n) (h : findClear sbi.blockBitmap m n (D : Int) = .ok (some k)) :
    ∃ x l, k = (x : Nat) ∧ freeBlocks e sbi m = x :: l := by
  obtain ⟨x, rfl, hle, hlt, -, hclear, hbefore⟩ := findClear_some h
  refine ⟨x, _, rfl, filter_range_cons ?_ ?_ ?_⟩
  · omega
  · intro y hy
    unfold isFree
    by_cases hstart : sbi.dataStart e ≤ y
    · have hset := hbefore y (by omega) hy
      unfold SbInfo.blockBit
      simp [hset]
    · have hno : ¬ sbi.InData e y := fun h => hstart h.1
      simp [hno]
  · have hin : sbi.InData e x := ⟨by omega, by omega⟩
    unfold isFree SbInfo.blockBit
    simp [hin, hclear]

/-- The allocator fails when no data block is free. -/
theorem exec_naiveFindFreeBlock_nil (hD : 0 < sbi.dataStart e) (hl : freeBlocks e sbi s.mem = []) :
    (naiveFindFreeBlock e sbi).exec ans s = .ok (-1, s) := by
  have hcases : (naiveFindFreeBlock e sbi).exec ans s = _ ∨ _ := naiveFindFreeBlock_exec hD
  obtain h | ⟨x, hx, hfree, -⟩ := hcases
  · exact h
  · have hmem := mem_freeBlocks.mpr ⟨hx, hfree⟩
    rw [hl] at hmem
    cases hmem

/-- The allocator takes the first free data block. -/
theorem exec_naiveFindFreeBlock_cons {l : List Nat} (hD : 0 < sbi.dataStart e)
    (hl : freeBlocks e sbi s.mem = x :: l) :
    (naiveFindFreeBlock e sbi).exec ans s = .ok ((x : Int),
      (s.setMem (s.mem.setBit (sbi.blockBit x))).markDirty sbi.blockBitmapBh) := by
  have hT : sbi.dataEnd e < 2 ^ 31 := toInt32_lt _
  have hx := (mem_freeBlocks.mp (show x ∈ freeBlocks e sbi s.mem by rw [hl]; simp)).1
  obtain ⟨D, hDn⟩ : ∃ D : Nat, sbi.dataStart e = D := ⟨(sbi.dataStart e).toNat, by omega⟩
  obtain ⟨n, hn⟩ : ∃ n : Nat, sbi.dataEnd e = D + n := by
    refine ⟨(sbi.dataEnd e - sbi.dataStart e).toNat, ?_⟩
    have hlo := hx.1
    have hhi := hx.2
    omega
  have hcode : naiveFindFreeBlock e sbi = takeClear sbi.blockBitmap sbi.blockBitmapBh n D := by
    show takeClear _ _ (sbi.dataEnd e - sbi.dataStart e).toNat (sbi.dataStart e) = _
    rw [hn, hDn, show ((D : Int) + n - D).toNat = n by omega]
  obtain ⟨r, hr⟩ : ∃ r, findClear sbi.blockBitmap s.mem n (D : Int) = .ok r :=
    findClear_total (by omega)
  cases r with
  | none =>
    rw [freeBlocks_of_none hDn hn.le hr] at hl
    cases hl
  | some k =>
    obtain ⟨y, l', rfl, hl'⟩ := freeBlocks_of_some hDn hn hr
    obtain ⟨rfl, -⟩ := List.cons.inj (hl'.symm.trans hl)
    have hset : naiveSetBit y sbi.blockBitmap s.mem = .ok _ := naiveSetBit_nat ..
    rw [hcode, takeClear, Prog.exec_step]
    simp only [hr, hset, bind, Except.bind, pure, Except.pure]
    rfl

end Alloc

end NaiveFS.V8
