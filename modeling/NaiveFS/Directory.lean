import NaiveFS.Lib.Table
import NaiveFS.Run

/-!
# A directory as a table

Record `k` of a directory is record `k % 3` of slot `k / 3`. The scans go
through them in this order, so a directory is a table of names and numbers, and
`naive_lookup`'s scan is the search of the table. This module says what
`naive_add_entry` and `naive_remove_entry` do to the map the table stands for.
-/

namespace NaiveFS

open Bytes

namespace FS

/-- Record `k` of the directory `nd`, when its slot is attached and it is in use. -/
def recordAt (s : FS) (nd : Inode) (k : Nat) : Option (List Byte × Nat) :=
  if nd.blockPointers (k / 3) ≠ 0 ∧ DirRecord.iIno (s.slotBlock nd (k / 3)) (k % 3) ≠ 0 then
    some (DirRecord.name (s.slotBlock nd (k / 3)) (k % 3),
      DirRecord.iIno (s.slotBlock nd (k / 3)) (k % 3))
  else none

end FS

/-- The number of records the scans go through. -/
def Inode.records (nd : Inode) : Nat := 3 * nd.blockCount.toNat

/-- What a scan compares a name with: its first 128 characters. -/
def Name.key (name : Name) : List Byte := name.bytes.take naiveMaxFilenameLen

/-- The record scan of `naive_lookup`: the number in the first record that names
`name`. -/
def FS.lookupScan (s : FS) (nd : Inode) (name : Name) : Option Nat :=
  Table.find (s.recordAt nd) nd.records name.key

section Scan

variable {ans : Answers} {s t : FS} {nd : Inode} {name : Name} {site : Site} {i j k : Nat}

theorem recordAt_eq (hp : nd.blockPointers i ≠ 0) (hj : j < 3) :
    s.recordAt nd (3 * i + j) = if DirRecord.iIno (s.slotBlock nd i) j ≠ 0 then
      some (DirRecord.name (s.slotBlock nd i) j, DirRecord.iIno (s.slotBlock nd i) j)
    else none := by
  unfold FS.recordAt
  rw [show (3 * i + j) / 3 = i by omega, show (3 * i + j) % 3 = j by omega]
  exact if_congr (and_iff_right hp) rfl rfl

/-- A record is found by a name when the source's test says so. -/
theorem hit_recordAt (hp : nd.blockPointers i ≠ 0) (hj : j < 3) :
    Table.hit name.key (s.recordAt nd (3 * i + j)) =
      if isNamed name (s.slotBlock nd i) j = true then some (DirRecord.iIno (s.slotBlock nd i) j)
      else none := by
  rw [recordAt_eq hp hj]
  by_cases hino : DirRecord.iIno (s.slotBlock nd i) j = 0
  · have hno : ¬ isNamed name (s.slotBlock nd i) j = true := by
      rw [isNamed, DirRecord.isNamed_iff name.noNul]
      exact fun h => h.1 hino
    rw [if_neg (not_not.mpr hino), if_neg hno, Table.hit_none]
  · rw [if_pos hino]
    by_cases hname : DirRecord.name (s.slotBlock nd i) j = name.key
    · have hyes : isNamed name (s.slotBlock nd i) j = true :=
        (DirRecord.isNamed_iff name.noNul).mpr ⟨hino, hname⟩
      rw [if_pos hyes, hname, Table.hit_self]
    · have hno : ¬ isNamed name (s.slotBlock nd i) j = true := by
        rw [isNamed, DirRecord.isNamed_iff name.noNul]
        exact fun h => hname h.2
      rw [if_neg hno, Table.hit_ne hname]

/-- Slots before the one a scan is at gave it nothing. -/
theorem hit_of_passed {n : Nat} (hn : n ≤ nd.blockCount.toNat) (hn8 : n ≤ 8)
    (h : Passed ans s nd site (isNamed name) n) (hk : k < 3 * n) :
    Table.hit name.key (s.recordAt nd k) = none := by
  by_cases hp : nd.blockPointers (k / 3) = 0
  · unfold FS.recordAt
    rw [if_neg (fun h => h.1 hp), Table.hit_none]
  · have hslot : nd.Slot (k / 3) := ⟨by omega, by omega, hp⟩
    have hno := (h (k / 3) (by omega) hslot).2 (k % 3) (by omega)
    rw [show k = 3 * (k / 3) + k % 3 by omega, hit_recordAt hp (by omega), hno]
    rfl

/-- A scan by name that stops is at the record the search of the table finds. -/
theorem StopsAt.lookupScan (h : StopsAt ans s nd site (isNamed name) i j) :
    s.lookupScan nd name = some (DirRecord.iIno (s.slotBlock nd i) j) := by
  have hcount := h.slot.count
  have hbound := h.slot.bound
  have hj := h.bound
  refine Table.find_of_first (k := 3 * i + j) ?_ ?_ fun k hk => ?_
  · unfold Inode.records
    omega
  · rw [hit_recordAt h.slot.attached hj, h.hit]
    rfl
  · rcases Nat.lt_or_ge k (3 * i) with hlt | hge
    · exact hit_of_passed (by omega) (by omega) h.passed hlt
    · rw [show k = 3 * i + (k - 3 * i) by omega, hit_recordAt h.slot.attached (by omega),
        h.first _ (by omega)]
      rfl

/-- A scan by name that finds nothing searched the whole table. -/
theorem FindsNone.lookupScan (hcount : nd.blockCount ≤ 8)
    (h : FindsNone ans s nd site (isNamed name)) : s.lookupScan nd name = none :=
  Table.find_eq_none.mpr fun k hk =>
    hit_of_passed (Nat.le_refl _) (by omega) h (by unfold Inode.records at hk; exact hk)

end Scan

/-! ## Directories in good order -/

/-- The attached slots are the first `blockCount` ones. -/
structure Inode.Packed (nd : Inode) : Prop where
  low : 0 ≤ nd.blockCount
  high : nd.blockCount ≤ 8
  attached : ∀ i : Nat, i < 8 → (nd.blockPointers i ≠ 0 ↔ (i : Int) < nd.blockCount)

/-- The blocks of the directory are marked and different, and the stored names
are terminated within their field. -/
structure FS.DirOk (s : FS) (nd : Inode) : Prop extends nd.Packed where
  marked : ∀ i, nd.Slot i → s.isMarked (nd.blockPointers i)
  distinct : ∀ i j, nd.Slot i → nd.Slot j → nd.blockPointers i = nd.blockPointers j → i = j
  names : ∀ k n v, k < nd.records → s.recordAt nd k = some (n, v) → n.length ≤ 127

section Good

variable {ans : Answers} {s t : FS} {dir : Nat} {nd nd' : Inode} {name : Name} {i j k b : Nat}
  {v : Bytes}

theorem Inode.Packed.slot (h : nd.Packed) (hi : (i : Int) < nd.blockCount) : nd.Slot i := by
  have := h.high
  exact ⟨hi, by omega, (h.attached i (by omega)).mpr hi⟩

theorem Inode.Packed.zeroSlot_some (h : nd.Packed) (hlt : nd.blockCount < 8) :
    zeroSlot nd = some nd.blockCount.toNat := by
  have := h.low
  unfold zeroSlot naiveBlockPerFile
  rw [List.find?_range_eq_some]
  refine ⟨?_, List.mem_range.mpr (by omega), fun i hi => ?_⟩
  · have := (h.attached nd.blockCount.toNat (by omega)).not.mpr (by omega)
    simpa using this
  · have := (h.attached i (by omega)).mpr (by omega)
    simpa using this

theorem Inode.Packed.zeroSlot_none (h : nd.Packed) (hfull : nd.blockCount = 8) :
    zeroSlot nd = none := by
  unfold zeroSlot naiveBlockPerFile
  rw [List.find?_range_eq_none]
  intro i hi
  have := (h.attached i hi).mpr (by omega)
  simpa using this

@[simp] theorem slotBlock_writeBlock_self (s : FS) (nd : Inode) (i : Nat) (v : Bytes) :
    (s.writeBlock (nd.blockPointers i) v).slotBlock nd i = v :=
  FS.block_writeBlock_self s _ v

theorem slotBlock_writeBlock_ne {c : Int} (h : toU64 (nd.blockPointers i) ≠ toU64 c) :
    (s.writeBlock c v).slotBlock nd i = s.slotBlock nd i :=
  FS.block_writeBlock_ne h

/-- Record `k` is a matter of its slot's pointer and its record's fields. -/
theorem recordAt_congr (hp : nd'.blockPointers (k / 3) = nd.blockPointers (k / 3))
    (hino : nd.blockPointers (k / 3) ≠ 0 → DirRecord.iIno (t.slotBlock nd' (k / 3)) (k % 3)
      = DirRecord.iIno (s.slotBlock nd (k / 3)) (k % 3))
    (hname : nd.blockPointers (k / 3) ≠ 0 → DirRecord.name (t.slotBlock nd' (k / 3)) (k % 3)
      = DirRecord.name (s.slotBlock nd (k / 3)) (k % 3)) :
    t.recordAt nd' k = s.recordAt nd k := by
  unfold FS.recordAt
  by_cases hz : nd.blockPointers (k / 3) = 0
  · rw [if_neg (fun h => h.1 (hp.trans hz)), if_neg (fun h => h.1 hz)]
  · rw [hp, hino hz, hname hz]

/-- Blocks outside the directory do not matter to it. -/
theorem FS.DirOk.recordAt_writeBlock {c : Int} (h : s.DirOk nd) (hc : ¬ s.isMarked c)
    (hc' : 0 ≤ c ∧ c < 4096) (hk : k < nd.records) :
    (s.writeBlock c v).recordAt nd k = s.recordAt nd k := by
  have hlow := h.low
  have hslot : nd.Slot (k / 3) := h.slot (by unfold Inode.records at hk; omega)
  have hne : toU64 (nd.blockPointers (k / 3)) ≠ toU64 c := by
    refine (h.marked _ hslot).toU64_ne hc' ?_
    rintro rfl
    exact hc (h.marked _ hslot)
  have hblock := slotBlock_writeBlock_ne (s := s) (v := v) hne
  exact recordAt_congr rfl (fun _ => by rw [hblock]) (fun _ => by rw [hblock])

/-- Rewriting a slot's block leaves the records whose fields it leaves. -/
theorem FS.DirOk.recordAt_write (h : s.DirOk nd) (hslot : nd.Slot i)
    (hv : ∀ l, l < 3 → l ≠ j → DirRecord.iIno v l = DirRecord.iIno (s.slotBlock nd i) l ∧
      DirRecord.name v l = DirRecord.name (s.slotBlock nd i) l)
    (hk : k < nd.records) (hne : k ≠ 3 * i + j) :
    (s.writeBlock (nd.blockPointers i) v).recordAt nd k = s.recordAt nd k := by
  have hlow := h.low
  have hkslot : nd.Slot (k / 3) := h.slot (by unfold Inode.records at hk; omega)
  by_cases hi : k / 3 = i
  · subst hi
    obtain ⟨hino, hname⟩ := hv (k % 3) (by omega) (by omega)
    exact recordAt_congr rfl (fun _ => by rw [slotBlock_writeBlock_self, hino])
      (fun _ => by rw [slotBlock_writeBlock_self, hname])
  · have hblock : (s.writeBlock (nd.blockPointers i) v).slotBlock nd (k / 3)
        = s.slotBlock nd (k / 3) := by
      refine slotBlock_writeBlock_ne ((h.marked _ hkslot).toU64_ne ?_ ?_)
      · exact ⟨(h.marked _ hslot).1, (h.marked _ hslot).2.1⟩
      · exact fun heq => hi (h.distinct _ _ hkslot hslot heq)
    exact recordAt_congr rfl (fun _ => by rw [hblock]) (fun _ => by rw [hblock])

/-! ### Adding an entry -/

/-- The record `naive_add_entry` stores; with number 0 it does not count. -/
def entryOf (name : Name) (ino : Int) : Option (List Byte × Nat) :=
  if toU32 ino ≠ 0 then some (name.bytes.take 127, toU32 ino) else none

/-- A record just stored, read back. -/
theorem recordAt_put {d : Bytes} {ino : Int} (hp : nd.blockPointers i ≠ 0) (hj : j < 3)
    (hblock : t.slotBlock nd i = DirRecord.put d j (toU32 ino) name.bytes) :
    t.recordAt nd (3 * i + j) = entryOf name ino := by
  rw [recordAt_eq hp hj, hblock, DirRecord.iIno_put_self, DirRecord.name_put_self _ _ _ name.noNul,
    Nat.mod_eq_of_lt (toU32_lt ino), entryOf]

theorem StopsAt.recordAt (h : StopsAt ans s nd .addEntryScan isFree i j) :
    s.recordAt nd (3 * i + j) = none := by
  have hfree : DirRecord.iIno (s.slotBlock nd i) j = 0 := by simpa [isFree] using h.hit
  rw [recordAt_eq h.slot.attached h.bound, if_neg (not_not.mpr hfree)]

/-- Filling a free record. -/
theorem FS.DirOk.filled (h : s.DirOk nd) (stop : StopsAt ans s nd .addEntryScan isFree i j)
    (name : Name) (ino : Int) :
    (s.putRecord nd i j name ino).recordAt nd (3 * i + j) = entryOf name ino ∧
      ∀ k, k < nd.records → k ≠ 3 * i + j →
        (s.putRecord nd i j name ino).recordAt nd k = s.recordAt nd k := by
  refine ⟨recordAt_put stop.slot.attached stop.bound (slotBlock_writeBlock_self _ _ _ _), ?_⟩
  exact fun k hk hne => h.recordAt_write stop.slot
    (fun l hl hlj => ⟨DirRecord.iIno_put_ne (Ne.symm hlj),
      DirRecord.name_put_ne (Ne.symm hlj)⟩) hk hne

/-- A full scan of a directory in good order saw every record in use. -/
theorem FindsNone.recordAt_ne (hok : nd.Packed) (h : FindsNone ans s nd .addEntryScan isFree)
    (hk : k < nd.records) : s.recordAt nd k ≠ none := by
  have hlow := hok.low
  have hslot : nd.Slot (k / 3) := hok.slot (by unfold Inode.records at hk; omega)
  have huse := (h.slot hslot).2 (k % 3) (by omega)
  have hino : DirRecord.iIno (s.slotBlock nd (k / 3)) (k % 3) ≠ 0 := by simpa [isFree] using huse
  unfold FS.recordAt
  rw [if_pos ⟨hslot.attached, hino⟩]
  simp

/-- A directory with room grows by a slot. -/
theorem Inode.Packed.grow_room (h : nd.Packed) (hlt : nd.blockCount < 8) (c : Int) :
    (nd.grow c).blockCount = nd.blockCount + 1 ∧
      (nd.grow c).blockPointers = Function.update nd.blockPointers nd.blockCount.toNat c := by
  unfold Inode.grow attachBlock
  rw [h.zeroSlot_some hlt]
  exact ⟨rfl, rfl⟩

/-- A directory with eight slots gets no more. -/
theorem Inode.Packed.grow_full (h : nd.Packed) (hfull : nd.blockCount = 8) (c : Int) :
    (nd.grow c).blockCount = nd.blockCount ∧ (nd.grow c).blockPointers = nd.blockPointers := by
  unfold Inode.grow attachBlock
  rw [h.zeroSlot_none hfull]
  exact ⟨rfl, rfl⟩

/-- The state after `naive_add_entry` gave the directory block `b`. -/
def FS.growDir (s : FS) (dir : Nat) (nd : Inode) (b : Nat) (name : Name) (ino : Int) : FS :=
  ((s.markBlock b).putFirst b name ino).setInode dir (nd.grow b)

/-- Growing keeps the records there were. -/
theorem FS.DirOk.growDir_old {ino : Int} (h : s.DirOk nd) (free : s.NextFree b)
    (hk : k < nd.records) : (s.growDir dir nd b name ino).recordAt (nd.grow b) k
      = s.recordAt nd k := by
  have hlow := h.low
  have hold := h.recordAt_writeBlock (v := DirRecord.put ((s.block b).zero 0 naiveBlockSize) 0
    (toU32 ino) name.bytes) free.not_isMarked ⟨by omega, by have := free.bitmap; omega⟩ hk
  have hptr : (nd.grow b).blockPointers (k / 3) = nd.blockPointers (k / 3) := by
    rcases Int.lt_or_eq_of_le h.high with hlt | hfull
    · rw [(h.grow_room hlt b).2]
      exact Function.update_of_ne (by unfold Inode.records at hk; omega) _ _
    · rw [(h.grow_full hfull b).2]
  rw [← hold]
  have hblock : (s.growDir dir nd b name ino).slotBlock (nd.grow b) (k / 3)
      = (s.writeBlock b (DirRecord.put ((s.block b).zero 0 naiveBlockSize) 0 (toU32 ino)
        name.bytes)).slotBlock nd (k / 3) := by
    unfold FS.slotBlock
    rw [hptr]
    rfl
  exact recordAt_congr hptr (fun _ => by rw [hblock]) (fun _ => by rw [hblock])

/-- The new block holds the new record and two free ones. -/
theorem FS.DirOk.growDir_new (h : s.DirOk nd) (hlt : nd.blockCount < 8) (hb : b ≠ 0)
    (hj : j < 3) (dir : Nat) (name : Name) (ino : Int) :
    (s.growDir dir nd b name ino).recordAt (nd.grow b) (nd.records + j)
      = if j = 0 then entryOf name ino else none := by
  have hptr : (nd.grow b).blockPointers nd.blockCount.toNat = b := by
    rw [(h.grow_room hlt b).2]
    exact Function.update_self _ _ _
  have hne : (nd.grow b).blockPointers nd.blockCount.toNat ≠ 0 := by
    rw [hptr]
    omega
  have hblock : (s.growDir dir nd b name ino).slotBlock (nd.grow b) nd.blockCount.toNat
      = DirRecord.put ((s.block b).zero 0 naiveBlockSize) 0 (toU32 ino) name.bytes := by
    unfold FS.slotBlock
    rw [hptr]
    exact FS.block_writeBlock_self (s.markBlock b) _ _
  by_cases hj0 : j = 0
  · subst hj0
    exact recordAt_put hne hj hblock
  · rw [if_neg hj0, Inode.records, recordAt_eq hne hj, hblock,
      DirRecord.iIno_put_ne (Ne.symm hj0)]
    exact if_neg (not_not.mpr (DirRecord.iIno_zero hj))

/-! ### Good order is kept -/

/-- Good order is a matter of pointers, marks and the names read. -/
theorem FS.DirOk.congr (h : s.DirOk nd) (hcount : nd'.blockCount = nd.blockCount)
    (hptr : nd'.blockPointers = nd.blockPointers) (hmark : ∀ c, s.isMarked c → t.isMarked c)
    (hnames : ∀ k n v, k < nd.records → t.recordAt nd' k = some (n, v) → n.length ≤ 127) :
    t.DirOk nd' := by
  have hslot : ∀ i, nd'.Slot i → nd.Slot i := fun i hi =>
    ⟨hcount ▸ hi.count, hi.bound, hptr ▸ hi.attached⟩
  refine ⟨⟨hcount ▸ h.low, hcount ▸ h.high, fun i hi => ?_⟩, fun i hi => ?_, fun i j hi hj => ?_,
    fun k n v hk => hnames k n v ?_⟩
  · rw [hcount, hptr]
    exact h.attached i hi
  · rw [hptr]
    exact hmark _ (h.marked i (hslot i hi))
  · rw [hptr]
    exact h.distinct i j (hslot i hi) (hslot j hj)
  · unfold Inode.records at *
    rwa [hcount] at hk

theorem FS.DirOk.addRef (h : s.DirOk nd) (b d : Int) : (s.addRef b d).DirOk nd :=
  h.congr rfl rfl (fun _ hc => hc) h.names

theorem entryOf_length {ino : Int} {n : List Byte} {v : Nat} (h : entryOf name ino = some (n, v)) :
    n.length ≤ 127 := by
  unfold entryOf at h
  split at h
  · cases h
    rw [List.length_take]
    omega
  · cases h

theorem FS.DirOk.dirOk_filled {ino : Int} (h : s.DirOk nd)
    (stop : StopsAt ans s nd .addEntryScan isFree i j) :
    (s.putRecord nd i j name ino).DirOk nd := by
  obtain ⟨hnew, hold⟩ := h.filled stop name ino
  refine h.congr rfl rfl (fun _ hc => hc) fun k n v hk hkr => ?_
  by_cases hkij : k = 3 * i + j
  · rw [hkij, hnew] at hkr
    exact entryOf_length hkr
  · rw [hold k hk hkij] at hkr
    exact h.names k n v hk hkr

theorem FS.DirOk.dirOk_growDir {ino : Int} (h : s.DirOk nd) (free : s.NextFree b)
    (hlt : nd.blockCount < 8) (hb : b ≠ 0) :
    (s.growDir dir nd b name ino).DirOk (nd.grow b) := by
  obtain ⟨hcount, hptr⟩ := h.grow_room hlt b
  have hlow := h.low
  have hlast : (nd.grow b).blockPointers nd.blockCount.toNat = b := by
    rw [hptr]
    exact Function.update_self _ _ _
  have hinit : ∀ i : Nat, (i : Int) < nd.blockCount →
      (nd.grow b).blockPointers i = nd.blockPointers i := fun i hi => by
    rw [hptr]
    exact Function.update_of_ne (by omega) _ _
  -- a slot is one there was, or the new one, which holds `b`
  have hcases : ∀ i, (nd.grow b).Slot i →
      (nd.Slot i ∧ (nd.grow b).blockPointers i = nd.blockPointers i) ∨
        (i = nd.blockCount.toNat ∧ (nd.grow b).blockPointers i = b) := by
    intro i hi
    have := hi.count
    rcases Int.lt_or_le (i : Int) nd.blockCount with hlt' | hge
    · exact .inl ⟨h.slot hlt', hinit i hlt'⟩
    · obtain rfl : i = nd.blockCount.toNat := by omega
      exact .inr ⟨rfl, hlast⟩
  refine ⟨⟨by omega, by omega, fun i hi => ?_⟩, fun i hi => ?_, fun i j hi hj heq => ?_,
    fun k n v hk hkr => ?_⟩
  · rcases Int.lt_trichotomy (i : Int) nd.blockCount with hi' | hi' | hi'
    · rw [hinit i hi', h.attached i hi]
      omega
    · obtain rfl : i = nd.blockCount.toNat := by omega
      rw [hlast]
      omega
    · have hzero : (nd.grow b).blockPointers i = nd.blockPointers i := by
        rw [hptr]
        exact Function.update_of_ne (by omega) _ _
      rw [hzero, h.attached i hi]
      omega
  · have hmark : ∀ c, (s.growDir dir nd b name ino).isMarked c ↔ (s.markBlock b).isMarked c :=
      fun _ => Iff.rfl
    rw [hmark, FS.isMarked_markBlock free.bitmap]
    rcases hcases i hi with ⟨hi', hp⟩ | ⟨_, hp⟩
    · rw [hp]
      exact .inl (h.marked i hi')
    · exact .inr hp
  · rcases hcases i hi with ⟨hi', hp⟩ | ⟨hi', hp⟩ <;> rcases hcases j hj with ⟨hj', hq⟩ | ⟨hj', hq⟩
    · exact h.distinct i j hi' hj' (by rw [← hp, ← hq, heq])
    · have := h.marked i hi'
      rw [← hp, heq, hq] at this
      exact absurd this free.not_isMarked
    · have := h.marked j hj'
      rw [← hq, ← heq, hp] at this
      exact absurd this free.not_isMarked
    · rw [hi', hj']
  · rcases Nat.lt_or_ge k nd.records with hk' | hk'
    · rw [h.growDir_old free hk'] at hkr
      exact h.names k n v hk' hkr
    · have hk3 : k < nd.records + 3 := by
        unfold Inode.records at *
        omega
      have hnew := h.growDir_new (j := k - nd.records) hlt hb (by omega) dir name ino
      rw [show nd.records + (k - nd.records) = k by omega, hkr] at hnew
      split at hnew
      · exact entryOf_length hnew.symm
      · cases hnew

theorem FS.DirOk.dirOk_growDir_full {ino : Int} (h : s.DirOk nd) (free : s.NextFree b)
    (hfull : nd.blockCount = 8) : (s.growDir dir nd b name ino).DirOk (nd.grow b) := by
  obtain ⟨hcount, hptr⟩ := h.grow_full hfull b
  refine h.congr hcount hptr (fun c hc => free.isMarked hc) fun k n v hk hkr => ?_
  rw [h.growDir_old free hk] at hkr
  exact h.names k n v hk hkr

end Good

end NaiveFS
