import NaiveFS.Lib.Bytes

/-!
# On-disk layout (`naivefs.h`)

The constants of the header and the accesses the code makes to the three
on-disk structures. A structure is kept as the bytes of its block; each field
is the access at its offset in the C layout (every member is a `__le32` or a
byte array, so there is no padding besides the declared one).
-/

namespace NaiveFS

open Bytes

def naiveMagic : Nat := 0x990717
abbrev naiveBlockSize : Nat := 512
abbrev naiveSuperBlockBlock : Nat := 1
abbrev naiveRootInodeNo : Nat := 1
abbrev naiveMaxFilenameLen : Nat := 128
abbrev naiveDirRecordSize : Nat := 132
abbrev naiveDirRecordsPerBlock : Nat := 3
abbrev naiveBlockPerFile : Nat := 8
abbrev naiveMaxFileSize : Nat := naiveBlockSize * naiveBlockPerFile

/-! ## C integer conversions -/

/-- A value stored in an `int`. -/
def toInt32 (x : Int) : Int := (x + 2 ^ 31) % 2 ^ 32 - 2 ^ 31

/-- A value stored in an unsigned 32-bit word. -/
def toU32 (x : Int) : Nat := (x % 2 ^ 32).toNat

/-- A value stored in an unsigned 64-bit word. -/
def toU64 (x : Int) : Nat := (x % 2 ^ 64).toNat

theorem toInt32_of_small {x : Int} (h : -2 ^ 31 ≤ x) (h' : x < 2 ^ 31) : toInt32 x = x := by
  unfold toInt32
  omega

theorem toU32_lt (x : Int) : toU32 x < 2 ^ 32 := by
  unfold toU32
  omega

theorem toU32_natCast {n : Nat} (h : n < 2 ^ 32) : toU32 n = n := by
  unfold toU32
  omega

theorem toU64_natCast {n : Nat} (h : n < 2 ^ 64) : toU64 n = n := by
  unfold toU64
  omega

/-! ## `struct naive_super_block` -/

namespace SuperBlock

def magic (b : Bytes) : Nat := b.getLE32 0
def inodeTotal (b : Bytes) : Nat := b.getLE32 4
def blockTotal (b : Bytes) : Nat := b.getLE32 8
def inodeTableBlockNo (b : Bytes) : Nat := b.getLE32 12
def dataBlockNo (b : Bytes) : Nat := b.getLE32 16

end SuperBlock

/-! ## `struct naive_inode` -/

namespace DiskInode

def mode (b : Bytes) : Nat := b.getLE32 0
def iIno (b : Bytes) : Nat := b.getLE32 4
def blockCount (b : Bytes) : Nat := b.getLE32 8
def block (b : Bytes) (i : Nat) : Nat := b.getLE32 (12 + 4 * i)

/-- The union of `file_size` and `dir_children_count`. -/
def fileSize (b : Bytes) : Nat := b.getLE32 44
def iUid (b : Bytes) : Nat := b.getLE32 48
def iGid (b : Bytes) : Nat := b.getLE32 52
def iNlink (b : Bytes) : Nat := b.getLE32 56
def iAtime (b : Bytes) : Nat := b.getLE32 60
def iCtime (b : Bytes) : Nat := b.getLE32 64
def iMtime (b : Bytes) : Nat := b.getLE32 68

end DiskInode

/-! ## `struct naive_dir_record` -/

namespace DirRecord

/-- `record->i_ino` of the `j`-th record of a block. -/
def iIno (b : Bytes) (j : Nat) : Nat := b.getLE32 (naiveDirRecordSize * j)

/-- `record->filename`, as the memory it points to. -/
def filename (b : Bytes) (j : Nat) : Bytes := fun i => b (naiveDirRecordSize * j + 4 + i)

/-- The string stored in `record->filename`. -/
def name (b : Bytes) (j : Nat) : List Byte :=
  b.field (naiveDirRecordSize * j + 4) naiveMaxFilenameLen

/-- `record->i_ino != 0 && strncmp(record->filename, name, 128) == 0`. -/
def isNamed (b : Bytes) (j : Nat) (n : List Byte) : Bool :=
  iIno b j ≠ 0 && strncmp (filename b j) (cstr n) naiveMaxFilenameLen = 0

/-- Fill record `j` as `naive_add_entry` does. -/
def put (b : Bytes) (j ino : Nat) (n : List Byte) : Bytes :=
  ((b.putLE32 (naiveDirRecordSize * j) ino).strncpy (naiveDirRecordSize * j + 4) n
    naiveMaxFilenameLen).zero (naiveDirRecordSize * j + 4 + (naiveMaxFilenameLen - 1)) 1

/-- Fill record `j` as `naive_mkdir` does for `.` and `..`. -/
def putDot (b : Bytes) (j ino : Nat) (n : List Byte) : Bytes :=
  (b.putLE32 (naiveDirRecordSize * j) ino).strncpy (naiveDirRecordSize * j + 4) n
    naiveMaxFilenameLen

/-- Empty record `j` as `naive_remove_entry` does. -/
def clear (b : Bytes) (j : Nat) : Bytes :=
  (b.putLE32 (naiveDirRecordSize * j) 0).zero (naiveDirRecordSize * j + 4) naiveMaxFilenameLen

variable {b c : Bytes} {j k ino : Nat} {n : List Byte}

theorem filename_field (b : Bytes) (j : Nat) :
    (filename b j).field 0 naiveMaxFilenameLen = name b j := by
  have hs : (filename b j).slice 0 naiveMaxFilenameLen
      = b.slice (naiveDirRecordSize * j + 4) naiveMaxFilenameLen :=
    slice_congr fun i _ => by simp [filename]
  rw [name, field, field, hs]

theorem isNamed_iff (hn : ∀ x ∈ n, x ≠ 0) :
    isNamed b j n = true ↔ iIno b j ≠ 0 ∧ name b j = n.take naiveMaxFilenameLen := by
  simp only [isNamed, Bool.and_eq_true, decide_eq_true_eq]
  rw [strncmp_eq_zero hn, filename_field]

/-- Blocks that agree on record `j`'s bytes have the same record `j`. -/
theorem iIno_congr (h : ∀ i, 132 * j ≤ i → i < 132 * j + 132 → b i = c i) :
    iIno b j = iIno c j := by
  apply getLE32_congr
  unfold naiveDirRecordSize
  intro i hi hi'
  exact h i hi (by omega)

theorem name_congr (h : ∀ i, 132 * j ≤ i → i < 132 * j + 132 → b i = c i) :
    name b j = name c j := by
  unfold name field naiveDirRecordSize naiveMaxFilenameLen
  rw [slice_congr fun i hi => h (132 * j + 4 + i) (by omega) (by omega)]

/-! ### What the record writes leave -/

theorem strncpy_out {b : Bytes} {off m i : Nat} (h : i < off ∨ off + m ≤ i) :
    b.strncpy off n m i = b i := if_neg (by omega)

theorem strncpy_in {b : Bytes} {off m i : Nat} (h : off ≤ i) (h' : i < off + m) :
    b.strncpy off n m i = cstr n (i - off) := if_pos ⟨h, h'⟩

theorem put_out {i : Nat} (h : i < 132 * j ∨ 132 * j + 132 ≤ i) : put b j ino n i = b i := by
  unfold put naiveDirRecordSize naiveMaxFilenameLen
  rw [zero_out (by omega), strncpy_out (by omega), putLE32_out (by omega)]

theorem putDot_out {i : Nat} (h : i < 132 * j ∨ 132 * j + 132 ≤ i) :
    putDot b j ino n i = b i := by
  unfold putDot naiveDirRecordSize naiveMaxFilenameLen
  rw [strncpy_out (by omega), putLE32_out (by omega)]

theorem clear_out {i : Nat} (h : i < 132 * j ∨ 132 * j + 132 ≤ i) : clear b j i = b i := by
  unfold clear naiveDirRecordSize naiveMaxFilenameLen
  rw [zero_out (by omega), putLE32_out (by omega)]

@[simp] theorem iIno_put_self (b : Bytes) (j ino : Nat) (n : List Byte) :
    iIno (put b j ino n) j = ino % 2 ^ 32 := by
  rw [← getLE32_putLE32 b (132 * j) ino]
  apply getLE32_congr
  intro i hi hi'
  unfold naiveDirRecordSize at hi hi'
  unfold put naiveDirRecordSize naiveMaxFilenameLen
  rw [zero_out (by omega), strncpy_out (by omega)]

@[simp] theorem iIno_putDot_self (b : Bytes) (j ino : Nat) (n : List Byte) :
    iIno (putDot b j ino n) j = ino % 2 ^ 32 := by
  rw [← getLE32_putLE32 b (132 * j) ino]
  apply getLE32_congr
  intro i hi hi'
  unfold naiveDirRecordSize at hi hi'
  unfold putDot naiveDirRecordSize naiveMaxFilenameLen
  rw [strncpy_out (by omega)]

@[simp] theorem iIno_clear_self (b : Bytes) (j : Nat) : iIno (clear b j) j = 0 := by
  rw [show 0 = 0 % 2 ^ 32 from rfl, ← getLE32_putLE32 b (132 * j) 0]
  apply getLE32_congr
  intro i hi hi'
  unfold naiveDirRecordSize at hi hi'
  unfold clear naiveDirRecordSize naiveMaxFilenameLen
  rw [zero_out (by omega)]

theorem iIno_put_ne (h : j ≠ k) : iIno (put b j ino n) k = iIno b k :=
  iIno_congr fun i _ _ => put_out (by omega)

theorem iIno_putDot_ne (h : j ≠ k) : iIno (putDot b j ino n) k = iIno b k :=
  iIno_congr fun i _ _ => putDot_out (by omega)

theorem iIno_clear_ne (h : j ≠ k) : iIno (clear b j) k = iIno b k :=
  iIno_congr fun i _ _ => clear_out (by omega)

theorem name_put_ne (h : j ≠ k) : name (put b j ino n) k = name b k :=
  name_congr fun i _ _ => put_out (by omega)

theorem name_putDot_ne (h : j ≠ k) : name (putDot b j ino n) k = name b k :=
  name_congr fun i _ _ => putDot_out (by omega)

theorem name_clear_ne (h : j ≠ k) : name (clear b j) k = name b k :=
  name_congr fun i _ _ => clear_out (by omega)

/-- The string `naive_add_entry` stores: at most 127 characters. -/
theorem name_put_self (b : Bytes) (j ino : Nat) (hn : ∀ x ∈ n, x ≠ 0) :
    name (put b j ino n) j = n.take 127 := by
  refine field_of_cstr (fun x hx => hn x (List.mem_of_mem_take hx)) ?_ ?_
  · simp only [List.length_take, naiveMaxFilenameLen]
    omega
  intro i hi
  unfold naiveMaxFilenameLen at hi
  unfold put naiveDirRecordSize naiveMaxFilenameLen
  by_cases hlast : i = 127
  · rw [zero_in (by omega) (by omega)]
    simp [cstr, hlast]
  · rw [zero_out (by omega), strncpy_in (by omega) (by omega), Nat.add_sub_cancel_left]
    simp only [cstr, List.getD_eq_getElem?_getD]
    rw [List.getElem?_take_of_lt (by omega)]

theorem name_putDot_self (b : Bytes) (j ino : Nat) (hn : ∀ x ∈ n, x ≠ 0)
    (hlen : n.length ≤ 128) : name (putDot b j ino n) j = n := by
  refine field_of_cstr hn hlen ?_
  intro i hi
  unfold naiveMaxFilenameLen at hi
  unfold putDot naiveDirRecordSize naiveMaxFilenameLen
  rw [strncpy_in (by omega) (by omega), Nat.add_sub_cancel_left]

theorem iIno_zero (h : j < 3) : iIno (b.zero 0 512) j = 0 := by
  have hz : ∀ i, i < 512 → b.zero 0 512 i = (0 : Byte) := fun i hi =>
    zero_in (by omega) (by omega)
  unfold iIno getLE32 naiveDirRecordSize
  rw [hz _ (by omega), hz _ (by omega), hz _ (by omega), hz _ (by omega)]
  rfl

end DirRecord

end NaiveFS
