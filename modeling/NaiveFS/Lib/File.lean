import NaiveFS.Lib.Bytes

/-!
# Files written through a descriptor

An open file: its bytes and the position the next `write` starts at. `write`
moves the position behind what it wrote; `lseek` sets it.
-/

/-- An open file. -/
structure File where
  bytes : Nat → Byte
  pos : Nat

namespace File

variable {f : File} {d : Bytes} {n k size : Nat}

/-- `write(fd, d, n)`, all of it. -/
def write (f : File) (d : Bytes) (n : Nat) : File where
  bytes := fun k => if f.pos ≤ k ∧ k < f.pos + n then d (k - f.pos) else f.bytes k
  pos := f.pos + n

/-- `lseek(fd, off, SEEK_SET)`. -/
def seek (f : File) (off : Nat) : File := { f with pos := off }

/-- The `b`-th block of `size` bytes. -/
def block (f : File) (size b : Nat) : Bytes := fun i => f.bytes (size * b + i)

@[simp] theorem pos_write : (f.write d n).pos = f.pos + n := rfl

@[simp] theorem pos_seek {off : Nat} : (f.seek off).pos = off := rfl

@[simp] theorem bytes_seek {off : Nat} : (f.seek off).bytes = f.bytes := rfl

@[simp] theorem block_seek {off b : Nat} : (f.seek off).block size b = f.block size b := rfl

theorem write_in (h : f.pos ≤ k) (h' : k < f.pos + n) : (f.write d n).bytes k = d (k - f.pos) :=
  if_pos ⟨h, h'⟩

theorem write_out (h : k < f.pos ∨ f.pos + n ≤ k) : (f.write d n).bytes k = f.bytes k :=
  if_neg (by omega)

/-- A write copies the first `n` bytes of `d` to the position. -/
theorem bytes_write : (f.write d n).bytes = Bytes.blit f.bytes f.pos (d.slice 0 n) := by
  funext k
  by_cases hk : f.pos ≤ k ∧ k < f.pos + n
  · have hlt : k - f.pos < (d.slice 0 n).length := by
      rw [Bytes.length_slice]
      omega
    rw [write_in hk.1 hk.2, Bytes.blit_in hk.1 (by rw [Bytes.length_slice]; exact hk.2),
      List.getD_eq_getElem?_getD, List.getElem?_eq_getElem hlt, Option.getD_some,
      Bytes.getElem_slice,
      Nat.zero_add]
  · rw [write_out (by omega), Bytes.blit_out (by rw [Bytes.length_slice]; omega)]

/-- A write elsewhere leaves a byte of the block. -/
theorem block_write_out {b i : Nat} (h : size * b + i < f.pos ∨ f.pos + n ≤ size * b + i) :
    (f.write d n).block size b i = f.block size b i := write_out h

/-- A write that starts with the block is read back from it. -/
theorem block_write_in {b i : Nat} (h : f.pos = size * b) (hi : i < n) :
    (f.write d n).block size b i = d i := by
  rw [block, write_in (by omega) (by omega), h, Nat.add_sub_cancel_left]

end File
