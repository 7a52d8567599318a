import Mathlib.Data.BitVec

/-!
# Bytes, little-endian words, C strings, bits

Memory seen from a base address is a function from offsets to bytes. This
module has the accesses C code makes to it (a little-endian 32-bit word,
`strncpy`, `strncmp`, one bit of a bitmap) and how each read sees each write.
-/

abbrev Byte := BitVec 8

/-- A piece of memory: the byte at each offset from its start. -/
abbrev Bytes := Nat → Byte

namespace Bytes

/-! ## Copies -/

/-- Memory full of zero bytes. -/
def zeros : Bytes := fun _ => 0

/-- `memcpy(b + off, src, src.length)`. -/
def blit (b : Bytes) (off : Nat) (src : List Byte) : Bytes := fun i =>
  if off ≤ i ∧ i < off + src.length then src.getD (i - off) 0 else b i

/-- `memset(b + off, 0, n)`. -/
def zero (b : Bytes) (off n : Nat) : Bytes := fun i =>
  if off ≤ i ∧ i < off + n then 0 else b i

/-- The `n` bytes from `off` on. -/
def slice (b : Bytes) (off n : Nat) : List Byte :=
  (List.range n).map fun i => b (off + i)

@[simp] theorem length_slice (b : Bytes) (off n : Nat) : (b.slice off n).length = n := by
  simp [slice]

theorem blit_in {b : Bytes} {off : Nat} {src : List Byte} {i : Nat}
    (h : off ≤ i) (h' : i < off + src.length) :
    b.blit off src i = src.getD (i - off) 0 := if_pos ⟨h, h'⟩

theorem blit_out {b : Bytes} {off : Nat} {src : List Byte} {i : Nat}
    (h : i < off ∨ off + src.length ≤ i) : b.blit off src i = b i :=
  if_neg (by omega)

theorem zero_in {b : Bytes} {off n i : Nat} (h : off ≤ i) (h' : i < off + n) :
    b.zero off n i = 0 := if_pos ⟨h, h'⟩

theorem zero_out {b : Bytes} {off n i : Nat} (h : i < off ∨ off + n ≤ i) :
    b.zero off n i = b i := if_neg (by omega)

/-! ## Little-endian words -/

/-- The four bytes of a little-endian 32-bit word. -/
def le32 (v : Nat) : List Byte :=
  [BitVec.ofNat 8 v, BitVec.ofNat 8 (v / 256), BitVec.ofNat 8 (v / 65536),
    BitVec.ofNat 8 (v / 16777216)]

@[simp] theorem length_le32 (v : Nat) : (le32 v).length = 4 := rfl

/-- Read a little-endian 32-bit word. -/
def getLE32 (b : Bytes) (off : Nat) : Nat :=
  (b off).toNat + 256 * (b (off + 1)).toNat + 65536 * (b (off + 2)).toNat
    + 16777216 * (b (off + 3)).toNat

/-- Store a little-endian 32-bit word. -/
def putLE32 (b : Bytes) (off v : Nat) : Bytes := b.blit off (le32 v)

theorem getLE32_lt (b : Bytes) (off : Nat) : b.getLE32 off < 2 ^ 32 := by
  have h0 := (b off).isLt
  have h1 := (b (off + 1)).isLt
  have h2 := (b (off + 2)).isLt
  have h3 := (b (off + 3)).isLt
  unfold getLE32
  omega

theorem getLE32_congr {b c : Bytes} {off : Nat}
    (h : ∀ i, off ≤ i → i < off + 4 → b i = c i) : b.getLE32 off = c.getLE32 off := by
  unfold getLE32
  rw [h off (by omega) (by omega), h (off + 1) (by omega) (by omega),
    h (off + 2) (by omega) (by omega), h (off + 3) (by omega) (by omega)]

/-- Zero bytes make a zero word. -/
theorem getLE32_of_zero {b : Bytes} {off : Nat} (h : ∀ k, k < 4 → b (off + k) = 0) :
    b.getLE32 off = 0 := by
  have h0 := h 0 (by omega)
  rw [Nat.add_zero] at h0
  unfold getLE32
  rw [h0, h 1 (by omega), h 2 (by omega), h 3 (by omega)]
  rfl

theorem getLE32_putLE32 (b : Bytes) (off v : Nat) :
    (b.putLE32 off v).getLE32 off = v % 2 ^ 32 := by
  have hb : ∀ k, k < 4 → b.putLE32 off v (off + k) = (le32 v).getD k 0 := by
    intro k hk
    rw [putLE32, blit_in (by omega) (by simp; omega), Nat.add_sub_cancel_left]
  have h0 := hb 0 (by omega)
  rw [Nat.add_zero] at h0
  unfold getLE32
  rw [h0, hb 1 (by omega), hb 2 (by omega), hb 3 (by omega)]
  simp only [le32, List.getD_cons_zero, List.getD_cons_succ, BitVec.toNat_ofNat]
  omega

theorem putLE32_out {b : Bytes} {off v i : Nat} (h : i < off ∨ off + 4 ≤ i) :
    b.putLE32 off v i = b i := blit_out (by simpa using h)

theorem getLE32_putLE32_ne {b : Bytes} {off off' v : Nat}
    (h : off' + 4 ≤ off ∨ off + 4 ≤ off') :
    (b.putLE32 off v).getLE32 off' = b.getLE32 off' :=
  getLE32_congr fun i _ _ => putLE32_out (by omega)

/-- The two bytes of a little-endian 16-bit word. -/
def le16 (v : Nat) : List Byte := [BitVec.ofNat 8 v, BitVec.ofNat 8 (v / 256)]

@[simp] theorem length_le16 (v : Nat) : (le16 v).length = 2 := rfl

/-- Read a little-endian 16-bit word. -/
def getLE16 (b : Bytes) (off : Nat) : Nat := (b off).toNat + 256 * (b (off + 1)).toNat

/-- Store a little-endian 16-bit word. -/
def putLE16 (b : Bytes) (off v : Nat) : Bytes := b.blit off (le16 v)

theorem getLE16_congr {b c : Bytes} {off : Nat} (h : b off = c off)
    (h' : b (off + 1) = c (off + 1)) :
    b.getLE16 off = c.getLE16 off := by
  unfold getLE16
  rw [h, h']

/-! ## C strings -/

/-- The characters of a NUL-terminated string, with the NULs after its end. -/
def cstr (s : List Byte) : Bytes := fun i => s.getD i 0

/-- `strncpy(b + off, s, n)`: the first `n` characters, NULs after the end. -/
def strncpy (b : Bytes) (off : Nat) (s : List Byte) (n : Nat) : Bytes := fun i =>
  if off ≤ i ∧ i < off + n then cstr s (i - off) else b i

/-- `strncmp(a, b, n)`, as the difference of the first characters that differ. -/
def strncmp (a b : Bytes) : Nat → Int
  | 0 => 0
  | n + 1 =>
    if a 0 ≠ b 0 then ((a 0).toNat : Int) - (b 0).toNat
    else if a 0 = 0 then 0
    else strncmp (fun i => a (i + 1)) (fun i => b (i + 1)) n

/-- `strcmp(a, s)` with a string `s`: the comparison stops at `s`'s NUL. -/
def strcmp (a : Bytes) (s : List Byte) : Int := strncmp a (cstr s) (s.length + 1)

/-- The string in the `n`-byte field at `off`: its bytes before the first NUL. -/
def field (b : Bytes) (off n : Nat) : List Byte :=
  (b.slice off n).takeWhile (· ≠ 0)

theorem slice_succ (b : Bytes) (off n : Nat) :
    b.slice off (n + 1) = b off :: b.slice (off + 1) n := by
  simp only [slice, List.range_succ_eq_map, List.map_cons, List.map_map, Nat.add_zero]
  congr 1
  apply List.map_congr_left
  intro i _
  simp only [Function.comp]
  congr 1
  omega

theorem slice_congr {b c : Bytes} {off off' n : Nat}
    (h : ∀ i, i < n → b (off + i) = c (off' + i)) : b.slice off n = c.slice off' n := by
  unfold slice
  apply List.map_congr_left
  intro i hi
  exact h i (List.mem_range.mp hi)

theorem slice_eq_iff {b c : Bytes} {off n : Nat} :
    b.slice off n = c.slice off n ↔ ∀ i, i < n → b (off + i) = c (off + i) := by
  unfold slice
  simp [List.map_inj_left]

@[simp] theorem slice_zero (b : Bytes) (off : Nat) : b.slice off 0 = [] := rfl

theorem slice_add (b : Bytes) (off m n : Nat) :
    b.slice off (m + n) = b.slice off m ++ b.slice (off + m) n := by
  induction m generalizing off with
  | zero => simp
  | succ m ih =>
    rw [show m + 1 + n = m + n + 1 by omega, slice_succ, ih, slice_succ, List.cons_append,
      show off + 1 + m = off + (m + 1) by omega]

theorem getElem_slice {b : Bytes} {off n i : Nat} (h : i < (b.slice off n).length) :
    (b.slice off n)[i] = b (off + i) := by
  simp [slice]

/-- A part of the bytes from 0 on. -/
theorem take_drop_slice (b : Bytes) (size p l : Nat) :
    ((b.slice 0 size).drop p).take l = b.slice p (min l (size - p)) := by
  apply List.ext_getElem
  · simp
  · intro i hi _
    rw [List.getElem_take, List.getElem_drop, getElem_slice, getElem_slice, Nat.zero_add]

/-- One copy after the other, where the first one ends. -/
theorem blit_append (b : Bytes) (off : Nat) (xs ys : List Byte) :
    (b.blit off xs).blit (off + xs.length) ys = b.blit off (xs ++ ys) := by
  funext i
  have hlen : (xs ++ ys).length = xs.length + ys.length := List.length_append
  rcases (by omega : i < off ∨ (off ≤ i ∧ i < off + xs.length) ∨
      (off + xs.length ≤ i ∧ i < off + xs.length + ys.length) ∨
      off + xs.length + ys.length ≤ i) with h | ⟨h, h'⟩ | ⟨h, h'⟩ | h
  · rw [blit_out (by omega), blit_out (by omega), blit_out (by omega)]
  · rw [blit_out (by omega), blit_in h h', blit_in h (by omega)]
    simp only [List.getD_eq_getElem?_getD]
    rw [List.getElem?_append_left (by omega)]
  · rw [blit_in h h', blit_in (by omega) (by omega)]
    simp only [List.getD_eq_getElem?_getD]
    rw [List.getElem?_append_right (by omega),
      show i - (off + xs.length) = i - off - xs.length by omega]
  · rw [blit_out (by omega), blit_out (by omega), blit_out (by omega)]

/-- The bytes `old` with `xs` stored from `pos` on, longer than before if need be. -/
def overwrite (old : List Byte) (pos : Nat) (xs : List Byte) : List Byte :=
  old.take pos ++ xs ++ old.drop (pos + xs.length)

/-- A copy that starts within the first `size` bytes overwrites them. -/
theorem slice_blit {b : Bytes} {pos size : Nat} {xs : List Byte} (hpos : pos ≤ size) :
    (b.blit pos xs).slice 0 (max size (pos + xs.length)) = overwrite (b.slice 0 size) pos xs := by
  unfold overwrite
  apply List.ext_getElem
  · simp
    omega
  · intro i hi _
    rw [getElem_slice, Nat.zero_add]
    have hi' : i < max size (pos + xs.length) := by simpa using hi
    rcases (by omega : i < pos ∨ (pos ≤ i ∧ i < pos + xs.length) ∨ pos + xs.length ≤ i) with
      h | ⟨h, h'⟩ | h
    · rw [blit_out (by omega), List.getElem_append_left (by simp; omega),
        List.getElem_append_left (by simp; omega), List.getElem_take, getElem_slice, Nat.zero_add]
    · rw [blit_in h h', List.getElem_append_left (by simp; omega),
        List.getElem_append_right (by simp; omega)]
      simp only [List.length_take, length_slice, List.getD_eq_getElem?_getD, Nat.min_eq_left hpos]
      rw [List.getElem?_eq_getElem (by omega), Option.getD_some]
    · rw [blit_out (by omega), List.getElem_append_right (by simp; omega), List.getElem_drop,
        getElem_slice]
      congr 1
      simp
      omega

/-- What a copy has stored. -/
theorem slice_blit_self (b : Bytes) (off : Nat) (xs : List Byte) :
    (b.blit off xs).slice off xs.length = xs := by
  apply List.ext_getElem
  · simp
  · intro i _ hi
    rw [getElem_slice, blit_in (by omega) (by omega)]
    simp [hi]

theorem take_slice {b : Bytes} {off m n : Nat} (h : m ≤ n) :
    (b.slice off n).take m = b.slice off m := by
  rw [show n = m + (n - m) by omega, slice_add, List.take_append_of_le_length (by simp),
    List.take_of_length_le (by simp)]

/-- A shorter field holds the start of the string. -/
theorem field_take {b : Bytes} {off m n : Nat} (h : m ≤ n) :
    b.field off m = (b.field off n).take m := by
  rw [field, field, List.take_takeWhile, take_slice h]

theorem length_field_le {b : Bytes} {off n : Nat} : (b.field off n).length ≤ n := by
  have h : ((b.slice off n).takeWhile fun c => decide (c ≠ 0)).length ≤ (b.slice off n).length :=
    (List.takeWhile_sublist _).length_le
  rwa [length_slice] at h

theorem ne_zero_of_mem_field {b : Bytes} {off n : Nat} {c : Byte} (h : c ∈ b.field off n) :
    c ≠ 0 := by
  have hall : ((b.slice off n).takeWhile fun c => decide (c ≠ 0)).all (fun c => decide (c ≠ 0)) :=
    List.all_takeWhile
  exact of_decide_eq_true (List.all_eq_true.mp hall c h)

/-- A string that ends within the first `m` bytes is the string of the whole field. -/
theorem field_extend {b : Bytes} {off m n : Nat} (hlt : (b.field off m).length < m) (hmn : m ≤ n) :
    b.field off n = b.field off m := by
  unfold field at *
  rw [show n = m + (n - m) by omega, slice_add, List.takeWhile_append, length_slice,
    if_neg (by omega)]

/-- A field filled with a string and the NULs after it holds that string. -/
theorem field_of_cstr {b : Bytes} {off n : Nat} {s : List Byte} (hs : ∀ c ∈ s, c ≠ 0)
    (hlen : s.length ≤ n) (h : ∀ i, i < n → b (off + i) = cstr s i) : b.field off n = s := by
  have hslice : b.slice off n = s ++ List.replicate (n - s.length) 0 := by
    apply List.ext_getElem
    · simp; omega
    · intro i hi _
      have hin : i < n := by simpa using hi
      simp only [slice, List.getElem_map, List.getElem_range, h i hin, cstr,
        List.getD_eq_getElem?_getD]
      by_cases his : i < s.length
      · simp [his]
      · rw [List.getElem_append_right (by omega)]
        simp [his]
  rw [field, hslice, List.takeWhile_append_of_pos (by simpa using hs)]
  cases n - s.length <;> simp [List.replicate]

/-- `strncmp` with a string finds equality exactly when both agree up to the
first NUL, or on the first `n` characters. -/
theorem strncmp_eq_zero {a : Bytes} {s : List Byte} (hs : ∀ c ∈ s, c ≠ 0) (n : Nat) :
    strncmp a (cstr s) n = 0 ↔ a.field 0 n = s.take n := by
  induction n generalizing a s with
  | zero => simp [strncmp, field, slice]
  | succ n ih =>
    have hshift : (a.slice (0 + 1) n) = slice (fun i => a (i + 1)) 0 n := by
      apply slice_congr
      intro i _
      congr 1
      omega
    have hfield : a.field 0 (n + 1)
        = if a 0 ≠ 0 then a 0 :: field (fun i => a (i + 1)) 0 n else [] := by
      rw [field, slice_succ, List.takeWhile_cons, hshift]
      simp only [decide_eq_true_eq]
      rfl
    cases s with
    | nil =>
      rw [hfield, strncmp]
      by_cases h0 : a 0 = 0
      · simp [h0, cstr]
      · have hc0 : cstr [] 0 = 0 := rfl
        have hne : (a 0).toNat ≠ 0 := fun h => h0 (BitVec.eq_of_toNat_eq h)
        simp only [hc0, h0, ne_eq, not_false_eq_true, if_true]
        simpa using hne
    | cons c s =>
      have hc : c ≠ 0 := hs c (by simp)
      have hcs : (fun i => cstr (c :: s) (i + 1)) = cstr s := rfl
      rw [hfield, strncmp, hcs, List.take_succ_cons]
      by_cases h0 : a 0 = c
      · have hz : a 0 ≠ 0 := by rw [h0]; exact hc
        have hc0 : cstr (c :: s) 0 = c := rfl
        simp only [hc0, h0, ne_eq, not_true_eq_false, if_false, hc, not_false_eq_true,
          if_true, List.cons.injEq, true_and]
        exact ih fun d hd => hs d (by simp [hd])
      · have hne : (a 0).toNat ≠ c.toNat := fun h => h0 (BitVec.eq_of_toNat_eq h)
        have hc0 : cstr (c :: s) 0 = c := rfl
        simp only [hc0, h0, ne_eq, not_false_eq_true, if_true]
        constructor
        · intro h
          omega
        · intro h
          split at h
          · exact absurd (List.cons.inj h).1 h0
          · cases h

/-- The string in memory that starts with `s` and its NUL is `s`. -/
theorem field_cstr {s : List Byte} {n : Nat} (hs : ∀ c ∈ s, c ≠ 0) (hlen : s.length ≤ n) :
    field (cstr s) 0 n = s :=
  field_of_cstr hs hlen fun i _ => by rw [Nat.zero_add]

theorem strcmp_eq_zero {a : Bytes} {s : List Byte} (hs : ∀ c ∈ s, c ≠ 0) :
    strcmp a s = 0 ↔ a.field 0 (s.length + 1) = s := by
  rw [strcmp, strncmp_eq_zero hs, List.take_of_length_le (by omega)]

/-- Two strings compare equal when they are. -/
theorem strcmp_cstr {a s : List Byte} (ha : ∀ c ∈ a, c ≠ 0) (hs : ∀ c ∈ s, c ≠ 0) :
    strcmp (cstr a) s = 0 ↔ a = s := by
  rw [strcmp_eq_zero hs]
  constructor
  · intro h
    rcases Nat.lt_or_ge s.length a.length with hlt | hge
    · rw [field_take (show s.length + 1 ≤ a.length by omega), field_cstr ha (Nat.le_refl _)] at h
      have := congrArg List.length h
      rw [List.length_take] at this
      omega
    · rwa [field_cstr ha (by omega)] at h
  · rintro rfl
    exact field_cstr ha (by omega)

/-! ## Bitmaps

Bit `n` of a bitmap is bit `n % 8` of byte `n / 8`. -/

/-- `bm[n / 8] & (1 << (n % 8))`. -/
def bit (bm : Bytes) (n : Nat) : Bool := (bm (n / 8)).getLsbD (n % 8)

/-- `bm[n / 8] |= 1 << (n % 8)`. -/
def setBit (bm : Bytes) (n : Nat) : Bytes := fun i =>
  if i = n / 8 then bm i ||| 1#8 <<< (n % 8) else bm i

/-- `bm[n / 8] &= ~(1 << (n % 8))`. -/
def clearBit (bm : Bytes) (n : Nat) : Bytes := fun i =>
  if i = n / 8 then bm i &&& ~~~(1#8 <<< (n % 8)) else bm i

theorem getLsbD_one_shl {j k : Nat} (hk : k < 8) :
    (1#8 <<< j).getLsbD k = decide (k = j) := by
  simp only [BitVec.getLsbD_shiftLeft, hk, decide_true, Bool.true_and, BitVec.getLsbD_one,
    Nat.zero_lt_succ]
  by_cases h : k < j
  · simp [h, Nat.ne_of_lt h]
  · simp [h]
    omega

@[simp] theorem bit_setBit (bm : Bytes) (n m : Nat) :
    (bm.setBit n).bit m = (decide (m = n) || bm.bit m) := by
  have hm : m % 8 < 8 := Nat.mod_lt _ (by decide)
  unfold bit setBit
  by_cases hb : m / 8 = n / 8
  · rw [if_pos hb, BitVec.getLsbD_or, getLsbD_one_shl hm, Bool.or_comm]
    congr 1
    simp only [decide_eq_decide]
    omega
  · have hne : m ≠ n := fun h => hb (by rw [h])
    simp [hb, hne]

@[simp] theorem bit_clearBit (bm : Bytes) (n m : Nat) :
    (bm.clearBit n).bit m = (decide (m ≠ n) && bm.bit m) := by
  have hm : m % 8 < 8 := Nat.mod_lt _ (by decide)
  unfold bit clearBit
  by_cases hb : m / 8 = n / 8
  · rw [if_pos hb, BitVec.getLsbD_and, BitVec.getLsbD_not, getLsbD_one_shl hm, Bool.and_comm]
    simp only [hm, decide_true, Bool.true_and]
    congr 1
    by_cases hmn : m = n
    · simp [hmn]
    · have hmod : m % 8 ≠ n % 8 := by omega
      simp [hmn, hmod]
  · have hne : m ≠ n := fun h => hb (by rw [h])
    simp [hb, hne]

theorem setBit_out {bm : Bytes} {n i : Nat} (h : i ≠ n / 8) : bm.setBit n i = bm i := if_neg h

theorem clearBit_out {bm : Bytes} {n i : Nat} (h : i ≠ n / 8) : bm.clearBit n i = bm i := if_neg h

/-- Bytes are equal when their bits are. -/
theorem ext_bit {a b : Bytes} (h : ∀ n, a.bit n = b.bit n) : a = b := by
  funext i
  apply BitVec.eq_of_getLsbD_eq
  intro j hj
  have := h (8 * i + j)
  simpa only [bit, show (8 * i + j) / 8 = i by omega, show (8 * i + j) % 8 = j by omega]
    using this

/-- Clearing the bit just set restores a bitmap where it was clear. -/
theorem clearBit_setBit {bm : Bytes} {n : Nat} (h : bm.bit n = false) :
    (bm.setBit n).clearBit n = bm := by
  apply ext_bit
  intro m
  by_cases hm : m = n
  · simp [hm, h]
  · simp [hm]

/-- A set bit distinguishes a bitmap from the one that had it clear. -/
theorem setBit_ne {bm : Bytes} {n : Nat} (h : bm.bit n = false) : bm.setBit n ≠ bm := by
  intro he
  have := congrArg (fun c => Bytes.bit c n) he
  simp [h] at this

/-- A mask of one bit tests that bit. -/
theorem and_one_shl_eq_zero {b : Byte} {j : Nat} (hj : j < 8) :
    b &&& (1#8 <<< j) = 0#8 ↔ b.getLsbD j = false := by
  constructor
  · intro h
    have := congrArg (fun c => BitVec.getLsbD c j) h
    simpa [BitVec.getLsbD_and, getLsbD_one_shl hj] using this
  · intro h
    apply BitVec.eq_of_getLsbD_eq
    intro k hk
    rw [BitVec.getLsbD_and, getLsbD_one_shl hk]
    by_cases hkj : k = j
    · simp [hkj, h]
    · simp [hkj]

end Bytes
