import Mathlib.Tactic.Common

/-!
# Loops over the blocks of a range of bytes

A loop that takes the bytes from `pos` on block by block: the first round ends where the
block does, every other starts where one does. A loop may leave at any block; what the
blocks before it did is then done.
-/

namespace BlockLoop

variable {size pos len i : Nat} {ok fails : Nat → Prop}

/-- The number of bytes the first round takes. -/
def chunk (size pos len : Nat) : Nat := min len (size - pos % size)

/-- Some of the `len` bytes from `pos` on lie in block `i`. -/
def Visits (size pos len i : Nat) : Prop :=
  0 < len ∧ pos / size ≤ i ∧ size * i < pos + len

/-- The loop comes to block `i`: the ones before it are `ok`. -/
structure Reaches (size : Nat) (ok : Nat → Prop) (pos len i : Nat) : Prop where
  visits : Visits size pos len i
  before : ∀ j, pos / size ≤ j → j < i → ok j

theorem chunk_le : chunk size pos len ≤ len := Nat.min_le_left _ _

theorem chunk_le_block : chunk size pos len ≤ size - pos % size := Nat.min_le_right _ _

theorem chunk_pos (pos : Nat) (hsize : 0 < size) (hlen : 0 < len) : 0 < chunk size pos len := by
  have hmod := Nat.mod_lt pos hsize
  unfold chunk
  omega

/-- The first block is visited. -/
theorem Visits.first (hlen : 0 < len) : Visits size pos len (pos / size) := by
  refine ⟨hlen, Nat.le_refl _, ?_⟩
  have := Nat.mul_div_le pos size
  omega

/-- A block is visited when one of the bytes lies in it. -/
theorem visits_iff (hsize : 0 < size) :
    Visits size pos len i ↔ ∃ q, pos ≤ q ∧ q < pos + len ∧ q / size = i := by
  constructor
  · rintro ⟨hlen, hle, hend⟩
    refine ⟨max pos (size * i), by omega, by omega, ?_⟩
    rcases Nat.le_total pos (size * i) with h | h
    · rw [Nat.max_eq_right h, Nat.mul_div_cancel_left _ hsize]
    · have hdiv : i ≤ pos / size := (Nat.le_div_iff_mul_le hsize).mpr (by rwa [Nat.mul_comm])
      rw [Nat.max_eq_left h]
      omega
  · rintro ⟨q, hle, hlt, rfl⟩
    refine ⟨by omega, Nat.div_le_div_right hle, ?_⟩
    have := Nat.mul_div_le q size
    omega

/-- The rest of the loop visits the blocks behind the first. -/
theorem visits_next (hsize : 0 < size) :
    Visits size (pos + chunk size pos len) (len - chunk size pos len) i ↔
      Visits size pos len i ∧ pos / size < i := by
  have hdiv := Nat.div_add_mod pos size
  have hmod := Nat.mod_lt pos hsize
  unfold Visits
  by_cases hlast : len ≤ size - pos % size
  · -- the range ends in its first block
    have hchunk : chunk size pos len = len := Nat.min_eq_left hlast
    rw [hchunk]
    constructor
    · rintro ⟨h, -⟩
      omega
    · rintro ⟨⟨-, -, hend⟩, hi⟩
      have : size * (pos / size + 1) ≤ size * i := Nat.mul_le_mul_left size hi
      rw [Nat.mul_add, Nat.mul_one] at this
      omega
  · have hchunk : chunk size pos len = size - pos % size := Nat.min_eq_right (by omega)
    have hstart : pos + (size - pos % size) = size * (pos / size + 1) := by
      rw [Nat.mul_add, Nat.mul_one]
      omega
    rw [hchunk, hstart, Nat.mul_div_cancel_left _ hsize]
    constructor
    · rintro ⟨h, hi, hend⟩
      exact ⟨⟨by omega, by omega, by omega⟩, by omega⟩
    · rintro ⟨⟨h, -, hend⟩, hi⟩
      exact ⟨by omega, by omega, by omega⟩

/-- Behind the first chunk the next block starts, if the range goes on. -/
theorem second_block (hsize : 0 < size) (h : 0 < len - chunk size pos len) :
    (pos + chunk size pos len) / size = pos / size + 1 := by
  have hmod := Nat.mod_lt pos hsize
  have hdiv := Nat.div_add_mod pos size
  have hchunk : chunk size pos len = size - pos % size := by
    unfold chunk at h ⊢
    omega
  have hstart : pos + (size - pos % size) = size * (pos / size + 1) := by
    rw [Nat.mul_add, Nat.mul_one]
    omega
  rw [hchunk, hstart, Nat.mul_div_cancel_left _ hsize]

theorem Reaches.first (hlen : 0 < len) : Reaches size ok pos len (pos / size) :=
  ⟨.first hlen, fun _ hj hji => absurd hji (by omega)⟩

/-- A loop that leaves at its first block comes to no other. -/
theorem Reaches.eq_first (h : Reaches size ok pos len i) (hno : ¬ ok (pos / size)) :
    i = pos / size := by
  by_contra hne
  have hle := h.visits.2.1
  exact hno (h.before _ (Nat.le_refl _) (by omega))

/-- Where the first block is `ok`, the rest of the loop comes to the blocks behind it. -/
theorem reaches_next (pos len : Nat) (hsize : 0 < size) (hok : ok (pos / size)) :
    Reaches size ok (pos + chunk size pos len) (len - chunk size pos len) i ↔
      Reaches size ok pos len i ∧ pos / size < i := by
  constructor
  · intro h
    obtain ⟨hvis, hlt⟩ := (visits_next hsize).mp h.visits
    have hstart := second_block hsize h.visits.1
    refine ⟨⟨hvis, fun j hj hji => ?_⟩, hlt⟩
    rcases Nat.eq_or_lt_of_le hj with rfl | hgt
    · exact hok
    · exact h.before j (by omega) hji
  · rintro ⟨h, hlt⟩
    have hvis := (visits_next hsize).mpr ⟨h.visits, hlt⟩
    have hstart := second_block hsize hvis.1
    exact ⟨hvis, fun j hj hji => h.before j (by omega) hji⟩

/-- How a loop ends that returns a count of bytes, or a negative number from a block that
`fails`: after as many bytes as it counted, at its first block or at a later one. -/
inductive Ends (size : Nat) (ok fails : Nat → Prop) (pos len : Nat) (count : Int) :
    Int → Nat → Prop where
  | counted {k : Nat} (le : k ≤ len) (progress : 0 < len → (0 < k ↔ ok (pos / size)))
      (all : k = len ↔ ∀ i, Visits size pos len i → ok i)
      (noFail : ∀ i, Reaches size ok pos len i → ¬ fails i) :
      Ends size ok fails pos len count (count + k) (pos + k)
  | atFirst {r : Int} (neg : r < 0) (nonempty : 0 < len) (fail : fails (pos / size)) :
      Ends size ok fails pos len count r pos
  | atLater {r : Int} {pos' i : Nat} (neg : r < 0) (moved : pos < pos') (index : pos / size < i)
      (reach : Reaches size ok pos len i) (fail : fails i) :
      Ends size ok fails pos len count r pos'

variable {count r : Int} {pos' : Nat}

/-- A loop with nothing to do. -/
theorem Ends.nothing : Ends size ok fails pos 0 count count pos := by
  have h : Ends size ok fails pos 0 count (count + (0 : Nat)) (pos + 0) :=
    .counted (Nat.le_refl 0) (fun h => absurd h (by omega))
      (iff_of_true rfl fun i hi => absurd hi.1 (by omega)) fun i hi => absurd hi.visits.1 (by omega)
  rwa [Int.natCast_zero, Int.add_zero, Nat.add_zero] at h

/-- A loop that leaves at its first block, which does not fail. -/
theorem Ends.stop (hno : ¬ ok (pos / size)) (hfail : ¬ fails (pos / size)) :
    Ends size ok fails pos len count count pos := by
  have h : Ends size ok fails pos len count (count + (0 : Nat)) (pos + 0) := by
    refine .counted (Nat.zero_le _) (fun _ => ?_) ?_ fun i hi => ?_
    · exact iff_of_false (Nat.lt_irrefl 0) hno
    · constructor
      · intro hlen i hi
        exact absurd hi.1 (by omega)
      · intro hall
        by_contra hlen
        exact hno (hall _ (.first (by omega)))
    · rwa [hi.eq_first hno]
  rwa [Int.natCast_zero, Int.add_zero, Nat.add_zero] at h

/-- The rest of the loop, seen from its first block. -/
theorem Ends.next (hsize : 0 < size) (hlen : 0 < len) (hok : ok (pos / size))
    (hnot : ¬ fails (pos / size))
    (h : Ends size ok fails (pos + chunk size pos len) (len - chunk size pos len)
      (count + chunk size pos len) r pos') : Ends size ok fails pos len count r pos' := by
  have hpos := chunk_pos pos hsize hlen
  have hle : chunk size pos len ≤ len := chunk_le
  cases h with
  | @counted k hk _ hall hno =>
    have hsum : Ends size ok fails pos len count (count + (chunk size pos len + k : Nat))
        (pos + (chunk size pos len + k)) := by
      refine .counted (by omega) (fun _ => iff_of_true (by omega) hok) ?_ fun i hi => ?_
      · rw [show chunk size pos len + k = len ↔ k = len - chunk size pos len by omega, hall]
        constructor
        · intro hrest i hi
          rcases Nat.eq_or_lt_of_le hi.2.1 with rfl | hlt
          · exact hok
          · exact hrest i ((visits_next hsize).mpr ⟨hi, hlt⟩)
        · exact fun h i hi => h i ((visits_next hsize).mp hi).1
      · rcases Nat.eq_or_lt_of_le hi.visits.2.1 with rfl | hlt
        · exact hnot
        · exact hno i ((reaches_next _ _ hsize hok).mpr ⟨hi, hlt⟩)
    rwa [Int.natCast_add, ← Int.add_assoc, ← Nat.add_assoc] at hsum
  | atFirst hneg hrest hfail =>
    obtain ⟨hreach, hlt⟩ := (reaches_next _ _ hsize hok).mp (.first hrest)
    exact .atLater hneg (by omega) hlt hreach hfail
  | atLater hneg hmoved _ hi hfail =>
    obtain ⟨hreach, hlt⟩ := (reaches_next _ _ hsize hok).mp hi
    exact .atLater hneg (by omega) hlt hreach hfail

/-- A count that is no error is what the position moved by. -/
theorem Ends.moved (h : Ends size ok fails pos len 0 r pos') (hr : 0 ≤ r) :
    (pos' : Int) = pos + r := by
  cases h with
  | counted =>
    push_cast
    omega
  | atFirst hneg => omega
  | atLater hneg => omega

/-- A loop in which nothing fails counts. -/
theorem Ends.counted_of (h : Ends size ok fails pos len count r pos') (hno : ∀ i, ¬ fails i) :
    ∃ k : Nat, k ≤ len ∧ r = count + k ∧ pos' = pos + k ∧
      (k = len ↔ ∀ i, Visits size pos len i → ok i) := by
  cases h with
  | counted hle _ hall => exact ⟨_, hle, rfl, rfl, hall⟩
  | atFirst _ _ hfail => exact absurd hfail (hno _)
  | atLater _ _ _ _ hfail => exact absurd hfail (hno _)

/-- A loop with nothing to do has no error. -/
theorem Ends.nonneg_of_empty (h : Ends size ok fails pos 0 0 r pos') : 0 ≤ r := by
  cases h with
  | counted => omega
  | atFirst _ hlen => exact absurd hlen (Nat.lt_irrefl 0)
  | atLater _ _ _ hreach => exact absurd hreach.visits.1 (Nat.lt_irrefl 0)

/-- A count that is no error never shrinks. -/
theorem Ends.count_le (h : Ends size ok fails pos len count r pos') (hr : 0 ≤ r) : count ≤ r := by
  cases h with
  | counted => omega
  | atFirst hneg => omega
  | atLater hneg => omega

/-- The position never moves back. -/
theorem Ends.pos_le (h : Ends size ok fails pos len count r pos') : pos ≤ pos' := by
  cases h with
  | counted => omega
  | atFirst => omega
  | atLater _ hmoved => omega

/-- A loop over some bytes that starts at 0 counts some, or fails where it was, exactly
when its first block is `ok` or fails and no later block it comes to fails. -/
theorem Ends.clean_iff (h : Ends size ok fails pos len 0 r pos') (hlen : 0 < len)
    (hexcl : ∀ i, fails i → ¬ ok i) : ((r < 0 → pos' = pos) ∧ r ≠ 0) ↔
      (ok (pos / size) ∨ fails (pos / size)) ∧
        ∀ i, pos / size < i → Reaches size ok pos len i → ¬ fails i := by
  cases h with
  | @counted k _ hprogress _ hno =>
    have hfirst : ¬ fails (pos / size) := hno _ (.first hlen)
    constructor
    · rintro ⟨-, hr⟩
      exact ⟨.inl ((hprogress hlen).mp (by omega)), fun i _ hi => hno i hi⟩
    · rintro ⟨hok | hfail, -⟩
      · have hk := (hprogress hlen).mpr hok
        exact ⟨fun hneg => by omega, by omega⟩
      · exact absurd hfail hfirst
  | atFirst hneg _ hfail =>
    refine iff_of_true ⟨fun _ => rfl, by omega⟩ ⟨.inr hfail, fun i hi hreach => ?_⟩
    exact absurd (hreach.before _ (Nat.le_refl _) hi) (hexcl _ hfail)
  | @atLater r pos' i hneg hmoved hi hreach hfail =>
    refine iff_of_false (fun h => ?_) fun h => h.2 i hi hreach hfail
    have := h.1 hneg
    omega

end BlockLoop
