import Mathlib.Data.PNat.Defs
import NaiveFS.Final.Devices

/-!
# Listing a directory in several calls

`naive_readdir` resumes at `.` and `..` but walks the list from its first entry in every
call: the skip in the loop is for positions below 2, which no call has there.
-/

namespace NaiveFS.Final

/-- A buffer for `n` entries. -/
def capacity (n : ℕ+) : Actor := fun out _ => decide (out.length < n)

/-- `.` and `..`. -/
def dots (ino : Int) : List DirEntry := [⟨[0x2e], ino, true⟩, ⟨[0x2e, 0x2e], ino, true⟩]

/-- Everything the directory lists. -/
def allEntries (g : Globals) (ino : Int) : List DirEntry :=
  dots ino ++ g.fileList.map FileEntry.shown

/-- What `k` calls sharing one `ctx->pos` emit, and the position they leave; `caps i` is the
buffer of call `i`. -/
def enumerate (g : Globals) (ino : Int) (caps : Nat → ℕ+) : Nat → List DirEntry × Int
  | 0 => ([], 0)
  | k + 1 =>
    let before := enumerate g ino caps k
    let call := naiveReaddir (capacity (caps k)) ino before.2 g
    (before.1 ++ call.1, call.2)

/-- From some call on the entries emitted are those of the directory, each once and in order,
and nothing is emitted any more. -/
def EnumeratesOnce (g : Globals) (ino : Int) (caps : Nat → ℕ+) : Prop :=
  ∃ n, ∀ k, n ≤ k → (enumerate g ino caps k).1 = allEntries g ino

section Call

variable {g : Globals} {ino : Int} {n : ℕ+} {caps : Nat → ℕ+}

/-- From position 2 on the loop emits entries until the buffer is full. -/
theorem emitEntries_capacity (l : List FileEntry) {pos : Int} (h : 2 ≤ pos) (out : List DirEntry) :
    emitEntries (capacity n) l pos out =
      (out ++ (l.map FileEntry.shown).take (n - out.length),
        pos + ((l.map FileEntry.shown).take (n - out.length)).length) := by
  induction l generalizing pos out with
  | nil => simp [emitEntries]
  | cons e l ih =>
    rw [emitEntries, if_neg (by omega)]
    dsimp only
    by_cases hfull : out.length < n
    · obtain ⟨m, hm⟩ : ∃ m, (n : Nat) - out.length = m + 1 := ⟨n - out.length - 1, by omega⟩
      have hm' : (n : Nat) - (out ++ [e.shown]).length = m := by
        rw [List.length_append, List.length_singleton]
        omega
      have htake : capacity n out e.shown = true := decide_eq_true hfull
      rw [show (⟨e.text, e.inodeNo, e.isDir⟩ : DirEntry) = e.shown from rfl, htake,
        if_neg (by decide), ih (by omega), hm', hm]
      simp only [List.map_cons, List.take_succ_cons, List.append_assoc, List.singleton_append,
        List.length_cons]
      rw [Int.add_assoc, Int.add_comm 1, Int.natCast_succ]
    · have hstop : capacity n out e.shown = false := decide_eq_false hfull
      rw [show (⟨e.text, e.inodeNo, e.isDir⟩ : DirEntry) = e.shown from rfl, hstop,
        if_pos (by decide), show (n : Nat) - out.length = 0 by omega]
      simp

/-- What one call emits: the dots from its position on and the list from its start. -/
theorem naiveReaddir_capacity (n : ℕ+) (g : Globals) (ino : Int) (p : Nat) :
    naiveReaddir (capacity n) ino (p : Int) g =
      (((dots ino).drop p ++ g.fileList.map FileEntry.shown).take n,
        (p : Int) + (((dots ino).drop p ++ g.fileList.map FileEntry.shown).take n).length) := by
  have hpos : 0 < (n : Nat) := n.pos
  have hempty (d : DirEntry) : capacity n [] d = true := decide_eq_true hpos
  unfold naiveReaddir
  match p with
  | 0 =>
    rcases (by omega : (n : Nat) = 1 ∨ 1 < (n : Nat)) with hone | hmore
    · have hstop (d d' : DirEntry) : capacity n [d] d' = false := decide_eq_false (by simp [hone])
      simp [hempty, hstop, hone, dots]
    · have htake (d d' : DirEntry) : capacity n [d] d' = true :=
        decide_eq_true (by simpa using hmore)
      obtain ⟨m, hm⟩ : ∃ m, (n : Nat) = m + 2 := ⟨n - 2, by omega⟩
      simp [hempty, htake, emitEntries_capacity, hm, dots]
      omega
  | 1 =>
    obtain ⟨m, hm⟩ : ∃ m, (n : Nat) = m + 1 := ⟨n - 1, by omega⟩
    simp [hempty, emitEntries_capacity, hm, dots]
    omega
  | p + 2 =>
    have h0 : ¬ ((p + 2 : Nat) : Int) = 0 := by omega
    have h1 : ¬ ((p + 2 : Nat) : Int) = 1 := by omega
    have hdrop : (dots ino).drop (p + 2) = [] := List.drop_eq_nil_of_le (by simp [dots])
    simp only [h0, h1, decide_false, Bool.false_and, Bool.false_eq_true, if_false, hdrop,
      List.nil_append]
    rw [emitEntries_capacity g.fileList (by omega) []]
    simp

end Call

/-! ## Runs of calls -/

section Runs

variable (g : Globals) (ino : Int) (caps : Nat → ℕ+)

/-- What the next call emits, given how many entries were emitted before. -/
def nextEntries (emitted : Nat) (n : ℕ+) : List DirEntry :=
  ((dots ino).drop emitted ++ g.fileList.map FileEntry.shown).take n

/-- The position is the number of entries emitted so far. -/
theorem enumerate_pos (k : Nat) :
    (enumerate g ino caps k).2 = ((enumerate g ino caps k).1.length : Int) := by
  induction k with
  | zero => rfl
  | succ k ih =>
    rw [enumerate]
    dsimp only
    rw [ih, naiveReaddir_capacity, List.length_append, Int.natCast_add]

theorem enumerate_succ (k : Nat) : (enumerate g ino caps (k + 1)).1 =
    (enumerate g ino caps k).1 ++ nextEntries g ino (enumerate g ino caps k).1.length (caps k) := by
  rw [enumerate]
  dsimp only
  rw [enumerate_pos, naiveReaddir_capacity]
  rfl

/-- With a file in the list every call emits something. -/
theorem enumerate_length (hne : g.fileList ≠ []) (k : Nat) :
    k ≤ (enumerate g ino caps k).1.length := by
  induction k with
  | zero => exact Nat.zero_le _
  | succ k ih =>
    have hlist : 0 < g.fileList.length := List.length_pos_iff.mpr hne
    have hpos : 0 < (caps k : Nat) := (caps k).pos
    have hcall : 0 < (nextEntries g ino (enumerate g ino caps k).1.length (caps k)).length := by
      rw [nextEntries, List.length_take, List.length_append, List.length_map]
      omega
    rw [enumerate_succ, List.length_append]
    omega

/-- Without files the calls emit the dots one after the other. -/
theorem enumerate_dots (hempty : g.fileList = []) (k : Nat) :
    ∃ p, k ≤ p ∧ (enumerate g ino caps k).1 = (dots ino).take p := by
  induction k with
  | zero => exact ⟨0, Nat.le_refl 0, rfl⟩
  | succ k ih =>
    obtain ⟨p, hp, hk⟩ := ih
    have hpos : 0 < (caps k : Nat) := (caps k).pos
    have hrest : (dots ino).drop ((dots ino).take p).length = (dots ino).drop p := by
      rw [List.length_take]
      rcases Nat.le_total p (dots ino).length with hle | hge
      · rw [Nat.min_eq_left hle]
      · rw [Nat.min_eq_right hge, List.drop_length, List.drop_eq_nil_of_le hge]
    refine ⟨p + caps k, by omega, ?_⟩
    rw [enumerate_succ, hk, nextEntries, hrest, hempty, List.map_nil, List.append_nil,
      List.take_add]

/-- An enumeration is complete, without repetition and ends when there is no file. -/
theorem enumerates_once_iff : EnumeratesOnce g ino caps ↔ g.fileList = [] := by
  constructor
  · rintro ⟨n, hn⟩
    by_contra hne
    have hlong := enumerate_length g ino caps hne (max n ((allEntries g ino).length + 1))
    rw [hn _ (Nat.le_max_left _ _)] at hlong
    have := Nat.le_max_right n ((allEntries g ino).length + 1)
    omega
  · intro hempty
    refine ⟨2, fun k hk => ?_⟩
    obtain ⟨p, hp, htotal⟩ := enumerate_dots g ino caps hempty k
    have hlen : (dots ino).length ≤ p := Nat.le_trans hk hp
    rw [htotal, List.take_of_length_le hlen, allEntries, hempty, List.map_nil, List.append_nil]

end Runs

/-- One file, listed again by the second call. -/
theorem file_listed_again :
    ¬ ∀ (g : Globals) (ino : Int) (caps : Nat → ℕ+), EnumeratesOnce g ino caps := by
  intro hall
  obtain ⟨n, hn⟩ := hall ⟨[FileEntry.new naiveReadme 100 false], 101⟩ 1 fun _ => 4
  have hlong := enumerate_length ⟨[FileEntry.new naiveReadme 100 false], 101⟩ 1 (fun _ => 4)
    (List.cons_ne_nil _ _) (n + 4)
  rw [hn _ (Nat.le_add_right n 4)] at hlong
  have hlen : (allEntries ⟨[FileEntry.new naiveReadme 100 false], 101⟩ 1).length = 3 := rfl
  omega

end NaiveFS.Final
