import Mathlib.Logic.Function.Basic

/-!
# Tables searched in order

A table has cells `0, 1, 2, …`, each empty or holding a key and a value. Its
first `m` cells stand for a map: a key leads to the value of the first cell that
holds it. Keys may repeat, so clearing a cell removes its key from the map only
when no other cell holds it.
-/

namespace Table

variable {κ ν : Type*} [DecidableEq κ] {f g : Nat → Option (κ × ν)} {m k : Nat} {key : κ} {v : ν}

/-- The value of a cell, if the cell holds the key. -/
def hit (key : κ) : Option (κ × ν) → Option ν
  | some (n, v) => if n = key then some v else none
  | none => none

/-- The value the first `m` cells give to the key. -/
def find (f : Nat → Option (κ × ν)) (m : Nat) (key : κ) : Option ν :=
  (List.range m).findSome? fun i => hit key (f i)

/-- At most one of the first `m` cells holds the key. -/
def Unique (f : Nat → Option (κ × ν)) (m : Nat) (key : κ) : Prop :=
  ∀ i j, i < m → j < m → hit key (f i) ≠ none → hit key (f j) ≠ none → i = j

@[simp] theorem hit_none : hit key (none : Option (κ × ν)) = none := rfl

@[simp] theorem hit_self : hit key (some (key, v)) = some v := if_pos rfl

theorem hit_ne {n : κ} (h : n ≠ key) : hit key (some (n, v)) = none := if_neg h

theorem hit_eq_some {c : Option (κ × ν)} : hit key c = some v ↔ c = some (key, v) := by
  constructor
  · intro h
    cases c with
    | none => cases h
    | some p =>
        obtain ⟨n, w⟩ := p
        by_cases hn : n = key
        · rw [hn, hit_self] at h
          rw [hn, Option.some.inj h]
        · rw [hit_ne hn] at h
          cases h
  · rintro rfl
    exact hit_self

theorem find_congr (h : ∀ i, i < m → hit key (f i) = hit key (g i)) :
    find f m key = find g m key := by
  unfold find
  induction m with
  | zero => rfl
  | succ m ih =>
      rw [List.range_succ, List.findSome?_append, List.findSome?_append,
        ih fun i hi => h i (by omega)]
      simp only [List.findSome?_cons, List.findSome?_nil, h m (Nat.lt_succ_self m)]

theorem find_eq_none : find f m key = none ↔ ∀ i, i < m → hit key (f i) = none := by
  unfold find
  rw [List.findSome?_eq_none_iff]
  simp only [List.mem_range]

/-- The first cell with the key gives its value. -/
theorem find_of_first (hk : k < m) (hv : hit key (f k) = some v)
    (hfirst : ∀ i, i < k → hit key (f i) = none) : find f m key = some v := by
  have hsplit : find f m key = (find f k key).or ((hit key (f k)).or
      ((List.range' (k + 1) (m - (k + 1))).findSome? fun i => hit key (f i))) := by
    unfold find
    rw [List.range_eq_range', List.range_eq_range',
      show m = k + ((m - (k + 1)) + 1) by omega, ← List.range'_append_1, List.findSome?_append,
      Nat.zero_add, List.range'_succ, List.findSome?_cons]
    rw [show k + (m - (k + 1) + 1) - (k + 1) = m - (k + 1) by omega]
    cases hit key (f k) <;> rfl
  rw [hsplit, find_eq_none.mpr hfirst, hv]
  rfl

/-- A key found stays found when more cells are searched. -/
theorem find_mono {m' : Nat} (hm : m ≤ m') (h : find f m key = some v) :
    find f m' key = some v := by
  unfold find at *
  rw [List.range_eq_range', show m' = m + (m' - m) by omega, ← List.range'_append_1,
    List.findSome?_append, ← List.range_eq_range', h]
  rfl

/-- Filling an empty cell gives the key its value and leaves the other keys. -/
theorem find_fill (hk : k < m) (hf : f k = none) (hg : g k = some (key, v))
    (hfg : ∀ i, i < m → i ≠ k → g i = f i) (habsent : find f m key = none) :
    find g m key = some v ∧ ∀ key', key' ≠ key → find g m key' = find f m key' := by
  constructor
  · refine find_of_first hk (by rw [hg, hit_self]) fun i hi => ?_
    rw [hfg i (by omega) (by omega)]
    exact find_eq_none.mp habsent i (by omega)
  · intro key' hne
    refine find_congr fun i hi => ?_
    by_cases hik : i = k
    · rw [hik, hf, hg, hit_none, hit_ne (Ne.symm hne)]
    · rw [hfg i hi hik]

/-- Clearing a cell leaves the keys it does not hold. -/
theorem find_clear_ne (hf : f k = some (key, v)) (hg : g k = none)
    (hfg : ∀ i, i < m → i ≠ k → g i = f i) {key' : κ} (hne : key' ≠ key) :
    find g m key' = find f m key' := by
  refine find_congr fun i hi => ?_
  by_cases hik : i = k
  · rw [hik, hf, hg, hit_none, hit_ne (Ne.symm hne)]
  · rw [hfg i hi hik]

/-- Clearing a cell removes its key exactly when no other cell holds it. -/
theorem find_clear_self (hk : k < m) (hf : f k = some (key, v)) (hg : g k = none)
    (hfg : ∀ i, i < m → i ≠ k → g i = f i) : find g m key = none ↔ Unique f m key := by
  have hhit : hit key (f k) ≠ none := by simp [hf]
  constructor
  · intro hnone i j hi hj hi' hj'
    have honly : ∀ l, l < m → hit key (f l) ≠ none → l = k := by
      intro l hl hl'
      by_contra hlk
      have := find_eq_none.mp hnone l hl
      rw [hfg l hl hlk] at this
      exact hl' this
    rw [honly i hi hi', honly j hj hj']
  · intro huniq
    refine find_eq_none.mpr fun i hi => ?_
    by_cases hik : i = k
    · rw [hik, hg, hit_none]
    · rw [hfg i hi hik]
      by_contra hi'
      exact hik (huniq i k hi hk hi' hhit)

end Table
