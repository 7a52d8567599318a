import Mathlib.Data.Finset.Card
import Mathlib.Data.List.Nodup
import Mathlib.Logic.Function.Basic

/-!
# Slots filled on demand

Slots are empty or hold an item. A slot that is asked for when empty is given the first
of the free items, as long as there are some.
-/

namespace FirstFit

/-- The first number that passes a test, and the others. -/
theorem filter_range_cons {p : Nat → Bool} {b n : Nat} (hlt : b < n)
    (hbefore : ∀ k, k < b → p k = false) (hb : p b = true) :
    (List.range n).filter p = b :: (List.range n).filter fun k => p k && !decide (k = b) := by
  obtain ⟨m, rfl⟩ : ∃ m, n = b + (m + 1) := ⟨n - b - 1, by omega⟩
  have hsplit : List.range (b + (m + 1)) = List.range b ++ b :: List.range' (b + 1) m := by
    rw [List.range_add, ← List.range'_eq_map_range, List.range'_succ]
  have hfirst {q : Nat → Bool} (hq : ∀ k, k < b → q k = false) : (List.range b).filter q = [] := by
    rw [List.filter_eq_nil_iff]
    intro k hk
    simp [hq k (List.mem_range.mp hk)]
  rw [hsplit, List.filter_append, List.filter_append, hfirst hbefore,
    hfirst fun k hk => by simp [hbefore k hk], List.nil_append, List.nil_append,
    List.filter_cons_of_pos hb, List.filter_cons_of_neg (by simp)]
  congr 1
  apply List.filter_congr
  intro k hk
  have : b + 1 ≤ k := (List.mem_range'_1.mp hk).1
  simp [show k ≠ b by omega]

/-- Slots, 0 for an empty one, and the free items in the order in which they are given. -/
structure Plan where
  slots : Nat → Nat
  free : List Nat

/-- Ask for slot `i`. -/
def Plan.give (p : Plan) (i : Nat) : Plan :=
  if p.slots i ≠ 0 then p else
  match p.free with
  | [] => p
  | x :: l => ⟨Function.update p.slots i x, l⟩

/-- Ask for the `n` slots from `i` on. -/
def Plan.through (p : Plan) : Nat → Nat → Plan
  | _, 0 => p
  | i, n + 1 => (p.give i).through (i + 1) n

/-- What slot `j` holds once the slots from `i` to it were asked for. -/
def Plan.held (p : Plan) (i j : Nat) : Nat := ((p.through i (j - i)).give j).slots j

/-- Ask for the slots of a list. -/
def Plan.giveAll (p : Plan) (l : List Nat) : Plan := l.foldl Plan.give p

section Give

variable {p : Plan} {i j x : Nat} {l : List Nat}

theorem give_of_held (h : p.slots i ≠ 0) : p.give i = p := if_pos h

theorem give_of_none (h : p.slots i = 0) (hfree : p.free = []) : p.give i = p := by
  unfold Plan.give
  rw [if_neg (not_not.mpr h), hfree]

theorem give_of_free (h : p.slots i = 0) (hfree : p.free = x :: l) :
    p.give i = ⟨Function.update p.slots i x, l⟩ := by
  unfold Plan.give
  rw [if_neg (not_not.mpr h), hfree]

theorem slots_give_ne (h : j ≠ i) : (p.give i).slots j = p.slots j := by
  unfold Plan.give
  split
  · rfl
  · split
    · rfl
    · exact Function.update_of_ne h _ _

/-- What a slot holds it keeps. -/
theorem slots_give_keep (h : p.slots j ≠ 0) : (p.give i).slots j = p.slots j := by
  by_cases hji : j = i
  · rw [hji] at h ⊢
    rw [give_of_held h]
  · exact slots_give_ne hji

theorem held_first : p.held i i = (p.give i).slots i := by
  rw [Plan.held, Nat.sub_self]
  rfl

/-- Asking for the first slot beforehand makes no difference. -/
theorem held_next (h : i < j) : (p.give i).held (i + 1) j = p.held i j := by
  unfold Plan.held
  rw [show j - i = (j - (i + 1)) + 1 by omega]
  rfl

end Give

/-! ## Which slots hold what -/

/-- The free items are items and differ from each other and from what the slots hold, and
no item is held twice. -/
structure Plan.Sound (p : Plan) : Prop where
  nonzero : 0 ∉ p.free
  nodup : p.free.Nodup
  apart : ∀ i, p.slots i ∉ p.free
  inj : ∀ i j, p.slots i ≠ 0 → p.slots i = p.slots j → i = j

/-- The empty slots among `need` are no more than the free items. -/
structure Plan.Enough (p : Plan) (need : Finset Nat) : Prop where
  nonzero : 0 ∉ p.free
  card : (need.filter fun i => p.slots i = 0).card ≤ p.free.length

section Held

variable {p : Plan} {need : Finset Nat} {i j : Nat} {l : List Nat}

theorem free_give_subset : (p.give i).free ⊆ p.free := by
  intro x hx
  by_cases h : p.slots i = 0
  · cases hl : p.free with
    | nil => rwa [give_of_none h hl, hl] at hx
    | cons y l =>
      rw [give_of_free h hl] at hx
      exact List.mem_cons_of_mem _ hx
  · rwa [give_of_held h] at hx

theorem Plan.Sound.give (h : p.Sound) (i : Nat) : (p.give i).Sound := by
  by_cases h0 : p.slots i = 0
  · cases hl : p.free with
    | nil =>
      rw [give_of_none h0 hl]
      exact h
    | cons x l =>
      have hnodup := h.nodup
      have hzero := h.nonzero
      rw [hl, List.nodup_cons] at hnodup
      rw [hl, List.mem_cons, not_or] at hzero
      have hx : ∀ k, p.slots k ≠ x := fun k hk => h.apart k (by rw [hk, hl]; simp)
      rw [give_of_free h0 hl]
      refine ⟨hzero.2, hnodup.2, fun k => ?_, fun j k hj hjk => ?_⟩
      · by_cases hki : k = i
        · simpa [hki] using hnodup.1
        · have hk := h.apart k
          rw [hl, List.mem_cons, not_or] at hk
          simpa [hki] using hk.2
      · by_cases hji : j = i <;> by_cases hki : k = i
        · rw [hji, hki]
        · simp only [hji, Function.update_self, Function.update_of_ne hki] at hjk
          exact absurd hjk.symm (hx k)
        · simp only [hki, Function.update_self, Function.update_of_ne hji] at hjk
          exact absurd hjk (hx j)
        · simp only [Function.update_of_ne hji, Function.update_of_ne hki] at hj hjk
          exact h.inj j k hj hjk
  · rw [give_of_held h0]
    exact h

/-- Among the needed slots, one that was asked for holds an item. -/
theorem Plan.Enough.held (h : p.Enough need) (hi : i ∈ need) : (p.give i).slots i ≠ 0 := by
  by_cases h0 : p.slots i = 0
  · have hpos : 0 < (need.filter fun i => p.slots i = 0).card :=
      Finset.card_pos.mpr ⟨i, Finset.mem_filter.mpr ⟨hi, h0⟩⟩
    have hcard := h.card
    cases hl : p.free with
    | nil =>
      rw [hl, List.length_nil] at hcard
      omega
    | cons x l =>
      have hzero := h.nonzero
      rw [hl, List.mem_cons, not_or] at hzero
      rw [give_of_free h0 hl]
      simpa using Ne.symm hzero.1
  · rwa [give_of_held h0]

theorem Plan.Enough.give (h : p.Enough need) (hi : i ∈ need) : (p.give i).Enough need := by
  refine ⟨fun h0 => h.nonzero (free_give_subset h0), ?_⟩
  by_cases h0 : p.slots i = 0
  · have hcard := h.card
    have hgiven := h.held hi
    cases hl : p.free with
    | nil =>
      rw [give_of_none h0 hl] at hgiven
      exact absurd h0 hgiven
    | cons x l =>
      -- slot `i` is no longer among the empty ones
      have hfilter : need.filter (fun k => (p.give i).slots k = 0) =
          (need.filter fun k => p.slots k = 0).erase i := by
        ext k
        by_cases hki : k = i
        · simp [hki, hgiven]
        · simp [hki, slots_give_ne hki]
      rw [hfilter, Finset.card_erase_of_mem (Finset.mem_filter.mpr ⟨hi, h0⟩),
        give_of_free h0 hl]
      rw [hl, List.length_cons] at hcard
      exact Nat.sub_le_of_le_add hcard
  · rw [give_of_held h0]
    exact h.card

/-- So does each slot of a range of needed ones, when the loop comes to it. -/
theorem Plan.Enough.held_range (h : p.Enough need) (hij : i ≤ j)
    (hneed : ∀ k, i ≤ k → k ≤ j → k ∈ need) : p.held i j ≠ 0 := by
  obtain ⟨n, rfl⟩ := Nat.exists_eq_add_of_le hij
  induction n generalizing p i with
  | zero =>
    rw [Nat.add_zero, held_first]
    exact h.held (hneed i (Nat.le_refl _) hij)
  | succ n ih =>
    have hsum : i + (n + 1) = i + 1 + n := by omega
    rw [← held_next (by omega), hsum]
    exact ih (h.give (hneed i (Nat.le_refl _) hij)) (by omega)
      fun k hk hkj => hneed k (by omega) (by omega)

theorem giveAll_concat : p.giveAll (l ++ [i]) = (p.giveAll l).give i := by
  unfold Plan.giveAll
  rw [List.foldl_concat]

theorem Plan.Sound.giveAll (h : p.Sound) (l : List Nat) : (p.giveAll l).Sound := by
  induction l generalizing p with
  | nil => exact h
  | cons i l ih => exact ih (h.give i)

theorem Plan.Enough.giveAll (h : p.Enough need) (hl : ∀ i, i ∈ l → i ∈ need) :
    (p.giveAll l).Enough need := by
  induction l generalizing p with
  | nil => exact h
  | cons i l ih => exact ih (h.give (hl i (by simp))) fun k hk => hl k (by simp [hk])

theorem slots_giveAll_keep (h : p.slots j ≠ 0) : (p.giveAll l).slots j = p.slots j := by
  induction l generalizing p with
  | nil => rfl
  | cons i l ih =>
    have hkeep : (p.give i).slots j = p.slots j := slots_give_keep h
    exact (ih (hkeep ▸ h)).trans hkeep

/-- Where there are enough items, exactly the slots that were asked for are filled. -/
theorem slots_giveAll_iff (h : p.Enough need) (hl : ∀ i, i ∈ l → i ∈ need)
    (hempty : p.slots j = 0) : (p.giveAll l).slots j ≠ 0 ↔ j ∈ l := by
  induction l generalizing p with
  | nil => simp [Plan.giveAll, hempty]
  | cons i l ih =>
    have hrest : p.giveAll (i :: l) = (p.give i).giveAll l := rfl
    have hi := hl i (by simp)
    rw [hrest, List.mem_cons]
    by_cases hji : j = i
    · subst hji
      have hgiven := h.held hi
      rw [slots_giveAll_keep hgiven]
      simp [hgiven]
    · rw [ih (h.give hi) (fun k hk => hl k (by simp [hk])) (by rw [slots_give_ne hji, hempty])]
      simp [hji]

end Held

end FirstFit
