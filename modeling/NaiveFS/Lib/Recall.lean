import Mathlib.Tactic.Common

/-!
# What is known of a row of cells

The value last written to each cell, where one is known. A write that ends early, or that fails
on the way, says less about the cells than one that is done; what is known can be given up, but
what is left must be what the cells hold.
-/

/-- The value each cell is known to hold. -/
abbrev Recall (α : Type*) := Nat → Option α

namespace Recall

variable {α : Type*} {f : Recall α} {c c' c'' : Nat → Option α} {pos n k q : Nat} {xs : List α}

/-- Nothing is known. -/
def blank : Recall α := fun _ => none

/-- `xs` was written from cell `pos` on. -/
def write (f : Recall α) (pos : Nat) (xs : List α) : Recall α := fun q =>
  if pos ≤ q ∧ q < pos + xs.length then xs[q - pos]? else f q

/-- The `n` cells from `pos` on may hold anything. -/
def forget (f : Recall α) (pos n : Nat) : Recall α := fun q =>
  if pos ≤ q ∧ q < pos + n then none else f q

/-- The cells from `n` on may hold anything. -/
def cut (f : Recall α) (n : Nat) : Recall α := fun q => if q < n then f q else none

/-- The cells hold what is known. -/
def HeldBy (f : Recall α) (c : Nat → Option α) : Prop := ∀ q a, f q = some a → c q = some a

/-- Outside the `n` cells from `pos` on, `c'` holds what `c` holds. -/
def KeptOutside (pos n : Nat) (c c' : Nat → Option α) : Prop :=
  ∀ q a, q < pos ∨ pos + n ≤ q → c q = some a → c' q = some a

theorem KeptOutside.refl (pos n : Nat) (c : Nat → Option α) : KeptOutside pos n c c :=
  fun _ _ _ h => h

theorem KeptOutside.mono (h : KeptOutside pos k c c') (hk : k ≤ n) : KeptOutside pos n c c' :=
  fun q a hq => h q a (by omega)

theorem KeptOutside.trans (h : KeptOutside pos n c c') (h' : KeptOutside pos n c' c'') :
    KeptOutside pos n c c'' :=
  fun q a hq ha => h' q a hq (h q a hq ha)

/-- Two adjoining ranges, one after the other. -/
theorem KeptOutside.append (h : KeptOutside pos k c c') (h' : KeptOutside (pos + k) n c' c'') :
    KeptOutside pos (k + n) c c'' :=
  fun q a hq ha => h' q a (by omega) (h q a (by omega) ha)

theorem heldBy_blank : (blank : Recall α).HeldBy c := by
  intro q a h
  cases h

theorem HeldBy.mono (h : f.HeldBy c) (hc : ∀ q a, c q = some a → c' q = some a) : f.HeldBy c' :=
  fun q a ha => hc q a (h q a ha)

theorem HeldBy.write (h : f.HeldBy c) (hout : KeptOutside pos xs.length c c')
    (hin : ∀ j, j < xs.length → c' (pos + j) = xs[j]?) : (f.write pos xs).HeldBy c' := by
  intro q a ha
  unfold Recall.write at ha
  split at ha
  · rename_i hq
    have hcell := hin (q - pos) (by omega)
    rw [Nat.add_sub_cancel' hq.1] at hcell
    exact hcell.trans ha
  · exact hout q a (by omega) (h q a ha)

theorem HeldBy.forget (h : f.HeldBy c) (hout : KeptOutside pos n c c') :
    (f.forget pos n).HeldBy c' := by
  intro q a ha
  unfold Recall.forget at ha
  split at ha
  · cases ha
  · exact hout q a (by omega) (h q a ha)

theorem cut_eq_some {a : α} : f.cut n q = some a ↔ q < n ∧ f q = some a :=
  Option.ite_none_right_eq_some

/-- Where there may be nothing to cut off. -/
theorem elim_cut_eq_some {a : α} {l : Option Nat} :
    l.elim f f.cut q = some a ↔ f q = some a ∧ ∀ n, l = some n → q < n := by
  cases l with
  | none => simp
  | some n => simp [cut_eq_some, and_comm]

/-! ## Writes that may end early -/

/-- A write of `xs` that had counted `count` cells before and returned `r`: a count says how many
cells of `xs` were stored, and that nothing else was; of a failure it is known where it could
store. -/
structure Wrote (pos : Nat) (xs : List α) (count r : Int) (c c' : Nat → Option α) : Prop where
  kept : KeptOutside pos xs.length c c'
  stored : 0 ≤ r → ∃ k, k ≤ xs.length ∧ r = count + (k : Nat) ∧ KeptOutside pos k c c' ∧
    ∀ j, j < k → c' (pos + j) = xs[j]?

variable {count r : Int}

/-- The write ends before anything of it is stored. -/
theorem Wrote.nothing (h : KeptOutside pos 0 c c') : Wrote pos xs count count c c' :=
  ⟨h.mono (Nat.zero_le _), fun _ => ⟨0, Nat.zero_le _, by omega, h, fun j hj => by omega⟩⟩

theorem Wrote.failed (hr : r < 0) (h : KeptOutside pos n c c') (hn : n ≤ xs.length) :
    Wrote pos xs count r c c' :=
  ⟨h.mono hn, fun hr' => absurd hr' (by omega)⟩

/-- A first part is stored, then the write goes on. -/
theorem Wrote.next (hn : n ≤ xs.length) (hout : KeptOutside pos n c c')
    (hin : ∀ j, j < n → c' (pos + j) = xs[j]?)
    (h : Wrote (pos + n) (xs.drop n) (count + n) r c' c'') : Wrote pos xs count r c c'' := by
  obtain ⟨hkept, hstored⟩ := h
  rw [List.length_drop] at hkept hstored
  refine ⟨(hout.append hkept).mono (by omega), fun hr => ?_⟩
  obtain ⟨k, hk, hcount, hout', hin'⟩ := hstored hr
  refine ⟨n + k, by omega, by omega, hout.append hout', fun j hj => ?_⟩
  by_cases hjn : j < n
  · have hcell := hin j hjn
    rw [List.getElem?_eq_getElem (by omega)] at hcell ⊢
    exact hout' _ _ (by omega) hcell
  · have hcell := hin' (j - n) (by omega)
    rw [List.getElem?_drop] at hcell
    rwa [show pos + j = pos + n + (j - n) by omega, show j = n + (j - n) by omega,
      Nat.add_sub_cancel_left]

/-- What is known after a write. -/
theorem HeldBy.wrote (h : f.HeldBy c) (hw : Wrote pos xs 0 r c c') :
    (if 0 ≤ r then f.write pos (xs.take r.toNat) else f.forget pos xs.length).HeldBy c' := by
  by_cases hr : 0 ≤ r
  · obtain ⟨k, hk, hcount, hout, hin⟩ := hw.stored hr
    obtain rfl : k = r.toNat := by omega
    have hlen : (xs.take r.toNat).length = r.toNat := List.length_take_of_le hk
    rw [if_pos hr]
    refine h.write (hlen.symm ▸ hout) fun j hj => ?_
    rw [hlen] at hj
    rw [hin j hj, List.getElem?_take_of_lt hj]
  · rw [if_neg hr]
    exact h.forget hw.kept

end Recall
