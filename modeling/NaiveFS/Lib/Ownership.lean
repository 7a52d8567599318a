import Mathlib.Logic.ExistsUnique

/-!
# Ownership of marked cells

Owners `κ` hold cells `β`, and a set of cells is marked as used. `Exclusive`:
what is held is used, and no cell is held twice. `Exact`: besides, the used
cells are the reserved ones and the held ones, with nothing lost.

Each rule takes what a step does to the owners and to the marks, in the form a
program's own definitions give it.
-/

namespace Ownership

variable {κ β : Type*} {own own' : κ → Option β} {used used' base : β → Prop} {k : κ} {b : β}

/-- Nothing is held twice, and what is held is marked. -/
structure Exclusive (own : κ → Option β) (used : β → Prop) : Prop where
  marked : ∀ k b, own k = some b → used b
  inj : ∀ k l b, own k = some b → own l = some b → k = l

/-- The marked cells are the reserved ones, which nobody holds, and the held ones. -/
structure Exact (own : κ → Option β) (used base : β → Prop) : Prop extends
    Exclusive own used where
  reserved : ∀ b, base b → used b
  fresh : ∀ k b, own k = some b → ¬ base b
  accounted : ∀ b, used b → base b ∨ ∃ k, own k = some b

/-- Owners may give up cells, as long as the marks cover what is still held. -/
theorem Exclusive.shrink (h : Exclusive own used)
    (hsub : ∀ k b, own' k = some b → own k = some b ∧ used' b) : Exclusive own' used' where
  marked k b hk := (hsub k b hk).2
  inj k l b hk hl := h.inj k l b (hsub k b hk).1 (hsub l b hl).1

/-- An owner may take a cell that was not marked. -/
theorem Exclusive.grant (h : Exclusive own used) (hb : ¬ used b)
    (hown : ∀ l c, own' l = some c → used' c ∧ (own l = some c ∨ (l = k ∧ c = b))) :
    Exclusive own' used' where
  marked l c hl := (hown l c hl).1
  inj l m c hl hm := by
    rcases (hown l c hl).2 with hl' | ⟨rfl, rfl⟩
    · rcases (hown m c hm).2 with hm' | ⟨rfl, rfl⟩
      · exact h.inj l m c hl' hm'
      · exact absurd (h.marked l c hl') hb
    · rcases (hown m c hm).2 with hm' | ⟨rfl, _⟩
      · exact absurd (h.marked m c hm') hb
      · rfl

theorem Exact.grant (h : Exact own used base) (hb : ¬ used b)
    (hown : ∀ l c, own' l = some c ↔ own l = some c ∨ (l = k ∧ c = b))
    (hused : ∀ c, used' c ↔ used c ∨ c = b) : Exact own' used' base where
  toExclusive := h.toExclusive.grant hb fun l c hl => by
    refine ⟨?_, (hown l c).mp hl⟩
    rcases (hown l c).mp hl with hl' | ⟨_, rfl⟩
    · exact (hused c).mpr (.inl (h.marked l c hl'))
    · exact (hused c).mpr (.inr rfl)
  reserved c hc := (hused c).mpr (.inl (h.reserved c hc))
  fresh l c hl hc := by
    rcases (hown l c).mp hl with hl' | ⟨_, rfl⟩
    · exact h.fresh l c hl' hc
    · exact hb (h.reserved c hc)
  accounted c hc := by
    rcases (hused c).mp hc with hc' | rfl
    · rcases h.accounted c hc' with hbase | ⟨l, hl⟩
      · exact .inl hbase
      · exact .inr ⟨l, (hown l c).mpr (.inl hl)⟩
    · exact .inr ⟨k, (hown k c).mpr (.inr ⟨rfl, rfl⟩)⟩

/-- The owners in `K` give up what they hold, and the marks of it are cleared. -/
theorem Exact.release (h : Exact own used base) (K : κ → Prop)
    (hown : ∀ l c, own' l = some c ↔ own l = some c ∧ ¬ K l)
    (hused : ∀ c, used' c ↔ used c ∧ ∀ k, K k → own k ≠ some c) : Exact own' used' base where
  toExclusive := h.toExclusive.shrink fun l c hl => by
    obtain ⟨hl', hK⟩ := (hown l c).mp hl
    refine ⟨hl', (hused c).mpr ⟨h.marked l c hl', fun k hk hkc => hK ?_⟩⟩
    rw [h.inj l k c hl' hkc]
    exact hk
  reserved c hc := (hused c).mpr ⟨h.reserved c hc, fun k _ hk => h.fresh k c hk hc⟩
  fresh l c hl := h.fresh l c ((hown l c).mp hl).1
  accounted c hc := by
    obtain ⟨hc', hK⟩ := (hused c).mp hc
    rcases h.accounted c hc' with hbase | ⟨l, hl⟩
    · exact .inl hbase
    · exact .inr ⟨l, (hown l c).mpr ⟨hl, fun hKl => hK l hKl hl⟩⟩

/-- The same owners and marks, given another way. -/
theorem Exact.congr (h : Exact own used base) (hown : ∀ l, own' l = own l)
    (hused : ∀ c, used' c ↔ used c) : Exact own' used' base :=
  h.release (fun _ => False) (fun l c => by rw [hown l]; exact (and_iff_left id).symm)
    fun c => (hused c).trans (and_iff_left fun _ hk => hk.elim).symm

/-- A cell is marked exactly when it is reserved or has exactly one owner. -/
theorem Exact.used_iff (h : Exact own used base) (b : β) :
    used b ↔ base b ∨ ∃! k, own k = some b := by
  constructor
  · intro hb
    rcases h.accounted b hb with hbase | ⟨k, hk⟩
    · exact .inl hbase
    · exact .inr ⟨k, hk, fun l hl => h.inj l k b hl hk⟩
  · rintro (hbase | ⟨k, hk, _⟩)
    · exact h.reserved b hbase
    · exact h.marked k b hk

end Ownership
