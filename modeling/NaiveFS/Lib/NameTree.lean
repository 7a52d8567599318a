import NaiveFS.Lib.Ownership

/-!
# Named nodes

A file system as the names see it: nodes at addresses `α` carry numbers `μ`, a
directory's cells hold entries that pair a name `ν` with a number, a cache leads
from a directory and a name to a node, and a set of numbers is marked as in use.

`NameTree.Ok`: the numbers marked are those of the nodes, each of one node; every
number but the root's stands in exactly one entry; the entries of a directory
have different names; and the cache agrees with the entries. Adding a node with
an entry and removing one with its entry keep this.
-/

open Ownership

/-- Nodes, entries, cache and marks. -/
structure NameTree (α ν μ : Type*) where
  number : α → Option μ
  entry : α × Nat → Option (ν × μ)
  dentry : α → ν → α → Prop
  marked : μ → Prop

namespace NameTree

variable {α ν μ : Type*} {T T' : NameTree α ν μ} {root v w : μ} {a b : α} {n : ν} {c k : Nat}

/-- The number in a cell. -/
def target (T : NameTree α ν μ) (p : α × Nat) : Option μ := (T.entry p).map Prod.snd

theorem target_eq_some {p : α × Nat} : T.target p = some v ↔ ∃ m, T.entry p = some (m, v) := by
  unfold target
  rw [Option.map_eq_some_iff]
  constructor
  · rintro ⟨⟨m, w⟩, hentry, rfl⟩
    exact ⟨m, hentry⟩
  · rintro ⟨m, hentry⟩
    exact ⟨(m, v), hentry, rfl⟩

structure Ok (T : NameTree α ν μ) (root : μ) : Prop where
  numbers : Exact T.number T.marked fun _ => False
  named : Exact T.target T.marked (· = root)
  unique : ∀ a k l n v w, T.entry (a, k) = some (n, v) → T.entry (a, l) = some (n, w) → k = l
  reached : ∀ a n b, T.dentry a n b → ∃ k v, T.entry (a, k) = some (n, v) ∧ T.number b = some v

/-- Node `b` is added with number `v`, and an entry for it under `n` in cell `c` of `a`. -/
structure Added (T T' : NameTree α ν μ) (a : α) (c : Nat) (n : ν) (b : α) (v : μ) : Prop where
  unmarked : ¬ T.marked v
  unborn : T.number b = none
  empty : T.entry (a, c) = none
  absent : ∀ k w, T.entry (a, k) ≠ some (n, w)
  number_self : T'.number b = some v
  number_ne : ∀ x, x ≠ b → T'.number x = T.number x
  entry_self : T'.entry (a, c) = some (n, v)
  entry_ne : ∀ p, p ≠ (a, c) → T'.entry p = T.entry p
  dentry : ∀ x m y, T'.dentry x m y → (x = a ∧ m = n ∧ y = b) ∨ T.dentry x m y
  marked : ∀ w, T'.marked w ↔ T.marked w ∨ w = v

/-- Node `b` is removed with its number `v` and its entry in cell `c` of `a`. -/
structure Removed (T T' : NameTree α ν μ) (a : α) (c : Nat) (n : ν) (b : α) (v : μ) : Prop where
  number_old : T.number b = some v
  entry_old : T.entry (a, c) = some (n, v)
  number_self : T'.number b = none
  number_ne : ∀ x, x ≠ b → T'.number x = T.number x
  entry_self : T'.entry (a, c) = none
  entry_ne : ∀ p, p ≠ (a, c) → T'.entry p = T.entry p
  dentry : ∀ x m y, T'.dentry x m y → T.dentry x m y ∧ ¬ (x = a ∧ m = n)
  marked : ∀ w, T'.marked w ↔ T.marked w ∧ w ≠ v

/-- Nothing a name can see changes. -/
structure Same (T T' : NameTree α ν μ) : Prop where
  number : ∀ x, T'.number x = T.number x
  entry : ∀ p, T'.entry p = T.entry p
  dentry : ∀ x m y, T'.dentry x m y → T.dentry x m y
  marked : ∀ w, T'.marked w ↔ T.marked w

theorem Ok.same (h : T.Ok root) (hs : T.Same T') : T'.Ok root where
  numbers := h.numbers.congr hs.number hs.marked
  named := h.named.congr (fun p => by unfold target; rw [hs.entry p]) hs.marked
  unique a k l n v w hk hl := by
    rw [hs.entry] at hk hl
    exact h.unique a k l n v w hk hl
  reached a n b hd := by
    rw [hs.number b]
    obtain ⟨k, v, hentry, hnumber⟩ := h.reached a n b (hs.dentry a n b hd)
    exact ⟨k, v, (hs.entry _).trans hentry, hnumber⟩

theorem Added.number_iff (h : T.Added T' a c n b v) (x : α) :
    T'.number x = some w ↔ T.number x = some w ∨ (x = b ∧ w = v) := by
  by_cases hx : x = b
  · subst hx
    rw [h.number_self, h.unborn]
    constructor
    · intro heq
      exact .inr ⟨rfl, (Option.some.inj heq).symm⟩
    · rintro (heq | ⟨_, rfl⟩)
      · cases heq
      · rfl
  · rw [h.number_ne x hx]
    exact ⟨fun hw => .inl hw, fun hw => hw.resolve_right fun heq => hx heq.1⟩

theorem Added.target_iff (h : T.Added T' a c n b v) (p : α × Nat) :
    T'.target p = some w ↔ T.target p = some w ∨ (p = (a, c) ∧ w = v) := by
  unfold target
  by_cases hp : p = (a, c)
  · subst hp
    rw [h.entry_self, h.empty]
    constructor
    · intro heq
      exact .inr ⟨rfl, (Option.some.inj heq).symm⟩
    · rintro (heq | ⟨_, rfl⟩)
      · cases heq
      · rfl
  · rw [h.entry_ne p hp]
    exact ⟨fun hw => .inl hw, fun hw => hw.resolve_right fun heq => hp heq.1⟩

/-- The new entry's name is new in its directory. -/
theorem Added.unique (hadd : T.Added T' a c n b v)
    (h : ∀ a k l n v w, T.entry (a, k) = some (n, v) → T.entry (a, l) = some (n, w) → k = l)
    (x : α) (k l : Nat) (m : ν) (w w' : μ) (hk : T'.entry (x, k) = some (m, w))
    (hl : T'.entry (x, l) = some (m, w')) : k = l := by
  -- the new entry's name stands in no other cell of its directory
  have hother : ∀ k w, k ≠ c → T'.entry (a, k) ≠ some (n, w) := by
    intro k w hkc hentry
    have hne : (a, k) ≠ (a, c) := fun heq => hkc (congrArg Prod.snd heq)
    rw [hadd.entry_ne _ hne] at hentry
    exact hadd.absent k w hentry
  by_cases hkc : (x, k) = (a, c)
  · obtain ⟨rfl, rfl⟩ := Prod.mk.inj hkc
    rw [hadd.entry_self] at hk
    cases hk
    exact Decidable.byContradiction fun hne => hother l w' (Ne.symm hne) hl
  · by_cases hlc : (x, l) = (a, c)
    · obtain ⟨rfl, rfl⟩ := Prod.mk.inj hlc
      rw [hadd.entry_self] at hl
      cases hl
      exact absurd hk (hother k w fun heq => hkc (by rw [heq]))
    · rw [hadd.entry_ne _ hkc] at hk
      rw [hadd.entry_ne _ hlc] at hl
      exact h x k l m w w' hk hl

/-- The cache still agrees with the entries. -/
theorem Added.reached (hadd : T.Added T' a c n b v)
    (h : ∀ a n b, T.dentry a n b → ∃ k v, T.entry (a, k) = some (n, v) ∧ T.number b = some v)
    (x : α) (m : ν) (y : α) (hd : T'.dentry x m y) :
    ∃ k v, T'.entry (x, k) = some (m, v) ∧ T'.number y = some v := by
  rcases hadd.dentry x m y hd with ⟨rfl, rfl, rfl⟩ | hold
  · exact ⟨c, v, hadd.entry_self, hadd.number_self⟩
  · obtain ⟨k, w, hentry, hnumber⟩ := h x m y hold
    refine ⟨k, w, ?_, ?_⟩
    · rw [hadd.entry_ne, hentry]
      rintro heq
      rw [heq, hadd.empty] at hentry
      cases hentry
    · rw [hadd.number_ne, hnumber]
      rintro rfl
      rw [hadd.unborn] at hnumber
      cases hnumber

/-- Adding a node with an entry keeps the tree in order. -/
theorem Ok.added (h : T.Ok root) (hadd : T.Added T' a c n b v) : T'.Ok root where
  numbers := h.numbers.grant hadd.unmarked (fun x _ => hadd.number_iff x) hadd.marked
  named := h.named.grant hadd.unmarked (fun p _ => hadd.target_iff p) hadd.marked
  unique := hadd.unique h.unique
  reached := hadd.reached h.reached

/-- The number an entry leads to is its node's and no other's. -/
theorem Ok.entry_inj (h : T.Ok root) {p q : α × Nat} {m m' : ν} (hp : T.entry p = some (m, v))
    (hq : T.entry q = some (m', v)) : p = q :=
  h.named.inj p q v (target_eq_some.mpr ⟨m, hp⟩) (target_eq_some.mpr ⟨m', hq⟩)

theorem Removed.target_iff (hrem : T.Removed T' a c n b v) (p : α × Nat) :
    T'.target p = some w ↔ T.target p = some w ∧ ¬ p = (a, c) := by
  unfold target
  by_cases hp : p = (a, c)
  · subst hp
    rw [hrem.entry_self]
    simp
  · rw [hrem.entry_ne p hp]
    exact ⟨fun hw => ⟨hw, hp⟩, fun hw => hw.1⟩

theorem Removed.unique (hrem : T.Removed T' a c n b v)
    (h : ∀ a k l n v w, T.entry (a, k) = some (n, v) → T.entry (a, l) = some (n, w) → k = l)
    (x : α) (k l : Nat) (m : ν) (w w' : μ) (hk : T'.entry (x, k) = some (m, w))
    (hl : T'.entry (x, l) = some (m, w')) : k = l := by
  have hkeep : ∀ p y, T'.entry p = some y → T.entry p = some y := by
    intro p y hp
    by_cases hpc : p = (a, c)
    · rw [hpc, hrem.entry_self] at hp
      cases hp
    · rwa [hrem.entry_ne p hpc] at hp
  exact h x k l m w w' (hkeep _ _ hk) (hkeep _ _ hl)

/-- The cache leads to the entries that are left. -/
theorem Removed.reached (hrem : T.Removed T' a c n b v)
    (hinj : ∀ (p q : α × Nat) (m m' : ν), T.entry p = some (m, v) → T.entry q = some (m', v) →
      p = q)
    (h : ∀ a n b, T.dentry a n b → ∃ k v, T.entry (a, k) = some (n, v) ∧ T.number b = some v)
    (x : α) (m : ν) (y : α) (hd : T'.dentry x m y) :
    ∃ k v, T'.entry (x, k) = some (m, v) ∧ T'.number y = some v := by
  obtain ⟨hold, hne⟩ := hrem.dentry x m y hd
  obtain ⟨k, w, hentry, hnumber⟩ := h x m y hold
  have hcell : (x, k) ≠ (a, c) := by
    intro heq
    obtain ⟨rfl, rfl⟩ := Prod.mk.inj heq
    rw [hrem.entry_old] at hentry
    cases hentry
    exact hne ⟨rfl, rfl⟩
  refine ⟨k, w, (hrem.entry_ne _ hcell).trans hentry, ?_⟩
  rw [hrem.number_ne, hnumber]
  rintro rfl
  -- another entry for the node removed
  rw [hrem.number_old] at hnumber
  cases hnumber
  exact hcell (hinj _ _ _ _ hentry hrem.entry_old)

/-- Removing a node with its entry keeps the tree in order. -/
theorem Ok.removed (h : T.Ok root) (hrem : T.Removed T' a c n b v) : T'.Ok root where
  numbers := by
    refine h.numbers.release (· = b) (fun x w => ?_) fun w => ?_
    · by_cases hx : x = b
      · subst hx
        rw [hrem.number_self]
        simp
      · rw [hrem.number_ne x hx]
        exact ⟨fun hw => ⟨hw, hx⟩, fun hw => hw.1⟩
    · refine (hrem.marked w).trans (and_congr_right fun _ => ?_)
      constructor
      · rintro hne x rfl heq
        rw [hrem.number_old] at heq
        exact hne (Option.some.inj heq).symm
      · rintro hall rfl
        exact hall b rfl hrem.number_old
  named := by
    have hold : T.target (a, c) = some v := target_eq_some.mpr ⟨n, hrem.entry_old⟩
    refine h.named.release (· = (a, c)) (fun p w => hrem.target_iff p) fun w => ?_
    refine (hrem.marked w).trans (and_congr_right fun _ => ?_)
    constructor
    · rintro hne p rfl heq
      rw [hold] at heq
      exact hne (Option.some.inj heq).symm
    · rintro hall rfl
      exact hall _ rfl hold
  unique := hrem.unique h.unique
  reached := hrem.reached (fun _ _ _ _ => h.entry_inj) h.reached

/-- Every node but the root is named by exactly one entry. -/
theorem Ok.named_once (h : T.Ok root) (hb : T.number b = some v) (hne : v ≠ root) :
    ∃! p, T.target p = some v :=
  ((h.named.used_iff v).mp (h.numbers.marked b v hb)).resolve_left hne

/-- Every entry names a node. -/
theorem Ok.node_of_entry (h : T.Ok root) {p : α × Nat} (hp : T.target p = some v) :
    ∃ b, T.number b = some v :=
  (h.numbers.accounted v (h.named.marked p v hp)).resolve_left id

/-! ## Where marks may be left over -/

/-- A number of some node. -/
def used (T : NameTree α ν μ) (v : μ) : Prop := ∃ b, T.number b = some v

/-- What is left of `Ok` where numbers may be marked that no node has. -/
structure Coherent (T : NameTree α ν μ) (root : μ) : Prop where
  numbers : Exclusive T.number T.marked
  named : Exact T.target T.used (· = root)
  unique : ∀ a k l n v w, T.entry (a, k) = some (n, v) → T.entry (a, l) = some (n, w) → k = l
  reached : ∀ a n b, T.dentry a n b → ∃ k v, T.entry (a, k) = some (n, v) ∧ T.number b = some v

theorem Ok.coherent (h : T.Ok root) : T.Coherent root where
  numbers := h.numbers.toExclusive
  named := by
    have hused : ∀ v, T.used v ↔ T.marked v := fun v =>
      ⟨fun ⟨b, hb⟩ => h.numbers.marked b v hb, fun hv => (h.numbers.accounted v hv).resolve_left id⟩
    exact h.named.congr (fun _ => rfl) hused
  unique := h.unique
  reached := h.reached

/-- `a` has an entry under `n` with the number of `b`. -/
def Leads (T : NameTree α ν μ) (a : α) (n : ν) (b : α) : Prop :=
  ∃ k v, T.entry (a, k) = some (n, v) ∧ T.number b = some v

/-- The numbers of the entries are those of nodes. -/
theorem Coherent.node_of_entry (h : T.Coherent root) {p : α × Nat} (hp : T.entry p = some (n, v)) :
    ∃ b, T.number b = some v :=
  h.named.marked p v (target_eq_some.mpr ⟨n, hp⟩)

theorem Coherent.entry_inj (h : T.Coherent root) {p q : α × Nat} {m m' : ν}
    (hp : T.entry p = some (m, v)) (hq : T.entry q = some (m', v)) : p = q :=
  h.named.inj p q v (target_eq_some.mpr ⟨m, hp⟩) (target_eq_some.mpr ⟨m', hq⟩)

/-- Nothing a name can see changes; numbers may be marked. -/
structure Kept (T T' : NameTree α ν μ) : Prop where
  number : ∀ x, T'.number x = T.number x
  entry : ∀ p, T'.entry p = T.entry p
  dentry : ∀ x m y, T'.dentry x m y → T.dentry x m y
  marked : ∀ w, T.marked w → T'.marked w

theorem Same.kept (h : T.Same T') : T.Kept T' :=
  ⟨h.number, h.entry, h.dentry, fun w => (h.marked w).mpr⟩

theorem Kept.leads_iff (hk : T.Kept T') {x y : α} {m : ν} :
    T'.Leads x m y ↔ T.Leads x m y := by
  unfold Leads
  simp only [hk.entry, hk.number]

theorem Coherent.kept (h : T.Coherent root) (hk : T.Kept T') : T'.Coherent root where
  numbers := h.numbers.shrink fun b v hb => by
    rw [hk.number] at hb
    exact ⟨hb, hk.marked v (h.numbers.marked b v hb)⟩
  named := by
    refine h.named.congr (fun p => ?_) fun v => ?_
    · unfold target
      rw [hk.entry]
    · unfold used
      simp only [hk.number]
  unique a k l n v w hk' hl := by
    rw [hk.entry] at hk' hl
    exact h.unique a k l n v w hk' hl
  reached a n b hd := by
    obtain ⟨k, v, hentry, hnumber⟩ := h.reached a n b (hk.dentry a n b hd)
    exact ⟨k, v, (hk.entry _).trans hentry, (hk.number b).trans hnumber⟩

/-- The names lead where they led, and the new one to the new node. -/
theorem Added.leads_iff (h : T.Coherent root) (hadd : T.Added T' a c n b v) {x y : α} {m : ν} :
    T'.Leads x m y ↔ T.Leads x m y ∨ (x = a ∧ m = n ∧ y = b) := by
  constructor
  · rintro ⟨k, w, hentry, hnumber⟩
    by_cases hcell : (x, k) = (a, c)
    · obtain ⟨rfl, rfl⟩ := Prod.mk.inj hcell
      obtain ⟨rfl, rfl⟩ := Prod.mk.inj (Option.some.inj (hentry.symm.trans hadd.entry_self))
      rcases (hadd.number_iff y).mp hnumber with hold | ⟨rfl, -⟩
      · exact absurd (h.numbers.marked y w hold) hadd.unmarked
      · exact .inr ⟨rfl, rfl, rfl⟩
    · rw [hadd.entry_ne _ hcell] at hentry
      rcases (hadd.number_iff y).mp hnumber with hold | ⟨-, rfl⟩
      · exact .inl ⟨k, w, hentry, hold⟩
      · obtain ⟨z, hz⟩ := h.node_of_entry hentry
        exact absurd (h.numbers.marked z w hz) hadd.unmarked
  · rintro (⟨k, w, hentry, hnumber⟩ | ⟨rfl, rfl, rfl⟩)
    · refine ⟨k, w, ?_, (hadd.number_iff y).mpr (.inl hnumber)⟩
      rw [hadd.entry_ne, hentry]
      rintro heq
      rw [heq, hadd.empty] at hentry
      cases hentry
    · exact ⟨c, v, hadd.entry_self, hadd.number_self⟩

/-- The names lead where they led, but for the one removed. -/
theorem Removed.leads_iff (h : T.Coherent root) (hrem : T.Removed T' a c n b v) {x y : α} {m : ν} :
    T'.Leads x m y ↔ T.Leads x m y ∧ ¬ (x = a ∧ m = n) := by
  constructor
  · rintro ⟨k, w, hentry, hnumber⟩
    have hcell : (x, k) ≠ (a, c) := by
      intro heq
      rw [heq, hrem.entry_self] at hentry
      cases hentry
    have hy : y ≠ b := by
      rintro rfl
      rw [hrem.number_self] at hnumber
      cases hnumber
    rw [hrem.entry_ne _ hcell] at hentry
    rw [hrem.number_ne _ hy] at hnumber
    refine ⟨⟨k, w, hentry, hnumber⟩, ?_⟩
    rintro ⟨rfl, rfl⟩
    exact hcell (by rw [h.unique x k c m w v hentry hrem.entry_old])
  · rintro ⟨⟨k, w, hentry, hnumber⟩, hne⟩
    have hcell : (x, k) ≠ (a, c) := by
      intro heq
      obtain ⟨rfl, rfl⟩ := Prod.mk.inj heq
      rw [hrem.entry_old] at hentry
      exact hne ⟨rfl, (Prod.mk.inj (Option.some.inj hentry)).1.symm⟩
    refine ⟨k, w, (hrem.entry_ne _ hcell).trans hentry, ?_⟩
    rw [hrem.number_ne, hnumber]
    rintro rfl
    -- another entry for the node removed
    obtain rfl := Option.some.inj (hnumber.symm.trans hrem.number_old)
    exact hcell (h.entry_inj hentry hrem.entry_old)

theorem Coherent.added (h : T.Coherent root) (hadd : T.Added T' a c n b v) : T'.Coherent root where
  numbers := h.numbers.grant hadd.unmarked fun x w hx =>
    ⟨(hadd.marked w).mpr (((hadd.number_iff x).mp hx).imp (h.numbers.marked x w) And.right),
      (hadd.number_iff x).mp hx⟩
  named := by
    have hunused : ¬ T.used v := fun ⟨x, hx⟩ => hadd.unmarked (h.numbers.marked x v hx)
    refine h.named.grant hunused (fun p w => hadd.target_iff p) fun w => ?_
    unfold used
    simp only [hadd.number_iff]
    constructor
    · rintro ⟨x, hx | ⟨-, rfl⟩⟩
      · exact .inl ⟨x, hx⟩
      · exact .inr rfl
    · rintro (⟨x, hx⟩ | rfl)
      · exact ⟨x, .inl hx⟩
      · exact ⟨b, .inr ⟨rfl, rfl⟩⟩
  unique := hadd.unique h.unique
  reached := hadd.reached h.reached

theorem Coherent.removed (h : T.Coherent root) (hrem : T.Removed T' a c n b v) :
    T'.Coherent root where
  numbers := h.numbers.shrink fun x w hx => by
    have hxb : x ≠ b := by
      rintro rfl
      rw [hrem.number_self] at hx
      cases hx
    rw [hrem.number_ne x hxb] at hx
    refine ⟨hx, (hrem.marked w).mpr ⟨h.numbers.marked x w hx, ?_⟩⟩
    rintro rfl
    exact hxb (h.numbers.inj x b w hx hrem.number_old)
  named := by
    have hold : T.target (a, c) = some v := target_eq_some.mpr ⟨n, hrem.entry_old⟩
    refine h.named.release (· = (a, c)) (fun p w => hrem.target_iff p) fun w => ?_
    constructor
    · rintro ⟨x, hx⟩
      have hxb : x ≠ b := by
        rintro rfl
        rw [hrem.number_self] at hx
        cases hx
      rw [hrem.number_ne x hxb] at hx
      refine ⟨⟨x, hx⟩, ?_⟩
      rintro p rfl heq
      obtain rfl := Option.some.inj (hold.symm.trans heq)
      exact hxb (h.numbers.inj x b v hx hrem.number_old)
    · rintro ⟨⟨x, hx⟩, hne⟩
      refine ⟨x, (hrem.number_ne x ?_).trans hx⟩
      rintro rfl
      obtain rfl := Option.some.inj (hrem.number_old.symm.trans hx)
      exact hne _ rfl hold
  unique := hrem.unique h.unique
  reached := hrem.reached (fun _ _ _ _ => h.entry_inj) h.reached

end NameTree
