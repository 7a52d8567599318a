import Mathlib.Data.List.Induction
import Mathlib.Logic.Function.Basic

/-!
# Hierarchies

What a file system is to its users: places `ι`, each with a file or a directory; directories
lead from names `ν` to places. A `Hierarchy` carries that it is a tree: every place in use is
reached from the root, each but the root stands under one name of one directory, and so one path
leads to it.
-/

/-- A file with its contents, or a directory. -/
inductive Node (β : Type*) where
  | file (contents : β)
  | dir

/-- Follow a path from a place. -/
def followPath {ι ν : Type*} (child : ι → ν → Option ι) (path : List ν) (a : ι) : Option ι :=
  path.foldlM child a

/-- The files and directories under `root`. -/
structure Hierarchy (ι ν β : Type*) (root : ι) where
  node : ι → Option (Node β)
  child : ι → ν → Option ι
  rootDir : node root = some .dir
  parentDir : ∀ a n b, child a n = some b → node a = some .dir
  childNode : ∀ a n b, child a n = some b → ∃ x, node b = some x
  notRoot : ∀ a n, child a n ≠ some root
  oneName : ∀ a n a' n' b, child a n = some b → child a' n' = some b → a = a' ∧ n = n'
  reached : ∀ b x, node b = some x → ∃ path, followPath child path root = some b

section FollowPath

variable {ι ν : Type*} {child child' : ι → ν → Option ι} {path : List ν} {a b : ι} {n : ν}

@[simp] theorem followPath_nil : followPath child [] a = some a := rfl

theorem followPath_concat :
    followPath child (path ++ [n]) a = (followPath child path a).bind (child · n) := by
  unfold followPath
  rw [List.foldlM_append]
  congr 1
  funext b
  exact bind_pure (child b n)

theorem followPath_concat_eq_some : followPath child (path ++ [n]) a = some b ↔
    ∃ c, followPath child path a = some c ∧ child c n = some b := by
  rw [followPath_concat, Option.bind_eq_some_iff]

/-- A path that one map of children has, another has that agrees on the way. -/
theorem followPath_mono {P : ι → Prop} (hpath : followPath child path a = some b) (hb : P b)
    (hchild : ∀ c n d, child c n = some d → P d → P c ∧ child' c n = some d) :
    followPath child' path a = some b := by
  induction path using List.reverseRecOn generalizing b with
  | nil => exact hpath
  | append_singleton path n ih =>
      obtain ⟨c, hc, hn⟩ := followPath_concat_eq_some.mp hpath
      obtain ⟨hP, hn'⟩ := hchild c n b hn hb
      exact followPath_concat_eq_some.mpr ⟨c, ih hc hP, hn'⟩

end FollowPath

namespace Hierarchy

variable {ι ν β : Type*} {root : ι}

@[ext] theorem ext {T T' : Hierarchy ι ν β root} (hnode : ∀ a, T.node a = T'.node a)
    (hchild : ∀ a n, T.child a n = T'.child a n) : T = T' := by
  obtain ⟨node, child⟩ := T
  obtain ⟨node', child'⟩ := T'
  obtain rfl : node = node' := funext hnode
  obtain rfl : child = child' := funext fun a => funext (hchild a)
  rfl

variable (T : Hierarchy ι ν β root) {a b : ι} {n : ν} {p q : List ν}

/-- The place that a path from the root leads to. -/
def find (path : List ν) : Option ι := followPath T.child path root

theorem child_of_file {c : β} (ha : T.node a = some (.file c)) (n : ν) : T.child a n = none := by
  cases hn : T.child a n with
  | none => rfl
  | some b => cases ha.symm.trans (T.parentDir a n b hn)

/-- Nothing leads to a place without a node. -/
theorem child_ne_of_none (hb : T.node b = none) (a : ι) (n : ν) : T.child a n ≠ some b := by
  intro hn
  obtain ⟨x, hx⟩ := T.childNode a n b hn
  cases hb.symm.trans hx

/-! ## Operations -/

section Operations

variable [DecidableEq ι]

/-- Only the root. -/
def bare (root : ι) : Hierarchy ι ν β root where
  node := Function.update (fun _ => none) root (some .dir)
  child _ _ := none
  rootDir := Function.update_self root _ _
  parentDir _ _ _ h := nomatch h
  childNode _ _ _ h := nomatch h
  notRoot _ _ h := nomatch h
  oneName _ _ _ _ _ h := nomatch h
  reached b x hb := by
    by_cases h : b = root
    · exact ⟨[], by rw [h, followPath_nil]⟩
    · rw [Function.update_of_ne h] at hb
      cases hb

/-- A file gets other contents. -/
def store (b : ι) (c c' : β) (h : T.node b = some (.file c)) : Hierarchy ι ν β root where
  node := Function.update T.node b (some (.file c'))
  child := T.child
  rootDir := by
    rw [Function.update_of_ne, T.rootDir]
    rintro rfl
    cases T.rootDir.symm.trans h
  parentDir a n d hd := by
    rw [Function.update_of_ne, T.parentDir a n d hd]
    rintro rfl
    cases (T.parentDir a n d hd).symm.trans h
  childNode a n d hd := by
    by_cases hdb : d = b
    · exact ⟨_, by rw [hdb, Function.update_self]⟩
    · rw [Function.update_of_ne hdb]
      exact T.childNode a n d hd
  notRoot := T.notRoot
  oneName := T.oneName
  reached d x hd := by
    by_cases hdb : d = b
    · exact T.reached d _ (hdb ▸ h)
    · rw [Function.update_of_ne hdb] at hd
      exact T.reached d x hd

@[simp] theorem store_self {c : β} (h : T.node b = some (.file c)) : T.store b c c h = T := by
  refine Hierarchy.ext (fun d => ?_) fun _ _ => rfl
  show Function.update T.node b (some (.file c)) d = T.node d
  rw [← h, Function.update_eq_self]

variable [DecidableEq ν]

/-- `a` gets a child under a new name: `x`, at a place not in use. -/
def insert (a : ι) (n : ν) (b : ι) (x : Node β) (ha : T.node a = some .dir)
    (hn : T.child a n = none) (hb : T.node b = none) : Hierarchy ι ν β root where
  node := Function.update T.node b (some x)
  child c m := if c = a ∧ m = n then some b else T.child c m
  rootDir := by
    rw [Function.update_of_ne, T.rootDir]
    rintro rfl
    cases T.rootDir.symm.trans hb
  parentDir c m d h := by
    have hc : T.node c = some .dir := by
      split at h
      · rename_i heq
        rw [heq.1, ha]
      · exact T.parentDir c m d h
    rw [Function.update_of_ne, hc]
    rintro rfl
    cases hc.symm.trans hb
  childNode c m d h := by
    by_cases hd : d = b
    · exact ⟨x, by rw [hd, Function.update_self]⟩
    · split at h
      · exact absurd (Option.some.inj h).symm hd
      · rw [Function.update_of_ne hd]
        exact T.childNode c m d h
  notRoot c m h := by
    split at h
    · obtain rfl := Option.some.inj h
      cases T.rootDir.symm.trans hb
    · exact T.notRoot c m h
  oneName c m c' m' d h h' := by
    split at h
    · rename_i heq
      obtain rfl := Option.some.inj h
      split at h'
      · rename_i heq'
        exact ⟨heq.1.trans heq'.1.symm, heq.2.trans heq'.2.symm⟩
      · exact absurd h' (T.child_ne_of_none hb c' m')
    · split at h'
      · obtain rfl := Option.some.inj h'
        exact absurd h (T.child_ne_of_none hb c m)
      · exact T.oneName c m c' m' d h h'
  reached d y hd := by
    -- an old path still leads where it did: no old name is the new one
    have hold (c : ι) (z : Node β) (hc : T.node c = some z) : ∃ path, followPath
        (fun c m => if c = a ∧ m = n then some b else T.child c m) path root = some c := by
      obtain ⟨path, hpath⟩ := T.reached c z hc
      refine ⟨path, followPath_mono (P := fun _ => True) hpath trivial fun e m f h _ => ?_⟩
      refine ⟨trivial, ?_⟩
      rw [if_neg, h]
      rintro ⟨rfl, rfl⟩
      cases hn.symm.trans h
    by_cases hdb : d = b
    · obtain ⟨path, hpath⟩ := hold a .dir ha
      refine ⟨path ++ [n], followPath_concat_eq_some.mpr ⟨a, hpath, ?_⟩⟩
      rw [if_pos ⟨rfl, rfl⟩, hdb]
    · rw [Function.update_of_ne hdb] at hd
      exact hold d y hd

/-- The child that `a` has under `n` goes; it has no children. -/
def remove (a : ι) (n : ν) (b : ι) (h : T.child a n = some b) (hleaf : ∀ m, T.child b m = none) :
    Hierarchy ι ν β root where
  node := Function.update T.node b none
  child c m := if c = a ∧ m = n then none else T.child c m
  rootDir := by
    rw [Function.update_of_ne, T.rootDir]
    rintro rfl
    exact T.notRoot a n h
  parentDir c m d hd := by
    split at hd
    · cases hd
    · rw [Function.update_of_ne, T.parentDir c m d hd]
      rintro rfl
      cases (hleaf m).symm.trans hd
  childNode c m d hd := by
    split at hd
    · cases hd
    · rename_i hne
      rw [Function.update_of_ne]
      · exact T.childNode c m d hd
      · rintro rfl
        exact hne (T.oneName c m a n d hd h)
  notRoot c m hd := by
    split at hd
    · cases hd
    · exact T.notRoot c m hd
  oneName c m c' m' d hd hd' := by
    split at hd
    · cases hd
    · split at hd'
      · cases hd'
      · exact T.oneName c m c' m' d hd hd'
  reached d y hd := by
    have hdb : d ≠ b := by
      rintro rfl
      rw [Function.update_self] at hd
      cases hd
    rw [Function.update_of_ne hdb] at hd
    obtain ⟨path, hpath⟩ := T.reached d y hd
    -- the path does not go through the place that is removed, which is a leaf
    refine ⟨path, followPath_mono (P := (· ≠ b)) hpath hdb fun c m e he hne => ⟨?_, ?_⟩⟩
    · rintro rfl
      cases (hleaf m).symm.trans he
    · rw [if_neg, he]
      rintro ⟨rfl, rfl⟩
      exact hne (Option.some.inj (he.symm.trans h))

end Operations

end Hierarchy
