import NaiveFS.Lib.Interleave
import NaiveFS.Owners

/-!
# Creations that interleave

Calls of `naive_create` and `naive_mkdir` on different directories run as tasks
over one kernel state and switch at the calls that may sleep. A number is found
before such a call and marked after it; a block is marked when it is found.

`Together` is the invariant: which numbers and blocks the tasks have in hand,
and that none is in two hands. It breaks where a call starts while another has
a number in hand that is not marked yet, and where a directory's new block
cannot be read.
-/

namespace NaiveFS

open Bytes Ownership

/-- A call that makes an inode. -/
inductive Creation where
  | create (dir : Nat) (name : Name) (mode : Nat)
  | mkdir (dir : Nat) (name : Name) (mode : Nat)

/-- The parent, which the VFS keeps locked during the call. -/
def Creation.dir : Creation → Nat
  | .create dir .. | .mkdir dir .. => dir

def Creation.prog : Creation → K Int
  | .create dir name mode => naiveCreate dir name mode
  | .mkdir dir name mode => naiveMkdir dir name mode

/-- Calls on pairwise different parents. -/
structure Creations (ι : Type) where
  call : ι → Creation
  apart : ∀ i j, (call i).dir = (call j).dir → i = j

/-- The calls that may sleep. -/
def Call.sleeps : Call → Bool
  | .newInode | .sbBread .. => true
  | _ => false

/-- A kernel state with the calls that run on it. -/
abbrev Crowd (ι : Type) := Pool ι FS Call Call.Ans Fault Int

/-- No call has begun. -/
def Creations.start {ι : Type} (calls : Creations ι) (s : FS) : Crowd ι where
  state := s
  tasks i := (calls.call i).prog

/-! ## What a call has in hand -/

/-- How far a call has come. -/
inductive Phase where
  | ready
  /-- It has found a number and waits for `new_inode`. -/
  | found (ino : Nat)
  /-- The inode has the number, which is not marked, and maybe a block. -/
  | holds (ino id : Nat) (b : Option Nat)
  /-- The number is marked and the entry is being added. -/
  | linking (id : Nat) (b : Option Nat)
  /-- It has taken block `c` for the parent and waits to read it. -/
  | attaching (id : Nat) (b : Option Nat) (c : Nat)
  | ended

namespace Phase

/-- The call a task waits for in a phase. -/
def waits : Phase → Option Call → Prop
  | .ready, w | .ended, w => w = none
  | .found _, w => w = some .newInode
  | .holds _ _ b, w => ∃ c, b = some c ∧ w = some (.sbBread .mkdirNew 0 c)
  | .linking .., w => ∃ k c, w = some (.sbBread .addEntryScan k c)
  | .attaching _ _ c, w => w = some (.sbBread .addEntryNew 0 c)

/-- The number in hand that is not marked. -/
def number : Phase → Option Nat
  | .found ino | .holds ino .. => some ino
  | _ => none

/-- The blocks in hand: the new directory's (`false`) and the parent's (`true`). -/
def block : Phase → Bool → Option Nat
  | .holds _ _ b, false | .linking _ b, false | .attaching _ b _, false => b
  | .attaching _ _ c, true => some c
  | _, _ => none

/-- The inodes that may already point to the new directory's block. -/
def points : Phase → Nat → Prop
  | .linking id _, x | .attaching id _ _, x => x = id
  | _, _ => False

end Phase

variable {ι : Type}

/-- The block task `k.1` has in hand. -/
def inHand (g : ι → Phase) (k : ι × Bool) : Option Int := ((g k.1).block k.2).map Int.ofNat

/-- No block is in two inodes, or in the hands of two tasks. -/
structure BlocksApart (g : ι → Phase) (s : FS) : Prop where
  owned : s.OwnedOnce
  hands : Exclusive (inHand g) s.isMarked
  home : ∀ i b, inHand g (i, false) = some b → ∀ k, s.own k = some b → (g i).points k.1

/-- The inodes from `base` on have different numbers, all marked except one that
is in hand. -/
structure NumbersApart (base : Nat) (g : ι → Phase) (s : FS) : Prop where
  single : ∀ i j, (g i).number ≠ none → (g j).number ≠ none → i = j
  unmarked : ∀ i ino, (g i).number = some ino → 1 ≤ ino ∧ ino ≤ 4096 ∧ s.inoMarked ino = false
  numbered : ∀ id nd, base ≤ id → s.inodes id = some nd →
    s.inoMarked nd.iIno = true ∨ ∃ i b, g i = .holds nd.iIno id b
  distinct : ∀ id id' nd nd', base ≤ id → base ≤ id' → s.inodes id = some nd →
    s.inodes id' = some nd' → nd.iIno = nd'.iIno → id = id'

/-- What holds whenever no task runs. -/
structure Together (base : Nat) (g : ι → Phase) (s : FS) : Prop where
  ready : s.Ready
  base_le : base ≤ s.nextInode
  blocks : BlocksApart g s
  numbers : NumbersApart base g s

/-! ## How a task's steps change what is in hand -/

section Same

variable {base : Nat} {g : ι → Phase} {s t : FS}

/-- An update that sees neither inodes nor bitmaps. -/
theorem Together.same (h : Together base g s) (hinodes : t.inodes = s.inodes)
    (hnext : t.nextInode = s.nextInode) (hsbi : t.sbi = s.sbi) : Together base g t := by
  have hown : ∀ k, t.own k = s.own k := fun k => by rw [FS.own, hinodes, FS.own]
  have hmark : ∀ c, s.isMarked c → t.isMarked c := fun c hc => by
    rwa [FS.isMarked, FS.marked, hsbi]
  have hino (n : Nat) : t.inoMarked n = s.inoMarked n := by
    rw [FS.inoMarked, hsbi, FS.inoMarked]
  refine ⟨⟨by rw [hsbi, h.ready.bitmapBlocks], fun x hx => ?_⟩, by rw [hnext]; exact h.base_le,
    ⟨h.blocks.owned.congr hown hsbi, h.blocks.hands.shrink fun k c hk =>
      ⟨hk, hmark c (h.blocks.hands.marked k c hk)⟩, fun i b hi k hk =>
      h.blocks.home i b hi k (by rwa [hown] at hk)⟩, ⟨h.numbers.single, fun i n hi => ?_,
      fun x nd hx hnd => ?_, fun x x' nd nd' hx hx' hnd hnd' => ?_⟩⟩
  · rw [hinodes, h.ready.fresh x (by rwa [← hnext])]
  · rw [hino]
    exact h.numbers.unmarked i n hi
  · rw [hino]
    exact h.numbers.numbered x nd hx (by rwa [← hinodes])
  · rw [hinodes] at hnd hnd'
    exact h.numbers.distinct x x' nd nd' hx hx' hnd hnd'

end Same

section Steps

variable [DecidableEq ι] {base id : Nat} {g : ι → Phase} {i : ι} {x y : Phase} {s t : FS}
  {nd nd' : Inode}

/-- Blocks given up, by inodes or by task `i`, whatever happens to the marks of
blocks nobody is left with. -/
theorem BlocksApart.shrink (h : BlocksApart (Function.update g i x) s)
    (hown : ∀ k c, t.own k = some c → s.own k = some c ∧ t.isMarked c)
    (hself : ∀ n b, y.block n = some b → x.block n = some b)
    (hhands : ∀ k c, inHand (Function.update g i y) k = some c →
      inHand (Function.update g i x) k = some c → t.isMarked c)
    (hpoints : y.block false ≠ none → ∀ k, x.points k → y.points k) :
    BlocksApart (Function.update g i y) t := by
  have hback : ∀ k c, inHand (Function.update g i y) k = some c →
      inHand (Function.update g i x) k = some c := by
    rintro ⟨j, n⟩ c hk
    unfold inHand at hk ⊢
    by_cases hj : j = i
    · subst hj
      simp only [Function.update_self, Option.map_eq_some_iff] at hk ⊢
      obtain ⟨b, hb, rfl⟩ := hk
      exact ⟨b, hself n b hb, rfl⟩
    · simpa [hj] using hk
  refine ⟨h.owned.shrink hown, h.hands.shrink fun k c hk => ⟨hback k c hk, hhands k c hk
    (hback k c hk)⟩, fun j b hj k hk => ?_⟩
  have hold := h.home j b (hback _ _ hj) k (hown k b hk).1
  by_cases hji : j = i
  · subst hji
    have hblock : y.block false ≠ none := by
      intro hnone
      unfold inHand at hj
      simp [hnone] at hj
    simp only [Function.update_self] at hold ⊢
    exact hpoints hblock _ hold
  · simpa [hji] using hold

/-- The same with the marks as they are. -/
theorem BlocksApart.keep (h : BlocksApart (Function.update g i x) s)
    (hown : ∀ k c, t.own k = some c → s.own k = some c)
    (hmark : ∀ c, s.isMarked c → t.isMarked c)
    (hself : ∀ n b, y.block n = some b → x.block n = some b)
    (hpoints : y.block false ≠ none → ∀ k, x.points k → y.points k) :
    BlocksApart (Function.update g i y) t :=
  h.shrink (fun k c hk => ⟨hown k c hk, hmark c (h.owned.marked k c (hown k c hk))⟩) hself
    (fun k c _ hk => hmark c (h.hands.marked k c hk)) hpoints

/-- Numbers do not depend on what happens to blocks. -/
theorem NumbersApart.keep (h : NumbersApart base (Function.update g i x) s)
    (hbm : t.sbi.inodeBitmap = s.sbi.inodeBitmap)
    (hino : ∀ id nd, t.inodes id = some nd → ∃ nd', s.inodes id = some nd' ∧ nd'.iIno = nd.iIno)
    (hnumber : ∀ ino, y.number = some ino → x.number = some ino)
    (hholds : ∀ ino id b, x = .holds ino id b → t.inodes id = none ∨ ∃ c, y = .holds ino id c) :
    NumbersApart base (Function.update g i y) t := by
  have hmarked : ∀ n, t.inoMarked n = s.inoMarked n := fun n => by
    unfold FS.inoMarked
    rw [hbm]
  have hback : ∀ j ino, (Function.update g i y j).number = some ino →
      (Function.update g i x j).number = some ino := by
    intro j ino hj
    by_cases hji : j = i
    · subst hji
      simpa using hnumber ino (by simpa using hj)
    · simpa [hji] using hj
  have hsome : ∀ j, (Function.update g i y j).number ≠ none →
      (Function.update g i x j).number ≠ none := by
    intro j hj
    obtain ⟨ino, hino⟩ := Option.ne_none_iff_exists'.mp hj
    rw [hback j ino hino]
    simp
  refine ⟨fun j k hj hk => h.single j k (hsome j hj) (hsome k hk), fun j ino hj => ?_,
    fun id nd hid hnd => ?_, fun id id' nd nd' hid hid' hnd hnd' heq => ?_⟩
  · rw [hmarked]
    exact h.unmarked j ino (hback j ino hj)
  · obtain ⟨nd', hnd', heq⟩ := hino id nd hnd
    rw [hmarked, ← heq]
    rcases h.numbered id nd' hid hnd' with hm | ⟨j, b, hj⟩
    · exact .inl hm
    · refine .inr ?_
      by_cases hji : j = i
      · subst hji
        rw [Function.update_self] at hj
        rcases hholds _ _ _ hj with hnone | ⟨c, rfl⟩
        · rw [hnone] at hnd
          cases hnd
        · exact ⟨j, c, by simp⟩
      · exact ⟨j, b, by simpa [hji] using hj⟩
  · obtain ⟨e, he, h1⟩ := hino id nd hnd
    obtain ⟨e', he', h2⟩ := hino id' nd' hnd'
    exact h.distinct id id' e e' hid hid' he he' (by rw [h1, h2, heq])

/-- An inode changed in neither its number nor its slots; the task may let go of
blocks, but not of an unmarked number. -/
theorem Together.setInode (h : Together base (Function.update g i x) s)
    (hnd : s.inodes id = some nd) (hino : nd'.iIno = nd.iIno)
    (hslot : ∀ k, nd'.slot k = nd.slot k) :
    Together base (Function.update g i x) (s.setInode id nd') := by
  have hready : (s.setInode id nd').Ready := h.ready.setInode hnd nd'
  refine ⟨hready, h.base_le, h.blocks.keep (fun k c hk => ?_) (fun c hc => hc)
    (fun n b hb => hb) (fun _ _ hk => hk), h.numbers.keep rfl (fun x e he => ?_) (fun _ hx => hx)
    fun n j b hx => .inr ⟨b, hx⟩⟩
  · by_cases hk1 : k.1 = id
    · have hself : (s.setInode id nd').inodes k.1 = some nd' := by
        rw [hk1]
        exact FS.inodes_setInode_self
      have hold : s.inodes k.1 = some nd := by rw [hk1, hnd]
      rw [FS.own_of hself, hslot] at hk
      exact (FS.own_of hold).trans hk
    · rwa [FS.own_setInode_ne hk1] at hk
  · by_cases hx : x = id
    · subst hx
      rw [FS.inodes_setInode_self] at he
      cases he
      exact ⟨nd, hnd, hino.symm⟩
    · rw [FS.inodes_setInode_ne hx] at he
      exact ⟨e, he, rfl⟩

/-- A task that has no number in hand is alone with the next free one. -/
theorem Together.find {ino : Nat} (h : Together base (Function.update g i .ready) s)
    (hfree : s.NextIno ino) (hothers : ∀ j, j ≠ i → (g j).number = none) :
    Together base (Function.update g i (.found ino)) s := by
  have halone : ∀ j, (Function.update g i (.found ino) j).number ≠ none → j = i := by
    intro j hj
    by_contra hji
    rw [Function.update_of_ne hji] at hj
    exact hj (hothers j hji)
  refine ⟨h.ready, h.base_le, h.blocks.keep (fun _ _ hk => hk) (fun _ hc => hc)
    (fun n b hb => by cases n <;> cases hb) (fun _ _ hk => hk), ⟨fun j k hj hk => ?_,
    fun j n hj => ?_, fun x nd hx hnd => ?_, h.numbers.distinct⟩⟩
  · rw [halone j hj, halone k hk]
  · have hji : j = i := halone j (by rw [hj]; simp)
    subst hji
    rw [Function.update_self] at hj
    cases hj
    exact ⟨hfree.pos, hfree.bitmap, hfree.clear⟩
  · rcases h.numbers.numbered x nd hx hnd with hm | ⟨j, b, hj⟩
    · exact .inl hm
    · by_cases hji : j = i
      · subst hji
        simp at hj
      · rw [Function.update_of_ne hji] at hj
        have := hothers j hji
        rw [hj] at this
        cases this

/-- The new inode gets the number in hand. -/
theorem Together.born {ino : Nat} (h : Together base (Function.update g i (.found ino)) s)
    (hino : nd.iIno = ino) (hslot : ∀ k, nd.slot k = none) :
    Together base (Function.update g i (.holds ino s.nextInode none)) (s.withNew nd) := by
  have hnew : (s.withNew nd).inodes s.nextInode = some nd := FS.inodes_withNew_self
  -- every other new inode was there before, with a marked number
  have hold : ∀ x e, base ≤ x → x ≠ s.nextInode → (s.withNew nd).inodes x = some e →
      s.inodes x = some e ∧ s.inoMarked e.iIno = true := by
    intro x e hx hne he
    rw [FS.inodes_withNew_ne hne] at he
    refine ⟨he, ?_⟩
    rcases h.numbers.numbered x e hx he with hm | ⟨j, b, hj⟩
    · exact hm
    · by_cases hji : j = i
      · subst hji
        simp at hj
      · have hsingle := h.numbers.single j i (by rw [hj]; simp [Phase.number])
          (by simp [Phase.number])
        exact absurd hsingle hji
  have hunmarked : s.inoMarked ino = false :=
    (h.numbers.unmarked i ino (by simp [Phase.number])).2.2
  refine ⟨h.ready.withNew nd, Nat.le_succ_of_le h.base_le, h.blocks.keep (fun k c hk => ?_)
    (fun _ hc => hc) (fun n b hb => by cases n <;> cases hb) (fun _ _ hk => hk),
    ⟨fun j k hj hk => ?_, fun j n hj => ?_, fun x e hx he => ?_,
      fun x x' e e' hx hx' he he' heq => ?_⟩⟩
  · by_cases hk1 : k.1 = s.nextInode
    · have hself : (s.withNew nd).inodes k.1 = some nd := by rw [hk1, hnew]
      rw [FS.own_of hself, hslot] at hk
      cases hk
    · unfold FS.own at hk ⊢
      rwa [FS.inodes_withNew_ne hk1] at hk
  · refine h.numbers.single j k ?_ ?_
    · by_cases hji : j = i
      · subst hji
        simp [Phase.number]
      · simpa [hji] using hj
    · by_cases hki : k = i
      · subst hki
        simp [Phase.number]
      · simpa [hki] using hk
  · refine h.numbers.unmarked j n ?_
    by_cases hji : j = i
    · subst hji
      simpa [Phase.number] using hj
    · simpa [hji] using hj
  · by_cases hne : x = s.nextInode
    · subst hne
      rw [hnew] at he
      cases he
      exact .inr ⟨i, none, by simp [hino]⟩
    · exact .inl (hold x e hx hne he).2
  · by_cases hne : x = s.nextInode
    · by_cases hne' : x' = s.nextInode
      · rw [hne, hne']
      · have hm := (hold x' e' hx' hne' he').2
        rw [hne, hnew] at he
        cases he
        rw [← heq, hino, hunmarked] at hm
        cases hm
    · have hm := (hold x e hx hne he).2
      by_cases hne' : x' = s.nextInode
      · rw [hne', hnew] at he'
        cases he'
        rw [heq, hino, hunmarked] at hm
        cases hm
      · exact h.numbers.distinct x x' e e' hx hx' (hold x e hx hne he).1
          (hold x' e' hx' hne' he').1 heq

/-- Only task `i` has an unmarked number, so nobody has one when it lets go. -/
theorem NumbersApart.none_left (h : NumbersApart base (Function.update g i x) s)
    (hx : x.number ≠ none) (hy : y.number = none) (j : ι) :
    (Function.update g i y j).number = none := by
  by_cases hji : j = i
  · subst hji
    simpa using hy
  · rw [Function.update_of_ne hji]
    by_contra hj
    refine hji (h.single j i ?_ ?_)
    · simpa [hji] using hj
    · simpa using hx

/-- A block not in anybody's hands is taken. -/
theorem BlocksApart.take {n : Bool} {b : Nat} (h : BlocksApart (Function.update g i x) s)
    (hfree : s.NextFree b) (hsbi : t.sbi = (s.markBlock b).sbi) (howned : t.OwnedOnce)
    (hown : ∀ k c, t.own k = some c → s.own k = some c ∨ (n = true ∧ c = b))
    (hself : ∀ m c, y.block m = some c → x.block m = some c ∨ (m = n ∧ c = b))
    (hpoints : y.block false ≠ none → ∀ k, x.points k → y.points k) :
    BlocksApart (Function.update g i y) t := by
  have hmark : ∀ c, t.isMarked c ↔ s.isMarked c ∨ c = b := fun c => by
    have : t.isMarked c ↔ (s.markBlock b).isMarked c := by rw [FS.isMarked, FS.marked, hsbi]; rfl
    rw [this, FS.isMarked_markBlock hfree.bitmap]
  have hback : ∀ k c, inHand (Function.update g i y) k = some c →
      inHand (Function.update g i x) k = some c ∨ (k = (i, n) ∧ c = b) := by
    rintro ⟨j, m⟩ c hk
    unfold inHand at hk ⊢
    by_cases hj : j = i
    · subst hj
      simp only [Function.update_self, Option.map_eq_some_iff] at hk ⊢
      obtain ⟨e, he, rfl⟩ := hk
      rcases hself m e he with hx | ⟨rfl, rfl⟩
      · exact .inl ⟨e, hx, rfl⟩
      · exact .inr ⟨rfl, rfl⟩
    · exact .inl (by simpa [hj] using hk)
  refine ⟨howned, h.hands.grant (k := (i, n)) hfree.not_isMarked fun k c hk => ?_,
    fun j c hj k hk => ?_⟩
  · rcases hback k c hk with hold | hnew
    · exact ⟨(hmark c).mpr (.inl (h.hands.marked k c hold)), .inl hold⟩
    · exact ⟨(hmark c).mpr (.inr hnew.2), .inr hnew⟩
  · have hpoints' : (Function.update g i x j).points k.1 →
      (Function.update g i y j).points k.1 := by
      by_cases hji : j = i
      · subst hji
        have hblock : y.block false ≠ none := by
          intro hnone
          unfold inHand at hj
          simp [hnone] at hj
        simpa using hpoints hblock k.1
      · simp [hji]
    rcases hback _ _ hj with hold | ⟨hjn, hc⟩
    · rcases hown k c hk with hk | ⟨_, hc⟩
      · exact hpoints' (h.home j c hold k hk)
      · rw [hc] at hold
        exact absurd (h.hands.marked _ _ hold) hfree.not_isMarked
    · obtain ⟨rfl, rfl⟩ := Prod.mk.inj hjn
      rcases hown k c hk with hk | ⟨hn, _⟩
      · rw [hc] at hk
        exact absurd (h.owned.marked _ _ hk) hfree.not_isMarked
      · cases hn

/-- `naive_mkdir` takes the block of the new directory. -/
theorem Together.alloc {ino b : Nat}
    (h : Together base (Function.update g i (.holds ino id none)) s)
    (hfree : s.NextFree b) :
    Together base (Function.update g i (.holds ino id (some b))) (s.markBlock b) := by
  refine ⟨⟨h.ready.bitmapBlocks, h.ready.fresh⟩, h.base_le, h.blocks.take (n := false) hfree rfl
    (h.blocks.owned.shrink fun k c hk => ⟨hk, hfree.isMarked (h.blocks.owned.marked k c hk)⟩)
    (fun _ _ hk => .inl hk) (fun m c hc => ?_) (fun _ _ hk => hk), h.numbers.keep rfl
    (fun x e he => ⟨e, he, rfl⟩) (fun _ hn => hn) fun n x b' hx => ?_⟩
  · cases m with
    | false =>
        cases hc
        exact .inr ⟨rfl, rfl⟩
    | true => cases hc
  · cases hx
    exact .inr ⟨some b, rfl⟩

/-- The parent gets a block. -/
theorem Together.attach {o : Option Nat} {dir c : Nat} {d : Inode}
    (h : Together base (Function.update g i (.linking id o)) s) (hfree : s.NextFree c)
    (hd : s.inodes dir = some d) :
    Together base (Function.update g i (.attaching id o c))
      ((s.markBlock c).setInode dir (attachBlock d c)) := by
  have hready : (s.markBlock c).Ready := ⟨h.ready.bitmapBlocks, h.ready.fresh⟩
  have howned : ((s.markBlock c).setInode dir (attachBlock d c)).OwnedOnce := by
    cases hz : zeroSlot d with
    | none =>
        rw [attachBlock_none hz]
        exact h.blocks.owned.attach (j := 0) dir hfree fun k e hk =>
          .inl ((FS.own_of (k := (dir, k)) hd).trans hk)
    | some j =>
        refine h.blocks.owned.attach (j := j) dir hfree fun k e hk => ?_
        rcases attachBlock_slot hk with hk | ⟨hj, he⟩
        · exact .inl ((FS.own_of (k := (dir, k)) hd).trans hk)
        · exact .inr ⟨Option.some.inj (hj.symm.trans hz), he⟩
  refine ⟨hready.setInode hd _, h.base_le, h.blocks.take (n := true) hfree rfl howned
    (fun k e hk => ?_) (fun m e he => ?_) (fun _ _ hk => hk), h.numbers.keep rfl (fun x e he => ?_)
    (fun _ hn => by cases hn) fun n x b hx => by cases hx⟩
  · by_cases hk1 : k.1 = dir
    · have hself : ((s.markBlock c).setInode dir (attachBlock d c)).inodes k.1
          = some (attachBlock d c) := by
        rw [hk1]
        exact FS.inodes_setInode_self
      rw [FS.own_of hself] at hk
      rcases attachBlock_slot hk with hk | ⟨_, he⟩
      · exact .inl ((FS.own_of (by rw [hk1]; exact hd)).trans hk)
      · exact .inr ⟨rfl, he⟩
    · rw [FS.own_setInode_ne hk1] at hk
      exact .inl hk
  · cases m with
    | false => exact .inl he
    | true =>
        cases he
        exact .inr ⟨rfl, rfl⟩
  · by_cases hx : x = dir
    · subst hx
      rw [FS.inodes_setInode_self] at he
      cases he
      refine ⟨d, hd, ?_⟩
      cases hz : zeroSlot d with
      | none => rw [attachBlock_none hz]
      | some j =>
          rw [attachBlock_some hz]
          rfl
    · rw [FS.inodes_setInode_ne hx] at he
      exact ⟨e, he, rfl⟩

/-- The parent's block has been dealt with. -/
theorem Together.settle {o : Option Nat} {c : Nat}
    (h : Together base (Function.update g i (.attaching id o c)) s) :
    Together base (Function.update g i (.linking id o)) s :=
  ⟨h.ready, h.base_le, h.blocks.keep (fun _ _ hk => hk) (fun _ hc => hc)
    (fun n b hb => by cases n <;> first | exact hb | cases hb) (fun _ _ hk => hk),
    h.numbers.keep rfl (fun _ e he => ⟨e, he, rfl⟩) (fun _ hn => by cases hn)
      fun n x b hx => by cases hx⟩

theorem isMarked_unmarkBlock {b : Nat} {c : Int} (hc : s.isMarked c) (hne : c ≠ b) :
    (s.unmarkBlock b).isMarked c := by
  obtain ⟨h0, h1, hm⟩ := hc
  refine ⟨h0, h1, ?_⟩
  show (s.sbi.blockBitmap.clearBit b).bit c.toNat = true
  rw [bit_clearBit, show decide (c.toNat ≠ b) = true from decide_eq_true (by omega), Bool.true_and]
  exact hm

/-- A block in task `i`'s hands that no inode has is freed. -/
theorem BlocksApart.free {n : Bool} {b : Nat} (h : BlocksApart (Function.update g i x) s)
    (hx : x.block n = some b) (hsbi : t.sbi = (s.unmarkBlock b).sbi)
    (hown : ∀ k c, t.own k = some c → s.own k = some c ∧ c ≠ b)
    (hself : ∀ m c, y.block m = some c → x.block m = some c ∧ m ≠ n)
    (hpoints : y.block false ≠ none → ∀ k, x.points k → y.points k) :
    BlocksApart (Function.update g i y) t := by
  have hmark : ∀ c : Int, s.isMarked c → c ≠ b → t.isMarked c := fun c hc hne => by
    have := isMarked_unmarkBlock hc hne
    rwa [FS.isMarked, FS.marked, ← hsbi] at this
  have hheld : inHand (Function.update g i x) (i, n) = some b := by
    unfold inHand
    simp [hx]
  refine h.shrink (fun k c hk => ⟨(hown k c hk).1, hmark c (h.owned.marked k c (hown k c hk).1)
    (hown k c hk).2⟩) (fun m c hm => (hself m c hm).1) (fun k c hky hkx => ?_) hpoints
  refine hmark c (h.hands.marked k c hkx) fun hcb => ?_
  subst hcb
  obtain rfl := h.hands.inj k (i, n) _ hkx hheld
  unfold inHand at hky
  simp only [Function.update_self, Option.map_eq_some_iff] at hky
  obtain ⟨e, he, _⟩ := hky
  exact (hself n e he).2 rfl

/-- The parent's block is freed, which no inode holds. -/
theorem Together.detach {o : Option Nat} {c : Nat}
    (h : Together base (Function.update g i (.attaching id o c)) s)
    (hnone : ∀ k, s.own k ≠ some (c : Int)) :
    Together base (Function.update g i (.linking id o)) (s.unmarkBlock c) := by
  refine ⟨⟨h.ready.bitmapBlocks, h.ready.fresh⟩, h.base_le, h.blocks.free (n := true) rfl rfl
    (fun k e hk => ⟨hk, fun he => hnone k (he ▸ hk)⟩) (fun m e he => ?_) (fun _ _ hk => hk),
    h.numbers.keep rfl (fun _ e he => ⟨e, he, rfl⟩) (fun _ hn => by cases hn)
      fun n x b hx => by cases hx⟩
  cases m with
  | false => exact ⟨he, by decide⟩
  | true => cases he

/-- An inode goes, with its block and its number in hand. -/
theorem NumbersApart.drop (h : NumbersApart base (Function.update g i x) s)
    (hx : ∀ ino y b, x = .holds ino y b → y = id) (hbm : t.sbi.inodeBitmap = s.sbi.inodeBitmap)
    (hinodes : t.inodes = (s.dropInode id).inodes) :
    NumbersApart base (Function.update g i .ended) t := by
  refine h.keep hbm (fun y e he => ?_) (fun _ hn => by cases hn) fun n y b hxy => ?_
  · have hne : y ≠ id := by
      rintro rfl
      rw [hinodes, FS.inodes_dropInode_self] at he
      cases he
    rw [hinodes, FS.inodes_dropInode_ne hne] at he
    exact ⟨e, he, rfl⟩
  · obtain rfl := hx _ _ _ hxy
    exact .inl (by rw [hinodes, FS.inodes_dropInode_self])

/-- A new directory is given up: its block is freed and its inode dropped. -/
theorem Together.abandon {b : Nat} (h : Together base (Function.update g i x) s)
    (hx : (∃ ino, x = .holds ino id (some b)) ∨ x = .linking id (some b)) :
    Together base (Function.update g i .ended) ((s.unmarkBlock b).dropInode id) := by
  have hready : (s.unmarkBlock b).Ready := ⟨h.ready.bitmapBlocks, h.ready.fresh⟩
  have hblock : x.block false = some b := by
    rcases hx with ⟨ino, rfl⟩ | rfl <;> rfl
  have hpoints : ∀ k, x.points k → k = id := by
    rcases hx with ⟨ino, rfl⟩ | rfl
    · exact fun _ hk => hk.elim
    · exact fun _ hk => hk
  have hheld : inHand (Function.update g i x) (i, false) = some b := by
    unfold inHand
    simp [hblock]
  refine ⟨hready.dropInode id, h.base_le, h.blocks.free hblock rfl (fun k c hk => ?_)
    (fun n c hc => by cases n <;> cases hc) (fun hnone => absurd rfl hnone),
    h.numbers.drop (fun n y c hxy => ?_) rfl rfl⟩
  · obtain ⟨hk', hne⟩ := FS.own_dropInode hk
    refine ⟨hk', fun hc => ?_⟩
    -- only the new directory itself can hold its block
    have hp := h.blocks.home i b hheld k (hc ▸ hk')
    rw [Function.update_self] at hp
    exact hne (hpoints _ hp)
  · rcases hx with ⟨ino, rfl⟩ | rfl
    · cases hxy
      rfl
    · cases hxy

/-- A new file is given up. -/
theorem Together.drop (h : Together base (Function.update g i x) s)
    (hx : (∃ ino, x = .holds ino id none) ∨ x = .linking id none) :
    Together base (Function.update g i .ended) (s.dropInode id) := by
  refine ⟨h.ready.dropInode id, h.base_le, h.blocks.keep (fun k c hk => (FS.own_dropInode hk).1)
    (fun _ hc => hc) (fun n c hc => by cases n <;> cases hc) (fun hnone => absurd rfl hnone),
    h.numbers.drop (fun n y c hxy => ?_) rfl rfl⟩
  rcases hx with ⟨ino, rfl⟩ | rfl
  · cases hxy
    rfl
  · cases hxy

/-- A task that has no unmarked number in hand is over. -/
theorem Together.finish (h : Together base (Function.update g i x) s) (hx : x.number = none) :
    Together base (Function.update g i .ended) s :=
  ⟨h.ready, h.base_le, h.blocks.keep (fun _ _ hk => hk) (fun _ hc => hc)
    (fun n b hb => by cases n <;> cases hb) (fun hnone => absurd rfl hnone),
    h.numbers.keep rfl (fun _ e he => ⟨e, he, rfl⟩) (fun _ hn => by cases hn)
      fun n y b hxy => by rw [hxy] at hx; cases hx⟩

/-- A task that found a number and could not use it is over. -/
theorem Together.giveUp {ino : Nat} (h : Together base (Function.update g i (.found ino)) s) :
    Together base (Function.update g i .ended) s :=
  ⟨h.ready, h.base_le, h.blocks.keep (fun _ _ hk => hk) (fun _ hc => hc)
    (fun n b hb => by cases n <;> cases hb) (fun hnone => absurd rfl hnone),
    h.numbers.keep rfl (fun _ e he => ⟨e, he, rfl⟩) (fun _ hn => by cases hn)
      fun n y b hxy => by cases hxy⟩

/-- The inode's slots are filled in and its number is marked. -/
theorem Together.mark {ino : Nat} {o : Option Nat}
    (h : Together base (Function.update g i (.holds ino id o)) s) (hnd : s.inodes id = some nd)
    (hino : nd'.iIno = nd.iIno)
    (hslot : ∀ k c, nd'.slot k = some c → nd.slot k = some c ∨ (k = 0 ∧ o.map Int.ofNat = some c)) :
    Together base (Function.update g i (.linking id o)) ((s.setInode id nd').markInode ino) := by
  have hready : ((s.setInode id nd').markInode ino).Ready :=
    ⟨h.ready.bitmapBlocks, (h.ready.setInode hnd nd').fresh⟩
  have hheld : inHand (Function.update g i (.holds ino id o)) (i, false) = o.map Int.ofNat := by
    unfold inHand
    simp [Phase.block]
  have hown : ∀ k c, ((s.setInode id nd').markInode ino).own k = some c →
      s.own k = some c ∨ (k = (id, 0) ∧ o.map Int.ofNat = some c) := by
    rintro ⟨y, k⟩ c hk
    by_cases hy : y = id
    · subst hy
      have hself : ((s.setInode y nd').markInode ino).inodes y = some nd' :=
        FS.inodes_setInode_self
      rw [FS.own_of (k := (y, k)) hself] at hk
      rw [FS.own_of (k := (y, k)) hnd]
      rcases hslot k c hk with hk | ⟨rfl, ho⟩
      · exact .inl hk
      · exact .inr ⟨rfl, ho⟩
    · have hold : (s.setInode id nd').own (y, k) = s.own (y, k) := FS.own_setInode_ne hy
      exact .inl (hold.symm.trans hk)
  -- until now no inode held the block
  have hnew : ∀ k c, o.map Int.ofNat = some c → s.own k ≠ some c := by
    intro k c ho hk
    obtain ⟨b, rfl, rfl⟩ := Option.map_eq_some_iff.mp ho
    have hp := h.blocks.home i b hheld k hk
    rw [Function.update_self] at hp
    exact hp
  have hback : ∀ k, inHand (Function.update g i (.linking id o)) k
      = inHand (Function.update g i (.holds ino id o)) k := by
    rintro ⟨j, n⟩
    unfold inHand
    by_cases hj : j = i
    · subst hj
      cases n <;> simp [Phase.block]
    · simp [hj]
  refine ⟨hready, h.base_le, ⟨⟨fun k c hk => ?_, fun k l c hk hl => ?_⟩, ⟨fun k c hk => ?_,
    fun k l c hk hl => ?_⟩, fun j b hj k hk => ?_⟩, ?_⟩
  · rcases hown k c hk with hk | ⟨_, ho⟩
    · exact h.blocks.owned.marked k c hk
    · exact h.blocks.hands.marked (i, false) c (hheld.trans ho)
  · rcases hown k c hk with hk | ⟨rfl, ho⟩
    · rcases hown l c hl with hl | ⟨_, ho⟩
      · exact h.blocks.owned.inj k l c hk hl
      · exact absurd hk (hnew k c ho)
    · rcases hown l c hl with hl | ⟨rfl, _⟩
      · exact absurd hl (hnew l c ho)
      · rfl
  · exact h.blocks.hands.marked k c ((hback k).symm.trans hk)
  · exact h.blocks.hands.inj k l c ((hback k).symm.trans hk) ((hback l).symm.trans hl)
  · rw [hback] at hj
    rcases hown k b hk with hk | ⟨rfl, ho⟩
    · have hp := h.blocks.home j b hj k hk
      by_cases hji : j = i
      · subst hji
        rw [Function.update_self] at hp
        exact hp.elim
      · simpa [hji] using hp
    · have hji := h.blocks.hands.inj (j, false) (i, false) b hj (hheld.trans ho)
      cases hji
      simp [Phase.points]
  · have hnone := h.numbers.none_left (y := .linking id o) (by simp [Phase.number]) rfl
    have hino' : ∀ y e, ((s.setInode id nd').markInode ino).inodes y = some e →
        ∃ e', s.inodes y = some e' ∧ e'.iIno = e.iIno := by
      intro y e he
      by_cases hy : y = id
      · subst hy
        cases (FS.inodes_setInode_self (s := s)).symm.trans he
        exact ⟨nd, hnd, hino.symm⟩
      · exact ⟨e, (FS.inodes_setInode_ne hy).symm.trans he, rfl⟩
    refine ⟨fun j k hj _ => absurd (hnone j) hj, fun j n hj => ?_, fun y e hy he => ?_,
      fun y y' e e' hy hy' he he' heq => ?_⟩
    · rw [hnone j] at hj
      cases hj
    · obtain ⟨e', he', heq⟩ := hino' y e he
      refine .inl ?_
      show (s.sbi.inodeBitmap.setBit (ino - 1)).bit (e.iIno - 1) = true
      rw [bit_setBit, Bool.or_eq_true, ← heq]
      rcases h.numbers.numbered y e' hy he' with hm | ⟨j, c, hj⟩
      · exact .inr hm
      · have hji : j = i := h.numbers.single j i (by rw [hj]; simp [Phase.number])
          (by simp [Phase.number])
        subst hji
        rw [Function.update_self] at hj
        injection hj with hn
        exact .inl (decide_eq_true (by rw [hn]))
    · obtain ⟨e1, he1, h1⟩ := hino' y e he
      obtain ⟨e2, he2, h2⟩ := hino' y' e' he'
      exact h.numbers.distinct y y' e1 e2 hy hy' he1 he2 (by rw [h1, h2, heq])

end Steps

/-! ## The calls keep the discipline -/

/-- A turn that does not run into either defect: a call begins only while no
other one waits with an unmarked number, and the read of a block just attached
to a directory succeeds. -/
structure TurnOk (pend : ι → Option Call) (s : FS) (i : ι) (ans : Answers) : Prop where
  begins : pend i = none → ∀ j, pend j ≠ some .newInode ∧
    ∀ b, pend j ≠ some (.sbBread .mkdirNew 0 b)
  attached : ∀ b k, pend i = some (.sbBread .addEntryNew 0 b) → s.own k = some b →
    ans (.sbBread .addEntryNew 0 b) = true

/-- The discipline of creations; the inodes from `base` on are theirs. -/
def creating (ι : Type) (base : Nat) : Discipline ι FS Call Call.Ans Phase where
  sleeps := Call.sleeps
  inv := Together base
  waits := Phase.waits
  ok := TurnOk

/-- A call that begins is alone in looking for a number. -/
theorem Turn.alone {base : Nat} {g : ι → Phase} {i : ι} {s : FS} {ans : Answers}
    (h : (creating ι base).Turn i .ready none g s ans) (j : ι) :
    (g j).number = none := by
  obtain ⟨pend, hwaits, hpend, hok⟩ := h.ok
  obtain ⟨hnew, hmkdir⟩ := hok.begins hpend j
  have hj : (g j).waits (pend j) := hwaits j
  cases hg : g j with
  | ready | linking | attaching | ended => rfl
  | found ino =>
      rw [hg] at hj
      exact absurd hj hnew
  | holds ino id b =>
      rw [hg] at hj
      obtain ⟨c, -, hc⟩ := hj
      exact absurd hc (hmkdir c)

section Safe

open Prog

variable [DecidableEq ι] {base id dir : Nat} {g : ι → Phase} {i : ι} {x : Phase} {s : FS}
  {nii : Inode} {name : Name} {o : Option Nat} {α : Type} {Q : α → (ι → Phase) → FS → Prop}

theorem silent_inode (id : Nat) : (inode id).Silent := silent_step _

theorem silent_updInode (id : Nat) (f : Inode → Inode) : (updInode id f).Silent :=
  (silent_inode id).bind fun _ => silent_modify _

theorem silent_pointer (nii : Inode) (i : Int) : (pointer nii i).Silent := by
  unfold pointer
  split
  · exact silent_fault _
  · exact silent_pure _

theorem silent_allocBlock : allocBlock.Silent := silent_step _

theorem silent_freeBlock (b : Int) : (freeBlock b).Silent := silent_step _

theorem silent_setInodeBit (ino : Int) : (setInodeBit ino).Silent := silent_step _

theorem silent_findFreeInode : findFreeInode.Silent := silent_step _

theorem waits_attaching {c : Nat} :
    (Phase.attaching id o c).waits (some (.sbBread .addEntryNew 0 c)) := rfl

/-- What a task knows when its turn comes. -/
theorem Turn.together {w : Option Call} {ans : Answers}
    (h : (creating ι base).Turn i x w g s ans) : Together base (Function.update g i x) s := by
  rw [← h.self, Function.update_eq_self]
  exact h.inv

/-- Reading a block: the task waits in phase `x`. -/
theorem safe_sbBread (x : Phase) {site : Site} {k : Nat} {b : Int} {f : Bool → K α}
    (hw : x.waits (some (.sbBread site k b))) (h : Together base (Function.update g i x) s)
    (htrue : ∀ g s, Together base (Function.update g i x) s →
      (creating ι base).Safe i Q (f true) g s)
    (hfalse : ∀ g s ans, (creating ι base).Turn i x (some (.sbBread site k b)) g s ans →
      ans (.sbBread site k b) = false → (creating ι base).Safe i Q (f false) g s) :
    (creating ι base).Safe i Q (sbBread site k b >>= f) g s := by
  refine Discipline.Safe.bind (Discipline.Safe.sleep_bind x rfl hw h fun g' s' ans ht => ?_)
  cases hread : (ans (.sbBread site k b) : Bool) with
  | false => exact .pure (hfalse g' s' ans ht hread)
  | true =>
      refine .silent_bind (silent_modify _) ans fun _ t hadd => ?_
      cases hadd
      exact .pure (htrue g' _ ((Turn.together ht).same rfl rfl rfl))

/-- The block loop keeps what each of its rounds keeps. -/
theorem safe_forBlocks {body : Nat → Int → K (Option α)}
    (hbody : ∀ k p g s, Together base (Function.update g i x) s →
      (creating ι base).Safe i (fun _ g s => Together base (Function.update g i x) s)
        (body k p) g s) (n k : Nat) (h : Together base (Function.update g i x) s) :
    (creating ι base).Safe i (fun _ g s => Together base (Function.update g i x) s)
      (forBlocks nii body n k) g s := by
  induction n generalizing k g s with
  | zero => exact .pure h
  | succ n ih =>
      rw [forBlocks]
      refine .silent_bind (silent_pointer _ _) (Answers.good default 0 0) fun p t hp => ?_
      obtain ⟨-, -, rfl⟩ := exec_pointer_ok hp
      split
      · exact ih (k + 1) h
      · refine .bind ((hbody k p g t h).mono fun r g s hr => ?_)
        cases r with
        | none => exact ih (k + 1) hr
        | some a => exact .pure hr

/-- Looking for a free record. -/
theorem safe_addEntryScan {ino : Int}
    (h : Together base (Function.update g i (.linking id o)) s) :
    (creating ι base).Safe i (fun _ g s => Together base (Function.update g i (.linking id o)) s)
      (addEntryScan nii name ino) g s := by
  refine safe_forBlocks (fun k p g s h => ?_) _ _ h
  refine safe_sbBread (.linking id o) ⟨k, p, rfl⟩ h (fun g s h => ?_)
    fun g s ans ht _ => .pure (Turn.together ht)
  simp only [Bool.not_true, Bool.false_eq_true, if_false]
  refine .silent_bind (silent_read _) (Answers.good default 0 0) fun d t hd => ?_
  cases hd
  split
  · rename_i j _
    have hfill : (do
        putData p (DirRecord.put (s.block p) j (toU32 ino) name.bytes)
        brelse p
        brelse p
        pure (0 : Int) : K Int).Silent :=
      (silent_modify _).bind fun _ => (silent_modify _).bind fun _ =>
        (silent_modify _).bind fun _ => silent_pure _
    exact .of_exec (hfill.bind fun a => silent_pure (some a)) (Answers.good default 0 0) rfl
      (h.same rfl rfl rfl)
  · exact .of_exec ((silent_modify _).bind fun _ => silent_pure none) (Answers.good default 0 0)
      rfl (h.same rfl rfl rfl)

/-- Assigning to an inode what is neither its number nor a slot. -/
theorem safe_updInode {f : Inode → Inode} {p : K α} (x : Phase)
    (h : Together base (Function.update g i x) s) (hino : ∀ nd, (f nd).iIno = nd.iIno)
    (hslot : ∀ nd k, (f nd).slot k = nd.slot k)
    (hp : ∀ t, Together base (Function.update g i x) t → (creating ι base).Safe i Q p g t) :
    (creating ι base).Safe i Q (updInode id f >>= fun _ => p) g s := by
  refine .silent_bind (silent_updInode _ _) (Answers.good default 0 0) fun _ t ht => ?_
  obtain ⟨nd, hnd, rfl⟩ := exec_updInode_ok ht
  exact hp _ (h.setInode hnd (hino nd) (hslot nd))

theorem safe_addEntryNew {ino : Int} (h : Together base (Function.update g i (.linking id o)) s) :
    (creating ι base).Safe i (fun _ g s => Together base (Function.update g i (.linking id o)) s)
      (addEntryNew dir name ino) g s := by
  rw [addEntryNew]
  refine .silent_bind silent_allocBlock (Answers.good default 0 0) fun c t halloc => ?_
  rcases exec_allocBlock_cases halloc with ⟨hneg, rfl, -⟩ | ⟨c, rfl, rfl, hfree⟩
  · rw [if_pos hneg]
    exact .pure h
  rw [if_neg (by omega)]
  refine .silent_bind (silent_updInode _ _) (Answers.good default 0 0) fun _ t ht => ?_
  obtain ⟨d, hd, rfl⟩ := exec_updInode_ok ht
  have hd' : s.inodes dir = some d := hd
  refine safe_sbBread (.attaching id o c) waits_attaching (h.attach hfree hd') (fun g s h => ?_)
    fun g s ans ht hread => ?_
  · -- the block is read: it becomes part of the directory
    simp only [Bool.not_true, Bool.false_eq_true, if_false]
    refine .silent_bind (silent_read _) (Answers.good default 0 0) fun d t hd => ?_
    cases hd
    refine .silent_bind (silent_modify _) (Answers.good default 0 0) fun _ t ht => ?_
    cases ht
    refine .silent_bind (silent_modify _) (Answers.good default 0 0) fun _ t ht => ?_
    cases ht
    exact safe_updInode (.linking id o) (h.settle.same rfl rfl rfl) (fun _ => rfl)
      (fun _ _ => rfl) fun t ht => .pure ht
  · -- it is not: nobody holds it, or the turn would not be allowed
    obtain ⟨pend, -, hpend, hok⟩ := ht.ok
    have hnone : ∀ k, s.own k ≠ some (c : Int) := fun k hk => by
      have := hok.attached c k hpend hk
      rw [hread] at this
      cases this
    have htog := (Turn.together ht).detach hnone
    refine .silent_bind (silent_freeBlock _) (Answers.good default 0 0) fun _ t ht => ?_
    have hfreed : (freeBlock c).exec (Answers.good default 0 0) s = .ok ((), s.unmarkBlock c) :=
      exec_freeBlock hfree.bitmap htog.ready.bitmapBlocks
    cases hfreed.symm.trans ht
    exact .pure htog

/-- Adding an entry gives no number and keeps the blocks apart. -/
theorem safe_naiveAddEntry {ino : Int} (h : Together base (Function.update g i (.linking id o)) s) :
    (creating ι base).Safe i (fun _ g s => Together base (Function.update g i (.linking id o)) s)
      (naiveAddEntry dir name ino) g s := by
  rw [naiveAddEntry]
  refine .silent_bind (silent_inode _) (Answers.good default 0 0) fun nii t hnii => ?_
  obtain ⟨-, rfl⟩ := exec_inode_ok hnii
  refine .bind ((safe_addEntryScan h).mono fun r g s h => ?_)
  cases r with
  | some a => exact .pure h
  | none => exact safe_addEntryNew h

/-- The owner and the times of a new inode are set. -/
theorem safe_setOwner {mode : Nat} {p : K α} (x : Phase)
    (h : Together base (Function.update g i x) s)
    (hp : ∀ t, Together base (Function.update g i x) t → (creating ι base).Safe i Q p g t) :
    (creating ι base).Safe i Q (do
      inodeInitOwner id dir mode
      let ts ← ktime
      updInode id fun nd => nd.setTimes ts
      p) g s := by
  refine .bind (.ask_bind rfl fun uid => .ask_bind rfl fun gid => ?_)
  refine .silent_bind (silent_inode _) (Answers.good default 0 0) fun d t hd => ?_
  obtain ⟨-, rfl⟩ := exec_inode_ok hd
  refine .silent (silent_updInode _ _) (Answers.good default 0 0) fun _ t ht => ?_
  obtain ⟨nd, hnd, rfl⟩ := exec_updInode_ok ht
  have howner := h.setInode hnd (initOwner_iIno nd d uid gid mode) fun k =>
    initOwner_slot _ _ _ _ _ k
  refine .ask_bind rfl fun ts => ?_
  exact safe_updInode x howner (fun _ => rfl) (fun _ _ => rfl) hp

/-- The end of both calls, once the entry is in or cannot be. -/
theorem safe_over {p : K Int} {a : Int} {t : FS} (hp : p.Silent)
    (hexec : p.exec (Answers.good default 0 0) s = .ok (a, t))
    (h : Together base (Function.update g i .ended) t) :
    (creating ι base).Safe i ((creating ι base).Ends i) p g s :=
  .of_exec hp _ hexec ⟨.ended, rfl, h⟩

theorem safe_createInode {ino mode : Nat}
    (h : Together base (Function.update g i (.found ino)) s) :
    (creating ι base).Safe i ((creating ι base).Ends i)
      (createInode dir name mode s.nextInode ino) g (s.withNew { iNlink := 1 }) := by
  obtain ⟨h1, h2, -⟩ := h.numbers.unmarked i ino (by simp [Phase.number])
  rw [createInode]
  refine .silent_bind (silent_updInode _ _) (Answers.good default 0 0) fun _ t ht => ?_
  rw [exec_updInode FS.inodes_withNew_self, FS.setInode_withNew, toU64_ino h2] at ht
  cases ht
  have hborn : Together base (Function.update g i (.holds ino s.nextInode none))
      (s.withNew { iNlink := 1, iIno := ino }) := h.born rfl fun k => if_neg (by simp)
  generalize s.nextInode = id at hborn ⊢
  refine safe_setOwner (.holds ino id none) hborn fun t ht => ?_
  refine .silent_bind (silent_updInode _ _) (Answers.good default 0 0) fun _ u hu => ?_
  obtain ⟨nd, hnd, rfl⟩ := exec_updInode_ok hu
  refine .silent_bind (silent_setInodeBit _) (Answers.good default 0 0) fun _ v hv => ?_
  rw [exec_setInodeBit h1 h2] at hv
  cases hv
  have hmark : Together base (Function.update g i (.linking id none))
      ((t.setInode id { nd with iNlink := 1, iSize := 0 }).markInode ino) :=
    ht.mark hnd rfl fun k c hk => .inl hk
  refine .bind ((safe_naiveAddEntry hmark).mono fun r g s hs => ?_)
  split
  · exact safe_over ((silent_modify _).bind fun _ => silent_pure r) rfl (hs.drop (.inr rfl))
  · exact safe_over ((silent_modify _).bind fun _ => silent_pure 0) rfl
      ((hs.finish rfl).same rfl rfl rfl)

/-- What both calls do first: find a number and wait for the inode. -/
theorem safe_begin {ans : Answers} {f : Nat → Int → K Int}
    (h : (creating ι base).Turn i .ready none g s ans)
    (hf : ∀ g s ino, Together base (Function.update g i (.found ino)) s →
      (creating ι base).Safe i ((creating ι base).Ends i) (f s.nextInode (ino : Nat)) g
        (s.withNew { iNlink := 1 })) :
    (creating ι base).Safe i ((creating ι base).Ends i) (do
      let _ ← inode dir
      let ino ← findFreeInode
      if ino = 0 then pure (-ENOSPC) else
      match ← newInode with
      | none => pure (-ENOMEM)
      | some id => f id ino) g s := by
  have hready := Turn.together h
  refine .silent_bind (silent_inode _) ans fun _ t ht => ?_
  obtain ⟨-, rfl⟩ := exec_inode_ok ht
  refine .silent_bind silent_findFreeInode ans fun r t hfind => ?_
  obtain ⟨rfl, ⟨rfl, -⟩ | ⟨ino, rfl, hfree⟩⟩ := exec_findFreeInode hfind
  · rw [if_pos rfl]
    exact safe_over (silent_pure _) rfl (hready.finish rfl)
  have hpos := hfree.pos
  rw [if_neg (by omega)]
  have hfound := hready.find hfree fun j _ => Turn.alone h j
  refine .bind (.sleep_bind (.found ino) rfl rfl hfound fun g' s' ans' ht => ?_)
  have hfound' := Turn.together ht
  cases hnew : (ans' .newInode : Bool) with
  | false => exact .pure (safe_over (silent_pure _) rfl hfound'.giveUp)
  | true =>
      refine .silent_bind (silent_read _) ans' fun id t hid => ?_
      cases hid
      refine .silent_bind (silent_modify _) ans' fun _ t hmod => ?_
      cases hmod
      exact .pure (hf g' s' ino hfound')

theorem safe_naiveCreate {ans : Answers} {mode : Nat}
    (h : (creating ι base).Turn i .ready none g s ans) :
    (creating ι base).Safe i ((creating ι base).Ends i) (naiveCreate dir name mode) g s :=
  safe_begin h fun _ _ _ hfound => safe_createInode hfound

theorem safe_mkdirLink {b : Nat} {ino : Int}
    (h : Together base (Function.update g i (.linking id (some b))) s) :
    (creating ι base).Safe i ((creating ι base).Ends i) (mkdirLink dir name id ino b) g s := by
  rw [mkdirLink]
  refine .bind ((safe_naiveAddEntry h).mono fun r g s hs => ?_)
  split
  · have hb : b < 4096 := by
      have hhand :
          inHand (Function.update g i (.linking id (some b))) (i, false) = some (b : Int) := by
        unfold inHand
        simp [Phase.block]
      have := (hs.blocks.hands.marked _ _ hhand).2.1
      omega
    refine .silent_bind (silent_freeBlock _) (Answers.good default 0 0) fun _ t ht => ?_
    rw [exec_freeBlock hb hs.ready.bitmapBlocks] at ht
    cases ht
    exact safe_over ((silent_modify _).bind fun _ => silent_pure r) rfl (hs.abandon (.inr rfl))
  · refine safe_updInode (.linking id (some b)) hs (fun _ => rfl) (fun _ _ => rfl) fun t ht => ?_
    exact safe_over ((silent_modify _).bind fun _ => silent_pure 0) rfl
      ((ht.finish rfl).same rfl rfl rfl)

theorem safe_mkdirFill {ino b mode : Nat}
    (h : Together base (Function.update g i (.holds ino id (some b))) s) :
    (creating ι base).Safe i ((creating ι base).Ends i) (mkdirFill dir name mode id ino b) g s := by
  obtain ⟨h1, h2, -⟩ := h.numbers.unmarked i ino (by simp [Phase.number])
  rw [mkdirFill]
  refine safe_setOwner (.holds ino id (some b)) h fun t ht => ?_
  refine .silent_bind (silent_updInode _ _) (Answers.good default 0 0) fun _ u hu => ?_
  obtain ⟨nd, hnd, rfl⟩ := exec_updInode_ok hu
  refine .silent_bind (silent_setInodeBit _) (Answers.good default 0 0) fun _ v hv => ?_
  rw [exec_setInodeBit h1 h2] at hv
  cases hv
  refine safe_mkdirLink (ht.mark hnd rfl fun k c hk => ?_)
  obtain ⟨hk8, hp, hne⟩ := Inode.slot_eq_some.mp hk
  by_cases hk0 : k = 0
  · subst hk0
    have hc : (b : Int) = c := (Function.update_self 0 (b : Int) nd.blockPointers).symm.trans hp
    exact .inr ⟨rfl, congrArg some hc⟩
  · exact .inl (Inode.slot_eq_some.mpr ⟨hk8, (Function.update_of_ne hk0 _ _).symm.trans hp, hne⟩)

theorem safe_mkdirInode {ino mode : Nat}
    (h : Together base (Function.update g i (.found ino)) s) :
    (creating ι base).Safe i ((creating ι base).Ends i)
      (mkdirInode dir name mode s.nextInode ino) g (s.withNew { iNlink := 1 }) := by
  obtain ⟨h1, h2, -⟩ := h.numbers.unmarked i ino (by simp [Phase.number])
  rw [mkdirInode]
  refine .silent_bind (silent_updInode _ _) (Answers.good default 0 0) fun _ t ht => ?_
  rw [exec_updInode FS.inodes_withNew_self, FS.setInode_withNew, toU64_ino h2] at ht
  cases ht
  have hborn : Together base (Function.update g i (.holds ino s.nextInode none))
      (s.withNew { iNlink := 1, iIno := ino }) := h.born rfl fun k => if_neg (by simp)
  generalize s.nextInode = id at hborn ⊢
  refine .silent_bind silent_allocBlock (Answers.good default 0 0) fun c t halloc => ?_
  rcases exec_allocBlock_cases halloc with ⟨hneg, rfl, -⟩ | ⟨b, rfl, rfl, hfree⟩
  · rw [if_pos hneg]
    exact safe_over ((silent_modify _).bind fun _ => silent_pure (-ENOSPC)) rfl
      (hborn.drop (.inl ⟨ino, rfl⟩))
  rw [if_neg (by omega)]
  refine safe_sbBread (.holds ino id (some b)) ⟨b, rfl, rfl⟩ (hborn.alloc hfree) (fun g s hs => ?_)
    fun g s ans ht hread => ?_
  · simp only [Bool.not_true, Bool.false_eq_true, if_false]
    refine .silent_bind (silent_read _) (Answers.good default 0 0) fun d t hd => ?_
    cases hd
    refine .silent_bind (silent_inode _) (Answers.good default 0 0) fun parent t hpar => ?_
    obtain ⟨-, rfl⟩ := exec_inode_ok hpar
    refine .silent_bind (silent_modify _) (Answers.good default 0 0) fun _ t ht => ?_
    cases ht
    refine .silent_bind (silent_modify _) (Answers.good default 0 0) fun _ t ht => ?_
    cases ht
    exact safe_mkdirFill (hs.same rfl rfl rfl)
  · have hs := Turn.together ht
    refine .silent_bind (silent_freeBlock _) ans fun _ t ht => ?_
    rw [exec_freeBlock hfree.bitmap hs.ready.bitmapBlocks] at ht
    cases ht
    exact safe_over ((silent_modify _).bind fun _ => silent_pure (- EIO)) rfl
      (hs.abandon (.inl ⟨ino, rfl⟩))

theorem safe_naiveMkdir {ans : Answers} {mode : Nat}
    (h : (creating ι base).Turn i .ready none g s ans) :
    (creating ι base).Safe i ((creating ι base).Ends i) (naiveMkdir dir name mode) g s :=
  safe_begin h fun _ _ _ hfound => safe_mkdirInode hfound

/-- A call that has not begun rests. -/
theorem Creation.rests (call : Creation) :
    (creating ι base).Rests i call.prog .ready := by
  cases call with
  | create dir name mode => exact ⟨rfl, fun _ _ _ ht => safe_naiveCreate ht⟩
  | mkdir dir name mode => exact ⟨rfl, fun _ _ _ ht => safe_naiveMkdir ht⟩

end Safe

/-! ## Runs -/

/-- Who has a block: a slot of an inode, or a call that waits to fill the block of
its new directory. -/
def crowdOwn (c : Crowd ι) : (Nat × Nat) ⊕ ι → Option Int
  | .inl k => c.state.own k
  | .inr i =>
    match (c.tasks i).pending Call.sleeps with
    | some (.sbBread .mkdirNew _ b) => some b
    | _ => none

/-- The inodes made since address `base` have different numbers, and no block is
had twice. -/
structure CreatedApart (base : Nat) (c : Crowd ι) : Prop where
  numbers : ∀ id id' nd nd', base ≤ id → base ≤ id' → c.state.inodes id = some nd →
    c.state.inodes id' = some nd' → nd.iIno = nd'.iIno → id = id'
  blocks : Exclusive (crowdOwn c) c.state.isMarked

/-- A call waiting to fill a new directory's block has it in hand. -/
theorem Phase.inHand_of_waits {g : ι → Phase} {i : ι} {k : Nat} {b : Int}
    (h : (g i).waits (some (.sbBread .mkdirNew k b))) :
    inHand g (i, false) = some b ∧ ∀ x, ¬ (g i).points x := by
  unfold inHand
  cases hg : g i with
  | ready | found | ended =>
      rw [hg] at h
      cases h
  | linking | attaching =>
      rw [hg] at h
      simp [Phase.waits] at h
  | holds ino id o =>
      rw [hg] at h
      obtain ⟨c, rfl, hc⟩ := h
      cases hc
      exact ⟨rfl, fun _ hx => hx⟩

theorem crowdOwn_inr {c : Crowd ι} {g : ι → Phase} {i : ι} {b : Int}
    (hwaits : (g i).waits ((c.tasks i).pending Call.sleeps))
    (h : crowdOwn c (.inr i) = some b) :
    inHand g (i, false) = some b ∧ ∀ x, ¬ (g i).points x := by
  unfold crowdOwn at h
  dsimp only at h
  split at h
  · rename_i hpend
    cases h
    rw [hpend] at hwaits
    exact Phase.inHand_of_waits hwaits
  · cases h

/-- The invariant keeps what was made apart. -/
theorem Together.apart {base : Nat} {g : ι → Phase} {c : Crowd ι} (h : Together base g c.state)
    (hwaits : ∀ i, (g i).waits ((c.tasks i).pending Call.sleeps)) : CreatedApart base c := by
  refine ⟨h.numbers.distinct, ⟨fun k b hk => ?_, fun k l b hk hl => ?_⟩⟩
  · cases k with
    | inl k => exact h.blocks.owned.marked k b hk
    | inr i => exact h.blocks.hands.marked _ b (crowdOwn_inr (hwaits i) hk).1
  · cases k with
    | inl k =>
        cases l with
        | inl l => exact congrArg Sum.inl (h.blocks.owned.inj k l b hk hl)
        | inr j =>
            obtain ⟨hhand, hpoints⟩ := crowdOwn_inr (hwaits j) hl
            exact absurd (h.blocks.home j b hhand k hk) (hpoints k.1)
    | inr i =>
        obtain ⟨hhand, hpoints⟩ := crowdOwn_inr (hwaits i) hk
        cases l with
        | inl l => exact absurd (h.blocks.home i b hhand l hl) (hpoints l.1)
        | inr j =>
            have hhand' := (crowdOwn_inr (hwaits j) hl).1
            cases h.blocks.hands.inj _ _ b hhand hhand'
            rfl

/-- Before any call has begun. -/
theorem together_start {s : FS} (hs : s.Ready) (howned : s.OwnedOnce) :
    Together s.nextInode (fun _ : ι => .ready) s := by
  have hhand : ∀ k b, inHand (fun _ : ι => Phase.ready) k ≠ some b := by
    intro k b hk
    unfold inHand at hk
    simp [Phase.block] at hk
  have hnew : ∀ id nd, s.nextInode ≤ id → s.inodes id ≠ some nd := by
    intro id nd hid hnd
    rw [hs.fresh id hid] at hnd
    cases hnd
  have hnumber : ∀ (_ : ι), (Phase.ready).number = none := fun _ => rfl
  refine ⟨hs, Nat.le_refl _, ⟨howned, ⟨fun k b hk => absurd hk (hhand k b),
    fun k l b hk => absurd hk (hhand k b)⟩, fun i b hi => absurd hi (hhand _ b)⟩, ?_⟩
  exact {
    single := fun i _ hi => absurd (hnumber i) hi
    unmarked := fun i n hi => by cases hi
    numbered := fun id nd hid hnd => absurd hnd (hnew id nd hid)
    distinct := fun id _ nd _ hid _ hnd => absurd hnd (hnew id nd hid) }

/-- In every interleaving of creations on different directories in which no call
begins while another waits with an unmarked number, and no block just attached
to a directory fails to be read, the new inodes have different numbers and no
block has two owners. -/
theorem creations_apart {disk : Nat → Bytes} {s0 s : FS} [DecidableEq ι] (calls : Creations ι)
    {c : Crowd ι} (h0 : Mounted disk s0)
    (hs : Reach (fun s op ans _ => op.cached ∧ AttachReadable s ans op) s0 s)
    (h : Pool.Reach Call.sleeps
      (fun c i ans => TurnOk (c.pending Call.sleeps) c.state i ans) (calls.start s) c) :
    CreatedApart s.nextInode c := by
  have hmount : s0.OwnedOnce := by
    obtain ⟨_, ts, rfl⟩ := mounted_eq h0
    exact owned_mounted disk ts
  have hinv : s.Ready ∧ s.OwnedOnce := by
    refine hs.invariant (I := fun s => s.Ready ∧ s.OwnedOnce) ⟨h0.ready, hmount⟩ ?_
    intro t op ans r u ht hP hstep
    exact ⟨hstep.ready ht.1, (hstep.owned_iff ht.1 ht.2 hP.1).mpr hP.2⟩
  obtain ⟨g, htog, hrest⟩ := Pool.Reach.keeps (D := creating ι s.nextInode) h
    ⟨fun _ => .ready, together_start hinv.1 hinv.2, fun i => (calls.call i).rests⟩
  exact htog.apart fun i => (hrest i).waits

/-! ## Two creations -/

/-- `create` in the root and in a directory below it. -/
def twoCreates : Creations Bool where
  call
    | false => .create 0 (.letters 2 Nat.two_pos Name.two_le_max) 0o100644
    | true => .create 1 (.letters 1 Nat.one_pos Name.one_le_max) 0o100644
  apart := by decide

/-- A fresh device on which a directory was made. -/
def withDirectory : List (Op × Answers) :=
  [(.mkdir 0 (.letters 1 Nat.one_pos Name.one_le_max) 0o755, Answers.good default 0 0)]

/-- Whether a turn of one of two tasks is allowed. -/
def turnTest (c : Crowd Bool) (i : Bool) (ans : Answers) : Bool :=
  match (c.tasks i).pending Call.sleeps with
  | none => [false, true].all fun j =>
      match (c.tasks j).pending Call.sleeps with
      | some .newInode | some (.sbBread .mkdirNew _ _) => false
      | _ => true
  | some (.sbBread .addEntryNew 0 b) => ans (.sbBread .addEntryNew 0 b)
  | _ => true

theorem turnOk_of_test {c : Crowd Bool} {i : Bool} {ans : Answers} (h : turnTest c i ans = true) :
    TurnOk (c.pending Call.sleeps) c.state i ans := by
  unfold turnTest at h
  refine ⟨fun hpend j => ?_, fun b k hpend _ => ?_⟩
  · have hpend' : (c.tasks i).pending Call.sleeps = none := hpend
    rw [hpend'] at h
    have hj := List.all_eq_true.mp h j (by cases j <;> simp)
    refine ⟨fun hnew => ?_, fun b hnew => ?_⟩
    all_goals
      have hnew' : (c.tasks j).pending Call.sleeps = _ := hnew
      rw [hnew'] at hj
      cases hj
  · have hpend' : (c.tasks i).pending Call.sleeps = _ := hpend
    rw [hpend'] at h
    exact h

/-- One after the other, the two calls get different numbers. -/
theorem creations_apart_one_by_one : ∃ s c,
    runOps (FS.mounted (sampleDisk 128 1000 4 132) default) withDirectory = .ok s ∧
      (twoCreates.start s).turns Call.sleeps turnTest
        ([false, false, false, true, true, true].map fun i => (i, Answers.good default 0 0))
        = some c ∧ CreatedApart s.nextInode c := by
  obtain ⟨s, hs, hcheck⟩ := exists_of_runsTo
    (show runsTo (FS.mounted (sampleDisk 128 1000 4 132) default) withDirectory (fun s =>
      ((twoCreates.start s).turns Call.sleeps turnTest ([false, false, false, true, true, true].map
        fun i => (i, Answers.good default 0 0))).isSome) = true by decide +kernel)
  obtain ⟨c, hc⟩ := Option.isSome_iff_exists.mp hcheck
  refine ⟨s, c, hs, hc, creations_apart twoCreates (sampleDisk_mounted 128 1000 4 132 default)
    (Reach.of_runOps (fun t x _ hx => ?_) .refl hs)
    (Pool.Reach.of_turns (fun _ _ _ hok => turnOk_of_test hok) .refl hc)⟩
  simp only [withDirectory, List.mem_cons, List.not_mem_nil, or_false] at hx
  subst hx
  exact ⟨trivial, attachReadable_good _ _ _ _ _⟩

/-- Both calls look for a number before either waits for its inode: both get 3. -/
theorem creations_share_number : ¬ ∀ (disk : Nat → Bytes) (s0 s : FS) (calls : Creations Bool)
    (c : Crowd Bool), Mounted disk s0 → Reach (fun _ op _ _ => op.cached) s0 s →
    Pool.Reach Call.sleeps (fun _ _ _ => True) (calls.start s) c →
    CreatedApart s.nextInode c := by
  intro hall
  obtain ⟨s, hs, hcheck⟩ := exists_of_runsTo
    (show runsTo (FS.mounted (sampleDisk 128 1000 4 132) default) withDirectory (fun s =>
      s.nextInode == 2 &&
        ((twoCreates.start s).turns Call.sleeps (fun _ _ _ => true)
          ([false, true, false, false, true, true].map
            fun i => (i, Answers.good default 0 0))).any fun c =>
          ((c.state.inodes 2).map (·.iIno) == some 3) &&
            ((c.state.inodes 3).map (·.iIno) == some 3))
        = true by decide +kernel)
  rw [Bool.and_eq_true, beq_iff_eq, Option.any_eq_true] at hcheck
  obtain ⟨hnext, c, hc, hino⟩ := hcheck
  rw [Bool.and_eq_true, beq_iff_eq, beq_iff_eq, Option.map_eq_some_iff,
    Option.map_eq_some_iff] at hino
  obtain ⟨⟨nd, hnd, h2⟩, nd', hnd', h3⟩ := hino
  have hreach : Reach (fun _ op _ _ => op.cached)
      (FS.mounted (sampleDisk 128 1000 4 132) default) s := by
    refine Reach.of_runOps (fun _ x _ hx => ?_) .refl hs
    simp only [withDirectory, List.mem_cons, List.not_mem_nil, or_false] at hx
    subst hx
    trivial
  have hapart := hall _ _ s twoCreates c (sampleDisk_mounted _ _ _ _ _) hreach
    (Pool.Reach.of_turns (fun _ _ _ _ => trivial) .refl hc)
  have := hapart.numbers 2 3 nd nd' (by omega) (by omega) hnd hnd' (by rw [h2, h3])
  cases this

end NaiveFS
