import NaiveFS.V8.Progress
import NaiveFS.V8.Release

/-!
# Files with gaps (`naivefs-8`)

A file as its user sees it is a flat row of bytes, each the last one written there. The
module keeps it in blocks that are given out when a byte of theirs is first written, with
the bytes they held before.
-/

namespace NaiveFS.V8

open Bytes BlockLoop FirstFit

variable {e : Endian} {sbi : SbInfo} {nii : NaiveInodeInfo} {id i j k q : Nat} {ans : Answers}
  {s t : FS}

/-! ## The flat file -/

/-- A byte and the offset it is written at. -/
abbrev Store := Byte × Nat

/-- The last byte written at each offset. -/
def lastWritten (l : List Store) : Nat → Option Byte :=
  l.foldl (fun f x => Function.update f x.2 (some x.1)) fun _ => none

/-- How far the stores reach. -/
def extent (l : List Store) : Nat := l.foldl (fun n x => max n (x.2 + 1)) 0

/-- The bytes a reader of the flat file finds: 0 where none was written. -/
def flatFile (l : List Store) : Bytes := fun q => (lastWritten l q).getD 0

/-- The block indexes of the stores, in their order. -/
def indexes (l : List Store) : List Nat := l.map fun x => x.2 / naiveBlockSize

section Flat

variable {l l' : List Store} {x : Store}

theorem lastWritten_concat :
    lastWritten (l ++ [x]) = Function.update (lastWritten l) x.2 (some x.1) := by
  unfold lastWritten
  rw [List.foldl_concat]

theorem lastWritten_none (h : ∀ x, x ∈ l → x.2 ≠ q) : lastWritten l q = none := by
  induction l using List.reverseRecOn with
  | nil => rfl
  | append_singleton l x ih =>
    rw [lastWritten_concat, Function.update_of_ne (h x (by simp)).symm]
    exact ih fun y hy => h y (by simp [hy])

theorem indexes_append : indexes (l ++ l') = indexes l ++ indexes l' := List.map_append

theorem mem_indexes : i ∈ indexes l ↔ ∃ x, x ∈ l ∧ x.2 / naiveBlockSize = i := List.mem_map

end Flat

/-! ## Stores into the blocks -/

/-- One byte is stored, as a write of one byte does it. -/
def View.store (v : View) (x : Store) : View :=
  ((v.give (x.2 / naiveBlockSize)).put (x.2 / naiveBlockSize) (x.2 % naiveBlockSize) [x.1]).grow
    (x.2 + 1)

/-- The stores are done one after the other. -/
def View.storeAll (v : View) (l : List Store) : View := l.foldl View.store v

section Stores

variable {v : View} {l l' : List Store} {x : Store} {need : Finset Nat}

theorem storeAll_append : v.storeAll (l ++ l') = (v.storeAll l).storeAll l' := List.foldl_append

theorem storeAll_concat : v.storeAll (l ++ [x]) = (v.storeAll l).store x := List.foldl_concat ..

theorem View.write_eq {xs : List Byte} : v.write q xs = v.storeAll (xs.zipIdx q) := by
  induction xs generalizing v q with
  | nil => rfl
  | cons x xs ih => exact ih

@[simp] theorem plan_store : (v.store x).plan = v.plan.give (x.2 / naiveBlockSize) := rfl

@[simp] theorem size_store : (v.store x).size = max v.size (x.2 + 1) := rfl

theorem plan_storeAll : (v.storeAll l).plan = v.plan.giveAll (indexes l) := by
  induction l using List.reverseRecOn with
  | nil => rfl
  | append_singleton l x ih =>
    rw [storeAll_concat, plan_store, ih, indexes_append, ← giveAll_concat]
    rfl

theorem size_storeAll (h : v.size = 0) : (v.storeAll l).size = extent l := by
  induction l using List.reverseRecOn with
  | nil => exact h
  | append_singleton l x ih =>
    rw [storeAll_concat, size_store, ih]
    unfold extent
    rw [List.foldl_concat]

/-- A store changes the byte it stores and no other byte of a block. -/
theorem bytes_store (y : Nat) : (v.store x).bytes y k =
    if y = (v.plan.give (x.2 / naiveBlockSize)).slots (x.2 / naiveBlockSize) ∧
      k = x.2 % naiveBlockSize then x.1 else v.bytes y k := by
  unfold View.store View.put
  rw [bytes_grow, bytes_give, plan_give]
  dsimp only
  by_cases hy : y = (v.plan.give (x.2 / naiveBlockSize)).slots (x.2 / naiveBlockSize)
  · rw [hy, Function.update_self]
    by_cases hk : k = x.2 % naiveBlockSize
    · rw [if_pos ⟨rfl, hk⟩, blit_in (by omega) (by rw [List.length_singleton]; omega)]
      simp [hk]
    · rw [if_neg fun h => hk h.2, blit_out (by rw [List.length_singleton]; omega)]
  · rw [Function.update_of_ne hy, if_neg fun h => hy h.1]

/-- What the blocks hold after the stores `l` turned `v` into `w`: the last byte written, or
what was in the block before. -/
structure Stored (v w : View) (l : List Store) : Prop where
  held : ∀ j k, w.plan.slots j ≠ 0 → k < naiveBlockSize → w.bytes (w.plan.slots j) k =
    (lastWritten l (naiveBlockSize * j + k)).getD (v.bytes (w.plan.slots j) k)
  others : ∀ y, y ≠ 0 → (∀ j, w.plan.slots j ≠ y) → w.bytes y = v.bytes y

theorem block_offset (hk : k < naiveBlockSize) :
    (naiveBlockSize * j + k) / naiveBlockSize = j ∧
      (naiveBlockSize * j + k) % naiveBlockSize = k := by
  unfold naiveBlockSize at *
  omega

theorem Stored.store {w : View} (h : Stored v w l) (hs : w.plan.Sound)
    (hfresh : w.plan.slots (x.2 / naiveBlockSize) = 0 → x.2 / naiveBlockSize ∉ indexes l) :
    Stored v (w.store x) (l ++ [x]) := by
  have hs' := hs.give (x.2 / naiveBlockSize)
  refine ⟨fun j k hj hk => ?_, fun y hy0 hy => ?_⟩
  · rw [plan_store] at hj ⊢
    obtain ⟨hdiv, hmod⟩ := block_offset (j := j) hk
    rw [bytes_store, lastWritten_concat]
    by_cases hthis : naiveBlockSize * j + k = x.2
    · -- the byte that is stored
      rw [hthis, Function.update_self, ← hthis, hdiv, hmod, if_pos ⟨rfl, rfl⟩]
      rfl
    · rw [Function.update_of_ne hthis, if_neg]
      · by_cases hheld : w.plan.slots j = 0
        · -- the block was free: no byte of it was written yet
          have hji : j = x.2 / naiveBlockSize := by
            by_contra hne
            rw [slots_give_ne hne] at hj
            exact hj hheld
          have hnone : lastWritten l (naiveBlockSize * j + k) = none := by
            apply lastWritten_none
            intro y hy hyq
            apply hfresh (hji ▸ hheld)
            rw [mem_indexes]
            exact ⟨y, hy, by rw [hyq, hdiv, hji]⟩
          have hfree : ∀ i, w.plan.slots i ≠ (w.plan.give (x.2 / naiveBlockSize)).slots j := by
            intro i hi
            have hkept := slots_give_keep (i := x.2 / naiveBlockSize) (hi ▸ hj)
            have hij := hs'.inj i j (by rw [hkept, hi]; exact hj) (hkept.trans hi)
            rw [hij, hheld] at hi
            exact hj hi.symm
          rw [hnone, h.others _ hj hfree]
          rfl
        · rw [slots_give_keep hheld]
          exact h.held j k hheld hk
      · rintro ⟨hsame, hoff⟩
        have hji := hs'.inj _ _ hj hsame
        apply hthis
        rw [hji, hoff]
        exact Nat.div_add_mod ..
  · rw [plan_store] at hy
    funext k
    rw [bytes_store, if_neg fun hyk => hy _ hyk.1.symm]
    refine congrFun (h.others y hy0 fun j hj => ?_) k
    exact hy j ((slots_give_keep (hj ▸ hy0)).trans hj)

/-- After all stores to an empty file. -/
theorem stored_all (hs : v.plan.Sound) (hempty : ∀ i, v.plan.slots i = 0)
    (henough : v.plan.Enough need) (hneed : ∀ i, i ∈ indexes l → i ∈ need) :
    Stored v (v.storeAll l) l := by
  induction l using List.reverseRecOn with
  | nil => exact ⟨fun j k hj => absurd (hempty j) hj, fun y _ _ => rfl⟩
  | append_singleton l x ih =>
    have hl : ∀ i, i ∈ indexes l → i ∈ need := fun i hi => hneed i (by
      rw [indexes_append]
      exact List.mem_append_left _ hi)
    rw [storeAll_concat]
    apply (ih hl).store
    · rw [plan_storeAll]
      exact hs.giveAll _
    · rw [plan_storeAll]
      intro h0 hmem
      exact (slots_giveAll_iff henough hl (hempty _)).mpr hmem h0

/-- The block of a byte, and what the byte is after the stores. -/
theorem content_storeAll (hs : v.plan.Sound) (hempty : ∀ i, v.plan.slots i = 0)
    (henough : v.plan.Enough need) (hneed : ∀ i, i ∈ indexes l → i ∈ need)
    (hq : q / naiveBlockSize ∈ indexes l) :
    (v.storeAll l).content q = (lastWritten l q).getD (v.bytes
      ((v.plan.giveAll (indexes l)).slots (q / naiveBlockSize)) (q % naiveBlockSize)) := by
  have hheld := (slots_giveAll_iff henough hneed (hempty _)).mpr hq
  have hstored := (stored_all hs hempty henough hneed).held (q / naiveBlockSize)
    (q % naiveBlockSize) (by rw [plan_storeAll]; exact hheld) (Nat.mod_lt _ (by decide))
  rw [Nat.div_add_mod, plan_storeAll] at hstored
  unfold View.content
  rw [plan_storeAll]
  exact hstored

end Stores

/-! ## Calls without failures -/

/-- No block read and no user copy fails. -/
structure Answers.NoFailure (ans : Answers) : Prop where
  bread : ∀ site b, ans (.sbBread site b) = true
  fromUser : ∀ i, ans (.copyFromUser i) = (0 : Nat)
  toUser : ∀ i, ans (.copyToUser i) = (0 : Nat)

/-- The bytes a call stores. -/
def FileCall.stores : FileCall → List Store
  | .read _ _ => []
  | .write data pos => data.zipIdx pos

/-- Writes keep to the size limit, and no offset wraps. -/
def FileCall.Allowed : FileCall → Prop
  | .read len pos => pos + len < 2 ^ 64
  | .write data pos => pos + data.length ≤ naiveMaxFileSize

/-- The calls are made one after the other. -/
def runCalls (e : Endian) (id : Nat) : List (FileCall × Answers) → FS → Except Fault FS
  | [], s => .ok s
  | (c, ans) :: calls, s => do
    let (_, t) ← (c.prog e id).exec ans s
    runCalls e id calls t

/-- The bytes the calls store. -/
def allStores (calls : List (FileCall × Answers)) : List Store := calls.flatMap (·.1.stores)

section Calls

variable {need : Finset Nat} {pos : Nat} {data : List Byte}

theorem mem_indexes_zipIdx :
    i ∈ indexes (data.zipIdx pos) ↔ Visits naiveBlockSize pos data.length i := by
  rw [mem_indexes, visits_iff (by decide)]
  constructor
  · rintro ⟨x, hx, hi⟩
    obtain ⟨hle, hget⟩ := List.mem_zipIdx_iff_le_and_getElem?_sub.mp hx
    obtain ⟨hlt, -⟩ := List.getElem?_eq_some_iff.mp hget
    exact ⟨x.2, hle, by omega, hi⟩
  · rintro ⟨q, hle, hlt, hi⟩
    refine ⟨(data[q - pos], q), ?_, hi⟩
    rw [List.mem_zipIdx_iff_le_and_getElem?_sub]
    exact ⟨hle, List.getElem?_eq_getElem (by omega)⟩

/-- A call returns, and its stores are what it does to the file. -/
theorem call_stores (h : OpenFile e sbi s id nii) {c : FileCall} (hc : c.Allowed)
    (hans : ans.NoFailure) (henough : (view e sbi nii s.mem).plan.Enough need)
    (hneed : ∀ i, i ∈ indexes c.stores → i ∈ need) :
    ∃ q t, (c.prog e id).exec ans s = .ok (q, t) ∧ OpenFile e sbi t id nii ∧
      view e sbi nii t.mem = (view e sbi nii s.mem).storeAll c.stores := by
  cases c with
  | read len pos =>
    obtain ⟨r, pos', out, t, hexec, hopen, hmem, -⟩ := exec_naiveFileRead h hc ans
    refine ⟨(r, pos'), t, ?_, hopen, by rw [hmem]; rfl⟩
    rw [FileCall.prog, Prog.exec_bind_of hexec]
    rfl
  | write data pos =>
    have hvisits : ∀ i, Visits naiveBlockSize pos data.length i → i ∈ need := fun i hi =>
      hneed i (mem_indexes_zipIdx.mpr hi)
    have hok : ∀ i, Visits naiveBlockSize pos data.length i →
        WriteOk ans (nextHeld e sbi nii s.mem pos i) i := by
      intro i hi
      refine ⟨⟨henough.held_range hi.2.1 fun k hk hki => hvisits k ⟨hi.1, hk, ?_⟩,
        hans.bread _ _⟩, hans.fromUser i⟩
      have hend := hi.2.2
      have := Nat.mul_le_mul_left naiveBlockSize hki
      omega
    obtain ⟨r, pos', u, hloop, -, -, hall⟩ := fileWriteLoop_ends h (Nat.le_refl data.length) hc
      (fun i _ => rfl) ans 0
    obtain ⟨hopen, hview, -⟩ := hall hok
    obtain ⟨t, hexec, hmem, hkeep⟩ := exec_naiveFileWrite_loop h hc hloop
    exact ⟨_, t, hexec, hkeep hopen, by rw [hmem, hview, View.write_eq]; rfl⟩

/-- So do all calls of a run. -/
theorem runCalls_stores {calls : List (FileCall × Answers)} (h : OpenFile e sbi s id nii)
    (hcalls : ∀ c, c ∈ calls → c.1.Allowed ∧ c.2.NoFailure)
    (henough : (view e sbi nii s.mem).plan.Enough need)
    (hneed : ∀ i, i ∈ indexes (allStores calls) → i ∈ need) :
    ∃ t, runCalls e id calls s = .ok t ∧ OpenFile e sbi t id nii ∧
      view e sbi nii t.mem = (view e sbi nii s.mem).storeAll (allStores calls) := by
  induction calls generalizing s with
  | nil => exact ⟨s, rfl, h, rfl⟩
  | cons c calls ih =>
    have hcons : allStores (c :: calls) = c.1.stores ++ allStores calls := List.flatMap_cons
    obtain ⟨hallowed, hans⟩ := hcalls c (by simp)
    rw [hcons, indexes_append] at hneed
    have hfirst : ∀ i, i ∈ indexes c.1.stores → i ∈ need := fun i hi =>
      hneed i (List.mem_append_left _ hi)
    obtain ⟨q, u, hexec, hopen, hview⟩ := call_stores h hallowed hans henough hfirst
    have henough' : (view e sbi nii u.mem).plan.Enough need := by
      rw [hview, plan_storeAll]
      exact henough.giveAll hfirst
    obtain ⟨t, hrun, hfile, hview'⟩ := ih hopen (fun c hc => hcalls c (by simp [hc])) henough'
      fun i hi => hneed i (List.mem_append_right _ hi)
    refine ⟨t, ?_, hfile, by rw [hview', hview, hcons, storeAll_append]⟩
    rw [runCalls, hexec]
    exact hrun

end Calls

/-! ## A new file -/

/-- What `naive_create` made is an empty file. -/
theorem Created.openFile {dir n : Nat} {name : Name} (h : Created e sbi s t dir name n)
    (hsbi : s.sFsInfo = .live sbi) (hnii : nii = ⟨bData (sbi.tableBlock e n), sbi.tableBlock e n⟩)
    (hlaid : Laid e sbi (onlyRecord s.nextInode (sbi.tableBlock e n))) :
    OpenFile e sbi t s.nextInode nii ∧ (∀ i, nii.slots t.mem i = 0) ∧ nii.size t.mem = 0 := by
  obtain ⟨nd, ts, hmem⟩ := h.mem
  obtain ⟨nd', hino, -, -, hrec⟩ := h.inodes
  generalize sbi.tableBlock e n = b at *
  have hslots : ∀ i, nii.slots t.mem i = 0 := by
    intro i
    unfold NaiveInodeInfo.slots
    split
    · rw [hmem, hnii]
      exact initDiskInode_slot ‹_›
    · rfl
  refine ⟨⟨h.info.trans hsbi, ?_, ?_, ?_, fun i hi => absurd (hslots i) hi⟩, hslots, ?_⟩
  · rw [FS.records, hino, Function.update_self, hnii, Option.bind_some, hrec]
  · rw [hnii]
  · rw [hnii]
    exact hlaid
  · rw [hmem, hnii]
    exact size_initDiskInode

section New

variable {calls : List (FileCall × Answers)} {need : Finset Nat} {l : List Store} {len pos : Nat}

theorem plan_view_empty (hempty : ∀ i, nii.slots s.mem i = 0) :
    (view e sbi nii s.mem).plan = ⟨fun _ => 0, freeBlocks e sbi s.mem⟩ := by
  rw [view, funext hempty]

/-- The slots of an empty file and the free blocks. -/
theorem sound_view (h : OpenFile e sbi s id nii) (hempty : ∀ i, nii.slots s.mem i = 0) :
    (view e sbi nii s.mem).plan.Sound := by
  have hzero : 0 ∉ freeBlocks e sbi s.mem := fun h0 =>
    absurd ((mem_freeBlocks.mp h0).1.pos h.laid.first) (Nat.lt_irrefl 0)
  refine ⟨?_, ?_, fun i => ?_, fun i j hi => ?_⟩
  · rwa [free_view]
  · rw [free_view]
    exact nodup_freeBlocks ..
  · rw [free_view, slots_view, hempty]
    exact hzero
  · rw [slots_view, hempty] at hi
    exact absurd rfl hi

/-- The block that is given to index `i` when the stores are done in their order. -/
def assigned (free : List Nat) (l : List Store) (i : Nat) : Nat :=
  (Plan.giveAll ⟨fun _ => 0, free⟩ (indexes l)).slots i

/-- Of the bytes that are read, each lies in a block that was written to; where it was not
written itself, the block had a 0 there when it was free. -/
def GapsClear (free : List Nat) (m : Bytes) (l : List Store) (pos len : Nat) : Prop :=
  ∀ q, pos ≤ q → q < pos + len → q < extent l → q / naiveBlockSize ∈ indexes l ∧
    (lastWritten l q = none →
      m (bData (assigned free l (q / naiveBlockSize)) + q % naiveBlockSize) = 0)

/-- A read returns what is left of the file, at most `len` bytes, and they are those of
the flat file. -/
def ReadsBack (e : Endian) (ans : Answers) (s : FS) (id : Nat) (nii : NaiveInodeInfo)
    (l : List Store) (len pos : Nat) : Prop :=
  let n := min len (nii.size s.mem - pos)
  ∃ pos' t, (naiveFileRead e id len pos).exec ans s =
    .ok (((n : Nat), pos', (flatFile l).slice pos n), t)

/-- A read without failures: its bytes are as in the flat file when all its blocks are
there and hold them. -/
theorem readsBack_iff (h : OpenFile e sbi s id nii) (hfits : pos + len < 2 ^ 64)
    (hans : ans.NoFailure) : ReadsBack e ans s id nii l len pos ↔
      ∀ q, pos ≤ q → q < pos + len → q < nii.size s.mem →
        nii.slots s.mem (q / naiveBlockSize) ≠ 0 ∧
          (view e sbi nii s.mem).content q = flatFile l q := by
  obtain ⟨r, pos', out, t, hexec, -, -, hends, hout⟩ := exec_naiveFileRead h hfits ans
  obtain ⟨k, hle, hr, -, hall⟩ := hends.counted_of fun i hfail => hfail.2 (hans.toUser i)
  have hout := hout k (by omega)
  generalize hn : min len (nii.size s.mem - pos) = n at hends hle hall
  have hrange : ∀ q, pos ≤ q → q < pos + len → q < nii.size s.mem → q - pos < n := by
    intro q hq hq' hsize
    omega
  have hok : k = n ↔ ∀ q, pos ≤ q → q < pos + n → nii.slots s.mem (q / naiveBlockSize) ≠ 0 := by
    rw [hall]
    constructor
    · intro h q hq hq'
      exact (h _ ((visits_iff (by decide)).mpr ⟨q, hq, hq', rfl⟩)).1.1
    · intro h i hi
      obtain ⟨q, hq, hq', rfl⟩ := (visits_iff (by decide)).mp hi
      exact ⟨⟨h q hq hq', hans.bread _ _⟩, hans.toUser _⟩
  have hread : ReadsBack e ans s id nii l len pos ↔
      k = n ∧ (view e sbi nii s.mem).content.slice pos n = (flatFile l).slice pos n := by
    unfold ReadsBack
    rw [hn, hexec]
    constructor
    · rintro ⟨pos'', u, hsame⟩
      injection hsame with hsame
      simp only [Prod.mk.injEq] at hsame
      obtain ⟨⟨hcount, -, hbytes⟩, -⟩ := hsame
      have hkn : k = n := by omega
      rw [hout, hkn] at hbytes
      exact ⟨hkn, hbytes⟩
    · rintro ⟨hkn, hbytes⟩
      refine ⟨pos', t, ?_⟩
      rw [hout, hr, hkn, hbytes, Int.zero_add]
  rw [hread, hok]
  constructor
  · intro ⟨hslots, hbytes⟩ q hq hq' hsize
    have hlt := hrange q hq hq' hsize
    have hbyte := slice_eq_iff.mp hbytes (q - pos) hlt
    rw [Nat.add_sub_cancel' hq] at hbyte
    exact ⟨hslots q hq (by omega), hbyte⟩
  · intro hbytes
    refine ⟨fun q hq hq' => (hbytes q hq (by omega) (by omega)).1, slice_eq_iff.mpr fun i hi => ?_⟩
    exact (hbytes (pos + i) (by omega) (by omega) (by omega)).2

/-- After any calls on a new file that fit on the device, a read gives the flat file's bytes
exactly when its gaps are clear. -/
theorem reads_back_iff {dir perm : Nat} {name : Name} (hsbi : s.sFsInfo = .live sbi)
    (hlaid : ∀ n : Nat, n < le32ToCpu e sbi.inodesCount →
      Laid e sbi (onlyRecord s.nextInode (sbi.tableBlock e n)))
    (hcreate : Acts e s (.op (.create dir name perm)) ans 0 t)
    (hcalls : ∀ c, c ∈ calls → c.1.Allowed ∧ c.2.NoFailure)
    (hfree : (indexes (allStores calls)).toFinset.card ≤ (freeBlocks e sbi t.mem).length) :
    ∃ nii u, t.records s.nextInode = some nii ∧ runCalls e s.nextInode calls t = .ok u ∧
      nii.size u.mem = extent (allStores calls) ∧
      ∀ len pos ans', pos + len < 2 ^ 64 → ans'.NoFailure →
        (ReadsBack e ans' u s.nextInode nii (allStores calls) len pos ↔
          GapsClear (freeBlocks e sbi t.mem) t.mem (allStores calls) pos len) := by
  obtain ⟨n, hc⟩ := naiveCreate_zero hsbi hcreate
  obtain ⟨hfile, hempty, hsize⟩ := hc.openFile hsbi rfl (hlaid n hc.total)
  generalize (⟨bData (sbi.tableBlock e n), sbi.tableBlock e n⟩ : NaiveInodeInfo) = nii at *
  have hsound := sound_view hfile hempty
  have hslots : ∀ i, (view e sbi nii t.mem).plan.slots i = 0 := fun i => by rw [slots_view, hempty]
  have henough : (view e sbi nii t.mem).plan.Enough (indexes (allStores calls)).toFinset := by
    refine ⟨hsound.nonzero, (Finset.card_filter_le _ _).trans ?_⟩
    rwa [free_view]
  have hneed : ∀ i, i ∈ indexes (allStores calls) → i ∈ (indexes (allStores calls)).toFinset :=
    fun i hi => List.mem_toFinset.mpr hi
  obtain ⟨u, hrun, hopen, hview⟩ := runCalls_stores hfile hcalls henough hneed
  have hextent : nii.size u.mem = extent (allStores calls) := by
    rw [size_of_view hview, size_storeAll (by rw [size_view, hsize])]
  have hassigned : ∀ i, ((view e sbi nii t.mem).plan.giveAll (indexes (allStores calls))).slots i =
      assigned (freeBlocks e sbi t.mem) (allStores calls) i := by
    intro i
    rw [plan_view_empty hempty]
    rfl
  refine ⟨nii, u, hfile.record, hrun, hextent, fun len pos ans' hfits hans => ?_⟩
  rw [readsBack_iff hopen hfits hans, hextent]
  apply forall_congr'
  intro q
  apply imp_congr_right fun _ => imp_congr_right fun _ => imp_congr_right fun _ => ?_
  have hheld : nii.slots u.mem (q / naiveBlockSize) ≠ 0 ↔
      q / naiveBlockSize ∈ indexes (allStores calls) := by
    rw [slots_of_view hview, plan_storeAll, slots_giveAll_iff henough hneed (hslots _)]
  rw [hheld]
  apply and_congr_right
  intro hq
  have hin := hopen.held _ (hheld.mpr hq)
  have hbyte := content_storeAll hsound hslots henough hneed hq
  rw [slots_of_view hview, plan_storeAll, hassigned] at hin
  rw [hassigned, bytes_view, dataBytes, if_pos ⟨hin, Nat.mod_lt _ (by decide)⟩] at hbyte
  rw [hview, hbyte]
  unfold flatFile
  cases lastWritten (allStores calls) q with
  | none => simp
  | some x => simp

end New

/-! ## On a fresh image -/

/-- The usual layout: the inode table behind the bitmaps, the data area behind the table. -/
theorem laid_of_layout {n : Nat} (hbm : sbi.blockBitmap = bData naiveBlockBitmapBlock)
    (htable : 4 ≤ le32ToCpu e sbi.inodeTableStart)
    (hdata : le32ToCpu e sbi.inodeTableStart + le32ToCpu e sbi.inodesCount ≤
      le32ToCpu e sbi.dataBlocksStart)
    (hlast : le32ToCpu e sbi.blocksCount ≤ 4096) (hstart : le32ToCpu e sbi.dataBlocksStart ≤ 4096)
    (hn : n < le32ToCpu e sbi.inodesCount) :
    Laid e sbi (onlyRecord id (sbi.tableBlock e n)) := by
  have hD : sbi.dataStart e = le32ToCpu e sbi.dataBlocksStart :=
    toInt32_of_small (by omega) (by omega)
  have hT : sbi.dataEnd e = le32ToCpu e sbi.blocksCount :=
    toInt32_of_small (by omega) (by omega)
  have hblock : sbi.tableBlock e n = le32ToCpu e sbi.inodeTableStart + n := by
    unfold SbInfo.tableBlock
    rw [toInt32_of_small (by omega) (by omega), ← Int.natCast_add, toU64_natCast (by omega)]
  have hapart : ∀ x, x < le32ToCpu e sbi.dataBlocksStart → ¬ sbi.InData e x := by
    intro x hx hin
    have := hin.1
    omega
  rw [hblock]
  refine ⟨by omega, by omega, hbm, hapart _ ?_, fun x nii hx => (onlyRecord_some hx).2.1,
    fun x nii hx => ?_, fun x y nii nii' hx hy _ =>
      (onlyRecord_some hx).1.trans (onlyRecord_some hy).1.symm⟩
  · unfold naiveBlockBitmapBlock
    omega
  · rw [(onlyRecord_some hx).2.2]
    refine ⟨?_, hapart _ (by omega)⟩
    unfold naiveBlockBitmapBlock
    omega

theorem freshImage_laid {n : Nat}
    (hn : n < le32ToCpu .little (SbInfo.ofImage freshImage).inodesCount) :
    Laid .little (.ofImage freshImage)
      (onlyRecord id ((SbInfo.ofImage freshImage).tableBlock .little n)) := by
  apply laid_of_layout rfl
  · decide +kernel
  · decide +kernel
  · decide +kernel
  · decide +kernel
  · exact hn

theorem noFailure_good (ts : Timespec) (uid gid : Nat) : (Answers.good ts uid gid).NoFailure :=
  ⟨fun _ _ => rfl, fun _ => rfl, fun _ => rfl⟩

/-- Two writes with a gap between them, over the end of the first block. -/
def gapCalls : List (FileCall × Answers) :=
  [(.write [7] 0, .good ⟨6, 0⟩ 0 0), (.write [8] 600, .good ⟨6, 0⟩ 0 0)]

/-- A file is created on a mounted fresh image; there are two free blocks, which are clear where
the file will have its gap. -/
theorem fresh_file : ∃ s t, Mounted .little freshImage s ∧
    Acts .little s (.op (.create 0 aName 0o644)) (.good ⟨5, 0⟩ 0 0) 0 t ∧
    2 ≤ (freeBlocks .little (.ofImage freshImage) t.mem).length ∧
    ∀ k, k < 3 → t.mem (bData (assigned (freeBlocks .little (.ofImage freshImage) t.mem)
      (allStores gapCalls) 1) + (86 + k)) = 0 := by
  have h : succeeds (naiveFillSuper .little) (.good ⟨4, 0⟩ 0 0) { mem := freshImage } (fun s =>
      succeeds ((Action.op (.create 0 aName 0o644)).prog .little) (.good ⟨5, 0⟩ 0 0) s fun t =>
        decide (2 ≤ (freeBlocks .little (.ofImage freshImage) t.mem).length ∧
          ∀ k : Nat, k < 3 → t.mem (bData (assigned (freeBlocks .little (.ofImage freshImage) t.mem)
            (allStores gapCalls) 1) + (86 + k)) = 0)) = true := by
    decide +kernel
  obtain ⟨s, hm, hs⟩ := exists_of_succeeds h
  obtain ⟨t, ht, hcheck⟩ := exists_of_succeeds hs
  obtain ⟨hfree, hclear⟩ := of_decide_eq_true hcheck
  exact ⟨s, t, ⟨_, hm⟩, ht, hfree, hclear⟩

/-- The last two bytes of the gap and the byte behind it are read back. -/
theorem reads_back_gap : ∃ s t u nii, Mounted .little freshImage s ∧
    Acts .little s (.op (.create 0 aName 0o644)) (.good ⟨5, 0⟩ 0 0) 0 t ∧
    runCalls .little s.nextInode gapCalls t = .ok u ∧ nii.size u.mem = 601 ∧
    ReadsBack .little (.good ⟨7, 0⟩ 0 0) u s.nextInode nii (allStores gapCalls) 3 598 := by
  obtain ⟨s, t, hm, hcreate, hfree, hclear⟩ := fresh_file
  have hcalls : ∀ c, c ∈ gapCalls → c.1.Allowed ∧ c.2.NoFailure := by
    intro c hc
    simp only [gapCalls, List.mem_cons, List.not_mem_nil, or_false] at hc
    obtain rfl | rfl := hc
    · exact ⟨show 0 + 1 ≤ 4096 by decide, noFailure_good _ _ _⟩
    · exact ⟨show 600 + 1 ≤ 4096 by decide, noFailure_good _ _ _⟩
  obtain ⟨nii, u, -, hrun, hsize, hreads⟩ :=
    reads_back_iff hm.cases.info (fun n hn => freshImage_laid hn) hcreate hcalls hfree
  refine ⟨s, t, u, nii, hm, hcreate, hrun, hsize,
    (hreads 3 598 _ (by decide) (noFailure_good _ _ _)).mpr fun q hq hq' _ => ?_⟩
  have hblock : q / naiveBlockSize = 1 := by
    unfold naiveBlockSize
    omega
  have hoffset : q % naiveBlockSize = 86 + (q - 598) := by
    unfold naiveBlockSize
    omega
  rw [hblock, hoffset]
  exact ⟨by decide, fun _ => hclear (q - 598) (by omega)⟩

/-- One byte is written at offset 600: the first block is never given out, and the byte at
offset 0 of the file, which is 601 bytes long, cannot be read. -/
theorem gap_stops_read : ∃ s t u nii, Mounted .little freshImage s ∧
    Acts .little s (.op (.create 0 aName 0o644)) (.good ⟨5, 0⟩ 0 0) 0 t ∧
    t.records s.nextInode = some nii ∧
    runCalls .little s.nextInode [(.write [7] 600, .good ⟨6, 0⟩ 0 0)] t = .ok u ∧
    nii.size u.mem = 601 ∧
    ¬ ReadsBack .little (.good ⟨7, 0⟩ 0 0) u s.nextInode nii [(7, 600)] 1 0 := by
  have h : succeeds (naiveFillSuper .little) (.good ⟨4, 0⟩ 0 0) { mem := freshImage } (fun s =>
      succeeds ((Action.op (.create 0 aName 0o644)).prog .little) (.good ⟨5, 0⟩ 0 0) s fun t =>
        t.records s.nextInode == some ⟨bData 5, 5⟩ &&
        match runCalls .little s.nextInode [(.write [7] 600, .good ⟨6, 0⟩ 0 0)] t with
        | .ok u => u.mem.getLE32 (bData 5 + 44) == 601 &&
          match (naiveFileRead .little s.nextInode 1 0).exec (Answers.good ⟨7, 0⟩ 0 0) u with
          | .ok (q, _) => q == (0, 0, [])
          | .error _ => false
        | .error _ => false) = true := by
    decide +kernel
  obtain ⟨s, hm, hs⟩ := exists_of_succeeds h
  obtain ⟨t, ht, hcheck⟩ := exists_of_succeeds hs
  rw [Bool.and_eq_true, beq_iff_eq] at hcheck
  obtain ⟨hrec, hcheck⟩ := hcheck
  split at hcheck
  · rename_i u hrun
    rw [Bool.and_eq_true, beq_iff_eq] at hcheck
    obtain ⟨hsize, hcheck⟩ := hcheck
    refine ⟨s, t, u, _, ⟨_, hm⟩, ht, hrec, hrun, hsize, ?_⟩
    rintro ⟨pos', v, hread⟩
    rw [show NaiveInodeInfo.size ⟨bData 5, 5⟩ u.mem = 601 from hsize] at hread
    rw [hread] at hcheck
    simp at hcheck
  · cases hcheck

end NaiveFS.V8
