import NaiveFS.Alloc

/-!
# What the directory functions do

The block loops first, then one relation for each function of `naivefs_dir.c`
that works on records: everything it can return and the state it then leaves,
and the lemma that a run is one of these cases.
-/

namespace NaiveFS

open Bytes

/-! ## Slots and records -/

/-- A slot that the block loops visit. -/
structure Inode.Slot (nd : Inode) (i : Nat) : Prop where
  count : (i : Int) < nd.blockCount
  bound : i < 8
  attached : nd.blockPointers i ≠ 0

/-- The block in slot `i`. -/
def FS.slotBlock (s : FS) (nd : Inode) (i : Nat) : Bytes := s.block (nd.blockPointers i)

/-- Every slot before `i` was read by the scan and holds no record it looks for. -/
def Passed (ans : Answers) (s : FS) (nd : Inode) (site : Site) (test : Bytes → Nat → Bool)
    (i : Nat) : Prop :=
  ∀ m, m < i → nd.Slot m → ans (.sbBread site m (nd.blockPointers m)) = true ∧
    ∀ j, j < 3 → test (s.slotBlock nd m) j = false

/-- The scan stops at record `j` of slot `i`. -/
structure StopsAt (ans : Answers) (s : FS) (nd : Inode) (site : Site)
    (test : Bytes → Nat → Bool) (i j : Nat) : Prop where
  passed : Passed ans s nd site test i
  slot : nd.Slot i
  read : ans (.sbBread site i (nd.blockPointers i)) = true
  bound : j < 3
  hit : test (s.slotBlock nd i) j = true
  first : ∀ k, k < j → test (s.slotBlock nd i) k = false

/-- The scan cannot read slot `i`. -/
structure FailsAt (ans : Answers) (s : FS) (nd : Inode) (site : Site)
    (test : Bytes → Nat → Bool) (i : Nat) : Prop where
  passed : Passed ans s nd site test i
  slot : nd.Slot i
  unread : ans (.sbBread site i (nd.blockPointers i)) = false

/-- The scan reads every slot and finds nothing. -/
def FindsNone (ans : Answers) (s : FS) (nd : Inode) (site : Site)
    (test : Bytes → Nat → Bool) : Prop := Passed ans s nd site test nd.blockCount.toNat

/-- A scan that finds nothing reads every slot, and none of them has a hit. -/
theorem FindsNone.slot {ans : Answers} {s : FS} {nd : Inode} {site : Site}
    {test : Bytes → Nat → Bool} {i : Nat} (h : FindsNone ans s nd site test) (hi : nd.Slot i) :
    ans (.sbBread site i (nd.blockPointers i)) = true ∧
      ∀ j, j < 3 → test (s.slotBlock nd i) j = false :=
  h i (by have := hi.count; omega) hi

theorem StopsAt.not_findsNone {ans : Answers} {s : FS} {nd : Inode} {site : Site}
    {test : Bytes → Nat → Bool} {i j : Nat} (h : StopsAt ans s nd site test i j) :
    ¬ FindsNone ans s nd site test := by
  intro hnone
  have := (hnone.slot h.slot).2 j h.bound
  rw [h.hit] at this
  cases this

theorem FailsAt.not_findsNone {ans : Answers} {s : FS} {nd : Inode} {site : Site}
    {test : Bytes → Nat → Bool} {i : Nat} (h : FailsAt ans s nd site test i) :
    ¬ FindsNone ans s nd site test := by
  intro hnone
  have := (hnone.slot h.slot).1
  rw [h.unread] at this
  cases this

/-- A scan cannot both stop at a record and fail at a slot. -/
theorem StopsAt.not_failsAt {ans : Answers} {s : FS} {nd : Inode} {site : Site}
    {test : Bytes → Nat → Bool} {i j k : Nat} (h : StopsAt ans s nd site test i j)
    (hk : FailsAt ans s nd site test k) : False := by
  rcases Nat.lt_trichotomy i k with hlt | rfl | hgt
  · have := (hk.passed i hlt h.slot).2 j h.bound
    rw [h.hit] at this
    cases this
  · have := hk.unread
    rw [h.read] at this
    cases this
  · have := (h.passed k hgt hk.slot).1
    rw [hk.unread] at this
    cases this

theorem findRecord_some {test : Nat → Bool} {j : Nat} (h : findRecord test = some j) :
    j < 3 ∧ test j = true ∧ ∀ k, k < j → test k = false := by
  rw [findRecord, List.find?_range_eq_some] at h
  obtain ⟨hj, hmem, hlt⟩ := h
  exact ⟨List.mem_range.mp hmem, hj, fun k hk => by simpa using hlt k hk⟩

theorem findRecord_none {test : Nat → Bool} (h : findRecord test = none) :
    ∀ j, j < 3 → test j = false := by
  rw [findRecord, List.find?_range_eq_none] at h
  exact fun j hj => by simpa using h j hj

/-! ## The block loops -/

section Loops

variable {α : Type} {ans : Answers} {s t : FS} {nd : Inode} {body : Nat → Int → K (Option α)}

/-- A loop body that leaves the state alone when the loop goes on. -/
def Quiet (ans : Answers) (body : Nat → Int → K (Option α)) : Prop :=
  ∀ i p s t, (body i p).exec ans s = .ok (none, t) → t = s

theorem exec_pointer_ok {i : Nat} {p : Int} (h : (pointer nd i).exec ans s = .ok (p, t)) :
    i < 8 ∧ p = nd.blockPointers i ∧ t = s := by
  rw [pointer] at h
  unfold naiveBlockPerFile at h
  split at h
  · cases h
  · cases h
    exact ⟨by omega, rfl, rfl⟩

/-- One round of the loop. -/
theorem forBlocks_succ {n i : Nat} {r : Option α}
    (h : (forBlocks nd body (n + 1) i).exec ans s = .ok (r, t)) :
    i < 8 ∧ ((nd.blockPointers i = 0 ∧ (forBlocks nd body n (i + 1)).exec ans s = .ok (r, t)) ∨
      (nd.blockPointers i ≠ 0 ∧ ∃ q u, (body i (nd.blockPointers i)).exec ans s = .ok (q, u) ∧
        ((∃ a, q = some a ∧ r = some a ∧ t = u) ∨
          (q = none ∧ (forBlocks nd body n (i + 1)).exec ans u = .ok (r, t))))) := by
  rw [forBlocks] at h
  obtain ⟨p, s', hp, hrest⟩ := Prog.exec_bind_ok.mp h
  obtain ⟨hi, rfl, rfl⟩ := exec_pointer_ok hp
  refine ⟨hi, ?_⟩
  split at hrest
  · rename_i hz
    exact .inl ⟨hz, hrest⟩
  · rename_i hnz
    obtain ⟨q, u, hq, hend⟩ := Prog.exec_bind_ok.mp hrest
    refine .inr ⟨hnz, q, u, hq, ?_⟩
    cases q with
    | none => exact .inr ⟨rfl, hend⟩
    | some a =>
        cases hend
        exact .inl ⟨a, rfl, rfl, rfl⟩

/-- A loop that ends without a result went through every slot. -/
theorem forBlocks_none (hq : Quiet ans body) {n i : Nat}
    (h : (forBlocks nd body n i).exec ans s = .ok (none, t)) :
    t = s ∧ ∀ m, i ≤ m → m < i + n → nd.blockPointers m ≠ 0 →
      (body m (nd.blockPointers m)).exec ans s = .ok (none, s) := by
  induction n generalizing i with
  | zero =>
      cases h
      exact ⟨rfl, fun m hm hm' => by omega⟩
  | succ n ih =>
      obtain ⟨_, ⟨hz, hrest⟩ | ⟨_, q, u, hb, ⟨a, _, hr, _⟩ | ⟨rfl, hrest⟩⟩⟩ := forBlocks_succ h
      · obtain ⟨rfl, hall⟩ := ih hrest
        refine ⟨rfl, fun m hm hm' hp => ?_⟩
        rcases Nat.eq_or_lt_of_le hm with rfl | hlt
        · exact absurd hz hp
        · exact hall m hlt (by omega) hp
      · cases hr
      · obtain rfl := hq _ _ _ _ hb
        obtain ⟨rfl, hall⟩ := ih hrest
        refine ⟨rfl, fun m hm hm' hp => ?_⟩
        rcases Nat.eq_or_lt_of_le hm with rfl | hlt
        · exact hb
        · exact hall m hlt (by omega) hp

/-- A loop that ends with a result got it at some slot, after passing the ones before. -/
theorem forBlocks_some (hq : Quiet ans body) {n i : Nat} {a : α}
    (h : (forBlocks nd body n i).exec ans s = .ok (some a, t)) :
    ∃ k, i ≤ k ∧ k < i + n ∧ k < 8 ∧ nd.blockPointers k ≠ 0 ∧
      (body k (nd.blockPointers k)).exec ans s = .ok (some a, t) ∧
      ∀ m, i ≤ m → m < k → nd.blockPointers m ≠ 0 →
        (body m (nd.blockPointers m)).exec ans s = .ok (none, s) := by
  induction n generalizing i with
  | zero => cases h
  | succ n ih =>
      obtain ⟨hi, ⟨hz, hrest⟩ | ⟨hnz, q, u, hb, ⟨a', rfl, hr, rfl⟩ | ⟨rfl, hrest⟩⟩⟩ :=
        forBlocks_succ h
      · obtain ⟨k, hik, hkn, hk8, hp, hk, hall⟩ := ih hrest
        refine ⟨k, by omega, by omega, hk8, hp, hk, fun m hm hmk hpm => ?_⟩
        rcases Nat.eq_or_lt_of_le hm with rfl | hlt
        · exact absurd hz hpm
        · exact hall m hlt hmk hpm
      · cases hr
        exact ⟨i, by omega, by omega, hi, hnz, hb, fun m hm hmi => by omega⟩
      · obtain rfl := hq _ _ _ _ hb
        obtain ⟨k, hik, hkn, hk8, hp, hk, hall⟩ := ih hrest
        refine ⟨k, by omega, by omega, hk8, hp, hk, fun m hm hmk hpm => ?_⟩
        rcases Nat.eq_or_lt_of_le hm with rfl | hlt
        · exact hb
        · exact hall m hlt hmk hpm

/-- One round of a scan. -/
theorem scanBlock_cases {site : Site} {test : Bytes → Nat → Bool} {miss : Option α}
    {hit : Int → Bytes → Nat → K α} {i : Nat} {b : Int} {r : Option α}
    (h : (scanBlock site test miss hit i b).exec ans s = .ok (r, t)) :
    (ans (.sbBread site i b) = false ∧ r = miss ∧ t = s) ∨
    (ans (.sbBread site i b) = true ∧
      ((∃ j a, j < 3 ∧ test (s.block b) j = true ∧ (∀ k, k < j → test (s.block b) k = false) ∧
          r = some a ∧ (hit b (s.block b) j).exec ans (s.addRef b 1) = .ok (a, t)) ∨
        ((∀ j, j < 3 → test (s.block b) j = false) ∧ r = none ∧ t = s))) := by
  rw [scanBlock] at h
  cases hread : ans (.sbBread site i b) with
  | false =>
      rw [Prog.exec_bind_of (exec_sbBread_fail hread)] at h
      cases h
      exact .inl ⟨rfl, rfl, rfl⟩
  | true =>
      rw [Prog.exec_bind_of (exec_sbBread_ok hread)] at h
      refine .inr ⟨rfl, ?_⟩
      simp only [Bool.not_true, Bool.false_eq_true, if_false] at h
      rw [Prog.exec_bind_of exec_bData, show (s.addRef b 1).block b = s.block b from rfl] at h
      cases hf : findRecord (test (s.block b)) with
      | none =>
          simp only [hf] at h
          rw [Prog.exec_bind_of exec_brelse, FS.addRef_cancel] at h
          cases h
          exact .inr ⟨findRecord_none hf, rfl, rfl⟩
      | some j =>
          simp only [hf] at h
          obtain ⟨a, u, ha, hend⟩ := Prog.exec_bind_ok.mp h
          cases hend
          obtain ⟨hj, hit, hfirst⟩ := findRecord_some hf
          exact .inl ⟨j, a, hj, hit, hfirst, rfl, ha⟩

/-- What a scan can do, when a failed read ends it or no read fails. -/
theorem scanRecords_cases {site : Site} {test : Bytes → Nat → Bool} {miss : Option α}
    {hit : Int → Bytes → Nat → K α} {r : Option α}
    (hmiss : miss ≠ none ∨ ∀ m, nd.Slot m → ans (.sbBread site m (nd.blockPointers m)) = true)
    (h : (scanRecords nd site test miss hit).exec ans s = .ok (r, t)) :
    (∃ i, FailsAt ans s nd site test i ∧ r = miss ∧ t = s) ∨
    (∃ i j a, StopsAt ans s nd site test i j ∧ r = some a ∧
      (hit (nd.blockPointers i) (s.slotBlock nd i) j).exec ans (s.addRef (nd.blockPointers i) 1)
        = .ok (a, t)) ∨
    (FindsNone ans s nd site test ∧ r = none ∧ t = s) := by
  have hquiet : Quiet ans (scanBlock site test miss hit) := by
    intro i p s t h
    rcases scanBlock_cases h with ⟨_, _, rfl⟩ | ⟨_, ⟨_, _, _, _, _, h, _⟩ | ⟨_, _, rfl⟩⟩
    · rfl
    · cases h
    · rfl
  -- a round that goes on read its block and found nothing in it
  have hround : ∀ m : Nat, m < 8 → (m : Int) < nd.blockCount → nd.blockPointers m ≠ 0 →
      (scanBlock site test miss hit m (nd.blockPointers m)).exec ans s = .ok (none, s) →
      ans (.sbBread site m (nd.blockPointers m)) = true ∧
        ∀ j, j < 3 → test (s.slotBlock nd m) j = false := by
    intro m hm hcount hp h
    rcases scanBlock_cases h with ⟨hread, hr, _⟩ | ⟨hread, ⟨_, _, _, _, _, h, _⟩ | ⟨hno, _, _⟩⟩
    · rcases hmiss with hmiss | hall
      · exact absurd hr.symm hmiss
      · rw [hall m ⟨hcount, hm, hp⟩] at hread
        cases hread
    · cases h
    · exact ⟨hread, hno⟩
  cases r with
  | none =>
      obtain ⟨rfl, hall⟩ := forBlocks_none hquiet h
      refine .inr (.inr ⟨fun m hm hslot => ?_, rfl, rfl⟩)
      exact hround m hslot.bound hslot.count hslot.attached
        (hall m (Nat.zero_le _) (by omega) hslot.attached)
  | some a =>
      obtain ⟨k, _, hk, hk8, hp, hbody, hall⟩ := forBlocks_some hquiet h
      have hslot : nd.Slot k := ⟨by omega, hk8, hp⟩
      have hpassed : Passed ans s nd site test k := fun m hm hm' =>
        hround m hm'.bound hm'.count hm'.attached (hall m (Nat.zero_le _) hm hm'.attached)
      rcases scanBlock_cases hbody with
        ⟨hread, hr, rfl⟩ | ⟨hread, ⟨j, a', hj, htest, hfirst, hr, hexec⟩ | ⟨_, hr, _⟩⟩
      · exact .inl ⟨k, ⟨hpassed, hslot, hread⟩, hr, rfl⟩
      · exact .inr (.inl ⟨k, j, a', ⟨hpassed, hslot, hread, hj, htest, hfirst⟩, hr, hexec⟩)
      · cases hr

/-- Block loops within the eight slots end. -/
theorem exists_forBlocks
    (hbody : ∀ i p s, ∃ q u, (body i p).exec ans s = .ok (q, u)) {n i : Nat} (hn : i + n ≤ 8) :
    ∃ q u, (forBlocks nd body n i).exec ans s = .ok (q, u) := by
  induction n generalizing i s with
  | zero => exact ⟨none, s, rfl⟩
  | succ n ih =>
      have hp : (pointer nd i).exec ans s = .ok (nd.blockPointers i, s) := by
        unfold pointer naiveBlockPerFile
        rw [if_neg (by omega)]
        rfl
      rw [forBlocks, Prog.exec_bind_of hp, Prog.exec_ite]
      split
      · exact ih (by omega)
      · obtain ⟨q, u, hq⟩ := hbody i (nd.blockPointers i) s
        rw [Prog.exec_bind_of hq]
        cases q with
        | some a => exact ⟨some a, u, rfl⟩
        | none => exact ih (by omega)

/-- Scans whose hits end do end. -/
theorem exists_scanRecords {site : Site} {test : Bytes → Nat → Bool} {miss : Option α}
    {hit : Int → Bytes → Nat → K α} (hcount : nd.blockCount ≤ 8)
    (hhit : ∀ b d j s, ∃ a u, (hit b d j).exec ans s = .ok (a, u)) :
    ∃ q u, (scanRecords nd site test miss hit).exec ans s = .ok (q, u) := by
  refine exists_forBlocks (fun i b s => ?_) (by omega)
  rw [scanBlock]
  cases hread : ans (.sbBread site i b) with
  | false =>
      rw [Prog.exec_bind_of (exec_sbBread_fail hread)]
      exact ⟨miss, s, rfl⟩
  | true =>
      rw [Prog.exec_bind_of (exec_sbBread_ok hread)]
      simp only [Bool.not_true, Bool.false_eq_true, if_false]
      rw [Prog.exec_bind_of exec_bData]
      cases findRecord (test ((s.addRef b 1).block b)) with
      | none => exact ⟨none, _, rfl⟩
      | some j =>
          obtain ⟨a, u, ha⟩ := hhit b ((s.addRef b 1).block b) j (s.addRef b 1)
          exact ⟨some a, u, by rw [Prog.exec_bind_of ha]; rfl⟩

end Loops

/-! ## `naive_add_entry` -/

/-- The directory `dir` once block `b` is attached to it for a new record. -/
def Inode.grow (nd : Inode) (b : Int) : Inode :=
  { attachBlock nd b with iSize := (attachBlock nd b).iSize + naiveBlockSize, iDirty := true }

/-- Write the record of `name` into record `j` of slot `i`. -/
def FS.putRecord (s : FS) (nd : Inode) (i j : Nat) (name : Name) (ino : Int) : FS :=
  s.writeBlock (nd.blockPointers i) (DirRecord.put (s.slotBlock nd i) j (toU32 ino) name.bytes)

/-- Write the record of `name` into the new block `b`. -/
def FS.putFirst (s : FS) (b : Nat) (name : Name) (ino : Int) : FS :=
  s.writeBlock b (DirRecord.put ((s.block b).zero 0 naiveBlockSize) 0 (toU32 ino) name.bytes)

/-- What `naive_add_entry` returns and leaves, called on a directory that is `nd`. -/
inductive AddEntry (ans : Answers) (s : FS) (dir : Nat) (nd : Inode) (name : Name) (ino : Int) :
    Int → FS → Prop where
  | filled {i j : Nat} (stop : StopsAt ans s nd .addEntryScan isFree i j) :
      AddEntry ans s dir nd name ino 0
        ((s.putRecord nd i j name ino).addRef (nd.blockPointers i) (-1))
  | unreadable {i : Nat} (fail : FailsAt ans s nd .addEntryScan isFree i) :
      AddEntry ans s dir nd name ino (- EIO) s
  | noSpace (full : FindsNone ans s nd .addEntryScan isFree) (space : s.Exhausted) :
      AddEntry ans s dir nd name ino (-ENOSPC) s
  | newUnreadable {b : Nat} (full : FindsNone ans s nd .addEntryScan isFree)
      (free : s.NextFree b) (unread : ans (.sbBread .addEntryNew 0 b) = false) :
      AddEntry ans s dir nd name ino (- EIO) (s.setInode dir (attachBlock nd b))
  | grown {b : Nat} (full : FindsNone ans s nd .addEntryScan isFree) (free : s.NextFree b)
      (read : ans (.sbBread .addEntryNew 0 b) = true) :
      AddEntry ans s dir nd name ino 0
        (((s.markBlock b).putFirst b name ino).setInode dir (nd.grow b))

section AddEntry

variable {ans : Answers} {s t : FS} {dir : Nat} {nd : Inode} {name : Name} {ino r : Int}

/-- Giving back the block just taken restores the bitmap. -/
theorem FS.unmarkBlock_markBlock {b : Nat} (h : s.marked b = false) :
    (s.markBlock b).unmarkBlock b = s := by
  unfold FS.unmarkBlock FS.markBlock
  simp only [clearBit_setBit h]

theorem addEntryNew_cases (hs : s.sbi.blockBitmapBlocks = 1) (hnd : s.inodes dir = some nd)
    (full : FindsNone ans s nd .addEntryScan isFree)
    (h : (addEntryNew dir name ino).exec ans s = .ok (r, t)) :
    AddEntry ans s dir nd name ino r t := by
  rw [addEntryNew] at h
  obtain ⟨b, u, ha, h1⟩ := Prog.exec_bind_ok.mp h
  rcases exec_allocBlock_cases ha with ⟨hneg, rfl, hex⟩ | ⟨b, rfl, rfl, hfree⟩
  · rw [if_pos hneg] at h1
    cases h1
    exact .noSpace full hex
  rw [if_neg (by omega), Prog.exec_bind_of (exec_updInode (s := s.markBlock b) hnd)] at h1
  cases hread : ans (.sbBread .addEntryNew 0 b) with
  | false =>
      rw [Prog.exec_bind_of (exec_sbBread_fail hread)] at h1
      simp only [Bool.not_false, if_true] at h1
      rw [Prog.exec_bind_of (exec_freeBlock
        (s := (s.markBlock b).setInode dir (attachBlock nd b)) hfree.bitmap hs)] at h1
      cases h1
      have hback : (((s.markBlock b).setInode dir (attachBlock nd b)).unmarkBlock b)
          = s.setInode dir (attachBlock nd b) := by
        rw [show ((s.markBlock b).setInode dir (attachBlock nd b)).unmarkBlock b
          = ((s.markBlock b).unmarkBlock b).setInode dir (attachBlock nd b) from rfl,
          FS.unmarkBlock_markBlock hfree.clear]
      rw [hback]
      exact .newUnreadable full hfree hread
  | true =>
      rw [Prog.exec_bind_of (exec_sbBread_ok hread)] at h1
      simp only [Bool.not_true, Bool.false_eq_true, if_false] at h1
      rw [Prog.exec_bind_of exec_bData, Prog.exec_bind_of exec_putData, FS.writeBlock_addRef,
        Prog.exec_bind_of exec_brelse, FS.addRef_cancel] at h1
      simp only [FS.block_addRef, FS.block_setInode, FS.block_markBlock] at h1
      have hdir : (((s.markBlock b).setInode dir (attachBlock nd b)).writeBlock b (DirRecord.put
          ((s.block b).zero 0 naiveBlockSize) 0 (toU32 ino) name.bytes)).inodes dir
          = some (attachBlock nd b) :=
        FS.inodes_setInode_self
      rw [Prog.exec_bind_of (exec_updInode hdir)] at h1
      cases h1
      have hstate : ((((s.markBlock b).setInode dir (attachBlock nd b)).writeBlock b
          (DirRecord.put ((s.block b).zero 0 naiveBlockSize) 0 (toU32 ino) name.bytes)).setInode dir
          (nd.grow b)) = ((s.markBlock b).putFirst b name ino).setInode dir (nd.grow b) :=
        FS.setInode_setInode (s := (s.markBlock b).putFirst b name ino)
      exact hstate ▸ .grown full hfree hread

theorem naiveAddEntry_cases (hs : s.sbi.blockBitmapBlocks = 1) (hnd : s.inodes dir = some nd)
    (h : (naiveAddEntry dir name ino).exec ans s = .ok (r, t)) :
    AddEntry ans s dir nd name ino r t := by
  rw [naiveAddEntry, Prog.exec_bind_of (exec_inode hnd)] at h
  obtain ⟨q, u, hscan, h1⟩ := Prog.exec_bind_ok.mp h
  rcases scanRecords_cases (.inl (by simp)) hscan with
    ⟨i, hfail, rfl, rfl⟩ | ⟨i, j, a, hstop, rfl, hhit⟩ | ⟨hnone, rfl, rfl⟩
  · cases h1
    exact .unreadable hfail
  · rw [Prog.exec_bind_of exec_putData, FS.writeBlock_addRef, Prog.exec_bind_of exec_brelse,
      FS.addRef_cancel, Prog.exec_bind_of exec_brelse] at hhit
    cases hhit
    cases h1
    exact .filled hstop
  · exact addEntryNew_cases hs hnd hnone h1

end AddEntry

/-! ## `naive_remove_entry` and the scan of `naive_rmdir` -/

/-- Clear record `j` of slot `i`. -/
def FS.clearRecord (s : FS) (nd : Inode) (i j : Nat) : FS :=
  s.writeBlock (nd.blockPointers i) (DirRecord.clear (s.slotBlock nd i) j)

/-- What `naive_remove_entry` returns and leaves. -/
inductive RemoveEntry (ans : Answers) (s : FS) (nd : Inode) (name : Name) : Int → FS → Prop where
  | cleared {i j : Nat} (stop : StopsAt ans s nd .removeEntry (isNamed name) i j) :
      RemoveEntry ans s nd name 0 (s.clearRecord nd i j)
  | unreadable {i : Nat} (fail : FailsAt ans s nd .removeEntry (isNamed name) i) :
      RemoveEntry ans s nd name (- EIO) s
  | absent (none : FindsNone ans s nd .removeEntry (isNamed name)) :
      RemoveEntry ans s nd name (-ENOENT) s

section RemoveEntry

variable {ans : Answers} {s t : FS} {dir : Nat} {nd : Inode} {name : Name} {r : Int}

theorem naiveRemoveEntry_cases (hnd : s.inodes dir = some nd)
    (h : (naiveRemoveEntry dir name).exec ans s = .ok (r, t)) : RemoveEntry ans s nd name r t := by
  rw [naiveRemoveEntry, Prog.exec_bind_of (exec_inode hnd)] at h
  obtain ⟨q, u, hscan, h1⟩ := Prog.exec_bind_ok.mp h
  cases h1
  rcases scanRecords_cases (.inl (by simp)) hscan with
    ⟨i, hfail, rfl, rfl⟩ | ⟨i, j, a, hstop, rfl, hhit⟩ | ⟨hnone, rfl, rfl⟩
  · exact .unreadable hfail
  · rw [Prog.exec_bind_of exec_putData, FS.writeBlock_addRef, Prog.exec_bind_of exec_brelse,
      FS.addRef_cancel] at hhit
    cases hhit
    exact .cleared hstop
  · exact .absent hnone

/-- `naive_remove_entry` returns. -/
theorem exists_naiveRemoveEntry (ans : Answers) (name : Name) (hnd : s.inodes dir = some nd)
    (hcount : nd.blockCount ≤ 8) :
    ∃ r t, (naiveRemoveEntry dir name).exec ans s = .ok (r, t) := by
  obtain ⟨q, u, hscan⟩ : ∃ q u, (scanRecords nd .removeEntry (isNamed name) (some (- EIO))
      fun b d j => do
        putData b (DirRecord.clear d j)
        brelse b
        pure 0).exec ans s = .ok (q, u) :=
    exists_scanRecords hcount fun b d j s => ⟨0, _, rfl⟩
  rw [naiveRemoveEntry, Prog.exec_bind_of (exec_inode hnd), Prog.exec_bind_of hscan]
  exact ⟨_, u, rfl⟩

/-- The emptiness check changes nothing. -/
theorem rmdirScan_cases {q : Option Int} (h : (rmdirScan nd).exec ans s = .ok (q, t)) :
    t = s ∧ ((∃ i, FailsAt ans s nd .rmdirScan isOther i ∧ q = some (- EIO)) ∨
      (∃ i j, StopsAt ans s nd .rmdirScan isOther i j ∧ q = some (-ENOTEMPTY)) ∨
      (FindsNone ans s nd .rmdirScan isOther ∧ q = none)) := by
  rcases scanRecords_cases (.inl (by simp)) h with
    ⟨i, hfail, rfl, rfl⟩ | ⟨i, j, a, hstop, rfl, hhit⟩ | ⟨hnone, rfl, rfl⟩
  · exact ⟨rfl, .inl ⟨i, hfail, rfl⟩⟩
  · rw [Prog.exec_bind_of exec_brelse, FS.addRef_cancel] at hhit
    cases hhit
    exact ⟨rfl, .inr (.inl ⟨i, j, hstop, rfl⟩)⟩
  · exact ⟨rfl, .inr (.inr ⟨hnone, rfl⟩)⟩

end RemoveEntry

end NaiveFS
