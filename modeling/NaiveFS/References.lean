import NaiveFS.Lib.Borrow
import NaiveFS.Run

/-!
# Buffer references

Which calls give back every buffer they take, counting `sb_bread` and `brelse` on
`bh->b_count`. The loop of `naive_add_entry` releases the block in which it finds a
free record twice; the clean-up ladder of `naive_fill_super` releases the inode
bitmap's buffer twice.
-/

namespace NaiveFS

open Bytes

/-! ## Calls -/

/-- A call of the functions that read blocks. -/
inductive Caller where
  | addEntry (dir : Nat) (name : Name) (ino : Int)
  | removeEntry (dir : Nat) (name : Name)
  | lookup (dir : Nat) (name : Name)
  | iget (ino : Nat)
  | mkdir (dir : Nat) (name : Name) (mode : Nat)
  | rmdir (dir : Nat) (name : Name) (id : Nat)
  | fileRead (id len pos : Nat)
  | fileWrite (id : Nat) (data : List Byte) (pos : Nat)
  | writeInode (id : Nat)
  | fillSuper

namespace Caller

/-- Run the code; of the results, the codes matter here. -/
def code : Caller → K Int
  | .addEntry dir name ino => naiveAddEntry dir name ino
  | .removeEntry dir name => naiveRemoveEntry dir name
  | .lookup dir name => naiveLookup dir name >>= fun _ => pure 0
  | .iget ino => naiveIget ino >>= fun _ => pure 0
  | .mkdir dir name mode => naiveMkdir dir name mode
  | .rmdir dir name id => naiveRmdir dir name id
  | .fileRead id len pos => naiveFileRead id len pos >>= fun r => pure r.1
  | .fileWrite id data pos => naiveFileWrite id data pos >>= fun r => pure r.1
  | .writeInode id => naiveWriteInode id
  | .fillSuper => naiveFillSuper

/-- The buffers the call keeps: a mount that succeeds keeps the superblock's. -/
def kept : Caller → Int → List Nat
  | .fillSuper, r => if r = 0 then [naiveSuperBlockBlock] else []
  | _, _ => []

/-- Every buffer is released as often as it was taken, and only while it is held:
no count falls below its value at the entry. What a mount keeps, `naive_put_super`
releases. -/
structure KeepsReferences (ans : Answers) (c : Caller) (s : FS) : Prop where
  held : ∀ x ∈ c.code.stores ans s, ∀ b, s.bCount b ≤ x.2.bCount b
  balance : ∀ r t, c.code.exec ans s = .ok (r, t) →
    ∀ b, t.bCount b = s.bCount b + (c.kept r).count b
  dropped : ∀ r t, c.code.exec ans s = .ok (r, t) → c.kept r ≠ [] →
    ∃ u, naivePutSuper.exec ans t = .ok ((), u) ∧ u.bCount = s.bCount

end Caller

/-! ## Where the code releases twice -/

/-- The scan of `naive_add_entry` finds a free record in a block of `dir`. -/
def FindsFree (ans : Answers) (s : FS) (dir : Nat) : Prop :=
  ∃ nd i j, s.inodes dir = some nd ∧ StopsAt ans s nd .addEntryScan isFree i j

/-- `naive_mkdir` gets its number, its inode and its block and can read the block:
it then adds its entry in the state `u`. -/
def MkdirAdds (ans : Answers) (s : FS) (dir mode : Nat) (u : FS) : Prop :=
  ∃ (d : Inode) (ino b : Nat), s.inodes dir ≠ none ∧
    naiveFindFreeInode (s.block naiveSuperBlockBlock) s.sbi = .ok (ino : Int) ∧ ino ≠ 0 ∧
    ans .newInode = true ∧
    naiveAllocBlock (s.block naiveSuperBlockBlock) s.sbi = .ok ((b : Int), (s.markBlock b).sbi) ∧
    ans (.sbBread .mkdirNew 0 b) = true ∧
    (s.withNew { iNlink := 1, iIno := ino }).inodes dir = some d ∧
    u = s.dirMade ans d mode ino b

/-- The mount gets as far as the inode bitmap. -/
structure ReadsBitmaps (ans : Answers) (s : FS) : Prop where
  info : ans (.kmalloc .sbInfo) = true
  super : ans (.sbBread .fillSuper 0 naiveSuperBlockBlock) = true
  magic : SuperBlock.magic (s.block naiveSuperBlockBlock) = naiveMagic
  blockBitmap : ans (.sbBread .fillSuperBlockBitmap 0 2) = true
  blockCopy : ans (.kmalloc .blockBitmap) = true
  inodeBitmap : ans (.sbBread .fillSuperInodeBitmap 0 3) = true

/-- The call takes no branch that releases a buffer twice. -/
def Caller.Sound (ans : Answers) (s : FS) : Caller → Prop
  | .addEntry dir _ _ => ¬ FindsFree ans s dir
  | .mkdir dir _ mode => ∀ u, MkdirAdds ans s dir mode u → ¬ FindsFree ans u dir
  | .fillSuper => ReadsBitmaps ans s →
      ans (.kmalloc .inodeBitmap) = true ∧ ans (.kmalloc .rootInode) = true ∧ ans .dMakeRoot = true
  | _ => True

/-! ## What the kernel functions take -/

section Kernel

variable {ans : Answers} {α : Type} {g : List Nat} {k : α → List Nat} {b : Int}

/-- Given `g`, the code returns with `k` of its result. -/
abbrev Moves (ans : Answers) (g : List Nat) (p : K α) (k : α → List Nat) : Prop :=
  Prog.Moves ans FS.bCount g p k

/-- The code gives back what it takes. -/
abbrev Neutral (ans : Answers) (p : K α) : Prop := Prog.Neutral ans FS.bCount p

/-- Given `g`, the code gives it back. -/
abbrev Returns (ans : Answers) (g : List Nat) (p : K α) : Prop :=
  Prog.Moves ans FS.bCount g p fun _ => []

theorem bCount_addRef (s : FS) (b d : Int) (i : Nat) :
    (s.addRef b d).bCount i = s.bCount i + if i = toU64 b then d else 0 := by
  show Function.update s.bCount (toU64 b) (s.bCount (toU64 b) + d) i = _
  by_cases h : i = toU64 b
  · subst h
    simp
  · simp [h]

theorem count_singleton (i j : Nat) :
    (([i] : List Nat).count j : Int) = if j = i then 1 else 0 := by
  rw [List.count_singleton]
  by_cases h : j = i
  · simp [h]
  · simp [h, Ne.symm h]

theorem borrows_brelse {h : List Nat} {s : FS} {p : Unit → K α}
    (hp : Prog.Borrows ans FS.bCount h (p ()) k (s.addRef b (-1))) :
    Prog.Borrows ans FS.bCount (toU64 b :: h) (brelse b >>= p) k s := by
  have hgive : Moves ans [toU64 b] (brelse b) fun _ => [] := by
    apply Prog.Moves.give
    intro u j
    show (u.addRef b (-1)).bCount j + _ = _
    rw [bCount_addRef, count_singleton]
    split <;> omega
  apply (hgive h s).bind
  intro a t ht
  cases ht
  exact hp

theorem moves_brelse {p : Unit → K α} (hp : Moves ans g (p ()) k) :
    Moves ans (toU64 b :: g) (brelse b >>= p) k :=
  fun h _ => borrows_brelse (hp h _)

/-- A block that is read is held; one that cannot be read is not. -/
theorem borrows_sbBread {h : List Nat} {s : FS} {site : Site} {i : Nat} {p q : K α}
    (hp : ans (.sbBread site i b) = false → Prog.Borrows ans FS.bCount h p k s)
    (hq : ans (.sbBread site i b) = true →
      Prog.Borrows ans FS.bCount (toU64 b :: h) q k (s.addRef b 1)) :
    Prog.Borrows ans FS.bCount h (sbBread site i b >>= fun ok => if !ok then p else q) k s := by
  have hread : Prog.Borrows ans FS.bCount h (sbBread site i b)
      (fun ok : Bool => (if ok then [toU64 b] else []) ++ h) s := by
    refine Prog.Moves.ask (g := []) (k := fun ok : Bool => if ok then [toU64 b] else []) ?_ h s
    refine .ite (.bind (.take fun s j => ?_) fun _ => .pure rfl) (.pure rfl)
    rw [bCount_addRef, count_singleton]
  apply hread.bind
  intro ok t hok
  cases hans : ans (.sbBread site i b) with
  | false =>
    rw [exec_sbBread_fail hans] at hok
    cases hok
    exact hp hans
  | true =>
    rw [exec_sbBread_ok hans] at hok
    cases hok
    exact hq hans

theorem moves_sbBread {site : Site} {i : Nat} {p q : K α}
    (hp : ans (.sbBread site i b) = false → Moves ans g p k)
    (hq : ans (.sbBread site i b) = true → Moves ans (toU64 b :: g) q k) :
    Moves ans g (sbBread site i b >>= fun ok => if !ok then p else q) k :=
  fun h s => borrows_sbBread (fun hans => hp hans h s) fun hans => hq hans h _

theorem neutral_inode {id : Nat} : Neutral ans (inode id) := by
  apply Prog.Neutral.step
  intro s a t h
  split at h
  · cases h
    rfl
  · cases h

theorem neutral_updInode {id : Nat} {f : Inode → Inode} : Neutral ans (updInode id f) :=
  .bind neutral_inode fun _ => Prog.Neutral.modify fun _ => rfl

theorem neutral_findFreeInode : Neutral ans findFreeInode := by
  apply Prog.Neutral.step
  intro s a t h
  cases hx : naiveFindFreeInode (s.block naiveSuperBlockBlock) s.sbi with
  | error e =>
    rw [hx] at h
    cases h
  | ok ino =>
    rw [hx] at h
    cases h
    rfl

theorem neutral_allocBlock : Neutral ans allocBlock := by
  apply Prog.Neutral.step
  intro s a t h
  cases hx : naiveAllocBlock (s.block naiveSuperBlockBlock) s.sbi with
  | error e =>
    rw [hx] at h
    cases h
  | ok r =>
    rw [hx] at h
    cases h
    rfl

theorem neutral_freeBlock : Neutral ans (freeBlock b) := by
  apply Prog.Neutral.step
  intro s a t h
  cases hx : naiveFreeBlock s.sbi b with
  | error e =>
    rw [hx] at h
    cases h
  | ok r =>
    rw [hx] at h
    cases h
    rfl

theorem neutral_inodeBitAccess {ino : Int} {f : Bytes → Nat → Bytes} :
    Neutral ans (inodeBitAccess ino f) := by
  apply Prog.Neutral.step
  intro s a t h
  simp only at h
  split at h
  · cases h
  split at h
  · cases h
    rfl
  · cases h
    rfl

theorem neutral_newInode : Neutral ans newInode :=
  .bind (Prog.Neutral.ask _) fun _ => .ite (.bind (Prog.Neutral.read _) fun _ =>
    .bind (Prog.Neutral.modify fun _ => rfl) fun _ => .pure rfl) (.pure rfl)

theorem neutral_naiveAllocInode : Neutral ans naiveAllocInode :=
  .bind (Prog.Neutral.ask _) fun _ => .ite (.bind (Prog.Neutral.read _) fun _ =>
    .bind (Prog.Neutral.modify fun _ => rfl) fun _ => .pure rfl) (.pure rfl)

theorem neutral_inodeInitOwner {id dir mode : Nat} : Neutral ans (inodeInitOwner id dir mode) :=
  .bind (Prog.Neutral.ask _) fun _ => .bind (Prog.Neutral.ask _) fun _ =>
    .bind neutral_inode fun _ => neutral_updInode

theorem neutral_iput {id : Nat} : Neutral ans (iput id) := Prog.Neutral.modify fun _ => rfl

theorem neutral_pointer {nd : Inode} {i : Int} : Neutral ans (pointer nd i) :=
  .ite (.fault _) (.pure rfl)

theorem neutral_putData {v : Bytes} : Neutral ans (putData b v) := Prog.Neutral.modify fun _ => rfl

theorem neutral_bData : Neutral ans (bData b) := Prog.Neutral.read _

theorem neutral_diskSb : Neutral ans diskSb := Prog.Neutral.read _

end Kernel

/-! ## Scans -/

section Scan

variable {α : Type} {ans : Answers} {s : FS} {nd : Inode} {site : Site} {h : List Nat}
  {test : Bytes → Nat → Bool} {miss : Option α} {hit : Int → Bytes → Nat → K α}

/-- A round of a scan gives its block back, if the record it finds is dealt with so. -/
theorem borrows_scanBlock {i : Nat} {b : Int}
    (hhit : ∀ j, ans (.sbBread site i b) = true → findRecord (test (s.block b)) = some j →
      Prog.Borrows ans FS.bCount (toU64 b :: h) (hit b (s.block b) j) (fun _ => h)
        (s.addRef b 1)) :
    Prog.Borrows ans FS.bCount h (scanBlock site test miss hit i b) (fun _ => h) s := by
  apply borrows_sbBread
  · intro _
    exact .pure rfl
  intro hread
  apply (neutral_bData (toU64 b :: h) (s.addRef b 1)).bind
  intro d t hd
  obtain ⟨rfl, rfl⟩ : s.block b = d ∧ s.addRef b 1 = t := by
    cases hd
    exact ⟨rfl, rfl⟩
  cases hfind : findRecord (test (s.block b)) with
  | some j => exact (hhit j hread hfind).bind fun _ _ _ => .pure rfl
  | none =>
    have hrest : Moves ans [toU64 b] (brelse b >>= fun _ => pure (none : Option α)) fun _ => [] :=
      moves_brelse (.pure rfl)
    exact hrest h _

/-- A scan gives back every block, if it deals so with the record at which it stops. A
scan that skips what it cannot read may stop anywhere. -/
theorem borrows_scanRecords
    (hhit : ∀ i j, (miss ≠ none → StopsAt ans s nd site test i j) →
      Prog.Borrows ans FS.bCount (toU64 (nd.blockPointers i) :: h)
        (hit (nd.blockPointers i) (s.slotBlock nd i) j) (fun _ => h)
        (s.addRef (nd.blockPointers i) 1)) :
    Prog.Borrows ans FS.bCount h (scanRecords nd site test miss hit) (fun _ => h) s := by
  have hloop : ∀ n i, i + n = nd.blockCount.toNat → (miss ≠ none → Passed ans s nd site test i) →
      Prog.Borrows ans FS.bCount h (forBlocks nd (scanBlock site test miss hit) n i)
        (fun _ => h) s := by
    intro n
    induction n with
    | zero =>
      intro i _ _
      exact .pure rfl
    | succ n ih =>
      intro i hi hpassed
      -- a slot that is passed leads to the next round
      have hnext : (miss ≠ none → nd.Slot i → ans (.sbBread site i (nd.blockPointers i)) = true ∧
            ∀ j, j < 3 → test (s.slotBlock nd i) j = false) →
          Prog.Borrows ans FS.bCount h (forBlocks nd (scanBlock site test miss hit) n (i + 1))
            (fun _ => h) s := by
        intro hslot
        apply ih (i + 1) (by omega)
        intro hmiss m hm hslot'
        rcases Nat.lt_succ_iff_lt_or_eq.mp hm with hlt | rfl
        · exact hpassed hmiss m hlt hslot'
        · exact hslot hmiss hslot'
      apply (neutral_pointer h s).bind
      intro p t hp
      obtain ⟨hi8, rfl, rfl⟩ := exec_pointer_ok hp
      split
      · rename_i hz
        exact hnext fun _ hslot => absurd hz hslot.attached
      · rename_i hnz
        have hslot : nd.Slot i := ⟨by omega, hi8, hnz⟩
        have hblock : Prog.Borrows ans FS.bCount h
            (scanBlock site test miss hit i (nd.blockPointers i)) (fun _ => h) t := by
          apply borrows_scanBlock
          intro j hread hfind
          obtain ⟨hj, htest, hfirst⟩ := findRecord_some hfind
          exact hhit i j fun hmiss => ⟨hpassed hmiss, hslot, hread, hj, htest, hfirst⟩
        apply hblock.bind
        intro r u hr
        cases r with
        | some a => exact .pure rfl
        | none =>
          rcases scanBlock_cases hr with
            ⟨_, hmiss, rfl⟩ | ⟨hread, ⟨_, _, _, _, _, hr, _⟩ | ⟨hno, _, rfl⟩⟩
          · exact hnext fun hne => absurd hmiss.symm hne
          · cases hr
          · exact hnext fun _ _ => ⟨hread, hno⟩
  apply hloop
  · omega
  · intro _ m hm
    omega

end Scan

/-! ## The functions that give back what they take -/

section Functions

variable {ans : Answers} {s : FS} {dir id : Nat} {name : Name} {h : List Nat}

theorem neutral_addEntryNew {ino : Int} : Neutral ans (addEntryNew dir name ino) := by
  refine .after neutral_allocBlock fun b => .ite (.pure rfl) (.after neutral_updInode fun _ => ?_)
  apply moves_sbBread
  · intro _
    exact .after neutral_freeBlock fun _ => .pure rfl
  · intro _
    exact .after neutral_bData fun d => .after neutral_putData fun _ =>
      moves_brelse (.after neutral_updInode fun _ => .pure rfl)

/-- `naive_add_entry` does so, where its scan finds no free record. -/
theorem borrows_naiveAddEntry {ino : Int} (hfree : ¬ FindsFree ans s dir) :
    Prog.Borrows ans FS.bCount h (naiveAddEntry dir name ino) (fun _ => h) s := by
  apply (neutral_inode h s).bind
  intro nd t hnd
  obtain ⟨hnd, rfl⟩ := exec_inode_ok hnd
  have hscan : Prog.Borrows ans FS.bCount h (addEntryScan nd name ino) (fun _ => h) t := by
    apply borrows_scanRecords
    intro i j hstop
    exact absurd ⟨nd, i, j, hnd, hstop (by simp)⟩ hfree
  apply hscan.bind
  intro r u _
  cases r with
  | some r => exact .pure rfl
  | none => exact neutral_addEntryNew h u

theorem neutral_naiveRemoveEntry : Neutral ans (naiveRemoveEntry dir name) := by
  refine .after neutral_inode fun nd => .after (fun h s => ?_) fun r => .pure rfl
  apply borrows_scanRecords
  intro i j _
  have hhit : Returns ans [toU64 (nd.blockPointers i)] (do
      putData (nd.blockPointers i) (DirRecord.clear (s.slotBlock nd i) j)
      brelse (nd.blockPointers i)
      pure (0 : Int)) :=
    .after neutral_putData fun _ => moves_brelse (.pure rfl)
  exact hhit h _

theorem neutral_rmdirScan {nd : Inode} : Neutral ans (rmdirScan nd) := by
  intro h s
  apply borrows_scanRecords
  intro i j _
  have hhit : Returns ans [toU64 (nd.blockPointers i)] (do
      brelse (nd.blockPointers i)
      pure (-ENOTEMPTY)) := moves_brelse (.pure rfl)
  exact hhit h _

theorem neutral_naiveIget {ino : Nat} : Neutral ans (naiveIget ino) := by
  refine .after (Prog.Neutral.ask _) fun ok => .ite (.pure rfl)
    (.after (Prog.Neutral.read _) fun found => ?_)
  cases found with
  | some id => exact .pure rfl
  | none =>
    refine .after (Prog.Neutral.read _) fun id => .after (Prog.Neutral.modify fun _ => rfl)
      fun _ => .after neutral_diskSb fun sb => ?_
    apply moves_sbBread
    · intro _
      exact .after neutral_iput fun _ => .pure rfl
    · intro _
      exact .after neutral_bData fun d => .after neutral_inode fun nd =>
        .after (Prog.Neutral.lift _) fun nd => .after (Prog.Neutral.modify fun _ => rfl) fun _ =>
          moves_brelse (.pure rfl)

theorem neutral_naiveLookup : Neutral ans (naiveLookup dir name) := by
  refine .after neutral_inode fun nd => .after (fun h s => ?_) fun r => ?_
  · apply borrows_scanRecords
    intro i j _
    have hhit : Returns ans [toU64 (nd.blockPointers i)] (do
        let r ← naiveIget (DirRecord.iIno (s.slotBlock nd i) j)
        brelse (nd.blockPointers i)
        pure r) := .after neutral_naiveIget fun _ => moves_brelse (.pure rfl)
    exact hhit h _
  · match r with
    | some (.ok id) => exact .after (Prog.Neutral.modify fun _ => rfl) fun _ => .pure rfl
    | some (.error e) => exact .pure rfl
    | none => exact .pure rfl

theorem neutral_freeBlocks {n i : Nat} : Neutral ans (freeBlocks id n i) := by
  induction n generalizing i with
  | zero => exact .pure rfl
  | succ n ih =>
    exact .after neutral_inode fun _ => .after neutral_pointer fun _ => .ite ih
      (.after neutral_freeBlock fun _ => .after neutral_updInode fun _ => ih)

theorem neutral_naiveRmdir : Neutral ans (naiveRmdir dir name id) := by
  refine .after neutral_inode fun _ => .after neutral_inode fun nd => .ite (.pure rfl)
    (.after neutral_rmdirScan fun r => ?_)
  cases r with
  | some ret => exact .pure rfl
  | none =>
    refine .after neutral_naiveRemoveEntry fun ret => .ite (.pure rfl) (.after ?_ fun _ => ?_)
    · exact .after neutral_inode fun nd => .after neutral_freeBlocks fun _ =>
        .after neutral_updInode fun _ => neutral_inodeBitAccess
    · exact .after neutral_updInode fun _ => .after neutral_updInode fun _ =>
        .after (Prog.Neutral.modify fun _ => rfl) fun _ => .pure rfl

theorem neutral_fileReadLoop {fuel pos remaining : Nat} {out : List Byte} :
    Neutral ans (fileReadLoop id fuel pos remaining out) := by
  induction fuel generalizing pos remaining out with
  | zero => exact .pure rfl
  | succ fuel ih =>
    refine .ite (.pure rfl) (.after neutral_inode fun nd => .ite (.pure rfl)
      (.after neutral_pointer fun p => .ite (.pure rfl) ?_))
    apply moves_sbBread
    · intro _
      exact .pure rfl
    · intro _
      exact .after neutral_bData fun d => .after (Prog.Neutral.ask _) fun left =>
        moves_brelse (.ite (.pure rfl) ih)

theorem neutral_naiveFileRead {len pos : Nat} : Neutral ans (naiveFileRead id len pos) :=
  .after neutral_inode fun _ => .ite (.pure rfl) neutral_fileReadLoop

theorem neutral_fileWriteAlloc {n : Nat} : Neutral ans (fileWriteAlloc id n) := by
  induction n with
  | zero => exact .pure rfl
  | succ n ih =>
    refine .after neutral_allocBlock fun b => .ite (.pure rfl) (.after neutral_inode fun nd => ?_)
    apply Prog.Moves.ite
    · exact .ite (.fault _) (.after neutral_updInode fun _ => ih)
    · exact .after neutral_freeBlock fun _ => .pure rfl

theorem neutral_fileWriteLoop {fuel pos : Nat} {data : List Byte} {ret : Int} :
    Neutral ans (fileWriteLoop id fuel pos data ret) := by
  induction fuel generalizing pos data ret with
  | zero => exact .pure rfl
  | succ fuel ih =>
    refine .ite (.pure rfl) (.after neutral_inode fun nd => .ite (.pure rfl)
      (.after neutral_pointer fun p => ?_))
    apply moves_sbBread
    · intro _
      exact .pure rfl
    · intro _
      refine .after neutral_bData fun d => .after (Prog.Neutral.ask _) fun left => .ite ?_ ?_
      · exact .after (Prog.Neutral.modify fun _ => rfl) fun _ => moves_brelse (.pure rfl)
      · exact .after neutral_putData fun _ => moves_brelse ih

theorem neutral_naiveFileWrite {data : List Byte} {pos : Nat} :
    Neutral ans (naiveFileWrite id data pos) := by
  have hdata : Neutral ans (fileWriteData id data pos) := by
    refine .after neutral_fileWriteLoop fun r => .after neutral_inode fun nd => ?_
    have htimes {r : Int × Nat} : Neutral ans (do
        let ts ← ktime
        updInode id fun nd => { nd with iMtime := ts, iCtime := ts }
        pure r) :=
      .after (Prog.Neutral.ask _) fun ts => .after neutral_updInode fun _ => .pure rfl
    exact .ite (.after neutral_updInode fun _ => htimes) htimes
  exact .after neutral_inode fun nd => .ite (.pure rfl) (.ite (.after neutral_fileWriteAlloc
    fun ret => .ite (.pure rfl) hdata) hdata)

theorem neutral_naiveWriteInode : Neutral ans (naiveWriteInode id) := by
  refine .after neutral_inode fun nd => .after neutral_diskSb fun sb => ?_
  apply moves_sbBread
  · intro _
    exact .pure rfl
  · intro _
    exact .after neutral_bData fun d => .after (Prog.Neutral.lift _) fun d =>
      .after neutral_putData fun _ => moves_brelse (.pure rfl)

end Functions

/-! ## `naive_mkdir` -/

section Mkdir

variable {ans : Answers} {s t : FS} {dir : Nat} {name : Name} {mode : Nat} {h : List Nat} {r : Int}

theorem exec_findFreeInode_iff : findFreeInode.exec ans s = .ok (r, t) ↔
    naiveFindFreeInode (s.block naiveSuperBlockBlock) s.sbi = .ok r ∧ t = s := by
  rw [findFreeInode, Prog.exec_step]
  cases naiveFindFreeInode (s.block naiveSuperBlockBlock) s.sbi with
  | error e => simp [bind, Except.bind]
  | ok ino => simp [bind, Except.bind, pure, Except.pure, eq_comm]

theorem exec_allocBlock_iff {b : Nat} :
    allocBlock.exec ans s = .ok ((b : Int), s.markBlock b) ↔
      naiveAllocBlock (s.block naiveSuperBlockBlock) s.sbi =
        .ok ((b : Int), (s.markBlock b).sbi) := by
  rw [allocBlock, Prog.exec_step]
  cases naiveAllocBlock (s.block naiveSuperBlockBlock) s.sbi with
  | error e => simp [bind, Except.bind]
  | ok x =>
    obtain ⟨c, sbi⟩ := x
    constructor
    · intro h
      obtain ⟨rfl, hstate⟩ := Prod.mk.inj (Except.ok.inj h)
      rw [← congrArg FS.sbi hstate]
    · intro h
      cases h
      rfl

theorem borrows_mkdirLink {id : Nat} {ino b : Int} (hfree : ¬ FindsFree ans s dir) :
    Prog.Borrows ans FS.bCount h (mkdirLink dir name id ino b) (fun _ => h) s := by
  apply (borrows_naiveAddEntry hfree).bind
  intro ret t _
  have hrest : Neutral ans (if ret < 0 then do
        freeBlock b
        iput id
        pure ret
      else do
        updInode dir fun nd => { nd with iNlink := toU32 (nd.iNlink + 1 : Int), iDirty := true }
        dInstantiate dir name id
        pure 0) :=
    .ite (.after neutral_freeBlock fun _ => .after neutral_iput fun _ => .pure rfl)
      (.after neutral_updInode fun _ => .after (Prog.Neutral.modify fun _ => rfl) fun _ =>
        .pure rfl)
  exact hrest h t

theorem borrows_mkdirFill {m : FS} {ino b : Nat} {d : Inode}
    (hd : (m.withNew { iNlink := 1, iIno := ino }).inodes dir = some d) (h1 : 1 ≤ ino)
    (h2 : ino ≤ 4096)
    (hfree : ¬ FindsFree ans ((m.withNew (Inode.newDir ans d mode ino b)).markInode ino) dir) :
    Prog.Borrows ans FS.bCount h (mkdirFill dir name mode m.nextInode ino b) (fun _ => h)
      (m.withNew { iNlink := 1, iIno := ino }) := by
  apply Prog.Borrows.after neutral_inodeInitOwner
    (exec_inodeInitOwner FS.inodes_withNew_self hd)
  rw [FS.setInode_withNew]
  apply Prog.Borrows.after (Prog.Neutral.ask _) exec_ktime
  apply Prog.Borrows.after neutral_updInode (exec_updInode FS.inodes_withNew_self)
  rw [FS.setInode_withNew]
  apply Prog.Borrows.after neutral_updInode (exec_updInode FS.inodes_withNew_self)
  rw [FS.setInode_withNew]
  apply Prog.Borrows.after neutral_inodeBitAccess (exec_setInodeBit h1 h2)
  exact borrows_mkdirLink hfree

/-- `naive_mkdir` gives back what it takes, where the scan of `dir` finds no free record
at its call of `naive_add_entry`. -/
theorem borrows_naiveMkdir (hfree : ∀ u, MkdirAdds ans s dir mode u → ¬ FindsFree ans u dir) :
    Prog.Borrows ans FS.bCount h (naiveMkdir dir name mode) (fun _ => h) s := by
  apply (neutral_inode h s).bind
  intro d0 t hd0
  obtain ⟨hd0, rfl⟩ := exec_inode_ok hd0
  apply (neutral_findFreeInode h t).bind
  intro r u hfind
  have hnum := (exec_findFreeInode_iff.mp hfind).1
  obtain ⟨rfl, ⟨rfl, -⟩ | ⟨ino, rfl, h1, h2, -⟩⟩ := exec_findFreeInode_cases hfind
  · exact .pure rfl
  rw [if_neg (by omega)]
  cases hmem : ans .newInode with
  | false =>
    apply Prog.Borrows.after neutral_newInode (exec_newInode_fail hmem)
    exact .pure rfl
  | true =>
  apply Prog.Borrows.after neutral_newInode (exec_newInode_ok hmem)
  show Prog.Borrows ans FS.bCount h (mkdirInode dir name mode u.nextInode ino) _ _
  apply Prog.Borrows.after neutral_updInode (exec_updInode FS.inodes_withNew_self)
  rw [FS.setInode_withNew, toU64_ino h2]
  apply (neutral_allocBlock h _).bind
  intro b v halloc
  rcases exec_allocBlock_cases halloc with ⟨hneg, rfl, -⟩ | ⟨b, rfl, rfl, -⟩
  · rw [if_pos hneg]
    have hfail : Neutral ans (do
        iput u.nextInode
        pure (-ENOSPC)) := .after neutral_iput fun _ => .pure rfl
    exact hfail h _
  rw [if_neg (by omega)]
  have halloc := exec_allocBlock_iff.mp halloc
  apply borrows_sbBread
  · intro _
    have hfail : Neutral ans (do
        freeBlock b
        iput u.nextInode
        pure (- EIO)) :=
      .after neutral_freeBlock fun _ => .after neutral_iput fun _ => .pure rfl
    exact hfail h _
  intro hread
  apply Prog.Borrows.after neutral_bData exec_bData
  apply (neutral_inode (toU64 b :: h) _).bind
  intro d w hparent
  obtain ⟨hd, rfl⟩ := exec_inode_ok hparent
  apply Prog.Borrows.after neutral_putData exec_putData
  apply borrows_brelse
  rw [FS.writeBlock_addRef, FS.addRef_cancel, toU32_natCast (by omega)]
  apply borrows_mkdirFill (m := (u.markBlock b).writeBlock b (dotBlock (u.block b) ino d.iIno))
    (d := d) hd h1 h2
  apply hfree
  have hdir : u.inodes dir ≠ none := by
    rw [hd0]
    simp
  exact ⟨d, ino, b, hdir, hnum, by omega, hmem, halloc, hread, hd, rfl⟩

end Mkdir

/-! ## Where a record is found -/

section Found

variable {α : Type} {ans : Answers} {s t : FS} {nd : Inode} {site : Site} {dir : Nat}
  {name : Name} {test : Bytes → Nat → Bool} {miss : Option α} {hit : Int → Bytes → Nat → K α}

theorem findRecord_of {p : Nat → Bool} {j : Nat} (hj : j < 3) (hit : p j = true)
    (hfirst : ∀ k, k < j → p k = false) : findRecord p = some j := by
  rw [findRecord, List.find?_range_eq_some]
  exact ⟨hit, List.mem_range.mpr hj, fun k hk => by simp [hfirst k hk]⟩

theorem exec_scanBlock_miss {i : Nat} {b : Int} (hread : ans (.sbBread site i b) = true)
    (hno : ∀ j, j < 3 → test (s.block b) j = false) :
    (scanBlock site test miss hit i b).exec ans s = .ok (none, s) := by
  have hfind : findRecord (test ((s.addRef b 1).block b)) = none := by
    rw [findRecord, List.find?_range_eq_none]
    intro j hj
    simp [hno j hj]
  rw [scanBlock, Prog.exec_bind_of (exec_sbBread_ok hread), if_neg (by decide),
    Prog.exec_bind_of exec_bData, hfind]
  show (brelse b >>= fun _ => pure none).exec ans (s.addRef b 1) = _
  rw [Prog.exec_bind_of exec_brelse, FS.addRef_cancel]
  rfl

theorem exec_scanBlock_hit {i j : Nat} {b : Int} {a : α}
    (hread : ans (.sbBread site i b) = true)
    (hfind : findRecord (test (s.block b)) = some j)
    (ha : (hit b (s.block b) j).exec ans (s.addRef b 1) = .ok (a, t)) :
    (scanBlock site test miss hit i b).exec ans s = .ok (some a, t) := by
  rw [scanBlock, Prog.exec_bind_of (exec_sbBread_ok hread), if_neg (by decide),
    Prog.exec_bind_of exec_bData, FS.block_addRef, hfind]
  exact Prog.exec_bind_of ha

/-- A scan that stops at a record ends with what is done there. -/
theorem exec_scanRecords_stop {i j : Nat} {a : α} (hstop : StopsAt ans s nd site test i j)
    (ha : (hit (nd.blockPointers i) (s.slotBlock nd i) j).exec ans
      (s.addRef (nd.blockPointers i) 1) = .ok (a, t)) :
    (scanRecords nd site test miss hit).exec ans s = .ok (some a, t) := by
  have hpointer : ∀ m : Nat, m < 8 → (pointer nd m).exec ans s = .ok (nd.blockPointers m, s) := by
    intro m hm
    unfold pointer naiveBlockPerFile
    rw [if_neg (by omega)]
    rfl
  have hloop : ∀ n k, k ≤ i → k + n = nd.blockCount.toNat →
      (forBlocks nd (scanBlock site test miss hit) n k).exec ans s = .ok (some a, t) := by
    intro n
    induction n with
    | zero =>
      intro k hk hn
      have := hstop.slot.count
      omega
    | succ n ih =>
      intro k hk hn
      have hi := hstop.slot.bound
      rw [forBlocks, Prog.exec_bind_of (hpointer k (by omega)), Prog.exec_ite]
      rcases Nat.lt_or_eq_of_le hk with hlt | rfl
      · split
        · exact ih (k + 1) hlt (by omega)
        · rename_i hnz
          obtain ⟨hread, hno⟩ := hstop.passed k hlt ⟨by omega, by omega, hnz⟩
          rw [Prog.exec_bind_of (exec_scanBlock_miss hread hno)]
          exact ih (k + 1) hlt (by omega)
      · have hfind : findRecord (test (s.slotBlock nd k)) = some j :=
          findRecord_of hstop.bound hstop.hit hstop.first
        rw [if_neg hstop.slot.attached,
          Prog.exec_bind_of (exec_scanBlock_hit hstop.read hfind ha)]
        rfl
  apply hloop
  · omega
  · omega

/-- Where the scan finds a free record, `naive_add_entry` returns 0 and its block has a
reference less. -/
theorem exec_naiveAddEntry_found (name : Name) (ino : Int) (hfree : FindsFree ans s dir) :
    ∃ b t, (naiveAddEntry dir name ino).exec ans s = .ok (0, t) ∧ t.inodes = s.inodes ∧
      t.bCount (toU64 b) = s.bCount (toU64 b) - 1 := by
  obtain ⟨nd, i, j, hnd, hstop⟩ := hfree
  refine ⟨nd.blockPointers i,
    (s.putRecord nd i j name ino).addRef (nd.blockPointers i) (-1), ?_, rfl, ?_⟩
  · have hscan : (addEntryScan nd name ino).exec ans s = .ok (some 0,
        (s.putRecord nd i j name ino).addRef (nd.blockPointers i) (-1)) := by
      apply exec_scanRecords_stop hstop
      rw [Prog.exec_bind_of exec_putData, FS.writeBlock_addRef, Prog.exec_bind_of exec_brelse,
        FS.addRef_cancel, Prog.exec_bind_of exec_brelse]
      rfl
    rw [naiveAddEntry, Prog.exec_bind_of (exec_inode hnd), Prog.exec_bind_of hscan]
    rfl
  · rw [bCount_addRef, if_pos rfl]
    rfl

/-- So does `naive_mkdir`, where its call of `naive_add_entry` finds one. -/
theorem exec_naiveMkdir_found (name : Name) {mode : Nat} {u : FS} (hu : MkdirAdds ans s dir mode u)
    (hfree : FindsFree ans u dir) :
    ∃ b t, (naiveMkdir dir name mode).exec ans s = .ok (0, t) ∧
      t.bCount (toU64 b) = s.bCount (toU64 b) - 1 := by
  obtain ⟨d, ino, b, hdir, hnum, hino, hmem, halloc, hread, hd, rfl⟩ := hu
  obtain ⟨d0, hd0⟩ := Option.ne_none_iff_exists'.mp hdir
  have hfind : findFreeInode.exec ans s = .ok ((ino : Int), s) :=
    exec_findFreeInode_iff.mpr ⟨hnum, rfl⟩
  have hle : ino ≤ 4096 := by
    obtain ⟨-, ⟨h0, -⟩ | ⟨m, hm, -, h2, -⟩⟩ := exec_findFreeInode_cases hfind
    · omega
    · omega
  obtain ⟨c, t, hentry, hinodes, hcount⟩ := exec_naiveAddEntry_found name ino hfree
  have hnew : allocBlock.exec ans (s.withNew { iNlink := 1, iIno := ino }) = .ok ((b : Int),
      (s.withNew { iNlink := 1, iIno := ino }).markBlock b) := exec_allocBlock_iff.mpr halloc
  have hparent : (((s.withNew { iNlink := 1, iIno := ino }).markBlock b).addRef b 1).inodes dir
      = some d := hd
  have hfill := exec_mkdirFill ans name mode b
    (m := (s.markBlock b).writeBlock b (dotBlock (s.block b) ino d.iIno)) hd
    (Nat.pos_of_ne_zero hino) hle
  obtain ⟨nd, -, -, hnd, -⟩ := hfree
  have hdir' : t.inodes dir = some nd := hinodes ▸ hnd
  let v := (t.setInode dir
    { nd with iNlink := toU32 (nd.iNlink + 1 : Int), iDirty := true }).setDentry dir name
      (some s.nextInode)
  have hlink : (mkdirLink dir name s.nextInode ino b).exec ans (s.dirMade ans d mode ino b) =
      .ok (0, v) := by
    rw [mkdirLink, Prog.exec_bind_of hentry, if_neg (by decide),
      Prog.exec_bind_of (exec_updInode hdir'), Prog.exec_bind_of exec_dInstantiate]
    rfl
  refine ⟨c, v, ?_, hcount⟩
  rw [naiveMkdir, Prog.exec_bind_of (exec_inode hd0), Prog.exec_bind_of hfind,
    if_neg (by omega), Prog.exec_bind_of (exec_newInode_ok hmem)]
  show (mkdirInode dir name mode s.nextInode ino).exec ans (s.withNew { iNlink := 1 }) = _
  rw [mkdirInode, Prog.exec_bind_of (exec_updInode FS.inodes_withNew_self),
    FS.setInode_withNew, toU64_ino hle, Prog.exec_bind_of hnew, if_neg (by omega),
    Prog.exec_bind_of (exec_sbBread_ok hread), if_neg (by decide),
    Prog.exec_bind_of exec_bData, Prog.exec_bind_of (exec_inode hparent),
    Prog.exec_bind_of exec_putData, FS.writeBlock_addRef, Prog.exec_bind_of exec_brelse,
    FS.addRef_cancel, toU32_natCast (by omega)]
  exact hfill.trans hlink

end Found

/-! ## `naive_fill_super` -/

section FillSuper

variable {ans : Answers} {s t : FS} {h : List Nat}

/-- `naive_fill_super` from its `kmalloc` for the inode bitmap on. -/
def fillSuperInodeBitmap : K Int := do
  let ok : Bool ← Prog.ask (Call.kmalloc .inodeBitmap)
  if !ok then fillSuperFreeInodeBitmap else
  let im ← bData 3
  Prog.modify fun s => s.setSbi { s.sbi with inodeBitmap := im, inodeBitmapBlocks := 1 }
  brelse 3
  fillSuperRoot

/-- The buffers a mount that returns `r` keeps. -/
abbrev mountKept (r : Int) : List Nat := if r = 0 then [naiveSuperBlockBlock] else []

theorem returns_fillSuperFreeInodeBitmap : Returns ans [3, 3, 1] fillSuperFreeInodeBitmap :=
  moves_brelse (b := 3) (moves_brelse (b := 3) (moves_brelse (b := naiveSuperBlockBlock)
    (.pure rfl)))

/-- The set-up of the root keeps what it is given, or gives it to the ladder. -/
theorem moves_fillSuperRoot {g : List Nat} {k : Int → List Nat}
    (hfail : ¬ (ans (.kmalloc .rootInode) = true ∧ ans .dMakeRoot = true) →
      Moves ans g fillSuperFreeInodeBitmap k)
    (hok : ans (.kmalloc .rootInode) = true ∧ ans .dMakeRoot = true → k 0 = g) :
    Moves ans g fillSuperRoot k := by
  intro h s
  apply (neutral_naiveAllocInode (g ++ h) s).bind
  intro r t hr
  rw [exec_naiveAllocInode] at hr
  by_cases hk : ans (.kmalloc .rootInode) = true
  · rw [if_pos hk] at hr
    cases hr
    refine Prog.Moves.after neutral_updInode (fun _ => .after (Prog.Neutral.ask _) fun ts =>
      .after neutral_updInode fun _ => .after neutral_updInode fun _ => .ask ?_) h _
    by_cases hmake : ans .dMakeRoot = true
    · rw [if_pos hmake]
      exact .after (Prog.Neutral.modify fun _ => rfl) fun _ => .pure (hok ⟨hk, hmake⟩)
    · rw [if_neg hmake]
      exact .after neutral_iput fun _ => hfail fun hboth => hmake hboth.2
  · rw [if_neg hk] at hr
    cases hr
    exact hfail (fun hboth => hk hboth.1) h _

theorem moves_fillSuperInodeBitmap (hmem : ans (.kmalloc .inodeBitmap) = true)
    {g : List Nat} {k : Int → List Nat} (hroot : Moves ans g fillSuperRoot k) :
    Moves ans (3 :: g) fillSuperInodeBitmap k := by
  apply Prog.Moves.ask
  rw [if_neg (by simp [hmem])]
  exact .after neutral_bData fun im => .after (Prog.Neutral.modify fun _ => rfl) fun _ =>
    moves_brelse (b := 3) hroot

/-- The mount up to there. -/
theorem borrows_naiveFillSuper
    (htail : ReadsBitmaps ans s → Moves ans [3, 1] fillSuperInodeBitmap mountKept) :
    Prog.Borrows ans FS.bCount [] naiveFillSuper mountKept s := by
  have hno : ∀ x : Int, x ≠ 0 → mountKept x = [] := fun x hx => if_neg hx
  apply Prog.Borrows.after (Prog.Neutral.ask _) (Prog.exec_ask _)
  split
  · exact .pure (hno _ (by decide))
  rename_i hinfo
  refine Prog.Borrows.modify (fun _ => rfl) ?_
  apply borrows_sbBread
  · intro _
    exact .pure (hno _ (by decide))
  intro hsuper
  apply Prog.Borrows.after neutral_diskSb exec_diskSb
  split
  · exact borrows_brelse (.pure (hno _ (by decide)))
  rename_i hmagic
  apply borrows_sbBread
  · intro _
    exact borrows_brelse (.pure (hno _ (by decide)))
  intro hblock
  apply Prog.Borrows.after (Prog.Neutral.ask _) (Prog.exec_ask _)
  split
  · exact borrows_brelse (borrows_brelse (.pure (hno _ (by decide))))
  rename_i hcopy
  apply Prog.Borrows.after neutral_bData exec_bData
  refine Prog.Borrows.modify (fun _ => rfl) ?_
  apply borrows_brelse
  apply borrows_sbBread
  · intro _
    exact borrows_brelse (.pure (hno _ (by decide)))
  intro hinode
  have hread : ReadsBitmaps ans s :=
    ⟨by simpa using hinfo, hsuper, not_not.mp hmagic, hblock, by simpa using hcopy, hinode⟩
  exact (htail hread).alone

/-- A mount that reads the inode bitmap holds two buffers then. -/
theorem exec_naiveFillSuper_read (hread : ReadsBitmaps ans s) :
    ∃ u, naiveFillSuper.exec ans s = fillSuperInodeBitmap.exec ans u ∧
      ∀ b, u.bCount b = s.bCount b + ([3, 1] : List Nat).count b := by
  have hmem {site : AllocSite} (hk : ans (.kmalloc site) = true) :
      ¬ (!ans (.kmalloc site)) = true := by simp [hk]
  have hmagic : ¬ SuperBlock.magic (((s.setSbi {}).addRef naiveSuperBlockBlock 1).block
      naiveSuperBlockBlock) ≠ naiveMagic := not_not.mpr hread.magic
  let m := s.setSbi { blockBitmap := s.block 2, blockBitmapBlocks := 1 }
  refine ⟨(m.addRef naiveSuperBlockBlock 1).addRef 3 1, ?_, ?_⟩
  · rw [naiveFillSuper, Prog.exec_ask_bind, if_neg (hmem hread.info), Prog.exec_modify_bind,
      Prog.exec_bind_of (exec_sbBread_ok hread.super), if_neg (by decide),
      Prog.exec_bind_of exec_diskSb, if_neg hmagic,
      Prog.exec_bind_of (exec_sbBread_ok hread.blockBitmap), if_neg (by decide),
      Prog.exec_ask_bind, if_neg (hmem hread.blockCopy), Prog.exec_bind_of exec_bData,
      Prog.exec_modify_bind, Prog.exec_bind_of exec_brelse, FS.setSbi_addRef, FS.addRef_cancel,
      Prog.exec_bind_of (exec_sbBread_ok hread.inodeBitmap), if_neg (by decide)]
    rfl
  · intro b
    have h1 := bCount_addRef m naiveSuperBlockBlock 1 b
    have h3 := bCount_addRef (m.addRef naiveSuperBlockBlock 1) 3 1 b
    have hcount := count_singleton 3 b
    have hcount' := count_singleton 1 b
    rw [show ([3, 1] : List Nat) = [3] ++ [1] from rfl, List.count_append]
    rw [h3, h1]
    show s.bCount b + (if b = 1 then 1 else 0) + (if b = 3 then 1 else 0) = _
    omega

theorem exists_fillSuperInodeBitmap (ans : Answers) (s : FS) :
    ∃ r t, fillSuperInodeBitmap.exec ans s = .ok (r, t) := by
  have hroot : ∀ s, ∃ r t, fillSuperRoot.exec ans s = .ok (r, t) := by
    intro s
    rw [fillSuperRoot]
    by_cases hk : ans (.kmalloc .rootInode) = true
    · rw [Prog.exec_bind_of (exec_naiveAllocInode.trans (if_pos hk)),
        Prog.exec_bind_of (exec_updInode FS.inodes_withNew_self), FS.setInode_withNew,
        Prog.exec_bind_of exec_ktime, Prog.exec_bind_of (exec_updInode FS.inodes_withNew_self),
        FS.setInode_withNew, Prog.exec_bind_of (exec_updInode FS.inodes_withNew_self),
        FS.setInode_withNew, Prog.exec_ask_bind, Prog.exec_ite]
      split
      · exact ⟨_, _, rfl⟩
      · exact ⟨_, _, rfl⟩
    · rw [Prog.exec_bind_of (exec_naiveAllocInode.trans (if_neg hk))]
      exact ⟨_, _, rfl⟩
  rw [fillSuperInodeBitmap, Prog.exec_ask_bind, Prog.exec_ite]
  split
  · exact ⟨_, _, rfl⟩
  · exact hroot _

/-- Behind the inode bitmap, a mount that fails leaves its buffer a reference short. -/
theorem fillSuper_short (hread : ReadsBitmaps ans s)
    (hfail : ¬ (ans (.kmalloc .inodeBitmap) = true ∧ ans (.kmalloc .rootInode) = true ∧
      ans .dMakeRoot = true)) :
    ∃ r t, naiveFillSuper.exec ans s = .ok (r, t) ∧ t.bCount 3 < s.bCount 3 := by
  obtain ⟨u, heq, hcount⟩ := exec_naiveFillSuper_read hread
  obtain ⟨r, t, ht⟩ := exists_fillSuperInodeBitmap ans u
  refine ⟨r, t, heq.trans ht, ?_⟩
  have hu : u.bCount 3 = s.bCount 3 + 1 := hcount 3
  by_cases hmem : ans (.kmalloc .inodeBitmap) = true
  · have hroot : Returns ans [3, 3, 1] fillSuperRoot :=
      moves_fillSuperRoot (fun _ => returns_fillSuperFreeInodeBitmap)
        fun hok => absurd ⟨hmem, hok⟩ hfail
    have hend : t.bCount 3 + 3 = u.bCount 3 + 0 :=
      (moves_fillSuperInodeBitmap hmem hroot).alone.count_end ht 3
    omega
  · have htail : Returns ans [3, 3, 1] fillSuperInodeBitmap := by
      apply Prog.Moves.ask
      rw [if_pos (by simpa using hmem)]
      exact returns_fillSuperFreeInodeBitmap
    have hend : t.bCount 3 + 2 = u.bCount 3 + 0 := htail.alone.count_end ht 3
    omega

end FillSuper

/-! ## Every call -/

section Calls

variable {ans : Answers} {s : FS} {c : Caller}

theorem Caller.Sound.borrows (hc : c.Sound ans s) :
    Prog.Borrows ans FS.bCount [] c.code c.kept s := by
  cases c with
  | addEntry dir name ino => exact borrows_naiveAddEntry hc
  | removeEntry dir name => exact neutral_naiveRemoveEntry.alone
  | lookup dir name =>
    have hcode : Neutral ans (naiveLookup dir name >>= fun _ => pure (0 : Int)) :=
      .after neutral_naiveLookup fun _ => .pure rfl
    exact hcode.alone
  | iget ino =>
    have hcode : Neutral ans (naiveIget ino >>= fun _ => pure (0 : Int)) :=
      .after neutral_naiveIget fun _ => .pure rfl
    exact hcode.alone
  | mkdir dir name mode => exact borrows_naiveMkdir hc
  | rmdir dir name id => exact neutral_naiveRmdir.alone
  | fileRead id len pos =>
    have hcode : Neutral ans (naiveFileRead id len pos >>= fun r => pure r.1) :=
      .after neutral_naiveFileRead fun _ => .pure rfl
    exact hcode.alone
  | fileWrite id data pos =>
    have hcode : Neutral ans (naiveFileWrite id data pos >>= fun r => pure r.1) :=
      .after neutral_naiveFileWrite fun _ => .pure rfl
    exact hcode.alone
  | writeInode id => exact neutral_naiveWriteInode.alone
  | fillSuper =>
    apply borrows_naiveFillSuper
    intro hread
    obtain ⟨hmem, hroot⟩ := hc hread
    exact moves_fillSuperInodeBitmap hmem
      (moves_fillSuperRoot (fun hno => absurd hroot hno) fun _ => rfl)

/-- A sound call keeps the references. -/
theorem Caller.Sound.keepsReferences (hc : c.Sound ans s) : c.KeepsReferences ans s := by
  obtain ⟨hheld, hbalance⟩ := hc.borrows s.bCount fun _ => by simp
  refine ⟨hheld, hbalance, fun r t ht hkept => ?_⟩
  have hend := hbalance r t ht
  cases c with
  | fillSuper =>
    have hr : r = 0 := by
      by_contra hne
      exact hkept (if_neg hne)
    subst hr
    refine ⟨(t.addRef naiveSuperBlockBlock (-1)).setSbi {}, rfl, funext fun b => ?_⟩
    have hcount := count_singleton naiveSuperBlockBlock b
    have hrelease := bCount_addRef t naiveSuperBlockBlock (-1) b
    have hb : t.bCount b = s.bCount b + ([naiveSuperBlockBlock] : List Nat).count b := hend b
    show (t.addRef naiveSuperBlockBlock (-1)).bCount b = s.bCount b
    rw [hrelease, hb, hcount]
    show s.bCount b + (if b = 1 then 1 else 0) + (if b = 1 then -1 else 0) = s.bCount b
    split <;> omega
  | _ => exact absurd rfl hkept

/-- Every buffer reference balances exactly when no free record is found in the directory's
blocks, and, in a mount that reads the inode bitmap, nothing behind it fails. -/
theorem keepsReferences_iff (c : Caller) (ans : Answers) (s : FS) :
    c.KeepsReferences ans s ↔ c.Sound ans s := by
  constructor
  · intro hkeeps
    cases c with
    | addEntry dir name ino =>
      intro hfree
      obtain ⟨b, t, ht, -, hcount⟩ := exec_naiveAddEntry_found name ino hfree
      have hend : t.bCount (toU64 b) = s.bCount (toU64 b) + 0 := hkeeps.balance 0 t ht (toU64 b)
      omega
    | mkdir dir name mode =>
      intro u hu hfree
      obtain ⟨b, t, ht, hcount⟩ := exec_naiveMkdir_found name hu hfree
      have hend : t.bCount (toU64 b) = s.bCount (toU64 b) + 0 := hkeeps.balance 0 t ht (toU64 b)
      omega
    | fillSuper =>
      intro hread
      by_contra hfail
      obtain ⟨r, t, ht, hshort⟩ := fillSuper_short hread hfail
      have hend : t.bCount 3 = s.bCount 3 + (mountKept r).count 3 := hkeeps.balance r t ht 3
      omega
    | _ => trivial
  · exact Caller.Sound.keepsReferences

end Calls

/-- A file created in a fresh root takes its first block; for the next name,
`naive_add_entry` finds a free record there. -/
theorem naiveAddEntry_releases_twice : ∃ s,
    runOps (FS.mounted (sampleDisk 128 1000 4 132) default)
      [(.create 0 (.letters 1 (by decide) (by decide)) 0o644, Answers.good default 0 0)] = .ok s ∧
    ¬ (Caller.addEntry 0 (.letters 2 (by decide) (by decide)) 3).KeepsReferences
      (Answers.good default 0 0) s := by
  obtain ⟨s, hs, hcheck⟩ := exists_of_runsTo (show runsTo
    (FS.mounted (sampleDisk 128 1000 4 132) default)
    [(.create 0 (.letters 1 (by decide) (by decide)) 0o644, Answers.good default 0 0)]
    (fun s => execTo s (naiveAddEntry 0 (.letters 2 (by decide) (by decide)) 3)
      (Answers.good default 0 0) fun _ t => decide (t.bCount 132 = s.bCount 132 - 1)) = true
    by decide +kernel)
  refine ⟨s, hs, fun hkeeps => ?_⟩
  obtain ⟨r, t, ht, hcount⟩ := exists_of_execTo hcheck
  have hend : t.bCount 132 = s.bCount 132 + 0 := hkeeps.balance r t ht 132
  have hshort := of_decide_eq_true hcount
  omega

end NaiveFS
