import NaiveFS.Cells
import NaiveFS.DirectoryMap

/-!
# Names in a directory

The VFS makes an entry only under a name for which `naive_lookup` returned NULL.
That keeps the names of a directory different as long as NULL means that the
name is not there: `naive_lookup` passes over a block it cannot read, and names
beyond 127 characters are stored cut off and compared whole.
-/

namespace NaiveFS

open Bytes

/-! ## Lookups that pass over blocks -/

section Lookup

variable {α : Type} {ans : Answers} {s t : FS} {nd d : Inode} {dir i : Nat} {name : Name}
  {site : Site} {test : Bytes → Nat → Bool} {hit : Int → Bytes → Nat → K α} {r : Option α}

/-- Every slot before `i` that was read holds no record the scan looks for. -/
def PassedOver (ans : Answers) (s : FS) (nd : Inode) (site : Site) (test : Bytes → Nat → Bool)
    (i : Nat) : Prop :=
  ∀ m, m < i → nd.Slot m → ans (.sbBread site m (nd.blockPointers m)) = true →
    ∀ j, j < 3 → test (s.slotBlock nd m) j = false

/-- A scan that no slot stops read all of them. -/
theorem PassedOver.passed (h : PassedOver ans s nd site test i)
    (hread : ∀ m, ¬ FailsAt ans s nd site test m) : Passed ans s nd site test i := by
  induction i with
  | zero =>
      intro m hm
      omega
  | succ i ih =>
      have hi : Passed ans s nd site test i := ih fun m hm => h m (by omega)
      intro m hm hslot
      rcases Nat.lt_or_eq_of_le (Nat.le_of_lt_succ hm) with hlt | rfl
      · exact hi m hlt hslot
      · have hok : ans (.sbBread site m (nd.blockPointers m)) = true := by
          by_contra hbad
          exact hread m ⟨hi, hslot, by simpa using hbad⟩
        exact ⟨hok, h m hm hslot hok⟩

/-- A scan that goes on after a failed read. -/
theorem scanRecords_over
    (h : (scanRecords nd site test none hit).exec ans s = .ok (r, t)) :
    (∃ i j a, PassedOver ans s nd site test i ∧ nd.Slot i ∧
      ans (.sbBread site i (nd.blockPointers i)) = true ∧ j < 3 ∧
      test (s.slotBlock nd i) j = true ∧ (∀ k, k < j → test (s.slotBlock nd i) k = false) ∧
      r = some a ∧ (hit (nd.blockPointers i) (s.slotBlock nd i) j).exec ans
        (s.addRef (nd.blockPointers i) 1) = .ok (a, t)) ∨
    (PassedOver ans s nd site test nd.blockCount.toNat ∧ r = none ∧ t = s) := by
  have hquiet : Quiet ans (scanBlock site test none hit) := by
    intro i p s t h
    rcases scanBlock_cases h with ⟨_, _, rfl⟩ | ⟨_, ⟨_, _, _, _, _, h, _⟩ | ⟨_, _, rfl⟩⟩
    · rfl
    · cases h
    · rfl
  have hround : ∀ m, (scanBlock site test none hit m (nd.blockPointers m)).exec ans s
      = .ok (none, s) → ans (.sbBread site m (nd.blockPointers m)) = true →
      ∀ j, j < 3 → test (s.slotBlock nd m) j = false := by
    intro m h hread
    rcases scanBlock_cases h with ⟨hfail, _⟩ | ⟨_, ⟨_, _, _, _, _, h, _⟩ | ⟨hno, _, _⟩⟩
    · rw [hread] at hfail
      cases hfail
    · cases h
    · exact hno
  cases r with
  | none =>
      obtain ⟨rfl, hall⟩ := forBlocks_none hquiet h
      refine .inr ⟨fun m hm hslot => ?_, rfl, rfl⟩
      exact hround m (hall m (Nat.zero_le _) (by omega) hslot.attached)
  | some a =>
      obtain ⟨k, _, hk, hk8, hp, hbody, hall⟩ := forBlocks_some hquiet h
      have hpassed : PassedOver ans s nd site test k := fun m hm hm' =>
        hround m (hall m (Nat.zero_le _) hm hm'.attached)
      rcases scanBlock_cases hbody with
        ⟨_, hr, _⟩ | ⟨hread, ⟨j, a', hj, htest, hfirst, hr, hexec⟩ | ⟨_, hr, _⟩⟩
      · cases hr
      · exact .inl ⟨k, j, a', hpassed, ⟨by omega, hk8, hp⟩, hread, hj, htest, hfirst, hr, hexec⟩
      · cases hr

/-- `naive_iget` goes to the inode table for `ino`. -/
structure Loads (ans : Answers) (s : FS) (ino : Nat) : Prop where
  memory : ans (.igetLocked ino) = true
  absent : s.findHashed ino = none
  read : ans (.sbBread .iget 0 (inodeTableBlock (s.block naiveSuperBlockBlock) ino)) = true

/-- `naive_iget` that does not go to the inode table leaves the inodes in memory. -/
theorem Iget.inodes_of_not_loads {ino : Nat} {q : Except Int Nat} (hs : s.Ready)
    (hno : ¬ Loads ans s ino) (h : (naiveIget ino).exec ans s = .ok (q, t)) :
    t.inodes = s.inodes ∧ t.cache = s.cache ∧ t.sbi = s.sbi ∧ s.nextInode ≤ t.nextInode := by
  have hcases := naiveIget_cases hs h
  cases hcases with
  | noMemory | cached => exact ⟨rfl, rfl, rfl, Nat.le_refl _⟩
  | unreadable => exact ⟨rfl, rfl, rfl, Nat.le_succ _⟩
  | loaded none decode =>
      -- the code returned an inode, so each of the three calls succeeded
      exfalso
      apply hno
      rw [naiveIget, Prog.exec_ask_bind] at h
      split at h
      · cases h
      rename_i hmem
      rw [Prog.exec_read_bind] at h
      simp only [none] at h
      rw [Prog.exec_read_bind, Prog.exec_modify_bind, Prog.exec_bind_of exec_diskSb] at h
      refine ⟨by simpa using hmem, none, ?_⟩
      by_contra hread
      have hfail : ans (.sbBread .iget 0 (inodeTableBlock (s.block naiveSuperBlockBlock) ino))
          = false := by simpa using hread
      generalize hb : inodeTableBlock (s.block naiveSuperBlockBlock) ino = b at hfail
      have hb' : inodeTableBlock
          (({ s.setInode s.nextInode { iIno := ino, iNlink := 1, iHashed := true }
          with nextInode := s.nextInode + 1 } : FS).block naiveSuperBlockBlock) ino = b := hb
      rw [hb', Prog.exec_bind_of (exec_sbBread_fail hfail), if_pos (by decide)] at h
      cases h

end Lookup

/-! ## The property and its condition -/

/-- No two records of the directory hold the same name. -/
def FS.NamesUnique (s : FS) (nd : Inode) : Prop :=
  ∀ k l n v w, k < 24 → l < 24 → s.recordAt nd k = some (n, v) → s.recordAt nd l = some (n, w) →
    k = l

/-- The name an operation makes an entry under. -/
def Op.makes : Op → Option (Nat × Name)
  | .create dir name _ | .mkdir dir name _ => some (dir, name)
  | _ => none

/-- `unlink`, `rmdir`, and `write` to something that is not a directory. -/
def Op.Other (s : FS) : Op → Prop
  | .unlink .. | .rmdir .. => True
  | .write id _ _ => ∀ nd, s.inodes id = some nd → nd.isDir = false
  | _ => False

/-- Runs in which entries are made only under names for which `naive_lookup`
returned NULL and under which nothing was made since; `neg` has these names. -/
inductive NameRun (P : FS → Op → Answers → Prop) (s0 : FS) : (Nat → Name → Prop) → FS → Prop where
  | refl : NameRun P s0 (fun _ _ => False) s0
  | lookup {neg : Nat → Name → Prop} {s t : FS} {dir : Nat} {name : Name} {ans : Answers}
      {q : Option (Except Int Nat)} (run : NameRun P s0 neg s) (cond : P s (.lookup dir name) ans)
      (exec : (naiveLookup dir name).exec ans s = .ok (q, t)) :
      NameRun P s0 (fun d n => neg d n ∨ (q = none ∧ d = dir ∧ n = name)) t
  | make {neg : Nat → Name → Prop} {s t : FS} {op : Op} {dir : Nat} {name : Name} {ans : Answers}
      {r : Int} (run : NameRun P s0 neg s) (makes : op.makes = some (dir, name))
      (asked : neg dir name) (cond : P s op ans) (step : Step s op ans r t) :
      NameRun P s0 (fun d n => neg d n ∧ ¬ (r = 0 ∧ d = dir ∧ n = name)) t
  | other {neg : Nat → Name → Prop} {s t : FS} {op : Op} {ans : Answers} {r : Int}
      (run : NameRun P s0 neg s) (kind : op.Other s) (cond : P s op ans)
      (step : Step s op ans r t) : NameRun P s0 neg t

/-- A lookup reads every block it comes to, and what it then loads from the
inode table has no blocks. -/
def LookupSound (s : FS) (ans : Answers) (dir : Nat) (name : Name) : Prop :=
  ∀ d, s.inodes dir = some d → (∀ m, ¬ FailsAt ans s d .lookup (isNamed name) m) ∧
    ∀ i j, StopsAt ans s d .lookup (isNamed name) i j →
      Loads ans s (DirRecord.iIno (s.slotBlock d i) j) →
      toInt32 (DiskInode.blockCount (s.block (inodeTableBlock (s.block naiveSuperBlockBlock)
        (DirRecord.iIno (s.slotBlock d i) j)))) = 0

/-- The names made fit their field, lookups are sound, and no block just attached
to a directory fails to be read. -/
def NameCond (s : FS) (op : Op) (ans : Answers) : Prop :=
  AttachReadable s ans op ∧
    match op with
    | .create _ name _ | .mkdir _ name _ => name.bytes.length ≤ 127
    | .lookup dir name => LookupSound s ans dir name
    | _ => True

/-! ## The invariant -/

/-- Directories hold different names, and none under which nothing was made
since `naive_lookup` returned NULL. -/
structure FS.Tidy (neg : Nat → Name → Prop) (s : FS) : Prop extends s.Ready where
  owned : s.OwnedOnce
  front : ∀ id nd, s.inodes id = some nd → nd.isDir = true → nd.Front
  unique : ∀ id nd, s.inodes id = some nd → nd.isDir = true → s.NamesUnique nd
  asked : ∀ dir name, neg dir name → dir < s.nextInode
  absent : ∀ dir name d, neg dir name → s.inodes dir = some d → d.isDir = true →
    ∀ k v, k < 24 → s.recordAt d k ≠ some (name.key, v)

/-- Where a directory in memory after a step comes from; `made` has the name an
entry was made under. -/
inductive DirStep (s t : FS) (made : Nat → Name → Prop) (id : Nat) (nd' : Inode) : Prop where
  | fresh (next : s.nextInode ≤ id) (front : nd'.Front) (unique : t.NamesUnique nd')
  | kept {nd : Inode} (node : s.inodes id = some nd) (isDir : nd.isDir = true)
      (front : nd.Front → nd'.Front)
      (cells : ∀ k, k < 24 → t.recordAt nd' k = s.recordAt nd k ∨ t.recordAt nd' k = none)
  | filled {nd : Inode} {c : Nat} {name : Name} {ino : Int} (node : s.inodes id = some nd)
      (isDir : nd.isDir = true) (front : nd.Front → nd'.Front) (made : made id name)
      (short : name.bytes.length ≤ 127) (cell : CellFilled s nd t nd' c (entryOf name ino))

section Invariant

variable {ans : Answers} {s t u : FS} {id dir i j b : Nat} {d d' nd nd' : Inode} {name : Name}
  {ino r : Int} {neg neg' made : Nat → Name → Prop}

/-- The name `naive_add_entry` stores, when it fits the field. -/
theorem entryOf_short {n : List Byte} {v : Nat} (hshort : name.bytes.length ≤ 127)
    (h : entryOf name ino = some (n, v)) : n = name.bytes := by
  unfold entryOf at h
  split at h
  · cases h
    exact List.take_of_length_le hshort
  · cases h

theorem FS.NamesUnique.of_cells (h : s.NamesUnique nd)
    (hcells : ∀ k, k < 24 → t.recordAt nd' k = s.recordAt nd k ∨ t.recordAt nd' k = none) :
    t.NamesUnique nd' := by
  have hold : ∀ k x, k < 24 → t.recordAt nd' k = some x → s.recordAt nd k = some x := by
    intro k x hk hx
    rcases hcells k hk with heq | hnone
    · rw [← heq, hx]
    · rw [hnone] at hx
      cases hx
  intro k l n v w hk hl hkn hln
  exact h k l n v w hk hl (hold k _ hk hkn) (hold l _ hl hln)

/-- An entry under a name that no record holds. -/
theorem CellFilled.unique {c : Nat} (h : s.NamesUnique nd) (hshort : name.bytes.length ≤ 127)
    (habsent : ∀ k v, k < 24 → s.recordAt nd k ≠ some (name.key, v))
    (hc : CellFilled s nd t nd' c (entryOf name ino)) : t.NamesUnique nd' := by
  -- a record in another cell has another name
  have hother : ∀ k n v w, k < 24 → k ≠ c → t.recordAt nd' k = some (n, v) →
      t.recordAt nd' c ≠ some (n, w) := by
    intro k n v w hk hkc hkn hcn
    rw [hc.other k hk hkc] at hkn
    rw [hc.new] at hcn
    rw [entryOf_short hshort hcn, ← Name.key_of_short hshort] at hkn
    exact habsent k v hk hkn
  intro k l n v w hk hl hkn hln
  by_cases hkc : k = c
  · by_cases hlc : l = c
    · rw [hkc, hlc]
    · exact absurd (hkc ▸ hkn) (hother l n w v hl hlc hln)
  · by_cases hlc : l = c
    · exact absurd (hlc ▸ hln) (hother k n v w hk hkc hkn)
    · rw [hc.other k hk hkc] at hkn
      rw [hc.other l hl hlc] at hln
      exact h k l n v w hk hl hkn hln

/-- The invariant follows from where the directories come from. -/
theorem FS.Tidy.step (h : s.Tidy neg) (hready : t.Ready) (howned : t.OwnedOnce)
    (hnext : s.nextInode ≤ t.nextInode)
    (hdirs : ∀ id nd', t.inodes id = some nd' → nd'.isDir = true → DirStep s t made id nd')
    (hasked : ∀ d n, made d n → neg d n) (hneg : ∀ d n, neg' d n → neg d n ∧ ¬ made d n) :
    t.Tidy neg' := by
  refine ⟨hready, howned, ?_, ?_, ?_, ?_⟩
  · intro id nd' hnd' hdir
    cases hdirs id nd' hnd' hdir with
    | fresh next front unique => exact front
    | kept node isDir front cells => exact front (h.front id _ node isDir)
    | filled node isDir front => exact front (h.front id _ node isDir)
  · intro id nd' hnd' hdir
    cases hdirs id nd' hnd' hdir with
    | fresh next front unique => exact unique
    | kept node isDir front cells => exact FS.NamesUnique.of_cells (h.unique id _ node isDir) cells
    | filled node isDir front made short cell =>
        exact cell.unique (h.unique id _ node isDir) short
          (h.absent id _ _ (hasked id _ made) node isDir)
  · intro dir name hn
    have := h.asked dir name (hneg dir name hn).1
    omega
  · intro dir name d' hn hd' hdir k v hk
    obtain ⟨hold, hnot⟩ := hneg dir name hn
    cases hdirs dir d' hd' hdir with
    | fresh next =>
        have := h.asked dir name hold
        omega
    | kept node isDir front cells =>
        rcases cells k hk with heq | hnone
        · rw [heq]
          exact h.absent dir name _ hold node isDir k v hk
        · rw [hnone]
          simp
    | @filled nd c m ino node isDir front made short cell =>
        by_cases hkc : k = c
        · rw [hkc, cell.new]
          intro hentry
          have hkey := entryOf_short short hentry
          rw [Name.key_injective short hkey] at hnot
          exact hnot made
        · rw [cell.other k hk hkc]
          exact h.absent dir name _ hold node isDir k v hk

/-! ### Each operation -/

/-- The pairs a successful operation on `dir` and `name` makes an entry for. -/
def Made (dir : Nat) (name : Name) (r : Int) (d : Nat) (n : Name) : Prop :=
  r = 0 ∧ d = dir ∧ n = name

theorem Untouched.dirStep (hnd : s.inodes id = some nd) (hdir : nd.isDir = true)
    (h : Untouched s t nd) : DirStep s t made id nd :=
  .kept hnd hdir (fun hf => hf) fun _ hk => .inl (h.recordAt hk)

theorem EntryAdded.dirStep (hd : s.inodes dir = some d) (hdir : d.isDir = true)
    (hshort : name.bytes.length ≤ 127) (h : EntryAdded s d t d' name ino r) :
    DirStep s t (Made dir name r) dir d' := by
  rcases h.cells with hsame | ⟨hr, c, hcell⟩
  · exact .kept hd hdir h.front fun k hk => .inl (hsame k hk)
  · exact .filled hd hdir h.front ⟨hr, rfl, rfl⟩ hshort hcell

/-- An inode without blocks is a directory without records. -/
theorem dirStep_empty (hnext : s.nextInode ≤ id) (hcount : nd.blockCount = 0)
    (hptr : ∀ i, i < 8 → nd.blockPointers i = 0) : DirStep s t made id nd := by
  refine .fresh hnext ⟨by omega, fun i hi hp => absurd (hptr i hi) hp⟩ ?_
  intro k l n v w hk hl hkn
  have hnone : t.recordAt nd k = none := if_neg fun hp => hp.1 (hptr _ (by omega))
  rw [hnone] at hkn
  cases hkn

theorem Create.dirStep {perm : Nat} (hs : s.Ready) (h : s.OwnedOnce) (hd : s.inodes dir = some d)
    (hok : AttachReadable s ans (.create dir name perm)) (hshort : name.bytes.length ≤ 127)
    (hc : Create ans s dir d name (sIfreg ||| (perm &&& 0o7777)) r t) (id : Nat) (nd' : Inode)
    (hnd' : t.inodes id = some nd') (hdir : nd'.isDir = true) :
    DirStep s t (Made dir name r) id nd' := by
  have hentry {ino : Nat} {u : FS} (free : s.NextIno ino) (mem : ans .newInode = true)
      (entry : AddEntry ans (s.fileMade ans d (sIfreg ||| (perm &&& 0o7777)) ino) dir d name ino
        r u) (hid : id ≠ s.nextInode) (hu : u.inodes id = some nd') (ht : t.cache = u.cache) :
      DirStep s t (Made dir name r) id nd' := by
    by_cases hdirid : id = dir
    · subst hdirid
      obtain ⟨d', hd', hadd⟩ := entry.added (fileMade_owned h) (hs.inodes_fileMade hd)
        (hok d ino · hd free mem)
      obtain rfl : d' = nd' := Option.some.inj (hd'.symm.trans hu)
      rw [isDir_of_iMode hadd.iMode] at hdir
      have hadd' : EntryAdded s d t d' name ino r := hadd.congr (fun _ _ => rfl) ht
      exact hadd'.dirStep hd hdir hshort
    · have hframe := (entry.frame (hs.inodes_fileMade hd)).2.2.2 id hdirid
      have hnd : s.inodes id = some nd' :=
        (FS.inodes_withNew_ne hid).symm.trans (hframe.symm.trans hu)
      have hunt : Untouched (s.fileMade ans d (sIfreg ||| (perm &&& 0o7777)) ino) u nd' :=
        entry.untouched (fileMade_owned h) (hs.inodes_fileMade hnd) (hs.inodes_fileMade hd) hdirid
      exact (hunt.trans (.of_cache ht)).dirStep hnd hdir
  cases hc with
  | noInode | noMemory => exact (Untouched.refl s nd').dirStep hnd' hdir
  | @notLinked ino _ u free mem entry fail =>
      have hid : id ≠ s.nextInode := by
        rintro rfl
        rw [FS.inodes_dropInode_self] at hnd'
        cases hnd'
      rw [FS.inodes_dropInode_ne hid] at hnd'
      exact hentry free mem entry hid hnd' rfl
  | @linked ino u free mem entry =>
      by_cases hid : id = s.nextInode
      · subst hid
        have hnew : u.inodes s.nextInode = some (Inode.newFile ans d
            (sIfreg ||| (perm &&& 0o7777)) ino) :=
          ((entry.frame (hs.inodes_fileMade hd)).2.2.2 _ (Ne.symm (hs.ne_next hd))).trans
            FS.inodes_withNew_self
        obtain rfl := Option.some.inj (hnew.symm.trans hnd')
        obtain ⟨_, hptr, hcount⟩ := initOwner_fields { iNlink := 1, iIno := ino } d
          (ans .currentFsuid) (ans .currentFsgid) (sIfreg ||| (perm &&& 0o7777))
        exact dirStep_empty (Nat.le_refl _) hcount fun i _ => congrFun hptr i
      · exact hentry free mem entry hid hnd' rfl

/-- A new directory has its two records in slot 0. -/
theorem newDir_unique {mode ino parent : Nat} {v : Bytes}
    (hblock : (b : Int) ≠ 0 →
      t.slotBlock (Inode.newDir ans d mode ino b) 0 = dotBlock v ino parent) :
    (Inode.newDir ans d mode ino b).Front ∧ t.NamesUnique (Inode.newDir ans d mode ino b) := by
  constructor
  · obtain ⟨hcount, _⟩ := newDir_blocks ans d mode ino b
    refine ⟨by omega, fun i _ hp => ?_⟩
    have := newDir_slot_zero hp
    omega
  · intro k l n v w _ _ hk hl
    rcases newDir_record hblock hk with ⟨rfl, hn⟩ | ⟨rfl, hn⟩ <;>
      rcases newDir_record hblock hl with ⟨rfl, hn'⟩ | ⟨rfl, hn'⟩
    · rfl
    · exact absurd (hn.symm.trans hn') (by decide)
    · exact absurd (hn.symm.trans hn') (by decide)
    · rfl

theorem Mkdir.dirStep {mode : Nat} (hs : s.Ready) (h : s.OwnedOnce) (hd : s.inodes dir = some d)
    (hok : AttachReadable s ans (.mkdir dir name mode)) (hshort : name.bytes.length ≤ 127)
    (hm : Mkdir ans s dir d name mode r t) (id : Nat) (nd' : Inode)
    (hnd' : t.inodes id = some nd') (hdir : nd'.isDir = true) :
    DirStep s t (Made dir name r) id nd' := by
  have hother {ino b : Nat} {u : FS} (block : s.NextFree b)
      (entry : AddEntry ans (s.dirMade ans d mode ino b) dir d name ino r u)
      (hid : id ≠ s.nextInode) (hdirid : id ≠ dir) (hu : u.inodes id = some nd')
      (ht : t.cache = u.cache) : DirStep s t (Made dir name r) id nd' := by
    have hframe := (entry.frame (hs.inodes_dirMade hd)).2.2.2 id hdirid
    have hnd : s.inodes id = some nd' :=
      (FS.inodes_withNew_ne hid).symm.trans (hframe.symm.trans hu)
    have hunt := entry.untouched (dirMade_owned h block) (hs.inodes_dirMade hnd)
      (hs.inodes_dirMade hd) hdirid
    exact (((h.untouched_dirMade hnd block).trans hunt).trans (.of_cache ht)).dirStep hnd hdir
  have hentry {ino b : Nat} {u : FS} (free : s.NextIno ino) (mem : ans .newInode = true)
      (block : s.NextFree b) (read : ans (.sbBread .mkdirNew 0 b) = true)
      (entry : AddEntry ans (s.dirMade ans d mode ino b) dir d name ino r u)
      (ht : t.cache = u.cache) : ∃ d', u.inodes dir = some d' ∧ EntryAdded s d t d' name ino r := by
    obtain ⟨d', hd', hadd⟩ := entry.added (dirMade_owned h block) (hs.inodes_dirMade hd)
      (hok d ino b · hd free mem block read)
    have hmade : Untouched s (s.dirMade ans d mode ino b) d := h.untouched_dirMade hd block
    exact ⟨d', hd', hadd.congr (fun k hk => (hmade.recordAt hk).symm) ht⟩
  -- a `naive_mkdir` that stops before the entry leaves every directory as it is
  cases hm with
  | noInode | noMemory | noBlock | blockUnreadable => exact (Untouched.refl s nd').dirStep hnd' hdir
  | @notLinked ino b _ u free mem block read entry fail =>
      have hid : id ≠ s.nextInode := by
        rintro rfl
        rw [FS.inodes_dropInode_self] at hnd'
        cases hnd'
      rw [FS.inodes_dropInode_ne hid] at hnd'
      by_cases hdirid : id = dir
      · subst hdirid
        obtain ⟨d', hd', hadd⟩ := hentry free mem block read entry rfl
        obtain rfl : d' = nd' := Option.some.inj (hd'.symm.trans hnd')
        rw [isDir_of_iMode hadd.iMode] at hdir
        exact hadd.dirStep hd hdir hshort
      · exact hother block entry hid hdirid hnd' rfl
  | @linked ino b u free mem block read entry =>
      have hcache : (u.mapInode dir Inode.addLink).cache = u.cache := mapInode_cache _ _ _
      by_cases hdirid : id = dir
      · subst hdirid
        obtain ⟨d', hd', hadd⟩ := hentry free mem block read entry hcache
        have hlink : (u.mapInode id Inode.addLink).inodes id = some (Inode.addLink d') := by
          rw [FS.mapInode_of hd', FS.inodes_setInode_self]
        obtain rfl := Option.some.inj (hlink.symm.trans hnd')
        have hmode : (Inode.addLink d').isDir = d.isDir := isDir_of_iMode hadd.iMode
        rw [hmode] at hdir
        -- the link counted for `..` is no part of what the entry changed
        have hadd' : EntryAdded s d ((u.mapInode id Inode.addLink).setDentry id name
            (some s.nextInode)) (Inode.addLink d') name ino 0 := by
          refine ⟨hadd.iIno, hadd.iMode, fun hf => ?_, ?_⟩
          · exact ⟨(hadd.front hf).low, (hadd.front hf).lt_count⟩
          · rcases hadd.cells with hsame | ⟨_, c, hc⟩
            · exact .inl hsame
            · exact .inr ⟨rfl, c, hc.bound, hc.empty, hc.new, hc.other⟩
        exact hadd'.dirStep hd hdir hshort
      · have hu : u.inodes id = some nd' := (FS.inodes_mapInode_ne hdirid).symm.trans hnd'
        by_cases hid : id = s.nextInode
        · subst hid
          have hnew : u.inodes s.nextInode = some (Inode.newDir ans d mode ino b) :=
            ((entry.frame (hs.inodes_dirMade hd)).2.2.2 _ hdirid).trans FS.inodes_withNew_self
          obtain rfl := Option.some.inj (hnew.symm.trans hu)
          have hblock : (b : Int) ≠ 0 → u.slotBlock (Inode.newDir ans d mode ino b) 0
              = dotBlock (s.block b) ino d.iIno := entry.newDir_block hs h hd block
          obtain ⟨hfront, hunique⟩ := newDir_unique (t := (u.mapInode dir Inode.addLink).setDentry
            dir name (some s.nextInode)) fun hb => by
              rw [← hblock hb]
              unfold FS.slotBlock FS.block
              rw [← hcache]
              rfl
          exact .fresh (Nat.le_refl _) hfront hunique
        · exact hother block entry hid hdirid hu hcache

/-- The directory a record was cleared in, seen from a state with the same buffers. -/
theorem FS.OwnedOnce.dirStep_cleared (h : s.OwnedOnce) (hd : s.inodes dir = some d)
    (hdir : d.isDir = true) (hi : i < 8) (hp : d.blockPointers i ≠ 0) (hj : j < 3)
    (ht : t.cache = (s.clearRecord d i j).cache) (hptr : d'.blockPointers = d.blockPointers)
    (hcount : d'.blockCount = d.blockCount) : DirStep s t made dir d' := by
  obtain ⟨hnone, hkeep⟩ := h.cell_cleared hd hi hp hj
  have hcell : ∀ k, t.recordAt d' k = (s.clearRecord d i j).recordAt d k := by
    intro k
    rw [recordAt_of_cache ht]
    unfold FS.recordAt FS.slotBlock
    rw [hptr]
  refine .kept hd hdir (fun hf => ?_) fun k hk => ?_
  · refine ⟨by rw [hcount]; exact hf.low, fun m hm hpm => ?_⟩
    rw [hcount]
    exact hf.lt_count m hm (by rwa [← hptr])
  · rw [hcell k]
    by_cases hk' : k = 3 * i + j
    · exact .inr (by rw [hk', hnone])
    · exact .inl (hkeep k hk hk')

theorem Unlink.dirStep (h : s.OwnedOnce) (hu : Unlink ans s dir name r t) (id : Nat) (nd' : Inode)
    (hnd' : t.inodes id = some nd') (hdir : nd'.isDir = true) : DirStep s t made id nd' := by
  have hunt (hid : id ≠ dir) (hnd : s.inodes id = some nd') : DirStep s t made id nd' :=
    (hu.untouched h hnd hid).dirStep hnd hdir
  cases hu with
  | noDentry | notRemoved => exact (Untouched.refl s nd').dirStep hnd' hdir
  | removed dentry parent target node stop =>
      have hne := inodes_removed_some hnd'
      rw [inodes_removed_ne hne] at hnd'
      by_cases hid : id = dir
      · subst hid
        obtain rfl := Option.some.inj (parent.symm.trans hnd')
        exact h.dirStep_cleared parent hdir stop.slot.bound stop.slot.attached stop.bound
          (removed_cache _ _ _ _ _) rfl rfl
      · exact hunt hid hnd'

theorem Rmdir.dirStep (h : s.OwnedOnce) (hu : Rmdir ans s dir name r t) (id : Nat) (nd' : Inode)
    (hnd' : t.inodes id = some nd') (hdir : nd'.isDir = true) : DirStep s t made id nd' := by
  have hunt (hid : id ≠ dir) (hnd : s.inodes id = some nd') : DirStep s t made id nd' :=
    (hu.untouched h hnd hid).dirStep hnd hdir
  cases hu with
  | noDentry | notDir | unreadable | notEmpty | notRemoved =>
      exact (Untouched.refl s nd').dirStep hnd' hdir
  | @removed d nd _ i j dentry parent target node isDir empty stop =>
      have hne := inodes_removed_some hnd'
      rw [inodes_removed_ne hne] at hnd'
      have hparent : (s.clearRecord d i j).inodes dir = some d := parent
      rw [FS.mapInode_of hparent] at hnd'
      by_cases hid : id = dir
      · subst hid
        rw [FS.inodes_setInode_self] at hnd'
        cases hnd'
        refine h.dirStep_cleared parent ?_ stop.slot.bound stop.slot.attached stop.bound ?_ rfl rfl
        · exact hdir
        · rw [removed_cache, mapInode_cache]
      · rw [FS.inodes_setInode_ne hid] at hnd'
        exact hunt hid hnd'

theorem Extend.iMode (hnd : s.inodes id = some nd) (he : Extend id s t) :
    ∃ nd', t.inodes id = some nd' ∧ nd'.iMode = nd.iMode := by
  induction he with
  | refl => exact ⟨nd, hnd, rfl⟩
  | step _ _ node _ _ ih =>
      obtain ⟨nd', hnd', hmode⟩ := ih
      rw [node] at hnd'
      cases hnd'
      exact ⟨_, FS.inodes_setInode_self, hmode⟩

/-- Writing to something that is not a directory. -/
theorem Write.dirStep {k : Nat} (h : s.OwnedOnce) (hnd : s.inodes k = some nd)
    (hfile : nd.isDir = false) (hw : Write s k r t) (id : Nat) (nd' : Inode)
    (hnd' : t.inodes id = some nd') (hdir : nd'.isDir = true) : DirStep s t made id nd' := by
  by_cases hid : id = k
  · -- the file is no directory afterwards either
    subst hid
    have hmode : nd'.iMode = nd.iMode := by
      cases hw with
      | tooBig =>
          rw [hnd] at hnd'
          cases hnd'
          rfl
      | noSpace grow =>
          obtain ⟨e, he, hmode⟩ := grow.iMode hnd
          rw [he] at hnd'
          cases hnd'
          exact hmode
      | written grow node data same =>
          obtain ⟨e, he, hmode⟩ := grow.iMode hnd
          rw [node] at he
          cases he
          rw [FS.inodes_setInode_self] at hnd'
          cases hnd'
          exact same.iMode.trans hmode
    rw [isDir_of_iMode hmode, hfile] at hdir
    cases hdir
  · have hother : s.inodes id = some nd' := (hw.inodes hid).symm.trans hnd'
    exact (hw.untouched h hother hid).dirStep hother hdir

/-! ### Lookups -/

/-- Loading an inode that has no blocks on the device. -/
theorem decodeInode_empty {v : Bytes} (hzero : toInt32 (DiskInode.blockCount v) = 0)
    (h : decodeInode nd v = .ok nd') :
    nd'.blockCount = 0 ∧ nd'.blockPointers = nd.blockPointers := by
  unfold decodeInode at h
  simp only [hzero] at h
  cases h
  exact ⟨rfl, rfl⟩

theorem FS.OwnedOnce.withNew (h : s.OwnedOnce) (hslot : ∀ i, nd.slot i = none) :
    (s.withNew nd).OwnedOnce := by
  have hset : (s.setInode s.nextInode nd).OwnedOnce := by
    refine h.setInode s.nextInode fun i c hi => ?_
    rw [hslot i] at hi
    cases hi
  exact hset

theorem exec_naiveLookup (hd : s.inodes dir = some d) {q : Option (Except Int Nat)}
    (h : (naiveLookup dir name).exec ans s = .ok (q, t)) :
    (PassedOver ans s d .lookup (isNamed name) d.blockCount.toNat ∧ q = none ∧ t = s) ∨
      ∃ i j x u, PassedOver ans s d .lookup (isNamed name) i ∧ d.Slot i ∧
        ans (.sbBread .lookup i (d.blockPointers i)) = true ∧ j < 3 ∧
        isNamed name (s.slotBlock d i) j = true ∧
        (∀ k, k < j → isNamed name (s.slotBlock d i) k = false) ∧ q = some x ∧
        (naiveIget (DirRecord.iIno (s.slotBlock d i) j)).exec ans
          (s.addRef (d.blockPointers i) 1) = .ok (x, u) ∧
        t.inodes = u.inodes ∧ t.cache = u.cache ∧ t.sbi = u.sbi ∧ t.nextInode = u.nextInode := by
  rw [naiveLookup, Prog.exec_bind_of (exec_inode hd)] at h
  obtain ⟨found, v, hscan, hend⟩ := Prog.exec_bind_ok.mp h
  rcases scanRecords_over hscan with
    ⟨i, j, x, hover, hslot, hread, hj, hhit, hfirst, rfl, hexec⟩ | ⟨hover, rfl, rfl⟩
  · obtain ⟨y, u, higet, hrest⟩ := Prog.exec_bind_ok.mp hexec
    cases hrest
    refine .inr ⟨i, j, x, u, hover, hslot, hread, hj, hhit, hfirst, ?_⟩
    cases x <;> (cases hend; exact ⟨rfl, higet, rfl, rfl, rfl, rfl⟩)
  · cases hend
    exact .inl ⟨hover, rfl, rfl⟩

/-- A directory that a scan by name read to its end without a hit. -/
theorem absent_of_findsNone {site : Site} (hfront : d.Front)
    (h : Passed ans s d site (isNamed name) d.blockCount.toNat) (k v : Nat) (hk : k < 24) :
    s.recordAt d k ≠ some (name.key, v) := by
  intro hrec
  have hp : d.blockPointers (k / 3) ≠ 0 := by
    intro hz
    rw [FS.recordAt, if_neg fun hp => hp.1 hz] at hrec
    cases hrec
  have hcount := hfront.lt_count (k / 3) (by omega) hp
  have hslot : d.Slot (k / 3) := ⟨hcount, by omega, hp⟩
  have hno := (h (k / 3) (by omega) hslot).2 (k % 3) (by omega)
  have hhit : Table.hit name.key (s.recordAt d (3 * (k / 3) + k % 3)) = _ :=
    hit_recordAt hp (show k % 3 < 3 by omega)
  rw [show 3 * (k / 3) + k % 3 = k by omega, hrec, Table.hit_self, hno] at hhit
  cases hhit

theorem naiveLookup_tidy {q : Option (Except Int Nat)} (h : s.Tidy neg)
    (hsound : LookupSound s ans dir name) (hexec : (naiveLookup dir name).exec ans s = .ok (q, t)) :
    t.Tidy fun d n => neg d n ∨ (q = none ∧ d = dir ∧ n = name) := by
  have hready := naiveLookup_ready h.toReady hexec
  obtain ⟨d, hd⟩ := exec_inode_bind_ok hexec
  obtain ⟨hreads, hloads⟩ := hsound d hd
  rcases exec_naiveLookup hd hexec with
    ⟨hover, rfl, rfl⟩ | ⟨i, j, x, u, hover, hslot, hread, hj, hhit, hfirst, rfl, higet, hsame⟩
  · -- NULL: every block was read, so no record has the name
    have hpassed := hover.passed hreads
    refine ⟨h.toReady, h.owned, h.front, h.unique, ?_, ?_⟩
    · rintro e n (hn | ⟨_, rfl, rfl⟩)
      · exact h.asked e n hn
      · by_contra hge
        rw [h.fresh e (by omega)] at hd
        cases hd
    · rintro e n nd (hn | ⟨_, rfl, rfl⟩) he hisDir k v hk
      · exact h.absent e n nd hn he hisDir k v hk
      · obtain rfl := Option.some.inj (hd.symm.trans he)
        exact absent_of_findsNone (h.front e d hd hisDir) hpassed k v hk
  · obtain ⟨hinodes, hcache, hsbi, hnext⟩ := hsame
    have hs' : (s.addRef (d.blockPointers i) 1).Ready := h.toReady.same _ ⟨rfl, rfl, rfl⟩
    have hstep : t.OwnedOnce ∧ s.nextInode ≤ t.nextInode ∧ ∀ id nd', t.inodes id = some nd' →
        nd'.isDir = true → DirStep s t (fun _ _ => False) id nd' := by
      by_cases hl : Loads ans s (DirRecord.iIno (s.slotBlock d i) j)
      · -- the inode loaded has no blocks
        have hempty := hloads i j ⟨hover.passed hreads, hslot, hread, hj, hhit, hfirst⟩ hl
        cases naiveIget_cases hs' higet with
        | @loaded nd unhashed decode =>
            obtain ⟨hcount, hptr⟩ := decodeInode_empty hempty decode
            have hnone : ∀ m, nd.slot m = none := fun m => by
              unfold Inode.slot
              rw [hptr]
              exact if_neg fun hp => hp.2 rfl
            have howned : (s.withNew nd).OwnedOnce := h.owned.withNew hnone
            refine ⟨howned.congr (fun k => ?_) (hsbi.trans rfl), ?_, ?_⟩
            · rw [FS.own, hinodes]
              rfl
            · rw [hnext]
              exact Nat.le_succ _
            · intro id nd' hnd' hisDir
              rw [hinodes] at hnd'
              by_cases hid : id = s.nextInode
              · subst hid
                obtain rfl : nd = nd' := Option.some.inj (FS.inodes_withNew_self.symm.trans hnd')
                exact dirStep_empty (Nat.le_refl _) hcount fun m _ => congrFun hptr m
              · have hnd : s.inodes id = some nd' := (FS.inodes_withNew_ne hid).symm.trans hnd'
                exact Untouched.dirStep hnd hisDir (.of_cache (hcache.trans rfl))
        | noMemory mem =>
            rw [hl.memory] at mem
            cases mem
        | cached found =>
            have := hl.absent
            rw [show s.findHashed _ = _ from found] at this
            cases this
        | unreadable =>
            refine ⟨h.owned.congr (fun k => ?_) (hsbi.trans rfl), ?_, ?_⟩
            · rw [FS.own, hinodes]
              rfl
            · rw [hnext]
              exact Nat.le_succ _
            · intro id nd' hnd' hisDir
              rw [hinodes] at hnd'
              exact Untouched.dirStep hnd' hisDir (.of_cache (hcache.trans rfl))
      · have hl' : ¬ Loads ans (s.addRef (d.blockPointers i) 1)
            (DirRecord.iIno (s.slotBlock d i) j) := fun hl' => hl ⟨hl'.memory, hl'.absent, hl'.read⟩
        -- memory, the inode cache or the table block stopped `naive_iget` before it loaded
        obtain ⟨hi, hc, hb, hn⟩ := Iget.inodes_of_not_loads hs' hl' higet
        refine ⟨h.owned.congr (fun k => ?_) (hsbi.trans hb), hnext ▸ hn, ?_⟩
        · rw [FS.own, hinodes, hi]
          rfl
        · intro id nd' hnd' hisDir
          rw [hinodes, hi] at hnd'
          exact Untouched.dirStep hnd' hisDir (.of_cache (hcache.trans hc))
    obtain ⟨howned, hmono, hdirs⟩ := hstep
    refine h.step hready howned hmono hdirs (fun _ _ hm => hm.elim) ?_
    rintro e n (hn | ⟨hq, _⟩)
    · exact ⟨hn, id⟩
    · cases hq

theorem mapInode_nextInode (s : FS) (id : Nat) (f : Inode → Inode) :
    (s.mapInode id f).nextInode = s.nextInode := by
  unfold FS.mapInode
  split <;> rfl

theorem removed_nextInode (s : FS) (dir : Nat) (name : Name) (id : Nat) (nd : Inode) :
    (s.removed dir name id nd).nextInode = s.nextInode := by
  obtain ⟨bm, im, hframe⟩ := s.released_frame nd
  show (s.released nd).nextInode = s.nextInode
  rw [hframe]

theorem Create.nextInode_le {mode : Nat} (hs : s.Ready) (hd : s.inodes dir = some d)
    (hc : Create ans s dir d name mode r t) : s.nextInode ≤ t.nextInode := by
  cases hc with
  | noInode | noMemory => exact Nat.le_refl _
  | @notLinked ino _ u free mem entry =>
      have hu : u.nextInode = s.nextInode + 1 := (entry.frame (hs.inodes_fileMade hd)).2.2.1
      show s.nextInode ≤ u.nextInode
      omega
  | @linked ino u free mem entry =>
      have hu : u.nextInode = s.nextInode + 1 := (entry.frame (hs.inodes_fileMade hd)).2.2.1
      show s.nextInode ≤ u.nextInode
      omega

theorem Mkdir.nextInode_le {mode : Nat} (hs : s.Ready) (hd : s.inodes dir = some d)
    (hm : Mkdir ans s dir d name mode r t) : s.nextInode ≤ t.nextInode := by
  cases hm with
  | noInode | noMemory => exact Nat.le_refl _
  | noBlock | blockUnreadable => exact Nat.le_succ _
  | @notLinked ino b _ u free mem block read entry =>
      have hu : u.nextInode = s.nextInode + 1 := (entry.frame (hs.inodes_dirMade hd)).2.2.1
      show s.nextInode ≤ u.nextInode
      omega
  | @linked ino b u free mem block read entry =>
      have hu : u.nextInode = s.nextInode + 1 := (entry.frame (hs.inodes_dirMade hd)).2.2.1
      show s.nextInode ≤ (u.mapInode dir Inode.addLink).nextInode
      rw [mapInode_nextInode]
      omega

theorem Unlink.nextInode_le (hu : Unlink ans s dir name r t) : s.nextInode ≤ t.nextInode := by
  cases hu with
  | noDentry | notRemoved => exact Nat.le_refl _
  | removed =>
      rw [removed_nextInode]
      exact Nat.le_refl _

theorem Rmdir.nextInode_le (hu : Rmdir ans s dir name r t) : s.nextInode ≤ t.nextInode := by
  cases hu with
  | noDentry | notDir | unreadable | notEmpty | notRemoved => exact Nat.le_refl _
  | removed =>
      rw [removed_nextInode, mapInode_nextInode]
      exact Nat.le_refl _

theorem Write.nextInode_le (hw : Write s id r t) : s.nextInode ≤ t.nextInode := by
  cases hw with
  | tooBig => exact Nat.le_refl _
  | noSpace grow => exact Nat.le_of_eq grow.frame.2.1.symm
  | @written u v nd nd' r grow node data same =>
      have hv : v.nextInode = s.nextInode := data.nextInode.trans grow.frame.2.1
      show s.nextInode ≤ v.nextInode
      omega

/-! ## Runs -/

/-- Making an entry under a name that was asked for. -/
theorem FS.Tidy.make {op : Op} (h : s.Tidy neg) (hmakes : op.makes = some (dir, name))
    (hasked : neg dir name) (hcond : NameCond s op ans) (hstep : Step s op ans r t) :
    t.Tidy fun d n => neg d n ∧ ¬ (r = 0 ∧ d = dir ∧ n = name) := by
  have hready := hstep.ready h.toReady
  have hmade : ∀ e n, Made dir name r e n → neg e n := by
    rintro e n ⟨_, rfl, rfl⟩
    exact hasked
  obtain ⟨hattach, hname⟩ := hcond
  cases op with
  | create dir' name' perm =>
      cases hmakes
      obtain ⟨d, hd, hc⟩ := naiveCreate_cases h.toReady hstep
      exact h.step hready (hc.owned h.toReady h.owned hd hattach) (hc.nextInode_le h.toReady hd)
        (hc.dirStep h.toReady h.owned hd hattach hname) hmade fun _ _ hn => hn
  | mkdir dir' name' mode =>
      cases hmakes
      obtain ⟨d, hd, hm⟩ := naiveMkdir_cases h.toReady hstep
      exact h.step hready (hm.owned h.toReady h.owned hd hattach) (hm.nextInode_le h.toReady hd)
        (hm.dirStep h.toReady h.owned hd hattach hname) hmade fun _ _ hn => hn
  | unlink | rmdir | write | lookup => cases hmakes

theorem FS.Tidy.other {op : Op} (h : s.Tidy neg) (hkind : op.Other s) (hstep : Step s op ans r t) :
    t.Tidy neg := by
  have hready := hstep.ready h.toReady
  have hnone : ∀ d n, neg d n → neg d n ∧ ¬ (fun _ _ => False : Nat → Name → Prop) d n :=
    fun _ _ hn => ⟨hn, id⟩
  cases op with
  | unlink dir name =>
      have hu := vfsUnlink_cases h.toReady hstep
      exact h.step hready (hu.owned h.owned) hu.nextInode_le (hu.dirStep h.owned)
        (fun _ _ hm => hm.elim) hnone
  | rmdir dir name =>
      have hu := vfsRmdir_cases h.toReady hstep
      exact h.step hready (hu.owned h.owned) hu.nextInode_le (hu.dirStep h.owned)
        (fun _ _ hm => hm.elim) hnone
  | write id data pos =>
      obtain ⟨q, u, hwrite, hend⟩ := Prog.exec_bind_ok.mp hstep
      cases hend
      have hw := naiveFileWrite_cases h.toReady hwrite
      obtain ⟨nd, hnd⟩ := exec_inode_bind_ok hwrite
      exact h.step hready (hw.owned h.owned) hw.nextInode_le
        (hw.dirStep h.owned hnd (hkind nd hnd)) (fun _ _ hm => hm.elim) hnone
  | create | mkdir | lookup => exact hkind.elim

theorem tidy_mounted (disk : Nat → Bytes) (ts : Timespec) :
    (FS.mounted disk ts).Tidy fun _ _ => False := by
  have hroot : ∀ id nd, (FS.mounted disk ts).inodes id = some nd → nd = Inode.root ts :=
    fun _ _ h => (inodes_mounted h).2
  have hnone : ∀ k, (FS.mounted disk ts).recordAt (Inode.root ts) k = none :=
    fun k => if_neg fun hp => hp.1 rfl
  refine ⟨?_, ?_, ?_, ?_, fun _ _ hn => hn.elim, fun _ _ _ hn => hn.elim⟩
  · refine ⟨rfl, fun id hid => ?_⟩
    have hid' : 1 ≤ id := hid
    simp [FS.mounted, show id ≠ 0 by omega]
  · exact owned_mounted disk ts
  · intro id nd hnd _
    rw [hroot id nd hnd]
    exact ⟨Int.le_refl _, fun i _ hp => absurd rfl hp⟩
  · intro id nd hnd _ k l n v w _ _ hk
    rw [hroot id nd hnd, hnone k] at hk
    cases hk

theorem NameRun.tidy {disk : Nat → Bytes} {s0 : FS} (h0 : Mounted disk s0)
    (h : NameRun NameCond s0 neg s) : s.Tidy neg := by
  induction h with
  | refl =>
      obtain ⟨_, ts, rfl⟩ := mounted_eq h0
      exact tidy_mounted disk ts
  | lookup _ cond exec ih => exact naiveLookup_tidy ih cond.2 exec
  | make _ makes asked cond step ih => exact ih.make makes asked cond step
  | other _ kind _ step ih => exact ih.other kind step

/-- In every run in which entries are made only under names that `naive_lookup`
did not find, and whose steps meet the condition, the names of each directory
are different. -/
theorem names_unique {disk : Nat → Bytes} {s0 : FS} (h0 : Mounted disk s0)
    (h : NameRun NameCond s0 neg s) :
    ∀ id nd, s.inodes id = some nd → nd.isDir = true → s.NamesUnique nd :=
  (h.tidy h0).unique

end Invariant

/-- Look a name up in the root and, when the lookup returns NULL, create it. -/
def createAfterLookup (name : Name) (ask ans : Answers) (s : FS) : Option FS :=
  match (naiveLookup 0 name).exec ask s with
  | .ok (none, t) =>
    match (Op.create 0 name 0o644).prog.exec ans t with
    | .ok (_, u) => some u
    | .error _ => none
  | _ => none

theorem NameRun.createAfterLookup {P : FS → Op → Answers → Prop} {s0 s u : FS}
    {neg : Nat → Name → Prop} {name : Name} {ask ans : Answers} (h : NameRun P s0 neg s)
    (hask : P s (.lookup 0 name) ask) (hmake : ∀ t, P t (.create 0 name 0o644) ans)
    (hu : NaiveFS.createAfterLookup name ask ans s = some u) : ∃ neg', NameRun P s0 neg' u := by
  unfold NaiveFS.createAfterLookup at hu
  split at hu
  · rename_i t ht
    split at hu
    · rename_i r v hv
      cases hu
      exact ⟨_, (h.lookup hask ht).make rfl (.inr ⟨rfl, rfl, rfl⟩) (hmake t) hv⟩
    · cases hu
  · cases hu

/-- A lookup that read every block and returned NULL comes to no inode. -/
theorem lookupSound_of_absent {ans : Answers} {s t : FS} {dir : Nat} {name : Name}
    (hread : Readable ans) (h : (naiveLookup dir name).exec ans s = .ok (none, t)) :
    LookupSound s ans dir name := by
  intro d hd
  refine ⟨fun m hm => ?_, fun i j stop => ?_⟩
  · have hunread := hm.unread
    rw [hread] at hunread
    cases hunread
  · rcases exec_naiveLookup hd h with ⟨hover, -, -⟩ | ⟨_, _, _, _, _, _, _, _, _, _, hq, _⟩
    · have hcount := stop.slot.count
      have hno := hover i (by omega) stop.slot (hread _ _ _) j stop.bound
      rw [stop.hit] at hno
      cases hno
    · cases hq

theorem NameRun.createNew {s0 s u : FS} {neg : Nat → Name → Prop} {name : Name}
    (h : NameRun NameCond s0 neg s) (hname : name.bytes.length ≤ 127)
    (hu : NaiveFS.createAfterLookup name (Answers.good default 0 0) (Answers.good default 0 0) s
      = some u) : ∃ neg', NameRun NameCond s0 neg' u := by
  refine h.createAfterLookup ⟨trivial, ?_⟩ (fun t => ⟨attachReadable_good t default 0 0 _, hname⟩)
    hu
  unfold NaiveFS.createAfterLookup at hu
  split at hu
  · rename_i t ht
    exact lookupSound_of_absent (fun _ _ _ => rfl) ht
  · cases hu

/-- On a fresh image, two names looked up and created. -/
theorem names_unique_two_names : ∃ s nd,
    (createAfterLookup (.letters 1 (by decide) (by decide)) (Answers.good default 0 0)
      (Answers.good default 0 0) (FS.mounted (sampleDisk 128 1000 4 132) default)).bind
    (createAfterLookup (.letters 2 (by decide) (by decide)) (Answers.good default 0 0)
      (Answers.good default 0 0)) = some s ∧
    s.inodes 0 = some nd ∧ s.recordAt nd 0 = some ([0x61#8], 2) ∧
    s.recordAt nd 1 = some ([0x61#8, 0x61#8], 3) ∧ s.NamesUnique nd := by
  obtain ⟨s, hs, hcheck⟩ := (Option.any_eq_true _ _).mp (show (((createAfterLookup
      (.letters 1 (by decide) (by decide)) (Answers.good default 0 0) (Answers.good default 0 0)
      (FS.mounted (sampleDisk 128 1000 4 132) default)).bind
    (createAfterLookup (.letters 2 (by decide) (by decide))
      (Answers.good default 0 0) (Answers.good default 0 0))).any fun s =>
        (s.inodes 0).any fun nd => nd.isDir && (s.recordAt nd 0 == some ([0x61#8], 2) &&
          s.recordAt nd 1 == some ([0x61#8, 0x61#8], 3))) = true by decide +kernel)
  obtain ⟨nd, hnd, hrecords⟩ := (Option.any_eq_true _ _).mp hcheck
  simp only [Bool.and_eq_true, beq_iff_eq] at hrecords
  obtain ⟨hdir, hfirst, hsecond⟩ := hrecords
  obtain ⟨u, hu, hs'⟩ := Option.bind_eq_some_iff.mp hs
  obtain ⟨neg, hrun⟩ := NameRun.refl.createNew (by decide) hu
  obtain ⟨neg', hrun'⟩ := hrun.createNew (by decide) hs'
  exact ⟨s, nd, hs, hnd, hfirst, hsecond,
    names_unique (sampleDisk_mounted 128 1000 4 132 default) hrun' 0 nd hnd hdir⟩

/-- The root's block cannot be read while a name in it is looked up again, so the
name is created twice. -/
theorem names_twice_after_skipped_block : ¬ ∀ (disk : Nat → Bytes) (s0 s : FS)
    (neg : Nat → Name → Prop), Mounted disk s0 → NameRun (fun _ _ _ => True) s0 neg s →
    ∀ id nd, s.inodes id = some nd → nd.isDir = true → s.NamesUnique nd := by
  intro hall
  obtain ⟨s, hs, hcheck⟩ := (Option.any_eq_true _ _).mp (show (((createAfterLookup
      (.letters 1 (by decide) (by decide)) (Answers.good default 0 0) (Answers.good default 0 0)
      (FS.mounted (sampleDisk 128 1000 4 132) default)).bind
    (createAfterLookup (.letters 1 (by decide) (by decide))
      (Answers.unreadable .lookup default 0 0) (Answers.good default 0 0))).any fun s =>
        (s.inodes 0).any fun nd => nd.isDir && (s.recordAt nd 0 == some ([0x61#8], 2) &&
          s.recordAt nd 1 == some ([0x61#8], 3))) = true by decide +kernel)
  obtain ⟨nd, hnd, hrecords⟩ := (Option.any_eq_true _ _).mp hcheck
  simp only [Bool.and_eq_true, beq_iff_eq] at hrecords
  obtain ⟨hdir, hfirst, hsecond⟩ := hrecords
  obtain ⟨u, hu, hs⟩ := Option.bind_eq_some_iff.mp hs
  obtain ⟨neg, hrun⟩ := NameRun.refl.createAfterLookup (P := fun _ _ _ => True) trivial
    (fun _ => trivial) hu
  obtain ⟨neg', hrun'⟩ := hrun.createAfterLookup trivial (fun _ => trivial) hs
  have := hall _ _ s neg' (sampleDisk_mounted 128 1000 4 132 default) hrun' 0 nd hnd hdir 0 1 _ _ _
    (by decide) (by decide) hfirst hsecond
  cases this

end NaiveFS
