import NaiveFS.Codec
import NaiveFS.Numbers

/-!
# Open files

Processes open files and close them, and an unlinked file stays in memory until its last
descriptor is closed. Its number, though, is free as soon as `naive_unlink` has returned:
`naive_evict_inode`, which the kernel calls at the last close, gives nothing back.
-/

namespace NaiveFS

open Bytes

/-! ## Processes and descriptors -/

/-- The file system and who has which inode open. -/
structure Procs where
  fs : FS
  /-- The descriptors: process and inode. -/
  fds : List (Nat × Nat) := []
  /-- The inodes whose name was removed. -/
  orphans : List Nat := []
  /-- The inodes that `naive_iget` loaded. -/
  loaded : List Nat := []

def Procs.isOpen (c : Procs) (id : Nat) : Bool := c.fds.any fun fd => fd.2 = id

/-- What processes and the kernel do. -/
inductive Event where
  | create (dir : Nat) (name : Name) (perm : Nat)
  | openAt (p dir : Nat) (name : Name)
  | write (p id : Nat) (data : List Byte) (pos : Nat)
  | close (p id : Nat)
  | unlink (dir : Nat) (name : Name)
  /-- The kernel writes an inode back. -/
  | writeInode (id : Nat)
  /-- The kernel drops an inode that nobody has open, with the dentries it has left. -/
  | evict (id : Nat)

/-- The dentries of an inode are dropped. -/
def FS.dropDentries (s : FS) (id : Nat) : FS :=
  { s with dcache := fun dir name =>
      if s.dcache dir name = some id then none else s.dcache dir name }

/-- An inode leaves memory; `naive_evict_inode` gives nothing back. -/
def FS.evict (s : FS) (id : Nat) : FS := (s.dropDentries id).dropInode id

/-- `open` of a name that has no dentry: `naive_lookup`, and a descriptor for what it finds. -/
def Procs.openUncached (c : Procs) (p dir : Nat) (name : Name) (ans : Answers) :
    Except Fault Procs := do
  let (found, t) ← (naiveLookup dir name).exec ans c.fs
  match found with
  | some (.ok id) =>
    pure { c with
      fs := t, fds := (p, id) :: c.fds
      loaded := if id = c.fs.nextInode then id :: c.loaded else c.loaded }
  | _ => pure { c with fs := t }

/-- `vfs_unlink` of the dentry's inode `id`. -/
def Procs.unlinkDentry (c : Procs) (dir : Nat) (name : Name) (id : Nat) (ans : Answers) :
    Except Fault Procs := do
  let (ret, t) ← (naiveUnlink dir name id).exec ans c.fs
  if ret = 0 then
    pure { c with fs := t.setDentry dir name none, orphans := id :: c.orphans }
  else pure { c with fs := t }

/-- One event. A call that the VFS turns down changes nothing. -/
def Procs.step (c : Procs) (ans : Answers) : Event → Except Fault Procs
  | .create dir name perm =>
    match c.fs.dcache dir name with
    | some _ => pure c
    | none => do
      let (_, t) ← (naiveCreate dir name (sIfreg ||| (perm &&& 0o7777))).exec ans c.fs
      pure { c with fs := t }
  | .openAt p dir name =>
    match c.fs.dcache dir name with
    | some id => pure { c with fds := (p, id) :: c.fds }
    | none => c.openUncached p dir name ans
  | .write p id data pos =>
    if (p, id) ∈ c.fds then do
      let (_, t) ← (naiveFileWrite id data pos).exec ans c.fs
      pure { c with fs := t }
    else pure c
  | .close p id => pure { c with fds := c.fds.erase (p, id) }
  | .unlink dir name =>
    match c.fs.dcache dir name with
    | some id => c.unlinkDentry dir name id ans
    | none => pure c
  | .writeInode id => do
    let (_, t) ← (naiveWriteInode id).exec ans c.fs
    pure { c with fs := t }
  | .evict id =>
    if c.isOpen id ∨ id = c.fs.sRoot then pure c else pure { c with fs := c.fs.evict id }

/-! ## The property and its condition -/

/-- Inode `id` has a name or a descriptor. -/
def Procs.Live (c : Procs) (id : Nat) : Prop :=
  id = c.fs.sRoot ∨ (∃ dir name, c.fs.dcache dir name = some id) ∨ c.isOpen id = true

/-- No two inodes in memory that are named or open have one number, so none is written to the
inode-table block of another. -/
def Procs.NumbersApart (c : Procs) : Prop :=
  ∀ id id' nd nd', c.Live id → c.Live id' → c.fs.inodes id = some nd →
    c.fs.inodes id' = some nd' → id ≠ id' → nd.iIno ≠ nd'.iIno ∧
      toU64 (inodeTableBlock (c.fs.block naiveSuperBlockBlock) nd.iIno) ≠
        toU64 (inodeTableBlock (c.fs.block naiveSuperBlockBlock) nd'.iIno)

/-- The scan of `naive_lookup` stops at record `j` of slot `i`. -/
structure Finds (ans : Answers) (s : FS) (d : Inode) (name : Name) (i j : Nat) : Prop where
  before : PassedOver ans s d .lookup (isNamed name) i
  slot : d.Slot i
  read : ans (.sbBread .lookup i (d.blockPointers i)) = true
  record : j < 3
  hit : isNamed name (s.slotBlock d i) j = true
  first : ∀ k, k < j → isNamed name (s.slotBlock d i) k = false

/-- A creation takes neither the root's number nor that of an inode in memory that is unlinked
or was loaded; an open loads no inode whose number one in memory has. -/
def Event.Safe (c : Procs) (ans : Answers) : Event → Prop
  | .create dir name _ => c.fs.dcache dir name = none → ∀ ino, c.fs.NextIno ino →
      ino ≠ naiveRootInodeNo ∧
        ∀ id, id ∈ c.orphans ∨ id ∈ c.loaded → c.fs.number id ≠ some ino
  | .openAt _ dir name => c.fs.dcache dir name = none → ∀ d i j, c.fs.inodes dir = some d →
      Finds ans c.fs d name i j → Loads ans c.fs (DirRecord.iIno (c.fs.slotBlock d i) j) →
        ∀ id, c.fs.number id ≠ some (DirRecord.iIno (c.fs.slotBlock d i) j)
  | _ => True

/-- The states that events lead to, each of which satisfies `P`. -/
inductive Runs (P : Procs → Answers → Event → Prop) (c₀ : Procs) : Procs → Prop where
  | refl : Runs P c₀ c₀
  | step {c c' : Procs} {ans : Answers} {e : Event} :
      Runs P c₀ c → P c ans e → c.step ans e = .ok c' → Runs P c₀ c'

/-! ## What the operations do to the inode bitmap -/

section Bitmap

variable {ans : Answers} {s t : FS} {id dir : Nat} {d nd : Inode} {name : Name} {mode : Nat}
  {r : Int}

theorem Iget.inodeBitmap {ino : Nat} {q : Except Int Nat} (hi : Iget ans s ino q t) :
    t.sbi.inodeBitmap = s.sbi.inodeBitmap := by
  cases hi <;> rfl

theorem Extend.inodeBitmap (he : Extend id s t) : t.sbi.inodeBitmap = s.sbi.inodeBitmap := by
  induction he with
  | refl => rfl
  | step rest free node low room ih => exact ih

theorem Write.inodeBitmap (hw : Write s id r t) : t.sbi.inodeBitmap = s.sbi.inodeBitmap := by
  cases hw with
  | tooBig => rfl
  | noSpace grow => exact grow.inodeBitmap
  | @written u v nd nd' r grow node data same =>
      show v.sbi.inodeBitmap = s.sbi.inodeBitmap
      rw [data.sbi, grow.inodeBitmap]

/-- `naive_create` marks the number found, or leaves the numbers. -/
theorem Create.inodeBitmap (hc : Create ans s dir d name mode r t) :
    t = s ∨ ∃ ino, s.NextIno ino ∧ t.sbi.inodeBitmap = s.sbi.inodeBitmap.setBit (ino - 1) := by
  cases hc with
  | noInode | noMemory => exact .inl rfl
  | notLinked free mem entry fail =>
      exact .inr ⟨_, free, (entry.inodeBitmap (s := s.fileMade ans d mode _)).trans rfl⟩
  | linked free mem entry =>
      exact .inr ⟨_, free, (entry.inodeBitmap (s := s.fileMade ans d mode _)).trans rfl⟩

/-- What a lookup adds to memory: the inode of the record its scan stops at, loaded. -/
inductive LookupAdds (ans : Answers) (s : FS) (dir : Nat) (name : Name) :
    Option (Except Int Nat) → FS → Prop where
  | nothing {q : Option (Except Int Nat)} {t : FS} (same : SameNumbers s t) :
      LookupAdds ans s dir name q t
  | loaded {d : Inode} {i j : Nat} {t : FS} (parent : s.inodes dir = some d)
      (finds : Finds ans s d name i j) (loads : Loads ans s (DirRecord.iIno (s.slotBlock d i) j))
      (number : NumbersFrom (fun id v => id = s.nextInode ∧
        v = DirRecord.iIno (s.slotBlock d i) j) s t) :
      LookupAdds ans s dir name (some (.ok s.nextInode)) t

theorem naiveLookup_adds {q : Option (Except Int Nat)} (hs : s.Ready)
    (h : (naiveLookup dir name).exec ans s = .ok (q, t)) :
    t.sbi.inodeBitmap = s.sbi.inodeBitmap ∧ LookupAdds ans s dir name q t := by
  obtain ⟨d, hd⟩ := exec_inode_bind_ok h
  rcases exec_naiveLookup hd h with
    ⟨-, -, rfl⟩ | ⟨i, j, x, u, hover, hslot, hread, hj, hhit, hfirst, rfl, higet, hinodes, -,
      hsbi, -⟩
  · exact ⟨rfl, .nothing (.refl t)⟩
  have hs' : (s.addRef (d.blockPointers i) 1).Ready := hs.same _ ⟨rfl, rfl, rfl⟩
  have hcases := naiveIget_cases hs' higet
  refine ⟨(congrArg SbInfo.inodeBitmap hsbi).trans (hcases.inodeBitmap.trans rfl), ?_⟩
  have hu {V : Nat → Nat → Prop} : NumbersFrom V u t := .of_inodes hinodes
  by_cases hl : Loads ans s (DirRecord.iIno (s.slotBlock d i) j)
  · have hfinds : Finds ans s d name i j := ⟨hover, hslot, hread, hj, hhit, hfirst⟩
    cases hcases with
    | noMemory | cached | unreadable =>
        exact .nothing (NumbersFrom.trans (.of_inodes rfl) hu)
    | @loaded nd none decode =>
        have hnew : NumbersFrom (fun id v => id = s.nextInode ∧
            v = DirRecord.iIno (s.slotBlock d i) j) s
            ((s.addRef (d.blockPointers i) 1).withNew nd) :=
          NumbersFrom.withNew (s := s.addRef (d.blockPointers i) 1)
            ⟨rfl, decodeInode_iIno decode⟩
        exact .loaded hd hfinds hl (hnew.trans hu)
  · have hl' : ¬ Loads ans (s.addRef (d.blockPointers i) 1)
        (DirRecord.iIno (s.slotBlock d i) j) := fun hl' => hl ⟨hl'.memory, hl'.absent, hl'.read⟩
    have hkept := (Iget.inodes_of_not_loads hs' hl' higet).1
    exact .nothing (NumbersFrom.trans (.of_inodes hkept) hu)

/-- `naive_unlink` that succeeds: the numbers in memory stay, one of them is unmarked. -/
theorem naiveUnlink_numbers (hs : s.Ready) (hn : s.Numbered)
    (h : (naiveUnlink dir name id).exec ans s = .ok (r, t)) :
    t.Ready ∧ SameNumbers s t ∧ ((r ≠ 0 ∧ t = s) ∨ (r = 0 ∧ ∃ v, s.number id = some v ∧
      ∀ w, s.numberMarked w → w ≠ v → t.numberMarked w)) := by
  obtain ⟨d, hd, ⟨hr, -, rfl⟩ | ⟨rfl, i, j, nd, stop, hnd, node, rfl⟩⟩ := naiveUnlink_cases hs h
  · exact ⟨hs, .refl t, .inl ⟨by omega, rfl⟩⟩
  have hcleared : (s.clearRecord d i j).Ready := hs.same _ ⟨rfl, rfl, rfl⟩
  obtain ⟨bm, im, hframe⟩ := (s.clearRecord d i j).released_frame nd
  have hreleased : ((s.clearRecord d i j).released nd).Ready := by
    rw [hframe]
    exact hcleared.same _ ⟨rfl, rfl, rfl⟩
  have hmem : ((s.clearRecord d i j).released nd).inodes id = some nd := by
    rw [FS.released_inodes]
    exact hnd
  have hsame : SameNumbers s ((s.clearRecord d i j).released nd) :=
    .of_inodes (FS.released_inodes _ _)
  refine ⟨hreleased.setInode hmem _, hsame.trans (.setInode hmem rfl), .inr ⟨rfl, nd.iIno,
    FS.number_of hnd, fun w hw hne => ?_⟩⟩
  exact numberMarked_released (s := s.clearRecord d i j) (hn id nd.iIno (FS.number_of hnd)) hw hne

end Bitmap

/-! ## Numbers in memory -/

/-- The inodes in memory have different numbers, which are marked but for those of the root, of
unlinked inodes and of loaded ones. -/
structure Procs.Numbered (c : Procs) : Prop where
  ready : c.fs.Ready
  range : c.fs.Numbered
  inj : ∀ id id' v, c.fs.number id = some v → c.fs.number id' = some v → id = id'
  marked : ∀ id v, c.fs.number id = some v → id ∉ c.orphans → id ∉ c.loaded →
    v ≠ naiveRootInodeNo → c.fs.numberMarked v

section Steps

variable {ans : Answers} {c c' : Procs} {e : Event} {V : Nat → Nat → Prop}

/-- An event that keeps the numbers in memory, or adds one that no inode in memory has. -/
theorem Procs.Numbered.of_numbers (h : c.Numbered) (hready : c'.fs.Ready)
    (hfrom : NumbersFrom V c.fs c'.fs) (horphans : c.orphans ⊆ c'.orphans)
    (hloaded : c.loaded ⊆ c'.loaded)
    (hkept : ∀ id v, c.fs.number id = some v → id ∉ c'.orphans → c.fs.numberMarked v →
      c'.fs.numberMarked v)
    (hnew : ∀ id v, V id v → 1 ≤ v ∧ v < 2 ^ 32 ∧ (∀ k, c.fs.number k ≠ some v) ∧
      (id ∈ c'.loaded ∨ c'.fs.numberMarked v))
    (hone : ∀ id id' v, V id v → V id' v → id = id') : c'.Numbered where
  ready := hready
  range := h.range.of_numbers (fun id v hv => ⟨(hnew id v hv).1, (hnew id v hv).2.1⟩) hfrom
  inj := by
    intro id id' v hv hv'
    rcases hfrom id v hv with hold | hadd <;> rcases hfrom id' v hv' with hold' | hadd'
    · exact h.inj id id' v hold hold'
    · exact absurd hold ((hnew id' v hadd').2.2.1 id)
    · exact absurd hold' ((hnew id v hadd).2.2.1 id')
    · exact hone id id' v hadd hadd'
  marked := by
    intro id v hv horphan hload hroot
    rcases hfrom id v hv with hold | hadd
    · have hmark := h.marked id v hold (fun ho => horphan (horphans ho))
        (fun hl => hload (hloaded hl)) hroot
      exact hkept id v hold horphan hmark
    · rcases (hnew id v hadd).2.2.2 with hl | hmark
      · exact absurd hl hload
      · exact hmark

/-- An event that changes neither the numbers in memory nor the inode bitmap. -/
theorem Procs.Numbered.same (h : c.Numbered) (hready : c'.fs.Ready)
    (hfrom : SameNumbers c.fs c'.fs) (horphans : c'.orphans = c.orphans)
    (hloaded : c'.loaded = c.loaded)
    (hbm : c'.fs.sbi.inodeBitmap = c.fs.sbi.inodeBitmap) : c'.Numbered := by
  refine h.of_numbers hready hfrom (by rw [horphans]; exact List.Subset.refl _)
    (by rw [hloaded]; exact List.Subset.refl _) (fun id v _ _ hmark => ?_)
    (fun _ _ hno => hno.elim) (fun _ _ _ hno => hno.elim)
  exact (numberMarked_congr hbm v).mpr hmark

theorem Procs.Numbered.create {dir : Nat} {name : Name} {perm : Nat} {r : Int} {t : FS}
    (h : c.Numbered) (hsafe : ∀ ino, c.fs.NextIno ino → ino ≠ naiveRootInodeNo ∧
      ∀ id, id ∈ c.orphans ∨ id ∈ c.loaded → c.fs.number id ≠ some ino)
    (hexec : (naiveCreate dir name (sIfreg ||| (perm &&& 0o7777))).exec ans c.fs = .ok (r, t)) :
    Procs.Numbered { c with fs := t } := by
  have hstep : Step c.fs (.create dir name perm) ans r t := hexec
  obtain ⟨d, hd, hc⟩ := naiveCreate_cases h.ready hstep
  have hready := hstep.ready h.ready
  rcases hc.inodeBitmap with rfl | ⟨ino, free, hbm⟩
  · exact h
  · have hmark (v : Nat) : t.numberMarked v ↔ c.fs.numberMarked v ∨ v = ino :=
      numberMarked_mark free.pos hbm
    -- the number found is clear, so only the exceptions could have it
    have hunused (k : Nat) : c.fs.number k ≠ some ino := by
      intro hk
      obtain ⟨hroot, hexcept⟩ := hsafe ino free
      have hclear := free.clear
      have hmarked := (h.marked k ino hk (fun ho => hexcept k (.inl ho) hk)
        (fun hl => hexcept k (.inr hl) hk) hroot).2
      rw [hclear] at hmarked
      cases hmarked
    have hpos := free.pos
    have hle := free.bitmap
    refine h.of_numbers hready (hc.numbers h.ready hd) (List.Subset.refl _) (List.Subset.refl _)
      (fun id v _ _ hm => (hmark v).mpr (.inl hm)) (fun id v hv => ?_)
      (fun id id' v hv hv' => hv.1.trans hv'.1.symm)
    obtain rfl : v = ino := hv.2.unique free
    exact ⟨hpos, by omega, hunused, .inr ((hmark v).mpr (.inr rfl))⟩

theorem Procs.Numbered.openUncached {p dir : Nat} {name : Name} (h : c.Numbered)
    (hsafe : ∀ d i j, c.fs.inodes dir = some d → Finds ans c.fs d name i j →
      Loads ans c.fs (DirRecord.iIno (c.fs.slotBlock d i) j) →
        ∀ id, c.fs.number id ≠ some (DirRecord.iIno (c.fs.slotBlock d i) j))
    (hstep : c.openUncached p dir name ans = .ok c') : c'.Numbered := by
  obtain ⟨found, t, hexec, hstep⟩ := exec_returns hstep
  have hlookup : Step c.fs (.lookup dir name) ans 0 t := by
    show ((naiveLookup dir name) >>= fun _ => pure 0).exec ans c.fs = .ok (0, t)
    rw [Prog.exec_bind_of hexec]
    rfl
  have hready := hlookup.ready h.ready
  obtain ⟨hbm, hadds⟩ := naiveLookup_adds h.ready hexec
  have hfields : c'.fs = t ∧ c'.orphans = c.orphans ∧ c.loaded ⊆ c'.loaded ∧
      (found = some (.ok c.fs.nextInode) → c.fs.nextInode ∈ c'.loaded) := by
    rcases found with _ | x | id
    · cases hstep
      exact ⟨rfl, rfl, List.Subset.refl _, fun hno => nomatch hno⟩
    · cases hstep
      exact ⟨rfl, rfl, List.Subset.refl _, fun hno => nomatch hno⟩
    · cases hstep
      refine ⟨rfl, rfl, ?_, fun hfound => ?_⟩
      · show c.loaded ⊆ if id = c.fs.nextInode then id :: c.loaded else c.loaded
        split
        · exact List.subset_cons_self _ _
        · exact List.Subset.refl _
      · cases hfound
        show c.fs.nextInode ∈ if c.fs.nextInode = c.fs.nextInode then _ else _
        rw [if_pos rfl]
        exact List.mem_cons_self
  obtain ⟨rfl, horphans, hloaded, hadded⟩ := hfields
  have hkept (v : Nat) : c'.fs.numberMarked v ↔ c.fs.numberMarked v := numberMarked_congr hbm v
  have hsub : c.orphans ⊆ c'.orphans := by
    rw [horphans]
    exact List.Subset.refl _
  cases hadds with
  | nothing same =>
      exact h.of_numbers hready same hsub hloaded (fun id v _ _ hm => (hkept v).mpr hm)
        (fun _ _ hno => hno.elim) (fun _ _ _ hno => hno.elim)
  | @loaded d i j t parent finds loads number =>
      have hunused := hsafe d i j parent finds loads
      have hused := ((DirRecord.isNamed_iff name.noNul).mp finds.hit).1
      have hlt : DirRecord.iIno (c.fs.slotBlock d i) j < 2 ^ 32 := getLE32_lt _ _
      refine h.of_numbers hready number hsub hloaded (fun id v _ _ hm => (hkept v).mpr hm)
        (fun id v hv => ?_) (fun id id' v hv hv' => hv.1.trans hv'.1.symm)
      obtain ⟨rfl, rfl⟩ := hv
      exact ⟨Nat.pos_of_ne_zero hused, hlt, hunused, .inl (hadded rfl)⟩

theorem Procs.Numbered.unlinkDentry {dir id : Nat} {name : Name} (h : c.Numbered)
    (hstep : c.unlinkDentry dir name id ans = .ok c') : c'.Numbered := by
  obtain ⟨r, t, hexec, hstep⟩ := exec_returns hstep
  obtain ⟨hready, hsame, ⟨hr, rfl⟩ | ⟨rfl, v, hv, hmark⟩⟩ :=
    naiveUnlink_numbers h.ready h.range hexec
  · dsimp only at hstep
    rw [if_neg hr] at hstep
    cases hstep
    exact h
  · cases hstep
    refine h.of_numbers (hready.same _ ⟨rfl, rfl, rfl⟩) (hsame.trans (.of_inodes rfl))
      (List.subset_cons_self _ _) (List.Subset.refl _) (fun k w hw horphan hm => ?_)
      (fun _ _ hno => hno.elim) (fun _ _ _ hno => hno.elim)
    -- only the unlinked inode has the number that is given back
    have hne : w ≠ v := by
      rintro rfl
      exact horphan (h.inj k id w hw hv ▸ List.mem_cons_self)
    exact hmark w hm hne

theorem Procs.Numbered.step (h : c.Numbered) (hsafe : e.Safe c ans)
    (hstep : c.step ans e = .ok c') : c'.Numbered := by
  cases e with
  | create dir name perm =>
      cases hdentry : c.fs.dcache dir name with
      | some id =>
          simp only [Procs.step, hdentry] at hstep
          cases hstep
          exact h
      | none =>
          simp only [Procs.step, hdentry] at hstep
          obtain ⟨r, t, hexec, hend⟩ := exec_returns hstep
          cases hend
          exact h.create (hsafe hdentry) hexec
  | openAt p dir name =>
      cases hdentry : c.fs.dcache dir name with
      | some id =>
          simp only [Procs.step, hdentry] at hstep
          cases hstep
          exact h.same h.ready (.refl _) rfl rfl rfl
      | none =>
          simp only [Procs.step, hdentry] at hstep
          exact h.openUncached (hsafe hdentry) hstep
  | write p id data pos =>
      rw [Procs.step] at hstep
      split at hstep
      · obtain ⟨q, t, hexec, hend⟩ := exec_returns hstep
        cases hend
        have hw := naiveFileWrite_cases h.ready hexec
        have hwrite : Step c.fs (.write id data pos) ans q.1 t := by
          show (naiveFileWrite id data pos >>= fun q => pure q.1).exec ans c.fs = _
          rw [Prog.exec_bind_of hexec]
          rfl
        exact h.same (hwrite.ready h.ready) hw.numbers rfl rfl hw.inodeBitmap
      · cases hstep
        exact h
  | close p id =>
      cases hstep
      exact h.same h.ready (.refl _) rfl rfl rfl
  | unlink dir name =>
      cases hdentry : c.fs.dcache dir name with
      | none =>
          simp only [Procs.step, hdentry] at hstep
          cases hstep
          exact h
      | some id =>
          simp only [Procs.step, hdentry] at hstep
          exact h.unlinkDentry hstep
  | writeInode id =>
      obtain ⟨r, t, hexec, hend⟩ := exec_returns hstep
      cases hend
      have hnode : ∃ nd, c.fs.inodes id = some nd := by
        rw [naiveWriteInode] at hexec
        obtain ⟨nd, u, hnd, -⟩ := Prog.exec_bind_ok.mp hexec
        exact ⟨nd, (exec_inode_ok hnd).1⟩
      obtain ⟨nd, hnd⟩ := hnode
      rcases naiveWriteInode_cases hnd hexec with ⟨-, rfl⟩ | ⟨v, -, -, rfl⟩
      · exact h
      · exact h.same (h.ready.same _ ⟨rfl, rfl, rfl⟩) (.of_inodes rfl) rfl rfl rfl
  | evict id =>
      rw [Procs.step] at hstep
      split at hstep
      · cases hstep
        exact h
      · cases hstep
        -- an inode that is named or open is not evicted; any other takes no number with it
        have hready : (c.fs.evict id).Ready :=
          (h.ready.same (c.fs.dropDentries id) ⟨rfl, rfl, rfl⟩).dropInode id
        have hnum : SameNumbers c.fs (c.fs.evict id) :=
          NumbersFrom.trans (.of_inodes rfl) (.dropInode id)
        exact h.same hready hnum rfl rfl rfl

end Steps

/-! ## Runs -/

section Runs

variable {disk : Nat → Bytes} {s0 : FS} {c : Procs}

/-- A fresh mount, with nothing open. -/
theorem Procs.numbered_mounted (h0 : Mounted disk s0) : Procs.Numbered { fs := s0 } := by
  have hready := h0.ready
  obtain ⟨-, ts, rfl⟩ := mounted_eq h0
  have hroot {id v : Nat} (hv : (FS.mounted disk ts).number id = some v) :
      id = 0 ∧ v = naiveRootInodeNo := by
    obtain ⟨nd, hnd, rfl⟩ := FS.number_eq_some.mp hv
    obtain ⟨rfl, rfl⟩ := inodes_mounted hnd
    exact ⟨rfl, rfl⟩
  refine ⟨hready, numbered_mounted disk ts, fun id id' v hv hv' => ?_, fun id v hv _ _ hne => ?_⟩
  · rw [(hroot hv).1, (hroot hv').1]
  · exact absurd (hroot hv).2 hne

theorem Runs.numbered (h0 : Mounted disk s0)
    (h : Runs (fun c ans e => e.Safe c ans) { fs := s0 } c) : c.Numbered := by
  induction h with
  | refl => exact Procs.numbered_mounted h0
  | step _ hsafe hstep ih => exact ih.step hsafe hstep

/-- As long as no creation takes the number of the root or of an inode in memory that is
unlinked or was loaded, and no open loads an inode whose number is in memory, the inodes that
are named or open have different numbers and inode-table blocks. -/
theorem live_numbers_apart (h0 : Mounted disk s0)
    (h : Runs (fun c ans e => e.Safe c ans) { fs := s0 } c) : c.NumbersApart := by
  have hnum := h.numbered h0
  intro id id' nd nd' _ _ hnd hnd' hne
  have hv := FS.number_of hnd
  have hv' := FS.number_of hnd'
  have hapart : nd.iIno ≠ nd'.iIno := fun heq =>
    hne (hnum.inj id id' nd.iIno hv (heq ▸ hv'))
  have hlt := (hnum.range id _ hv).2
  have hlt' := (hnum.range id' _ hv').2
  exact ⟨hapart, inodeTableBlock_ne _ (by omega) (by omega) hapart⟩

/-! ### Runs of given events -/

/-- Run a list of events as long as each passes a test of the state before it. -/
def Procs.runIf (ok : Procs → Event → Bool) (c : Procs) : List (Event × Answers) → Option Procs
  | [] => some c
  | (e, ans) :: es =>
    match c.step ans e with
    | .ok c' => if ok c e then c'.runIf ok es else none
    | .error _ => none

theorem Runs.of_runIf {P : Procs → Answers → Event → Prop} {ok : Procs → Event → Bool}
    {c₀ c' : Procs} {es : List (Event × Answers)} (hP : ∀ c e ans, ok c e = true → P c ans e)
    (h0 : Runs P c₀ c) (h : c.runIf ok es = some c') : Runs P c₀ c' := by
  induction es generalizing c with
  | nil =>
      cases h
      exact h0
  | cons x es ih =>
      obtain ⟨e, ans⟩ := x
      rw [Procs.runIf] at h
      split at h
      · rename_i d hstep
        split at h
        · rename_i hok
          exact ih (h0.step (hP c e ans hok) hstep) h
        · cases h
      · cases h

/-- A test for events that are safe: nothing is unlinked or loaded, and opens find a dentry. -/
def Event.plain (c : Procs) : Event → Bool
  | .create _ _ _ => c.orphans.isEmpty && c.loaded.isEmpty && c.fs.inoMarked naiveRootInodeNo
  | .openAt _ dir name => (c.fs.dcache dir name).isSome
  | _ => true

theorem Event.safe_of_plain {e : Event} {ans : Answers} (h : e.plain c = true) :
    e.Safe c ans := by
  cases e with
  | create dir name perm =>
      simp only [Event.plain, Bool.and_eq_true, List.isEmpty_iff] at h
      obtain ⟨⟨horphans, hloaded⟩, hroot⟩ := h
      intro _ ino free
      refine ⟨?_, fun id hid => ?_⟩
      · rintro rfl
        have hclear := free.clear
        rw [hroot] at hclear
        cases hclear
      · rw [horphans, hloaded] at hid
        simp at hid
  | openAt p dir name =>
      intro hnone
      rw [Event.plain, hnone] at h
      cases h
  | write | close | unlink | writeInode | evict => trivial

/-- A file is created, opened, written and unlinked while it is open, another one created before
that. -/
theorem apart_while_open : ∃ s0 c, Mounted (sampleDisk 128 1000 4 132) s0 ∧
    Runs (fun c ans e => e.Safe c ans) { fs := s0 } c ∧ c.isOpen 1 = true ∧
      c.orphans = [1] ∧ c.NumbersApart := by
  obtain ⟨c, hrun, hcheck⟩ := (Option.any_eq_true _ _).mp
    (show (Procs.runIf (fun c e => e.plain c)
      { fs := FS.mounted (sampleDisk 128 1000 4 132) default }
      [(.create 0 (.letters 1 (by decide) (by decide)) 0o644, Answers.good default 0 0),
        (.create 0 (.letters 2 (by decide) (by decide)) 0o644, Answers.good default 0 0),
        (.openAt 7 0 (.letters 1 (by decide) (by decide)), Answers.good default 0 0),
        (.write 7 1 [0x61#8] 0, Answers.good default 0 0),
        (.unlink 0 (.letters 1 (by decide) (by decide)), Answers.good default 0 0)]).any
      (fun c => c.isOpen 1 && c.orphans == [1]) = true by decide +kernel)
  obtain ⟨hopen, horphans⟩ := Bool.and_eq_true_iff.mp hcheck
  have hmounted := sampleDisk_mounted 128 1000 4 132 default
  have hruns : Runs (fun c ans e => e.Safe c ans) _ c :=
    .of_runIf (fun _ _ _ hplain => Event.safe_of_plain hplain) .refl hrun
  exact ⟨_, c, hmounted, hruns, hopen, by simpa using horphans, live_numbers_apart hmounted hruns⟩

/-- A file is created, opened and unlinked; the next file created gets the number of the one
that is still open. -/
theorem number_reused_while_open : ¬ ∀ (disk : Nat → Bytes) (s0 : FS) (c : Procs),
    Mounted disk s0 → Runs (fun _ _ _ => True) { fs := s0 } c → c.NumbersApart := by
  intro hall
  obtain ⟨c, hrun, hcheck⟩ := (Option.any_eq_true _ _).mp
    (show (Procs.runIf (fun _ _ => true)
      { fs := FS.mounted (sampleDisk 128 1000 4 132) default }
      [(.create 0 (.letters 1 (by decide) (by decide)) 0o644, Answers.good default 0 0),
        (.openAt 7 0 (.letters 1 (by decide) (by decide)), Answers.good default 0 0),
        (.unlink 0 (.letters 1 (by decide) (by decide)), Answers.good default 0 0),
        (.create 0 (.letters 2 (by decide) (by decide)) 0o644, Answers.good default 0 0)]).any
      (fun c => c.isOpen 1 && (c.fs.dcache 0 (.letters 2 (by decide) (by decide)) == some 2 &&
        (c.fs.number 1 == some 2 && c.fs.number 2 == some 2))) = true by decide +kernel)
  simp only [Bool.and_eq_true, beq_iff_eq] at hcheck
  obtain ⟨hopen, hnamed, hone, htwo⟩ := hcheck
  obtain ⟨nd, hnd, hino⟩ := FS.number_eq_some.mp hone
  obtain ⟨nd', hnd', hino'⟩ := FS.number_eq_some.mp htwo
  have hapart := hall _ _ c (sampleDisk_mounted 128 1000 4 132 default)
    (.of_runIf (fun _ _ _ _ => trivial) .refl hrun) 1 2 nd nd' (.inr (.inr hopen))
    (.inr (.inl ⟨0, _, hnamed⟩)) hnd hnd' (by decide)
  exact hapart.1 (hino.trans hino'.symm)

end Runs

end NaiveFS
