import NaiveFS.Accounts
import NaiveFS.Names

/-!
# The numbers of the inodes in memory

What each operation does to the numbers of the inodes in memory: those it keeps have the
number they had, and an inode it adds has a number the code can give.
-/

namespace NaiveFS

open Bytes

/-- The inodes in memory at `t` have the numbers they had at `s`, or ones that `V` allows. -/
def NumbersFrom (V : Nat → Nat → Prop) (s t : FS) : Prop :=
  ∀ id v, t.number id = some v → s.number id = some v ∨ V id v

/-- No inode has a number it did not have. -/
abbrev SameNumbers : FS → FS → Prop := NumbersFrom fun _ _ => False

namespace NumbersFrom

variable {V W : Nat → Nat → Prop} {s t u : FS} {id : Nat} {nd nd' : Inode}

theorem of_number (h : ∀ id, t.number id = s.number id) : NumbersFrom V s t :=
  fun id v hv => .inl (by rw [← h id, hv])

theorem refl (s : FS) : NumbersFrom V s s := of_number fun _ => rfl

theorem of_inodes (h : t.inodes = s.inodes) : NumbersFrom V s t :=
  of_number fun id => by rw [FS.number, FS.number, h]

theorem trans (h : NumbersFrom V s t) (h' : NumbersFrom V t u) : NumbersFrom V s u := by
  intro id v hv
  rcases h' id v hv with hold | hnew
  · exact h id v hold
  · exact .inr hnew

theorem mono (h : NumbersFrom V s t) (hVW : ∀ id v, V id v → W id v) : NumbersFrom W s t :=
  fun id v hv => (h id v hv).imp_right (hVW id v)

/-- An inode assigned to keeps its number. -/
theorem setInode (hnd : s.inodes id = some nd) (h : nd'.iIno = nd.iIno) :
    NumbersFrom V s (s.setInode id nd') := by
  intro k v hv
  by_cases hk : k = id
  · subst hk
    rw [FS.number_of FS.inodes_setInode_self, h] at hv
    exact .inl (by rw [FS.number_of hnd, hv])
  · rw [FS.number, FS.inodes_setInode_ne hk] at hv
    exact .inl hv

theorem mapInode (id : Nat) {f : Inode → Inode} (hf : ∀ nd, (f nd).iIno = nd.iIno) :
    NumbersFrom V s (s.mapInode id f) := by
  unfold FS.mapInode
  split
  · rename_i nd hnd
    exact setInode hnd (hf nd)
  · exact refl s

theorem dropInode (id : Nat) : NumbersFrom V s (s.dropInode id) := by
  intro k v hv
  by_cases hk : k = id
  · subst hk
    rw [FS.number, FS.inodes_dropInode_self] at hv
    cases hv
  · rw [FS.number, FS.inodes_dropInode_ne hk] at hv
    exact .inl hv

/-- A new inode has the number it is made with. -/
theorem withNew (h : V s.nextInode nd.iIno) : NumbersFrom V s (s.withNew nd) := by
  intro k v hv
  by_cases hk : k = s.nextInode
  · subst hk
    rw [FS.number_of FS.inodes_withNew_self] at hv
    cases hv
    exact .inr h
  · rw [FS.number, FS.inodes_withNew_ne hk] at hv
    exact .inl hv

theorem removed (dir : Nat) (name : Name) (id : Nat) (nd : Inode) :
    NumbersFrom V s (s.removed dir name id nd) := by
  intro k v hv
  by_cases hk : k = id
  · subst hk
    rw [number_removed_self] at hv
    cases hv
  · rw [number_removed_ne hk] at hv
    exact .inl hv

end NumbersFrom

/-! ## The operations -/

section Operations

variable {V : Nat → Nat → Prop} {ans : Answers} {s t : FS} {id dir : Nat} {d nd : Inode}
  {name : Name} {mode : Nat} {r : Int}

theorem AddEntry.numbers {ino : Int} (hd : s.inodes dir = some d)
    (he : AddEntry ans s dir d name ino r t) : NumbersFrom V s t := .of_number (he.number hd)

/-- A file made has the number found. -/
theorem Create.numbers (hs : s.Ready) (hd : s.inodes dir = some d)
    (hc : Create ans s dir d name mode r t) :
    NumbersFrom (fun id v => id = s.nextInode ∧ s.NextIno v) s t := by
  have hmade {ino : Nat} (free : s.NextIno ino) : NumbersFrom (fun id v => id = s.nextInode ∧
      s.NextIno v) s (s.fileMade ans d mode ino) := by
    have hnew : NumbersFrom (fun id v => id = s.nextInode ∧ s.NextIno v) s
        (s.withNew (Inode.newFile ans d mode ino)) :=
      .withNew ⟨rfl, by rw [newFile_iIno]; exact free⟩
    exact hnew.trans (.of_inodes rfl)
  cases hc with
  | noInode | noMemory => exact .refl s
  | notLinked free mem entry fail =>
      exact ((hmade free).trans (entry.numbers (hs.inodes_fileMade hd))).trans (.dropInode _)
  | linked free mem entry =>
      exact ((hmade free).trans (entry.numbers (hs.inodes_fileMade hd))).trans (.of_inodes rfl)

/-- A directory made has the number found. -/
theorem Mkdir.numbers (hs : s.Ready) (hd : s.inodes dir = some d)
    (hm : Mkdir ans s dir d name mode r t) :
    NumbersFrom (fun id v => id = s.nextInode ∧ s.NextIno v) s t := by
  have hmade {ino b : Nat} (free : s.NextIno ino) : NumbersFrom (fun id v => id = s.nextInode ∧
      s.NextIno v) s (s.dirMade ans d mode ino b) := by
    have hnum : s.NextIno (Inode.newDir ans d mode ino b).iIno := by
      rw [newDir_iIno]
      exact free
    have hnew : NumbersFrom (fun id v => id = s.nextInode ∧ s.NextIno v)
        ((s.markBlock b).writeBlock b (dotBlock (s.block b) ino d.iIno)) _ := .withNew ⟨rfl, hnum⟩
    exact hnew
  cases hm with
  | noInode | noMemory => exact .refl s
  | noBlock | blockUnreadable => exact .of_inodes rfl
  | notLinked free mem block read entry fail =>
      have hentry := (hmade free).trans (entry.numbers (hs.inodes_dirMade hd))
      exact (hentry.trans (.of_inodes (t := FS.unmarkBlock _ _) rfl)).trans (.dropInode _)
  | linked free mem block read entry =>
      have hentry := (hmade free).trans (entry.numbers (hs.inodes_dirMade hd))
      have hlink := hentry.trans (.mapInode dir (f := Inode.addLink) fun _ => rfl)
      exact hlink.trans (.of_inodes rfl)

theorem Unlink.numbers (hu : Unlink ans s dir name r t) : NumbersFrom V s t := by
  cases hu with
  | noDentry | notRemoved => exact .refl s
  | removed => exact (NumbersFrom.of_inodes (t := s.clearRecord _ _ _) rfl).trans (.removed _ _ _ _)

theorem Rmdir.numbers (hu : Rmdir ans s dir name r t) : NumbersFrom V s t := by
  cases hu with
  | noDentry | notDir | unreadable | notEmpty | notRemoved => exact .refl s
  | @removed d nd id i j dentry parent target node isDir empty stop =>
      have hclear : NumbersFrom V s (s.clearRecord d i j) := .of_inodes rfl
      have hlink := hclear.trans (.mapInode dir (f := Inode.dropLink) fun _ => rfl)
      exact hlink.trans (.removed _ _ _ _)

theorem Extend.numbers (he : Extend id s t) : NumbersFrom V s t := by
  induction he with
  | refl => exact .refl s
  | @step u b nd rest free node low room ih =>
      have hmark : NumbersFrom V u (u.markBlock b) := .of_inodes rfl
      exact ih.trans (hmark.trans (.setInode (s := u.markBlock b) node rfl))

theorem Write.numbers (hw : Write s id r t) : NumbersFrom V s t := by
  cases hw with
  | tooBig => exact .refl s
  | noSpace grow => exact grow.numbers
  | @written u v nd nd' r grow node data same =>
      have hdata : NumbersFrom V u v := .of_inodes data.inodes
      have hv : v.inodes id = some nd := by rw [data.inodes, node]
      exact (grow.numbers.trans hdata).trans (.setInode hv same.iIno)

theorem decodeInode_iIno {v : Bytes} (h : decodeInode nd v = .ok d) : d.iIno = nd.iIno := by
  rw [decodeInode] at h
  cases hread : readPointers v (toInt32 (DiskInode.blockCount v)).toNat 0 nd.blockPointers with
  | error e =>
      rw [hread] at h
      cases h
  | ok p =>
      rw [hread] at h
      cases h
      rfl

/-- An inode loaded has the number asked for. -/
theorem Iget.numbers {ino : Nat} {q : Except Int Nat} (hi : Iget ans s ino q t) :
    NumbersFrom (fun id v => id = s.nextInode ∧ v = ino) s t := by
  cases hi with
  | noMemory | cached => exact .refl s
  | unreadable => exact .of_inodes rfl
  | loaded none decode => exact .withNew ⟨rfl, decodeInode_iIno decode⟩

/-- A lookup that adds an inode has found its number in a record. -/
theorem naiveLookup_numbers {q : Option (Except Int Nat)} (hs : s.Ready)
    (h : (naiveLookup dir name).exec ans s = .ok (q, t)) :
    NumbersFrom (fun id v => id = s.nextInode ∧ 1 ≤ v ∧ v < 2 ^ 32) s t := by
  obtain ⟨d, hd⟩ := exec_inode_bind_ok h
  rcases exec_naiveLookup hd h with
    ⟨-, -, rfl⟩ | ⟨i, j, x, u, -, -, -, -, hhit, -, -, higet, hinodes, -⟩
  · exact .refl t
  · have hused := ((DirRecord.isNamed_iff name.noNul).mp hhit).1
    have hu := (naiveIget_cases (hs.same (s.addRef (d.blockPointers i) 1) ⟨rfl, rfl, rfl⟩)
      higet).numbers
    have hcall : NumbersFrom (fun id v => id = s.nextInode ∧ 1 ≤ v ∧ v < 2 ^ 32) s u := by
      have hlt : DirRecord.iIno (s.slotBlock d i) j < 2 ^ 32 := getLE32_lt _ _
      refine NumbersFrom.mono hu fun id v hv => ⟨hv.1, ?_⟩
      rw [hv.2]
      omega
    exact hcall.trans (.of_inodes hinodes)

end Operations

/-! ## Runs -/

/-- Every inode in memory has a number that is not 0 on the device. -/
def FS.Numbered (s : FS) : Prop := ∀ id v, s.number id = some v → 1 ≤ v ∧ v < 2 ^ 32

section Runs

variable {V : Nat → Nat → Prop} {ans : Answers} {s t : FS} {r : Int}

theorem FS.Numbered.of_numbers (h : s.Numbered) (hV : ∀ id v, V id v → 1 ≤ v ∧ v < 2 ^ 32)
    (hst : NumbersFrom V s t) : t.Numbered := by
  intro id v hv
  rcases hst id v hv with hold | hnew
  · exact h id v hold
  · exact hV id v hnew

theorem FS.NextIno.valid {id v : Nat} (h : id = s.nextInode ∧ s.NextIno v) :
    1 ≤ v ∧ v < 2 ^ 32 := by
  have hpos := h.2.pos
  have hle := h.2.bitmap
  omega

/-- Only a call that makes an inode gives a number, the one it found. -/
theorem Step.numbers {op : Op} (hs : s.Ready) (hop : op.cached) (hstep : Step s op ans r t) :
    NumbersFrom (fun id v => op.makes ≠ none ∧ id = s.nextInode ∧ s.NextIno v) s t := by
  cases op with
  | create dir name perm =>
      obtain ⟨d, hd, hc⟩ := naiveCreate_cases hs hstep
      exact (hc.numbers hs hd).mono fun _ _ hv => ⟨Option.some_ne_none _, hv⟩
  | mkdir dir name mode =>
      obtain ⟨d, hd, hm⟩ := naiveMkdir_cases hs hstep
      exact (hm.numbers hs hd).mono fun _ _ hv => ⟨Option.some_ne_none _, hv⟩
  | unlink dir name => exact (vfsUnlink_cases hs hstep).numbers
  | rmdir dir name => exact (vfsRmdir_cases hs hstep).numbers
  | write id data pos =>
      obtain ⟨q, u, hwrite, hend⟩ := Prog.exec_bind_ok.mp hstep
      cases hend
      exact (naiveFileWrite_cases hs hwrite).numbers
  | lookup => exact hop.elim

theorem Step.numbered {op : Op} (hs : s.Ready) (h : s.Numbered) (hstep : Step s op ans r t) :
    t.Numbered := by
  have hcall (hop : op.cached) : t.Numbered :=
    h.of_numbers (fun _ _ hv => FS.NextIno.valid hv.2) (hstep.numbers hs hop)
  cases op with
  | create | mkdir | unlink | rmdir | write => exact hcall trivial
  | lookup dir name =>
      obtain ⟨q, u, hlookup, hend⟩ := Prog.exec_bind_ok.mp hstep
      cases hend
      exact h.of_numbers (fun _ _ hv => hv.2) (naiveLookup_numbers hs hlookup)

theorem numbered_mounted (disk : Nat → Bytes) (ts : Timespec) :
    (FS.mounted disk ts).Numbered := by
  intro id v hv
  obtain ⟨nd, hnd, rfl⟩ := FS.number_eq_some.mp hv
  obtain ⟨-, rfl⟩ := inodes_mounted hnd
  exact ⟨Nat.le_refl 1, by show 1 < 2 ^ 32; decide⟩

/-- Every reachable state. -/
theorem Reach.numbered {P : FS → Op → Answers → Int → Prop} {disk : Nat → Bytes} {s0 : FS}
    (h0 : Mounted disk s0) (h : Reach P s0 s) : s.Ready ∧ s.Numbered := by
  refine h.invariant (I := fun s => s.Ready ∧ s.Numbered) ⟨h0.ready, ?_⟩ ?_
  · obtain ⟨_, ts, rfl⟩ := mounted_eq h0
    exact numbered_mounted disk ts
  · exact fun t op ans r u ht _ hstep => ⟨hstep.ready ht.1, hstep.numbered ht.1 ht.2⟩

end Runs

end NaiveFS
