import NaiveFS.Directory

/-!
# A directory as a finite map

`naive_add_entry` and `naive_remove_entry` against the map from names to numbers
that the record scan of `naive_lookup` finds. Names are stored with at most 127 characters
and compared on 128, and a directory whose eight blocks are full still returns 0
for an entry it loses.
-/

namespace NaiveFS

open Bytes

/-! ## Names -/

section Names

variable {m n : Name}

theorem Name.key_of_short (h : n.bytes.length ≤ 127) : n.key = n.bytes :=
  List.take_of_length_le (by unfold naiveMaxFilenameLen; omega)

/-- Names that the scan takes for the same are the same, if one of them is short. -/
theorem Name.key_injective (h : n.bytes.length ≤ 127) (hkey : m.key = n.bytes) : m = n := by
  have hlen := congrArg List.length hkey
  unfold Name.key naiveMaxFilenameLen at *
  rw [List.length_take] at hlen
  rw [List.take_of_length_le (by omega)] at hkey
  exact Name.ext' hkey

end Names

/-! ## The scan of `naive_lookup` -/

/-- The record scan of `naive_lookup`: the buffer it holds at its end and the number in the
record found. -/
def lookupRecord (dir : Nat) (name : Name) : K (Option (Int × Nat)) := do
  let nii ← inode dir
  scanRecords nii .lookup (isNamed name) none fun b d j => pure (b, DirRecord.iIno d j)

/-- The rest of `naive_lookup`. -/
def lookupInode (dir : Nat) (name : Name) : Option (Int × Nat) → K (Option (Except Int Nat))
  | none => pure none
  | some (b, ino) => do
    let r ← naiveIget ino
    brelse b
    match r with
    | .ok id =>
      dInstantiate dir name id
      pure (some r)
    | .error _ => pure (some r)

section Scan

variable {α β : Type} {nd : Inode} {site : Site} {test : Bytes → Nat → Bool}

/-- Deal with the record a scan found. -/
def dealWith (f : α → K β) : Option α → K (Option β)
  | some a => do
    let r ← f a
    pure (some r)
  | none => pure none

theorem scanBlock_bind (pick : Int → Bytes → Nat → α) (f : α → K β) (i : Nat) (b : Int) :
    scanBlock site test none (fun b d j => f (pick b d j)) i b =
      scanBlock site test none (fun b d j => pure (pick b d j)) i b >>= dealWith f := by
  unfold scanBlock
  simp only [Prog.bind_assoc]
  refine congrArg (sbBread site i b >>= ·) (funext fun ok => ?_)
  cases ok
  · rfl
  simp only [Bool.not_true, Bool.false_eq_true, if_false, Prog.bind_assoc]
  refine congrArg (bData b >>= ·) (funext fun d => ?_)
  cases findRecord (test d) with
  | none => rfl
  | some j => rfl

/-- A scan that deals with the record it stops at is the scan that returns the record, and then
the dealing. -/
theorem scanRecords_bind (pick : Int → Bytes → Nat → α) (f : α → K β) :
    scanRecords nd site test none (fun b d j => f (pick b d j)) =
      scanRecords nd site test none (fun b d j => pure (pick b d j)) >>= dealWith f := by
  unfold scanRecords
  generalize nd.blockCount.toNat = n
  generalize 0 = i
  induction n generalizing i with
  | zero => rfl
  | succ n ih =>
      rw [forBlocks, forBlocks, Prog.bind_assoc]
      refine congrArg (pointer nd i >>= ·) (funext fun p => ?_)
      split
      · exact ih (i + 1)
      · rw [scanBlock_bind, Prog.bind_assoc, Prog.bind_assoc]
        refine congrArg (_ >>= ·) (funext fun q => ?_)
        cases q with
        | none => simpa only [dealWith, Prog.pure_bind] using ih (i + 1)
        | some a => simp only [dealWith, Prog.bind_assoc, Prog.pure_bind]

theorem naiveLookup_eq (dir : Nat) (name : Name) :
    naiveLookup dir name = lookupRecord dir name >>= lookupInode dir name := by
  rw [naiveLookup, lookupRecord, Prog.bind_assoc]
  refine congrArg (inode dir >>= ·) (funext fun nii => ?_)
  rw [scanRecords_bind (fun b d j => (b, DirRecord.iIno d j)) fun p => do
    let r ← naiveIget p.2
    brelse p.1
    pure r, Prog.bind_assoc]
  refine congrArg (_ >>= ·) (funext fun q => ?_)
  cases q with
  | none => rfl
  | some p =>
      simp only [dealWith, lookupInode, Prog.bind_assoc, Prog.pure_bind]
      refine congrArg (_ >>= ·) (funext fun r => ?_)
      cases r <;> rfl

end Scan

/-- Reading any block succeeds. -/
def Readable (ans : Answers) : Prop := ∀ site i b, ans (.sbBread site i b) = true

/-- With every read succeeding, the record scan of `naive_lookup` ends with number `x`, or with
no record, and `naive_lookup` goes on from there. -/
def LookupFinds (s : FS) (dir : Nat) (name : Name) (x : Option Nat) : Prop :=
  ∀ ans, Readable ans → ∃ q t, (lookupRecord dir name).exec ans s = .ok (q, t) ∧
    q.map Prod.snd = x ∧ (naiveLookup dir name).exec ans s = (lookupInode dir name q).exec ans t

section Lookup

variable {ans : Answers} {s : FS} {dir : Nat} {nd : Inode} {name : Name}

/-- The scan of `naive_lookup` is the search of the directory's table. -/
theorem exec_lookupRecord (name : Name) (hread : Readable ans) (hnd : s.inodes dir = some nd)
    (hcount : nd.blockCount ≤ 8) : ∃ q t, (lookupRecord dir name).exec ans s = .ok (q, t) ∧
      q.map Prod.snd = s.lookupScan nd name := by
  have hscan : ∃ q t, (scanRecords nd .lookup (isNamed name) none fun b d j =>
      (pure (b, DirRecord.iIno d j) : K (Int × Nat))).exec ans s = .ok (q, t) :=
    exists_scanRecords hcount fun _ _ _ s => ⟨_, s, rfl⟩
  obtain ⟨q, t, hscan⟩ := hscan
  refine ⟨q, t, (Prog.exec_bind_of (exec_inode hnd)).trans hscan, ?_⟩
  rcases scanRecords_cases (.inr fun m _ => hread _ m _) hscan with
    ⟨i, hfail, -⟩ | ⟨i, j, p, hstop, rfl, hexec⟩ | ⟨hnone, rfl, -⟩
  · have hunread := hfail.unread
    rw [hread] at hunread
    cases hunread
  · cases hexec
    exact hstop.lookupScan.symm
  · exact (hnone.lookupScan hcount).symm

theorem lookupFinds_iff (hnd : s.inodes dir = some nd) (hcount : nd.blockCount ≤ 8)
    {x : Option Nat} : LookupFinds s dir name x ↔ s.lookupScan nd name = x := by
  constructor
  · intro h
    have hread : Readable (Answers.good default 0 0) := fun _ _ _ => rfl
    obtain ⟨q, t, hexec, hq, -⟩ := h _ hread
    obtain ⟨q', t', hexec', hq'⟩ := exec_lookupRecord name hread hnd hcount
    rw [hexec] at hexec'
    cases hexec'
    exact hq'.symm.trans hq
  · rintro rfl ans hread
    obtain ⟨q, t, hexec, hq⟩ := exec_lookupRecord name hread hnd hcount
    exact ⟨q, t, hexec, hq, by rw [naiveLookup_eq, Prog.exec_bind_of hexec]⟩

end Lookup

/-! ## The specification -/

/-- `naive_lookup`'s scan finds for `name` in `t` what it finds in `s`. -/
def FindsSame (s t : FS) (dir : Nat) (name : Name) : Prop :=
  ∀ x, LookupFinds t dir name x ↔ LookupFinds s dir name x

/-- Adding `name` puts it in the map with its number, and leaves the other names. -/
def AddSpec (s t : FS) (dir : Nat) (name : Name) (ino r : Int) : Prop :=
  ino ≠ 0 → r = 0 → LookupFinds s dir name none →
    LookupFinds t dir name (some (toU32 ino)) ∧ ∀ m, m ≠ name → FindsSame s t dir m

/-- Removing `name` returns 0 exactly when the map has it; then it takes it out
and leaves the other names, and otherwise it leaves every name. -/
def RemoveSpec (s t : FS) (dir : Nat) (name : Name) (r : Int) : Prop :=
  (r = 0 ↔ ∃ v, LookupFinds s dir name (some v)) ∧
  (r = 0 → LookupFinds t dir name none ∧ ∀ m, m ≠ name → FindsSame s t dir m) ∧
  (r < 0 → ∀ m, FindsSame s t dir m)

/-- Some record of the directory is free. -/
def HasFree (s : FS) (nd : Inode) : Prop := ∃ k, k < nd.records ∧ s.recordAt nd k = none

/-- The name fits the field and the directory has room for it; or nothing is
asked of the call. -/
def AddCond (s : FS) (dir : Nat) (nd : Inode) (name : Name) (ino : Int) : Prop :=
  ino = 0 ∨ (∃ v, LookupFinds s dir name (some v)) ∨ (¬ HasFree s nd ∧ s.Exhausted) ∨
    (name.bytes.length ≤ 127 ∧ (HasFree s nd ∨ (nd.blockCount < 8 ∧ ¬ s.NextFree 0)))

/-- At most one record holds the name. -/
def RemoveCond (s : FS) (nd : Inode) (name : Name) : Prop :=
  Table.Unique (s.recordAt nd) nd.records name.key

/-! ## The specification, on the table -/

/-- `AddSpec` for the search of the table. -/
def TableAdds (s t : FS) (nd nd' : Inode) (name : Name) (ino r : Int) : Prop :=
  ino ≠ 0 → r = 0 → s.lookupScan nd name = none →
    t.lookupScan nd' name = some (toU32 ino) ∧
      ∀ m, m ≠ name → t.lookupScan nd' m = s.lookupScan nd m

/-- `RemoveSpec` for the search of the table. -/
def TableRemoves (s t : FS) (nd : Inode) (name : Name) (r : Int) : Prop :=
  (r = 0 ↔ s.lookupScan nd name ≠ none) ∧
  (r = 0 → t.lookupScan nd name = none ∧
    ∀ m, m ≠ name → t.lookupScan nd m = s.lookupScan nd m) ∧
  (r < 0 → ∀ m, t.lookupScan nd m = s.lookupScan nd m)

/-- `AddCond` for the search of the table. -/
def TableCond (s : FS) (nd : Inode) (name : Name) (ino : Int) : Prop :=
  ino = 0 ∨ s.lookupScan nd name ≠ none ∨ (¬ HasFree s nd ∧ s.Exhausted) ∨
    (name.bytes.length ≤ 127 ∧ (HasFree s nd ∨ (nd.blockCount < 8 ∧ ¬ s.NextFree 0)))

section Table

variable {s t : FS} {dir : Nat} {nd nd' : Inode} {name : Name} {ino r : Int}

theorem exists_lookupFinds (hnd : s.inodes dir = some nd) (hcount : nd.blockCount ≤ 8) :
    (∃ v, LookupFinds s dir name (some v)) ↔ s.lookupScan nd name ≠ none := by
  simp only [lookupFinds_iff hnd hcount, Option.ne_none_iff_exists']

theorem findsSame_iff (hnd : s.inodes dir = some nd) (hcount : nd.blockCount ≤ 8)
    (hnd' : t.inodes dir = some nd') (hcount' : nd'.blockCount ≤ 8) :
    FindsSame s t dir name ↔ t.lookupScan nd' name = s.lookupScan nd name := by
  unfold FindsSame
  simp only [lookupFinds_iff hnd hcount, lookupFinds_iff hnd' hcount']
  exact ⟨fun h => ((h _).mpr rfl), fun h x => by rw [h]⟩

theorem addSpec_iff_table (hnd : s.inodes dir = some nd) (hcount : nd.blockCount ≤ 8)
    (hnd' : t.inodes dir = some nd') (hcount' : nd'.blockCount ≤ 8) :
    AddSpec s t dir name ino r ↔ TableAdds s t nd nd' name ino r := by
  simp only [AddSpec, TableAdds, lookupFinds_iff hnd hcount, lookupFinds_iff hnd' hcount',
    findsSame_iff hnd hcount hnd' hcount']

theorem addCond_iff_table (hnd : s.inodes dir = some nd) (hcount : nd.blockCount ≤ 8) :
    AddCond s dir nd name ino ↔ TableCond s nd name ino := by
  simp only [AddCond, TableCond, exists_lookupFinds hnd hcount]

theorem removeSpec_iff_table (hnd : s.inodes dir = some nd) (hcount : nd.blockCount ≤ 8)
    (hnd' : t.inodes dir = some nd) :
    RemoveSpec s t dir name r ↔ TableRemoves s t nd name r := by
  simp only [RemoveSpec, TableRemoves, exists_lookupFinds hnd hcount, lookupFinds_iff hnd' hcount,
    findsSame_iff hnd hcount hnd' hcount]

end Table

section Steps

variable {ans : Answers} {s t : FS} {dir : Nat} {nd : Inode} {name : Name} {ino r : Int}

/-- A name beyond the field is never found. -/
theorem FS.DirOk.lookupScan_long (h : s.DirOk nd) (hlong : 128 ≤ name.bytes.length) :
    s.lookupScan nd name = none := by
  refine Table.find_eq_none.mpr fun k hk => ?_
  by_contra hne
  obtain ⟨v, hv⟩ := Option.ne_none_iff_exists'.mp hne
  have hlen := h.names k _ v hk (Table.hit_eq_some.mp hv)
  unfold Name.key naiveMaxFilenameLen at hlen
  rw [List.length_take] at hlen
  omega

/-- Cells beyond the attached slots are empty. -/
theorem Inode.Packed.recordAt_beyond (h : nd.Packed) {k : Nat} (hk : nd.records ≤ k)
    (hk8 : k < 24) : s.recordAt nd k = none := by
  have hlow := h.low
  have hzero : nd.blockPointers (k / 3) = 0 := by
    have := (h.attached (k / 3) (by omega)).not.mpr (by unfold Inode.records at hk; omega)
    simpa using this
  unfold FS.recordAt
  rw [if_neg (fun h => h.1 hzero)]

/-- Searching some of the empty cells after the table does not matter. -/
theorem Inode.Packed.find_beyond (h : nd.Packed) {m : Nat} (hm : nd.records ≤ m) (hm8 : m ≤ 24)
    (key : List Byte) :
    Table.find (s.recordAt nd) m key = Table.find (s.recordAt nd) nd.records key := by
  cases hfind : Table.find (s.recordAt nd) nd.records key with
  | none =>
      refine Table.find_eq_none.mpr fun k hk => ?_
      rcases Nat.lt_or_ge k nd.records with hlt | hge
      · exact Table.find_eq_none.mp hfind k hlt
      · rw [h.recordAt_beyond hge (by omega), Table.hit_none]
  | some v => exact Table.find_mono hm hfind

theorem toU32_ne_zero {x : Int} (h : -2 ^ 31 ≤ x ∧ x < 2 ^ 31) (hx : x ≠ 0) : toU32 x ≠ 0 := by
  unfold toU32
  omega

/-- An entry stored in an empty cell of the table. -/
theorem tableAdds_of_fill {nd' : Inode} {m k : Nat} (ht : t.DirOk nd')
    (hino : toU32 ino ≠ 0) (hk : k < m)
    (hsfind : ∀ key, Table.find (s.recordAt nd) m key = Table.find (s.recordAt nd) nd.records key)
    (hm : m = nd'.records) (hfree : s.recordAt nd k = none)
    (hnew : t.recordAt nd' k = entryOf name ino)
    (hold : ∀ l, l < m → l ≠ k → t.recordAt nd' l = s.recordAt nd l)
    (habsent : s.lookupScan nd name = none) :
    (t.lookupScan nd' name = some (toU32 ino) ∧
      ∀ m, m ≠ name → t.lookupScan nd' m = s.lookupScan nd m) ↔ name.bytes.length ≤ 127 := by
  constructor
  · rintro ⟨hfound, _⟩
    by_contra hlong
    rw [ht.lookupScan_long (by omega)] at hfound
    cases hfound
  · intro hshort
    have hentry : t.recordAt nd' k = some (name.key, toU32 ino) := by
      rw [hnew, entryOf, if_pos hino, Name.key_of_short hshort, List.take_of_length_le hshort]
    have habsent' : Table.find (s.recordAt nd) m name.key = none := (hsfind _).trans habsent
    obtain ⟨hself, hother⟩ := Table.find_fill hk hfree hentry hold habsent'
    subst hm
    refine ⟨hself, fun m hm => (hother m.key ?_).trans (hsfind _)⟩
    rw [Name.key_of_short hshort]
    exact fun hkey => hm (Name.key_injective hshort hkey)

/-- A table that keeps or loses cells does not find what was not found. -/
theorem lookupScan_absent {nd' : Inode} (habsent : s.lookupScan nd name = none)
    (hcell : ∀ k, k < nd'.records → t.recordAt nd' k = none ∨
      (k < nd.records ∧ t.recordAt nd' k = s.recordAt nd k)) :
    t.lookupScan nd' name = none := by
  refine Table.find_eq_none.mpr fun k hk => ?_
  rcases hcell k hk with hnone | ⟨hk', heq⟩
  · rw [hnone, Table.hit_none]
  · rw [heq]
    exact Table.find_eq_none.mp habsent k hk'

/-- Once the call returned 0, its specification is a matter of the new entry. -/
theorem tableAdds_iff {nd' : Inode} {C : Prop} (hr : r = 0)
    (hcore : ino ≠ 0 → s.lookupScan nd name = none →
      ((t.lookupScan nd' name = some (toU32 ino) ∧
        ∀ m, m ≠ name → t.lookupScan nd' m = s.lookupScan nd m) ↔ C))
    (hcond : TableCond s nd name ino ↔ ino = 0 ∨ s.lookupScan nd name ≠ none ∨ C) :
    TableAdds s t nd nd' name ino r ↔ TableCond s nd name ino := by
  rw [hcond]
  constructor
  · intro hspec
    by_cases hino : ino = 0
    · exact .inl hino
    · by_cases habsent : s.lookupScan nd name = none
      · exact .inr (.inr ((hcore hino habsent).mp (hspec hino hr habsent)))
      · exact .inr (.inl habsent)
  · rintro (hino | hfound | hC) hino' _ habsent
    · exact absurd hino hino'
    · exact absurd habsent hfound
    · exact (hcore hino' habsent).mpr hC

/-- The directory is given a block although it has eight already, or is given
block 0: the entry is lost. -/
theorem tableAdds_of_lost {nd' : Inode} (hr : r = 0)
    (hcell : ∀ k, k < nd'.records → t.recordAt nd' k = none ∨
      (k < nd.records ∧ t.recordAt nd' k = s.recordAt nd k))
    (hcond : TableCond s nd name ino ↔ ino = 0 ∨ s.lookupScan nd name ≠ none ∨ False) :
    TableAdds s t nd nd' name ino r ↔ TableCond s nd name ino := by
  refine tableAdds_iff hr (fun _ habsent => ?_) hcond
  rw [iff_false, lookupScan_absent habsent hcell]
  rintro ⟨hfound, _⟩
  cases hfound

/-- A free record of the directory is filled. -/
theorem FS.DirOk.tableAdds_filled {i j : Nat} (h : s.DirOk nd)
    (hint : -2 ^ 31 ≤ ino ∧ ino < 2 ^ 31) (stop : StopsAt ans s nd .addEntryScan isFree i j) :
    TableAdds s ((s.putRecord nd i j name ino).addRef (nd.blockPointers i) (-1)) nd nd name ino 0
      ↔ TableCond s nd name ino := by
  have hhigh := h.high
  have hk : 3 * i + j < nd.records := by
    have := stop.slot.count
    have := stop.bound
    unfold Inode.records
    omega
  obtain ⟨hnew, hold⟩ := h.filled stop name ino
  have hfree : HasFree s nd := ⟨_, hk, stop.recordAt⟩
  refine tableAdds_iff (C := name.bytes.length ≤ 127) rfl (fun hino habsent => ?_) ?_
  · have ht : ((s.putRecord nd i j name ino).addRef (nd.blockPointers i) (-1)).DirOk nd :=
      (h.dirOk_filled stop).addRef _ _
    exact tableAdds_of_fill ht (toU32_ne_zero hint hino) hk (fun _ => rfl) rfl stop.recordAt
      hnew hold habsent
  · simp only [TableCond, hfree, not_true_eq_false, false_and, false_or, true_or, and_true]

section Grown

variable {b : Nat} (h : s.DirOk nd) (hfree : ¬ HasFree s nd) (free : s.NextFree b)

include h hfree free

/-- The entry is the first of a new block. -/
theorem FS.DirOk.tableAdds_grown (hint : -2 ^ 31 ≤ ino ∧ ino < 2 ^ 31) (hb : b ≠ 0)
    (hlt : nd.blockCount < 8) :
    TableAdds s (s.growDir dir nd b name ino) nd (nd.grow b) name ino 0
      ↔ TableCond s nd name ino := by
  have hspace := free.not_exhausted
  have hno0 : ¬ s.NextFree 0 := fun h0 => hb (free.unique h0)
  have hlow := h.low
  have hrec : (nd.grow b).records = nd.records + 3 := by
    have := (h.grow_room hlt b).1
    unfold Inode.records
    omega
  refine tableAdds_iff (C := name.bytes.length ≤ 127) rfl (fun hino habsent => ?_) ?_
  · refine tableAdds_of_fill (k := nd.records) (m := nd.records + 3)
      (h.dirOk_growDir free hlt hb) (toU32_ne_zero hint hino) (by omega)
      (h.find_beyond (by omega) (by unfold Inode.records; omega)) hrec.symm
      (h.recordAt_beyond (Nat.le_refl _) (by unfold Inode.records; omega)) ?_ ?_ habsent
    · exact h.growDir_new (j := 0) hlt hb (by omega) dir name ino
    · intro l hl hne
      rcases Nat.lt_or_ge l nd.records with hl' | hl'
      · exact h.growDir_old free hl'
      · have hnew := h.growDir_new (j := l - nd.records) hlt hb (by omega) dir name ino
        rw [if_neg (by omega), show nd.records + (l - nd.records) = l by omega] at hnew
        rw [h.recordAt_beyond hl' (by unfold Inode.records at *; omega)]
        exact hnew
  · simp only [TableCond, hfree, hspace, hno0, hlt, not_false_eq_true, and_false, false_or,
      and_true]

/-- Block 0 is not attached: its slot still looks empty, and the entry is lost. -/
theorem FS.DirOk.tableAdds_blockZero (hb : b = 0) (hlt : nd.blockCount < 8) :
    TableAdds s (s.growDir dir nd b name ino) nd (nd.grow b) name ino 0
      ↔ TableCond s nd name ino := by
  have hspace := free.not_exhausted
  obtain ⟨hcount, hptr⟩ := h.grow_room hlt b
  have hlow := h.low
  refine tableAdds_of_lost rfl (fun k hk => ?_) ?_
  · rcases Nat.lt_or_ge k nd.records with hk' | hk'
    · exact .inr ⟨hk', h.growDir_old free hk'⟩
    · refine .inl (if_neg fun hp => hp.1 ?_)
      have hslot : k / 3 = nd.blockCount.toNat := by
        unfold Inode.records at hk hk'
        omega
      rw [hslot, hptr, hb]
      exact Function.update_self _ _ _
  · simp only [TableCond, hfree, hspace, false_or, and_false, hb ▸ free, not_true_eq_false]

/-- A ninth block is attached nowhere. -/
theorem FS.DirOk.tableAdds_full (hfull : nd.blockCount = 8) :
    TableAdds s (s.growDir dir nd b name ino) nd (nd.grow b) name ino 0
      ↔ TableCond s nd name ino := by
  have hspace := free.not_exhausted
  have hrec : (nd.grow b).records = nd.records := by
    unfold Inode.records
    rw [(h.grow_full hfull b).1]
  have hnlt : ¬ nd.blockCount < 8 := by omega
  refine tableAdds_of_lost rfl (fun k hk => .inr ⟨hrec ▸ hk, h.growDir_old free (hrec ▸ hk)⟩) ?_
  simp only [TableCond, hfree, hspace, hnlt, and_false, false_and, false_or]

end Grown

theorem AddEntry.tableAdds_iff (h : s.DirOk nd) (hnd : s.inodes dir = some nd)
    (hread : Readable ans) (hint : -2 ^ 31 ≤ ino ∧ ino < 2 ^ 31)
    (he : AddEntry ans s dir nd name ino r t) :
    ∃ nd', t.inodes dir = some nd' ∧
      (TableAdds s t nd nd' name ino r ↔ TableCond s nd name ino) := by
  have hnone (full : FindsNone ans s nd .addEntryScan isFree) : ¬ HasFree s nd :=
    fun ⟨k, hk, hnone⟩ => full.recordAt_ne h.toPacked hk hnone
  cases he with
  | unreadable fail =>
      have := fail.unread
      rw [hread] at this
      cases this
  | newUnreadable _ _ unread =>
      rw [hread] at unread
      cases unread
  | noSpace full space =>
      exact ⟨nd, hnd, fun _ => .inr (.inr (.inl ⟨hnone full, space⟩)),
        fun _ _ hr => absurd hr (by decide)⟩
  | filled stop => exact ⟨nd, hnd, h.tableAdds_filled hint stop⟩
  | @grown b full free _ =>
      refine ⟨nd.grow b, FS.inodes_setInode_self, ?_⟩
      rcases Int.lt_or_eq_of_le h.high with hlt | hfull
      · by_cases hb : b = 0
        · exact h.tableAdds_blockZero (hnone full) free hb hlt
        · exact h.tableAdds_grown (hnone full) free hint hb hlt
      · exact h.tableAdds_full (hnone full) free hfull

/-! ## Removing an entry -/

/-- Clearing a record. -/
theorem FS.DirOk.cleared {i j : Nat} (h : s.DirOk nd)
    (stop : StopsAt ans s nd .removeEntry (isNamed name) i j) :
    (s.clearRecord nd i j).recordAt nd (3 * i + j) = none ∧
      ∀ k, k < nd.records → k ≠ 3 * i + j →
        (s.clearRecord nd i j).recordAt nd k = s.recordAt nd k := by
  constructor
  · rw [recordAt_eq stop.slot.attached stop.bound, FS.clearRecord, slotBlock_writeBlock_self,
      DirRecord.iIno_clear_self]
    rfl
  · exact fun k hk hne => h.recordAt_write stop.slot
      (fun l hl hlj => ⟨DirRecord.iIno_clear_ne (Ne.symm hlj),
        DirRecord.name_clear_ne (Ne.symm hlj)⟩)
      hk hne

/-- The record a scan by name stops at holds the name. -/
theorem StopsAt.recordAt_named {site : Site} {i j : Nat}
    (stop : StopsAt ans s nd site (isNamed name) i j) :
    s.recordAt nd (3 * i + j) = some (name.key, DirRecord.iIno (s.slotBlock nd i) j) := by
  obtain ⟨hino, hname⟩ := (DirRecord.isNamed_iff name.noNul).mp stop.hit
  rw [recordAt_eq stop.slot.attached stop.bound, if_pos hino, hname]
  rfl

theorem StopsAt.lt_records {site : Site} {test : Bytes → Nat → Bool} {i j : Nat}
    (stop : StopsAt ans s nd site test i j) : 3 * i + j < nd.records := by
  have hcount := stop.slot.count
  have hj := stop.bound
  unfold Inode.records
  omega

theorem RemoveEntry.tableRemoves_iff (h : s.DirOk nd) (hread : Readable ans)
    (he : RemoveEntry ans s nd name r t) : TableRemoves s t nd name r ↔ RemoveCond s nd name := by
  cases he with
  | unreadable fail =>
      have := fail.unread
      rw [hread] at this
      cases this
  | absent hnone =>
      have habsent := hnone.lookupScan h.high
      refine iff_of_true ⟨⟨fun hr => absurd hr (by decide), fun hne => absurd habsent hne⟩,
        fun hr => absurd hr (by decide), fun _ _ => rfl⟩ ?_
      exact fun i _ hi _ hi' => absurd (Table.find_eq_none.mp habsent i hi) hi'
  | @cleared i j stop =>
      obtain ⟨hclear, hold⟩ := h.cleared stop
      have hk := stop.lt_records
      have hrec := stop.recordAt_named
      have hself : (s.clearRecord nd i j).lookupScan nd name = none ↔ RemoveCond s nd name :=
        Table.find_clear_self hk hrec hclear hold
      rw [← hself]
      refine ⟨fun hspec => (hspec.2.1 rfl).1,
        fun hgone => ⟨iff_of_true rfl ?_, fun _ => ⟨hgone, ?_⟩,
        fun hr => absurd hr (by decide)⟩⟩
      · rw [stop.lookupScan]
        exact Option.some_ne_none _
      · intro m hm
        by_cases hkey : m.key = name.key
        · -- the record's name is terminated, so no other name has its key
          have hlen := h.names _ _ _ hk hrec
          have hshort : name.bytes.length ≤ 127 := by
            unfold Name.key naiveMaxFilenameLen at hlen
            rw [List.length_take] at hlen
            omega
          rw [Name.key_of_short hshort] at hkey
          exact absurd (Name.key_injective hshort hkey) hm
        · exact Table.find_clear_ne hrec hclear hold hkey

end Steps

/-! ## Directories reached from an empty one -/

/-- A directory whose only entries are `.` and `..`. -/
structure EmptyDir (s : FS) (dir : Nat) (nd : Inode) : Prop extends s.DirOk nd where
  loaded : s.sbi.blockBitmapBlocks = 1
  cached : s.inodes dir = some nd
  dots : ∀ k n v, k < nd.records → s.recordAt nd k = some (n, v) → n = dotBytes ∨ n = dotdotBytes

/-- States reached from `s0` by entries added to and removed from `dir`, each
with every read succeeding; no full directory is handed block 0. -/
inductive DirRun (s0 : FS) (dir : Nat) : FS → Prop where
  | refl : DirRun s0 dir s0
  | add {s t : FS} {nd : Inode} {ans : Answers} {name : Name} {ino r : Int} :
      DirRun s0 dir s → s.inodes dir = some nd → Readable ans → (HasFree s nd ∨ ¬ s.NextFree 0) →
      (naiveAddEntry dir name ino).exec ans s = .ok (r, t) → DirRun s0 dir t
  | remove {s t : FS} {ans : Answers} {name : Name} {r : Int} :
      DirRun s0 dir s → Readable ans → (naiveRemoveEntry dir name).exec ans s = .ok (r, t) →
      DirRun s0 dir t

section Runs

variable {ans : Answers} {s0 s t : FS} {dir : Nat} {nd nd0 : Inode} {name : Name} {ino r : Int}

theorem AddEntry.dirOk (h : s.DirOk nd) (hnd : s.inodes dir = some nd)
    (hroom : HasFree s nd ∨ ¬ s.NextFree 0) (hread : Readable ans)
    (he : AddEntry ans s dir nd name ino r t) : ∃ nd', t.inodes dir = some nd' ∧ t.DirOk nd' := by
  cases he with
  | unreadable | noSpace => exact ⟨nd, hnd, h⟩
  | newUnreadable _ _ unread =>
      rw [hread] at unread
      cases unread
  | filled stop => exact ⟨nd, hnd, (h.dirOk_filled stop).addRef _ _⟩
  | @grown b full free _ =>
      have hb : b ≠ 0 := by
        rintro rfl
        rcases hroom with ⟨k, hk, hnone⟩ | hno
        · exact full.recordAt_ne h.toPacked hk hnone
        · exact hno free
      refine ⟨nd.grow b, FS.inodes_setInode_self, ?_⟩
      rcases Int.lt_or_eq_of_le h.high with hlt | hfull
      · exact h.dirOk_growDir free hlt hb
      · exact h.dirOk_growDir_full free hfull

theorem RemoveEntry.dirOk (h : s.DirOk nd) (he : RemoveEntry ans s nd name r t) : t.DirOk nd := by
  cases he with
  | unreadable | absent => exact h
  | @cleared i j stop =>
      obtain ⟨hclear, hold⟩ := h.cleared stop
      refine h.congr rfl rfl (fun _ hc => hc) fun k n v hk hkr => ?_
      by_cases hkij : k = 3 * i + j
      · rw [hkij, hclear] at hkr
        cases hkr
      · rw [hold k hk hkij] at hkr
        exact h.names k n v hk hkr

theorem RemoveEntry.frame (he : RemoveEntry ans s nd name r t) :
    t.inodes = s.inodes ∧ t.sbi = s.sbi := by
  cases he <;> exact ⟨rfl, rfl⟩

theorem DirRun.dirOk (h0 : EmptyDir s0 dir nd0) (h : DirRun s0 dir s) :
    s.sbi.blockBitmapBlocks = 1 ∧ ∃ nd, s.inodes dir = some nd ∧ s.DirOk nd := by
  induction h with
  | refl => exact ⟨h0.loaded, nd0, h0.cached, h0.toDirOk⟩
  | add _ hnd hread hroom hexec ih =>
      obtain ⟨hloaded, nd', hnd', hok⟩ := ih
      obtain rfl := Option.some.inj (hnd'.symm.trans hnd)
      have he := naiveAddEntry_cases hloaded hnd hexec
      exact ⟨(he.frame hnd).1.trans hloaded, he.dirOk hok hnd hroom hread⟩
  | remove _ hread hexec ih =>
      obtain ⟨hloaded, nd, hnd, hok⟩ := ih
      have he := naiveRemoveEntry_cases hnd hexec
      obtain ⟨hinodes, hsbi⟩ := he.frame
      exact ⟨hsbi ▸ hloaded, nd, hinodes ▸ hnd, he.dirOk hok⟩

/-- A directory that is given an entry keeps its at most eight blocks. -/
theorem AddEntry.count_le (h : s.DirOk nd) (hnd : s.inodes dir = some nd)
    (he : AddEntry ans s dir nd name ino r t) :
    ∃ nd', t.inodes dir = some nd' ∧ nd'.blockCount ≤ 8 := by
  have hgrow : ∀ b, (nd.grow b).blockCount ≤ 8 := by
    intro b
    rcases Int.lt_or_eq_of_le h.high with hlt | hfull
    · rw [(h.grow_room hlt b).1]
      omega
    · rw [(h.grow_full hfull b).1]
      exact h.high
  cases he with
  | unreadable | noSpace => exact ⟨nd, hnd, h.high⟩
  | filled => exact ⟨nd, hnd, h.high⟩
  | newUnreadable | grown => exact ⟨_, FS.inodes_setInode_self, hgrow _⟩

/-- In every directory reached from an empty one, the scan of `naive_lookup` finds one number or
no record; an entry added is found if and only if its name has at most 127 characters and there is
room for it, and a name removed is gone if and only if one record held it. -/
theorem directory_map_iff (h0 : EmptyDir s0 dir nd0) (h : DirRun s0 dir s) :
    ∃ nd, s.inodes dir = some nd ∧
      (∀ name, ∃! x, LookupFinds s dir name x) ∧
      (∀ ans name ino r t, Readable ans → -2 ^ 31 ≤ ino ∧ ino < 2 ^ 31 →
        (naiveAddEntry dir name ino).exec ans s = .ok (r, t) →
        (AddSpec s t dir name ino r ↔ AddCond s dir nd name ino)) ∧
      ∀ ans name, Readable ans →
        ∃ r t, (naiveRemoveEntry dir name).exec ans s = .ok (r, t) ∧ t.inodes dir = some nd ∧
          (RemoveSpec s t dir name r ↔ RemoveCond s nd name) := by
  obtain ⟨hloaded, nd, hnd, hok⟩ := h.dirOk h0
  refine ⟨nd, hnd, fun name => ?_, fun ans name ino r t hread hint hexec => ?_,
    fun ans name hread => ?_⟩
  · exact ⟨s.lookupScan nd name, (lookupFinds_iff hnd hok.high).mpr rfl,
      fun x hx => ((lookupFinds_iff hnd hok.high).mp hx).symm⟩
  · have he := naiveAddEntry_cases hloaded hnd hexec
    obtain ⟨nd', hnd', hiff⟩ := he.tableAdds_iff hok hnd hread hint
    obtain ⟨_, hcell, hcount⟩ := he.count_le hok hnd
    obtain rfl := Option.some.inj (hnd'.symm.trans hcell)
    rw [addSpec_iff_table hnd hok.high hnd' hcount, addCond_iff_table hnd hok.high, hiff]
  · obtain ⟨r, t, hexec⟩ := exists_naiveRemoveEntry ans name hnd hok.high
    have he := naiveRemoveEntry_cases hnd hexec
    have hnd' : t.inodes dir = some nd := he.frame.1 ▸ hnd
    exact ⟨r, t, hexec, hnd', (removeSpec_iff_table hnd hok.high hnd').trans
      (he.tableRemoves_iff hok hread)⟩

/-- The root of a fresh mount is an empty directory without blocks. -/
theorem emptyDir_root (disk : Nat → Bytes) (ts : Timespec) :
    EmptyDir (FS.mounted disk ts) 0 (Inode.root ts) := by
  have hnone : ∀ i, ¬ (Inode.root ts).Slot i := fun i hi => hi.attached rfl
  have hcell : ∀ k, (FS.mounted disk ts).recordAt (Inode.root ts) k = none := fun k =>
    if_neg fun h => h.1 rfl
  refine ⟨⟨⟨Int.le_refl _, by show (0 : Int) ≤ 8; decide, fun i _ => ?_⟩,
    fun i hi => absurd hi (hnone i),
    fun i _ hi => absurd hi (hnone i), fun k n v _ h => ?_⟩, rfl, rfl, fun k n v _ h => ?_⟩
  · exact iff_of_false (fun h => h rfl) (by show ¬ (i : Int) < 0; omega)
  all_goals
    rw [hcell k] at h
    cases h

end Runs

section Sample

/-- A mount of an empty disk. -/
def FS.sampleRoot : FS := FS.mounted (sampleDisk 128 1000 4 132) default

/-- In a fresh root, `a` and `aa` are added and `a` is removed. -/
def sampleEntries : K Bool := do
  let _ ← naiveAddEntry 0 (.letters 1 (by decide) (by decide)) 2
  let free ← Prog.read fun s =>
    (s.inodes 0).any fun nd => nd.records == 3 && s.recordAt nd 2 == none
  let _ ← naiveAddEntry 0 (.letters 2 (by decide) (by decide)) 3
  let _ ← naiveRemoveEntry 0 (.letters 1 (by decide) (by decide))
  pure free

/-- The name is in the second record only, and the first one is free. -/
def OnlySecond (s : FS) (nd : Inode) (name : Name) : Prop :=
  nd.records = 3 ∧ s.recordAt nd 0 = none ∧
    ∀ k, k < 3 → k ≠ 1 → Table.hit name.key (s.recordAt nd k) = none

instance (s : FS) (nd : Inode) (name : Name) : Decidable (OnlySecond s nd name) :=
  inferInstanceAs (Decidable (_ ∧ _ ∧ ∀ _, _))

theorem OnlySecond.removeCond {s : FS} {nd : Inode} {name : Name} (h : OnlySecond s nd name) :
    RemoveCond s nd name := by
  obtain ⟨hrec, -, honly⟩ := h
  have hsecond : ∀ k, k < nd.records → Table.hit name.key (s.recordAt nd k) ≠ none → k = 1 :=
    fun k hk hne => by_contra fun hk1 => hne (honly k (hrec ▸ hk) hk1)
  exact fun i j hi hj hin hjn => (hsecond i hi hin).trans (hsecond j hj hjn).symm

theorem sampleRoot_nextFree : ¬ FS.sampleRoot.NextFree 0 := fun hnext =>
  absurd hnext.start (by decide +kernel)

end Sample

/-- After `a` and `aa` were added to a fresh root and `a` removed, `aaa` is added and found, and
`aa` is removed and gone; neither changes what is found for another name. -/
theorem entries_come_and_go : ∃ s, DirRun FS.sampleRoot 0 s ∧
    (∃ t, (naiveAddEntry 0 (.letters 3 (by decide) (by decide)) 4).exec (Answers.good default 0 0) s
        = .ok (0, t) ∧ AddSpec s t 0 (.letters 3 (by decide) (by decide)) 4 0) ∧
    ∃ t, (naiveRemoveEntry 0 (.letters 2 (by decide) (by decide))).exec (Answers.good default 0 0) s
        = .ok (0, t) ∧ RemoveSpec s t 0 (.letters 2 (by decide) (by decide)) 0 := by
  obtain ⟨free, s, hexec, hcheck⟩ := exists_of_execTo
    (show execTo FS.sampleRoot sampleEntries (Answers.good default 0 0) (fun free s =>
      free && (s.inodes 0).any (fun nd => OnlySecond s nd (.letters 2 (by decide) (by decide))) &&
        execTo s (naiveAddEntry 0 (.letters 3 (by decide) (by decide)) 4)
          (Answers.good default 0 0) (fun r _ => r == 0) &&
        execTo s (naiveRemoveEntry 0 (.letters 2 (by decide) (by decide)))
          (Answers.good default 0 0) (fun r _ => r == 0)) = true by decide +kernel)
  simp only [Bool.and_eq_true, Option.any_eq_true, decide_eq_true_eq] at hcheck
  obtain ⟨⟨⟨hfree, nd, hnd, hsecond⟩, hadd⟩, hremove⟩ := hcheck
  have hread : Readable (Answers.good default 0 0) := fun _ _ _ => rfl
  -- the three calls of the run
  obtain ⟨r1, s1, hexec1, hexec⟩ := Prog.exec_bind_ok.mp hexec
  obtain ⟨free', s1', hlook, hexec⟩ := Prog.exec_bind_ok.mp hexec
  cases hlook
  obtain ⟨r2, s2, hexec2, hexec⟩ := Prog.exec_bind_ok.mp hexec
  obtain ⟨r3, s3, hexec3, hexec⟩ := Prog.exec_bind_ok.mp hexec
  cases hexec
  simp only [Option.any_eq_true, Bool.and_eq_true, beq_iff_eq] at hfree
  obtain ⟨nd1, hnd1, hrec1, hfree⟩ := hfree
  have hrun : DirRun FS.sampleRoot 0 s :=
    .remove (.add (.add .refl rfl hread (.inr sampleRoot_nextFree) hexec1) hnd1 hread
      (.inl ⟨2, by omega, hfree⟩) hexec2) hread hexec3
  obtain ⟨nd', hnd', -, hadds, hremoves⟩ := directory_map_iff
    (emptyDir_root (sampleDisk 128 1000 4 132) default) hrun
  obtain rfl := Option.some.inj (hnd.symm.trans hnd')
  refine ⟨s, hrun, ?_, ?_⟩
  · obtain ⟨r, t, hexec, hr⟩ := exists_of_execTo hadd
    obtain rfl : r = 0 := by simpa using hr
    have hroom : HasFree s nd := ⟨0, hsecond.1 ▸ by decide, hsecond.2.1⟩
    exact ⟨t, hexec, (hadds _ _ _ _ _ hread (by decide) hexec).mpr
      (.inr (.inr (.inr ⟨by decide, .inl hroom⟩)))⟩
  · obtain ⟨r, t, hexec, hr⟩ := exists_of_execTo hremove
    obtain rfl : r = 0 := by simpa using hr
    obtain ⟨r', t', hexec', -, hiff⟩ := hremoves _ (.letters 2 (by decide) (by decide)) hread
    rw [hexec] at hexec'
    cases hexec'
    exact ⟨t, hexec, hiff.mpr hsecond.removeCond⟩

/-- A name of 128 letters is stored and not found. -/
theorem long_name_not_found : ¬ ∀ (s0 s t : FS) (dir : Nat) (nd0 : Inode) (ans : Answers)
    (name : Name) (ino r : Int), EmptyDir s0 dir nd0 → DirRun s0 dir s → Readable ans →
    -2 ^ 31 ≤ ino ∧ ino < 2 ^ 31 → (naiveAddEntry dir name ino).exec ans s = .ok (r, t) →
    AddSpec s t dir name ino r := by
  intro hall
  obtain ⟨r, t, hexec, hcheck⟩ := exists_of_execTo
    (show execTo FS.sampleRoot (naiveAddEntry 0 (.letters 128 (by decide) (by decide)) 2)
      (Answers.good default 0 0) (fun r t => r == 0 && (t.inodes 0).any fun nd' =>
        nd'.blockCount ≤ 8 && t.lookupScan nd' (.letters 128 (by decide) (by decide)) == none)
      = true by decide +kernel)
  simp only [Bool.and_eq_true, Option.any_eq_true, decide_eq_true_eq, beq_iff_eq] at hcheck
  obtain ⟨rfl, nd', hnd', hcount, hmiss⟩ := hcheck
  have hempty : LookupFinds FS.sampleRoot 0 (.letters 128 (by decide) (by decide)) none :=
    (lookupFinds_iff rfl (by decide)).mpr (by decide +kernel)
  obtain ⟨hfinds, -⟩ := hall _ _ t 0 _ _ _ 2 0
    (emptyDir_root (sampleDisk 128 1000 4 132) default) .refl (fun _ _ _ => rfl) (by decide)
    hexec (by decide) rfl hempty
  rw [lookupFinds_iff hnd' hcount, hmiss] at hfinds
  cases hfinds

end NaiveFS
