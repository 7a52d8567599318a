import NaiveFS.Eviction
import NaiveFS.Remount

/-!
# Evicted inodes that are loaded again

An inode that leaves memory keeps its record in the inode table, and a lookup of its name makes
the same inode of it again. So the run with evictions returns what the run without returns.
-/

namespace NaiveFS

open Bytes Prog

/-! ## Leaving memory -/

/-- The inode at `id`, which was `x`, is in the first state only. -/
def Aside.take (F : Aside) (id : Nat) (x : Option Inode) : Aside :=
  { F with place := Function.update F.place id none, out := Function.update F.out id x }

section Take

variable {F : Aside} {s s' : FS} {id id' : Nat} {x : Option Inode}

theorem Aside.place_take_self : (F.take id x).place id = none := Function.update_self ..

theorem Aside.place_take_ne {k : Nat} (hk : k ≠ id) : (F.take id x).place k = F.place k :=
  Function.update_of_ne hk ..

theorem Aside.place_of_take {k k' : Nat} (hk : (F.take id x).place k = some k') :
    k ≠ id ∧ F.place k = some k' := by
  have hne : k ≠ id := by
    rintro rfl
    cases Aside.place_take_self.symm.trans hk
  exact ⟨hne, (Aside.place_take_ne hne).symm.trans hk⟩

theorem Aside.Ok.take (hF : F.Ok) (hid : id < F.next) : (F.take id x).Ok := by
  refine ⟨hF.guarded, hF.zero, hF.super, fun a b y ha hb => ?_, fun a y ha => ?_, fun k hk => ?_⟩
  · exact hF.inj a b y (Aside.place_of_take ha).2 (Aside.place_of_take hb).2
  · exact hF.below a y (Aside.place_of_take ha).2
  · have hk' : F.next ≤ k := hk
    exact (Function.update_of_ne (by omega) _ _).trans (hF.fresh k hk')

theorem FS.dcache_evict (s : FS) (id dir : Nat) (name : Name) :
    (s.evict id).dcache dir name = if s.dcache dir name = some id then none else
      s.dcache dir name := rfl

theorem FS.inodes_evict_self (s : FS) (id : Nat) : (s.evict id).inodes id = none :=
  FS.inodes_dropInode_self

theorem FS.inodes_evict_ne (s : FS) {id k : Nat} (hk : k ≠ id) :
    (s.evict id).inodes k = s.inodes k := FS.inodes_dropInode_ne hk

/-- The second state drops an inode that has no dentries below it. -/
theorem FS.Beside.evict (hF : F.Ok) (h : s.Beside F s') (hid : F.place id = some id')
    (hleaf : ∀ name, s.dcache id name = none) :
    s.Beside (F.take id (s.inodes id)) (s'.evict id') := by
  have hdata : s.SameData (F.take id (s.inodes id)) s' :=
    ⟨h.sbi, h.bitmapBlocks, h.home, h.table, h.data, h.marked⟩
  refine ⟨hdata.congr ⟨rfl, rfl⟩ ⟨rfl, rfl⟩, ⟨h.next, h.next', h.pointers, fun k k' hk => ?_,
    fun k hk => ?_, fun k' hk' => ?_⟩, fun k k' n hk => ?_, fun k n hk => ?_, h.named,
    fun k n hk => ?_⟩
  · obtain ⟨hki, hk⟩ := Aside.place_of_take hk
    rw [FS.inodes_evict_ne _ (hF.place_ne hid hki hk)]
    exact h.inodes k k' hk
  · show s.inodes k = Function.update F.out id (s.inodes id) k
    by_cases hki : k = id
    · rw [hki, Function.update_self]
    · rw [Aside.place_take_ne hki] at hk
      rw [h.out k hk, Function.update_of_ne hki]
  · have hne : k' ≠ id' := fun heq => hk' (heq ▸ FS.inodes_evict_self s' id')
    rw [FS.inodes_evict_ne _ hne] at hk'
    obtain ⟨k, hk⟩ := h.only k' hk'
    refine ⟨k, (Aside.place_take_ne fun heq => hne ?_).trans hk⟩
    rw [heq, hid] at hk
    exact (Option.some.inj hk).symm
  · obtain ⟨hki, hk⟩ := Aside.place_of_take hk
    rw [FS.dcache_evict, h.dcache k k' n hk]
    cases s.dcache k n with
    | none => rfl
    | some i =>
        show (if F.place i = some id' then none else F.place i) = (F.take id _).place i
        by_cases hi : i = id
        · rw [hi, if_pos hid, Aside.place_take_self]
        · rw [Aside.place_take_ne hi, if_neg fun heq => hi (hF.inj i id id' heq hid)]
  · by_cases hki : k = id
    · rw [hki, hleaf n]
    · rw [Aside.place_take_ne hki] at hk
      exact h.bare k n hk
  · rw [FS.dcache_evict, h.named' k n hk]
    rfl

/-- The second state writes in the inode table. -/
theorem FS.Beside.writeTable (h : s.Beside F s') {b : Int} (hb : Disk.Table F.disk (toU64 b))
    (v : Bytes) : s.Beside { F with table := Function.update F.table (toU64 b) v }
      (s'.writeBlock b v) := by
  refine ⟨⟨h.sbi, h.bitmapBlocks, h.home, fun c hc => ?_, fun c hc => ?_, h.marked⟩,
    ⟨h.next, h.next', h.pointers, h.inodes, h.out, h.only⟩, h.dcache, h.bare, h.named, h.named'⟩
  · show Function.update s'.cache (toU64 b) v c = Function.update F.table (toU64 b) v c
    by_cases hcb : c = toU64 b
    · rw [hcb, Function.update_self, Function.update_self]
    · rw [Function.update_of_ne hcb, Function.update_of_ne hcb, h.table c hc]
  · have hcb : c ≠ toU64 b := by
      rintro rfl
      exact hc hb
    exact (Function.update_of_ne hcb _ _).trans (h.data c hc)

end Take

/-! ## Evictions -/

section Evict

variable {disk : Nat → Bytes} {ans : Answers} {c c' : Both} {s u : FS} {id id' : Nat}
  {nd : Inode} {v : Bytes}

theorem exec_evictInode_clean (hnd : s.inodes id = some nd) (hclean : nd.iDirty = false) :
    (evictInode id).exec ans s = .ok ((), s.evict id) := by
  rw [evictInode, exec_bind_of (exec_inode hnd), hclean]
  rfl

theorem exec_evictInode_dirty (hans : ans.Reliable) (hnd : s.inodes id = some nd)
    (hdirty : nd.iDirty = true) (hv : encodeInode nd
      (s.block (inodeTableBlock (s.block naiveSuperBlockBlock) nd.iIno)) = .ok v) :
    (evictInode id).exec ans s = .ok ((),
      (s.writeBlock (inodeTableBlock (s.block naiveSuperBlockBlock) nd.iIno) v).evict id) := by
  rw [evictInode, exec_bind_of (exec_inode hnd), hdirty, if_pos rfl,
    exec_bind_of (exec_naiveWriteInode hnd (hans.reads _ _ _) hv)]
  rfl

/-- `naive_iget` makes an inode that can be stored of the bytes `naive_write_inode` left. -/
theorem Inode.Storable.decoded (h : nd.Storable) (hv : nd.InBlock v) :
    ∃ nd', decodeInode { iIno := nd.iIno, iNlink := 1, iHashed := true } v = .ok nd' ∧
      nd.Like nd' := by
  refine ⟨_, decodeInode_words h.toFits hv _, rfl, rfl, rfl, rfl, ?_, rfl, rfl, fun i hi => ?_⟩
  · show (if nd.isDir then nd.iSize.tdiv naiveDirRecordSize else nd.iSize) = nd.iSize
    split
    · rename_i hdir
      rw [h.dirSize hdir]
      rfl
    · rfl
  · show (if (i : Int) < nd.blockCount then nd.blockPointers i else 0) = nd.blockPointers i
    split
    · rfl
    · rename_i hge
      exact (h.rest i (by omega) hi).symm

/-- The inode table lies behind the bitmaps. -/
theorem Disk.HasIno.four_le (hl : Laid disk) {v : Nat} (hv : Disk.HasIno disk v) :
    4 ≤ toU64 (inodeTableBlock (disk naiveSuperBlockBlock) v) := by
  have hlow := hl.table
  have htotal : toInt32 (SuperBlock.inodeTotal (disk naiveSuperBlockBlock)) < 2 ^ 31 := by
    unfold toInt32
    omega
  have htable : toInt32 (SuperBlock.inodeTableBlockNo (disk naiveSuperBlockBlock)) < 2 ^ 31 := by
    unfold toInt32
    omega
  obtain ⟨h1, h2⟩ := hv
  unfold inodeTableBlock toU64
  omega

/-- An inode leaves memory and its record says what it is. -/
theorem Both.Inv.taken (h : c.Inv disk) (hid : c.place id = some id') (hroot : id ≠ c.kept.sRoot)
    (hleaf : ∀ name, c.kept.dcache id name = none)
    (hu : c.kept.Beside { c.aside disk with table := u.cache } u)
    (hother : ∀ k v, k ≠ id → c.kept.number k = some v → Disk.HasIno disk v →
      u.decoded v = c.evicted.decoded v)
    (hsuper : u.block naiveSuperBlockBlock = c.evicted.block naiveSuperBlockBlock)
    (hrec : ∀ nd nd', c.kept.inodes id = some nd → c.evicted.inodes id' = some nd' →
      ∃ nd₁, u.decoded nd.iIno = .ok nd₁ ∧ nd'.Like nd₁) :
    Both.Inv disk ⟨c.kept, u.evict id', Function.update c.place id none,
      Function.update c.saved id (c.evicted.inodes id')⟩ := by
  have hF : Aside.Ok { c.aside disk with table := u.cache } :=
    ⟨h.ok.guarded, h.ok.zero, hsuper.trans h.ok.super, h.ok.inj, h.ok.below, h.ok.fresh⟩
  have hlt : id < c.kept.nextInode := (h.ok.below id id' hid).1
  obtain ⟨hok, hbeside⟩ := (hu.evict hF hid hleaf).settle (hF.take hlt)
    (Function.update c.saved id (c.evicted.inodes id'))
  refine ⟨hok, hbeside, h.rooted, h.numbered, h.valid, h.apart, h.once, fun k nd hk hnd => ?_,
    fun k nd nd' hnd hsaved => ?_, fun k hk => ?_, ?_⟩
  · show ∃ nd', Function.update c.saved id (c.evicted.inodes id') k = some nd' ∧ _
    by_cases hki : k = id
    · subst hki
      rw [Function.update_self]
      exact h.beside.toSameInodes.node hid hnd
    · rw [Function.update_of_ne hki]
      exact h.out k nd ((Function.update_of_ne hki _ _).symm.trans hk) hnd
  · have hsaved' : Function.update c.saved id (c.evicted.inodes id') k = some nd' := hsaved
    show nd'.iIno = nd.iIno ∧ ∃ nd₁, u.decoded nd.iIno = .ok nd₁ ∧ nd'.Like nd₁
    by_cases hki : k = id
    · subst hki
      rw [Function.update_self] at hsaved'
      obtain ⟨nd₂, hnd₂, hlike⟩ := h.beside.toSameInodes.node hid hnd
      obtain rfl := Option.some.inj (hnd₂.symm.trans hsaved')
      exact ⟨hlike.iIno, hrec nd nd₂ hnd hnd₂⟩
    · rw [Function.update_of_ne hki] at hsaved'
      obtain ⟨hino, nd₁, hdecode, hlike⟩ := h.saved k nd nd' hnd hsaved'
      have hnumber : c.kept.number k = some nd.iIno := FS.number_of hnd
      have hvalid : Disk.HasIno disk nd.iIno := by
        refine (h.valid k _ hnumber).resolve_left fun hk => ?_
        rw [hk, h.savedRoot] at hsaved'
        cases hsaved'
      exact ⟨hino, nd₁, (hother k _ hki hnumber hvalid).trans hdecode, hlike⟩
  · have hk' : c.kept.nextInode ≤ k := hk
    exact (Function.update_of_ne (by omega) _ _).trans (h.savedNew k hk')
  · exact (Function.update_of_ne (Ne.symm hroot) _ _).trans h.savedRoot

/-- An inode that the second run has in memory is one of the first. -/
theorem Both.Inv.kept_of_place (h : c.Inv disk) (hid : c.place id = some id')
    (hnd : c.evicted.inodes id' = some nd) :
    ∃ nd₀, c.kept.inodes id = some nd₀ ∧ nd₀.Like nd := by
  have hrel := h.beside.inodes id id' hid
  rw [hnd] at hrel
  cases hold : c.kept.inodes id with
  | none =>
      rw [hold] at hrel
      cases hrel
  | some nd₀ =>
      rw [hold] at hrel
      cases hrel with
      | some hlike => exact ⟨nd₀, rfl, hlike⟩

/-- An inode that is not marked dirty leaves memory as its record has it. -/
theorem Both.Inv.evict_clean (h : c.Inv disk) (hid : c.place id = some id')
    (hroot : id ≠ c.kept.sRoot) (hleaf : ∀ name, c.kept.dcache id name = none)
    (hnd : c.evicted.inodes id' = some nd) (hclean : nd.iDirty = false)
    (hrec : ∃ nd₁, c.evicted.decoded nd.iIno = .ok nd₁ ∧ nd.Like nd₁) :
    ∃ t, (evictInode id').exec ans c.evicted = .ok ((), t) ∧
      Both.Inv disk ⟨c.kept, t, Function.update c.place id none,
        Function.update c.saved id (c.evicted.inodes id')⟩ := by
  refine ⟨_, exec_evictInode_clean hnd hclean, h.taken hid hroot hleaf ⟨h.beside.toSameData,
    h.beside.toSameInodes, h.beside.dcache, h.beside.bare, h.beside.named, h.beside.named'⟩
    (fun _ _ _ _ _ => rfl) rfl fun nd₁ nd₂ hnd₁ hnd₂ => ?_⟩
  obtain rfl := Option.some.inj (hnd.symm.trans hnd₂)
  obtain ⟨nd₃, hnd₃, hlike⟩ := h.beside.toSameInodes.node hid hnd₁
  obtain rfl := Option.some.inj (hnd.symm.trans hnd₃)
  rwa [← hlike.iIno]

/-- One that is marked dirty is written back. -/
theorem Both.Inv.evict_dirty (hl : Laid disk) (h : c.Inv disk) (hid : c.place id = some id')
    (hroot : id ≠ c.kept.sRoot) (hleaf : ∀ name, c.kept.dcache id name = none)
    (hans : ans.Reliable) (hnd : c.evicted.inodes id' = some nd) (hdirty : nd.iDirty = true)
    (hstorable : nd.Storable) :
    ∃ t, (evictInode id').exec ans c.evicted = .ok ((), t) ∧
      Both.Inv disk ⟨c.kept, t, Function.update c.place id none,
        Function.update c.saved id (c.evicted.inodes id')⟩ := by
  obtain ⟨v, hv, hin⟩ := encodeInode_inBlock hstorable.count.2 (c.evicted.block
    (inodeTableBlock (c.evicted.block naiveSuperBlockBlock) nd.iIno))
  refine ⟨_, exec_evictInode_dirty hans hnd hdirty hv, ?_⟩
  have hkept : c.kept.number id = some nd.iIno := by
    obtain ⟨nd₀, hnd₀, hlike⟩ := h.kept_of_place hid hnd
    exact hlike.iIno ▸ FS.number_of hnd₀
  have hsuper := h.beside.onDevice h.ok
  have hvalid : Disk.HasIno disk nd.iIno := (h.valid id _ hkept).resolve_left hroot
  rw [show (c.aside disk).disk = disk from rfl] at hsuper
  rw [hsuper]
  have hne : toU64 (naiveSuperBlockBlock : Int) ≠
      toU64 (inodeTableBlock (disk naiveSuperBlockBlock) nd.iIno) := by
    have hfour := hvalid.four_le hl
    have hone : toU64 (naiveSuperBlockBlock : Int) = 1 := rfl
    omega
  have hsame : (c.evicted.writeBlock (inodeTableBlock (disk naiveSuperBlockBlock) nd.iIno)
      v).block naiveSuperBlockBlock = c.evicted.block naiveSuperBlockBlock :=
    FS.block_writeBlock_ne hne
  have htable : Disk.Table disk
      (toU64 (inodeTableBlock (disk naiveSuperBlockBlock) nd.iIno)) := .inr ⟨_, hvalid, rfl⟩
  refine h.taken hid hroot hleaf (h.beside.writeTable htable v) (fun k w hk hw hw' => ?_) hsame
    fun nd₁ nd₂ hnd₁ hnd₂ => ?_
  · have hwne : w ≠ nd.iIno := by
      rintro rfl
      exact hk (h.apart k id _ hw hkept)
    have hwlt := (h.numbered k w hw).2
    have hlt := (h.numbered id _ hkept).2
    refine FS.decoded_congr hsame ?_
    rw [hsuper]
    exact FS.block_writeBlock_ne (inodeTableBlock_ne _ (by omega) (by omega) hwne)
  · obtain rfl := Option.some.inj (hnd.symm.trans hnd₂)
    have hino : nd₁.iIno = nd.iIno := Option.some.inj ((FS.number_of hnd₁).symm.trans hkept)
    obtain ⟨nd₃, hdecode, hlike⟩ := hstorable.decoded hin
    refine ⟨nd₃, ?_, hlike⟩
    rw [hino, FS.decoded, hsame, hsuper, FS.block_writeBlock_self]
    exact hdecode

/-- An eviction that loses nothing keeps the invariant. -/
theorem Both.Inv.evict (hl : Laid disk) (h : c.Inv disk) (hid : c.place id = some id')
    (hallowed : Act.Allowed c ans (.evict id)) (hloss : Act.Lossless disk c ans (.evict id))
    (hexec : c.evict ans id id' = .ok c') : c'.Inv disk := by
  obtain ⟨_, t, hrun, hexec⟩ := exec_returns hexec
  cases hexec
  obtain ⟨hroot, hleaf, hans⟩ := hallowed
  obtain ⟨nd, hnd⟩ : ∃ nd, c.evicted.inodes id' = some nd := exec_inode_bind_ok hrun
  have hlost := hloss id' nd hid hnd
  cases hdirty : nd.iDirty with
  | false =>
      rw [hdirty] at hlost
      obtain ⟨nd₀, hsaved, hsame⟩ := hlost
      obtain ⟨nd₁, hnd₁, hino⟩ := h.kept_of_place hid hnd
      obtain ⟨-, nd₃, hdecode, hlike⟩ := h.saved id nd₁ nd₀ hnd₁ hsaved
      obtain ⟨u, hu, hinv⟩ := h.evict_clean hid hroot hleaf hnd hdirty
        ⟨nd₃, by rw [hino.iIno]; exact hdecode, hsame.symm.trans hlike⟩
      obtain ⟨-, rfl⟩ := Prod.mk.inj (Except.ok.inj (hrun.symm.trans hu))
      exact hinv
  | true =>
      rw [hdirty] at hlost
      obtain ⟨u, hu, hinv⟩ := h.evict_dirty hl hid hroot hleaf hans hnd hdirty hlost
      obtain ⟨-, rfl⟩ := Prod.mk.inj (Except.ok.inj (hrun.symm.trans hu))
      exact hinv

end Evict

/-! ## Lookups -/

/-- How two lookups end: without an inode, or with inodes that are alike. -/
inductive SameFound (t t' : FS) : Option (Except Int Nat) → Option (Except Int Nat) → Prop where
  | absent : SameFound t t' none none
  | found {id id' : Nat} (like : Option.Rel Inode.Like (t.inodes id) (t'.inodes id')) :
      SameFound t t' (some (.ok id)) (some (.ok id'))

section Find

variable {disk : Nat → Bytes} {ans : Answers} {c c' : Both} {s t t' : FS} {id dir dir' ino : Nat}
  {d d' nd nd' : Inode} {name : Name}

theorem FS.decoded_iIno (h : s.decoded ino = .ok nd) : nd.iIno = ino := by
  rw [FS.decoded] at h
  exact decodeInode_iIno h

/-- The code that loads a number no inode of the second run has. -/
theorem exec_naiveIget_reliable (hans : ans.Reliable) (hfind : s.findHashed ino = none) (b : Int) :
    (naiveIget ino >>= fun r => brelse b >>= fun _ => pure r).exec ans (s.addRef b 1) =
      (s.decoded ino).map fun nd => (.ok s.nextInode, s.withNew nd) := by
  have hget : (naiveIget ino).exec ans (s.addRef b 1) = _ :=
    exec_naiveIget_absent (hans.memory ino) hfind (hans.reads _ _ _)
  have hdecoded : (s.addRef b 1).decoded ino = s.decoded ino := rfl
  rw [FS.decoded] at hdecoded
  rw [hdecoded] at hget
  cases hdecode : s.decoded ino with
  | error x =>
      rw [hdecode] at hget
      exact exec_bind_error hget
  | ok nd =>
      rw [hdecode] at hget
      rw [exec_bind_of hget, exec_bind_of exec_brelse]
      show Except.ok (_, ((s.withNew nd).addRef b 1).addRef b (-1)) = _
      rw [FS.addRef_cancel]
      rfl

/-- No inode of the second run has a number whose inode is not there. -/
theorem Both.Inv.findHashed (h : c.Inv disk)
    (hino : ∀ id, c.kept.number id = some ino → c.place id = none) :
    c.evicted.findHashed ino = none := by
  rw [FS.findHashed, List.find?_range_eq_none]
  intro id' _
  cases hnd' : c.evicted.inodes id' with
  | none => rfl
  | some nd' =>
      obtain ⟨id, hid⟩ := h.beside.only id' (by rw [hnd']; exact Option.some_ne_none _)
      obtain ⟨nd, hnd, hlike⟩ := h.kept_of_place hid hnd'
      have hne : nd'.iIno ≠ ino := by
        rintro rfl
        cases hid.symm.trans (hino id (hlike.iIno ▸ FS.number_of hnd))
      simp [hne]

/-- The scan of the second run stops where the first one's does. -/
theorem Finds.stopsAt {F : Aside} (hans : ans.Reliable) (h : s.SameData F t) (hlike : d.Like d')
    (hdata : d.OnData F.disk) {i j : Nat} (hfinds : Finds ans s d name i j) :
    StopsAt ans t d' .lookup (isNamed name) i j := by
  have hblock : ∀ m, m < 8 → t.slotBlock d' m = s.slotBlock d m := by
    intro m hm
    rw [FS.slotBlock, hlike.blockPointers m hm]
    exact h.block (hdata m hm)
  refine ⟨fun m hm hslot => ⟨hans.reads _ _ _, fun k hk => ?_⟩, hlike.slot hfinds.slot,
    hans.reads _ _ _, hfinds.record, ?_, fun k hk => ?_⟩
  · rw [hblock m hslot.bound]
    exact hfinds.before m hm (hlike.symm.slot hslot) (hans.reads _ _ _) k hk
  · rw [hblock i hfinds.slot.bound]
    exact hfinds.hit
  · rw [hblock i hfinds.slot.bound]
    exact hfinds.first k hk

/-- How a lookup ends in the two runs, and the states it leaves. -/
inductive Both.Found (disk : Nat → Bytes) (c : Both) (dir dir' : Nat) (name : Name) :
    Option (Except Int Nat) → FS → Option (Except Int Nat) → FS → Prop where
  | dentry {id id' : Nat} (dentry : c.kept.dcache dir name = some id)
      (place : c.place id = some id') :
      Found disk c dir dir' name (some (.ok id)) c.kept (some (.ok id')) c.evicted
  | absent : Found disk c dir dir' name none c.kept none c.evicted
  | reloaded {id : Nat} {nd nd' : Inode} (dentry : c.kept.dcache dir name = some id)
      (out : c.place id = none) (node : c.kept.inodes id = some nd)
      (decode : c.evicted.decoded nd.iIno = .ok nd') (like : nd.Like nd') :
      Found disk c dir dir' name (some (.ok id)) c.kept (some (.ok c.evicted.nextInode))
        ((c.evicted.withNew nd').setDentry dir' name (some c.evicted.nextInode))
  | loaded {nd : Inode} (bare : c.kept.dcache dir name = none)
      (untouched : c.Untouched disk nd.iIno) (number : nd.iIno < 2 ^ 32)
      (decode : c.evicted.decoded nd.iIno = .ok nd) :
      Found disk c dir dir' name (some (.ok c.kept.nextInode))
        ((c.kept.withNew nd).setDentry dir name (some c.kept.nextInode))
        (some (.ok c.evicted.nextInode))
        ((c.evicted.withNew nd).setDentry dir' name (some c.evicted.nextInode))

/-- An inode that is out of memory is made again of its record. -/
theorem Both.Inv.exec_reload (h : c.Inv disk) (hans : ans.Reliable)
    (hdir : c.place dir = some dir') (hid : c.place id = none) (hrec : c.Recorded ans dir name id) :
    ∃ nd nd', c.kept.inodes id = some nd ∧ c.evicted.decoded nd.iIno = .ok nd' ∧ nd.Like nd' ∧
      (naiveLookup dir' name).exec ans c.evicted = .ok (some (.ok c.evicted.nextInode),
        (c.evicted.withNew nd').setDentry dir' name (some c.evicted.nextInode)) := by
  obtain ⟨d, i, j, hd, hfinds, hnumber⟩ := hrec
  obtain ⟨d', hd', hlike⟩ := h.beside.toSameInodes.node hdir hd
  obtain ⟨nd, hnd, hino⟩ := FS.number_eq_some.mp hnumber
  obtain ⟨nd₀, hsaved, hlike₀⟩ := h.out id nd hid hnd
  obtain ⟨-, nd', hdecode, hlike'⟩ := h.saved id nd nd₀ hnd hsaved
  refine ⟨nd, nd', hnd, hdecode, hlike₀.trans hlike', ?_⟩
  have hdata := h.beside.pointers dir d hd
  have hblock : c.evicted.slotBlock d' i = c.kept.slotBlock d i := by
    rw [FS.slotBlock, hlike.blockPointers i hfinds.slot.bound]
    exact h.beside.toSameData.block (hdata i hfinds.slot.bound)
  have hfind : c.evicted.findHashed nd.iIno = none := by
    refine h.findHashed fun k hk => ?_
    rw [h.apart k id _ hk (FS.number_of hnd), hid]
  rw [naiveLookup, exec_bind_of (exec_inode hd'), exec_bind_of (exec_scanRecords_stop
    (hfinds.stopsAt hans h.beside.toSameData hlike hdata) (a := .ok c.evicted.nextInode)
    (t := c.evicted.withNew nd') ?_)]
  · rfl
  · rw [hblock, ← hino, exec_naiveIget_reliable hans hfind, hdecode]
    rfl

/-- A name without a dentry is looked up alike. -/
theorem Both.Inv.follows_lookup (h : c.Inv disk) (hans : ans.Reliable)
    (hdir : c.place dir = some dir') (hbare : c.kept.dcache dir name = none)
    (hnew : ∀ d i j, c.kept.inodes dir = some d → Finds ans c.kept d name i j →
      c.Untouched disk (DirRecord.iIno (c.kept.slotBlock d i) j)) :
    Follows ans (naiveLookup dir name) c.kept (naiveLookup dir' name) c.evicted
      (c.Found disk dir dir' name) := by
  refine follows_inode h.beside hdir fun d d' hd hd' hlike => ?_
  have hdata := h.beside.pointers dir d hd
  refine Follows.bind (follows_scanRecords (Q := fun r t r' t' => ∃ nd,
    c.Untouched disk nd.iIno ∧ nd.iIno < 2 ^ 32 ∧ c.evicted.decoded nd.iIno = .ok nd ∧
      r = .ok c.kept.nextInode ∧ t = c.kept.withNew nd ∧ r' = .ok c.evicted.nextInode ∧
      t' = c.evicted.withNew nd) h.beside hlike hdata fun i j hover hslot hread hj hhit hfirst => ?_)
    fun r t r' t' _ hq => ?_
  · have huntouched := hnew d i j hd ⟨hover, hslot, hread, hj, hhit, hfirst⟩
    have hlt : DirRecord.iIno (c.kept.slotBlock d i) j < 2 ^ 32 := getLE32_lt _ _
    generalize DirRecord.iIno (c.kept.slotBlock d i) j = ino at huntouched hlt
    have hkept : c.kept.findHashed ino = none := by
      rw [FS.findHashed, List.find?_range_eq_none]
      intro id _
      cases hnd : c.kept.inodes id with
      | none => rfl
      | some nd =>
          have hne : nd.iIno ≠ ino := by
            rintro rfl
            exact huntouched.unused id (FS.number_of hnd)
          simp [hne]
    have hevicted : c.evicted.findHashed ino = none :=
      h.findHashed fun id hid => absurd hid (huntouched.unused id)
    have hsame : c.evicted.decoded ino = c.kept.decoded ino := by
      refine FS.decoded_congr ?_ huntouched.same
      exact h.beside.toSameData.superBlock h.ok
    cases hdecode : c.kept.decoded ino with
    | error x =>
        refine .of_error (x := x) ?_
        rw [exec_naiveIget_reliable hans hkept, hdecode]
        rfl
    | ok nd =>
        have hino : nd.iIno = ino := FS.decoded_iIno hdecode
        rw [hdecode] at hsame
        refine .of_ok ((exec_naiveIget_reliable hans hkept _).trans (by rw [hdecode]; rfl))
          ((exec_naiveIget_reliable hans hevicted _).trans (by rw [hsame]; rfl)) ⟨nd, ?_⟩
        rw [hino]
        exact ⟨huntouched, hlt, hsame, rfl, rfl, rfl, rfl⟩
  · rcases hq with ⟨rfl, hnone, rfl, rfl⟩ | ⟨a, a', rfl, rfl, nd, hut, hlt, hdec, rfl, rfl, rfl, rfl⟩
    · obtain rfl : r' = none := hnone.elim id id
      exact Follows.pure .absent
    · exact .of_ok rfl rfl (.loaded hbare hut hlt hdec)

/-- What the first run finds the second run finds. -/
theorem Both.Inv.follows_find (h : c.Inv disk) (hallowed : Act.Allowed c ans (.find dir name))
    (hloss : Act.Lossless disk c ans (.find dir name)) (hdir : c.place dir = some dir') :
    Follows ans (vfsLookup dir name) c.kept (vfsLookup dir' name) c.evicted
      (c.Found disk dir dir' name) := by
  refine .bind_ok (exec_read _) (exec_read _) ?_
  rw [h.beside.dcache dir dir' name hdir]
  cases hdentry : c.kept.dcache dir name with
  | none => exact h.follows_lookup hallowed hdir hdentry (hloss.2 hdentry)
  | some id =>
      rw [show (some id).bind (c.aside disk).place = c.place id from rfl]
      cases hid : c.place id with
      | some id' => exact Follows.pure (.dentry hdentry hid)
      | none =>
          obtain ⟨nd, nd', hnd, hdecode, hlike, hexec⟩ :=
            h.exec_reload hallowed hdir hid (hloss.1 id hdentry hid)
          exact .of_ok rfl hexec (.reloaded hdentry hid hnd hdecode hlike)

theorem Both.Found.same {q q' : Option (Except Int Nat)} (h : c.Inv disk)
    (hf : c.Found disk dir dir' name q t q' t') : SameFound t t' q q' := by
  cases hf with
  | dentry dentry place => exact .found (h.beside.inodes _ _ place)
  | absent => exact .absent
  | reloaded dentry out node decode like =>
      refine .found ?_
      rw [node, FS.setDentry, FS.inodes_withNew_self]
      exact .some like
  | loaded bare untouched number decode =>
      refine .found ?_
      rw [FS.setDentry, FS.setDentry, FS.inodes_withNew_self, FS.inodes_withNew_self]
      exact .some (.refl _)

/-- The second run has the first one's inode `id` in a new place, made of its record. -/
theorem Both.Inv.given (h : c.Inv disk) {n : Nat} (hid : id < n) (hnext : c.kept.nextInode ≤ n)
    (ht : t.Beside ((c.aside disk).give id n) t')
    (hrooted : t.Rooted) (hroot : id ≠ t.sRoot) (hnumbered : t.Numbered)
    (hnumbers : ∀ k, k ≠ id → t.inodes k = c.kept.inodes k) (hnode : t.inodes id = some nd)
    (hvalid : Disk.HasIno disk nd.iIno)
    (hapart : ∀ k, k ≠ id → c.kept.number k ≠ some nd.iIno)
    (honce : ∀ dir name k n id, t.dcache dir name = some id → t.dcache k n = some id →
      k = dir ∧ n = name)
    (hdecoded : ∀ v, t'.decoded v = c.evicted.decoded v)
    (hdecode : c.evicted.decoded nd.iIno = .ok nd') :
    Both.Inv disk ⟨t, t', ((c.aside disk).give id n).place,
      Function.update c.saved id (some nd')⟩ := by
  have hsRoot : c.kept.sRoot = t.sRoot := h.rooted.sRoot.trans hrooted.sRoot.symm
  have hother {k v : Nat} (hk : k ≠ id) : t.number k = some v ↔ c.kept.number k = some v := by
    rw [FS.number, hnumbers k hk, FS.number]
  have hself {v : Nat} (hv : t.number id = some v) : v = nd.iIno := by
    rw [FS.number_of hnode] at hv
    exact (Option.some.inj hv).symm
  -- the inode is in place and saved as it was loaded; all others are as before
  obtain ⟨hok, hbeside⟩ := ht.settle (h.ok.give hid hnext)
    (Function.update c.saved id (some nd'))
  refine ⟨hok, hbeside, hrooted, hnumbered, fun k v hv => ?_, fun j k v hj hk => ?_, honce,
    fun k e hk he => ?_, fun k e e' he hsaved => ?_, fun k hk => ?_, ?_⟩
  · by_cases hki : k = id
    · subst hki
      rw [hself hv]
      exact .inr hvalid
    · rw [show (Both.mk t t' _ _).kept.sRoot = c.kept.sRoot from hsRoot.symm]
      exact h.valid k v ((hother hki).mp hv)
  · by_cases hji : j = id <;> by_cases hki : k = id
    · rw [hji, hki]
    · subst hji
      rw [hself hj] at hk
      exact absurd ((hother hki).mp hk) (hapart k hki)
    · subst hki
      rw [hself hk] at hj
      exact absurd ((hother hji).mp hj) (hapart j hji)
    · exact h.apart j k v ((hother hji).mp hj) ((hother hki).mp hk)
  · obtain ⟨hki, hout⟩ := Aside.place_of_give (n := n) hk
    show ∃ nd₁, Function.update c.saved id (some nd') k = some nd₁ ∧ _
    rw [Function.update_of_ne hki]
    exact h.out k e hout ((hnumbers k hki).symm.trans he)
  · have hsaved' : Function.update c.saved id (some nd') k = some e' := hsaved
    show e'.iIno = e.iIno ∧ ∃ nd₁, t'.decoded e.iIno = .ok nd₁ ∧ e'.Like nd₁
    rw [hdecoded]
    by_cases hki : k = id
    · subst hki
      obtain rfl := Option.some.inj (hnode.symm.trans he)
      rw [Function.update_self] at hsaved'
      obtain rfl := Option.some.inj hsaved'
      exact ⟨FS.decoded_iIno hdecode, nd', hdecode, .refl nd'⟩
    · rw [Function.update_of_ne hki] at hsaved'
      exact h.saved k e e' ((hnumbers k hki).symm.trans he) hsaved'
  · have hk' : t.nextInode ≤ k := hk
    rw [ht.next] at hk'
    have hn : n ≤ k := hk'
    exact (Function.update_of_ne (by omega) _ _).trans (h.savedNew k (by omega))
  · show Function.update c.saved id (some nd') t.sRoot = none
    rw [Function.update_of_ne (Ne.symm hroot), ← hsRoot]
    exact h.savedRoot

/-- A lookup keeps the invariant. -/
theorem Both.Found.inv {q q' : Option (Except Int Nat)} (h : c.Inv disk)
    (hdir : c.place dir = some dir') (hf : c.Found disk dir dir' name q t q' t') :
    (c.moved t t' ((c.kept.dcache dir name).getD c.kept.nextInode)
      (t'.inodes c.evicted.nextInode)).Inv disk := by
  cases hf with
  | dentry dentry place =>
      rw [moved_same rfl]
      exact h
  | absent =>
      rw [moved_same rfl]
      exact h
  | @reloaded id nd nd' dentry out node decode like =>
      have hlt : id < c.kept.nextInode := h.beside.named dir name id dentry
      have hroot : id ≠ c.kept.sRoot := by
        rw [h.rooted.sRoot]
        exact h.rooted.dentry dir name id dentry
      have hin : ((c.evicted.withNew nd').setDentry dir' name (some c.evicted.nextInode)).inodes
          c.evicted.nextInode = some nd' := FS.inodes_withNew_self
      have hnumber := FS.number_of node
      have hvalid := (h.valid id _ hnumber).resolve_left hroot
      -- the inode comes back to memory: it has its old number and place in the run that kept it
      rw [moved_new disk c.kept.nextInode rfl, hin, dentry]
      exact h.given hlt (Nat.le_refl _) (h.beside.load h.ok out node like hdir dentry
        fun k n hk => h.once dir name k n id dentry hk) h.rooted hroot h.numbered
        (fun _ _ => rfl) node hvalid (fun k hk hk' => hk (h.apart k id _ hk' hnumber)) h.once
        (fun _ => rfl) decode
  | @loaded nd bare untouched number decode =>
      have hpos := h.rooted.pos
      have hkeep : c.kept.decoded nd.iIno = .ok nd := by
        rw [← decode]
        exact (FS.decoded_congr (h.beside.toSameData.superBlock h.ok) untouched.same).symm
      have hnew : ∀ e m, c.kept.dcache e m ≠ some c.kept.nextInode := fun e m he =>
        absurd (h.beside.named e m _ he) (Nat.lt_irrefl _)
      have hin : ((c.evicted.withNew nd).setDentry dir' name (some c.evicted.nextInode)).inodes
          c.evicted.nextInode = some nd := FS.inodes_withNew_self
      have hnode : ((c.kept.withNew nd).setDentry dir name (some c.kept.nextInode)).inodes
          c.kept.nextInode = some nd := FS.inodes_withNew_self
      have hrooted : ((c.kept.withNew nd).setDentry dir name (some c.kept.nextInode)).Rooted :=
        (h.rooted.withNew nd).setDentry (by simpa using Nat.pos_iff_ne_zero.mp hpos)
      have hroot : c.kept.nextInode ≠ c.kept.sRoot := by
        rw [h.rooted.sRoot]
        omega
      have hG := h.ok.give (Nat.lt_succ_self c.kept.nextInode) (Nat.le_succ c.kept.nextInode)
      have hbeside := h.beside.withNew h.ok (.refl nd) (untouched.data nd hkeep)
      have hdir' : ((c.aside disk).give c.kept.nextInode (c.kept.nextInode + 1)).place dir
          = some dir' := (Aside.place_give_ne (Nat.ne_of_lt (h.ok.below dir dir' hdir).1)).trans hdir
      have hdentry := hbeside.setDentry hG hdir' name (some c.kept.nextInode) fun k hk => by
        cases hk
        exact Nat.lt_succ_self _
      have hplace : (some c.kept.nextInode).bind
          ((c.aside disk).give c.kept.nextInode (c.kept.nextInode + 1)).place =
          some c.evicted.nextInode := Aside.place_give_self
      have hnumbers : NumbersFrom (fun _ v => 1 ≤ v ∧ v < 2 ^ 32) c.kept (c.kept.withNew nd) :=
        .withNew ⟨untouched.valid.1, number⟩
      -- both runs load it: a number no inode had, so names and numbers stay apart
      rw [moved_new disk (c.kept.nextInode + 1) rfl, hin, bare]
      refine h.given (Nat.lt_succ_self _) (Nat.le_succ _) (hplace ▸ hdentry) hrooted hroot
        (h.numbered.of_numbers (fun _ _ hv => hv) (hnumbers.trans (.of_inodes rfl)))
        (fun k hk => FS.inodes_withNew_ne hk) hnode untouched.valid
        (fun k _ => untouched.unused k) ?_ (fun _ => rfl) decode
      exact FS.NamedOnce.setDentry (s := c.kept.withNew nd) h.once fun i hi k n => by
        cases hi
        exact hnew k n

/-- A lookup that finds what the first run has keeps the invariant. -/
theorem Both.Inv.find (h : c.Inv disk) (hallowed : Act.Allowed c ans (.find dir name))
    (hloss : Act.Lossless disk c ans (.find dir name)) (hdir : c.place dir = some dir')
    (hexec : c.find ans dir dir' name = .ok c') : c'.Inv disk := by
  obtain ⟨q, t, hkept, hexec⟩ := exec_returns hexec
  obtain ⟨q', t', hevicted, hexec⟩ := exec_returns hexec
  cases hexec
  obtain ⟨r, u, hu, hfound⟩ := h.follows_find hallowed hloss hdir q t hkept
  obtain ⟨rfl, rfl⟩ := Prod.mk.inj (Except.ok.inj (hevicted.symm.trans hu))
  exact hfound.inv h hdir

end Find

/-! ## Runs -/

section Runs

variable {disk : Nat → Bytes} {ans : Answers} {c c' : Both} {s0 : FS} {a : Act}

/-- What an act that loses nothing preserves. -/
theorem Both.Inv.step (hl : Laid disk) (h : c.Inv disk) (ha : Act.Safe disk c ans a)
    (hstep : c.step ans a = .ok c') : c'.Inv disk := by
  obtain ⟨hallowed, hloss⟩ := ha
  cases a with
  | call op =>
      rw [Both.step] at hstep
      cases hmoved : op.moved c.place with
      | some op' =>
          rw [hmoved] at hstep
          exact h.call hallowed hloss hmoved hstep
      | none =>
          rw [hmoved] at hstep
          cases hstep
          exact h
  | evict id =>
      rw [Both.step] at hstep
      cases hid : c.place id with
      | some id' =>
          rw [hid] at hstep
          exact h.evict hl hid hallowed hloss hstep
      | none =>
          rw [hid] at hstep
          cases hstep
          exact h
  | find dir name =>
      rw [Both.step] at hstep
      cases hdir : c.place dir with
      | some dir' =>
          rw [hdir] at hstep
          exact h.find hallowed hloss hdir hstep
      | none =>
          rw [hdir] at hstep
          cases hstep
          exact h

/-- The runs begin beside each other. -/
theorem Both.Inv.start (hl : Laid disk) (hres : Disk.Reserved (Disk.Metadata disk) disk)
    (h0 : Mounted disk s0) : (Both.start s0).Inv disk := by
  obtain ⟨_, ts, rfl⟩ := mounted_eq h0
  have hplace : ∀ id id', (Both.start (FS.mounted disk ts)).place id = some id' →
      id = 0 ∧ id' = 0 := by
    intro id id' hid
    obtain ⟨nd, hnd, rfl⟩ := Option.map_eq_some_iff.mp hid
    exact ⟨(inodes_mounted hnd).1, (inodes_mounted hnd).1⟩
  have hnone : ∀ id, (Both.start (FS.mounted disk ts)).place id = none →
      (FS.mounted disk ts).inodes id = none := fun id hid => Option.map_eq_none_iff.mp hid
  have hmeta : ∀ b, Disk.Table disk b → Disk.Metadata disk b := by
    rintro b (hb | ⟨v, hv, hb⟩)
    · rw [hb]
      exact .inl (by decide)
    · exact .inr ⟨v, hv.1, hv.2, hb⟩
  have hdata := hl.data
  have hzero : ¬ Disk.Table disk 0 := by
    rintro (h | ⟨v, hv, h⟩)
    · cases h
    · have := hv.four_le hl
      omega
  -- the root is the only inode, at 0 in both runs, so most fields speak of it alone
  refine ⟨⟨⟨?_, .inl rfl, fun c hc => hres c (hmeta c hc)⟩, hzero, rfl, fun id k id' hid hk => ?_,
    fun id id' hid => ?_, fun id hid => ?_⟩,
    ⟨⟨rfl, rfl, fun _ _ => rfl, fun _ _ => rfl, fun _ _ => rfl, fun _ _ _ h => h⟩,
      ⟨rfl, rfl, fun id nd hnd => ?_, fun id id' hid => ?_, fun id hid => (if_pos hid).symm,
        fun id hid => ?_⟩, fun _ _ _ _ => rfl, fun _ _ _ => rfl, fun _ _ _ h => ?_,
      fun _ _ _ => rfl⟩,
    rooted_mounted disk ts, numbered_mounted disk ts, fun id v hv => ?_,
    fun id k v hid hk => ?_, fun _ _ _ _ _ h => ?_, fun id nd hid hnd => ?_,
    fun _ _ _ _ h => ?_, fun _ _ => rfl, rfl⟩
  · exact Int.lt_of_lt_of_le (by decide) hdata
  · rw [(hplace id id' hid).1, (hplace k id' hk).1]
  · obtain ⟨rfl, rfl⟩ := hplace id id' hid
    exact ⟨Nat.one_pos, Nat.one_pos⟩
  · show (if _ then _ else _) = none
    split
    · rename_i h
      exact hnone id h
    · rfl
  · obtain ⟨-, rfl⟩ := inodes_mounted hnd
    exact fun _ _ => hzero
  · obtain ⟨rfl, rfl⟩ := hplace id id' hid
    exact .some (.refl _)
  · obtain ⟨nd, hnd⟩ := Option.ne_none_iff_exists'.mp hid
    refine ⟨id, ?_⟩
    show ((FS.mounted disk ts).inodes id).map _ = _
    rw [show (FS.mounted disk ts).inodes id = some nd from hnd]
    rfl
  · cases h
  · obtain ⟨nd, hnd, -⟩ := FS.number_eq_some.mp hv
    exact .inl (inodes_mounted hnd).1
  · obtain ⟨nd, hnd, -⟩ := FS.number_eq_some.mp hid
    obtain ⟨e, he, -⟩ := FS.number_eq_some.mp hk
    rw [(inodes_mounted hnd).1, (inodes_mounted he).1]
  · cases h
  · cases (hnone id hid).symm.trans hnd
  · cases h

theorem Both.Runs.inv (hl : Laid disk) (hres : Disk.Reserved (Disk.Metadata disk) disk)
    (h0 : Mounted disk s0) (h : Both.Runs (Act.Safe disk) (Both.start s0) c) : c.Inv disk := by
  induction h with
  | refl => exact .start hl hres h0
  | step _ ha hstep ih => exact ih.step hl ha hstep

end Runs

/-! ## A run with an eviction -/

/-- The acts run through, and what they lead to passes their checks. -/
def Both.passes (c : Both) : List (Act × Answers × (Both → Bool)) → Bool
  | [] => true
  | (a, ans, ok) :: rest =>
    match c.step ans a with
    | .ok c' => ok c' && c'.passes rest
    | .error _ => false

end NaiveFS
