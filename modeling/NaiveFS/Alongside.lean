import NaiveFS.Beside
import NaiveFS.Names

/-!
# Code that runs alike beside itself

From states beside each other the functions of the module return the same and leave states beside
each other, as long as each works on the inodes at their places.
-/

namespace NaiveFS

open Bytes Prog

/-- The same result, in states beside each other. -/
def StillBeside {α : Type} (F : Aside) (a : α) (t : FS) (a' : α) (t' : FS) : Prop :=
  a' = a ∧ t.Beside F t'

/-- The two programs, one for each state, run alike. -/
def Alongside {α : Type} (F : Aside) (p p' : K α) : Prop :=
  ∀ (ans : Answers) (s s' : FS), s.Beside F s' → Follows ans p s p' s' (StillBeside F)

/-- The code sees the superblock and `sbi` only, and changes `sbi` only. -/
def OnSbi {α : Type} (p : K α) : Prop :=
  ∀ (ans : Answers) (s s' : FS), s'.block naiveSuperBlockBlock = s.block naiveSuperBlockBlock →
    s'.sbi = s.sbi → ∀ a t, p.exec ans s = .ok (a, t) →
      t = s.setSbi t.sbi ∧ p.exec ans s' = .ok (a, s'.setSbi t.sbi)

section OnSbi

variable {α : Type}

theorem onSbi_step {g : FS → Except Fault (α × FS)}
    (k : Bytes → SbInfo → Except Fault (α × SbInfo))
    (hg : ∀ s, g s = (k (s.block naiveSuperBlockBlock) s.sbi).map fun r => (r.1, s.setSbi r.2)) :
    OnSbi (Prog.step g : K α) := by
  intro ans s s' hsb hsbi a t h
  rw [exec_step, hg] at h
  rw [exec_step, hg, hsb, hsbi]
  cases hk : k (s.block naiveSuperBlockBlock) s.sbi with
  | error x =>
      rw [hk] at h
      cases h
  | ok r =>
      rw [hk] at h
      cases h
      exact ⟨rfl, rfl⟩

theorem onSbi_findFreeInode : OnSbi findFreeInode := by
  refine onSbi_step (fun sb sbi => (naiveFindFreeInode sb sbi).map fun ino => (ino, sbi))
    fun s => ?_
  cases naiveFindFreeInode (s.block naiveSuperBlockBlock) s.sbi <;> rfl

theorem onSbi_allocBlock : OnSbi allocBlock := by
  refine onSbi_step naiveAllocBlock fun s => ?_
  cases naiveAllocBlock (s.block naiveSuperBlockBlock) s.sbi <;> rfl

theorem onSbi_freeBlock (b : Int) : OnSbi (freeBlock b) := by
  refine onSbi_step (fun _ sbi => (naiveFreeBlock sbi b).map fun v => ((), v)) fun s => ?_
  cases naiveFreeBlock s.sbi b <;> rfl

theorem onSbi_inodeBitAccess (ino : Int) (g : Bytes → Nat → Bytes) :
    OnSbi (inodeBitAccess ino g) := by
  refine onSbi_step (fun _ sbi =>
    let i := (ino - 1).tdiv 8
    let j := (ino - 1).tmod 8
    if i < 0 ∨ naiveBlockSize ≤ i then .error (.inodeBitmap i)
    else if j < 0 then .ok ((), sbi)
    else .ok ((), { sbi with inodeBitmap := g sbi.inodeBitmap (i * 8 + j).toNat })) fun s => ?_
  dsimp only
  split
  · rfl
  · split <;> rfl

end OnSbi

section Rules

variable {α β : Type} {F : Aside} {p p' q q' : K α} {f f' : α → K β} {ans : Answers}
  {s s' : FS} {id id' dir dir' : Nat} {b : Int}

/-- An inode pointer is read in both. -/
theorem follows_inode (h : s.Beside F s') (hid : F.place id = some id') {f f' : Inode → K β}
    {Q : β → FS → β → FS → Prop} (hf : ∀ nd nd', s.inodes id = some nd → s'.inodes id' = some nd' →
      nd.Like nd' → Follows ans (f nd) s (f' nd') s' Q) :
    Follows ans (inode id >>= f) s (inode id' >>= f') s' Q := by
  cases hnd : s.inodes id with
  | some nd =>
      obtain ⟨nd', hnd', hlike⟩ := h.toSameInodes.node hid hnd
      exact .bind_ok (exec_inode hnd) (exec_inode hnd') (hf nd nd' hnd hnd' hlike)
  | none =>
      refine .of_error (x := .noInode id) (exec_bind_error ?_)
      rw [inode, exec_step, hnd]

namespace Alongside

theorem pure (a : α) : Alongside F (Pure.pure a) (Pure.pure a) :=
  fun _ _ _ h => Follows.pure ⟨rfl, h⟩

theorem fault (x : Fault) : Alongside F (Prog.fault x : K α) (Prog.fault x) :=
  fun _ _ _ _ => .of_error rfl

theorem ask (e : Call) : Alongside F (Prog.ask e : K e.Ans) (Prog.ask e) :=
  fun _ _ _ h => .of_ok rfl rfl ⟨rfl, h⟩

theorem bind (hp : Alongside F p p') (hf : ∀ a, Alongside F (f a) (f' a)) :
    Alongside F (p >>= f) (p' >>= f') := by
  intro ans s s' h
  refine (hp ans s s' h).bind fun a t a' t' _ hq => ?_
  obtain ⟨rfl, ht⟩ := hq
  exact hf a' ans t t' ht

theorem ite {c : Prop} [Decidable c] (hp : c → Alongside F p p') (hq : ¬ c → Alongside F q q') :
    Alongside F (if c then p else q) (if c then p' else q') := by
  split
  · rename_i hc
    exact hp hc
  · rename_i hc
    exact hq hc

theorem modify {g g' : FS → FS} (hg : ∀ s s', s.Beside F s' → (g s).Beside F (g' s')) :
    Alongside F (Prog.modify g : K Unit) (Prog.modify g') :=
  fun _ s s' h => .of_ok rfl rfl ⟨rfl, hg s s' h⟩

/-- Code that reads an inode first. -/
theorem inode_bind (hid : F.place id = some id') {f f' : Inode → K β}
    (hf : ∀ nd nd', nd.Like nd' → nd.OnData F.disk → Alongside F (f nd) (f' nd')) :
    Alongside F (inode id >>= f) (inode id' >>= f') :=
  fun ans s s' h => follows_inode h hid fun nd nd' hnd _ hlike =>
    hf nd nd' hlike (h.pointers id nd hnd) ans s s' h

theorem updInode (hF : F.Ok) (hid : F.place id = some id') {g g' : Inode → Inode}
    (hlike : ∀ nd nd', nd.Like nd' → (g nd).Like (g' nd'))
    (hdata : ∀ nd, nd.OnData F.disk → (g nd).OnData F.disk) :
    Alongside F (updInode id g) (updInode id' g') :=
  inode_bind hid fun nd nd' hnd hptr => .modify fun _ _ h =>
    h.setInode hF hid (hlike nd nd' hnd) (hdata nd hptr)

theorem updInode_bind (hF : F.Ok) (hid : F.place id = some id') {g g' : Inode → Inode}
    {f f' : Unit → K β} (hf : ∀ u, Alongside F (f u) (f' u))
    (hlike : ∀ nd nd', nd.Like nd' → (g nd).Like (g' nd'))
    (hdata : ∀ nd, nd.OnData F.disk → (g nd).OnData F.disk) :
    Alongside F (NaiveFS.updInode id g >>= f) (NaiveFS.updInode id' g' >>= f') :=
  (updInode hF hid hlike hdata).bind hf

theorem sbBread (site : Site) (i : Nat) (b : Int) :
    Alongside F (sbBread site i b) (sbBread site i b) :=
  (ask _).bind fun _ => .ite (fun _ => (modify fun _ _ h => h.addRef b 1).bind fun _ => .pure _)
    fun _ => .pure _

theorem brelse (b : Int) : Alongside F (brelse b) (brelse b) := modify fun _ _ h => h.addRef b (-1)

theorem bData (hb : ¬ Disk.Table F.disk (toU64 b)) : Alongside F (bData b) (bData b) :=
  fun _ _ _ h => .of_ok exec_bData exec_bData ⟨h.toSameData.block hb, h⟩

theorem putData (hb : ¬ Disk.Table F.disk (toU64 b)) (v : Bytes) :
    Alongside F (putData b v) (putData b v) := modify fun _ _ h => h.writeBlock hb v

theorem iput (hF : F.Ok) (hid : F.place id = some id') : Alongside F (iput id) (iput id') :=
  modify fun _ _ h => h.dropInode hF hid

theorem dInstantiate (hF : F.Ok) (hdir : F.place dir = some dir') (hid : F.place id = some id')
    (name : Name) : Alongside F (dInstantiate dir name id) (dInstantiate dir' name id') := by
  refine modify fun s s' h => ?_
  rw [← hid]
  refine h.setDentry hF hdir name (some id) fun k hk => ?_
  cases hk
  exact (hF.below id id' hid).1

theorem dDrop (hF : F.Ok) (hdir : F.place dir = some dir') (name : Name) :
    Alongside F (dDrop dir name) (dDrop dir' name) :=
  modify fun _ _ h => h.setDentry hF hdir name none fun _ hno => nomatch hno

theorem pointer_bind {nd nd' : Inode} (hlike : nd.Like nd') (hdata : nd.OnData F.disk) {i : Int}
    {f f' : Int → K β} (hf : ∀ p, ¬ Disk.Table F.disk (toU64 p) → Alongside F (f p) (f' p)) :
    Alongside F (pointer nd i >>= f) (pointer nd' i >>= f') := by
  rw [hlike.pointer, pointer]
  by_cases hi : i < 0 ∨ naiveBlockPerFile ≤ i
  · rw [if_pos hi]
    exact fun _ _ _ _ => .of_error rfl
  · rw [if_neg hi]
    unfold naiveBlockPerFile at hi
    intro ans s s' h
    exact .bind_ok rfl rfl (hf _ (hdata i.toNat (by omega)) ans s s' h)

/-! ### Code that works on `sbi` -/

theorem of_onSbi (hF : F.Ok) (hp : OnSbi p) (hmarks : ∀ ans s a t,
    s.sbi.blockBitmapBlocks = 1 → p.exec ans s = .ok (a, t) → t.sbi.blockBitmapBlocks = 1 ∧
      ∀ b, b < 4096 → Disk.Table F.disk b → s.marked b = true → t.marked b = true) :
    Alongside F p p := by
  intro ans s s' h a t ha
  obtain ⟨ht, ha'⟩ := hp ans s s' (h.toSameData.superBlock hF) h.sbi a t ha
  obtain ⟨hblocks, hkept⟩ := hmarks ans s a t h.bitmapBlocks ha
  refine ⟨a, s'.setSbi t.sbi, ha', rfl, ?_⟩
  rw [ht]
  exact h.setSbi hblocks hkept

theorem findFreeInode (hF : F.Ok) : Alongside F findFreeInode findFreeInode := by
  refine of_onSbi hF onSbi_findFreeInode fun ans s a t hblocks h => ?_
  obtain ⟨rfl, -⟩ := exec_findFreeInode h
  exact ⟨hblocks, fun _ _ _ hm => hm⟩

/-- What the allocator returns is an error or no block of the inode table. -/
theorem allocBlock_bind (hF : F.Ok) {f f' : Int → K β}
    (hf : ∀ b, (0 ≤ b → ¬ Disk.Table F.disk (toU64 b)) → Alongside F (f b) (f' b)) :
    Alongside F (allocBlock >>= f) (allocBlock >>= f') := by
  have halloc : Alongside F allocBlock allocBlock := by
    refine of_onSbi hF onSbi_allocBlock fun ans s a t hblocks h => ?_
    rcases exec_allocBlock_cases h with ⟨-, rfl, -⟩ | ⟨c, -, rfl, -⟩
    · exact ⟨hblocks, fun _ _ _ hm => hm⟩
    · refine ⟨hblocks, fun b _ _ hm => ?_⟩
      show (s.sbi.blockBitmap.setBit c).bit b = true
      rw [bit_setBit, Bool.or_eq_true]
      exact .inr hm
  intro ans s s' h
  refine (halloc ans s s' h).bind fun b t b' t' hb hq => ?_
  obtain ⟨rfl, ht⟩ := hq
  refine hf b' (fun hnonneg => ?_) ans t t' ht
  rcases exec_allocBlock_cases hb with ⟨hneg, -, -⟩ | ⟨c, rfl, -, free⟩
  · exact absurd hneg (by omega)
  · exact h.toSameData.notTable hF free

theorem freeBlock (hF : F.Ok) (hb : ¬ Disk.Table F.disk (toU64 b)) :
    Alongside F (freeBlock b) (freeBlock b) := by
  refine of_onSbi hF (onSbi_freeBlock b) fun ans s a t hblocks h => ?_
  obtain rfl := exec_freeBlock_ok hblocks h
  refine ⟨?_, fun c hc htable hm => (FS.marked_freed hc).mpr ⟨hm, ?_⟩⟩
  · unfold FS.freed
    split <;> exact hblocks
  · rintro rfl
    rw [toU64_natCast (by omega)] at hb
    exact hb htable

theorem inodeBitAccess (hF : F.Ok) (ino : Int) (g : Bytes → Nat → Bytes) :
    Alongside F (inodeBitAccess ino g) (inodeBitAccess ino g) := by
  refine of_onSbi hF (onSbi_inodeBitAccess ino g) fun ans s a t hblocks h => ?_
  rw [NaiveFS.inodeBitAccess, exec_step] at h
  dsimp only at h
  split at h
  · cases h
  · split at h
    · cases h
      exact ⟨hblocks, fun _ _ _ hm => hm⟩
    · cases h
      exact ⟨hblocks, fun _ _ _ hm => hm⟩

end Alongside

end Rules

/-! ## The scans -/

section Scan

variable {α : Type} {F : Aside} {ans : Answers} {s s' : FS} {d d' : Inode} {site : Site}
  {test : Bytes → Nat → Bool} {miss : Option α} {hit hit' : Int → Bytes → Nat → K α}
  {Q : α → FS → α → FS → Prop}

/-- How two scans end: without a record, in the states they began in, or both at a record. -/
def Scanned (miss : Option α) (Q : α → FS → α → FS → Prop) (s s' : FS) (r : Option α) (t : FS)
    (r' : Option α) (t' : FS) : Prop :=
  (r' = r ∧ (r = none ∨ r = miss) ∧ t = s ∧ t' = s') ∨
    ∃ a a', r = some a ∧ r' = some a' ∧ Q a t a' t'

theorem follows_scanBlock {i : Nat} {b : Int} (h : s.Beside F s')
    (hb : ¬ Disk.Table F.disk (toU64 b)) (hhit : ∀ j, ans (.sbBread site i b) = true → j < 3 →
      test (s.block b) j = true → (∀ k, k < j → test (s.block b) k = false) →
      Follows ans (hit b (s.block b) j) (s.addRef b 1) (hit' b (s.block b) j) (s'.addRef b 1) Q) :
    Follows ans (scanBlock site test miss hit i b) s (scanBlock site test miss hit' i b) s'
      (Scanned miss Q s s') := by
  rw [scanBlock, scanBlock]
  cases hread : ans (.sbBread site i b) with
  | false =>
      refine .bind_ok (exec_sbBread_fail hread) (exec_sbBread_fail hread) ?_
      exact Follows.pure (.inl ⟨rfl, .inr rfl, rfl, rfl⟩)
  | true =>
      refine .bind_ok (exec_sbBread_ok hread) (exec_sbBread_ok hread) ?_
      simp only [Bool.not_true, Bool.false_eq_true, if_false]
      refine .bind_ok exec_bData exec_bData ?_
      rw [FS.block_addRef, FS.block_addRef, h.toSameData.block hb]
      cases hf : findRecord (test (s.block b)) with
      | none =>
          refine .bind_ok exec_brelse exec_brelse ?_
          rw [FS.addRef_cancel, FS.addRef_cancel]
          exact Follows.pure (.inl ⟨rfl, .inl rfl, rfl, rfl⟩)
      | some j =>
          obtain ⟨hj, htest, hfirst⟩ := findRecord_some hf
          refine (hhit j hread hj htest hfirst).bind fun a t a' t' _ hq => ?_
          exact Follows.pure (.inr ⟨a, a', rfl, rfl, hq⟩)

theorem follows_scanRecords (h : s.Beside F s') (hlike : d.Like d') (hdata : d.OnData F.disk)
    (hhit : ∀ i j, PassedOver ans s d site test i → d.Slot i →
      ans (.sbBread site i (d.blockPointers i)) = true → j < 3 →
      test (s.slotBlock d i) j = true → (∀ k, k < j → test (s.slotBlock d i) k = false) →
      Follows ans (hit (d.blockPointers i) (s.slotBlock d i) j)
        (s.addRef (d.blockPointers i) 1)
        (hit' (d.blockPointers i) (s.slotBlock d i) j) (s'.addRef (d.blockPointers i) 1) Q) :
    Follows ans (scanRecords d site test miss hit) s (scanRecords d' site test miss hit') s'
      (Scanned miss Q s s') := by
  -- `n` rounds from slot `i` on, before which the scan found nothing
  have hloop : ∀ n i, (∀ m : Nat, m < i + n → (m : Int) < d.blockCount) →
      PassedOver ans s d site test i →
      Follows ans (forBlocks d (scanBlock site test miss hit) n i) s
        (forBlocks d' (scanBlock site test miss hit') n i) s' (Scanned miss Q s s') := by
    intro n
    induction n with
    | zero => exact fun i _ _ => Follows.pure (.inl ⟨rfl, .inl rfl, rfl, rfl⟩)
    | succ n ih =>
        intro i hn hover
        rw [forBlocks, forBlocks, hlike.pointer, pointer]
        by_cases hi : (i : Int) < 0 ∨ naiveBlockPerFile ≤ (i : Int)
        · rw [if_pos hi]
          exact .of_error rfl
        rw [if_neg hi]
        refine .bind_ok (a := d.blockPointers i) (b := d.blockPointers i) rfl rfl ?_
        have hi8 : i < 8 := by
          unfold naiveBlockPerFile at hi
          omega
        have hnext (hround : d.Slot i → ans (.sbBread site i (d.blockPointers i)) = true →
            ∀ j, j < 3 → test (s.slotBlock d i) j = false) : PassedOver ans s d site test (i + 1) := by
          intro m hm hslot hread
          rcases Nat.lt_or_eq_of_le (Nat.le_of_lt_succ hm) with hlt | rfl
          · exact hover m hlt hslot hread
          · exact hround hslot hread
        by_cases hz : d.blockPointers i = 0
        · rw [if_pos hz, if_pos hz]
          exact ih (i + 1) (fun m hm => hn m (by omega)) (hnext fun hslot => absurd hz hslot.attached)
        rw [if_neg hz, if_neg hz]
        have hslot : d.Slot i := ⟨hn i (by omega), hi8, hz⟩
        refine (follows_scanBlock h (hdata i hi8) fun j hread hj htest hfirst =>
          hhit i j hover hslot hread hj htest hfirst).bind fun r t r' t' hexec hq => ?_
        rcases hq with ⟨rfl, hr, rfl, rfl⟩ | ⟨a, a', rfl, rfl, hQ⟩
        · cases r' with
          | some a =>
              exact Follows.pure (.inl ⟨rfl, .inr (hr.resolve_left (by simp)), rfl, rfl⟩)
          | none =>
              refine ih (i + 1) (fun m hm => hn m (by omega)) (hnext fun _ hread => ?_)
              rcases scanBlock_cases hexec with
                ⟨hfail, _⟩ | ⟨_, ⟨_, _, _, _, _, hsome, _⟩ | ⟨hno, _, _⟩⟩
              · rw [hread] at hfail
                cases hfail
              · cases hsome
              · exact hno
        · exact Follows.pure (.inr ⟨a, a', rfl, rfl, hQ⟩)
  rw [scanRecords, scanRecords, hlike.blockCount]
  exact hloop _ 0 (fun m hm => by omega) fun m hm => by omega

/-- A scan that goes on alike at the record it finds. -/
theorem Alongside.scanRecords (hlike : d.Like d') (hdata : d.OnData F.disk)
    (hhit : ∀ b v j, ¬ Disk.Table F.disk (toU64 b) → Alongside F (hit b v j) (hit' b v j)) :
    Alongside F (scanRecords d site test miss hit) (scanRecords d' site test miss hit') := by
  intro ans s s' h
  refine (follows_scanRecords (Q := StillBeside F) h hlike hdata fun i j _ hslot _ _ _ _ =>
    hhit _ _ j (hdata i hslot.bound) ans _ _ (h.addRef _ 1)).mono fun r t r' t' _ hq => ?_
  rcases hq with ⟨rfl, -, rfl, rfl⟩ | ⟨a, a', rfl, rfl, rfl, ht⟩
  · exact ⟨rfl, h⟩
  · exact ⟨rfl, ht⟩

end Scan

/-! ## The directory functions -/

section Directory

variable {F : Aside} {dir dir' id id' : Nat} {d d' : Inode} {name : Name} {ino : Int}

namespace Alongside

theorem addEntryNew (hF : F.Ok) (hdir : F.place dir = some dir') :
    Alongside F (addEntryNew dir name ino) (addEntryNew dir' name ino) := by
  refine allocBlock_bind hF fun b hb => .ite (fun _ => .pure _) fun hlow => ?_
  have hb := hb (by omega)
  refine (updInode hF hdir (fun _ _ h => h.attachBlock b) fun _ h => h.attachBlock hb).bind
    fun _ => (sbBread _ _ b).bind fun ok => .ite (fun _ => ?_) fun _ => ?_
  · exact (freeBlock hF hb).bind fun _ => .pure _
  · refine (bData hb).bind fun v => (putData hb _).bind fun _ => (brelse b).bind fun _ => ?_
    refine updInode_bind hF hdir (fun _ => .pure _) (fun _ _ h => ?_) fun _ h => h
    exact ⟨h.iIno, h.iMode, h.iUid, h.iGid, congrArg (· + (naiveBlockSize : Int)) h.iSize,
      h.iNlink, h.blockCount, h.blockPointers⟩

theorem naiveAddEntry (hF : F.Ok) (hdir : F.place dir = some dir') :
    Alongside F (naiveAddEntry dir name ino) (naiveAddEntry dir' name ino) := by
  refine inode_bind hdir fun d d' hlike hdata => bind ?_ fun r => ?_
  · refine scanRecords hlike hdata fun b v j hb => ?_
    exact (putData hb _).bind fun _ => (brelse b).bind fun _ => (brelse b).bind fun _ => .pure _
  · cases r with
    | some r => exact .pure r
    | none => exact addEntryNew hF hdir

theorem naiveRemoveEntry (hdir : F.place dir = some dir') :
    Alongside F (naiveRemoveEntry dir name) (naiveRemoveEntry dir' name) := by
  refine inode_bind hdir fun d d' hlike hdata => bind ?_ fun r => .pure _
  exact scanRecords hlike hdata fun b v j hb => (putData hb _).bind fun _ => (brelse b).bind
    fun _ => .pure _

theorem rmdirScan (hlike : d.Like d') (hdata : d.OnData F.disk) :
    Alongside F (rmdirScan d) (rmdirScan d') :=
  scanRecords hlike hdata fun b _ _ _ => (brelse b).bind fun _ => .pure _

/-! ### Removing -/

theorem freeBlocks (hF : F.Ok) (hid : F.place id = some id') (n i : Nat) :
    Alongside F (freeBlocks id n i) (freeBlocks id' n i) := by
  induction n generalizing i with
  | zero => exact .pure ()
  | succ n ih =>
      refine inode_bind hid fun nd nd' hlike hdata => pointer_bind hlike hdata fun p hp => ?_
      refine .ite (fun _ => ih _) fun _ => (freeBlock hF hp).bind fun _ => ?_
      exact updInode_bind hF hid (fun _ => ih _) (fun _ _ h => h.setPointer _ _) fun _ h =>
        h.setPointer (b := 0) hF.zero _

theorem releaseInode (hF : F.Ok) (hid : F.place id = some id') :
    Alongside F (releaseInode id) (releaseInode id') := by
  refine inode_bind hid fun nd nd' hlike _ => ?_
  rw [hlike.blockCount, hlike.iIno]
  refine (freeBlocks hF hid _ 0).bind fun _ => updInode_bind hF hid
    (fun _ => inodeBitAccess hF _ _) (fun _ _ h => ?_) fun _ h => h
  exact ⟨h.iIno, h.iMode, h.iUid, h.iGid, h.iSize, h.iNlink, rfl, h.blockPointers⟩

theorem naiveUnlink (hF : F.Ok) (hdir : F.place dir = some dir') (hid : F.place id = some id') :
    Alongside F (naiveUnlink dir name id) (naiveUnlink dir' name id') := by
  refine (naiveRemoveEntry hdir).bind fun r => .ite (fun _ => .pure _) fun _ => ?_
  refine (releaseInode hF hid).bind fun _ => updInode_bind hF hid (fun _ => .pure _)
    (fun _ _ h => ?_) fun _ h => h
  exact ⟨h.iIno, h.iMode, h.iUid, h.iGid, rfl, rfl, h.blockCount, h.blockPointers⟩

theorem naiveRmdir (hF : F.Ok) (hdir : F.place dir = some dir') (hid : F.place id = some id') :
    Alongside F (naiveRmdir dir name id) (naiveRmdir dir' name id') := by
  refine inode_bind hdir fun _ _ _ _ => inode_bind hid fun nd nd' hlike hdata => ?_
  rw [hlike.isDir]
  refine .ite (fun _ => .pure _) fun _ => (rmdirScan hlike hdata).bind fun r => ?_
  cases r with
  | some r => exact .pure r
  | none =>
      refine (naiveRemoveEntry hdir).bind fun r => .ite (fun _ => .pure _) fun _ => ?_
      refine (releaseInode hF hid).bind fun _ => updInode_bind hF hdir (fun _ => ?_)
        (fun _ _ h => ?_) fun _ h => h
      · refine updInode_bind hF hid (fun _ => (dDrop hF hdir name).bind fun _ => .pure _)
          (fun _ _ h => ?_) fun _ h => h
        exact ⟨h.iIno, h.iMode, h.iUid, h.iGid, rfl, rfl, h.blockCount, h.blockPointers⟩
      · exact ⟨h.iIno, h.iMode, h.iUid, h.iGid, h.iSize,
          congrArg (fun n : Nat => toU32 (n - 1 : Int)) h.iNlink, h.blockCount, h.blockPointers⟩

theorem dDelete (hF : F.Ok) (hdir : F.place dir = some dir') (hid : F.place id = some id') :
    Alongside F (dDelete dir name id) (dDelete dir' name id') :=
  (dDrop hF hdir name).bind fun _ => iput hF hid

end Alongside

end Directory

/-! ## Reading and writing a file -/

section Files

variable {F : Aside} {id id' pos : Nat} {data : List Byte}

namespace Alongside

theorem fileReadLoop (hid : F.place id = some id') (fuel remaining : Nat) (out : List Byte) :
    Alongside F (fileReadLoop id fuel pos remaining out)
      (fileReadLoop id' fuel pos remaining out) := by
  induction fuel generalizing pos remaining out with
  | zero => exact .pure _
  | succ fuel ih =>
      refine .ite (fun _ => .pure _) fun _ => inode_bind hid fun nd nd' hlike hdata => ?_
      rw [hlike.blockCount]
      refine .ite (fun _ => .pure _) fun _ => pointer_bind hlike hdata fun p hp => ?_
      refine .ite (fun _ => .pure _) fun _ => (sbBread _ _ p).bind fun ok =>
        .ite (fun _ => .pure _) fun _ => ?_
      exact (bData hp).bind fun v => (ask _).bind fun left => (brelse p).bind fun _ =>
        .ite (fun _ => .pure _) fun _ => ih _ _

theorem naiveFileRead (hid : F.place id = some id') (len : Nat) :
    Alongside F (naiveFileRead id len pos) (naiveFileRead id' len pos) := by
  refine inode_bind hid fun nd nd' hlike _ => ?_
  rw [hlike.iSize]
  exact .ite (fun _ => .pure _) fun _ => fileReadLoop hid _ _ []

theorem fileWriteAlloc (hF : F.Ok) (hid : F.place id = some id') (n : Nat) :
    Alongside F (fileWriteAlloc id n) (fileWriteAlloc id' n) := by
  induction n with
  | zero => exact .pure 0
  | succ n ih =>
      refine allocBlock_bind hF fun b hb => .ite (fun _ => .pure _) fun hlow => ?_
      have hb := hb (by omega)
      refine inode_bind hid fun nd nd' hlike hdata => ?_
      rw [hlike.blockCount]
      refine .ite (fun _ => .ite (fun _ => .fault _) fun _ => ?_) fun _ =>
        (freeBlock hF hb).bind fun _ => .pure _
      refine updInode_bind hF hid (fun _ => ih) (fun nd nd' h => ?_) fun _ h => h.setPointer hb _
      dsimp only
      rw [h.blockCount]
      exact h.push _ b _

theorem fileWriteLoop (hid : F.place id = some id') (fuel : Nat) (ret : Int) :
    Alongside F (fileWriteLoop id fuel pos data ret) (fileWriteLoop id' fuel pos data ret) := by
  induction fuel generalizing pos data ret with
  | zero => exact .pure _
  | succ fuel ih =>
      refine .ite (fun _ => .pure _) fun _ => inode_bind hid fun nd nd' hlike hdata => ?_
      rw [hlike.blockCount]
      refine .ite (fun _ => .pure _) fun _ => pointer_bind hlike hdata fun p hp => ?_
      refine (sbBread _ _ p).bind fun ok => .ite (fun _ => .pure _) fun _ => ?_
      refine (bData hp).bind fun v => (ask _).bind fun left => .ite (fun _ => ?_) fun _ => ?_
      · -- the bytes copied before the fault are stored, in a buffer that stays clean
        exact (modify fun _ _ h => h.store hp _).bind fun _ => (brelse p).bind fun _ => .pure _
      · exact (putData hp _).bind fun _ => (brelse p).bind fun _ => ih _

theorem fileWriteData (hF : F.Ok) (hid : F.place id = some id') :
    Alongside F (fileWriteData id data pos) (fileWriteData id' data pos) := by
  refine (fileWriteLoop hid _ 0).bind fun q => inode_bind hid fun nd nd' hlike _ => ?_
  rw [hlike.iSize]
  -- what follows the new size
  have htimes : Alongside F
      (do
        let ts ← ktime
        NaiveFS.updInode id fun nd => { nd with iMtime := ts, iCtime := ts }
        Pure.pure (q.1, q.2))
      (do
        let ts ← ktime
        NaiveFS.updInode id' fun nd => { nd with iMtime := ts, iCtime := ts }
        Pure.pure (q.1, q.2)) := by
    refine (ask _).bind fun ts => updInode_bind hF hid (fun _ => .pure _) (fun _ _ h => ?_)
      fun _ h => h
    exact ⟨h.iIno, h.iMode, h.iUid, h.iGid, h.iSize, h.iNlink, h.blockCount, h.blockPointers⟩
  refine .ite (fun _ => updInode_bind hF hid (fun _ => htimes) (fun _ _ h => ?_) fun _ h => h)
    fun _ => htimes
  exact ⟨h.iIno, h.iMode, h.iUid, h.iGid, rfl, h.iNlink, h.blockCount, h.blockPointers⟩

theorem naiveFileWrite (hF : F.Ok) (hid : F.place id = some id') :
    Alongside F (naiveFileWrite id data pos) (naiveFileWrite id' data pos) := by
  refine inode_bind hid fun nd nd' hlike _ => ?_
  rw [hlike.iSize]
  refine .ite (fun _ => .pure _) fun _ => .ite (fun _ => ?_) fun _ => fileWriteData hF hid
  exact (fileWriteAlloc hF hid _).bind fun r => .ite (fun _ => .pure _) fun _ =>
    fileWriteData hF hid

end Alongside

end Files

/-! ## Making an inode -/

/-- The same result, in states beside each other that may have one more inode each. -/
def StillOrMade {α : Type} (F : Aside) (a : α) (t : FS) (a' : α) (t' : FS) : Prop :=
  a' = a ∧ (t.Beside F t' ∨ t.Beside (F.give F.next (F.next + 1)) t')

section Making

variable {F : Aside} {ans : Answers} {s s' : FS} {dir dir' id id' mode : Nat} {name : Name}
  {ino b : Int}

namespace Alongside

theorem inodeInitOwner (hF : F.Ok) (hdir : F.place dir = some dir') (hid : F.place id = some id') :
    Alongside F (inodeInitOwner id dir mode) (inodeInitOwner id' dir' mode) := by
  refine (ask _).bind fun uid => (ask _).bind fun gid => inode_bind hdir fun d d' hlike _ =>
    updInode hF hid (fun _ _ h => h.initOwner hlike _ _ _) fun nd h => ?_
  unfold Inode.initOwner
  split <;> exact h

theorem createInode (hF : F.Ok) (hdir : F.place dir = some dir') (hid : F.place id = some id') :
    Alongside F (createInode dir name mode id ino) (createInode dir' name mode id' ino) := by
  refine updInode_bind hF hid (fun _ => ?_) (fun _ _ h => ?_) fun _ h => h
  · refine (inodeInitOwner hF hdir hid).bind fun _ => (ask _).bind fun ts => ?_
    refine updInode_bind hF hid (fun _ => ?_) (fun _ _ h => ?_) fun _ h => h
    · refine updInode_bind hF hid (fun _ => ?_) (fun _ _ h => ?_) fun _ h => h
      · refine (inodeBitAccess hF _ _).bind fun _ => (naiveAddEntry hF hdir).bind fun r =>
          .ite (fun _ => (iput hF hid).bind fun _ => .pure _) fun _ => ?_
        exact (dInstantiate hF hdir hid name).bind fun _ => .pure _
      · exact ⟨h.iIno, h.iMode, h.iUid, h.iGid, rfl, rfl, h.blockCount, h.blockPointers⟩
    · exact ⟨h.iIno, h.iMode, h.iUid, h.iGid, h.iSize, h.iNlink, h.blockCount, h.blockPointers⟩
  · exact ⟨rfl, h.iMode, h.iUid, h.iGid, h.iSize, h.iNlink, h.blockCount, h.blockPointers⟩

theorem mkdirLink (hF : F.Ok) (hdir : F.place dir = some dir') (hid : F.place id = some id')
    (hb : ¬ Disk.Table F.disk (toU64 b)) :
    Alongside F (mkdirLink dir name id ino b) (mkdirLink dir' name id' ino b) := by
  refine (naiveAddEntry hF hdir).bind fun r => .ite (fun _ => (freeBlock hF hb).bind fun _ =>
    (iput hF hid).bind fun _ => .pure _) fun _ => ?_
  refine updInode_bind hF hdir (fun _ => (dInstantiate hF hdir hid name).bind fun _ => .pure _)
    (fun _ _ h => ?_) fun _ h => h
  exact ⟨h.iIno, h.iMode, h.iUid, h.iGid, h.iSize,
    congrArg (fun n : Nat => toU32 (n + 1 : Int)) h.iNlink, h.blockCount, h.blockPointers⟩

theorem mkdirFill (hF : F.Ok) (hdir : F.place dir = some dir') (hid : F.place id = some id')
    (hb : ¬ Disk.Table F.disk (toU64 b)) :
    Alongside F (mkdirFill dir name mode id ino b) (mkdirFill dir' name mode id' ino b) := by
  refine (inodeInitOwner hF hdir hid).bind fun _ => (ask _).bind fun ts => ?_
  refine updInode_bind hF hid (fun _ => ?_) (fun _ _ h => ?_) fun _ h => h
  · refine updInode_bind hF hid (fun _ => ?_) (fun _ _ h => ?_) fun _ h => h.setPointer hb 0
    · exact (inodeBitAccess hF _ _).bind fun _ => mkdirLink hF hdir hid hb
    · exact ⟨h.iIno, h.iMode, h.iUid, h.iGid, rfl, rfl, rfl, (h.setPointer 0 b).blockPointers⟩
  · exact ⟨h.iIno, h.iMode, h.iUid, h.iGid, h.iSize, h.iNlink, h.blockCount, h.blockPointers⟩

theorem mkdirInode (hF : F.Ok) (hdir : F.place dir = some dir') (hid : F.place id = some id') :
    Alongside F (mkdirInode dir name mode id ino) (mkdirInode dir' name mode id' ino) := by
  refine updInode_bind hF hid (fun _ => ?_) (fun _ _ h => ?_) fun _ h => h
  · refine allocBlock_bind hF fun b hb => .ite (fun _ => (iput hF hid).bind fun _ => .pure _)
      fun hlow => ?_
    have hb := hb (by omega)
    refine (sbBread _ _ b).bind fun ok => .ite (fun _ => (freeBlock hF hb).bind fun _ =>
      (iput hF hid).bind fun _ => .pure _) fun _ => ?_
    refine (bData hb).bind fun v => inode_bind hdir fun d d' hlike _ => ?_
    rw [hlike.iIno]
    exact (putData hb _).bind fun _ => (brelse b).bind fun _ => mkdirFill hF hdir hid hb
  · exact ⟨rfl, h.iMode, h.iUid, h.iGid, h.iSize, h.iNlink, h.blockCount, h.blockPointers⟩

end Alongside

/-- A new inode is made in both, or in neither. -/
theorem follows_newInode (hF : F.Ok) (h : s.Beside F s') {f f' : Option Nat → K Int}
    (hnone : Alongside F (f none) (f' none))
    (hsome : ∀ G : Aside, G.Ok → (∀ k k', F.place k = some k' → G.place k = some k') →
      ∀ id id', G.place id = some id' → Alongside G (f (some id)) (f' (some id'))) :
    Follows ans (newInode >>= f) s (newInode >>= f') s' (StillOrMade F) := by
  cases hmem : ans .newInode with
  | false =>
      refine .bind_ok (exec_newInode_fail hmem) (exec_newInode_fail hmem) ?_
      exact (hnone ans s s' h).mono fun _ _ _ _ _ hq => ⟨hq.1, .inl hq.2⟩
  | true =>
      refine .bind_ok (exec_newInode_ok hmem) (exec_newInode_ok hmem) ?_
      have hnew := h.withNew hF (.refl { iNlink := 1 }) fun _ _ => hF.zero
      have hG := hF.give (Nat.lt_succ_self F.next) (Nat.le_succ F.next)
      have hid : (F.give F.next (F.next + 1)).place s.nextInode = some s'.nextInode := by
        rw [h.next, h.next']
        exact Aside.place_give_self
      have hkept : ∀ k k', F.place k = some k' →
          (F.give F.next (F.next + 1)).place k = some k' := fun k k' hk =>
        (Aside.place_give_ne (Nat.ne_of_lt (hF.below k k' hk).1)).trans hk
      exact (hsome _ hG hkept _ _ hid ans _ _ hnew).mono fun _ _ _ _ _ hq => ⟨hq.1, .inr hq.2⟩

theorem follows_naiveCreate (hF : F.Ok) (h : s.Beside F s') (hdir : F.place dir = some dir') :
    Follows ans (naiveCreate dir name mode) s (naiveCreate dir' name mode) s' (StillOrMade F) := by
  refine follows_inode h hdir fun d d' _ _ _ => ?_
  refine (Alongside.findFreeInode hF ans s s' h).bind fun ino t ino' t' _ hq => ?_
  obtain ⟨rfl, ht⟩ := hq
  split
  · exact Follows.pure ⟨rfl, .inl ht⟩
  · exact follows_newInode hF ht (.pure _) fun _ hG hkept _ _ hid =>
      .createInode hG (hkept _ _ hdir) hid

theorem follows_naiveMkdir (hF : F.Ok) (h : s.Beside F s') (hdir : F.place dir = some dir') :
    Follows ans (naiveMkdir dir name mode) s (naiveMkdir dir' name mode) s' (StillOrMade F) := by
  refine follows_inode h hdir fun d d' _ _ _ => ?_
  refine (Alongside.findFreeInode hF ans s s' h).bind fun ino t ino' t' _ hq => ?_
  obtain ⟨rfl, ht⟩ := hq
  split
  · exact Follows.pure ⟨rfl, .inl ht⟩
  · exact follows_newInode hF ht (.pure _) fun _ hG hkept _ _ hid =>
      .mkdirInode hG (hkept _ _ hdir) hid

end Making

/-! ## The calls of the VFS -/

/-- The operation on the inodes at their places. -/
def Op.moved (place : Nat → Option Nat) : Op → Option Op
  | .create dir name perm => (place dir).map fun dir => .create dir name perm
  | .mkdir dir name mode => (place dir).map fun dir => .mkdir dir name mode
  | .unlink dir name => (place dir).map fun dir => .unlink dir name
  | .rmdir dir name => (place dir).map fun dir => .rmdir dir name
  | .write id data pos => (place id).map fun id => .write id data pos
  | .lookup dir name => (place dir).map fun dir => .lookup dir name

/-- The dentry that an `unlink` or a `rmdir` removes. -/
def Op.removes : Op → Option (Nat × Name)
  | .unlink dir name | .rmdir dir name => some (dir, name)
  | _ => none

section Calls

variable {F : Aside} {ans : Answers} {s s' : FS} {dir dir' : Nat} {name : Name} {op op' : Op}

/-- The inode of a dentry is looked up and worked on in both. -/
theorem follows_dentry (h : s.Beside F s') (hdir : F.place dir = some dir')
    (hin : ∀ id, s.dcache dir name = some id → F.place id ≠ none) {f f' : Option Nat → K Int}
    (hnone : Alongside F (f none) (f' none))
    (hsome : ∀ id id', F.place id = some id' → Alongside F (f (some id)) (f' (some id'))) :
    Follows ans (Prog.read (fun s => s.dcache dir name) >>= f) s
      (Prog.read (fun s => s.dcache dir' name) >>= f') s' (StillBeside F) := by
  refine .bind_ok (exec_read _) (exec_read _) ?_
  rw [h.dcache dir dir' name hdir]
  cases hdentry : s.dcache dir name with
  | none => exact hnone ans s s' h
  | some id =>
      obtain ⟨id', hid⟩ := Option.ne_none_iff_exists'.mp (hin id hdentry)
      show Follows ans (f (some id)) s (f' (F.place id)) s' _
      rw [hid]
      exact hsome id id' hid ans s s' h

theorem follows_vfsUnlink (hF : F.Ok) (h : s.Beside F s') (hdir : F.place dir = some dir')
    (hin : ∀ id, s.dcache dir name = some id → F.place id ≠ none) :
    Follows ans (vfsUnlink dir name) s (vfsUnlink dir' name) s' (StillBeside F) := by
  refine follows_dentry h hdir hin (.pure _) fun id id' hid => ?_
  exact (Alongside.naiveUnlink hF hdir hid).bind fun r => .ite (fun _ =>
    (Alongside.dDelete hF hdir hid).bind fun _ => .pure _) fun _ => .pure _

theorem follows_vfsRmdir (hF : F.Ok) (h : s.Beside F s') (hdir : F.place dir = some dir')
    (hin : ∀ id, s.dcache dir name = some id → F.place id ≠ none) :
    Follows ans (vfsRmdir dir name) s (vfsRmdir dir' name) s' (StillBeside F) := by
  refine follows_dentry h hdir hin (.pure _) fun id id' hid => ?_
  exact (Alongside.naiveRmdir hF hdir hid).bind fun r => .ite (fun _ =>
    (Alongside.dDelete hF hdir hid).bind fun _ => .pure _) fun _ => .pure _

/-- A call returns the same in both, and leaves states beside each other. -/
theorem follows_op (hF : F.Ok) (h : s.Beside F s') (hop : op.cached)
    (hmoved : op.moved F.place = some op') (hin : ∀ dir name id, op.removes = some (dir, name) →
      s.dcache dir name = some id → F.place id ≠ none) :
    Follows ans op.prog s op'.prog s' (StillOrMade F) := by
  have hstill {α : Type} {a a' : α} {t t' : FS} (hq : StillBeside F a t a' t') :
      StillOrMade F a t a' t' := ⟨hq.1, .inl hq.2⟩
  cases op with
  | create dir name perm =>
      obtain ⟨dir', hdir, rfl⟩ := Option.map_eq_some_iff.mp hmoved
      exact follows_naiveCreate hF h hdir
  | mkdir dir name mode =>
      obtain ⟨dir', hdir, rfl⟩ := Option.map_eq_some_iff.mp hmoved
      exact follows_naiveMkdir hF h hdir
  | unlink dir name =>
      obtain ⟨dir', hdir, rfl⟩ := Option.map_eq_some_iff.mp hmoved
      exact (follows_vfsUnlink hF h hdir fun id => hin dir name id rfl).mono
        fun _ _ _ _ _ => hstill
  | rmdir dir name =>
      obtain ⟨dir', hdir, rfl⟩ := Option.map_eq_some_iff.mp hmoved
      exact (follows_vfsRmdir hF h hdir fun id => hin dir name id rfl).mono
        fun _ _ _ _ _ => hstill
  | write id data pos =>
      obtain ⟨id', hid, rfl⟩ := Option.map_eq_some_iff.mp hmoved
      have hwrite : Alongside F (Op.prog (.write id data pos)) (Op.prog (.write id' data pos)) :=
        (Alongside.naiveFileWrite hF hid).bind fun q => .pure _
      exact (hwrite ans s s' h).mono fun _ _ _ _ _ => hstill
  | lookup => exact hop.elim

end Calls

end NaiveFS
