import NaiveFS.Lib.Twin
import NaiveFS.Run

/-!
# Code that runs alike over different bytes

`s.Alike H s'`: the two states are the same but for the bytes of the buffers, and those agree
outside the places in `H`. Most code of the module moves no data: it is `Blind` to the bytes.
A scan runs alike when the blocks it visits have no place in `H`.
-/

namespace NaiveFS

open Bytes Prog

/-- The same state over other bytes. -/
def FS.withData (s : FS) (c d : Nat → Bytes) : FS := { s with cache := c, disk := d }

/-- `s'` is `s` but for the bytes of the buffers at the places (block, byte) in `H`, which are
in no superblock, and for what the device holds. -/
structure FS.Alike (H : Nat → Nat → Prop) (s s' : FS) : Prop where
  rest : s' = s.withData s'.cache s'.disk
  bytes : ∀ b o, ¬ H b o → s'.cache b o = s.cache b o
  within : ∀ b o, H b o → b ≠ toU64 naiveSuperBlockBlock ∧ o < naiveBlockSize

/-- The same result, in states that are alike outside `H`. -/
def Same {α : Type} (H : Nat → Nat → Prop) (a : α) (t : FS) (a' : α) (t' : FS) : Prop :=
  a' = a ∧ t.Alike H t'

/-- The code runs alike from states that are alike, and stores no bytes. -/
def Blind {α : Type} (p : K α) : Prop :=
  ∀ (ans : Answers) (H : Nat → Nat → Prop) (s s' : FS), s.Alike H s' →
    Twin ans p s p s' (Same H)

section Alike

variable {H H' : Nat → Nat → Prop} {s s' t t' : FS} {id : Nat} {nd : Inode} {b : Int}

namespace FS.Alike

theorem inodes (h : s.Alike H s') : s'.inodes = s.inodes := by
  rw [h.rest]
  rfl

theorem nextInode (h : s.Alike H s') : s'.nextInode = s.nextInode := by
  rw [h.rest]
  rfl

theorem sbi (h : s.Alike H s') : s'.sbi = s.sbi := by
  rw [h.rest]
  rfl

theorem dcache (h : s.Alike H s') : s'.dcache = s.dcache := by
  rw [h.rest]
  rfl

/-- A block with no place in `H` holds the same in both. -/
theorem block (h : s.Alike H s') (hb : ∀ o, ¬ H (toU64 b) o) : s'.block b = s.block b :=
  funext fun o => h.bytes _ o (hb o)

theorem superBlock (h : s.Alike H s') :
    s'.block naiveSuperBlockBlock = s.block naiveSuperBlockBlock :=
  h.block fun o ho => (h.within _ o ho).1 rfl

theorem ready (h : s.Alike H s') (hs : s.Ready) : s'.Ready := by
  refine ⟨?_, fun id hid => ?_⟩
  · rw [h.sbi, hs.bitmapBlocks]
  · rw [h.inodes]
    exact hs.fresh id (h.nextInode ▸ hid)

theorem mono (h : s.Alike H s') (hsub : ∀ b o, H b o → H' b o)
    (hwithin : ∀ b o, H' b o → b ≠ toU64 naiveSuperBlockBlock ∧ o < naiveBlockSize) :
    s.Alike H' s' :=
  ⟨h.rest, fun b o hb => h.bytes b o fun ho => hb (hsub b o ho), hwithin⟩

/-- An update that neither reads nor stores bytes. -/
theorem map (h : s.Alike H s') {f : FS → FS}
    (hf : ∀ s c d, f (s.withData c d) = (f s).withData c d) : (f s).Alike H (f s') := by
  have hs : f s = (f s).withData s.cache s.disk := hf s s.cache s.disk
  have hs' : f s' = (f s).withData s'.cache s'.disk := by
    rw [h.rest]
    exact hf s _ _
  refine ⟨?_, fun b o hb => ?_, h.within⟩
  · rw [hs']
    rfl
  · rw [hs', hs]
    exact h.bytes b o hb

/-- Buffers of one block that agree outside `H'` are stored in both. -/
theorem store (h : s.Alike H s') {v v' : Bytes} (c : Nat) (hv : ∀ o, ¬ H' c o → v' o = v o)
    (hsub : ∀ k o, k ≠ c → H k o → H' k o)
    (hwithin : ∀ k o, H' k o → k ≠ toU64 naiveSuperBlockBlock ∧ o < naiveBlockSize) :
    FS.Alike H' { s with cache := Function.update s.cache c v }
      { s' with cache := Function.update s'.cache c v' } := by
  refine ⟨?_, fun k o hk => ?_, hwithin⟩
  · rw [h.rest]
    rfl
  · by_cases hkc : k = c
    · subst hkc
      simpa using hv o hk
    · show Function.update s'.cache c v' k o = Function.update s.cache c v k o
      rw [Function.update_of_ne hkc, Function.update_of_ne hkc]
      exact h.bytes k o fun hH => hk (hsub k o hkc hH)

theorem writeBlock (h : s.Alike H s') {v v' : Bytes} (hv : ∀ o, ¬ H' (toU64 b) o → v' o = v o)
    (hsub : ∀ k o, k ≠ toU64 b → H k o → H' k o)
    (hwithin : ∀ k o, H' k o → k ≠ toU64 naiveSuperBlockBlock ∧ o < naiveBlockSize) :
    (s.writeBlock b v).Alike H' (s'.writeBlock b v') :=
  (h.store (toU64 b) hv hsub hwithin).map
    (f := fun u => { u with bDirty := Function.update u.bDirty (toU64 b) true }) fun _ _ _ => rfl

/-- The same bytes stored in both. -/
theorem writeBlock_same (h : s.Alike H s') (v : Bytes) :
    (s.writeBlock b v).Alike H (s'.writeBlock b v) :=
  h.writeBlock (fun _ _ => rfl) (fun _ _ _ hk => hk) h.within

theorem addRef (h : s.Alike H s') (b k : Int) : (s.addRef b k).Alike H (s'.addRef b k) :=
  h.map (f := (·.addRef b k)) fun _ _ _ => rfl

end FS.Alike

/-! ## Code that moves no data -/

section Blind

variable {α β : Type} {p q : K α} {f : α → K β} {ans : Answers}

theorem Blind.twin (hp : Blind p) (h : s.Alike H s') : Twin ans p s p s' (Same H) :=
  hp ans H s s' h

theorem Blind.pure (a : α) : Blind (Pure.pure a : K α) :=
  fun _ _ _ _ h => Twin.pure ⟨rfl, h⟩

theorem Blind.fault (x : Fault) : Blind (Prog.fault x : K α) := fun _ _ _ _ _ => Twin.fault x

theorem Blind.ask (e : Call) : Blind (Prog.ask e : K e.Ans) :=
  fun _ _ _ _ h => .of_ok rfl rfl ⟨rfl, h⟩

theorem Blind.lift (x : Except Fault α) : Blind (Prog.lift x : K α) := by
  cases x with
  | ok a => exact .pure a
  | error x => exact .fault x

theorem Blind.bind (hp : Blind p) (hf : ∀ a, Blind (f a)) : Blind (p >>= f) := by
  intro ans H s s' h
  refine (hp.twin h).bind fun a t a' t' _ hq => ?_
  obtain ⟨rfl, ht⟩ := hq
  exact (hf _).twin ht

theorem Blind.ite {c : Prop} [Decidable c] (hp : Blind p) (hq : Blind q) :
    Blind (if c then p else q) := by
  split
  · exact hp
  · exact hq

/-- Code that sees the state but for its data, and the superblock. -/
theorem Blind.step {g : FS → Except Fault (α × FS)}
    (hg : ∀ s c d, c (toU64 naiveSuperBlockBlock) = s.cache (toU64 naiveSuperBlockBlock) →
      g (s.withData c d) = (g s).map fun r => (r.1, r.2.withData c d)) :
    Blind (Prog.step g : K α) := by
  intro ans H s s' h
  have hs := hg s s.cache s.disk rfl
  have hs' : g s' = (g s).map fun r => (r.1, r.2.withData s'.cache s'.disk) := by
    conv => lhs; rw [h.rest]
    exact hg s _ _ h.superBlock
  cases hr : g s with
  | error x =>
      refine .inl ⟨x, (exec_step g).trans hr, (exec_step g).trans ?_⟩
      rw [hs', hr]
      rfl
  | ok r =>
      obtain ⟨a, t⟩ := r
      rw [show s.withData s.cache s.disk = s from rfl, hr] at hs
      have ht : t = t.withData s.cache s.disk := by
        simpa [Except.map] using hs
      refine .of_ok ((exec_step g).trans hr)
        ((exec_step g).trans (hs'.trans (congrArg (Except.map _) hr))) ⟨rfl, rfl, fun b o hb => ?_,
          h.within⟩
      rw [ht]
      exact h.bytes b o hb

theorem Blind.modify {g : FS → FS} (hg : ∀ s c d, g (s.withData c d) = (g s).withData c d) :
    Blind (Prog.modify g : K Unit) := fun _ _ _ _ h => .of_ok rfl rfl ⟨rfl, h.map hg⟩

theorem blind_inode (id : Nat) : Blind (inode id) := by
  refine .step fun s c d _ => ?_
  have hinodes : (s.withData c d).inodes id = s.inodes id := rfl
  rw [hinodes]
  cases s.inodes id <;> rfl

theorem blind_updInode (id : Nat) (g : Inode → Inode) : Blind (updInode id g) :=
  (blind_inode id).bind fun _ => .modify fun _ _ _ => rfl

theorem blind_brelse (b : Int) : Blind (brelse b) := .modify fun _ _ _ => rfl

theorem blind_iput (id : Nat) : Blind (iput id) := .modify fun _ _ _ => rfl

theorem blind_dInstantiate (dir : Nat) (name : Name) (id : Nat) :
    Blind (dInstantiate dir name id) := .modify fun _ _ _ => rfl

theorem blind_dDrop (dir : Nat) (name : Name) : Blind (dDrop dir name) := .modify fun _ _ _ => rfl

theorem blind_ktime : Blind ktime := .ask _

theorem blind_findFreeInode : Blind findFreeInode := by
  refine .step fun s c d hc => ?_
  have hsame : naiveFindFreeInode ((s.withData c d).block naiveSuperBlockBlock) (s.withData c d).sbi
      = naiveFindFreeInode (s.block naiveSuperBlockBlock) s.sbi :=
    congrArg (naiveFindFreeInode · s.sbi) hc
  rw [hsame]
  cases naiveFindFreeInode (s.block naiveSuperBlockBlock) s.sbi <;> rfl

theorem blind_allocBlock : Blind allocBlock := by
  refine .step fun s c d hc => ?_
  have hsame : naiveAllocBlock ((s.withData c d).block naiveSuperBlockBlock) (s.withData c d).sbi
      = naiveAllocBlock (s.block naiveSuperBlockBlock) s.sbi :=
    congrArg (naiveAllocBlock · s.sbi) hc
  rw [hsame]
  cases naiveAllocBlock (s.block naiveSuperBlockBlock) s.sbi <;> rfl

theorem blind_freeBlock (b : Int) : Blind (freeBlock b) := by
  refine .step fun s c d _ => ?_
  show (naiveFreeBlock s.sbi b >>= fun sbi =>
    Except.ok ((), { s.withData c d with sbi := sbi })) = _
  cases naiveFreeBlock s.sbi b <;> rfl

theorem blind_inodeBitAccess (ino : Int) (g : Bytes → Nat → Bytes) :
    Blind (inodeBitAccess ino g) := by
  refine .step fun s c d _ => ?_
  dsimp only
  split
  · rfl
  · split <;> rfl

theorem blind_pointer (nd : Inode) (i : Int) : Blind (pointer nd i) := .ite (.fault _) (.pure _)

theorem blind_freeBlocks (id n i : Nat) : Blind (freeBlocks id n i) := by
  induction n generalizing i with
  | zero => exact .pure ()
  | succ n ih =>
      rw [freeBlocks]
      refine (blind_inode id).bind fun nd => (blind_pointer nd i).bind fun p => .ite (ih _) ?_
      exact (blind_freeBlock p).bind fun _ => (blind_updInode id _).bind fun _ => ih _

theorem blind_releaseInode (id : Nat) : Blind (releaseInode id) :=
  (blind_inode id).bind fun _ => (blind_freeBlocks id _ 0).bind fun _ =>
    (blind_updInode id _).bind fun _ => blind_inodeBitAccess _ _

/-- The allocation loop of `naive_file_write` attaches blocks as they are. -/
theorem blind_fileWriteAlloc (id n : Nat) : Blind (fileWriteAlloc id n) := by
  induction n with
  | zero => exact .pure 0
  | succ n ih =>
      rw [fileWriteAlloc]
      refine blind_allocBlock.bind fun b => .ite (.pure _) ((blind_inode id).bind fun nd => ?_)
      refine .ite (.ite (.fault _) ?_) ((blind_freeBlock b).bind fun _ => .pure _)
      exact (blind_updInode id _).bind fun _ => ih

end Blind

/-! ## The scans -/

/-- The blocks that a scan of `nd` visits have no place in `H`. -/
def Inode.ClearOf (H : Nat → Nat → Prop) (nd : Inode) : Prop :=
  ∀ i, nd.Slot i → ∀ o, ¬ H (toU64 (nd.blockPointers i)) o

section Scan

variable {α : Type} {ans : Answers} {site : Site} {test : Bytes → Nat → Bool} {miss : Option α}
  {hit : Int → Bytes → Nat → K α} {i : Nat}

/-- A body that leaves both states alone when the loop goes on. -/
theorem twin_forBlocks {body : Nat → Int → K (Option α)} (h : s.Alike H s')
    (hbody : ∀ i, nd.Slot i → Twin ans (body i (nd.blockPointers i)) s
      (body i (nd.blockPointers i)) s'
      fun r t r' t' => Same H r t r' t' ∧ (r = none → t = s ∧ t' = s'))
    {n : Nat} (hn : ∀ m : Nat, m < i + n → (m : Int) < nd.blockCount) :
    Twin ans (forBlocks nd body n i) s (forBlocks nd body n i) s' (Same H) := by
  induction n generalizing i with
  | zero => exact Twin.pure ⟨rfl, h⟩
  | succ n ih =>
      have hrest := ih (i := i + 1) fun m hm => hn m (by omega)
      rw [forBlocks, pointer]
      by_cases hi : (i : Int) < 0 ∨ naiveBlockPerFile ≤ (i : Int)
      · rw [if_pos hi]
        exact .inl ⟨_, rfl, rfl⟩
      rw [if_neg hi]
      refine Twin.bind_ok (a := nd.blockPointers i) (b := nd.blockPointers i) rfl rfl ?_
      by_cases hz : nd.blockPointers i = 0
      · rw [if_pos hz]
        exact hrest
      rw [if_neg hz]
      have hslot : nd.Slot i := ⟨hn i (by omega), by unfold naiveBlockPerFile at hi; omega, hz⟩
      refine (hbody i hslot).bind fun r t r' t' _ hq => ?_
      obtain ⟨⟨rfl, ht⟩, hnone⟩ := hq
      cases r' with
      | some a => exact Twin.pure ⟨rfl, ht⟩
      | none =>
          obtain ⟨rfl, rfl⟩ := hnone rfl
          exact hrest

/-- One round of a scan over a block that is the same in both. -/
theorem twin_scanBlock (h : s.Alike H s') (hb : ∀ o, ¬ H (toU64 b) o)
    (hhit : ∀ j, j < 3 → test (s.block b) j = true → Twin ans (hit b (s.block b) j) (s.addRef b 1)
      (hit b (s.block b) j) (s'.addRef b 1) (Same H)) :
    Twin ans (scanBlock site test miss hit i b) s (scanBlock site test miss hit i b) s'
      fun r t r' t' => Same H r t r' t' ∧ (r = none → t = s ∧ t' = s') := by
  rw [scanBlock]
  cases hread : ans (.sbBread site i b) with
  | false =>
      refine .bind_ok (exec_sbBread_fail hread) (exec_sbBread_fail hread) ?_
      exact Twin.pure ⟨⟨rfl, h⟩, fun _ => ⟨rfl, rfl⟩⟩
  | true =>
      refine .bind_ok (exec_sbBread_ok hread) (exec_sbBread_ok hread) ?_
      simp only [Bool.not_true, Bool.false_eq_true, if_false]
      refine .bind_ok exec_bData exec_bData ?_
      rw [show (s'.addRef b 1).block b = s.block b from h.block hb,
        show (s.addRef b 1).block b = s.block b from rfl]
      cases hf : findRecord (test (s.block b)) with
      | none =>
          refine .bind_ok exec_brelse exec_brelse ?_
          rw [FS.addRef_cancel, FS.addRef_cancel]
          exact Twin.pure ⟨⟨rfl, h⟩, fun _ => ⟨rfl, rfl⟩⟩
      | some j =>
          obtain ⟨hj, htest, -⟩ := findRecord_some hf
          refine (hhit j hj htest).bind fun a t a' t' _ hq => ?_
          obtain ⟨rfl, ht⟩ := hq
          exact Twin.pure ⟨⟨rfl, ht⟩, fun hne => by cases hne⟩

theorem twin_scanRecords (h : s.Alike H s') (hclear : nd.ClearOf H)
    (hhit : ∀ i j, nd.Slot i → j < 3 → test (s.slotBlock nd i) j = true →
      Twin ans (hit (nd.blockPointers i) (s.slotBlock nd i) j) (s.addRef (nd.blockPointers i) 1)
        (hit (nd.blockPointers i) (s.slotBlock nd i) j) (s'.addRef (nd.blockPointers i) 1)
        (Same H)) :
    Twin ans (scanRecords nd site test miss hit) s (scanRecords nd site test miss hit) s'
      (Same H) :=
  twin_forBlocks h
    (fun i hi => twin_scanBlock h (hclear i hi) fun j => hhit i j hi)
    fun m hm => by omega

end Scan

/-- An inode pointer is read from the same inode, or is bad in both. -/
theorem twin_inode {α : Type} {ans : Answers} {f : Inode → K α} {Q : α → FS → α → FS → Prop}
    (h : s.Alike H s') (hf : ∀ nd, s.inodes id = some nd → Twin ans (f nd) s (f nd) s' Q) :
    Twin ans (inode id >>= f) s (inode id >>= f) s' Q := by
  cases hnd : s.inodes id with
  | some nd =>
      have hnd' : s'.inodes id = some nd := by rw [h.inodes, hnd]
      exact .bind_ok (exec_inode hnd) (exec_inode hnd') (hf nd hnd)
  | none =>
      have hnd' : s'.inodes id = none := by rw [h.inodes, hnd]
      refine .inl ⟨.noInode id, exec_bind_error ?_, exec_bind_error ?_⟩
      · rw [inode, exec_step, hnd]
      · rw [inode, exec_step, hnd']

/-- Code that moves no data, after code that runs alike. -/
theorem twin_bind_blind {α β : Type} {ans : Answers} {p : K α} {f : α → K β}
    (hp : Twin ans p s p s' (Same H)) (hf : ∀ a, Blind (f a)) :
    Twin ans (p >>= f) s (p >>= f) s' (Same H) := by
  refine hp.bind fun a t a' t' _ hq => ?_
  obtain ⟨rfl, ht⟩ := hq
  exact (hf a').twin ht

end Alike

end NaiveFS
