import NaiveFS.Paths

/-!
# What a process sees

Every system call of a session returns, with what the tree has on its path, and does to the tree
what it returns; an eviction between two calls does nothing to it.
-/

namespace NaiveFS

open Bytes Prog

/-! ## What is on the device -/

section Disk

variable {ans : Answers} {s t : FS} {id dir : Nat} {d nd : Inode} {name : Name} {r : Int}

theorem mapInode_disk (s : FS) (id : Nat) (f : Inode → Inode) :
    (s.mapInode id f).disk = s.disk := by
  unfold FS.mapInode
  split <;> rfl

theorem removed_disk (s : FS) (dir : Nat) (name : Name) (id : Nat) (nd : Inode) :
    (s.removed dir name id nd).disk = s.disk := by
  obtain ⟨bm, im, hframe⟩ := s.released_frame nd
  rw [FS.removed, hframe]
  rfl

theorem AddEntry.disk {ino : Int} (h : AddEntry ans s dir d name ino r t) : t.disk = s.disk := by
  cases h <;> rfl

theorem Extend.disk (h : Extend id s t) : t.disk = s.disk := by
  induction h with
  | refl => rfl
  | step _ _ _ _ _ ih => exact ih

theorem Write.disk (hw : Write s id r t) : t.disk = s.disk := by
  cases hw with
  | tooBig => rfl
  | noSpace grow => exact grow.disk
  | written grow node data same => exact data.disk.trans grow.disk

/-- A call writes to buffers only. -/
theorem Step.disk {op : Op} (hs : s.Ready) (hop : op.cached) (hstep : Step s op ans r t) :
    t.disk = s.disk := by
  cases op with
  | create dir name perm =>
      obtain ⟨d, hd, hc⟩ := naiveCreate_cases hs hstep
      cases hc with
      | noInode | noMemory => rfl
      | notLinked _ _ entry => exact (entry.disk :)
      | linked _ _ entry => exact (entry.disk :)
  | mkdir dir name mode =>
      obtain ⟨d, hd, hm⟩ := naiveMkdir_cases hs hstep
      cases hm with
      | noInode | noMemory | noBlock | blockUnreadable => rfl
      | notLinked _ _ _ _ entry => exact (entry.disk :)
      | linked _ _ _ _ entry => exact (mapInode_disk _ _ _).trans (entry.disk :)
  | unlink dir name =>
      cases vfsUnlink_cases hs hstep with
      | noDentry | notRemoved => rfl
      | removed => exact removed_disk _ _ _ _ _
  | rmdir dir name =>
      cases vfsRmdir_cases hs hstep with
      | noDentry | notDir | unreadable | notEmpty | notRemoved => rfl
      | removed => exact (removed_disk _ _ _ _ _).trans (mapInode_disk _ _ _)
  | write id data pos =>
      obtain ⟨q, u, hwrite, hend⟩ := exec_bind_ok.mp hstep
      cases hend
      exact (naiveFileWrite_cases hs hwrite).disk
  | lookup => exact hop.elim

end Disk

/-! ## Each system call -/

section Calls

variable {disk : Nat → Bytes} {ans : Answers} {s t : FS} {T : Tree} {c : Both}
  {dir dir' id id' : Nat} {d d' nd nd' : Inode} {name : Name} {path : List Name}

/-- A call in both runs, which does to the tree what it returns. -/
theorem Both.Behind.called (hgood : Disk.Good disk) (h : c.Behind disk T) (hread : Readable ans)
    {op op' : Op} (hlawful : op.Lawful c.kept) (hchecked : op.Checked c.kept)
    (hmoved : op.moved c.place = some op')
    (hin : ∀ dir name id, op.removes = some (dir, name) → c.kept.dcache dir name = some id →
      c.place id ≠ none) {r' : Int} {u u' : FS} (hkept : op.prog.exec ans c.kept = .ok (r, u))
    (hevicted : op'.prog.exec ans c.evicted = .ok (r', u')) :
    ∃ T', (c.moved u u' c.kept.nextInode none).Behind disk T' ∧ T.Does (.call op r) T' := by
  have hop : op.cached := hlawful.cached
  obtain ⟨T', hdoes, htracks⟩ := Step.tracks hgood.guarded h.tracks hlawful hchecked hread hkept
  -- a number that is free is no inode's
  have hloss : Act.Lossless disk c ans (.call op) := by
    intro _ ino free k hk
    have hmarked := (h.tracks.names.numbers.marked k ino hk).2
    rw [free.clear] at hmarked
    cases hmarked
  have hcall : c.call ans op op' = .ok (c.moved u u' c.kept.nextInode none) := by
    rw [Both.call, hkept]
    show (op'.prog.exec ans c.evicted >>= _) = _
    rw [hevicted]
    rfl
  have hinv := h.inv.call ⟨hop, hin⟩ hloss hmoved hcall
  have hsteady := Step.steady hgood.guarded hgood.one.cover h.steady hop hchecked hkept
  have hop' : op'.cached := by
    cases op with
    | lookup => exact hlawful.elim
    | create | mkdir | unlink | rmdir | write =>
        obtain ⟨k, -, rfl⟩ := Option.map_eq_some_iff.mp hmoved
        trivial
  obtain ⟨hready, hready'⟩ := h.inv.beside.ready h.inv.ok
  have hhome := Step.rooted hready' h.home hop' hevicted
  have habove := Step.above hgood.laid hready h.inv.rooted h.above hop hkept
  have hdevice (b : Nat) (hb : 1 ≤ b) (hb' : b < 4) : u'.disk b = disk b := by
    rw [Step.disk hready' hop' hevicted]
    exact h.device b hb hb'
  refine ⟨T', ?_, hdoes⟩
  have hpos := h.inv.rooted.pos
  unfold Both.moved at hinv ⊢
  split
  · rw [if_pos ‹_›] at hinv
    exact ⟨hinv, htracks, hsteady, h.root, hhome, habove, hdevice⟩
  · rw [if_neg ‹_›] at hinv
    exact ⟨hinv, htracks, hsteady, (Function.update_of_ne (by omega) _ _).trans h.root, hhome,
      habove, hdevice⟩

/-- The session calls the module, which does to the tree what it returns. -/
theorem Both.Behind.call (hgood : Disk.Good disk) (h : c.Behind disk T)
    (hread : Readable ans) (op : Op) (hlawful : op.Lawful c.kept) (hchecked : op.Checked c.kept)
    (hrange : op.InRange) (hnd : c.kept.inodes op.target = some nd)
    {op' : Op} (hmoved : op.moved c.place = some op')
    (hin : ∀ dir name id, op.removes = some (dir, name) → c.kept.dcache dir name = some id →
      c.place id ≠ none) :
    op'.prog.Total ans c.evicted fun r t => ∃ (c' : Both) (T' : Tree), c'.evicted = t ∧
      c'.Behind disk T' ∧ T.Does (.call op r) T' := by
  obtain ⟨r, u, hkept⟩ := Total.returns
    (show op.prog.Total ans c.kept _ from
      (h.steady.sane hgood.guarded hgood.one.cover).total_op hlawful.cached hnd hrange)
  obtain ⟨_, u', hevicted, rfl, -⟩ := h.inv.follows_call ⟨hlawful.cached, hin⟩ hmoved r u hkept
  obtain ⟨T', hbehind, hdoes⟩ :=
    h.called hgood hread hlawful hchecked hmoved hin hkept hevicted
  refine .of_exec hevicted ⟨_, T', ?_, hbehind, hdoes⟩
  unfold Both.moved
  split <;> rfl

/-- The directory has room in both runs. -/
theorem Both.Behind.room (h : c.Behind disk T) (hplace : c.place dir = some dir')
    (hd : c.kept.inodes dir = some d) (hroom : ∀ d', c.evicted.inodes dir' = some d' →
      c.evicted.Room d') : c.kept.Room d := by
  obtain ⟨d', hd', hlike⟩ := h.inv.beside.toSameInodes.node hplace hd
  have hdata := h.inv.beside.pointers dir d hd
  rcases hroom d' hd' with ⟨k, hk, hnone⟩ | hcount
  · refine .inl ⟨k, ?_, ?_⟩
    · rwa [Inode.records, hlike.blockCount] at hk
    · have hk8 : k / 3 < 8 := by
        have hle := (h.steady.mapped.node dir d hd).count_le
        rw [Inode.records, hlike.blockCount] at hk
        omega
      have hblock : c.evicted.slotBlock d' (k / 3) = c.kept.slotBlock d (k / 3) := by
        rw [FS.slotBlock, hlike.blockPointers _ hk8]
        exact h.inv.beside.toSameData.block (hdata _ hk8)
      rw [← hnone, FS.recordAt, FS.recordAt, hblock, hlike.blockPointers _ hk8]
  · exact .inr (by rwa [hlike.blockCount] at hcount)

/-- The session makes a name that is new. -/
theorem Both.Behind.lawful_make (h : c.Behind disk T) (hname : name.Plain)
    (hdir : d.isDir = true) (hroom : c.kept.Room d) (hd : c.kept.inodes dir = some d)
    (hnew : T.child dir name.bytes = none) : ∀ e, c.kept.inodes dir = some e →
      e.isDir = true ∧ c.kept.Room e ∧
        ∀ k v, k < 24 → c.kept.recordAt e k ≠ some (name.bytes, v) := by
  intro e he
  obtain rfl := Option.some.inj (hd.symm.trans he)
  refine ⟨hdir, hroom, fun k v hk hrec => ?_⟩
  obtain ⟨id, hid⟩ := h.tracks.child_of_entry
    (FS.entryAt_eq_some.mpr ⟨d, hd, hdir, hk, hrec, hname.dot⟩)
  cases hnew.symm.trans hid

/-- The session finds what a path leads to. -/
theorem Both.Behind.placeAt (hg : Disk.Guarded (· = naiveSuperBlockBlock) disk)
    (h : c.Behind disk T) (hans : ans.Reliable) (hpath : ∀ name, name ∈ path → name.Plain)
    (wrong : Bool → Option Int) :
    (NaiveFS.placeAt path wrong).Total ans c.evicted fun r t => ∃ c' : Both, c'.evicted = t ∧
      c'.kept = c.kept ∧ c'.Behind disk T ∧ c'.Located T r (T.placeAt path wrong) := by
  obtain ⟨nd, hnd, -⟩ := h.inv.rooted.root
  refine .bind_of (exec_read _) ?_
  rw [h.home.sRoot]
  refine .bind (h.walk hg hans hpath h.root hnd) fun r t hr => ?_
  obtain ⟨c', rfl, hkept, hbehind, hlocated⟩ := hr
  rw [Tree.placeAt]
  generalize T.walk 0 path = x at hlocated
  cases hlocated with
  | lost => exact .pure ⟨c', rfl, hkept, hbehind, .lost⟩
  | @found k k' e place node =>
      obtain ⟨e', he', hlike⟩ := hbehind.inv.beside.toSameInodes.node place node
      refine .bind_of (exec_inode he') ?_
      dsimp only
      rw [hlike.isDir, hbehind.tracks.toShows.isDir_eq node]
      cases wrong e.isDir with
      | none => exact .pure ⟨c', rfl, hkept, hbehind, .found place node⟩
      | some e => exact .pure ⟨c', rfl, hkept, hbehind, .lost⟩

theorem Tree.right_of_placeAt {T : Tree} {wrong : Bool → Option Int}
    (h : T.placeAt path wrong = .ok id) : wrong (T.isDir id) = none := by
  unfold Tree.placeAt at h
  split at h
  · split at h
    · cases h
      assumption
    · cases h
  · cases h

theorem Tree.isDir_of_placeAt {T : Tree} (h : T.placeAt path noDirectory = .ok id) :
    T.isDir id = true := by
  have hright := Tree.right_of_placeAt h
  unfold noDirectory at hright
  split at hright
  · assumption
  · cases hright

theorem Tree.not_isDir_of_placeAt {T : Tree} (h : T.placeAt path noFile = .ok id) :
    T.isDir id = false := by
  have hright := Tree.right_of_placeAt h
  unfold noFile at hright
  split at hright
  · cases hright
  · simp_all

/-- The session finds the inode that a system call works on. -/
theorem Both.Behind.locate (hg : Disk.Guarded (· = naiveSuperBlockBlock) disk)
    (h : c.Behind disk T) (hans : ans.Reliable) {q : Syscall}
    (hnames : ∀ name, name ∈ q.names → name.Plain) :
    q.locate.Total ans c.evicted fun r t => ∃ c' : Both, c'.evicted = t ∧ c'.kept = c.kept ∧
      c'.Behind disk T ∧ c'.Located T r (T.locate q) := by
  cases q with
  | create path name | mkdir path name | unlink path name | rmdir path name =>
      exact h.placeAt hg hans (fun n hn => hnames n (by simp [Syscall.names, hn])) noDirectory
  | write path | read path => exact h.placeAt hg hans hnames noFile

/-- A name is made, if the directory does not have it. -/
theorem Both.Behind.make (hgood : Disk.Good disk) (h : c.Behind disk T) (hans : ans.Reliable)
    (hname : name.Plain) (hroom : ∀ d', c.evicted.inodes dir' = some d' → c.evicted.Room d')
    (hplace : c.place dir = some dir') (hd : c.kept.inodes dir = some d) (hdir : d.isDir = true)
    {make : Nat → Op} {x : Nat}
    (hmake : make = (Op.create · name x) ∨ make = (Op.mkdir · name x)) :
    (withName dir' name (fun _ => pure (-EEXIST)) (make dir').prog).Total ans c.evicted fun r t =>
      ∃ (c' : Both) (T' : Tree), c'.evicted = t ∧ c'.Behind disk T' ∧
        ((∃ id, T.child dir name.bytes = some id ∧ r = -EEXIST ∧ T' = T) ∨
          T.child dir name.bytes = none ∧ T.Does (.call (make dir) r) T') := by
  refine .bind (h.lookup hgood.guarded hans hname hplace hd hdir) fun r t hr => ?_
  cases hr with
  | found child behind => exact .pure ⟨_, T, rfl, behind, .inl ⟨_, child, rfl, rfl⟩⟩
  | absent new =>
      have hlawful := h.lawful_make hname hdir (h.room hplace hd hroom) hd new
      have hcall : (make dir').prog.Total ans c.evicted fun r t => ∃ (c' : Both) (T' : Tree),
          c'.evicted = t ∧ c'.Behind disk T' ∧ T.Does (.call (make dir) r) T' := by
        rcases hmake with rfl | rfl
        · exact h.call hgood hans.reads (.create dir name x) ⟨hname.dot, hname.short, hlawful⟩
            (fun e he => (hlawful e he).1) trivial hd (by rw [Op.moved, hplace]; rfl)
            fun _ _ _ h => by cases h
        · exact h.call hgood hans.reads (.mkdir dir name x) ⟨hname.dot, hname.short, hlawful⟩
            (fun e he => (hlawful e he).1) trivial hd (by rw [Op.moved, hplace]; rfl)
            fun _ _ _ h => by cases h
      refine hcall.mono ?_
      rintro r t ⟨c', T', hc, hbehind, hdoes⟩
      exact ⟨c', T', hc, hbehind, .inr ⟨new, hdoes⟩⟩

/-- The inode of the name that is removed is in memory. -/
theorem Both.Behind.removes_in (h : c.Behind disk T) (hplace : c.place id = some id')
    (hchild : T.child dir name.bytes = some id) : ∀ k n i, some (dir, name) = some (k, n) →
      c.kept.dcache k n = some i → c.place i ≠ none := by
  intro k n i hk hi
  obtain ⟨rfl, rfl⟩ := Prod.mk.inj (Option.some.inj hk)
  rw [h.tracks.dentry, hchild] at hi
  obtain rfl := Option.some.inj hi
  rw [hplace]
  exact Option.some_ne_none _

theorem Inode.Like.shape {P : Int → Prop} (h : nd.Like nd') (hp : nd.Prefix P) : nd'.Prefix P := by
  refine ⟨by rw [h.blockCount]; exact hp.count_nonneg, by rw [h.blockCount]; exact hp.count_le,
    fun i hi => ?_, fun i hi hlt => ?_⟩
  · rw [h.blockCount] at hi
    have hle := hp.count_le
    rw [h.blockPointers i (by omega)]
    exact hp.below i hi
  · rw [h.blockCount] at hi
    rw [h.blockPointers i hlt]
    exact hp.above i hi hlt

theorem Inode.Like.sized (h : nd.Like nd') (hs : nd.Sized) : nd'.Sized :=
  ⟨by rw [h.iSize]; exact hs.nonneg, by rw [h.iSize, h.blockCount]; exact hs.le_blocks⟩

/-- A system call in the session. -/
theorem Both.Behind.runs (hgood : Disk.Good disk) (h : c.Behind disk T) {q : Syscall}
    (hans : ans.Prompt) (hnames : ∀ name, name ∈ q.names → name.Plain)
    (hroom : ∀ path name x, q = .create path name x ∨ q = .mkdir path name x →
      ∀ d', c.evicted.inodes id' = some d' → c.evicted.Room d')
    (hrange : ∀ path data pos, q = .write path data pos → pos + data.length < 2 ^ 63)
    (hat : T.locate q = .ok id) (hplace : c.place id = some id')
    (hnd : c.kept.inodes id = some nd) :
    (q.run id').Total ans c.evicted fun r t => ∃ (c' : Both) (T' : Tree), c'.evicted = t ∧
      c'.Behind disk T' ∧ T.Runs q id r T' := by
  have hisDir := h.tracks.toShows.isDir_eq hnd
  cases q with
  | create path name perm =>
      have hdir : nd.isDir = true := hisDir.symm.trans (Tree.isDir_of_placeAt hat)
      refine .bind (h.make hgood hans.toReliable (hnames name (by simp [Syscall.names]))
        (hroom _ _ _ (.inl rfl)) hplace hnd hdir (.inl rfl)) fun r t hr => .pure ?_
      obtain ⟨c', T', hc, hbehind, ⟨k, hk, rfl, rfl⟩ | ⟨hnew, hdoes⟩⟩ := hr
      · exact ⟨c', _, hc, hbehind, .createExists hk⟩
      · exact ⟨c', T', hc, hbehind, .create hnew hdoes⟩
  | mkdir path name mode =>
      have hdir : nd.isDir = true := hisDir.symm.trans (Tree.isDir_of_placeAt hat)
      refine .bind (h.make hgood hans.toReliable (hnames name (by simp [Syscall.names]))
        (hroom _ _ _ (.inr rfl)) hplace hnd hdir (.inr rfl)) fun r t hr => .pure ?_
      obtain ⟨c', T', hc, hbehind, ⟨k, hk, rfl, rfl⟩ | ⟨hnew, hdoes⟩⟩ := hr
      · exact ⟨c', _, hc, hbehind, .mkdirExists hk⟩
      · exact ⟨c', T', hc, hbehind, .mkdir hnew hdoes⟩
  | unlink path name =>
      have hdir : nd.isDir = true := hisDir.symm.trans (Tree.isDir_of_placeAt hat)
      have hname : name.Plain := hnames name (by simp [Syscall.names])
      -- the name is walked to first, so its inode is in memory in the session too
      have hunlink : (withName id' name (fun k => do
          let nd ← inode k
          if nd.isDir then pure (-EISDIR) else (Op.unlink id' name).prog) (pure (-ENOENT))).Total
          ans c.evicted fun r t => ∃ (c' : Both) (T' : Tree), c'.evicted = t ∧
            c'.Behind disk T' ∧ T.Runs (.unlink path name) id (r, []) T' := by
        refine .bind (h.lookup hgood.guarded hans.toReliable hname hplace hnd hdir) fun r t hr => ?_
        cases hr with
        | absent new => exact .pure ⟨c, T, rfl, h, .unlink (.unlinkAbsent new)⟩
        | @found k k' c' child behind kept place stays =>
            obtain ⟨e, he⟩ := behind.tracks.exists_node child
            obtain ⟨e', he', hlike⟩ := behind.inv.beside.toSameInodes.node place he
            have hedir := behind.tracks.toShows.isDir_eq he
            refine .bind_of (exec_inode he') (.ite (fun hd => .pure ?_) fun hd => ?_)
            · exact ⟨c', T, rfl, behind, .unlinkDir child (by rw [hedir, ← hlike.isDir, hd])⟩
            · have hfile : e.isDir = false := by
                rw [← hlike.isDir]
                simpa using hd
              refine (behind.call hgood hans.reads (.unlink id name) ⟨hname.short,
                fun i ni hi hni => ?_⟩ trivial trivial (kept ▸ hnd) (by rw [Op.moved, stays]; rfl)
                (behind.removes_in place child)).mono ?_
              · rw [behind.tracks.dentry, child] at hi
                obtain rfl := Option.some.inj hi
                obtain rfl := Option.some.inj (he.symm.trans hni)
                exact hfile
              · rintro r t ⟨c'', T', hc, hbehind, hdoes⟩
                exact ⟨c'', T', hc, hbehind, .unlink hdoes⟩
      exact .bind hunlink fun r t hr => .pure hr
  | rmdir path name =>
      have hdir : nd.isDir = true := hisDir.symm.trans (Tree.isDir_of_placeAt hat)
      have hname : name.Plain := hnames name (by simp [Syscall.names])
      have hrmdir : (withName id' name (fun _ => (Op.rmdir id' name).prog) (pure (-ENOENT))).Total
          ans c.evicted fun r t => ∃ (c' : Both) (T' : Tree), c'.evicted = t ∧
            c'.Behind disk T' ∧ T.Runs (.rmdir path name) id (r, []) T' := by
        refine .bind (h.lookup hgood.guarded hans.toReliable hname hplace hnd hdir) fun r t hr => ?_
        cases hr with
        | absent new => exact .pure ⟨c, T, rfl, h, .rmdir (.rmdirAbsent new)⟩
        | @found k k' c' child behind kept place stays =>
            refine (behind.call hgood hans.reads (.rmdir id name) hname.short trivial
              trivial (kept ▸ hnd) (by rw [Op.moved, stays]; rfl)
              (behind.removes_in place child)).mono ?_
            rintro r t ⟨c'', T', hc, hbehind, hdoes⟩
            exact ⟨c'', T', hc, hbehind, .rmdir hdoes⟩
      exact .bind hrmdir fun r t hr => .pure hr
  | write path data pos =>
      have hfile : nd.isDir = false := hisDir.symm.trans (Tree.not_isDir_of_placeAt hat)
      have honly : ∀ e, c.kept.inodes id = some e → e.isDir = false := by
        intro e he
        obtain rfl := Option.some.inj (hnd.symm.trans he)
        exact hfile
      have hlt := hrange path data pos rfl
      refine .bind (h.call hgood hans.reads (.write id data pos) honly ⟨honly, hlt⟩ hlt hnd
        (by rw [Op.moved, hplace]; rfl) fun _ _ _ h => by cases h) fun r t hr => .pure ?_
      obtain ⟨c', T', hc, hbehind, hdoes⟩ := hr
      exact ⟨c', T', hc, hbehind, .write hdoes⟩
  | read path len pos =>
      have hfile : nd.isDir = false := hisDir.symm.trans (Tree.not_isDir_of_placeAt hat)
      have hread : ReadsOk ans := ⟨fun _ _ => hans.reads _ _ _, hans.copy⟩
      -- the kept run says which bytes are read, and the session reads the same
      have hkept := exec_naiveFileRead hread hnd (h.tracks.filed.shape hgood.guarded hnd)
        (h.tracks.filed.sized id nd hnd hfile) len pos
      obtain ⟨_, t, hexec, rfl, -⟩ :=
        Alongside.naiveFileRead hplace len ans _ _ h.inv.beside _ _ hkept
      obtain ⟨nd', hnd', hlike⟩ := h.inv.beside.toSameInodes.node hplace hnd
      have hshape := h.tracks.filed.shape hgood.guarded hnd
      have hevicted := exec_naiveFileRead hread hnd' (hlike.shape hshape)
        (hlike.sized (h.tracks.filed.sized id nd hnd hfile)) len pos
      obtain ⟨-, rfl⟩ := Prod.mk.inj (Except.ok.inj (hexec.symm.trans hevicted))
      exact .bind_of hexec (.pure ⟨c, T, rfl, h, .read (.read (h.tracks.node_file hnd hfile))⟩)

/-- What the device holds of a file that can be evicted. -/
theorem FS.Evictable.storable (h : s.Evictable id nd) (hshape : nd.Prefix (Disk.InData disk))
    (hdata : 0 < Disk.dataStart disk) (hsize : nd.Sized) : nd.Storable := by
  have hlow := hsize.nonneg
  have hhigh := hsize.le_blocks
  have hcount := hshape.count_le
  have hpos := hshape.count_nonneg
  have htotal := Disk.totalBlocks_lt disk
  refine ⟨⟨h.mode, h.uid, h.gid, h.nlink, ⟨hlow, ?_⟩, ⟨by omega, hcount⟩, fun i hi => ?_⟩,
    fun hdir => ?_, hshape.above⟩
  · unfold naiveBlockSize at hhigh
    omega
  · rcases Int.lt_or_le (i : Int) nd.blockCount with hlt | hge
    · obtain ⟨h1, h2⟩ := hshape.below i hlt
      omega
    · rw [hshape.above i hge hi]
      omega
  · rw [h.file] at hdir
    cases hdir

/-- What an eviction leaves as it is. -/
theorem evictInode_frame (hexec : (evictInode id).exec ans s = .ok ((), t)) :
    t.disk = s.disk ∧ (s.Rooted → id ≠ 0 → t.Rooted) := by
  have hdrop (u : FS) (hu : u.Rooted) (hid : id ≠ 0) : (u.evict id).Rooted := by
    refine FS.Rooted.dropInode (s := u.dropDentries id) ⟨hu.sRoot, hu.pos, hu.root, ?_⟩ hid
    intro dir name k hk
    have hk' : (if u.dcache dir name = some id then none else u.dcache dir name) = some k := hk
    split at hk'
    · cases hk'
    · exact hu.dentry dir name k hk'
  obtain ⟨nd, hnd⟩ := exec_inode_bind_ok hexec
  rw [NaiveFS.evictInode, exec_bind_of (exec_inode hnd)] at hexec
  split at hexec
  · obtain ⟨r, u, hwrite, hend⟩ := exec_bind_ok.mp hexec
    cases hend
    rcases naiveWriteInode_cases hnd hwrite with ⟨-, rfl⟩ | ⟨v, -, -, rfl⟩
    · exact ⟨rfl, hdrop _⟩
    · exact ⟨rfl, fun h => hdrop _ (h.same _ ⟨rfl, rfl, rfl, rfl⟩)⟩
  · cases hexec
    exact ⟨rfl, hdrop _⟩

/-- The root of the session is the first inode. -/
theorem Both.Behind.place_ne_zero (h : c.Behind disk T) (hplace : c.place id = some id')
    (hne : id ≠ 0) : id' ≠ 0 := by
  rintro rfl
  exact hne (h.inv.ok.inj id 0 0 hplace h.root)

/-- An eviction that keeps the invariant leaves the tree. -/
theorem Both.Behind.dropped (h : c.Behind disk T) (hplace : c.place id = some id') (hne : id ≠ 0)
    (hexec : (evictInode id').exec ans c.evicted = .ok ((), t))
    (hinv : Both.Inv disk ⟨c.kept, t, Function.update c.place id none,
      Function.update c.saved id (c.evicted.inodes id')⟩) :
    Both.Behind disk T ⟨c.kept, t, Function.update c.place id none,
      Function.update c.saved id (c.evicted.inodes id')⟩ := by
  obtain ⟨hdisk, hhome⟩ := evictInode_frame hexec
  have hstays : Function.update c.place id none 0 = some 0 := by
    rw [Function.update_of_ne (Ne.symm hne), h.root]
  exact ⟨hinv, h.tracks, h.steady, hstays, hhome h.home (h.place_ne_zero hplace hne), h.above,
    fun b hb hb' => by rw [hdisk]; exact h.device b hb hb'⟩

/-- No name is below a file. -/
theorem Both.Behind.leaf (h : c.Behind disk T) (hnd : c.kept.inodes id = some nd)
    (hfile : nd.isDir = false) (name : Name) : c.kept.dcache id name = none := by
  rw [h.tracks.dentry]
  exact T.child_of_file (h.tracks.node_file hnd hfile) name.bytes

/-- A file that can be evicted fits its record. -/
theorem Both.Behind.storable (hg : Disk.Guarded (· = naiveSuperBlockBlock) disk)
    (h : c.Behind disk T) (hplace : c.place id = some id')
    (hevictable : c.evicted.Evictable id' nd) : nd.Storable := by
  obtain ⟨nd₀, hnd₀, hlike⟩ := h.inv.kept_of_place hplace hevictable.node
  have hfile : nd₀.isDir = false := by rw [← hlike.isDir, hevictable.file]
  exact hevictable.storable
    (hlike.shape ((h.steady.mapped.node id nd₀ hnd₀).mono fun _ hp => hp.1)) hg.start
    (hlike.sized (h.tracks.filed.sized id nd₀ hnd₀ hfile))

/-- An eviction leaves the tree. -/
theorem Both.Behind.evict (hgood : Disk.Good disk) (h : c.Behind disk T)
    (hans : ans.Reliable) (hevictable : c.evicted.Evictable id' nd) :
    (evictInode id').Total ans c.evicted fun _ t => ∃ c' : Both, c'.evicted = t ∧
      c'.Behind disk T := by
  have hin : c.evicted.inodes id' ≠ none := by simp [hevictable.node]
  obtain ⟨id, hplace⟩ := h.inv.beside.only id' hin
  obtain ⟨nd₀, hnd₀, hlike⟩ := h.inv.kept_of_place hplace hevictable.node
  have hfile : nd₀.isDir = false := by rw [← hlike.isDir, hevictable.file]
  have hne : id ≠ 0 := by
    rintro rfl
    obtain ⟨d, hd, hdir⟩ := h.inv.rooted.root
    obtain rfl := Option.some.inj (hd.symm.trans hnd₀)
    rw [hdir] at hfile
    cases hfile
  have hroot : id ≠ c.kept.sRoot := by rwa [h.inv.rooted.sRoot]
  have hleaf := h.leaf hnd₀ hfile
  have hstorable := h.storable hgood.guarded hplace hevictable
  have hevicted : ∃ t, (evictInode id').exec ans c.evicted = .ok ((), t) ∧
      Both.Inv disk ⟨c.kept, t, Function.update c.place id none,
        Function.update c.saved id (c.evicted.inodes id')⟩ := by
    cases hdirty : nd.iDirty with
    | false =>
        exact h.inv.evict_clean hplace hroot hleaf hevictable.node hdirty (hevictable.stored hdirty)
    | true =>
        exact h.inv.evict_dirty hgood.laid hplace hroot hleaf hans hevictable.node hdirty hstorable
  obtain ⟨t, hexec, hinv⟩ := hevicted
  exact .of_exec hexec ⟨_, rfl, h.dropped hplace hne hexec hinv⟩

/-- The superblock and the bitmaps in the buffers are those of the device. -/
theorem Both.Behind.cache (hgood : Disk.Good disk) (h : c.Behind disk T) {b : Nat} (hb : 1 ≤ b)
    (hb' : b < 4) : c.evicted.cache b = disk b := by
  by_cases htable : Disk.Table disk b
  · rcases htable with rfl | ⟨v, hv, hvb⟩
    · exact h.inv.beside.onDevice h.inv.ok
    · have hfour := hv.four_le hgood.laid
      omega
  · exact (h.inv.beside.data b htable).trans (h.above.cache b hb hb')

/-- A buffer that is written leaves everything but the device. -/
theorem Both.Behind.flush (hgood : Disk.Good disk) (h : c.Behind disk T) (b : Nat) :
    ∃ c' : Both, c'.evicted = c.evicted.flush b ∧ c'.Behind disk T := by
  unfold FS.flush
  split
  · refine ⟨{ c with evicted := _ }, rfl, ⟨h.inv.ok, ⟨h.inv.beside.toSameData.congr ⟨rfl, rfl⟩
      ⟨rfl, rfl⟩, h.inv.beside.toSameInodes.congr ⟨rfl, rfl⟩ ⟨rfl, rfl⟩, h.inv.beside.dcache,
      h.inv.beside.bare, h.inv.beside.named, h.inv.beside.named'⟩, h.inv.rooted, h.inv.numbered,
      h.inv.valid, h.inv.apart, h.inv.once, h.inv.out, h.inv.saved, h.inv.savedNew,
      h.inv.savedRoot⟩, h.tracks, h.steady, h.root, h.home.same _ ⟨rfl, rfl, rfl, rfl⟩, h.above,
      fun k hk hk' => ?_⟩
    show Function.update c.evicted.disk b (c.evicted.cache b) k = disk k
    by_cases hkb : k = b
    · rw [hkb, Function.update_self]
      exact h.cache hgood (hkb ▸ hk) (hkb ▸ hk')
    · rw [Function.update_of_ne hkb]
      exact h.device k hk hk'
  · exact ⟨c, rfl, h⟩

end Calls

/-! ## Sessions -/

section Sessions

variable {disk : Nat → Bytes} {s s0 : FS} {es : List PathEvent}

/-- The runs begin with the root alone. -/
theorem Both.Behind.start (hgood : Disk.Good disk) (h0 : Mounted disk s0) :
    (Both.start s0).Behind disk (Hierarchy.bare 0) := by
  have htracks := tracks_mounted hgood.numbers h0
  have hinv := Both.Inv.start hgood.laid hgood.reserved h0
  obtain ⟨_, ts, rfl⟩ := mounted_eq h0
  exact ⟨hinv, htracks, steady_mounted disk ts, rfl, rooted_mounted disk ts,
    above_mounted disk ts, fun _ _ _ => rfl⟩

end Sessions

/-! ### A session -/

/-- `Syscall.Fits`, computed. -/
def Syscall.fitsIf (ans : Answers) (s : FS) (q : Syscall) : Bool :=
  q.names.all (fun n => decide (¬ IsDot n.bytes ∧ n.bytes.length ≤ 127)) &&
  match q with
  | .create path .. | .mkdir path .. =>
    match (dirAt path).exec ans s with
    | .ok (.ok dir, t) => (t.inodes dir).all fun d => decide (t.Room d)
    | _ => true
  | .write _ data pos => decide (pos + data.length < 2 ^ 63)
  | _ => true

/-- The inode is that of a file, is marked dirty and has fields of their C types. -/
def FS.evictableIf (s : FS) (id : Nat) : Bool :=
  (s.inodes id).any fun nd => decide (nd.isDir = false ∧ nd.iMode < 2 ^ 16 ∧ nd.iUid < 2 ^ 32 ∧
    nd.iGid < 2 ^ 32 ∧ nd.iNlink < 2 ^ 32 ∧ nd.iDirty = true)

/-- A system call, the eviction of an inode, or the writing of a buffer. -/
inductive Command where
  | call (q : Syscall)
  | evict (id : Nat)
  | flush (b : Nat)

/-- Run a list of commands, with what they return. -/
def FS.served (s : FS) (ans : Answers) : List Command → Option (List PathEvent × FS)
  | [] => some ([], s)
  | .call q :: rest =>
    match q.prog.exec ans s with
    | .ok (r, t) =>
      if q.fitsIf ans s then (t.served ans rest).map fun x => (.call q r :: x.1, x.2) else none
    | .error _ => none
  | .evict id :: rest =>
    match (evictInode id).exec ans s with
    | .ok (_, t) =>
      if s.evictableIf id then (t.served ans rest).map fun x => (.evict :: x.1, x.2) else none
    | .error _ => none
  | .flush b :: rest => ((s.flush b).served ans rest).map fun x => (.flush :: x.1, x.2)

end NaiveFS
