/-
  Mounting and unmounting, step by step.

  Source: `bldms.c`, `bldms_fs_fill_super`, `free_data_structures`, `bldms_fs_kill_sb`, `bldms_fs_mount`.

  All state of the driver is global, so a mount that fails matters by what it leaves behind: `fillSuper` is
  `bldmsFsFillSuper` with the globals it leaves on every path, and a mount is taken apart into the steps
  other threads can see:
  * `mountBdev`         — the kernel's `mount_bdev` of a device without a superblock: `fill_super`, and
                          `kill_sb` when it fails;
  * `captureSuperblock` — the superblock is looked up for the system calls;
  * `killSb`            — the unmount.
  `bldmsFsMount_steps` says that the steps in a row are `bldmsFsMount`.

  The clean-up loop of `fill_super` follows a link that `list_del` has poisoned: with an empty list it does
  nothing, with a node in it the thread dies after the first one.  `MountEnv.FailsLate` is the condition on
  what comes from outside under which that happens.  That `free_data_structures` empties the list is taken
  from it as it is meant here; the memory that its loop goes through is in `Teardown` and `FailedMount`.
-/
import Bldms.Invariant

namespace Bldms

/-! ## The steps -/

namespace Driver

/-- `free_data_structures`. -/
def freeDataStructures (d : Driver) : Driver :=
  { d with
    validBlkList := []
    metadataArray := []
    mdArraySize := 0
    theDevSuperblock := none
    bldmsMounted := false }

/-- `bldms_fs_kill_sb`: for the superblock of any device, the same globals are cleared. -/
def killSb (d : Driver) : Driver := d.freeDataStructures

end Driver

/-- `bldms_fs_fill_super`: what it returns, and the globals it leaves. -/
def fillSuper (nblocks : Nat) (env : MountEnv) (sb : Nat) (d : Driver) : Ret Unit × Driver :=
  if ¬ env.breadSb then (.oops, d)
  else if sbMagic (d.disk sb sbBlockNumber) ≠ magicNumber then (.err .ebadf, d)
  else if ¬ env.igetRoot then (.err .enomem, d)
  else if ¬ env.makeRoot then (.err .enomem, d)
  else if ¬ env.breadInode then (.err .eio, d)
  else
    let fileSize := inodeFileSize (d.disk sb bldmsInodesBlockNumber)
    if fileSize > sizeLimit nblocks then (.err .e2big, d)
    else
      -- the size and the array are the new device's from here on, whatever happens
      let n := fileSize / defaultBlockSize
      if ¬ env.allocArray then (.err .einval, { d with metadataArray := [], mdArraySize := n })
      else match scan env (d.disk sb) ⟨[], d.validBlkList⟩ 0 n with
        | .error (e, s) =>
          if s.list = [] then (.err e, { d with metadataArray := [], mdArraySize := n })
          -- the first node is unlinked and released, and its link followed
          else (.oops, { d with metadataArray := s.arr, mdArraySize := n, validBlkList := s.list.tail })
        | .ok s => (.ok (),
          { d with
            metadataArray := s.arr
            mdArraySize := n
            validBlkList := s.list
            lastWrittenBlock := initialLastWritten s.list n
            bldmsMounted := true })

/-- `mount_bdev` of a device that has no superblock yet. -/
def mountBdev (nblocks : Nat) (env : MountEnv) (sb : Nat) (d : Driver) : Ret Unit × Driver :=
  match fillSuper nblocks env sb d with
  | (.ok (), d') => (.ok (), d')
  | (.err e, d') => (.err e, d'.killSb)
  | (.oops, d') => (.oops, d')

/-- The rest of `bldms_fs_mount`: the reference to the device and its superblock. -/
def captureSuperblock (getDevice : Bool) (sb : Nat) (d : Driver) : Ret Unit × Driver :=
  if ¬ getDevice then (.err .einval, d.freeDataStructures)
  else (.ok (), { d with theDevSuperblock := some sb })

/-- A result with the state that goes with it. -/
def Ret.withState (r : Ret Unit × Driver) : Ret Driver :=
  match r.1 with
  | .ok () => .ok r.2
  | .err e => .err e
  | .oops => .oops

theorem fillSuper_withState (nblocks : Nat) (env : MountEnv) (sb : Nat) (d : Driver) :
    Ret.withState (fillSuper nblocks env sb d) = bldmsFsFillSuper nblocks env sb d := by
  unfold fillSuper bldmsFsFillSuper
  by_cases hsb : ¬ env.breadSb = true
  · rw [if_pos hsb, if_pos hsb]
    rfl
  rw [if_neg hsb, if_neg hsb]
  by_cases hmagic : sbMagic (d.disk sb sbBlockNumber) ≠ magicNumber
  · rw [if_pos hmagic, if_pos hmagic]
    rfl
  rw [if_neg hmagic, if_neg hmagic]
  by_cases higet : ¬ env.igetRoot = true
  · rw [if_pos higet, if_pos higet]
    rfl
  rw [if_neg higet, if_neg higet]
  by_cases hroot : ¬ env.makeRoot = true
  · rw [if_pos hroot, if_pos hroot]
    rfl
  rw [if_neg hroot, if_neg hroot]
  by_cases hinode : ¬ env.breadInode = true
  · rw [if_pos hinode, if_pos hinode]
    rfl
  rw [if_neg hinode, if_neg hinode]
  dsimp only
  split
  · rfl
  split
  · rfl
  generalize inodeFileSize (d.disk sb bldmsInodesBlockNumber) / defaultBlockSize = n
  rcases scan env (d.disk sb) ⟨[], d.validBlkList⟩ 0 n with ⟨e, s⟩ | s
  · dsimp only
    split <;> rfl
  · rfl

/-- The steps in a row are the mount. -/
theorem bldmsFsMount_steps (nblocks : Nat) (env : MountEnv) (sb : Nat) (d : Driver) :
    bldmsFsMount nblocks env sb d =
      if d.bldmsMounted then .err .ebusy
      else match mountBdev nblocks env sb d with
        | (.ok (), d₁) => Ret.withState (captureSuperblock env.getDevice sb d₁)
        | (.err e, _) => .err e
        | (.oops, _) => .oops := by
  unfold bldmsFsMount mountBdev
  rw [← fillSuper_withState]
  split
  · rfl
  rcases fillSuper nblocks env sb d with ⟨_ | e | _, d₁⟩
  · show (if ¬ env.getDevice then _ else _) = Ret.withState (captureSuperblock env.getDevice sb d₁)
    unfold captureSuperblock
    split <;> rfl
  · rfl
  · rfl

/-! ## A scan that fails late -/

namespace MountEnv

/-- The pass of the scan for block `i` fails. -/
def failsAt (env : MountEnv) (dev : Device) (i : Nat) : Bool :=
  (env.allocMd i).isNone || !env.bread i || ((dev (i + 2)).metadata.isValid && !env.allocElem i)

/-- The scan of `n` blocks fails, and the blocks before the one it fails at are not all invalid. -/
def FailsLate (env : MountEnv) (dev : Device) (n : Nat) : Prop :=
  ∃ i, i < n ∧ env.failsAt dev i = true ∧ (∀ j, j < i → env.failsAt dev j = false) ∧
    ∃ j, j < i ∧ (dev (j + 2)).metadata.isValid = true

end MountEnv

theorem scanStep_fails {env : MountEnv} {dev : Device} {s : Scan} {i : Nat} {f : Errno × Scan}
    (h : scanStep env dev s i = .error f) : env.failsAt dev i = true ∧ f.2.list = s.list := by
  unfold scanStep at h
  split at h
  · rename_i hmd
    obtain rfl := (Except.error.inj h).symm
    exact ⟨by simp [MountEnv.failsAt, hmd], rfl⟩
  split at h
  · rename_i hbread
    obtain rfl := (Except.error.inj h).symm
    exact ⟨by simp [MountEnv.failsAt, hbread], rfl⟩
  dsimp only at h
  split at h
  · rename_i hv
    split at h
    · rename_i hel
      obtain rfl := (Except.error.inj h).symm
      exact ⟨by simp [MountEnv.failsAt, hv, hel], rfl⟩
    · nomatch h
  · nomatch h

theorem scanStep_passes {env : MountEnv} {dev : Device} {s s' : Scan} {i : Nat}
    (h : scanStep env dev s i = .ok s') : env.failsAt dev i = false := by
  unfold scanStep at h
  split at h
  · nomatch h
  rename_i id hmd
  split at h
  · nomatch h
  rename_i hbread
  have hread : env.bread i = true := not_not.mp hbread
  dsimp only at h
  split at h
  · rename_i hv
    split at h
    · nomatch h
    rename_i helem
    have halloc : env.allocElem i = true := not_not.mp helem
    simp [MountEnv.failsAt, hmd, hread, halloc]
  · rename_i hv
    have hinvalid : (dev (i + 2)).metadata.isValid = false := Bool.eq_false_iff.mpr hv
    simp [MountEnv.failsAt, hmd, hread, hinvalid]

/-- Where a scan that fails has failed, and where its nodes come from. -/
theorem scan_fails {env : MountEnv} {dev : Device} :
    ∀ {n i : Nat} {s : Scan} {f : Errno × Scan}, scan env dev s i n = .error f →
      ∃ k, i ≤ k ∧ k < i + n ∧ env.failsAt dev k = true ∧
        (∀ j, i ≤ j → j < k → env.failsAt dev j = false) ∧
        (f.2.list ≠ [] → s.list ≠ [] ∨ ∃ j, j < k ∧ (dev (j + 2)).metadata.isValid = true) := by
  intro n
  induction n with
  | zero => intro i s f h; cases h
  | succ n ih =>
    intro i s f h
    rw [scan] at h
    cases hstep : scanStep env dev s i with
    | error g =>
      rw [hstep] at h
      obtain rfl := Except.error.inj h
      obtain ⟨hfails, hlist⟩ := scanStep_fails hstep
      exact ⟨i, by omega, by omega, hfails, fun j h₁ h₂ => by omega, fun hne => .inl (hlist ▸ hne)⟩
    | ok s₁ =>
      rw [hstep] at h
      obtain ⟨k, hik, hkn, hfails, hbefore, hsource⟩ := ih h
      refine ⟨k, by omega, by omega, hfails, ?_, ?_⟩
      · intro j hij hjk
        rcases Nat.eq_or_lt_of_le hij with rfl | hlt
        · exact scanStep_passes hstep
        · exact hbefore j hlt hjk
      · intro hne
        rcases hsource hne with hs₁ | hvalid
        · obtain ⟨-, -, -, hlist⟩ := scanStep_ok hstep
          rw [hlist] at hs₁
          split at hs₁
          · rename_i hv
            exact .inr ⟨i, by omega, hv⟩
          · exact .inl hs₁
        · exact .inr hvalid

/-! ## The driver between mounts -/

/-- Nothing is mounted, and nothing is left of a former mount. -/
structure Idle (d : Driver) : Prop where
  unmounted : d.bldmsMounted = false
  list : d.validBlkList = []
  array : d.metadataArray = []
  size : d.mdArraySize = 0
  super : d.theDevSuperblock = none

theorem idle_freeDataStructures (d : Driver) : Idle d.freeDataStructures := ⟨rfl, rfl, rfl, rfl, rfl⟩

/-- The list and the array hold exactly the blocks of the device `sb`: every block has its entry, and the
    valid ones, once each, their node. -/
structure Describes (sb : Nat) (d : Driver) : Prop where
  size : d.mdArraySize = d.blockCount sb
  array : d.metadataArray.map MdEntry.blk =
    (List.range (d.blockCount sb)).map fun i => (d.disk sb (i + 2)).metadata
  nodup : (d.validBlkList.map RcuElem.ndx).Nodup
  list : ∀ el, el ∈ d.validBlkList ↔ el.ndx < d.blockCount sb ∧
    (d.disk sb (el.ndx + 2)).metadata.isValid = true ∧ el = elemOf el.ndx (d.disk sb (el.ndx + 2)).metadata

theorem Inv.describes {sb : Nat} {d : Driver} (hI : Inv sb (d.blockCount sb) d) : Describes sb d :=
  ⟨hI.size, hI.array_eq, List.pairwise_map.mpr hI.distinct, hI.mem_iff⟩

/-- The checks before the scan pass, and the array is allocated: the data blocks are going to be scanned. -/
structure Scanned (nblocks : Nat) (env : MountEnv) (sb : Nat) (d : Driver) : Prop where
  breadSb : env.breadSb = true
  magic : sbMagic (d.disk sb 0) = magicNumber
  igetRoot : env.igetRoot = true
  makeRoot : env.makeRoot = true
  breadInode : env.breadInode = true
  size : inodeFileSize (d.disk sb 1) ≤ sizeLimit nblocks
  allocArray : env.allocArray = true

/-- The mount fails in its scan, after a block has been listed. -/
def ScanFailsLate (nblocks : Nat) (env : MountEnv) (sb : Nat) (d : Driver) : Prop :=
  Scanned nblocks env sb d ∧ env.FailsLate (d.disk sb) (d.blockCount sb)

/-- The mount is accepted, and every pass of its scan goes through. -/
def Mountable (nblocks : Nat) (env : MountEnv) (sb : Nat) (d : Driver) : Prop :=
  Scanned nblocks env sb d ∧ ∀ i, i < d.blockCount sb → env.failsAt (d.disk sb) i = false

/-- The ways `fill_super` goes:
    * `unread`  — the read of the superblock fails, and its result is dereferenced;
    * `refused` — an error number; only the array and its size may have changed;
    * `late`    — the scan fails, and the clean-up takes the thread down with nodes in the list;
    * `filled`  — the scan completes. -/
inductive FillCase (nblocks : Nat) (env : MountEnv) (sb : Nat) (d : Driver) : Ret Unit × Driver → Prop
  | unread : FillCase nblocks env sb d (.oops, d)
  | refused (e : Errno) (arr : List MdEntry) (n : Nat) :
      FillCase nblocks env sb d (.err e, { d with metadataArray := arr, mdArraySize := n })
  | late {d' : Driver} {f : Errno × Scan} : Scanned nblocks env sb d →
      scan env (d.disk sb) ⟨[], d.validBlkList⟩ 0 (d.blockCount sb) = .error f → f.2.list ≠ [] →
      FillCase nblocks env sb d (.oops, d')
  | filled {d' : Driver} {s : Scan} : Scanned nblocks env sb d →
      scan env (d.disk sb) ⟨[], d.validBlkList⟩ 0 (d.blockCount sb) = .ok s →
      bldmsFsFillSuper nblocks env sb d = .ok d' → FillCase nblocks env sb d (.ok (), d')

/-- Everything `fill_super` can do; no other proof looks into it. -/
theorem fillCase_fillSuper (nblocks : Nat) (env : MountEnv) (sb : Nat) (d : Driver) :
    FillCase nblocks env sb d (fillSuper nblocks env sb d) := by
  have hstate := fillSuper_withState nblocks env sb d
  unfold fillSuper at hstate ⊢
  split
  · exact .unread
  rename_i hsb
  split
  · exact .refused _ d.metadataArray d.mdArraySize
  rename_i hmagic
  split
  · exact .refused _ d.metadataArray d.mdArraySize
  rename_i higet
  split
  · exact .refused _ d.metadataArray d.mdArraySize
  rename_i hroot
  split
  · exact .refused _ d.metadataArray d.mdArraySize
  rename_i hinode
  rw [if_neg hsb, if_neg hmagic, if_neg higet, if_neg hroot, if_neg hinode] at hstate
  dsimp only at hstate ⊢
  split
  · exact .refused _ d.metadataArray d.mdArraySize
  rename_i hsize
  split
  · exact .refused _ _ _
  rename_i halloc
  rw [if_neg hsize, if_neg halloc] at hstate
  have hscanned : Scanned nblocks env sb d :=
    ⟨not_not.mp hsb, not_not.mp hmagic, not_not.mp higet, not_not.mp hroot, not_not.mp hinode,
      Nat.le_of_not_lt hsize, not_not.mp halloc⟩
  have hcount : inodeFileSize (d.disk sb bldmsInodesBlockNumber) / defaultBlockSize = d.blockCount sb := rfl
  rw [hcount] at hstate ⊢
  cases hscan : scan env (d.disk sb) ⟨[], d.validBlkList⟩ 0 (d.blockCount sb) with
  | error f =>
    dsimp only
    split
    · exact .refused _ _ _
    · rename_i hne
      exact .late hscanned hscan hne
  | ok s =>
    rw [hscan] at hstate
    exact .filled hscanned hscan hstate.symm

/-- A scan that completes went through every pass. -/
theorem scan_passes {env : MountEnv} {dev : Device} :
    ∀ {n i : Nat} {s s' : Scan}, scan env dev s i n = .ok s' →
      ∀ j, i ≤ j → j < i + n → env.failsAt dev j = false := by
  intro n
  induction n with
  | zero => intro i s s' _ j h₁ h₂; omega
  | succ n ih =>
    intro i s s' h j h₁ h₂
    rw [scan] at h
    cases hstep : scanStep env dev s i with
    | error f => rw [hstep] at h; cases h
    | ok s₁ =>
      rw [hstep] at h
      rcases Nat.eq_or_lt_of_le h₁ with rfl | hlt
      · exact scanStep_passes hstep
      · exact ih h j hlt (by omega)

/-- What a mount leaves an idle driver in, if its scan does not fail late: the list and the array of the
    device, still without the superblock, or an idle driver. -/
theorem Idle.mountBdev_cases {nblocks : Nat} (hfits : nblocks * 4096 < 2 ^ 31) {d : Driver} (hd : Idle d)
    {env : MountEnv} {sb : Nat} (hlate : ¬ ScanFailsLate nblocks env sb d) :
    (∃ d', mountBdev nblocks env sb d = (.ok (), d') ∧ Mountable nblocks env sb d ∧ d'.disk = d.disk ∧
      d'.theDevSuperblock = none ∧ Inv sb (d.blockCount sb) { d' with theDevSuperblock := some sb }) ∨
    ∃ r d', mountBdev nblocks env sb d = (r, d') ∧ r ≠ .ok () ∧ d'.disk = d.disk ∧ Idle d' := by
  have hcase := fillCase_fillSuper nblocks env sb d
  unfold mountBdev
  generalize fillSuper nblocks env sb d = out at hcase ⊢
  cases hcase with
  | unread => exact .inr ⟨.oops, d, rfl, by simp, rfl, hd⟩
  | refused e arr n => exact .inr ⟨.err e, _, rfl, by simp, rfl, idle_freeDataStructures _⟩
  | late hscanned hscan hne =>
    -- the list was empty before the scan, so what it holds comes from a valid block
    rw [hd.list] at hscan
    obtain ⟨k, -, hk, hfails, hbefore, hsource⟩ := scan_fails hscan
    rcases hsource hne with hs | hvalid
    · exact absurd rfl hs
    · exact absurd ⟨hscanned, k, by omega, hfails, fun j hj => hbefore j (Nat.zero_le j) hj, hvalid⟩ hlate
  | @filled d' s hscanned hscan hfill =>
    have hI := fillSuper_inv hfits hd.list hfill
    have hpasses := scan_passes hscan
    obtain ⟨-, -, s', -, rfl⟩ := bldmsFsFillSuper_ok hfill
    exact .inl ⟨_, rfl, ⟨hscanned, fun i hi => hpasses i (Nat.zero_le i) (by omega)⟩, rfl, hd.super, hI⟩

/-! ## Three devices -/

/-- The module just loaded, with three devices: two formatted ones of two and of three blocks, and one that is
    all zeros. -/
def loadedDriver : Driver :=
  { idleDriver (emptyImage 2) with
    disk := fun sb => if sb = 0 then emptyImage 2 else if sb = 1 then emptyImage 3 else fun _ _ => 0 }

theorem idle_loadedDriver : Idle loadedDriver := ⟨rfl, rfl, rfl, rfl, rfl⟩

theorem not_scanFailsLate_allOk (nblocks sb : Nat) (d : Driver) :
    ¬ ScanFailsLate nblocks .allOk sb d := by
  rintro ⟨-, i, -, hfails, -⟩
  simp [MountEnv.failsAt, MountEnv.allOk] at hfails

end Bldms
