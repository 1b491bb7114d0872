/-
  System calls against mounts and unmounts.

  A system call looks at `bldms_mounted` and copies `the_dev_superblock` before it takes the lock or enters
  its read-side section; a mount publishes the list, the array and the flag first, and the superblock later.
  So each of them is taken apart where another thread can come in between:
  * a call is an entry step (`enter`) and a second one (`Entered.run`), which is the critical section of a
    put or an invalidation and the read-side section of a get;
  * a mount is `fill_super` and the capture of the superblock, an unmount one step.  As for `SingleMount`,
    a device that has a superblock gets to the capture without `fill_super`.
  `getData_steps` and `invalidateData_steps` say that the two halves in a row are the call.

  What is watched is `sb_bread`: which superblock it is given, in which state.  A superblock is an object: each mount
  that runs `fill_super` makes a new one, and an unmount releases it, so a call may hold the superblock of the right
  device and yet not the right superblock (`SuperBlock`).  `sb_bread` is given the present one of the device that the
  list and the array describe provided that (`Unraced`)
  * no invalidation enters between the two steps of a mount — it is the one call that does not test the
    superblock it has copied;
  * no mount succeeds while a call is between its steps;
  * no device is mounted for which a failed capture has left a superblock behind, and no scan fails after a
    block has been listed.
-/
import Bldms.Lifecycle
import Bldms.Store

namespace Bldms

/-! ## The system calls, in two steps -/

/-- The entry of `get_data`: the superblock it has copied. -/
def getEnter (offset : BitVec 32) (d : Driver) : Ret Nat :=
  if ¬ d.bldmsMounted then .err .enodev
  else if (offset.signExtend 64).toNat ≥ d.mdArraySize then .err .e2big
  else match d.theDevSuperblock with
    | none => .err .einval
    | some sb => .ok sb

/-- The read-side section of `get_data`. -/
def getSection (e : GetEnv) (offset : BitVec 32) (size sb : Nat) (d : Driver) : Ret (List Byte) :=
  match findBlk d.validBlkList offset.toNat with
  | none => .err .enodata
  | some el => getCopy e size ⟨sb, (offset.toNat + numMetadataBlks) % 2 ^ 32, el.validBytes⟩ d

/-- The entry of `invalidate_data`: the superblock it has copied, untested. -/
def invalidateEnter (offset : BitVec 32) (d : Driver) : Ret (Option Nat) :=
  if ¬ d.bldmsMounted then .err .enodev
  else if (offset.signExtend 64).toNat ≥ d.mdArraySize then .err .e2big
  else .ok d.theDevSuperblock

/-- The critical section of `invalidate_data`. -/
def invalidateSection (bread : Bool) (offset : BitVec 32) (sb : Option Nat) (d : Driver) :
    Ret Unit × Driver :=
  match findBlk d.validBlkList offset.toNat with
  | none => (.err .enodata, d)
  | some el =>
    match sb with
    | none => (.oops, d)
    | some sb =>
      if ¬ bread then (.err .eperm, d)
      else (.ok (), d.commitInvalidate sb el.ndx ((offset.toNat + numMetadataBlks) % 2 ^ 32))

theorem getData_steps (e : GetEnv) (offset : BitVec 32) (size : Nat) (d : Driver) :
    getData e offset size d =
      match getEnter offset d with
      | .ok sb => getSection e offset size sb d
      | .err x => .err x
      | .oops => .oops := by
  unfold getData getLookup getEnter getSection
  by_cases hmounted : ¬ d.bldmsMounted
  · rw [if_pos hmounted, if_pos hmounted]
  by_cases hrange : (offset.signExtend 64).toNat ≥ d.mdArraySize
  · rw [if_neg hmounted, if_neg hmounted, if_pos hrange, if_pos hrange]
  rw [if_neg hmounted, if_neg hmounted, if_neg hrange, if_neg hrange]
  cases d.theDevSuperblock with
  | none => rfl
  | some sb =>
    dsimp only
    cases findBlk d.validBlkList offset.toNat <;> rfl

theorem invalidateData_steps (bread : Bool) (offset : BitVec 32) (d : Driver) :
    invalidateData bread offset d =
      match invalidateEnter offset d with
      | .ok sb => invalidateSection bread offset sb d
      | .err x => (.err x, d)
      | .oops => (.oops, d) := by
  unfold invalidateData invalidateEnter
  by_cases hmounted : ¬ d.bldmsMounted
  · rw [if_pos hmounted, if_pos hmounted]
  by_cases hrange : (offset.signExtend 64).toNat ≥ d.mdArraySize
  · rw [if_neg hmounted, if_neg hmounted, if_pos hrange, if_pos hrange]
  rw [if_neg hmounted, if_neg hmounted]
  have henter : (if (offset.signExtend 64).toNat ≥ d.mdArraySize then Ret.err .e2big
      else .ok d.theDevSuperblock) = .ok d.theDevSuperblock := if_neg hrange
  rw [henter]
  exact if_neg hrange

/-- A system call. -/
inductive Syscall where
  | put (e : PutEnv) (m : List Byte)
  | get (e : GetEnv) (offset : BitVec 32) (size : Nat)
  | invalidate (bread : Bool) (offset : BitVec 32)

/-- A system call between its two steps. -/
inductive Entered where
  | put (p : Prepared) (bread : Bool)
  | get (sb : Nat) (e : GetEnv) (offset : BitVec 32) (size : Nat)
  | invalidate (sb : Option Nat) (bread : Bool) (offset : BitVec 32)

/-- The entry step of a call. -/
def enter (d : Driver) : Syscall → Ret Entered
  | .put e m =>
    match putPrepare e m d with
    | .ok p => .ok (.put p e.bread)
    | .err x => .err x
    | .oops => .oops
  | .get e offset size =>
    match getEnter offset d with
    | .ok sb => .ok (.get sb e offset size)
    | .err x => .err x
    | .oops => .oops
  | .invalidate bread offset =>
    match invalidateEnter offset d with
    | .ok sb => .ok (.invalidate sb bread offset)
    | .err x => .err x
    | .oops => .oops

namespace Entered

/-- The superblock the call has copied. -/
def super : Entered → Option Nat
  | put p _ => some p.sb
  | get sb _ _ _ => some sb
  | invalidate sb _ _ => sb

/-- The superblock `sb_bread` is given in the second step, if it gets that far. -/
def sbBread (d : Driver) : Entered → Option (Option Nat)
  | put p _ => d.findFree.map fun _ => some p.sb
  | get sb _ offset _ => (findBlk d.validBlkList offset.toNat).map fun _ => some sb
  | invalidate sb _ offset => (findBlk d.validBlkList offset.toNat).map fun _ => sb

/-- The state the second step leaves. -/
def run (d : Driver) : Entered → Driver
  | put p bread => (putCritical p bread d).drv
  | get _ _ _ _ => d
  | invalidate sb bread offset => (invalidateSection bread offset sb d).2

end Entered

/-! ## The system -/

/-- How far a mount has got. -/
inductive Stage where
  | filled
  | ready
  deriving DecidableEq, Repr

/-- A `super_block`: the device, and which of the superblocks made for it. -/
structure SuperBlock where
  dev : Nat
  made : Nat
  deriving DecidableEq, Repr

/-- A system call between its two steps: its thread, and the superblock it has copied. -/
structure Pending where
  thread : Nat
  call : Entered
  super : Option SuperBlock

/-- The driver, the mounts under way or done, the devices with a superblock, those with one that is locked for
    good, how many superblocks have been made for each device, which of them the last capture for the device has put
    into `the_dev_superblock`, and the calls between their steps. -/
structure Kernel where
  drv : Driver
  mounts : List (Nat × Stage)
  live : List Nat
  stuck : List Nat
  made : Nat → Nat
  captured : Nat → Nat
  calls : List Pending

/-- The steps of mounts, unmounts and system calls. -/
inductive Action where
  | fill (sb : Nat) (env : MountEnv)
  | capture (sb : Nat) (getDevice : Bool)
  | unmount (sb : Nat)
  | enter (thread : Nat) (c : Syscall)
  | finish (thread : Nat)

namespace Kernel

/-- The module has been loaded. -/
def start (d : Driver) : Kernel := ⟨d, [], [], [], fun _ => 0, fun _ => 0, []⟩

/-- The present superblock of a device. -/
def superBlock (w : Kernel) (dev : Nat) : SuperBlock := ⟨dev, w.made dev⟩

/-- A superblock is made for the device. -/
def makeSuper (w : Kernel) (sb : Nat) : Kernel := { w with made := Function.update w.made sb (w.made sb + 1) }

/-- A mount up to the end of `fill_super`, or of the clean-up after it. -/
def fill (nblocks : Nat) (w : Kernel) (sb : Nat) (env : MountEnv) : Kernel :=
  if w.drv.bldmsMounted ∨ sb ∈ w.stuck then w
  else if sb ∈ w.live then { w with mounts := (sb, .filled) :: w.mounts }
  else match mountBdev nblocks env sb w.drv with
    | (.ok (), d) => { w.makeSuper sb with drv := d, mounts := (sb, .filled) :: w.mounts, live := sb :: w.live }
    | (.err _, d) => { w.makeSuper sb with drv := d }
    | (.oops, d) => { w.makeSuper sb with drv := d, stuck := sb :: w.stuck }

/-- The rest of a mount; one that fails leaves the superblock behind. -/
def capture (w : Kernel) (sb : Nat) (getDevice : Bool) : Kernel :=
  if (sb, .filled) ∉ w.mounts then w
  else match captureSuperblock getDevice sb w.drv with
    | (.ok (), d) =>
      { w with
        drv := d
        mounts := (sb, .ready) :: w.mounts.erase (sb, .filled)
        captured := Function.update w.captured sb (w.made sb) }
    | (_, d) => { w with drv := d, mounts := w.mounts.erase (sb, .filled) }

/-- An unmount; the last one of a device releases its superblock. -/
def unmount (w : Kernel) (sb : Nat) : Kernel :=
  if (sb, .ready) ∉ w.mounts then w
  else if sb ∈ (w.mounts.erase (sb, .ready)).map Prod.fst then
    { w with mounts := w.mounts.erase (sb, .ready) }
  else
    { w with drv := w.drv.killSb, mounts := w.mounts.erase (sb, .ready), live := w.live.erase sb }

/-- A call enters; what it copies of `the_dev_superblock` is the superblock that was captured. -/
def enter (w : Kernel) (thread : Nat) (c : Syscall) : Kernel :=
  match Bldms.enter w.drv c with
  | .ok x => { w with calls := ⟨thread, x, x.super.map fun dev => ⟨dev, w.captured dev⟩⟩ :: w.calls }
  | _ => w

/-- The call a thread is in. -/
def callOf (w : Kernel) (thread : Nat) : Option Pending := w.calls.find? fun c => c.thread == thread

/-- The second step of the call a thread is in. -/
def finish (w : Kernel) (thread : Nat) : Option (Option SuperBlock) × Kernel :=
  match w.callOf thread with
  | none => (none, w)
  | some c =>
    ((c.call.sbBread w.drv).map fun _ => c.super,
      { w with drv := c.call.run w.drv, calls := w.calls.eraseP fun c => c.thread == thread })

end Kernel

/-- Mounts, unmounts and system calls in any order; a step answers with the superblock that `sb_bread` has
    been given by a system call. -/
def kernel (nblocks : Nat) : System Kernel Action (Option (Option SuperBlock)) where
  step w
    | .fill sb env => (none, w.fill nblocks sb env)
    | .capture sb getDevice => (none, w.capture sb getDevice)
    | .unmount sb => (none, w.unmount sb)
    | .enter thread c => (none, w.enter thread c)
    | .finish thread => w.finish thread

/-- The step is not one of those that race:
    * a mount is of a device without a superblock; when it succeeds, no call is between its steps, and when its scan
      fails, it does so before a block has been listed;
    * an invalidation of a block of the device does not enter between the two steps of a mount. -/
def Unraced (nblocks : Nat) (w : Kernel) : Action → Prop
  | .fill sb env => w.drv.bldmsMounted = false → sb ∉ w.stuck →
      sb ∉ w.live ∧ (Mountable nblocks env sb w.drv → w.calls = []) ∧
      ¬ ScanFailsLate nblocks env sb w.drv
  | .enter _ (.invalidate _ offset) =>
      (offset.signExtend 64).toNat < w.drv.mdArraySize → ∀ sb, (sb, Stage.filled) ∉ w.mounts
  | _ => True

/-! ## What the second step does to a driver that has been published -/

/-- The driver with another value of `the_dev_superblock`. -/
def Driver.withSuper (d : Driver) (sb : Option Nat) : Driver := { d with theDevSuperblock := sb }

namespace Entered

/-- A put carries what its preparation has made: valid metadata, and a buffer that starts with it. -/
def Sound : Entered → Prop
  | put p _ => p.newMetadata.blk.isValid = true ∧ p.buffer.metadata = p.newMetadata.blk
  | _ => True

/-- The second step does not look at the global superblock. -/
theorem run_withSuper (x : Entered) (d : Driver) (sb : Option Nat) :
    x.run (d.withSuper sb) = (x.run d).withSuper sb := by
  cases x with
  | put p bread =>
    have hfree : (d.withSuper sb).findFree = d.findFree := rfl
    simp only [run, putCritical, hfree]
    cases d.findFree with
    | none => rfl
    | some k => cases bread <;> rfl
  | get sb' e offset size => rfl
  | invalidate sb' bread offset =>
    have hlist : (d.withSuper sb).validBlkList = d.validBlkList := rfl
    simp only [run, invalidateSection, hlist]
    cases findBlk d.validBlkList offset.toNat with
    | none => rfl
    | some el =>
      cases sb' with
      | none => rfl
      | some sb' => cases bread <;> rfl

theorem run_super (x : Entered) (d : Driver) : (x.run d).theDevSuperblock = d.theDevSuperblock := by
  have hself : x.run d = (x.run d).withSuper d.theDevSuperblock := run_withSuper x d d.theDevSuperblock
  rw [hself]
  rfl

/-- On the device it has copied the superblock of, the second step keeps the driver in step. -/
theorem inv_run {sb n : Nat} {d : Driver} (hI : Inv sb n d) {x : Entered} (hx : x.super = some sb)
    (hsound : x.Sound) : Inv sb n (x.run d) ∧ (x.run d).disk sb 1 = d.disk sb 1 := by
  cases x with
  | put p bread =>
    have hsb : p.sb = sb := Option.some.inj hx
    simp only [run, putCritical]
    cases hk : d.findFree with
    | none => exact ⟨hI, rfl⟩
    | some k =>
      cases bread with
      | false => exact ⟨hI, rfl⟩
      | true => exact ⟨hI.commitPut hk hsb hsound.1 hsound.2, d.inode_commitPut hsb k⟩
  | get sb' e offset size => exact ⟨hI, rfl⟩
  | invalidate sb' bread offset =>
    have hsb : sb' = some sb := hx
    subst hsb
    simp only [run, invalidateSection]
    cases hfind : findBlk d.validBlkList offset.toNat with
    | none => exact ⟨hI, rfl⟩
    | some el =>
      cases bread with
      | false => exact ⟨hI, rfl⟩
      | true =>
        obtain ⟨hel, hndx⟩ := (findBlk_eq_some hI.distinct).mp hfind
        have hlt := hI.ndx_lt hel
        have hn := hI.small
        have htarget : (offset.toNat + numMetadataBlks) % 2 ^ 32 = el.ndx + 2 := by
          rw [← hndx]
          exact Nat.mod_eq_of_lt (by omega : el.ndx + 2 < 2 ^ 32)
        rw [htarget]
        exact ⟨hI.commitInvalidate hel, d.inode_commitInvalidate sb el.ndx⟩

/-- In an idle driver the second step finds nothing. -/
theorem run_idle {d : Driver} (hd : Idle d) (x : Entered) : x.run d = d ∧ x.sbBread d = none := by
  have hfree : d.findFree = none := by
    rw [Driver.findFree, hd.size]
    rfl
  have hfind : ∀ k, findBlk d.validBlkList k = none := by
    intro k
    rw [hd.list]
    rfl
  cases x with
  | put p bread => simp only [run, sbBread, putCritical, hfree, Option.map_none, and_self]
  | get sb e offset size => simp only [run, sbBread, hfind, Option.map_none, and_self]
  | invalidate sb bread offset =>
    simp only [run, sbBread, invalidateSection, hfind, Option.map_none, and_self]

end Entered

theorem putPrepare_mounted {e : PutEnv} {m : List Byte} {d : Driver} {p : Prepared}
    (h : putPrepare e m d = .ok p) : d.bldmsMounted = true := by
  unfold putPrepare at h
  split at h
  · nomatch h
  · rename_i hmounted
    exact not_not.mp hmounted

theorem getEnter_ok {offset : BitVec 32} {d : Driver} {sb : Nat} (h : getEnter offset d = .ok sb) :
    d.bldmsMounted = true ∧ d.theDevSuperblock = some sb := by
  unfold getEnter at h
  split at h
  · cases h
  rename_i hmounted
  split at h
  · cases h
  refine ⟨not_not.mp hmounted, ?_⟩
  cases hsb : d.theDevSuperblock with
  | none => rw [hsb] at h; cases h
  | some sb' => rw [hsb] at h; exact congrArg some (Ret.ok.inj h)

theorem invalidateEnter_ok {offset : BitVec 32} {d : Driver} {sb : Option Nat}
    (h : invalidateEnter offset d = .ok sb) :
    d.bldmsMounted = true ∧ (offset.signExtend 64).toNat < d.mdArraySize ∧ sb = d.theDevSuperblock := by
  unfold invalidateEnter at h
  split at h
  · cases h
  rename_i hmounted
  split at h
  · cases h
  rename_i hrange
  exact ⟨not_not.mp hmounted, Nat.lt_of_not_le hrange, (Ret.ok.inj h).symm⟩

/-- What a call that enters has found: the flag set, and the superblock in place unless it is an
    invalidation. -/
theorem enter_ok {d : Driver} {c : Syscall} {x : Entered} (h : enter d c = .ok x) :
    d.bldmsMounted = true ∧ x.Sound ∧ x.super = d.theDevSuperblock ∧
    (d.theDevSuperblock ≠ none ∨
      ∃ bread offset, c = .invalidate bread offset ∧ (offset.signExtend 64).toNat < d.mdArraySize) := by
  cases c with
  | put e m =>
    simp only [enter] at h
    cases hp : putPrepare e m d with
    | err y => rw [hp] at h; cases h
    | oops => rw [hp] at h; cases h
    | ok p =>
      rw [hp] at h
      obtain rfl := Ret.ok.inj h
      obtain ⟨-, hsb, -, hblk, hbuf⟩ := putPrepare_ok hp
      refine ⟨putPrepare_mounted hp, ⟨by rw [hblk], by rw [hbuf, Block.metadata_ofMessage]⟩, hsb.symm, .inl ?_⟩
      rw [hsb]
      exact Option.some_ne_none _
  | get e offset size =>
    simp only [enter] at h
    cases hg : getEnter offset d with
    | err y => rw [hg] at h; cases h
    | oops => rw [hg] at h; cases h
    | ok sb =>
      rw [hg] at h
      obtain rfl := Ret.ok.inj h
      obtain ⟨hmounted, hsb⟩ := getEnter_ok hg
      refine ⟨hmounted, trivial, hsb.symm, .inl ?_⟩
      rw [hsb]
      exact Option.some_ne_none sb
  | invalidate bread offset =>
    simp only [enter] at h
    cases hi : invalidateEnter offset d with
    | err y => rw [hi] at h; cases h
    | oops => rw [hi] at h; cases h
    | ok sb =>
      rw [hi] at h
      obtain rfl := Ret.ok.inj h
      obtain ⟨hmounted, hrange, hsb⟩ := invalidateEnter_ok hi
      exact ⟨hmounted, trivial, hsb, .inr ⟨bread, offset, rfl, hrange⟩⟩

/-! ## The invariant -/

/-- The driver that goes with the mounts there are: idle, or one device has been published. -/
inductive DriverAt : List (Nat × Stage) → Driver → Prop
  | idle {d : Driver} : Idle d → DriverAt [] d
  | filled {sb : Nat} {d : Driver} : d.theDevSuperblock = none →
      Inv sb (d.blockCount sb) (d.withSuper (some sb)) → DriverAt [(sb, .filled)] d
  | ready {sb : Nat} {d : Driver} : d.theDevSuperblock = some sb →
      Inv sb (d.blockCount sb) (d.withSuper (some sb)) → DriverAt [(sb, .ready)] d

/-- The driver is where the mounts are, what has been captured is the present superblock, and the calls between their
    steps hold the present superblock of the published device. -/
structure Settled (w : Kernel) : Prop where
  driver : DriverAt w.mounts w.drv
  captured : ∀ sb, (sb, Stage.ready) ∈ w.mounts → w.captured sb = w.made sb
  sound : ∀ c ∈ w.calls, c.call.Sound
  device : ∀ c ∈ w.calls, ∀ m ∈ w.mounts, c.call.super = some m.1
  holds : ∀ c ∈ w.calls, ∀ m ∈ w.mounts, c.super = some (w.superBlock m.1)

theorem DriverAt.published {mounts : List (Nat × Stage)} {d : Driver} (h : DriverAt mounts d)
    {m : Nat × Stage} (hm : m ∈ mounts) : Inv m.1 (d.blockCount m.1) (d.withSuper (some m.1)) := by
  cases h with
  | idle _ => exact absurd hm List.not_mem_nil
  | filled _ hI => rw [List.mem_singleton.mp hm]; exact hI
  | ready _ hI => rw [List.mem_singleton.mp hm]; exact hI

theorem DriverAt.eq_singleton {mounts : List (Nat × Stage)} {d : Driver} (h : DriverAt mounts d)
    {m : Nat × Stage} (hm : m ∈ mounts) : mounts = [m] := by
  cases h with
  | idle _ => exact absurd hm List.not_mem_nil
  | filled _ _ => rw [List.mem_singleton.mp hm]
  | ready _ _ => rw [List.mem_singleton.mp hm]

/-- The second step of a call that holds the superblock of the published device. -/
theorem DriverAt.run {mounts : List (Nat × Stage)} {d : Driver} (h : DriverAt mounts d) {x : Entered}
    (hsound : x.Sound) (hx : ∀ m ∈ mounts, x.super = some m.1) : DriverAt mounts (x.run d) := by
  have hpublished : ∀ sb, Inv sb (d.blockCount sb) (d.withSuper (some sb)) → x.super = some sb →
      Inv sb ((x.run d).blockCount sb) ((x.run d).withSuper (some sb)) := by
    intro sb hI hsb
    obtain ⟨hI', hinode⟩ := Entered.inv_run hI hsb hsound
    rw [Entered.run_withSuper] at hI' hinode
    have hcount : (x.run d).blockCount sb = d.blockCount sb :=
      congrArg (fun b => inodeFileSize b / 4096) hinode
    rw [hcount]
    exact hI'
  cases h with
  | idle hd =>
    rw [(Entered.run_idle hd x).1]
    exact .idle hd
  | filled hsb hI =>
    exact .filled ((x.run_super d).trans hsb) (hpublished _ hI (hx _ (List.mem_singleton.mpr rfl)))
  | ready hsb hI =>
    exact .ready ((x.run_super d).trans hsb) (hpublished _ hI (hx _ (List.mem_singleton.mpr rfl)))

namespace Settled

variable {nblocks : Nat} {w : Kernel}

/-- With no mount there is nothing to hold. -/
theorem unpublished {d : Driver} (hd : Idle d) {live stuck : List Nat} {made captured : Nat → Nat} {calls : List Pending}
    (hsound : ∀ c ∈ calls, c.call.Sound) : Settled ⟨d, [], live, stuck, made, captured, calls⟩ :=
  ⟨.idle hd, fun _ hm => absurd hm List.not_mem_nil, hsound, fun _ _ _ hm => absurd hm List.not_mem_nil,
    fun _ _ _ hm => absurd hm List.not_mem_nil⟩

theorem fill (h : Settled w) (hfits : nblocks * 4096 < 2 ^ 31) {sb : Nat} {env : MountEnv}
    (hun : Unraced nblocks w (.fill sb env)) : Settled (w.fill nblocks sb env) := by
  unfold Kernel.fill
  split
  · exact h
  rename_i hgo
  obtain ⟨hfree, hstuck⟩ := not_or.mp hgo
  obtain ⟨hlive, hothers, hlate⟩ := hun (by simpa using hfree) hstuck
  rw [if_neg hlive]
  -- the flag is down, so nothing has been published
  have hidle : w.mounts = [] ∧ Idle w.drv := by
    have hdriver := h.driver
    generalize w.mounts = mounts at hdriver
    cases hdriver with
    | idle hd => exact ⟨rfl, hd⟩
    | filled _ hI => exact absurd hI.mounted hfree
    | ready _ hI => exact absurd hI.mounted hfree
  obtain ⟨hnone, hd⟩ := hidle
  have hkeeps : ∀ d', Idle d' → ∀ live stuck, Settled ⟨d', w.mounts, live, stuck, (w.makeSuper sb).made, w.captured,
      w.calls⟩ := by
    intro d' hd' live stuck
    rw [hnone]
    exact .unpublished hd' h.sound
  rcases hd.mountBdev_cases hfits hlate with ⟨d', heq, hmountable, hdisk, hsuper, hI⟩ | ⟨r, d', heq, hr, -, hd'⟩
  · rw [heq, hnone]
    have hnocall : ∀ c, c ∉ w.calls := fun c hc => absurd hc (by rw [hothers hmountable]; exact List.not_mem_nil)
    refine ⟨.filled hsuper ?_, ?_, h.sound, fun c hc => absurd hc (hnocall c), fun c hc => absurd hc (hnocall c)⟩
    · rw [Driver.blockCount, ← hdisk] at hI
      exact hI
    · intro sb' hm
      cases List.mem_singleton.mp hm
  · rw [heq]
    cases r with
    | ok u => exact absurd rfl hr
    | err e => exact hkeeps d' hd' _ _
    | oops => exact hkeeps d' hd' _ _

theorem capture (h : Settled w) (sb : Nat) (getDevice : Bool) : Settled (w.capture sb getDevice) := by
  unfold Kernel.capture
  split
  · exact h
  rename_i hgo
  have hmem := not_not.mp hgo
  have hI := h.driver.published hmem
  have herase : w.mounts.erase (sb, .filled) = [] := by
    rw [h.driver.eq_singleton hmem, List.erase_cons_head]
  rw [herase]
  unfold captureSuperblock
  cases getDevice with
  | false => exact .unpublished (idle_freeDataStructures w.drv) h.sound
  | true =>
    refine ⟨.ready rfl hI, ?_, h.sound, ?_, ?_⟩
    · intro sb' hm
      cases List.mem_singleton.mp hm
      exact Function.update_self ..
    · intro c hc m hm
      rw [List.mem_singleton.mp hm]
      exact h.device c hc (sb, .filled) hmem
    · intro c hc m hm
      rw [List.mem_singleton.mp hm]
      exact h.holds c hc (sb, .filled) hmem

theorem unmount (h : Settled w) (sb : Nat) : Settled (w.unmount sb) := by
  unfold Kernel.unmount
  split
  · exact h
  rename_i hgo
  have hmem := not_not.mp hgo
  have herase : w.mounts.erase (sb, .ready) = [] := by
    rw [h.driver.eq_singleton hmem, List.erase_cons_head]
  rw [herase, List.map_nil, if_neg List.not_mem_nil]
  exact .unpublished (idle_freeDataStructures w.drv) h.sound

theorem enter (h : Settled w) {thread : Nat} {c : Syscall}
    (hun : Unraced nblocks w (.enter thread c)) : Settled (w.enter thread c) := by
  unfold Kernel.enter
  cases henter : Bldms.enter w.drv c with
  | err x => exact h
  | oops => exact h
  | ok x =>
    obtain ⟨hmounted, hsound, hsuper, hcopied⟩ := enter_ok henter
    -- the superblock is in place: the call is no invalidation inside a mount
    have hready : ∀ m ∈ w.mounts, m.2 = .ready ∧ x.super = some m.1 := by
      have hdriver := h.driver
      intro m hm
      generalize hw : w.mounts = mounts at hdriver hm
      cases hdriver with
      | idle _ => exact absurd hm List.not_mem_nil
      | @filled sb _ hnone _ =>
        rcases hcopied with hsome | ⟨bread, offset, rfl, hrange⟩
        · exact absurd hnone hsome
        · exact absurd (by rw [hw]; exact List.mem_singleton.mpr rfl) (hun hrange sb)
      | ready hready _ =>
        rw [List.mem_singleton.mp hm]
        exact ⟨rfl, hsuper.trans hready⟩
    refine ⟨h.driver, h.captured, ?_, ?_, ?_⟩
    · intro c' hc'
      rcases List.mem_cons.mp hc' with rfl | hc'
      · exact hsound
      · exact h.sound c' hc'
    · intro c' hc'
      rcases List.mem_cons.mp hc' with rfl | hc'
      · exact fun m hm => (hready m hm).2
      · exact h.device c' hc'
    · intro c' hc'
      rcases List.mem_cons.mp hc' with rfl | hc'
      · intro m hm
        obtain ⟨hstage, hx⟩ := hready m hm
        have hcaptured := h.captured m.1 (by rw [← hstage]; exact hm)
        show (x.super.map fun dev => (⟨dev, w.captured dev⟩ : SuperBlock)) = some (w.superBlock m.1)
        rw [hx, Option.map_some, hcaptured]
        rfl
      · exact h.holds c' hc'

theorem finish (h : Settled w) (thread : Nat) : Settled (w.finish thread).2 := by
  unfold Kernel.finish
  cases hcall : w.callOf thread with
  | none => exact h
  | some c =>
    have hc : c ∈ w.calls := List.mem_of_find?_eq_some hcall
    exact ⟨h.driver.run (h.sound c hc) (h.device c hc), h.captured, fun c' hc' => h.sound c' (List.mem_of_mem_eraseP hc'),
      fun c' hc' => h.device c' (List.mem_of_mem_eraseP hc'), fun c' hc' => h.holds c' (List.mem_of_mem_eraseP hc')⟩

/-- **The step lemma**: a step that does not race keeps the state settled. -/
theorem step (h : Settled w) (hfits : nblocks * 4096 < 2 ^ 31) {a : Action} (hun : Unraced nblocks w a) :
    Settled ((kernel nblocks).next w a) := by
  cases a with
  | fill sb env => exact h.fill hfits hun
  | capture sb getDevice => exact h.capture sb getDevice
  | unmount sb => exact h.unmount sb
  | enter thread c => exact h.enter hun
  | finish thread => exact h.finish thread

end Settled

end Bldms
