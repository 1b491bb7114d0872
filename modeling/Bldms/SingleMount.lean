/-
  One mount at a time.

  `bldms_fs_mount` tests `bldms_mounted` and then calls `mount_bdev`; the flag is set at the end of
  `fill_super`.  Nothing keeps the two steps together, so the attempts here take them apart, and any number
  of attempts and unmounts may go on at once.

  The kernel's side is kept to what it does to the driver:
  * `mount_bdev` makes a superblock for a device that has none, and only then calls `fill_super`; a device
    that has one (`Attempts.live`) goes straight to the capture;
  * a `fill_super` that returns an error is followed by `kill_sb`, which releases the superblock; a capture
    that fails leaves it behind;
  * a `fill_super` that takes the thread down leaves it locked, and whoever mounts that device then waits
    (`Attempts.stuck`);
  * `kill_sb` comes with the last unmount of a device.

  As long as an attempt takes its second step with no device mounted and with no superblock left behind for
  its own, and no scan fails after a block has been listed, there is one mounted device at most, and the list
  and the array are its own (`single_mount`).  Otherwise the second attempt may clear them, or be mounted
  beside the first (`single_mount_fails`).
-/
import Bldms.Lifecycle

namespace Bldms

/-! ## Attempts and unmounts -/

/-- The driver, the attempts past the test, the devices with a superblock, those with one that is locked
    for good, and the mounts, by device. -/
structure Attempts where
  drv : Driver
  passed : List Nat
  live : List Nat
  stuck : List Nat
  mounted : List Nat

/-- The steps of mounts and unmounts, by device. -/
inductive Attempt where
  | test (sb : Nat)
  | mount (sb : Nat) (env : MountEnv)
  | unmount (sb : Nat)

namespace Attempts

/-- The module has been loaded. -/
def start (d : Driver) : Attempts := ⟨d, [], [], [], []⟩

/-- `if (bldms_mounted) return ERR_PTR(-EBUSY)`. -/
def test (a : Attempts) (sb : Nat) : Attempts :=
  if a.drv.bldmsMounted then a else { a with passed := sb :: a.passed }

/-- The end of an attempt: the superblock is captured, or given up. -/
def captured (a : Attempts) (sb : Nat) (r : Ret Unit × Driver) : Attempts :=
  match r with
  | (.ok (), d) => { a with drv := d, live := a.live.insert sb, mounted := sb :: a.mounted }
  | (_, d) => { a with drv := d, live := a.live.insert sb }

/-- The rest of `bldms_fs_mount`, for an attempt that has passed the test. -/
def mount (nblocks : Nat) (a : Attempts) (sb : Nat) (env : MountEnv) : Attempts :=
  if sb ∉ a.passed ∨ sb ∈ a.stuck then a
  else
    let b := { a with passed := a.passed.erase sb }
    if sb ∈ a.live then b.captured sb (captureSuperblock env.getDevice sb a.drv)
    else match mountBdev nblocks env sb a.drv with
      | (.ok (), d) => b.captured sb (captureSuperblock env.getDevice sb d)
      | (.err _, d) => { b with drv := d }
      | (.oops, d) => { b with drv := d, stuck := sb :: a.stuck }

/-- An unmount; the last one of a device releases its superblock. -/
def unmount (a : Attempts) (sb : Nat) : Attempts :=
  if sb ∉ a.mounted then a
  else if sb ∈ a.mounted.erase sb then { a with mounted := a.mounted.erase sb }
  else { a with drv := a.drv.killSb, live := a.live.erase sb, mounted := a.mounted.erase sb }

end Attempts

/-- Mount attempts and unmounts, in any order. -/
def attempts (nblocks : Nat) : System Attempts Attempt Unit where
  step a
    | .test sb => ((), a.test sb)
    | .mount sb env => ((), a.mount nblocks sb env)
    | .unmount sb => ((), a.unmount sb)

/-- At most one device is mounted, and the list and the array are those of the mounted one. -/
def SingleMount (a : Attempts) : Prop :=
  (∀ sb ∈ a.mounted, ∀ sb' ∈ a.mounted, sb = sb') ∧ ∀ sb ∈ a.mounted, Describes sb a.drv

/-- An attempt takes its second step with no device mounted and no superblock left behind for its own, and its
    scan does not fail after a block has been listed. -/
def Orderly (nblocks : Nat) (a : Attempts) : Attempt → Prop
  | .mount sb env => sb ∈ a.passed →
      a.mounted = [] ∧ sb ∉ a.live ∧ ¬ ScanFailsLate nblocks env sb a.drv
  | _ => True

/-! ## The invariant -/

/-- Nothing is mounted and nothing is left, or one device is and the driver is its own. -/
inductive Calm (a : Attempts) : Prop
  | idle : a.mounted = [] → Idle a.drv → Calm a
  | one (sb : Nat) : a.mounted = [sb] → Inv sb (a.drv.blockCount sb) a.drv → Calm a

theorem Calm.singleMount {a : Attempts} (h : Calm a) : SingleMount a := by
  cases h with
  | idle hnone hd =>
    rw [SingleMount, hnone]
    exact ⟨fun sb hsb => absurd hsb List.not_mem_nil, fun sb hsb => absurd hsb List.not_mem_nil⟩
  | one sb hone hI =>
    rw [SingleMount, hone]
    constructor
    · intro x hx y hy
      rw [List.mem_singleton.mp hx, List.mem_singleton.mp hy]
    · intro x hx
      rw [List.mem_singleton.mp hx]
      exact hI.describes

/-- Only the mounted devices and the driver matter. -/
theorem Calm.congr {a b : Attempts} (h : Calm a) (hmounted : b.mounted = a.mounted) (hdrv : b.drv = a.drv) :
    Calm b := by
  cases h with
  | idle hnone hd => exact .idle (hmounted.trans hnone) (hdrv ▸ hd)
  | one sb hone hI => exact .one sb (hmounted.trans hone) (hdrv ▸ hI)

/-- A mount with nothing mounted, whose scan does not fail late. -/
theorem Calm.mount {nblocks : Nat} (hfits : nblocks * 4096 < 2 ^ 31) {a : Attempts} (h : Calm a) {sb : Nat}
    {env : MountEnv} (hord : Orderly nblocks a (.mount sb env)) : Calm (a.mount nblocks sb env) := by
  unfold Attempts.mount
  split
  · exact h
  rename_i hgo
  obtain ⟨hpassed, -⟩ := not_or.mp hgo
  obtain ⟨hnone, hlive, hlate⟩ := hord (not_not.mp hpassed)
  have hd : Idle a.drv := by
    cases h with
    | idle _ hd => exact hd
    | one sb' hone _ => rw [hnone] at hone; nomatch hone
  dsimp only
  rw [if_neg hlive]
  rcases hd.mountBdev_cases hfits hlate with ⟨d₁, heq, -, hdisk, -, hI⟩ | ⟨r, d₁, heq, hr, -, hidle⟩
  · rw [heq]
    unfold captureSuperblock
    cases env.getDevice with
    | false => exact .idle hnone (idle_freeDataStructures d₁)
    | true =>
      refine .one sb (congrArg (sb :: ·) hnone) ?_
      rw [Driver.blockCount, ← hdisk] at hI
      exact hI
  · rw [heq]
    cases r with
    | ok u => exact absurd rfl hr
    | err e => exact .idle hnone hidle
    | oops => exact .idle hnone hidle

theorem Calm.unmount {a : Attempts} (h : Calm a) (sb : Nat) : Calm (a.unmount sb) := by
  unfold Attempts.unmount
  split
  · exact h
  rename_i hmem
  have hlast : a.mounted.erase sb = [] := by
    cases h with
    | idle hnone _ => rw [hnone, List.erase_nil]
    | one sb' hone _ =>
      rw [hone] at hmem
      rw [hone, List.mem_singleton.mp (not_not.mp hmem), List.erase_cons_head]
  rw [hlast, if_neg List.not_mem_nil]
  exact .idle rfl (idle_freeDataStructures a.drv)

theorem Calm.step {nblocks : Nat} (hfits : nblocks * 4096 < 2 ^ 31) {a : Attempts} (h : Calm a)
    {t : Attempt} (hord : Orderly nblocks a t) : Calm ((attempts nblocks).next a t) := by
  cases t with
  | test sb =>
    show Calm (a.test sb)
    unfold Attempts.test
    split
    · exact h
    · exact h.congr rfl rfl
  | mount sb env => exact h.mount hfits hord
  | unmount sb => exact h.unmount sb

/-- **A single mount at a time.**  Take any interleaving of mount attempts, on any devices and with
    anything failing, and of unmounts.  If no attempt takes its second step while a device is mounted or with
    a superblock left behind for its own, and no scan fails after a block has been listed, then in every state
    at most one device is mounted, and the list and the array hold exactly its blocks. -/
theorem single_mount (cfg : Config) (d : Driver) (hd : Idle d) (steps : List Attempt)
    (hord : (attempts cfg.nblocks).AllSteps (Orderly cfg.nblocks) (Attempts.start d) steps) :
    ∀ a ∈ (attempts cfg.nblocks).states (Attempts.start d) steps, SingleMount a := by
  intro a ha
  have hcalm := hord.invariant (fun _ _ hstep h => h.step cfg.fits hstep) (Calm.idle rfl hd) a ha
  exact hcalm.singleMount

/-! ## Two attempts -/

/-- An attempt that fails, with another one past the test, which then succeeds, and one that is too late. -/
theorem single_mount_three_attempts :
    let steps : List Attempt := [.test 2, .test 0, .mount 2 .allOk, .mount 0 .allOk, .test 1, .mount 1 .allOk]
    ((attempts 1000).final (Attempts.start loadedDriver) steps).mounted = [0] ∧
    SingleMount ((attempts 1000).final (Attempts.start loadedDriver) steps) := by
  intro steps
  refine ⟨by decide +kernel, single_mount .standard loadedDriver idle_loadedDriver steps ?_ _
    ((attempts 1000).final_mem_states _ steps)⟩
  refine ⟨trivial, trivial, fun _ => ⟨rfl, List.not_mem_nil, not_scanFailsLate_allOk _ _ _⟩,
    fun _ => ⟨by decide +kernel, by decide +kernel, not_scanFailsLate_allOk _ _ _⟩, trivial, ?_, trivial⟩
  -- the last attempt was refused at the test
  exact fun hpassed => absurd hpassed (by decide +kernel)

/-- Two attempts pass the test before either of them fills.  If the second device is no device of this file
    system, its `kill_sb` clears what the first mount has built; if it is one, two devices are mounted. -/
theorem single_mount_fails :
    let cleared := (attempts 1000).final (Attempts.start loadedDriver)
      [.test 0, .test 2, .mount 0 .allOk, .mount 2 .allOk]
    let doubled := (attempts 1000).final (Attempts.start loadedDriver)
      [.test 0, .test 1, .mount 0 .allOk, .mount 1 .allOk]
    Idle loadedDriver ∧
    (cleared.mounted = [0] ∧ cleared.drv.bldmsMounted = false ∧ cleared.drv.mdArraySize = 0 ∧
      ¬ SingleMount cleared) ∧
    doubled.mounted = [1, 0] ∧ ¬ SingleMount doubled := by
  intro cleared doubled
  have hmounted : cleared.mounted = [0] := by decide +kernel
  have hsize : cleared.drv.mdArraySize = 0 := by decide +kernel
  have hcount : cleared.drv.blockCount 0 = 2 := by decide +kernel
  have hdoubled : doubled.mounted = [1, 0] := by decide +kernel
  refine ⟨idle_loadedDriver, ⟨hmounted, by decide +kernel, hsize, ?_⟩, hdoubled, ?_⟩
  · intro h
    have hdescribes := h.2 0 (by rw [hmounted]; exact List.mem_singleton.mpr rfl)
    have hzero : 0 = 2 := hsize.symm.trans (hdescribes.size.trans hcount)
    omega
  · intro h
    have hsame := h.1
    rw [hdoubled] at hsame
    exact absurd (hsame 1 (by decide) 0 (by decide)) (by decide)

end Bldms
