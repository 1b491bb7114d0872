/-
  A mount that fails in its scan, and what is left of it.

  Source: `bldms.c`, `err_and_clean_rcu` in `bldms_fs_fill_super`, `free_data_structures`, `bldms_fs_kill_sb`.

  The clean-up happens twice: `fill_super` takes down what the scan has built, and the kernel, told that the
  mount has failed, calls `kill_sb`, which takes down what it finds.  The first leaves the pointer
  `metadata_array` as it is, so the second releases the array once more; that alone keeps every failed mount
  from leaving the driver as it was (`failed_mount_never_clean`).  Everything else depends on where the scan
  failed:
  * `failed_mount_listed` — with a node in the list, the first clean-up dies at it (with the memory of the
    node as it was left), and nothing else is released;
  * `failed_mount_empty`  — with no node, the globals are as before, and every entry has been released once;
    the buffer of the failing block is still held if the allocation of its entry failed.

  `attempt_refines` is the connection to `mountBdev`: as long as released memory is left as it was, the
  mount in memory returns what `mountBdev` returns and leaves what it leaves.  In the same sense
  `free_data_structures` is `Driver.freeDataStructures` (`Refines.freeDataStructures`).
-/
import Bldms.ScanMemory

namespace Bldms

open Intrusive

/-! ## The clean-ups -/

namespace MountMem

/-- The memory after a teardown of the list. -/
def afterTeardown (g : MountMem) (t : Teardown) : MountMem :=
  { g with mem := t.mem, released := g.released ++ t.released.map .elem }

/-- The slots from index `i` down to the first one: `for (; i >= 0; i--)`. -/
def slotsDown (i : Int) : List Nat := (List.range (i + 1).toNat).reverse

/-- What follows `err_and_clean_rcu`, for the error number `e` and the index `i`. -/
def errAndClean (stale : Stale) (passes : Nat) (e : Errno) (i : Int) (g : MountMem) : Ret Unit × MountMem :=
  match errAndCleanRcu stale passes g.mem with
  | (.done, t) =>
    let g' := g.afterTeardown t
    (.err e, { g' with released := g'.released ++ (slotsDown i).map .entry ++ [.container] })
  | (_, t) => (.oops, g.afterTeardown t)

/-- `free_data_structures`; the array is released unless the pointer is `NULL`. -/
def freeDataStructures (stale : Stale) (passes : Nat) (g : MountMem) : Ret Unit × MountMem :=
  match removeAllEntriesSecure stale passes g.mem with
  | (.done, t) =>
    let g' := g.afterTeardown t
    (.ok (), { g' with
      released := g'.released ++ if g.array.isSome then [.container] else []
      array := none
      globals := { g.globals with bldmsMounted := false, theDevSuperblock := none, mdArraySize := 0 } })
  | (_, t) => (.oops, g.afterTeardown t)

/-- The block `last_written_block` starts from: the one of the last node, or the last of the device. -/
def lastWritten (g : MountMem) (n : Nat) : Nat :=
  match prevOf g.mem .head with
  | some (.to (.node a)) => (g.elems a).ndx
  | _ => (n + (2 ^ 64 - 1)) % 2 ^ 32

end MountMem

/-- `bldms_fs_fill_super` from the scan on, for a device of `n` blocks. -/
def fillSuperMem (stale : Stale) (passes : Nat) (env : MountEnv) (dev : Device) (n : Nat) (g : MountMem) :
    Ret Unit × MountMem :=
  match scanMem env dev g 0 n with
  | .next g' =>
    (.ok (), { g' with globals := { g'.globals with lastWrittenBlock := g'.lastWritten n, bldmsMounted := true } })
  | .failed e i g' => g'.errAndClean stale passes e i
  | .died g' => (.oops, g')

/-- The rest of `mount_bdev`: `kill_sb` when `fill_super` has returned an error. -/
def killOnError (stale : Stale) (passes : Nat) : Ret Unit × MountMem → Ret Unit × MountMem
  | (.ok (), g) => (.ok (), g)
  | (.oops, g) => (.oops, g)
  | (.err e, g) =>
    match g.freeDataStructures stale passes with
    | (.ok (), g') => (.err e, g')
    | (_, g') => (.oops, g')

/-- A failed mount has left the driver as it was: an error number is returned, the globals are those of
    an idle driver, and what has been obtained has been released. -/
structure AsBefore (out : Ret Unit × MountMem) : Prop where
  returned : ∃ e, out.1 = .err e
  list : Represents out.2.mem []
  array : out.2.array = none
  size : out.2.globals.mdArraySize = 0
  mounted : out.2.globals.bldmsMounted = false
  entries : ∀ i, .entry i ∈ out.2.obtained → out.2.released.count (.entry i) = 1
  elems : ∀ i, .elem i ∈ out.2.obtained → out.2.released.count (.elem i) = 1
  container : out.2.released.count .container = 1
  buffers : ∀ b, .buffer b ∈ out.2.obtained → .buffer b ∈ out.2.released

/-- The mount gets to its scan, and fails there. -/
structure FailsInScan (nblocks : Nat) (env : MountEnv) (sb : Nat) (d : Driver) : Prop where
  scanned : Scanned nblocks env sb d
  fails : ∃ f, scan env (d.disk sb) ⟨[], d.validBlkList⟩ 0 (d.blockCount sb) = .error f

/-- The mount of device `sb` in memory, from the scan on. -/
def attempt (stale : Stale) (passes : Nat) (env : MountEnv) (sb : Nat) (d : Driver) : Ret Unit × MountMem :=
  killOnError stale passes
    (fillSuperMem stale passes env (d.disk sb) (d.blockCount sb) (.atScan d (d.blockCount sb)))

/-! ## The array is released twice -/

/-- `free_data_structures` of a driver with an array releases it, if it returns. -/
theorem MountMem.container_freeDataStructures (stale : Stale) (passes : Nat) {g g' : MountMem}
    (harr : g.array.isSome = true) (h : g.freeDataStructures stale passes = (.ok (), g')) :
    g.released.count .container + 1 ≤ g'.released.count .container := by
  unfold MountMem.freeDataStructures at h
  split at h
  · obtain rfl := (Prod.mk.inj h).2
    simp only [MountMem.afterTeardown, harr, if_true, List.count_append]
    rw [List.count_singleton_self]
    omega
  · cases h

/-- So does the clean-up of `fill_super`, which keeps the pointer. -/
theorem MountMem.container_errAndClean (stale : Stale) (passes : Nat) {e e' : Errno} {i : Int}
    {g g' : MountMem} (h : g.errAndClean stale passes e i = (.err e', g')) :
    1 ≤ g'.released.count .container ∧ g'.array = g.array := by
  unfold MountMem.errAndClean at h
  split at h
  · obtain rfl := (Prod.mk.inj h).2
    refine ⟨?_, rfl⟩
    simp only [List.count_append]
    rw [List.count_singleton_self]
    omega
  · cases h

/-- A mount that returns an error has been through both. -/
theorem killOnError_err {stale : Stale} {passes : Nat} {r : Ret Unit × MountMem} {e : Errno} {g' : MountMem}
    (h : killOnError stale passes r = (.err e, g')) :
    ∃ g, r = (.err e, g) ∧ g.freeDataStructures stale passes = (.ok (), g') := by
  rcases r with ⟨_ | e₁ | _, g⟩
  · cases h
  · rw [killOnError] at h
    split at h
    · rename_i g₂ hfree
      cases h
      exact ⟨g, rfl, hfree⟩
    · cases h
  · cases h

/-- What a failing scan of an idle driver leaves, and where `fill_super` goes from there. -/
theorem FailsInScan.broken {nblocks : Nat} {env : MountEnv} {sb : Nat} {d : Driver} (hd : Idle d)
    (hfail : FailsInScan nblocks env sb d) (stale : Stale) (passes : Nat) :
    ∃ (e : Errno) (s : Scan) (k : Nat) (g : MountMem) (l : List Nat),
      scan env (d.disk sb) ⟨[], d.validBlkList⟩ 0 (d.blockCount sb) = .error (e, s) ∧
      fillSuperMem stale passes env (d.disk sb) (d.blockCount sb) (.atScan d (d.blockCount sb)) =
        g.errAndClean stale passes e (lastEntry env k) ∧ k < d.blockCount sb ∧
      Broken ⟨d.bldmsMounted, d.theDevSuperblock, d.blockCount sb, d.lastWrittenBlock⟩ env (d.disk sb) k s g l := by
  obtain ⟨⟨e, s⟩, hscan⟩ := hfail.fails
  rw [hd.list] at hscan ⊢
  generalize d.blockCount sb = n at hscan ⊢
  obtain ⟨k, g, l, hk, hmem, hbroken⟩ := (held_atScan d (d.disk sb) n).scan_failed hscan
  exact ⟨e, s, k, g, l, hscan, by rw [fillSuperMem, hmem], by omega, hbroken⟩

/-- Nothing fails but the allocation of the entry of block 1. -/
def noSecondEntry : MountEnv := { MountEnv.allOk with allocMd := fun i => if i = 1 then none else some i }

/-- Nothing fails but the read of block 1. -/
def unreadableSecond : MountEnv := { MountEnv.allOk with bread := fun i => i != 1 }

theorem blockCount_emptyImage_two : (idleDriver (emptyImage 2)).blockCount 0 = 2 := by
  show inodeFileSize (sizedImage (2 * 4096) 1) / 4096 = 2
  rw [inodeFileSize_sizedImage (by omega)]

/-- A scan of an empty device of two blocks that fails. -/
theorem failsInScan_emptyImage {env : MountEnv} (hsb : env.breadSb = true) (higet : env.igetRoot = true)
    (hroot : env.makeRoot = true) (hinode : env.breadInode = true) (harr : env.allocArray = true)
    {f : Errno × Scan} (hscan : scan env (sizedImage 8192) ⟨[], []⟩ 0 2 = .error f) :
    FailsInScan Config.standard.nblocks env 0 (idleDriver (emptyImage 2)) := by
  refine ⟨⟨hsb, sbMagic_sizedImage (2 * 4096), higet, hroot, hinode, ?_, harr⟩, f, ?_⟩
  · show inodeFileSize (sizedImage (2 * 4096) 1) ≤ _
    rw [inodeFileSize_sizedImage (by omega), sizeLimit_config]
    decide
  · rw [blockCount_emptyImage_two]
    exact hscan

/-- **A mount that fails in its scan**: for every device, every number of blocks, every place and way
    the scan fails, and whatever released memory reads as, the driver is not as it was before. -/
theorem failed_mount_never_clean (stale : Stale) (passes : Nat) {nblocks : Nat} {env : MountEnv} {sb : Nat}
    {d : Driver} (hd : Idle d) (hfail : FailsInScan nblocks env sb d) :
    ¬ AsBefore (attempt stale passes env sb d) := by
  intro hclean
  obtain ⟨e, s, k, g, l, -, hfill, -, hbroken⟩ := hfail.broken hd stale passes
  obtain ⟨e₁, hreturned⟩ := hclean.returned
  have hcontainer := hclean.container
  rw [attempt, hfill] at hreturned hcontainer
  generalize hout : killOnError stale passes (g.errAndClean stale passes e (lastEntry env k)) = out
    at hreturned hcontainer
  obtain ⟨r, g₂⟩ := out
  cases hreturned
  -- both clean-ups have returned, and each has released the array
  obtain ⟨g₁, hclean₁, hfree⟩ := killOnError_err hout
  obtain ⟨hone, harr⟩ := MountMem.container_errAndClean stale passes hclean₁
  have htwo := MountMem.container_freeDataStructures stale passes (by rw [harr, hbroken.array]; rfl) hfree
  have hcount : g₂.released.count .container = 1 := hcontainer
  omega

/-- On an empty device of two blocks, without memory for the second entry. -/
theorem failed_mount_never_clean_second :
    ¬ AsBefore (attempt .asLeft 2 noSecondEntry 0 (idleDriver (emptyImage 2))) := by
  have hscan : scan noSecondEntry (sizedImage 8192) ⟨[], []⟩ 0 2 =
      .error (.enomem, ⟨[⟨0, ⟨0, false, 0⟩⟩], []⟩) := by
    simp [scan, scanStep, noSecondEntry, MountEnv.allOk, metadata_sizedImage]
  exact failed_mount_never_clean .asLeft 2 ⟨rfl, rfl, rfl, rfl, rfl⟩ (failsInScan_emptyImage rfl rfl rfl rfl rfl hscan)

/-! ## What a failed mount leaves -/

section

variable {env : MountEnv} {dev : Device} {i j k : Nat}

theorem entry_mem_obtainedFor : .entry i ∈ obtainedFor dev j ↔ i = j := by
  unfold obtainedFor
  split <;> simp

theorem elem_mem_obtainedFor :
    .elem i ∈ obtainedFor dev j ↔ i = j ∧ (dev (j + 2)).metadata.isValid = true := by
  unfold obtainedFor
  split
  · rename_i hv
    simp [hv]
  · rename_i hv
    simp [hv]

theorem buffer_mem_obtainedFor {b : Nat} : .buffer b ∈ obtainedFor dev j ↔ b = j + 2 := by
  unfold obtainedFor
  split <;> simp

theorem entry_mem_obtainedAt : .entry i ∈ obtainedAt env k ↔ i = k ∧ ¬ (env.allocMd k).isNone = true := by
  unfold obtainedAt
  split <;> split <;> simp_all

theorem elem_notMem_obtainedAt : .elem i ∉ obtainedAt env k := by
  unfold obtainedAt
  split <;> split <;> simp

theorem buffer_mem_obtainedAt {b : Nat} : .buffer b ∈ obtainedAt env k ↔ b = k + 2 ∧ env.bread k = true := by
  unfold obtainedAt
  split <;> split <;> simp_all

theorem buffer_mem_releasedAt {b : Nat} :
    .buffer b ∈ releasedAt env k ↔ b = k + 2 ∧ env.bread k = true ∧ ¬ (env.allocMd k).isNone = true := by
  unfold releasedAt
  split <;> simp_all

theorem mem_slotsDown_lastEntry :
    i ∈ MountMem.slotsDown (lastEntry env k) ↔ i < k ∨ i = k ∧ ¬ (env.allocMd k).isNone = true := by
  unfold MountMem.slotsDown lastEntry
  rw [List.mem_reverse, List.mem_range]
  generalize (env.allocMd k).isNone = missing
  cases missing with
  | true =>
    show i < (((k : Int) - 1) + 1).toNat ↔ _
    simp only [not_true_eq_false, and_false, or_false]
    omega
  | false =>
    show i < ((k : Int) + 1).toNat ↔ _
    simp only [Bool.false_eq_true, not_false_eq_true, and_true]
    omega

theorem nodup_slotsDown (i : Int) : (MountMem.slotsDown i).Nodup :=
  List.nodup_reverse.mpr List.nodup_range

variable {g₀ : Globals} {s : Scan} {g : MountMem} {l : List Nat}

/-- The entries that a failed scan holds are those the clean-up goes through, … -/
theorem Broken.entry_mem (h : Broken g₀ env dev k s g l) :
    .entry i ∈ g.obtained ↔ i ∈ MountMem.slotsDown (lastEntry env k) := by
  rw [h.obtained, mem_slotsDown_lastEntry]
  simp [entry_mem_obtainedFor, entry_mem_obtainedAt]

/-- … its nodes are those in the list, … -/
theorem Broken.elem_mem (h : Broken g₀ env dev k s g l) : .elem i ∈ g.obtained ↔ i ∈ l := by
  rw [h.obtained, h.nodes]
  simp [elem_mem_obtainedFor, elem_notMem_obtainedAt]

/-- … and of the buffers it has read, all but possibly the last are released. -/
theorem Broken.buffer_mem (h : Broken g₀ env dev k s g l) {b : Nat} (hb : .buffer b ∈ g.obtained) :
    .buffer b ∈ g.released ↔ ¬ (b = k + 2 ∧ (env.allocMd k).isNone = true) := by
  have hobt : b = 0 ∨ b = 1 ∨ (∃ j, j < k ∧ b = j + 2) ∨ b = k + 2 ∧ env.bread k = true := by
    rw [h.obtained] at hb
    simpa [buffer_mem_obtainedFor, buffer_mem_obtainedAt] using hb
  have hrel : .buffer b ∈ g.released ↔ b = 0 ∨ b = 1 ∨ (∃ j, j < k ∧ b = j + 2) ∨
      b = k + 2 ∧ env.bread k = true ∧ ¬ (env.allocMd k).isNone = true := by
    have hcomm : ∀ j, (j + 2 = b) = (b = j + 2) := fun j => propext eq_comm
    rw [h.released]
    simp [buffer_mem_releasedAt, hcomm]
  rw [hrel]
  constructor
  · rintro (rfl | rfl | ⟨j, hj, rfl⟩ | ⟨-, -, hsome⟩) ⟨heq, hnone⟩
    · omega
    · omega
    · omega
    · exact hsome hnone
  · intro hnot
    rcases hobt with hb | hb | hb | ⟨hb, hread⟩
    · exact .inl hb
    · exact .inr (.inl hb)
    · exact .inr (.inr (.inl hb))
    · exact .inr (.inr (.inr ⟨hb, hread, fun hnone => hnot ⟨hb, hnone⟩⟩))

/-- Before the clean-up nothing but buffers has been released. -/
theorem Broken.released_buffers (h : Broken g₀ env dev k s g l) {o : Obj} (ho : o ∈ g.released) :
    ∃ b, o = .buffer b := by
  rw [h.released] at ho
  unfold releasedAt at ho
  split at ho
  · simp only [List.mem_cons, List.mem_append, List.mem_map, List.not_mem_nil, or_false] at ho
    rcases ho with rfl | rfl | ⟨j, -, rfl⟩ | rfl <;> exact ⟨_, rfl⟩
  · simp only [List.mem_cons, List.mem_append, List.mem_map, List.not_mem_nil, or_false] at ho
    rcases ho with rfl | rfl | ⟨j, -, rfl⟩ <;> exact ⟨_, rfl⟩

end

/-- What is left of a mount whose scan failed at block `k` with an empty list, after both clean-ups. -/
structure LeftOver (env : MountEnv) (d : Driver) (k : Nat) (g : MountMem) : Prop where
  list : Represents g.mem []
  array : g.array = none
  globals : g.globals = ⟨false, none, 0, d.lastWrittenBlock⟩
  /-- Every entry has been released exactly once, … -/
  entries : ∀ i, .entry i ∈ g.obtained → g.released.count (.entry i) = 1
  /-- … there was no node to be released, … -/
  elems : ∀ i, .elem i ∉ g.obtained
  /-- … the array has been released twice, … -/
  container : g.released.count .container = 2
  /-- … and of the buffers the last one is still held, if there was no entry for it. -/
  buffers : ∀ b, .buffer b ∈ g.obtained →
    (.buffer b ∈ g.released ↔ ¬ (b = k + 2 ∧ (env.allocMd k).isNone = true))

/-- The clean-ups of a memory with an empty list. -/
theorem killOnError_errAndClean_empty (stale : Stale) (passes : Nat) (e : Errno) (i : Int) {g : MountMem}
    (hring : Represents g.mem []) (harr : g.array.isSome = true) :
    killOnError stale passes (g.errAndClean stale passes e i) =
      (.err e, { g with
        released := g.released ++ (MountMem.slotsDown i).map .entry ++ [.container, .container]
        array := none
        globals := { g.globals with bldmsMounted := false, theDevSuperblock := none, mdArraySize := 0 } }) := by
  have hfirst : g.errAndClean stale passes e i =
      (.err e, { g with released := g.released ++ (MountMem.slotsDown i).map .entry ++ [.container] }) := by
    rw [MountMem.errAndClean, errAndCleanRcu, Teardown.run_empty listDel stale passes hring]
    simp [MountMem.afterTeardown, Teardown.start]
  rw [hfirst, killOnError, MountMem.freeDataStructures]
  dsimp only
  rw [removeAllEntriesSecure, Teardown.run_empty listDelRcu stale passes hring]
  simp [MountMem.afterTeardown, Teardown.start, harr]

/-- A mount that fails while the list is empty: the error is returned, the globals are as before, and
    the array has been released twice. -/
theorem failed_mount_empty (stale : Stale) (passes : Nat) {nblocks : Nat} {env : MountEnv} {sb : Nat}
    {d : Driver} (hd : Idle d) (hfail : FailsInScan nblocks env sb d) {e : Errno} {s : Scan}
    (hscan : scan env (d.disk sb) ⟨[], d.validBlkList⟩ 0 (d.blockCount sb) = .error (e, s))
    (hempty : s.list = []) :
    ∃ k g, attempt stale passes env sb d = (.err e, g) ∧ LeftOver env d k g := by
  obtain ⟨e', s', k, g, l, hscan', hfill, -, hbroken⟩ := hfail.broken hd stale passes
  rw [hscan] at hscan'
  obtain ⟨rfl, rfl⟩ := Prod.mk.inj (Except.error.inj hscan')
  obtain rfl : l = [] := List.map_eq_nil_iff.mp (hbroken.list.trans hempty)
  have hout := killOnError_errAndClean_empty stale passes e (lastEntry env k) hbroken.ring
    (by rw [hbroken.array]; rfl)
  rw [← hfill] at hout
  refine ⟨k, _, hout, hbroken.ring, rfl, ?_, ?_, ?_, ?_, ?_⟩
  · dsimp only
    rw [hbroken.globals]
  · intro i hi
    have hbuffers : g.released.count (.entry i) = 0 :=
      List.count_eq_zero.mpr fun h => by
        obtain ⟨b, hb⟩ := hbroken.released_buffers h
        cases hb
    have honce : ((MountMem.slotsDown (lastEntry env k)).map Obj.entry).count (.entry i) = 1 := by
      refine List.count_eq_one_of_mem ?_ (List.mem_map_of_mem (hbroken.entry_mem.mp hi))
      exact (nodup_slotsDown _).map fun _ _ h => Obj.entry.inj h
    rw [List.count_append, List.count_append, hbuffers, honce]
    rfl
  · intro i hi
    exact List.not_mem_nil (hbroken.elem_mem.mp hi)
  · have hbuffers : g.released.count .container = 0 :=
      List.count_eq_zero.mpr fun h => by
        obtain ⟨b, hb⟩ := hbroken.released_buffers h
        cases hb
    have hentries : ((MountMem.slotsDown (lastEntry env k)).map Obj.entry).count .container = 0 := by
      refine List.count_eq_zero.mpr ?_
      simp
    rw [List.count_append, List.count_append, hbuffers, hentries]
    rfl
  · intro b hb
    rw [← hbroken.buffer_mem hb]
    simp

/-- On an empty device of two blocks whose second block cannot be read, the mount returns `-EIO` after
    it has released the array twice. -/
theorem failed_mount_unclean :
    Idle (idleDriver (emptyImage 2)) ∧
    FailsInScan Config.standard.nblocks unreadableSecond 0 (idleDriver (emptyImage 2)) ∧
    ∀ (stale : Stale) (passes : Nat), ∃ g,
      attempt stale passes unreadableSecond 0 (idleDriver (emptyImage 2)) = (.err .eio, g) ∧
      g.released.count .container = 2 ∧ ¬ AsBefore (.err .eio, g) := by
  have hscan : scan unreadableSecond (sizedImage 8192) ⟨[], []⟩ 0 2 =
      .error (.eio, ⟨[⟨0, ⟨0, false, 0⟩⟩, ⟨1, ⟨0, false, 0⟩⟩], []⟩) := by
    simp [scan, scanStep, unreadableSecond, MountEnv.allOk, metadata_sizedImage]
  have hd : Idle (idleDriver (emptyImage 2)) := ⟨rfl, rfl, rfl, rfl, rfl⟩
  have hfail : FailsInScan Config.standard.nblocks unreadableSecond 0 (idleDriver (emptyImage 2)) :=
    failsInScan_emptyImage rfl rfl rfl rfl rfl hscan
  refine ⟨hd, hfail, ?_⟩
  intro stale passes
  have hscan' : scan unreadableSecond ((idleDriver (emptyImage 2)).disk 0)
      ⟨[], (idleDriver (emptyImage 2)).validBlkList⟩ 0 ((idleDriver (emptyImage 2)).blockCount 0) =
      .error (.eio, ⟨[⟨0, ⟨0, false, 0⟩⟩, ⟨1, ⟨0, false, 0⟩⟩], []⟩) := by
    rw [blockCount_emptyImage_two]
    exact hscan
  obtain ⟨k, g, hout, hleft⟩ := failed_mount_empty stale passes hd hfail hscan' rfl
  refine ⟨g, hout, hleft.container, ?_⟩
  intro hclean
  have hone : g.released.count .container = 1 := hclean.container
  rw [hleft.container] at hone
  cases hone

/-- A mount that fails while there is a node in the list, with released memory as it was left: the
    thread dies at the node, the only object released beside the buffers. -/
theorem failed_mount_listed {nblocks : Nat} {env : MountEnv} {sb : Nat} {d : Driver} (hd : Idle d)
    (hfail : FailsInScan nblocks env sb d) {e : Errno} {s : Scan}
    (hscan : scan env (d.disk sb) ⟨[], d.validBlkList⟩ 0 (d.blockCount sb) = .error (e, s))
    (hne : s.list ≠ []) {passes : Nat} (hpasses : d.blockCount sb ≤ passes) :
    ∃ a l g, attempt .asLeft passes env sb d = (.oops, g) ∧ Represents g.mem l ∧
      l.map g.elems = s.list.tail ∧ g.array = some s.arr ∧
      g.globals = ⟨d.bldmsMounted, d.theDevSuperblock, d.blockCount sb, d.lastWrittenBlock⟩ ∧
      ∀ o ∈ g.released, o = .elem a ∨ ∃ b, o = .buffer b := by
  obtain ⟨e', s', k, g, l, hscan', hfill, hk, hbroken⟩ := hfail.broken hd .asLeft passes
  rw [hscan] at hscan'
  obtain ⟨rfl, rfl⟩ := Prod.mk.inj (Except.error.inj hscan')
  cases l with
  | nil => exact absurd hbroken.list.symm hne
  | cons a l =>
    obtain ⟨passes, rfl⟩ := Nat.exists_eq_add_one_of_ne_zero (show passes ≠ 0 by omega)
    obtain ⟨t, hloop, hring, -, hreleased, -⟩ := errAndCleanRcu_asLeft hbroken.ring passes
    have hdies : g.errAndClean .asLeft (passes + 1) e (lastEntry env k) = (.oops, g.afterTeardown t) := by
      rw [MountMem.errAndClean, hloop]
    refine ⟨a, l, g.afterTeardown t, ?_, hring, ?_, hbroken.array, hbroken.globals, ?_⟩
    · rw [attempt, hfill, hdies]
      rfl
    · show l.map g.elems = s.list.tail
      rw [← hbroken.list]
      rfl
    · intro o ho
      rcases List.mem_append.mp ho with ho | ho
      · exact .inr (hbroken.released_buffers ho)
      · rw [hreleased] at ho
        exact .inl (List.mem_singleton.mp ho)

/-! ## The mount in memory is the mount -/

/-- The memory `g` holds what the driver `d` holds. -/
structure Refines (g : MountMem) (d : Driver) : Prop where
  list : ∃ l, Represents g.mem l ∧ l.map g.elems = d.validBlkList
  array : g.array.getD [] = d.metadataArray
  globals : g.globals = ⟨d.bldmsMounted, d.theDevSuperblock, d.mdArraySize, d.lastWrittenBlock⟩

/-- `free_data_structures` of a driver, with released memory as it was left: the list is taken down,
    however long it is. -/
theorem Refines.freeDataStructures {g : MountMem} {d : Driver} (h : Refines g d) {passes : Nat}
    (hpasses : d.validBlkList.length ≤ passes) :
    ∃ g', g.freeDataStructures .asLeft passes = (.ok (), g') ∧ Refines g' d.freeDataStructures := by
  obtain ⟨l, hring, hlist⟩ := h.list
  have hlen : l.length ≤ passes := by
    rw [← hlist, List.length_map] at hpasses
    exact hpasses
  obtain ⟨t, hloop, hempty, -⟩ := removeAllEntriesSecure_asLeft hring hlen
  have hfree : g.freeDataStructures .asLeft passes = (.ok (), { g.afterTeardown t with
      released := (g.afterTeardown t).released ++ if g.array.isSome then [.container] else []
      array := none
      globals := { g.globals with
        bldmsMounted := false, theDevSuperblock := none, mdArraySize := 0 } }) := by
    rw [MountMem.freeDataStructures, hloop]
  refine ⟨_, hfree, ⟨[], hempty, rfl⟩, rfl, ?_⟩
  show Globals.mk false none 0 g.globals.lastWrittenBlock = _
  rw [h.globals]
  rfl

/-- What `fill_super` leaves when its scan fails. -/
theorem fillSuper_failed {nblocks : Nat} {env : MountEnv} {sb : Nat} {d : Driver}
    (h : Scanned nblocks env sb d) {e : Errno} {s : Scan}
    (hscan : scan env (d.disk sb) ⟨[], d.validBlkList⟩ 0 (d.blockCount sb) = .error (e, s)) :
    fillSuper nblocks env sb d =
      if s.list = [] then (.err e, { d with metadataArray := [], mdArraySize := d.blockCount sb })
      else (.oops, { d with
        metadataArray := s.arr, mdArraySize := d.blockCount sb, validBlkList := s.list.tail }) := by
  have hcount : inodeFileSize (d.disk sb bldmsInodesBlockNumber) / defaultBlockSize = d.blockCount sb := rfl
  unfold fillSuper
  rw [if_neg (fun hn => hn h.breadSb), if_neg (fun hn => hn h.magic), if_neg (fun hn => hn h.igetRoot),
    if_neg (fun hn => hn h.makeRoot), if_neg (fun hn => hn h.breadInode)]
  dsimp only
  rw [if_neg (Nat.not_lt.mpr h.size), if_neg (fun hn => hn h.allocArray), hcount, hscan]

/-- What it leaves when its scan completes. -/
theorem fillSuper_completed {nblocks : Nat} {env : MountEnv} {sb : Nat} {d : Driver}
    (h : Scanned nblocks env sb d) {s : Scan}
    (hscan : scan env (d.disk sb) ⟨[], d.validBlkList⟩ 0 (d.blockCount sb) = .ok s) :
    fillSuper nblocks env sb d = (.ok (),
      { d with
        metadataArray := s.arr
        mdArraySize := d.blockCount sb
        validBlkList := s.list
        lastWrittenBlock := initialLastWritten s.list (d.blockCount sb)
        bldmsMounted := true }) := by
  have hcount : inodeFileSize (d.disk sb bldmsInodesBlockNumber) / defaultBlockSize = d.blockCount sb := rfl
  unfold fillSuper
  rw [if_neg (fun hn => hn h.breadSb), if_neg (fun hn => hn h.magic), if_neg (fun hn => hn h.igetRoot),
    if_neg (fun hn => hn h.makeRoot), if_neg (fun hn => hn h.breadInode)]
  dsimp only
  rw [if_neg (Nat.not_lt.mpr h.size), if_neg (fun hn => hn h.allocArray), hcount, hscan]

/-- The last node is the one `last_written_block` starts from. -/
theorem Held.lastWritten {g₀ : Globals} {dev : Device} {i n : Nat} {s : Scan} {g : MountMem} {l : List Nat}
    (h : Held g₀ dev i s g l) : g.lastWritten n = initialLastWritten s.list n := by
  rw [MountMem.lastWritten, initialLastWritten, h.ring.last, ← h.list, List.getLast?_map]
  rcases List.eq_nil_or_concat' l with rfl | ⟨pre, a, rfl⟩
  · rfl
  · rw [predOf_concat, List.getLast?_concat]
    rfl

/-- A scan that completes: the memory holds the new list and the new array. -/
theorem fillSuperMem_completed (stale : Stale) (passes : Nat) {env : MountEnv} {dev : Device} {d : Driver}
    {n : Nat} {s : Scan} (hscan : scan env dev ⟨[], []⟩ 0 n = .ok s) :
    ∃ g, killOnError stale passes (fillSuperMem stale passes env dev n (.atScan d n)) = (.ok (), g) ∧
      Refines g { d with
        metadataArray := s.arr
        mdArraySize := n
        validBlkList := s.list
        lastWrittenBlock := initialLastWritten s.list n
        bldmsMounted := true } := by
  obtain ⟨g, l, hmem, hheld⟩ := (held_atScan d dev n).scan_ok hscan
  rw [fillSuperMem, hmem]
  refine ⟨_, rfl, ⟨l, hheld.ring, hheld.list⟩, ?_, ?_⟩
  · show g.array.getD [] = s.arr
    rw [hheld.array]
    rfl
  · show Globals.mk true g.globals.theDevSuperblock g.globals.mdArraySize (g.lastWritten n) = _
    rw [hheld.globals, hheld.lastWritten]

/-- **The refinement**: with released memory as it was left, the mount in memory returns what
    `mountBdev` returns, and holds what it holds. -/
theorem attempt_refines {nblocks : Nat} {env : MountEnv} {sb : Nat} {d : Driver} (hd : Idle d)
    (hscanned : Scanned nblocks env sb d) {passes : Nat} (hpasses : d.blockCount sb ≤ passes) :
    (attempt .asLeft passes env sb d).1 = (mountBdev nblocks env sb d).1 ∧
      Refines (attempt .asLeft passes env sb d).2 (mountBdev nblocks env sb d).2 := by
  cases hscan : scan env (d.disk sb) ⟨[], d.validBlkList⟩ 0 (d.blockCount sb) with
  | error f =>
    obtain ⟨e, s⟩ := f
    have hfail : FailsInScan nblocks env sb d := ⟨hscanned, _, hscan⟩
    rw [mountBdev, fillSuper_failed hscanned hscan]
    by_cases hempty : s.list = []
    · rw [if_pos hempty]
      obtain ⟨k, g, hout, hleft⟩ := failed_mount_empty .asLeft passes hd hfail hscan hempty
      rw [hout]
      exact ⟨rfl, ⟨[], hleft.list, rfl⟩, by rw [hleft.array]; rfl, hleft.globals⟩
    · rw [if_neg hempty]
      obtain ⟨a, l, g, hout, hring, hlist, harr, hglobals, -⟩ :=
        failed_mount_listed hd hfail hscan hempty hpasses
      rw [hout]
      exact ⟨rfl, ⟨l, hring, hlist⟩, by rw [harr]; rfl, hglobals⟩
  | ok s =>
    rw [mountBdev, fillSuper_completed hscanned hscan]
    rw [hd.list] at hscan
    obtain ⟨g, hout, hrefines⟩ := fillSuperMem_completed .asLeft passes (d := d) hscan
    rw [attempt, hout]
    exact ⟨rfl, hrefines⟩

end Bldms
