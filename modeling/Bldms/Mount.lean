/-
  Mounting a device.

  Source: `bldms.c`, `bldms_fs_fill_super` and `bldms_fs_mount`.

  The scan of the data blocks (`scan`) fills the metadata array with what the first ten bytes of each
  block decode to, and inserts the valid blocks into the RCU list, timestamp by timestamp.  A scan
  that stops early hands back what it had built, beside the error number: the clean-up starts there.

  `NBLOCKS` is a compile-time parameter.  The size check compares the 64-bit file size with the `int`
  product `NBLOCKS * DEFAULT_BLOCK_SIZE` (`sizeLimit`), so the product has to be an `int` for the
  check to say what it means; `Config` is a configuration of that kind.
-/
import Bldms.Driver

namespace Bldms

/-- What a mount gets from outside. -/
structure MountEnv where
  /-- `sb_bread` of the superblock succeeds. -/
  breadSb : Bool
  /-- `iget_locked` of the root inode succeeds. -/
  igetRoot : Bool
  /-- `d_make_root` succeeds. -/
  makeRoot : Bool
  /-- `sb_bread` of the inode block succeeds. -/
  breadInode : Bool
  /-- `kzalloc`/`vzalloc` of the array of pointers succeeds. -/
  allocArray : Bool
  /-- `sb_bread` of data block `i` succeeds. -/
  bread : Nat → Bool
  /-- `kzalloc` of metadata entry `i`: its identity, or `NULL`. -/
  allocMd : Nat → Option Nat
  /-- `kzalloc` of the list node of block `i` succeeds. -/
  allocElem : Nat → Bool
  /-- `blkdev_get_by_path` gives a device with a superblock. -/
  getDevice : Bool

/-! ## The scan of the data blocks -/

/-- What the scan has built so far: the array and the list. -/
structure Scan where
  arr : List MdEntry
  list : List RcuElem
  deriving DecidableEq, Repr

/-- The body of the scan loop, for block `i`. -/
def scanStep (env : MountEnv) (dev : Device) (s : Scan) (i : Nat) : Except (Errno × Scan) Scan :=
  match env.allocMd i with
  | none => .error (.enomem, s)
  | some id =>
    if ¬ env.bread i then .error (.eio, { s with arr := s.arr ++ [⟨id, ⟨0, false, 0⟩⟩] })
    else
      let md := (dev (i + numMetadataBlks)).metadata
      let arr := s.arr ++ [⟨id, md⟩]
      if md.isValid then
        if ¬ env.allocElem i then .error (.enomem, { s with arr := arr })
        else .ok ⟨arr, addValidBlockInOrderSecure s.list i md.validBytes.toNat md.nsec⟩
      else .ok { s with arr := arr }

/-- The scan of blocks `i, …, i + n - 1`. -/
def scan (env : MountEnv) (dev : Device) (s : Scan) (i : Nat) : Nat → Except (Errno × Scan) Scan
  | 0 => .ok s
  | n + 1 =>
    match scanStep env dev s i with
    | .ok s' => scan env dev s' (i + 1) n
    | .error f => .error f

/-! ## `bldms_fs_fill_super` and `bldms_fs_mount` -/

/-- `NBLOCKS * DEFAULT_BLOCK_SIZE` as the size check sees it: an `int` product, converted to 64
    unsigned bits. -/
def sizeLimit (nblocks : Nat) : Nat :=
  ((BitVec.ofNat 32 (nblocks * defaultBlockSize)).signExtend 64).toNat

/-- The block `last_written_block` starts from: the last one of the list, or the last of the device
    (`md_array_size - 1`, a `size_t` stored in 32 bits). -/
def initialLastWritten (l : List RcuElem) (n : Nat) : Nat :=
  match l.getLast? with
  | some el => el.ndx
  | none => (n + (2 ^ 64 - 1)) % 2 ^ 32

/-- `bldms_fs_fill_super` for the superblock `sb`, compiled with `NBLOCKS = nblocks`. -/
def bldmsFsFillSuper (nblocks : Nat) (env : MountEnv) (sb : Nat) (d : Driver) : Ret Driver :=
  -- the source tests `sb` where it means `bh`, so a failed read is dereferenced
  if ¬ env.breadSb then .oops
  else if sbMagic (d.disk sb sbBlockNumber) ≠ magicNumber then .err .ebadf
  else if ¬ env.igetRoot then .err .enomem
  else if ¬ env.makeRoot then .err .enomem
  else if ¬ env.breadInode then .err .eio
  else
    let fileSize := inodeFileSize (d.disk sb bldmsInodesBlockNumber)
    if fileSize > sizeLimit nblocks then .err .e2big
    else
      let n := fileSize / defaultBlockSize
      if ¬ env.allocArray then .err .einval
      else match scan env (d.disk sb) ⟨[], d.validBlkList⟩ 0 n with
        -- the clean-up loop follows the link that `list_del` has just poisoned, unless the list is empty
        | .error (e, s) => if s.list = [] then .err e else .oops
        | .ok s => .ok
          { d with
            metadataArray := s.arr
            mdArraySize := n
            validBlkList := s.list
            lastWrittenBlock := initialLastWritten s.list n
            bldmsMounted := true }

/-- `bldms_fs_mount`: one mount at a time, then `fill_super`, then the superblock is captured for the
    system calls. -/
def bldmsFsMount (nblocks : Nat) (env : MountEnv) (sb : Nat) (d : Driver) : Ret Driver :=
  if d.bldmsMounted then .err .ebusy
  else match bldmsFsFillSuper nblocks env sb d with
    | .ok d' => if ¬ env.getDevice then .err .einval else .ok { d' with theDevSuperblock := some sb }
    | .err e => .err e
    | .oops => .oops

/-! ## Configurations -/

/-- A compile-time configuration: `NBLOCKS` is positive and its product with the block size is an
    `int`, as the constant expression in the size check requires. -/
structure Config where
  nblocks : Nat
  pos : 0 < nblocks
  fits : nblocks * defaultBlockSize < 2 ^ 31

/-- The configuration of `include/bldms.h` and of the Makefile. -/
def Config.standard : Config := ⟨1000, by decide, by decide⟩

/-- A non-negative `int` keeps its value when it is converted to 64 unsigned bits. -/
theorem toNat_signExtend_of_lt {k : Nat} (h : k < 2 ^ 31) :
    ((BitVec.ofNat 32 k).signExtend 64).toNat = k := by
  have hmsb : (BitVec.ofNat 32 k).msb = false := by
    rw [BitVec.msb_eq_decide, BitVec.toNat_ofNat, decide_eq_false_iff_not]
    omega
  rw [BitVec.toNat_signExtend, hmsb]
  simp only [Bool.false_eq_true, if_false, Nat.add_zero, BitVec.toNat_setWidth, BitVec.toNat_ofNat]
  omega

theorem sizeLimit_eq {nblocks : Nat} (hfits : nblocks * 4096 < 2 ^ 31) :
    sizeLimit nblocks = nblocks * 4096 := toNat_signExtend_of_lt hfits

theorem sizeLimit_config (cfg : Config) : sizeLimit cfg.nblocks = cfg.nblocks * 4096 :=
  sizeLimit_eq cfg.fits

/-- The inversion of a successful `fill_super`: which checks passed, and what the scan produced. -/
theorem bldmsFsFillSuper_ok {nblocks : Nat} {env : MountEnv} {sb : Nat} {d d' : Driver}
    (h : bldmsFsFillSuper nblocks env sb d = .ok d') :
    sbMagic (d.disk sb 0) = magicNumber ∧ inodeFileSize (d.disk sb 1) ≤ sizeLimit nblocks ∧
    ∃ s, scan env (d.disk sb) ⟨[], d.validBlkList⟩ 0 (inodeFileSize (d.disk sb 1) / 4096) = .ok s ∧
      d' = { d with
        metadataArray := s.arr
        mdArraySize := inodeFileSize (d.disk sb 1) / 4096
        validBlkList := s.list
        lastWrittenBlock := initialLastWritten s.list (inodeFileSize (d.disk sb 1) / 4096)
        bldmsMounted := true } := by
  unfold bldmsFsFillSuper at h
  split at h
  · nomatch h
  split at h
  · nomatch h
  rename_i hmagic
  iterate 3 (split at h; · nomatch h)
  dsimp only at h
  split at h
  · nomatch h
  rename_i hsize
  split at h
  · nomatch h
  split at h
  · split at h <;> nomatch h
  rename_i s hscan
  exact ⟨not_not.mp hmagic, Nat.le_of_not_lt hsize, s, hscan, (Ret.ok.inj h).symm⟩

/-- The inversion of a successful mount. -/
theorem bldmsFsMount_ok {nblocks : Nat} {env : MountEnv} {sb : Nat} {d d' : Driver}
    (h : bldmsFsMount nblocks env sb d = .ok d') :
    d.bldmsMounted = false ∧
    ∃ d₁, bldmsFsFillSuper nblocks env sb d = .ok d₁ ∧ d' = { d₁ with theDevSuperblock := some sb } := by
  unfold bldmsFsMount at h
  split at h
  · nomatch h
  rename_i hmounted
  refine ⟨by simpa using hmounted, ?_⟩
  cases hfill : bldmsFsFillSuper nblocks env sb d with
  | err e => rw [hfill] at h; nomatch h
  | oops => rw [hfill] at h; nomatch h
  | ok d₁ =>
    simp only [hfill] at h
    split at h
    · nomatch h
    exact ⟨d₁, rfl, (Ret.ok.inj h).symm⟩

/-! ## A mount that succeeds -/

/-- Block reads and allocations succeed, and the device is found. -/
structure MountEnv.Succeeds (env : MountEnv) : Prop where
  breadSb : env.breadSb = true
  igetRoot : env.igetRoot = true
  makeRoot : env.makeRoot = true
  breadInode : env.breadInode = true
  allocArray : env.allocArray = true
  bread : ∀ i, env.bread i = true
  allocMd : ∀ i, (env.allocMd i).isSome = true
  allocElem : ∀ i, env.allocElem i = true
  getDevice : env.getDevice = true

/-- The scan fails on nothing but block reads and allocations. -/
theorem scan_succeeds {env : MountEnv} (henv : env.Succeeds) (dev : Device) :
    ∀ (n i : Nat) (s : Scan), ∃ s', scan env dev s i n = .ok s'
  | 0, _, s => ⟨s, rfl⟩
  | n + 1, i, s => by
    have hstep : ∃ s₁, scanStep env dev s i = .ok s₁ := by
      obtain ⟨id, hid⟩ := Option.isSome_iff_exists.mp (henv.allocMd i)
      rw [scanStep, hid]
      dsimp only
      rw [if_neg (fun h => h (henv.bread i))]
      split
      · rw [if_neg (fun h => h (henv.allocElem i))]
        exact ⟨_, rfl⟩
      · exact ⟨_, rfl⟩
    obtain ⟨s₁, hs₁⟩ := hstep
    rw [scan, hs₁]
    exact scan_succeeds henv dev n (i + 1) s₁

/-- What is left of `fill_super` once its checks have passed is the scan. -/
theorem bldmsFsFillSuper_eq {nblocks : Nat} {env : MountEnv} (henv : env.Succeeds) {sb : Nat}
    {d : Driver} (hmagic : sbMagic (d.disk sb 0) = magicNumber)
    (hsize : inodeFileSize (d.disk sb 1) ≤ sizeLimit nblocks) {n : Nat}
    (hn : inodeFileSize (d.disk sb 1) / 4096 = n) {s : Scan}
    (hs : scan env (d.disk sb) ⟨[], d.validBlkList⟩ 0 n = .ok s) :
    bldmsFsFillSuper nblocks env sb d = .ok
      { d with
        metadataArray := s.arr
        mdArraySize := n
        validBlkList := s.list
        lastWrittenBlock := initialLastWritten s.list n
        bldmsMounted := true } := by
  have hcount : inodeFileSize (d.disk sb bldmsInodesBlockNumber) / defaultBlockSize = n := hn
  unfold bldmsFsFillSuper
  rw [if_neg (fun h => h henv.breadSb), if_neg (fun h => h hmagic),
    if_neg (fun h => h henv.igetRoot), if_neg (fun h => h henv.makeRoot),
    if_neg (fun h => h henv.breadInode)]
  dsimp only
  rw [hcount, if_neg (Nat.not_lt.mpr hsize), if_neg (fun h => h henv.allocArray), hs]

/-- A device with the magic number and an acceptable size is mounted. -/
theorem bldmsFsMount_succeeds {nblocks : Nat} {env : MountEnv} (henv : env.Succeeds) {sb : Nat}
    {d : Driver} (hfree : d.bldmsMounted = false) (hmagic : sbMagic (d.disk sb 0) = magicNumber)
    (hsize : inodeFileSize (d.disk sb 1) ≤ sizeLimit nblocks) :
    ∃ d₁, bldmsFsFillSuper nblocks env sb d = .ok d₁ ∧
      bldmsFsMount nblocks env sb d = .ok { d₁ with theDevSuperblock := some sb } := by
  obtain ⟨s, hs⟩ := scan_succeeds henv (d.disk sb) (inodeFileSize (d.disk sb 1) / 4096) 0
    ⟨[], d.validBlkList⟩
  have hfill := bldmsFsFillSuper_eq henv hmagic hsize rfl hs
  refine ⟨_, hfill, ?_⟩
  rw [bldmsFsMount, hfree, if_neg Bool.false_ne_true, hfill]
  dsimp only
  rw [if_neg (fun h => h henv.getDevice)]

/-! ## An empty device

  What a formatted device without messages looks like, and what mounting it leaves: the starting
  point of runs on an empty device. -/

/-- A formatted device whose file has `size` bytes, no block of it valid. -/
def sizedImage (size : Nat) : Device := fun b i =>
  if b = 0 then leByte (1 + magicNumber * 2 ^ 64) i.val
  else if b = 1 then leByte (size * 2 ^ 192) i.val
  else 0

/-- A formatted device with `n` data blocks, none of them valid. -/
def emptyImage (n : Nat) : Device := fun b i =>
  if b = 0 then leByte (1 + magicNumber * 2 ^ 64) i.val
  else if b = 1 then leByte (n * 4096 * 2 ^ 192) i.val
  else 0

theorem emptyImage_eq (n : Nat) : emptyImage n = sizedImage (n * 4096) := rfl

/-- The driver before any mount, with `dev` as every device. -/
def idleDriver (dev : Device) : Driver := ⟨false, none, [], [], 0, 0, fun _ => dev⟩

/-- Nothing fails, and the entry of block `i` gets identity `i`. -/
def MountEnv.allOk : MountEnv :=
  ⟨true, true, true, true, true, fun _ => true, fun i => some i, fun _ => true, true⟩

theorem MountEnv.allOk_succeeds : MountEnv.allOk.Succeeds :=
  ⟨rfl, rfl, rfl, rfl, rfl, fun _ => rfl, fun _ => rfl, fun _ => rfl, rfl⟩

/-- The driver mounted on an empty device of `n` blocks. -/
def freshDriver (n : Nat) : Driver where
  bldmsMounted := true
  theDevSuperblock := some 0
  validBlkList := []
  metadataArray := (List.range n).map fun i => ⟨i, ⟨0, false, 0⟩⟩
  mdArraySize := n
  lastWrittenBlock := initialLastWritten [] n
  disk := fun _ => emptyImage n

theorem leWord_byte_of_leByte {b : Block} {w k m : Nat} (hb : ∀ i : Fin 4096, b i = leByte w i.val)
    (hm : k + m ≤ 4096) : leWord (fun i => b.byte (k + i)) m = w / 256 ^ k % 256 ^ m := by
  rw [← leWord_leByte]
  apply leWord_congr
  intro i hi
  rw [← leByte_add, Block.byte, dif_pos (show k + i < 4096 by omega), hb]

theorem sbMagic_sizedImage (size : Nat) : sbMagic (sizedImage size 0) = magicNumber := by
  rw [sbMagic, leWord_byte_of_leByte (b := sizedImage size 0) (fun _ => rfl) (by omega)]
  show (1 + 0x30303030 * 2 ^ 64) / 256 ^ 8 % 256 ^ 8 = 0x30303030
  omega

theorem inodeFileSize_sizedImage {size : Nat} (h : size < 2 ^ 64) :
    inodeFileSize (sizedImage size 1) = size := by
  rw [inodeFileSize, leWord_byte_of_leByte (b := sizedImage size 1) (fun _ => rfl) (by omega)]
  omega

theorem metadata_sizedImage (size k : Nat) : (sizedImage size (k + 2)).metadata = ⟨0, false, 0⟩ := by
  apply Block.metadata_of_bytes
  intro i hi
  rw [Block.byte, dif_pos (show i < 4096 by omega)]
  have hword : (⟨0, false, 0⟩ : BldmsBlock).word = 0 := rfl
  rw [hword, leByte, Nat.zero_div]
  rfl

theorem scan_sizedImage (size : Nat) : ∀ (n i : Nat),
    scan .allOk (sizedImage size) ⟨(List.range i).map fun j => ⟨j, ⟨0, false, 0⟩⟩, []⟩ i n =
      .ok ⟨(List.range (i + n)).map fun j => ⟨j, ⟨0, false, 0⟩⟩, []⟩
  | 0, _ => rfl
  | n + 1, i => by
    have hstep : scanStep .allOk (sizedImage size)
        ⟨(List.range i).map fun j => ⟨j, ⟨0, false, 0⟩⟩, []⟩ i =
        .ok ⟨(List.range (i + 1)).map fun j => ⟨j, ⟨0, false, 0⟩⟩, []⟩ := by
      simp [scanStep, MountEnv.allOk, metadata_sizedImage, List.range_succ]
    rw [scan, hstep]
    dsimp only
    rw [scan_sizedImage size n (i + 1), show i + 1 + n = i + (n + 1) from by omega]

/-- The driver mounted on an empty device whose file has `size` bytes. -/
def sizedDriver (size : Nat) : Driver := { freshDriver (size / 4096) with disk := fun _ => sizedImage size }

/-- An empty device that is not too large for the configuration is mounted. -/
theorem mount_sizedImage (cfg : Config) {size : Nat} (hsize : size ≤ cfg.nblocks * 4096) :
    bldmsFsMount cfg.nblocks .allOk 0 (idleDriver (sizedImage size)) = .ok (sizedDriver size) := by
  have hfits : cfg.nblocks * 4096 < 2 ^ 31 := cfg.fits
  have hfile : inodeFileSize (sizedImage size 1) = size := inodeFileSize_sizedImage (by omega)
  have hcount : inodeFileSize (sizedImage size 1) / 4096 = size / 4096 := by rw [hfile]
  have hlimit : inodeFileSize (sizedImage size 1) ≤ sizeLimit cfg.nblocks := by
    rw [hfile, sizeLimit_config]
    exact hsize
  have hscan : scan .allOk (sizedImage size) ⟨[], []⟩ 0 (size / 4096) =
      .ok ⟨(List.range (size / 4096)).map fun j => ⟨j, ⟨0, false, 0⟩⟩, []⟩ := by
    have h := scan_sizedImage size (size / 4096) 0
    rwa [Nat.zero_add] at h
  have hfill : bldmsFsFillSuper cfg.nblocks .allOk 0 (idleDriver (sizedImage size)) =
      .ok { sizedDriver size with theDevSuperblock := none } :=
    bldmsFsFillSuper_eq (d := idleDriver (sizedImage size)) MountEnv.allOk_succeeds
      (sbMagic_sizedImage size) hlimit hcount hscan
  rw [bldmsFsMount, if_neg (fun h => nomatch h), hfill]
  rfl

theorem mount_emptyImage (cfg : Config) {n : Nat} (hn : n ≤ cfg.nblocks) :
    bldmsFsMount cfg.nblocks .allOk 0 (idleDriver (emptyImage n)) = .ok (freshDriver n) := by
  have hdriver : sizedDriver (n * 4096) = freshDriver n := by
    rw [sizedDriver, Nat.mul_div_cancel n (by omega)]
    rfl
  rw [emptyImage_eq, ← hdriver]
  exact mount_sizedImage cfg (Nat.mul_le_mul_right 4096 hn)

end Bldms
