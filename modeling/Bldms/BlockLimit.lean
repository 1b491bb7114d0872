/-
  The limit on the number of blocks.

  Source: `bldms.c`, the size check of `bldms_fs_fill_super`; `include/bldms.h`, `NBLOCKS`.

  A device should be refused when it has more than `NBLOCKS` blocks.  The check compares BYTES: the 64-bit
  file size with the `int` product `NBLOCKS * DEFAULT_BLOCK_SIZE`.  It differs from what is meant in two ways.
  * A file size that is not a multiple of the block size is refused as soon as it exceeds the product, although
    the driver would only manage the whole blocks in it.
  * The product keeps `NBLOCKS % 2 ^ 20` blocks.  From `2 ^ 19` on it is negative and, converted to 64 bits,
    nearly everything is below it; from `2 ^ 20` on it has lost blocks, and devices well within the limit are
    refused (`sizeLimit_cases`).

  `size_check_iff` says for which limits and sizes the check is right.
-/
import Bldms.Calls

namespace Bldms

/-- The product of the size check: the blocks that are left of `NBLOCKS` in 32 bits, and a sign. -/
theorem sizeLimit_cases (nblocks : Nat) :
    sizeLimit nblocks =
      if nblocks % 2 ^ 20 < 2 ^ 19 then nblocks % 2 ^ 20 * 4096
      else 2 ^ 64 - 2 ^ 32 + nblocks % 2 ^ 20 * 4096 := by
  have hword : BitVec.ofNat 32 (nblocks * defaultBlockSize) = BitVec.ofNat 32 (nblocks % 2 ^ 20 * 4096) := by
    apply BitVec.eq_of_toNat_eq
    rw [BitVec.toNat_ofNat, BitVec.toNat_ofNat]
    show nblocks * 4096 % 2 ^ 32 = _
    omega
  have hlt := Nat.mod_lt nblocks (show 2 ^ 20 > 0 by omega)
  rw [sizeLimit, hword]
  generalize nblocks % 2 ^ 20 = p at hlt
  split
  · exact toNat_signExtend_of_lt (by omega)
  · have hmsb : (BitVec.ofNat 32 (p * 4096)).msb = true := by
      rw [BitVec.msb_eq_decide, BitVec.toNat_ofNat, decide_eq_true_eq]
      omega
    rw [BitVec.toNat_signExtend, hmsb, BitVec.toNat_setWidth, BitVec.toNat_ofNat]
    show p * 4096 % 2 ^ 32 % 2 ^ 64 + (2 ^ 64 - 2 ^ 32) = _
    omega

/-! ## The error number of the size check -/

/-- `fill_super` comes to its size check. -/
structure SizeChecked (env : MountEnv) (sb : Nat) (d : Driver) : Prop where
  breadSb : env.breadSb = true
  magic : sbMagic (d.disk sb 0) = magicNumber
  igetRoot : env.igetRoot = true
  makeRoot : env.makeRoot = true
  breadInode : env.breadInode = true

theorem scanStep_errno {env : MountEnv} {dev : Device} {s : Scan} {i : Nat} {f : Errno × Scan}
    (h : scanStep env dev s i = .error f) : f.1 = .enomem ∨ f.1 = .eio := by
  unfold scanStep at h
  split at h
  · exact .inl (by rw [← Except.error.inj h])
  split at h
  · exact .inr (by rw [← Except.error.inj h])
  dsimp only at h
  split at h
  · split at h
    · exact .inl (by rw [← Except.error.inj h])
    · cases h
  · cases h

theorem scan_errno {env : MountEnv} {dev : Device} :
    ∀ {n i : Nat} {s : Scan} {f : Errno × Scan}, scan env dev s i n = .error f →
      f.1 = .enomem ∨ f.1 = .eio := by
  intro n
  induction n with
  | zero => intro i s f h; cases h
  | succ n ih =>
    intro i s f h
    rw [scan] at h
    cases hstep : scanStep env dev s i with
    | error g =>
      rw [hstep] at h
      exact Except.error.inj h ▸ scanStep_errno hstep
    | ok s₁ =>
      rw [hstep] at h
      exact ih h

/-- The size check answers `E2BIG`, and nothing after it does. -/
theorem fillSuper_e2big_iff {nblocks : Nat} {env : MountEnv} {sb : Nat} {d : Driver}
    (hreach : SizeChecked env sb d) :
    bldmsFsFillSuper nblocks env sb d = .err .e2big ↔
      sizeLimit nblocks < inodeFileSize (d.disk sb 1) := by
  unfold bldmsFsFillSuper
  rw [if_neg (fun h => h hreach.breadSb), if_neg (fun h => h hreach.magic),
    if_neg (fun h => h hreach.igetRoot), if_neg (fun h => h hreach.makeRoot),
    if_neg (fun h => h hreach.breadInode)]
  dsimp only
  constructor
  · intro h
    by_contra hle
    rw [if_neg hle] at h
    split at h
    · cases h
    generalize inodeFileSize (d.disk sb bldmsInodesBlockNumber) / defaultBlockSize = n at h
    cases hscan : scan env (d.disk sb) ⟨[], d.validBlkList⟩ 0 n with
    | ok s => rw [hscan] at h; cases h
    | error f =>
      rw [hscan] at h
      dsimp only at h
      split at h
      · -- the scan has error numbers of its own
        have he : f.1 = .e2big := Ret.err.inj h
        rcases scan_errno hscan with h₁ | h₁ <;> rw [h₁] at he <;> cases he
      · cases h
  · exact fun h => if_pos h

/-- **The limit on the number of blocks.** For every `NBLOCKS` in the positive range of an `int` and
    every file size, the size check lets the device pass exactly when it has at most `NBLOCKS` whole
    blocks, if and only if the size is not in the gap between the two: above the product and below
    `NBLOCKS + 1` blocks when `NBLOCKS % 2 ^ 20` is below `2 ^ 19`, and from `NBLOCKS + 1` blocks up to
    the sign-extended product when it is not. -/
theorem size_check_iff (nblocks : Nat) (_hpos : 0 < nblocks) (hint : nblocks < 2 ^ 31) (env : MountEnv)
    (sb : Nat) (d : Driver) (hreach : SizeChecked env sb d) :
    ((bldmsFsFillSuper nblocks env sb d ≠ .err .e2big ↔ d.blockCount sb ≤ nblocks) ↔
      if nblocks % 2 ^ 20 < 2 ^ 19 then
        inodeFileSize (d.disk sb 1) ≤ nblocks % 2 ^ 20 * 4096 ∨
          (nblocks + 1) * 4096 ≤ inodeFileSize (d.disk sb 1)
      else
        inodeFileSize (d.disk sb 1) < (nblocks + 1) * 4096 ∨
          2 ^ 64 - 2 ^ 32 + nblocks % 2 ^ 20 * 4096 < inodeFileSize (d.disk sb 1)) := by
  rw [ne_eq, fillSuper_e2big_iff hreach, sizeLimit_cases, Driver.blockCount]
  generalize inodeFileSize (d.disk sb 1) = fileSize
  have hmod := Nat.mod_le nblocks (2 ^ 20)
  split <;> omega

/-- A formatted device without messages, of any size, gets as far as the check. -/
theorem sizeChecked_sizedImage (size : Nat) : SizeChecked .allOk 0 (idleDriver (sizedImage size)) :=
  ⟨rfl, sbMagic_sizedImage size, rfl, rfl, rfl⟩

theorem blockCount_sizedImage {size : Nat} (h : size < 2 ^ 64) :
    (idleDriver (sizedImage size)).blockCount 0 = size / 4096 :=
  congrArg (· / 4096) (inodeFileSize_sizedImage h)

/-- With the `NBLOCKS` of the header, the check is right about a device of 1000 blocks. -/
theorem size_check_standard :
    bldmsFsFillSuper 1000 .allOk 0 (idleDriver (sizedImage 4096000)) ≠ .err .e2big ↔
      (idleDriver (sizedImage 4096000)).blockCount 0 ≤ 1000 := by
  refine (size_check_iff 1000 (by decide) (by decide) .allOk 0 _ (sizeChecked_sizedImage _)).mpr ?_
  have hsize : inodeFileSize ((idleDriver (sizedImage 4096000)).disk 0 1) = 4096000 :=
    inodeFileSize_sizedImage (by decide)
  rw [hsize]
  decide

/-- A file of 1000 blocks and a byte is refused with `NBLOCKS` 1000; one of 2 ^ 20 blocks passes with
    `NBLOCKS` 2 ^ 19; and one of a single block is refused with `NBLOCKS` 2 ^ 20. -/
theorem size_check_wrong :
    ¬ (bldmsFsFillSuper 1000 .allOk 0 (idleDriver (sizedImage 4096001)) ≠ .err .e2big ↔
        (idleDriver (sizedImage 4096001)).blockCount 0 ≤ 1000) ∧
    ¬ (bldmsFsFillSuper (2 ^ 19) .allOk 0 (idleDriver (sizedImage (2 ^ 32))) ≠ .err .e2big ↔
        (idleDriver (sizedImage (2 ^ 32))).blockCount 0 ≤ 2 ^ 19) ∧
    ¬ (bldmsFsFillSuper (2 ^ 20) .allOk 0 (idleDriver (sizedImage 4096)) ≠ .err .e2big ↔
        (idleDriver (sizedImage 4096)).blockCount 0 ≤ 2 ^ 20) := by
  have hwrong : ∀ {nblocks size : Nat}, size < 2 ^ 64 →
      ¬ (¬ sizeLimit nblocks < size ↔ size / 4096 ≤ nblocks) →
      ¬ (bldmsFsFillSuper nblocks .allOk 0 (idleDriver (sizedImage size)) ≠ .err .e2big ↔
        (idleDriver (sizedImage size)).blockCount 0 ≤ nblocks) := by
    intro nblocks size hsize h
    have hfile : inodeFileSize ((idleDriver (sizedImage size)).disk 0 1) = size :=
      inodeFileSize_sizedImage hsize
    rwa [ne_eq, fillSuper_e2big_iff (sizeChecked_sizedImage size), hfile, blockCount_sizedImage hsize]
  exact ⟨hwrong (by decide) (by decide), hwrong (by decide) (by decide), hwrong (by decide) (by decide)⟩

end Bldms
