/-
  The circular choice of the free block.

  Source: `syscalls.c`, the loop of `put_data` under the spinlock.

  `findFree` (in `Syscalls`) is the choice; here is the loop that makes it, with the C types of its
  variables.  The counter `i` is an `int`, compared with a `size_t`; the sum `last_written_block + i` has 32
  unsigned bits; the remainder is taken by a `size_t`, which must not be zero.

  * `freeScan`          — the loop: what it examines, and what it selects;
  * `freeScanLoop_eq`   — for fewer than `2 ^ 31` blocks nothing wraps, up to the last index and to the one
                          increment after it;
  * `circular_choice`   — it examines the blocks in circular order, and selects the nearest free one.
-/
import Bldms.Calls

namespace Bldms

/-- What the loop has done: the indexes it has examined, in order, and `target_block` (`none` for `-1`). -/
structure FreeScan where
  examined : List Nat
  target : Option Nat
  deriving DecidableEq, Repr

namespace Driver

/-- The loop from counter `i` on, in so many passes at most.  A remainder by zero and an access outside
    the array are an `oops`; so is running out of passes, which does not happen. -/
def freeScanLoop (d : Driver) : Nat → BitVec 32 → Ret FreeScan
  | 0, _ => .oops
  | passes + 1, i =>
    if ¬ (i.signExtend 64).toNat ≤ d.mdArraySize then .ok ⟨[], none⟩
    else if d.mdArraySize = 0 then .oops
    else
      let currBlk := (d.lastWrittenBlock + i.toNat) % 2 ^ 32 % d.mdArraySize
      match d.metadataArray[currBlk]? with
      | none => .oops
      | some p =>
        if ¬ p.blk.isValid then .ok ⟨[currBlk], some currBlk⟩
        else match freeScanLoop d passes (i + 1) with
          | .ok r => .ok ⟨currBlk :: r.examined, r.target⟩
          | .err e => .err e
          | .oops => .oops

/-- The loop of `put_data`. -/
def freeScan (d : Driver) : Ret FreeScan := d.freeScanLoop (d.mdArraySize + 1) 1

end Driver

/-- The guard of the loop fails at the first counter beyond the array, even when the increment has
    wrapped. -/
theorem guard_fails {n : Nat} (hn : n < 2 ^ 31) :
    ¬ ((BitVec.ofNat 32 (n + 1)).signExtend 64).toNat ≤ n := by
  rcases Nat.lt_or_ge (n + 1) (2 ^ 31) with hlt | hge
  · rw [toNat_signExtend_of_lt hlt]
    omega
  · obtain rfl : n = 2 ^ 31 - 1 := by omega
    decide

section

variable {d : Driver}

/-- The slots the loop has still to look at, from counter `i` on. -/
def Driver.slotsFrom (d : Driver) (i r : Nat) : List Nat :=
  (List.range r).map fun j => (d.lastWrittenBlock + (i + j)) % d.mdArraySize

theorem slotsFrom_succ (d : Driver) (i r : Nat) :
    d.slotsFrom i (r + 1) = (d.lastWrittenBlock + i) % d.mdArraySize :: d.slotsFrom (i + 1) r := by
  rw [Driver.slotsFrom, List.range_succ_eq_map, List.map_cons, List.map_map]
  congr 1
  apply List.map_congr_left
  intro j _
  rw [Function.comp_apply, Nat.succ_eq_add_one, Nat.add_right_comm i 1 j]
  rfl

theorem slotsFrom_one (d : Driver) :
    d.slotsFrom 1 d.mdArraySize = circular d.lastWrittenBlock d.mdArraySize := by
  apply List.map_congr_left
  intro j _
  rw [Nat.add_comm 1 j]

/-- One pass that looks at slot `k`. -/
theorem freeScanLoop_succ {passes k : Nat} {i : BitVec 32} (hguard : (i.signExtend 64).toNat ≤ d.mdArraySize)
    (hn : d.mdArraySize ≠ 0) (hk : (d.lastWrittenBlock + i.toNat) % 2 ^ 32 % d.mdArraySize = k)
    (hin : k < d.metadataArray.length) :
    d.freeScanLoop (passes + 1) i =
      if d.invalidAt k then .ok ⟨[k], some k⟩
      else match d.freeScanLoop passes (i + 1) with
        | .ok r => .ok ⟨k :: r.examined, r.target⟩
        | .err e => .err e
        | .oops => .oops := by
  rw [Driver.freeScanLoop, if_neg (not_not.mpr hguard), if_neg hn]
  simp only [hk, Driver.invalidAt, List.getElem?_eq_getElem hin, Bool.not_eq_true, Bool.not_eq_true']

/-- **The loop is a search along the slots**: from counter `i` on, `r` slots being left, for any number
    of passes that is enough. -/
theorem freeScanLoop_eq (hflags : d.metadataArray.length = d.mdArraySize) (hn : d.mdArraySize < 2 ^ 31)
    (hlast : 1 ≤ d.mdArraySize → d.lastWrittenBlock < d.mdArraySize) :
    ∀ (r i passes : Nat), 1 ≤ i → i + r = d.mdArraySize + 1 → r < passes →
      d.freeScanLoop passes (BitVec.ofNat 32 i) =
        .ok ⟨lookedAt d.invalidAt (d.slotsFrom i r), (d.slotsFrom i r).find? d.invalidAt⟩ := by
  intro r
  induction r with
  | zero =>
    intro i passes _ hi hpasses
    obtain ⟨passes, rfl⟩ := Nat.exists_eq_add_of_lt hpasses
    obtain rfl : i = d.mdArraySize + 1 := by omega
    exact if_pos (guard_fails hn)
  | succ r ih =>
    intro i passes hpos hi hpasses
    obtain ⟨passes, rfl⟩ : ∃ p, passes = p + 1 := ⟨passes - 1, by omega⟩
    have hlast := hlast (by omega)
    have hguard : ((BitVec.ofNat 32 i).signExtend 64).toNat ≤ d.mdArraySize := by
      rw [toNat_signExtend_of_lt (by omega)]
      omega
    -- both summands are below 2 ^ 31, so the 32-bit sum is exact
    have hk : (d.lastWrittenBlock + (BitVec.ofNat 32 i).toNat) % 2 ^ 32 % d.mdArraySize =
        (d.lastWrittenBlock + i) % d.mdArraySize := by
      rw [BitVec.toNat_ofNat, Nat.mod_eq_of_lt (by omega : i < 2 ^ 32),
        Nat.mod_eq_of_lt (by omega : d.lastWrittenBlock + i < 2 ^ 32)]
    have hin : (d.lastWrittenBlock + i) % d.mdArraySize < d.metadataArray.length := by
      rw [hflags]
      exact Nat.mod_lt _ (by omega)
    have hnext : BitVec.ofNat 32 i + 1 = BitVec.ofNat 32 (i + 1) := (BitVec.ofNat_add i 1).symm
    rw [freeScanLoop_succ hguard (by omega) hk hin, hnext, ih (i + 1) passes (by omega) (by omega) (by omega),
      slotsFrom_succ, lookedAt]
    split
    · rename_i hfree
      rw [List.find?_cons_of_pos hfree]
    · rename_i hvalid
      rw [List.find?_cons_of_neg hvalid]

/-- The loop goes along the circle, and selects what `findFree` finds. -/
theorem freeScan_eq (hflags : d.metadataArray.length = d.mdArraySize) (hn : d.mdArraySize < 2 ^ 31)
    (hlast : 1 ≤ d.mdArraySize → d.lastWrittenBlock < d.mdArraySize) :
    d.freeScan = .ok ⟨lookedAt d.invalidAt (circular d.lastWrittenBlock d.mdArraySize),
      (circular d.lastWrittenBlock d.mdArraySize).find? d.invalidAt⟩ := by
  rw [← slotsFrom_one]
  exact freeScanLoop_eq hflags hn hlast d.mdArraySize 1 (d.mdArraySize + 1) (by omega) (by omega) (by omega)

/-- With no blocks, the body of the loop is not entered, whatever the last written block is. -/
theorem freeScan_empty (h : d.mdArraySize = 0) : d.freeScan = .ok ⟨[], none⟩ := by
  rw [Driver.freeScan, h]
  exact if_pos (by rw [h]; decide)

/-- Block `k` is free, and none is nearer to the last written one, going round from there. -/
def Driver.NearestFree (d : Driver) (k : Nat) : Prop :=
  k < d.mdArraySize ∧ d.invalidAt k = true ∧ ∀ x, x < d.mdArraySize → d.invalidAt x = true →
    cyclicDist d.mdArraySize d.lastWrittenBlock k ≤ cyclicDist d.mdArraySize d.lastWrittenBlock x

/-- When only one block is free, it is the nearest. -/
theorem nearestFree_of_only {k : Nat} (hk : k < d.mdArraySize)
    (honly : ∀ x, x < d.mdArraySize → (d.invalidAt x = true ↔ x = k)) : d.NearestFree k := by
  refine ⟨hk, (honly k hk).mpr rfl, ?_⟩
  intro x hx hfree
  rw [(honly x hx).mp hfree]

end

/-- A mount of a device without blocks leaves the cursor at `2 ^ 32 - 1`. -/
theorem fillSuper_empty {nblocks : Nat} {env : MountEnv} {sb : Nat} {d₀ d : Driver}
    (hempty : d₀.validBlkList = []) (hcount : d₀.blockCount sb = 0)
    (h : bldmsFsFillSuper nblocks env sb d₀ = .ok d) :
    d.mdArraySize = 0 ∧ d.lastWrittenBlock = 2 ^ 32 - 1 := by
  obtain ⟨-, -, s, hscan, rfl⟩ := bldmsFsFillSuper_ok h
  have hcount : inodeFileSize (d₀.disk sb 1) / 4096 = 0 := hcount
  rw [hcount, hempty, scan] at hscan
  obtain rfl := (Except.ok.inj hscan).symm
  refine ⟨hcount, ?_⟩
  show initialLastWritten [] (inodeFileSize (d₀.disk sb 1) / 4096) = 2 ^ 32 - 1
  rw [hcount]
  rfl

/-- **The circular choice of the free block.** For every array of `N` validity flags, `1 ≤ N < 2 ^ 31`,
    and every last written block below `N`, the loop examines blocks in circular order from the one
    after the last written, none twice, and selects the free block at the smallest cyclic distance: none
    exactly when every block is valid, and the last written block itself when only that one is free.
    With no blocks nothing is selected and no remainder is taken, whatever the last written block is; a
    mount leaves `2 ^ 32 - 1` there. -/
theorem circular_choice (d : Driver) (hflags : d.metadataArray.length = d.mdArraySize)
    (hn : d.mdArraySize < 2 ^ 31) :
    (1 ≤ d.mdArraySize → d.lastWrittenBlock < d.mdArraySize → ∃ r, d.freeScan = .ok r ∧
      r.target = d.findFree ∧
      r.examined <+: circular d.lastWrittenBlock d.mdArraySize ∧ r.examined.Nodup ∧
      (∀ k, r.target = some k ↔ d.NearestFree k) ∧
      (r.target = none ↔ ∀ k, k < d.mdArraySize → d.invalidAt k = false) ∧
      ((∀ k, k < d.mdArraySize → (d.invalidAt k = true ↔ k = d.lastWrittenBlock)) →
        r.target = some d.lastWrittenBlock)) ∧
    (d.mdArraySize = 0 → d.freeScan = .ok ⟨[], none⟩) ∧
    ∀ nblocks env sb d₀ d', d₀.validBlkList = [] → d₀.blockCount sb = 0 →
      bldmsFsFillSuper nblocks env sb d₀ = .ok d' →
      d'.lastWrittenBlock = 2 ^ 32 - 1 ∧ d'.freeScan = .ok ⟨[], none⟩ := by
  refine ⟨?_, freeScan_empty, ?_⟩
  · intro _ hlast
    have hnearest : ∀ k, (circular d.lastWrittenBlock d.mdArraySize).find? d.invalidAt = some k ↔
        d.NearestFree k := fun k => find?_circular hlast
    refine ⟨_, freeScan_eq hflags hn fun _ => hlast, (d.findFree_circular hn hlast).symm,
      lookedAt_isPrefix _ _, (nodup_circular hlast).sublist (lookedAt_isPrefix _ _).sublist, hnearest, ?_, ?_⟩
    · rw [List.find?_eq_none]
      constructor
      · intro h k hk
        simpa using h k ((mem_circular hlast).mpr hk)
      · intro h k hk
        rw [h k ((mem_circular hlast).mp hk)]
        decide
    · intro honly
      exact (hnearest _).mpr (nearestFree_of_only hlast honly)
  · intro nblocks env sb d₀ d' hempty hcount hfill
    obtain ⟨hsize, hcursor⟩ := fillSuper_empty hempty hcount hfill
    exact ⟨hcursor, freeScan_empty hsize⟩

/-- Three blocks, the last two of them valid, and the last written one is block 1: block 0 is selected
    after block 2 has been examined. -/
theorem circular_choice_three_blocks :
    let d : Driver := { freshDriver 3 with
      metadataArray := [⟨0, ⟨0, false, 0⟩⟩, ⟨1, ⟨5, true, 1⟩⟩, ⟨2, ⟨4, true, 1⟩⟩], lastWrittenBlock := 1 }
    d.freeScan = .ok ⟨[2, 0], some 0⟩ ∧ ∃ r, d.freeScan = .ok r ∧ (∀ k, r.target = some k ↔ d.NearestFree k) := by
  intro d
  refine ⟨by decide, ?_⟩
  obtain ⟨r, hr, -, -, -, hnearest, -⟩ := (circular_choice d rfl (by decide)).1 (by decide) (by decide)
  exact ⟨r, hr, hnearest⟩

end Bldms
