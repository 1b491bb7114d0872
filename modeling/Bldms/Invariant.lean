/-
  The representation invariant of the driver.

  `Inv sb n d` says that the list, the array and the device `sb` tell the same story about `n` blocks:
  * `listed`    — the list holds exactly the nodes of the valid blocks, each with the timestamp and
                  the length of its array entry (`elemOf`);
  * `onDevice`  — every array entry, of a valid block or not, is what the device block decodes to;
  * `distinct`, `sorted`, `last` — no block is listed twice, the list is in timestamp order, and the
                  cursor of the circular scan is in range.

  It is established by the scan loop of the mount (`mounted_inv`), whatever bytes the image holds, and
  preserved by every call (`Inv.step`); `representation_invariant` is the statement over whole runs.
-/
import Bldms.Calls

namespace Bldms

/-- The node of block `i`, when it is valid with metadata `md`. -/
def elemOf (i : Nat) (md : BldmsBlock) : RcuElem := ⟨i, md.nsec, md.validBytes.toNat⟩

namespace Driver

/-- A put stays off the inode block … -/
theorem inode_commitPut (d : Driver) {p : Prepared} {sb : Nat} (hsb : p.sb = sb) (k : Nat) :
    (d.commitPut p k).disk sb 1 = d.disk sb 1 := by
  dsimp only [commitPut]
  rw [hsb, writeBlock_of_ne d sb _ (by omega : 1 ≠ k + 2)]

/-- … and so does an invalidation. -/
theorem inode_commitInvalidate (d : Driver) (sb k : Nat) :
    (d.commitInvalidate sb k (k + 2)).disk sb 1 = d.disk sb 1 := by
  dsimp only [commitInvalidate]
  cases (d.clearValid k)[k]? with
  | none => rfl
  | some p => exact writeBlock_of_ne d sb _ (by omega)

end Driver

/-- The invariant of a driver mounted on the device `sb` with `n` data blocks. -/
structure Inv (sb n : Nat) (d : Driver) : Prop where
  mounted : d.bldmsMounted = true
  super : d.theDevSuperblock = some sb
  size : d.mdArraySize = n
  /-- The size check bounds the device, so that no index or position computation wraps. -/
  small : n < 2 ^ 19
  length : d.metadataArray.length = n
  distinct : DistinctNdx d.validBlkList
  /-- The list is the valid part of the array. -/
  listed : ∀ el, el ∈ d.validBlkList ↔
    ∃ p, d.metadataArray[el.ndx]? = some p ∧ p.blk.isValid = true ∧ el = elemOf el.ndx p.blk
  /-- The array is what the device says. -/
  onDevice : ∀ i p, d.metadataArray[i]? = some p → p.blk = (d.disk sb (i + 2)).metadata
  sorted : KeySorted RcuElem.time d.validBlkList
  last : 0 < n → d.lastWrittenBlock < n

namespace Inv

variable {sb n : Nat} {d : Driver}

theorem ndx_lt (hI : Inv sb n d) {el : RcuElem} (hel : el ∈ d.validBlkList) : el.ndx < n := by
  obtain ⟨p, hp, -⟩ := (hI.listed el).mp hel
  rw [← hI.length]
  exact (List.getElem?_eq_some_iff.mp hp).1

theorem entry (hI : Inv sb n d) {i : Nat} (hi : i < n) : ∃ p, d.metadataArray[i]? = some p :=
  ⟨_, List.getElem?_eq_getElem (by rw [hI.length]; exact hi)⟩

/-- A slot is invalid exactly when its block is not listed. -/
theorem invalidAt_iff (hI : Inv sb n d) {i : Nat} (hi : i < n) :
    d.invalidAt i = true ↔ ∀ el ∈ d.validBlkList, el.ndx ≠ i := by
  obtain ⟨p, hp⟩ := hI.entry hi
  simp only [Driver.invalidAt, hp, Bool.not_eq_true']
  constructor
  · rintro hv el hel rfl
    obtain ⟨q, hq, hqv, -⟩ := (hI.listed el).mp hel
    rw [hp] at hq
    rw [← Option.some.inj hq, hv] at hqv
    nomatch hqv
  · intro hno
    by_contra hv
    exact hno (elemOf i p.blk)
      ((hI.listed _).mpr ⟨p, hp, by simpa using hv, rfl⟩) rfl

/-- The free-block scan visits the blocks circularly: within `n < 2 ^ 19` the 32-bit sum is exact. -/
theorem findFree_eq (hI : Inv sb n d) :
    d.findFree = (circular d.lastWrittenBlock n).find? d.invalidAt := by
  rcases Nat.eq_zero_or_pos n with rfl | hpos
  · rw [Driver.findFree, hI.size]
    rfl
  · have hn := hI.small
    have hlast := hI.last hpos
    rw [d.findFree_circular (by rw [hI.size]; omega) (by rw [hI.size]; exact hlast), hI.size]

theorem findFree_some (hI : Inv sb n d) {k : Nat} (h : d.findFree = some k) :
    k < n ∧ ∀ el ∈ d.validBlkList, el.ndx ≠ k := by
  rw [hI.findFree_eq] at h
  have hmem := List.mem_of_find?_eq_some h
  have hn : 0 < n := by
    rcases Nat.eq_zero_or_pos n with rfl | hn
    · nomatch hmem
    · exact hn
  have hk := (mem_circular (hI.last hn)).mp hmem
  exact ⟨hk, (hI.invalidAt_iff hk).mp (List.find?_some h)⟩

theorem findFree_none (hI : Inv sb n d) (h : d.findFree = none) {k : Nat} (hk : k < n) :
    ∃ el ∈ d.validBlkList, el.ndx = k := by
  rw [hI.findFree_eq, List.find?_eq_none] at h
  have hvalid := h k ((mem_circular (hI.last (by omega))).mpr hk)
  by_contra hno
  exact hvalid ((hI.invalidAt_iff hk).mpr fun el hel heq => hno ⟨el, hel, heq⟩)

/-! ## The device determines the array, and the list up to order -/

theorem array_eq (hI : Inv sb n d) :
    d.metadataArray.map MdEntry.blk = (List.range n).map fun i => (d.disk sb (i + 2)).metadata := by
  apply List.ext_getElem?
  intro i
  rw [List.getElem?_map, List.getElem?_map]
  by_cases hi : i < n
  · obtain ⟨p, hp⟩ := hI.entry hi
    rw [hp, List.getElem?_range hi, Option.map_some, Option.map_some, hI.onDevice i p hp]
  · rw [List.getElem?_eq_none (by rw [hI.length]; omega),
      List.getElem?_eq_none (by rw [List.length_range]; omega), Option.map_none, Option.map_none]

theorem mem_iff (hI : Inv sb n d) (el : RcuElem) :
    el ∈ d.validBlkList ↔ el.ndx < n ∧ (d.disk sb (el.ndx + 2)).metadata.isValid = true ∧
      el = elemOf el.ndx (d.disk sb (el.ndx + 2)).metadata := by
  rw [hI.listed]
  constructor
  · rintro ⟨p, hp, hv, heq⟩
    have hlt : el.ndx < n := by
      rw [← hI.length]
      exact (List.getElem?_eq_some_iff.mp hp).1
    rw [← hI.onDevice _ p hp]
    exact ⟨hlt, hv, heq⟩
  · rintro ⟨hlt, hv, heq⟩
    obtain ⟨p, hp⟩ := hI.entry hlt
    rw [← hI.onDevice _ p hp] at hv heq
    exact ⟨p, hp, hv, heq⟩

theorem list_nodup (hI : Inv sb n d) : d.validBlkList.Nodup :=
  hI.distinct.imp fun hne heq => hne (congrArg RcuElem.ndx heq)

/-- There is at most one node for each block. -/
theorem length_le (hI : Inv sb n d) : d.validBlkList.length ≤ n := by
  have hnodup : (d.validBlkList.map RcuElem.ndx).Nodup := List.pairwise_map.mpr hI.distinct
  have hsub : d.validBlkList.map RcuElem.ndx ⊆ List.range n := by
    intro k hk
    obtain ⟨el, hel, rfl⟩ := List.mem_map.mp hk
    exact List.mem_range.mpr (hI.ndx_lt hel)
  have hle := (hnodup.subperm hsub).length_le
  rwa [List.length_map, List.length_range] at hle

/-! ## Preservation by the system calls -/

/-- Committing a message to a free block keeps the three pictures in step. -/
theorem commitPut (hI : Inv sb n d) {p : Prepared} {k : Nat} (hk : d.findFree = some k)
    (hsb : p.sb = sb) (hv : p.newMetadata.blk.isValid = true)
    (hbuf : p.buffer.metadata = p.newMetadata.blk) : Inv sb n (d.commitPut p k) := by
  obtain ⟨hkn, hfree⟩ := hI.findFree_some hk
  have hlen : k < d.metadataArray.length := by rw [hI.length]; exact hkn
  have hget : ∀ i, (d.metadataArray.set k p.newMetadata)[i]?
      = if k = i then some p.newMetadata else d.metadataArray[i]? := by
    intro i
    rw [List.getElem?_set]
    by_cases hik : k = i
    · rw [if_pos hik, if_pos hik, if_pos (hik ▸ hlen)]
    · rw [if_neg hik, if_neg hik]
  refine ⟨hI.mounted, hI.super, hI.size, hI.small, ?_, ?_, ?_, ?_, ?_, fun _ => hkn⟩
  · show (d.metadataArray.set k p.newMetadata).length = n
    rw [List.length_set, hI.length]
  · exact hI.distinct.addValidBlock hfree _ _
  · -- list and array: the new node is that of the new entry, the others have other indexes
    intro el
    simp only [Driver.commitPut, mem_addValidBlock, hget]
    constructor
    · rintro (rfl | hel)
      · exact ⟨p.newMetadata, by simp, hv, rfl⟩
      · obtain ⟨q, hq, hrest⟩ := (hI.listed el).mp hel
        exact ⟨q, by rw [if_neg (hfree el hel).symm, hq], hrest⟩
    · rintro ⟨q, hq, hqv, heq⟩
      by_cases hk' : k = el.ndx
      · rw [if_pos hk', Option.some.injEq] at hq
        left
        rw [heq, ← hq, hk']
        rfl
      · rw [if_neg hk'] at hq
        exact .inr ((hI.listed el).mpr ⟨q, hq, hqv, heq⟩)
  · -- array and device: the buffer written to block `k + 2` starts with the new entry
    intro i q hq
    simp only [Driver.commitPut, hget] at hq
    simp only [Driver.commitPut, hsb, numMetadataBlks]
    by_cases hk' : k = i
    · rw [if_pos hk', Option.some.injEq] at hq
      rw [← hk', Driver.writeBlock_self, hbuf, hq]
    · rw [if_neg hk'] at hq
      rw [Driver.writeBlock_of_ne d sb _ (by omega : i + 2 ≠ k + 2)]
      exact hI.onDevice i q hq
  · exact insertBack_sorted _ hI.sorted

theorem putData (hI : Inv sb n d) (e : PutEnv) (m : List Byte) :
    Inv sb n (putData e m d).drv := by
  rcases putData_cases e m d with ⟨heq, -⟩ | ⟨p, k, hp, hk, heq⟩
  · rw [heq]; exact hI
  · obtain ⟨-, hsb, -, hblk, hbuf⟩ := putPrepare_ok hp
    rw [hI.super, Option.some.injEq] at hsb
    rw [heq]
    exact hI.commitPut hk.2.2 hsb.symm (by rw [hblk]) (by rw [hbuf, Block.metadata_ofMessage])

/-- Unlinking a listed block keeps the three pictures in step: its entry changes in the array and, by
    the rewrite of the metadata, on the device. -/
theorem commitInvalidate (hI : Inv sb n d) {el : RcuElem} (hel : el ∈ d.validBlkList) :
    Inv sb n (d.commitInvalidate sb el.ndx (el.ndx + 2)) := by
  obtain ⟨q, hq, -, -⟩ := (hI.listed el).mp hel
  have hget : ∀ i, el.ndx ≠ i → (d.clearValid el.ndx)[i]? = d.metadataArray[i]? := by
    intro i hne
    rw [Driver.clearValid, List.getElem?_modify_ne _ _ hne]
  have hself : (d.clearValid el.ndx)[el.ndx]? = some q.clearValid := by
    rw [Driver.clearValid, List.getElem?_modify_eq, hq]
    rfl
  refine ⟨hI.mounted, hI.super, hI.size, hI.small, ?_, ?_, ?_, ?_, ?_, hI.last⟩
  · show (d.clearValid el.ndx).length = n
    rw [Driver.clearValid, List.length_modify, hI.length]
  · exact hI.distinct.delBlk _
  · -- list and array: the entry of the unlinked node is the only one that changes
    intro x
    simp only [Driver.commitInvalidate, mem_delBlk hI.distinct]
    constructor
    · rintro ⟨hx, hne⟩
      obtain ⟨p, hp, hrest⟩ := (hI.listed x).mp hx
      exact ⟨p, by rw [hget _ (Ne.symm hne), hp], hrest⟩
    · rintro ⟨p, hp, hpv, heq⟩
      by_cases hx : el.ndx = x.ndx
      · rw [← hx, hself] at hp
        rw [← Option.some.inj hp] at hpv
        nomatch hpv
      · rw [hget _ hx] at hp
        exact ⟨(hI.listed x).mpr ⟨p, hp, hpv, heq⟩, fun h => hx h.symm⟩
  · -- array and device: the metadata written to the block is the changed entry
    intro i p hp
    simp only [Driver.commitInvalidate] at hp ⊢
    rw [hself]
    dsimp only
    by_cases hi : el.ndx = i
    · subst hi
      rw [hself, Option.some.injEq] at hp
      rw [Driver.writeBlock_self, Block.metadata_writeMetadata, ← hp]
    · rw [hget _ hi] at hp
      rw [Driver.writeBlock_of_ne d sb _ (by omega : i + 2 ≠ el.ndx + 2)]
      exact hI.onDevice i p hp
  · exact List.Pairwise.sublist List.eraseP_sublist hI.sorted

/-- The cases of `invalidate_data` in a mounted driver. -/
theorem invalidateData_cases (hI : Inv sb n d) (bread : Bool) (offset : BitVec 32) :
    (invalidateData bread offset d).2 = d ∧ (invalidateData bread offset d).1 ≠ .ok () ∨
    ∃ el ∈ d.validBlkList, el.ndx = offset.toNat ∧
      invalidateData bread offset d = (.ok (), d.commitInvalidate sb el.ndx (el.ndx + 2)) := by
  rcases Bldms.invalidateData_cases bread offset d with h | ⟨sb', el, hsb, hel, heq⟩
  · exact .inl h
  · obtain ⟨hmem, hndx⟩ := (findBlk_eq_some hI.distinct).mp hel
    have hlt := hI.ndx_lt hmem
    have hn := hI.small
    rw [hI.super, Option.some.injEq] at hsb
    refine .inr ⟨el, hmem, hndx, ?_⟩
    rw [heq, ← hsb, ← hndx, Nat.mod_eq_of_lt (by omega : el.ndx + 2 < 2 ^ 32)]

theorem invalidateData (hI : Inv sb n d) (bread : Bool) (offset : BitVec 32) :
    Inv sb n (invalidateData bread offset d).2 := by
  rcases hI.invalidateData_cases bread offset with ⟨heq, -⟩ | ⟨el, hel, -, heq⟩
  · rw [heq]; exact hI
  · rw [heq]; exact hI.commitInvalidate hel

/-- **The step lemma**: every call preserves the invariant. -/
theorem step (hI : Inv sb n d) (c : Call) : Inv sb n (driver.next d c) := by
  cases c with
  | put e m => exact hI.putData e m
  | get e offset size => exact hI
  | invalidate bread offset => exact hI.invalidateData bread offset
  | read e len s => exact hI

/-- No call touches the inode block: data blocks start at block 2. -/
theorem inode_step (hI : Inv sb n d) (c : Call) : (driver.next d c).disk sb 1 = d.disk sb 1 := by
  cases c with
  | put e m =>
    rcases putData_cases e m d with ⟨heq, -⟩ | ⟨p, k, hp, -, heq⟩
    · rw [driver_next_put, heq]
    · have hsb := (putPrepare_ok hp).2.1
      rw [hI.super, Option.some.injEq] at hsb
      rw [driver_next_put, heq]
      exact d.inode_commitPut hsb.symm k
  | get e offset size => rfl
  | invalidate bread offset =>
    rcases hI.invalidateData_cases bread offset with ⟨heq, -⟩ | ⟨el, -, -, heq⟩
    · rw [driver_next_invalidate, heq]
    · rw [driver_next_invalidate, heq]
      exact d.inode_commitInvalidate sb el.ndx
  | read e len s => rfl

end Inv

/-! ## Establishment by the mount -/

/-- What the scan loop has achieved after blocks `0, …, i - 1` of `dev`. -/
structure ScanInv (dev : Device) (i : Nat) (s : Scan) : Prop where
  length : s.arr.length = i
  distinct : DistinctNdx s.list
  listed : ∀ el, el ∈ s.list ↔
    ∃ p, s.arr[el.ndx]? = some p ∧ p.blk.isValid = true ∧ el = elemOf el.ndx p.blk
  onDevice : ∀ j p, s.arr[j]? = some p → p.blk = (dev (j + 2)).metadata
  sorted : KeySorted RcuElem.time s.list

theorem ScanInv.ndx_lt {dev : Device} {i : Nat} {s : Scan} (hs : ScanInv dev i s) {el : RcuElem}
    (hel : el ∈ s.list) : el.ndx < i := by
  obtain ⟨p, hp, -⟩ := (hs.listed el).mp hel
  rw [← hs.length]
  exact (List.getElem?_eq_some_iff.mp hp).1

/-- What a pass of the loop that does not fail appends. -/
theorem scanStep_ok {env : MountEnv} {dev : Device} {s s' : Scan} {i : Nat}
    (h : scanStep env dev s i = .ok s') :
    ∃ id, env.allocMd i = some id ∧ s'.arr = s.arr ++ [⟨id, (dev (i + 2)).metadata⟩] ∧
      s'.list = if (dev (i + 2)).metadata.isValid = true
        then addValidBlockInOrderSecure s.list i (dev (i + 2)).metadata.validBytes.toNat
          (dev (i + 2)).metadata.nsec
        else s.list := by
  unfold scanStep at h
  split at h
  · nomatch h
  rename_i id hid
  split at h
  · nomatch h
  dsimp only at h
  refine ⟨id, hid, ?_⟩
  split at h
  · rename_i hv
    split at h
    · nomatch h
    obtain rfl := (Except.ok.inj h).symm
    exact ⟨rfl, (if_pos hv).symm⟩
  · rename_i hv
    obtain rfl := (Except.ok.inj h).symm
    exact ⟨rfl, (if_neg hv).symm⟩

/-- The longer array: the new slot, and the old ones. -/
theorem ScanInv.getElem?_next {dev : Device} {s : Scan} {i : Nat} (hs : ScanInv dev i s) (e : MdEntry)
    (j : Nat) : (s.arr ++ [e])[j]? = if j = i then some e else s.arr[j]? := by
  by_cases hj : j = i
  · rw [if_pos hj, hj, ← hs.length, List.getElem?_concat_length]
  · rw [if_neg hj]
    rcases Nat.lt_or_ge j s.arr.length with hlt | hge
    · exact List.getElem?_append_left hlt
    · rw [List.getElem?_eq_none hge, List.getElem?_eq_none]
      rw [hs.length] at hge
      simp only [List.length_append, List.length_singleton, hs.length]
      omega

/-- The nodes after a pass: the one of its block, if that is valid, and the old ones. -/
theorem ScanInv.mem_next {env : MountEnv} {dev : Device} {s s' : Scan} {i : Nat} (hs : ScanInv dev i s)
    (h : scanStep env dev s i = .ok s') (el : RcuElem) :
    el ∈ s'.list ↔ (el.ndx = i ∧ (dev (i + 2)).metadata.isValid = true ∧ el = elemOf i (dev (i + 2)).metadata) ∨
      (el.ndx ≠ i ∧ el ∈ s.list) := by
  obtain ⟨id, -, -, hlist⟩ := scanStep_ok h
  have hold : el ∈ s.list ↔ el.ndx ≠ i ∧ el ∈ s.list :=
    ⟨fun hel => ⟨Nat.ne_of_lt (hs.ndx_lt hel), hel⟩, And.right⟩
  rw [hlist, ← hold]
  split
  · rename_i hv
    rw [mem_addValidBlock]
    constructor
    · rintro (rfl | hel)
      · exact .inl ⟨rfl, hv, rfl⟩
      · exact .inr hel
    · rintro (⟨-, -, rfl⟩ | hel)
      · exact .inl rfl
      · exact .inr hel
  · rename_i hv
    constructor
    · exact .inr
    · rintro (⟨-, hv', -⟩ | hel)
      · exact absurd hv' hv
      · exact hel

theorem ScanInv.step {env : MountEnv} {dev : Device} {s s' : Scan} {i : Nat}
    (hs : ScanInv dev i s) (h : scanStep env dev s i = .ok s') : ScanInv dev (i + 1) s' := by
  obtain ⟨id, -, harr, hlist⟩ := scanStep_ok h
  have hget : ∀ j, s'.arr[j]? = if j = i then some ⟨id, (dev (i + 2)).metadata⟩ else s.arr[j]? := by
    intro j
    rw [harr]
    exact hs.getElem?_next _ j
  refine ⟨by rw [harr, List.length_append, hs.length]; rfl, ?_, ?_, ?_, ?_⟩
  · rw [hlist]
    split
    · exact hs.distinct.addValidBlock (fun el hel => Nat.ne_of_lt (hs.ndx_lt hel)) _ _
    · exact hs.distinct
  · intro el
    rw [hs.mem_next h, hget]
    by_cases hi : el.ndx = i
    · rw [if_pos hi, hi]
      simp
    · rw [if_neg hi, ← hs.listed]
      simp [hi]
  · intro j p hp
    rw [hget] at hp
    split at hp
    · rename_i hj
      rw [hj, ← Option.some.inj hp]
    · exact hs.onDevice j p hp
  · rw [hlist]
    split
    · exact insertBack_sorted _ hs.sorted
    · exact hs.sorted

/-- The run lemma of the scan loop. -/
theorem ScanInv.scan {env : MountEnv} {dev : Device} :
    ∀ {n i : Nat} {s s' : Scan}, ScanInv dev i s → scan env dev s i n = .ok s' →
      ScanInv dev (i + n) s' := by
  intro n
  induction n with
  | zero =>
    intro i s s' hs h
    rw [Bldms.scan] at h
    exact Except.ok.inj h ▸ hs
  | succ n ih =>
    intro i s s' hs h
    rw [Bldms.scan] at h
    cases hstep : scanStep env dev s i with
    | error f => rw [hstep] at h; cases h
    | ok s₁ =>
      rw [hstep] at h
      rw [show i + (n + 1) = i + 1 + n from by omega]
      exact ih (hs.step hstep) h

theorem ScanInv.initial (dev : Device) : ScanInv dev 0 ⟨[], []⟩ :=
  ⟨rfl, List.Pairwise.nil, fun el => by simp, fun j p hp => by simp at hp, List.Pairwise.nil⟩

/-- `fill_super` establishes the invariant, for any content of the data blocks, up to the capture of the
    superblock. -/
theorem fillSuper_inv {nblocks : Nat} (hfits : nblocks * 4096 < 2 ^ 31) {env : MountEnv} {sb : Nat}
    {d₀ d : Driver} (hempty : d₀.validBlkList = []) (hfill : bldmsFsFillSuper nblocks env sb d₀ = .ok d) :
    Inv sb (d.blockCount sb) { d with theDevSuperblock := some sb } := by
  obtain ⟨-, hle, s, hscan, rfl⟩ := bldmsFsFillSuper_ok hfill
  rw [sizeLimit_eq hfits] at hle
  rw [hempty] at hscan
  have hs := (ScanInv.initial (d₀.disk sb)).scan hscan
  rw [Nat.zero_add] at hs
  refine ⟨rfl, rfl, rfl, ?_, hs.length, hs.distinct, hs.listed, hs.onDevice, hs.sorted, ?_⟩
  · show inodeFileSize (d₀.disk sb 1) / 4096 < 2 ^ 19
    omega
  · intro hpos
    show initialLastWritten s.list (inodeFileSize (d₀.disk sb 1) / 4096)
      < inodeFileSize (d₀.disk sb 1) / 4096
    have hpos : 0 < inodeFileSize (d₀.disk sb 1) / 4096 := hpos
    unfold initialLastWritten
    split
    · rename_i el hel
      exact hs.ndx_lt (List.mem_of_getLast? hel)
    · omega

theorem mount_inv {nblocks : Nat} (hfits : nblocks * 4096 < 2 ^ 31) {env : MountEnv} {sb : Nat}
    {d₀ d : Driver} (hempty : d₀.validBlkList = []) (hmount : bldmsFsMount nblocks env sb d₀ = .ok d) :
    Inv sb (d.blockCount sb) d := by
  obtain ⟨-, d₁, hfill, rfl⟩ := bldmsFsMount_ok hmount
  have hI := fillSuper_inv hfits hempty hfill
  exact hI

theorem mounted_inv {cfg : Config} {sb : Nat} {d : Driver} (h : Mounted cfg sb d) :
    Inv sb (d.blockCount sb) d := by
  obtain ⟨env, d₀, hempty, hmount⟩ := h
  exact mount_inv cfg.fits hempty hmount

/-! ## Whole runs -/

/-- The list, the array and the device agree on the `n` blocks of `sb`. -/
structure Consistent (sb n : Nat) (d : Driver) : Prop where
  /-- The listed indexes are pairwise distinct … -/
  nodup : (d.validBlkList.map RcuElem.ndx).Nodup
  /-- … and are exactly the valid blocks of the array. -/
  valid : ∀ i, i ∈ d.validBlkList.map RcuElem.ndx ↔
    i < n ∧ ∃ p, d.metadataArray[i]? = some p ∧ p.blk.isValid = true
  /-- A node has the timestamp and the length of its block's entry. -/
  entry : ∀ el ∈ d.validBlkList, ∃ p, d.metadataArray[el.ndx]? = some p ∧
    el.nsec = p.blk.nsec ∧ el.validBytes = p.blk.validBytes.toNat
  /-- Every entry is what the first ten bytes of its device block decode to. -/
  decoded : ∀ i, i < n → ∃ p, d.metadataArray[i]? = some p ∧ p.blk = (d.disk sb (i + 2)).metadata
  /-- The list is sorted by non-decreasing timestamp. -/
  sorted : (d.validBlkList.map fun el => el.nsec.toInt).Pairwise (· ≤ ·)
  /-- The cursor of the free-block scan is in range. -/
  cursor : 1 ≤ n → d.lastWrittenBlock < n

theorem Inv.consistent {sb n : Nat} {d : Driver} (hI : Inv sb n d) : Consistent sb n d where
  nodup := List.pairwise_map.mpr hI.distinct
  valid i := by
    rw [List.mem_map]
    constructor
    · rintro ⟨el, hel, rfl⟩
      obtain ⟨p, hp, hv, -⟩ := (hI.listed el).mp hel
      exact ⟨hI.ndx_lt hel, p, hp, hv⟩
    · rintro ⟨-, p, hp, hv⟩
      exact ⟨elemOf i p.blk, (hI.listed _).mpr ⟨p, hp, hv, rfl⟩, rfl⟩
  entry el hel := by
    obtain ⟨p, hp, -, heq⟩ := (hI.listed el).mp hel
    exact ⟨p, hp, by rw [heq]; rfl, by rw [heq]; rfl⟩
  decoded i hi := by
    obtain ⟨p, hp⟩ := hI.entry hi
    exact ⟨p, hp, hI.onDevice i p hp⟩
  sorted := List.pairwise_map.mpr hI.sorted
  cursor h := hI.last h

/-- The invariant holds in every state of a run from a mount. -/
theorem Inv.states {cfg : Config} {sb : Nat} {d : Driver} (hd : Mounted cfg sb d)
    (calls : List Call) : ∀ t ∈ driver.states d calls, Inv sb (d.blockCount sb) t :=
  (System.AllSteps.of_forall (C := fun _ _ => True) (fun _ _ => trivial) d calls).invariant
    (fun _ c _ hI => hI.step c) (mounted_inv hd)

theorem Reachable.inv {cfg : Config} {sb : Nat} {d : Driver} (hd : Reachable cfg sb d) :
    Inv sb (d.blockCount sb) d := by
  obtain ⟨d₀, calls, hmount, rfl⟩ := hd
  have hI₀ := mounted_inv hmount
  have hfinal := System.AllSteps.final
    (P := fun t => Inv sb (d₀.blockCount sb) t ∧ t.disk sb 1 = d₀.disk sb 1)
    (fun t c (_ : True) ht => ⟨ht.1.step c, (ht.1.inode_step c).trans ht.2⟩)
    (System.AllSteps.of_forall (fun _ _ => trivial) d₀ calls) ⟨hI₀, rfl⟩
  rw [Driver.blockCount, hfinal.2]
  exact hfinal.1

/-- **The representation invariant over whole runs.**  After any image has been mounted, and after any
    sequence of calls whose block reads succeed, with any timestamps and in any order of the critical
    sections, the list, the array and the device agree.  By value that needs no condition on the reads; it is the
    pointers in the slots that do (`PtrDriver.Sound.next`). -/
theorem representation_invariant (cfg : Config) (sb : Nat) (d : Driver) (hd : Mounted cfg sb d)
    (calls : List Call) (_hbread : driver.AllSteps BreadSucceeds d calls) :
    ∀ t ∈ driver.states d calls, Consistent sb (d.blockCount sb) t :=
  fun t ht => (Inv.states hd calls t ht).consistent

/-- Two messages put out of timestamp order on a device of three blocks, the first one invalidated. -/
theorem representation_invariant_two_puts :
    let calls : List Call := [.put (.allOk 3 20) [1, 2], .put (.allOk 4 10) [3], .invalidate true 0]
    (driver.final (freshDriver 3) calls).validBlkList = [⟨1, 10, 1⟩] ∧
    ∀ t ∈ driver.states (freshDriver 3) calls, Consistent 0 ((freshDriver 3).blockCount 0) t :=
  ⟨by decide, representation_invariant .standard 0 (freshDriver 3)
    (mounted_freshDriver .standard (by decide)) _ ⟨rfl, rfl, rfl, trivial⟩⟩

end Bldms
