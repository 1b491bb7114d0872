/-
  What a call changes on the device.

  `put_data` overwrites one block, the one it has chosen; that block is free in the ARRAY, hence, by the
  invariant, also on the device.  `invalidate_data` rewrites the ten bytes of metadata of its block from
  the array; since the array is what the device says, the only bit of the device that changes is the one
  of `is_valid` (`writeMetadata_invalid`).  Everything else leaves the device alone.

  * `Block.clearValidBit` — a block with its `is_valid` bit cleared: bit 0 of byte 8;
  * `CallFrame`           — what a call may change on the devices, result by result;
  * `device_frame`        — in every state of a run, every call stays within its frame, and the superblock,
    the inode block and the blocks past the last data block are still those of the image.

  That the array is what the device says takes slots that share no entry, so the run is one on the pointers, with puts
  that read the blocks they choose (`PtrDriver.Sane`); `device_frame_fails` is a run with one that does not.
-/
import Bldms.Slots

namespace Bldms

/-! ## The bit of `is_valid` on the device -/

namespace Block

/-- The bit of `is_valid`: the lowest one of byte 8. -/
def validBit (b : Block) : Byte := b.byte 8 &&& 1

/-- The block with its `is_valid` bit cleared, every other bit as it was. -/
def clearValidBit (b : Block) : Block := fun i => if i.val = 8 then b i &&& 0xFE else b i

/-- The lowest bit of a byte, read and cleared. -/
theorem low_bit (bit : Bool) (v : Nat) :
    UInt8.ofNat (bit.toNat + 2 * v) &&& 1 = UInt8.ofNat bit.toNat ∧
    UInt8.ofNat (bit.toNat + 2 * v) &&& 0xFE = UInt8.ofNat (2 * v) := by
  have hall : ∀ bit : Bool, ∀ u < 128,
      UInt8.ofNat (bit.toNat + 2 * u) &&& 1 = UInt8.ofNat bit.toNat ∧
      UInt8.ofNat (bit.toNat + 2 * u) &&& 0xFE = UInt8.ofNat (2 * u) := by decide
  have hsum : UInt8.ofNat (bit.toNat + 2 * v) = UInt8.ofNat (bit.toNat + 2 * (v % 128)) := by
    apply UInt8.toNat_inj.mp
    rw [UInt8.toNat_ofNat', UInt8.toNat_ofNat']
    omega
  have hdouble : UInt8.ofNat (2 * v) = UInt8.ofNat (2 * (v % 128)) := by
    apply UInt8.toNat_inj.mp
    rw [UInt8.toNat_ofNat', UInt8.toNat_ofNat']
    omega
  rw [hsum, hdouble]
  exact hall bit (v % 128) (Nat.mod_lt v (by omega))

theorem byte_eight (b : Block) :
    b.byte 8 = UInt8.ofNat (b.metadata.isValid.toNat + 2 * b.metadata.validBytes.toNat) := by
  rw [b.byte_eq_leByte (by omega), BldmsBlock.leByte_word_ge _ 0, leByte, Nat.pow_zero, Nat.div_one]

theorem validBit_eq (b : Block) : b.validBit = UInt8.ofNat b.metadata.isValid.toNat := by
  rw [validBit, byte_eight]
  exact (low_bit _ _).1

/-- **The metadata rewrite**: writing back the metadata of a block as invalid clears one bit. -/
theorem writeMetadata_invalid (b : Block) :
    b.writeMetadata ⟨b.metadata.nsec, false, b.metadata.validBytes⟩ = b.clearValidBit := by
  funext i
  rw [writeMetadata, clearValidBit]
  by_cases hi : i.val < 10
  · have hbyte : b i = leByte b.metadata.word i.val := by
      rw [← b.byte_eq_leByte hi, byte, dif_pos i.isLt]
    rw [if_pos (show i.val < metadataSize from hi), hbyte]
    -- the timestamp, the byte with the bit, the byte after it
    rcases (by omega : i.val < 8 ∨ i.val = 8 + 0 ∨ i.val = 8 + 1) with hlt | heq | heq
    · rw [if_neg (by omega), BldmsBlock.leByte_word_lt _ hlt, BldmsBlock.leByte_word_lt _ hlt]
    · rw [if_pos heq, heq, BldmsBlock.leByte_word_ge, BldmsBlock.leByte_word_ge, leByte, leByte,
        Nat.pow_zero, Nat.div_one, Nat.div_one, (low_bit _ _).2, Bool.toNat_false, Nat.zero_add]
    · rw [if_neg (by omega), heq, BldmsBlock.leByte_word_ge, BldmsBlock.leByte_word_ge, leByte, leByte,
        Nat.pow_one]
      dsimp only
      rw [Bool.toNat_false]
      congr 1
      have hbit : b.metadata.isValid.toNat ≤ 1 := Bool.toNat_le _
      omega
  · rw [if_neg (show ¬ i.val < metadataSize from hi), if_neg (by omega)]

end Block

/-! ## The frame of a call -/

/-- The contents of the devices differ at block `b` of `sb`, and nowhere else. -/
def ChangesOnly (sb b : Nat) (disk disk' : Nat → Device) : Prop :=
  ∀ sb' b', disk' sb' b' ≠ disk sb' b' ↔ sb' = sb ∧ b' = b

/-- What a call with reply `r` may change on the devices, the driver being mounted on the `n` blocks of `sb`:
    * a put that returns `k` changes block `k + 2`, marked invalid until then, and no other block;
    * a successful invalidation of `k` clears the `is_valid` bit of block `k + 2`, set until then;
    * a call that fails, a get and a read change nothing. -/
def CallFrame (sb n : Nat) (disk : Nat → Device) (c : Call) (r : Reply) (disk' : Nat → Device) : Prop :=
  match c, r with
  | .put _ _, .put (.ok k) _ =>
    k < n ∧ (disk sb (k + 2)).validBit = 0 ∧ ChangesOnly sb (k + 2) disk disk'
  | .invalidate _ k, .invalidate (.ok ()) =>
    k.toNat < n ∧ (disk sb (k.toNat + 2)).validBit = 1 ∧
      disk' = Function.update disk sb
        (Function.update (disk sb) (k.toNat + 2) (disk sb (k.toNat + 2)).clearValidBit)
  | _, _ => disk' = disk

/-- The frame of a call of `driver`. -/
def DeviceFrame (sb n : Nat) (d : Driver) (c : Call) : Prop :=
  CallFrame sb n d.disk c (driver.step d c).1 (driver.next d c).disk

/-- A call that changes nothing and does not report success stays within its frame. -/
theorem deviceFrame_of_failed {sb n : Nat} {d : Driver} {c : Call}
    (hdisk : (driver.next d c).disk = d.disk)
    (hput : ∀ k freed, (driver.step d c).1 ≠ .put (.ok k) freed)
    (hinvalidate : (driver.step d c).1 ≠ .invalidate (.ok ())) : DeviceFrame sb n d c := by
  unfold DeviceFrame CallFrame
  split
  · rename_i hok
    exact absurd hok (hput _ _)
  · rename_i hok
    exact absurd hok hinvalidate
  · exact hdisk

namespace Inv

variable {sb n : Nat} {d : Driver}

/-- Free in the array is free on the device. -/
theorem validBit_of_free (hI : Inv sb n d) {k : Nat} (hk : k < n)
    (hfree : ∀ el ∈ d.validBlkList, el.ndx ≠ k) : (d.disk sb (k + 2)).validBit = 0 := by
  obtain ⟨p, hp⟩ := hI.entry hk
  have hinvalid := (hI.invalidAt_iff hk).mpr hfree
  rw [Driver.invalidAt, hp] at hinvalid
  have hv : p.blk.isValid = false := by simpa using hinvalid
  rw [Block.validBit_eq, ← hI.onDevice k p hp, hv]
  rfl

/-- Writing a valid block over one marked invalid changes it, and changes no other block. -/
theorem changesOnly_commitPut (hI : Inv sb n d) {p : Prepared} {k : Nat} (hk : d.findFree = some k)
    (hsb : p.sb = sb) (hv : p.buffer.metadata.isValid = true) :
    ChangesOnly sb (k + 2) d.disk (d.commitPut p k).disk := by
  obtain ⟨hkn, hfree⟩ := hI.findFree_some hk
  have hzero := hI.validBit_of_free hkn hfree
  have hone : p.buffer.validBit = 1 := by
    rw [Block.validBit_eq, hv]
    rfl
  intro sb' b'
  show d.writeBlock p.sb (k + 2) p.buffer sb' b' ≠ d.disk sb' b' ↔ _
  rw [hsb]
  constructor
  · intro hne
    by_contra hother
    apply hne
    by_cases hs : sb' = sb
    · subst hs
      exact Driver.writeBlock_of_ne d sb' _ fun hb => hother ⟨rfl, hb⟩
    · rw [Driver.writeBlock, Function.update_of_ne hs]
  · rintro ⟨rfl, rfl⟩ heq
    rw [Driver.writeBlock_self] at heq
    rw [heq, hzero] at hone
    exact absurd hone (by decide)

/-- The metadata `invalidate_data` writes back is that of the device, marked invalid. -/
theorem disk_commitInvalidate (hI : Inv sb n d) {el : RcuElem} (hel : el ∈ d.validBlkList) :
    (d.disk sb (el.ndx + 2)).validBit = 1 ∧
    (d.commitInvalidate sb el.ndx (el.ndx + 2)).disk =
      d.writeBlock sb (el.ndx + 2) (d.disk sb (el.ndx + 2)).clearValidBit := by
  obtain ⟨p, hp, hv, -⟩ := (hI.listed el).mp hel
  have hdev := hI.onDevice el.ndx p hp
  have hself : (d.clearValid el.ndx)[el.ndx]? = some p.clearValid := by
    rw [Driver.clearValid, List.getElem?_modify_eq, hp]
    rfl
  constructor
  · rw [Block.validBit_eq, ← hdev, hv]
    rfl
  · dsimp only [Driver.commitInvalidate]
    rw [hself]
    dsimp only [MdEntry.clearValid]
    rw [hdev, Block.writeMetadata_invalid]

/-- **The step lemma**: every call stays within its frame. -/
theorem deviceFrame (hI : Inv sb n d) (c : Call) : DeviceFrame sb n d c := by
  cases c with
  | get e offset size => rfl
  | read e len s => rfl
  | put e m =>
    rcases hI.putData_cases e m with ⟨hdrv, hret, -⟩ | ⟨p, k, hl, hp, hsb, -, -, heq⟩
    · refine deviceFrame_of_failed (congrArg Driver.disk hdrv) ?_ ?_
      · intro k freed hok
        exact hret k (Reply.put.inj hok).1
      · intro hok
        cases hok
    · obtain ⟨-, -, -, hblk, hbuf⟩ := putPrepare_ok hp
      have hv : p.buffer.metadata.isValid = true := by rw [hbuf, Block.metadata_ofMessage, hblk]
      obtain ⟨hkn, hfree⟩ := hI.findFree_some hl.2.2
      simp only [DeviceFrame, CallFrame, driver, System.next, heq]
      exact ⟨hkn, hI.validBit_of_free hkn hfree, hI.changesOnly_commitPut hl.2.2 hsb hv⟩
  | invalidate bread offset =>
    rcases hI.invalidateData_cases bread offset with ⟨hdrv, hret⟩ | ⟨el, hel, hndx, heq⟩
    · refine deviceFrame_of_failed (congrArg Driver.disk hdrv) ?_ ?_
      · intro k freed hok
        cases hok
      · intro hok
        exact hret (Reply.invalidate.inj hok)
    · simp only [DeviceFrame, CallFrame, driver, System.next, heq]
      rw [← hndx]
      exact ⟨hI.ndx_lt hel, hI.disk_commitInvalidate hel⟩

end Inv

/-- Whatever a call changes lies in the data blocks. -/
theorem DeviceFrame.outside {sb n : Nat} {d : Driver} {c : Call} (h : DeviceFrame sb n d c) {b : Nat}
    (hb : b < 2 ∨ n + 2 ≤ b) : (driver.next d c).disk sb b = d.disk sb b := by
  unfold DeviceFrame CallFrame at h
  split at h
  · obtain ⟨hk, -, honly⟩ := h
    by_contra hne
    have := ((honly sb b).mp hne).2
    omega
  · obtain ⟨hk, -, heq⟩ := h
    rw [heq]
    exact Driver.writeBlock_of_ne d sb _ (by omega)
  · rw [h]

/-- **The run lemma**: the blocks outside the data blocks are never written. -/
theorem outside_states {cfg : Config} {sb : Nat} {d : Driver} (hd : Mounted cfg sb d)
    (calls : List Call) : ∀ t ∈ driver.states d calls,
      Inv sb (d.blockCount sb) t ∧
      ∀ b, b < 2 ∨ d.blockCount sb + 2 ≤ b → t.disk sb b = d.disk sb b := by
  have hall : driver.AllSteps (fun _ _ => True) d calls := .of_forall (fun _ _ => trivial) d calls
  refine hall.invariant ?_ ⟨mounted_inv hd, fun _ _ => rfl⟩
  intro t c _ ht
  exact ⟨ht.1.step c, fun b hb => ((ht.1.deviceFrame c).outside hb).trans (ht.2 b hb)⟩

/-- **The frame of device updates.**  In a run from the mount of any accepted image, whatever the calls and their
    outcomes, as long as every put reads the block it has chosen: the superblock, the inode block and every block past
    the data blocks stay as the image had them, and each call changes on the devices what its frame allows and nothing
    else. -/
theorem device_frame (cfg : Config) (sb : Nat) (d : Driver) (hd : Mounted cfg sb d) (hentries : d.entries.Nodup)
    (es : List PtrEvent) (hs : ptrDriver.AllSteps PtrDriver.Sane d.pointers es) :
    ∀ P ∈ ptrDriver.states d.pointers es,
      (∀ b, b < 2 ∨ d.blockCount sb + 2 ≤ b → P.view.disk sb b = d.disk sb b) ∧
      ∀ c, P.Allocates c → ∃ r, (ptrDriver.step P (.call c)).1 = some r ∧
        CallFrame sb (d.blockCount sb) P.view.disk c r (ptrDriver.next P (.call c)).view.disk := by
  intro P hP
  have hsound := hd.sound hentries
  have hmem := (hsound.mem_states hs P.view).mpr ⟨P, hP, rfl⟩
  rw [view_pointers hentries] at hmem
  obtain ⟨hI, houtside⟩ := outside_states hd (PtrDriver.calls es) P.view hmem
  refine ⟨houtside, fun c hkz => ?_⟩
  obtain ⟨hreply, hview⟩ := (hsound.states hs P hP).step_eq hkz
  refine ⟨_, hreply, ?_⟩
  rw [hview]
  exact hI.deviceFrame c

/-- A message put into block 0 of two, then invalidated: the block keeps every byte but one bit. -/
theorem device_frame_invalidate :
    let P := ptrDriver.next (freshDriver 2).pointers (.call (.put (.allOk 2 7) [65]))
    (ptrDriver.step P (.call (.invalidate true 0))).1 = some (.invalidate (.ok ())) ∧
    ∃ r, (ptrDriver.step P (.call (.invalidate true 0))).1 = some r ∧
      CallFrame 0 ((freshDriver 2).blockCount 0) P.view.disk (.invalidate true 0) r
        (ptrDriver.next P (.call (.invalidate true 0))).view.disk := by
  intro P
  have hframe := device_frame .standard 0 (freshDriver 2) (mounted_freshDriver .standard (by decide)) (by decide)
    [.call (.put (.allOk 2 7) [65])] ⟨sane_put rfl (.inr (by decide)) rfl, trivial⟩ P
    (ptrDriver.final_mem_states _ _)
  exact ⟨rfl, hframe.2 (.invalidate true 0) trivial⟩

/-- On a device of three blocks: a put cannot read block 0, which it has chosen, and releases entry 0; the next one
    takes block 0 and releases entry 0 once more, so the two after it, in blocks 1 and 2, are both given entry 0.
    The invalidation of block 1 writes the metadata of the message in block 2 to block 1. -/
theorem device_frame_fails :
    let es : List PtrEvent := [.call (.put ⟨true, 0, true, some 3, 10, false⟩ [1]), .call (.put (.allOk 4 20) [1, 2, 3]),
      .call (.put (.allOk 0 30) [4, 5, 6]), .call (.put (.allOk 0 40) [7, 8, 9])]
    let P := ptrDriver.final (freshDriver 3).pointers es
    let P' := ptrDriver.next P (.call (.invalidate true 1))
    Mounted .standard 0 (freshDriver 3) ∧ (freshDriver 3).entries.Nodup ∧
    ptrDriver.AllSteps PtrDriver.Served (freshDriver 3).pointers es ∧ P.slots = [4, 0, 0] ∧
    (ptrDriver.step P (.call (.invalidate true 1))).1 = some (.invalidate (.ok ())) ∧
    ((P.view.disk 0 3).metadata.nsec, (P'.view.disk 0 3).metadata.nsec) = (30, 40) ∧
    ¬ CallFrame 0 3 P.view.disk (.invalidate true 1) (.invalidate (.ok ())) P'.view.disk := by
  intro es P P'
  have htimes : ((P.view.disk 0 3).metadata.nsec, (P'.view.disk 0 3).metadata.nsec) = (30, 40) := by decide +kernel
  refine ⟨mounted_freshDriver .standard (by decide), by decide,
    ⟨allocates_put rfl (.inr (by decide)), allocates_put rfl (.inr (by decide)), allocates_put rfl (.inl (by decide)),
      allocates_put rfl (.inl (by decide)), trivial⟩, by decide, rfl, htimes, fun hframe => ?_⟩
  have hdisk := congrFun (congrFun hframe.2.2 0) 3
  have hsame : (P'.view.disk 0 3).metadata.nsec = 30 := by
    rw [hdisk]
    decide +kernel
  rw [(Prod.mk.inj htimes).2] at hsame
  exact absurd hsame (by decide)

end Bldms
