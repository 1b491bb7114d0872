/-
  The three system calls.

  Source: `syscalls.c`.

  Everything the calls get from outside the driver is an argument: whether an allocation succeeds,
  how many bytes a user copy leaves out, whether `sb_bread` finds the block, what the clock says.

  * `putData` is split where the code takes the spinlock: `putPrepare` makes the allocations, copies
    the message and draws the timestamp; `putCritical` is the critical section.  The result lists the
    metadata entries handed to `kfree`, since an entry may still be referenced by the array then.
  * `getData` is split where the code has found the node in the list: `getLookup` remembers the
    length, `getCopy` reads the block.  Both halves sit in one RCU read-side section, but nothing
    stops a writer between them.
  * `invalidateData` is one critical section; the grace period after it only delays its return.

  C conversions are kept where they can matter: `offset` is a 32-bit `int` compared with a `size_t`
  (so it is sign-extended, `offset.signExtend 64`) and with a `uint32_t` (`offset.toNat`); the sum
  `last_written_block + i` is a 32-bit one.
-/
import Bldms.Driver
import Bldms.Lib.CircularScan

namespace Bldms

/-! ## put_data -/

/-- What `put_data` gets from outside. -/
structure PutEnv where
  /-- `kzalloc` of the block buffer succeeds. -/
  buffer : Bool
  /-- The number of bytes `copy_from_user` leaves out. -/
  notCopied : Nat
  /-- `kzalloc` of the list node succeeds. -/
  newElem : Bool
  /-- `kzalloc` of the metadata entry: the new entry's identity, or `NULL`. -/
  newMetadata : Option Nat
  /-- `ktime_get_real()`. -/
  now : Ktime
  /-- `sb_bread` of the chosen block succeeds. -/
  bread : Bool
  deriving DecidableEq, Repr

/-- Nothing fails; the new entry gets identity `id` and the message the timestamp `now`. -/
def PutEnv.allOk (id : Nat) (now : Ktime) : PutEnv := ⟨true, 0, true, some id, now, true⟩

/-- Block reads, allocations and user copies succeed. -/
def PutEnv.Succeeds (e : PutEnv) : Prop :=
  e.buffer = true ∧ e.notCopied = 0 ∧ e.newElem = true ∧ e.newMetadata.isSome = true ∧ e.bread = true

/-- What a `put_data` call carries into the critical section. -/
structure Prepared where
  sb : Nat
  newMetadata : MdEntry
  buffer : Block

/-- The part of `put_data` before the spinlock is taken. -/
def putPrepare (e : PutEnv) (m : List Byte) (d : Driver) : Ret Prepared :=
  if ¬ d.bldmsMounted then .err .enodev
  else if m.length > defaultBlockSize - metadataSize then .err .e2big
  else match d.theDevSuperblock with
    | none => .err .einval
    | some sb =>
      if ¬ e.buffer then .err .eaddrnotavail
      else if e.notCopied ≠ 0 then .err .emsgsize
      else if ¬ e.newElem then .err .eaddrnotavail
      else match e.newMetadata with
        | none => .err .eaddrnotavail
        | some id =>
          let md : BldmsBlock := ⟨e.now, true, BitVec.ofNat 15 m.length⟩
          .ok ⟨sb, ⟨id, md⟩, Block.ofMessage md m⟩

namespace Driver

/-- `metadata_array[k]->is_valid == BLK_INVALID`. -/
def invalidAt (d : Driver) (k : Nat) : Bool :=
  match d.metadataArray[k]? with
  | some p => !p.blk.isValid
  | none => false

/-- The scan of `put_data` for a free block: circular, from the block after the last written one. -/
def findFree (d : Driver) : Option Nat :=
  ((List.range d.mdArraySize).map fun i =>
    (d.lastWrittenBlock + (i + 1)) % 2 ^ 32 % d.mdArraySize).find? d.invalidAt

/-- The identity of the entry slot `k` refers to. -/
def entryAt (d : Driver) (k : Nat) : List Nat := (d.metadataArray[k]?.map MdEntry.id).toList

/-- The updates of the critical section, once block `k` has been chosen and read: the block is
    overwritten, its node inserted, its slot redirected, the cursor moved. -/
def commitPut (d : Driver) (p : Prepared) (k : Nat) : Driver :=
  { d with
    disk := d.writeBlock p.sb (k + numMetadataBlks) p.buffer
    validBlkList := addValidBlockInOrderSecure d.validBlkList k
      p.newMetadata.blk.validBytes.toNat p.newMetadata.blk.nsec
    metadataArray := d.metadataArray.set k p.newMetadata
    lastWrittenBlock := k }

end Driver

/-- What `put_data` returns, the state it leaves, and the metadata entries it released, in order. -/
structure PutOut where
  ret : Ret Nat
  drv : Driver
  freed : List Nat

/-- The critical section of `put_data`, with the clean-up that follows it.  When `sb_bread` fails, the slot still has
    its entry, by value; in memory it refers to an entry that is free from now on (`PtrDriver.putCritical`). -/
def putCritical (p : Prepared) (bread : Bool) (d : Driver) : PutOut :=
  match d.findFree with
  | none => ⟨.err .enomem, d, [p.newMetadata.id]⟩
  | some k =>
    -- `old_metadata` is set before `sb_bread`, so the error path releases it although the slot keeps it
    if ¬ bread then ⟨.err .eperm, d, p.newMetadata.id :: d.entryAt k⟩
    else ⟨.ok k, d.commitPut p k, d.entryAt k⟩

/-- `put_data(source, size)`, the message being the `size` bytes at `source`. -/
def putData (e : PutEnv) (m : List Byte) (d : Driver) : PutOut :=
  match putPrepare e m d with
  | .ok p => putCritical p e.bread d
  | .err x => ⟨.err x, d, []⟩
  | .oops => ⟨.oops, d, []⟩

/-! ## get_data -/

/-- What `get_data` gets from outside: whether `sb_bread` succeeds and how many bytes
    `copy_to_user` leaves out. -/
structure GetEnv where
  bread : Bool
  notCopied : Nat
  deriving DecidableEq, Repr

/-- What `get_data` remembers inside its read-side section once the block has been found. -/
structure GetSection where
  sb : Nat
  targetBlock : Nat
  bytesToCopy : Nat
  deriving DecidableEq, Repr

/-- The part of `get_data` up to the end of the list scan. -/
def getLookup (offset : BitVec 32) (d : Driver) : Ret GetSection :=
  if ¬ d.bldmsMounted then .err .enodev
  else if (offset.signExtend 64).toNat ≥ d.mdArraySize then .err .e2big
  else match d.theDevSuperblock with
    | none => .err .einval
    | some sb =>
      match findBlk d.validBlkList offset.toNat with
      | none => .err .enodata
      | some el => .ok ⟨sb, (offset.toNat + numMetadataBlks) % 2 ^ 32, el.validBytes⟩

/-- The rest of `get_data`: read the block and copy; the call's return value is the number of bytes
    copied. -/
def getCopy (e : GetEnv) (size : Nat) (g : GetSection) (d : Driver) : Ret (List Byte) :=
  if ¬ e.bread then .err .eperm
  else
    let bytesToCopy := if size > g.bytesToCopy then g.bytesToCopy else size
    .ok ((d.disk g.sb g.targetBlock).slice metadataSize (bytesToCopy - e.notCopied))

/-- `get_data(offset, destination, size)`, undisturbed between its two halves. -/
def getData (e : GetEnv) (offset : BitVec 32) (size : Nat) (d : Driver) : Ret (List Byte) :=
  match getLookup offset d with
  | .ok g => getCopy e size g d
  | .err x => .err x
  | .oops => .oops

/-! ## invalidate_data -/

/-- `p->is_valid = BLK_INVALID`: the entry changes in place. -/
def MdEntry.clearValid (p : MdEntry) : MdEntry := ⟨p.id, ⟨p.blk.nsec, false, p.blk.validBytes⟩⟩

namespace Driver

/-- `metadata_array` after `metadata_array[k]->is_valid = BLK_INVALID`. -/
def clearValid (d : Driver) (k : Nat) : List MdEntry := d.metadataArray.modify k MdEntry.clearValid

/-- The updates of the critical section for the listed block `k`: the node is unlinked, the entry
    marked invalid, and the metadata at the start of block `target` rewritten from the entry. -/
def commitInvalidate (d : Driver) (sb k target : Nat) : Driver :=
  { d with
    validBlkList := delBlk d.validBlkList k
    metadataArray := d.clearValid k
    disk := match (d.clearValid k)[k]? with
      | some p => d.writeBlock sb target ((d.disk sb target).writeMetadata p.blk)
      | none => d.disk }

end Driver

/-- `invalidate_data(offset)`. -/
def invalidateData (bread : Bool) (offset : BitVec 32) (d : Driver) : Ret Unit × Driver :=
  if ¬ d.bldmsMounted then (.err .enodev, d)
  else if (offset.signExtend 64).toNat ≥ d.mdArraySize then (.err .e2big, d)
  else match findBlk d.validBlkList offset.toNat with
    | none => (.err .enodata, d)
    | some el =>
      match d.theDevSuperblock with
      -- the superblock is not tested here, unlike in the other two calls
      | none => (.oops, d)
      | some sb =>
        if ¬ bread then (.err .eperm, d)
        else (.ok (), d.commitInvalidate sb el.ndx ((offset.toNat + numMetadataBlks) % 2 ^ 32))

end Bldms
