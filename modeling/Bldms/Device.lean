/-
  The device: 4096-byte blocks, and the metadata each data block starts with.

  Source: `include/bldms.h`, `include/device.h`.

  * A block is its 4096 bytes.  `Block.slice` is what a copy out of a buffer yields; a copy that
    ran past the block would read memory that is not the block's, which the model shows as zero
    bytes — results about a copy therefore also bound its length.
  * The metadata is the packed structure `bldms_block`: 64 bits of `nsec`, one bit `is_valid`, 15
    bits `valid_bytes`, ten bytes in all.  Packed little-endian bit-fields are just ONE number of 80
    bits, `BldmsBlock.word`; encoding and decoding are its little-endian bytes (`Lib.LittleEndian`),
    and `ofWord_word` is the whole bit-field round trip.
  * Blocks 0 and 1 hold the superblock and the inode of the unique file; the driver reads one
    field of each, at the offset the C structure gives it.
-/
import Bldms.Lib.LittleEndian

namespace Bldms

/-- `DEFAULT_BLOCK_SIZE`. -/
abbrev defaultBlockSize : Nat := 4096
/-- `METADATA_SIZE`: `sizeof(bldms_block)`, packed. -/
abbrev metadataSize : Nat := 10
/-- `NUM_METADATA_BLKS`: the superblock and the inode of the unique file. -/
abbrev numMetadataBlks : Nat := 2
/-- `MAGIC`. -/
abbrev magicNumber : Nat := 0x30303030
/-- `SB_BLOCK_NUMBER`. -/
abbrev sbBlockNumber : Nat := 0
/-- `BLDMS_INODES_BLOCK_NUMBER`, which is also `BLDMS_SINGLEFILE_INODE_NUMBER`. -/
abbrev bldmsInodesBlockNumber : Nat := 1

abbrev Byte := UInt8

/-- `ktime_t`: a signed 64-bit count of nanoseconds.  Comparisons go through `BitVec.toInt`. -/
abbrev Ktime := BitVec 64

/-! ## Blocks -/

/-- The content of a block of the device. -/
abbrev Block := Fin defaultBlockSize → Byte

/-- A block device: the content of each block, by block number. -/
abbrev Device := Nat → Block

namespace Block

/-- The byte at position `i`; memory past the block is not the block's and is shown as zero. -/
def byte (b : Block) (i : Nat) : Byte := if h : i < defaultBlockSize then b ⟨i, h⟩ else 0

/-- The `len` bytes from position `off` on: what a copy out of the block's buffer yields. -/
def slice (b : Block) (off len : Nat) : List Byte := (List.range len).map fun i => b.byte (off + i)

@[simp] theorem length_slice (b : Block) (off len : Nat) : (b.slice off len).length = len := by
  simp [slice]

theorem slice_append (b : Block) (off m n : Nat) :
    b.slice off (m + n) = b.slice off m ++ b.slice (off + m) n := by
  simp [slice, List.range_add, Nat.add_assoc, Function.comp_def]

/-- A piece of a piece: cutting `n` bytes at `p` out of a longer copy is copying them directly. -/
theorem take_drop_slice (b : Block) {off len p n : Nat} (h : p + n ≤ len) :
    ((b.slice off len).drop p).take n = b.slice (off + p) n := by
  obtain ⟨r, rfl⟩ := Nat.exists_eq_add_of_le h
  rw [show p + n + r = p + (n + r) from by omega, slice_append, slice_append,
    List.drop_left' (length_slice b off p), List.take_left' (length_slice b (off + p) n)]

theorem take_slice (b : Block) {off len n : Nat} (h : n ≤ len) :
    (b.slice off len).take n = b.slice off n := by
  have h₀ : ((b.slice off len).drop 0).take n = b.slice (off + 0) n := take_drop_slice b (by omega)
  simpa using h₀

theorem slice_congr {b c : Block} {off len : Nat}
    (h : ∀ i, off ≤ i → b.byte i = c.byte i) : b.slice off len = c.slice off len := by
  refine List.map_congr_left fun i _ => h _ (by omega)

end Block

/-! ## Block metadata -/

/-- `bldms_block`: the metadata at the start of every data block. -/
structure BldmsBlock where
  nsec : Ktime
  isValid : Bool
  validBytes : BitVec 15
  deriving DecidableEq, Repr

namespace BldmsBlock

/-- The packed structure as one 80-bit number: `nsec` in bits 0–63, `is_valid` in bit 64,
    `valid_bytes` in bits 65–79. -/
def word (m : BldmsBlock) : Nat :=
  m.nsec.toNat + 2 ^ 64 * (m.isValid.toNat + 2 * m.validBytes.toNat)

/-- The structure an 80-bit number stands for. -/
def ofWord (w : Nat) : BldmsBlock where
  nsec := BitVec.ofNat 64 w
  isValid := decide (w / 2 ^ 64 % 2 = 1)
  validBytes := BitVec.ofNat 15 (w / 2 ^ 65)

theorem word_lt (m : BldmsBlock) : m.word < 256 ^ 10 := by
  have h₁ := m.nsec.isLt
  have h₂ := m.validBytes.isLt
  have h₃ : m.isValid.toNat ≤ 1 := Bool.toNat_le _
  rw [word]
  omega

/-- The lowest bit of a number that starts with it. -/
theorem decide_low_bit {bit : Bool} {w v : Nat} (h : w = bit.toNat + 2 * v) :
    decide (w % 2 = 1) = bit := by
  cases bit
  · refine decide_eq_false ?_
    rw [h, Bool.toNat_false]
    omega
  · refine decide_eq_true ?_
    rw [h, Bool.toNat_true]
    omega

/-- **The bit-field round trip**: every value of the structure is read back from its encoding. -/
theorem ofWord_word (m : BldmsBlock) : ofWord m.word = m := by
  obtain ⟨nsec, isValid, validBytes⟩ := m
  have h₁ := nsec.isLt
  have h₂ := validBytes.isLt
  simp only [ofWord, word, BldmsBlock.mk.injEq]
  refine ⟨?_, ?_, ?_⟩
  · apply BitVec.eq_of_toNat_eq
    rw [BitVec.toNat_ofNat]
    omega
  · have hhigh : (nsec.toNat + 2 ^ 64 * (isValid.toNat + 2 * validBytes.toNat)) / 2 ^ 64 =
        isValid.toNat + 2 * validBytes.toNat := by omega
    exact decide_low_bit hhigh
  · apply BitVec.eq_of_toNat_eq
    have h₃ : isValid.toNat ≤ 1 := Bool.toNat_le _
    rw [BitVec.toNat_ofNat]
    omega

/-- **The other round trip**: ten bytes are the encoding of what they decode to. -/
theorem word_ofWord {w : Nat} (h : w < 256 ^ 10) : (ofWord w).word = w := by
  have hbit : (decide (w / 2 ^ 64 % 2 = 1)).toNat = w / 2 ^ 64 % 2 := by
    rcases Nat.mod_two_eq_zero_or_one (w / 2 ^ 64) with h₀ | h₁
    · rw [h₀]
      rfl
    · rw [h₁]
      rfl
  simp only [ofWord, word, BitVec.toNat_ofNat, hbit]
  omega

theorem word_eq (md : BldmsBlock) :
    md.word = md.nsec.toNat + 256 ^ 8 * (md.isValid.toNat + 2 * md.validBytes.toNat) := rfl

/-- Bytes 0 to 7 are the timestamp … -/
theorem leByte_word_lt (md : BldmsBlock) {i : Nat} (h : i < 8) :
    leByte md.word i = leByte md.nsec.toNat i := by
  rw [word_eq, leByte_low _ _ h]

/-- … and bytes 8 and 9 are the bit-fields. -/
theorem leByte_word_ge (md : BldmsBlock) (i : Nat) :
    leByte md.word (8 + i) = leByte (md.isValid.toNat + 2 * md.validBytes.toNat) i := by
  rw [word_eq, leByte_high md.nsec.isLt]

end BldmsBlock

namespace Block

/-- The metadata at the start of a block: `*(bldms_block *)bh->b_data`. -/
def metadata (b : Block) : BldmsBlock := BldmsBlock.ofWord (leWord b.byte metadataSize)

/-- `memcpy(bh->b_data, md, METADATA_SIZE)`: the first ten bytes are replaced. -/
def writeMetadata (b : Block) (md : BldmsBlock) : Block := fun i =>
  if i.val < metadataSize then leByte md.word i.val else b i

/-- The buffer `put_data` prepares: zeroed, the message copied in after the metadata, the metadata
    copied to the front. -/
def ofMessage (md : BldmsBlock) (m : List Byte) : Block := fun i =>
  if i.val < metadataSize then leByte md.word i.val else m.getD (i.val - metadataSize) 0

/-- A block whose first ten bytes are those of `md` decodes to `md`. -/
theorem metadata_of_bytes {b : Block} {md : BldmsBlock}
    (h : ∀ i, i < 10 → b.byte i = leByte md.word i) : b.metadata = md := by
  rw [metadata, leWord_congr h, leWord_leByte, Nat.mod_eq_of_lt md.word_lt, md.ofWord_word]

/-- The first ten bytes of a block are the encoding of its metadata. -/
theorem byte_eq_leByte (b : Block) {i : Nat} (h : i < 10) : b.byte i = leByte b.metadata.word i := by
  rw [metadata, BldmsBlock.word_ofWord (leWord_lt b.byte 10), leByte_leWord b.byte h]

theorem byte_writeMetadata_lt (b : Block) (md : BldmsBlock) {i : Nat} (h : i < 10) :
    (b.writeMetadata md).byte i = leByte md.word i := by
  rw [byte, dif_pos (show i < 4096 by omega), writeMetadata, if_pos h]

theorem byte_writeMetadata_ge (b : Block) (md : BldmsBlock) {i : Nat} (h : 10 ≤ i) :
    (b.writeMetadata md).byte i = b.byte i := by
  simp only [byte, writeMetadata, metadataSize, if_neg (show ¬ i < 10 by omega)]

theorem byte_ofMessage_lt (md : BldmsBlock) (m : List Byte) {i : Nat} (h : i < 10) :
    (ofMessage md m).byte i = leByte md.word i := by
  rw [byte, dif_pos (show i < 4096 by omega), ofMessage, if_pos h]

theorem byte_ofMessage_payload (md : BldmsBlock) (m : List Byte) {i : Nat} (h : i < 4086) :
    (ofMessage md m).byte (10 + i) = m.getD i 0 := by
  rw [byte, dif_pos (show 10 + i < 4096 by omega), ofMessage,
    if_neg (show ¬ 10 + i < 10 by omega), show 10 + i - metadataSize = i from by
      rw [metadataSize]; omega]

@[simp] theorem metadata_writeMetadata (b : Block) (md : BldmsBlock) :
    (b.writeMetadata md).metadata = md :=
  metadata_of_bytes fun _ h => byte_writeMetadata_lt b md h

@[simp] theorem metadata_ofMessage (md : BldmsBlock) (m : List Byte) :
    (ofMessage md m).metadata = md :=
  metadata_of_bytes fun _ h => byte_ofMessage_lt md m h

/-- Rewriting the metadata leaves the payload alone. -/
theorem slice_writeMetadata (b : Block) (md : BldmsBlock) {off : Nat} (len : Nat)
    (h : 10 ≤ off) : (b.writeMetadata md).slice off len = b.slice off len :=
  slice_congr fun _ hi => byte_writeMetadata_ge b md (by omega)

/-- The payload of a freshly written block starts with the message. -/
theorem slice_ofMessage (md : BldmsBlock) {m : List Byte} {n : Nat} (hn : n ≤ m.length)
    (hm : m.length ≤ 4086) : (ofMessage md m).slice 10 n = m.take n := by
  apply List.ext_getElem
  · simp [Nat.min_eq_left hn]
  · intro i h₁ h₂
    have hi : i < n := by simpa using h₁
    have hin : i < m.length := by omega
    simp only [slice, List.getElem_map, List.getElem_range, List.getElem_take]
    rw [byte_ofMessage_payload md m (by omega), List.getD_eq_getElem?_getD,
      List.getElem?_eq_getElem hin, Option.getD_some]

end Block

/-! ## Superblock and inode fields -/

/-- `bldms_sb_info.magic`: the second 64-bit word of block 0. -/
def sbMagic (b : Block) : Nat := leWord (fun i => b.byte (8 + i)) 8

/-- `bldms_inode.file_size`: the 64-bit word at offset 24 (`mode` is padded to eight bytes, then
    `inode_no` and `data_block_number`). -/
def inodeFileSize (b : Block) : Nat := leWord (fun i => b.byte (24 + i)) 8

end Bldms
