/-
  The formatter: `bldmsmakefs`.

  Source: `bldmsmakefs.c`.

  The formatter shares nothing with the driver but `include/bldms.h`: it declares the metadata of a block a
  second time (`Blk`), and lays the image out by writing from the start of the file to its end —
  superblock, inode, padding, and then, block after block, metadata, message, padding.
  * A write is complete or makes the program stop; what it returns comes from outside, by position.
  * Memory that is never initialised and written out all the same (the padding of the superblock, the
    holes of the inode, the block after it) is `MakefsEnv.junk`, by the position it ends up at.
  * `FILL_DEV` is a compile-time switch: five messages are pre-installed, three of them with a timestamp
    that is ahead of the clock.

  `formatBlock_ok` says what one pass of the loop appends, `Laid` is the loop's invariant, and
  `bldmsmakefs_ok` says what a run that reports success has written, block by block.
-/
import Bldms.Device

namespace Bldms

/-! ## The metadata of the formatter -/

/-- `blk`: the metadata of a block, as the formatter declares it. -/
structure Blk where
  nsec : BitVec 64
  isValid : Bool
  validBytes : BitVec 15
  deriving DecidableEq, Repr

namespace Blk

/-- The ten bytes of the packed structure: `nsec`, then the two bit-fields, the lower seven bits of
    `valid_bytes` next to `is_valid`. -/
def bytes (b : Blk) : List Byte :=
  leBytes b.nsec.toNat 8 ++
    [UInt8.ofNat (b.isValid.toNat + 2 * (b.validBytes.toNat % 128)), UInt8.ofNat (b.validBytes.toNat / 128)]

/-- The structure ten bytes stand for. -/
def ofBytes (f : Nat → Byte) : Blk where
  nsec := BitVec.ofNat 64 (leWord f 8)
  isValid := decide ((f 8).toNat % 2 = 1)
  validBytes := BitVec.ofNat 15 ((f 8).toNat / 2 + 128 * (f 9).toNat)

/-- The same fields in the driver's structure. -/
def toBldmsBlock (b : Blk) : BldmsBlock := ⟨b.nsec, b.isValid, b.validBytes⟩

@[simp] theorem length_bytes (b : Blk) : b.bytes.length = 10 := by simp [bytes]

/-- **One layout**: byte by byte, the formatter writes what the driver's structure is encoded as. -/
theorem getD_bytes (b : Blk) {i : Nat} (h : i < 10) :
    b.bytes.getD i 0 = leByte b.toBldmsBlock.word i := by
  have hv := b.validBytes.isLt
  have hbit : b.isValid.toNat ≤ 1 := Bool.toNat_le _
  rcases (by omega : i < 8 ∨ i = 8 + 0 ∨ i = 8 + 1) with hlt | rfl | rfl
  · rw [BldmsBlock.leByte_word_lt _ hlt, bytes, List.getD_append _ _ _ _ (by simpa using hlt),
      getD_leBytes _ hlt]
    rfl
  · rw [BldmsBlock.leByte_word_ge, bytes, List.getD_append_right _ _ _ _ (by simp), length_leBytes]
    show UInt8.ofNat _ = leByte (b.isValid.toNat + 2 * b.validBytes.toNat) 0
    apply UInt8.toNat_inj.mp
    rw [toNat_leByte, UInt8.toNat_ofNat']
    omega
  · rw [BldmsBlock.leByte_word_ge, bytes, List.getD_append_right _ _ _ _ (by simp), length_leBytes]
    show UInt8.ofNat _ = leByte (b.isValid.toNat + 2 * b.validBytes.toNat) 1
    apply UInt8.toNat_inj.mp
    rw [toNat_leByte, UInt8.toNat_ofNat']
    omega

theorem ofBytes_congr {f g : Nat → Byte} (h : ∀ i, i < 10 → f i = g i) : ofBytes f = ofBytes g := by
  rw [ofBytes, ofBytes, leWord_congr fun i hi => h i (by omega), h 8 (by omega), h 9 (by omega)]

/-- The formatter's structure, read from the driver's bytes. -/
theorem ofBytes_word (md : BldmsBlock) : (ofBytes (leByte md.word)).toBldmsBlock = md := by
  obtain ⟨nsec, isValid, validBytes⟩ := md
  have h₁ := nsec.isLt
  have h₂ := validBytes.isLt
  have hbit : isValid.toNat ≤ 1 := Bool.toNat_le _
  have h8 : (leByte (BldmsBlock.mk nsec isValid validBytes).word 8).toNat =
      isValid.toNat + 2 * (validBytes.toNat % 128) := by
    rw [BldmsBlock.leByte_word_ge _ 0, toNat_leByte]
    dsimp only
    omega
  have h9 : (leByte (BldmsBlock.mk nsec isValid validBytes).word 9).toNat = validBytes.toNat / 128 := by
    rw [BldmsBlock.leByte_word_ge _ 1, toNat_leByte]
    dsimp only
    omega
  simp only [ofBytes, toBldmsBlock, BldmsBlock.mk.injEq, h8, h9]
  refine ⟨?_, ?_, ?_⟩
  · rw [leWord_congr fun i hi => BldmsBlock.leByte_word_lt _ hi, leWord_leByte]
    apply BitVec.eq_of_toNat_eq
    rw [BitVec.toNat_ofNat]
    dsimp only
    omega
  · exact BldmsBlock.decide_low_bit rfl
  · apply BitVec.eq_of_toNat_eq
    rw [BitVec.toNat_ofNat]
    omega

end Blk

/-! ## The image file -/

/-- The image file, opened for writing: its bytes, its size, and the position of the descriptor. -/
structure ImageFile where
  data : Nat → Byte
  size : Nat
  pos : Nat

namespace ImageFile

/-- A complete `write`: the bytes replace those at the position, which moves past them; the file grows if it
    has to. -/
def write (f : ImageFile) (bytes : List Byte) : ImageFile where
  data := fun i => if f.pos ≤ i ∧ i < f.pos + bytes.length then bytes.getD (i - f.pos) 0 else f.data i
  size := max f.size (f.pos + bytes.length)
  pos := f.pos + bytes.length

/-- The file as a block device. -/
def device (f : ImageFile) : Device := fun b i => f.data (b * defaultBlockSize + i.val)

@[simp] theorem pos_write (f : ImageFile) (bytes : List Byte) :
    (f.write bytes).pos = f.pos + bytes.length := rfl
@[simp] theorem size_write (f : ImageFile) (bytes : List Byte) :
    (f.write bytes).size = max f.size (f.pos + bytes.length) := rfl

theorem data_write_inside {f : ImageFile} {bytes : List Byte} {i : Nat}
    (h : f.pos ≤ i ∧ i < f.pos + bytes.length) : (f.write bytes).data i = bytes.getD (i - f.pos) 0 :=
  if_pos h

theorem data_write_outside {f : ImageFile} {bytes : List Byte} {i : Nat}
    (h : ¬ (f.pos ≤ i ∧ i < f.pos + bytes.length)) : (f.write bytes).data i = f.data i := if_neg h

theorem write_write (f : ImageFile) (a b : List Byte) : (f.write a).write b = f.write (a ++ b) := by
  have hpos := pos_write f a
  have hlen : (a ++ b).length = a.length + b.length := List.length_append
  have hdata : ∀ i, ((f.write a).write b).data i = (f.write (a ++ b)).data i := by
    intro i
    by_cases hb : f.pos + a.length ≤ i ∧ i < f.pos + a.length + b.length
    · rw [data_write_inside (by omega), data_write_inside (by omega),
        List.getD_append_right _ _ _ _ (by omega), hpos]
      congr 1
      omega
    · rw [data_write_outside (by omega)]
      by_cases ha : f.pos ≤ i ∧ i < f.pos + a.length
      · rw [data_write_inside ha, data_write_inside (by omega), List.getD_append _ _ _ _ (by omega)]
      · rw [data_write_outside ha, data_write_outside (by omega)]
  have hsize : ((f.write a).write b).size = (f.write (a ++ b)).size := by
    simp only [size_write, pos_write, hlen]
    omega
  have hend : ((f.write a).write b).pos = (f.write (a ++ b)).pos := by
    simp only [pos_write, hlen]
    omega
  exact (ImageFile.mk.injEq ..).mpr ⟨funext hdata, hsize, hend⟩

end ImageFile

/-- The block with the given bytes. -/
def Block.ofBytes (bytes : List Byte) : Block := fun i => bytes.getD i.val 0

theorem Block.byte_ofBytes {bytes : List Byte} {i : Nat} (h : i < 4096) :
    (Block.ofBytes bytes).byte i = bytes.getD i 0 := by
  rw [Block.byte, dif_pos h, Block.ofBytes]

/-- Writing a whole block at the start of block `p` replaces that block and no other. -/
theorem ImageFile.device_write {f : ImageFile} {p : Nat} (hpos : f.pos = p * 4096) {bytes : List Byte}
    (hlen : bytes.length = 4096) :
    (f.write bytes).device = Function.update f.device p (Block.ofBytes bytes) := by
  funext b i
  have hi : i.val < 4096 := i.isLt
  show (f.write bytes).data (b * 4096 + i.val) = _
  by_cases hb : b = p
  · subst hb
    rw [Function.update_self, data_write_inside (by omega), hpos, Nat.add_sub_cancel_left]
    rfl
  · rw [Function.update_of_ne hb, data_write_outside (by omega)]
    rfl

/-! ## The program -/

/-- `struct timespec`. -/
structure Timespec where
  tvSec : BitVec 64
  tvNsec : BitVec 64
  deriving DecidableEq, Repr

/-- What a run of the formatter gets from outside. -/
structure MakefsEnv where
  argc : Nat
  /-- `open` succeeds. -/
  opens : Bool
  /-- What `write` of so many bytes at a position returns. -/
  write : Nat → Nat → Int
  /-- What is in the memory that is not initialised, by the position it is written to. -/
  junk : Nat → Byte
  /-- `clock_gettime` in the pass for block `i`. -/
  clock : Nat → Timespec

/-- The program is called with one file, which opens, and every write is complete. -/
structure MakefsEnv.Succeeds (env : MakefsEnv) : Prop where
  argc : env.argc = 2
  opens : env.opens = true
  write : ∀ pos n, env.write pos n = n

/-- A string of the program with its terminator. -/
def cString (s : String) : List Byte := s.toList.map (fun c => UInt8.ofNat c.toNat) ++ [0]

def string0 : List Byte := cString
  "This is the message present at the first block, but with a timestamp of 100 seconds greater than the original\n"
def string5 : List Byte := cString "Hello, I am a message present in block number 5!\n"
def string9 : List Byte := cString
  "This is message for block 9, with timestamp of 9 seconds greater than it should be :)\n"
def string17 : List Byte := cString
  "Hi there, this is message from block number 17 and my timestamp has been increased exactly of 17 seconds ;)\n"
def string22 : List Byte := cString
  "I'm just a normal message put in block 22, but at least by block number is palindrome :)\n"

/-- The message pre-installed in block `i`, with the terminator. -/
def preinstalled : Nat → Option (List Byte)
  | 0 => some string0
  | 5 => some string5
  | 9 => some string9
  | 17 => some string17
  | 22 => some string22
  | _ => none

/-- The message the loop finds for block `i`: none unless `FILL_DEV` is defined. -/
def installed (fill : Bool) (i : Nat) : Option (List Byte) := if fill then preinstalled i else none

/-- `BILLION`. -/
def billion : BitVec 64 := 1000000000

/-- The timestamp of the pre-installed block `i`; the `long` arithmetic wraps. -/
def MakefsEnv.stamp (env : MakefsEnv) (i : Nat) : BitVec 64 :=
  let ts := env.clock i
  let nsec := ts.tvSec * billion + ts.tvNsec
  if i = 9 ∨ i = 17 then nsec + BitVec.ofNat 64 i * billion
  else if i = 0 then nsec + 100 * billion
  else nsec

/-- A `write` that the program checks: `code ret` is what it exits with when not all was written. -/
def ImageFile.writeOr (env : MakefsEnv) (code : Int → Int) (bytes : List Byte) (f : ImageFile) :
    Except Int ImageFile :=
  let ret := env.write f.pos bytes.length
  if ret ≠ bytes.length then .error (code ret) else .ok (f.write bytes)

/-- `n` bytes that were never initialised, to be written at position `pos`. -/
def MakefsEnv.uninitialised (env : MakefsEnv) (pos n : Nat) : List Byte :=
  (List.range n).map fun i => env.junk (pos + i)

/-- `S_IFREG`. -/
def sIfReg : Nat := 0x8000

/-- `sb_info`: version, magic number, and padding up to the size of a block. -/
def sbInfo (env : MakefsEnv) : List Byte :=
  leBytes 1 8 ++ leBytes magicNumber 8 ++ env.uninitialised 16 4080

/-- `file_inode`: `mode` (four bytes and a hole), `inode_no`, `data_block_number` (not set) and
    `file_size`. -/
def fileInode (env : MakefsEnv) (fileSize : Nat) : List Byte :=
  leBytes sIfReg 4 ++ env.uninitialised 4100 4 ++ leBytes bldmsInodesBlockNumber 8 ++
    env.uninitialised 4112 8 ++ leBytes fileSize 8

/-- `nbytes` in the loop: what the metadata leaves of a block. -/
abbrev payloadSize : Nat := defaultBlockSize - metadataSize

/-- The body of the loop, for block `i`. -/
def formatBlock (fill : Bool) (env : MakefsEnv) (i : Nat) (f : ImageFile) : Except Int ImageFile :=
  match installed fill i with
  | some s => do
    let validBytes := s.length % 2 ^ 16
    let myBlk : Blk := ⟨env.stamp i, true, BitVec.ofNat 15 validBytes⟩
    let f ← f.writeOr env (fun _ => -1) myBlk.bytes
    let f ← f.writeOr env (fun _ => -1) (s.take myBlk.validBytes.toNat)
    f.writeOr env (fun _ => -1) (List.replicate (payloadSize - myBlk.validBytes.toNat) 0)
  | none => do
    let f ← f.writeOr env (fun _ => -1) (Blk.bytes ⟨0, false, 0⟩)
    f.writeOr env (fun _ => -1) (List.replicate payloadSize 0)

/-- The loop, for blocks `i, …, i + n - 1`. -/
def formatLoop (fill : Bool) (env : MakefsEnv) (i : Nat) : Nat → ImageFile → Except Int ImageFile
  | 0, f => .ok f
  | n + 1, f => do
    let f ← formatBlock fill env i f
    formatLoop fill env (i + 1) n f

/-- `file_size`: the size of the image less two blocks, in 64 unsigned bits. -/
def makefsFileSize (size : Nat) : Nat := (size + (2 ^ 64 - 2 * defaultBlockSize)) % 2 ^ 64

/-- `num_data_blocks`: a 64-bit quotient in 32 bits. -/
def makefsNumDataBlocks (size : Nat) : Nat := makefsFileSize size / defaultBlockSize % 2 ^ 32

/-- `main`, compiled with or without `FILL_DEV`, on an image file: the exit code of a run that fails, or
    the file after one that has reported success. -/
def bldmsmakefs (fill : Bool) (env : MakefsEnv) (image : ImageFile) : Except Int ImageFile :=
  if env.argc ≠ 2 then .error (-1)
  else if ¬ env.opens then .error (-1)
  else do
    let f : ImageFile := { image with pos := 0 }
    -- the first check exits with what `write` returned, the others with -1
    let f ← f.writeOr env id (sbInfo env)
    let f ← f.writeOr env (fun _ => -1) (fileInode env (makefsFileSize image.size))
    let f ← f.writeOr env (fun _ => -1) (env.uninitialised 4128 (defaultBlockSize - 32))
    formatLoop fill env 0 (makefsNumDataBlocks image.size) f

/-! ## What a run has written -/

/-- A checked write that the program survives is a complete one … -/
theorem writeOr_ok {env : MakefsEnv} {code : Int → Int} {bytes : List Byte} {f f' : ImageFile}
    (h : f.writeOr env code bytes = .ok f') : f' = f.write bytes := by
  unfold ImageFile.writeOr at h
  dsimp only at h
  split at h
  · nomatch h
  · exact (Except.ok.inj h).symm

/-- … and with nothing failing it survives every one. -/
theorem writeOr_succeeds {env : MakefsEnv} (henv : env.Succeeds) (code : Int → Int)
    (bytes : List Byte) (f : ImageFile) : f.writeOr env code bytes = .ok (f.write bytes) := by
  rw [ImageFile.writeOr, henv.write, if_neg (fun h => h rfl)]

theorem ok_bind {α β : Type} (a : α) (g : α → Except Int β) : Except.ok a >>= g = g a := rfl

/-- One step of a run that reports success. -/
theorem bind_eq_ok {α β : Type} {x : Except Int α} {g : α → Except Int β} {b : β}
    (h : x >>= g = .ok b) : ∃ a, x = .ok a ∧ g a = .ok b := by
  cases x with
  | error e => cases h
  | ok a => exact ⟨a, rfl, h⟩

theorem preinstalled_length {i : Nat} {s : List Byte} (h : preinstalled i = some s) :
    s.length ≤ 4086 := by
  unfold preinstalled at h
  split at h
  · rw [← Option.some.inj h]; decide +kernel
  · rw [← Option.some.inj h]; decide +kernel
  · rw [← Option.some.inj h]; decide +kernel
  · rw [← Option.some.inj h]; decide +kernel
  · rw [← Option.some.inj h]; decide +kernel
  · nomatch h

theorem installed_length {fill : Bool} {i : Nat} {s : List Byte} (h : installed fill i = some s) :
    s.length ≤ 4086 := by
  cases fill with
  | false => nomatch h
  | true => exact preinstalled_length h

/-- The metadata of block `i`. -/
def blockMetadata (fill : Bool) (env : MakefsEnv) (i : Nat) : Blk :=
  match installed fill i with
  | some s => ⟨env.stamp i, true, BitVec.ofNat 15 s.length⟩
  | none => ⟨0, false, 0⟩

/-- The bytes of block `i`: metadata, message, and zeros. -/
def blockBytes (fill : Bool) (env : MakefsEnv) (i : Nat) : List Byte :=
  let s := (installed fill i).getD []
  (blockMetadata fill env i).bytes ++ (s ++ List.replicate (payloadSize - s.length) 0)

theorem length_blockBytes (fill : Bool) (env : MakefsEnv) (i : Nat) :
    (blockBytes fill env i).length = 4096 := by
  have hlen : ((installed fill i).getD []).length ≤ 4086 := by
    cases hs : installed fill i with
    | none => exact Nat.zero_le _
    | some s => exact installed_length hs
  have hpayload : payloadSize = 4086 := rfl
  simp only [blockBytes, List.length_append, Blk.length_bytes, List.length_replicate, hpayload]
  omega

/-- The writes of one pass add up to one write of the block. -/
theorem formatBlock_ok {fill : Bool} {env : MakefsEnv} {i : Nat} {f f' : ImageFile}
    (h : formatBlock fill env i f = .ok f') : f' = f.write (blockBytes fill env i) := by
  unfold formatBlock at h
  unfold blockBytes blockMetadata
  cases hs : installed fill i with
  | none =>
    rw [hs] at h
    obtain ⟨f₁, h₁, h₂⟩ := bind_eq_ok h
    rw [writeOr_ok h₂, writeOr_ok h₁, ImageFile.write_write]
    simp only [Option.getD_none, List.nil_append, List.length_nil, Nat.sub_zero]
  | some s =>
    rw [hs] at h
    dsimp only at h
    have hlen : s.length ≤ 4086 := installed_length hs
    -- neither the `uint16_t` nor the 15-bit field cuts the length
    rw [Nat.mod_eq_of_lt (by omega : s.length < 2 ^ 16), BitVec.toNat_ofNat,
      Nat.mod_eq_of_lt (by omega : s.length < 2 ^ 15), List.take_length] at h
    obtain ⟨f₁, h₁, h⟩ := bind_eq_ok h
    obtain ⟨f₂, h₂, h₃⟩ := bind_eq_ok h
    rw [writeOr_ok h₃, writeOr_ok h₂, writeOr_ok h₁, ImageFile.write_write, ImageFile.write_write]
    simp only [Option.getD_some]

theorem formatBlock_succeeds {env : MakefsEnv} (henv : env.Succeeds) (fill : Bool) (i : Nat)
    (f : ImageFile) : ∃ f', formatBlock fill env i f = .ok f' := by
  unfold formatBlock
  simp only [writeOr_succeeds henv, ok_bind]
  split <;> exact ⟨_, rfl⟩

/-- The bytes of block 1: the inode of the single file, and the rest of the block. -/
def inodeBytes (env : MakefsEnv) (size : Nat) : List Byte :=
  fileInode env (makefsFileSize size) ++ env.uninitialised 4128 (defaultBlockSize - 32)

/-- What the loop has achieved after blocks `0, …, i - 1` of an image that had `size` bytes. -/
structure Laid (fill : Bool) (env : MakefsEnv) (size i : Nat) (f : ImageFile) : Prop where
  atEnd : f.pos = (i + 2) * 4096
  grown : f.size = max size ((i + 2) * 4096)
  super : f.device 0 = Block.ofBytes (sbInfo env)
  inode : f.device 1 = Block.ofBytes (inodeBytes env size)
  blocks : ∀ j, j < i → f.device (j + 2) = Block.ofBytes (blockBytes fill env j)

theorem Laid.step {fill : Bool} {env : MakefsEnv} {size i : Nat} {f f' : ImageFile}
    (h : Laid fill env size i f) (hstep : formatBlock fill env i f = .ok f') :
    Laid fill env size (i + 1) f' := by
  have hlen := length_blockBytes fill env i
  have hdev := ImageFile.device_write h.atEnd hlen
  rw [formatBlock_ok hstep]
  refine ⟨?_, ?_, ?_, ?_, ?_⟩
  · rw [ImageFile.pos_write, h.atEnd, hlen]
    omega
  · rw [ImageFile.size_write, h.atEnd, h.grown, hlen]
    omega
  · rw [hdev, Function.update_of_ne (by omega), h.super]
  · rw [hdev, Function.update_of_ne (by omega), h.inode]
  · intro j hj
    rw [hdev]
    by_cases hji : j = i
    · rw [hji, Function.update_self]
    · rw [Function.update_of_ne (by omega), h.blocks j (by omega)]

/-- The run lemma of the loop. -/
theorem Laid.loop {fill : Bool} {env : MakefsEnv} {size : Nat} :
    ∀ {n i : Nat} {f f' : ImageFile}, Laid fill env size i f → formatLoop fill env i n f = .ok f' →
      Laid fill env size (i + n) f' := by
  intro n
  induction n with
  | zero =>
    intro i f f' h hloop
    exact Except.ok.inj hloop ▸ h
  | succ n ih =>
    intro i f f' h hloop
    obtain ⟨f₁, h₁, hrest⟩ := bind_eq_ok hloop
    rw [show i + (n + 1) = i + 1 + n from by omega]
    exact ih (h.step h₁) hrest

theorem formatLoop_succeeds {env : MakefsEnv} (henv : env.Succeeds) (fill : Bool) :
    ∀ (n i : Nat) (f : ImageFile), ∃ f', formatLoop fill env i n f = .ok f'
  | 0, _, f => ⟨f, rfl⟩
  | n + 1, i, f => by
    obtain ⟨f₁, h₁⟩ := formatBlock_succeeds henv fill i f
    obtain ⟨f', h'⟩ := formatLoop_succeeds henv fill n (i + 1) f₁
    refine ⟨f', ?_⟩
    rw [formatLoop, h₁, ok_bind, h']

/-- **What a run that reports success has written**: superblock, inode and every block of the loop. -/
theorem bldmsmakefs_ok {fill : Bool} {env : MakefsEnv} {image f : ImageFile}
    (h : bldmsmakefs fill env image = .ok f) :
    Laid fill env image.size (makefsNumDataBlocks image.size) f := by
  unfold bldmsmakefs at h
  split at h
  · nomatch h
  split at h
  · nomatch h
  obtain ⟨f₁, h₁, h⟩ := bind_eq_ok h
  obtain ⟨f₂, h₂, h⟩ := bind_eq_ok h
  obtain ⟨f₃, h₃, hloop⟩ := bind_eq_ok h
  have hsb : (sbInfo env).length = 4096 := by simp [sbInfo, MakefsEnv.uninitialised]
  have hinode : (inodeBytes env image.size).length = 4096 := by
    simp only [inodeBytes, fileInode, MakefsEnv.uninitialised, List.length_append, List.length_map,
      List.length_range, length_leBytes, defaultBlockSize]
  have hdev₁ : f₁.device = Function.update image.device 0 (Block.ofBytes (sbInfo env)) := by
    rw [writeOr_ok h₁]
    exact ImageFile.device_write rfl hsb
  have hpos₁ : f₁.pos = 1 * 4096 := by
    rw [writeOr_ok h₁, ImageFile.pos_write, hsb]
  have hf₃ : f₃ = f₁.write (inodeBytes env image.size) := by
    rw [writeOr_ok h₃, writeOr_ok h₂, ImageFile.write_write]
    rfl
  have hdev₃ := ImageFile.device_write hpos₁ hinode
  rw [← hf₃] at hdev₃
  have hlaid : Laid fill env image.size 0 f₃ := by
    refine ⟨?_, ?_, ?_, ?_, fun j hj => absurd hj (Nat.not_lt_zero j)⟩
    · rw [hf₃, ImageFile.pos_write, hpos₁, hinode]
    · rw [hf₃, ImageFile.size_write, hpos₁, hinode, writeOr_ok h₁, ImageFile.size_write, hsb]
      dsimp only
      omega
    · rw [hdev₃, Function.update_of_ne (by omega), hdev₁, Function.update_self]
    · rw [hdev₃, Function.update_self]
  have h := hlaid.loop hloop
  rwa [Nat.zero_add] at h

/-- With nothing failing the formatter reports success. -/
theorem bldmsmakefs_succeeds {env : MakefsEnv} (henv : env.Succeeds) (fill : Bool) (image : ImageFile) :
    ∃ f, bldmsmakefs fill env image = .ok f := by
  unfold bldmsmakefs
  generalize makefsNumDataBlocks image.size = n
  rw [if_neg (fun h => h henv.argc), if_neg (fun h => h henv.opens)]
  dsimp only
  rw [writeOr_succeeds henv, ok_bind, writeOr_succeeds henv, ok_bind, writeOr_succeeds henv, ok_bind]
  exact formatLoop_succeeds henv fill n 0 _

/-! ## What the driver reads there -/

/-- A word in the middle of a list of bytes. -/
theorem getD_leBytes_middle {a c : List Byte} {w k n i : Nat} (hk : a.length = k) (h : i < n) :
    (a ++ leBytes w n ++ c).getD (k + i) 0 = leByte w i := by
  rw [List.append_assoc, List.getD_append_right _ _ _ _ (by omega), hk, Nat.add_sub_cancel_left,
    List.getD_append _ _ _ _ (by simpa using h), getD_leBytes _ h]

/-- The word at offset `k` of a block that was written with `w` there. -/
theorem leWord_ofBytes {a c : List Byte} {w k : Nat} (hk : a.length = k) (hk' : k ≤ 4088)
    (hw : w < 2 ^ 64) : leWord (fun i => (Block.ofBytes (a ++ leBytes w 8 ++ c)).byte (k + i)) 8 = w := by
  have hbytes : ∀ i, i < 8 →
      (Block.ofBytes (a ++ leBytes w 8 ++ c)).byte (k + i) = leByte w i := by
    intro i hi
    rw [Block.byte_ofBytes (by omega), getD_leBytes_middle hk hi]
  rw [leWord_congr hbytes, leWord_leByte]
  omega

theorem sbMagic_sbInfo (env : MakefsEnv) : sbMagic (Block.ofBytes (sbInfo env)) = magicNumber :=
  leWord_ofBytes (length_leBytes 1 8) (by omega) (by decide)

theorem inodeFileSize_inodeBytes (env : MakefsEnv) (size : Nat) :
    inodeFileSize (Block.ofBytes (inodeBytes env size)) = makefsFileSize size := by
  refine leWord_ofBytes ?_ (by omega) (Nat.mod_lt _ (by omega))
  simp [MakefsEnv.uninitialised]

theorem metadata_blockBytes (fill : Bool) (env : MakefsEnv) (i : Nat) :
    (Block.ofBytes (blockBytes fill env i)).metadata = (blockMetadata fill env i).toBldmsBlock := by
  apply Block.metadata_of_bytes
  intro j hj
  rw [Block.byte_ofBytes (by omega), blockBytes, List.getD_append _ _ _ _ (by simpa using hj),
    Blk.getD_bytes _ hj]

theorem slice_blockBytes {fill : Bool} {env : MakefsEnv} {i : Nat} {s : List Byte}
    (hs : installed fill i = some s) : (Block.ofBytes (blockBytes fill env i)).slice 10 s.length = s := by
  have hlen := installed_length hs
  apply List.ext_getElem
  · rw [Block.length_slice]
  · intro j h₁ h₂
    simp only [Block.slice, List.getElem_map, List.getElem_range]
    rw [Block.byte_ofBytes (by omega), blockBytes, hs,
      List.getD_append_right _ _ _ _ (by rw [Blk.length_bytes]; omega), Blk.length_bytes,
      Nat.add_sub_cancel_left, Option.getD_some, List.getD_append _ _ _ _ h₂,
      List.getD_eq_getElem?_getD, List.getElem?_eq_getElem h₂, Option.getD_some]

end Bldms
