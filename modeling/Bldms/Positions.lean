/-
  Read positions and the blocks they stand for.

  Source: `file_ops.c`, `bldms_read`: the decoding of `*off`, the jump, and the position for the next call;
  `include/rcu.h`, `rcu_elem`.

  A position stands for a block by division: `*off / DEFAULT_BLOCK_SIZE`, in 64 bits.  The driver goes the
  other way in two places, when it jumps to a node and when it prepares the next call, and there the product
  `ndx * DEFAULT_BLOCK_SIZE` is a 32-bit one, a `uint32_t` times an `int` (`dataPos`).  So the index comes back
  modulo `2 ^ 20`.

  A configuration in which the product of the size check is an `int` has no block as far out as that.  But the
  check also accepts larger devices, for a limit whose product is negative (`BlockLimit`), and there a session
  can be sent back to a block that it has read, again and again.
-/
import Bldms.ReadReply

namespace Bldms

/-- The position `off` stands for the start of the payload of block `ndx`, and the next call looks for
    that block. -/
structure StandsFor (off ndx : Nat) : Prop where
  block : off / 4096 = ndx
  start : off % 4096 = metadataSize
  looks : ∀ s : Session, s.off = off → s.deviceBlk = ndx

/-- The values a call stores in `*off` for the node `el`:
    * `jump` — the scan stops at `el`, which is not in the block of the position, and the call reads it through
      a window with a position of its own;
    * `next` — the call ends in `set_next_blk`, with `el` as the next node, and leaves the session there. -/
inductive StoredFor (d : Driver) (el : RcuElem) : Nat → Prop
  | jump {e : ReadEnv} {len : Nat} {s : Session} {w : Window} {rest : List RcuElem} :
      readWindow s.ino.iSize s.off len = some w → s.picks d = el :: rest → el.ndx ≠ s.deviceBlk →
      bldmsRead e len s d = readTarget e (w.facing s.deviceBlk el) el rest s d →
      StoredFor d el (w.facing s.deviceBlk el).off
  | next {e : ReadEnv} {len : Nat} {s : Session} : e.alloc = true →
      (∃ copied ret rest t, bldmsRead e len s d = setNextBlk e copied ret (el :: rest) t) →
      StoredFor d el (bldmsRead e len s d).sess.off

/-- Both places store the same expression. -/
theorem StoredFor.eq {d : Driver} {el : RcuElem} {off : Nat} (h : StoredFor d el off) :
    off = dataPos el.ndx := by
  cases h with
  | jump _ _ hother _ => rw [Window.facing, if_neg hother]
  | next halloc hcall =>
    obtain ⟨copied, ret, rest, t, hcall⟩ := hcall
    rw [hcall, setNextBlk, if_neg (fun h => h halloc)]

/-- The block a stored position stands for: the index loses what is above 20 bits. -/
theorem dataPos_div (ndx : Nat) : dataPos ndx / 4096 = ndx % 2 ^ 20 ∧ dataPos ndx % 4096 = 10 := by
  show (ndx * 4096 % 2 ^ 32 + 10) / 4096 = ndx % 2 ^ 20 ∧ (ndx * 4096 % 2 ^ 32 + 10) % 4096 = 10
  omega

/-- **Read positions and the blocks they stand for.** For every `NBLOCKS` in the positive range of an
    `int`, every device with at most so many blocks, and every node of one of them, a position that
    `bldms_read` stores for the node stands for its block if and only if the index is below `2 ^ 20`. -/
theorem position_stands_for_iff (nblocks : Nat) (_hpos : 0 < nblocks) (_hint : nblocks < 2 ^ 31) (sb : Nat)
    (d : Driver) (_hcount : d.blockCount sb ≤ nblocks) (el : RcuElem) (_hndx : el.ndx < d.blockCount sb)
    (off : Nat) (hstored : StoredFor d el off) : StandsFor off el.ndx ↔ el.ndx < 2 ^ 20 := by
  obtain ⟨hdiv, hmod⟩ := dataPos_div el.ndx
  rw [hstored.eq]
  constructor
  · intro h
    have hblock := h.block
    omega
  · intro hlt
    have hblock : dataPos el.ndx / 4096 = el.ndx := by omega
    refine ⟨hblock, hmod, ?_⟩
    intro s hs
    rw [Session.deviceBlk, hs, hblock, Nat.mod_eq_of_lt (by omega)]

/-- Four blocks, with messages in the first two of them. -/
def nearDriver : Driver := driver.final (freshDriver 4) [.put (.allOk 4 7) [1], .put (.allOk 5 8) [2]]

/-- The first read on them stores the position of the second message. -/
theorem position_stands_for_second :
    let out := bldmsRead ⟨true, 0, true, 0⟩ 9 (nearDriver.freshSession 0) nearDriver
    out.sess.off = 4106 ∧ StandsFor out.sess.off 1 := by
  intro out
  have hcall : out = setNextBlk ⟨true, 0, true, 0⟩ out.copied 1 [⟨1, 8, 1⟩] ⟨10, 0, ⟨16384, 0⟩⟩ := by decide +kernel
  have hstored : StoredFor nearDriver ⟨1, 8, 1⟩ out.sess.off := .next rfl ⟨_, _, _, _, hcall⟩
  have hiff := position_stands_for_iff 1000 (by decide) (by decide) 0 nearDriver (by decide +kernel) ⟨1, 8, 1⟩
    (by decide +kernel) _ hstored
  exact ⟨by decide +kernel, hiff.mpr (by decide)⟩

/-- A device of 2 ^ 20 + 1 blocks, with a message in its first block and one in its last. -/
def farImage : Device := fun b i =>
  if b = 2 then Block.ofMessage ⟨1, true, 1⟩ [65] i
  else if b = 2 ^ 20 + 2 then Block.ofMessage ⟨2, true, 1⟩ [66] i
  else sizedImage ((2 ^ 20 + 1) * 4096) b i

/-- The driver on that device. -/
def farDriver : Driver where
  bldmsMounted := true
  theDevSuperblock := some 0
  validBlkList := [⟨0, 1, 1⟩, ⟨2 ^ 20, 2, 1⟩]
  metadataArray := (List.range (2 ^ 20 + 1)).map fun i => ⟨i, (farImage (i + 2)).metadata⟩
  mdArraySize := 2 ^ 20 + 1
  lastWrittenBlock := 2 ^ 20
  disk := fun _ => farImage

/-- With `NBLOCKS` at 3 * 2 ^ 19, the size check lets this device pass.  The first read of a session
    delivers the first message and leaves, for the second one, the position of the first: the next read
    delivers the first message again, and leaves the session where it was. -/
theorem position_sent_back :
    let e : ReadEnv := ⟨true, 0, true, 0⟩
    let out := bldmsRead e 9 (farDriver.freshSession 0) farDriver
    let again := bldmsRead e 9 out.sess farDriver
    (farDriver.blockCount 0 ≤ 3 * 2 ^ 19 ∧ inodeFileSize (farImage 1) ≤ sizeLimit (3 * 2 ^ 19)) ∧
    StoredFor farDriver ⟨2 ^ 20, 2, 1⟩ out.sess.off ∧ ¬ StandsFor out.sess.off (2 ^ 20) ∧
    again.bytes = [65] ∧ again.sess = out.sess := by
  intro e out again
  have hcall : out = setNextBlk e out.copied 1 [⟨2 ^ 20, 2, 1⟩] ⟨10, 0, ⟨2 ^ 32 + 4096, 0⟩⟩ := by decide +kernel
  have hoff : out.sess.off = 10 := by decide +kernel
  refine ⟨⟨by decide +kernel, by decide +kernel⟩, .next rfl ⟨_, _, _, _, hcall⟩, ?_, by decide +kernel, by decide +kernel⟩
  intro h
  have hblock := h.block
  rw [hoff] at hblock
  exact absurd hblock (by decide)

end Bldms
