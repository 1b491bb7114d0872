/-
  The file operations: `lookup`, `open`, `llseek`, `read`.

  Source: `file_ops.c`.

  A session opened for reading is a position (`*off`) and the timestamp kept in `private_data`;
  a session without the latter (`O_WRONLY`) cannot read, so it is not a `Session` here.

  `bldmsRead` follows the code: the clamps on the length (`readWindow`), the scan for the block at the
  position or the first newer one (`selectTarget`), the copy (`readTarget`), and the choice of the
  block the next call should deliver (`setNextBlk`).  Lengths are `size_t`, so sums with them wrap at
  64 bits; the position of a block is a 32-bit product.  `ret` is an uninitialised local, whose
  content is part of the environment (`ReadEnv.ret0`): one path returns it.
-/
import Bldms.Driver

namespace Bldms

/-! ## Sessions -/

/-- The fields of the unique file's inode that the operations use. -/
structure Inode where
  iSize : Nat
  iSb : Nat
  deriving DecidableEq, Repr

/-- `bldms_lookup`: only the unique file exists; its size is read from the inode block. -/
def bldmsLookup (iget bread : Bool) (name : String) (sb : Nat) (d : Driver) : Ret (Option Inode) :=
  if name ≠ "the_file" then .ok none
  else if ¬ iget then .err .enomem
  else if ¬ bread then .err .eio
  else .ok (some ⟨inodeFileSize (d.disk sb bldmsInodesBlockNumber), sb⟩)

/-- An I/O session opened for reading: the position, the timestamp in `private_data`, the inode. -/
structure Session where
  off : Nat
  nextTs : Ktime
  ino : Inode
  deriving DecidableEq, Repr

/-- The access mode a file is opened with. -/
inductive AccMode where
  | rdonly | wronly | rdwr
  deriving DecidableEq, Repr

/-- `bldms_open`; the result is `none` when `private_data` stays `NULL`. -/
def bldmsOpen (alloc : Bool) (mode : AccMode) (ino : Inode) (d : Driver) : Ret (Option Session) :=
  if ¬ d.bldmsMounted then .err .enodev
  else if mode = .rdonly ∨ mode = .rdwr then
    if ¬ alloc then .err .enomem else .ok (some ⟨0, 0, ino⟩)
  else .ok none

/-- The `whence` argument of `llseek`. -/
inductive Whence where
  | seekSet | seekCur | seekEnd
  deriving DecidableEq, Repr

/-- `bldms_llseek`: back to the very beginning, and nowhere else. -/
def bldmsLlseek (alloc : Bool) (off : Int) (whence : Whence) (s : Option Session) (d : Driver) :
    Ret (Option Session) :=
  if ¬ d.bldmsMounted then .err .enodev
  else match whence with
    | .seekSet =>
      match s with
      | some s =>
        if off ≠ 0 then .err .einval
        else if ¬ alloc then .err .enomem
        else .ok (some { s with nextTs := 0, off := 0 })
      | none => .err .einval
    | _ => .err .einval

/-- The session has just been opened, or sent back to the beginning. -/
def Started (ino : Inode) (d : Driver) (s : Session) : Prop :=
  (∃ mode, bldmsOpen true mode ino d = .ok (some s)) ∨
  (∃ s₀ : Session, s₀.ino = ino ∧ bldmsLlseek true 0 .seekSet (some s₀) d = .ok (some s))

/-- Opening and seeking to the start leave the same session. -/
theorem Started.eq {ino : Inode} {d : Driver} {s : Session} (h : Started ino d s) :
    s = ⟨0, 0, ino⟩ := by
  rcases h with ⟨mode, h⟩ | ⟨s₀, hino, h⟩
  · unfold bldmsOpen at h
    split at h
    · nomatch h
    split at h
    · simpa using h.symm
    · nomatch h
  · unfold bldmsLlseek at h
    split at h
    · nomatch h
    · simp only [ne_eq, not_true, if_false, Ret.ok.injEq, Option.some.injEq] at h
      rw [← h, hino]

/-! ## bldms_read -/

/-- What `read` gets from outside, the initial content of the local `ret` included. -/
structure ReadEnv where
  /-- `sb_bread` succeeds. -/
  bread : Bool
  /-- The number of bytes `copy_to_user` leaves out (at most what it is asked to copy). -/
  notCopied : Nat
  /-- `kzalloc` of the next timestamp succeeds. -/
  alloc : Bool
  /-- What the uninitialised local `ret` holds on entry. -/
  ret0 : Int
  deriving DecidableEq, Repr

/-- A copy to user space: the node it was made for, the block, the place in it, the bytes. -/
structure Copied where
  el : RcuElem
  block : Nat
  offset : Nat
  bytes : List Byte
  deriving DecidableEq, Repr

/-- The result of a `read` call, what it copied, and the session it leaves. -/
structure ReadOut where
  ret : Int
  copied : Option Copied
  sess : Session
  deriving DecidableEq, Repr

/-- Position, offset inside the block, and length, as the call uses them. -/
structure Window where
  off : Nat
  offset : Nat
  len : Nat
  deriving DecidableEq, Repr

/-- The checks and clamps before the list is scanned; `none` when the call returns 0 at once. -/
def readWindow (fileSz off len : Nat) : Option Window :=
  if off + numMetadataBlks * defaultBlockSize ≥ fileSz then none
  else
    let len₁ :=
      if (off + numMetadataBlks * defaultBlockSize + len) % 2 ^ 64 > fileSz then fileSz - off else len
    let offset := off % defaultBlockSize
    let off' := if offset < metadataSize then off + (metadataSize - offset) else off
    let offset' := if offset < metadataSize then metadataSize else offset
    let len₂ :=
      if (offset' + len₁) % 2 ^ 64 > defaultBlockSize then defaultBlockSize - offset' else len₁
    some ⟨off', offset', len₂⟩

/-- The scan of the list: the rest of it from the node to read on, which is the node of the block at
    the position, or else the first one newer than the session's timestamp. -/
def selectTarget (deviceBlk : Nat) (ts : Ktime) (l : List RcuElem) : List RcuElem :=
  l.dropWhile fun el => !(el.ndx == deviceBlk || decide (ts.toInt < el.nsec.toInt))

/-- The position of the data of block `ndx`: a 32-bit product. -/
def dataPos (ndx : Nat) : Nat := ndx * defaultBlockSize % 2 ^ 32 + metadataSize

/-- `set_next_blk`: save in the session the node after the one just read, `rest` being the list from
    there on. -/
def setNextBlk (e : ReadEnv) (copied : Option Copied) (ret : Int) (rest : List RcuElem)
    (s : Session) : ReadOut :=
  match rest with
  | [] => ⟨if ret > 0 then ret else 0, copied, { s with off := s.ino.iSize }⟩
  | nextEl :: _ =>
    if ¬ e.alloc then ⟨-Errno.enomem.code, copied, s⟩
    else ⟨ret, copied, { s with nextTs := nextEl.nsec, off := dataPos nextEl.ndx }⟩

/-- The call once the node to read is known; `rest` is the list after it. -/
def readTarget (e : ReadEnv) (w : Window) (el : RcuElem) (rest : List RcuElem) (s : Session)
    (d : Driver) : ReadOut :=
  let s' := { s with off := w.off }
  if w.offset - metadataSize > el.validBytes then setNextBlk e none e.ret0 rest s'
  else
    let len := if (w.len + w.offset - metadataSize) % 2 ^ 64 > el.validBytes
      then el.validBytes - (w.offset - metadataSize) else w.len
    if ¬ e.bread then ⟨-Errno.eio.code, none, s'⟩
    else
      let left := min e.notCopied len
      let block := (el.ndx + numMetadataBlks) % 2 ^ 32
      let copied : Copied :=
        ⟨el, block, w.offset, (d.disk s.ino.iSb block).slice w.offset (len - left)⟩
      if left ≠ 0 ∨ w.offset + len - left < el.validBytes + metadataSize then
        ⟨((len - left : Nat) : Int), some copied, { s with off := w.off + (len - left) }⟩
      else setNextBlk e (some copied) ((len - left : Nat) : Int) rest s'

/-- `bldms_read(filp, buf, len, off)`. -/
def bldmsRead (e : ReadEnv) (len : Nat) (s : Session) (d : Driver) : ReadOut :=
  match readWindow s.ino.iSize s.off len with
  | none => ⟨0, none, s⟩
  | some w =>
    let deviceBlk := w.off / defaultBlockSize % 2 ^ 32
    match selectTarget deviceBlk s.nextTs d.validBlkList with
    | [] => ⟨0, none, { s with off := s.ino.iSize }⟩
    | el :: rest =>
      if el.ndx = deviceBlk then readTarget e w el rest s d
      else
        let len' := if el.validBytes < w.len then el.validBytes else w.len
        readTarget e ⟨dataPos el.ndx, metadataSize, len'⟩ el rest s d

/-- `MAX_RW_COUNT`: no request that reaches the driver is longer. -/
abbrev maxRwCount : Nat := 0x7ffff000

/-- A read request as `vfs_read` passes it on: the length is capped. -/
def vfsRead (e : ReadEnv) (len : Nat) (s : Session) (d : Driver) : ReadOut :=
  bldmsRead e (min len maxRwCount) s d

/-- Block reads, allocations and user copies succeed; `ret` may hold anything. -/
def ReadEnv.Succeeds (e : ReadEnv) : Prop := e.bread = true ∧ e.notCopied = 0 ∧ e.alloc = true

/-- A `read` request: what the call gets from outside, and the length asked for. -/
structure Request where
  env : ReadEnv
  len : Nat
  deriving DecidableEq, Repr

/-- At least one byte is asked for, and block reads, allocations and user copies succeed. -/
def Request.Ok (r : Request) : Prop := r.env.Succeeds ∧ 1 ≤ r.len

/-- Nothing fails, and `len` bytes are asked for. -/
def Request.allOk (len : Nat) : Request := ⟨⟨true, 0, true, 0⟩, len⟩

theorem Request.allOk_ok {len : Nat} (h : 1 ≤ len) : (Request.allOk len).Ok := ⟨⟨rfl, rfl, rfl⟩, h⟩

end Bldms
