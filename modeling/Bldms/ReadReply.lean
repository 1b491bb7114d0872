/-
  One `read`, whatever the state: how much it copies, and what it returns.

  The results about sessions rest on files of whole blocks, messages that fit and positions the reads
  themselves have left.  Here nothing of the kind is assumed: the file size is any 64-bit number, the
  position is anything a `pread` can pass, the list is arbitrary.

  * `read_fits_buffer_iff`  — the call copies no more than it was asked for, unless the end-of-file clamp
    comes into play with a request that is shorter than what is left of the block and of the message: the
    clamp tests a sum with the two metadata blocks in it and assigns a difference without them, so it can
    make `len` LARGER;
  * `read_tells_iff`        — a result that is not negative is the number of bytes copied, unless the call
    skips the block at its position and `ret`, never assigned on that path, happens to be positive.
-/
import Bldms.Undisturbed

namespace Bldms

/-! ## The call, once the node is known -/

theorem readWindow_eq_none {fileSz off len : Nat} :
    readWindow fileSz off len = none ↔ fileSz ≤ off + 8192 := by
  rw [readWindow]
  split
  · rename_i h
    exact ⟨fun _ => h, fun _ => rfl⟩
  · rename_i h
    refine ⟨?_, fun h' => absurd h' h⟩
    intro h'
    cases h'

/-- The window is in the block of the position, at its place in the payload. -/
theorem readWindow_place {fileSz off len : Nat} {w : Window} (h : readWindow fileSz off len = some w) :
    w.off / 4096 = off / 4096 ∧ w.offset = 10 + (off % 4096 - 10) := by
  rw [readWindow] at h
  split at h
  · cases h
  · have hlt := Nat.mod_lt off (by omega : 4096 > 0)
    rw [← Option.some.inj h]
    constructor
    · show (if off % 4096 < 10 then off + (10 - off % 4096) else off) / 4096 = off / 4096
      split <;> omega
    · show (if off % 4096 < 10 then 10 else off % 4096) = 10 + (off % 4096 - 10)
      split <;> omega

/-- The two clamps before the scan, the second one with the place in the block. -/
theorem readWindow_len {fileSz off len : Nat} {w : Window} (h : readWindow fileSz off len = some w)
    {len₁ : Nat} (h₁ : len₁ = if (off + 8192 + len) % 2 ^ 64 > fileSz then fileSz - off else len) :
    w.len = if (w.offset + len₁) % 2 ^ 64 > 4096 then 4096 - w.offset else len₁ := by
  rw [readWindow] at h
  split at h
  · cases h
  · rw [h₁, ← Option.some.inj h]
    rfl

namespace Session

/-- The block number the scan compares the nodes with: 32 bits of the block the position is in. -/
def deviceBlk (s : Session) : Nat := s.off / 4096 % 2 ^ 32

/-- The nodes from the one the call picks on. -/
def picks (s : Session) (d : Driver) : List RcuElem := selectTarget s.deviceBlk s.nextTs d.validBlkList

/-- The place in the message at which the call starts: the position, in the block the session is in,
    and the beginning of any other. -/
def place (s : Session) (el : RcuElem) : Nat := if el.ndx = s.deviceBlk then s.pos else 0

end Session

/-- The window on the picked node: the one at hand, or one at the start of another block. -/
def Window.facing (w : Window) (deviceBlk : Nat) (el : RcuElem) : Window :=
  if el.ndx = deviceBlk then w
  else ⟨dataPos el.ndx, metadataSize, if el.validBytes < w.len then el.validBytes else w.len⟩

/-- The length the call finally asks `copy_to_user` for. -/
def Window.cut (w : Window) (validBytes : Nat) : Nat :=
  if (w.len + w.offset - metadataSize) % 2 ^ 64 > validBytes
  then validBytes - (w.offset - metadataSize) else w.len

section

variable {e : ReadEnv} {len : Nat} {s : Session} {d : Driver} {w : Window} {el : RcuElem}
  {rest : List RcuElem}

theorem bldmsRead_over (h : s.ino.iSize ≤ s.off + 8192) : bldmsRead e len s d = ⟨0, none, s⟩ := by
  rw [bldmsRead, readWindow_eq_none.mpr h]

theorem bldmsRead_of_window (hw : readWindow s.ino.iSize s.off len = some w) :
    bldmsRead e len s d = match s.picks d with
      | [] => ⟨0, none, { s with off := s.ino.iSize }⟩
      | el :: rest => readTarget e (w.facing s.deviceBlk el) el rest s d := by
  have hblk : w.off / defaultBlockSize % 2 ^ 32 = s.deviceBlk :=
    congrArg (· % 2 ^ 32) (readWindow_place hw).1
  rw [bldmsRead, hw]
  dsimp only
  rw [hblk, Session.picks]
  cases selectTarget s.deviceBlk s.nextTs d.validBlkList with
  | nil => rfl
  | cons el rest =>
    dsimp only [Window.facing]
    split <;> rfl

/-- The window on the picked node starts at the place of the session in the message. -/
theorem facing_offset (hw : readWindow s.ino.iSize s.off len = some w) :
    (w.facing s.deviceBlk el).offset = 10 + s.place el := by
  rw [Window.facing, Session.place]
  split
  · exact (readWindow_place hw).2
  · rfl

@[simp] theorem setNextBlk_copied (copied : Option Copied) (ret : Int) (rest : List RcuElem) :
    (setNextBlk e copied ret rest s).copied = copied := by
  cases rest with
  | nil => rfl
  | cons x rest =>
    rw [setNextBlk]
    split <;> rfl

end

/-! ## How much is copied -/

section

variable {e : ReadEnv} {len : Nat} {s : Session} {d : Driver} {w : Window} {el : RcuElem}
  {rest : List RcuElem}

/-- The bytes of the call: none if the block is skipped or unreadable, else what `copy_to_user` does of
    the length it is asked for. -/
theorem length_bytes_readTarget :
    (readTarget e w el rest s d).bytes.length =
      if el.validBytes < w.offset - 10 ∨ e.bread = false then 0
      else w.cut el.validBytes - e.notCopied := by
  unfold readTarget
  dsimp only
  rw [← Window.cut]
  by_cases hskip : w.offset - metadataSize > el.validBytes
  · rw [if_pos hskip, if_pos (.inl hskip), ReadOut.bytes, setNextBlk_copied]
    rfl
  · rw [if_neg hskip]
    cases hbread : e.bread with
    | false =>
      rw [if_pos (fun h => nomatch h), if_pos (.inr rfl)]
      rfl
    | true =>
      have hcopies : ¬ (el.validBytes < w.offset - 10 ∨ true = false) := by
        rintro (hlt | hfalse)
        · exact hskip hlt
        · cases hfalse
      rw [if_neg (fun h => h rfl), if_neg hcopies]
      have hleft : w.cut el.validBytes - min e.notCopied (w.cut el.validBytes)
          = w.cut el.validBytes - e.notCopied := by omega
      rw [hleft]
      split
      · exact Block.length_slice _ _ _
      · rw [ReadOut.bytes, setNextBlk_copied]
        exact Block.length_slice _ _ _

/-- The call goes through the end-of-file clamp, and asks `copy_to_user` for more than the caller did:
    the request is shorter than what is left of the block, and than what is left of the message. -/
def Overruns (e : ReadEnv) (len : Nat) (s : Session) (d : Driver) : Prop :=
  s.off + 8192 < s.ino.iSize ∧ s.ino.iSize < (s.off + 8192 + len) % 2 ^ 64 ∧ e.bread = true ∧
  len + e.notCopied < 4086 - s.pos ∧
  ∃ el rest, s.picks d = el :: rest ∧ len + e.notCopied < el.validBytes - s.place el

/-- The clamp at the end of the message does not make the length larger, … -/
theorem Window.cut_le (w : Window) (validBytes : Nat) : w.cut validBytes ≤ w.len := by
  rw [Window.cut, metadataSize]
  split <;> omega

/-- … and no clamp after the first two does. -/
theorem cut_facing_le (w : Window) (s : Session) (el : RcuElem) :
    (w.facing s.deviceBlk el).cut el.validBytes ≤ w.len := by
  refine Nat.le_trans (Window.cut_le _ _) ?_
  rw [Window.facing]
  split
  · exact Nat.le_refl _
  · dsimp only
    split <;> omega

/-- Without the end-of-file clamp the length only shrinks. -/
theorem readWindow_len_le (hw : readWindow s.ino.iSize s.off len = some w)
    (hno : ¬ s.ino.iSize < (s.off + 8192 + len) % 2 ^ 64) : w.len ≤ len := by
  rw [readWindow_len hw (if_neg hno).symm]
  split <;> omega

/-- With it, what is left is the rest of the block, or of the message if that is shorter. -/
theorem cut_facing_eq (hw : readWindow s.ino.iSize s.off len = some w)
    (hclamp : s.ino.iSize < (s.off + 8192 + len) % 2 ^ 64) (hsize : s.ino.iSize < 2 ^ 64)
    (hvb : el.validBytes < 2 ^ 32) (hlen : len < 4086) (hskip : s.place el ≤ el.validBytes) :
    (w.facing s.deviceBlk el).cut el.validBytes =
      min (4086 - s.pos) (el.validBytes - s.place el) := by
  have hover : ¬ s.ino.iSize ≤ s.off + 8192 := by
    intro h
    rw [readWindow_eq_none.mpr h] at hw
    cases hw
  have hoffset : w.offset = 10 + s.pos := (readWindow_place hw).2
  have hpos := s.pos_lt
  have hwlen : w.len = 4086 - s.pos := by
    rw [readWindow_len hw (if_pos hclamp).symm, hoffset, Session.pos]
    rw [Session.pos] at hpos
    split <;> omega
  rw [Window.cut, facing_offset hw, Window.facing, metadataSize]
  rw [Session.place] at hskip ⊢
  by_cases hblk : el.ndx = s.deviceBlk
  · rw [if_pos hblk] at hskip
    rw [if_pos hblk, if_pos hblk, hwlen]
    split <;> omega
  · rw [if_neg hblk, if_neg hblk]
    dsimp only
    rw [hwlen]
    split <;> split <;> omega

/-- A request that the rest of the block does not exceed is never made larger, not even if the sum of the
    second clamp wraps: the length of the message then cuts it down. -/
theorem cut_facing_le_of_le (hw : readWindow s.ino.iSize s.off len = some w)
    (hclamp : s.ino.iSize < (s.off + 8192 + len) % 2 ^ 64) (hsize : s.ino.iSize < 2 ^ 64)
    (hvb : el.validBytes < 2 ^ 32) (hlen : 4086 - s.pos ≤ len) :
    (w.facing s.deviceBlk el).cut el.validBytes ≤ len := by
  have hwrap := Nat.mod_le (s.off + 8192 + len) (2 ^ 64)
  have hoffset : w.offset = 10 + s.pos := (readWindow_place hw).2
  have hpos := s.pos_lt
  have hwlen := readWindow_len hw (if_pos hclamp).symm
  rw [hoffset] at hwlen
  split at hwlen
  · have hle := cut_facing_le w s el
    omega
  · -- the sum wraps only for a position inside the first metadata, on a file of almost 2 ^ 64 bytes
    rename_i hsmall
    have hover : ¬ s.ino.iSize ≤ s.off + 8192 := by
      intro h
      rw [readWindow_eq_none.mpr h] at hw
      cases hw
    have hzero : s.pos = 0 := by
      rw [Session.pos] at hsmall ⊢
      omega
    rw [Window.cut, facing_offset hw, Session.place, hzero, Window.facing, metadataSize]
    split
    · split <;> omega
    · dsimp only
      split <;> split <;> omega

end

/-- **`bldms_read` and the caller's buffer.**  For every file size, position, list, timestamp and request
    length, the bytes copied are at most the length the caller passed, if and only if the call does not
    go through the end-of-file clamp with a request shorter than the rest of the block and the rest of
    the message. -/
theorem read_fits_buffer_iff (e : ReadEnv) (len : Nat) (s : Session) (d : Driver)
    (hsize : s.ino.iSize < 2 ^ 64) (hvb : ∀ el ∈ d.validBlkList, el.validBytes < 2 ^ 32) :
    (bldmsRead e len s d).bytes.length ≤ len ↔ ¬ Overruns e len s d := by
  cases hw : readWindow s.ino.iSize s.off len with
  | none =>
    have hover := readWindow_eq_none.mp hw
    rw [bldmsRead_over hover]
    exact iff_of_true (Nat.zero_le _) fun h => absurd h.1 (Nat.not_lt.mpr hover)
  | some w =>
    rw [bldmsRead_of_window hw]
    cases hpick : s.picks d with
    | nil =>
      refine iff_of_true (Nat.zero_le _) ?_
      rintro ⟨-, -, -, -, el, rest, h, -⟩
      rw [hpick] at h
      cases h
    | cons el rest =>
      have hel : el ∈ d.validBlkList :=
        (List.dropWhile_sublist _).subset (hpick ▸ List.mem_cons_self : el ∈ s.picks d)
      have hlt : s.off + 8192 < s.ino.iSize := by
        by_contra hge
        rw [readWindow_eq_none.mpr (Nat.le_of_not_lt hge)] at hw
        cases hw
      have hiff : Overruns e len s d ↔ s.ino.iSize < (s.off + 8192 + len) % 2 ^ 64 ∧ e.bread = true ∧
          len + e.notCopied < 4086 - s.pos ∧ len + e.notCopied < el.validBytes - s.place el := by
        refine ⟨?_, fun ⟨hclamp, hbread, hblock, hmsg⟩ =>
          ⟨hlt, hclamp, hbread, hblock, el, rest, hpick, hmsg⟩⟩
        rintro ⟨-, hclamp, hbread, hblock, el', rest', hpick', hmsg⟩
        rw [hpick, List.cons.injEq] at hpick'
        rw [← hpick'.1] at hmsg
        exact ⟨hclamp, hbread, hblock, hmsg⟩
      dsimp only
      rw [length_bytes_readTarget, facing_offset hw, Nat.add_sub_cancel_left, hiff]
      by_cases hnone : el.validBytes < s.place el ∨ e.bread = false
      · rw [if_pos hnone]
        refine iff_of_true (Nat.zero_le _) ?_
        rintro ⟨-, hbread, -, hmsg⟩
        rcases hnone with hskip | hbad
        · omega
        · rw [hbad] at hbread
          cases hbread
      · rw [if_neg hnone]
        obtain ⟨hskip, hbread⟩ := not_or.mp hnone
        have hbread : e.bread = true := by simpa using hbread
        by_cases hclamp : s.ino.iSize < (s.off + 8192 + len) % 2 ^ 64
        · by_cases hblock : 4086 - s.pos ≤ len
          · have hle := cut_facing_le_of_le hw hclamp hsize (hvb el hel) hblock
            exact iff_of_true (by omega) (by omega)
          · rw [cut_facing_eq hw hclamp hsize (hvb el hel) (by omega) (by omega)]
            constructor
            · rintro hle ⟨-, -, hblock', hmsg⟩
              omega
            · intro hno
              by_contra hgt
              exact hno ⟨hclamp, hbread, by omega, by omega⟩
        · have hle := Nat.le_trans (cut_facing_le w s el) (readWindow_len_le hw hclamp)
          exact iff_of_true (by omega) fun h => hclamp h.1

/-- On a file of whole blocks the request is cut, never stretched: five bytes for a request of nine. -/
theorem read_fits_buffer_whole_blocks :
    let d := driver.final (freshDriver 4) [.put (.allOk 4 7) [1, 2, 3, 4, 5]]
    let s := d.freshSession 0
    (bldmsRead ⟨true, 0, true, 0⟩ 9 s d).ret = 5 ∧
    (bldmsRead ⟨true, 0, true, 0⟩ 9 s d).bytes.length ≤ 9 := by
  refine ⟨by decide, (read_fits_buffer_iff _ _ _ _ (by decide) (by decide)).mpr ?_⟩
  rintro ⟨-, hclamp, -⟩
  exact absurd hclamp (by decide)

/-- A file of 8193 bytes, one more than two blocks.  A fresh session asks for two bytes of a message of
    five, and gets all of them. -/
theorem read_overruns_buffer :
    let d := driver.final (sizedDriver 8193) [.put (.allOk 2 7) [1, 2, 3, 4, 5]]
    Mounted .standard 0 (sizedDriver 8193) ∧ Opened 0 d (d.freshSession 0) ∧
    ¬ (bldmsRead ⟨true, 0, true, 0⟩ 2 (d.freshSession 0) d).bytes.length ≤ 2 :=
  ⟨⟨.allOk, idleDriver (sizedImage 8193), rfl, mount_sizedImage .standard (by decide)⟩,
    opened_freshSession rfl, by decide⟩

/-! ## What the result says -/

/-- A result that is not negative is the number of bytes copied. -/
def ReadOut.Tells (o : ReadOut) : Prop := 0 ≤ o.ret → o.ret = o.bytes.length

theorem ReadOut.tells_of_neg {o : ReadOut} (h : o.ret < 0) : o.Tells :=
  fun hpos => absurd hpos (not_le.mpr h)

/-- The call skips the block at its position, `rest` being the list after it: the block is listed, but
    the position is past the end of its message. -/
def Session.Skips (s : Session) (d : Driver) (rest : List RcuElem) : Prop :=
  s.off + 8192 < s.ino.iSize ∧
  ∃ el, s.picks d = el :: rest ∧ el.ndx = s.deviceBlk ∧ el.validBytes < s.pos

section

variable {e : ReadEnv} {s : Session} {d : Driver} {w : Window} {el : RcuElem} {rest : List RcuElem}

/-- After a copy, saving the next node returns its length. -/
theorem tells_setNextBlk_some {c : Copied} {ret : Int} (hret : ret = c.bytes.length) :
    (setNextBlk e (some c) ret rest s).Tells := by
  cases rest with
  | nil =>
    intro _
    show (if ret > 0 then ret else 0) = (c.bytes.length : Int)
    split <;> omega
  | cons x rest =>
    rw [setNextBlk]
    split
    · exact ReadOut.tells_of_neg (show -Errno.enomem.code < 0 by decide)
    · exact fun _ => hret

/-- After a skip it returns what the local held, or fails. -/
theorem tells_setNextBlk_none {ret : Int} :
    (setNextBlk e none ret rest s).Tells ↔ ret ≤ 0 ∨ rest ≠ [] ∧ e.alloc = false := by
  cases rest with
  | nil =>
    show (0 ≤ (if ret > 0 then ret else 0) → (if ret > 0 then ret else 0) = ((0 : Nat) : Int)) ↔ _
    simp only [ne_eq, not_true, false_and, or_false]
    split <;> omega
  | cons x rest =>
    rw [setNextBlk]
    cases halloc : e.alloc with
    | false =>
      rw [if_pos (by decide)]
      refine iff_of_true ?_ (.inr ⟨by simp, rfl⟩)
      exact ReadOut.tells_of_neg (show -Errno.enomem.code < 0 by decide)
    | true =>
      rw [if_neg (by decide)]
      show (0 ≤ ret → ret = ((0 : Nat) : Int)) ↔ _
      simp only [Bool.true_eq_false, and_false, or_false]
      omega

theorem tells_readTarget :
    (readTarget e w el rest s d).Tells ↔
      (el.validBytes < w.offset - 10 → e.ret0 ≤ 0 ∨ rest ≠ [] ∧ e.alloc = false) := by
  unfold readTarget
  dsimp only
  by_cases hskip : w.offset - metadataSize > el.validBytes
  · rw [if_pos hskip, tells_setNextBlk_none]
    exact ⟨fun h _ => h, fun h => h hskip⟩
  · rw [if_neg hskip]
    refine iff_of_true ?_ fun h => absurd h hskip
    split
    · exact ReadOut.tells_of_neg (show -Errno.eio.code < 0 by decide)
    generalize (if (w.len + w.offset - metadataSize) % 2 ^ 64 > el.validBytes
      then el.validBytes - (w.offset - metadataSize) else w.len) = l
    have hlength : (((l - min e.notCopied l : Nat)) : Int) = ((d.disk s.ino.iSb
        ((el.ndx + numMetadataBlks) % 2 ^ 32)).slice w.offset (l - min e.notCopied l)).length := by
      rw [Block.length_slice]
    split
    · exact fun _ => hlength
    · exact tells_setNextBlk_some hlength

end

/-- **What the result of `read` says.**  In every state, at every position, with every timestamp, request
    length, outcome of the copy and content of the uninitialised local: a result that is not negative is
    the number of bytes copied, if and only if the call does not skip the block at its position, or the
    local is not positive, or there is a next message and the allocation for it fails. -/
theorem read_tells_iff (e : ReadEnv) (len : Nat) (s : Session) (d : Driver) :
    (vfsRead e len s d).Tells ↔
      ∀ rest, s.Skips d rest → e.ret0 ≤ 0 ∨ rest ≠ [] ∧ e.alloc = false := by
  rw [vfsRead]
  cases hw : readWindow s.ino.iSize s.off (min len maxRwCount) with
  | none =>
    have hover := readWindow_eq_none.mp hw
    rw [bldmsRead_over hover]
    exact iff_of_true (fun _ => rfl) fun rest hskip => absurd hskip.1 (Nat.not_lt.mpr hover)
  | some w =>
    have hlt : s.off + 8192 < s.ino.iSize := by
      by_contra hge
      rw [readWindow_eq_none.mpr (Nat.le_of_not_lt hge)] at hw
      cases hw
    rw [bldmsRead_of_window hw]
    cases hpick : s.picks d with
    | nil =>
      refine iff_of_true (fun _ => rfl) ?_
      rintro rest ⟨-, el, hel, -⟩
      rw [hpick] at hel
      cases hel
    | cons el rest =>
      dsimp only
      rw [tells_readTarget, facing_offset hw, Nat.add_sub_cancel_left]
      have hiff : ∀ rest', s.Skips d rest' ↔ rest' = rest ∧ el.validBytes < s.place el := by
        intro rest'
        rw [Session.Skips, hpick, Session.place]
        constructor
        · rintro ⟨-, el', heq, hblk, hpast⟩
          obtain ⟨rfl, rfl⟩ := List.cons.inj heq
          exact ⟨rfl, by rw [if_pos hblk]; exact hpast⟩
        · rintro ⟨rfl, hpast⟩
          split at hpast
          · rename_i hblk
            exact ⟨hlt, el, rfl, hblk, hpast⟩
          · exact absurd hpast (Nat.not_lt_zero _)
      constructor
      · intro h rest' hskip
        obtain ⟨rfl, hlt⟩ := (hiff rest').mp hskip
        exact h hlt
      · intro h hlt
        exact h rest ((hiff rest).mpr ⟨rfl, hlt⟩)

/-- A `pread` past the end of a message of one byte: nothing is copied, and the call returns the 7 its
    local happened to hold. -/
theorem read_tells_nothing :
    let d := driver.final (freshDriver 4) [.put (.allOk 4 7) [1]]
    let s : Session := { d.freshSession 0 with off := 100 }
    Mounted .standard 0 (freshDriver 4) ∧
    (vfsRead ⟨true, 0, true, 7⟩ 1 s d).ret = 7 ∧ (vfsRead ⟨true, 0, true, 7⟩ 1 s d).bytes = [] ∧
    ¬ (vfsRead ⟨true, 0, true, 7⟩ 1 s d).Tells := by
  refine ⟨mounted_freshDriver .standard (by decide), by decide, by decide, fun h => ?_⟩
  exact absurd (h (by decide)) (by decide)

end Bldms
