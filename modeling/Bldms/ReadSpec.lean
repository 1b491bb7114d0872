/-
  What one `read` does, case by case.

  The position `*off` is three things at once: a block selector (`Session.blk`), a place in that
  block's payload (`Session.pos`), and an end-of-file flag (`Session.Over`).  `ReadCase` says, in these
  terms, everything a call can do on a mounted device whose messages fit their blocks:

  * `ended`    — the end-of-file guard fires and nothing changes;
  * `noMore`   — every listed node has been passed, and the session is over from now on;
  * `stall`    — a block read or an allocation fails: the session stays at the node it picked;
  * `hold`     — part of the message is copied: the position moves, the timestamp does not;
  * `finish`   — the message is copied to its end, and the session moves to the node after it;
  * `skip`     — the position is past the message's end: the same move, and nothing is copied.

  `Picked` is the outcome of the scan: what was passed, and the node the call works on — the one of
  the block at the position, or the first newer one, which is then read from its start.

  `vfsRead_cases` is the only place where the C arithmetic of the call is unfolded; all results about
  sessions go through it.
-/
import Bldms.Store

namespace Bldms

namespace Session

/-- The block the position is in. -/
def blk (s : Session) : Nat := s.off / 4096

/-- The place in that block's payload; a position inside the metadata counts as the start. -/
def pos (s : Session) : Nat := s.off % 4096 - 10

/-- The end-of-file guard of `read` fires. -/
def Over (s : Session) : Prop := s.ino.iSize ≤ s.off + 8192

instance (s : Session) : Decidable s.Over := inferInstanceAs (Decidable (_ ≤ _))

/-- The length a request comes down to, after the two clamps. -/
def span (s : Session) (len : Nat) : Nat :=
  min (if s.off + 8192 + len > s.ino.iSize then s.ino.iSize - s.off else len) (4086 - s.pos)

/-- The session at byte `p` of the payload of block `ndx`. -/
def goto (s : Session) (ndx p : Nat) : Session := { s with off := ndx * 4096 + 10 + p }

/-- The session after a message has been dealt with, `rest` being the list from the next one on. -/
def advance (s : Session) : List RcuElem → Session
  | [] => { s with off := s.ino.iSize }
  | el :: _ => { s with nextTs := el.nsec, off := el.ndx * 4096 + 10 }

variable (s : Session)

@[simp] theorem goto_ino (ndx p : Nat) : (s.goto ndx p).ino = s.ino := rfl
@[simp] theorem goto_nextTs (ndx p : Nat) : (s.goto ndx p).nextTs = s.nextTs := rfl

theorem goto_blk {ndx p : Nat} (hp : p < 4086) : (s.goto ndx p).blk = ndx := by
  show (ndx * 4096 + 10 + p) / 4096 = ndx
  omega

theorem goto_pos {ndx p : Nat} (hp : p < 4086) : (s.goto ndx p).pos = p := by
  show (ndx * 4096 + 10 + p) % 4096 - 10 = p
  omega

@[simp] theorem advance_ino (rest : List RcuElem) : (s.advance rest).ino = s.ino := by
  cases rest <;> rfl

theorem advance_nil_over : (s.advance []).Over := Nat.le_add_right _ _

@[simp] theorem advance_cons_nextTs (el : RcuElem) (rest : List RcuElem) :
    (s.advance (el :: rest)).nextTs = el.nsec := rfl

@[simp] theorem advance_cons_blk (el : RcuElem) (rest : List RcuElem) :
    (s.advance (el :: rest)).blk = el.ndx := s.goto_blk (p := 0) (by omega)

@[simp] theorem advance_cons_pos (el : RcuElem) (rest : List RcuElem) :
    (s.advance (el :: rest)).pos = 0 := s.goto_pos (p := 0) (by omega)

variable {s}

theorem pos_lt : s.pos < 4086 := by
  have : s.off % 4096 < 4096 := Nat.mod_lt _ (by omega)
  rw [pos]
  omega

/-- A request is never clamped to nothing. -/
theorem span_pos {len : Nat} (hover : ¬ s.Over) (hlen : 0 < len) : 0 < s.span len := by
  have := s.pos_lt
  have hover : s.off + 8192 < s.ino.iSize := Nat.lt_of_not_le hover
  rw [span]
  split <;> omega

end Session

/-- The session reads a mounted device of `n` blocks whose messages fit. -/
structure Readable (sb n : Nat) (s : Session) (d : Driver) : Prop where
  inv : Inv sb n d
  fit : d.MessagesFit
  onSb : s.ino.iSb = sb
  count : s.ino.iSize / 4096 = n

theorem Readable.small {sb n : Nat} {s : Session} {d : Driver} (h : Readable sb n s d) :
    s.ino.iSize < 2 ^ 31 := by
  have h₁ := h.inv.small
  have h₂ := h.count
  omega

section

variable {sb n : Nat} {s : Session} {d : Driver}

theorem Opened.readable {cfg : Config} (hs : Opened sb d s) (hd : Reachable cfg sb d)
    (hfit : d.MessagesFit) : Readable sb (d.blockCount sb) s d := by
  rw [hs.eq]
  exact ⟨hd.inv, hfit, rfl, rfl⟩

theorem Readable.of_ino {s' : Session} (h : Readable sb n s d) (hino : s'.ino = s.ino) :
    Readable sb n s' d := ⟨h.inv, h.fit, by rw [hino]; exact h.onSb, by rw [hino]; exact h.count⟩

end

/-! ## The scan -/

/-- The scan passes `x`: another block's node, and not a newer one. -/
def Session.Passes (s : Session) (x : RcuElem) : Prop := x.ndx ≠ s.blk ∧ x.time ≤ s.nextTs.toInt

theorem Session.not_passes_iff {s : Session} {x : RcuElem} :
    ¬ s.Passes x ↔ x.ndx = s.blk ∨ s.nextTs.toInt < x.time := by
  rw [Session.Passes, not_and_or, not_not, not_le]

/-- The scan of the list `l` stops at `el`, with `pre` behind it and `rest` to come, and the call reads
    from byte `p` of its message. -/
structure Picked (s : Session) (l pre : List RcuElem) (el : RcuElem) (rest : List RcuElem)
    (p : Nat) : Prop where
  split : l = pre ++ el :: rest
  passed : ∀ x ∈ pre, s.Passes x
  target : el.ndx = s.blk ∧ p = s.pos ∨ el.ndx ≠ s.blk ∧ s.nextTs.toInt < el.time ∧ p = 0

namespace Picked

variable {s : Session} {l pre rest : List RcuElem} {el : RcuElem} {p : Nat}

theorem mem (h : Picked s l pre el rest p) : el ∈ l := by
  rw [h.split]
  exact List.mem_append_right _ List.mem_cons_self

theorem mem_of_mem_rest (h : Picked s l pre el rest p) {x : RcuElem} (hx : x ∈ rest) : x ∈ l := by
  rw [h.split]
  exact List.mem_append_right _ (List.mem_cons_of_mem _ hx)

theorem pos_lt (h : Picked s l pre el rest p) : p < 4086 := by
  rcases h.target with ⟨-, rfl⟩ | ⟨-, -, rfl⟩
  · exact s.pos_lt
  · omega

/-- A node the scan would not pass is the picked one or comes after it. -/
theorem eq_or_mem_rest (h : Picked s l pre el rest p) {x : RcuElem} (hx : x ∈ l)
    (hnot : ¬ s.Passes x) : x = el ∨ x ∈ rest := by
  rw [h.split] at hx
  rcases List.mem_append.mp hx with hx | hx
  · exact absurd (h.passed x hx) hnot
  · exact List.mem_cons.mp hx

/-- The picked node itself is not one the scan passes. -/
theorem not_passes (h : Picked s l pre el rest p) : ¬ s.Passes el := by
  rw [Session.not_passes_iff]
  rcases h.target with ⟨heq, -⟩ | ⟨-, hlt, -⟩
  · exact .inl heq
  · exact .inr hlt

/-- In a list in timestamp order an older node is one of those passed … -/
theorem mem_pre_of_lt (h : Picked s l pre el rest p) (hs : KeySorted RcuElem.time l) {x : RcuElem}
    (hx : x ∈ l) (hlt : x.time < el.time) : x ∈ pre := by
  rw [h.split] at hx hs
  rcases List.mem_append.mp hx with hx | hx
  · exact hx
  · have htail := (List.pairwise_cons.mp (List.pairwise_append.mp hs).2.1).1
    rcases List.mem_cons.mp hx with rfl | hx
    · omega
    · have := htail x hx
      omega

/-- … and a node still to come is not older. -/
theorem le_of_mem_rest (h : Picked s l pre el rest p) (hs : KeySorted RcuElem.time l) {x : RcuElem}
    (hx : x ∈ rest) : el.time ≤ x.time := by
  rw [h.split] at hs
  exact (List.pairwise_cons.mp (List.pairwise_append.mp hs).2.1).1 x hx

theorem ndx_ne_of_mem_rest (h : Picked s l pre el rest p) (hd : DistinctNdx l) {x : RcuElem}
    (hx : x ∈ rest) : x.ndx ≠ el.ndx := by
  rw [h.split] at hd
  exact ((List.pairwise_cons.mp (List.pairwise_append.mp hd).2.1).1 x hx).symm

/-- After part of its message, the session still faces the same node. -/
theorem goto (h : Picked s l pre el rest p) (hd : DistinctNdx l) {q : Nat} (hq : q < 4086) :
    Picked (s.goto el.ndx q) l pre el rest q := by
  refine ⟨h.split, fun x hx => ⟨?_, (h.passed x hx).2⟩, .inl ⟨?_, ?_⟩⟩
  · rw [h.split] at hd
    rw [s.goto_blk hq]
    exact (List.pairwise_append.mp hd).2.2 x hx el List.mem_cons_self
  · rw [s.goto_blk hq]
  · rw [s.goto_pos hq]

/-- After the last byte of its message, the session faces the next node, at its start. -/
theorem advance {nx : RcuElem} (h : Picked s l pre el (nx :: rest) p) (hd : DistinctNdx l)
    (hs : KeySorted RcuElem.time l) :
    Picked (s.advance (nx :: rest)) l (pre ++ [el]) nx rest 0 := by
  have hsplit : l = (pre ++ [el]) ++ nx :: rest := by rw [h.split, List.append_assoc]; rfl
  rw [hsplit] at hd hs
  refine ⟨hsplit, fun x hx => ⟨?_, ?_⟩, .inl ⟨?_, ?_⟩⟩
  · rw [Session.advance_cons_blk]
    exact (List.pairwise_append.mp hd).2.2 x hx nx List.mem_cons_self
  · exact (List.pairwise_append.mp hs).2.2 x hx nx List.mem_cons_self
  · rw [Session.advance_cons_blk]
  · rw [Session.advance_cons_pos]

end Picked

/-- The scan either passes everything or picks a node. -/
theorem selectTarget_cases (s : Session) (l : List RcuElem) :
    selectTarget s.blk s.nextTs l = [] ∧ (∀ x ∈ l, s.Passes x) ∨
    ∃ pre el rest, selectTarget s.blk s.nextTs l = el :: rest ∧ l = pre ++ el :: rest ∧
      (∀ x ∈ pre, s.Passes x) ∧ (el.ndx = s.blk ∨ s.nextTs.toInt < el.time) := by
  induction l with
  | nil => exact .inl ⟨rfl, fun x hx => nomatch hx⟩
  | cons a l ih =>
    by_cases ha : a.ndx = s.blk ∨ s.nextTs.toInt < a.time
    · refine .inr ⟨[], a, l, ?_, rfl, (fun x hx => nomatch hx), ha⟩
      rw [selectTarget, List.dropWhile_cons_of_neg]
      simpa [RcuElem.time, or_iff_not_imp_left] using ha
    · have hpass : s.Passes a := ⟨fun h => ha (.inl h), not_lt.mp fun h => ha (.inr h)⟩
      have hcons : selectTarget s.blk s.nextTs (a :: l) = selectTarget s.blk s.nextTs l := by
        rw [selectTarget, List.dropWhile_cons_of_pos]
        · rfl
        · simpa [RcuElem.time] using ha
      rw [hcons]
      rcases ih with ⟨hnil, hall⟩ | ⟨pre, el, rest, hsel, hsplit, hpre, htarget⟩
      · exact .inl ⟨hnil, List.forall_mem_cons.mpr ⟨hpass, hall⟩⟩
      · refine .inr ⟨a :: pre, el, rest, hsel, ?_, List.forall_mem_cons.mpr ⟨hpass, hpre⟩, htarget⟩
        rw [hsplit, List.cons_append]

/-! ## The cases of a call -/

/-- The copy a call makes of the message of `el`, `n` bytes from byte `p` on. -/
def Driver.piece (d : Driver) (sb : Nat) (el : RcuElem) (p n : Nat) : Copied :=
  ⟨el, el.ndx + 2, 10 + p, ((d.message sb el).drop p).take n⟩

/-- The copy of everything from byte `p` on. -/
theorem Driver.piece_rest_bytes (d : Driver) (sb : Nat) (el : RcuElem) (p : Nat) :
    (d.piece sb el p (el.validBytes - p)).bytes = (d.message sb el).drop p := by
  apply List.take_of_length_le
  rw [List.length_drop, Driver.length_message]

/-- What a `read` of `len` bytes can do. -/
inductive ReadCase (sb : Nat) (e : ReadEnv) (len : Nat) (s : Session) (d : Driver) : ReadOut → Prop
  | ended : s.Over → ReadCase sb e len s d ⟨0, none, s⟩
  | noMore : ¬ s.Over → (∀ x ∈ d.validBlkList, s.Passes x) →
      ReadCase sb e len s d ⟨0, none, s.advance []⟩
  | stall {pre el rest p ret copied} : ¬ s.Over → Picked s d.validBlkList pre el rest p →
      ¬ e.Succeeds → ret < 0 → ReadCase sb e len s d ⟨ret, copied, s.goto el.ndx p⟩
  | hold {pre el rest p n} : ¬ s.Over → Picked s d.validBlkList pre el rest p →
      p + n < el.validBytes → (e.Succeeds → n = s.span len) →
      ReadCase sb e len s d ⟨(n : Nat), some (d.piece sb el p n), s.goto el.ndx (p + n)⟩
  | finish {pre el rest p} : ¬ s.Over → Picked s d.validBlkList pre el rest p →
      p ≤ el.validBytes → el.validBytes - p ≤ s.span len →
      ReadCase sb e len s d ⟨(el.validBytes - p : Nat),
        some (d.piece sb el p (el.validBytes - p)), s.advance rest⟩
  | skip {pre el rest p ret} : ¬ s.Over → Picked s d.validBlkList pre el rest p →
      el.validBytes < p → ReadCase sb e len s d ⟨ret, none, s.advance rest⟩

section

variable {sb n : Nat} {e : ReadEnv} {len : Nat} {s : Session} {d : Driver}

/-- The checks and clamps, without wrap-around: the position is moved out of the metadata. -/
theorem readWindow_eq (hsmall : s.ino.iSize < 2 ^ 31) (hlen : len ≤ maxRwCount) (hover : ¬ s.Over) :
    readWindow s.ino.iSize s.off len =
      some ⟨s.blk * 4096 + 10 + s.pos, 10 + s.pos, s.span len⟩ := by
  have hover : s.off + 8192 < s.ino.iSize := Nat.lt_of_not_le hover
  have hlen : len ≤ 0x7ffff000 := hlen
  have hlt := Nat.mod_lt s.off (by omega : 4096 > 0)
  have hdiv := Nat.div_add_mod s.off 4096
  rw [readWindow, if_neg (show ¬ s.off + 2 * 4096 ≥ s.ino.iSize by omega)]
  dsimp only
  rw [Option.some.injEq, Window.mk.injEq]
  refine ⟨?_, ?_, ?_⟩
  · show (if s.off % 4096 < 10 then s.off + (10 - s.off % 4096) else s.off)
      = s.off / 4096 * 4096 + 10 + (s.off % 4096 - 10)
    split <;> omega
  · show (if s.off % 4096 < 10 then 10 else s.off % 4096) = 10 + (s.off % 4096 - 10)
    split <;> omega
  · have hoffset : (if s.off % 4096 < 10 then 10 else s.off % 4096) = 10 + s.pos := by
      rw [Session.pos]
      split <;> omega
    -- both sums stay below 2 ^ 64, so the two clamps are the ones `span` names
    show (if ((if s.off % 4096 < 10 then 10 else s.off % 4096) +
        (if (s.off + 2 * 4096 + len) % 2 ^ 64 > s.ino.iSize then s.ino.iSize - s.off else len)) % 2 ^ 64
        > 4096 then 4096 - (if s.off % 4096 < 10 then 10 else s.off % 4096)
      else (if (s.off + 2 * 4096 + len) % 2 ^ 64 > s.ino.iSize then s.ino.iSize - s.off else len))
      = s.span len
    have hpos := s.pos_lt
    rw [hoffset, Nat.mod_eq_of_lt (by omega : s.off + 2 * 4096 + len < 2 ^ 64), Session.span]
    generalize hl : (if s.off + 2 * 4096 + len > s.ino.iSize then s.ino.iSize - s.off else len) = l₁
    have hl₁ : l₁ < 2 ^ 32 := by
      rw [← hl]
      split <;> omega
    rw [Nat.mod_eq_of_lt (by omega : 10 + s.pos + l₁ < 2 ^ 64)]
    split <;> omega

theorem dataPos_eq {ndx : Nat} (h : ndx < 2 ^ 19) : dataPos ndx = ndx * 4096 + 10 := by
  show ndx * 4096 % 2 ^ 32 + 10 = ndx * 4096 + 10
  rw [Nat.mod_eq_of_lt (by omega)]

/-- Saving the next node: the session moves on, or the allocation fails and it stays. -/
theorem setNextBlk_cases (copied : Option Copied) (ret : Int) {rest : List RcuElem}
    (hrest : ∀ x ∈ rest, x.ndx < 2 ^ 19) :
    (¬ e.Succeeds ∧ ∃ ret' < 0, setNextBlk e copied ret rest s = ⟨ret', copied, s⟩) ∨
    ∃ ret', (0 ≤ ret → ret' = ret) ∧ setNextBlk e copied ret rest s = ⟨ret', copied, s.advance rest⟩ := by
  cases rest with
  | nil =>
    refine .inr ⟨if ret > 0 then ret else 0, ?_, rfl⟩
    intro hret
    split <;> omega
  | cons x rest =>
    by_cases ha : e.alloc = true
    · refine .inr ⟨ret, fun _ => rfl, ?_⟩
      rw [setNextBlk, if_neg (fun h => h ha), dataPos_eq (hrest x List.mem_cons_self)]
      rfl
    · refine .inl ⟨fun h => ha h.2.2, -Errno.enomem.code, by decide, ?_⟩
      rw [setNextBlk, if_pos ha]

/-- The last clamp: the copy ends where the message ends. -/
theorem cut_eq {w : Window} {p validBytes : Nat} (hoffset : w.offset = 10 + p) (hp : p < 4086)
    (hsmall : w.len < 2 ^ 32) :
    (if (w.len + w.offset - metadataSize) % 2 ^ 64 > validBytes then validBytes - p else w.len) =
      min w.len (validBytes - p) := by
  have hsum : (w.len + w.offset - metadataSize) % 2 ^ 64 = w.len + p := by
    rw [hoffset, metadataSize, Nat.mod_eq_of_lt (by omega)]
    omega
  rw [hsum]
  split <;> omega

theorem Readable.rest_small (h : Readable sb n s d) {pre rest : List RcuElem} {el : RcuElem} {p : Nat}
    (hpick : Picked s d.validBlkList pre el rest p) : ∀ x ∈ rest, x.ndx < 2 ^ 19 := by
  intro x hx
  have hn := h.inv.small
  have hlt := h.inv.ndx_lt (hpick.mem_of_mem_rest hx)
  omega

theorem Session.goto_advance (s : Session) (k p : Nat) (rest : List RcuElem) :
    (s.goto k p).advance rest = s.advance rest := by cases rest <;> rfl

/-- The position is past the message that now sits in the block: the next node is saved, nothing copied. -/
theorem readCase_past (h : Readable sb n s d) (hover : ¬ s.Over) {pre rest : List RcuElem} {el : RcuElem}
    {p : Nat} (hpick : Picked s d.validBlkList pre el rest p) (hp : p > el.validBytes) :
    ReadCase sb e len s d (setNextBlk e none e.ret0 rest (s.goto el.ndx p)) := by
  rcases setNextBlk_cases (e := e) (s := s.goto el.ndx p) none e.ret0 (h.rest_small hpick)
    with ⟨hfail, ret', hret, heq⟩ | ⟨ret', -, heq⟩
  · rw [heq]
    exact .stall hover hpick hfail hret
  · rw [heq, s.goto_advance]
    exact .skip hover hpick hp

/-- What is left of the message has been copied: the next node is saved. -/
theorem readCase_all (h : Readable sb n s d) (hover : ¬ s.Over) {pre rest : List RcuElem} {el : RcuElem}
    {p : Nat} (hpick : Picked s d.validBlkList pre el rest p) (hp : p ≤ el.validBytes)
    (hspan : el.validBytes - p ≤ s.span len) :
    ReadCase sb e len s d (setNextBlk e (some (d.piece sb el p (el.validBytes - p)))
      ((el.validBytes - p : Nat) : Int) rest (s.goto el.ndx p)) := by
  rcases setNextBlk_cases (e := e) (s := s.goto el.ndx p) (some (d.piece sb el p (el.validBytes - p)))
    ((el.validBytes - p : Nat) : Int) (h.rest_small hpick) with ⟨hfail, ret', hret, heq⟩ | ⟨ret', hret, heq⟩
  · rw [heq]
    exact .stall hover hpick hfail hret
  · rw [heq, s.goto_advance, hret (by omega)]
    exact .finish hover hpick hp hspan

/-- What is copied from the block of the picked node is a piece of its message. -/
theorem copied_eq_piece (h : Readable sb n s d) {el : RcuElem} (hel : el ∈ d.validBlkList) {p k : Nat}
    (hk : p + k ≤ el.validBytes) :
    (⟨el, (el.ndx + numMetadataBlks) % 2 ^ 32, 10 + p,
      (d.disk s.ino.iSb ((el.ndx + numMetadataBlks) % 2 ^ 32)).slice (10 + p) k⟩ : Copied) =
      d.piece sb el p k := by
  have hn := h.inv.small
  have hndx := h.inv.ndx_lt hel
  have hblock : (el.ndx + numMetadataBlks) % 2 ^ 32 = el.ndx + 2 := by
    rw [numMetadataBlks, Nat.mod_eq_of_lt (by omega)]
  rw [hblock, Driver.piece, Driver.message, Block.take_drop_slice _ (by omega), h.onSb]

/-- The call from the picked node on.  `w` is the window for it: its length may already have been cut
    to the message. -/
theorem readTarget_cases (h : Readable sb n s d) (hover : ¬ s.Over) {pre rest : List RcuElem}
    {el : RcuElem} {p : Nat} (hpick : Picked s d.validBlkList pre el rest p) {w : Window}
    (hoff : w.off = el.ndx * 4096 + 10 + p) (hoffset : w.offset = 10 + p) (hsmall : w.len < 2 ^ 32)
    (hlen : min w.len (el.validBytes - p) = min (s.span len) (el.validBytes - p)) :
    ReadCase sb e len s d (readTarget e w el rest s d) := by
  have hgoto : ({ s with off := w.off } : Session) = s.goto el.ndx p := by rw [hoff]; rfl
  have hin : w.offset - metadataSize = p := by
    rw [hoffset]
    exact Nat.add_sub_cancel_left 10 p
  unfold readTarget
  dsimp only
  rw [hgoto, hin]
  by_cases hp : p > el.validBytes
  · rw [if_pos hp]
    exact readCase_past h hover hpick hp
  rw [if_neg hp]
  rw [cut_eq hoffset hpick.pos_lt hsmall, hlen]
  generalize hc : min (s.span len) (el.validBytes - p) = c
  by_cases hb : e.bread = true
  · rw [if_neg (fun h => h hb), hoffset, copied_eq_piece h hpick.mem (by omega)]
    -- a partial read keeps the timestamp and moves only the position
    by_cases hpart : min e.notCopied c ≠ 0 ∨ 10 + p + c - min e.notCopied c < el.validBytes + metadataSize
    · rw [if_pos hpart, hoff]
      have hlt : p + (c - min e.notCopied c) < el.validBytes := by
        rw [metadataSize] at hpart
        omega
      have hmove : ({ s with off := el.ndx * 4096 + 10 + p + (c - min e.notCopied c) } : Session) =
          s.goto el.ndx (p + (c - min e.notCopied c)) := by
        rw [Session.goto, Nat.add_assoc _ p]
      rw [hmove]
      refine .hold hover hpick hlt ?_
      intro hok
      rw [hok.2.1] at hlt ⊢
      omega
    · rw [if_neg hpart]
      rw [metadataSize] at hpart
      have hall : c - min e.notCopied c = el.validBytes - p := by omega
      rw [hall]
      exact readCase_all h hover hpick (by omega) (by omega)
  · rw [if_pos hb]
    exact .stall hover hpick (fun h => hb h.1) (by decide)

/-- **What one `read` does.** -/
theorem vfsRead_cases (h : Readable sb n s d) (e : ReadEnv) (len : Nat) :
    ReadCase sb e (min len maxRwCount) s d (vfsRead e len s d) := by
  unfold vfsRead bldmsRead
  by_cases hover : s.Over
  · rw [readWindow, if_pos (show s.off + 2 * 4096 ≥ s.ino.iSize from hover)]
    exact .ended hover
  have hsmall := h.small
  rw [readWindow_eq hsmall (Nat.min_le_right _ _) hover]
  dsimp only
  have hpos := s.pos_lt
  have hspan : s.span (min len maxRwCount) ≤ 4086 := by rw [Session.span]; omega
  have hblk : (s.blk * 4096 + 10 + s.pos) / defaultBlockSize % 2 ^ 32 = s.blk := by
    have hover : s.off + 8192 < s.ino.iSize := Nat.lt_of_not_le hover
    have : s.blk < 2 ^ 19 := by rw [Session.blk]; omega
    show (s.blk * 4096 + 10 + s.pos) / 4096 % 2 ^ 32 = s.blk
    omega
  rw [hblk]
  rcases selectTarget_cases s d.validBlkList with ⟨hnil, hall⟩ | ⟨pre, el, rest, hsel, hsplit, hpre, ht⟩
  · rw [hnil]
    exact .noMore hover hall
  · rw [hsel]
    dsimp only
    -- by its index, at the position; or by its timestamp, at the start of another block
    by_cases hel : el.ndx = s.blk
    · rw [if_pos hel]
      refine readTarget_cases h hover ⟨hsplit, hpre, .inl ⟨hel, rfl⟩⟩ ?_ rfl ?_ rfl
      · rw [hel]
      · show s.span _ < 2 ^ 32
        omega
    · rw [if_neg hel]
      have hmem : el ∈ d.validBlkList := by
        rw [hsplit]
        exact List.mem_append_right _ List.mem_cons_self
      have hndx := h.inv.ndx_lt hmem
      have hn := h.inv.small
      refine readTarget_cases h hover
        ⟨hsplit, hpre, .inr ⟨hel, ht.resolve_left hel, rfl⟩⟩ ?_ rfl ?_ ?_
      · exact dataPos_eq (by omega)
      · dsimp only
        split <;> omega
      · dsimp only
        split <;> omega

theorem ReadCase.ino {o : ReadOut} (h : ReadCase sb e len s d o) :
    o.sess.ino = s.ino := by
  cases h with
  | ended => rfl
  | noMore => exact s.advance_ino _
  | stall => rfl
  | hold => rfl
  | finish => exact s.advance_ino _
  | skip => exact s.advance_ino _

theorem Readable.vfsRead (h : Readable sb n s d) (e : ReadEnv) (len : Nat) :
    Readable sb n (vfsRead e len s d).sess d := h.of_ino (vfsRead_cases h e len).ino

end

end Bldms
