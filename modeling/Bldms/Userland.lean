/-
  What the programs of the repository see of the driver.

  Source: `user/include/quotes.h`; the calls of `user/test.c`, `user/user.c` and `user/user_concurrency.c`.

  The programs know the number of blocks from `fstat`, and tell the results of their calls apart by `errno`.  Nothing
  is supposed to fail on their account: `Outside.Succeeds` is a kernel that has memory and reads its blocks, and
  draws whatever timestamps it likes.  What a call can then answer is read off the map of the messages:
  `Inv.put_result`, `Inv.get_result`, `Inv.invalidate_result`.

  The read loops need a bound: `Session.toRead` counts the bytes a session has still to come, and one for each
  message; a read that does not return 0 makes it smaller (`Readable.progress`).
-/
import Bldms.Undisturbed

namespace Bldms

/-! ## The outside -/

/-- What a call of a program gets from outside: what `put_data`, `get_data` and `read` do, `sb_bread` for the other
    calls, `iget_locked`, and the allocation of `open` and `llseek`. -/
structure Outside where
  put : PutEnv
  get : GetEnv
  read : ReadEnv
  bread : Bool
  iget : Bool
  alloc : Bool

structure Outside.Succeeds (o : Outside) : Prop where
  put : o.put.Succeeds
  get : o.get.bread = true ∧ o.get.notCopied = 0
  read : o.read.Succeeds
  bread : o.bread = true
  iget : o.iget = true
  alloc : o.alloc = true

/-- Nothing fails, a new entry gets identity `id` and a message the timestamp `now`. -/
def Outside.allOk (id : Nat) (now : Ktime) : Outside :=
  ⟨.allOk id now, ⟨true, 0⟩, ⟨true, 0, true, 0⟩, true, true, true⟩

theorem Outside.allOk_succeeds (id : Nat) (now : Ktime) : (Outside.allOk id now).Succeeds :=
  ⟨⟨rfl, rfl, rfl, rfl, rfl⟩, ⟨rfl, rfl⟩, ⟨rfl, rfl, rfl⟩, rfl, rfl, rfl⟩

/-- `NUM_MESSAGES`. -/
abbrev numMessages : Nat := 20

/-- `MAX_MSG_SIZE`: the block size less the metadata. -/
abbrev maxMsgSize : Nat := defaultBlockSize - metadataSize

/-- `messages`: texts that fit a block with their terminator. -/
structure Quotes where
  text : Fin numMessages → List Byte
  fits : ∀ i, (text i).length < maxMsgSize

/-- The `strlen(msg) + 1` bytes at `messages[k % NUM_MESSAGES]`. -/
def Quotes.message (q : Quotes) (k : Nat) : List Byte :=
  q.text ⟨k % numMessages, Nat.mod_lt k (by decide)⟩ ++ [0]

theorem Quotes.message_fits (q : Quotes) (k : Nat) : (q.message k).length ≤ 4086 := by
  have hfits := q.fits ⟨k % numMessages, Nat.mod_lt k (by decide)⟩
  rw [message, List.length_append, List.length_singleton]
  exact hfits

/-- Some texts. -/
def sampleQuotes : Quotes := ⟨fun i => List.replicate i.val 65, by decide⟩

/-- The inode of the file, as a successful look-up gives it. -/
theorem bldmsLookup_ok {iget bread : Bool} {sb : Nat} {d : Driver} {ino : Inode}
    (h : bldmsLookup iget bread "the_file" sb d = .ok (some ino)) : ino = ⟨inodeFileSize (d.disk sb 1), sb⟩ := by
  rw [bldmsLookup, if_neg (fun h => h rfl)] at h
  split at h
  · cases h
  split at h
  · cases h
  · exact (Option.some.inj (Ret.ok.inj h)).symm

/-- `num_blocks`, from `fstat`. -/
def Inode.numBlocks (ino : Inode) : Nat := ino.iSize / defaultBlockSize

/-! ## What the calls answer -/

section

variable {sb n : Nat} {d : Driver}

/-- A message that fits goes to a block that has none, or there is no such block. -/
theorem Inv.put_result (hI : Inv sb n d) {e : PutEnv} (he : e.Succeeds) {m : List Byte} (hm : m.length ≤ 4086) :
    (∃ k, k < n ∧ (Bldms.putData e m d).ret = .ok k ∧ d.store sb k = none ∧
      (Bldms.putData e m d).drv.store sb = Function.update (d.store sb) k (some m)) ∨
    (Bldms.putData e m d).ret = .err .enomem ∧ (∀ k, k < n → d.store sb k ≠ none) ∧
      (Bldms.putData e m d).drv.store sb = d.store sb := by
  obtain ⟨op, res, hop, hres, hstep⟩ := hI.put_refines he m
  obtain rfl := Option.some.inj hop
  change Reply.result (.put (Bldms.putData e m d).ret _) = some res at hres
  change StoreStep n _ _ _ ((Bldms.putData e m d).drv.store sb) at hstep
  generalize (Bldms.putData e m d).drv.store sb = σ' at hstep ⊢
  generalize (Bldms.putData e m d).ret = r at hres ⊢
  cases hstep with
  | putOk _ hk hnone =>
    cases r with
    | ok k =>
      obtain rfl := StoreResult.index.inj (Option.some.inj hres)
      exact .inl ⟨_, hk, rfl, hnone, rfl⟩
    | err x => cases hres
    | oops => cases hres
  | putFull _ hfull =>
    cases r with
    | ok k => cases hres
    | err x =>
      obtain rfl := StoreResult.fail.inj (Option.some.inj hres)
      exact .inr ⟨rfl, hfull, rfl⟩
    | oops => cases hres
  | putTooBig hbig => omega

/-- A message that does not fit is refused, and nothing changes. -/
theorem Inv.put_too_big (hI : Inv sb n d) (e : PutEnv) {m : List Byte} (hm : 4086 < m.length) :
    (Bldms.putData e m d).ret = .err .e2big ∧ (Bldms.putData e m d).drv = d := by
  rw [Bldms.putData, putPrepare, hI.mounted, if_neg (fun h => h rfl), if_pos (show m.length > 4096 - 10 by omega)]
  exact ⟨rfl, rfl⟩

theorem toNat_ofNat_of_lt {k : Nat} (hn : n < 2 ^ 19) (hk : k < n) : (BitVec.ofNat 32 k).toNat = k := by
  rw [BitVec.toNat_ofNat, Nat.mod_eq_of_lt (by omega)]

/-- An index of a block, as the callers pass it. -/
theorem toInt_ofNat_of_lt {k : Nat} (hn : n < 2 ^ 19) (hk : k < n) : (BitVec.ofNat 32 k).toInt = k := by
  rw [BitVec.toInt_eq_toNat_cond, toNat_ofNat_of_lt hn hk, if_pos (by omega)]

/-- `get_data` of a block of the device: the beginning of its message, or `ENODATA`. -/
theorem Inv.get_result (hI : Inv sb n d) {e : GetEnv} (he : e.bread = true ∧ e.notCopied = 0) {k : Nat} (hk : k < n)
    (size : Nat) : Bldms.getData e (BitVec.ofNat 32 k) size d =
      (d.store sb k).elim (.err .enodata) fun m => .ok (m.take size) := by
  have hint := toInt_ofNat_of_lt hI.small hk
  have hin : InRange n (BitVec.ofNat 32 k).toInt := by rw [hint]; exact ⟨Int.natCast_nonneg k, by omega⟩
  obtain ⟨op, res, hop, hres, hstep⟩ := hI.get_refines he (BitVec.ofNat 32 k) size
  obtain rfl := Option.some.inj hop
  have hnat : (BitVec.ofNat 32 k).toInt.toNat = k := by rw [hint]; rfl
  generalize Bldms.getData e (BitVec.ofNat 32 k) size d = r at hres ⊢
  cases hstep with
  | getOk _ hm =>
    rw [hnat] at hm
    rw [hm]
    cases r with
    | ok b =>
      obtain rfl := StoreResult.bytes.inj (Option.some.inj hres)
      rfl
    | err x => cases hres
    | oops => cases hres
  | getNone _ hnone =>
    rw [hnat] at hnone
    rw [hnone]
    cases r with
    | ok b => cases hres
    | err x =>
      obtain rfl := StoreResult.fail.inj (Option.some.inj hres)
      rfl
    | oops => cases hres
  | getOut hout => exact absurd hin hout

/-- `invalidate_data` of a block of the device: its message goes, or there is none. -/
theorem Inv.invalidate_result (hI : Inv sb n d) {k : Nat} (hk : k < n) :
    (∃ m, d.store sb k = some m ∧ (Bldms.invalidateData true (BitVec.ofNat 32 k) d).1 = .ok () ∧
      (Bldms.invalidateData true (BitVec.ofNat 32 k) d).2.store sb = Function.update (d.store sb) k none) ∨
    d.store sb k = none ∧ (Bldms.invalidateData true (BitVec.ofNat 32 k) d).1 = .err .enodata ∧
      (Bldms.invalidateData true (BitVec.ofNat 32 k) d).2.store sb = d.store sb := by
  have hint := toInt_ofNat_of_lt hI.small hk
  have hin : InRange n (BitVec.ofNat 32 k).toInt := by rw [hint]; exact ⟨Int.natCast_nonneg k, by omega⟩
  obtain ⟨op, res, hop, hres, hstep⟩ := hI.invalidate_refines (BitVec.ofNat 32 k)
  obtain rfl := Option.some.inj hop
  have hnat : (BitVec.ofNat 32 k).toInt.toNat = k := by rw [hint]; rfl
  generalize (Bldms.invalidateData true (BitVec.ofNat 32 k) d).2.store sb = σ' at hstep ⊢
  generalize (Bldms.invalidateData true (BitVec.ofNat 32 k) d).1 = r at hres ⊢
  cases hstep with
  | invalidateOk _ hm =>
    rw [hnat] at hm ⊢
    cases r with
    | ok u => exact .inl ⟨_, hm, rfl, rfl⟩
    | err x => cases hres
    | oops => cases hres
  | invalidateNone _ hnone =>
    rw [hnat] at hnone
    cases r with
    | ok u => cases hres
    | err x =>
      obtain rfl := StoreResult.fail.inj (Option.some.inj hres)
      exact .inr ⟨hnone, rfl, rfl⟩
    | oops => cases hres
  | invalidateOut hout => exact absurd hin hout

/-- `invalidate_data` of no block of the device. -/
theorem Inv.invalidate_out (hI : Inv sb n d) {offset : BitVec 32} (hout : ¬ InRange n offset.toInt) :
    (Bldms.invalidateData true offset d).1 = .err .e2big := by
  obtain ⟨op, res, hop, hres, hstep⟩ := hI.invalidate_refines offset
  obtain rfl := Option.some.inj hop
  generalize (Bldms.invalidateData true offset d).2.store sb = σ' at hstep
  generalize (Bldms.invalidateData true offset d).1 = r at hres ⊢
  cases hstep with
  | invalidateOk hin _ => exact absurd hin hout
  | invalidateNone hin _ => exact absurd hin hout
  | invalidateOut _ =>
    cases r with
    | ok u => cases hres
    | err x =>
      obtain rfl := StoreResult.fail.inj (Option.some.inj hres)
      rfl
    | oops => cases hres

end

/-! ## How much a session has still to read -/

/-- The bytes of some messages, and one for each. -/
def bytesLeft (l : List RcuElem) : Nat := (l.map fun el => el.validBytes + 1).sum

theorem bytesLeft_cons (el : RcuElem) (l : List RcuElem) : bytesLeft (el :: l) = el.validBytes + 1 + bytesLeft l := rfl

/-- The bytes a session has still to come from the list as it is, and one for each message; those of the message it
    is at count from its position on. -/
def Session.toRead (s : Session) (d : Driver) : Nat :=
  if s.Over then 0
  else match selectTarget s.blk s.nextTs d.validBlkList with
    | [] => 0
    | el :: rest => el.validBytes + 1 - (if el.ndx = s.blk then s.pos else 0) + bytesLeft rest

/-- The session does not stand past the end of the message it faces. -/
def Session.Inside (s : Session) (d : Driver) : Prop :=
  s.Over ∨ ∀ pre el rest p, Picked s d.validBlkList pre el rest p → p ≤ el.validBytes

section

variable {sb n : Nat} {s : Session} {d : Driver} {pre rest : List RcuElem} {el : RcuElem} {p : Nat}

theorem Picked.toRead (hp : Picked s d.validBlkList pre el rest p) (hover : ¬ s.Over) :
    s.toRead d = el.validBytes + 1 - p + bytesLeft rest := by
  rcases selectTarget_cases s d.validBlkList with ⟨-, hall⟩ | ⟨pre', el', rest', hsel, hsplit, hpre, htarget⟩
  · exact absurd (hall el hp.mem) hp.not_passes
  · have hp' : Picked s d.validBlkList pre' el' rest' (if el'.ndx = s.blk then s.pos else 0) := by
      refine ⟨hsplit, hpre, ?_⟩
      by_cases hblk : el'.ndx = s.blk
      · exact .inl ⟨hblk, if_pos hblk⟩
      · exact .inr ⟨hblk, htarget.resolve_left hblk, if_neg hblk⟩
    obtain ⟨-, rfl, rfl, heq⟩ := hp.unique hp'
    rw [Session.toRead, if_neg hover, hsel]
    dsimp only
    rw [heq]

theorem toRead_over (hover : s.Over) : s.toRead d = 0 := if_pos hover

theorem Session.inside_of_pos (hpos : s.pos = 0) : s.Inside d := by
  refine .inr fun pre el rest p hp => ?_
  rcases hp.target with ⟨-, rfl⟩ | ⟨-, -, rfl⟩
  · rw [hpos]
    exact Nat.zero_le _
  · exact Nat.zero_le _

theorem Picked.inside (hp : Picked s d.validBlkList pre el rest p) (hle : p ≤ el.validBytes) : s.Inside d := by
  refine .inr fun pre' el' rest' p' hp' => ?_
  obtain ⟨-, rfl, -, rfl⟩ := hp.unique hp'
  exact hle

/-- Past a message the session is at the start of the next one, or over. -/
theorem Session.advance_start (s : Session) (rest : List RcuElem) :
    (s.advance rest).Over ∨ (s.advance rest).pos = 0 := by
  cases rest with
  | nil => exact .inl s.advance_nil_over
  | cons nx rest => exact .inr (s.advance_cons_pos nx rest)

/-- Past a message the session has no more than the messages after it to read. -/
theorem Readable.toRead_advance (h : Readable sb n s d) (hp : Picked s d.validBlkList pre el rest p) :
    (s.advance rest).toRead d ≤ bytesLeft rest := by
  by_cases hover : (s.advance rest).Over
  · rw [toRead_over hover]
    exact Nat.zero_le _
  · cases rest with
    | nil => exact absurd s.advance_nil_over hover
    | cons nx rest =>
      rw [(hp.advance h.inv.distinct h.inv.sorted).toRead hover, bytesLeft_cons]
      omega

/-- **A successful read gets on**: it reports no error, leaves the session inside its message, and unless it returns 0
    there is less to read afterwards. -/
theorem Readable.progress (h : Readable sb n s d) (hin : s.Inside d) {r : Request} (hr : r.Ok) :
    0 ≤ (Bldms.vfsRead r.env r.len s d).ret ∧ (Bldms.vfsRead r.env r.len s d).sess.Inside d ∧
    ((Bldms.vfsRead r.env r.len s d).ret ≠ 0 → (Bldms.vfsRead r.env r.len s d).sess.toRead d < s.toRead d) := by
  have hcase := vfsRead_cases h r.env r.len
  generalize Bldms.vfsRead r.env r.len s d = o at hcase ⊢
  cases hcase with
  | ended hover => exact ⟨le_refl _, hin, fun hne => absurd rfl hne⟩
  | noMore _ _ => exact ⟨le_refl _, .inl s.advance_nil_over, fun hne => absurd rfl hne⟩
  | stall _ _ hfail _ => exact absurd hr.1 hfail
  | @hold pre el rest p k hover hp hlt hspan =>
    have hfit := h.fit el hp.mem
    have hk : 0 < k := by
      rw [hspan hr.1]
      exact Session.span_pos hover (Nat.lt_min.mpr ⟨hr.2, by decide⟩)
    have hgoto := hp.goto h.inv.distinct (show p + k < 4086 by omega)
    refine ⟨Int.natCast_nonneg k, hgoto.inside (Nat.le_of_lt hlt), fun _ => ?_⟩
    rw [hp.toRead hover]
    by_cases hover' : (s.goto el.ndx (p + k)).Over
    · show (s.goto el.ndx (p + k)).toRead d < _
      rw [toRead_over hover']
      omega
    · show (s.goto el.ndx (p + k)).toRead d < _
      rw [hgoto.toRead hover']
      omega
  | @finish pre el rest p hover hp hle _ =>
    refine ⟨Int.natCast_nonneg _, ?_, fun _ => ?_⟩
    · rcases s.advance_start rest with hover' | hpos
      · exact .inl hover'
      · exact Session.inside_of_pos hpos
    · have hleft := h.toRead_advance hp
      rw [hp.toRead hover]
      show (s.advance rest).toRead d < _
      omega
  | @skip pre el rest p ret hover hp hgt =>
    have hle := hin.resolve_left hover pre el rest p hp
    omega

/-- A request for a whole block leaves the session at the start of a message, or over. -/
theorem Readable.whole (h : Readable sb n s d) (hstart : s.Over ∨ s.pos = 0) {e : ReadEnv} (he : e.Succeeds) :
    (Bldms.vfsRead e maxMsgSize s d).sess.Over ∨ (Bldms.vfsRead e maxMsgSize s d).sess.pos = 0 := by
  have hcase := vfsRead_cases h e maxMsgSize
  generalize Bldms.vfsRead e maxMsgSize s d = o at hcase ⊢
  cases hcase with
  | ended hover => exact .inl hover
  | noMore _ _ => exact .inl s.advance_nil_over
  | stall _ _ hfail _ => exact absurd he hfail
  | @hold pre el rest p k hover hp hlt hspan =>
    -- the message is no longer than the request
    have hfit := h.fit el hp.mem
    have hover' : s.off + 8192 < s.ino.iSize := Nat.lt_of_not_le hover
    have hpos := hstart.resolve_left hover
    have hk : k = 4086 := by
      rw [hspan he, Session.span, hpos, Nat.min_eq_left (by decide : maxMsgSize ≤ maxRwCount)]
      show min (if s.off + 8192 + 4086 > s.ino.iSize then s.ino.iSize - s.off else 4086) (4086 - 0) = 4086
      split <;> omega
    omega
  | finish _ _ _ _ => exact s.advance_start _
  | skip _ _ _ => exact s.advance_start _

/-- A session never has more to read than the device holds. -/
theorem Readable.toRead_le (h : Readable sb n s d) : s.toRead d ≤ n * 4087 := by
  have hleft : ∀ l : List RcuElem, (∀ el ∈ l, el.validBytes ≤ 4086) → bytesLeft l ≤ l.length * 4087 := by
    intro l hl
    have hsum := List.sum_le_card_nsmul (l.map fun el => el.validBytes + 1) 4087 fun x hx => by
      obtain ⟨el, hel, rfl⟩ := List.mem_map.mp hx
      exact Nat.succ_le_succ (hl el hel)
    rwa [List.length_map, smul_eq_mul] at hsum
  have hall : s.toRead d ≤ bytesLeft d.validBlkList := by
    rcases selectTarget_cases s d.validBlkList with ⟨hsel, -⟩ | ⟨pre, el, rest, hsel, hsplit, -, -⟩
    · rw [Session.toRead, hsel]
      split <;> exact Nat.zero_le _
    · have hcut : bytesLeft d.validBlkList = bytesLeft pre + bytesLeft (el :: rest) := by
        rw [hsplit, bytesLeft, List.map_append, List.sum_append]
        rfl
      rw [hcut, bytesLeft_cons, Session.toRead, hsel]
      split
      · exact Nat.zero_le _
      · dsimp only
        omega
  have hlength := h.inv.length_le
  have hbound := hleft d.validBlkList h.fit
  omega

end

end Bldms
