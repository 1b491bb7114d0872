/-
  One reading session among writers.

  A `World` is the driver, the session, and three GHOST records of what has happened, which no code
  reads: the deliveries made to the session, in order (`log`), the bytes it has received from the
  message that sits in each block now (`got`), and every node that has ever been listed (`written`).

  Events are the atomic steps that can interleave: a `put_data` or an `invalidate_data` (their critical
  sections) and a `read` of the session.  A `put_data` carries whatever timestamp it drew before it got
  the lock, so nothing relates the timestamps of different puts.

  A call counts as a delivery when it reports no error and has copied at least a byte.

  Two inversion lemmas say what an event does: `put_cases` and `read_cases`.  The latter has just three
  outcomes: the session idles, STAYS at the node it picked, or MOVES past it.
-/
import Bldms.ReadSpec

namespace Bldms

/-! ## A call that fails -/

theorem setNextBlk_error {e : ReadEnv} {copied : Option Copied} {ret : Int} {rest : List RcuElem} {s : Session}
    (hret : 0 ≤ ret) (herr : (setNextBlk e copied ret rest s).ret < 0) : (setNextBlk e copied ret rest s).sess = s := by
  cases rest with
  | nil =>
    have hnonneg : 0 ≤ (setNextBlk e copied ret [] s).ret := by
      show 0 ≤ if ret > 0 then ret else 0
      split <;> omega
    omega
  | cons nx rest =>
    rw [setNextBlk] at herr ⊢
    split at herr
    · rename_i halloc
      rw [if_pos halloc]
    · exact absurd herr (not_lt.mpr hret)

theorem readTarget_error {e : ReadEnv} {w : Window} {el : RcuElem} {rest : List RcuElem} {s : Session} {d : Driver}
    (hret0 : 0 ≤ e.ret0) (herr : (readTarget e w el rest s d).ret < 0) :
    { (readTarget e w el rest s d).sess with off := s.off } = s := by
  rw [readTarget] at herr ⊢
  dsimp only at herr ⊢
  generalize (if (w.len + w.offset - metadataSize) % 2 ^ 64 > el.validBytes
    then el.validBytes - (w.offset - metadataSize) else w.len) = n at herr ⊢
  split_ifs at herr ⊢
  · rw [setNextBlk_error hret0 herr]
  · rfl
  · rw [setNextBlk_error (Int.natCast_nonneg _) herr]
  · rfl

/-- **A call that reports an error of its own changes nothing but `*off`**, and that `read(2)` writes back only after a
    success: to the process it is a step that has not taken place.  (`ret0` is what `ret` holds if nothing has been
    assigned to it.) -/
theorem vfsRead_error {e : ReadEnv} {len : Nat} {s : Session} {d : Driver} (hret0 : 0 ≤ e.ret0)
    (herr : (vfsRead e len s d).ret < 0) : { (vfsRead e len s d).sess with off := s.off } = s := by
  rw [vfsRead, bldmsRead] at herr ⊢
  cases hw : readWindow s.ino.iSize s.off (min len maxRwCount) with
  | none => rfl
  | some w =>
    rw [hw] at herr
    dsimp only at herr ⊢
    cases hl : selectTarget (w.off / defaultBlockSize % 2 ^ 32) s.nextTs d.validBlkList with
    | nil => rfl
    | cons el rest =>
      rw [hl] at herr
      dsimp only at herr ⊢
      split_ifs at herr ⊢
      · exact readTarget_error hret0 herr
      · exact readTarget_error hret0 herr
      · exact readTarget_error hret0 herr

/-! ## The system -/

/-- A delivery to the session: the node, the bytes, and the list of valid nodes at that call. -/
structure Delivery where
  el : RcuElem
  bytes : List Byte
  valid : List RcuElem
  deriving DecidableEq, Repr

/-- The driver, the session, and what has happened so far. -/
structure World where
  drv : Driver
  sess : Session
  log : List Delivery
  got : Nat → List Byte
  written : List RcuElem

/-- The steps that interleave. -/
inductive Event where
  | put (e : PutEnv) (m : List Byte)
  | invalidate (bread : Bool) (offset : BitVec 32)
  | read (r : Request)

namespace World

/-- The session has just been opened. -/
def start (d : Driver) (s : Session) : World := ⟨d, s, [], fun _ => [], d.validBlkList⟩

/-- The session becomes `s`, having received `bytes` from `el`. -/
def deliver (w : World) (el : RcuElem) (bytes : List Byte) (s : Session) : World :=
  match bytes with
  | [] => { w with sess := s }
  | _ :: _ =>
    { w with
      sess := s
      log := w.log ++ [⟨el, bytes, w.drv.validBlkList⟩]
      got := Function.update w.got el.ndx (w.got el.ndx ++ bytes) }

/-- The effect of a call of the session: what it has copied counts when it reports no error.  After an error the
    position is `*off` as the call leaves it; `read(2)` takes up the old one again, so that there such a call can be
    left out of the run (`vfsRead_error`). -/
def receive (w : World) (o : ReadOut) : World :=
  match o.copied with
  | some c => if 0 ≤ o.ret then w.deliver c.el c.bytes o.sess else { w with sess := o.sess }
  | none => { w with sess := o.sess }

/-- The effect of a `put_data`: the message of the block it returns is a new one. -/
def afterPut (w : World) (e : PutEnv) (m : List Byte) : World :=
  match (putData e m w.drv).ret with
  | .ok k =>
    { w with
      drv := (putData e m w.drv).drv
      got := Function.update w.got k []
      written := ⟨k, e.now, m.length⟩ :: w.written }
  | _ => { w with drv := (putData e m w.drv).drv }

end World

/-- The session among the writers, event by event; a `read` shows its result. -/
def session : System World Event (Option ReadOut) where
  step w
    | .put e m => (none, w.afterPut e m)
    | .invalidate bread offset => (none, { w with drv := (invalidateData bread offset w.drv).2 })
    | .read r =>
      (some (vfsRead r.env r.len w.sess w.drv), w.receive (vfsRead r.env r.len w.sess w.drv))

@[simp] theorem session_next_put (w : World) (e : PutEnv) (m : List Byte) :
    session.next w (.put e m) = w.afterPut e m := rfl
@[simp] theorem session_next_invalidate (w : World) (bread : Bool) (offset : BitVec 32) :
    session.next w (.invalidate bread offset) =
      { w with drv := (invalidateData bread offset w.drv).2 } := rfl
@[simp] theorem session_next_read (w : World) (r : Request) :
    session.next w (.read r) = w.receive (vfsRead r.env r.len w.sess w.drv) := rfl

namespace World

variable {sb n : Nat} {w : World}

theorem receive_of_nonneg (w : World) (c : Copied) {ret : Int} (s : Session) (h : 0 ≤ ret) :
    w.receive ⟨ret, some c, s⟩ = w.deliver c.el c.bytes s := by
  unfold receive
  dsimp only
  rw [if_pos h]

@[simp] theorem deliver_drv (w : World) (el : RcuElem) (bytes : List Byte) (s : Session) :
    (w.deliver el bytes s).drv = w.drv := by
  cases bytes <;> rfl

@[simp] theorem deliver_sess (w : World) (el : RcuElem) (bytes : List Byte) (s : Session) :
    (w.deliver el bytes s).sess = s := by
  cases bytes <;> rfl

@[simp] theorem deliver_written (w : World) (el : RcuElem) (bytes : List Byte) (s : Session) :
    (w.deliver el bytes s).written = w.written := by
  cases bytes <;> rfl

theorem deliver_log_of_ne {bytes : List Byte} (h : bytes ≠ []) (w : World) (el : RcuElem)
    (s : Session) : (w.deliver el bytes s).log = w.log ++ [⟨el, bytes, w.drv.validBlkList⟩] := by
  cases bytes with
  | nil => exact absurd rfl h
  | cons b bs => rfl

/-- A delivery adds to what has been received from its block … -/
theorem deliver_got_self (w : World) (el : RcuElem) (bytes : List Byte) (s : Session) :
    (w.deliver el bytes s).got el.ndx = w.got el.ndx ++ bytes := by
  cases bytes with
  | nil => exact (List.append_nil _).symm
  | cons b bs => exact Function.update_self _ _ _

/-- … and to nothing else. -/
theorem deliver_got_of_ne (w : World) (el : RcuElem) (bytes : List Byte) (s : Session) {k : Nat}
    (h : k ≠ el.ndx) : (w.deliver el bytes s).got k = w.got k := by
  cases bytes with
  | nil => rfl
  | cons b bs => exact Function.update_of_ne h _ _

/-! ## What an event does -/

/-- A `put_data` adds a node for a block no listed node has, or changes nothing. -/
theorem put_cases (hI : Inv sb n w.drv) (e : PutEnv) (m : List Byte) :
    w.afterPut e m = w ∨
    ∃ k, PutLands e m w.drv k ∧ (∀ x ∈ w.drv.validBlkList, x.ndx ≠ k) ∧
      (w.afterPut e m).drv.validBlkList =
        addValidBlockInOrderSecure w.drv.validBlkList k m.length e.now ∧
      (∀ x ∈ w.drv.validBlkList, (w.afterPut e m).drv.message sb x = w.drv.message sb x) ∧
      (w.afterPut e m).sess = w.sess ∧ (w.afterPut e m).log = w.log ∧
      (w.afterPut e m).got = Function.update w.got k [] ∧
      (w.afterPut e m).written = ⟨k, e.now, m.length⟩ :: w.written := by
  rcases hI.putData_cases e m with ⟨hdrv, hret, -⟩ | ⟨p, k, hlands, -, hsb, hfree, hlist, heq⟩
  · left
    unfold afterPut
    split
    · rename_i k hk
      exact absurd hk (hret k)
    · rw [hdrv]
  · right
    have hafter : w.afterPut e m =
        { w with
          drv := w.drv.commitPut p k
          got := Function.update w.got k []
          written := ⟨k, e.now, m.length⟩ :: w.written } := by
      unfold afterPut
      rw [heq]
    rw [hafter]
    exact ⟨k, hlands, hfree, hlist, fun x hx => message_commitPut_of_ne hsb (hfree x hx),
      rfl, rfl, rfl, rfl⟩

/-- An `invalidate_data` removes a node, or changes nothing; messages stay as they are. -/
theorem invalidate_cases (hI : Inv sb n w.drv) (bread : Bool) (offset : BitVec 32) :
    (Bldms.invalidateData bread offset w.drv).2.validBlkList.Sublist w.drv.validBlkList ∧
    ∀ x, (Bldms.invalidateData bread offset w.drv).2.message sb x = w.drv.message sb x := by
  rcases hI.invalidateData_cases bread offset with ⟨heq, -⟩ | ⟨el, -, -, heq⟩
  · rw [heq]
    exact ⟨List.Sublist.refl _, fun _ => rfl⟩
  · rw [heq]
    exact ⟨List.eraseP_sublist, fun x => message_commitInvalidate el.ndx x⟩

/-- What a `read` of the session does to the world. -/
inductive ReadMove (sb : Nat) (w : World) (r : Request) : World → Prop
  | idle {s : Session} : s = w.sess ∧ w.sess.Over ∨
        (∀ x ∈ w.drv.validBlkList, w.sess.Passes x) ∧ s = w.sess.advance [] →
      ReadMove sb w r { w with sess := s }
  | stay {pre rest : List RcuElem} {el : RcuElem} {p k : Nat} : ¬ w.sess.Over →
      Picked w.sess w.drv.validBlkList pre el rest p → p + k < 4086 →
      (k = 0 ∨ p + k < el.validBytes) → (r.Ok → 0 < k) →
      ReadMove sb w r
        (w.deliver el (((w.drv.message sb el).drop p).take k) (w.sess.goto el.ndx (p + k)))
  | move {pre rest : List RcuElem} {el : RcuElem} {p : Nat} : ¬ w.sess.Over →
      Picked w.sess w.drv.validBlkList pre el rest p →
      ReadMove sb w r (w.deliver el ((w.drv.message sb el).drop p) (w.sess.advance rest))

/-- **What a `read` of the session does.** -/
theorem read_cases (h : Readable sb n w.sess w.drv) (r : Request) :
    ReadMove sb w r (session.next w (.read r)) := by
  rw [session_next_read]
  have hcase := vfsRead_cases h r.env r.len
  generalize Bldms.vfsRead r.env r.len w.sess w.drv = o at hcase
  cases hcase with
  | ended hov => exact .idle (.inl ⟨rfl, hov⟩)
  | noMore _ hall => exact .idle (.inr ⟨hall, rfl⟩)
  | @stall pre el rest p ret copied hover hp hfail hret =>
    -- an error: whatever was copied is not received, but the position is at the picked node now
    have heq : w.receive ⟨ret, copied, w.sess.goto el.ndx p⟩ =
        w.deliver el (((w.drv.message sb el).drop p).take 0) (w.sess.goto el.ndx (p + 0)) := by
      unfold receive
      cases copied with
      | none => rfl
      | some c => exact if_neg (by show ¬ 0 ≤ ret; omega)
    rw [heq]
    exact .stay hover hp hp.pos_lt (.inl rfl) fun hr => absurd hr.1 hfail
  | @hold pre el rest p k hover hp hlt hspan =>
    have hfit := h.fit el hp.mem
    have heq : w.receive ⟨(k : Nat), some (w.drv.piece sb el p k), w.sess.goto el.ndx (p + k)⟩ =
        w.deliver el (((w.drv.message sb el).drop p).take k) (w.sess.goto el.ndx (p + k)) :=
      w.receive_of_nonneg _ _ (Int.natCast_nonneg k)
    rw [heq]
    refine .stay hover hp (by omega) (.inr hlt) ?_
    intro hr
    rw [hspan hr.1]
    exact Session.span_pos hover (Nat.lt_min.mpr ⟨hr.2, by decide⟩)
  | @finish pre el rest p hover hp hle _ =>
    have heq : w.receive ⟨(el.validBytes - p : Nat), some (w.drv.piece sb el p (el.validBytes - p)),
        w.sess.advance rest⟩ =
        w.deliver el ((w.drv.message sb el).drop p) (w.sess.advance rest) := by
      rw [← w.drv.piece_rest_bytes sb el p]
      exact w.receive_of_nonneg _ _ (Int.natCast_nonneg _)
    rw [heq]
    exact .move hover hp
  | @skip pre el rest p ret hover hp hgt =>
    -- the position is past the end of the message: the empty rest of it is "delivered"
    have hnil : (w.drv.message sb el).drop p = [] := by
      rw [List.drop_eq_nil_iff, Driver.length_message]
      omega
    have hmove : ReadMove sb w r (w.deliver el ((w.drv.message sb el).drop p) (w.sess.advance rest)) :=
      .move hover hp
    rw [hnil] at hmove
    exact hmove

/-! ## The session stays readable -/

theorem readable_start {cfg : Config} {d : Driver} {s : Session} (hd : Reachable cfg sb d)
    (hfit : d.MessagesFit) (hs : Opened sb d s) :
    Readable sb (d.blockCount sb) (start d s).sess (start d s).drv := hs.readable hd hfit

/-- **The step lemma**: no event breaks the driver's invariant or the session. -/
theorem readable_step (h : Readable sb n w.sess w.drv) (ev : Event) :
    Readable sb n (session.next w ev).sess (session.next w ev).drv := by
  cases ev with
  | put e m =>
    have hdrv : (session.next w (.put e m)).drv = driver.next w.drv (.put e m) := by
      rw [session_next_put, driver_next_put]
      unfold afterPut
      split <;> rfl
    have hsess : (session.next w (.put e m)).sess = w.sess := by
      rw [session_next_put]
      unfold afterPut
      split <;> rfl
    rw [hdrv, hsess]
    exact ⟨h.inv.step _, h.fit.step _, h.onSb, h.count⟩
  | invalidate bread offset =>
    exact ⟨h.inv.step (.invalidate bread offset), h.fit.step (.invalidate bread offset), h.onSb, h.count⟩
  | read r =>
    have hmove := read_cases h r
    generalize session.next w (.read r) = w' at hmove
    cases hmove with
    | idle hs =>
      refine h.of_ino ?_
      rcases hs with ⟨rfl, -⟩ | ⟨-, rfl⟩
      · rfl
      · exact w.sess.advance_ino []
    | stay | move =>
      rw [deliver_drv, deliver_sess]
      exact h.of_ino (by simp)

end World

end Bldms
