/-
  How even the use of blocks is, in numbers.

  `even_use` says that a block is not rewritten while another one is free all the time.  Messages that stay valid for
  long keep their blocks out of use, so the numbers of writes may drift apart; but by nothing else.  Every `put_data`
  that stores scans on from where the last one has stored, so the scans of a run, put end to end, go round the
  device (`scanned_eq`).  A visit of the scan to a block is a write, or finds the block valid and goes past it:
  counted together, writes and passes of any two blocks differ by at most one (`even_wear`).

  As there, the slots are pointers, and the puts of the run read the blocks they choose.  The counting itself is done
  by value (`Inv.scanned_eq`, `Inv.count_scanned`), and `Sound.scanned_eq` and its siblings carry it over.
-/
import Bldms.CircularChoice
import Bldms.WearLevelling
import Bldms.Lib.RoundRobin

namespace Bldms

/-! ## What the scans of a run look at -/

namespace Driver

/-- The blocks that the scan of a call looks at, if the call is a `put_data` that stores its message. -/
def scannedBy (d : Driver) : Call → List Nat
  | .put e m =>
    match (Bldms.putData e m d).ret, d.freeScan with
    | .ok _, .ok r => r.examined
    | _, _ => []
  | .get _ _ _ | .invalidate _ _ | .read _ _ _ => []

/-- … and those of a run, end to end. -/
def scanned (d : Driver) : List Call → List Nat
  | [] => []
  | call :: calls => d.scannedBy call ++ (driver.next d call).scanned calls

/-- How often the scans of a run find block `k` valid, and go past it. -/
def passes (d : Driver) : List Call → Nat → Nat
  | [], _ => 0
  | call :: calls, k =>
    ((d.scannedBy call).countP fun b => b == k && !d.invalidAt b) + (driver.next d call).passes calls k

end Driver

/-- The reply says that the message is in block `k`. -/
def Reply.storedIn (k : Nat) : Reply → Bool
  | .put (.ok j) _ => j == k
  | _ => false

/-- How often the run stores a message in block `k`. -/
def Driver.stores (d : Driver) (calls : List Call) (k : Nat) : Nat :=
  (driver.replies d calls).countP (Reply.storedIn k)

/-! ## One call -/

section

variable {sb n : Nat} {d : Driver}

/-- A `put_data` that returns no block counts for nothing. -/
theorem scannedBy_of_not_ok {e : PutEnv} {m : List Byte} (hret : ∀ k, (putData e m d).ret ≠ .ok k) :
    d.scannedBy (.put e m) = [] := by
  rw [Driver.scannedBy]
  split
  · rename_i k _ hk _
    exact absurd hk (hret k)
  · rfl

/-- A `put_data` that stores in block `k` has looked at what the search along the circle looks at. -/
theorem Inv.scannedBy_of_ok (hI : Inv sb n d) {e : PutEnv} {m : List Byte} {k : Nat}
    (hret : (Bldms.putData e m d).ret = .ok k) (hk : k < n) :
    d.scannedBy (.put e m) = lookedAt d.invalidAt (circular d.lastWrittenBlock n) := by
  have hscan := freeScan_eq (d := d) (by rw [hI.length, hI.size]) (by rw [hI.size]; have := hI.small; omega)
    (fun _ => by rw [hI.size]; exact hI.last (by omega))
  rw [Driver.scannedBy, hret, hscan, hI.size]

/-- **The step lemma**: the scan of a call goes on from the cursor, and leaves the cursor where it stops. -/
theorem Inv.scannedBy_eq (hI : Inv sb n d) (call : Call) :
    d.scannedBy call = roundRobin d.lastWrittenBlock n (d.scannedBy call).length ∧
    (driver.next d call).lastWrittenBlock % n = (d.lastWrittenBlock + (d.scannedBy call).length) % n := by
  cases call with
  | get e offset size => exact ⟨rfl, rfl⟩
  | read e len s => exact ⟨rfl, rfl⟩
  | invalidate bread offset =>
    refine ⟨rfl, congrArg (· % n) ?_⟩
    rw [driver_next_invalidate]
    rcases hI.invalidateData_cases bread offset with ⟨heq, -⟩ | ⟨el, -, -, heq⟩
    · rw [heq]
      rfl
    · rw [heq]
      rfl
  | put e m =>
    rw [driver_next_put]
    rcases Bldms.putData_cases e m d with ⟨heq, hret⟩ | ⟨p, k, -, hl, heq⟩
    · rw [scannedBy_of_not_ok hret, heq]
      exact ⟨rfl, rfl⟩
    · have hk := (hI.findFree_some hl.2.2).1
      have hfind := hl.2.2
      rw [hI.findFree_eq] at hfind
      rw [hI.scannedBy_of_ok (by rw [heq]) hk, heq]
      obtain ⟨hwalk, hstop⟩ := lookedAt_roundRobin hfind
      refine ⟨hwalk, ?_⟩
      rw [hstop]
      exact Nat.mod_eq_of_lt hk

/-- A visit of the scan is a write, or goes past. -/
theorem Inv.count_scannedBy (hI : Inv sb n d) (call : Call) (k : Nat) :
    (d.scannedBy call).count k = (if Reply.storedIn k (driver.step d call).1 then 1 else 0) +
      (d.scannedBy call).countP fun b => b == k && !d.invalidAt b := by
  cases call with
  | get e offset size => rfl
  | read e len s => rfl
  | invalidate bread offset => rfl
  | put e m =>
    show _ = (if Reply.storedIn k (.put (Bldms.putData e m d).ret (Bldms.putData e m d).freed) then 1 else 0) + _
    rcases Bldms.putData_cases e m d with ⟨-, hret⟩ | ⟨p, j, -, hl, heq⟩
    · rw [scannedBy_of_not_ok hret, Reply.storedIn, if_neg Bool.false_ne_true]
      · rfl
      · rintro j _ hput
        exact hret j (Reply.put.inj hput).1
    · have hfind := hl.2.2
      rw [hI.findFree_eq] at hfind
      rw [hI.scannedBy_of_ok (by rw [heq]) (hI.findFree_some hl.2.2).1, heq]
      -- valid blocks, and the free one the scan has stopped at
      obtain ⟨pre, hpre, hvalid, hfree⟩ := lookedAt_of_find? hfind
      have hpast : pre.countP (fun b => b == k && !d.invalidAt b) = pre.count k :=
        List.countP_congr fun b hb => by simp [hvalid b hb]
      rw [hpre, List.count_append, List.countP_append, hpast, List.count_singleton, List.countP_singleton, hfree,
        Bool.not_true, Bool.and_false, if_neg Bool.false_ne_true, Reply.storedIn]
      omega

/-! ## Runs -/

/-- **The scans of a run, end to end, go round the device.** -/
theorem Inv.scanned_eq (hI : Inv sb n d) (calls : List Call) :
    d.scanned calls = roundRobin d.lastWrittenBlock n (d.scanned calls).length := by
  induction calls generalizing d with
  | nil => rfl
  | cons call calls ih =>
    obtain ⟨hwalk, hcursor⟩ := hI.scannedBy_eq call
    have hrest := ih (hI.step call)
    rw [← roundRobin_mod, hcursor, roundRobin_mod] at hrest
    rw [Driver.scanned, List.length_append, ← roundRobin_append, ← hwalk, ← hrest]

/-- The visits of a run. -/
theorem Inv.count_scanned (hI : Inv sb n d) (calls : List Call) (k : Nat) :
    (d.scanned calls).count k = d.stores calls k + d.passes calls k := by
  induction calls generalizing d with
  | nil => rfl
  | cons call calls ih =>
    have hrest := ih (hI.step call)
    rw [Driver.stores] at hrest ⊢
    rw [Driver.scanned, Driver.passes, List.count_append, hI.count_scannedBy call k, hrest, System.replies,
      List.countP_cons]
    omega

end

/-! ## On the pointers -/

namespace PtrDriver

/-- The blocks that the scans of a run look at, end to end. -/
def scanned (P : PtrDriver) : List PtrEvent → List Nat
  | [] => []
  | .call c :: es => P.view.scannedBy c ++ (ptrDriver.next P (.call c)).scanned es
  | .scribble id md :: es => (ptrDriver.next P (.scribble id md)).scanned es

/-- How often they find block `k` valid, and go past it. -/
def passes (P : PtrDriver) : List PtrEvent → Nat → Nat
  | [], _ => 0
  | .call c :: es, k =>
    ((P.view.scannedBy c).countP fun b => b == k && !P.view.invalidAt b) + (ptrDriver.next P (.call c)).passes es k
  | .scribble id md :: es, k => (ptrDriver.next P (.scribble id md)).passes es k

/-- How often the run stores a message in block `k`. -/
def stores (P : PtrDriver) (es : List PtrEvent) (k : Nat) : Nat :=
  ((ptrDriver.replies P es).filterMap id).countP (Reply.storedIn k)

theorem Sound.scanned_eq {sb n : Nat} {P : PtrDriver} (h : P.Sound sb n) {es : List PtrEvent}
    (hs : ptrDriver.AllSteps Sane P es) : P.scanned es = P.view.scanned (calls es) := by
  induction es generalizing P with
  | nil => rfl
  | cons ev es ih =>
    have ih := ih (h.next hs.1) hs.2
    rw [h.view_next hs.1] at ih
    rw [calls_cons]
    cases ev with
    | call c => exact congrArg (P.view.scannedBy c ++ ·) ih
    | scribble id md => exact ih

theorem Sound.passes_eq {sb n : Nat} {P : PtrDriver} (h : P.Sound sb n) {es : List PtrEvent}
    (hs : ptrDriver.AllSteps Sane P es) (k : Nat) : P.passes es k = P.view.passes (calls es) k := by
  induction es generalizing P with
  | nil => rfl
  | cons ev es ih =>
    have ih := ih (h.next hs.1) hs.2
    rw [h.view_next hs.1] at ih
    rw [calls_cons]
    cases ev with
    | call c => exact congrArg (((P.view.scannedBy c).countP fun b => b == k && !P.view.invalidAt b) + ·) ih
    | scribble id md => exact ih

theorem Sound.stores_eq {sb n : Nat} {P : PtrDriver} (h : P.Sound sb n) {es : List PtrEvent}
    (hs : ptrDriver.AllSteps Sane P es) (k : Nat) : P.stores es k = P.view.stores (calls es) k := by
  rw [stores, h.view_replies hs]
  rfl

end PtrDriver

/-- **Even wear.**  Take a run from a mount whose puts all read the blocks they choose, and any part of it, from a
    state `P` on.  The blocks that its puts look at before they store, one after the other, go round the device; so, of
    any two blocks, each has been written or gone past as often as the other, but for one time.  A block that is free
    whenever the scan comes to it is written as often as any, but for one time. -/
theorem even_wear (cfg : Config) (sb : Nat) (d : Driver) (hd : Mounted cfg sb d) (hentries : d.entries.Nodup)
    (before es : List PtrEvent) (hs : ptrDriver.AllSteps PtrDriver.Sane d.pointers (before ++ es)) (P : PtrDriver)
    (hP : ptrDriver.final d.pointers before = P) :
    P.scanned es = roundRobin P.view.lastWrittenBlock (d.blockCount sb) (P.scanned es).length ∧
    ∀ b c, b < d.blockCount sb → c < d.blockCount sb →
      P.stores es b + P.passes es b ≤ P.stores es c + P.passes es c + 1 ∧
      (P.passes es c = 0 → P.stores es b ≤ P.stores es c + 1) := by
  obtain ⟨hbefore, hafter⟩ := System.AllSteps.append_iff.mp hs
  rw [hP] at hafter
  have hsound : P.Sound sb (d.blockCount sb) := hP ▸ (hd.sound hentries).final hbefore
  have hwalk := hsound.inv.scanned_eq (PtrDriver.calls es)
  rw [← hsound.scanned_eq hafter] at hwalk
  refine ⟨hwalk, ?_⟩
  intro b c hb hc
  have hle := count_roundRobin_le P.view.lastWrittenBlock (P.scanned es).length hb hc
  -- by value, a visit is a write or goes past
  rw [← hwalk, hsound.scanned_eq hafter, hsound.inv.count_scanned, hsound.inv.count_scanned, ← hsound.stores_eq hafter,
    ← hsound.stores_eq hafter, ← hsound.passes_eq hafter, ← hsound.passes_eq hafter] at hle
  exact ⟨hle, fun hfree => by omega⟩

/-- Three blocks, the message in block 0 stays: the two others are written in turn, and the scan goes past block 0. -/
theorem even_wear_three_blocks :
    let es : List PtrEvent := [.call (.put (.allOk 3 1) [1]), .call (.put (.allOk 4 2) [2]), .call (.invalidate true 1),
      .call (.put (.allOk 5 3) [3]), .call (.invalidate true 2), .call (.put (.allOk 6 4) [4])]
    let P := (freshDriver 3).pointers
    P.scanned es = [0, 1, 2, 0, 1] ∧ P.stores es 0 = 1 ∧ P.stores es 1 ≤ P.stores es 0 + P.passes es 0 + 1 := by
  intro es P
  have hs : ptrDriver.AllSteps PtrDriver.Sane (freshDriver 3).pointers es :=
    ⟨sane_put rfl (.inr (by decide)) rfl, sane_put rfl (.inr (by decide)) rfl, ⟨trivial, trivial⟩,
      sane_put rfl (.inr (by decide)) rfl, ⟨trivial, trivial⟩, sane_put rfl (.inr (by decide)) rfl, trivial⟩
  have hwear := (even_wear .standard 0 (freshDriver 3) (mounted_freshDriver .standard (by decide)) (by decide) [] es hs P
    rfl).2 1 0 (by decide) (by decide)
  exact ⟨by decide, by decide, (Nat.le_add_right _ _).trans hwear.1⟩

end Bldms
