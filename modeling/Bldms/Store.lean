/-
  What the system calls are for: an abstract store of messages.

  The store is a partial map from block index to message (`Store`), and `StoreStep` says, in its own
  terms, what each call may answer and how the map changes: a put picks ANY free index, or fails
  because there is none; a get reads a prefix; an invalidation forgets.

  The driver refines it.  `Driver.store` reads the map off the list and the device; `Inv.store_eq`
  says that the device alone determines it.  The work is in two frame lemmas, `store_commitPut` and
  `store_commitInvalidate`: each critical section changes the map at one index.  `syscalls_refine_store`
  lifts the step-by-step simulation to whole runs.
-/
import Bldms.Invariant

namespace Bldms

/-! ## The abstract store -/

/-- A partial map from block index to message. -/
abbrev Store := Nat → Option (List Byte)

/-- An operation on the store; indexes are signed, as the callers pass them. -/
inductive StoreOp where
  | put (m : List Byte)
  | get (k : Int) (size : Nat)
  | invalidate (k : Int)

/-- What an operation answers. -/
inductive StoreResult where
  | index (k : Nat)
  | bytes (b : List Byte)
  | done
  | fail (e : Errno)
  deriving DecidableEq, Repr

/-- The index `k` is one of `0, …, n - 1`. -/
def InRange (n : Nat) (k : Int) : Prop := 0 ≤ k ∧ k < n

/-- The abstract store with `n` slots: `StoreStep n σ op r σ'` when `op` may answer `r` in `σ` and
    leave `σ'`. -/
inductive StoreStep (n : Nat) : Store → StoreOp → StoreResult → Store → Prop
  | putOk {σ : Store} {m : List Byte} {k : Nat} : m.length ≤ 4086 → k < n → σ k = none →
      StoreStep n σ (.put m) (.index k) (Function.update σ k (some m))
  | putFull {σ : Store} {m : List Byte} : m.length ≤ 4086 → (∀ k, k < n → σ k ≠ none) →
      StoreStep n σ (.put m) (.fail .enomem) σ
  | putTooBig {σ : Store} {m : List Byte} : m.length > 4086 →
      StoreStep n σ (.put m) (.fail .e2big) σ
  | getOk {σ : Store} {k : Int} {size : Nat} {m : List Byte} : InRange n k →
      σ k.toNat = some m → StoreStep n σ (.get k size) (.bytes (m.take size)) σ
  | getNone {σ : Store} {k : Int} {size : Nat} : InRange n k → σ k.toNat = none →
      StoreStep n σ (.get k size) (.fail .enodata) σ
  | getOut {σ : Store} {k : Int} {size : Nat} : ¬ InRange n k →
      StoreStep n σ (.get k size) (.fail .e2big) σ
  | invalidateOk {σ : Store} {k : Int} {m : List Byte} : InRange n k → σ k.toNat = some m →
      StoreStep n σ (.invalidate k) .done (Function.update σ k.toNat none)
  | invalidateNone {σ : Store} {k : Int} : InRange n k → σ k.toNat = none →
      StoreStep n σ (.invalidate k) (.fail .enodata) σ
  | invalidateOut {σ : Store} {k : Int} : ¬ InRange n k →
      StoreStep n σ (.invalidate k) (.fail .e2big) σ

/-! ## Reading the store off the driver -/

/-- The operation a system call stands for. -/
def Call.op : Call → Option StoreOp
  | .put _ m => some (.put m)
  | .get _ offset size => some (.get offset.toInt size)
  | .invalidate _ offset => some (.invalidate offset.toInt)
  | .read _ _ _ => none

/-- The answer a reply stands for. -/
def Reply.result : Reply → Option StoreResult
  | .put (.ok k) _ => some (.index k)
  | .put (.err e) _ => some (.fail e)
  | .get (.ok b) => some (.bytes b)
  | .get (.err e) => some (.fail e)
  | .invalidate (.ok ()) => some .done
  | .invalidate (.err e) => some (.fail e)
  | _ => none

/-- The specification as a step between calls and replies. -/
def StoreSpec (n : Nat) (σ : Store) (c : Call) (r : Reply) (σ' : Store) : Prop :=
  ∃ op res, c.op = some op ∧ r.result = some res ∧ StoreStep n σ op res σ'

/-- The call is a system call, and its block reads, allocations and user copies succeed. -/
def SyscallSucceeds (_ : Driver) : Call → Prop
  | .put e _ => e.Succeeds
  | .get e _ _ => e.bread = true ∧ e.notCopied = 0
  | .invalidate bread _ => bread = true
  | .read _ _ _ => False

/-- The map a device holds: the payload of every block marked valid. -/
def imageStore (dev : Device) (n : Nat) : Store := fun k =>
  if k < n ∧ (dev (k + 2)).metadata.isValid = true
  then some ((dev (k + 2)).slice 10 (dev (k + 2)).metadata.validBytes.toNat) else none

namespace Driver

/-- The map the driver serves: the message of every listed block. -/
def store (d : Driver) (sb : Nat) : Store := fun k =>
  (findBlk d.validBlkList k).map (d.message sb)

end Driver

section

variable {sb n : Nat} {d : Driver}

theorem Inv.store_of_mem (hI : Inv sb n d) {el : RcuElem} (hel : el ∈ d.validBlkList) :
    d.store sb el.ndx = some (d.message sb el) := by
  rw [Driver.store, (findBlk_eq_some hI.distinct).mpr ⟨hel, rfl⟩, Option.map_some]

theorem store_of_free {k : Nat} (h : ∀ el ∈ d.validBlkList, el.ndx ≠ k) : d.store sb k = none := by
  rw [Driver.store, findBlk_eq_none.mpr h, Option.map_none]

theorem Inv.store_eq_some (hI : Inv sb n d) {k : Nat} {m : List Byte}
    (h : d.store sb k = some m) : ∃ el ∈ d.validBlkList, el.ndx = k ∧ d.message sb el = m := by
  rw [Driver.store, Option.map_eq_some_iff] at h
  obtain ⟨el, hel, hm⟩ := h
  obtain ⟨hmem, hndx⟩ := (findBlk_eq_some hI.distinct).mp hel
  exact ⟨el, hmem, hndx, hm⟩

/-- The map is the one the device holds. -/
theorem Inv.store_eq (hI : Inv sb n d) : d.store sb = imageStore (d.disk sb) n := by
  funext k
  rw [imageStore]
  split
  · rename_i h
    obtain ⟨p, hp⟩ := hI.entry h.1
    have hdev := hI.onDevice k p hp
    have hel : elemOf k p.blk ∈ d.validBlkList :=
      (hI.listed _).mpr ⟨p, hp, by rw [hdev]; exact h.2, rfl⟩
    have hst := hI.store_of_mem hel
    rw [hdev] at hst
    exact hst
  · rename_i h
    refine store_of_free fun el hel hk => h ?_
    obtain ⟨p, hp, hv, -⟩ := (hI.listed el).mp hel
    rw [hk] at hp
    exact ⟨hk ▸ hI.ndx_lt hel, hI.onDevice k p hp ▸ hv⟩

/-! ## Each critical section changes the map at one index -/

/-- A prepared put carries the whole message: the length fits its 15 bits, the buffer the payload. -/
theorem putPrepare_message {e : PutEnv} {m : List Byte} {p : Prepared}
    (hp : putPrepare e m d = .ok p) :
    p.newMetadata.blk.validBytes.toNat = m.length ∧ p.buffer.slice 10 m.length = m := by
  obtain ⟨hlen, -, -, hblk, hbuf⟩ := putPrepare_ok hp
  have hvb : p.newMetadata.blk.validBytes.toNat = m.length := by
    rw [hblk, BitVec.toNat_ofNat]
    omega
  refine ⟨hvb, ?_⟩
  rw [hbuf, Block.slice_ofMessage _ (Nat.le_refl _) hlen, List.take_length]

/-- With everything succeeding, the preparation fails only on messages that are too big. -/
theorem Inv.putPrepare_succeeds (hI : Inv sb n d) {e : PutEnv} (he : e.Succeeds) {m : List Byte}
    (hm : m.length ≤ 4086) : ∃ p, putPrepare e m d = .ok p := by
  obtain ⟨hb, hc, he', hmd, -⟩ := he
  obtain ⟨id, hid⟩ := Option.isSome_iff_exists.mp hmd
  rw [putPrepare, hI.mounted, if_neg (fun h => h rfl),
    if_neg (show ¬ m.length > 4096 - 10 by omega), hI.super]
  simp [hb, hc, he', hid]

/-- The cases of `put_data` in a mounted driver: it changes nothing, or adds the node of a block that no
    listed node has. -/
theorem Inv.putData_cases (hI : Inv sb n d) (e : PutEnv) (m : List Byte) :
    (Bldms.putData e m d).drv = d ∧ (∀ k, (Bldms.putData e m d).ret ≠ .ok k) ∧
      (∀ k, ¬ PutLands e m d k) ∨
    ∃ p k, PutLands e m d k ∧ putPrepare e m d = .ok p ∧ p.sb = sb ∧
      (∀ x ∈ d.validBlkList, x.ndx ≠ k) ∧
      (d.commitPut p k).validBlkList =
        addValidBlockInOrderSecure d.validBlkList k m.length e.now ∧
      Bldms.putData e m d = ⟨.ok k, d.commitPut p k, d.entryAt k⟩ := by
  have hcase := putCase_putData e m d
  generalize Bldms.putData e m d = out at hcase ⊢
  cases hcase with
  | refused hno hr =>
    refine .inl ⟨rfl, hr, ?_⟩
    intro k hl
    obtain ⟨p, hp⟩ := hI.putPrepare_succeeds hl.1 hl.2.1
    exact hno p hp
  | full hp hk => exact .inl ⟨rfl, by simp, fun k hl => absurd (hk.symm.trans hl.2.2) (by simp)⟩
  | unread hp hk hb =>
    exact .inl ⟨rfl, by simp, fun k hl => absurd (hb.symm.trans hl.1.2.2.2.2) (by simp)⟩
  | @stored p k hp hk hb =>
    obtain ⟨hlen, hsb, -, hblk, -⟩ := putPrepare_ok hp
    rw [hI.super, Option.some.injEq] at hsb
    have hlist : (d.commitPut p k).validBlkList =
        addValidBlockInOrderSecure d.validBlkList k m.length e.now := by
      dsimp only [Driver.commitPut]
      rw [(putPrepare_message hp).1, hblk]
    exact .inr ⟨p, k, ⟨Bldms.putPrepare_succeeds hp hb, hlen, hk⟩, hp, hsb.symm,
      (hI.findFree_some hk).2, hlist, rfl⟩

/-- A put leaves the messages of the other blocks where they were … -/
theorem message_commitPut_of_ne {p : Prepared} {k : Nat} (hsb : p.sb = sb) {el : RcuElem}
    (hne : el.ndx ≠ k) : (d.commitPut p k).message sb el = d.message sb el := by
  rw [Driver.message, Driver.message]
  dsimp only [Driver.commitPut]
  rw [hsb, Driver.writeBlock_of_ne d sb _ (by omega : el.ndx + 2 ≠ k + 2)]

/-- … and its block then holds the buffer. -/
theorem message_commitPut_self {p : Prepared} {k vb len : Nat} {nsec : Ktime} (hsb : p.sb = sb)
    (hvb : vb = len) : (d.commitPut p k).message sb ⟨k, nsec, vb⟩ = p.buffer.slice 10 len := by
  rw [Driver.message]
  dsimp only [Driver.commitPut]
  rw [hsb, Driver.writeBlock_self, hvb]

/-- An invalidation rewrites metadata only: no message changes. -/
theorem message_commitInvalidate (k : Nat) (el : RcuElem) :
    (d.commitInvalidate sb k (k + 2)).message sb el = d.message sb el := by
  rw [Driver.message, Driver.message]
  dsimp only [Driver.commitInvalidate]
  cases (d.clearValid k)[k]? with
  | none => rfl
  | some p =>
    dsimp only
    by_cases hx : el.ndx = k
    · rw [hx, Driver.writeBlock_self, Block.slice_writeMetadata _ _ _ (Nat.le_refl 10)]
    · rw [Driver.writeBlock_of_ne d sb _ (by omega : el.ndx + 2 ≠ k + 2)]

theorem Inv.store_commitPut (hI : Inv sb n d) {e : PutEnv} {m : List Byte} {p : Prepared} {k : Nat}
    (hp : putPrepare e m d = .ok p) (hk : d.findFree = some k) :
    (d.commitPut p k).store sb = Function.update (d.store sb) k (some m) := by
  obtain ⟨-, hsb, -, hblk, hbuf⟩ := putPrepare_ok hp
  obtain ⟨hvb, hslice⟩ := putPrepare_message hp
  rw [hI.super, Option.some.injEq, eq_comm] at hsb
  have hI' : Inv sb n (d.commitPut p k) :=
    hI.commitPut hk hsb (by rw [hblk]) (by rw [hbuf, Block.metadata_ofMessage])
  obtain ⟨-, hfree⟩ := hI.findFree_some hk
  funext j
  by_cases hj : j = k
  · rw [hj, Function.update_self]
    have hnew : (⟨k, p.newMetadata.blk.nsec, p.newMetadata.blk.validBytes.toNat⟩ : RcuElem) ∈
        (d.commitPut p k).validBlkList := mem_addValidBlock.mpr (.inl rfl)
    rw [hI'.store_of_mem hnew, message_commitPut_self hsb hvb, hslice]
  · -- any other index keeps its message, or stays free
    rw [Function.update_of_ne hj]
    cases hst : d.store sb j with
    | none =>
      apply store_of_free
      intro el hel hndx
      rcases mem_addValidBlock.mp hel with rfl | hel
      · exact hj hndx.symm
      · rw [← hndx, hI.store_of_mem hel] at hst
        nomatch hst
    | some m' =>
      obtain ⟨el, hel, hndx, hm⟩ := hI.store_eq_some hst
      have := hI'.store_of_mem (mem_addValidBlock.mpr (.inr hel))
      rw [hndx, message_commitPut_of_ne hsb (by omega), hm] at this
      exact this

theorem Inv.store_commitInvalidate (hI : Inv sb n d) {el : RcuElem} (hel : el ∈ d.validBlkList) :
    (d.commitInvalidate sb el.ndx (el.ndx + 2)).store sb =
      Function.update (d.store sb) el.ndx none := by
  have hI' := hI.commitInvalidate hel
  funext j
  by_cases hj : j = el.ndx
  · rw [hj, Function.update_self]
    exact store_of_free fun x hx => ((mem_delBlk hI.distinct).mp hx).2
  · rw [Function.update_of_ne hj]
    cases hst : d.store sb j with
    | none =>
      apply store_of_free
      intro x hx hndx
      rw [← hndx, hI.store_of_mem ((mem_delBlk hI.distinct).mp hx).1] at hst
      nomatch hst
    | some m' =>
      obtain ⟨x, hx, hndx, hm⟩ := hI.store_eq_some hst
      have := hI'.store_of_mem ((mem_delBlk hI.distinct).mpr ⟨hx, by omega⟩)
      rw [hndx, message_commitInvalidate, hm] at this
      exact this

/-! ## The signed index -/

/-- The comparison `offset >= md_array_size` rejects the negative indexes too: sign extension sends
    them above any array size. -/
theorem signExtend_lt_iff (offset : BitVec 32) (hn : n < 2 ^ 19) :
    (offset.signExtend 64).toNat < n ↔ InRange n offset.toInt := by
  have hlt := offset.isLt
  rw [BitVec.toNat_signExtend, BitVec.toNat_setWidth, BitVec.msb_eq_decide, InRange,
    BitVec.toInt_eq_toNat_cond]
  by_cases hmsb : 2 ^ 31 ≤ offset.toNat
  · -- negative: at least 2 ^ 64 - 2 ^ 31 as a `size_t`
    have hdec : decide (2 ^ (32 - 1) ≤ offset.toNat) = true := decide_eq_true hmsb
    rw [hdec, if_pos rfl, if_neg (by omega)]
    omega
  · have hdec : decide (2 ^ (32 - 1) ≤ offset.toNat) = false := decide_eq_false hmsb
    rw [hdec, if_neg Bool.false_ne_true, if_pos (by omega)]
    omega

theorem toNat_toInt_of_inRange {offset : BitVec 32} (h : InRange n offset.toInt) :
    offset.toInt.toNat = offset.toNat := by
  have hpos := h.1
  rw [BitVec.toInt_eq_toNat_cond] at hpos ⊢
  have hlt := offset.isLt
  split at hpos <;> split <;> omega

theorem inRange_of_toNat_lt {offset : BitVec 32} (hn : n < 2 ^ 19) (h : offset.toNat < n) :
    InRange n offset.toInt := by
  rw [InRange, BitVec.toInt_eq_toNat_cond, if_pos (by omega)]
  omega

/-- `get_data` of a listed block returns its message, cut to the size asked for. -/
theorem Inv.getData_of_mem (hI : Inv sb n d) {el : RcuElem} (hel : el ∈ d.validBlkList) {e : GetEnv}
    (he : e.bread = true ∧ e.notCopied = 0) {offset : BitVec 32} (hndx : el.ndx = offset.toNat)
    (size : Nat) : getData e offset size d = .ok ((d.message sb el).take size) := by
  have hn := hI.small
  have hlt := hI.ndx_lt hel
  have hrange := inRange_of_toNat_lt hn (hndx ▸ hlt)
  rw [getData, getLookup, hI.mounted, if_neg (fun h => h rfl), hI.size, hI.super,
    if_neg (Nat.not_le.mpr ((signExtend_lt_iff offset hn).mpr hrange)),
    (findBlk_eq_some hI.distinct).mpr ⟨hel, hndx⟩]
  -- the copy is `min size valid_bytes` long
  dsimp only [getCopy]
  rw [if_neg (fun h => h he.1), he.2, Nat.sub_zero, ← hndx,
    Nat.mod_eq_of_lt (by omega : el.ndx + 2 < 2 ^ 32), Driver.message]
  congr 1
  split
  · rename_i hgt
    rw [List.take_of_length_le (by rw [Block.length_slice]; omega)]
  · rename_i hle
    rw [Block.take_slice _ (by omega)]

/-! ## The simulation, call by call -/

theorem Inv.put_refines (hI : Inv sb n d) {e : PutEnv} (he : e.Succeeds) (m : List Byte) :
    StoreSpec n (d.store sb) (.put e m) (driver.step d (.put e m)).1
      ((driver.next d (.put e m)).store sb) := by
  show StoreSpec n (d.store sb) (.put e m) (.put (Bldms.putData e m d).ret (Bldms.putData e m d).freed)
    ((Bldms.putData e m d).drv.store sb)
  refine ⟨.put m, ?_⟩
  by_cases hm : m.length ≤ 4086
  · obtain ⟨p, hp⟩ := hI.putPrepare_succeeds he hm
    have hput : Bldms.putData e m d = putCritical p e.bread d := by rw [Bldms.putData, hp]
    rw [hput, putCritical, he.2.2.2.2]
    cases hk : d.findFree with
    | none =>
      refine ⟨.fail .enomem, rfl, rfl, .putFull hm ?_⟩
      intro k hkn
      obtain ⟨el, hel, rfl⟩ := hI.findFree_none hk hkn
      rw [hI.store_of_mem hel]
      exact Option.some_ne_none _
    | some k =>
      obtain ⟨hkn, hfree⟩ := hI.findFree_some hk
      refine ⟨.index k, rfl, rfl, ?_⟩
      show StoreStep n (d.store sb) (.put m) (.index k) ((d.commitPut p k).store sb)
      rw [hI.store_commitPut hp hk]
      exact .putOk hm hkn (store_of_free hfree)
  · have hput : Bldms.putData e m d = ⟨.err .e2big, d, []⟩ := by
      rw [Bldms.putData, putPrepare, hI.mounted, if_neg (fun h => h rfl),
        if_pos (show m.length > 4096 - 10 by omega)]
    rw [hput]
    exact ⟨.fail .e2big, rfl, rfl, .putTooBig (by omega)⟩

theorem Inv.get_refines (hI : Inv sb n d) {e : GetEnv} (he : e.bread = true ∧ e.notCopied = 0)
    (offset : BitVec 32) (size : Nat) :
    StoreSpec n (d.store sb) (.get e offset size) (.get (getData e offset size d)) (d.store sb) := by
  have hn := hI.small
  refine ⟨.get offset.toInt size, ?_⟩
  by_cases hr : InRange n offset.toInt
  · have hnat := toNat_toInt_of_inRange hr
    cases hfind : findBlk d.validBlkList offset.toNat with
    | none =>
      refine ⟨.fail .enodata, rfl, ?_, .getNone hr ?_⟩
      · rw [getData, getLookup, hI.mounted, if_neg (fun h => h rfl), hI.size, hI.super,
          if_neg (Nat.not_le.mpr ((signExtend_lt_iff offset hn).mpr hr)), hfind]
        rfl
      · rw [hnat, Driver.store, hfind, Option.map_none]
    | some el =>
      obtain ⟨hel, hndx⟩ := (findBlk_eq_some hI.distinct).mp hfind
      have hst := hI.store_of_mem hel
      refine ⟨.bytes ((d.message sb el).take size), rfl, ?_, .getOk hr (by rw [hnat, ← hndx, hst])⟩
      rw [hI.getData_of_mem hel he hndx]
      rfl
  · refine ⟨.fail .e2big, rfl, ?_, .getOut hr⟩
    rw [getData, getLookup, hI.mounted, if_neg (fun h => h rfl), hI.size,
      if_pos (Nat.le_of_not_lt fun h => hr ((signExtend_lt_iff offset hn).mp h))]
    rfl

theorem Inv.invalidate_refines (hI : Inv sb n d) (offset : BitVec 32) :
    StoreSpec n (d.store sb) (.invalidate true offset)
      (.invalidate (Bldms.invalidateData true offset d).1)
      ((Bldms.invalidateData true offset d).2.store sb) := by
  have hn := hI.small
  refine ⟨.invalidate offset.toInt, ?_⟩
  rw [Bldms.invalidateData, hI.mounted, if_neg (fun h => h rfl), hI.size, hI.super]
  by_cases hr : InRange n offset.toInt
  · have hnat := toNat_toInt_of_inRange hr
    rw [if_neg (Nat.not_le.mpr ((signExtend_lt_iff offset hn).mpr hr))]
    cases hfind : findBlk d.validBlkList offset.toNat with
    | none =>
      refine ⟨.fail .enodata, rfl, rfl, .invalidateNone hr ?_⟩
      rw [hnat, Driver.store, hfind, Option.map_none]
    | some el =>
      obtain ⟨hel, hndx⟩ := (findBlk_eq_some hI.distinct).mp hfind
      have hlt := hI.ndx_lt hel
      have hst := hI.store_of_mem hel
      refine ⟨.done, rfl, rfl, ?_⟩
      dsimp only [numMetadataBlks]
      rw [if_neg (fun h => h rfl), ← hndx, Nat.mod_eq_of_lt (by omega : el.ndx + 2 < 2 ^ 32)]
      rw [hI.store_commitInvalidate hel, hndx, ← hnat]
      exact .invalidateOk hr (by rw [hnat, ← hndx, hst])
  · rw [if_pos (Nat.le_of_not_lt fun h => hr ((signExtend_lt_iff offset hn).mp h))]
    exact ⟨.fail .e2big, rfl, rfl, .invalidateOut hr⟩

end

/-- **The simulation step**: every system call is a step of the abstract store. -/
theorem Inv.refines {sb n : Nat} {d : Driver} (hI : Inv sb n d) {c : Call}
    (hc : SyscallSucceeds d c) :
    StoreSpec n (d.store sb) c (driver.step d c).1 ((driver.next d c).store sb) := by
  cases c with
  | put e m => exact hI.put_refines hc m
  | get e offset size => exact hI.get_refines hc offset size
  | invalidate bread offset =>
    obtain rfl : bread = true := hc
    exact hI.invalidate_refines offset
  | read e len s => exact hc.elim

/-! ## Whole runs -/

/-- Every listed message fits the payload of its block. -/
def Driver.MessagesFit (d : Driver) : Prop := ∀ el ∈ d.validBlkList, el.validBytes ≤ 4086

instance (d : Driver) : Decidable d.MessagesFit :=
  inferInstanceAs (Decidable (∀ el ∈ d.validBlkList, el.validBytes ≤ 4086))

/-- Every valid block of an image has a length that fits. -/
def ImageFits (dev : Device) (n : Nat) : Prop :=
  ∀ k, k < n → (dev (k + 2)).metadata.isValid = true → (dev (k + 2)).metadata.validBytes.toNat ≤ 4086

theorem Inv.messagesFit {sb n : Nat} {d : Driver} (hI : Inv sb n d) (h : ImageFits (d.disk sb) n) :
    d.MessagesFit := by
  intro el hel
  obtain ⟨p, hp, hv, heq⟩ := (hI.listed el).mp hel
  have hdev := hI.onDevice el.ndx p hp
  rw [heq]
  show p.blk.validBytes.toNat ≤ 4086
  rw [hdev]
  exact h el.ndx (hI.ndx_lt hel) (hdev ▸ hv)

/-- A critical section of `put_data` only adds a message it has checked. -/
theorem Driver.MessagesFit.commitPut {d d' : Driver} (h : d.MessagesFit) {e : PutEnv} {m : List Byte}
    {p : Prepared} (hp : putPrepare e m d' = .ok p) (k : Nat) : (d.commitPut p k).MessagesFit := by
  intro el hel
  rcases mem_addValidBlock.mp hel with rfl | hel
  · have hlen := (putPrepare_ok hp).1
    show p.newMetadata.blk.validBytes.toNat ≤ 4086
    rw [(putPrepare_message hp).1]
    exact hlen
  · exact h el hel

theorem Driver.MessagesFit.commitInvalidate {d : Driver} (h : d.MessagesFit) (sb k target : Nat) :
    (d.commitInvalidate sb k target).MessagesFit :=
  fun el hel => h el (List.mem_of_mem_eraseP hel)

theorem Driver.MessagesFit.step {d : Driver} (h : d.MessagesFit) (c : Call) :
    (driver.next d c).MessagesFit := by
  cases c with
  | put e m =>
    rcases putData_cases e m d with ⟨heq, -⟩ | ⟨p, k, hp, -, heq⟩
    · rw [driver_next_put, heq]; exact h
    · rw [driver_next_put, heq]; exact h.commitPut hp k
  | get e offset size => exact h
  | invalidate bread offset =>
    rcases invalidateData_cases bread offset d with ⟨heq, -⟩ | ⟨sb, el, -, -, heq⟩
    · rw [driver_next_invalidate, heq]; exact h
    · rw [driver_next_invalidate, heq]; exact h.commitInvalidate sb _ _
  | read e len s => exact h

/-- **The system calls refine the abstract store.**  From any mounted image whose valid blocks have a
    length that fits, every sequence of system calls answers, call by call, as the abstract store does
    that starts with the image's messages; and the map the driver serves is the abstract one all along,
    over the indexes of the device and with messages of at most 4086 bytes. -/
theorem syscalls_refine_store (cfg : Config) (sb : Nat) (d : Driver) (hd : Mounted cfg sb d)
    (hfit : ImageFits (d.disk sb) (d.blockCount sb)) (calls : List Call)
    (hok : driver.AllSteps SyscallSucceeds d calls) :
    d.store sb = imageStore (d.disk sb) (d.blockCount sb) ∧
    Traces (StoreSpec (d.blockCount sb)) (d.store sb) calls (driver.replies d calls)
      ((driver.final d calls).store sb) ∧
    ∀ t ∈ driver.states d calls, ∀ k m, t.store sb k = some m →
      k < d.blockCount sb ∧ m.length ≤ 4086 := by
  have hI := mounted_inv hd
  refine ⟨hI.store_eq, ?_, ?_⟩
  · refine Traces.of_system (fun t => t.store sb) (fun t c _ h => h.step c) ?_ hok hI
    intro t c hc h
    exact h.refines hc
  · have hinv := hok.invariant (P := fun t => Inv sb (d.blockCount sb) t ∧ t.MessagesFit)
      (fun t c _ h => ⟨h.1.step c, h.2.step c⟩) ⟨hI, hI.messagesFit hfit⟩
    intro t ht k m hkm
    obtain ⟨el, hel, rfl, rfl⟩ := (hinv t ht).1.store_eq_some hkm
    rw [Driver.length_message]
    exact ⟨(hinv t ht).1.ndx_lt hel, (hinv t ht).2 el hel⟩

theorem imageFits_freshDriver (n m : Nat) : ImageFits ((freshDriver n).disk 0) m := by
  intro k _ hv
  have hmd : ((freshDriver n).disk 0 (k + 2)).metadata = ⟨0, false, 0⟩ := metadata_sizedImage (n * 4096) k
  rw [hmd] at hv
  nomatch hv

/-- Two messages fill a device of two blocks; a third is refused; index -1 is out of range. -/
theorem syscalls_refine_store_two_blocks :
    let calls : List Call := [.put (.allOk 2 20) [1, 2], .put (.allOk 3 10) [3],
      .put (.allOk 4 30) [4], .get ⟨true, 0⟩ 0 10, .get ⟨true, 0⟩ (-1) 10, .invalidate true 0,
      .get ⟨true, 0⟩ 0 10]
    (driver.replies (freshDriver 2) calls).map Reply.result = [some (.index 0), some (.index 1),
      some (.fail .enomem), some (.bytes [1, 2]), some (.fail .e2big), some .done,
      some (.fail .enodata)] ∧
    Traces (StoreSpec ((freshDriver 2).blockCount 0)) ((freshDriver 2).store 0) calls
      (driver.replies (freshDriver 2) calls) ((driver.final (freshDriver 2) calls).store 0) := by
  refine ⟨by decide, (syscalls_refine_store .standard 0 (freshDriver 2)
    (mounted_freshDriver .standard (by decide)) (imageFits_freshDriver 2 _) _ ?_).2.1⟩
  have hput : ∀ id now, (PutEnv.allOk id now).Succeeds := fun _ _ => ⟨rfl, rfl, rfl, rfl, rfl⟩
  exact ⟨hput _ _, hput _ _, hput _ _, ⟨rfl, rfl⟩, ⟨rfl, rfl⟩, rfl, ⟨rfl, rfl⟩, trivial⟩

end Bldms
