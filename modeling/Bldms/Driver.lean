/-
  The driver's global state.

  Source: `include/rcu.h`, `rcu.c`, `include/device.h` and the globals of `bldms.c`.

  Three redundant pictures of the same device live in the state: the RCU list of valid blocks, the
  array of block metadata, and the bytes of the blocks themselves.  Superblocks are just numbers
  here, naming a device each, and `disk` gives the content of every device as the buffer cache shows
  it; whether a dirty buffer has reached the medium yet is invisible to the driver.

  The array holds POINTERS: a slot is an entry obtained from `kzalloc`, so it has an identity beside
  its content (`MdEntry.id`).  Here the content sits in the slot.  That is what the slot shows as long as
  no entry is in two slots or released while a slot refers to it, and so as long as no `put_data` fails to read the
  block it has chosen: `Slots` has the array as pointers into the memory of the entries, and shows that until
  then each call does there what it does here (`PtrDriver.Sound.step_eq`).
-/
import Bldms.Lib.BackwardInsert
import Bldms.Device

namespace Bldms

/-! ## Results -/

/-- The error numbers the driver returns.  `EPERM` is the bare `-1` of the system calls. -/
inductive Errno where
  | eperm | eio | e2big | ebadf | enomem | ebusy | enodev | einval | enodata | emsgsize
  | eaddrnotavail
  deriving DecidableEq, Repr

/-- The value of an error number. -/
def Errno.code : Errno → Int
  | .eperm => 1
  | .eio => 5
  | .e2big => 7
  | .ebadf => 9
  | .enomem => 12
  | .ebusy => 16
  | .enodev => 19
  | .einval => 22
  | .enodata => 61
  | .emsgsize => 90
  | .eaddrnotavail => 99

/-- What a kernel function comes back with: a result, an error number, or not at all — `oops` is a
    dereference of `NULL`. -/
inductive Ret (α : Type) where
  | ok (a : α)
  | err (e : Errno)
  | oops
  deriving DecidableEq, Repr

/-! ## The RCU list of valid blocks -/

/-- `rcu_elem`: a node of the list of valid blocks. -/
structure RcuElem where
  ndx : Nat
  nsec : Ktime
  validBytes : Nat
  deriving DecidableEq, Repr

/-- The signed value `nsec` is compared by. -/
def RcuElem.time (el : RcuElem) : Int := el.nsec.toInt

/-- `add_valid_block_in_order_secure`: fill a node and insert it by a backward scan, right after the
    first node met with a strictly smaller timestamp, or at the head of the list. -/
def addValidBlockInOrderSecure (l : List RcuElem) (ndx validBytes : Nat) (nsec : Ktime) :
    List RcuElem :=
  insertBack RcuElem.time ⟨ndx, nsec, validBytes⟩ l

/-- The scan of the list for the node of block `ndx`. -/
def findBlk (l : List RcuElem) (ndx : Nat) : Option RcuElem := l.find? fun el => el.ndx == ndx

/-- `list_del_rcu` of the node that `findBlk` finds. -/
def delBlk (l : List RcuElem) (ndx : Nat) : List RcuElem := l.eraseP fun el => el.ndx == ndx

/-- The indexes in the list are pairwise distinct. -/
def DistinctNdx (l : List RcuElem) : Prop := l.Pairwise fun x y => x.ndx ≠ y.ndx

theorem findBlk_eq_some {l : List RcuElem} (hd : DistinctNdx l) {el : RcuElem} {k : Nat} :
    findBlk l k = some el ↔ el ∈ l ∧ el.ndx = k := by
  constructor
  · intro h
    exact ⟨List.mem_of_find?_eq_some h, by simpa using List.find?_some h⟩
  · rintro ⟨hmem, rfl⟩
    induction l with
    | nil => nomatch hmem
    | cons x l ih =>
      obtain ⟨hx, hd'⟩ := List.pairwise_cons.mp hd
      rcases List.mem_cons.mp hmem with rfl | hmem
      · simp [findBlk]
      · have hne : (x.ndx == el.ndx) = false := by simpa using hx el hmem
        simp only [findBlk, List.find?_cons, hne]
        exact ih hd' hmem

theorem findBlk_eq_none {l : List RcuElem} {k : Nat} :
    findBlk l k = none ↔ ∀ el ∈ l, el.ndx ≠ k := by
  simp [findBlk]

theorem DistinctNdx.eq_of_ndx {l : List RcuElem} (hd : DistinctNdx l) {x y : RcuElem}
    (hx : x ∈ l) (hy : y ∈ l) (h : x.ndx = y.ndx) : x = y := by
  have h₁ := (findBlk_eq_some hd).mpr ⟨hx, h⟩
  rw [(findBlk_eq_some hd).mpr ⟨hy, rfl⟩] at h₁
  exact (Option.some.inj h₁).symm

theorem DistinctNdx.delBlk {l : List RcuElem} (hd : DistinctNdx l) (k : Nat) :
    DistinctNdx (delBlk l k) := List.Pairwise.sublist List.eraseP_sublist hd

theorem mem_delBlk {l : List RcuElem} (hd : DistinctNdx l) {x : RcuElem} {k : Nat} :
    x ∈ delBlk l k ↔ x ∈ l ∧ x.ndx ≠ k := by
  induction l with
  | nil => simp [delBlk]
  | cons a l ih =>
    obtain ⟨ha, hd'⟩ := List.pairwise_cons.mp hd
    rw [delBlk, List.eraseP_cons]
    by_cases hk : a.ndx = k
    · subst hk
      simp only [beq_self_eq_true, cond_true, List.mem_cons]
      constructor
      · intro hx; exact ⟨Or.inr hx, fun h => ha x hx h.symm⟩
      · rintro ⟨rfl | hx, hne⟩
        · exact absurd rfl hne
        · exact hx
    · have hb : (a.ndx == k) = false := by simpa using hk
      rw [hb, cond_false, List.mem_cons, List.mem_cons]
      have := ih hd'
      rw [delBlk] at this
      rw [this]
      constructor
      · rintro (rfl | ⟨hx, hne⟩)
        · exact ⟨Or.inl rfl, hk⟩
        · exact ⟨Or.inr hx, hne⟩
      · rintro ⟨rfl | hx, hne⟩
        · exact Or.inl rfl
        · exact Or.inr ⟨hx, hne⟩

theorem mem_addValidBlock {l : List RcuElem} {x : RcuElem} {ndx vb : Nat} {nsec : Ktime} :
    x ∈ addValidBlockInOrderSecure l ndx vb nsec ↔ x = ⟨ndx, nsec, vb⟩ ∨ x ∈ l := mem_insertBack

theorem DistinctNdx.addValidBlock {l : List RcuElem} (hd : DistinctNdx l) {ndx : Nat}
    (hnew : ∀ el ∈ l, el.ndx ≠ ndx) (vb : Nat) (nsec : Ktime) :
    DistinctNdx (addValidBlockInOrderSecure l ndx vb nsec) := by
  have hsym : ∀ {x y : RcuElem}, x.ndx ≠ y.ndx → y.ndx ≠ x.ndx := fun h => h.symm
  have hperm : (addValidBlockInOrderSecure l ndx vb nsec).Perm (⟨ndx, nsec, vb⟩ :: l) :=
    insertBack_perm _ l
  refine (hperm.pairwise_iff hsym).mpr ?_
  exact List.pairwise_cons.mpr ⟨fun el hel => (hnew el hel).symm, hd⟩

/-! ## The globals -/

/-- A slot of `metadata_array`: a pointer to an entry of its own, so identity and content. -/
structure MdEntry where
  id : Nat
  blk : BldmsBlock
  deriving DecidableEq, Repr

/-- The globals of the driver, and the devices. -/
structure Driver where
  bldmsMounted : Bool
  theDevSuperblock : Option Nat
  validBlkList : List RcuElem
  metadataArray : List MdEntry
  mdArraySize : Nat
  lastWrittenBlock : Nat
  disk : Nat → Device

namespace Driver

/-- A block of a device is overwritten (in its buffer, marked dirty). -/
def writeBlock (d : Driver) (sb n : Nat) (b : Block) : Nat → Device :=
  Function.update d.disk sb (Function.update (d.disk sb) n b)

@[simp] theorem writeBlock_self (d : Driver) (sb n : Nat) (b : Block) :
    d.writeBlock sb n b sb n = b := by
  simp [writeBlock]

theorem writeBlock_of_ne (d : Driver) (sb : Nat) {n k : Nat} (b : Block) (h : k ≠ n) :
    d.writeBlock sb n b sb k = d.disk sb k := by
  simp [writeBlock, Function.update_of_ne h]

/-- The message of a listed block, as the device holds it. -/
def message (d : Driver) (sb : Nat) (el : RcuElem) : List Byte :=
  (d.disk sb (el.ndx + 2)).slice 10 el.validBytes

@[simp] theorem length_message (d : Driver) (sb : Nat) (el : RcuElem) :
    (d.message sb el).length = el.validBytes := by
  simp [message]

end Driver

end Bldms
