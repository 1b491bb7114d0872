/-
  The programs that try the driver out, run to their ends.

  Source: `user/test.c`, `user/user.c`.

  A process has the driver to itself, after calls of others that have left no entry in two slots (`Intact`).  What its
  calls get from outside differs from call to call, and as long as none of them fails on that account a call is a step
  on the map of the messages: the `sys…_spec` below say which, and the programs are verified against these alone.
  Each phase of a `main` has its triple, from the map it finds to the map it leaves; in the loops that put messages
  the invariant counts the free blocks (`freeBlocks_put`).
  * `test_exit_status` — `test.c` passes on every device that has a block, whatever is on it;
  * `user_exit_status` — `user.c` passes exactly if 20 blocks are free.
-/
import Mathlib
import Bldms.Slots
import Bldms.Userland

open Std.Do
set_option mvcgen.warning false

namespace Bldms

/-! ## Processes -/

/-- The driver, and what the calls of the process get from outside, one after the other. -/
structure Machine where
  drv : Driver
  outside : Nat → Outside
  calls : Nat

/-- How a process ends before its `main` returns. -/
inductive Exit where
  /-- `exit(code)`, or the `return` of an error from `main` -/
  | status (code : Int)
  /-- the kernel has killed it -/
  | killed
  /-- a loop went on for longer than it was watched -/
  | running
  deriving DecidableEq, Repr

abbrev Process := EStateM Exit Machine

/-- What a triple says about a run. -/
theorem run_cases {α : Type} {p : Process α} {P : Machine → Prop} {Q : α → Machine → Prop} {E : Exit → Machine → Prop}
    (h : ⦃fun s => ⌜P s⌝⦄ p ⦃post⟨fun a s => ⌜Q a s⌝, fun e s => ⌜E e s⌝⟩⦄) {s : Machine} (hs : P s) :
    (∃ a s', p.run s = .ok a s' ∧ Q a s') ∨ ∃ e s', p.run s = .error e s' ∧ E e s' := by
  have hwp := h s hs
  cases hrun : p.run s with
  | ok a s' =>
    refine .inl ⟨a, s', rfl, ?_⟩
    simpa [wp, PredTrans.apply, hrun] using hwp
  | error e s' =>
    refine .inr ⟨e, s', rfl, ?_⟩
    simpa [wp, PredTrans.apply, hrun] using hwp

/-- What the process gets from outside in this call. -/
def nextOutside : Process Outside := modifyGet fun s => (s.outside s.calls, { s with calls := s.calls + 1 })

/-- Back from a system call, with a result or with `errno`. -/
def sysret {α : Type} (r : Ret α) : Process (Except Errno α) :=
  match r with
  | .ok a => pure (.ok a)
  | .err e => pure (.error e)
  | .oops => throw .killed

def sysPut (m : List Byte) : Process (Except Errno Nat) := do
  let o ← nextOutside
  let s ← get
  let out := putData o.put m s.drv
  set { s with drv := out.drv }
  sysret out.ret

def sysGet (offset : BitVec 32) (size : Nat) : Process (Except Errno (List Byte)) := do
  let o ← nextOutside
  let s ← get
  sysret (getData o.get offset size s.drv)

def sysInvalidate (offset : BitVec 32) : Process (Except Errno Unit) := do
  let o ← nextOutside
  let s ← get
  let out := invalidateData o.bread offset s.drv
  set { s with drv := out.2 }
  sysret out.1

/-- The inode of the file and what `open` puts into `private_data`, or no descriptor. -/
def sysOpen (mode : AccMode) (device : Nat) : Process (Option (Inode × Option Session)) := do
  let o ← nextOutside
  let s ← get
  match ← sysret (bldmsLookup o.iget o.bread "the_file" device s.drv) with
  | .ok (some ino) =>
    match ← sysret (bldmsOpen o.alloc mode ino s.drv) with
    | .ok session => return some (ino, session)
    | .error _ => return none
  | _ => return none

def sysRead (len : Nat) (session : Session) : Process (Int × Session) := do
  let o ← nextOutside
  let s ← get
  let out := vfsRead o.read len session s.drv
  return (out.ret, out.sess)

/-- `exit(code)` if something has gone wrong. -/
def exitIf (code : Int) (wrong : Prop) [Decidable wrong] : Process Unit :=
  if wrong then throw (.status code) else pure ()

/-- `ret` of a call that returns a number. -/
def retOf : Except Errno Nat → Int
  | .ok k => k
  | .error _ => -1

/-! ## What a call answers -/

/-- The driver serves the map, and nothing outside will fail; `d₀` is where it started. -/
structure Machine.Holds (d₀ : Driver) (sb n : Nat) (s : Machine) (σ : Store) : Prop where
  inv : Inv sb n s.drv
  outside : ∀ i, (s.outside i).Succeeds
  store : s.drv.store sb = σ
  inode : s.drv.disk sb 1 = d₀.disk sb 1
  fit : d₀.MessagesFit → s.drv.MessagesFit

theorem Machine.Holds.call {d₀ : Driver} {sb n : Nat} {s : Machine} {σ : Store} (h : s.Holds d₀ sb n σ) (c : Call)
    (calls : Nat) {σ' : Store} (hstore : (driver.next s.drv c).store sb = σ') :
    Machine.Holds d₀ sb n ⟨driver.next s.drv c, s.outside, calls⟩ σ' :=
  ⟨h.inv.step c, h.outside, hstore, (h.inv.inode_step c).trans h.inode, fun hfit => (h.fit hfit).step c⟩

/-- A call that leaves the driver alone. -/
theorem Machine.Holds.look {d₀ : Driver} {sb n : Nat} {s : Machine} {σ : Store} (h : s.Holds d₀ sb n σ) (calls : Nat) :
    Machine.Holds d₀ sb n ⟨s.drv, s.outside, calls⟩ σ := ⟨h.inv, h.outside, h.store, h.inode, h.fit⟩

section

variable (d₀ : Driver) (sb n : Nat) (σ : Store)

/-- A message that fits goes to a block that has none, or there is no such block. -/
theorem sysPut_spec (m : List Byte) (hm : m.length ≤ 4086) :
    ⦃fun s => ⌜s.Holds d₀ sb n σ⌝⦄ sysPut m
    ⦃post⟨fun r s => ⌜(∃ k, r = .ok k ∧ k < n ∧ σ k = none ∧ s.Holds d₀ sb n (Function.update σ k (some m))) ∨
        r = .error .enomem ∧ (∀ k < n, σ k ≠ none) ∧ s.Holds d₀ sb n σ⌝,
      fun _ _ => ⌜False⌝⟩⦄ := by
  mvcgen [sysPut, nextOutside]
  rename_i s h _ out
  have hput := h.inv.put_result (h.outside s.calls).put hm
  rw [h.store] at hput
  rcases hput with ⟨k, hk, hret, hnone, hstore⟩ | ⟨hret, hfull, hstore⟩
  · rw [show out.ret = .ok k from hret]
    mvcgen [sysret]
    exact .inl ⟨k, rfl, hk, hnone, h.call (.put _ m) (s.calls + 1) hstore⟩
  · rw [show out.ret = .err .enomem from hret]
    mvcgen [sysret]
    exact .inr ⟨trivial, hfull, h.call (.put _ m) (s.calls + 1) hstore⟩

/-- One that does not fit is refused. -/
theorem sysPut_tooBig_spec (m : List Byte) (hm : 4086 < m.length) :
    ⦃fun s => ⌜s.Holds d₀ sb n σ⌝⦄ sysPut m
    ⦃post⟨fun r s => ⌜r = .error .e2big ∧ s.Holds d₀ sb n σ⌝, fun _ _ => ⌜False⌝⟩⦄ := by
  mvcgen [sysPut, nextOutside]
  rename_i s h _ out
  obtain ⟨hret, hdrv⟩ := h.inv.put_too_big (s.outside s.calls).put hm
  rw [show out.ret = .err .e2big from hret, show out.drv = s.drv from hdrv]
  mvcgen [sysret]
  exact ⟨trivial, h.look (s.calls + 1)⟩

/-- The message of a block that has one, else `ENODATA`. -/
theorem sysGet_spec (k size : Nat) (hk : k < n) :
    ⦃fun s => ⌜s.Holds d₀ sb n σ⌝⦄ sysGet (BitVec.ofNat 32 k) size
    ⦃post⟨fun r s => ⌜r = (σ k).elim (.error .enodata) (fun m => .ok (m.take size)) ∧ s.Holds d₀ sb n σ⌝,
      fun _ _ => ⌜False⌝⟩⦄ := by
  mvcgen [sysGet, nextOutside]
  rename_i s h t
  rw [show getData t.1.get _ size t.2.drv = _ from h.inv.get_result (h.outside s.calls).get hk size, h.store]
  cases hσ : σ k with
  | some m =>
    rw [Option.elim_some]
    mvcgen [sysret]
    exact ⟨rfl, h.look (s.calls + 1)⟩
  | none =>
    rw [Option.elim_none]
    mvcgen [sysret]
    exact ⟨rfl, h.look (s.calls + 1)⟩

/-- The message of the block goes, if there is one. -/
theorem sysInvalidate_spec (k : Nat) (hk : k < n) :
    ⦃fun s => ⌜s.Holds d₀ sb n σ⌝⦄ sysInvalidate (BitVec.ofNat 32 k)
    ⦃post⟨fun r s => ⌜r = (if σ k = none then .error .enodata else .ok ()) ∧
        s.Holds d₀ sb n (Function.update σ k none)⌝,
      fun _ _ => ⌜False⌝⟩⦄ := by
  mvcgen [sysInvalidate, nextOutside]
  rename_i s h t out
  have hout : out = invalidateData true (BitVec.ofNat 32 k) s.drv := by rw [← (h.outside s.calls).bread]
  have hinvalidate := h.inv.invalidate_result hk
  rw [h.store] at hinvalidate
  rcases hinvalidate with ⟨m, hm, hret, hstore⟩ | ⟨hnone, hret, hstore⟩
  · rw [hout, hret]
    mvcgen [sysret]
    exact ⟨(if_neg (hm ▸ Option.some_ne_none m)).symm, h.call (.invalidate true _) (s.calls + 1) hstore⟩
  · rw [hout, hret]
    mvcgen [sysret]
    refine ⟨(if_pos hnone).symm, h.call (.invalidate true _) (s.calls + 1) (hstore.trans ?_)⟩
    exact (Function.update_eq_self_iff.mpr hnone.symm).symm

/-- The file is there, with as many blocks as the device. -/
theorem sysOpen_spec (mode : AccMode) (hmode : mode = .rdonly ∨ mode = .rdwr) (hn : d₀.blockCount sb = n) :
    ⦃fun s => ⌜s.Holds d₀ sb n σ⌝⦄ sysOpen mode sb
    ⦃post⟨fun r s => ⌜∃ ino : Inode, r = some (ino, some ⟨0, 0, ino⟩) ∧ ino.numBlocks = n ∧ ino.iSb = sb ∧
        s.Holds d₀ sb n σ⌝, fun _ _ => ⌜False⌝⟩⦄ := by
  mvcgen [sysOpen, nextOutside]
  rename_i s h t
  have ho := h.outside s.calls
  have hlookup : bldmsLookup t.1.iget t.1.bread "the_file" sb t.2.drv =
      .ok (some ⟨inodeFileSize (d₀.disk sb 1), sb⟩) := by
    rw [show t.1.iget = true from ho.iget, show t.1.bread = true from ho.bread, bldmsLookup, if_neg (fun h => h rfl),
      if_neg (fun h => h rfl), if_neg (fun h => h rfl), ← h.inode]
  have hopen : ∀ ino, bldmsOpen t.1.alloc mode ino t.2.drv = .ok (some ⟨0, 0, ino⟩) := fun ino => by
    rw [bldmsOpen, show t.2.drv.bldmsMounted = true from h.inv.mounted, if_neg (fun h => h rfl),
      if_pos hmode, show t.1.alloc = true from ho.alloc, if_neg (fun h => h rfl)]
  rw [hlookup]
  mvcgen [sysret, hopen]
  exact ⟨_, rfl, hn, rfl, h.look (s.calls + 1)⟩

/-- A read reports no error, and unless it returns 0 there is less to read afterwards. -/
theorem sysRead_spec (hfit : d₀.MessagesFit) (session : Session) (hnum : session.ino.numBlocks = n)
    (hsb : session.ino.iSb = sb) (len : Nat) (hlen : 1 ≤ len) (left : Nat) :
    ⦃fun s => ⌜s.Holds d₀ sb n σ ∧ session.Inside s.drv ∧ session.toRead s.drv < left + 1⌝⦄ sysRead len session
    ⦃post⟨fun r s => ⌜s.Holds d₀ sb n σ ∧ 0 ≤ r.1 ∧ r.2.ino = session.ino ∧ r.2.Inside s.drv ∧
        (r.1 ≠ 0 → r.2.toRead s.drv < left)⌝,
      fun _ _ => ⌜False⌝⟩⦄ := by
  mvcgen [sysRead, nextOutside]
  rename_i s h t out
  obtain ⟨hs, hin, hleft⟩ := h
  have hread : Readable sb n session s.drv := ⟨hs.inv, hs.fit hfit, hsb, hnum⟩
  have hok : Request.Ok ⟨(s.outside s.calls).read, len⟩ := ⟨(hs.outside _).read, hlen⟩
  obtain ⟨hret, hin', hless⟩ := hread.progress hin hok
  exact ⟨hs.look (s.calls + 1), hret, (vfsRead_cases hread _ _).ino, hin', fun hne =>
    Nat.lt_of_lt_of_le (hless hne) (Nat.le_of_lt_succ hleft)⟩

/-- No message goes from a block that the device does not have. -/
theorem sysInvalidate_out_spec (offset : BitVec 32) (hout : ¬ InRange n offset.toInt) :
    ⦃fun s => ⌜s.Holds d₀ sb n σ⌝⦄ sysInvalidate offset
    ⦃post⟨fun r _ => ⌜r = .error .e2big⌝, fun _ _ => ⌜False⌝⟩⦄ := by
  mvcgen [sysInvalidate, nextOutside]
  rename_i s h t out
  have heq : out = invalidateData true offset s.drv := by rw [← (h.outside s.calls).bread]
  rw [heq, h.inv.invalidate_out hout]
  mvcgen [sysret]

end

/-! ## The map -/

/-- The blocks without a message. -/
def freeBlocks (n : Nat) (σ : Store) : Finset Nat := (Finset.range n).filter fun k => σ k = none

theorem mem_freeBlocks {n : Nat} {σ : Store} {k : Nat} : k ∈ freeBlocks n σ ↔ k < n ∧ σ k = none := by
  rw [freeBlocks, Finset.mem_filter, Finset.mem_range]

/-- A put fills one of them. -/
theorem freeBlocks_put {n : Nat} {σ : Store} {k : Nat} (hk : k < n) (hnone : σ k = none) (m : List Byte) :
    (freeBlocks n (Function.update σ k (some m))).card + 1 = (freeBlocks n σ).card := by
  have herase : freeBlocks n (Function.update σ k (some m)) = (freeBlocks n σ).erase k := by
    ext j
    rw [Finset.mem_erase, mem_freeBlocks, mem_freeBlocks, Function.update_apply]
    by_cases hjk : j = k
    · rw [if_pos hjk]
      exact iff_of_false (fun h => Option.some_ne_none m h.2) fun h => h.1 hjk
    · rw [if_neg hjk, and_iff_right hjk]
  rw [herase]
  exact Finset.card_erase_add_one (mem_freeBlocks.mpr ⟨hk, hnone⟩)

/-- No block is without one. -/
theorem freeBlocks_full {n : Nat} {σ : Store} : (freeBlocks n σ).card = 0 ↔ ∀ k < n, σ k ≠ none := by
  rw [Finset.card_eq_zero, Finset.eq_empty_iff_forall_notMem]
  exact forall_congr' fun k => by rw [mem_freeBlocks, not_and]

/-- The counter of a `for` loop, from the passes before. -/
theorem counter_eq {count step cur : Nat} {pre suff : List Nat}
    (h : List.range' 0 count step = pre ++ cur :: suff) : pre.length < count ∧ cur = pre.length * step := by
  obtain ⟨k, -, rfl, hrest⟩ := List.range'_eq_append_iff.mp h
  obtain ⟨hcur, hlt, -⟩ := List.range'_eq_cons_iff.mp hrest.symm
  rw [List.length_range']
  omega

theorem counter_lt {n cur : Nat} {pre suff : List Nat} (h : [:n].toList = pre ++ cur :: suff) :
    pre.length < n ∧ cur = pre.length := by
  have heq := counter_eq h
  rwa [Nat.mul_one, Nat.div_one] at heq

/-! ## `test.c` -/

namespace TestProgram

/-- Invalidate all blocks, in order to make the device empty. -/
def cleanUp (numBlocks : Nat) : Process Unit := do
  for i in [0:numBlocks] do
    let ret ← sysInvalidate (BitVec.ofNat 32 i)
    exitIf 1 (¬ ret.isOk ∧ ret ≠ .error .enodata)

/-- Fill the device with messages. -/
def fill (q : Quotes) (numBlocks : Nat) : Process Unit := do
  for i in [0:numBlocks] do
    let ret ← sysPut (q.message i)
    exitIf 1 (¬ ret.isOk)

/-- Another put: `ENOMEM`. -/
def putToFull (q : Quotes) : Process Unit := do
  let ret ← sysPut (q.message 10)
  exitIf 1 (ret ≠ .error .enomem)

/-- `num_blocks - 1`, a `size_t`. -/
def lastBlock (numBlocks : Nat) : BitVec 64 := BitVec.ofNat 64 numBlocks - 1

/-- Create space for another message. -/
def makeSpace (numBlocks : Nat) : Process Unit := do
  let ret ← sysInvalidate ((lastBlock numBlocks).setWidth 32)
  exitIf 1 (¬ ret.isOk)

/-- A message of a whole block. -/
def tooBig : List Byte := List.replicate (defaultBlockSize - 1) 65 ++ [0]

/-- The put of it: `E2BIG`. -/
def putTooBig : Process Unit := do
  let ret ← sysPut tooBig
  exitIf 1 (ret ≠ .error .e2big)

/-- A shorter message. -/
def shorter : List Byte := List.replicate 50 66 ++ [0]

/-- The put of it: to the block invalidated before. -/
def putShorter (numBlocks : Nat) : Process Int := do
  let ret ← sysPut shorter
  exitIf 1 (BitVec.ofInt 64 (retOf ret) ≠ lastBlock numBlocks)
  return retOf ret

/-- Read that message. -/
def readBack (ndx : Int) : Process Unit := do
  let ret ← sysGet (BitVec.ofInt 32 ndx) maxMsgSize
  exitIf 1 (retOf (ret.map List.length) ≠ 51)

/-- Invalidate the block and read it again: `ENODATA`. -/
def readInvalidated (numBlocks : Nat) : Process Unit := do
  let ret ← sysInvalidate ((lastBlock numBlocks).setWidth 32)
  exitIf 1 (¬ ret.isOk)
  let ret ← sysGet ((lastBlock numBlocks).setWidth 32) maxMsgSize
  exitIf 1 (ret ≠ .error .enodata)


def main (q : Quotes) (device : Nat) : Process Int := do
  let some (ino, _) ← sysOpen .rdwr device | throw (.status 1)
  let numBlocks := ino.numBlocks
  cleanUp numBlocks
  fill q numBlocks
  putToFull q
  makeSpace numBlocks
  putTooBig
  let ret ← putShorter numBlocks
  readBack ret
  readInvalidated numBlocks
  return 0

/-- The last block, as an argument of a system call. -/
theorem lastBlock_eq {n : Nat} (hn : n < 2 ^ 19) (hpos : 0 < n) :
    (lastBlock n).setWidth 32 = BitVec.ofNat 32 (n - 1) := by
  apply BitVec.eq_of_toNat_eq
  rw [lastBlock, BitVec.toNat_setWidth, BitVec.toNat_sub, BitVec.toNat_ofNat, BitVec.toNat_ofNat]
  show (2 ^ 64 - 1 + n % 2 ^ 64) % 2 ^ 64 % 2 ^ 32 = (n - 1) % 2 ^ 32
  omega

/-- A device without blocks has no last one. -/
theorem lastBlock_zero : ¬ InRange 0 ((lastBlock 0).setWidth 32).toInt := by
  rintro ⟨h, -⟩
  exact absurd h (by decide)

/-- The result of a put to the last block is the number the program expects. -/
theorem ofInt_eq_lastBlock {n : Nat} (hn : n < 2 ^ 19) (hpos : 0 < n) :
    BitVec.ofInt 64 ((n - 1 : Nat) : Int) = lastBlock n := by
  apply BitVec.eq_of_toNat_eq
  rw [BitVec.ofInt_natCast, lastBlock, BitVec.toNat_sub, BitVec.toNat_ofNat, BitVec.toNat_ofNat]
  show (n - 1) % 2 ^ 64 = (2 ^ 64 - 1 + n % 2 ^ 64) % 2 ^ 64
  omega

section

variable (d₀ : Driver) (sb n : Nat) (q : Quotes)

theorem cleanUp_spec : ⦃fun s => ⌜∃ σ, s.Holds d₀ sb n σ⌝⦄ cleanUp n
    ⦃post⟨fun _ s => ⌜∃ σ, s.Holds d₀ sb n σ ∧ ∀ k < n, σ k = none⌝, fun _ _ => ⌜False⌝⟩⦄ := by
  mvcgen [cleanUp] invariants
  -- the blocks up to `i` are empty
  · post⟨fun p s => ⌜∃ σ, s.Holds d₀ sb n σ ∧ ∀ k < p.1.pos, σ k = none⌝, fun _ _ => ⌜False⌝⟩
  case vc1 pre cur suff hcur _ _ h =>
    obtain ⟨σ, hs, hdone⟩ := h
    obtain ⟨hi, rfl⟩ := counter_lt hcur
    rw [List.Cursor.pos_mk] at hdone
    have hspec := sysInvalidate_spec d₀ sb n σ _ hi
    mvcgen [hspec, exitIf]
    case vc2 hr hwrong =>
      obtain ⟨rfl, -⟩ := hr
      split at hwrong
      · exact hwrong.2 rfl
      · exact hwrong.1 rfl
    case vc3 hr hwrong =>
      refine ⟨_, hr.2, fun k hk => ?_⟩
      rw [List.Cursor.pos_mk, List.length_append, List.length_singleton] at hk
      rw [Function.update_apply]
      split
      · rfl
      · exact hdone k (by omega)
  case vc2 h => exact h.imp fun σ hs => ⟨hs, fun k hk => absurd hk (Nat.not_lt_zero k)⟩
  case vc3 h =>
    obtain ⟨σ, hs, hdone⟩ := h
    refine ⟨σ, hs, fun k hk => hdone k ?_⟩
    simpa using hk

/-- The first blocks hold messages of the program. -/
def Filled (q : Quotes) (m : Nat) (σ : Store) : Prop := ∀ k < m, ∃ i, σ k = some (q.message i)

theorem fill_spec : ⦃fun s => ⌜∃ σ, s.Holds d₀ sb n σ ∧ ∀ k < n, σ k = none⌝⦄ fill q n
    ⦃post⟨fun _ s => ⌜∃ σ, s.Holds d₀ sb n σ ∧ Filled q n σ⌝, fun _ _ => ⌜False⌝⟩⦄ := by
  mvcgen [fill] invariants
  -- there is a free block for every pass to come
  · post⟨fun p s => ⌜∃ σ, s.Holds d₀ sb n σ ∧ (freeBlocks n σ).card + p.1.pos = n ∧
      ∀ k < n, σ k = none ∨ ∃ i, σ k = some (q.message i)⌝, fun _ _ => ⌜False⌝⟩
  case vc1 pre cur suff hcur _ _ h =>
    obtain ⟨σ, hs, hcard, hmsg⟩ := h
    obtain ⟨hi, rfl⟩ := counter_lt hcur
    rw [List.Cursor.pos_mk] at hcard
    have hroom : ¬ ∀ k < n, σ k ≠ none := by
      rw [← freeBlocks_full]
      omega
    have hspec := sysPut_spec d₀ sb n σ (q.message pre.length) (q.message_fits _)
    mvcgen [hspec, exitIf]
    case vc2 hr hwrong =>
      rcases hr with ⟨k, rfl, -⟩ | ⟨-, hfull, -⟩
      · exact hwrong rfl
      · exact hroom hfull
    case vc3 hr _ =>
      rcases hr with ⟨k, rfl, hk, hnone, hs⟩ | ⟨-, hfull, -⟩
      · have hput := freeBlocks_put hk hnone (q.message pre.length)
        refine ⟨_, hs, ?_, fun j hj => ?_⟩
        · rw [List.Cursor.pos_mk, List.length_append, List.length_singleton]
          omega
        · rw [Function.update_apply]
          split
          · exact .inr ⟨_, rfl⟩
          · exact hmsg j hj
      · exact absurd hfull hroom
  case vc2 h =>
    obtain ⟨σ, hs, hempty⟩ := h
    have hall : freeBlocks n σ = Finset.range n := Finset.filter_true_of_mem fun k hk => hempty k (Finset.mem_range.mp hk)
    refine ⟨σ, hs, ?_, fun k hk => .inl (hempty k hk)⟩
    rw [hall, Finset.card_range]
    rfl
  case vc3 h =>
    obtain ⟨σ, hs, hcard, hmsg⟩ := h
    have hfull : (freeBlocks n σ).card = 0 := by simpa using hcard
    exact ⟨σ, hs, fun k hk => (hmsg k hk).resolve_left (freeBlocks_full.mp hfull k hk)⟩

theorem putToFull_spec : ⦃fun s => ⌜∃ σ, s.Holds d₀ sb n σ ∧ Filled q n σ⌝⦄ putToFull q
    ⦃post⟨fun _ s => ⌜∃ σ, s.Holds d₀ sb n σ ∧ Filled q n σ⌝, fun _ _ => ⌜False⌝⟩⦄ := by
  mvcgen [putToFull]
  rename_i h
  obtain ⟨σ, hs, hfilled⟩ := h
  have hspec := sysPut_spec d₀ sb n σ (q.message 10) (q.message_fits _)
  have hfull : ∀ k < n, σ k ≠ none := fun k hk => by
    obtain ⟨i, hi⟩ := hfilled k hk
    exact hi ▸ Option.some_ne_none _
  mvcgen [hspec, exitIf]
  case vc2 hwrong _ hr =>
    rcases hr with ⟨k, -, hk, hnone, -⟩ | ⟨rfl, -⟩
    · exact hfull k hk hnone
    · exact hwrong rfl
  case vc3 _ hr =>
    rcases hr with ⟨k, -, hk, hnone, -⟩ | ⟨-, -, hs⟩
    · exact absurd hnone (hfull k hk)
    · exact ⟨σ, hs, hfilled⟩

/-- All blocks but the last hold messages of the program, and the last has none. -/
def Space (q : Quotes) (n : Nat) (σ : Store) : Prop := Filled q (n - 1) σ ∧ σ (n - 1) = none

theorem makeSpace_spec : ⦃fun s => ⌜∃ σ, s.Holds d₀ sb n σ ∧ Filled q n σ⌝⦄ makeSpace n
    ⦃post⟨fun _ s => ⌜0 < n ∧ ∃ σ, s.Holds d₀ sb n σ ∧ Space q n σ⌝, fun e _ => ⌜n = 0 ∧ e = .status 1⌝⟩⦄ := by
  mvcgen [makeSpace]
  rename_i s h
  obtain ⟨σ, hs, hfilled⟩ := h
  rcases Nat.eq_zero_or_pos n with rfl | hpos
  · have hspec := sysInvalidate_out_spec d₀ sb 0 σ _ lastBlock_zero
    mvcgen [hspec, exitIf]
    case vc2 hok _ hr => exact absurd (hr ▸ Bool.false_ne_true : ¬ _ = true) hok
  · have hspec := sysInvalidate_spec d₀ sb n σ (n - 1) (by omega)
    rw [← lastBlock_eq hs.inv.small hpos] at hspec
    obtain ⟨i, hi⟩ := hfilled (n - 1) (by omega)
    mvcgen [hspec, exitIf]
    case vc2 hwrong _ hr =>
      rw [hr.1, hi] at hwrong
      exact absurd rfl hwrong
    case vc3 hr =>
      refine ⟨hpos, _, hr.2, fun k hk => ?_, Function.update_self _ _ _⟩
      rw [Function.update_of_ne (by omega)]
      exact hfilled k (by omega)

theorem putTooBig_spec : ⦃fun s => ⌜∃ σ, s.Holds d₀ sb n σ ∧ Space q n σ⌝⦄ putTooBig
    ⦃post⟨fun _ s => ⌜∃ σ, s.Holds d₀ sb n σ ∧ Space q n σ⌝, fun _ _ => ⌜False⌝⟩⦄ := by
  mvcgen [putTooBig]
  rename_i s h
  obtain ⟨σ, hs, hspace⟩ := h
  have hspec := sysPut_tooBig_spec d₀ sb n σ tooBig (by
    rw [tooBig, List.length_append, List.length_replicate]
    decide)
  mvcgen [hspec, exitIf]
  case vc2 hwrong _ hr => exact hwrong hr.1
  case vc3 _ hr => exact ⟨σ, hr.2, hspace⟩

theorem putShorter_spec (hpos : 0 < n) : ⦃fun s => ⌜∃ σ, s.Holds d₀ sb n σ ∧ Space q n σ⌝⦄ putShorter n
    ⦃post⟨fun r s => ⌜r = (n - 1 : Nat) ∧ ∃ σ, s.Holds d₀ sb n σ ∧ Filled q (n - 1) σ ∧ σ (n - 1) = some shorter⌝,
      fun _ _ => ⌜False⌝⟩⦄ := by
  mvcgen [putShorter]
  rename_i s h
  obtain ⟨σ, hs, hfilled, hlast⟩ := h
  have honly : ∀ k, k < n → σ k = none → k = n - 1 := fun k hk hnone => by
    by_contra hne
    obtain ⟨i, hi⟩ := hfilled k (by omega)
    exact Option.some_ne_none _ (hi.symm.trans hnone)
  have hspec := sysPut_spec d₀ sb n σ shorter (by decide)
  mvcgen [hspec, exitIf]
  case vc2 hr hwrong =>
    rcases hr with ⟨k, rfl, hk, hnone, -⟩ | ⟨-, hfull, -⟩
    · obtain rfl := honly k hk hnone
      exact hwrong (ofInt_eq_lastBlock hs.inv.small hpos)
    · exact hfull (n - 1) (by omega) hlast
  case vc3 hr _ =>
    rcases hr with ⟨k, rfl, hk, hnone, hs⟩ | ⟨-, hfull, -⟩
    · obtain rfl := honly k hk hnone
      refine ⟨rfl, _, hs, fun j hj => ?_, Function.update_self _ _ _⟩
      rw [Function.update_of_ne (by omega)]
      exact hfilled j hj
    · exact absurd hlast (hfull (n - 1) (by omega))

theorem readBack_spec (hpos : 0 < n) :
    ⦃fun s => ⌜∃ σ, s.Holds d₀ sb n σ ∧ Filled q (n - 1) σ ∧ σ (n - 1) = some shorter⌝⦄ readBack ((n - 1 : Nat) : Int)
    ⦃post⟨fun r s => ⌜∃ σ, s.Holds d₀ sb n σ ∧ Filled q (n - 1) σ ∧ σ (n - 1) = some shorter⌝,
      fun _ _ => ⌜False⌝⟩⦄ := by
  mvcgen [readBack]
  rename_i s h
  obtain ⟨σ, hs, hfilled, hlast⟩ := h
  have hspec := sysGet_spec d₀ sb n σ (n - 1) maxMsgSize (by omega)
  rw [BitVec.ofInt_natCast]
  mvcgen [hspec, exitIf]
  case vc2 hwrong _ hr =>
    rw [hr.1, hlast] at hwrong
    exact absurd (by decide) hwrong
  case vc3 _ hr => exact ⟨σ, hr.2, hfilled, hlast⟩

theorem readInvalidated_spec (hpos : 0 < n) :
    ⦃fun s => ⌜∃ σ, s.Holds d₀ sb n σ ∧ Filled q (n - 1) σ ∧ σ (n - 1) = some shorter⌝⦄ readInvalidated n
    ⦃post⟨fun _ s => ⌜∃ σ, s.Holds d₀ sb n σ ∧ Space q n σ⌝, fun _ _ => ⌜False⌝⟩⦄ := by
  mvcgen [readInvalidated]
  rename_i s h
  obtain ⟨σ, hs, hfilled, hlast⟩ := h
  have hinvalidate := sysInvalidate_spec d₀ sb n σ (n - 1) (by omega)
  have hget := sysGet_spec d₀ sb n (Function.update σ (n - 1) none) (n - 1) maxMsgSize (by omega)
  rw [← lastBlock_eq hs.inv.small hpos] at hinvalidate hget
  mvcgen [hinvalidate, hget, exitIf]
  case vc2 hr hwrong =>
    rw [hr.1, hlast] at hwrong
    exact absurd rfl hwrong
  case vc3 hr _ => exact hr.2
  case vc4 hwrong _ hr =>
    rw [hr.1, Function.update_self] at hwrong
    exact absurd rfl hwrong
  case vc5 hr =>
    refine ⟨_, hr.2, fun k hk => ?_, Function.update_self _ _ _⟩
    rw [Function.update_of_ne (by omega)]
    exact hfilled k hk

theorem main_spec (hn : d₀.blockCount sb = n) : ⦃fun s => ⌜∃ σ, s.Holds d₀ sb n σ⌝⦄ main q sb
    ⦃post⟨fun r s => ⌜r = 0 ∧ 0 < n ∧ ∃ σ, s.Holds d₀ sb n σ ∧ Space q n σ⌝,
      fun e _ => ⌜n = 0 ∧ e = .status 1⌝⟩⦄ := by
  mvcgen [main]
  rename_i h
  obtain ⟨σ, hs⟩ := h
  have hopen := sysOpen_spec d₀ sb n σ .rdwr (.inr rfl) hn
  mvcgen [hopen]
  case vc2 ino _ _ _ hfd =>
    obtain ⟨ino', hino, hnum, -, hs⟩ := hfd
    obtain ⟨rfl, -⟩ := Prod.mk.inj (Option.some.inj hino)
    rw [hnum]
    have hclean := cleanUp_spec d₀ sb n
    have hfill := fill_spec d₀ sb n q
    have hfull := putToFull_spec d₀ sb n q
    have hspace := makeSpace_spec d₀ sb n q
    have hbig := putTooBig_spec d₀ sb n q
    have hshort := putShorter_spec d₀ sb n q
    mvcgen [hclean, hfill, hfull, hspace, hbig, hshort]
    case vc1 => exact ⟨σ, hs⟩
    case vc5 h => exact h.2
    case vc6 h _ _ _ => exact h.1
    case vc8 h _ _ _ _ _ hr =>
      obtain ⟨rfl, hshorter⟩ := hr
      have hback := readBack_spec d₀ sb n q h.1
      have hlast := readInvalidated_spec d₀ sb n q h.1
      mvcgen [hback, hlast]
      rename_i hend
      exact ⟨trivial, h.1, hend⟩
  case vc3 hno _ _ hfd =>
    obtain ⟨ino', hino, -⟩ := hfd
    exact (hno _ _ hino).elim

end

end TestProgram

/-- **`test.c` passes on every device with a block, and on no other.**  Run by itself on a mounted device whose earlier
    puts have all read the blocks they chose, with whatever timestamps and no failure of the kernel, it returns 0 if
    the device has a block, having left the last block empty and a message of its own in each other one; on a device
    without blocks it ends with status 1. -/
theorem test_exit_status (cfg : Config) (sb : Nat) (d : Driver) (hd : Intact cfg sb d) (q : Quotes)
    (outside : Nat → Outside) (hout : ∀ i, (outside i).Succeeds) :
    (0 < d.blockCount sb → ∃ s, (TestProgram.main q sb).run ⟨d, outside, 0⟩ = .ok 0 s ∧
      (∀ k < d.blockCount sb - 1, ∃ i, s.drv.store sb k = some (q.message i)) ∧
      s.drv.store sb (d.blockCount sb - 1) = none) ∧
    (d.blockCount sb = 0 → ∃ s, (TestProgram.main q sb).run ⟨d, outside, 0⟩ = .error (.status 1) s) := by
  have hstart : ∃ σ, Machine.Holds d sb (d.blockCount sb) ⟨d, outside, 0⟩ σ :=
    ⟨_, hd.reachable.inv, hout, rfl, rfl, id⟩
  rcases run_cases (TestProgram.main_spec d sb (d.blockCount sb) q rfl) hstart with
    ⟨a, s, hrun, rfl, hpos, σ, hs, hfilled, hlast⟩ | ⟨e, s, hrun, hzero, rfl⟩
  · constructor
    · intro _
      refine ⟨s, hrun, ?_⟩
      rw [hs.store]
      exact ⟨hfilled, hlast⟩
    · intro hzero
      exact absurd hpos (by omega)
  · constructor
    · intro hpos
      exact absurd hpos (by omega)
    · intro _
      exact ⟨s, hrun⟩

/-- On three empty blocks it passes. -/
theorem test_exit_status_three_blocks :
    ∃ s, (TestProgram.main sampleQuotes 0).run ⟨freshDriver 3, fun i => .allOk (3 + i) (i + 1), 0⟩ = .ok 0 s := by
  obtain ⟨s, hrun, -⟩ := (test_exit_status .standard 0 (freshDriver 3)
    (intact_freshDriver .standard (by decide)) sampleQuotes (fun i => .allOk (3 + i) (i + 1))
    fun i => Outside.allOk_succeeds _ _).1 (by decide +kernel)
  exact ⟨s, hrun⟩

/-! ## `user.c` -/

namespace UserProgram

/-- The block size less what the program takes for the metadata: a timestamp, a length and a flag. -/
abbrev maxMsgSize : Nat := defaultBlockSize - (8 + 4 + 1)

/-- Put all messages; `block_ids`. -/
def putMessages (q : Quotes) : Process (Nat → Int) := do
  let mut blockIds : Nat → Int := fun i => if i = 0 then -1 else 0
  for i in [0:numMessages] do
    let ret ← sysPut (q.message i)
    exitIf (-1) (¬ ret.isOk)
    blockIds := Function.update blockIds i (retOf ret)
  return blockIds

/-- Invalidate the blocks of the 1st, the 3rd and so on. -/
def invalidateSome (blockIds : Nat → Int) : Process Unit := do
  for i in [0:numMessages:2] do
    let ret ← sysInvalidate (BitVec.ofInt 32 (blockIds i))
    exitIf (-1) (¬ ret.isOk)

/-- Get the 4th message, and the 1st: `ENODATA`. -/
def getMessages (blockIds : Nat → Int) : Process Unit := do
  let ret ← sysGet (BitVec.ofInt 32 (blockIds 3)) maxMsgSize
  exitIf (-1) (¬ ret.isOk)
  let ret ← sysGet (BitVec.ofInt 32 (blockIds 0)) maxMsgSize
  exitIf 1 ret.isOk
  exitIf (-1) (ret ≠ .error .enodata)

/-- `while((ret = read(…)) != 0)`, watched for so many reads. -/
def readAll : Nat → Session → Process Unit
  | 0, _ => throw .running
  | fuel + 1, session => do
    let (ret, session) ← sysRead maxMsgSize session
    if ret ≠ 0 then
      exitIf 1 (ret < 0)
      readAll fuel session

def main (q : Quotes) (device fuel : Nat) : Process Int := do
  let blockIds ← putMessages q
  invalidateSome blockIds
  getMessages blockIds
  let some (_, some session) ← sysOpen .rdonly device | throw (.status 1)
  readAll fuel session
  return 0

/-- The first puts of the program have gone to blocks that were free, each to one of its own. -/
structure PutSoFar (q : Quotes) (n : Nat) (σ₀ : Store) (i : Nat) (blockIds : Nat → Int) (blk : Nat → Nat) (σ : Store) :
    Prop where
  ids : ∀ j < i, blockIds j = blk j
  lt : ∀ j < i, blk j < n
  free : ∀ j < i, σ₀ (blk j) = none
  message : ∀ j < i, σ (blk j) = some (q.message j)
  others : ∀ k, (∀ j < i, blk j ≠ k) → σ k = σ₀ k
  distinct : ∀ j < i, ∀ j' < i, blk j = blk j' → j = j'
  room : (freeBlocks n σ).card + i = (freeBlocks n σ₀).card

theorem PutSoFar.step {q : Quotes} {n : Nat} {σ₀ σ : Store} {i k : Nat} {blockIds : Nat → Int} {blk : Nat → Nat}
    (h : PutSoFar q n σ₀ i blockIds blk σ) (hk : k < n) (hnone : σ k = none) :
    PutSoFar q n σ₀ (i + 1) (Function.update blockIds i k) (Function.update blk i k)
      (Function.update σ k (some (q.message i))) := by
  have hnew : ∀ j < i, blk j ≠ k := fun j hj heq => by
    rw [← heq, h.message j hj] at hnone
    exact Option.some_ne_none _ hnone
  have hold : ∀ j < i, Function.update blk i k j = blk j := fun j hj => Function.update_of_ne (by omega) _ _
  have hcases : ∀ {P : Nat → Prop}, (∀ j < i, P j) → P i → ∀ j < i + 1, P j := fun hlt heq j hj => by
    rcases Nat.lt_succ_iff_lt_or_eq.mp hj with hj | rfl
    · exact hlt j hj
    · exact heq
  constructor
  · refine hcases (fun j hj => ?_) ?_
    · rw [Function.update_of_ne (by omega), hold j hj, h.ids j hj]
    · rw [Function.update_self, Function.update_self]
  · refine hcases (fun j hj => ?_) ?_
    · rw [hold j hj]
      exact h.lt j hj
    · rwa [Function.update_self]
  · refine hcases (fun j hj => ?_) ?_
    · rw [hold j hj]
      exact h.free j hj
    · rw [Function.update_self, ← h.others k hnew, hnone]
  · refine hcases (fun j hj => ?_) ?_
    · rw [hold j hj, Function.update_of_ne (hnew j hj), h.message j hj]
    · rw [Function.update_self, Function.update_self]
  · intro k' hk'
    have hne : k' ≠ k := fun heq => hk' i (Nat.lt_succ_self i) (by rw [Function.update_self, heq])
    rw [Function.update_of_ne hne]
    exact h.others k' fun j hj heq => hk' j (by omega) ((hold j hj).trans heq)
  · refine hcases (fun j hj => hcases (fun j' hj' heq => ?_) fun heq => ?_) (hcases (fun j' hj' heq => ?_) fun _ => rfl)
    · rw [hold j hj, hold j' hj'] at heq
      exact h.distinct j hj j' hj' heq
    · rw [hold j hj, Function.update_self] at heq
      exact absurd heq (hnew j hj)
    · rw [hold j' hj', Function.update_self] at heq
      exact absurd heq.symm (hnew j' hj')
  · have hput := freeBlocks_put hk hnone (q.message i)
    have hroom := h.room
    omega

section

variable (d₀ : Driver) (sb n : Nat) (q : Quotes) (σ₀ : Store)

theorem putMessages_spec : ⦃fun s => ⌜s.Holds d₀ sb n σ₀⌝⦄ putMessages q
    ⦃post⟨fun ids s => ⌜∃ blk σ, PutSoFar q n σ₀ numMessages ids blk σ ∧ s.Holds d₀ sb n σ⌝,
      fun e _ => ⌜e = .status (-1) ∧ (freeBlocks n σ₀).card < numMessages⌝⟩⦄ := by
  mvcgen [putMessages] invariants
  · post⟨fun p s => ⌜∃ blk σ, PutSoFar q n σ₀ p.1.pos p.2 blk σ ∧ s.Holds d₀ sb n σ⌝,
      fun e _ => ⌜e = .status (-1) ∧ (freeBlocks n σ₀).card < numMessages⌝⟩
  case vc1 pre cur suff hcur ids _ h =>
    obtain ⟨blk, σ, hput, hs⟩ := h
    obtain ⟨hi, rfl⟩ := counter_lt hcur
    have hspec := sysPut_spec d₀ sb n σ (q.message pre.length) (q.message_fits _)
    mvcgen [hspec, exitIf]
    case vc2 hr hwrong =>
      rcases hr with ⟨k, rfl, -⟩ | ⟨-, hfull, -⟩
      · exact absurd rfl hwrong
      · have hroom := hput.room
        rw [freeBlocks_full.mpr hfull, Nat.zero_add] at hroom
        exact ⟨trivial, hroom ▸ hi⟩
    case vc3 hr hok =>
      rcases hr with ⟨k, rfl, hk, hnone, hs⟩ | ⟨rfl, -⟩
      · rw [List.Cursor.pos_mk, List.length_append, List.length_singleton]
        exact ⟨_, _, hput.step hk hnone, hs⟩
      · exact absurd Bool.false_ne_true hok
  case vc2 h =>
    have hnot : ∀ {P : Nat → Prop}, ∀ j < 0, P j := fun j hj => absurd hj (Nat.not_lt_zero j)
    exact ⟨fun _ => 0, σ₀, ⟨hnot, hnot, hnot, hnot, fun _ _ => rfl, hnot, rfl⟩, h⟩

/-- The 1st message, the 3rd and so on are gone, up to the `i`-th. -/
structure Thinned (q : Quotes) (n : Nat) (σ₀ : Store) (i : Nat) (blk : Nat → Nat) (σ : Store) : Prop where
  even : ∀ j < numMessages, j % 2 = 0 → j < i → σ (blk j) = none
  kept : ∀ j < numMessages, ¬ (j % 2 = 0 ∧ j < i) → σ (blk j) = some (q.message j)
  others : ∀ k, (∀ j < numMessages, blk j ≠ k) → σ k = σ₀ k

theorem Thinned.step {q : Quotes} {n : Nat} {σ₀ σ : Store} {i : Nat} {blk : Nat → Nat} (h : Thinned q n σ₀ i blk σ)
    (hi : i < numMessages) (heven : i % 2 = 0)
    (hdistinct : ∀ j < numMessages, ∀ j' < numMessages, blk j = blk j' → j = j') :
    Thinned q n σ₀ (i + 2) blk (Function.update σ (blk i) none) := by
  constructor
  · intro j hj hj2 hji
    by_cases heq : j = i
    · rw [heq, Function.update_self]
    · rw [Function.update_of_ne fun hblk => heq (hdistinct j hj i hi hblk)]
      exact h.even j hj hj2 (by omega)
  · intro j hj hodd
    have heq : j ≠ i := by omega
    rw [Function.update_of_ne fun hblk => heq (hdistinct j hj i hi hblk)]
    exact h.kept j hj (by omega)
  · intro k hk
    rw [Function.update_of_ne fun heq => hk i hi heq.symm]
    exact h.others k hk

variable {blockIds : Nat → Int} {blk : Nat → Nat} {σ₁ : Store}

theorem invalidateSome_spec (hput : PutSoFar q n σ₀ numMessages blockIds blk σ₁) :
    ⦃fun s => ⌜s.Holds d₀ sb n σ₁⌝⦄ invalidateSome blockIds
    ⦃post⟨fun _ s => ⌜∃ σ, Thinned q n σ₀ numMessages blk σ ∧ s.Holds d₀ sb n σ⌝, fun _ _ => ⌜False⌝⟩⦄ := by
  mvcgen [invalidateSome] invariants
  · post⟨fun p s => ⌜∃ σ, Thinned q n σ₀ (p.1.pos * 2) blk σ ∧ s.Holds d₀ sb n σ⌝, fun _ _ => ⌜False⌝⟩
  case vc1 pre cur suff hcur _ _ h =>
    obtain ⟨σ, hthin, hs⟩ := h
    obtain ⟨hi, rfl⟩ := counter_eq hcur
    rw [List.Cursor.pos_mk] at hthin
    have hcur : pre.length * 2 < numMessages := by
      change pre.length < 10 at hi
      show pre.length * 2 < 20
      omega
    have heven : pre.length * 2 % 2 = 0 := Nat.mul_mod_left _ _
    have hkept := hthin.kept _ hcur (by omega)
    have hspec := sysInvalidate_spec d₀ sb n σ (blk (pre.length * 2)) (hput.lt _ hcur)
    rw [hput.ids _ hcur, BitVec.ofInt_natCast]
    mvcgen [hspec, exitIf]
    case vc2 hr hwrong =>
      rw [hr.1, hkept] at hwrong
      exact hwrong rfl
    case vc3 hr _ =>
      have hstep := hthin.step hcur heven hput.distinct
      refine ⟨_, ?_, hr.2⟩
      rw [List.Cursor.pos_mk, List.length_append, List.length_singleton, Nat.succ_mul]
      exact hstep
  case vc2 h =>
    exact ⟨σ₁, ⟨fun j _ _ hj => absurd hj (Nat.not_lt_zero j), fun j hj _ => hput.message j hj, hput.others⟩, h⟩

theorem getMessages_spec (hput : PutSoFar q n σ₀ numMessages blockIds blk σ₁) {σ : Store}
    (hthin : Thinned q n σ₀ numMessages blk σ) :
    ⦃fun s => ⌜s.Holds d₀ sb n σ⌝⦄ getMessages blockIds
    ⦃post⟨fun _ s => ⌜s.Holds d₀ sb n σ⌝, fun _ _ => ⌜False⌝⟩⦄ := by
  have hthird := sysGet_spec d₀ sb n σ (blk 3) maxMsgSize (hput.lt 3 (by decide))
  have hfirst := sysGet_spec d₀ sb n σ (blk 0) maxMsgSize (hput.lt 0 (by decide))
  rw [hthin.kept 3 (by decide) (by decide)] at hthird
  rw [hthin.even 0 (by decide) rfl (by decide)] at hfirst
  rw [getMessages, hput.ids 3 (by decide), hput.ids 0 (by decide), BitVec.ofInt_natCast, BitVec.ofInt_natCast]
  mvcgen [hthird, hfirst, exitIf]
  case vc2 hr hwrong =>
    rw [hr.1] at hwrong
    exact hwrong rfl
  case vc3 hr _ => exact hr.2
  case vc4 hr hwrong =>
    rw [hr.1] at hwrong
    exact Bool.false_ne_true hwrong
  case vc5 hr _ hwrong => exact hwrong hr.1
  case vc6 hr _ _ => exact hr.2

theorem readAll_spec (hfit : d₀.MessagesFit) (σ : Store) (fuel : Nat) : ∀ session : Session,
    session.ino.numBlocks = n → session.ino.iSb = sb →
    ⦃fun s => ⌜s.Holds d₀ sb n σ ∧ session.Inside s.drv ∧ session.toRead s.drv < fuel⌝⦄ readAll fuel session
    ⦃post⟨fun _ s => ⌜s.Holds d₀ sb n σ⌝, fun _ _ => ⌜False⌝⟩⦄ := by
  induction fuel with
  | zero =>
    intro session _ _
    mvcgen [readAll]
    rename_i h
    exact absurd h.2.2 (Nat.not_lt_zero _)
  | succ fuel ih =>
    intro session hnum hsb
    have hread := sysRead_spec d₀ sb n σ hfit session hnum hsb maxMsgSize (Nat.le_of_ble_eq_true rfl) fuel
    mvcgen [readAll, hread, exitIf]
    case vc2 hr hneg => exact absurd hneg (Int.not_lt.mpr hr.2.1)
    case vc3 hne _ hr _ =>
      obtain ⟨hs, -, hino, hin, hless⟩ := hr
      have hspec := ih _ (hino ▸ hnum) (hino ▸ hsb)
      mvcgen [hspec]
      exact ⟨hs, hin, hless hne⟩
    case vc4 hr => exact hr.1

theorem main_spec (hn : d₀.blockCount sb = n) (hfit : d₀.MessagesFit) {fuel : Nat} (hfuel : n * 4087 < fuel) :
    ⦃fun s => ⌜s.Holds d₀ sb n σ₀⌝⦄ main q sb fuel
    ⦃post⟨fun r s => ⌜r = 0 ∧ ∃ ids blk σ₁ σ, PutSoFar q n σ₀ numMessages ids blk σ₁ ∧
        Thinned q n σ₀ numMessages blk σ ∧ s.Holds d₀ sb n σ⌝,
      fun e _ => ⌜e = .status (-1) ∧ (freeBlocks n σ₀).card < numMessages⌝⟩⦄ := by
  have hputs := putMessages_spec d₀ sb n q σ₀
  mvcgen [main, hputs]
  rename_i ids s h
  obtain ⟨blk, σ₁, hput, hs⟩ := h
  have hinvalidate := invalidateSome_spec d₀ sb n q σ₀ hput
  mvcgen [hinvalidate]
  rename_i s h
  obtain ⟨σ, hthin, hs⟩ := h
  have hget := getMessages_spec d₀ sb n q σ₀ hput hthin
  have hopen := sysOpen_spec d₀ sb n σ .rdonly (.inl rfl) hn
  mvcgen [hget, hopen]
  case vc3 hfd =>
    obtain ⟨ino, hino, hnum, hsb, hs⟩ := hfd
    obtain ⟨-, hsession⟩ := Prod.mk.inj (Option.some.inj hino)
    rw [Option.some.inj hsession]
    have hread := readAll_spec d₀ sb n hfit σ fuel ⟨0, 0, ino⟩ hnum hsb
    have hleft : Session.toRead ⟨0, 0, ino⟩ _ ≤ n * 4087 :=
      Readable.toRead_le (s := ⟨0, 0, ino⟩) ⟨hs.inv, hs.fit hfit, hsb, hnum⟩
    mvcgen [hread]
    case vc1 => exact ⟨hs, Session.inside_of_pos rfl, Nat.lt_of_le_of_lt hleft hfuel⟩
    case vc2 hs => exact ⟨trivial, ids, blk, σ₁, σ, hput, hthin, hs⟩
  case vc4 hno _ _ hfd =>
    obtain ⟨ino, hino, -⟩ := hfd
    exact (hno _ _ hino).elim

end

end UserProgram

/-- **`user.c` passes exactly if 20 blocks are free.**  Run by itself on a mounted device whose messages fit their
    blocks and whose earlier puts have all read the blocks they chose, with no failure of the kernel, it returns 0 if
    at least 20 blocks have no message, having put its messages into 20 of these, one into each, and taken away every
    other one, and changed nothing else; otherwise it returns -1. -/
theorem user_exit_status (cfg : Config) (sb : Nat) (d : Driver) (hd : Intact cfg sb d) (hfit : d.MessagesFit)
    (q : Quotes) (outside : Nat → Outside) (hout : ∀ i, (outside i).Succeeds) (fuel : Nat)
    (hfuel : d.blockCount sb * 4087 < fuel) :
    (20 ≤ (freeBlocks (d.blockCount sb) (d.store sb)).card →
      ∃ s, (UserProgram.main q sb fuel).run ⟨d, outside, 0⟩ = .ok 0 s ∧ ∃ blk : Nat → Nat,
        (∀ j < 20, ∀ j' < 20, blk j = blk j' → j = j') ∧
        (∀ j < 20, blk j ∈ freeBlocks (d.blockCount sb) (d.store sb) ∧
          s.drv.store sb (blk j) = if j % 2 = 0 then none else some (q.message j)) ∧
        ∀ k, (∀ j < 20, blk j ≠ k) → s.drv.store sb k = d.store sb k) ∧
    ((freeBlocks (d.blockCount sb) (d.store sb)).card < 20 →
      ∃ s, (UserProgram.main q sb fuel).run ⟨d, outside, 0⟩ = .error (.status (-1)) s) := by
  have hstart : Machine.Holds d sb (d.blockCount sb) ⟨d, outside, 0⟩ (d.store sb) :=
    ⟨hd.reachable.inv, hout, rfl, rfl, id⟩
  rcases run_cases (UserProgram.main_spec d sb (d.blockCount sb) q (d.store sb) rfl hfit hfuel) hstart with
    ⟨a, s, hrun, rfl, ids, blk, σ₁, σ, hput, hthin, hs⟩ | ⟨e, s, hrun, rfl, hfew⟩
  · have hroom : _ + 20 = _ := hput.room
    constructor
    · intro _
      refine ⟨s, hrun, blk, hput.distinct, ?_, ?_⟩
      · intro j hj
        refine ⟨mem_freeBlocks.mpr ⟨hput.lt j hj, hput.free j hj⟩, ?_⟩
        rw [hs.store]
        split
        · exact hthin.even j hj ‹_› hj
        · exact hthin.kept j hj (by omega)
      · rw [hs.store]
        exact hthin.others
    · intro hfew
      exact absurd hfew (by omega)
  · constructor
    · intro hmany
      exact absurd hmany (Nat.not_le_of_lt hfew)
    · intro _
      exact ⟨s, hrun⟩

/-- On 20 empty blocks it passes. -/
theorem user_exit_status_twenty_blocks :
    ∃ s, (UserProgram.main sampleQuotes 0 (20 * 4087 + 1)).run
      ⟨freshDriver 20, fun i => .allOk (20 + i) (i + 1), 0⟩ = .ok 0 s := by
  have hfree : 20 ≤ (freeBlocks ((freshDriver 20).blockCount 0) ((freshDriver 20).store 0)).card := by decide +kernel
  obtain ⟨s, hrun, -⟩ := (user_exit_status .standard 0 (freshDriver 20)
    (intact_freshDriver .standard (by decide)) (by decide) sampleQuotes (fun i => .allOk (20 + i) (i + 1))
    (fun i => Outside.allOk_succeeds _ _) (20 * 4087 + 1) (by decide +kernel)).1 hfree
  exact ⟨s, hrun⟩

end Bldms
