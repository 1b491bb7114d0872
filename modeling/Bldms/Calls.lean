/-
  The mounted driver as a system: calls in, replies out.

  The critical sections of the system calls are atomic and `read` changes nothing in the driver, so a
  run of the driver is a sequence of calls, in the order of their critical sections; a `put_data`
  carries whatever timestamp it drew before it got the lock.

  `Mounted cfg sb d` is the starting point of such a run: `d` is what a successful mount of `sb` left.
-/
import Bldms.Lib.System
import Bldms.Syscalls
import Bldms.Mount
import Bldms.FileOps

namespace Bldms

/-- A call of the driver. -/
inductive Call where
  | put (e : PutEnv) (m : List Byte)
  | get (e : GetEnv) (offset : BitVec 32) (size : Nat)
  | invalidate (bread : Bool) (offset : BitVec 32)
  | read (e : ReadEnv) (len : Nat) (s : Session)

/-- What a call returns; a `put` also shows the metadata entries it released. -/
inductive Reply where
  | put (r : Ret Nat) (freed : List Nat)
  | get (r : Ret (List Byte))
  | invalidate (r : Ret Unit)
  | read (r : ReadOut)

/-- The driver, call by call. -/
def driver : System Driver Call Reply where
  step d
    | .put e m => (.put (putData e m d).ret (putData e m d).freed, (putData e m d).drv)
    | .get e offset size => (.get (getData e offset size d), d)
    | .invalidate bread offset =>
      (.invalidate (invalidateData bread offset d).1, (invalidateData bread offset d).2)
    | .read e len s => (.read (vfsRead e len s d), d)

@[simp] theorem driver_next_put (d : Driver) (e : PutEnv) (m : List Byte) :
    driver.next d (.put e m) = (putData e m d).drv := rfl
@[simp] theorem driver_next_get (d : Driver) (e : GetEnv) (offset : BitVec 32) (size : Nat) :
    driver.next d (.get e offset size) = d := rfl
@[simp] theorem driver_next_invalidate (d : Driver) (bread : Bool) (offset : BitVec 32) :
    driver.next d (.invalidate bread offset) = (invalidateData bread offset d).2 := rfl
@[simp] theorem driver_next_read (d : Driver) (e : ReadEnv) (len : Nat) (s : Session) :
    driver.next d (.read e len s) = d := rfl

/-- The block reads a call makes succeed. -/
def BreadSucceeds (_ : Driver) : Call → Prop
  | .put e _ => e.bread = true
  | .get e _ _ => e.bread = true
  | .invalidate bread _ => bread = true
  | .read e _ _ => e.bread = true

/-- `d` is the state a successful mount of `sb` leaves, the driver having been idle (no list left)
    before it. -/
def Mounted (cfg : Config) (sb : Nat) (d : Driver) : Prop :=
  ∃ env d₀, d₀.validBlkList = [] ∧ bldmsFsMount cfg.nblocks env sb d₀ = .ok d

/-- An empty device that fits the configuration can be mounted. -/
theorem mounted_freshDriver (cfg : Config) {n : Nat} (hn : n ≤ cfg.nblocks) :
    Mounted cfg 0 (freshDriver n) :=
  ⟨.allOk, idleDriver (emptyImage n), rfl, mount_emptyImage cfg hn⟩

/-- An image with the magic number and an acceptable size can be mounted, and is left as it is. -/
theorem exists_mounted (cfg : Config) (dev : Device) (hmagic : sbMagic (dev 0) = magicNumber)
    (hsize : inodeFileSize (dev 1) ≤ sizeLimit cfg.nblocks) : ∃ d, Mounted cfg 0 d ∧ d.disk 0 = dev := by
  obtain ⟨d₁, hfill, hmount⟩ := bldmsFsMount_succeeds MountEnv.allOk_succeeds
    (d := idleDriver dev) rfl hmagic hsize
  refine ⟨_, ⟨.allOk, idleDriver dev, rfl, hmount⟩, ?_⟩
  obtain ⟨-, -, s, -, rfl⟩ := bldmsFsFillSuper_ok hfill
  rfl

/-- `d` is reached from a mount of `sb` by some sequence of calls. -/
def Reachable (cfg : Config) (sb : Nat) (d : Driver) : Prop :=
  ∃ d₀ calls, Mounted cfg sb d₀ ∧ driver.final d₀ calls = d

theorem Mounted.reachable {cfg : Config} {sb : Nat} {d : Driver} (h : Mounted cfg sb d) :
    Reachable cfg sb d := ⟨d, [], h, rfl⟩

/-- `s` is a session on the unique file of `sb`, just opened or sent back to the beginning. -/
def Opened (sb : Nat) (d : Driver) (s : Session) : Prop :=
  ∃ ino, bldmsLookup true true "the_file" sb d = .ok (some ino) ∧ Started ino d s

/-- The session an open leaves. -/
def Driver.freshSession (d : Driver) (sb : Nat) : Session := ⟨0, 0, inodeFileSize (d.disk sb 1), sb⟩

theorem Opened.eq {sb : Nat} {d : Driver} {s : Session} (h : Opened sb d s) :
    s = d.freshSession sb := by
  obtain ⟨ino, hlookup, hstart⟩ := h
  rw [bldmsLookup, if_neg (fun h => h rfl), if_neg (fun h => h rfl), if_neg (fun h => h rfl)]
    at hlookup
  rw [hstart.eq, ← Option.some.inj (Ret.ok.inj hlookup)]
  rfl

theorem opened_freshSession {sb : Nat} {d : Driver} (h : d.bldmsMounted = true) :
    Opened sb d (d.freshSession sb) := by
  refine ⟨⟨inodeFileSize (d.disk sb 1), sb⟩, rfl, .inl ⟨.rdonly, ?_⟩⟩
  rw [bldmsOpen, h]
  rfl

/-- The number of data blocks of a device, as its inode gives it. -/
def Driver.blockCount (d : Driver) (sb : Nat) : Nat := inodeFileSize (d.disk sb 1) / 4096

/-! ## What the system calls do, case by case -/

/-- The preparation of `put_data` succeeded: what it carries on, and what it has checked. -/
theorem putPrepare_ok {e : PutEnv} {m : List Byte} {d : Driver} {p : Prepared}
    (h : putPrepare e m d = .ok p) :
    m.length ≤ 4086 ∧ d.theDevSuperblock = some p.sb ∧ e.newMetadata = some p.newMetadata.id ∧
    p.newMetadata.blk = ⟨e.now, true, BitVec.ofNat 15 m.length⟩ ∧
    p.buffer = Block.ofMessage p.newMetadata.blk m := by
  unfold putPrepare at h
  split at h
  · nomatch h
  split at h
  · nomatch h
  rename_i hlen
  split at h
  · nomatch h
  rename_i sb hsb
  iterate 3 (split at h; · nomatch h)
  split at h
  · nomatch h
  rename_i id hid
  obtain rfl := (Ret.ok.inj h).symm
  exact ⟨Nat.le_of_not_lt hlen, hsb, hid, rfl, rfl⟩

/-- Below `2 ^ 31` blocks the choice of `findFree` is a search along the circle. -/
theorem Driver.findFree_circular (d : Driver) (hn : d.mdArraySize < 2 ^ 31) (hlast : d.lastWrittenBlock < d.mdArraySize) :
    d.findFree = (circular d.lastWrittenBlock d.mdArraySize).find? d.invalidAt := by
  rw [Driver.findFree, circular]
  congr 1
  apply List.map_congr_left
  intro i hi
  have hi : i < d.mdArraySize := List.mem_range.mp hi
  rw [Nat.mod_eq_of_lt (by omega : d.lastWrittenBlock + (i + 1) < 2 ^ 32)]

/-- Nothing fails for `put_data`, its message fits a block, and `k` is the free block the scan finds. -/
def PutLands (e : PutEnv) (m : List Byte) (d : Driver) (k : Nat) : Prop :=
  e.Succeeds ∧ m.length ≤ 4086 ∧ d.findFree = some k

/-- The preparation checks everything that can fail before the critical section. -/
theorem putPrepare_succeeds {e : PutEnv} {m : List Byte} {d : Driver} {p : Prepared}
    (h : putPrepare e m d = .ok p) (hb : e.bread = true) : e.Succeeds := by
  unfold putPrepare at h
  iterate 3 (split at h; · nomatch h)
  split at h
  · nomatch h
  rename_i hbuf
  split at h
  · nomatch h
  rename_i hcopy
  split at h
  · nomatch h
  rename_i helem
  split at h
  · nomatch h
  rename_i id hid
  refine ⟨?_, ?_, ?_, ?_, hb⟩
  · simpa using hbuf
  · simpa using hcopy
  · simpa using helem
  · rw [hid]; rfl

/-- The ways a `put_data` can end. -/
inductive PutCase (e : PutEnv) (m : List Byte) (d : Driver) : PutOut → Prop
  | refused {r : Ret Nat} : (∀ p, putPrepare e m d ≠ .ok p) → (∀ k, r ≠ .ok k) →
      PutCase e m d ⟨r, d, []⟩
  | full {p : Prepared} : putPrepare e m d = .ok p → d.findFree = none →
      PutCase e m d ⟨.err .enomem, d, [p.newMetadata.id]⟩
  | unread {p : Prepared} {k : Nat} : putPrepare e m d = .ok p → d.findFree = some k →
      e.bread = false → PutCase e m d ⟨.err .eperm, d, p.newMetadata.id :: d.entryAt k⟩
  | stored {p : Prepared} {k : Nat} : putPrepare e m d = .ok p → d.findFree = some k →
      e.bread = true → PutCase e m d ⟨.ok k, d.commitPut p k, d.entryAt k⟩

/-- Everything `put_data` can do; no other proof looks into it. -/
theorem putCase_putData (e : PutEnv) (m : List Byte) (d : Driver) :
    PutCase e m d (putData e m d) := by
  unfold putData
  cases hp : putPrepare e m d with
  | err x => exact .refused (by simp [hp]) (by simp)
  | oops => exact .refused (by simp [hp]) (by simp)
  | ok p =>
    simp only [putCritical]
    cases hk : d.findFree with
    | none => exact .full hp hk
    | some k =>
      cases hb : e.bread with
      | true => exact .stored hp hk hb
      | false => exact .unread hp hk hb

/-- `put_data` either leaves the state alone, or commits a prepared message to the block the scan
    chose and returns its index. -/
theorem putData_cases (e : PutEnv) (m : List Byte) (d : Driver) :
    (putData e m d).drv = d ∧ (∀ k, (putData e m d).ret ≠ .ok k) ∨
    ∃ p k, putPrepare e m d = .ok p ∧ PutLands e m d k ∧
      putData e m d = ⟨.ok k, d.commitPut p k, d.entryAt k⟩ := by
  have hcase := putCase_putData e m d
  generalize putData e m d = out at hcase ⊢
  cases hcase with
  | refused _ hr => exact .inl ⟨rfl, hr⟩
  | full _ _ => exact .inl ⟨rfl, by simp⟩
  | unread _ _ _ => exact .inl ⟨rfl, by simp⟩
  | stored hp hk hb =>
    exact .inr ⟨_, _, hp, ⟨putPrepare_succeeds hp hb, (putPrepare_ok hp).1, hk⟩, rfl⟩

/-- `invalidate_data` either leaves the state alone and does not return 0, or removes a listed
    block. -/
theorem invalidateData_cases (bread : Bool) (offset : BitVec 32) (d : Driver) :
    (invalidateData bread offset d).2 = d ∧ (invalidateData bread offset d).1 ≠ .ok () ∨
    ∃ sb el, d.theDevSuperblock = some sb ∧
      findBlk d.validBlkList offset.toNat = some el ∧
      invalidateData bread offset d =
        (.ok (), d.commitInvalidate sb el.ndx ((offset.toNat + 2) % 2 ^ 32)) := by
  unfold invalidateData
  split
  · exact .inl ⟨rfl, fun h => nomatch h⟩
  split
  · exact .inl ⟨rfl, fun h => nomatch h⟩
  split
  · exact .inl ⟨rfl, fun h => nomatch h⟩
  rename_i el hel
  split
  · exact .inl ⟨rfl, fun h => nomatch h⟩
  rename_i sb hsb
  split
  · exact .inl ⟨rfl, fun h => nomatch h⟩
  · exact .inr ⟨sb, el, hsb, hel, rfl⟩

end Bldms
