/-
  What a crash leaves of the device.

  Source: `syscalls.c`, `mark_buffer_dirty` in the critical sections of `put_data` and `invalidate_data`, and the
  `sync_dirty_buffer` after them that `SYNCHRONOUS_PUT_DATA` compiles in; `bldms.c`, the mount.

  The driver works on the buffer cache; `Driver.disk` is the device as the cache shows it.  Behind it is the
  medium.  The kernel writes a dirty block back when it likes; with `SYNCHRONOUS_PUT_DATA` a put or an
  invalidation also waits for the block it has written, outside the lock, before it returns.  It does not look at what
  `sync_dirty_buffer` returns, so that a write error goes unnoticed.  That there is none is a condition on the run
  (`CacheOk`): every write leaves its block on the medium as the cache shows it, whole.  A write falls between two
  critical sections, and what is on the medium stays there.

  Each block is a cell of its own, and there is no journal, so the versions of different blocks need not fit
  together; what `get_data` answers for a block depends on that block alone (`Inv.getData_congr_block`).
  * `crash_recovery` — whatever has been written back, the medium can be mounted, and `get_data` of a block answers
    what it answered at a moment no older than the last call on the block that has returned;
  * `crash_atomic`   — a block with no call in flight has lost nothing, and one with a call in flight is as it
    stands or as it was before that call.
-/
import Bldms.Lib.WriteBack
import Bldms.Remount

namespace Bldms

open WriteBack

/-- The block of the device a call has marked dirty, by its reply. -/
def Call.written : Call → Reply → Option Nat
  | .put _ _, .put (.ok k) _ => some (k + numMetadataBlks)
  | .invalidate _ k, .invalidate (.ok ()) => some (k.toNat + numMetadataBlks)
  | _, _ => none

/-- The driver on the buffer cache of `sb`, compiled with `SYNCHRONOUS_PUT_DATA` or without. -/
def bufferCache (sb : Nat) (synchronous : Bool) : Cache Driver Call Reply Nat Block where
  sys := driver
  view d := d.disk sb
  writes := Call.written
  synchronous := synchronous

section

variable {sb sb' n : Nat} {d d' : Driver}

/-- A call leaves alone the blocks it has not written. -/
theorem Inv.disk_of_not_written (hI : Inv sb n d) (c : Call) {b : Nat}
    (hb : c.written (driver.step d c).1 ≠ some b) : (driver.next d c).disk sb b = d.disk sb b := by
  have hframe := hI.deviceFrame c
  unfold DeviceFrame CallFrame at hframe
  unfold Call.written at hb
  split at hframe
  · rename_i hreply
    rw [hreply] at hb
    by_contra hne
    exact hb (congrArg some ((hframe.2.2 sb b).mp hne).2.symm)
  · rename_i hreply
    rw [hreply] at hb
    rw [hframe.2.2]
    exact Driver.writeBlock_of_ne d sb _ fun heq => hb (congrArg some heq.symm)
  · rw [hframe]

/-- The event is in order: a write does its work, and a put reads the block it has chosen, so that the array can be
    looked at by value (`PtrDriver.Sound.step_eq`). -/
def CacheOk (sb : Nat) (synchronous : Bool) (s : Stored Driver Nat Block) (e : CacheEvent Call Nat Block) : Prop :=
  Whole (bufferCache sb synchronous) s e ∧ ∀ c, e = .call c → PutReads s.now c

/-! ## A block and its answers -/

/-- The node of a block, from the block's own bytes. -/
theorem Inv.findBlk_eq (hI : Inv sb n d) {k : Nat} (hk : k < n) :
    findBlk d.validBlkList k = if (d.disk sb (k + 2)).metadata.isValid = true
      then some (elemOf k (d.disk sb (k + 2)).metadata) else none := by
  split
  · rename_i hv
    exact (findBlk_eq_some hI.distinct).mpr ⟨(hI.mem_iff _).mpr ⟨hk, hv, rfl⟩, rfl⟩
  · rename_i hv
    refine findBlk_eq_none.mpr fun el hel hndx => hv ?_
    rw [← hndx]
    exact ((hI.mem_iff el).mp hel).2.1

/-- `get_data` of a block depends on the size of the device and on the bytes of that block. -/
theorem Inv.getData_congr_block (hI : Inv sb n d) (hI' : Inv sb' n d') {offset : BitVec 32}
    (hblk : d'.disk sb' (offset.toNat + 2) = d.disk sb (offset.toNat + 2)) (e : GetEnv) (size : Nat) :
    getData e offset size d' = getData e offset size d := by
  have hn := hI.small
  have hmounted : ¬ ¬ (true = true) := fun h => h rfl
  rw [getData, getData, getLookup, getLookup, hI.mounted, hI'.mounted, hI.size, hI'.size, hI.super, hI'.super,
    if_neg hmounted, if_neg hmounted]
  by_cases hrange : (offset.signExtend 64).toNat ≥ n
  · rw [if_pos hrange, if_pos hrange]
  · have hin := (signExtend_lt_iff offset hn).mp (Nat.not_le.mp hrange)
    have hlt : offset.toNat < n := by
      have hnat := toNat_toInt_of_inRange hin
      have hbound := hin.2
      omega
    rw [if_neg hrange, if_neg hrange, hI.findBlk_eq hlt, hI'.findBlk_eq hlt, hblk]
    by_cases hv : (d.disk sb (offset.toNat + 2)).metadata.isValid = true
    · rw [if_pos hv]
      -- the block is read at its own place
      dsimp only [getCopy]
      rw [Nat.mod_eq_of_lt (by omega : offset.toNat + 2 < 2 ^ 32), hblk]
    · rw [if_neg hv]

/-! ## The runs -/

/-- The driver is mounted, and the blocks outside the data blocks are as `d` has them. -/
def OnImage (sb : Nat) (d t : Driver) : Prop :=
  Inv sb (d.blockCount sb) t ∧ ∀ b, b < 2 ∨ d.blockCount sb + 2 ≤ b → t.disk sb b = d.disk sb b

theorem OnImage.next {t : Driver} (ht : OnImage sb d t) (c : Call) : OnImage sb d (driver.next t c) :=
  ⟨ht.1.step c, fun b hb => ((ht.1.deviceFrame c).outside hb).trans (ht.2 b hb)⟩

/-- Every state of the history is the driver on the image `d`, and the medium is kept. -/
structure Recoverable (sb : Nat) (synchronous : Bool) (d : Driver) (s : Stored Driver Nat Block) : Prop where
  onImage : ∀ (p : Nat) t, s.history[p]? = some t → OnImage sb d t
  kept : Kept (bufferCache sb synchronous) s

namespace Recoverable

variable {synchronous : Bool} {s : Stored Driver Nat Block}

theorem start (h : OnImage sb d d') : Recoverable sb synchronous d (.start (bufferCache sb synchronous) d') := by
  refine ⟨fun p t ht => ?_, Kept.start _ d'⟩
  rw [List.mem_singleton.mp (List.mem_of_getElem? ht)]
  exact h

theorem now (h : Recoverable sb synchronous d s) : OnImage sb d s.now := h.onImage _ _ s.history_now

theorem cache (h : Recoverable sb synchronous d s) {e : CacheEvent Call Nat Block}
    (he : Whole (bufferCache sb synchronous) s e) :
    Recoverable sb synchronous d ((bufferCache sb synchronous).store.next s e) := by
  obtain ⟨honImage, hkept⟩ := Kept.step (P := OnImage sb d) (C := bufferCache sb synchronous) (fun t c ht => ht.next c)
    (fun t c b ht hb => ht.1.disk_of_not_written c hb) h.onImage h.kept he
  exact ⟨honImage, hkept⟩

end Recoverable

theorem Mounted.recoverable_start {cfg : Config} (hd : Mounted cfg sb d) (synchronous : Bool) :
    Recoverable sb synchronous d (.start (bufferCache sb synchronous) d) :=
  .start ⟨mounted_inv hd, fun _ _ => rfl⟩

theorem Mounted.recoverable {cfg : Config} (hd : Mounted cfg sb d) {synchronous : Bool}
    {es : List (CacheEvent Call Nat Block)}
    (hok : (bufferCache sb synchronous).store.AllSteps (CacheOk sb synchronous)
      (.start (bufferCache sb synchronous) d) es) :
    ∀ s ∈ (bufferCache sb synchronous).store.states (.start (bufferCache sb synchronous) d) es,
      Recoverable sb synchronous d s :=
  hok.invariant (fun _ _ he h => h.cache he.1) (hd.recoverable_start synchronous)

/-- What is on the medium of a run can be mounted: its first two blocks are those of the image. -/
theorem Mounted.medium_mounts {cfg : Config} (hd : Mounted cfg sb d) {synchronous : Bool}
    {s : Stored Driver Nat Block} (h : Recoverable sb synchronous d s) {env : MountEnv} (henv : env.Succeeds)
    {d₀ : Driver} (hfree : d₀.bldmsMounted = false) (hempty : d₀.validBlkList = []) (hdisk : d₀.disk sb' = s.medium) :
    ∃ d', bldmsFsMount cfg.nblocks env sb' d₀ = .ok d' ∧ d'.disk sb' = s.medium ∧
      Inv sb' (d.blockCount sb) d' := by
  have hmedium : ∀ b, b < 2 → s.medium b = d.disk sb b := by
    intro b hb
    obtain ⟨p, t, ht, hview, -, -⟩ := h.kept.version b
    rw [← hview]
    exact (h.onImage p t ht).2 b (.inl hb)
  obtain ⟨hmagic, hsize⟩ := hd.reachable.accepted
  rw [← hmedium 0 (by omega), ← hdisk] at hmagic
  rw [← hmedium 1 (by omega), ← hdisk] at hsize
  obtain ⟨d₁, hfill, hmount⟩ := bldmsFsMount_succeeds henv hfree hmagic hsize
  refine ⟨_, hmount, ?_, ?_⟩
  · -- a mount does not write
    obtain ⟨-, -, scanned, -, rfl⟩ := bldmsFsFillSuper_ok hfill
    exact hdisk
  · have hI' := mounted_inv ⟨env, d₀, hempty, hmount⟩
    have hcount : Driver.blockCount { d₁ with theDevSuperblock := some sb' } sb' = d.blockCount sb := by
      obtain ⟨-, -, scanned, -, rfl⟩ := bldmsFsFillSuper_ok hfill
      show inodeFileSize (d₀.disk sb' 1) / 4096 = inodeFileSize (d.disk sb 1) / 4096
      rw [hdisk, hmedium 1 (by omega)]
    rw [hcount] at hI'
    exact hI'

end

/-- **What can be lost in a crash.**  Let the medium be what a run of calls, write-backs and returns has left, in which
    every write has done its work and every put has read the block it has chosen.  A mount of it succeeds, and every
    `get_data` of a block answers what it would have answered in some state of the run.  That state is not older than
    the last write-back of the block, nor, with `SYNCHRONOUS_PUT_DATA`, than the one any put or invalidation of the
    block that has returned had led to. -/
theorem crash_recovery (cfg : Config) (sb : Nat) (d : Driver) (hd : Mounted cfg sb d) (synchronous : Bool)
    (es : List (CacheEvent Call Nat Block))
    (hok : (bufferCache sb synchronous).store.AllSteps (CacheOk sb synchronous)
      (.start (bufferCache sb synchronous) d) es) (env : MountEnv) (henv : env.Succeeds) (sb' : Nat) (d₀ : Driver)
    (hfree : d₀.bldmsMounted = false) (hempty : d₀.validBlkList = []) :
    ∀ s ∈ (bufferCache sb synchronous).store.states (.start (bufferCache sb synchronous) d) es,
      d₀.disk sb' = s.medium →
      ∃ d', bldmsFsMount cfg.nblocks env sb' d₀ = .ok d' ∧ d'.mdArraySize = d.mdArraySize ∧
        ∀ offset : BitVec 32, ∃ (p : Nat) (t : Driver), s.history[p]? = some t ∧
          (∀ e size, getData e offset size d' = getData e offset size t) ∧
          (∀ q, (offset.toNat + 2, q) ∈ s.writtenBack → q ≤ p) ∧
          (synchronous = true → ∀ q, (offset.toNat + 2, q) ∈ s.acknowledged → q ≤ p) := by
  intro s hs hdisk
  have h := hd.recoverable hok s hs
  obtain ⟨d', hmount, hdisk', hI'⟩ := hd.medium_mounts h henv hfree hempty hdisk
  refine ⟨d', hmount, hI'.size.trans (mounted_inv hd).size.symm, fun offset => ?_⟩
  obtain ⟨p, t, ht, hview, hback, hack⟩ := h.kept.version (offset.toNat + 2)
  refine ⟨p, t, ht, ?_, hback, hack⟩
  exact (h.onImage p t ht).1.getData_congr_block hI' (by rw [hdisk', ← hview]; rfl)

/-- The put writes its block, and the write back of it leaves that block on the medium. -/
theorem cacheOk_one_put :
    (bufferCache 0 true).store.AllSteps (CacheOk 0 true) (.start (bufferCache 0 true) (freshDriver 2))
      [.call (.put (.allOk 2 7) [65]), .acknowledge 0 (Block.ofMessage ⟨7, true, 1⟩ [65]),
        .call (.invalidate true 0)] := by
  have hread : ∀ t c, CacheEvent.call (.put (.allOk 2 7) [65]) = (.call c : CacheEvent Call Nat Block) →
      PutReads t c := by
    intro t c hc
    obtain rfl := CacheEvent.call.inj hc
    exact fun _ _ _ _ => rfl
  refine ⟨⟨trivial, hread _⟩, ⟨?_, fun c hc => by cases hc⟩, ⟨trivial, fun c hc => ?_⟩, trivial⟩
  · intro _ v hv
    obtain rfl : ((2, 1) : Nat × Nat) = v := Option.some.inj hv
    rfl
  · obtain rfl := CacheEvent.call.inj hc
    trivial

/-- A put has returned, an invalidation of its block has not: with `SYNCHRONOUS_PUT_DATA` the block answers as it
    did when it held the message or later. -/
theorem crash_recovery_one_put :
    let es : List (CacheEvent Call Nat Block) := [.call (.put (.allOk 2 7) [65]),
      .acknowledge 0 (Block.ofMessage ⟨7, true, 1⟩ [65]), .call (.invalidate true 0)]
    let s := (bufferCache 0 true).store.final (.start (bufferCache 0 true) (freshDriver 2)) es
    ∃ d', bldmsFsMount 1000 .allOk 0 (idleDriver s.medium) = .ok d' ∧ d'.mdArraySize = 2 ∧
      ∀ offset : BitVec 32, ∃ (p : Nat) (t : Driver), s.history[p]? = some t ∧
        (∀ e size, getData e offset size d' = getData e offset size t) ∧
        (∀ q, (offset.toNat + 2, q) ∈ s.writtenBack → q ≤ p) ∧
        (true = true → ∀ q, (offset.toNat + 2, q) ∈ s.acknowledged → q ≤ p) := by
  intro es s
  exact crash_recovery .standard 0 (freshDriver 2) (mounted_freshDriver .standard (by decide)) true es cacheOk_one_put .allOk
    MountEnv.allOk_succeeds 0 (idleDriver s.medium) rfl rfl s (System.final_mem_states _ _ _) rfl

/-- **A block is as it stands, or as it was before the call in flight.**  After a crash of a run in which every write
    has done its work and every put has read the block it has chosen:
    * a block that has reached the medium since its last put or invalidation answers every `get_data` as it did at
      the crash; with `SYNCHRONOUS_PUT_DATA` that is every block none of whose calls is in flight;
    * a block with one call in flight, in a driver so compiled, answers as it did at the crash or as it did in the
      state that call was made in;
    * when no call is in flight, the medium is the device as the driver had it, and so is the array; the list is the
      same too, when no two valid messages have the same timestamp. -/
theorem crash_atomic (cfg : Config) (sb : Nat) (d : Driver) (hd : Mounted cfg sb d) (synchronous : Bool)
    (es : List (CacheEvent Call Nat Block))
    (hok : (bufferCache sb synchronous).store.AllSteps (CacheOk sb synchronous)
      (.start (bufferCache sb synchronous) d) es) (env : MountEnv) (henv : env.Succeeds) (sb' : Nat) (d₀ : Driver)
    (hfree : d₀.bldmsMounted = false) (hempty : d₀.validBlkList = []) :
    ∀ s ∈ (bufferCache sb synchronous).store.states (.start (bufferCache sb synchronous) d) es,
      d₀.disk sb' = s.medium →
      ∃ d', bldmsFsMount cfg.nblocks env sb' d₀ = .ok d' ∧
        (∀ offset : BitVec 32, UpToDate (bufferCache sb synchronous) s (offset.toNat + 2) →
          ∀ e size, getData e offset size d' = getData e offset size s.now) ∧
        (synchronous = true → ∀ (offset : BitVec 32) (q : Nat) t, s.history[q]? = some t →
          (∀ q', (offset.toNat + 2, q') ∈ s.inFlight → q' = q + 1) →
          (∀ e size, getData e offset size d' = getData e offset size s.now) ∨
          (∀ e size, getData e offset size d' = getData e offset size t)) ∧
        (synchronous = true → s.inFlight = [] →
          d'.disk sb' = s.now.disk sb ∧
          d'.metadataArray.map MdEntry.blk = s.now.metadataArray.map MdEntry.blk ∧
          (DistinctTimes s.now → d'.validBlkList = s.now.validBlkList)) := by
  intro s hs hdisk
  have h := hd.recoverable hok s hs
  obtain ⟨d', hmount, hdisk', hI'⟩ := hd.medium_mounts h henv hfree hempty hdisk
  have hnow := h.now
  refine ⟨d', hmount, fun offset hset => ?_, fun hsync offset q t ht honly => ?_, fun hsync hnone => ?_⟩
  · exact hnow.1.getData_congr_block hI' (by rw [hdisk', h.kept.upToDate hset]; rfl)
  · rcases h.kept.in_flight hsync honly ht with hview | hview
    · exact .inl (hnow.1.getData_congr_block hI' (by rw [hdisk', hview]; rfl))
    · exact .inr ((h.onImage q t ht).1.getData_congr_block hI' (by rw [hdisk', hview]; rfl))
  · have hall : d'.disk sb' = s.now.disk sb := by
      rw [hdisk']
      funext b
      exact h.kept.upToDate (.inl ⟨hsync, fun q hq => by rw [hnone] at hq; exact absurd hq List.not_mem_nil⟩)
    refine ⟨hall, ?_, fun hts => (hnow.1.rebuilt hI' hall hts).2⟩
    rw [hI'.array_eq, hnow.1.array_eq, hall]

/-- A put has returned and the invalidation of its block is in flight: the block holds the message, or none. -/
theorem crash_atomic_invalidate :
    let es : List (CacheEvent Call Nat Block) := [.call (.put (.allOk 2 7) [65]),
      .acknowledge 0 (Block.ofMessage ⟨7, true, 1⟩ [65]), .call (.invalidate true 0)]
    let s := (bufferCache 0 true).store.final (.start (bufferCache 0 true) (freshDriver 2)) es
    ∃ d', bldmsFsMount 1000 .allOk 0 (idleDriver s.medium) = .ok d' ∧
      (getData ⟨true, 0⟩ 0 4086 d' = .err .enodata ∨ getData ⟨true, 0⟩ 0 4086 d' = .ok [65]) := by
  intro es s
  obtain ⟨d', hmount, -, hflight, -⟩ := crash_atomic .standard 0 (freshDriver 2)
    (mounted_freshDriver .standard (by decide)) true es cacheOk_one_put .allOk MountEnv.allOk_succeeds 0
    (idleDriver s.medium) rfl rfl s (System.final_mem_states _ _ _) rfl
  have honly : ∀ q', ((0 : BitVec 32).toNat + 2, q') ∈ s.inFlight → q' = 1 + 1 := by
    intro q' hq'
    exact (Prod.mk.inj (List.mem_singleton.mp hq')).2
  refine ⟨d', hmount, ?_⟩
  rcases hflight rfl 0 1 _ rfl honly with h | h
  · exact .inl ((h ⟨true, 0⟩ 4086).trans (by decide +kernel))
  · exact .inr ((h ⟨true, 0⟩ 4086).trans (by decide +kernel))

/-- Without `SYNCHRONOUS_PUT_DATA` a put that has returned can be lost. -/
example : (((bufferCache 0 false).store.final (.start (bufferCache 0 false) (freshDriver 2))
    [.call (.put (.allOk 2 7) [65]), .acknowledge 0 (Block.ofMessage ⟨7, true, 1⟩ [65])]).medium 2).metadata.isValid =
      false := by decide +kernel

end Bldms
