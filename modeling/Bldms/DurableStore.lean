/-
  What the device is for: a store that outlives crashes.

  `syscalls_refine_store` is about one mount, `crash_recovery` about one crash.  Here a run goes on after the crash,
  with the mount that follows it, and so any number of times.  `DurableStep` says, in its own terms, what may become
  of the messages: beside the map of `StoreStep` it keeps, for every block, the messages a crash MAY leave there.
  * A call adds what it leaves; a write-back of a block rules out everything else; the return of a call rules things
    out, and with `SYNCHRONOUS_PUT_DATA` everything but the current message, when no other call on the block is in
    flight.
  * A crash chooses for each block, independently of the others.

  The driver on its buffer cache refines this, crash after crash (`durable_store`).  Where every call that has written
  a block has reached the medium, a crash can take nothing back; a run all of whose crashes are such is, to the
  processes, a run of the store of `StoreStep` with no crash in it (`crashes_unseen`).
-/
import Bldms.CrashRecovery

namespace Bldms

open WriteBack

/-! ## The abstract store -/

/-- An event of the cache, or a crash and the mount that follows. -/
inductive DurableEvent where
  | cache (e : CacheEvent Call Nat Block)
  | crash (env : MountEnv)

/-- The map, the messages a crash may leave in a block, and the blocks, as the device numbers them, that calls in flight
    have written. -/
@[ext] structure DurableStore where
  now : Store
  may : Nat → Set (Option (List Byte))
  inFlight : List Nat

/-- Nothing can be lost. -/
def DurableStore.settled (σ : Store) : DurableStore := ⟨σ, fun k => {σ k}, []⟩

/-- The durable store with `n` slots. -/
inductive DurableStep (n : Nat) (synchronous : Bool) :
    DurableStore → DurableEvent → Option Reply → DurableStore → Prop
  | call {D : DurableStore} {c : Call} {r : Reply} {σ : Store} : StoreSpec n D.now c r σ →
      DurableStep n synchronous D (.cache (.call c)) (some r)
        ⟨σ, fun k => insert (σ k) (D.may k), D.inFlight ++ (c.written r).toList⟩
  | writeBack {D : DurableStore} {b : Nat} {left : Block} :
      DurableStep n synchronous D (.cache (.writeBack b left)) none
        ⟨D.now, fun k => if k + 2 = b then {D.now k} else D.may k, D.inFlight⟩
  | acknowledge {D : DurableStore} {j : Nat} {left : Block} {may : Nat → Set (Option (List Byte))} :
      (∀ k, may k ⊆ D.may k ∧ D.now k ∈ may k) →
      (synchronous = true → ∀ k, k + 2 ∉ D.inFlight.eraseIdx j → may k = {D.now k}) →
      DurableStep n synchronous D (.cache (.acknowledge j left)) none ⟨D.now, may, D.inFlight.eraseIdx j⟩
  | crash {D : DurableStore} {env : MountEnv} {σ : Store} : (∀ k, σ k ∈ D.may k) →
      DurableStep n synchronous D (.crash env) none (.settled σ)

/-- Synchronous calls: a block with no call in flight can lose nothing. -/
def DurableStore.Safe (D : DurableStore) : Prop := ∀ k, k + 2 ∉ D.inFlight → D.may k = {D.now k}

/-! ## The driver, crash after crash -/

/-- The driver when the kernel is up again: the device is what the medium holds. -/
def afterCrash (sb : Nat) (s : Stored Driver Nat Block) : Driver :=
  { idleDriver s.medium with disk := Function.update s.now.disk sb s.medium }

/-- The driver on its buffer cache; a crash is followed by a mount. -/
def durable (cfg : Config) (sb : Nat) (synchronous : Bool) :
    System (Stored Driver Nat Block) DurableEvent (Option Reply) where
  step s
    | .cache e => (bufferCache sb synchronous).store.step s e
    | .crash env =>
      match bldmsFsMount cfg.nblocks env sb (afterCrash sb s) with
      | .ok d => (none, .start (bufferCache sb synchronous) d)
      | .err _ | .oops => (none, s)

/-- Block reads, allocations and user copies succeed, those of the mounts included, and every write does its work. -/
def EventSucceeds (sb : Nat) (synchronous : Bool) (s : Stored Driver Nat Block) : DurableEvent → Prop
  | .cache e => Whole (bufferCache sb synchronous) s e ∧ ∀ c, e = .call c → SyscallSucceeds s.now c
  | .crash env => env.Succeeds

/-- The system call of an event, if it is one. -/
def DurableEvent.syscall : DurableEvent → Option Call
  | .cache (.call c) => some c
  | .cache (.writeBack _ _) | .cache (.acknowledge _ _) | .crash _ => none

/-- The event succeeds, and if it is a crash, every call that has written a block has reached the medium. -/
def NothingToLose (sb : Nat) (synchronous : Bool) (s : Stored Driver Nat Block) (e : DurableEvent) : Prop :=
  EventSucceeds sb synchronous s e ∧ ∀ env, e = .crash env → Flushed (bufferCache sb synchronous) s

/-- The message of block `k`, from the bytes of the block. -/
def blockMessage (n k : Nat) (b : Block) : Option (List Byte) :=
  if k < n ∧ b.metadata.isValid = true then some (b.slice 10 b.metadata.validBytes.toNat) else none

/-- The durable store a driver on its cache stands for. -/
def durableView (sb n : Nat) (synchronous : Bool) (s : Stored Driver Nat Block) : DurableStore where
  now := s.now.store sb
  may k := blockMessage n k '' s.versions (bufferCache sb synchronous) (k + 2)
  inFlight := s.inFlight.map Prod.fst

section

variable {cfg : Config} {sb : Nat} {synchronous : Bool} {d d' : Driver} {s : Stored Driver Nat Block}

theorem Inv.store_block {n : Nat} (hI : Inv sb n d) (k : Nat) :
    d.store sb k = blockMessage n k (d.disk sb (k + 2)) := by
  rw [hI.store_eq]
  rfl

theorem durableView_start {n : Nat} (hI : Inv sb n d) :
    durableView sb n synchronous (.start (bufferCache sb synchronous) d) = .settled (d.store sb) := by
  refine DurableStore.ext rfl (funext fun k => ?_) rfl
  show blockMessage n k '' _ = {d.store sb k}
  rw [versions_start, Set.image_singleton, hI.store_block k]
  rfl

namespace Recoverable

/-- A crash leaves the medium recoverable: the mount succeeds, on the device that is on the medium. -/
theorem crash_step (hd : Mounted cfg sb d) (h : Recoverable sb synchronous d s) {env : MountEnv}
    (henv : env.Succeeds) : ∃ d', (durable cfg sb synchronous).step s (.crash env) =
      (none, .start (bufferCache sb synchronous) d') ∧ d'.disk sb = s.medium ∧ OnImage sb d d' := by
  have hmedium : (afterCrash sb s).disk sb = s.medium := Function.update_self ..
  obtain ⟨d', hmount, hdisk, hI⟩ := hd.medium_mounts h henv rfl rfl hmedium
  refine ⟨d', ?_, hdisk, hI, fun b hb => ?_⟩
  · simp only [durable, hmount]
  obtain ⟨p, t, ht, hview, -, -⟩ := h.kept.version b
  rw [hdisk, ← hview]
  exact (h.onImage p t ht).2 b hb

/-! ## Event by event -/

theorem refines_call (h : Recoverable sb synchronous d s) {c : Call} (hc : SyscallSucceeds s.now c) :
    DurableStep (d.blockCount sb) synchronous (durableView sb (d.blockCount sb) synchronous s) (.cache (.call c))
      (some (driver.step s.now c).1)
      (durableView sb (d.blockCount sb) synchronous (s.afterCall (bufferCache sb synchronous) c)) := by
  have hview : durableView sb (d.blockCount sb) synchronous (s.afterCall (bufferCache sb synchronous) c) =
      ⟨(driver.next s.now c).store sb, fun k => insert ((driver.next s.now c).store sb k)
        ((durableView sb (d.blockCount sb) synchronous s).may k),
        s.inFlight.map Prod.fst ++ (c.written (driver.step s.now c).1).toList⟩ := by
    refine DurableStore.ext rfl (funext fun k => ?_) ?_
    · show blockMessage (d.blockCount sb) k '' _ = insert ((driver.next s.now c).store sb k) _
      rw [h.kept.versions_afterCall, Set.image_insert_eq, (h.now.1.step c).store_block k]
      rfl
    · show (s.inFlight ++ _).map Prod.fst = _
      rw [List.map_append]
      congr 1
      show ((c.written (driver.step s.now c).1).map _).toList.map Prod.fst = _
      cases c.written (driver.step s.now c).1 <;> rfl
  rw [hview]
  exact .call (h.now.1.refines hc)

theorem refines_writeBack (h : Recoverable sb synchronous d s) {b : Nat} {left : Block}
    (he : Whole (bufferCache sb synchronous) s (.writeBack b left)) :
    DurableStep (d.blockCount sb) synchronous (durableView sb (d.blockCount sb) synchronous s)
      (.cache (.writeBack b left)) none
      (durableView sb (d.blockCount sb) synchronous (s.afterWriteBack b left)) := by
  obtain rfl : left = (bufferCache sb synchronous).view s.now b := he
  have hview : durableView sb (d.blockCount sb) synchronous
      (s.afterWriteBack b ((bufferCache sb synchronous).view s.now b)) =
      ⟨s.now.store sb, fun k => if k + 2 = b then {s.now.store sb k} else
        (durableView sb (d.blockCount sb) synchronous s).may k, s.inFlight.map Prod.fst⟩ := by
    refine DurableStore.ext rfl (funext fun k => ?_) rfl
    show blockMessage _ k '' _ = ite _ _ _
    split
    · rename_i hk
      rw [hk, h.kept.versions_afterWriteBack, Set.image_singleton, h.now.1.store_block k, hk]
      rfl
    · rename_i hk
      rw [versions_afterWriteBack_of_ne hk]
      rfl
  rw [hview]
  exact .writeBack

/-- A block that no call in flight has written has nothing to lose, if calls are synchronous. -/
theorem safe (h : Recoverable sb true d s) : (durableView sb (d.blockCount sb) true s).Safe := by
  intro k hk
  have hidle : ∀ q, (k + 2, q) ∉ s.inFlight := fun q hq => hk (List.mem_map_of_mem hq)
  show blockMessage _ k '' _ = _
  rw [h.kept.versions_idle rfl hidle, Set.image_singleton]
  show {blockMessage _ k (s.now.disk sb (k + 2))} = ({s.now.store sb k} : Set _)
  rw [h.now.1.store_block k]

theorem now_mem (h : Recoverable sb synchronous d s) (k : Nat) :
    s.now.store sb k ∈ (durableView sb (d.blockCount sb) synchronous s).may k := by
  rw [h.now.1.store_block k]
  exact Set.mem_image_of_mem _ (h.kept.now_mem (k + 2))

theorem refines_acknowledge (h : Recoverable sb synchronous d s) {j : Nat} {left : Block}
    (he : Whole (bufferCache sb synchronous) s (.acknowledge j left)) :
    DurableStep (d.blockCount sb) synchronous (durableView sb (d.blockCount sb) synchronous s)
      (.cache (.acknowledge j left)) none (durableView sb (d.blockCount sb) synchronous
        ((bufferCache sb synchronous).store.next s (.acknowledge j left))) := by
  have h' := h.cache he
  obtain ⟨hnow, hflight, hsub⟩ := acknowledge_frame (C := bufferCache sb synchronous) s j left
  have hview : durableView sb (d.blockCount sb) synchronous
      ((bufferCache sb synchronous).store.next s (.acknowledge j left)) =
      ⟨s.now.store sb, (durableView sb (d.blockCount sb) synchronous
        ((bufferCache sb synchronous).store.next s (.acknowledge j left))).may, (s.inFlight.map Prod.fst).eraseIdx j⟩ := by
    refine DurableStore.ext (congrArg (Driver.store · sb) hnow) rfl ?_
    show ((bufferCache sb synchronous).store.next s (.acknowledge j left)).inFlight.map Prod.fst = _
    rw [hflight, List.eraseIdx_map]
  rw [hview]
  refine .acknowledge (fun k => ⟨Set.image_mono (hsub (k + 2)), ?_⟩) fun hsync k hk => ?_
  · have hmem := h'.now_mem k
    rwa [hnow] at hmem
  · subst hsync
    have hsafe := h'.safe k (by rw [hview]; exact hk)
    rwa [show (durableView sb (d.blockCount sb) true ((bufferCache sb true).store.next s (.acknowledge j left))).now =
      s.now.store sb from congrArg (Driver.store · sb) hnow] at hsafe

theorem refines_crash (hd : Mounted cfg sb d) (h : Recoverable sb synchronous d s) {env : MountEnv}
    (henv : env.Succeeds) :
    DurableStep (d.blockCount sb) synchronous (durableView sb (d.blockCount sb) synchronous s) (.crash env)
      ((durable cfg sb synchronous).step s (.crash env)).1
      (durableView sb (d.blockCount sb) synchronous ((durable cfg sb synchronous).next s (.crash env))) := by
  obtain ⟨d', hstep, hdisk, himage⟩ := h.crash_step hd henv
  rw [System.next, hstep, durableView_start himage.1]
  refine .crash fun k => ?_
  rw [himage.1.store_block k, hdisk]
  exact Set.mem_image_of_mem _ (h.kept.medium_mem (k + 2))

/-- **The step lemma.** -/
theorem step (hd : Mounted cfg sb d) (h : Recoverable sb synchronous d s) {e : DurableEvent}
    (he : EventSucceeds sb synchronous s e) :
    Recoverable sb synchronous d ((durable cfg sb synchronous).next s e) := by
  cases e with
  | cache e => exact h.cache he.1
  | crash env =>
    obtain ⟨d', hstep, -, himage⟩ := h.crash_step hd he
    rw [System.next, hstep]
    exact .start himage

/-- **The simulation step**: every event is a step of the durable store. -/
theorem refines (hd : Mounted cfg sb d) (h : Recoverable sb synchronous d s) {e : DurableEvent}
    (he : EventSucceeds sb synchronous s e) :
    DurableStep (d.blockCount sb) synchronous (durableView sb (d.blockCount sb) synchronous s) e
      ((durable cfg sb synchronous).step s e).1
      (durableView sb (d.blockCount sb) synchronous ((durable cfg sb synchronous).next s e)) := by
  cases e with
  | cache e =>
    cases e with
    | call c => exact h.refines_call (he.2 c rfl)
    | writeBack b left => exact h.refines_writeBack he.1
    | acknowledge j left => exact h.refines_acknowledge he.1
  | crash env => exact h.refines_crash hd he

/-- A system call is a step of the store; nothing else is seen of it, if a crash has nothing to take back. -/
theorem unseen (hd : Mounted cfg sb d) (h : Recoverable sb synchronous d s) {e : DurableEvent}
    (he : NothingToLose sb synchronous s e) :
    (∃ c r, e.syscall = some c ∧ id ((durable cfg sb synchronous).step s e).1 = some r ∧
      StoreSpec (d.blockCount sb) (s.now.store sb) c r (((durable cfg sb synchronous).next s e).now.store sb)) ∨
    e.syscall = none ∧ id ((durable cfg sb synchronous).step s e).1 = none ∧
      ((durable cfg sb synchronous).next s e).now.store sb = s.now.store sb := by
  obtain ⟨hok, hflushed⟩ := he
  cases e with
  | cache e =>
    cases e with
    | call c => exact .inl ⟨c, _, rfl, rfl, h.now.1.refines (hok.2 c rfl)⟩
    | writeBack b left => exact .inr ⟨rfl, rfl, rfl⟩
    | acknowledge j left =>
      obtain ⟨hnow, -, -⟩ := acknowledge_frame (C := bufferCache sb synchronous) s j left
      exact .inr ⟨rfl, rfl, congrArg (Driver.store · sb) hnow⟩
  | crash env =>
    obtain ⟨d', hstep, hdisk, himage⟩ := h.crash_step hd hok
    refine .inr ⟨rfl, by rw [hstep]; rfl, ?_⟩
    rw [System.next, hstep]
    funext k
    show d'.store sb k = _
    rw [himage.1.store_block k, h.now.1.store_block k, hdisk, h.kept.flushed (hflushed env rfl)]
    rfl

end Recoverable

end

/-- **The device is a durable store.**  From any mount, take a run of system calls, write-backs, returns and crashes,
    each followed by a mount, in which block reads, allocations and user copies succeed and every write does its work.
    It goes call by call and crash by crash as the durable store does that starts with the messages of the image and
    nothing to lose; and the messages it has are those the driver serves.  With `SYNCHRONOUS_PUT_DATA` a crash can take
    back nothing, at the end of any such run, of a block that no call in flight has written. -/
theorem durable_store (cfg : Config) (sb : Nat) (d : Driver) (hd : Mounted cfg sb d) (synchronous : Bool)
    (es : List DurableEvent)
    (hok : (durable cfg sb synchronous).AllSteps (EventSucceeds sb synchronous) (.start (bufferCache sb synchronous) d) es) :
    ∃ D, Traces (DurableStep (d.blockCount sb) synchronous) (.settled (d.store sb)) es
        ((durable cfg sb synchronous).replies (.start (bufferCache sb synchronous) d) es) D ∧
      D.now = ((durable cfg sb synchronous).final (.start (bufferCache sb synchronous) d) es).now.store sb ∧
      (synchronous = true → D.Safe) := by
  have hstart := hd.recoverable_start synchronous
  have htrace := Traces.of_system (S := durable cfg sb synchronous) (C := EventSucceeds sb synchronous)
    (P := Recoverable sb synchronous d) (A := DurableStep (d.blockCount sb) synchronous)
    (durableView sb (d.blockCount sb) synchronous) (fun _ _ he h => h.step hd he) (fun _ _ he h => h.refines hd he)
    hok hstart
  rw [durableView_start (mounted_inv hd)] at htrace
  refine ⟨_, htrace, rfl, fun hsync => ?_⟩
  subst hsync
  exact (hok.final (P := Recoverable sb true d) (fun _ _ he h => h.step hd he) hstart).safe

/-- The call of an event of the cache succeeds, if a given one does. -/
theorem succeeds_call {d : Driver} {c : Call} (hc : SyscallSucceeds d c) :
    ∀ c', (.call c : CacheEvent Call Nat Block) = .call c' → SyscallSucceeds d c' := by
  intro c' h
  exact CacheEvent.call.inj h ▸ hc

/-- The write of a call that returns does its work, for the block at its place in the list. -/
theorem whole_acknowledge {sb : Nat} {s : Stored Driver Nat Block} {j b q : Nat} {left : Block}
    (hj : s.inFlight[j]? = some (b, q)) (hleft : left = s.now.disk sb b) :
    Whole (bufferCache sb true) s (.acknowledge j left) := by
  intro _ v hv
  obtain rfl : (b, q) = v := Option.some.inj (hj.symm.trans hv)
  exact hleft

/-- A put that has returned, a crash, an invalidation that has not returned, and another crash: the message survives
    the first crash, and may survive the second. -/
theorem durable_store_two_crashes :
    let es : List DurableEvent := [.cache (.call (.put (.allOk 2 7) [65])),
      .cache (.acknowledge 0 (Block.ofMessage ⟨7, true, 1⟩ [65])), .crash .allOk,
      .cache (.call (.get ⟨true, 0⟩ 0 10)), .cache (.call (.invalidate true 0)), .crash .allOk,
      .cache (.call (.get ⟨true, 0⟩ 0 10))]
    let replies := (durable .standard 0 true).replies (.start (bufferCache 0 true) (freshDriver 2)) es
    replies.map (·.bind Reply.result) = [some (.index 0), none, none, some (.bytes [65]), some .done, none,
      some (.bytes [65])] ∧
    ∃ D, Traces (DurableStep ((freshDriver 2).blockCount 0) true) (.settled ((freshDriver 2).store 0)) es replies D := by
  intro es replies
  obtain ⟨D, htrace, -, -⟩ := durable_store .standard 0 (freshDriver 2) (mounted_freshDriver .standard (by decide)) true
    es ⟨⟨trivial, succeeds_call ⟨rfl, rfl, rfl, rfl, rfl⟩⟩, ⟨whole_acknowledge rfl rfl, fun _ h => by cases h⟩,
      MountEnv.allOk_succeeds, ⟨trivial, succeeds_call ⟨rfl, rfl⟩⟩, ⟨trivial, succeeds_call rfl⟩,
      MountEnv.allOk_succeeds, ⟨trivial, succeeds_call ⟨rfl, rfl⟩⟩, trivial⟩
  exact ⟨by decide +kernel, D, htrace⟩

/-- **Crashes that processes do not see.**  In a run of system calls, write-backs, returns and crashes, let block reads,
    allocations and user copies succeed, those of the mounts included, and every write do its work; and let each crash
    find that every call that has written a block has returned, with `SYNCHRONOUS_PUT_DATA`, or has been followed by a
    write-back of the block.  Then the calls alone, with their answers, are a run of the store of messages from the
    image to what the driver serves at the end: as if there had been neither crashes nor mounts. -/
theorem crashes_unseen (cfg : Config) (sb : Nat) (d : Driver) (hd : Mounted cfg sb d) (synchronous : Bool)
    (es : List DurableEvent)
    (hok : (durable cfg sb synchronous).AllSteps (NothingToLose sb synchronous)
      (.start (bufferCache sb synchronous) d) es) :
    Traces (StoreSpec (d.blockCount sb)) (d.store sb) (es.filterMap DurableEvent.syscall)
      (((durable cfg sb synchronous).replies (.start (bufferCache sb synchronous) d) es).filterMap id)
      (((durable cfg sb synchronous).final (.start (bufferCache sb synchronous) d) es).now.store sb) :=
  Traces.of_stuttering (S := durable cfg sb synchronous) (C := NothingToLose sb synchronous)
    (P := Recoverable sb synchronous d) (fun s => s.now.store sb) DurableEvent.syscall id
    (fun _ _ he h => h.step hd he.1) (fun _ _ he h => h.unseen hd he) hok (hd.recoverable_start synchronous)

/-- A put that has returned and a crash, an invalidation that has returned and a crash: the message is there, and then
    it is not. -/
theorem crashes_unseen_two_crashes :
    let es : List DurableEvent := [.cache (.call (.put (.allOk 2 7) [65])),
      .cache (.acknowledge 0 (Block.ofMessage ⟨7, true, 1⟩ [65])), .crash .allOk,
      .cache (.call (.get ⟨true, 0⟩ 0 10)), .cache (.call (.invalidate true 0)),
      .cache (.acknowledge 0 ((Block.ofMessage ⟨7, true, 1⟩ [65]).writeMetadata ⟨7, false, 1⟩)), .crash .allOk,
      .cache (.call (.get ⟨true, 0⟩ 0 10))]
    let replies := ((durable .standard 0 true).replies (.start (bufferCache 0 true) (freshDriver 2)) es).filterMap id
    replies.map Reply.result = [some (.index 0), some (.bytes [65]), some .done, some (.fail .enodata)] ∧
    Traces (StoreSpec ((freshDriver 2).blockCount 0)) ((freshDriver 2).store 0) (es.filterMap DurableEvent.syscall) replies
      (((durable .standard 0 true).final (.start (bufferCache 0 true) (freshDriver 2)) es).now.store 0) := by
  intro es replies
  -- only a crash has a condition beside its success
  have hquiet : ∀ {e : CacheEvent Call Nat Block} {s} env, DurableEvent.cache e = .crash env →
      Flushed (bufferCache 0 true) s := by
    intro e s env h
    cases h
  have hmount := MountEnv.allOk_succeeds
  refine ⟨by decide +kernel, crashes_unseen .standard 0 (freshDriver 2) (mounted_freshDriver .standard (by decide)) true
    es ⟨⟨⟨trivial, succeeds_call ⟨rfl, rfl, rfl, rfl, rfl⟩⟩, hquiet⟩,
      ⟨⟨whole_acknowledge rfl rfl, fun _ h => by cases h⟩, hquiet⟩, ⟨hmount, fun _ _ => ?_⟩,
      ⟨⟨trivial, succeeds_call ⟨rfl, rfl⟩⟩, hquiet⟩, ⟨⟨trivial, succeeds_call rfl⟩, hquiet⟩,
      ⟨⟨whole_acknowledge (b := 2) (q := 2) (by decide +kernel) ?_, fun _ h => by cases h⟩, hquiet⟩,
      ⟨hmount, fun _ _ => ?_⟩, ⟨⟨trivial, succeeds_call ⟨rfl, rfl⟩⟩, hquiet⟩, trivial⟩⟩
  · exact .of_idle rfl (by decide +kernel)
  · rfl
  · exact .of_idle rfl (by decide +kernel)

end Bldms
