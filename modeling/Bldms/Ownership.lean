/-
  Who owns the metadata entries, from the mount to the unmount.

  Source: `bldms.c`, `bldms_fs_fill_super`, `free_data_structures`, `bldms_fs_kill_sb`; `syscalls.c`, `_put_data`.

  An entry is allocated by the scan of a mount or by a put, sits in a slot of `metadata_array`, and is released
  by the put that takes its slot.  `Holdings` is the `Ledger` of the released entries with the other side of the
  account, the entries ALLOCATED so far.  As there, an entry is identified by its allocation.

  * `Accounted` — the allocated entries are those in the slots and the released ones, up to order; every
    call whose put can read its block conserves this;
  * `Accounted.owned_while_mounted` — so between two calls the entries allocated and not released are exactly
    those in the slots, each in one;
  * `Accounted.putMoments` — inside a put they are those in the slots and those of its local pointers;
  * `Accounted.killSb` — the unmount releases the list and the array of pointers, and no entry, although the
    clean-up of a failed mount does;
  * `MountMem.released_asLeft`, `fillSuperMem_entries_kept` — so it is in memory, link by link.

  `entries_owned_iff`: a mount accounts for its entries to the end exactly on a device without data blocks.
-/
import Bldms.AllOrNothing
import Bldms.FailedMount

namespace Bldms

open Intrusive

/-! ## The account -/

/-- The driver with both sides of its account: the entries released and the entries allocated so far. -/
structure Holdings extends Ledger where
  allocated : List Nat

/-- The driver with its account, call by call. -/
def holdings : System Holdings Call Reply where
  step a c := ((driver.step a.drv c).1, ⟨ledger.next a.toLedger c, a.allocated ++ c.allocates a.drv⟩)

@[simp] theorem holdings_toLedger (a : Holdings) (c : Call) :
    (holdings.next a c).toLedger = ledger.next a.toLedger c := rfl
@[simp] theorem holdings_allocated (a : Holdings) (c : Call) :
    (holdings.next a c).allocated = a.allocated ++ c.allocates a.drv := rfl

/-- What `free_data_structures` hands to `kfree`: the nodes of the list, then the array of pointers. -/
def Driver.releasedByKillSb (d : Driver) : List Obj :=
  d.validBlkList.map (fun el => .elem el.ndx) ++ [.container]

/-- The metadata entry an object is: the entry of block `i` is the one slot `i` refers to. -/
def Driver.entryOf (d : Driver) : Obj → List Nat
  | .entry i => d.entryAt i
  | .container => []
  | .elem _ => []
  | .buffer _ => []

namespace Holdings

/-- What a mount starts with: an entry for each block, allocated by the scan. -/
def atMount (env : MountEnv) (d : Driver) : Holdings :=
  ⟨⟨d, []⟩, (List.range d.mdArraySize).filterMap env.allocMd⟩

/-- `bldms_fs_kill_sb`. -/
def killSb (a : Holdings) : Holdings :=
  ⟨⟨a.drv.killSb, a.released ++ a.drv.releasedByKillSb.flatMap a.drv.entryOf⟩, a.allocated⟩

/-- The entries allocated and not released are exactly those the slots refer to, each by one slot, and
    none has been released twice. -/
structure Owned (a : Holdings) : Prop where
  slots : ∀ id, id ∈ a.drv.entries ↔ id ∈ a.allocated ∧ id ∉ a.released
  once : a.drv.entries.Nodup
  releasedOnce : a.released.Nodup

/-- From a mount through the calls to the unmount: every state in between is `Owned`, and after it every
    entry ever allocated has been released, once. -/
structure OwnedThroughout (start : Holdings) (calls : List Call) : Prop where
  mounted : ∀ a ∈ holdings.states start calls, a.Owned
  released : ∀ id ∈ (holdings.final start calls).killSb.allocated, id ∈ (holdings.final start calls).killSb.released
  releasedOnce : (holdings.final start calls).killSb.released.Nodup

/-- The invariant: what has been allocated is in a slot or has been released. -/
structure Accounted (sb n : Nat) (a : Holdings) : Prop where
  inv : Inv sb n a.drv
  account : a.allocated.Perm (a.drv.entries ++ a.released)

end Holdings

/-! ## What the scan allocates -/

/-- The entries of the array are those the scan was given, in order. -/
theorem scan_ids {env : MountEnv} {dev : Device} :
    ∀ {n i : Nat} {s s' : Scan}, scan env dev s i n = .ok s' →
      s'.arr.map MdEntry.id = s.arr.map MdEntry.id ++ (List.range' i n).filterMap env.allocMd := by
  intro n
  induction n with
  | zero =>
    intro i s s' h
    obtain rfl := Except.ok.inj h
    exact (List.append_nil _).symm
  | succ n ih =>
    intro i s s' h
    rw [scan] at h
    cases hstep : scanStep env dev s i with
    | error f => rw [hstep] at h; cases h
    | ok s₁ =>
      rw [hstep] at h
      obtain ⟨id, hid, harr, -⟩ := scanStep_ok hstep
      rw [ih h, harr, List.range'_succ, List.filterMap_cons_some hid, List.map_append, List.append_assoc]
      rfl

/-- The entries `fill_super` leaves in the slots. -/
theorem fillSuper_entries {nblocks : Nat} {env : MountEnv} {sb : Nat} {d₀ d : Driver}
    (hfill : bldmsFsFillSuper nblocks env sb d₀ = .ok d) :
    d.entries = (List.range d.mdArraySize).filterMap env.allocMd := by
  obtain ⟨-, -, s, hscan, hd⟩ := bldmsFsFillSuper_ok hfill
  have harr : d.metadataArray = s.arr := by rw [hd]
  have hsize : d.mdArraySize = inodeFileSize (d₀.disk sb 1) / 4096 := by rw [hd]
  rw [Driver.entries, harr, hsize, scan_ids hscan, List.range_eq_range', List.map_nil, List.nil_append]

theorem mount_entries {nblocks : Nat} {env : MountEnv} {sb : Nat} {d₀ d : Driver}
    (hmount : bldmsFsMount nblocks env sb d₀ = .ok d) :
    d.entries = (List.range d.mdArraySize).filterMap env.allocMd := by
  obtain ⟨-, d₁, hfill, rfl⟩ := bldmsFsMount_ok hmount
  have hentries := fillSuper_entries hfill
  exact hentries

namespace Holdings

variable {sb n : Nat} {a : Holdings}

/-! ## Between two calls -/

/-- A mount starts with its account in order. -/
theorem accounted_atMount (cfg : Config) {env : MountEnv} {d₀ d : Driver} (hlist : d₀.validBlkList = [])
    (hmount : bldmsFsMount cfg.nblocks env sb d₀ = .ok d) : Accounted sb (d.blockCount sb) (atMount env d) := by
  refine ⟨mount_inv cfg.fits hlist hmount, ?_⟩
  show ((List.range d.mdArraySize).filterMap env.allocMd).Perm (d.entries ++ [])
  rw [mount_entries hmount, List.append_nil]

/-- **The step lemma**: what a call allocates is in a slot or released after it. -/
theorem Accounted.step (h : Accounted sb n a) {c : Call} (hread : BlockRead a.toLedger c) :
    Accounted sb n (holdings.next a c) := by
  refine ⟨h.inv.step c, ?_⟩
  have hbefore : (a.allocated ++ c.allocates a.drv).Perm (c.allocates a.drv ++ (a.drv.entries ++ a.released)) :=
    List.perm_append_comm.trans (h.account.append_left _)
  exact hbefore.trans (Ledger.conserved h.inv hread).symm

/-- The run lemma. -/
theorem Accounted.run (h : Accounted sb n a) {calls : List Call}
    (hread : holdings.AllSteps (fun b => BlockRead b.toLedger) a calls) :
    ∀ b ∈ holdings.states a calls, Accounted sb n b :=
  hread.invariant (fun _ _ hread hb => hb.step hread) h

/-- Nothing is ever taken off the allocated side. -/
theorem allocated_grows (a : Holdings) (calls : List Call) :
    ∀ b ∈ holdings.states a calls, b.allocated <+: (holdings.final a calls).allocated :=
  System.rel_final (R := fun b c : Holdings => b.allocated <+: c.allocated) (fun _ => List.prefix_rfl)
    (fun _ _ _ => List.IsPrefix.trans) fun _ _ => List.prefix_append _ _

/-- An account in order, with no allocation twice, is ownership. -/
theorem Accounted.owned (h : Accounted sb n a) (hdistinct : a.allocated.Nodup) : Owned a := by
  obtain ⟨hslots, hreleased, hdisjoint⟩ := List.nodup_append'.mp (h.account.nodup_iff.mp hdistinct)
  refine ⟨?_, hslots, hreleased⟩
  intro id
  rw [h.account.mem_iff, List.mem_append]
  constructor
  · intro hin
    exact ⟨.inl hin, hdisjoint hin⟩
  · rintro ⟨hin | hrel, hnot⟩
    · exact hin
    · exact absurd hrel hnot

/-- **While mounted**: in every run whose puts can read their blocks, the entries allocated and not released
    are those in the slots, each in one slot, and none is released twice, however many calls fail. -/
theorem Accounted.owned_while_mounted (h : Accounted sb n a) {calls : List Call}
    (hread : holdings.AllSteps (fun b => BlockRead b.toLedger) a calls)
    (hdistinct : (holdings.final a calls).allocated.Nodup) : ∀ b ∈ holdings.states a calls, Owned b := by
  intro b hb
  have hgrows := allocated_grows a calls b hb
  exact (h.run hread b hb).owned (hdistinct.sublist hgrows.sublist)

/-! ## Inside a put -/

/-- A moment inside a put: the holdings, and the entries that only its local pointers refer to. -/
structure PutMoment extends Holdings where
  locals : List Nat

/-- The moments of a put at which an entry has changed hands: `new_metadata` has been allocated, and the lock
    has been given back, with the slot redirected or not, before anything is released. -/
def putMoments (e : PutEnv) (m : List Byte) (a : Holdings) : List PutMoment :=
  match putPrepare e m a.drv with
  | .ok p =>
    let out := putCritical p e.bread a.drv
    [⟨⟨a.toLedger, a.allocated ++ [p.newMetadata.id]⟩, [p.newMetadata.id]⟩,
      ⟨⟨⟨out.drv, a.released⟩, a.allocated ++ [p.newMetadata.id]⟩, out.freed⟩]
  | _ => []

/-- Inside a put, an entry allocated and not released is in a slot or is one of its local pointers'. -/
theorem Accounted.putMoments (h : Accounted sb n a) {e : PutEnv} {m : List Byte}
    (hread : BlockRead a.toLedger (.put e m)) :
    ∀ t ∈ putMoments e m a, t.allocated.Perm (t.drv.entries ++ (t.released ++ t.locals)) := by
  intro t ht
  unfold Holdings.putMoments at ht
  split at ht
  · rename_i p hp
    have hafter := (h.step hread).account
    have hput : putData e m a.drv = putCritical p e.bread a.drv := by rw [putData, hp]
    have hallocates : (Call.put e m).allocates a.drv = [p.newMetadata.id] := by rw [Call.allocates, hp]
    rcases List.mem_cons.mp ht with rfl | ht
    · show (a.allocated ++ [p.newMetadata.id]).Perm (a.drv.entries ++ (a.released ++ [p.newMetadata.id]))
      rw [← List.append_assoc]
      exact h.account.append_right _
    · obtain rfl := List.mem_singleton.mp ht
      -- the account after the call, with what is about to be released still in its hands
      show (a.allocated ++ [p.newMetadata.id]).Perm ((putCritical p e.bread a.drv).drv.entries ++
        (a.released ++ (putCritical p e.bread a.drv).freed))
      rw [holdings_allocated, hallocates, holdings_toLedger, Ledger.next_put, hput] at hafter
      exact hafter
  · exact absurd ht List.not_mem_nil

/-! ## The unmount -/

/-- None of what `free_data_structures` releases is an entry. -/
theorem entryOf_releasedByKillSb (d : Driver) : d.releasedByKillSb.flatMap d.entryOf = [] := by
  rw [List.flatMap_eq_nil_iff]
  intro o ho
  rcases List.mem_append.mp ho with ho | ho
  · obtain ⟨el, -, rfl⟩ := List.mem_map.mp ho
    rfl
  · obtain rfl := List.mem_singleton.mp ho
    rfl

/-- The slots are gone after the unmount, and the entries that were in them have not been released. -/
theorem Accounted.killSb (h : Accounted sb n a) :
    a.killSb.drv.entries = [] ∧ a.killSb.allocated.Perm (a.drv.entries ++ a.killSb.released) := by
  refine ⟨rfl, ?_⟩
  show a.allocated.Perm (a.drv.entries ++ (a.released ++ a.drv.releasedByKillSb.flatMap a.drv.entryOf))
  rw [entryOf_releasedByKillSb, List.append_nil]
  exact h.account

/-- There is one entry for each block. -/
theorem Accounted.length_entries (h : Accounted sb n a) : a.drv.entries.length = n := by
  rw [Driver.entries, List.length_map]
  exact h.inv.length

/-- **From the mount to the unmount**: ownership is kept to the end if there has been no slot. -/
theorem Accounted.ownedThroughout_iff (h : Accounted sb n a) {calls : List Call}
    (hread : holdings.AllSteps (fun b => BlockRead b.toLedger) a calls)
    (hdistinct : (holdings.final a calls).allocated.Nodup) : OwnedThroughout a calls ↔ n = 0 := by
  have hfinal := h.run hread _ (holdings.final_mem_states a calls)
  obtain ⟨-, hkilled⟩ := hfinal.killSb
  have hnodup := hkilled.nodup_iff.mp hdistinct
  constructor
  · intro howned
    -- an entry in a slot has been allocated, and the unmount does not release it
    rw [← hfinal.length_entries, List.length_eq_zero_iff, List.eq_nil_iff_forall_not_mem]
    intro id hin
    have hallocated := hkilled.mem_iff.mpr (List.mem_append_left _ hin)
    exact (List.nodup_append'.mp hnodup).2.2 hin (howned.released id hallocated)
  · intro hzero
    have hempty : (holdings.final a calls).drv.entries = [] := by
      rw [← List.length_eq_zero_iff, hfinal.length_entries, hzero]
    rw [hempty, List.nil_append] at hkilled hnodup
    exact ⟨h.owned_while_mounted hread hdistinct, fun id hid => hkilled.mem_iff.mp hid, hnodup⟩

end Holdings

/-! ## The unmount in memory -/

/-- With released memory as it was left, `free_data_structures` releases what `releasedByKillSb` lists, in
    that order. -/
theorem MountMem.released_asLeft {g : MountMem} {d : Driver} {l : List Nat} (hring : Represents g.mem l)
    (hlist : l.map g.elems = d.validBlkList) (hndx : ∀ a ∈ l, (g.elems a).ndx = a)
    (harr : g.array.isSome = true) {passes : Nat} (hpasses : l.length ≤ passes) :
    ∃ g', g.freeDataStructures .asLeft passes = (.ok (), g') ∧
      g'.released = g.released ++ d.releasedByKillSb := by
  obtain ⟨t, hloop, -, -, hreleased, -⟩ := removeAllEntriesSecure_asLeft hring hpasses
  have hnodes : l.map Obj.elem = d.validBlkList.map fun el => .elem el.ndx := by
    rw [← hlist, List.map_map]
    refine List.map_congr_left ?_
    intro a ha
    exact congrArg Obj.elem (hndx a ha).symm
  refine ⟨_, by rw [MountMem.freeDataStructures, hloop], ?_⟩
  show g.released ++ t.released.map .elem ++ (if g.array.isSome then [.container] else []) = _
  rw [hreleased, harr, if_pos rfl, hnodes, List.append_assoc]
  rfl

/-- Whatever released memory reads as, and however far its loop gets, it releases no entry. -/
theorem MountMem.entry_released_freeDataStructures (stale : Stale) (passes : Nat) (g : MountMem) (i : Nat) :
    .entry i ∈ (g.freeDataStructures stale passes).2.released ↔ .entry i ∈ g.released := by
  unfold MountMem.freeDataStructures
  split
  · dsimp only [MountMem.afterTeardown]
    split <;> simp
  · simp [MountMem.afterTeardown]

/-- A mount in memory followed by its unmount: the scan allocates an entry for every block, and none of them is
    released. -/
theorem fillSuperMem_entries_kept (stale : Stale) (passes : Nat) {env : MountEnv} {dev : Device} {d : Driver}
    {n : Nat} {s : Scan} (hscan : scan env dev ⟨[], []⟩ 0 n = .ok s) :
    ∃ g, fillSuperMem stale passes env dev n (.atScan d n) = (.ok (), g) ∧
      (∀ i, .entry i ∈ g.obtained ↔ i < n) ∧
      ∀ i, .entry i ∉ (g.freeDataStructures stale passes).2.released := by
  obtain ⟨g, l, hmem, hheld⟩ := (held_atScan d dev n).scan_ok hscan
  rw [Nat.zero_add] at hheld
  refine ⟨_, by rw [fillSuperMem, hmem], ?_, ?_⟩
  · intro i
    show .entry i ∈ g.obtained ↔ i < n
    rw [hheld.obtained]
    simp [entry_mem_obtainedFor]
  · intro i
    rw [MountMem.entry_released_freeDataStructures]
    show .entry i ∉ g.released
    rw [hheld.released]
    simp

open Holdings

/-- **Ownership of the entries, exactly when.**  For every mount and every sequence of calls whose puts can
    read their blocks, the slots own the entries throughout, and the unmount has released every entry, once, if
    and only if the device has no data block. -/
theorem entries_owned_iff (cfg : Config) (env : MountEnv) (sb : Nat) {d₀ d : Driver}
    (hlist : d₀.validBlkList = []) (hmount : bldmsFsMount cfg.nblocks env sb d₀ = .ok d) (calls : List Call)
    (hread : holdings.AllSteps (fun a => BlockRead a.toLedger) (atMount env d) calls)
    (hdistinct : (holdings.final (atMount env d) calls).allocated.Nodup) :
    OwnedThroughout (atMount env d) calls ↔ inodeFileSize (d₀.disk sb 1) < 4096 := by
  have hblocks : d.blockCount sb = inodeFileSize (d₀.disk sb 1) / 4096 := by
    obtain ⟨-, d₁, hfill, rfl⟩ := bldmsFsMount_ok hmount
    obtain ⟨-, -, s, -, hd⟩ := bldmsFsFillSuper_ok hfill
    have hdisk : d₁.disk = d₀.disk := by rw [hd]
    show inodeFileSize (d₁.disk sb 1) / 4096 = inodeFileSize (d₀.disk sb 1) / 4096
    rw [hdisk]
  rw [(accounted_atMount cfg hlist hmount).ownedThroughout_iff hread hdistinct, hblocks]
  omega

/-- A put that finds no block on an empty device, and a device of two blocks with a put and an invalidation. -/
theorem entries_owned_two_devices :
    let put : Call := .put (.allOk 5 10) [1]
    OwnedThroughout (atMount .allOk (freshDriver 0)) [put] ∧
    ¬ OwnedThroughout (atMount .allOk (freshDriver 2)) [put, .invalidate true 0] := by
  intro put
  have hidle (k : Nat) : (idleDriver (emptyImage k)).validBlkList = [] := rfl
  have hnone := entries_owned_iff .standard .allOk 0 (hidle 0) (mount_emptyImage .standard (by decide)) [put]
    ⟨fun _ _ _ _ => rfl, trivial⟩ (by decide)
  have htwo := entries_owned_iff .standard .allOk 0 (hidle 2) (mount_emptyImage .standard (by decide))
    [put, .invalidate true 0] ⟨fun _ _ _ _ => rfl, trivial, trivial⟩ (by decide)
  have hsize (k : Nat) (hk : k * 4096 < 2 ^ 64) :
      inodeFileSize ((idleDriver (emptyImage k)).disk 0 1) = k * 4096 := inodeFileSize_sizedImage hk
  rw [hsize 0 (by decide)] at hnone
  rw [hsize 2 (by decide)] at htwo
  exact ⟨hnone.mpr (by decide), fun h => absurd (htwo.mp h) (by decide)⟩

/-- On a device of one block: a put takes the slot of the entry of the mount, the message is invalidated, and
    the unmount leaves the entry of the put behind. -/
theorem entries_leaked :
    let calls : List Call := [.put (.allOk 5 10) [1], .invalidate true 0]
    let start := atMount .allOk (freshDriver 1)
    let last := holdings.final start calls
    bldmsFsMount Config.standard.nblocks .allOk 0 (idleDriver (emptyImage 1)) = .ok (freshDriver 1) ∧
    last.allocated = [0, 5] ∧ last.drv.entries = [5] ∧ last.released = [0] ∧
    last.killSb.drv.entries = [] ∧ last.killSb.released = [0] ∧ ¬ OwnedThroughout start calls := by
  refine ⟨mount_emptyImage .standard (by decide), by decide, by decide, by decide, rfl, by decide, ?_⟩
  intro howned
  have hleft := howned.released 5 (by decide)
  exact absurd hleft (by decide)

end Bldms
