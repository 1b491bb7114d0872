/-
  The slots of `metadata_array` as the pointers they are.

  Source: `include/device.h`, `metadata_array`; `syscalls.c`, the `kzalloc` and `kfree` of its entries.

  `Driver` has the content of an entry in its slot.  Here a slot is a POINTER into the memory of the entries, which
  the allocator hands out and takes back:
  * `kzalloc` gives any entry that is on the free list or in no slot; `put_data` fills it before it takes the lock;
  * `kfree` puts an entry on the free list, whether or not a slot still refers to it, and once for each call;
  * the kernel may use what is on the free list for anything (`PtrEvent.scribble`).
  A put allocates at the moment of its critical section.  That covers the puts that have allocated earlier: what they
  hold was free, or in no slot, all the time since.

  A put that fails to read the block it has chosen releases the entry of the slot (`putCritical`), and then the two
  pictures part: the next put may be given that entry, and its message shows in two slots.  Until then they do not.
  * `PtrDriver.Sound` — no entry is in two slots, on the free list twice, or both; the driver that `PtrDriver.view`
    reads off the slots has its own invariant;
  * `Sound.step_eq`   — from there a call does on the pointers what `driver` does by value;
  * `Sound.next`      — and leads to such a state again, if its put reads the block it has chosen (`PutReads`);
  * `Sound.mem_states`, `Sound.view_replies` — so the runs whose puts all do are those of `driver`, state by state
    and answer by answer.
-/
import Bldms.AllOrNothing

namespace Bldms

/-! ## The driver on its pointers -/

/-- The driver with the entries of `metadata_array` in memory of their own. -/
structure PtrDriver where
  /-- The other globals, and the devices; the array in here is not used. -/
  globals : Driver
  /-- `metadata_array`. -/
  slots : List Nat
  /-- The content of each entry. -/
  mem : Nat → BldmsBlock
  /-- The entries `kfree` has been called for, and not handed out since. -/
  free : List Nat

/-- A call, or a use of a free entry by some other part of the kernel. -/
inductive PtrEvent where
  | call (c : Call)
  | scribble (id : Nat) (md : BldmsBlock)

/-- The system call or read of an event, if it is one. -/
def PtrEvent.call? : PtrEvent → Option Call
  | .call c => some c
  | .scribble _ _ => none

namespace PtrDriver

/-- What the code sees: `metadata_array[k]->...`. -/
def view (P : PtrDriver) : Driver :=
  { P.globals with metadataArray := P.slots.map fun id => ⟨id, P.mem id⟩ }

/-- `kzalloc` of an entry, and its three assignments. -/
def kzalloc (P : PtrDriver) (p : MdEntry) : PtrDriver :=
  { P with mem := Function.update P.mem p.id p.blk, free := P.free.erase p.id }

def kfree (P : PtrDriver) (ids : List Nat) : PtrDriver := { P with free := ids ++ P.free }

/-- The updates of the critical section of `put_data`; the slot is redirected. -/
def commitPut (P : PtrDriver) (p : Prepared) (k : Nat) : PtrDriver :=
  { P with globals := P.view.commitPut p k, slots := P.slots.set k p.newMetadata.id }

/-- The critical section of `put_data`, with the clean-up that follows it: what is returned, the entries released,
    and the state. -/
def putCritical (p : Prepared) (bread : Bool) (P : PtrDriver) : Ret Nat × List Nat × PtrDriver :=
  match P.view.findFree with
  | none => (.err .enomem, [p.newMetadata.id], P.kfree [p.newMetadata.id])
  | some k =>
    let old := P.slots[k]?.toList
    if ¬ bread then (.err .eperm, p.newMetadata.id :: old, P.kfree (p.newMetadata.id :: old))
    else (.ok k, old, (P.commitPut p k).kfree old)

def putData (e : PutEnv) (m : List Byte) (P : PtrDriver) : Ret Nat × List Nat × PtrDriver :=
  match putPrepare e m P.view with
  | .ok p => putCritical p e.bread (P.kzalloc p.newMetadata)
  | .err x => (.err x, [], P)
  | .oops => (.oops, [], P)

/-- `metadata_array[k]->is_valid = BLK_INVALID`: every slot that refers to the entry shows it. -/
def clearValid (P : PtrDriver) (k : Nat) : Nat → BldmsBlock :=
  match P.slots[k]? with
  | some id => Function.update P.mem id ⟨(P.mem id).nsec, false, (P.mem id).validBytes⟩
  | none => P.mem

def invalidateData (bread : Bool) (offset : BitVec 32) (P : PtrDriver) : Ret Unit × PtrDriver :=
  match Bldms.invalidateData bread offset P.view with
  | (.ok (), d) => (.ok (), { P with globals := d, mem := P.clearValid offset.toNat })
  | (r, _) => (r, P)

end PtrDriver

/-- The driver on its pointers, event by event; only a call has a reply. -/
def ptrDriver : System PtrDriver PtrEvent (Option Reply) where
  step P
    | .call (.put e m) => (some (.put (P.putData e m).1 (P.putData e m).2.1), (P.putData e m).2.2)
    | .call (.get e offset size) => (some (.get (getData e offset size P.view)), P)
    | .call (.invalidate bread offset) =>
      (some (.invalidate (P.invalidateData bread offset).1), (P.invalidateData bread offset).2)
    | .call (.read e len s) => (some (.read (vfsRead e len s P.view)), P)
    | .scribble id md => (none, if id ∈ P.free then { P with mem := Function.update P.mem id md } else P)

/-- The driver as a mount leaves it. -/
def Driver.pointers (d : Driver) : PtrDriver where
  globals := d
  slots := d.entries
  mem id := ((d.metadataArray.find? fun p => p.id == id).map MdEntry.blk).getD ⟨0, false, 0⟩
  free := []

/-- `kzalloc` hands out an entry of the free list, or one that is in no slot. -/
def PtrDriver.Allocates (P : PtrDriver) : Call → Prop
  | .put e m => ∀ p, putPrepare e m P.view = .ok p → p.newMetadata.id ∈ P.free ∨ p.newMetadata.id ∉ P.slots
  | _ => True

/-- A put that has found a free block can read it. -/
def PutReads (d : Driver) : Call → Prop
  | .put e m => ∀ p k, putPrepare e m d = .ok p → d.findFree = some k → e.bread = true
  | _ => True

/-- In every call `kzalloc` does its part. -/
def PtrDriver.Served (P : PtrDriver) : PtrEvent → Prop
  | .call c => P.Allocates c
  | .scribble _ _ => True

/-- `kzalloc` does its part, and a put reads the block it has chosen. -/
def PtrDriver.Sane (P : PtrDriver) : PtrEvent → Prop
  | .call c => P.Allocates c ∧ PutReads P.view c
  | .scribble _ _ => True

namespace PtrDriver

/-! ## While no entry has two owners -/

variable {sb n : Nat} {P : PtrDriver}

@[simp] theorem entries_view (P : PtrDriver) : P.view.entries = P.slots := by
  rw [Driver.entries, view, List.map_map]
  exact List.map_id _

@[simp] theorem entryAt_view (P : PtrDriver) (k : Nat) : P.view.entryAt k = P.slots[k]?.toList := by
  rw [Driver.entryAt, view]
  dsimp only
  rw [List.getElem?_map, Option.map_map]
  cases P.slots[k]? <;> rfl

/-- Memory that no slot refers to is not seen. -/
theorem view_update {id : Nat} (hid : id ∉ P.slots) (md : BldmsBlock) :
    { P with mem := Function.update P.mem id md }.view = P.view := by
  have harray : (P.slots.map fun i => (⟨i, Function.update P.mem id md i⟩ : MdEntry)) =
      P.slots.map fun i => ⟨i, P.mem i⟩ := by
    refine List.map_congr_left fun i hi => ?_
    rw [Function.update_of_ne]
    rintro rfl
    exact hid hi
  exact congrArg (fun array => { P.globals with metadataArray := array }) harray

theorem view_kzalloc {p : MdEntry} (hid : p.id ∉ P.slots) : (P.kzalloc p).view = P.view := view_update hid p.blk

/-- The slot of a put shows its entry, if the memory does. -/
theorem view_commitPut {p : Prepared} (hmem : P.mem p.newMetadata.id = p.newMetadata.blk) (k : Nat) :
    (P.commitPut p k).view = P.view.commitPut p k := by
  have harray : ((P.slots.set k p.newMetadata.id).map fun i => (⟨i, P.mem i⟩ : MdEntry)) =
      (P.slots.map fun i => ⟨i, P.mem i⟩).set k p.newMetadata := by
    rw [List.map_set, hmem]
  exact congrArg (fun array => { P.view.commitPut p k with metadataArray := array }) harray

/-- No entry is in two slots, on the free list twice, or both; and the driver that is seen is in order. -/
structure Sound (sb n : Nat) (P : PtrDriver) : Prop where
  inv : Inv sb n P.view
  nodup : (P.slots ++ P.free).Nodup

/-- The entry of one slot is marked invalid, and no other slot refers to it. -/
theorem Sound.clearValid_apply (h : Sound sb n P) {j i : Nat} (hj : P.slots[j]? = some i) (k : Nat) :
    P.clearValid k i = if k = j then ⟨(P.mem i).nsec, false, (P.mem i).validBytes⟩ else P.mem i := by
  unfold clearValid
  split_ifs with hkj
  · rw [hkj, hj]
    exact Function.update_self ..
  · cases hk : P.slots[k]? with
    | none => rfl
    | some i' =>
      refine Function.update_of_ne ?_ _ _
      rintro rfl
      obtain ⟨hlt, -⟩ := List.getElem?_eq_some_iff.mp hk
      exact hkj ((List.getElem?_inj hlt (List.nodup_append'.mp h.nodup).1).mp (hk.trans hj.symm))

theorem Sound.view_clearValid (h : Sound sb n P) (k : Nat) (d : Driver) :
    { P with globals := d, mem := P.clearValid k }.view = { d with metadataArray := P.view.clearValid k } := by
  have harray : (P.slots.map fun i => (⟨i, P.clearValid k i⟩ : MdEntry)) = P.view.clearValid k := by
    apply List.ext_getElem?
    intro j
    rw [Driver.clearValid, view]
    dsimp only
    rw [List.getElem?_modify, List.getElem?_map, List.getElem?_map]
    cases hj : P.slots[j]? with
    | none => rfl
    | some i =>
      show some (MdEntry.mk i (P.clearValid k i)) = some (ite (k = j) _ _)
      rw [h.clearValid_apply hj]
      split_ifs <;> rfl
  exact congrArg (fun array => { d with metadataArray := array }) harray

theorem Sound.not_mem (h : Sound sb n P) {id : Nat} (hid : id ∈ P.free ∨ id ∉ P.slots) : id ∉ P.slots := by
  rcases hid with hid | hid
  · exact fun hslot => (List.nodup_append'.mp h.nodup).2.2 hslot hid
  · exact hid

/-! ## Event by event -/

theorem Sound.putData_eq (h : Sound sb n P) {e : PutEnv} {m : List Byte} (hkz : P.Allocates (.put e m)) :
    (P.putData e m).1 = (Bldms.putData e m P.view).ret ∧ (P.putData e m).2.1 = (Bldms.putData e m P.view).freed ∧
      (P.putData e m).2.2.view = (Bldms.putData e m P.view).drv := by
  unfold PtrDriver.putData Bldms.putData
  cases hp : putPrepare e m P.view with
  | err x => exact ⟨rfl, rfl, rfl⟩
  | oops => exact ⟨rfl, rfl, rfl⟩
  | ok p =>
    have hview := view_kzalloc (P := P) (h.not_mem (hkz p hp))
    have hmem : (P.kzalloc p.newMetadata).mem p.newMetadata.id = p.newMetadata.blk := Function.update_self ..
    dsimp only
    rw [putCritical, Bldms.putCritical, hview]
    cases hk : P.view.findFree with
    | none => exact ⟨rfl, rfl, hview⟩
    | some k =>
      dsimp only
      rw [entryAt_view]
      split_ifs
      · refine ⟨rfl, rfl, ?_⟩
        show ((P.kzalloc p.newMetadata).commitPut p k).view = _
        rw [view_commitPut hmem, hview]
      · exact ⟨rfl, rfl, hview⟩

theorem Sound.invalidateData_eq (h : Sound sb n P) (bread : Bool) (offset : BitVec 32) :
    (P.invalidateData bread offset).1 = (Bldms.invalidateData bread offset P.view).1 ∧
      (P.invalidateData bread offset).2.view = (Bldms.invalidateData bread offset P.view).2 := by
  unfold PtrDriver.invalidateData
  rcases h.inv.invalidateData_cases bread offset with ⟨heq, hret⟩ | ⟨el, -, hndx, heq⟩
  · generalize Bldms.invalidateData bread offset P.view = out at heq hret
    obtain ⟨r, d⟩ := out
    subst heq
    match r, hret with
    | .err x, _ => exact ⟨rfl, rfl⟩
    | .oops, _ => exact ⟨rfl, rfl⟩
  · rw [heq]
    refine ⟨rfl, ?_⟩
    dsimp only
    rw [h.view_clearValid, ← hndx]
    rfl

/-- **The step lemma, by value**: a call does what it does in `driver`. -/
theorem Sound.step_eq (h : Sound sb n P) {c : Call} (hkz : P.Allocates c) :
    (ptrDriver.step P (.call c)).1 = some (driver.step P.view c).1 ∧
      (ptrDriver.next P (.call c)).view = driver.next P.view c := by
  cases c with
  | put e m =>
    obtain ⟨hret, hfreed, hview⟩ := h.putData_eq hkz
    refine ⟨?_, hview⟩
    show some (Reply.put _ _) = some (Reply.put _ _)
    rw [hret, hfreed]
  | get e offset size => exact ⟨rfl, rfl⟩
  | invalidate bread offset =>
    obtain ⟨hret, hview⟩ := h.invalidateData_eq bread offset
    exact ⟨congrArg (fun r => some (Reply.invalidate r)) hret, hview⟩
  | read e len s => exact ⟨rfl, rfl⟩

/-- The entries after a put that reads its block: each has still one owner. -/
theorem Sound.nodup_putData (h : Sound sb n P) {e : PutEnv} {m : List Byte} (hkz : P.Allocates (.put e m))
    (hread : PutReads P.view (.put e m)) :
    ((P.putData e m).2.2.slots ++ (P.putData e m).2.2.free).Nodup := by
  unfold PtrDriver.putData
  cases hp : putPrepare e m P.view with
  | err x => exact h.nodup
  | oops => exact h.nodup
  | ok p =>
    have hid := h.not_mem (hkz p hp)
    have hview := view_kzalloc (P := P) hid
    obtain ⟨hslots, hfree, hdisj⟩ := List.nodup_append'.mp h.nodup
    -- the new entry is not on the free list any more, and in no slot yet
    have hnew : (p.newMetadata.id :: (P.slots ++ P.free.erase p.newMetadata.id)).Nodup := by
      refine List.nodup_cons.mpr ⟨?_, List.nodup_append'.mpr ⟨hslots, hfree.erase _, fun i hi hi' => ?_⟩⟩
      · rw [List.mem_append, not_or]
        exact ⟨hid, hfree.not_mem_erase⟩
      · exact hdisj hi (List.mem_of_mem_erase hi')
    dsimp only
    rw [putCritical, hview]
    cases hk : P.view.findFree with
    | none => exact (List.perm_middle.nodup_iff).mpr hnew
    | some k =>
      dsimp only
      rw [hread p k hp hk, if_neg (fun h => h rfl)]
      have hperm := Ledger.entries_commitPut h.inv (p := p) hk (P.free.erase p.newMetadata.id)
      rw [entryAt_view, entries_view] at hperm
      have hentries : (P.view.commitPut p k).entries = P.slots.set k p.newMetadata.id := by
        rw [Driver.entries, Driver.commitPut, List.map_set, ← Driver.entries, entries_view]
      rw [hentries] at hperm
      refine (List.Perm.nodup_iff ?_).mpr (hperm.nodup_iff.mpr hnew)
      exact List.Perm.append_left _ List.perm_append_comm

/-- **The step lemma**: no entry gets a second owner, as long as puts read the blocks they choose. -/
theorem Sound.next (h : Sound sb n P) {ev : PtrEvent} (hs : P.Sane ev) : Sound sb n (ptrDriver.next P ev) := by
  cases ev with
  | call c =>
    refine ⟨?_, ?_⟩
    · rw [(h.step_eq hs.1).2]
      exact h.inv.step c
    · cases c with
      | put e m => exact h.nodup_putData hs.1 hs.2
      | get e offset size => exact h.nodup
      | read e len s => exact h.nodup
      | invalidate bread offset =>
        show ((P.invalidateData bread offset).2.slots ++ (P.invalidateData bread offset).2.free).Nodup
        unfold PtrDriver.invalidateData
        split <;> exact h.nodup
  | scribble id md =>
    show Sound sb n (if id ∈ P.free then { P with mem := Function.update P.mem id md } else P)
    split_ifs with hid
    · refine ⟨?_, h.nodup⟩
      rw [view_update (h.not_mem (.inl hid))]
      exact h.inv
    · exact h

theorem Sound.view_next (h : Sound sb n P) {ev : PtrEvent} (hs : P.Sane ev) :
    (ptrDriver.next P ev).view = driver.final P.view ev.call?.toList := by
  cases ev with
  | call c => exact (h.step_eq hs.1).2
  | scribble id md =>
    show (if id ∈ P.free then { P with mem := Function.update P.mem id md } else P).view = P.view
    split_ifs with hid
    · exact view_update (h.not_mem (.inl hid)) md
    · rfl

/-! ## Runs -/

/-- The calls of a run. -/
def calls (es : List PtrEvent) : List Call := es.filterMap PtrEvent.call?

theorem calls_cons (ev : PtrEvent) (es : List PtrEvent) : calls (ev :: es) = ev.call?.toList ++ calls es := by
  rw [calls, List.filterMap_cons]
  cases ev.call? <;> rfl

theorem Sound.states (h : Sound sb n P) {es : List PtrEvent} (hs : ptrDriver.AllSteps Sane P es) :
    ∀ Q ∈ ptrDriver.states P es, Sound sb n Q :=
  hs.invariant (fun _ _ hs h => h.next hs) h

theorem Sound.final (h : Sound sb n P) {es : List PtrEvent} (hs : ptrDriver.AllSteps Sane P es) :
    Sound sb n (ptrDriver.final P es) :=
  h.states hs _ (ptrDriver.final_mem_states P es)

/-- **The run lemma**: the driver that is seen goes through the run of `driver` on the calls. -/
theorem Sound.view_final (h : Sound sb n P) {es : List PtrEvent} (hs : ptrDriver.AllSteps Sane P es) :
    (ptrDriver.final P es).view = driver.final P.view (calls es) := by
  induction es generalizing P with
  | nil => rfl
  | cons ev es ih =>
    rw [calls_cons, System.final_append, ← h.view_next hs.1]
    exact ih (h.next hs.1) hs.2

/-- … through all its states, and no others. -/
theorem Sound.mem_states (h : Sound sb n P) {es : List PtrEvent} (hs : ptrDriver.AllSteps Sane P es) (t : Driver) :
    t ∈ driver.states P.view (calls es) ↔ ∃ Q ∈ ptrDriver.states P es, Q.view = t := by
  induction es generalizing P with
  | nil => simp [calls, eq_comm]
  | cons ev es ih =>
    have ih := ih (h.next hs.1) hs.2
    have hself := ptrDriver.self_mem_states (ptrDriver.next P ev) es
    have hnext := h.view_next hs.1
    rw [System.states_cons]
    simp only [List.mem_cons, exists_eq_or_imp, ← ih]
    cases ev with
    | call c =>
      rw [hnext]
      show t ∈ P.view :: _ ↔ _
      rw [List.mem_cons, eq_comm]
      rfl
    | scribble id md =>
      -- the same state once more
      rw [hnext]
      constructor
      · exact .inr
      · rintro (rfl | ht)
        · exact driver.self_mem_states _ _
        · exact ht

/-- … with the same answers. -/
theorem Sound.view_replies (h : Sound sb n P) {es : List PtrEvent} (hs : ptrDriver.AllSteps Sane P es) :
    (ptrDriver.replies P es).filterMap id = driver.replies P.view (calls es) := by
  induction es generalizing P with
  | nil => rfl
  | cons ev es ih =>
    have ih := ih (h.next hs.1) hs.2
    rw [h.view_next hs.1] at ih
    rw [calls_cons, System.replies_append, ← ih, System.replies, List.filterMap_cons]
    cases ev with
    | call c =>
      rw [(h.step_eq hs.1.1).1]
      rfl
    | scribble id md => rfl

end PtrDriver

/-- For a given put, the condition is about the one entry its environment hands out. -/
theorem allocates_put {P : PtrDriver} {e : PutEnv} {m : List Byte} {id : Nat} (hid : e.newMetadata = some id)
    (h : id ∈ P.free ∨ id ∉ P.slots) : P.Allocates (.put e m) := by
  intro p hp
  have hp' := (putPrepare_ok hp).2.2.1
  rw [hid, Option.some.injEq] at hp'
  exact hp' ▸ h

theorem sane_put {P : PtrDriver} {e : PutEnv} {m : List Byte} {id : Nat} (hid : e.newMetadata = some id)
    (h : id ∈ P.free ∨ id ∉ P.slots) (hread : e.bread = true) : P.Sane (.call (.put e m)) :=
  ⟨allocates_put hid h, fun _ _ _ _ => hread⟩

/-! ## From a mount -/

section

variable {cfg : Config} {sb : Nat} {d : Driver}

theorem view_pointers (hentries : d.entries.Nodup) : d.pointers.view = d := by
  have harray : (d.entries.map fun id => (⟨id, d.pointers.mem id⟩ : MdEntry)) = d.metadataArray := by
    rw [Driver.entries, List.map_map]
    refine (List.map_congr_left fun p hp => ?_).trans (List.map_id _)
    have hfind : d.metadataArray.find? (fun q => q.id == p.id) = some p := by
      cases hq : d.metadataArray.find? (fun q => q.id == p.id) with
      | none => exact absurd (List.find?_eq_none.mp hq p hp) (by simp)
      | some q =>
        have hid : q.id = p.id := by simpa using List.find?_some hq
        rw [List.inj_on_of_nodup_map hentries (List.mem_of_find?_eq_some hq) hp hid]
    have hmem : d.pointers.mem p.id = p.blk := by
      show ((d.metadataArray.find? fun q => q.id == p.id).map MdEntry.blk).getD _ = p.blk
      rw [hfind]
      rfl
    show MdEntry.mk p.id (d.pointers.mem p.id) = p
    rw [hmem]
  exact congrArg (fun array => { d with metadataArray := array }) harray

/-- The entries a mount has allocated are distinct, so it leaves no entry with two owners. -/
theorem Mounted.sound (hd : Mounted cfg sb d) (hentries : d.entries.Nodup) :
    PtrDriver.Sound sb (d.blockCount sb) d.pointers := by
  refine ⟨?_, ?_⟩
  · rw [view_pointers hentries]
    exact mounted_inv hd
  · show (d.entries ++ []).Nodup
    rw [List.append_nil]
    exact hentries

/-- A driver as the slots show it after a run from a mount whose puts have all read the blocks they chose. -/
def Intact (cfg : Config) (sb : Nat) (t : Driver) : Prop :=
  ∃ (d : Driver) (es : List PtrEvent), Mounted cfg sb d ∧ d.entries.Nodup ∧
    ptrDriver.AllSteps PtrDriver.Sane d.pointers es ∧ (ptrDriver.final d.pointers es).view = t

theorem Intact.reachable {t : Driver} (h : Intact cfg sb t) : Reachable cfg sb t := by
  obtain ⟨d, es, hd, hentries, hs, rfl⟩ := h
  refine ⟨d, PtrDriver.calls es, hd, ?_⟩
  rw [(hd.sound hentries).view_final hs, view_pointers hentries]

/-- … such as the one mounted on an empty device. -/
theorem intact_freshDriver (cfg : Config) {n : Nat} (hn : n ≤ cfg.nblocks) : Intact cfg 0 (freshDriver n) := by
  have hentries : (freshDriver n).entries.Nodup := by
    have hrange : (freshDriver n).entries = List.range n := by
      rw [Driver.entries, freshDriver, List.map_map]
      exact List.map_id _
    rw [hrange]
    exact List.nodup_range
  exact ⟨freshDriver n, [], mounted_freshDriver cfg hn, hentries, trivial, view_pointers hentries⟩

theorem Reachable.final {t : Driver} (h : Reachable cfg sb t) (cs : List Call) : Reachable cfg sb (driver.final t cs) := by
  obtain ⟨d₀, calls, hd, rfl⟩ := h
  exact ⟨d₀, calls ++ cs, hd, driver.final_append d₀ calls cs⟩

/-- What the slots show along such a run is reached by calls of `driver`. -/
theorem Mounted.reachable_view (hd : Mounted cfg sb d) (hentries : d.entries.Nodup) {es : List PtrEvent}
    (hs : ptrDriver.AllSteps PtrDriver.Sane d.pointers es) :
    ∀ P ∈ ptrDriver.states d.pointers es, Reachable cfg sb P.view := by
  have hstart : Reachable cfg sb d.pointers.view := by
    rw [view_pointers hentries]
    exact hd.reachable
  intro P hP
  refine (hs.invariant (P := fun P => PtrDriver.Sound sb (d.blockCount sb) P ∧ Reachable cfg sb P.view)
    (fun Q ev hs h => ⟨h.1.next hs, ?_⟩) ⟨hd.sound hentries, hstart⟩ P hP).2
  rw [h.1.view_next hs]
  exact h.2.final _

/-- … and has the blocks the mount has found. -/
theorem Mounted.blockCount_view (hd : Mounted cfg sb d) (hentries : d.entries.Nodup) {es : List PtrEvent}
    (hs : ptrDriver.AllSteps PtrDriver.Sane d.pointers es) :
    ∀ P ∈ ptrDriver.states d.pointers es, P.view.blockCount sb = d.blockCount sb := by
  intro P hP
  have hreach := (hd.reachable_view hentries hs P hP).inv
  have hsound := (hd.sound hentries).states hs P hP
  exact hreach.size.symm.trans hsound.inv.size

end

end Bldms
