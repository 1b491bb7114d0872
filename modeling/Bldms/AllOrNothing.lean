/-
  `put_data` is all or nothing — except when the chosen block cannot be read.

  A failed put leaves the driver's state alone, but it also RELEASES memory: its own metadata entry,
  and `old_metadata` if that has been set.  A `Ledger` is the driver with the entries released so far.
  Entries are identified by the allocation they came from, so an allocation always gives a new one.

  The error label of the critical section is shared by two failures.  When no block is free,
  `old_metadata` is still `NULL`.  When `sb_bread` fails on the chosen block, it is the entry that the
  array slot still refers to: the slot is left dangling, and the next put or scan of that slot works on
  released memory, up to releasing it a second time.

  `Ledger.conserved` is what a call does to the entries: those in use and those released afterwards are the
  ones from before and the one it has allocated.

  `put_all_or_nothing_iff`: along a run, every failing put is all or nothing and no entry is released
  twice, if and only if no put fails to read the block it has chosen.
-/
import Bldms.Store

namespace Bldms

/-- The entries the slots of `metadata_array` refer to. -/
def Driver.entries (d : Driver) : List Nat := d.metadataArray.map MdEntry.id

/-- The metadata entries a call hands to `kfree`. -/
def Reply.freed : Reply → List Nat
  | .put _ freed => freed
  | _ => []

/-- The metadata entries a call gets from `kzalloc`: a put has one when it enters its critical section. -/
def Call.allocates (d : Driver) : Call → List Nat
  | .put e m =>
    match putPrepare e m d with
    | .ok p => [p.newMetadata.id]
    | _ => []
  | _ => []

/-- The driver, and the metadata entries released so far. -/
structure Ledger where
  drv : Driver
  released : List Nat

/-- The driver with its ledger, call by call. -/
def ledger : System Ledger Call Reply where
  step l c := ((driver.step l.drv c).1, ⟨driver.next l.drv c, l.released ++ (driver.step l.drv c).1.freed⟩)

/-- An allocation gives an entry that is neither in use nor released: `kzalloc` makes a new one. -/
def FreshEntries (l : Ledger) : Call → Prop
  | .put e m => ∀ p, putPrepare e m l.drv = .ok p →
      p.newMetadata.id ∉ l.drv.entries ∧ p.newMetadata.id ∉ l.released
  | _ => True

/-- A put that has found a free block can read it. -/
def BlockRead (l : Ledger) : Call → Prop
  | .put e m => ∀ p k, putPrepare e m l.drv = .ok p → l.drv.findFree = some k → e.bread = true
  | _ => True

/-- A put that fails changes nothing, leaves every slot with an entry that has not been released, and
    is invisible to whatever is called later. -/
def AllOrNothing (l : Ledger) : Call → Prop
  | .put e m => (∀ k, (putData e m l.drv).ret ≠ .ok k) →
      let l' := ledger.next l (.put e m)
      l'.drv = l.drv ∧ (∀ id ∈ l'.drv.entries, id ∉ l'.released) ∧
        ∀ later, driver.replies l'.drv later = driver.replies l.drv later
  | _ => True

namespace Ledger

/-- No entry is in use twice, released twice, or in use and released. -/
structure Balanced (sb n : Nat) (l : Ledger) : Prop where
  inv : Inv sb n l.drv
  nodup : (l.drv.entries ++ l.released).Nodup

variable {sb n : Nat} {l : Ledger}

theorem Balanced.not_released (h : Balanced sb n l) : ∀ id ∈ l.drv.entries, id ∉ l.released :=
  fun _ hin hrel => (List.nodup_append'.mp h.nodup).2.2 hin hrel

theorem next_put (l : Ledger) (e : PutEnv) (m : List Byte) :
    ledger.next l (.put e m) = ⟨(putData e m l.drv).drv, l.released ++ (putData e m l.drv).freed⟩ := rfl

/-- The slot of a free block has an entry. -/
theorem entryAt_findFree {d : Driver} (h : Inv sb n d) {k : Nat} (hk : d.findFree = some k) :
    ∃ hlt : k < d.entries.length, d.entryAt k = [d.entries[k]] := by
  have hkn := (h.findFree_some hk).1
  have hlt : k < d.metadataArray.length := by rw [h.length]; exact hkn
  have hlt' : k < d.entries.length := by rw [Driver.entries, List.length_map]; exact hlt
  refine ⟨hlt', ?_⟩
  rw [Driver.entryAt, List.getElem?_eq_getElem hlt]
  simp [Driver.entries]

/-- A put that succeeds exchanges two entries: the new one is in use, the old one left to be released. -/
theorem entries_commitPut {d : Driver} (h : Inv sb n d) {p : Prepared} {k : Nat} (hk : d.findFree = some k)
    (released : List Nat) :
    ((d.commitPut p k).entries ++ (released ++ d.entryAt k)).Perm
      (p.newMetadata.id :: (d.entries ++ released)) := by
  obtain ⟨hlt, hold⟩ := entryAt_findFree h hk
  have hset : (d.commitPut p k).entries = d.entries.set k p.newMetadata.id := List.map_set
  rw [hset, hold]
  refine ((List.set_perm_cons_eraseIdx hlt _).append_right _).trans ?_
  rw [List.cons_append, ← List.append_assoc]
  refine List.Perm.cons _ ((List.perm_append_singleton _ _).trans ?_)
  exact (List.getElem_cons_eraseIdx_perm hlt).append_right released

/-- An invalidation marks an entry in place. -/
theorem entries_commitInvalidate (d : Driver) (sb k target : Nat) :
    (d.commitInvalidate sb k target).entries = d.entries := by
  show (d.metadataArray.modify k MdEntry.clearValid).map MdEntry.id = d.metadataArray.map MdEntry.id
  apply List.ext_getElem?
  intro i
  rw [List.getElem?_map, List.getElem?_map, List.getElem?_modify]
  cases d.metadataArray[i]? with
  | none => rfl
  | some p => by_cases hk : k = i <;> simp [hk, MdEntry.clearValid]

theorem entries_invalidate {d : Driver} (h : Inv sb n d) (bread : Bool) (offset : BitVec 32) :
    (driver.next d (.invalidate bread offset)).entries = d.entries := by
  rw [driver_next_invalidate]
  rcases h.invalidateData_cases bread offset with ⟨heq, -⟩ | ⟨el, -, -, heq⟩
  · rw [heq]
  · rw [heq]
    exact entries_commitInvalidate d sb el.ndx (el.ndx + 2)

/-- **The conservation law of one call**: the entries in use and the released ones after it are those
    before it and the ones it has allocated, if its put can read its block. -/
theorem conserved (h : Inv sb n l.drv) {c : Call} (hread : BlockRead l c) :
    ((ledger.next l c).drv.entries ++ (ledger.next l c).released).Perm
      (c.allocates l.drv ++ (l.drv.entries ++ l.released)) := by
  cases c with
  | put e m =>
    have hcase := putCase_putData e m l.drv
    rw [next_put, Call.allocates]
    generalize putData e m l.drv = out at hcase ⊢
    cases hcase with
    | @refused r hno _ =>
      cases hp : putPrepare e m l.drv with
      | ok p => exact absurd hp (hno p)
      | err x => rw [List.append_nil]; exact List.Perm.refl _
      | oops => rw [List.append_nil]; exact List.Perm.refl _
    | @full p hp _ =>
      rw [hp, ← List.append_assoc]
      exact List.perm_append_singleton _ _
    | @unread p k hp hk hb =>
      rw [hread p k hp hk] at hb
      cases hb
    | @stored p k hp hk _ =>
      rw [hp]
      exact entries_commitPut h hk l.released
  | get e offset size =>
    show (l.drv.entries ++ (l.released ++ [])).Perm (l.drv.entries ++ l.released)
    rw [List.append_nil]
  | read e len s =>
    show (l.drv.entries ++ (l.released ++ [])).Perm (l.drv.entries ++ l.released)
    rw [List.append_nil]
  | invalidate bread offset =>
    show ((driver.next l.drv (.invalidate bread offset)).entries ++ (l.released ++ [])).Perm
      (l.drv.entries ++ l.released)
    rw [entries_invalidate h, List.append_nil]

/-- A call allocates at most one entry, and a new one. -/
theorem Balanced.nodup_allocates (h : Balanced sb n l) {c : Call} (hfresh : FreshEntries l c) :
    (c.allocates l.drv ++ (l.drv.entries ++ l.released)).Nodup := by
  cases c with
  | put e m =>
    rw [Call.allocates]
    cases hp : putPrepare e m l.drv with
    | ok p =>
      have hnew : p.newMetadata.id ∉ l.drv.entries ++ l.released := by
        rw [List.mem_append, not_or]
        exact hfresh p hp
      exact List.nodup_cons.mpr ⟨hnew, h.nodup⟩
    | err x => exact h.nodup
    | oops => exact h.nodup
  | get e offset size => exact h.nodup
  | read e len s => exact h.nodup
  | invalidate bread offset => exact h.nodup

/-- **The step lemma**: a call whose put, if any, can read its block keeps the ledger balanced. -/
theorem Balanced.step (h : Balanced sb n l) {c : Call} (hfresh : FreshEntries l c)
    (hread : BlockRead l c) : Balanced sb n (ledger.next l c) := by
  refine ⟨h.inv.step c, ?_⟩
  rw [(conserved h.inv hread).nodup_iff]
  exact h.nodup_allocates hfresh

/-- A put that leaves the driver alone, with its block read, is invisible afterwards. -/
theorem Balanced.allOrNothing (h : Balanced sb n l) {e : PutEnv} {m : List Byte}
    (hfresh : FreshEntries l (.put e m)) (hread : BlockRead l (.put e m))
    (hdrv : (putData e m l.drv).drv = l.drv) : AllOrNothing l (.put e m) := by
  intro _
  refine ⟨hdrv, (h.step hfresh hread).not_released, ?_⟩
  intro later
  rw [next_put, hdrv]

/-- **One call.**  A failing put is all or nothing exactly when it did not fail on reading its block. -/
theorem Balanced.allOrNothing_iff (h : Balanced sb n l) {c : Call} (hfresh : FreshEntries l c) :
    AllOrNothing l c ↔ BlockRead l c := by
  cases c with
  | put e m =>
    have hcase := putCase_putData e m l.drv
    generalize hout : putData e m l.drv = out at hcase
    cases hcase with
    | refused hno _ =>
      have hread : BlockRead l (.put e m) := fun p _ hp _ => absurd hp (hno p)
      exact iff_of_true (h.allOrNothing hfresh hread (by rw [hout])) hread
    | full _ hk =>
      have hread : BlockRead l (.put e m) :=
        fun _ _ _ hk' => absurd (hk.symm.trans hk') (by simp)
      exact iff_of_true (h.allOrNothing hfresh hread (by rw [hout])) hread
    | @unread p k hp hk hb =>
      -- the entry of the slot has been released, and the slot still refers to it
      refine iff_of_false (fun hall => ?_) fun hread => ?_
      · obtain ⟨hlt, hold⟩ := entryAt_findFree h.inv hk
        have hfail : ∀ k', (putData e m l.drv).ret ≠ .ok k' := by
          rw [hout]
          simp
        have hslots := (hall hfail).2.1
        rw [next_put, hout, hold] at hslots
        refine hslots l.drv.entries[k] (List.getElem_mem hlt) (List.mem_append_right _ ?_)
        exact List.mem_cons_of_mem _ (List.mem_singleton.mpr rfl)
      · rw [hread p k hp hk] at hb
        cases hb
    | stored _ _ hb =>
      refine iff_of_true (fun hfail => ?_) fun _ _ _ _ => hb
      rw [hout] at hfail
      exact absurd rfl (hfail _)
  | get e offset size => exact Iff.rfl
  | read e len s => exact Iff.rfl
  | invalidate bread offset => exact Iff.rfl

end Ledger

/-- **All or nothing, exactly when.**  In every run from a mount, each put that fails leaves the list,
    the slots, the device and the cursor as they were, with every slot on an entry that has not been
    released, and no entry is ever released twice, if and only if no put fails to read the free block
    it has found. -/
theorem put_all_or_nothing_iff (cfg : Config) (sb : Nat) (d : Driver) (hd : Mounted cfg sb d)
    (hentries : d.entries.Nodup) (calls : List Call)
    (hfresh : ledger.AllSteps FreshEntries ⟨d, []⟩ calls) :
    (ledger.AllSteps AllOrNothing ⟨d, []⟩ calls ∧
      ∀ l ∈ ledger.states ⟨d, []⟩ calls, l.released.Nodup) ↔
    ledger.AllSteps BlockRead ⟨d, []⟩ calls := by
  have hstart : Ledger.Balanced sb (d.blockCount sb) ⟨d, []⟩ :=
    ⟨mounted_inv hd, by rw [List.append_nil]; exact hentries⟩
  have hiff : ledger.AllSteps AllOrNothing ⟨d, []⟩ calls ↔ ledger.AllSteps BlockRead ⟨d, []⟩ calls :=
    hfresh.congr (fun l c hF hC h => h.step hF hC) (fun l c hF h => h.allOrNothing_iff hF) hstart
  constructor
  · intro h
    exact hiff.mp h.1
  · intro hread
    refine ⟨hiff.mpr hread, ?_⟩
    intro l hl
    have hbal := (hfresh.and hread).invariant (P := Ledger.Balanced sb (d.blockCount sb))
      (fun l c h hl => hl.step h.1 h.2) hstart l hl
    exact (List.nodup_append'.mp hbal.nodup).2.1

/-- For a given put, freshness is about the one identity its environment hands out. -/
theorem freshEntries_put {l : Ledger} {e : PutEnv} {m : List Byte} {id : Nat}
    (hid : e.newMetadata = some id) (h : id ∉ l.drv.entries ∧ id ∉ l.released) :
    FreshEntries l (.put e m) := by
  intro p hp
  have hp' := (putPrepare_ok hp).2.2.1
  rw [hid, Option.some.injEq] at hp'
  exact hp' ▸ h

/-- On a device of one block: a put fails for lack of room, another one on its user copy. -/
theorem put_all_or_nothing_no_room :
    let calls : List Call := [.put (.allOk 5 10) [1], .put (.allOk 6 20) [2],
      .put ⟨true, 1, true, some 7, 30, true⟩ [3]]
    (ledger.final ⟨freshDriver 1, []⟩ calls).released = [0, 6] ∧
    ledger.AllSteps AllOrNothing ⟨freshDriver 1, []⟩ calls := by
  refine ⟨by decide, ((put_all_or_nothing_iff .standard 0 (freshDriver 1)
    (mounted_freshDriver .standard (by decide)) (by decide) _ ?_).mpr ?_).1⟩
  · exact ⟨freshEntries_put rfl (by decide), freshEntries_put rfl (by decide),
      freshEntries_put rfl (by decide), trivial⟩
  · exact ⟨fun _ _ _ _ => rfl, fun _ _ _ _ => rfl, fun _ _ _ _ => rfl, trivial⟩

/-- On a device of one block: a put cannot read the block it has chosen and releases entry 0, to which
    the slot still refers; the next put releases it once more. -/
theorem put_all_or_nothing_fails :
    let failing : Call := .put ⟨true, 0, true, some 5, 10, false⟩ [1]
    let l := ledger.next ⟨freshDriver 1, []⟩ failing
    let l' := ledger.next l (.put (.allOk 6 20) [2])
    Mounted .standard 0 (freshDriver 1) ∧ (freshDriver 1).entries.Nodup ∧
    FreshEntries ⟨freshDriver 1, []⟩ failing ∧ FreshEntries l (.put (.allOk 6 20) [2]) ∧
    l.drv.entries = [0] ∧ l.released = [5, 0] ∧ ¬ AllOrNothing ⟨freshDriver 1, []⟩ failing ∧
    l'.released = [5, 0, 0] ∧ ¬ l'.released.Nodup := by
  refine ⟨mounted_freshDriver .standard (by decide), by decide, freshEntries_put rfl (by decide),
    freshEntries_put rfl (by decide), by decide, by decide, fun hall => ?_, by decide, by decide⟩
  have hslots := (hall fun k h => nomatch h).2.1
  exact absurd hslots (by decide)

end Bldms
