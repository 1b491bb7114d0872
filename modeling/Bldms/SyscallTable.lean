/-
  Loading and unloading the module: what becomes of the system call table.

  Source: `lib/usctm.c`, `syscalls.c` (`register_syscalls`, `unregister_syscalls`), `bldms.c`
  (`bldms_init`, `bldms_exit`), the `insmod` recipe of the Makefile, and the scan of `usctm/usctm.c`.

  A system call table is memory: the words at an address, by index.  `Tables` gives them for every
  address, since the module is told where the table is; an index is an `int`, and nothing in the code
  keeps it from being negative.

  The value that is written back on unload is not read from the table: it comes from the module
  parameter `sys_ni_syscall_address`, through `get_entries` and the global `the_ni_syscall`.
  * `getEntries`          — the library's allocation of entries, with its out-parameters;
  * `insmod`              — the parameters as the Makefile passes them;
  * `table_restored_iff`  — what a load and an unload leave: the address of the TABLE in the three entries,
    or the handlers, when the registration of the file system fails.
-/
import Bldms.Driver

namespace Bldms

/-! ## The entries of the table -/

/-- `MAX_FREE`: the number of free entries the scan reports. -/
abbrev maxFree : Nat := 15
/-- `MAX_ACQUIRES`: the entries the library can hand out. -/
abbrev maxAcquires : Nat := 4
/-- `HACKED_ENTRIES`: `put_data`, `get_data` and `invalidate_data`. -/
abbrev hackedEntries : Nat := 3
/-- `ENTRIES_TO_EXPLORE`: how far the scan looks. -/
abbrev entriesToExplore : Nat := 256

/-- `unsigned long`: an address, or a word of the table. -/
abbrev Word := BitVec 64

/-- The memory that is used as tables: the word at index `e` from an address. -/
abbrev Tables := Word → Int → Word

/-- `((unsigned long *)base)[e] = v`. -/
def Tables.store (t : Tables) (base : Word) (e : Int) (v : Word) : Tables :=
  Function.update t base (Function.update (t base) e v)

/-- The scan of the USCTM module: the first free entries of the table, `MAX_FREE` at most. -/
def usctmScan (table : Int → Word) (ni : Word) : List Int :=
  (((List.range entriesToExplore).map Int.ofNat).filter fun e => table e = ni).take maxFree

/-- What the scan is relied on for: distinct entries of the table that refer to `sys_ni_syscall`, enough
    for the three system calls. -/
structure FreeEntries (table : Int → Word) (ni : Word) (free : List Int) : Prop where
  nodup : free.Nodup
  unused : ∀ e ∈ free, table e = ni
  enough : hackedEntries ≤ free.length
  bounded : free.length ≤ maxFree

theorem usctmScan_freeEntries {table : Int → Word} {ni : Word}
    (h : hackedEntries ≤ (usctmScan table ni).length) : FreeEntries table ni (usctmScan table ni) := by
  refine ⟨?_, ?_, h, List.length_take_le _ _⟩
  · refine ((List.Nodup.filter _ ?_).sublist (List.take_sublist _ _))
    exact List.nodup_range.map Int.ofNat_injective
  · intro e he
    have hmem := List.mem_of_mem_take he
    simpa using (List.mem_filter.mp hmem).2

/-! ## The library -/

/-- The parameters of a module that carry the table: of the USCTM module, which fills them, and of this
    one, which is given them. -/
structure UsctmParams where
  sysCallTableAddress : Word
  sysNiSyscallAddress : Word
  freeEntries : List Int
  numEntriesFound : Nat

/-- What the USCTM module shows after its scan; the array has `MAX_FREE` slots. -/
def usctmParams (base ni : Word) (free : List Int) : UsctmParams :=
  ⟨base, ni, free ++ List.replicate (maxFree - free.length) 0, free.length⟩

/-- The parameters of the `insmod` recipe: `SYS_NI_SYSCALL` is defined in the Makefile, but
    `sys_ni_syscall_address` is given `SYSCALL_TABLE`. -/
def insmod (u : UsctmParams) : UsctmParams :=
  ⟨u.sysCallTableAddress, u.sysCallTableAddress, u.freeEntries, u.numEntriesFound⟩

/-- What the loop of `get_entries` works on: the table of acquired entries and its local arrays. -/
structure Acquisition where
  restore : List Int
  ids : List Int
  indexes : List Int
  given : Nat
  deriving DecidableEq, Repr

/-- The body of the loop, for entry `i`; `none` when an access is out of bounds. -/
def acquireStep (free : List Int) (i : Nat) (a : Acquisition) : Option Acquisition :=
  match a.restore[i]? with
  | none => none
  | some r =>
    if r ≠ -1 then some a
    else match free[i]? with
      | none => none
      | some id => some ⟨a.restore.set i id, a.ids.set i id, a.indexes.set i i, a.given + 1⟩

/-- The loop of `get_entries` from entry `i` on, `n` entries being left to look at. -/
def acquireLoop (free : List Int) (numAcquires : Int) : Nat → Nat → Acquisition → Option Acquisition
  | 0, _, a => some a
  | n + 1, i, a =>
    if ¬ (a.given : Int) < numAcquires then some a
    else match acquireStep free i a with
      | none => none
      | some a' => acquireLoop free numAcquires n (i + 1) a'

/-- What `get_entries` comes back with: `-1`, or the entries it has copied to the caller; in both cases
    the content of `restore`.  Or it has left the bounds of an array. -/
inductive GetEntries where
  | refused (restore : List Int)
  | acquired (restore entryIds entryNdx : List Int)
  | outOfBounds
  deriving DecidableEq, Repr

/-- `get_entries(entry_ids, entry_ndx, num_acquires, …)`; the two addresses it also stores are the
    parameters themselves. -/
def getEntries (u : UsctmParams) (numAcquires : Int) (restore : List Int) : GetEntries :=
  if numAcquires > u.numEntriesFound ∨ numAcquires > maxAcquires then .refused restore
  else if numAcquires < 1 then .refused restore
  else match acquireLoop u.freeEntries numAcquires u.numEntriesFound 0
      ⟨restore, List.replicate maxAcquires (-1), List.replicate maxAcquires (-1), 0⟩ with
    | none => .outOfBounds
    | some a =>
      if (a.given : Int) ≠ numAcquires then .refused a.restore
      else .acquired a.restore (a.ids.take a.given) (a.indexes.take a.given)

/-! ## Loading and unloading -/

/-- The globals of the loaded module that the table depends on. -/
structure Module where
  restoreEntries : List Int
  theSyscallTable : Word
  theNiSyscall : Word
  deriving DecidableEq, Repr

/-- The addresses of the three handlers, in the order of `new_sys_call_array`. -/
structure Handlers where
  putData : Word
  getData : Word
  invalidateData : Word
  deriving DecidableEq, Repr

/-- `new_sys_call_array`. -/
def Handlers.array (h : Handlers) : List Word := [h.putData, h.getData, h.invalidateData]

/-- The installation loop: entry after entry gets its handler. -/
def installAll (base : Word) (t : Tables) (entries : List (Int × Word)) : Tables :=
  entries.foldl (fun t e => t.store base e.1 e.2) t

/-- `register_syscalls` of a module that has just been loaded: no entry has been acquired. -/
def registerSyscalls (u : UsctmParams) (h : Handlers) (t : Tables) : Ret (Module × Tables) :=
  match getEntries u hackedEntries (List.replicate maxAcquires (-1)) with
  | .refused _ => .err .eperm
  | .outOfBounds => .oops
  | .acquired _ entryIds _ =>
    .ok (⟨entryIds, u.sysCallTableAddress, u.sysNiSyscallAddress⟩,
      installAll u.sysCallTableAddress t (entryIds.zip h.array))

/-- `unregister_syscalls`: the three entries get `the_ni_syscall`. -/
def unregisterSyscalls (m : Module) (t : Tables) : Tables :=
  installAll m.theSyscallTable t (m.restoreEntries.map fun e => (e, m.theNiSyscall))

/-- `bldms_init`, and `bldms_exit` after it if the load has succeeded; `registered` says whether
    `register_filesystem` succeeds.  The result is the memory in the end, if the load comes to one. -/
def loadAndUnload (u : UsctmParams) (h : Handlers) (registered : Bool) (t : Tables) : Option Tables :=
  match registerSyscalls u h t with
  | .oops => none
  | .err _ => some t
  | .ok (m, t') =>
    -- a load that fails here leaves the handlers behind: nothing undoes the registration
    if ¬ registered then some t'
    else some (unregisterSyscalls m t')

section

variable {base : Word} {t : Tables} {e : Int}

@[simp] theorem Tables.store_self (t : Tables) (base : Word) (e : Int) (v : Word) :
    t.store base e v base e = v := by
  simp [Tables.store]

theorem Tables.store_of_ne (t : Tables) (base : Word) {e e' : Int} (v : Word) (h : e' ≠ e) :
    t.store base e v base e' = t base e' := by
  simp [Tables.store, Function.update_of_ne h]

/-- An entry that is not written keeps its word … -/
theorem installAll_of_not_mem {entries : List (Int × Word)} (h : e ∉ entries.map Prod.fst) :
    installAll base t entries base e = t base e := by
  induction entries generalizing t with
  | nil => rfl
  | cons x entries ih =>
    rw [List.map_cons, List.mem_cons, not_or] at h
    show installAll base (t.store base x.1 x.2) entries base e = t base e
    rw [ih h.2, Tables.store_of_ne _ _ _ h.1]

/-- … and one that is written once gets what is written there. -/
theorem installAll_of_mem {entries : List (Int × Word)} (hd : (entries.map Prod.fst).Nodup)
    {v : Word} (h : (e, v) ∈ entries) : installAll base t entries base e = v := by
  induction entries generalizing t with
  | nil => cases h
  | cons x entries ih =>
    rw [List.map_cons, List.nodup_cons] at hd
    show installAll base (t.store base x.1 x.2) entries base e = v
    rcases List.mem_cons.mp h with rfl | h
    · rw [installAll_of_not_mem hd.1, Tables.store_self]
    · exact ih hd.2 h

/-- Writing over entries that all held `ni` leaves the table as it was when `ni` is written everywhere, and only
    then. -/
theorem installAll_restores_iff {t₀ : Tables} {ni : Word} {entries : List (Int × Word)}
    (hd : (entries.map Prod.fst).Nodup) (hni : ∀ e ∈ entries.map Prod.fst, t₀ base e = ni)
    (hother : ∀ e, e ∉ entries.map Prod.fst → t base e = t₀ base e) :
    (∀ e, installAll base t entries base e = t₀ base e) ↔ ∀ x ∈ entries, x.2 = ni := by
  have hmem : ∀ x ∈ entries, x.1 ∈ entries.map Prod.fst := fun x hx => List.mem_map.mpr ⟨x, hx, rfl⟩
  constructor
  · intro hsame x hx
    have hwritten : installAll base t entries base x.1 = x.2 := installAll_of_mem hd hx
    rw [← hwritten, hsame x.1, hni x.1 (hmem x hx)]
  · intro hall e
    by_cases he : e ∈ entries.map Prod.fst
    · obtain ⟨x, hx, rfl⟩ := List.mem_map.mp he
      rw [installAll_of_mem hd hx, hall x hx, hni x.1 he]
    · rw [installAll_of_not_mem he, hother e he]

theorem acquireLoop_enough (free : List Int) {num : Int} (n i : Nat) {a : Acquisition}
    (h : ¬ (a.given : Int) < num) : acquireLoop free num n i a = some a := by
  cases n with
  | zero => rfl
  | succ n => exact if_pos h

/-- With nothing acquired yet, the first three free entries are handed out. -/
theorem getEntries_fresh (u : UsctmParams) {e₀ e₁ e₂ : Int} {rest : List Int} {n : Nat}
    (hfree : u.freeEntries = e₀ :: e₁ :: e₂ :: rest) (hfound : u.numEntriesFound = n + 3) :
    getEntries u hackedEntries (List.replicate maxAcquires (-1)) =
      .acquired [e₀, e₁, e₂, -1] [e₀, e₁, e₂] [0, 1, 2] := by
  have hloop : acquireLoop u.freeEntries 3 (n + 3) 0
      ⟨[-1, -1, -1, -1], [-1, -1, -1, -1], [-1, -1, -1, -1], 0⟩ =
      some ⟨[e₀, e₁, e₂, -1], [e₀, e₁, e₂, -1], [0, 1, 2, -1], 3⟩ := by
    rw [hfree]
    simp only [acquireLoop, acquireStep]
    exact acquireLoop_enough _ _ _ (show ¬ ((3 : Nat) : Int) < 3 by decide)
  have hask : ¬ ((hackedEntries : Int) > (u.numEntriesFound : Nat) ∨ (hackedEntries : Int) > maxAcquires) := by
    rw [hfound]
    simp only [hackedEntries, maxAcquires]
    omega
  rw [getEntries, if_neg hask, if_neg (by decide), hfound]
  show (match acquireLoop u.freeEntries 3 (n + 3) 0
    ⟨[-1, -1, -1, -1], [-1, -1, -1, -1], [-1, -1, -1, -1], 0⟩ with
    | none => GetEntries.outOfBounds
    | some a => if (a.given : Int) ≠ 3 then .refused a.restore
      else .acquired a.restore (a.ids.take a.given) (a.indexes.take a.given)) = _
  rw [hloop]
  rfl

end

/-- **The system call table after a load and an unload.**  For every table, every address of
    `sys_ni_syscall`, and the free entries the scan has found: with the parameters of the `insmod` recipe,
    a load followed by an unload leaves the table as it was if and only if the table has the address of
    `sys_ni_syscall`; and a load that fails in `register_filesystem` does if and only if the three handlers
    have it. -/
theorem table_restored_iff (base ni : Word) (t : Tables) (free : List Int)
    (hfree : FreeEntries (t base) ni free) (h : Handlers) (registered : Bool) :
    ∃ t', loadAndUnload (insmod (usctmParams base ni free)) h registered t = some t' ∧
      ((∀ e, t' base e = t base e) ↔
        if registered then base = ni
        else h.putData = ni ∧ h.getData = ni ∧ h.invalidateData = ni) := by
  obtain ⟨e₀, e₁, e₂, rest, rfl⟩ : ∃ e₀ e₁ e₂ rest, free = e₀ :: e₁ :: e₂ :: rest := by
    have henough := hfree.enough
    match free with
    | e₀ :: e₁ :: e₂ :: rest => exact ⟨e₀, e₁, e₂, rest, rfl⟩
    | [] | [_] | [_, _] => exact absurd henough (by simp [hackedEntries])
  have hni : ∀ e ∈ [e₀, e₁, e₂], t base e = ni := by
    intro e he
    exact hfree.unused e (List.mem_append_left rest he)
  have hd : [e₀, e₁, e₂].Nodup := hfree.nodup.sublist (List.sublist_append_left [e₀, e₁, e₂] rest)
  have hget := getEntries_fresh (insmod (usctmParams base ni (e₀ :: e₁ :: e₂ :: rest))) rfl rfl
  have hregister : registerSyscalls (insmod (usctmParams base ni (e₀ :: e₁ :: e₂ :: rest))) h t =
      .ok (⟨[e₀, e₁, e₂], base, base⟩, installAll base t ([e₀, e₁, e₂].zip h.array)) := by
    rw [registerSyscalls, hget]
    rfl
  rw [loadAndUnload, hregister]
  cases registered with
  | true =>
    -- the address of the table is written over the handlers
    refine ⟨_, rfl, ?_⟩
    have hrestores : (∀ e, installAll base (installAll base t ([e₀, e₁, e₂].zip h.array))
        ([e₀, e₁, e₂].map fun e => (e, base)) base e = t base e) ↔
        ∀ x ∈ [e₀, e₁, e₂].map fun e => (e, base), x.2 = ni :=
      installAll_restores_iff hd hni fun e he => installAll_of_not_mem he
    refine hrestores.trans ?_
    simp
  | false =>
    refine ⟨_, rfl, ?_⟩
    have hrestores : (∀ e, installAll base t ([e₀, e₁, e₂].zip h.array) base e = t base e) ↔
        ∀ x ∈ [e₀, e₁, e₂].zip h.array, x.2 = ni := installAll_restores_iff hd hni fun _ _ => rfl
    refine hrestores.trans ?_
    simp [Handlers.array]

/-- A table with four free entries; `sys_ni_syscall` is at address 7. -/
def sampleTables : Tables := fun _ e => if e ∈ [134, 174, 182, 214] then 7 else 1000

theorem sampleTables_scan : usctmScan (sampleTables 4096) 7 = [134, 174, 182, 214] := by decide +kernel

theorem sampleTables_free : FreeEntries (sampleTables 4096) 7 [134, 174, 182, 214] := by
  rw [← sampleTables_scan]
  exact usctmScan_freeEntries (by rw [sampleTables_scan]; decide)

/-- For this table, at address 4096, the load and the unload would do no harm if 4096 were 7. -/
theorem table_restored_sample :
    ∃ t', loadAndUnload (insmod (usctmParams 4096 7 (usctmScan (sampleTables 4096) 7))) ⟨8, 16, 24⟩ true
      sampleTables = some t' ∧
      ((∀ e, t' 4096 e = sampleTables 4096 e) ↔ (4096 : Word) = 7) := by
  rw [sampleTables_scan]
  exact table_restored_iff 4096 7 sampleTables _ sampleTables_free ⟨8, 16, 24⟩ true

/-- After a load and an unload, entry 134 refers to the table itself; after a failed load, to the handler of
    `put_data`. -/
theorem table_not_restored :
    FreeEntries (sampleTables 4096) 7 [134, 174, 182, 214] ∧
    (∃ t', loadAndUnload (insmod (usctmParams 4096 7 [134, 174, 182, 214])) ⟨8, 16, 24⟩ true sampleTables =
      some t' ∧ t' 4096 134 = 4096 ∧ ¬ ∀ e, t' 4096 e = sampleTables 4096 e) ∧
    ∃ t', loadAndUnload (insmod (usctmParams 4096 7 [134, 174, 182, 214])) ⟨8, 16, 24⟩ false sampleTables =
      some t' ∧ t' 4096 134 = 8 ∧ ¬ ∀ e, t' 4096 e = sampleTables 4096 e := by
  refine ⟨sampleTables_free, ⟨_, rfl, by decide, fun h => ?_⟩, ⟨_, rfl, by decide, fun h => ?_⟩⟩
  · exact absurd (h 134) (by decide)
  · exact absurd (h 134) (by decide)

end Bldms
