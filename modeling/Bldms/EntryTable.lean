/-
  The entries of the system call table as a resource: acquired, and made available again.

  Source: `lib/usctm.c`, `get_entries` and `reset_entries`.

  The library keeps, for each of `MAX_ACQUIRES` entries, whether it is held: `restore[i]` is `-1`, or the id of
  the entry.  `get_entries` marks the free ones it comes across, and notes them in local arrays AT THEIR OWN
  POSITION; what it copies to the caller is the beginning of these arrays.  The scan goes up to the number of
  entries found, which may be larger than the arrays.

  * `Marked`               — the loop's invariant: what it has marked and noted so far;
  * `GetCase`              — everything `get_entries` can do;
  * `library`              — a history of calls, with the arrays that acquisitions have returned;
  * `refusal_harmless_iff` — a refused acquisition leaves its marks, and one that does not find enough entries
    leaves the arrays, unless nothing is free at all.
-/
import Bldms.Lib.System
import Bldms.SyscallTable

namespace Bldms

/-! ## Making entries available again -/

/-- The loop of `reset_entries` from position `i` of the arrays on, `n` positions being left; `none`
    when an access is out of bounds.  The ids are only printed. -/
def resetLoop (entryIds entryNdx : List Int) : Nat → Nat → List Int → Option (List Int)
  | 0, _, restore => some restore
  | n + 1, i, restore =>
    match entryNdx[i]?, entryIds[i]? with
    | some ndx, some _ =>
      if ndx < 0 ∨ (restore.length : Int) ≤ ndx then none
      else resetLoop entryIds entryNdx n (i + 1) (restore.set ndx.toNat (-1))
    | _, _ => none

/-- `reset_entries(entry_ids, entry_ndx, num_resets)`. -/
def resetEntries (entryIds entryNdx : List Int) (numResets : Nat) (restore : List Int) : Option (List Int) :=
  resetLoop entryIds entryNdx numResets 0 restore

/-! ## The loop of `get_entries` -/

/-- The number of free entries among the first `k`. -/
def freeCount (restore : List Int) (k : Nat) : Nat := (restore.take k).count (-1)

/-- Entry `p` is free. -/
def FreeAt (restore : List Int) (p : Nat) : Prop := restore[p]? = some (-1)

instance (restore : List Int) (p : Nat) : Decidable (FreeAt restore p) := inferInstanceAs (Decidable (_ = _))

theorem freeCount_succ {restore : List Int} {i : Nat} (hi : i < restore.length) :
    freeCount restore (i + 1) = freeCount restore i + if FreeAt restore i then 1 else 0 := by
  rw [freeCount, freeCount, List.take_add_one, List.count_append]
  congr 1
  by_cases h : FreeAt restore i
  · rw [if_pos h, show restore[i]? = some (-1) from h]
    rfl
  · rw [if_neg h, List.getElem?_eq_getElem hi]
    refine List.count_eq_zero.mpr fun hmem => h ?_
    show restore[i]? = some (-1)
    rw [List.getElem?_eq_getElem hi, ← List.mem_singleton.mp hmem]

theorem freeCount_mono {restore : List Int} {i j : Nat} (h : i ≤ j) :
    freeCount restore i ≤ freeCount restore j :=
  List.Sublist.count_le _ (List.take_sublist_take_left h)

theorem freeCount_le (restore : List Int) (k : Nat) : freeCount restore k ≤ k :=
  Nat.le_trans List.count_le_length (List.length_take_le k restore)

/-- What the loop has done on the table `restore` when it comes to entry `i`: the free ones among the
    first `i` are marked with their ids, and noted. -/
structure Marked (free restore : List Int) (i : Nat) (a : Acquisition) : Prop where
  given : a.given = freeCount restore i
  marks : ∀ p, a.restore[p]? = if p < i ∧ FreeAt restore p then free[p]? else restore[p]?
  ids : ∀ p, p < maxAcquires → a.ids[p]? = if p < i ∧ FreeAt restore p then free[p]? else some (-1)
  indexes : ∀ p, p < maxAcquires →
    a.indexes[p]? = some (if p < i ∧ FreeAt restore p then (p : Int) else -1)

theorem marked_zero (free restore : List Int) :
    Marked free restore 0
      ⟨restore, List.replicate maxAcquires (-1), List.replicate maxAcquires (-1), 0⟩ := by
  refine ⟨rfl, fun p => ?_, fun p hp => ?_, fun p hp => ?_⟩
  · rw [if_neg (fun h => absurd h.1 (Nat.not_lt_zero p))]
  · rw [if_neg (fun h => absurd h.1 (Nat.not_lt_zero p)), List.getElem?_replicate, if_pos hp]
  · rw [if_neg (fun h => absurd h.1 (Nat.not_lt_zero p)), List.getElem?_replicate, if_pos hp]

/-- A slot of an array that is written, when it is one of the array's. -/
theorem getElem?_set_of_some {l : List Int} {i : Nat} {v : Int} (h : l[i]? = some v) (x : Int) (p : Nat) :
    (l.set i x)[p]? = if p = i then some x else l[p]? := by
  have hi := (List.getElem?_eq_some_iff.mp h).1
  rw [List.getElem?_set]
  by_cases hp : p = i
  · rw [if_pos hp, if_pos hp.symm, if_pos hi]
  · rw [if_neg hp, if_neg (fun h' => hp h'.symm)]

/-- An array that holds something else at the free entries among the first `i`: when the free entry `i`
    is written, it does at those among the first `i + 1`, … -/
theorem getElem?_set_marked {restore l : List Int} {i p : Nat} {v w : Int} {x y : Option Int}
    (hin : l[i]? = some w) (hx : p = i → x = some v) (hf : FreeAt restore i)
    (h : l[p]? = if p < i ∧ FreeAt restore p then x else y) :
    (l.set i v)[p]? = if p < i + 1 ∧ FreeAt restore p then x else y := by
  rw [getElem?_set_of_some hin]
  by_cases hp : p = i
  · rw [if_pos hp, hx hp, if_pos ⟨by omega, hp.symm ▸ hf⟩]
  · have hlt : p < i + 1 ↔ p < i := by omega
    rw [if_neg hp, h]
    simp only [hlt]

/-- … and it does as it is, if entry `i` is held. -/
theorem marked_of_held {restore : List Int} {i : Nat} (hf : ¬ FreeAt restore i) (p : Nat) (x y : Option Int) :
    (if p < i + 1 ∧ FreeAt restore p then x else y) = if p < i ∧ FreeAt restore p then x else y := by
  have hsame : p < i + 1 ∧ FreeAt restore p ↔ p < i ∧ FreeAt restore p := by
    constructor
    · rintro ⟨hp, hfp⟩
      rcases Nat.lt_succ_iff_lt_or_eq.mp hp with hlt | rfl
      · exact ⟨hlt, hfp⟩
      · exact absurd hfp hf
    · exact fun hp => ⟨by omega, hp.2⟩
  simp only [hsame]

/-- **The step lemma of the loop**: an entry of the table is passed over if it is held, and marked if it
    is free. -/
theorem Marked.step {free restore : List Int} {i : Nat} {a : Acquisition} (h : Marked free restore i a)
    (hlen : restore.length = maxAcquires) (hi : i < maxAcquires) (hfree : i < free.length) :
    ∃ a', acquireStep free i a = some a' ∧ Marked free restore (i + 1) a' := by
  have hself : ∀ Q : Prop, ¬ (i < i ∧ Q) := fun Q hQ => absurd hQ.1 (Nat.lt_irrefl i)
  have hcurrent : a.restore[i]? = restore[i]? := by rw [h.marks, if_neg (hself _)]
  have hcount := freeCount_succ (hlen ▸ hi : i < restore.length)
  by_cases hf : FreeAt restore i
  · have hmark : a.restore[i]? = some (-1) := hcurrent.trans hf
    have hid : a.ids[i]? = some (-1) := by rw [h.ids i hi, if_neg (hself _)]
    have hndx : a.indexes[i]? = some (-1) := by rw [h.indexes i hi, if_neg (hself _)]
    have hget : free[i]? = some free[i] := List.getElem?_eq_getElem hfree
    have hfound : ∀ p, p = i → free[p]? = some free[i] := fun p hp => hp ▸ hget
    refine ⟨⟨a.restore.set i free[i], a.ids.set i free[i], a.indexes.set i i, a.given + 1⟩, ?_, ?_, ?_, ?_, ?_⟩
    · rw [acquireStep, hmark]
      dsimp only
      rw [if_neg (fun h => h rfl), hget]
    · rw [hcount, if_pos hf]
      exact congrArg (· + 1) h.given
    · intro p
      exact getElem?_set_marked hmark (hfound p) hf (h.marks p)
    · intro p hpa
      exact getElem?_set_marked hid (hfound p) hf (h.ids p hpa)
    · intro p hpa
      have hndx' := h.indexes p hpa
      rw [apply_ite some] at hndx' ⊢
      exact getElem?_set_marked hndx (fun hp => hp ▸ rfl) hf hndx'
  · -- the entry is held: nothing is marked, and it does not count as one of the free ones
    have hheld : ∃ r, a.restore[i]? = some r ∧ r ≠ -1 := by
      rw [hcurrent, List.getElem?_eq_getElem (hlen ▸ hi : i < restore.length)]
      refine ⟨_, rfl, fun hr => hf ?_⟩
      show restore[i]? = some (-1)
      rw [List.getElem?_eq_getElem (hlen ▸ hi : i < restore.length), hr]
    obtain ⟨r, hr, hne⟩ := hheld
    refine ⟨a, ?_, ?_, ?_, ?_, ?_⟩
    · rw [acquireStep, hr]
      exact if_pos hne
    · rw [hcount, if_neg hf, Nat.add_zero]
      exact h.given
    · intro p
      rw [marked_of_held hf]
      exact h.marks p
    · intro p hpa
      rw [marked_of_held hf]
      exact h.ids p hpa
    · intro p hpa
      have hndx := h.indexes p hpa
      rw [apply_ite some] at hndx ⊢
      rw [marked_of_held hf]
      exact hndx

/-- **The run lemma of the loop**: it stops when enough entries are marked, or at the end of those
    found, or out of the bounds of the table. -/
theorem Marked.loop {free restore : List Int} {num : Int} {found : Nat}
    (hlen : restore.length = maxAcquires) (hfree : found ≤ free.length) :
    ∀ {n i : Nat} {a : Acquisition}, Marked free restore i a → (a.given : Int) ≤ num → i ≤ maxAcquires →
      i + n = found →
      (∃ j a', j ≤ found ∧ j ≤ maxAcquires ∧ acquireLoop free num n i a = some a' ∧ Marked free restore j a' ∧
        ((a'.given : Int) = num ∨ (a'.given : Int) < num ∧ j = found)) ∨
      acquireLoop free num n i a = none ∧ maxAcquires < found ∧ (freeCount restore maxAcquires : Int) < num := by
  intro n
  induction n with
  | zero =>
    intro i a h hle hi hfound
    refine .inl ⟨i, a, by omega, hi, rfl, h, ?_⟩
    omega
  | succ n ih =>
    intro i a h hle hi hfound
    rw [acquireLoop]
    by_cases hmore : (a.given : Int) < num
    · rw [if_neg (not_not.mpr hmore)]
      rcases Nat.lt_or_eq_of_le hi with hlt | rfl
      · obtain ⟨a', hstep, h'⟩ := h.step hlen hlt (by omega)
        rw [hstep]
        have hgiven : a'.given ≤ a.given + 1 := by
          rw [h'.given, h.given, freeCount_succ (hlen ▸ hlt : i < restore.length)]
          split <;> omega
        exact ih h' (by omega) hlt (by omega)
      · -- `restore[MAX_ACQUIRES]` is read
        have hout : a.restore[maxAcquires]? = none := by
          rw [h.marks, if_neg (fun hp => absurd hp.1 (Nat.lt_irrefl _)),
            List.getElem?_eq_none (Nat.le_of_eq hlen)]
        have hstep : acquireStep free maxAcquires a = none := by rw [acquireStep, hout]
        rw [hstep]
        exact .inr ⟨rfl, by omega, by rw [← h.given]; exact hmore⟩
    · rw [if_pos hmore]
      exact .inl ⟨i, a, by omega, hi, rfl, h, .inl (by omega)⟩

/-! ## Everything `get_entries` can do -/

/-- The request passes the checks at the beginning. -/
def Admissible (u : UsctmParams) (num : Int) : Prop :=
  1 ≤ num ∧ num ≤ u.numEntriesFound ∧ num ≤ maxAcquires

instance (u : UsctmParams) (num : Int) : Decidable (Admissible u num) := inferInstanceAs (Decidable (_ ∧ _))

/-- The array of free entries has its `MAX_FREE` slots, and no more of them are counted. -/
structure UsctmParams.WellFormed (u : UsctmParams) : Prop where
  slots : u.freeEntries.length = maxFree
  found : u.numEntriesFound ≤ maxFree

/-- The ways `get_entries` goes:
    * `turnedDown` — the checks refuse the request;
    * `acquired`   — enough entries are free;
    * `tooFew`     — too few are, and the end of those found is reached;
    * `beyond`     — too few are, and more have been found than the table has slots: the scan leaves the table. -/
inductive GetCase (u : UsctmParams) (num : Int) (restore : List Int) : GetEntries → Prop
  | turnedDown : ¬ Admissible u num → GetCase u num restore (.refused restore)
  | acquired {j : Nat} {a : Acquisition} : Admissible u num → Marked u.freeEntries restore j a →
      j ≤ u.numEntriesFound → j ≤ maxAcquires → (a.given : Int) = num →
      GetCase u num restore (.acquired a.restore (a.ids.take a.given) (a.indexes.take a.given))
  | tooFew {a : Acquisition} : Admissible u num → u.numEntriesFound ≤ maxAcquires →
      Marked u.freeEntries restore u.numEntriesFound a → (freeCount restore u.numEntriesFound : Int) < num →
      GetCase u num restore (.refused a.restore)
  | beyond : Admissible u num → maxAcquires < u.numEntriesFound →
      (freeCount restore maxAcquires : Int) < num → GetCase u num restore .outOfBounds

/-- No other proof looks into `get_entries`. -/
theorem getCase_getEntries {u : UsctmParams} (hu : u.WellFormed) (num : Int) {restore : List Int}
    (hlen : restore.length = maxAcquires) : GetCase u num restore (getEntries u num restore) := by
  unfold getEntries
  split
  · rename_i h
    refine .turnedDown fun hadm => ?_
    obtain ⟨-, h₁, h₂⟩ := hadm
    omega
  rename_i hmany
  split
  · rename_i hfew
    exact .turnedDown fun hadm => by have := hadm.1; omega
  rename_i hfew
  have hadm : Admissible u num := ⟨by omega, by omega, by omega⟩
  have hfree : u.numEntriesFound ≤ u.freeEntries.length := by
    rw [hu.slots]
    exact hu.found
  have hnone : ((0 : Nat) : Int) ≤ num := by omega
  have hloop := (marked_zero u.freeEntries restore).loop hlen hfree hnone (Nat.zero_le _) (Nat.zero_add _)
  rcases hloop with ⟨j, a, hj, hj', hrun, hmarked, hend⟩ | ⟨hrun, hbeyond, hcount⟩
  · rw [hrun]
    dsimp only
    rcases hend with hgiven | ⟨hgiven, rfl⟩
    · rw [if_neg (not_not.mpr hgiven)]
      exact .acquired hadm hmarked hj hj' hgiven
    · rw [if_pos (by omega)]
      exact .tooFew hadm hj' hmarked (by rw [← hmarked.given]; exact hgiven)
  · rw [hrun]
    exact .beyond hadm hbeyond hcount

/-! ## A history of calls -/

/-- What a successful `get_entries` has returned, and whether it has been given back. -/
structure Grant where
  ids : List Int
  ndx : List Int
  released : Bool
  deriving DecidableEq, Repr

/-- The table of the library, and the acquisitions so far. -/
structure Library where
  restore : List Int
  grants : List Grant
  deriving DecidableEq, Repr

/-- A call of the library: a reset is given the arrays of acquisition number `k`. -/
inductive LibraryCall where
  | get (numAcquires : Int)
  | reset (k : Nat)
  deriving DecidableEq, Repr

/-- What a call comes back with. -/
inductive LibraryReply where
  | get (r : GetEntries)
  | reset (restore : Option (List Int))
  deriving DecidableEq, Repr

/-- The library when the module has been loaded. -/
def Library.fresh : Library := ⟨List.replicate maxAcquires (-1), []⟩

namespace Library

/-- The library after `get_entries` has come back with `r`; an access out of bounds has no next state,
    and is shown as no change. -/
def afterGet (l : Library) : GetEntries → Library
  | .refused restore => { l with restore := restore }
  | .acquired restore ids ndx => ⟨restore, l.grants ++ [⟨ids, ndx, false⟩]⟩
  | .outOfBounds => l

/-- The library after `reset_entries` for acquisition `k` has come back. -/
def afterReset (l : Library) (k : Nat) : Option (List Int) → Library
  | some restore => ⟨restore, l.grants.modify k fun g => { g with released := true }⟩
  | none => l

/-- `reset_entries` with the arrays of acquisition `k`; nothing happens when there is none. -/
def resetGrant (l : Library) (k : Nat) : Option (List Int) :=
  match l.grants[k]? with
  | some g => resetEntries g.ids g.ndx g.ids.length l.restore
  | none => some l.restore

end Library

/-- The library, call by call. -/
def library (u : UsctmParams) : System Library LibraryCall LibraryReply where
  step l
    | .get num => (.get (getEntries u num l.restore), l.afterGet (getEntries u num l.restore))
    | .reset k => (.reset (l.resetGrant k), l.afterReset k (l.resetGrant k))

@[simp] theorem library_next_get (u : UsctmParams) (l : Library) (num : Int) :
    (library u).next l (.get num) = l.afterGet (getEntries u num l.restore) := rfl
@[simp] theorem library_next_reset (u : UsctmParams) (l : Library) (k : Nat) :
    (library u).next l (.reset k) = l.afterReset k (l.resetGrant k) := rfl

/-- The loop of `reset_entries` writes inside the table. -/
theorem length_resetLoop {entryIds entryNdx : List Int} :
    ∀ {n i : Nat} {restore r : List Int}, resetLoop entryIds entryNdx n i restore = some r →
      r.length = restore.length := by
  intro n
  induction n with
  | zero =>
    intro i restore r h
    rw [← Option.some.inj h]
  | succ n ih =>
    intro i restore r h
    rw [resetLoop] at h
    split at h
    · split at h
      · cases h
      · rw [ih h, List.length_set]
    · cases h

theorem Marked.length {free restore : List Int} {i : Nat} {a : Acquisition} (h : Marked free restore i a)
    (hfree : restore.length ≤ free.length) : a.restore.length = restore.length := by
  refine Nat.le_antisymm ?_ ?_
  · have hout := h.marks restore.length
    rw [if_neg (fun hp => by have := (List.getElem?_eq_some_iff.mp hp.2).1; omega),
      List.getElem?_eq_none (Nat.le_refl _)] at hout
    exact List.getElem?_eq_none_iff.mp hout
  · by_contra hlt
    have hp : a.restore.length < restore.length := by omega
    have hin := h.marks a.restore.length
    rw [List.getElem?_eq_none (Nat.le_refl _), List.getElem?_eq_getElem hp,
      List.getElem?_eq_getElem (Nat.lt_of_lt_of_le hp hfree)] at hin
    split at hin <;> cases hin

/-- **The table keeps its size**, call by call. -/
theorem Library.length_step {u : UsctmParams} (hu : u.WellFormed) {l : Library}
    (hlen : l.restore.length = maxAcquires) (c : LibraryCall) :
    ((library u).next l c).restore.length = maxAcquires := by
  have hfree : l.restore.length ≤ u.freeEntries.length := by
    rw [hlen, hu.slots]
    decide
  cases c with
  | get num =>
    have hcase := getCase_getEntries hu num hlen
    rw [library_next_get]
    generalize getEntries u num l.restore = r at hcase ⊢
    cases hcase with
    | turnedDown _ => exact hlen
    | acquired _ hmarked _ _ _ => exact (hmarked.length hfree).trans hlen
    | tooFew _ _ hmarked _ => exact (hmarked.length hfree).trans hlen
    | beyond _ _ _ => exact hlen
  | reset k =>
    rw [library_next_reset]
    cases hr : l.resetGrant k with
    | none => exact hlen
    | some r =>
      show r.length = maxAcquires
      unfold Library.resetGrant at hr
      split at hr
      · exact (length_resetLoop hr).trans hlen
      · rw [← Option.some.inj hr, hlen]

/-- A table that a history of calls can leave has its `MAX_ACQUIRES` slots. -/
theorem Library.length_final {u : UsctmParams} (hu : u.WellFormed) (calls : List LibraryCall) :
    ((library u).final Library.fresh calls).restore.length = maxAcquires :=
  System.AllSteps.final (P := fun l : Library => l.restore.length = maxAcquires)
    (fun _ c (_ : True) hlen => Library.length_step hu hlen c)
    (System.AllSteps.of_forall (fun _ _ => trivial) Library.fresh calls) rfl

/-! ## Refused acquisitions -/

/-- `get_entries` stays inside its arrays, and leaves the table as it was when it refuses. -/
def CleanGet (u : UsctmParams) (num : Int) (restore : List Int) : Prop :=
  getEntries u num restore ≠ .outOfBounds ∧ ∀ r, getEntries u num restore = .refused r → r = restore

/-- The marks of a loop leave the table as it was exactly when the free entries have the id `-1`, the
    mark of a free entry. -/
theorem Marked.unchanged_iff {free restore : List Int} {i : Nat} {a : Acquisition} (h : Marked free restore i a) :
    a.restore = restore ↔ ∀ p, p < i → FreeAt restore p → free[p]? = some (-1) := by
  constructor
  · intro heq p hp hfree
    have hmark := h.marks p
    rw [heq, if_pos ⟨hp, hfree⟩] at hmark
    rw [← hmark]
    exact hfree
  · intro hall
    apply List.ext_getElem?
    intro p
    rw [h.marks p]
    split
    · rename_i hp
      rw [hall p hp.1 hp.2]
      exact hp.2.symm
    · rfl

theorem cleanGet_acquired {u : UsctmParams} {num : Int} {restore restore' ids ndx : List Int}
    (h : getEntries u num restore = .acquired restore' ids ndx) : CleanGet u num restore := by
  refine ⟨?_, ?_⟩
  · rw [h]
    intro h
    cases h
  · intro r hr
    rw [h] at hr
    cases hr

theorem cleanGet_refused_iff {u : UsctmParams} {num : Int} {restore r : List Int}
    (h : getEntries u num restore = .refused r) : CleanGet u num restore ↔ r = restore := by
  constructor
  · exact fun hclean => hclean.2 r h
  · rintro rfl
    refine ⟨?_, ?_⟩
    · rw [h]
      intro h
      cases h
    · intro r' hr'
      rw [h] at hr'
      cases hr'
      rfl

/-- **A refused acquisition.** For every history of calls, every array of free entries, every number of
    them found, up to 15, and every number asked for: `get_entries` stays in bounds, and leaves the
    table as it was when it refuses, if and only if the checks turn the request down, or enough of the
    entries it looks at are free, or no more have been found than the table has slots and none of them
    is free (with an id other than `-1`). -/
theorem refusal_harmless_iff (u : UsctmParams) (hu : u.WellFormed) (calls : List LibraryCall) (num : Int) :
    let restore := ((library u).final Library.fresh calls).restore
    CleanGet u num restore ↔
      ¬ Admissible u num ∨ num ≤ freeCount restore (min u.numEntriesFound maxAcquires) ∨
      (u.numEntriesFound ≤ maxAcquires ∧
        ∀ p, p < u.numEntriesFound → FreeAt restore p → u.freeEntries[p]? = some (-1)) := by
  intro restore
  have hlen : restore.length = maxAcquires := Library.length_final hu calls
  have hcase := getCase_getEntries hu num hlen
  generalize hres : getEntries u num restore = r at hcase
  cases hcase with
  | turnedDown hadm => exact iff_of_true ((cleanGet_refused_iff hres).mpr rfl) (.inl hadm)
  | @acquired j a hadm hmarked hj hj' hgiven =>
    have hcount : freeCount restore j ≤ freeCount restore (min u.numEntriesFound maxAcquires) :=
      freeCount_mono (by omega)
    refine iff_of_true (cleanGet_acquired hres) (.inr (.inl ?_))
    rw [← hgiven, hmarked.given]
    omega
  | @tooFew a hadm hfound hmarked hcount =>
    have hnot : ¬ num ≤ freeCount restore (min u.numEntriesFound maxAcquires) := by
      rw [Nat.min_eq_left hfound]
      omega
    rw [cleanGet_refused_iff hres, hmarked.unchanged_iff]
    constructor
    · intro hall
      exact .inr (.inr ⟨hfound, hall⟩)
    · rintro (hno | hno | ⟨-, hall⟩)
      · exact absurd hadm hno
      · exact absurd hno hnot
      · exact hall
  | beyond hadm hfound hcount =>
    refine iff_of_false (fun h => h.1 hres) ?_
    rintro (hno | hno | ⟨hle, -⟩)
    · exact hno hadm
    · rw [Nat.min_eq_right (by omega)] at hno
      omega
    · omega

/-- The parameters when the scan has found four free entries. -/
def fourEntries : UsctmParams := usctmParams 4096 7 [134, 174, 182, 214]

theorem fourEntries_wellFormed : fourEntries.WellFormed := ⟨rfl, by decide⟩

/-- The parameters when it has found five. -/
def fiveEntries : UsctmParams := usctmParams 4096 7 [134, 174, 182, 214, 215]

/-- Three of four entries are held: a request for one finds the last. -/
theorem refusal_harmless_last :
    CleanGet fourEntries 1 ((library fourEntries).final Library.fresh [.get 3]).restore :=
  (refusal_harmless_iff fourEntries fourEntries_wellFormed [.get 3] 1).mpr (.inr (.inl (by decide)))

/-- Three of four entries are held: a request for two is refused, and marks the last one as held.  With
    five entries found, the request reads behind the table. -/
theorem refusal_harmful :
    let restore := ((library fourEntries).final Library.fresh [.get 3]).restore
    restore = [134, 174, 182, -1] ∧ getEntries fourEntries 2 restore = .refused [134, 174, 182, 214] ∧
    ¬ CleanGet fourEntries 2 restore ∧
    getEntries fiveEntries 2 ((library fiveEntries).final Library.fresh [.get 3]).restore = .outOfBounds ∧
    ¬ CleanGet fiveEntries 2 ((library fiveEntries).final Library.fresh [.get 3]).restore := by
  intro restore
  have hrefused : getEntries fourEntries 2 restore = .refused [134, 174, 182, 214] := by decide
  have hbeyond : getEntries fiveEntries 2 ((library fiveEntries).final Library.fresh [.get 3]).restore =
      .outOfBounds := by decide
  refine ⟨by decide, hrefused, fun h => ?_, hbeyond, fun h => h.1 hbeyond⟩
  exact absurd (h.2 _ hrefused) (by decide)

end Bldms
