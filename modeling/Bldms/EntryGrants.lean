/-
  Acquisitions over a history of calls.

  Source: `lib/usctm.c`, `get_entries` and `reset_entries`.

  The ids that `get_entries` has found are at the positions of their entries, and the caller gets the beginning of the
  array.  So what it is told is right when the entries are the FIRST ones of the table; if an earlier one is held,
  its position still has the initial `-1`, and an id further on is lost.
  * `SoundCall`          — what is expected of a call: the ids and the indexes of an acquisition, and what a reset
    gives back;
  * `FromTheFirst`       — the condition under which a call is as expected;
  * `Library.Inv`        — every acquisition so far was one of the first entries;
  * `entries_sound_iff`  — expectation and condition agree, over whole histories.
-/
import Bldms.EntryTable

namespace Bldms

/-! ## What is expected -/

/-- The ids of the entries that have been found are pairwise distinct and not negative. -/
structure UsctmParams.Ids (u : UsctmParams) : Prop where
  nodup : (u.freeEntries.take u.numEntriesFound).Nodup
  nonneg : ∀ id ∈ u.freeEntries.take u.numEntriesFound, 0 ≤ id

/-- What a successful `get_entries(num)` should return: so many pairwise distinct ids of free entries,
    none of them held by an acquisition that has not been given back, and their indexes. -/
structure SoundGrant (u : UsctmParams) (num : Int) (l : Library) (ids ndx : List Int) : Prop where
  count : (ids.length : Int) = num
  nodup : ids.Nodup
  found : ∀ id ∈ ids, id ∈ u.freeEntries.take u.numEntriesFound
  unheld : ∀ g ∈ l.grants, g.released = false → ∀ id ∈ ids, id ∉ g.ids
  length : ndx.length = ids.length
  matching : ∀ j, j < ids.length → ∃ p : Nat, ndx[j]? = some (p : Int) ∧ ids[j]? = u.freeEntries[p]?

/-- A reset makes exactly the entries at these indexes available. -/
def Releases (restore ndx : List Int) (r : Option (List Int)) : Prop :=
  ∃ restore', r = some restore' ∧
    ∀ p, p < maxAcquires → restore'[p]? = if (p : Int) ∈ ndx then some (-1) else restore[p]?

/-- What is expected of a call. -/
def SoundCall (u : UsctmParams) (l : Library) : LibraryCall → Prop
  | .get num =>
    match getEntries u num l.restore with
    | .refused _ => True
    | .acquired restore ids ndx =>
      SoundGrant u num l ids ndx ∧ Releases restore ndx (resetEntries ids ndx ids.length restore)
    | .outOfBounds => False
  | .reset k => ∀ g, l.grants[k]? = some g → Releases l.restore g.ndx (l.resetGrant k)

/-- The first `num` entries are free, and no acquisition that has not been given back has one of them. -/
def FirstFree (l : Library) (num : Int) : Prop :=
  ∀ p : Nat, (p : Int) < num →
    FreeAt l.restore p ∧ ∀ g ∈ l.grants, g.released = false → (p : Int) ∉ g.ndx

/-- An acquisition that passes the checks finds the first entries free, or too few of those found, which
    are no more than the table has slots. -/
def FromTheFirst (u : UsctmParams) (l : Library) : LibraryCall → Prop
  | .get num => ¬ Admissible u num ∨ FirstFree l num ∨
      (u.numEntriesFound ≤ maxAcquires ∧ (freeCount l.restore u.numEntriesFound : Int) < num)
  | .reset _ => True

/-! ## The first entries -/

/-- The indexes of the first `m` entries. -/
def firstNdx (m : Nat) : List Int := (List.range m).map fun p : Nat => (p : Int)

theorem mem_firstNdx {m p : Nat} : (p : Int) ∈ firstNdx m ↔ p < m := by
  simp [firstNdx]

theorem getElem?_firstNdx (m p : Nat) : (firstNdx m)[p]? = if p < m then some (p : Int) else none := by
  rw [firstNdx, List.getElem?_map]
  by_cases h : p < m
  · rw [List.getElem?_range h, if_pos h]
    rfl
  · rw [List.getElem?_eq_none (by simpa using h), if_neg h]
    rfl

/-- The table has its slots, and every acquisition so far was one of the first entries. -/
structure Library.Inv (u : UsctmParams) (l : Library) : Prop where
  length : l.restore.length = maxAcquires
  grants : ∀ g ∈ l.grants, ∃ m, 1 ≤ m ∧ m ≤ maxAcquires ∧ m ≤ u.numEntriesFound ∧
    g.ids = u.freeEntries.take m ∧ g.ndx = firstNdx m

/-- A reset of the first `m` entries, from entry `i` on. -/
theorem resetLoop_first {ids : List Int} {m : Nat} (hm : m ≤ ids.length) :
    ∀ {n i : Nat} {restore : List Int}, i + n = m → m ≤ restore.length →
      ∃ r, resetLoop ids (firstNdx m) n i restore = some r ∧
        ∀ p, r[p]? = if i ≤ p ∧ p < m then some (-1) else restore[p]? := by
  intro n
  induction n with
  | zero =>
    intro i restore hi _
    refine ⟨restore, rfl, fun p => ?_⟩
    rw [if_neg (by omega)]
  | succ n ih =>
    intro i restore hi hlen
    have hndx : (firstNdx m)[i]? = some (i : Int) := by rw [getElem?_firstNdx, if_pos (by omega)]
    have hset : m ≤ (restore.set i (-1)).length := by
      rw [List.length_set]
      exact hlen
    obtain ⟨r, hr, hall⟩ := ih (by omega : i + 1 + n = m) hset
    refine ⟨r, ?_, fun p => ?_⟩
    · rw [resetLoop, hndx, List.getElem?_eq_getElem (show i < ids.length by omega)]
      dsimp only
      rw [if_neg (by omega), Int.toNat_natCast, hr]
    · rw [hall, getElem?_set_of_some (List.getElem?_eq_getElem (show i < restore.length by omega))]
      by_cases hp : p = i
      · rw [if_neg (by omega), if_pos hp, if_pos (by omega)]
      · rw [if_neg hp]
        have hiff : (i + 1 ≤ p ∧ p < m) ↔ (i ≤ p ∧ p < m) := by omega
        simp only [hiff]

theorem releases_first {u : UsctmParams} (hu : u.WellFormed) {m : Nat} (hm : m ≤ maxAcquires) {restore : List Int}
    (hlen : restore.length = maxAcquires) :
    Releases restore (firstNdx m)
      (resetEntries (u.freeEntries.take m) (firstNdx m) (u.freeEntries.take m).length restore) := by
  have hslots : (u.freeEntries.take m).length = m := by
    rw [List.length_take, hu.slots]
    show min m 15 = m
    have hm : m ≤ 4 := hm
    omega
  rw [hslots]
  obtain ⟨r, hr, hall⟩ := resetLoop_first (Nat.le_of_eq hslots.symm) (Nat.zero_add m) (hlen ▸ hm : m ≤ restore.length)
  refine ⟨r, hr, fun p _ => ?_⟩
  rw [hall]
  simp only [Nat.zero_le, true_and, mem_firstNdx]

/-- When the first `k` entries are free, they are counted … -/
theorem freeCount_first {restore : List Int} :
    ∀ {k : Nat}, (∀ p, p < k → FreeAt restore p) → freeCount restore k = k := by
  intro k
  induction k with
  | zero => intro _; rfl
  | succ k ih =>
    intro hall
    have hk := hall k (Nat.lt_succ_self k)
    rw [freeCount_succ (List.getElem?_eq_some_iff.mp hk).1, if_pos hk, ih fun p hp => hall p (by omega)]

/-- … and what the loop has noted of them, once it has `k`, is right. -/
theorem Marked.first {free restore : List Int} {j : Nat} {a : Acquisition} (h : Marked free restore j a)
    (hk : a.given ≤ maxAcquires) (hall : ∀ p, p < a.given → FreeAt restore p) :
    a.ids.take a.given = free.take a.given ∧ a.indexes.take a.given = firstNdx a.given := by
  have hj : a.given ≤ j := by
    rw [h.given]
    exact freeCount_le restore j
  refine ⟨List.ext_getElem? fun p => ?_, List.ext_getElem? fun p => ?_⟩
  · rw [List.getElem?_take, List.getElem?_take]
    split
    · rename_i hp
      rw [h.ids p (by omega), if_pos ⟨by omega, hall p hp⟩]
    · rfl
  · rw [List.getElem?_take, getElem?_firstNdx]
    split
    · rename_i hp
      rw [h.indexes p (by omega), if_pos ⟨by omega, hall p hp⟩]
    · rfl

section

variable {u : UsctmParams} {l : Library} {num : Int}

/-- Ids that are all ids of free entries come from the first entries. -/
theorem Marked.free_of_found (hids : u.Ids) {restore : List Int} {j : Nat} {a : Acquisition}
    (h : Marked u.freeEntries restore j a) (hk : a.given ≤ maxAcquires)
    (hfound : ∀ id ∈ a.ids.take a.given, id ∈ u.freeEntries.take u.numEntriesFound) :
    ∀ p, p < a.given → FreeAt restore p := by
  intro p hp
  by_contra hheld
  -- the position of an entry that is held still has its initial `-1`
  have hget : (a.ids.take a.given)[p]? = some (-1) := by
    rw [List.getElem?_take, if_pos hp, h.ids p (by omega), if_neg (fun hf => hheld hf.2)]
  have hneg := hids.nonneg _ (hfound _ (List.mem_of_getElem? hget))
  omega

theorem head_mem_take {ids : List Int} {id : Int} (h : ids[0]? = some id) {k : Nat} (hk : 1 ≤ k) :
    id ∈ ids.take k := by
  refine List.mem_of_getElem? (i := 0) ?_
  rw [List.getElem?_take, if_pos (show 0 < k from hk), h]

/-! ## Call by call -/

/-- What an acquisition that has found enough entries stands on. -/
structure Acquires (u : UsctmParams) (num : Int) (restore : List Int) (a : Acquisition) : Prop where
  marked : ∃ j, j ≤ u.numEntriesFound ∧ j ≤ maxAcquires ∧ Marked u.freeEntries restore j a
  given : (a.given : Int) = num
  pos : 1 ≤ a.given
  slots : a.given ≤ maxAcquires
  found : a.given ≤ u.numEntriesFound

theorem Admissible.acquires (hadm : Admissible u num) {restore : List Int} {j : Nat} {a : Acquisition}
    (hmarked : Marked u.freeEntries restore j a) (hj : j ≤ u.numEntriesFound) (hj' : j ≤ maxAcquires)
    (hgiven : (a.given : Int) = num) : Acquires u num restore a := by
  obtain ⟨h₁, h₂, h₃⟩ := hadm
  exact ⟨⟨j, hj, hj', hmarked⟩, hgiven, by omega, by omega, by omega⟩

/-- If what it returns is sound, the first entries were free, and nobody had them. -/
theorem Library.Inv.firstFree_of_sound (hu : u.WellFormed) (hids : u.Ids) (hI : Library.Inv u l)
    {a : Acquisition} (ha : Acquires u num l.restore a) {ndx : List Int}
    (hsound : SoundGrant u num l (a.ids.take a.given) ndx) : FirstFree l num := by
  obtain ⟨j, -, -, hmarked⟩ := ha.marked
  have hgiven := ha.given
  have hall := hmarked.free_of_found hids ha.slots hsound.found
  intro p hp
  refine ⟨hall p (by omega), fun g hg hheld => ?_⟩
  -- an acquisition that is still held has the first entry, and so has this one
  obtain ⟨m, hm, -, -, hgids, -⟩ := hI.grants g hg
  have hslot : 0 < u.freeEntries.length := by
    rw [hu.slots]
    decide
  have hfirst : u.freeEntries[0]? = some u.freeEntries[0] := List.getElem?_eq_getElem hslot
  have hmine : u.freeEntries[0] ∈ a.ids.take a.given := by
    rw [(hmarked.first ha.slots hall).1]
    exact head_mem_take hfirst ha.pos
  have hits : u.freeEntries[0] ∈ g.ids := by
    rw [hgids]
    exact head_mem_take hfirst hm
  exact absurd hits (hsound.unheld g hg hheld _ hmine)

/-- If the first entries are free, they are what is returned. -/
theorem Acquires.first {restore : List Int} {a : Acquisition} (ha : Acquires u num restore a)
    (hfree : ∀ p : Nat, (p : Int) < num → FreeAt restore p) :
    a.ids.take a.given = u.freeEntries.take a.given ∧ a.indexes.take a.given = firstNdx a.given := by
  obtain ⟨j, -, -, hmarked⟩ := ha.marked
  have hgiven := ha.given
  exact hmarked.first ha.slots fun p hp => hfree p (by omega)

/-- And then it is sound. -/
theorem Library.Inv.sound_of_firstFree (hu : u.WellFormed) (hids : u.Ids) (hI : Library.Inv u l)
    {a : Acquisition} (ha : Acquires u num l.restore a) (hfirst : FirstFree l num) :
    SoundGrant u num l (a.ids.take a.given) (a.indexes.take a.given) ∧
      Releases a.restore (a.indexes.take a.given) (resetEntries (a.ids.take a.given) (a.indexes.take a.given)
        (a.ids.take a.given).length a.restore) := by
  obtain ⟨j, -, -, hmarked⟩ := ha.marked
  have hgiven := ha.given
  have hpos := ha.pos
  have hslots : a.given ≤ u.freeEntries.length := by
    rw [hu.slots]
    exact Nat.le_trans ha.found hu.found
  have hlen : a.restore.length = maxAcquires := by
    rw [hmarked.length (by rw [hI.length, hu.slots]; decide), hI.length]
  obtain ⟨hids', hndx'⟩ := ha.first fun p hp => (hfirst p hp).1
  rw [hids', hndx']
  refine ⟨⟨?_, ?_, ?_, ?_, ?_, ?_⟩, releases_first hu ha.slots hlen⟩
  · rw [List.length_take, Nat.min_eq_left hslots, hgiven]
  · exact hids.nodup.sublist (List.take_sublist_take_left ha.found)
  · exact fun id hid => (List.take_sublist_take_left ha.found).subset hid
  · intro g hg hheld
    obtain ⟨m, hm, -, -, -, hgndx⟩ := hI.grants g hg
    have hnot := (hfirst 0 (by omega)).2 g hg hheld
    rw [hgndx, mem_firstNdx] at hnot
    omega
  · rw [firstNdx, List.length_map, List.length_range, List.length_take, Nat.min_eq_left hslots]
  · intro p hp
    have hp : p < a.given := by
      rw [List.length_take] at hp
      omega
    exact ⟨p, by rw [getElem?_firstNdx, if_pos hp], by rw [List.getElem?_take, if_pos hp]⟩

/-- An acquisition that finds enough entries does not find too few. -/
theorem Acquires.enough {restore : List Int} {a : Acquisition} (ha : Acquires u num restore a) :
    ¬ (freeCount restore u.numEntriesFound : Int) < num := by
  obtain ⟨j, hj, -, hmarked⟩ := ha.marked
  have hgiven := ha.given
  have hmono : freeCount restore j ≤ freeCount restore u.numEntriesFound := freeCount_mono hj
  rw [← hmarked.given] at hmono
  omega

/-- **The step lemma**, for acquisitions: they are sound exactly when they start from the first entry. -/
theorem Library.Inv.soundGet_iff (hu : u.WellFormed) (hids : u.Ids) (hI : Library.Inv u l) (num : Int) :
    SoundCall u l (.get num) ↔ FromTheFirst u l (.get num) := by
  have hcase := getCase_getEntries hu num hI.length
  show (match getEntries u num l.restore with
    | .refused _ => True
    | .acquired restore ids ndx =>
      SoundGrant u num l ids ndx ∧ Releases restore ndx (resetEntries ids ndx ids.length restore)
    | .outOfBounds => False) ↔ _
  generalize getEntries u num l.restore = r at hcase ⊢
  cases hcase with
  | turnedDown hadm => exact iff_of_true trivial (.inl hadm)
  | tooFew _ hfound _ hcount => exact iff_of_true trivial (.inr (.inr ⟨hfound, hcount⟩))
  | acquired hadm hmarked hj hj' hgiven =>
    have ha := hadm.acquires hmarked hj hj' hgiven
    constructor
    · exact fun h => .inr (.inl (hI.firstFree_of_sound hu hids ha h.1))
    · rintro (hno | hfirst | ⟨-, hcount⟩)
      · exact absurd hadm hno
      · exact hI.sound_of_firstFree hu hids ha hfirst
      · exact absurd hcount ha.enough
  | beyond hadm hfound hcount =>
    refine iff_of_false id ?_
    rintro (hno | hfirst | ⟨hle, -⟩)
    · exact hno hadm
    · -- the first entries would have been enough
      obtain ⟨h₁, -, h₃⟩ := hadm
      obtain ⟨k, rfl⟩ := Int.eq_ofNat_of_zero_le (by omega : 0 ≤ num)
      have hk := freeCount_first fun p (hp : p < k) => (hfirst p (by omega)).1
      have hmono : freeCount l.restore k ≤ freeCount l.restore maxAcquires := freeCount_mono (by omega)
      omega
    · omega

/-- A reset gives back the first entries, whoever holds them by then. -/
theorem Library.Inv.soundReset (hu : u.WellFormed) (hI : Library.Inv u l) (k : Nat) :
    SoundCall u l (.reset k) := by
  intro g hg
  obtain ⟨m, -, hm, -, hids, hndx⟩ := hI.grants g (List.mem_of_getElem? hg)
  rw [Library.resetGrant, hg]
  dsimp only
  rw [hids, hndx]
  exact releases_first hu hm hI.length

theorem Library.Inv.soundCall_iff (hu : u.WellFormed) (hids : u.Ids) (hI : Library.Inv u l) (c : LibraryCall) :
    SoundCall u l c ↔ FromTheFirst u l c := by
  cases c with
  | get num => exact hI.soundGet_iff hu hids num
  | reset k => exact iff_of_true (hI.soundReset hu k) trivial

/-- A mark on an acquisition does not change its arrays. -/
theorem mem_modify_released {grants : List Grant} {k : Nat} {g : Grant}
    (h : g ∈ grants.modify k fun g => { g with released := true }) :
    ∃ g₀ ∈ grants, g.ids = g₀.ids ∧ g.ndx = g₀.ndx := by
  obtain ⟨i, hi⟩ := List.mem_iff_getElem?.mp h
  rw [List.getElem?_modify] at hi
  cases hg : grants[i]? with
  | none => rw [hg] at hi; cases hi
  | some g₀ =>
    rw [hg] at hi
    refine ⟨g₀, List.mem_of_getElem? hg, ?_⟩
    rw [← Option.some.inj hi]
    split <;> exact ⟨rfl, rfl⟩

/-- **The invariant is kept** by every call that starts from the first entry. -/
theorem Library.Inv.step (hu : u.WellFormed) (hI : Library.Inv u l) {c : LibraryCall}
    (hc : FromTheFirst u l c) : Library.Inv u ((library u).next l c) := by
  refine ⟨Library.length_step hu hI.length c, ?_⟩
  cases c with
  | get num =>
    have hcase := getCase_getEntries hu num hI.length
    rw [library_next_get]
    generalize getEntries u num l.restore = r at hcase ⊢
    cases hcase with
    | turnedDown _ => exact hI.grants
    | tooFew _ _ _ _ => exact hI.grants
    | beyond _ _ _ => exact hI.grants
    | @acquired j a hadm hmarked hj hj' hgiven =>
      have ha := hadm.acquires hmarked hj hj' hgiven
      have hfirst : FirstFree l num := by
        rcases hc with hno | hfirst | ⟨-, hcount⟩
        · exact absurd hadm hno
        · exact hfirst
        · exact absurd hcount ha.enough
      obtain ⟨hids, hndx⟩ := ha.first fun p hp => (hfirst p hp).1
      intro g hg
      rcases List.mem_append.mp hg with hg | hg
      · exact hI.grants g hg
      · rw [List.mem_singleton.mp hg]
        exact ⟨a.given, ha.pos, ha.slots, ha.found, hids, hndx⟩
  | reset k =>
    rw [library_next_reset]
    cases l.resetGrant k with
    | none => exact hI.grants
    | some restore =>
      intro g hg
      obtain ⟨g₀, hg₀, hids, hndx⟩ := mem_modify_released hg
      rw [hids, hndx]
      exact hI.grants g₀ hg₀

end

/-- **The allocation of entries over any history.** For every array of free entries whose ids, as far as
    they have been found, are pairwise distinct and not negative, every number of them found, up to 15,
    and every sequence of acquisitions and resets, each reset with the arrays of an earlier acquisition:
    every call does what is expected of it if and only if every acquisition that passes the checks finds
    the first entries free, or too few entries. -/
theorem entries_sound_iff (u : UsctmParams) (hu : u.WellFormed) (hids : u.Ids) (calls : List LibraryCall) :
    (library u).AllSteps (SoundCall u) Library.fresh calls ↔
      (library u).AllSteps (FromTheFirst u) Library.fresh calls :=
  System.AllSteps.congr (F := fun _ _ => True) (P := Library.Inv u)
    (fun _ _ _ hc hI => hI.step hu hc) (fun _ c _ hI => hI.soundCall_iff hu hids c)
    (System.AllSteps.of_forall (fun _ _ => trivial) _ calls)
    ⟨rfl, fun _ hg => absurd hg List.not_mem_nil⟩

theorem fourEntries_ids : fourEntries.Ids := ⟨by decide, by decide⟩

/-- One acquisition at a time: two entries, given back, then three. -/
theorem entries_sound_in_turn :
    let calls : List LibraryCall := [.get 2, .reset 0, .get 3]
    (library fourEntries).replies Library.fresh calls =
      [.get (.acquired [134, 174, -1, -1] [134, 174] [0, 1]), .reset (some [-1, -1, -1, -1]),
        .get (.acquired [134, 174, 182, -1] [134, 174, 182] [0, 1, 2])] ∧
    (library fourEntries).AllSteps (SoundCall fourEntries) Library.fresh calls := by
  intro calls
  have hfirst : ∀ l : Library, l.restore = [-1, -1, -1, -1] → (∀ g ∈ l.grants, g.released = true) →
      ∀ num : Int, num ≤ 4 → FirstFree l num := by
    intro l hrestore hgrants num hnum p hp
    refine ⟨?_, fun g hg hheld => ?_⟩
    · have hp : p < 4 := by omega
      show l.restore[p]? = some (-1)
      rw [hrestore]
      match p with
      | 0 | 1 | 2 | 3 => rfl
    · rw [hgrants g hg] at hheld
      cases hheld
  refine ⟨by decide, (entries_sound_iff fourEntries fourEntries_wellFormed fourEntries_ids calls).mpr ?_⟩
  exact ⟨.inr (.inl (hfirst _ rfl (by decide) 2 (by decide))), trivial,
    .inr (.inl (hfirst _ rfl (by decide) 3 (by decide))), trivial⟩

/-- Two acquisitions of one entry each: the second one is told entry `-1` at index `-1`, and giving it
    back writes in front of the table. -/
theorem entries_unsound :
    let calls : List LibraryCall := [.get 1, .get 1, .reset 1]
    (library fourEntries).replies Library.fresh calls =
      [.get (.acquired [134, -1, -1, -1] [134] [0]), .get (.acquired [134, 174, -1, -1] [-1] [-1]),
        .reset none] ∧
    ¬ (library fourEntries).AllSteps (SoundCall fourEntries) Library.fresh calls := by
  intro calls
  refine ⟨by decide, fun h => ?_⟩
  have hsound := h.2.1.1.found (-1) (by decide)
  exact absurd hsound (by decide)

end Bldms
