/-
  A circular scan of `n` slots, starting right after slot `start`.

  `circular start n` lists the slots in the order the scan visits them:
  `start + 1, start + 2, …, start + n`, all modulo `n`.  A scan from a slot in range visits every
  slot (`mem_circular`), so a search along it fails only if no slot qualifies.

  `ahead n b x` says how far slot `x` lies ahead of slot `b` on the circle.  A search that starts before
  a qualifying slot `c` stops at `c` or before it, and does not get back to where it started from:
  seen from any `b`, it only moves forward (`ahead_of_find?`).

  `cyclicDist n b x` is the distance a scan covers from `b` to `x`.  It is the same as `ahead` but for `b`
  itself, which the scan reaches last, after the whole circle.  The search stops at the qualifying slot
  that is nearest in this sense (`find?_circular`).
-/
import Mathlib

/-- The slots `0, …, n - 1` in the order of a circular scan that starts right after `start`. -/
def circular (start n : Nat) : List Nat := (List.range n).map fun i => (start + (i + 1)) % n

@[simp] theorem length_circular (start n : Nat) : (circular start n).length = n := by
  simp [circular]

theorem getElem_circular {start n j : Nat} (hj : j < (circular start n).length) :
    (circular start n)[j] = (start + (j + 1)) % n := by
  simp [circular]

/-- Every slot is visited, and nothing but slots. -/
theorem mem_circular {start n k : Nat} (hstart : start < n) : k ∈ circular start n ↔ k < n := by
  rw [circular, List.mem_map]
  constructor
  · rintro ⟨i, -, rfl⟩
    exact Nat.mod_lt _ (by omega)
  · intro hk
    -- `k` is visited at distance `k - start`, or that plus `n` when the scan has to wrap
    by_cases hlt : start < k
    · refine ⟨k - start - 1, List.mem_range.mpr (by omega), ?_⟩
      rw [show start + (k - start - 1 + 1) = k from by omega, Nat.mod_eq_of_lt hk]
    · refine ⟨n - start + k - 1, List.mem_range.mpr (by omega), ?_⟩
      rw [show start + (n - start + k - 1 + 1) = k + n from by omega, Nat.add_mod_right,
        Nat.mod_eq_of_lt hk]

/-- How far slot `x` lies ahead of slot `b`, on a circle of `n` slots. -/
def ahead (n b x : Nat) : Nat := (x + (n - b)) % n

theorem ahead_self {n b : Nat} (h : b < n) : ahead n b b = 0 := by
  rw [ahead, show b + (n - b) = n from by omega, Nat.mod_self]

theorem ahead_pos {n b x : Nat} (hb : b < n) (hx : x < n) (hne : x ≠ b) : 0 < ahead n b x := by
  rw [ahead]
  by_cases hlt : x < b
  · rw [Nat.mod_eq_of_lt (by omega)]
    omega
  · rw [show x + (n - b) = x - b + n from by omega, Nat.add_mod_right, Nat.mod_eq_of_lt (by omega)]
    omega

theorem ahead_lt {n : Nat} (b x : Nat) (h : 0 < n) : ahead n b x < n := Nat.mod_lt _ h

/-- The slot `i` places further on lies `i` places further ahead, as long as `b` is not passed. -/
theorem ahead_add {n b x i : Nat} (hi : ahead n b x + i < n) :
    ahead n b ((x + i) % n) = ahead n b x + i := by
  rw [ahead] at hi ⊢
  rw [Nat.mod_add_mod, Nat.add_right_comm, ← Nat.mod_add_mod, Nat.mod_eq_of_lt hi, ahead]

/-- A slot is determined by how far ahead it lies. -/
theorem eq_of_ahead_eq {n b x y : Nat} (hx : x < n) (hy : y < n)
    (h : ahead n b x = ahead n b y) : x = y := by
  have hmod : x ≡ y [MOD n] := Nat.ModEq.add_right_cancel' (n - b) h
  rwa [Nat.ModEq, Nat.mod_eq_of_lt hx, Nat.mod_eq_of_lt hy] at hmod

/-- **Seen from any slot `b`, a search moves forward**: started behind a qualifying slot `c`, it stops
    beyond the start and not beyond `c`. -/
theorem ahead_of_find? {n b start c k : Nat} {p : Nat → Bool} (hc : c < n)
    (hlt : ahead n b start < ahead n b c) (hpc : p c = true)
    (hfind : (circular start n).find? p = some k) :
    ahead n b start < ahead n b k ∧ ahead n b k ≤ ahead n b c := by
  have hcn := ahead_lt b c (show 0 < n by omega)
  obtain ⟨-, i, hi, hk, hbefore⟩ := List.find?_eq_some_iff_getElem.mp hfind
  -- the place at which the search would reach `c`
  obtain ⟨j, hj⟩ := Nat.exists_eq_add_of_lt hlt
  have hjn : j < (circular start n).length := by
    rw [length_circular]
    omega
  have hcj : (circular start n)[j] = c := by
    rw [getElem_circular]
    refine eq_of_ahead_eq (b := b) (Nat.mod_lt _ (by omega)) hc ?_
    rw [ahead_add (by omega), hj]
    omega
  have hij : i ≤ j := by
    by_contra hji
    have := hbefore j (by omega)
    rw [hcj, hpc] at this
    exact absurd this (by decide)
  rw [length_circular] at hi hjn
  rw [← hk, getElem_circular, ahead_add (by omega)]
  omega

/-! ## The nearest slot -/

/-- How far a scan that starts right after slot `b` goes to reach slot `x`: between 1 and `n`. -/
def cyclicDist (n b x : Nat) : Nat := if b < x then x - b else x + n - b

section

variable {start n : Nat}

/-- The slot in place `j` of the scan is at distance `j + 1`. -/
theorem cyclicDist_add (hstart : start < n) {j : Nat} (hj : j < n) :
    cyclicDist n start ((start + (j + 1)) % n) = j + 1 := by
  rw [cyclicDist]
  by_cases hlt : start + (j + 1) < n
  · rw [Nat.mod_eq_of_lt hlt, if_pos (by omega)]
    omega
  · rw [Nat.mod_eq_sub_mod (by omega), Nat.mod_eq_of_lt (by omega), if_neg (by omega)]
    omega

/-- A slot is reached at its distance. -/
theorem add_cyclicDist (hstart : start < n) {x : Nat} (hx : x < n) :
    ∃ j, j < n ∧ cyclicDist n start x = j + 1 ∧ (start + (j + 1)) % n = x := by
  by_cases hlt : start < x
  · refine ⟨x - start - 1, by omega, ?_, ?_⟩
    · rw [cyclicDist, if_pos hlt]
      omega
    · rw [show start + (x - start - 1 + 1) = x from by omega, Nat.mod_eq_of_lt hx]
  · refine ⟨x + n - start - 1, by omega, ?_, ?_⟩
    · rw [cyclicDist, if_neg hlt]
      omega
    · rw [show start + (x + n - start - 1 + 1) = x + n from by omega, Nat.add_mod_right,
        Nat.mod_eq_of_lt hx]

theorem nodup_circular (hstart : start < n) : (circular start n).Nodup := by
  refine List.Nodup.of_map (cyclicDist n start) ?_
  have hdist : (circular start n).map (cyclicDist n start) = (List.range n).map (· + 1) := by
    rw [circular, List.map_map]
    apply List.map_congr_left
    intro j hj
    exact cyclicDist_add hstart (List.mem_range.mp hj)
  rw [hdist]
  exact List.nodup_range.map (add_left_injective 1)

/-- **The search picks the nearest slot.** -/
theorem find?_circular (hstart : start < n) {p : Nat → Bool} {k : Nat} :
    (circular start n).find? p = some k ↔
      k < n ∧ p k = true ∧ ∀ x, x < n → p x = true → cyclicDist n start k ≤ cyclicDist n start x := by
  rw [List.find?_eq_some_iff_getElem]
  constructor
  · rintro ⟨hk, i, hi, heq, hbefore⟩
    have hin : i < n := by simpa using hi
    rw [getElem_circular] at heq
    refine ⟨heq ▸ Nat.mod_lt _ (by omega), hk, ?_⟩
    intro x hx hpx
    obtain ⟨j, hj, hdist, hxj⟩ := add_cyclicDist hstart hx
    rw [← heq, cyclicDist_add hstart hin, hdist]
    -- a nearer slot that qualifies would have been met before
    by_contra hlt
    have hnot := hbefore j (by omega)
    rw [getElem_circular, hxj, hpx] at hnot
    cases hnot
  · rintro ⟨hk, hpk, hnearest⟩
    obtain ⟨i, hi, hdist, hki⟩ := add_cyclicDist hstart hk
    refine ⟨hpk, i, by simpa using hi, ?_, ?_⟩
    · rw [getElem_circular, hki]
    · intro j hj
      rw [getElem_circular]
      by_contra hpj
      have hle := hnearest ((start + (j + 1)) % n) (Nat.mod_lt _ (by omega)) (by simpa using hpj)
      rw [cyclicDist_add hstart (by omega), hdist] at hle
      omega

end

/-! ## What a search looks at -/

/-- The elements a search looks at: those before the first hit, and the hit. -/
def lookedAt (p : Nat → Bool) : List Nat → List Nat
  | [] => []
  | x :: l => if p x then [x] else x :: lookedAt p l

theorem lookedAt_isPrefix (p : Nat → Bool) : ∀ l : List Nat, lookedAt p l <+: l
  | [] => List.prefix_rfl
  | x :: l => by
    rw [lookedAt]
    split
    · exact List.prefix_iff_eq_append.mpr rfl
    · exact List.prefix_cons_inj x |>.mpr (lookedAt_isPrefix p l)
