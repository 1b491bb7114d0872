/-
  Going round a circle of `n` slots, for as long as one likes.

  `roundRobin start n t` lists the `t` slots after `start`; `circular` is one round of it.  A cursor that is moved by
  searches, each from where the one before has stopped, goes round: what the searches look at, put end to end, is
  a `roundRobin` (`roundRobin_append`, `lookedAt_roundRobin`).  And who goes round is even-handed: after any number
  of steps two slots have been visited equally often, but for one visit (`count_roundRobin_le`).
-/
import Bldms.Lib.CircularScan

/-- The `t` slots that come after slot `start`. -/
def roundRobin (start n t : Nat) : List Nat := (List.range t).map fun j => (start + (j + 1)) % n

section

variable {start n t : Nat}

@[simp] theorem length_roundRobin (start n t : Nat) : (roundRobin start n t).length = t := by
  simp [roundRobin]

/-- Where the walk starts matters up to full rounds. -/
theorem roundRobin_mod (start n t : Nat) : roundRobin (start % n) n t = roundRobin start n t := by
  apply List.map_congr_left
  intro j _
  exact Nat.mod_add_mod start n (j + 1)

/-- One walk, and another one from where it has got to. -/
theorem roundRobin_append (start n s t : Nat) :
    roundRobin start n s ++ roundRobin (start + s) n t = roundRobin start n (s + t) := by
  rw [roundRobin, roundRobin, roundRobin, List.range_add, List.map_append, List.map_map]
  congr 1
  apply List.map_congr_left
  intro j _
  rw [Function.comp_apply, Nat.add_assoc start s, Nat.add_assoc s]

/-- The beginning of a walk is a walk. -/
theorem eq_roundRobin_of_prefix {l : List Nat} (h : l <+: roundRobin start n t) : l = roundRobin start n l.length := by
  have hle : l.length ≤ t := by
    simpa using h.length_le
  rw [List.prefix_iff_eq_take.mp h, roundRobin, roundRobin, ← List.map_take, List.take_range, List.length_map,
    List.length_range]

/-- The walk ends where it has got to. -/
theorem mod_of_roundRobin_concat {pre : List Nat} {k : Nat}
    (h : pre ++ [k] = roundRobin start n (pre.length + 1)) : k = (start + (pre.length + 1)) % n := by
  rw [roundRobin, List.range_succ, List.map_append] at h
  exact List.singleton_inj.mp (List.append_inj_right h (by simp))

/-! ## The visits of a slot -/

/-- The walk is at slot `k` when it has made a certain number of steps, modulo `n`. -/
theorem mod_eq_iff_modEq (start : Nat) {k : Nat} (hk : k < n) (j : Nat) :
    (start + (j + 1)) % n = k ↔ j ≡ k + (n - (start + 1) % n) [MOD n] := by
  have hlt : (start + 1) % n < n := Nat.mod_lt _ (by omega)
  have hstart : start + 1 ≡ (start + 1) % n [MOD n] := (Nat.mod_modEq _ n).symm
  have hround : (start + 1) % n + (k + (n - (start + 1) % n)) = k + n := by omega
  constructor
  · intro h
    have hk' : start + 1 + j ≡ k + n [MOD n] := by
      rw [Nat.ModEq, Nat.add_mod_right, Nat.mod_eq_of_lt hk, ← h, Nat.add_assoc, Nat.add_comm 1 j]
    refine Nat.ModEq.add_left_cancel hstart ?_
    rwa [hround]
  · intro h
    have hsum := hstart.add h
    rw [hround, Nat.ModEq, Nat.add_mod_right, Nat.mod_eq_of_lt hk, Nat.add_assoc, Nat.add_comm 1 j] at hsum
    exact hsum

/-- In `t` steps a slot is visited once for each full round, and at most once more. -/
theorem count_roundRobin (start t : Nat) {k : Nat} (hk : k < n) :
    t / n ≤ (roundRobin start n t).count k ∧ (roundRobin start n t).count k ≤ t / n + 1 := by
  have hcount : (roundRobin start n t).count k = t.count (· ≡ k + (n - (start + 1) % n) [MOD n]) := by
    rw [List.count, roundRobin, List.countP_map, Nat.count]
    apply List.countP_congr
    intro j _
    simpa using mod_eq_iff_modEq start hk j
  rw [hcount, Nat.count_modEq_card t (by omega)]
  split <;> omega

/-- **A walk round the circle is even-handed.** -/
theorem count_roundRobin_le (start t : Nat) {k l : Nat} (hk : k < n) (hl : l < n) :
    (roundRobin start n t).count k ≤ (roundRobin start n t).count l + 1 :=
  (count_roundRobin start t hk).2.trans (Nat.succ_le_succ (count_roundRobin start t hl).1)

end

/-! ## A search as part of a walk -/

/-- A search that succeeds has looked at elements that do not qualify, and last at the one it stops at. -/
theorem lookedAt_of_find? {p : Nat → Bool} {l : List Nat} {k : Nat} (h : l.find? p = some k) :
    ∃ pre, lookedAt p l = pre ++ [k] ∧ (∀ x ∈ pre, p x = false) ∧ p k = true := by
  induction l with
  | nil => cases h
  | cons x l ih =>
    rw [lookedAt]
    by_cases hx : p x = true
    · rw [List.find?_cons_of_pos hx, Option.some.injEq] at h
      subst h
      rw [if_pos hx]
      exact ⟨[], rfl, List.forall_mem_nil _, hx⟩
    · rw [List.find?_cons_of_neg hx] at h
      obtain ⟨pre, hpre, hnot, hk⟩ := ih h
      rw [if_neg hx, hpre]
      refine ⟨x :: pre, rfl, ?_, hk⟩
      intro y hy
      rcases List.mem_cons.mp hy with rfl | hy
      · simpa using hx
      · exact hnot y hy

/-- **A search is part of the walk**: it looks at the slots from where it starts to where it stops. -/
theorem lookedAt_roundRobin {start n k : Nat} {p : Nat → Bool} (h : (circular start n).find? p = some k) :
    lookedAt p (circular start n) = roundRobin start n (lookedAt p (circular start n)).length ∧
    (start + (lookedAt p (circular start n)).length) % n = k := by
  have hwalk := eq_roundRobin_of_prefix (lookedAt_isPrefix p (circular start n))
  obtain ⟨pre, hpre, -, -⟩ := lookedAt_of_find? h
  refine ⟨hwalk, ?_⟩
  rw [hpre, List.length_append, List.length_singleton] at hwalk ⊢
  exact (mod_of_roundRobin_concat hwalk).symm
