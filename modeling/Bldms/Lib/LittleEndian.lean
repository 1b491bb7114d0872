/-
  Little-endian words.

  A byte-addressed region is a function `Nat → UInt8`; `leWord f n` is the natural number its first
  `n` bytes spell, least significant byte first, and `leByte w i` is byte `i` of the number `w`.
  `leWord_leByte` and `leByte_leWord` are the two round trips (the first one exact below `256 ^ n`),
  `leWord_congr` says that only the first `n` bytes matter.  A number `a + 256 ^ n * b` has the bytes
  of `a` below position `n` and those of `b` from there on (`leByte_low`, `leByte_high`).
  `leBytes w n` is the list of the first `n` bytes of `w`.
-/
import Mathlib

/-- Byte `i` of the little-endian representation of `w`. -/
def leByte (w i : Nat) : UInt8 := UInt8.ofNat (w / 256 ^ i)

/-- The number spelled by the first `n` bytes of `f`, least significant byte first. -/
def leWord (f : Nat → UInt8) : Nat → Nat
  | 0 => 0
  | n + 1 => leWord f n + (f n).toNat * 256 ^ n

@[simp] theorem leWord_zero (f : Nat → UInt8) : leWord f 0 = 0 := rfl
theorem leWord_succ (f : Nat → UInt8) (n : Nat) :
    leWord f (n + 1) = leWord f n + (f n).toNat * 256 ^ n := rfl

theorem toNat_leByte (w i : Nat) : (leByte w i).toNat = w / 256 ^ i % 256 :=
  UInt8.toNat_ofNat'

/-- Skipping `k` bytes divides the number by `256 ^ k`. -/
theorem leByte_add (w k i : Nat) : leByte w (k + i) = leByte (w / 256 ^ k) i := by
  rw [leByte, leByte, Nat.div_div_eq_div_mul, Nat.pow_add]

theorem leWord_congr {f g : Nat → UInt8} {n : Nat} (h : ∀ i, i < n → f i = g i) :
    leWord f n = leWord g n := by
  induction n with
  | zero => rfl
  | succ n ih =>
    rw [leWord_succ, leWord_succ, ih (fun i hi => h i (by omega)), h n (by omega)]

/-- **Round trip**: reading back the bytes of `w` gives `w`, up to the width of the region. -/
theorem leWord_leByte (w n : Nat) : leWord (leByte w) n = w % 256 ^ n := by
  induction n with
  | zero => rw [leWord_zero, Nat.pow_zero, Nat.mod_one]
  | succ n ih =>
    rw [leWord_succ, ih, toNat_leByte, Nat.pow_succ, Nat.mod_mul, Nat.mul_comm (256 ^ n)]

theorem leWord_lt (f : Nat → UInt8) (n : Nat) : leWord f n < 256 ^ n := by
  induction n with
  | zero => exact Nat.zero_lt_one
  | succ n ih =>
    have hbyte : (f n).toNat * 256 ^ n ≤ 255 * 256 ^ n :=
      Nat.mul_le_mul_right _ (Nat.le_of_lt_succ (f n).toNat_lt)
    rw [leWord_succ, Nat.pow_succ]
    omega

/-- The bytes of a two-part number below the cut … -/
theorem leByte_low (a b : Nat) {n i : Nat} (h : i < n) : leByte (a + 256 ^ n * b) i = leByte a i := by
  obtain ⟨k, rfl⟩ := Nat.exists_eq_add_of_lt h
  apply UInt8.toNat_inj.mp
  have hcut : 256 ^ (i + k + 1) * b = 256 ^ i * (256 * (256 ^ k * b)) := by ring
  rw [toNat_leByte, toNat_leByte, hcut, Nat.add_mul_div_left _ _ (by positivity),
    Nat.add_mul_mod_self_left]

/-- … and from the cut on. -/
theorem leByte_high {a b n : Nat} (ha : a < 256 ^ n) (i : Nat) :
    leByte (a + 256 ^ n * b) (n + i) = leByte b i := by
  rw [leByte_add, Nat.add_mul_div_left _ _ (by positivity), Nat.div_eq_of_lt ha, Nat.zero_add]

/-- **Round trip**: the bytes of the number a region spells are those of the region. -/
theorem leByte_leWord (f : Nat → UInt8) {n i : Nat} (h : i < n) : leByte (leWord f n) i = f i := by
  induction n with
  | zero => omega
  | succ n ih =>
    rw [leWord_succ, Nat.mul_comm]
    by_cases hi : i < n
    · rw [leByte_low _ _ hi, ih hi]
    · have hin : i = n + 0 := by omega
      rw [hin, leByte_high (leWord_lt f n), leByte, Nat.pow_zero, Nat.div_one, Nat.add_zero]
      exact UInt8.ofNat_toNat

/-- The first `n` bytes of `w`, least significant byte first. -/
def leBytes (w n : Nat) : List UInt8 := (List.range n).map (leByte w)

@[simp] theorem length_leBytes (w n : Nat) : (leBytes w n).length = n := by simp [leBytes]

theorem getD_leBytes (w : Nat) {n i : Nat} (h : i < n) : (leBytes w n).getD i 0 = leByte w i := by
  rw [leBytes, List.getD_eq_getElem?_getD, List.getElem?_map, List.getElem?_range h, Option.map_some,
    Option.getD_some]
