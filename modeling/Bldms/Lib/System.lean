/-
  Deterministic input/output systems: runs, invariants over whole runs, and simulation.

  A `System σ ι ο` is a step function `σ → ι → ο × σ`: in a state it takes an input and answers
  with an output and the next state.  A RUN is a list of inputs; everything a result about runs
  talks about is a structural recursion on that list:

  * `states`   — every state the run goes through, the first and the last included;
  * `replies`  — the outputs, in order;
  * `final`    — the last state;
  * `AllSteps C` — every step of the run meets the condition `C` in the state it is taken from.

  The rules the developments above use:
  * `AllSteps.invariant`  — what one step preserves holds in every state of the run;
  * `AllSteps.congr`      — two step conditions that agree under an invariant agree along runs
    (this is how an "exactly when" about single steps becomes one about runs);
  * `rel_final`           — what every step only extends, the run only extends;
  * `Traces.of_system`    — a step-by-step simulation by a relational specification lifts to runs;
  * `Traces.of_stuttering` — so does one that leaves out the steps the specification does not see.
-/
import Mathlib

universe u v w x

/-- A deterministic input/output system, given by its step function. -/
structure System (σ : Type u) (ι : Type v) (ο : Type w) where
  step : σ → ι → ο × σ

namespace System

variable {σ : Type u} {ι : Type v} {ο : Type w} (S : System σ ι ο)

/-- The state after one input. -/
def next (s : σ) (i : ι) : σ := (S.step s i).2

/-- The state after a list of inputs. -/
def final (s : σ) : List ι → σ
  | [] => s
  | i :: is => final (S.next s i) is

/-- The outputs of a run. -/
def replies (s : σ) : List ι → List ο
  | [] => []
  | i :: is => (S.step s i).1 :: replies (S.next s i) is

/-- All states of a run, the initial and the final one included. -/
def states (s : σ) : List ι → List σ
  | [] => [s]
  | i :: is => s :: states (S.next s i) is

/-- Every step of the run meets `C` in the state it is taken from. -/
def AllSteps (C : σ → ι → Prop) (s : σ) : List ι → Prop
  | [] => True
  | i :: is => C s i ∧ AllSteps C (S.next s i) is

@[simp] theorem final_nil (s : σ) : S.final s [] = s := rfl
@[simp] theorem final_cons (s : σ) (i : ι) (is : List ι) :
    S.final s (i :: is) = S.final (S.next s i) is := rfl
@[simp] theorem states_nil (s : σ) : S.states s [] = [s] := rfl
@[simp] theorem states_cons (s : σ) (i : ι) (is : List ι) :
    S.states s (i :: is) = s :: S.states (S.next s i) is := rfl

theorem final_append (s : σ) (is js : List ι) : S.final s (is ++ js) = S.final (S.final s is) js := by
  induction is generalizing s with
  | nil => rfl
  | cons i is ih => exact ih (S.next s i)

theorem replies_append (s : σ) (is js : List ι) :
    S.replies s (is ++ js) = S.replies s is ++ S.replies (S.final s is) js := by
  induction is generalizing s with
  | nil => rfl
  | cons i is ih => exact congrArg _ (ih (S.next s i))

theorem final_mem_states (s : σ) (is : List ι) : S.final s is ∈ S.states s is := by
  induction is generalizing s with
  | nil => exact List.mem_singleton.mpr rfl
  | cons i is ih => exact List.mem_cons_of_mem _ (ih (S.next s i))

theorem self_mem_states (s : σ) (is : List ι) : s ∈ S.states s is := by
  cases is with
  | nil => exact List.mem_singleton.mpr rfl
  | cons i is => exact List.mem_cons_self

variable {S}

/-- **The invariant rule.**  If every step that meets `C` preserves `P`, then `P` holds in every
    state of a run whose steps all meet `C`. -/
theorem AllSteps.invariant {C : σ → ι → Prop} {P : σ → Prop}
    (hstep : ∀ s i, C s i → P s → P (S.next s i)) :
    ∀ {s : σ} {is : List ι}, S.AllSteps C s is → P s → ∀ t ∈ S.states s is, P t := by
  intro s is
  induction is generalizing s with
  | nil =>
    intro _ hs t ht
    rw [states_nil, List.mem_singleton] at ht
    exact ht ▸ hs
  | cons i is ih =>
    intro hall hs t ht
    rcases List.mem_cons.mp ht with rfl | ht
    · exact hs
    · exact ih hall.2 (hstep s i hall.1 hs) t ht

/-- The invariant rule, read at the last state. -/
theorem AllSteps.final {C : σ → ι → Prop} {P : σ → Prop}
    (hstep : ∀ s i, C s i → P s → P (S.next s i)) {s : σ} {is : List ι}
    (hall : S.AllSteps C s is) (hs : P s) : P (S.final s is) :=
  hall.invariant hstep hs _ (S.final_mem_states s is)

/-- Two step conditions `C` and `D` that agree wherever the invariant `P` holds agree along runs,
    provided `C`-steps preserve `P`.  `F` collects standing assumptions on the inputs. -/
theorem AllSteps.congr {F C D : σ → ι → Prop} {P : σ → Prop}
    (hstep : ∀ s i, F s i → C s i → P s → P (S.next s i))
    (hiff : ∀ s i, F s i → P s → (D s i ↔ C s i)) :
    ∀ {s : σ} {is : List ι}, S.AllSteps F s is → P s →
      (S.AllSteps D s is ↔ S.AllSteps C s is) := by
  intro s is
  induction is generalizing s with
  | nil => intro _ _; exact Iff.rfl
  | cons i is ih =>
    intro hF hs
    have hhead := hiff s i hF.1 hs
    constructor
    · intro hD
      have hC := hhead.mp hD.1
      exact ⟨hC, (ih hF.2 (hstep s i hF.1 hC hs)).mp hD.2⟩
    · intro hC
      exact ⟨hhead.mpr hC.1, (ih hF.2 (hstep s i hF.1 hC.1 hs)).mpr hC.2⟩

/-- What holds in every state of the run holds where each step is taken. -/
theorem AllSteps.of_states {P : σ → Prop} :
    ∀ {s : σ} {is : List ι}, (∀ t ∈ S.states s is, P t) → S.AllSteps (fun t _ => P t) s is := by
  intro s is
  induction is generalizing s with
  | nil => intro _; trivial
  | cons i is ih =>
    intro h
    exact ⟨h s List.mem_cons_self, ih fun t ht => h t (List.mem_cons_of_mem s ht)⟩

/-- A property of the initial state holds in every state of the run when each step leads to a state
    that has it, and only then. -/
theorem allSteps_next_iff {Q : σ → Prop} {s : σ} {is : List ι} (hs : Q s) :
    S.AllSteps (fun t i => Q (S.next t i)) s is ↔ ∀ t ∈ S.states s is, Q t := by
  constructor
  · intro h
    exact h.invariant (fun _ _ hnext _ => hnext) hs
  · intro h
    induction is generalizing s with
    | nil => trivial
    | cons i is ih =>
      have htail : ∀ t ∈ S.states (S.next s i) is, Q t := fun t ht => h t (List.mem_cons_of_mem s ht)
      have hnext : Q (S.next s i) := htail _ (S.self_mem_states _ is)
      exact ⟨hnext, ih hnext htail⟩

/-- What every step only extends, the run only extends: a state is below the last one. -/
theorem rel_final {R : σ → σ → Prop} (hrefl : ∀ s, R s s) (htrans : ∀ s t u, R s t → R t u → R s u)
    (hstep : ∀ s i, R s (S.next s i)) :
    ∀ {s : σ} {is : List ι}, ∀ t ∈ S.states s is, R t (S.final s is) := by
  intro s is
  induction is generalizing s with
  | nil =>
    intro t ht
    rw [states_nil, List.mem_singleton] at ht
    exact ht ▸ hrefl s
  | cons i is ih =>
    intro t ht
    rcases List.mem_cons.mp ht with rfl | ht
    · exact htrans _ _ _ (hstep t i) (ih _ (S.self_mem_states _ is))
    · exact ih t ht

/-- A condition that every input meets in every state. -/
theorem AllSteps.of_forall {C : σ → ι → Prop} (h : ∀ s i, C s i) :
    ∀ (s : σ) (is : List ι), S.AllSteps C s is
  | _, [] => trivial
  | s, i :: is => ⟨h s i, AllSteps.of_forall h (S.next s i) is⟩

/-- The steps of a run in two parts. -/
theorem AllSteps.append_iff {C : σ → ι → Prop} {s : σ} {is js : List ι} :
    S.AllSteps C s (is ++ js) ↔ S.AllSteps C s is ∧ S.AllSteps C (S.final s is) js := by
  induction is generalizing s with
  | nil => exact (iff_of_eq (true_and _)).symm
  | cons i is ih => exact (and_congr_right fun _ => ih).trans and_assoc.symm

/-- Conditions met by every step may be used together. -/
theorem AllSteps.and {C D : σ → ι → Prop} :
    ∀ {s : σ} {is : List ι}, S.AllSteps C s is → S.AllSteps D s is →
      S.AllSteps (fun t i => C t i ∧ D t i) s is := by
  intro s is
  induction is generalizing s with
  | nil => intro _ _; trivial
  | cons i is ih => exact fun hC hD => ⟨⟨hC.1, hD.1⟩, ih hC.2 hD.2⟩

end System

/-! ## Relational specifications and simulation -/

/-- `Traces A a is os a'`: the specification `A` can take the inputs `is` from `a` to `a'`, giving
    the outputs `os`. -/
inductive Traces {α : Type x} {ι : Type v} {ο : Type w} (A : α → ι → ο → α → Prop) :
    α → List ι → List ο → α → Prop
  | nil (a : α) : Traces A a [] [] a
  | cons {a b c : α} {i : ι} {o : ο} {is : List ι} {os : List ο} :
      A a i o b → Traces A b is os c → Traces A a (i :: is) (o :: os) c

/-- **The simulation rule.**  If `abs` maps every step from an invariant state to a step of the
    specification, it maps every run to a trace of the specification, with the same outputs. -/
theorem Traces.of_system {σ : Type u} {α : Type x} {ι : Type v} {ο : Type w}
    {S : System σ ι ο} {A : α → ι → ο → α → Prop} (abs : σ → α)
    {C : σ → ι → Prop} {P : σ → Prop}
    (hstep : ∀ s i, C s i → P s → P (S.next s i))
    (hsim : ∀ s i, C s i → P s → A (abs s) i (S.step s i).1 (abs (S.next s i))) :
    ∀ {s : σ} {is : List ι}, S.AllSteps C s is → P s →
      Traces A (abs s) is (S.replies s is) (abs (S.final s is)) := by
  intro s is
  induction is generalizing s with
  | nil => intro _ _; exact Traces.nil _
  | cons i is ih =>
    intro hall hs
    exact Traces.cons (hsim s i hall.1 hs) (ih hall.2 (hstep s i hall.1 hs))

/-- **The simulation rule, with stuttering.**  A step is one the specification sees and takes, or it is not seen:
    it has no output and leaves the abstract state alone. -/
theorem Traces.of_stuttering {σ : Type u} {α : Type x} {ι ι' : Type v} {ο ο' : Type w}
    {S : System σ ι ο} {A : α → ι' → ο' → α → Prop} (abs : σ → α) (seen : ι → Option ι') (said : ο → Option ο')
    {C : σ → ι → Prop} {P : σ → Prop}
    (hstep : ∀ s i, C s i → P s → P (S.next s i))
    (hsim : ∀ s i, C s i → P s →
      (∃ i' o', seen i = some i' ∧ said (S.step s i).1 = some o' ∧ A (abs s) i' o' (abs (S.next s i))) ∨
      seen i = none ∧ said (S.step s i).1 = none ∧ abs (S.next s i) = abs s) :
    ∀ {s : σ} {is : List ι}, S.AllSteps C s is → P s →
      Traces A (abs s) (is.filterMap seen) ((S.replies s is).filterMap said) (abs (S.final s is)) := by
  intro s is
  induction is generalizing s with
  | nil => intro _ _; exact Traces.nil _
  | cons i is ih =>
    intro hall hs
    have htail := ih hall.2 (hstep s i hall.1 hs)
    rw [System.replies, List.filterMap_cons, List.filterMap_cons]
    rcases hsim s i hall.1 hs with ⟨i', o', hseen, hsaid, hA⟩ | ⟨hseen, hsaid, habs⟩
    · rw [hseen, hsaid]
      exact Traces.cons hA htail
    · rw [hseen, hsaid, ← habs]
      exact htail
