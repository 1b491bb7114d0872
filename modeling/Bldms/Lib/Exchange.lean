/-
  A cell that owns what it points to, exchanged without a lock.

  The cell holds a pointer.  A caller that wants another object in it makes one, LOADS the old pointer, SWAPS its own
  in and FREES what it has loaded; other callers look at the object meanwhile.  Between its load and its swap a caller
  is in the WINDOW: a second load there gets the same pointer, which is then freed twice, while the object of the
  first swap is lost.

  Objects are numbered in the order they are made.  Two ledgers are kept along every run:
  * `Counted` — whatever the order of the steps: every load is paid for by a free still to come or done, and there are
                as many loads, but for those in the window, as pointers the cell has held before the one it holds;
  * `Tidy`    — as long as no two callers share the window: every object is in one place, in the cell, with a caller,
                or freed.
  * `exchange_exact`  — once all callers are done: nothing has been freed twice, exactly if nothing is lost, exactly if
                        no two callers have ever shared the window;
  * `exchange_locked` — callers that wait for each other keep out of all trouble: no object is freed twice, none is
                        looked at after it has been freed.
-/
import Bldms.Lib.System

namespace Exchange

/-! ## The cell -/

/-- A caller, between two of its steps. -/
inductive Phase where
  /-- It has read the pointer, to look at the object. -/
  | looking (p : Nat)
  /-- It has made an object of its own, … -/
  | ready (new : Nat)
  /-- … loaded the pointer to free, … -/
  | loaded (new old : Nat)
  /-- … and put its own in. -/
  | swapped (old : Nat)
  deriving DecidableEq, Repr

/-- The pointer, the callers under way, how many objects have been made, and those freed, the last first.
    `stale`, `held` and `loads` are ghosts: whether somebody has looked at a freed object, the pointers there have
    been in the cell, and those taken out of it to be freed. -/
structure Cell where
  current : Option Nat
  callers : List Phase
  made : Nat
  freed : List Nat
  stale : Bool
  held : List Nat
  loads : List Nat
  deriving DecidableEq, Repr

/-- The steps; a caller is named by its position. -/
inductive Move where
  /-- A first object; … -/
  | fill
  /-- … the last one goes. -/
  | drain
  | look
  | check (j : Nat)
  | leave (j : Nat)
  /-- A caller makes its object, … -/
  | make
  /-- … or one that has looked before. -/
  | renew (j : Nat)
  | load (j : Nat)
  | swap (j : Nat)
  | free (j : Nat)
  deriving DecidableEq, Repr

/-- The step is the first one of a caller, or on a cell that should have none. -/
def Move.Starts : Move → Prop
  | .fill | .drain | .look | .make => True
  | _ => False

namespace Cell

def empty : Cell := ⟨none, [], 0, [], false, [], []⟩

/-- The caller at position `j` goes on in another phase. -/
def goOn (c : Cell) (j : Nat) (ph : Phase) : List Phase := ph :: c.callers.eraseIdx j

def move (c : Cell) : Move → Option Cell
  | .fill =>
    if c.current = none ∧ c.callers = [] then
      some { c with current := some c.made, made := c.made + 1, held := c.made :: c.held }
    else none
  | .drain =>
    match c.current with
    | some p =>
      if c.callers = [] then
        some { c with current := none, freed := p :: c.freed, loads := p :: c.loads }
      else none
    | none => none
  | .look => c.current.map fun p => { c with callers := .looking p :: c.callers }
  | .check j =>
    match c.callers[j]? with
    | some (.looking p) => some { c with stale := c.stale || decide (p ∈ c.freed) }
    | _ => none
  | .leave j =>
    match c.callers[j]? with
    | some (.looking _) => some { c with callers := c.callers.eraseIdx j }
    | _ => none
  | .make => c.current.map fun _ => { c with callers := .ready c.made :: c.callers, made := c.made + 1 }
  | .renew j =>
    match c.callers[j]? with
    | some (.looking _) => some { c with callers := c.goOn j (.ready c.made), made := c.made + 1 }
    | _ => none
  | .load j =>
    match c.callers[j]?, c.current with
    | some (.ready new), some p => some { c with callers := c.goOn j (.loaded new p), loads := p :: c.loads }
    | _, _ => none
  | .swap j =>
    match c.callers[j]? with
    | some (.loaded new old) =>
      some { c with callers := c.goOn j (.swapped old), current := some new, held := new :: c.held }
    | _ => none
  | .free j =>
    match c.callers[j]? with
    | some (.swapped old) => some { c with callers := c.callers.eraseIdx j, freed := old :: c.freed }
    | _ => none

end Cell

/-- A caller between its load and its swap. -/
@[simp] def Phase.inWindow : Phase → Bool
  | .loaded _ _ => true
  | .looking _ | .ready _ | .swapped _ => false

/-- What the caller is going to free. -/
@[simp] def Phase.old : Phase → List Nat
  | .loaded _ old | .swapped old => [old]
  | .looking _ | .ready _ => []

/-- The object that is in the caller's hands only. -/
@[simp] def Phase.own : Phase → List Nat
  | .ready new | .loaded new _ => [new]
  | .swapped old => [old]
  | .looking _ => []

def olds (l : List Phase) : List Nat := l.flatMap Phase.old

def owns (l : List Phase) : List Nat := l.flatMap Phase.own

@[simp] theorem olds_nil : olds [] = [] := rfl
@[simp] theorem owns_nil : owns [] = [] := rfl
@[simp] theorem olds_cons (ph : Phase) (l : List Phase) : olds (ph :: l) = ph.old ++ olds l := rfl
@[simp] theorem owns_cons (ph : Phase) (l : List Phase) : owns (ph :: l) = ph.own ++ owns l := rfl

namespace Cell

/-- How many callers are between load and swap. -/
def window (c : Cell) : Nat := c.callers.countP Phase.inWindow

/-- The objects in the cell and in the hands of callers. -/
def owned (c : Cell) : List Nat := c.current.toList ++ owns c.callers

end Cell

/-- What a step does: a caller's step takes it from among `rest`. -/
inductive MoveCase (c : Cell) : Move → Cell → Prop
  | fill : c.current = none → c.callers = [] →
      MoveCase c .fill { c with current := some c.made, made := c.made + 1, held := c.made :: c.held }
  | drain {p : Nat} : c.current = some p → c.callers = [] →
      MoveCase c .drain { c with current := none, freed := p :: c.freed, loads := p :: c.loads }
  | look {p : Nat} : c.current = some p → MoveCase c .look { c with callers := .looking p :: c.callers }
  | check {j p : Nat} : .looking p ∈ c.callers →
      MoveCase c (.check j) { c with stale := c.stale || decide (p ∈ c.freed) }
  | leave {j p : Nat} {rest : List Phase} : c.callers.Perm (.looking p :: rest) →
      MoveCase c (.leave j) { c with callers := rest }
  | make {p : Nat} : c.current = some p → MoveCase c .make { c with callers := .ready c.made :: c.callers, made := c.made + 1 }
  | renew {j p : Nat} {rest : List Phase} : c.callers.Perm (.looking p :: rest) →
      MoveCase c (.renew j) { c with callers := .ready c.made :: rest, made := c.made + 1 }
  | load {j new p : Nat} {rest : List Phase} : c.callers.Perm (.ready new :: rest) → c.current = some p →
      MoveCase c (.load j) { c with callers := .loaded new p :: rest, loads := p :: c.loads }
  | swap {j new old : Nat} {rest : List Phase} : c.callers.Perm (.loaded new old :: rest) →
      MoveCase c (.swap j) { c with callers := .swapped old :: rest, current := some new, held := new :: c.held }
  | free {j old : Nat} {rest : List Phase} : c.callers.Perm (.swapped old :: rest) →
      MoveCase c (.free j) { c with callers := rest, freed := old :: c.freed }

/-- The caller at a position, and the others. -/
theorem perm_eraseIdx {l : List Phase} {j : Nat} {ph : Phase} (h : l[j]? = some ph) :
    l.Perm (ph :: l.eraseIdx j) := by
  obtain ⟨hj, rfl⟩ := List.getElem?_eq_some_iff.mp h
  exact (List.getElem_cons_eraseIdx_perm hj).symm

/-- **What a step does.** -/
theorem move_cases {c c' : Cell} {m : Move} (h : c.move m = some c') : MoveCase c m c' := by
  cases m with
  | fill =>
    simp only [Cell.move] at h
    split at h
    · rename_i hc
      obtain rfl := Option.some.inj h
      exact .fill hc.1 hc.2
    · cases h
  | drain =>
    simp only [Cell.move] at h
    split at h
    · rename_i p hp
      split at h
      · rename_i hc
        obtain rfl := Option.some.inj h
        exact .drain hp hc
      · cases h
    · cases h
  | look =>
    obtain ⟨p, hp, rfl⟩ := Option.map_eq_some_iff.mp h
    exact .look hp
  | check j =>
    simp only [Cell.move] at h
    split at h
    · rename_i p hp
      obtain rfl := Option.some.inj h
      exact .check (List.mem_of_getElem? hp)
    · cases h
  | leave j =>
    simp only [Cell.move] at h
    split at h
    · rename_i p hp
      obtain rfl := Option.some.inj h
      exact .leave (perm_eraseIdx hp)
    · cases h
  | make =>
    obtain ⟨p, hp, rfl⟩ := Option.map_eq_some_iff.mp h
    exact .make hp
  | renew j =>
    simp only [Cell.move] at h
    split at h
    · rename_i p hp
      obtain rfl := Option.some.inj h
      exact .renew (perm_eraseIdx hp)
    · cases h
  | load j =>
    simp only [Cell.move] at h
    split at h
    · rename_i new p hnew hp
      obtain rfl := Option.some.inj h
      exact .load (perm_eraseIdx hnew) hp
    · cases h
  | swap j =>
    simp only [Cell.move] at h
    split at h
    · rename_i new old hold
      obtain rfl := Option.some.inj h
      exact .swap (perm_eraseIdx hold)
    · cases h
  | free j =>
    simp only [Cell.move] at h
    split at h
    · rename_i old hold
      obtain rfl := Option.some.inj h
      exact .free (perm_eraseIdx hold)
    · cases h

/-! ## Counting loads and frees -/

structure Counted (c : Cell) : Prop where
  /-- Callers find a pointer in the cell. -/
  busy : c.callers ≠ [] → ∃ p, c.current = some p
  /-- It is one of those that have been there, and so are those taken out. -/
  present : ∀ p ∈ c.current, p ∈ c.held
  taken : ∀ p ∈ c.loads, p ∈ c.held
  window : c.held.length + c.window = c.loads.length + c.current.toList.length
  /-- A load is paid for by a free. -/
  paid : ∀ a, c.loads.count a ≤ (olds c.callers).count a + c.freed.count a
  size : c.owned.length + c.freed.length = c.made

section

variable {c c' : Cell} {m : Move} {ph : Phase} {rest : List Phase}

theorem counted_empty : Counted Cell.empty :=
  ⟨fun h => absurd rfl h, fun _ h => (Option.not_mem_none _ h).elim, fun _ h => (List.not_mem_nil h).elim, rfl,
    fun _ => le_refl _, rfl⟩

/-! What a list of callers comes to, one of them taken out. -/

theorem window_perm (h : c.callers.Perm (ph :: rest)) :
    c.window = rest.countP Phase.inWindow + if ph.inWindow then 1 else 0 := by
  rw [Cell.window, h.countP_eq, List.countP_cons]

theorem olds_perm (h : c.callers.Perm (ph :: rest)) (a : Nat) :
    (olds c.callers).count a = ph.old.count a + (olds rest).count a := by
  rw [olds, (h.flatMap_right _).count_eq, List.flatMap_cons, List.count_append, olds]

theorem owns_perm (h : c.callers.Perm (ph :: rest)) : (owns c.callers).Perm (ph.own ++ owns rest) :=
  h.flatMap_right _

/-- **The step lemma of the counts.** -/
theorem Counted.step (h : Counted c) (hcase : MoveCase c m c') : Counted c' := by
  obtain ⟨hbusy, hpresent, htaken, hwindow, hpaid, hsize⟩ := h
  have hcons : ∀ x, ∀ p ∈ c.loads, p ∈ x :: c.held := fun x p hp => List.mem_cons_of_mem x (htaken p hp)
  have hcaller : ∀ {ph rest}, c.callers.Perm (ph :: rest) → ∃ p, c.current = some p := fun hperm =>
    hbusy fun hidle => absurd (hidle ▸ hperm).length_eq (by simp)
  rw [Cell.owned, List.length_append] at hsize
  cases hcase with
  | fill hnone hidle =>
    rw [hnone] at hwindow hsize
    refine ⟨fun _ => ⟨_, rfl⟩, by simp, hcons _, ?_, hpaid, ?_⟩
    · simp [Cell.window] at hwindow ⊢
      omega
    · simp [Cell.owned] at hsize ⊢
      omega
  | @drain p hp hidle =>
    rw [hp] at hwindow hsize
    refine ⟨fun h => absurd hidle h, by simp, List.forall_mem_cons.mpr ⟨hpresent p hp, htaken⟩, ?_, fun a => ?_, ?_⟩
    · simp [Cell.window] at hwindow ⊢
      omega
    · have hle := hpaid a
      simp only [List.count_cons]
      omega
    · simp [Cell.owned] at hsize ⊢
      omega
  | look hp =>
    exact ⟨fun _ => ⟨_, hp⟩, hpresent, htaken, hwindow, hpaid, by simpa [Cell.owned] using hsize⟩
  | check hp => exact ⟨hbusy, hpresent, htaken, hwindow, hpaid, by simpa [Cell.owned] using hsize⟩
  | make hp =>
    refine ⟨fun _ => ⟨_, hp⟩, hpresent, htaken, hwindow, hpaid, ?_⟩
    simp [Cell.owned] at hsize ⊢
    omega
  | leave hperm =>
    rw [window_perm hperm] at hwindow
    rw [(owns_perm hperm).length_eq] at hsize
    refine ⟨fun _ => hcaller hperm, hpresent, htaken, hwindow, fun a => ?_, ?_⟩
    · have hle := hpaid a
      rwa [olds_perm hperm, Phase.old, List.count_nil, Nat.zero_add] at hle
    · simpa [Cell.owned] using hsize
  | renew hperm =>
    rw [window_perm hperm] at hwindow
    rw [(owns_perm hperm).length_eq] at hsize
    refine ⟨fun _ => hcaller hperm, hpresent, htaken, hwindow, fun a => ?_, ?_⟩
    · have hle := hpaid a
      rwa [olds_perm hperm, Phase.old, List.count_nil, Nat.zero_add] at hle
    · simp [Cell.owned] at hsize ⊢
      omega
  | @load j new p rest hperm hp =>
    rw [window_perm hperm] at hwindow
    rw [(owns_perm hperm).length_eq] at hsize
    refine ⟨fun _ => ⟨_, hp⟩, hpresent, List.forall_mem_cons.mpr ⟨hpresent p hp, htaken⟩, ?_, fun a => ?_, ?_⟩
    · simp [Cell.window, List.countP_cons] at hwindow ⊢
      omega
    · have hle := hpaid a
      rw [olds_perm hperm] at hle
      simp [List.count_cons] at hle ⊢
      omega
    · simpa [Cell.owned] using hsize
  | @swap j new old rest hperm =>
    obtain ⟨p, hp⟩ := hcaller hperm
    rw [window_perm hperm, hp] at hwindow
    rw [(owns_perm hperm).length_eq, hp] at hsize
    refine ⟨fun _ => ⟨_, rfl⟩, by simp, hcons _, ?_, fun a => ?_, ?_⟩
    · simp [Cell.window] at hwindow ⊢
      omega
    · have hle := hpaid a
      rw [olds_perm hperm] at hle
      simp [List.count_cons] at hle ⊢
      omega
    · simp [Cell.owned] at hsize ⊢
      omega
  | @free j old rest hperm =>
    rw [window_perm hperm] at hwindow
    rw [(owns_perm hperm).length_eq] at hsize
    refine ⟨fun _ => hcaller hperm, hpresent, htaken, hwindow, fun a => ?_, ?_⟩
    · have hle := hpaid a
      rw [olds_perm hperm] at hle
      simp [List.count_cons] at hle ⊢
      omega
    · simp [Cell.owned] at hsize ⊢
      omega

/-- What is only ever loaded once leaves room for one caller in the window. -/
theorem Counted.window_le (h : Counted c) (hnodup : c.loads.Nodup) : c.window ≤ 1 := by
  have hlen := (hnodup.subperm h.taken).length_le
  have hone : c.current.toList.length ≤ 1 := by cases c.current <;> simp
  have hwindow := h.window
  omega

/-- With no caller left, what has been freed once has been loaded once. -/
theorem Counted.nodup_loads (h : Counted c) (hidle : c.callers = []) (hnodup : c.freed.Nodup) : c.loads.Nodup := by
  refine List.nodup_iff_count_le_one.mpr fun a => ?_
  have hpaid := h.paid a
  rw [hidle, olds_nil, List.count_nil, Nat.zero_add] at hpaid
  exact hpaid.trans (List.nodup_iff_count_le_one.mp hnodup a)

/-! ## Every object in one place -/

structure Tidy (c : Cell) : Prop where
  ledger : ∀ a, c.owned.count a + c.freed.count a = (List.range c.made).count a
  /-- A caller in the window has what is in the cell. -/
  fresh : ∀ new old, .loaded new old ∈ c.callers → c.current = some old

theorem tidy_empty : Tidy Cell.empty := ⟨fun _ => rfl, fun _ _ h => absurd h List.not_mem_nil⟩

/-- **The step lemma of the ledger.** -/
theorem Tidy.step (h : Tidy c) (hone : c.window ≤ 1) (hcase : MoveCase c m c') : Tidy c' := by
  obtain ⟨hledger, hfresh⟩ := h
  have hrest : ∀ {ph rest}, c.callers.Perm (ph :: rest) → ∀ new old, .loaded new old ∈ rest →
      c.current = some old := fun hperm new old hmem =>
    hfresh new old (hperm.mem_iff.mpr (List.mem_cons_of_mem _ hmem))
  have howned : ∀ {ph rest}, c.callers.Perm (ph :: rest) → ∀ a,
      c.owned.count a = c.current.toList.count a + (ph.own.count a + (owns rest).count a) := fun hperm a => by
    rw [Cell.owned, List.count_append, (owns_perm hperm).count_eq, List.count_append]
  cases hcase with
  | fill hnone hidle =>
    constructor
    · intro a
      have hcount := hledger a
      simp [Cell.owned, hnone, hidle, List.range_succ, List.count_cons] at hcount ⊢
      omega
    · intro new old hmem
      exact absurd (hidle ▸ hmem) List.not_mem_nil
  | @drain p hp hidle =>
    constructor
    · intro a
      have hcount := hledger a
      simp [Cell.owned, hp, hidle, List.count_cons] at hcount ⊢
      omega
    · intro new old hmem
      exact absurd (hidle ▸ hmem) List.not_mem_nil
  | look hp =>
    exact ⟨hledger, fun new old hmem => hfresh new old ((List.mem_cons.mp hmem).resolve_left (by simp))⟩
  | check hp => exact ⟨hledger, hfresh⟩
  | make hp =>
    refine ⟨fun a => ?_, fun new old hmem => hfresh new old ((List.mem_cons.mp hmem).resolve_left (by simp))⟩
    have hcount := hledger a
    simp [Cell.owned, List.range_succ, List.count_cons] at hcount ⊢
    omega
  | leave hperm =>
    refine ⟨fun a => ?_, hrest hperm⟩
    have hcount := hledger a
    rw [howned hperm] at hcount
    simpa [Cell.owned] using hcount
  | renew hperm =>
    refine ⟨fun a => ?_, fun new old hmem => hrest hperm new old ((List.mem_cons.mp hmem).resolve_left (by simp))⟩
    have hcount := hledger a
    rw [howned hperm] at hcount
    simp [Cell.owned, List.range_succ, List.count_cons] at hcount ⊢
    omega
  | @load j new p rest hperm hp =>
    constructor
    · intro a
      have hcount := hledger a
      rw [howned hperm] at hcount
      simp [Cell.owned, List.count_cons] at hcount ⊢
      omega
    · intro new' old hmem
      rcases List.mem_cons.mp hmem with heq | hmem
      · rw [(Phase.loaded.inj heq).2]
        exact hp
      · exact hrest hperm new' old hmem
  | @swap j new old rest hperm =>
    -- what the caller has loaded is still there
    have hp := hfresh new old (hperm.mem_iff.mpr List.mem_cons_self)
    constructor
    · intro a
      have hcount := hledger a
      rw [howned hperm, hp] at hcount
      simp [Cell.owned, List.count_cons] at hcount ⊢
      omega
    · intro new' old' hmem
      have hmem := (List.mem_cons.mp hmem).resolve_left (by simp)
      have hpos : 0 < rest.countP Phase.inWindow := List.countP_pos_iff.mpr ⟨_, hmem, rfl⟩
      rw [window_perm hperm] at hone
      simp only [Phase.inWindow, if_true] at hone
      omega
  | @free j old rest hperm =>
    refine ⟨fun a => ?_, hrest hperm⟩
    have hcount := hledger a
    rw [howned hperm] at hcount
    simp [Cell.owned, List.count_cons] at hcount ⊢
    omega

/-- Nothing is freed twice, and nothing is freed that somebody owns. -/
theorem Tidy.nodup (h : Tidy c) : (c.owned ++ c.freed).Nodup := by
  refine List.nodup_iff_count_le_one.mpr fun a => ?_
  rw [List.count_append, h.ledger a]
  exact List.nodup_iff_count_le_one.mp List.nodup_range a

theorem Tidy.mem (h : Tidy c) {a : Nat} (ha : a < c.made) : a ∈ c.owned ∨ a ∈ c.freed := by
  have hpos : 0 < (List.range c.made).count a := List.count_pos_iff.mpr (List.mem_range.mpr ha)
  rw [← h.ledger a] at hpos
  by_contra hnot
  rw [not_or, ← List.count_eq_zero, ← List.count_eq_zero] at hnot
  omega

/-- If no object is lost, none has been freed twice. -/
theorem Counted.nodup_of_mem (h : Counted c) (hall : ∀ a < c.made, a ∈ c.owned ∨ a ∈ c.freed) : c.freed.Nodup := by
  have hsub : (List.range c.made).Subperm (c.owned ++ c.freed) := List.nodup_range.subperm fun a ha =>
    List.mem_append.mpr (hall a (List.mem_range.mp ha))
  have hperm : (List.range c.made).Perm (c.owned ++ c.freed) := hsub.perm_of_length_le (by
    rw [List.length_append, h.size, List.length_range])
  exact (List.nodup_append.mp (hperm.nodup_iff.mp List.nodup_range)).2.1

/-! ## Callers that wait for each other -/

structure Alone (c : Cell) : Prop where
  tidy : Tidy c
  one : c.callers.length ≤ 1
  sound : c.stale = false
  /-- Who looks at an object looks at the one in the cell. -/
  looking : ∀ p, .looking p ∈ c.callers → c.current = some p

theorem alone_empty : Alone Cell.empty :=
  ⟨tidy_empty, Nat.zero_le _, rfl, fun _ h => absurd h List.not_mem_nil⟩

/-- The one caller there is. -/
theorem Alone.rest_nil (h : Alone c) (hperm : c.callers.Perm (ph :: rest)) : rest = [] := by
  have hlen := hperm.length_eq
  have hone := h.one
  rw [List.length_cons] at hlen
  exact List.eq_nil_of_length_eq_zero (by omega)

theorem Alone.step (h : Alone c) (hwait : m.Starts → c.callers = []) (hcase : MoveCase c m c') : Alone c' := by
  have htidy := h.tidy.step (List.countP_le_length.trans h.one) hcase
  cases hcase with
  | fill hnone hidle => exact ⟨htidy, h.one, h.sound, fun p hp => absurd (hidle ▸ hp) List.not_mem_nil⟩
  | drain hp hidle => exact ⟨htidy, h.one, h.sound, fun p hp => absurd (hidle ▸ hp) List.not_mem_nil⟩
  | look hp =>
    have hidle := hwait trivial
    refine ⟨htidy, by simp [hidle], h.sound, fun p' hp' => ?_⟩
    rcases List.mem_cons.mp hp' with heq | hmem
    · rw [Phase.looking.inj heq]
      exact hp
    · exact absurd (hidle ▸ hmem) List.not_mem_nil
  | @check j p hp =>
    have howned : p ∈ c.owned := by simp [Cell.owned, h.looking p hp]
    have hlive : p ∉ c.freed := fun hfreed => (List.nodup_append.mp htidy.nodup).2.2 p howned p hfreed rfl
    refine ⟨htidy, h.one, ?_, h.looking⟩
    show (c.stale || decide (p ∈ c.freed)) = false
    rw [h.sound, decide_eq_false hlive]
    rfl
  | make hp =>
    have hidle := hwait trivial
    exact ⟨htidy, by simp [hidle], h.sound, by simp [hidle]⟩
  | leave hperm =>
    obtain rfl := h.rest_nil hperm
    exact ⟨htidy, Nat.zero_le _, h.sound, by simp⟩
  | renew hperm =>
    obtain rfl := h.rest_nil hperm
    exact ⟨htidy, le_refl _, h.sound, by simp⟩
  | load hperm hp =>
    obtain rfl := h.rest_nil hperm
    exact ⟨htidy, le_refl _, h.sound, by simp⟩
  | swap hperm =>
    obtain rfl := h.rest_nil hperm
    exact ⟨htidy, le_refl _, h.sound, by simp⟩
  | free hperm =>
    obtain rfl := h.rest_nil hperm
    exact ⟨htidy, Nat.zero_le _, h.sound, by simp⟩

end

/-! ## Runs of a system with such a cell in its state -/

section

variable {σ ι ο : Type} {S : System σ ι ο} (cell : σ → Cell) {s : σ} {is : List ι}

/-- Loads are only ever added. -/
theorem loads_suffix {c c' : Cell} {m : Move} (hcase : MoveCase c m c') : c.loads <:+ c'.loads := by
  cases hcase with
  | drain hp hidle => exact List.suffix_cons _ _
  | load hperm hp => exact List.suffix_cons _ _
  | fill _ _ | look _ | check _ | leave _ | make _ | renew _ | swap _ | free _ => exact List.suffix_rfl

/-- **Exactly when nothing goes wrong.**  In a run that leaves no caller under way, no object is freed twice if and
    only if no two callers ever share the window; and no object is lost if and only if that is so. -/
theorem exchange_exact (hstep : ∀ s i, cell (S.next s i) = cell s ∨ ∃ m, (cell s).move m = some (cell (S.next s i)))
    (hs : cell s = .empty) (is : List ι) (hidle : (cell (S.final s is)).callers = []) :
    ((cell (S.final s is)).freed.Nodup ↔ ∀ t ∈ S.states s is, (cell t).window ≤ 1) ∧
    ((∀ a < (cell (S.final s is)).made, a ∈ (cell (S.final s is)).current ∨ a ∈ (cell (S.final s is)).freed) ↔
      ∀ t ∈ S.states s is, (cell t).window ≤ 1) := by
  have hcounted : ∀ t ∈ S.states s is, Counted (cell t) := by
    refine (System.AllSteps.of_forall (C := fun _ _ => True) (fun _ _ => trivial) s is).invariant
      (fun t i _ ht => ?_) (hs ▸ counted_empty)
    rcases hstep t i with heq | ⟨m, hm⟩
    · exact heq ▸ ht
    · exact ht.step (move_cases hm)
  have hloads : ∀ t ∈ S.states s is, (cell t).loads <:+ (cell (S.final s is)).loads :=
    System.rel_final (R := fun t u => (cell t).loads <:+ (cell u).loads) (fun _ => List.suffix_rfl)
      (fun _ _ _ => List.IsSuffix.trans) fun t i => by
        rcases hstep t i with heq | ⟨m, hm⟩
        · rw [heq]
        · exact loads_suffix (move_cases hm)
  have hfinal := hcounted _ (S.final_mem_states s is)
  -- a caller of two in the window loads what the other one has loaded
  have hforth : (cell (S.final s is)).freed.Nodup → ∀ t ∈ S.states s is, (cell t).window ≤ 1 := fun hnodup t ht =>
    (hcounted t ht).window_le ((hloads t ht).nodup (hfinal.nodup_loads hidle hnodup))
  have hback : (∀ t ∈ S.states s is, (cell t).window ≤ 1) → Tidy (cell (S.final s is)) := fun hone =>
    (System.AllSteps.of_states hone).final (P := fun t => Tidy (cell t)) (fun t i hw ht => by
      rcases hstep t i with heq | ⟨m, hm⟩
      · exact heq ▸ ht
      · exact ht.step hw (move_cases hm)) (hs ▸ tidy_empty)
  have howned : (cell (S.final s is)).owned = (cell (S.final s is)).current.toList := by
    rw [Cell.owned, hidle, owns_nil, List.append_nil]
  refine ⟨⟨hforth, fun hone => (List.nodup_append.mp (hback hone).nodup).2.1⟩, fun hall => ?_, fun hone a ha => ?_⟩
  · refine hforth (hfinal.nodup_of_mem fun a ha => ?_)
    rw [howned, Option.mem_toList]
    exact hall a ha
  · have hmem := (hback hone).mem ha
    rwa [howned, Option.mem_toList] at hmem

/-- **Callers that wait for each other.**  If callers only start when there is none, then at every moment every object
    is in one place, nothing is freed twice, and nobody has looked at a freed object. -/
theorem exchange_locked {C : σ → ι → Prop} (hstep : ∀ s i, C s i → cell (S.next s i) = cell s ∨
      ∃ m, (m.Starts → (cell s).callers = []) ∧ (cell s).move m = some (cell (S.next s i)))
    (hs : cell s = .empty) (hall : S.AllSteps C s is) : ∀ t ∈ S.states s is, Alone (cell t) := by
  refine hall.invariant (fun t i hC ht => ?_) (hs ▸ alone_empty)
  rcases hstep t i hC with heq | ⟨m, hwait, hm⟩
  · exact heq ▸ ht
  · exact ht.step hwait (move_cases hm)

end

end Exchange
