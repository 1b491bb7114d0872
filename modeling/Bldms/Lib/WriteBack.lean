/-
  A store behind a write-back cache, and what a crash leaves of it.

  The volatile side is a `System`; what a state shows in a CELL (`Cache.view`) is the cell's cached content.
  Every cell has a copy on the MEDIUM, and the medium is all that a crash leaves.  It is written
  * at any time, by a write-back (`CacheEvent.writeBack`);
  * when a call that has written the cell is acknowledged, if the cache is `synchronous`.
  What a write leaves on the medium is a parameter of the event: a write may fail, and leave the cell as it was, or
  leave a mixture.  `Whole` is the condition that it does its work: the cell is then as the cache shows it.

  A version of a cell is a POSITION in the history of the volatile side.  `Stored` keeps that history and, as
  ghosts, which calls have written which cell, by the position of the state they led to.

  * `Kept`           — the invariant: no cell of the medium is older than the cell's last write-back, nor, in a
    synchronous cache, than an acknowledged call; and a cell changes at its calls only;
  * `Kept.step`      — every call, whole write-back and acknowledgement keeps it;
  * `Kept.upToDate`  — a cell with no call in flight is on the medium as it stands;
  * `Kept.in_flight` — with one, it is there as it stands or as it was before that call;
  * `Stored.versions` — in general, the contents a crash may leave in a cell, and what each event makes of them.
-/
import Bldms.Lib.System

namespace WriteBack

/-- A volatile system seen as a cache of cells. -/
structure Cache (σ ι ο κ β : Type) where
  sys : System σ ι ο
  /-- The content of a cell. -/
  view : σ → κ → β
  /-- The cell a call has written, by its reply. -/
  writes : ι → ο → Option κ
  /-- Whether an acknowledgement waits for the cell to reach the medium. -/
  synchronous : Bool

/-- The volatile side with its past, the medium, and the calls that have written a cell, each with the position
    of the state it led to. -/
structure Stored (σ κ β : Type) where
  past : List σ
  now : σ
  medium : κ → β
  inFlight : List (κ × Nat)
  acknowledged : List (κ × Nat)
  writtenBack : List (κ × Nat)

/-- A call, a write-back of a cell, or the return of the `j`-th call in flight; `left` is what the medium has in the
    cell afterwards. -/
inductive CacheEvent (ι κ β : Type) where
  | call (i : ι)
  | writeBack (c : κ) (left : β)
  | acknowledge (j : Nat) (left : β)

variable {σ ι ο κ β : Type}

namespace Stored

/-- Nothing has happened yet, and the medium shows what the cache does. -/
def start (C : Cache σ ι ο κ β) (s : σ) : Stored σ κ β := ⟨[], s, C.view s, [], [], []⟩

/-- All states of the volatile side, the current one included. -/
def history (s : Stored σ κ β) : List σ := s.past ++ [s.now]

/-- The calls that have written a cell. -/
def calls (s : Stored σ κ β) : List (κ × Nat) := s.inFlight ++ s.acknowledged

@[simp] theorem length_history (s : Stored σ κ β) : s.history.length = s.past.length + 1 := by
  rw [history, List.length_append, List.length_singleton]

theorem history_now (s : Stored σ κ β) : s.history[s.past.length]? = some s.now := by
  rw [history, List.getElem?_append_right (le_refl _), Nat.sub_self]
  rfl

theorem history_lt {s : Stored σ κ β} {p : Nat} {t : σ} (h : s.history[p]? = some t) : p ≤ s.past.length := by
  have hlt := (List.getElem?_eq_some_iff.mp h).1
  rw [length_history] at hlt
  omega

end Stored

section

variable [DecidableEq κ] (C : Cache σ ι ο κ β)

/-- The state after a call. -/
def Stored.afterCall (s : Stored σ κ β) (i : ι) : Stored σ κ β :=
  { s with
    past := s.history
    now := C.sys.next s.now i
    inFlight := s.inFlight ++ ((C.writes i (C.sys.step s.now i).1).map fun c => (c, s.past.length + 1)).toList }

/-- The state after a write-back of cell `c`. -/
def Stored.afterWriteBack (s : Stored σ κ β) (c : κ) (left : β) : Stored σ κ β :=
  { s with
    medium := Function.update s.medium c left
    writtenBack := (c, s.past.length) :: s.writtenBack }

/-- The state after the return of the `j`-th call in flight, which has written `v`. -/
def Stored.afterReturn (s : Stored σ κ β) (j : Nat) (left : β) (v : κ × Nat) : Stored σ κ β :=
  { s with
    medium := if C.synchronous then Function.update s.medium v.1 left else s.medium
    inFlight := s.inFlight.eraseIdx j
    acknowledged := v :: s.acknowledged }

/-- The store, event by event; only a call has a reply. -/
def Cache.store : System (Stored σ κ β) (CacheEvent ι κ β) (Option ο) where
  step s
    | .call i => (some (C.sys.step s.now i).1, s.afterCall C i)
    | .writeBack c left => (none, s.afterWriteBack c left)
    | .acknowledge j left => (none, (s.inFlight[j]?).elim s (s.afterReturn C j left))

theorem store_next_acknowledge (s : Stored σ κ β) (j : Nat) (left : β) :
    C.store.next s (.acknowledge j left) = (s.inFlight[j]?).elim s (s.afterReturn C j left) := rfl

/-- A write does its work: it leaves the cell as the cache shows it. -/
def Whole (s : Stored σ κ β) : CacheEvent ι κ β → Prop
  | .call _ => True
  | .writeBack c left => left = C.view s.now c
  | .acknowledge j left => C.synchronous = true → ∀ v, s.inFlight[j]? = some v → left = C.view s.now v.1

/-! ## The invariant -/

/-- The cells of the medium, and those of the past, against the calls and the write-backs. -/
structure Kept (s : Stored σ κ β) : Prop where
  /-- The medium shows a version of every cell. -/
  version : ∀ c, ∃ p t, s.history[p]? = some t ∧ C.view t c = s.medium c ∧
    (∀ q, (c, q) ∈ s.writtenBack → q ≤ p) ∧ (C.synchronous = true → ∀ q, (c, q) ∈ s.acknowledged → q ≤ p)
  /-- The calls are past. -/
  called : ∀ v ∈ s.calls, v.2 ≤ s.past.length
  /-- The write-backs are past. -/
  backed : ∀ v ∈ s.writtenBack, v.2 ≤ s.past.length
  /-- Between its calls a cell does not change. -/
  unchanged : ∀ c p p' t t', p ≤ p' → s.history[p]? = some t → s.history[p']? = some t' →
    (∀ q, (c, q) ∈ s.calls → q ≤ p ∨ p' < q) → C.view t c = C.view t' c

variable {C} {s : Stored σ κ β}

omit [DecidableEq κ] in
theorem Kept.start (C : Cache σ ι ο κ β) (s : σ) : Kept C (Stored.start C s) where
  version c := ⟨0, s, rfl, rfl, fun _ hq => absurd hq List.not_mem_nil, fun _ _ hq => absurd hq List.not_mem_nil⟩
  called _ hv := absurd hv List.not_mem_nil
  backed _ hv := absurd hv List.not_mem_nil
  unchanged c p p' t t' _ hp hp' _ := by
    have hone : ∀ {q : Nat} {u : σ}, (Stored.start C s).history[q]? = some u → u = s := by
      intro q u hq
      exact List.mem_singleton.mp (List.mem_of_getElem? hq)
    rw [hone hp, hone hp']

omit [DecidableEq κ] in
/-- A position of the new history is one of the old history, or the new state. -/
theorem history_afterCall {i : ι} {p : Nat} {t : σ} (h : (s.afterCall C i).history[p]? = some t) :
    p ≤ s.past.length ∧ s.history[p]? = some t ∨ p = s.past.length + 1 ∧ t = C.sys.next s.now i := by
  have hle : p ≤ s.history.length := Stored.history_lt h
  rcases Nat.lt_or_eq_of_le hle with hlt | rfl
  · refine .inl ⟨by rw [Stored.length_history] at hlt; omega, ?_⟩
    rwa [Stored.history, List.getElem?_append_left (show p < (s.afterCall C i).past.length from hlt)] at h
  · refine .inr ⟨Stored.length_history s, ?_⟩
    have hnow : (s.afterCall C i).history[s.history.length]? = some (C.sys.next s.now i) := Stored.history_now _
    rw [hnow] at h
    exact (Option.some.inj h).symm

omit [DecidableEq κ] in
/-- The history only grows. -/
theorem history_afterCall_of_some {i : ι} {p : Nat} {t : σ} (h : s.history[p]? = some t) :
    (s.afterCall C i).history[p]? = some t := by
  have hlt := (List.getElem?_eq_some_iff.mp h).1
  rw [Stored.history, List.getElem?_append_left (show p < (s.afterCall C i).past.length from hlt)]
  exact h

omit [DecidableEq κ] in
/-- The calls after one more: that one, if it has written a cell, and the old ones. -/
theorem mem_calls_afterCall {i : ι} {v : κ × Nat} :
    v ∈ (s.afterCall C i).calls ↔
      v ∈ s.calls ∨ C.writes i (C.sys.step s.now i).1 = some v.1 ∧ v.2 = s.past.length + 1 := by
  rw [Stored.calls, Stored.calls, Stored.afterCall, List.mem_append, List.mem_append, List.mem_append,
    Option.mem_toList, Option.map_eq_some_iff]
  constructor
  · rintro ((h | ⟨c, hc, rfl⟩) | h)
    · exact .inl (.inl h)
    · exact .inr ⟨hc, rfl⟩
    · exact .inl (.inr h)
  · rintro ((h | h) | ⟨hc, hp⟩)
    · exact .inl (.inl h)
    · exact .inr h
    · exact .inl (.inr ⟨v.1, hc, Prod.ext rfl hp.symm⟩)

omit [DecidableEq κ] in
/-- A call keeps the invariant, if it changes no cell but the one it reports. -/
theorem Kept.afterCall (h : Kept C s) {i : ι}
    (hframe : ∀ c, C.writes i (C.sys.step s.now i).1 ≠ some c → C.view (C.sys.next s.now i) c = C.view s.now c) :
    Kept C (s.afterCall C i) where
  version c := by
    obtain ⟨p, t, hp, hview, hback, hack⟩ := h.version c
    exact ⟨p, t, history_afterCall_of_some hp, hview, hback, hack⟩
  called v hv := by
    show v.2 ≤ s.history.length
    rw [Stored.length_history]
    rcases mem_calls_afterCall.mp hv with hv | ⟨-, hv⟩
    · exact Nat.le_succ_of_le (h.called v hv)
    · exact Nat.le_of_eq hv
  backed v hv := by
    show v.2 ≤ s.history.length
    rw [Stored.length_history]
    exact Nat.le_succ_of_le (h.backed v hv)
  unchanged c p p' t t' hle hp hp' hcalls := by
    rcases history_afterCall hp' with ⟨hp'le, hp'⟩ | ⟨rfl, rfl⟩
    · -- both are old
      rcases history_afterCall hp with ⟨-, hp⟩ | ⟨rfl, -⟩
      · exact h.unchanged c p p' t t' hle hp hp' fun q hq => hcalls q (mem_calls_afterCall.mpr (.inl hq))
      · omega
    · rcases history_afterCall hp with ⟨hple, hp⟩ | ⟨-, rfl⟩
      · have hwrites : C.writes i (C.sys.step s.now i).1 ≠ some c := by
          intro hc
          have hq := hcalls (s.past.length + 1) (mem_calls_afterCall.mpr (.inr ⟨hc, rfl⟩))
          omega
        rw [hframe c hwrites]
        refine h.unchanged c p s.past.length t s.now hple hp s.history_now fun q hq => ?_
        have hq := hcalls q (mem_calls_afterCall.mpr (.inl hq))
        omega
      · rfl

/-- Copying a cell to the medium brings the cell up to date, and no other. -/
theorem Kept.version_update (h : Kept C s) (c c' : κ) :
    ∃ p t, s.history[p]? = some t ∧ C.view t c' = Function.update s.medium c (C.view s.now c) c' ∧
      (∀ q, (c', q) ∈ s.writtenBack → q ≤ p) ∧ (C.synchronous = true → ∀ q, (c', q) ∈ s.acknowledged → q ≤ p) ∧
      (c' = c → p = s.past.length) := by
  by_cases hc : c' = c
  · subst hc
    refine ⟨s.past.length, s.now, s.history_now, ?_, fun q hq => h.backed _ hq,
      fun _ q hq => h.called _ (List.mem_append_right _ hq), fun _ => rfl⟩
    rw [Function.update_self]
  · obtain ⟨p, t, hp, hview, hback, hack⟩ := h.version c'
    exact ⟨p, t, hp, by rw [hview, Function.update_of_ne hc], hback, hack, fun heq => absurd heq hc⟩

theorem Kept.afterWriteBack (h : Kept C s) (c : κ) : Kept C (s.afterWriteBack c (C.view s.now c)) where
  version c' := by
    obtain ⟨p, t, hp, hview, hback, hack, hnow⟩ := h.version_update c c'
    refine ⟨p, t, hp, hview, fun q hq => ?_, hack⟩
    rcases List.mem_cons.mp hq with heq | hq
    · obtain ⟨hc, rfl⟩ := Prod.mk.inj heq
      exact Nat.le_of_eq (hnow hc).symm
    · exact hback q hq
  called := h.called
  backed v hv := by
    rcases List.mem_cons.mp hv with rfl | hv
    · exact le_refl _
    · exact h.backed v hv
  unchanged := h.unchanged

/-- A return keeps the invariant. -/
theorem Kept.afterReturn (h : Kept C s) {j : Nat} {left : β} {v : κ × Nat} (hv : s.inFlight[j]? = some v)
    (hleft : C.synchronous = true → left = C.view s.now v.1) : Kept C (s.afterReturn C j left v) := by
  have hvmem : v ∈ s.inFlight := List.mem_of_getElem? hv
  -- the same calls, one of them acknowledged now
  have hsub : ∀ w, w ∈ (s.afterReturn C j left v).calls → w ∈ s.calls := by
    intro w hw
    rcases List.mem_append.mp hw with hw | hw
    · exact List.mem_append_left _ (List.mem_of_mem_eraseIdx hw)
    · rcases List.mem_cons.mp hw with rfl | hw
      · exact List.mem_append_left _ hvmem
      · exact List.mem_append_right _ hw
  have hsup : ∀ w, w ∈ s.calls → w ∈ (s.afterReturn C j left v).calls := by
    intro w hw
    rcases List.mem_append.mp hw with hw | hw
    · by_cases hwv : w = v
      · exact List.mem_append_right _ (List.mem_cons.mpr (.inl hwv))
      · refine List.mem_append_left _ ?_
        obtain ⟨k, hk⟩ := List.mem_iff_getElem?.mp hw
        have hkj : k ≠ j := by
          rintro rfl
          exact hwv (Option.some.inj (hk.symm.trans hv))
        exact List.mem_eraseIdx_iff_getElem?.mpr ⟨k, hkj, hk⟩
    · exact List.mem_append_right _ (List.mem_cons_of_mem v hw)
  refine ⟨fun c => ?_, fun w hw => h.called w (hsub w hw), h.backed, fun c p p' t t' hle hp hp' hcalls =>
    h.unchanged c p p' t t' hle hp hp' fun q hq => hcalls q (hsup _ hq)⟩
  cases hsync : C.synchronous with
  | false =>
    obtain ⟨p, t, hp, hview, hback, -⟩ := h.version c
    refine ⟨p, t, hp, ?_, hback, fun hne => by cases hne⟩
    rw [Stored.afterReturn, hsync]
    exact hview
  | true =>
    obtain ⟨p, t, hp, hview, hback, hack, hnow⟩ := h.version_update v.1 c
    refine ⟨p, t, hp, ?_, hback, fun _ q hq => ?_⟩
    · rw [Stored.afterReturn, hsync, hleft hsync]
      exact hview
    · rcases List.mem_cons.mp hq with heq | hq
      · rw [hnow (congrArg Prod.fst heq)]
        exact h.called (c, q) (List.mem_append_left _ (heq ▸ hvmem))
      · exact hack hsync q hq

/-- **The step lemma.**  If the calls change no cell but the one they report, wherever the invariant `P` of the
    volatile side holds, every event whose writes do their work keeps the medium, and `P` in all of the history. -/
theorem Kept.step {P : σ → Prop} (hP : ∀ s i, P s → P (C.sys.next s i))
    (hframe : ∀ s i c, P s → C.writes i (C.sys.step s i).1 ≠ some c → C.view (C.sys.next s i) c = C.view s c)
    (hs : ∀ (p : Nat) t, s.history[p]? = some t → P t) (h : Kept C s) {e : CacheEvent ι κ β} (he : Whole C s e) :
    (∀ (p : Nat) t, (C.store.next s e).history[p]? = some t → P t) ∧ Kept C (C.store.next s e) := by
  have hnow := hs _ _ s.history_now
  cases e with
  | call i =>
    refine ⟨fun p t ht => ?_, h.afterCall fun c hc => hframe _ i c hnow hc⟩
    rcases history_afterCall ht with ⟨-, ht⟩ | ⟨-, rfl⟩
    · exact hs p t ht
    · exact hP _ i hnow
  | writeBack c left =>
    obtain rfl : left = C.view s.now c := he
    exact ⟨hs, h.afterWriteBack c⟩
  | acknowledge j left =>
    rw [store_next_acknowledge]
    cases hj : s.inFlight[j]? with
    | none => exact ⟨hs, h⟩
    | some v => exact ⟨hs, h.afterReturn hj fun hsync => he hsync v hj⟩

/-! ## What a crash leaves -/

/-- The cell has reached the medium since it was written last: because each of its calls has returned, or by a
    write-back. -/
def UpToDate (C : Cache σ ι ο κ β) (s : Stored σ κ β) (c : κ) : Prop :=
  (C.synchronous = true ∧ ∀ q, (c, q) ∉ s.inFlight) ∨
  ∃ p, (c, p) ∈ s.writtenBack ∧ ∀ q, (c, q) ∈ s.calls → q ≤ p

omit [DecidableEq κ] in
/-- A version that no call is younger than is the current one. -/
theorem Kept.view_now (h : Kept C s) {c : κ} {p : Nat} {t : σ} (hp : s.history[p]? = some t)
    (hcalls : ∀ q, (c, q) ∈ s.calls → q ≤ p) : C.view t c = C.view s.now c :=
  h.unchanged c p s.past.length t s.now (Stored.history_lt hp) hp s.history_now fun q hq => .inl (hcalls q hq)

omit [DecidableEq κ] in
/-- The medium has the current version, if every call on the cell has reached it, by its return or by a later
    write-back. -/
theorem Kept.medium_now (h : Kept C s) {c : κ}
    (hcalls : ∀ q, (c, q) ∈ s.calls →
      C.synchronous = true ∧ (c, q) ∈ s.acknowledged ∨ ∃ p, (c, p) ∈ s.writtenBack ∧ q ≤ p) :
    s.medium c = C.view s.now c := by
  obtain ⟨p, t, hp, hview, hback, hack⟩ := h.version c
  rw [← hview]
  refine h.view_now hp fun q hq => ?_
  rcases hcalls q hq with ⟨hsync, hmem⟩ | ⟨p', hp', hle⟩
  · exact hack hsync q hmem
  · exact Nat.le_trans hle (hback p' hp')

omit [DecidableEq κ] in
theorem Kept.upToDate (h : Kept C s) {c : κ} (hc : UpToDate C s c) : s.medium c = C.view s.now c := by
  refine h.medium_now fun q hq => ?_
  rcases hc with ⟨hsync, hfree⟩ | ⟨p', hp', hle⟩
  · exact .inl ⟨hsync, (List.mem_append.mp hq).resolve_left (hfree q)⟩
  · exact .inr ⟨p', hp', hle q hq⟩

/-- Every call that has written a cell has reached the medium: its return has waited for it, or a write-back of the
    cell has come after it. -/
def Flushed (C : Cache σ ι ο κ β) (s : Stored σ κ β) : Prop :=
  ∀ v ∈ s.calls, C.synchronous = true ∧ v ∈ s.acknowledged ∨ ∃ p, (v.1, p) ∈ s.writtenBack ∧ v.2 ≤ p

omit [DecidableEq κ] in
/-- In a synchronous cache it is enough that no call is in flight. -/
theorem Flushed.of_idle (hsync : C.synchronous = true) (hidle : s.inFlight = []) : Flushed C s := by
  intro v hv
  rw [Stored.calls, hidle] at hv
  exact .inl ⟨hsync, hv⟩

omit [DecidableEq κ] in
theorem Kept.flushed (h : Kept C s) (hflushed : Flushed C s) (c : κ) : s.medium c = C.view s.now c :=
  h.medium_now fun q hq => hflushed (c, q) hq

omit [DecidableEq κ] in
/-- One call on the cell is in flight, the one that led to position `q + 1`: its effect is on the medium, with
    whatever has followed it, or the cell is there as that call had found it. -/
theorem Kept.in_flight (h : Kept C s) (hsync : C.synchronous = true) {c : κ} {q : Nat}
    (honly : ∀ q', (c, q') ∈ s.inFlight → q' = q + 1) {t : σ} (ht : s.history[q]? = some t) :
    s.medium c = C.view s.now c ∨ s.medium c = C.view t c := by
  obtain ⟨p, t', hp, hview, -, hack⟩ := h.version c
  rw [← hview]
  rcases Nat.lt_or_ge q p with hlt | hle
  · refine .inl (h.view_now hp fun q' hq' => ?_)
    rcases List.mem_append.mp hq' with hq' | hq'
    · rw [honly q' hq']
      exact hlt
    · exact hack hsync q' hq'
  · refine .inr (h.unchanged c p q t' t hle hp ht fun q' hq' => ?_)
    rcases List.mem_append.mp hq' with hq' | hq'
    · rw [honly q' hq']
      exact .inr (Nat.lt_succ_self q)
    · exact .inl (hack hsync q' hq')

/-- What a crash may leave in a cell: its versions that are not older than its last write-back, nor, in a synchronous
    cache, than a call that has returned. -/
def Stored.versions (C : Cache σ ι ο κ β) (s : Stored σ κ β) (c : κ) : Set β :=
  {b | ∃ p t, s.history[p]? = some t ∧ C.view t c = b ∧
    (∀ q, (c, q) ∈ s.writtenBack → q ≤ p) ∧ (C.synchronous = true → ∀ q, (c, q) ∈ s.acknowledged → q ≤ p)}

omit [DecidableEq κ] in
theorem Kept.medium_mem (h : Kept C s) (c : κ) : s.medium c ∈ s.versions C c := h.version c

omit [DecidableEq κ] in
theorem Kept.now_mem (h : Kept C s) (c : κ) : C.view s.now c ∈ s.versions C c :=
  ⟨_, _, s.history_now, rfl, fun _ hq => h.backed _ hq, fun _ _ hq => h.called _ (List.mem_append_right _ hq)⟩

omit [DecidableEq κ] in
theorem versions_start (t : σ) (c : κ) : (Stored.start C t).versions C c = {C.view t c} := by
  ext b
  constructor
  · rintro ⟨p, u, hp, rfl, -⟩
    rw [List.mem_singleton.mp (List.mem_of_getElem? hp)]
    rfl
  · rintro rfl
    exact (Kept.start C t).now_mem c

omit [DecidableEq κ] in
/-- A call adds the version it leaves. -/
theorem Kept.versions_afterCall (h : Kept C s) (i : ι) (c : κ) :
    (s.afterCall C i).versions C c = insert (C.view (C.sys.next s.now i) c) (s.versions C c) := by
  ext b
  constructor
  · rintro ⟨p, t, hp, rfl, hback, hack⟩
    rcases history_afterCall hp with ⟨-, hp⟩ | ⟨-, rfl⟩
    · exact .inr ⟨p, t, hp, rfl, hback, hack⟩
    · exact .inl rfl
  · rintro (rfl | ⟨p, t, hp, rfl, hback, hack⟩)
    · have hnew : ∀ {q}, q ≤ s.past.length → q ≤ (s.afterCall C i).past.length := by
        intro q hq
        show q ≤ s.history.length
        rw [Stored.length_history]
        exact Nat.le_succ_of_le hq
      exact ⟨_, _, Stored.history_now _, rfl, fun q hq => hnew (h.backed _ hq),
        fun _ q hq => hnew (h.called _ (List.mem_append_right _ hq))⟩
    · exact ⟨p, t, history_afterCall_of_some hp, rfl, hback, hack⟩

/-- A write-back leaves the current version of its cell, … -/
theorem Kept.versions_afterWriteBack (h : Kept C s) (c : κ) :
    (s.afterWriteBack c (C.view s.now c)).versions C c = {C.view s.now c} := by
  ext b
  constructor
  · rintro ⟨p, t, hp, rfl, hback, -⟩
    have hle : s.past.length ≤ p := hback _ List.mem_cons_self
    obtain rfl : p = s.past.length := Nat.le_antisymm (Stored.history_lt (s := s) hp) hle
    rw [Option.some.inj (hp.symm.trans s.history_now)]
    rfl
  · rintro rfl
    exact (h.afterWriteBack c).now_mem c

/-- … and the others as they are. -/
theorem versions_afterWriteBack_of_ne {c c' : κ} {left : β} (hc : c' ≠ c) :
    (s.afterWriteBack c left).versions C c' = s.versions C c' := by
  have hmem : ∀ q, (c', q) ∈ (s.afterWriteBack c left).writtenBack ↔ (c', q) ∈ s.writtenBack := by
    intro q
    rw [Stored.afterWriteBack, List.mem_cons, or_iff_right (fun heq => hc (Prod.mk.inj heq).1)]
  ext b
  constructor
  · rintro ⟨p, t, hp, hview, hback, hack⟩
    exact ⟨p, t, hp, hview, fun q hq => hback q ((hmem q).mpr hq), hack⟩
  · rintro ⟨p, t, hp, hview, hback, hack⟩
    exact ⟨p, t, hp, hview, fun q hq => hback q ((hmem q).mp hq), hack⟩

/-- A return only rules versions out, … -/
theorem versions_afterReturn {j : Nat} {left : β} {v : κ × Nat} (c : κ) :
    (s.afterReturn C j left v).versions C c ⊆ s.versions C c := by
  rintro b ⟨p, t, hp, hview, hback, hack⟩
  exact ⟨p, t, hp, hview, hback, fun hsync q hq => hack hsync q (List.mem_cons_of_mem v hq)⟩

omit [DecidableEq κ] in
/-- … all but the current one, when it is the last on the cell. -/
theorem Kept.versions_idle (h : Kept C s) (hsync : C.synchronous = true) {c : κ} (hidle : ∀ q, (c, q) ∉ s.inFlight) :
    s.versions C c = {C.view s.now c} := by
  ext b
  constructor
  · rintro ⟨p, t, hp, rfl, -, hack⟩
    refine h.view_now hp fun q hq => ?_
    exact hack hsync q ((List.mem_append.mp hq).resolve_left (hidle q))
  · rintro rfl
    exact h.now_mem c

/-- The event of a return, whether there is a call to return or not. -/
theorem acknowledge_frame (s : Stored σ κ β) (j : Nat) (left : β) :
    (C.store.next s (.acknowledge j left)).now = s.now ∧
    (C.store.next s (.acknowledge j left)).inFlight = s.inFlight.eraseIdx j ∧
    ∀ c, (C.store.next s (.acknowledge j left)).versions C c ⊆ s.versions C c := by
  rw [store_next_acknowledge]
  cases hj : s.inFlight[j]? with
  | none => exact ⟨rfl, (List.eraseIdx_of_length_le (List.getElem?_eq_none_iff.mp hj)).symm, fun _ => subset_rfl⟩
  | some v => exact ⟨rfl, rfl, versions_afterReturn⟩

end

end WriteBack
