/-
  The even use of blocks.

  `put_data` takes the first free block after the one it wrote last, going round the device.  Suppose
  block `b` has just been written and another block `c` is free and stays free.  Then the cursor, seen
  from `b`, is behind `c`, and stays behind it: each put moves it forward, at most up to `c`, and not to
  `c` itself, since `c` would then be valid (`Inv.behind_step`).  So it does not come round to `b` again
  as long as `c` is free.

  * `Behind`          — the cursor lies between `b` and `c`;
  * `even_use`        — a block is not rewritten while another one has been free all the time since, in a run whose
    puts read the blocks they choose;
  * `even_use_fails`  — after one that does not, a free block may read valid by an entry that another slot has got.
-/
import Bldms.Slots

namespace Bldms

/-- Going round from `b`, the cursor comes before block `c`. -/
def Behind (n b c : Nat) (d : Driver) : Prop := ahead n b d.lastWrittenBlock < ahead n b c

section

variable {sb n b c : Nat} {d : Driver}

/-- A put that finds `c` free stores in a block after the cursor, `c` at the latest. -/
theorem Inv.ahead_of_findFree (hI : Inv sb n d) (hc : c < n) (hbehind : Behind n b c d)
    (hfree : d.invalidAt c = true) {k : Nat} (hk : d.findFree = some k) :
    ahead n b d.lastWrittenBlock < ahead n b k ∧ ahead n b k ≤ ahead n b c := by
  rw [hI.findFree_eq] at hk
  exact ahead_of_find? hc hbehind hfree hk

/-- The block a put has stored in is not free. -/
theorem Inv.invalidAt_commitPut (hI : Inv sb n d) {p : Prepared} {k : Nat} (hk : d.findFree = some k)
    (hv : p.newMetadata.blk.isValid = true) : (d.commitPut p k).invalidAt k = false := by
  have hlen : k < d.metadataArray.length := by
    rw [hI.length]
    exact (hI.findFree_some hk).1
  have hslot : (d.commitPut p k).metadataArray[k]? = some p.newMetadata := by
    simp only [Driver.commitPut, List.getElem?_set_self hlen]
  rw [Driver.invalidAt, hslot]
  simp [hv]

/-- **The step lemma**: while `c` stays free, the cursor stays behind it. -/
theorem Inv.behind_step (hI : Inv sb n d) (hc : c < n) (hbehind : Behind n b c d) (call : Call)
    (hfree : d.invalidAt c = true) (hfree' : (driver.next d call).invalidAt c = true) :
    Behind n b c (driver.next d call) := by
  cases call with
  | get e offset size => exact hbehind
  | read e len s => exact hbehind
  | invalidate bread offset =>
    -- an invalidation does not move the cursor
    rcases hI.invalidateData_cases bread offset with ⟨heq, -⟩ | ⟨el, -, -, heq⟩
    · rw [driver_next_invalidate, heq]
      exact hbehind
    · rw [driver_next_invalidate, heq]
      exact hbehind
  | put e m =>
    rcases Bldms.putData_cases e m d with ⟨heq, -⟩ | ⟨p, k, hp, hl, heq⟩
    · rw [driver_next_put, heq]
      exact hbehind
    · rw [driver_next_put, heq] at hfree' ⊢
      have hv : p.newMetadata.blk.isValid = true := by rw [(putPrepare_ok hp).2.2.2.1]
      have hkc : k ≠ c := by
        rintro rfl
        rw [hI.invalidAt_commitPut hl.2.2 hv] at hfree'
        cases hfree'
      have hle := (hI.ahead_of_findFree hc hbehind hfree hl.2.2).2
      refine lt_of_le_of_ne hle fun heq => hkc ?_
      exact eq_of_ahead_eq (hI.findFree_some hl.2.2).1 hc heq

end

/-- A put that returns `k` has committed to block `k`, and left the cursor there. -/
theorem Inv.putData_ok {sb n : Nat} {d : Driver} (hI : Inv sb n d) {e : PutEnv} {m : List Byte}
    {k : Nat} (h : (Bldms.putData e m d).ret = .ok k) :
    k < n ∧ d.findFree = some k ∧ (Bldms.putData e m d).drv.lastWrittenBlock = k := by
  rcases Bldms.putData_cases e m d with ⟨-, hret⟩ | ⟨p, j, -, hl, heq⟩
  · exact absurd h (hret k)
  · rw [heq] at h
    obtain rfl : j = k := Ret.ok.inj h
    rw [heq]
    exact ⟨(hI.findFree_some hl.2.2).1, hl.2.2, rfl⟩

/-- Two puts that return the same block `b`, with any calls between them: every other block of the device was valid at
    some moment after the first put and up to the second one. -/
theorem Reachable.used_between {cfg : Config} {sb : Nat} {d : Driver} (hd : Reachable cfg sb d) {b : Nat}
    {e₁ e₂ : PutEnv} {m₁ m₂ : List Byte} {calls : List Call}
    (hfirst : (putData e₁ m₁ d).ret = .ok b)
    (hsecond : (putData e₂ m₂ (driver.final (putData e₁ m₁ d).drv calls)).ret = .ok b) :
    ∀ c, c < d.blockCount sb → c ≠ b →
      ∃ t ∈ driver.states (putData e₁ m₁ d).drv calls, t.invalidAt c = false := by
  intro c hc hne
  by_contra hno
  have hall : ∀ t ∈ driver.states (putData e₁ m₁ d).drv calls, t.invalidAt c = true := by
    intro t ht
    by_contra hvalid
    exact hno ⟨t, ht, by simpa using hvalid⟩
  obtain ⟨hb, -, hcursor⟩ := hd.inv.putData_ok hfirst
  -- from the first put on, the cursor stays behind `c`
  have hstart : Behind (d.blockCount sb) b c (putData e₁ m₁ d).drv := by
    rw [Behind, hcursor, ahead_self hb]
    exact ahead_pos hb hc hne
  have hnext : driver.AllSteps (fun t call => (driver.next t call).invalidAt c = true) _ calls :=
    (System.allSteps_next_iff (S := driver) (Q := fun t : Driver => t.invalidAt c = true)
      (hall _ (driver.self_mem_states _ calls))).mpr hall
  have hsteps := (System.AllSteps.of_states hall).and hnext
  obtain ⟨hI, hbehind⟩ := hsteps.final
    (P := fun t => Inv sb (d.blockCount sb) t ∧ Behind (d.blockCount sb) b c t)
    (fun t call hfree ht => ⟨ht.1.step call, ht.1.behind_step hc ht.2 call hfree.1 hfree.2⟩)
    ⟨hd.inv.putData e₁ m₁, hstart⟩
  -- so the second one does not come round to `b`
  have hforward := (hI.ahead_of_findFree hc hbehind (hall _ (driver.final_mem_states _ calls))
    (hI.putData_ok hsecond).2.1).1
  rw [ahead_self hb] at hforward
  exact absurd hforward (Nat.not_lt_zero _)

/-- A put that has returned a block, on the pointers and by value. -/
theorem PtrDriver.Sound.put_ok {sb n : Nat} {P : PtrDriver} (h : P.Sound sb n) {e : PutEnv} {m : List Byte} {k : Nat}
    {freed : List Nat} (hkz : P.Allocates (.put e m))
    (hok : (ptrDriver.step P (.call (.put e m))).1 = some (.put (.ok k) freed)) :
    (Bldms.putData e m P.view).ret = .ok k := by
  rw [(h.step_eq hkz).1] at hok
  exact (Reply.put.inj (Option.some.inj hok)).1

/-- **Even use of blocks.**  In a run from a mount whose puts have all read the blocks they chose, take two puts that
    return the same block `b`, in the states `P` and `P₂`, with any events between them.  Then every other block of the
    device was valid at some moment after the first put and up to the second one. -/
theorem even_use (cfg : Config) (sb : Nat) (d : Driver) (hd : Mounted cfg sb d) (hentries : d.entries.Nodup) (b : Nat)
    (e₁ e₂ : PutEnv) (m₁ m₂ : List Byte) (freed₁ freed₂ : List Nat) (before between : List PtrEvent)
    (hs : ptrDriver.AllSteps PtrDriver.Sane d.pointers (before ++ .call (.put e₁ m₁) :: between)) (P P₁ P₂ : PtrDriver)
    (hP : ptrDriver.final d.pointers before = P) (hP₁ : ptrDriver.next P (.call (.put e₁ m₁)) = P₁)
    (hP₂ : ptrDriver.final P₁ between = P₂) (hkz : P₂.Allocates (.put e₂ m₂))
    (hfirst : (ptrDriver.step P (.call (.put e₁ m₁))).1 = some (.put (.ok b) freed₁))
    (hsecond : (ptrDriver.step P₂ (.call (.put e₂ m₂))).1 = some (.put (.ok b) freed₂)) :
    ∀ c, c < d.blockCount sb → c ≠ b → ∃ Q ∈ ptrDriver.states P₁ between, Q.view.invalidAt c = false := by
  intro c hc hne
  obtain ⟨hbefore, hput, hbetween⟩ := System.AllSteps.append_iff.mp hs
  rw [hP] at hput hbetween
  rw [hP₁] at hbetween
  have hsound : P.Sound sb (d.blockCount sb) := hP ▸ (hd.sound hentries).final hbefore
  have hsound₁ : P₁.Sound sb (d.blockCount sb) := hP₁ ▸ hsound.next hput
  have hsound₂ : P₂.Sound sb (d.blockCount sb) := hP₂ ▸ hsound₁.final hbetween
  have hview₁ : P₁.view = (putData e₁ m₁ P.view).drv := by
    rw [← hP₁, (hsound.step_eq hput.1).2]
    rfl
  have hview₂ : P₂.view = driver.final P₁.view (PtrDriver.calls between) := by
    rw [← hP₂, hsound₁.view_final hbetween]
  have hret₂ := hsound₂.put_ok hkz hsecond
  rw [hview₂, hview₁] at hret₂
  have hmem : P ∈ ptrDriver.states d.pointers before := hP ▸ ptrDriver.final_mem_states d.pointers before
  have hreach := hd.reachable_view hentries hbefore P hmem
  have hcount := hd.blockCount_view hentries hbefore P hmem
  obtain ⟨t, ht, hvalid⟩ := hreach.used_between (hsound.put_ok hput.1 hfirst) hret₂ c (by rw [hcount]; exact hc) hne
  rw [← hview₁, hsound₁.mem_states hbetween] at ht
  obtain ⟨Q, hQ, rfl⟩ := ht
  exact ⟨Q, hQ, hvalid⟩

/-- The reply of a put, by what it returns and releases. -/
theorem PtrDriver.reply_put {P : PtrDriver} {e : PutEnv} {m : List Byte} {r : Ret Nat} {freed : List Nat}
    (h : (P.putData e m).1 = r ∧ (P.putData e m).2.1 = freed) :
    (ptrDriver.step P (.call (.put e m))).1 = some (.put r freed) := by
  rw [← h.1, ← h.2]
  rfl

/-- On three blocks, block 0 is written twice, after the two others have been used. -/
theorem even_use_three_blocks :
    let between : List PtrEvent := [.call (.invalidate true 0), .call (.put (.allOk 4 2) [2]), .call (.put (.allOk 5 3) [3])]
    let P₁ := ptrDriver.next (freshDriver 3).pointers (.call (.put (.allOk 3 1) [1]))
    (ptrDriver.step (ptrDriver.final P₁ between) (.call (.put (.allOk 6 4) [4]))).1 = some (.put (.ok 0) [3]) ∧
    ∃ Q ∈ ptrDriver.states P₁ between, Q.view.invalidAt 2 = false := by
  intro between P₁
  have hs : ptrDriver.AllSteps PtrDriver.Sane (freshDriver 3).pointers (.call (.put (.allOk 3 1) [1]) :: between) :=
    ⟨sane_put rfl (.inr (by decide)) rfl, ⟨trivial, trivial⟩, sane_put rfl (.inr (by decide)) rfl,
      sane_put rfl (.inr (by decide)) rfl, trivial⟩
  have hfirst : (ptrDriver.step (freshDriver 3).pointers (.call (.put (.allOk 3 1) [1]))).1 = some (.put (.ok 0) [0]) :=
    PtrDriver.reply_put (by decide)
  have hsecond : (ptrDriver.step (ptrDriver.final P₁ between) (.call (.put (.allOk 6 4) [4]))).1 =
      some (.put (.ok 0) [3]) := PtrDriver.reply_put (by decide)
  exact ⟨hsecond, even_use .standard 0 (freshDriver 3) (mounted_freshDriver .standard (by decide)) (by decide) 0
    (.allOk 3 1) (.allOk 6 4) [1] [4] [0] [3] [] between hs (freshDriver 3).pointers P₁ (ptrDriver.final P₁ between)
    rfl rfl rfl (allocates_put rfl (.inr (by decide))) hfirst hsecond 2 (by decide) (by decide)⟩

/-- On a device of two blocks: block 0 is written; a put cannot read block 1, which it has chosen, and releases entry 1;
    block 0 is invalidated.  The next put is given entry 1, so that slot 1 reads valid, and block 0 is written again,
    although block 1 has been free all the time. -/
theorem even_use_fails :
    let between : List PtrEvent := [.call (.put ⟨true, 0, true, some 3, 20, false⟩ [2]), .call (.invalidate true 0)]
    let P₁ := ptrDriver.next (freshDriver 2).pointers (.call (.put (.allOk 2 10) [1]))
    let P₂ := ptrDriver.final P₁ between
    Mounted .standard 0 (freshDriver 2) ∧ (freshDriver 2).entries.Nodup ∧
    ptrDriver.AllSteps PtrDriver.Served (freshDriver 2).pointers
      (.call (.put (.allOk 2 10) [1]) :: (between ++ [.call (.put (.allOk 1 30) [3])])) ∧
    (ptrDriver.step (freshDriver 2).pointers (.call (.put (.allOk 2 10) [1]))).1 = some (.put (.ok 0) [0]) ∧
    (ptrDriver.step P₂ (.call (.put (.allOk 1 30) [3]))).1 = some (.put (.ok 0) [2]) ∧
    ∀ Q ∈ ptrDriver.states P₁ between, Q.view.invalidAt 1 = true := by
  intro between P₁ P₂
  refine ⟨mounted_freshDriver .standard (by decide), by decide,
    ⟨allocates_put rfl (.inr (by decide)), allocates_put rfl (.inr (by decide)), trivial,
      allocates_put rfl (.inl (by decide)), trivial⟩, PtrDriver.reply_put (by decide), PtrDriver.reply_put (by decide), ?_⟩
  intro Q hQ
  simp only [between, System.states_cons, System.states_nil, List.mem_cons, List.not_mem_nil, or_false] at hQ
  rcases hQ with rfl | rfl | rfl
  · decide
  · decide
  · decide

end Bldms
