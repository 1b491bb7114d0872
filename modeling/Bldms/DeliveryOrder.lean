/-
  The order in which a session delivers messages, with writers at work.

  A session remembers one timestamp and one position, and a `read` accepts the block at the position
  BEFORE it looks at timestamps.  What keeps the deliveries in order is that the scan passes every node
  older than something already delivered (`InOrder.ahead`).  An invalidation cannot break that.  A put
  can, when its timestamp is older than a delivered one and the scan would not pass its node
  (`World.Overtakes`): it landed in the expected block, or the session's timestamp is stale because a
  message is being read in parts.

  * `delivery_order` — in every run without such a put the deliveries are in timestamp order, and
    `delivery_order_fails` is a run with one where they are not;
  * `ordered_reads` — when puts take their timestamps in the order of their critical sections, there is
    no such put: the messages delivered have strictly increasing timestamps, each is valid when it is
    delivered, and no message that stays valid is left out between two of them.
-/
import Bldms.SessionRuns

namespace Bldms

namespace World

variable {sb n : Nat} {w : World}

/-! ## Deliveries in timestamp order -/

/-- A put into block `k` with timestamp `now` is older than something delivered, and the scan of the
    next `read` would not pass it. -/
def Overtakes (w : World) (k : Nat) (now : Ktime) : Prop :=
  ¬ w.sess.Over ∧ (∃ δ ∈ w.log, now.toInt < δ.el.time) ∧
    (k = w.sess.blk ∨ w.sess.nextTs.toInt < now.toInt)

/-- The deliveries are in timestamp order so far, and the scan passes what is older than one of them. -/
structure InOrder (w : World) : Prop where
  sorted : w.log.Pairwise fun x y => x.el.time ≤ y.el.time
  ahead : w.sess.Over ∨
    ∀ δ ∈ w.log, ∀ z ∈ w.drv.validBlkList, z.time < δ.el.time → w.sess.Passes z

/-- The node a call works on is not older than anything delivered. -/
theorem InOrder.le_picked (h : InOrder w) (hover : ¬ w.sess.Over) {pre rest : List RcuElem}
    {el : RcuElem} {p : Nat} (hp : Picked w.sess w.drv.validBlkList pre el rest p) {δ : Delivery}
    (hδ : δ ∈ w.log) : δ.el.time ≤ el.time := by
  have hahead := h.ahead.resolve_left hover
  exact not_lt.mp fun hlt => hp.not_passes (hahead δ hδ el hp.mem hlt)

/-- A delivery from the picked node keeps the order, if the session it leaves passes everything older
    than that node. -/
theorem InOrder.deliver (h : InOrder w) (hover : ¬ w.sess.Over) {pre rest : List RcuElem}
    {el : RcuElem} {p : Nat} (hp : Picked w.sess w.drv.validBlkList pre el rest p)
    (bytes : List Byte) {s : Session}
    (hs : s.Over ∨ ∀ z ∈ w.drv.validBlkList, z.time < el.time → s.Passes z) :
    InOrder (w.deliver el bytes s) := by
  have hle : ∀ δ ∈ w.log, δ.el.time ≤ el.time := fun δ hδ => h.le_picked hover hp hδ
  cases bytes with
  | nil =>
    refine ⟨h.sorted, hs.imp_right fun hall δ hδ z hz hlt => hall z hz ?_⟩
    have := hle δ hδ
    omega
  | cons b bs =>
    refine ⟨?_, hs.imp_right fun hall δ hδ z hz hlt => hall z hz ?_⟩
    · refine List.pairwise_append.mpr ⟨h.sorted, List.pairwise_singleton _ _, ?_⟩
      intro x hx y hy
      rw [List.mem_singleton.mp hy]
      exact hle x hx
    · rcases List.mem_append.mp hδ with hδ | hδ
      · have := hle δ hδ
        omega
      · rw [List.mem_singleton.mp hδ] at hlt
        exact hlt

theorem InOrder.read (h : InOrder w) (hr : Readable sb n w.sess w.drv) (r : Request) :
    InOrder (session.next w (.read r)) := by
  have hmove := read_cases hr r
  generalize session.next w (.read r) = w' at hmove
  cases hmove with
  | idle hs =>
    rcases hs with ⟨rfl, -⟩ | ⟨-, rfl⟩
    · exact h
    · exact ⟨h.sorted, .inl w.sess.advance_nil_over⟩
  | stay hover hp hlt _ _ =>
    refine h.deliver hover hp _ (.inr ?_)
    intro z hz hold
    exact (hp.goto hr.inv.distinct hlt).passed z (hp.mem_pre_of_lt hr.inv.sorted hz hold)
  | @move pre rest el p hover hp =>
    refine h.deliver hover hp _ ?_
    cases rest with
    | nil => exact .inl w.sess.advance_nil_over
    | cons nx rest =>
      refine .inr ?_
      intro z hz hold
      apply (hp.advance hr.inv.distinct hr.inv.sorted).passed z
      exact List.mem_append_left _ (hp.mem_pre_of_lt hr.inv.sorted hz hold)

theorem InOrder.put (h : InOrder w) (hI : Inv sb n w.drv) {e : PutEnv} {m : List Byte}
    (hno : ∀ k, PutLands e m w.drv k → ¬ w.Overtakes k e.now) : InOrder (w.afterPut e m) := by
  rcases put_cases hI e m with heq | ⟨k, hlands, -, hlist, -, hsess, hlog, -, -⟩
  · rw [heq]
    exact h
  · refine ⟨by rw [hlog]; exact h.sorted, ?_⟩
    rw [hsess, hlog, hlist]
    by_cases hover : w.sess.Over
    · exact .inl hover
    · refine .inr ?_
      intro δ hδ z hz hlt
      rcases mem_addValidBlock.mp hz with rfl | hz
      · -- the new node: if the scan did not pass it, the put would overtake
        by_contra hpass
        exact hno k hlands ⟨hover, ⟨δ, hδ, hlt⟩, Session.not_passes_iff.mp hpass⟩
      · exact h.ahead.resolve_left hover δ hδ z hz hlt

theorem InOrder.invalidate (h : InOrder w) (hI : Inv sb n w.drv) (bread : Bool)
    (offset : BitVec 32) : InOrder (session.next w (.invalidate bread offset)) := by
  have hsub := (invalidate_cases hI bread offset).1
  exact ⟨h.sorted, h.ahead.imp_right fun hall δ hδ z hz => hall δ hδ z (hsub.subset hz)⟩

/-- The put of an event, if it is one, does not overtake. -/
def NoOvertaking (w : World) : Event → Prop
  | .put e m => ∀ k, PutLands e m w.drv k → ¬ w.Overtakes k e.now
  | _ => True

theorem InOrder.step (h : InOrder w) (hr : Readable sb n w.sess w.drv) {ev : Event}
    (hno : w.NoOvertaking ev) : InOrder (session.next w ev) := by
  cases ev with
  | put e m => exact h.put hr.inv hno
  | invalidate bread offset => exact h.invalidate hr.inv bread offset
  | read r => exact h.read hr r

theorem inOrder_start (d : Driver) (s : Session) : InOrder (start d s) :=
  ⟨List.Pairwise.nil, .inr fun _ hδ => nomatch hδ⟩

end World

/-- **Delivery order with out-of-order writers.**  In every interleaving of the calls of one session
    with puts, of any timestamps, and invalidations, in which no put overtakes the session, the
    timestamps of the messages delivered one after the other are non-decreasing. -/
theorem delivery_order (cfg : Config) (sb : Nat) (d : Driver) (hd : Reachable cfg sb d)
    (hfit : d.MessagesFit) (s : Session) (hs : Opened sb d s) (events : List Event)
    (hno : session.AllSteps World.NoOvertaking (.start d s) events) :
    ∀ w ∈ session.states (.start d s) events,
      (w.log.map fun δ => δ.el.nsec.toInt).Pairwise (· ≤ ·) := by
  have hinv := hno.invariant
    (P := fun w => Readable sb (d.blockCount sb) w.sess w.drv ∧ w.InOrder)
    (fun w ev hev hw => ⟨World.readable_step hw.1 ev, hw.2.step hw.1 hev⟩)
    ⟨World.readable_start hd hfit hs, World.inOrder_start d s⟩
  intro w hw
  exact List.pairwise_map.mpr (hinv w hw).2.sorted

/-- A late put that does not overtake: the session expects block 1 next, with a newer timestamp, and
    the message from before the first one goes into block 2, where the scan passes it. -/
theorem delivery_order_late_put :
    let events : List Event := [.put (.allOk 4 20) [1, 2], .put (.allOk 5 30) [3], .read (.allOk 9),
      .put (.allOk 6 15) [4], .read (.allOk 9)]
    let w₀ := World.start (freshDriver 4) ((freshDriver 4).freshSession 0)
    ((session.final w₀ events).log.map Delivery.bytes) = [[1, 2], [3]] ∧
    ∀ w ∈ session.states w₀ events, (w.log.map fun δ => δ.el.nsec.toInt).Pairwise (· ≤ ·) := by
  refine ⟨by decide, delivery_order .standard 0 (freshDriver 4)
    (mounted_freshDriver .standard (by decide)).reachable (by decide) _ (opened_freshSession rfl) _
    ⟨?_, ?_, trivial, ?_, trivial, trivial⟩⟩
  · rintro k - ⟨-, ⟨δ, hδ, -⟩, -⟩
    exact List.not_mem_nil hδ
  · rintro k - ⟨-, ⟨δ, hδ, -⟩, -⟩
    exact List.not_mem_nil hδ
  · rintro k hk ⟨-, -, hscan⟩
    obtain rfl : 2 = k := Option.some.inj hk.2.2
    exact absurd hscan (by decide)

/-- A message is read in two parts; in between, a writer that drew its timestamp earlier gets the lock.
    The second call, its timestamp still the initial one, jumps back to the older message. -/
theorem delivery_order_fails :
    let events : List Event := [.put (.allOk 3 20) [1, 2], .read (.allOk 1), .put (.allOk 4 15) [3],
      .read (.allOk 1)]
    let w₀ := World.start (freshDriver 3) ((freshDriver 3).freshSession 0)
    Reachable .standard 0 (freshDriver 3) ∧ (freshDriver 3).MessagesFit ∧ Opened 0 (freshDriver 3) w₀.sess ∧
    (session.final w₀ events).log.map (fun δ => (δ.el.nsec.toInt, δ.bytes)) = [(20, [1]), (15, [3])] ∧
    ¬ ((session.final w₀ events).log.map fun δ => δ.el.nsec.toInt).Pairwise (· ≤ ·) :=
  ⟨(mounted_freshDriver .standard (by decide)).reachable, by decide, opened_freshSession rfl,
    by decide, by decide⟩

/-! ## Puts in timestamp order -/

/-- The put of an event has a timestamp above all earlier ones, and its reads succeed and ask for at
    least a byte. -/
def World.Newest (w : World) : Event → Prop
  | .put e m => ∀ k, PutLands e m w.drv k → ∀ x ∈ w.written, x.time < e.now.toInt
  | .invalidate _ _ => True
  | .read r => r.Ok

namespace World

variable {sb n : Nat} {w : World}

/-- What has been written: it covers what is listed and what has been delivered, and timestamps tell
    its messages apart. -/
structure Chronicle (w : World) : Prop where
  listed : ∀ x ∈ w.drv.validBlkList, x ∈ w.written
  logged : ∀ δ ∈ w.log, δ.el ∈ w.written ∧ δ.el ∈ δ.valid
  apart : ∀ x ∈ w.written, ∀ y ∈ w.written, x.time = y.time → x = y

theorem Chronicle.deliver (h : Chronicle w) {el : RcuElem} (hel : el ∈ w.drv.validBlkList)
    (bytes : List Byte) (s : Session) : Chronicle (w.deliver el bytes s) := by
  refine ⟨?_, ?_, ?_⟩
  · rw [deliver_drv, deliver_written]
    exact h.listed
  · rw [deliver_written]
    cases bytes with
    | nil => exact h.logged
    | cons b bs =>
      intro δ hδ
      rcases List.mem_append.mp hδ with hδ | hδ
      · exact h.logged δ hδ
      · rw [List.mem_singleton.mp hδ]
        exact ⟨h.listed el hel, hel⟩
  · rw [deliver_written]
    exact h.apart

theorem Chronicle.step (h : Chronicle w) (hr : Readable sb n w.sess w.drv) {ev : Event}
    (hnew : w.Newest ev) : Chronicle (session.next w ev) := by
  cases ev with
  | put e m =>
    rw [session_next_put]
    rcases put_cases hr.inv e m with heq | ⟨k, hlands, -, hlist, -, -, hlog, -, hwritten⟩
    · rw [heq]
      exact h
    · have hlt := hnew k hlands
      refine ⟨?_, ?_, ?_⟩
      · rw [hlist, hwritten]
        intro x hx
        rcases mem_addValidBlock.mp hx with rfl | hx
        · exact List.mem_cons_self
        · exact List.mem_cons_of_mem _ (h.listed x hx)
      · rw [hlog, hwritten]
        intro δ hδ
        exact ⟨List.mem_cons_of_mem _ (h.logged δ hδ).1, (h.logged δ hδ).2⟩
      · -- the new timestamp is above all others
        rw [hwritten]
        intro x hx y hy heq
        rcases List.mem_cons.mp hx with rfl | hx
        · rcases List.mem_cons.mp hy with rfl | hy
          · rfl
          · exact absurd heq (ne_of_gt (hlt y hy))
        · rcases List.mem_cons.mp hy with rfl | hy
          · exact absurd heq (ne_of_lt (hlt x hx))
          · exact h.apart x hx y hy heq
  | invalidate bread offset =>
    have hsub := (invalidate_cases hr.inv bread offset).1
    exact ⟨fun x hx => h.listed x (hsub.subset hx), h.logged, h.apart⟩
  | read r =>
    have hmove := read_cases hr r
    generalize session.next w (.read r) = w' at hmove
    cases hmove with
    | idle _ => exact ⟨h.listed, h.logged, h.apart⟩
    | stay _ hp | move _ hp => exact h.deliver hp.mem _ _

/-- A put above everything written overtakes nothing. -/
theorem Newest.noOvertaking (h : Chronicle w) {ev : Event} (hnew : w.Newest ev) :
    w.NoOvertaking ev := by
  cases ev with
  | put e m =>
    rintro k hlands ⟨-, ⟨δ, hδ, hlt⟩, -⟩
    have := hnew k hlands δ.el (h.logged δ hδ).1
    omega
  | invalidate bread offset => trivial
  | read r => trivial

/-! ## Nothing is left out -/

/-- Something as new as `x` has been delivered. -/
def Reached (w : World) (x : RcuElem) : Prop := ∃ δ ∈ w.log, x.time ≤ δ.el.time

/-- Unless it has been reached already, `x` is still to come: the scan does not pass it, and the
    session is not inside its message. -/
def Ahead (w : World) (x : RcuElem) : Prop :=
  w.sess.Over ∨ w.Reached x ∨ (¬ w.sess.Passes x ∧ (x.ndx = w.sess.blk → w.sess.pos = 0))

/-- Before anything newer than `x` was delivered, `x` had been reached. -/
def NotSkipped (w : World) (x : RcuElem) : Prop :=
  ∀ before δ after, w.log = before ++ δ :: after → x.time < δ.el.time →
    ∃ δ' ∈ before, x.time ≤ δ'.el.time

theorem Reached.deliver {x : RcuElem} (h : w.Reached x) (el : RcuElem) (bytes : List Byte)
    (s : Session) : (w.deliver el bytes s).Reached x := by
  obtain ⟨δ, hδ, hle⟩ := h
  cases bytes with
  | nil => exact ⟨δ, hδ, hle⟩
  | cons b bs => exact ⟨δ, List.mem_append_left _ hδ, hle⟩

theorem reached_deliver_self {bytes : List Byte} (h : bytes ≠ []) (w : World) (el : RcuElem)
    (s : Session) : (w.deliver el bytes s).Reached el := by
  refine ⟨⟨el, bytes, w.drv.validBlkList⟩, ?_, Int.le_refl _⟩
  rw [deliver_log_of_ne h]
  exact List.mem_append_right _ (List.mem_singleton.mpr rfl)

theorem NotSkipped.deliver {x : RcuElem} (h : w.NotSkipped x) {el : RcuElem}
    (hel : x.time < el.time → w.Reached x) (bytes : List Byte) (s : Session) :
    (w.deliver el bytes s).NotSkipped x := by
  cases bytes with
  | nil => exact h
  | cons b bs =>
    intro before δ after hlog hlt
    -- the delivery is the new one, or an old one
    rcases List.eq_nil_or_concat after with rfl | ⟨after', δ', rfl⟩
    · obtain ⟨hbefore, hδ⟩ := List.append_inj' hlog rfl
      rw [← List.head_eq_of_cons_eq hδ] at hlt
      rw [← hbefore]
      exact hel hlt
    · rw [List.concat_eq_append, ← List.cons_append, ← List.append_assoc] at hlog
      exact h before δ after' (List.append_inj' hlog rfl).1 hlt

section

variable {x el : RcuElem} {pre rest : List RcuElem} {p : Nat}

/-- A message after the picked one that the scan would not pass is newer than the session's
    timestamp. -/
theorem nextTs_lt_of_mem_rest (hI : Inv sb n w.drv)
    (hp : Picked w.sess w.drv.validBlkList pre el rest p) (hx : x ∈ rest)
    (hpass : ¬ w.sess.Passes x) : w.sess.nextTs.toInt < x.time := by
  rcases Session.not_passes_iff.mp hpass with hblk | hlt
  · -- in the block of the position, it would be the picked node itself, unless that is newer
    rcases hp.target with ⟨heq, -⟩ | ⟨-, hlt, -⟩
    · exact absurd (hblk.trans heq.symm) (hp.ndx_ne_of_mem_rest hI.distinct hx)
    · have := hp.le_of_mem_rest hI.sorted hx
      omega
  · exact hlt

/-- A message that is still to come is the one picked, from its start, or comes after it. -/
theorem Ahead.to_come (h : w.Ahead x) (hover : ¬ w.sess.Over) (hI : Inv sb n w.drv)
    (hp : Picked w.sess w.drv.validBlkList pre el rest p) (hx : x ∈ w.drv.validBlkList) :
    w.Reached x ∨ x = el ∧ p = 0 ∨ x ∈ rest ∧ w.sess.nextTs.toInt < x.time := by
  rcases h with h | h | ⟨hpass, hpos⟩
  · exact absurd h hover
  · exact .inl h
  · rcases hp.eq_or_mem_rest hx hpass with rfl | hrest
    · refine .inr (.inl ⟨rfl, ?_⟩)
      rcases hp.target with ⟨hndx, hp'⟩ | ⟨-, -, hp'⟩
      · rw [hp', hpos hndx]
      · exact hp'
    · exact .inr (.inr ⟨hrest, nextTs_lt_of_mem_rest hI hp hrest hpass⟩)

/-- What is picked is not newer than a message still to come. -/
theorem Ahead.reached_of_lt (h : w.Ahead x) (hover : ¬ w.sess.Over) (hI : Inv sb n w.drv)
    (hp : Picked w.sess w.drv.validBlkList pre el rest p) (hx : x ∈ w.drv.validBlkList)
    (hlt : x.time < el.time) : w.Reached x := by
  rcases h.to_come hover hI hp hx with h | ⟨rfl, -⟩ | ⟨hrest, -⟩
  · exact h
  · omega
  · have := hp.le_of_mem_rest hI.sorted hrest
    omega

/-- A part of the picked message is delivered, and the timestamp is not advanced: a message that was still to
    come is newer than it. -/
theorem Ahead.stay (h : w.Ahead x) (hover : ¬ w.sess.Over) (hI : Inv sb n w.drv)
    (hp : Picked w.sess w.drv.validBlkList pre el rest p) (hx : x ∈ w.drv.validBlkList) {k : Nat}
    (hpos : 0 < k) (hlt : p + k < 4086) (hk : p + k < el.validBytes) :
    (w.deliver el (((w.drv.message sb el).drop p).take k) (w.sess.goto el.ndx (p + k))).Ahead x := by
  refine .inr ?_
  rcases h.to_come hover hI hp hx with hreached | ⟨rfl, -⟩ | ⟨hrest, hts⟩
  · exact .inl (hreached.deliver _ _ _)
  · refine .inl (reached_deliver_self ?_ w x _)
    intro hnil
    have hlen := congrArg List.length hnil
    rw [List.length_take, List.length_drop, Driver.length_message, List.length_nil] at hlen
    omega
  · rw [deliver_sess]
    refine .inr ⟨?_, ?_⟩
    · intro hpass
      have : x.time ≤ w.sess.nextTs.toInt := hpass.2
      omega
    · intro hblk
      rw [w.sess.goto_blk hlt] at hblk
      exact absurd hblk (hp.ndx_ne_of_mem_rest hI.distinct hrest)

/-- The rest of the picked message is delivered, and the session moves to the next one: of two messages with
    one timestamp it would pass the second. -/
theorem Ahead.move (h : w.Ahead x) (hover : ¬ w.sess.Over) (hI : Inv sb n w.drv) (hc : Chronicle w)
    (hp : Picked w.sess w.drv.validBlkList pre el rest p) (hx : x ∈ w.drv.validBlkList)
    (hvb : 0 < x.validBytes) :
    (w.deliver el ((w.drv.message sb el).drop p) (w.sess.advance rest)).Ahead x := by
  rcases h.to_come hover hI hp hx with hreached | ⟨rfl, rfl⟩ | ⟨hrest, -⟩
  · exact .inr (.inl (hreached.deliver _ _ _))
  · refine .inr (.inl (reached_deliver_self ?_ w x _))
    intro hnil
    have hlen := congrArg List.length hnil
    rw [List.length_drop, Driver.length_message, List.length_nil] at hlen
    omega
  · cases rest with
    | nil => cases hrest
    | cons nx rest =>
      refine .inr (.inr ?_)
      rw [deliver_sess, w.sess.advance_cons_blk, w.sess.advance_cons_pos]
      refine ⟨?_, fun _ => rfl⟩
      intro hpass
      rw [Session.Passes, w.sess.advance_cons_blk, w.sess.advance_cons_nextTs] at hpass
      have hp' := hp.advance hI.distinct hI.sorted
      rcases List.mem_cons.mp hrest with rfl | hrest
      · exact hpass.1 rfl
      · have hle := hp'.le_of_mem_rest hI.sorted hrest
        have heq : x.time = nx.time := Int.le_antisymm hpass.2 hle
        have hsame := hc.apart x (hc.listed x hx) nx (hc.listed nx hp'.mem) heq
        exact hpass.1 (congrArg RcuElem.ndx hsame)

end

/-- The step lemma for a message that stays valid: a successful `read` does not skip it. -/
theorem Ahead.read {x : RcuElem} (h : w.Ahead x) (hs : w.NotSkipped x)
    (hr : Readable sb n w.sess w.drv) (hc : Chronicle w) (hx : x ∈ w.drv.validBlkList)
    (hvb : 0 < x.validBytes) {r : Request} (hok : r.Ok) :
    (session.next w (.read r)).Ahead x ∧ (session.next w (.read r)).NotSkipped x := by
  have hI := hr.inv
  have hmove := read_cases hr r
  generalize session.next w (.read r) = w' at hmove
  cases hmove with
  | idle hidle =>
    refine ⟨?_, hs⟩
    rcases hidle with ⟨rfl, -⟩ | ⟨-, rfl⟩
    · exact h
    · exact .inl w.sess.advance_nil_over
  | @stay pre rest el p k hover hp hlt hk hpos =>
    have hpos := hpos hok
    have hk : p + k < el.validBytes := hk.resolve_left (Nat.ne_of_gt hpos)
    exact ⟨h.stay hover hI hp hx hpos hlt hk, hs.deliver (h.reached_of_lt hover hI hp hx) _ _⟩
  | @move pre rest el p hover hp =>
    exact ⟨h.move hover hI hc hp hx hvb, hs.deliver (h.reached_of_lt hover hI hp hx) _ _⟩

theorem Ahead.step {x : RcuElem} (h : w.Ahead x) (hs : w.NotSkipped x)
    (hr : Readable sb n w.sess w.drv) (hc : Chronicle w) (hx : x ∈ w.drv.validBlkList)
    (hvb : 0 < x.validBytes) {ev : Event} (hnew : w.Newest ev) :
    (session.next w ev).Ahead x ∧ (session.next w ev).NotSkipped x := by
  cases ev with
  | put e m =>
    rw [session_next_put]
    rcases put_cases hr.inv e m with heq | ⟨k, -, -, -, -, hsess, hlog, -, -⟩
    · rw [heq]
      exact ⟨h, hs⟩
    · rw [Ahead, Reached, NotSkipped, hsess, hlog]
      exact ⟨h, hs⟩
  | invalidate bread offset => exact ⟨h, hs⟩
  | read r => exact h.read hs hr hc hx hvb hnew

/-- A new session has every message with a positive timestamp still to come. -/
theorem ahead_start {d : Driver} {s : Session} (hs : Opened sb d s) {x : RcuElem} (hx : 0 < x.time) :
    (World.start d s).Ahead x := by
  rw [hs.eq]
  refine .inr (.inr ⟨?_, fun _ => Nat.zero_sub 10⟩)
  intro hpass
  have hle : x.time ≤ 0 := hpass.2
  omega

/-- A message that has not been skipped is not older than the first one delivered … -/
theorem NotSkipped.first {x : RcuElem} (h : w.NotSkipped x) {δ : Delivery} (hδ : δ ∈ w.log.head?) :
    ¬ x.time < δ.el.time := by
  intro hlt
  obtain ⟨tail, hlog⟩ := List.head?_eq_some_iff.mp hδ
  obtain ⟨δ', hδ', -⟩ := h [] δ tail hlog hlt
  nomatch hδ'

/-- … nor between two delivered in a row. -/
theorem NotSkipped.between {x : RcuElem} (h : w.NotSkipped x) (ho : w.InOrder)
    {before after : List Delivery} {a b : Delivery} (hlog : w.log = before ++ a :: b :: after) :
    ¬ (a.el.time < x.time ∧ x.time < b.el.time) := by
  rintro ⟨hax, hxb⟩
  have hlog' : w.log = (before ++ [a]) ++ b :: after := by
    rw [hlog, List.append_assoc]
    rfl
  obtain ⟨δ, hδ, hle⟩ := h _ b after hlog' hxb
  have hsorted := ho.sorted
  rw [hlog'] at hsorted
  have hbefore := (List.pairwise_append.mp (List.pairwise_append.mp hsorted).1).2.2
  rcases List.mem_append.mp hδ with hδ | hδ
  · have hle' := hbefore δ hδ a (List.mem_singleton.mpr rfl)
    omega
  · rw [List.mem_singleton.mp hδ] at hle
    omega

end World

/-- Repetitions in a row dropped, a list whose elements repeat or increase is strictly increasing. -/
theorem pairwise_destutter_lt {α : Type*} [DecidableEq α] {key : α → Int} {l : List α}
    (h : l.Pairwise fun a b => a = b ∨ key a < key b) :
    (l.destutter (· ≠ ·)).Pairwise fun a b => key a < key b := by
  have hanti : Std.Antisymm fun a b => a = b ∨ key a < key b := by
    refine ⟨?_⟩
    intro a b hab hba
    rcases hab with rfl | hab
    · rfl
    · rcases hba with rfl | hba
      · rfl
      · omega
  rw [h.destutter_eq_dedup]
  have hne : l.dedup.Pairwise (· ≠ ·) := List.nodup_dedup l
  refine ((h.sublist (List.dedup_sublist l)).and hne).imp ?_
  rintro a b ⟨hab, hne⟩
  exact hab.resolve_left hne

/-- **Reads neither repeat, reorder nor skip.**  Timestamps are positive and distinct on the image and
    puts take larger and larger ones; reads succeed.  Then, in every interleaving with puts and
    invalidations, the messages a session receives bytes from, one after the other, have strictly
    increasing timestamps; each is valid at the call that delivers it; and no non-empty message that
    stays valid is older than the first one delivered or between two delivered in a row. -/
theorem ordered_reads (cfg : Config) (sb : Nat) (d : Driver) (hd : Reachable cfg sb d)
    (hfit : d.MessagesFit) (hpos : ∀ el ∈ d.validBlkList, 0 < el.nsec.toInt)
    (hdist : (d.validBlkList.map fun el => el.nsec.toInt).Nodup) (s : Session) (hs : Opened sb d s)
    (events : List Event) (hev : session.AllSteps World.Newest (.start d s) events) :
    let w := session.final (.start d s) events
    (((w.log.map Delivery.el).destutter (· ≠ ·)).map fun el => el.nsec.toInt).Pairwise (· < ·) ∧
    (∀ δ ∈ w.log, δ.el ∈ δ.valid) ∧
    ∀ x, (∀ t ∈ session.states (.start d s) events, x ∈ t.drv.validBlkList) → 0 < x.validBytes →
      (∀ δ ∈ w.log.head?, ¬ x.nsec.toInt < δ.el.nsec.toInt) ∧
      ∀ before a b after, w.log = before ++ a :: b :: after →
        ¬ (a.el.nsec.toInt < x.nsec.toInt ∧ x.nsec.toInt < b.el.nsec.toInt) := by
  let P (w : World) : Prop :=
    Readable sb (d.blockCount sb) w.sess w.drv ∧ w.InOrder ∧ w.Chronicle
  have hstart : P (.start d s) := by
    refine ⟨World.readable_start hd hfit hs, World.inOrder_start d s, fun x hx => hx,
      (fun δ hδ => nomatch hδ), ?_⟩
    intro x hx y hy heq
    exact List.inj_on_of_nodup_map hdist hx hy heq
  have hstep : ∀ w ev, w.Newest ev → P w → P (session.next w ev) := by
    rintro w ev hnew ⟨hr, ho, hc⟩
    exact ⟨World.readable_step hr ev, ho.step hr (World.Newest.noOvertaking hc hnew), hc.step hr hnew⟩
  obtain ⟨-, horder, hc⟩ := hev.final hstep hstart
  refine ⟨?_, fun δ hδ => (hc.logged δ hδ).2, ?_⟩
  · -- non-decreasing, and equal timestamps mean the same message
    refine List.pairwise_map.mpr (pairwise_destutter_lt (List.pairwise_map.mpr ?_))
    apply horder.sorted.imp_of_mem
    intro a b ha hb hle
    rcases Int.lt_or_eq_of_le hle with hlt | heq
    · exact .inr hlt
    · exact .inl (hc.apart _ (hc.logged a ha).1 _ (hc.logged b hb).1 heq)
  · intro x hx hvb
    have hx₀ := hx _ (session.self_mem_states _ _)
    have hall := (System.AllSteps.of_states hx).and hev
    obtain ⟨-, -, hskip⟩ := hall.final (P := fun w => P w ∧ w.Ahead x ∧ w.NotSkipped x)
      (fun w ev h hw => ⟨hstep w ev h.2 hw.1,
        hw.2.1.step hw.2.2 hw.1.1 hw.1.2.2 h.1 hvb h.2⟩)
      ⟨hstart, World.ahead_start hs (hpos x hx₀), fun before δ after h => by simp [World.start] at h⟩
    exact ⟨fun δ hδ => hskip.first hδ, fun before a b after hlog => hskip.between horder hlog⟩

/-- The first of two messages is invalidated when half read, and a third one is put: the second, which
    stays valid, comes next. -/
theorem ordered_reads_invalidated :
    let d := driver.final (freshDriver 5) [.put (.allOk 5 10) [1, 2], .put (.allOk 6 20) [3]]
    let events : List Event := [.read (.allOk 1), .invalidate true 0, .put (.allOk 7 30) [4],
      .read (.allOk 9), .read (.allOk 9), .read (.allOk 9)]
    let w := session.final (.start d (d.freshSession 0)) events
    w.log.map (fun δ => (δ.el.nsec.toInt, δ.bytes)) = [(10, [1]), (20, [3]), (30, [4])] ∧
    (((w.log.map Delivery.el).destutter (· ≠ ·)).map fun el => el.nsec.toInt).Pairwise (· < ·) := by
  refine ⟨by decide, (ordered_reads .standard 0 _
    ⟨freshDriver 5, _, mounted_freshDriver .standard (by decide), rfl⟩ (by decide) (by decide)
    (by decide) _ (opened_freshSession rfl) _ ?_).1⟩
  have hread : ∀ len, 1 ≤ len → (Request.allOk len).Ok := fun len h => Request.allOk_ok h
  refine ⟨hread 1 (by decide), trivial, ?_, hread 9 (by decide), hread 9 (by decide),
    hread 9 (by decide), trivial⟩
  exact fun k _ => by decide

end Bldms
