/-
  Messages are delivered from their first byte on — unless a put gets in the way.

  A `read` identifies what it has half read by the BLOCK, not by the message: `rcu_el->ndx ==
  device_blk` keeps the offset inside the block, whatever message the block holds by then.  The
  property to keep is that what the session has received from the message now in a block is a prefix of
  it (`FromStart.got`).  It rests on `Clean`: only nodes the scan passes stand before a node that
  something has been received from, and the node at the position has been received exactly up to the
  position (or is too short to be read from there at all).

  A put breaks this in two ways (`World.Disturbs`): it writes a longer message into the block the
  session has half read, or it puts a node that the scan will not pass in front of one that has been
  received from, which is then delivered once more.  `whole_messages` holds in every run without such a
  put; `whole_messages_fails` is the run of a partial read, an invalidation and a reuse of the block.
-/
import Bldms.SessionRuns

namespace Bldms

namespace World

variable {sb n : Nat} {w : World}

/-- A put of `len` bytes into block `k` with timestamp `now` lands where the session is reading, or in
    front of what it has received. -/
def Disturbs (w : World) (k len : Nat) (now : Ktime) : Prop :=
  ¬ w.sess.Over ∧
  (k = w.sess.blk ∧ 0 < w.sess.pos ∧ w.sess.pos < len ∨
    (k = w.sess.blk ∨ w.sess.nextTs.toInt < now.toInt) ∧
      ∃ y ∈ w.drv.validBlkList, w.got y.ndx ≠ [] ∧ now.toInt ≤ y.time)

/-- The first `q` bytes of the message of `el` have been received; or none, and it is not longer. -/
def GotUpTo (sb : Nat) (w : World) (el : RcuElem) (q : Nat) : Prop :=
  w.got el.ndx = (w.drv.message sb el).take q ∧ q ≤ el.validBytes ∨
    w.got el.ndx = [] ∧ el.validBytes ≤ q

/-- What the session has received fits its position and its timestamp. -/
structure Clean (sb : Nat) (w : World) : Prop where
  order : w.drv.validBlkList.Pairwise fun x z => w.got z.ndx ≠ [] → w.sess.Passes x
  known : ∀ z ∈ w.drv.validBlkList, w.got z.ndx ≠ [] → w.sess.Passes z ∨ z.ndx = w.sess.blk
  inside : ∀ z ∈ w.drv.validBlkList, z.ndx = w.sess.blk → GotUpTo sb w z w.sess.pos

/-- From every message in the list a prefix has been received. -/
structure FromStart (sb : Nat) (w : World) : Prop where
  got : ∀ z ∈ w.drv.validBlkList, w.got z.ndx <+: w.drv.message sb z
  clean : w.sess.Over ∨ Clean sb w

theorem GotUpTo.isPrefix {el : RcuElem} {q : Nat} (h : GotUpTo sb w el q) :
    w.got el.ndx <+: w.drv.message sb el := by
  rcases h with ⟨h, -⟩ | ⟨h, -⟩
  · rw [h]
    exact List.take_prefix _ _
  · rw [h]
    exact List.nil_prefix

/-- A session that faces `el` at byte `q`, with `q` bytes of it received and nothing after it. -/
theorem Clean.of_picked {s : Session} {l pre rest : List RcuElem} {el : RcuElem} {q : Nat}
    (hs : w.sess = s) (hl : w.drv.validBlkList = l) (hp : Picked s l pre el rest q)
    (hd : DistinctNdx l) (hblk : s.blk = el.ndx) (hpos : s.pos = q)
    (hrest : ∀ z ∈ rest, w.got z.ndx = []) (hel : GotUpTo sb w el q) : Clean sb w := by
  subst hs hl
  have hmem : ∀ {z}, z ∈ w.drv.validBlkList → z ∈ pre ∨ z = el ∨ z ∈ rest := by
    intro z hz
    rw [hp.split] at hz
    exact (List.mem_append.mp hz).imp_right List.mem_cons.mp
  refine ⟨?_, ?_, ?_⟩
  · -- what is before the node is passed, from what is after it nothing was received
    rw [hp.split]
    refine List.pairwise_append.mpr ⟨?_, List.pairwise_cons.mpr ⟨?_, ?_⟩, ?_⟩
    · exact List.pairwise_of_forall_mem_list fun x hx _ _ _ => hp.passed x hx
    · intro z hz hne
      exact absurd (hrest z hz) hne
    · exact List.pairwise_of_forall_mem_list fun _ _ z hz hne => absurd (hrest z hz) hne
    · intro x hx _ _ _
      exact hp.passed x hx
  · intro z hz hne
    rcases hmem hz with hz | rfl | hz
    · exact .inl (hp.passed z hz)
    · exact .inr hblk.symm
    · exact absurd (hrest z hz) hne
  · intro z hz hz'
    have heq : z = el := hd.eq_of_ndx hz hp.mem (hz'.trans hblk)
    rw [heq, hpos]
    exact hel

section

variable {pre rest : List RcuElem} {el : RcuElem} {p : Nat}

/-- Nothing has been received from the messages after the picked one … -/
theorem Clean.got_rest (h : Clean sb w) (hp : Picked w.sess w.drv.validBlkList pre el rest p) :
    ∀ z ∈ rest, w.got z.ndx = [] := by
  intro z hz
  by_contra hne
  have horder := h.order
  rw [hp.split] at horder
  exact hp.not_passes ((List.pairwise_cons.mp (List.pairwise_append.mp horder).2.1).1 z hz hne)

/-- … and the picked one has been received up to where the call reads from. -/
theorem Clean.got_picked (h : Clean sb w) (hp : Picked w.sess w.drv.validBlkList pre el rest p) :
    GotUpTo sb w el p := by
  rcases hp.target with ⟨hblk, rfl⟩ | ⟨hblk, -, rfl⟩
  · exact h.inside el hp.mem hblk
  · refine .inl ⟨?_, Nat.zero_le _⟩
    by_contra hne
    rcases h.known el hp.mem hne with hpass | heq
    · exact hp.not_passes hpass
    · exact hblk heq

end

/-- Reading `k` bytes more of a message, within it, has received `k` bytes more. -/
theorem GotUpTo.stay {el : RcuElem} {p k : Nat} (h : GotUpTo sb w el p)
    (hk : k = 0 ∨ p + k < el.validBytes) (s : Session) :
    GotUpTo sb (w.deliver el (((w.drv.message sb el).drop p).take k) s) el (p + k) := by
  rw [GotUpTo, deliver_got_self, deliver_drv]
  rcases h with ⟨hgot, hle⟩ | ⟨hgot, hle⟩
  · refine .inl ⟨by rw [hgot, List.take_add], ?_⟩
    omega
  · obtain rfl : k = 0 := by omega
    exact .inr ⟨by rw [hgot, List.take_zero, List.append_nil], hle⟩

/-- Reading a message to its end leaves all of it received, or still nothing. -/
theorem GotUpTo.move {el : RcuElem} {p : Nat} (h : GotUpTo sb w el p) :
    w.got el.ndx ++ (w.drv.message sb el).drop p <+: w.drv.message sb el := by
  rcases h with ⟨hgot, -⟩ | ⟨hgot, hle⟩
  · exact ⟨[], by rw [hgot, List.take_append_drop, List.append_nil]⟩
  · rw [hgot, List.drop_eq_nil_iff.mpr (by rw [Driver.length_message]; exact hle)]
    exact List.nil_prefix

section

variable {el : RcuElem}

theorem got_deliver_of_mem (hd : DistinctNdx w.drv.validBlkList) (hel : el ∈ w.drv.validBlkList)
    {z : RcuElem} (hz : z ∈ w.drv.validBlkList) (hne : z ≠ el) (bytes : List Byte) (s : Session) :
    (w.deliver el bytes s).got z.ndx = w.got z.ndx :=
  deliver_got_of_ne w el bytes s fun heq => hne (hd.eq_of_ndx hz hel heq)

/-- A delivery that extends a prefix of its message leaves a prefix of every message. -/
theorem FromStart.deliver_got (h : FromStart sb w) (hd : DistinctNdx w.drv.validBlkList)
    (hel : el ∈ w.drv.validBlkList) {bytes : List Byte} (s : Session)
    (hpre : w.got el.ndx ++ bytes <+: w.drv.message sb el) :
    ∀ z ∈ (w.deliver el bytes s).drv.validBlkList,
      (w.deliver el bytes s).got z.ndx <+: (w.deliver el bytes s).drv.message sb z := by
  rw [deliver_drv]
  intro z hz
  by_cases heq : z = el
  · rw [heq, deliver_got_self]
    exact hpre
  · rw [got_deliver_of_mem hd hel hz heq]
    exact h.got z hz

end

theorem FromStart.read (h : FromStart sb w) (hr : Readable sb n w.sess w.drv) (r : Request) :
    FromStart sb (session.next w (.read r)) := by
  have hd := hr.inv.distinct
  have hmove := read_cases hr r
  generalize session.next w (.read r) = w' at hmove
  cases hmove with
  | idle hidle =>
    refine ⟨h.got, ?_⟩
    rcases hidle with ⟨rfl, -⟩ | ⟨-, rfl⟩
    · exact h.clean
    · exact .inl w.sess.advance_nil_over
  | @stay pre rest el p k hover hp hlt hk _ =>
    have hclean := h.clean.resolve_left hover
    have hgot := (hclean.got_picked hp).stay hk (w.sess.goto el.ndx (p + k))
    refine ⟨h.deliver_got hd hp.mem _ ?_, .inr ?_⟩
    · have hpre := hgot.isPrefix
      rw [deliver_got_self, deliver_drv] at hpre
      exact hpre
    · refine Clean.of_picked (deliver_sess w el _ _) (congrArg _ (deliver_drv w el _ _))
        (hp.goto hd hlt) hd (w.sess.goto_blk hlt) (w.sess.goto_pos hlt) ?_ hgot
      intro z hz
      rw [deliver_got_of_ne w el _ _ (hp.ndx_ne_of_mem_rest hd hz), hclean.got_rest hp z hz]
  | @move pre rest el p hover hp =>
    have hclean := h.clean.resolve_left hover
    refine ⟨h.deliver_got hd hp.mem _ (hclean.got_picked hp).move, ?_⟩
    cases rest with
    | nil =>
      rw [deliver_sess]
      exact .inl w.sess.advance_nil_over
    | cons nx rest =>
      have hrest : ∀ z ∈ nx :: rest, (w.deliver el ((w.drv.message sb el).drop p)
          (w.sess.advance (nx :: rest))).got z.ndx = [] := by
        intro z hz
        rw [deliver_got_of_ne w el _ _ (hp.ndx_ne_of_mem_rest hd hz), hclean.got_rest hp z hz]
      refine .inr (Clean.of_picked (deliver_sess w el _ _) (congrArg _ (deliver_drv w el _ _))
        (hp.advance hd hr.inv.sorted) hd (w.sess.advance_cons_blk nx rest)
        (w.sess.advance_cons_pos nx rest) (fun z hz => hrest z (List.mem_cons_of_mem _ hz)) ?_)
      exact .inl ⟨hrest nx List.mem_cons_self, Nat.zero_le _⟩

/-! ## Puts and invalidations -/

theorem Clean.put (h : Clean sb w) (hI : Inv sb n w.drv) {e : PutEnv} {m : List Byte} {k : Nat}
    (hfree : ∀ x ∈ w.drv.validBlkList, x.ndx ≠ k)
    (hlist : (w.afterPut e m).drv.validBlkList =
      addValidBlockInOrderSecure w.drv.validBlkList k m.length e.now)
    (hmsg : ∀ x ∈ w.drv.validBlkList, (w.afterPut e m).drv.message sb x = w.drv.message sb x)
    (hsess : (w.afterPut e m).sess = w.sess)
    (hgot : (w.afterPut e m).got = Function.update w.got k []) (hover : ¬ w.sess.Over)
    (hno : ¬ w.Disturbs k m.length e.now) : Clean sb (w.afterPut e m) := by
  have hsame : ∀ x ∈ w.drv.validBlkList, (w.afterPut e m).got x.ndx = w.got x.ndx := by
    intro x hx
    rw [hgot, Function.update_of_ne (hfree x hx)]
  have hnew : (w.afterPut e m).got k = [] := by rw [hgot, Function.update_self]
  have hno : ¬ (k = w.sess.blk ∧ 0 < w.sess.pos ∧ w.sess.pos < m.length) ∧
      ¬ ((k = w.sess.blk ∨ w.sess.nextTs.toInt < e.now.toInt) ∧
        ∃ y ∈ w.drv.validBlkList, w.got y.ndx ≠ [] ∧ e.now.toInt ≤ y.time) :=
    not_or.mp fun h => hno ⟨hover, h⟩
  refine ⟨?_, ?_, ?_⟩
  · -- the new node is put in front of nodes that nothing was received from, or the scan passes it
    have horder : w.drv.validBlkList.Pairwise fun x z =>
        (w.afterPut e m).got z.ndx ≠ [] → w.sess.Passes x :=
      h.order.imp_of_mem fun {x z} _ hz hxz => by rw [hsame z hz]; exact hxz
    rw [hsess, hlist, addValidBlockInOrderSecure]
    refine insertBack_pairwise hI.sorted horder (fun _ _ _ hne => absurd hnew hne) ?_
    intro z hz hle hne
    rw [hsame z hz] at hne
    by_contra hpass
    exact hno.2 ⟨Session.not_passes_iff.mp hpass, z, hz, hne, hle⟩
  · intro z hz
    rw [hsess]
    rw [hlist] at hz
    rcases mem_addValidBlock.mp hz with rfl | hz
    · intro hne
      exact absurd hnew hne
    · rw [hsame z hz]
      exact h.known z hz
  · -- a new node in the block of the position: at its start, or too short to be read from there
    intro z hz hblk
    rw [hsess] at hblk
    rw [hlist] at hz
    rw [hsess]
    rcases mem_addValidBlock.mp hz with rfl | hz
    · rcases Nat.eq_zero_or_pos w.sess.pos with hpos | hpos
      · rw [hpos]
        exact .inl ⟨hnew, Nat.zero_le _⟩
      · exact .inr ⟨hnew, Nat.le_of_not_lt fun hlt => hno.1 ⟨hblk, hpos, hlt⟩⟩
    · rw [GotUpTo, hsame z hz, hmsg z hz]
      exact h.inside z hz hblk

theorem FromStart.put (h : FromStart sb w) (hI : Inv sb n w.drv) {e : PutEnv} {m : List Byte}
    (hno : ∀ k, PutLands e m w.drv k → ¬ w.Disturbs k m.length e.now) :
    FromStart sb (w.afterPut e m) := by
  rcases put_cases hI e m with heq | ⟨k, hlands, hfree, hlist, hmsg, hsess, -, hgot, -⟩
  · rw [heq]
    exact h
  · refine ⟨?_, ?_⟩
    · intro z hz
      rw [hlist] at hz
      rw [hgot]
      rcases mem_addValidBlock.mp hz with rfl | hz
      · rw [Function.update_self]
        exact List.nil_prefix
      · rw [Function.update_of_ne (hfree z hz), hmsg z hz]
        exact h.got z hz
    · by_cases hover : w.sess.Over
      · rw [hsess]
        exact .inl hover
      · exact .inr ((h.clean.resolve_left hover).put hI hfree hlist hmsg hsess hgot hover
          (hno k hlands))

theorem FromStart.invalidate (h : FromStart sb w) (hI : Inv sb n w.drv) (bread : Bool)
    (offset : BitVec 32) : FromStart sb (session.next w (.invalidate bread offset)) := by
  obtain ⟨hsub, hmsg⟩ := invalidate_cases hI bread offset
  refine ⟨?_, h.clean.imp_right fun hc => ⟨?_, ?_, ?_⟩⟩
  · intro z hz
    show w.got z.ndx <+: (Bldms.invalidateData bread offset w.drv).2.message sb z
    rw [hmsg]
    exact h.got z (hsub.subset hz)
  · exact hc.order.sublist hsub
  · intro z hz
    exact hc.known z (hsub.subset hz)
  · intro z hz hblk
    have hin := hc.inside z (hsub.subset hz) hblk
    rw [GotUpTo, ← hmsg z] at hin
    exact hin

/-- The put of an event, if it is one, does not disturb the session. -/
def NotDisturbing (w : World) : Event → Prop
  | .put e m => ∀ k, PutLands e m w.drv k → ¬ w.Disturbs k m.length e.now
  | _ => True

theorem FromStart.step (h : FromStart sb w) (hr : Readable sb n w.sess w.drv) {ev : Event}
    (hno : w.NotDisturbing ev) : FromStart sb (session.next w ev) := by
  cases ev with
  | put e m => exact h.put hr.inv hno
  | invalidate bread offset => exact h.invalidate hr.inv bread offset
  | read r => exact h.read hr r

theorem fromStart_start (sb : Nat) (d : Driver) {s : Session} (hs : s.pos = 0) :
    FromStart sb (start d s) := by
  refine ⟨fun z _ => List.nil_prefix, .inr ⟨?_, fun z _ hne => absurd rfl hne, fun z _ _ => ?_⟩⟩
  · exact List.pairwise_of_forall_mem_list fun _ _ z _ hne => absurd rfl hne
  · refine .inl ⟨?_, ?_⟩
    · show [] = (d.message sb z).take s.pos
      rw [hs, List.take_zero]
    · show s.pos ≤ z.validBytes
      omega

end World

/-- **A session never starts a message in the middle.**  In every interleaving of the calls of one
    session with puts and invalidations in which no put disturbs the session, what it has received from
    each valid message is a prefix of it. -/
theorem whole_messages (cfg : Config) (sb : Nat) (d : Driver) (hd : Reachable cfg sb d)
    (hfit : d.MessagesFit) (s : Session) (hs : Opened sb d s) (events : List Event)
    (hno : session.AllSteps World.NotDisturbing (.start d s) events) :
    ∀ w ∈ session.states (.start d s) events, ∀ el ∈ w.drv.validBlkList,
      w.got el.ndx <+: w.drv.message sb el := by
  have hpos : s.pos = 0 := by
    rw [hs.eq]
    exact Nat.zero_sub 10
  have hinv := hno.invariant
    (P := fun w => Readable sb (d.blockCount sb) w.sess w.drv ∧ w.FromStart sb)
    (fun w ev hev hw => ⟨World.readable_step hw.1 ev, hw.2.step hw.1 hev⟩)
    ⟨World.readable_start hd hfit hs, World.fromStart_start sb d hpos⟩
  intro w hw
  exact (hinv w hw).2.got

/-- The expected block is reused between two calls, but nothing of it had been read yet: the new
    message is delivered from its beginning. -/
theorem whole_messages_reused_block :
    let d := driver.final (freshDriver 4) [.put (.allOk 4 10) [1], .put (.allOk 5 20) [2, 3],
      .put (.allOk 6 30) [4], .put (.allOk 7 40) [5], .invalidate true 2, .invalidate true 3]
    let events : List Event := [.read (.allOk 9), .invalidate true 1, .put (.allOk 8 50) [7, 8, 9],
      .read (.allOk 2)]
    (session.final (.start d (d.freshSession 0)) events).got 1 = [7, 8] ∧
    ∀ w ∈ session.states (.start d (d.freshSession 0)) events, ∀ el ∈ w.drv.validBlkList,
      w.got el.ndx <+: w.drv.message 0 el := by
  refine ⟨by decide, whole_messages .standard 0 _
    ⟨freshDriver 4, _, mounted_freshDriver .standard (by decide), rfl⟩ (by decide) _
    (opened_freshSession rfl) _ ?_⟩
  refine ⟨trivial, trivial, ?_, trivial, trivial⟩
  rintro k hk ⟨-, hdist⟩
  obtain rfl : 1 = k := Option.some.inj hk.2.2
  exact absurd hdist (by decide)

/-- Block 1 is half read, invalidated, and reused: the new message is delivered from its second byte. -/
theorem whole_messages_fails :
    let d := driver.final (freshDriver 4) [.put (.allOk 4 10) [1], .put (.allOk 5 20) [2, 3],
      .put (.allOk 6 30) [4], .put (.allOk 7 40) [5], .invalidate true 2, .invalidate true 3]
    let events : List Event := [.read (.allOk 9), .read (.allOk 1), .invalidate true 1,
      .put (.allOk 8 50) [7, 8, 9], .read (.allOk 9)]
    let w := session.final (.start d (d.freshSession 0)) events
    Reachable .standard 0 d ∧ d.MessagesFit ∧ Opened 0 d (d.freshSession 0) ∧
    (⟨1, 50, 3⟩ : RcuElem) ∈ w.drv.validBlkList ∧ w.drv.message 0 ⟨1, 50, 3⟩ = [7, 8, 9] ∧
    w.got 1 = [8, 9] ∧ ¬ w.got 1 <+: w.drv.message 0 ⟨1, 50, 3⟩ :=
  ⟨⟨freshDriver 4, _, mounted_freshDriver .standard (by decide), rfl⟩, by decide,
    opened_freshSession rfl, by decide, by decide, by decide, by decide⟩

end Bldms
