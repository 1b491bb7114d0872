/-
  What a `read` that returns 0 says.

  A caller takes 0 for the end of the messages.  The call also returns 0 for a message of no bytes, which
  `put_data` accepts, and then moves on to the next one.  And its first scan passes the messages at the
  head of the list that have no positive timestamp, unless it comes to block 0: they are never read.

  The session on an unchanging device is described by `Serving`: the messages passed at the start
  (`skipped`), those delivered, the one it faces, and those to come, with the bytes received of each.
  * `Serving.step`, `Serving.run` — every successful call keeps it so;
  * `Serving.zero`                — a call returns 0 only on an empty message or at the end;
  * `reach`                       — every message that is served can be the one to be read next;
  * `zero_means_end_iff`          — so a 0 says that everything has been delivered exactly when the passed
    messages are empty, and no message with bytes follows an empty one.
-/
import Bldms.Undisturbed

namespace Bldms

/-- The bytes a call has copied from the message of `el`. -/
def ReadOut.bytesOf (o : ReadOut) (el : RcuElem) : List Byte :=
  match o.copied with
  | some c => if c.el = el then c.bytes else []
  | none => []

/-- The bytes a sequence of calls has copied from the message of `el`. -/
def receivedOf (el : RcuElem) (outs : List ReadOut) : List Byte := outs.flatMap fun o => o.bytesOf el

/-- Every valid message has been delivered completely. -/
def Delivered (sb : Nat) (d : Driver) (outs : List ReadOut) : Prop :=
  ∀ el ∈ d.validBlkList, receivedOf el outs = d.message sb el

/-- A zero result means the end of the messages: when a successful call returns 0, the calls before it
    have delivered every valid message completely. -/
def ZeroMeansEnd (sb : Nat) (d : Driver) (s : Session) : Prop :=
  ∀ reqs r, (∀ q ∈ reqs, q.Ok) → r.Ok → ((reader d).step ((reader d).final s reqs) r).1.ret = 0 →
    Delivered sb d ((reader d).replies s reqs)

/-- The messages at the head of the list that the first scan of a session passes. -/
def Driver.passedAtStart (d : Driver) : List RcuElem :=
  d.validBlkList.takeWhile fun el => !(el.ndx == 0 || decide ((0 : Ktime).toInt < el.nsec.toInt))

/-- The messages from the one the first scan picks on. -/
def Driver.servedFromStart (d : Driver) : List RcuElem := selectTarget 0 0 d.validBlkList

theorem Driver.passed_append_served (d : Driver) :
    d.passedAtStart ++ d.servedFromStart = d.validBlkList := List.takeWhile_append_dropWhile

/-! ## The bytes of one message -/

section

variable {sb n : Nat} {s : Session} {d : Driver} {el x : RcuElem} {p : Nat}

theorem message_eq_nil_iff (sb : Nat) (d : Driver) (el : RcuElem) :
    d.message sb el = [] ↔ el.validBytes = 0 := by
  rw [← List.length_eq_zero_iff, Driver.length_message]

theorem bytesOf_piece_self (ret : Int) (k : Nat) :
    ReadOut.bytesOf ⟨ret, some (d.piece sb el p k), s⟩ el = ((d.message sb el).drop p).take k :=
  if_pos rfl

theorem bytesOf_piece_of_ne (h : x ≠ el) (ret : Int) (k : Nat) :
    ReadOut.bytesOf ⟨ret, some (d.piece sb el p k), s⟩ x = [] :=
  if_neg fun heq => h heq.symm

theorem Picked.ne_of_mem_pre {l pre rest : List RcuElem} (h : Picked s l pre el rest p)
    (hx : x ∈ pre) : x ≠ el := by
  rintro rfl
  exact h.not_passes (h.passed x hx)

theorem Picked.ne_of_mem_rest {l pre rest : List RcuElem} (h : Picked s l pre el rest p)
    (hd : DistinctNdx l) (hx : x ∈ rest) : x ≠ el := by
  rintro rfl
  exact h.ndx_ne_of_mem_rest hd hx rfl

end

/-! ## The session, message by message -/

/-- Where the session is, and what it has received of each message: nothing of those it passed at the
    start, all of those delivered, a part of the one it faces, nothing of those to come. -/
inductive Serving (sb : Nat) (d : Driver) (skipped : List RcuElem) (s : Session)
    (got : RcuElem → List Byte) : Prop
  | facing {delivered rest : List RcuElem} {el : RcuElem} {p : Nat} : ¬ s.Over →
      Picked s d.validBlkList (skipped ++ delivered) el rest p → p < el.validBytes ∨ p = 0 →
      (∀ x ∈ delivered, got x = d.message sb x) → got el = (d.message sb el).take p →
      (∀ x ∈ skipped, got x = []) → (∀ x ∈ rest, got x = []) → Serving sb d skipped s got
  | finished {delivered : List RcuElem} : d.validBlkList = skipped ++ delivered →
      s.Over ∨ (∀ x ∈ d.validBlkList, s.Passes x) →
      (∀ x ∈ delivered, got x = d.message sb x) → (∀ x ∈ skipped, got x = []) →
      Serving sb d skipped s got

section

variable {sb n : Nat} {s : Session} {d : Driver} {skipped : List RcuElem} {got : RcuElem → List Byte}

/-- Away from the last two blocks the end-of-file guard does not fire. -/
theorem Readable.not_over (h : Readable sb n s d) (hlow : s.blk + 2 < n) : ¬ s.Over := by
  have hcount := h.count
  rw [Session.blk] at hlow
  rw [Session.Over]
  omega

/-- A session with nothing left to face stays so, and its calls return 0. -/
theorem read_finished (h : Readable sb n s d)
    (hend : s.Over ∨ ∀ x ∈ d.validBlkList, s.Passes x) (r : Request) :
    (Bldms.vfsRead r.env r.len s d).ret = 0 ∧ (Bldms.vfsRead r.env r.len s d).copied = none ∧
    (Bldms.vfsRead r.env r.len s d).sess.Over := by
  have hcase := vfsRead_cases h r.env r.len
  generalize Bldms.vfsRead r.env r.len s d = o at hcase ⊢
  cases hcase with
  | ended hover => exact ⟨rfl, rfl, hover⟩
  | noMore _ _ => exact ⟨rfl, rfl, s.advance_nil_over⟩
  | stall hover hp | hold hover hp | finish hover hp | skip hover hp =>
    exact absurd (hend.resolve_left hover _ hp.mem) hp.not_passes

/-- A read of a session with nothing left to face delivers nothing. -/
theorem Serving.step_finished (h : Readable sb n s d) {delivered : List RcuElem}
    (hsplit : d.validBlkList = skipped ++ delivered) (hend : s.Over ∨ ∀ x ∈ d.validBlkList, s.Passes x)
    (hdel : ∀ x ∈ delivered, got x = d.message sb x) (hskip : ∀ x ∈ skipped, got x = []) (r : Request) :
    Serving sb d skipped (Bldms.vfsRead r.env r.len s d).sess
      fun x => got x ++ (Bldms.vfsRead r.env r.len s d).bytesOf x := by
  obtain ⟨-, hcopied, hover⟩ := read_finished h hend r
  have hnone : ∀ x, (Bldms.vfsRead r.env r.len s d).bytesOf x = [] := by
    intro x
    rw [ReadOut.bytesOf, hcopied]
  refine .finished hsplit (.inl hover) ?_ ?_
  · intro x hx
    rw [hnone, List.append_nil]
    exact hdel x hx
  · intro x hx
    rw [hnone, List.append_nil]
    exact hskip x hx

/-- A piece of the message the session faces says nothing about the others. -/
theorem Picked.bytesOf_others (h : Readable sb n s d) {pre rest : List RcuElem} {el x : RcuElem} {p : Nat}
    (hp : Picked s d.validBlkList pre el rest p) (hx : x ∈ pre ∨ x ∈ rest) (ret : Int) (k : Nat)
    (s' : Session) : got x ++ ReadOut.bytesOf ⟨ret, some (d.piece sb el p k), s'⟩ x = got x := by
  have hne : x ≠ el := by
    rcases hx with hx | hx
    · exact hp.ne_of_mem_pre hx
    · exact hp.ne_of_mem_rest h.inv.distinct hx
  rw [bytesOf_piece_of_ne hne, List.append_nil]

/-- A read that copies part of the message: the session still faces it. -/
theorem Serving.step_part (h : Readable sb n s d) (hlow : ∀ x ∈ d.validBlkList, x.ndx + 2 < n)
    {delivered rest : List RcuElem} {el : RcuElem} {p k : Nat}
    (hp : Picked s d.validBlkList (skipped ++ delivered) el rest p) (hlt : p + k < el.validBytes)
    (hdel : ∀ x ∈ delivered, got x = d.message sb x) (hel : got el = (d.message sb el).take p)
    (hskip : ∀ x ∈ skipped, got x = []) (hrest : ∀ x ∈ rest, got x = []) (ret : Int) :
    Serving sb d skipped (s.goto el.ndx (p + k)) fun x =>
      got x ++ ReadOut.bytesOf ⟨ret, some (d.piece sb el p k), s.goto el.ndx (p + k)⟩ x := by
  have hfit := h.fit el hp.mem
  have hq : p + k < 4086 := by omega
  refine .facing ?_ (hp.goto h.inv.distinct hq) (.inl hlt) ?_ ?_ ?_ ?_
  · refine (h.of_ino (s.goto_ino _ _)).not_over ?_
    rw [s.goto_blk hq]
    exact hlow el hp.mem
  · intro x hx
    rw [hp.bytesOf_others h (.inl (List.mem_append_right _ hx))]
    exact hdel x hx
  · rw [bytesOf_piece_self, hel, List.take_add]
  · intro x hx
    rw [hp.bytesOf_others h (.inl (List.mem_append_left _ hx))]
    exact hskip x hx
  · intro x hx
    rw [hp.bytesOf_others h (.inr hx)]
    exact hrest x hx

/-- A read that copies what is left of the message: on to the next one. -/
theorem Serving.step_rest (h : Readable sb n s d) (hlow : ∀ x ∈ d.validBlkList, x.ndx + 2 < n)
    {delivered rest : List RcuElem} {el : RcuElem} {p : Nat}
    (hp : Picked s d.validBlkList (skipped ++ delivered) el rest p)
    (hdel : ∀ x ∈ delivered, got x = d.message sb x) (hel : got el = (d.message sb el).take p)
    (hskip : ∀ x ∈ skipped, got x = []) (hrest : ∀ x ∈ rest, got x = []) (ret : Int) :
    Serving sb d skipped (s.advance rest) fun x =>
      got x ++ ReadOut.bytesOf ⟨ret, some (d.piece sb el p (el.validBytes - p)), s.advance rest⟩ x := by
  have hall : ∀ x ∈ delivered ++ [el], got x ++ ReadOut.bytesOf ⟨ret,
      some (d.piece sb el p (el.validBytes - p)), s.advance rest⟩ x = d.message sb x := by
    intro x hx
    rcases List.mem_append.mp hx with hx | hx
    · rw [hp.bytesOf_others h (.inl (List.mem_append_right _ hx))]
      exact hdel x hx
    · rw [List.mem_singleton.mp hx, bytesOf_piece_self, hel]
      have hbytes : ((d.message sb el).drop p).take (el.validBytes - p) = (d.message sb el).drop p :=
        d.piece_rest_bytes sb el p
      rw [hbytes, List.take_append_drop]
  have hnone : ∀ x ∈ skipped, got x ++ ReadOut.bytesOf ⟨ret,
      some (d.piece sb el p (el.validBytes - p)), s.advance rest⟩ x = [] := by
    intro x hx
    rw [hp.bytesOf_others h (.inl (List.mem_append_left _ hx))]
    exact hskip x hx
  cases rest with
  | nil =>
    refine .finished ?_ (.inl s.advance_nil_over) hall hnone
    rw [hp.split, List.append_assoc]
  | cons nx rest =>
    have hnext := hp.advance h.inv.distinct h.inv.sorted
    rw [List.append_assoc] at hnext
    refine .facing ?_ hnext (.inr rfl) hall ?_ hnone ?_
    · refine (h.of_ino (s.advance_ino _)).not_over ?_
      rw [Session.advance_cons_blk]
      exact hlow nx (hp.mem_of_mem_rest List.mem_cons_self)
    · rw [hp.bytesOf_others h (.inr List.mem_cons_self), List.take_zero]
      exact hrest nx List.mem_cons_self
    · intro x hx
      rw [hp.bytesOf_others h (.inr (List.mem_cons_of_mem _ hx))]
      exact hrest x (List.mem_cons_of_mem _ hx)

/-- **The step lemma.** -/
theorem Serving.step (h : Readable sb n s d) (hlow : ∀ x ∈ d.validBlkList, x.ndx + 2 < n)
    (hs : Serving sb d skipped s got) {r : Request} (hr : r.Ok) :
    Serving sb d skipped (Bldms.vfsRead r.env r.len s d).sess
      fun x => got x ++ (Bldms.vfsRead r.env r.len s d).bytesOf x := by
  cases hs with
  | finished hsplit hend hdel hskip => exact Serving.step_finished h hsplit hend hdel hskip r
  | @facing delivered rest el p hover hp hpos hdel hel hskip hrest =>
    have hle : p ≤ el.validBytes := by omega
    rcases hp.read h hle hover hr with ⟨k, -, hlt, -, heq⟩ | ⟨-, heq⟩
    · rw [heq]
      exact Serving.step_part h hlow hp hlt hdel hel hskip hrest _
    · rw [heq]
      exact Serving.step_rest h hlow hp hdel hel hskip hrest _

/-- **The run lemma.** -/
theorem Serving.run {reqs : List Request} (hlow : ∀ x ∈ d.validBlkList, x.ndx + 2 < n)
    (hreqs : ∀ r ∈ reqs, r.Ok) :
    ∀ {s : Session} {got : RcuElem → List Byte}, Readable sb n s d → Serving sb d skipped s got →
      Readable sb n ((reader d).final s reqs) d ∧
      Serving sb d skipped ((reader d).final s reqs)
        fun x => got x ++ receivedOf x ((reader d).replies s reqs) := by
  induction reqs with
  | nil =>
    intro s got h hs
    have hnil : (fun x => got x ++ receivedOf x ((reader d).replies s [])) = got := by
      funext x
      exact List.append_nil _
    rw [hnil]
    exact ⟨h, hs⟩
  | cons r reqs ih =>
    intro s got h hs
    obtain ⟨hr, hrest⟩ := List.forall_mem_cons.mp hreqs
    obtain ⟨hread, hnext⟩ := ih hrest (h.vfsRead r.env r.len) (hs.step h hlow hr)
    refine ⟨hread, ?_⟩
    simp only [List.append_assoc] at hnext
    exact hnext

/-- A call returns 0 only at the end, or on an empty message with the session at its start. -/
theorem Serving.zero (h : Readable sb n s d) (hs : Serving sb d skipped s got) {r : Request}
    (hr : r.Ok) (hzero : (Bldms.vfsRead r.env r.len s d).ret = 0) :
    ∃ delivered rest, d.validBlkList = skipped ++ (delivered ++ rest) ∧
      (∀ x ∈ delivered, got x = d.message sb x) ∧ (∀ x ∈ skipped, got x = []) ∧
      (∀ x ∈ rest, got x = []) ∧ ∀ el rest', rest = el :: rest' → el.validBytes = 0 := by
  cases hs with
  | @finished delivered hsplit _ hdel hskip =>
    refine ⟨delivered, [], by rw [hsplit, List.append_nil], hdel, hskip, ?_, ?_⟩
    · intro x hx
      cases hx
    · intro el rest' hnil
      cases hnil
  | @facing delivered rest el p hover hp hpos hdel hel hskip hrest =>
    have hempty : el.validBytes = 0 ∧ p = 0 := by
      rcases hp.read h (by omega) hover hr with ⟨k, hk, -, -, heq⟩ | ⟨-, heq⟩
      · rw [heq] at hzero
        have hk0 : (k : Int) = 0 := hzero
        omega
      · rw [heq] at hzero
        have hleft : ((el.validBytes - p : Nat) : Int) = 0 := hzero
        omega
    refine ⟨delivered, el :: rest, by rw [hp.split, List.append_assoc], hdel, hskip, ?_, ?_⟩
    · refine List.forall_mem_cons.mpr ⟨?_, hrest⟩
      rw [hel, hempty.2, List.take_zero]
    · intro el' rest' heq
      rw [← (List.cons.inj heq).1]
      exact hempty.1

theorem Serving.got_skipped (hs : Serving sb d skipped s got) : ∀ x ∈ skipped, got x = [] := by
  cases hs with
  | facing _ _ _ _ _ hskip _ => exact hskip
  | finished _ _ _ hskip => exact hskip

/-- Nothing has been received of the messages after the one the session faces. -/
theorem Serving.got_rest (hs : Serving sb d skipped s got) {pre rest : List RcuElem} {el : RcuElem}
    {p : Nat} (hp : Picked s d.validBlkList pre el rest p) (hover : ¬ s.Over) :
    ∀ x ∈ rest, got x = [] := by
  cases hs with
  | facing _ hp' _ _ _ _ hrest =>
    obtain ⟨-, -, rfl, -⟩ := hp.unique hp'
    exact hrest
  | finished _ hend _ _ => exact absurd (hend.resolve_left hover el hp.mem) hp.not_passes

/-- A session at the start of a message takes all of it with one call of 4086 bytes. -/
theorem Picked.read_whole {pre rest : List RcuElem} {el : RcuElem} (h : Readable sb n s d)
    (hp : Picked s d.validBlkList pre el rest 0) (hover : ¬ s.Over) (hpos : s.pos = 0) :
    (reader d).next s (.allOk 4086) = s.advance rest := by
  have hfit := h.fit el hp.mem
  have hok : (Request.allOk 4086).Ok := Request.allOk_ok (by omega)
  show (Bldms.vfsRead (Request.allOk 4086).env (Request.allOk 4086).len s d).sess = _
  rcases hp.read h (Nat.zero_le _) hover hok with ⟨k, -, hlt, hspan, -⟩ | ⟨-, heq⟩
  · -- the span of such a request is a whole payload
    have hlong : s.span (min (Request.allOk 4086).len maxRwCount) = 4086 := by
      have hover : s.off + 8192 < s.ino.iSize := Nat.lt_of_not_le hover
      show s.span (min 4086 0x7ffff000) = 4086
      rw [Session.span, hpos]
      split <;> omega
    rw [hlong] at hspan
    omega
  · rw [heq]

/-- On an empty message a call returns 0. -/
theorem Picked.read_empty {pre rest : List RcuElem} {el : RcuElem} (h : Readable sb n s d)
    (hp : Picked s d.validBlkList pre el rest 0) (hover : ¬ s.Over) (hempty : el.validBytes = 0)
    {r : Request} (hr : r.Ok) : ((reader d).step s r).1.ret = 0 := by
  show (Bldms.vfsRead r.env r.len s d).ret = 0
  rcases hp.read h (Nat.zero_le _) hover hr with ⟨k, -, hlt, -, -⟩ | ⟨-, heq⟩
  · omega
  · rw [heq, hempty]
    rfl

/-- Reading whole messages, a session comes to any of those that are served. -/
theorem reach {el : RcuElem} {rest : List RcuElem} (hlow : ∀ x ∈ d.validBlkList, x.ndx + 2 < n) :
    ∀ {delivered : List RcuElem} {pre : List RcuElem} {s : Session} {x : RcuElem} {tail : List RcuElem},
      Readable sb n s d → Picked s d.validBlkList pre x tail 0 → ¬ s.Over → s.pos = 0 →
      x :: tail = delivered ++ el :: rest →
      let t := (reader d).final s (List.replicate delivered.length (.allOk 4086))
      Readable sb n t d ∧ Picked t d.validBlkList (pre ++ delivered) el rest 0 ∧ ¬ t.Over ∧ t.pos = 0 := by
  intro delivered
  induction delivered with
  | nil =>
    intro pre s x tail h hp hover hpos hsplit
    obtain ⟨rfl, rfl⟩ := List.cons.inj hsplit
    rw [List.append_nil]
    exact ⟨h, hp, hover, hpos⟩
  | cons y delivered ih =>
    intro pre s x tail h hp hover hpos hsplit
    rw [List.cons_append] at hsplit
    obtain ⟨rfl, rfl⟩ := List.cons.inj hsplit
    have hnext := hp.read_whole h hover hpos
    -- there is a next message, since `el` is still to come
    obtain ⟨nx, tail, htail⟩ : ∃ nx tail, delivered ++ el :: rest = nx :: tail := by
      cases delivered with
      | nil => exact ⟨el, rest, rfl⟩
      | cons z zs => exact ⟨z, zs ++ el :: rest, rfl⟩
    rw [htail] at hp hnext
    have h' : Readable sb n (s.advance (nx :: tail)) d := h.of_ino (s.advance_ino _)
    have hover' : ¬ (s.advance (nx :: tail)).Over := by
      refine h'.not_over ?_
      rw [Session.advance_cons_blk]
      exact hlow nx (hp.mem_of_mem_rest List.mem_cons_self)
    have hreach := ih h' (hp.advance h.inv.distinct h.inv.sorted) hover'
      (s.advance_cons_pos nx tail) htail.symm
    rw [← hnext, List.append_assoc] at hreach
    exact hreach

/-- A fresh session passes the head of the list and faces the first message it serves, if there is one. -/
theorem start_cases (hoff : s.off = 0) (hts : s.nextTs = 0) :
    (∀ x ∈ d.passedAtStart, s.Passes x) ∧
    ∀ el rest, d.servedFromStart = el :: rest →
      Picked s d.validBlkList d.passedAtStart el rest 0 := by
  have hblk : s.blk = 0 := by rw [Session.blk, hoff]
  have hpass : ∀ x ∈ d.passedAtStart, s.Passes x := by
    intro x hx
    have himp := List.mem_takeWhile_imp hx
    simp only [Bool.not_eq_true', Bool.or_eq_false_iff, beq_eq_false_iff_ne,
      decide_eq_false_iff_not, not_lt] at himp
    rw [Session.Passes, hblk, hts]
    exact himp
  refine ⟨hpass, fun el rest hserved => ⟨?_, hpass, ?_⟩⟩
  · rw [← hserved, d.passed_append_served]
  · have hstop := List.head?_dropWhile_not
      (fun el : RcuElem => !(el.ndx == 0 || decide ((0 : Ktime).toInt < el.nsec.toInt))) d.validBlkList
    rw [show List.dropWhile _ d.validBlkList = el :: rest from hserved] at hstop
    have htarget : el.ndx = 0 ∨ (0 : Ktime).toInt < el.nsec.toInt := by
      simpa [or_iff_not_imp_left] using hstop
    rw [hblk, hts, Session.pos, hoff]
    by_cases hndx : el.ndx = 0
    · exact .inl ⟨hndx, rfl⟩
    · exact .inr ⟨hndx, htarget.resolve_left hndx, rfl⟩

/-- With messages below the last two blocks, the guard does not fire on a fresh session. -/
theorem Readable.start_not_over (h : Readable sb n s d)
    (hlow : ∀ x ∈ d.validBlkList, x.ndx + 2 < n) (hoff : s.off = 0) {x : RcuElem}
    (hx : x ∈ d.validBlkList) : ¬ s.Over := by
  have hx := hlow x hx
  refine h.not_over ?_
  rw [Session.blk, hoff]
  omega

theorem Serving.start (hlow : ∀ x ∈ d.validBlkList, x.ndx + 2 < n) (h : Readable sb n s d)
    (hoff : s.off = 0) (hts : s.nextTs = 0) : Serving sb d d.passedAtStart s fun _ => [] := by
  obtain ⟨hpass, hpick⟩ := start_cases (d := d) hoff hts
  have hnone : ∀ x ∈ ([] : List RcuElem), [] = d.message sb x := fun x hx => absurd hx List.not_mem_nil
  cases hserved : d.servedFromStart with
  | nil =>
    have hsplit : d.validBlkList = d.passedAtStart ++ [] := by
      rw [← hserved, d.passed_append_served]
    refine .finished hsplit (.inr ?_) hnone fun _ _ => rfl
    rw [hsplit, List.append_nil]
    exact hpass
  | cons el rest =>
    have hp : Picked s d.validBlkList (d.passedAtStart ++ []) el rest 0 := by
      rw [List.append_nil]
      exact hpick el rest hserved
    exact .facing (h.start_not_over hlow hoff hp.mem) hp (.inr rfl) hnone rfl (fun _ _ => rfl)
      fun _ _ => rfl

/-- A fresh session comes to any message that is served, by whole messages. -/
theorem reach_from_start (hlow : ∀ x ∈ d.validBlkList, x.ndx + 2 < n) (h : Readable sb n s d)
    (hoff : s.off = 0) (hts : s.nextTs = 0) {delivered rest : List RcuElem} {el : RcuElem}
    (hserved : d.servedFromStart = delivered ++ el :: rest) :
    let t := (reader d).final s (List.replicate delivered.length (.allOk 4086))
    Readable sb n t d ∧ Picked t d.validBlkList (d.passedAtStart ++ delivered) el rest 0 ∧
      ¬ t.Over ∧ t.pos = 0 := by
  obtain ⟨x, tail, hhead⟩ : ∃ x tail, d.servedFromStart = x :: tail := by
    rw [hserved]
    cases delivered with
    | nil => exact ⟨el, rest, rfl⟩
    | cons z zs => exact ⟨z, zs ++ el :: rest, rfl⟩
  have hp := (start_cases (d := d) hoff hts).2 x tail hhead
  have hpos : s.pos = 0 := by rw [Session.pos, hoff]
  exact reach hlow h hp (h.start_not_over hlow hoff hp.mem) hpos (hhead.symm.trans hserved)

/-- Having read as many whole messages as are served, the session faces nothing any more. -/
theorem finishes (hlow : ∀ x ∈ d.validBlkList, x.ndx + 2 < n) (h : Readable sb n s d)
    (hoff : s.off = 0) (hts : s.nextTs = 0) :
    let t := (reader d).final s (List.replicate d.servedFromStart.length (.allOk 4086))
    t.Over ∨ ∀ x ∈ d.validBlkList, t.Passes x := by
  rcases List.eq_nil_or_concat d.servedFromStart with hnil | ⟨delivered, el, hserved⟩
  · right
    rw [hnil, ← d.passed_append_served, hnil, List.append_nil]
    exact (start_cases (d := d) hoff hts).1
  · left
    rw [List.concat_eq_append] at hserved
    obtain ⟨h', hp, hover, hpos⟩ := reach_from_start hlow h hoff hts hserved
    rw [hserved, List.length_append, List.length_singleton, List.replicate_add, System.final_append]
    show ((reader d).next _ (.allOk 4086)).Over
    rw [hp.read_whole h' hover hpos]
    exact Session.advance_nil_over _

end

/-- No valid message is passed at the start with its bytes unread, and none with bytes follows an empty
    one among those that are served. -/
def Driver.NoBytesAfterZero (d : Driver) : Prop :=
  (∀ el ∈ d.passedAtStart, el.validBytes = 0) ∧
  d.servedFromStart.Pairwise fun x y => x.validBytes = 0 → y.validBytes = 0

instance (d : Driver) : Decidable d.NoBytesAfterZero :=
  inferInstanceAs (Decidable (_ ∧ List.Pairwise _ _))

section

variable {sb n : Nat} {s : Session} {d : Driver}

theorem allOk_replicate (k : Nat) : ∀ q ∈ List.replicate k (Request.allOk 4086), q.Ok := by
  intro q hq
  rw [List.eq_of_mem_replicate hq]
  exact Request.allOk_ok (by omega)

/-- Everything that is served is read, and the next call returns 0: what was passed had no bytes. -/
theorem ZeroMeansEnd.passed_empty (hzero : ZeroMeansEnd sb d s) (hlow : ∀ x ∈ d.validBlkList, x.ndx + 2 < n)
    (h : Readable sb n s d) (hoff : s.off = 0) (hts : s.nextTs = 0) :
    ∀ x ∈ d.passedAtStart, x.validBytes = 0 := by
  intro x hx
  have hmem : x ∈ d.validBlkList := by
    rw [← d.passed_append_served]
    exact List.mem_append_left _ hx
  have hall := allOk_replicate d.servedFromStart.length
  obtain ⟨hread, hserving⟩ := (Serving.start hlow h hoff hts).run hlow hall h
  have hret := (read_finished hread (finishes hlow h hoff hts) (.allOk 4086)).1
  have hdel := hzero _ (.allOk 4086) hall (Request.allOk_ok (by omega)) hret x hmem
  rw [← message_eq_nil_iff sb d, ← hdel]
  exact hserving.got_skipped x hx

/-- An empty message is come to, and the next call returns 0: what comes after it has no bytes. -/
theorem ZeroMeansEnd.rest_empty (hzero : ZeroMeansEnd sb d s) (hlow : ∀ x ∈ d.validBlkList, x.ndx + 2 < n)
    (h : Readable sb n s d) (hoff : s.off = 0) (hts : s.nextTs = 0) {delivered rest : List RcuElem}
    {x : RcuElem} (hserved : d.servedFromStart = delivered ++ x :: rest) (hx : x.validBytes = 0) :
    ∀ y ∈ rest, y.validBytes = 0 := by
  intro y hy
  have hall := allOk_replicate delivered.length
  have hok : (Request.allOk 4086).Ok := Request.allOk_ok (by omega)
  obtain ⟨hread, hp, hover, -⟩ := reach_from_start hlow h hoff hts hserved
  have hserving := ((Serving.start hlow h hoff hts).run hlow hall h).2
  have hdel := hzero _ (.allOk 4086) hall hok (hp.read_empty hread hover hx hok) y (hp.mem_of_mem_rest hy)
  rw [← message_eq_nil_iff sb d, ← hdel]
  exact hserving.got_rest hp hover y hy

/-- From an empty message on there is nothing but empty messages. -/
theorem empty_from {delivered rest : List RcuElem}
    (hserved : (delivered ++ rest).Pairwise fun x y => x.validBytes = 0 → y.validBytes = 0)
    (hhead : ∀ el rest', rest = el :: rest' → el.validBytes = 0) : ∀ x ∈ rest, x.validBytes = 0 := by
  cases rest with
  | nil => exact fun x hx => absurd hx List.not_mem_nil
  | cons y rest =>
    have hy := hhead y rest rfl
    have hafter := (List.pairwise_cons.mp (List.pairwise_append.mp hserved).2.1).1
    exact List.forall_mem_cons.mpr ⟨hy, fun x hx => hafter x hx hy⟩

end

/-- **A zero result and the end of the messages.**  In every mounted state whose valid messages lie below
    the last two blocks, of any size `put_data` accepts: a fresh session that nobody disturbs gets 0 only
    after every valid message has been delivered completely, whatever lengths it asks for, if and only if
    the messages its first scan passes are empty and no message with bytes follows an empty one. -/
theorem zero_means_end_iff (cfg : Config) (sb : Nat) (d : Driver) (hd : Reachable cfg sb d)
    (hfit : d.MessagesFit) (hlow : ∀ el ∈ d.validBlkList, el.ndx + 2 < d.blockCount sb) (s : Session)
    (hs : Opened sb d s) : ZeroMeansEnd sb d s ↔ d.NoBytesAfterZero := by
  have h := hs.readable hd hfit
  have hoff : s.off = 0 := by rw [hs.eq]; rfl
  have hts : s.nextTs = 0 := by rw [hs.eq]; rfl
  constructor
  · intro hzero
    refine ⟨hzero.passed_empty hlow h hoff hts, ?_⟩
    rw [List.pairwise_iff_forall_sublist]
    intro x y hxy hx
    obtain ⟨r₁, r₂, hcut, hxr, hyr⟩ := List.cons_sublist_iff.mp hxy
    obtain ⟨delivered, r₃, rfl⟩ := List.append_of_mem hxr
    have hserved : d.servedFromStart = delivered ++ x :: (r₃ ++ r₂) := by
      rw [hcut, List.append_assoc, List.cons_append]
    have hy : y ∈ r₃ ++ r₂ := List.mem_append_right _ (List.singleton_sublist.mp hyr)
    exact hzero.rest_empty hlow h hoff hts hserved hx y hy
  · rintro ⟨hpassed, hserved⟩ reqs r hreqs hr hret
    obtain ⟨hread, hserving⟩ := (Serving.start hlow h hoff hts).run hlow hreqs h
    obtain ⟨delivered, rest, hsplit, hdel, hskip, hrest, hhead⟩ := hserving.zero hread hr hret
    have hcut : d.servedFromStart = delivered ++ rest := by
      rw [← d.passed_append_served] at hsplit
      exact List.append_cancel_left hsplit
    rw [hcut] at hserved
    have hempty := empty_from hserved hhead
    intro x hx
    rw [hsplit] at hx
    rcases List.mem_append.mp hx with hx | hx
    · rw [(message_eq_nil_iff sb d _).mpr (hpassed x hx)]
      exact hskip x hx
    · rcases List.mem_append.mp hx with hx | hx
      · exact hdel x hx
      · rw [(message_eq_nil_iff sb d _).mpr (hempty x hx)]
        exact hrest x hx

/-- Two messages and an empty one after them, on a device of five blocks: the 0 comes at the end. -/
theorem zero_means_end_five_blocks :
    let d := driver.final (freshDriver 5) [.put (.allOk 5 10) [1, 2], .put (.allOk 6 20) [3],
      .put (.allOk 7 30) []]
    ((reader d).replies (d.freshSession 0) [.allOk 1, .allOk 9, .allOk 9, .allOk 9]).map ReadOut.ret =
      [1, 1, 1, 0] ∧ ZeroMeansEnd 0 d (d.freshSession 0) := by
  intro d
  have hreach : Reachable .standard 0 d :=
    ⟨freshDriver 5, _, mounted_freshDriver .standard (by decide), rfl⟩
  exact ⟨by decide, (zero_means_end_iff .standard 0 d hreach (by decide) (by decide) _
    (opened_freshSession rfl)).mpr (by decide)⟩

/-- An empty message in front of one with a byte: the first call returns 0, and nothing has been
    delivered. -/
theorem zero_means_end_fails :
    let d := driver.final (freshDriver 5) [.put (.allOk 5 10) [], .put (.allOk 6 20) [1]]
    Mounted .standard 0 (freshDriver 5) ∧ ¬ ZeroMeansEnd 0 d (d.freshSession 0) := by
  refine ⟨mounted_freshDriver .standard (by decide), fun h => ?_⟩
  have hdel := h [] (.allOk 9) (fun q hq => absurd hq List.not_mem_nil) (Request.allOk_ok (by decide))
    (by decide) ⟨1, 20, 1⟩ (by decide)
  exact absurd hdel (by decide)

end Bldms
