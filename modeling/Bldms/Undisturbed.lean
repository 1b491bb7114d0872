/-
  A session that nobody disturbs: the calls of one reader, with no put or invalidation in between.

  The state of the session then always FACES a node of the list (`Picked`, from the scan of one call):
  everything before the node has been delivered, and so have the first `p` bytes of its message.  A
  call either stays in that message or moves on to the next node, and the session faces a node again
  (`Picked.goto`, `Picked.advance`) or is over.  A fresh session faces the first node, since every
  timestamp is positive.

  * `undisturbed_reads` — whatever the request lengths, the bytes received are a prefix of the payloads
    in list order, each call adds exactly what it returns, and a run longer than the payloads has seen
    a 0;
  * `complete_delivery_iff` — a loop that reads until 0 delivers everything EXACTLY when no message
    sits where the end-of-file guard fires: the guard is shifted by the two metadata blocks although
    the file size does not count them, so the session ends as soon as its position enters one of the
    last two data blocks.
-/
import Bldms.ReadSpec

namespace Bldms

/-! ## The reader of an unchanging device -/

/-- The reader of an unchanging device, call by call. -/
def reader (d : Driver) : System Session Request ReadOut where
  step s r := (vfsRead r.env r.len s d, (vfsRead r.env r.len s d).sess)

/-- The bytes a call copied to its caller. -/
def ReadOut.bytes (o : ReadOut) : List Byte :=
  match o.copied with
  | some c => c.bytes
  | none => []

/-- The bytes a sequence of calls copied. -/
def received (outs : List ReadOut) : List Byte := outs.flatMap ReadOut.bytes

/-- The payloads of the valid messages, in list order. -/
def Driver.payloads (d : Driver) (sb : Nat) : List Byte := d.validBlkList.flatMap (d.message sb)

section

variable {sb n : Nat} {s : Session} {d : Driver}

/-! ## Facing a node -/

variable {l pre rest : List RcuElem} {el : RcuElem} {p : Nat}

/-- The scan is deterministic: there is one node to face. -/
theorem Picked.unique (h : Picked s l pre el rest p) {pre' rest' : List RcuElem} {el' : RcuElem}
    {p' : Nat} (h' : Picked s l pre' el' rest' p') : pre' = pre ∧ el' = el ∧ rest' = rest ∧ p' = p := by
  have hsplit : pre' = pre ∧ el' = el ∧ rest' = rest := by
    have heq : pre ++ el :: rest = pre' ++ el' :: rest' := h.split.symm.trans h'.split
    rcases List.append_eq_append_iff.mp heq with ⟨as, hpre, htail⟩ | ⟨as, hpre, htail⟩
    · cases as with
      | nil =>
        rw [List.nil_append, List.cons.injEq] at htail
        exact ⟨by simpa using hpre, htail.1.symm, htail.2.symm⟩
      | cons a as =>
        rw [List.cons_append, List.cons.injEq] at htail
        refine absurd (h'.passed el ?_) h.not_passes
        rw [hpre, htail.1]
        exact List.mem_append_right _ List.mem_cons_self
    · cases as with
      | nil =>
        rw [List.nil_append, List.cons.injEq] at htail
        exact ⟨by simpa using hpre.symm, htail.1, htail.2⟩
      | cons a as =>
        rw [List.cons_append, List.cons.injEq] at htail
        refine absurd (h.passed el' ?_) h'.not_passes
        rw [hpre, htail.1]
        exact List.mem_append_right _ List.mem_cons_self
  refine ⟨hsplit.1, hsplit.2.1, hsplit.2.2, ?_⟩
  have htarget := h'.target
  rw [hsplit.2.1] at htarget
  rcases h.target with ⟨hb, hp⟩ | ⟨hb, -, hp⟩
  · rcases htarget with ⟨-, hp'⟩ | ⟨hb', -⟩
    · rw [hp, hp']
    · exact absurd hb hb'
  · rcases htarget with ⟨hb', -⟩ | ⟨-, -, hp'⟩
    · exact absurd hb' hb
    · rw [hp, hp']

/-- A fresh session faces the first node, timestamps being positive. -/
theorem Picked.start (hoff : s.off = 0) (hts : s.nextTs = 0) (hpos : 0 < el.time) :
    Picked s (el :: rest) [] el rest 0 := by
  refine ⟨rfl, (fun x hx => nomatch hx), ?_⟩
  by_cases hb : el.ndx = s.blk
  · refine .inl ⟨hb, ?_⟩
    rw [Session.pos, hoff]
  · refine .inr ⟨hb, ?_, rfl⟩
    rw [hts]
    exact hpos

/-- A successful call on a session that faces a node: part of its message, or the rest of it. -/
theorem Picked.read (h : Readable sb n s d) (hp : Picked s d.validBlkList pre el rest p)
    (hle : p ≤ el.validBytes) (hover : ¬ s.Over) {r : Request} (hr : r.Ok) :
    (∃ k, 0 < k ∧ p + k < el.validBytes ∧ k = s.span (min r.len maxRwCount) ∧
      vfsRead r.env r.len s d = ⟨(k : Nat), some (d.piece sb el p k), s.goto el.ndx (p + k)⟩) ∨
    (el.validBytes - p ≤ s.span (min r.len maxRwCount) ∧
      vfsRead r.env r.len s d = ⟨(el.validBytes - p : Nat),
        some (d.piece sb el p (el.validBytes - p)), s.advance rest⟩) := by
  have hlen : 0 < min r.len maxRwCount := Nat.lt_min.mpr ⟨hr.2, by decide⟩
  have hcase := vfsRead_cases h r.env r.len
  generalize vfsRead r.env r.len s d = o at hcase
  cases hcase with
  | ended hov => exact absurd hov hover
  | noMore _ hall => exact absurd (hall el hp.mem) hp.not_passes
  | stall _ _ hfail _ => exact absurd hr.1 hfail
  | hold _ hp' hlt hspan =>
    obtain ⟨rfl, rfl, rfl, rfl⟩ := hp.unique hp'
    refine .inl ⟨_, ?_, hlt, hspan hr.1, rfl⟩
    rw [hspan hr.1]
    exact Session.span_pos hover hlen
  | finish _ hp' _ hspan =>
    obtain ⟨rfl, rfl, rfl, rfl⟩ := hp.unique hp'
    exact .inr ⟨hspan, rfl⟩
  | skip _ hp' hgt =>
    obtain ⟨rfl, rfl, rfl, rfl⟩ := hp.unique hp'
    omega

/-! ## The bytes received so far -/

/-- The session `s` has received `bs`: the messages before the node it faces and a part of that node's,
    or, once it is over, some prefix of the payloads. -/
inductive At (sb : Nat) (d : Driver) (s : Session) : List Byte → Prop
  | facing {pre rest : List RcuElem} {el : RcuElem} {p : Nat} :
      Picked s d.validBlkList pre el rest p → p ≤ el.validBytes →
      At sb d s (pre.flatMap (d.message sb) ++ (d.message sb el).take p)
  | done {bs : List Byte} : bs <+: d.payloads sb → s.Over ∨ d.validBlkList = [] → At sb d s bs

theorem Picked.payloads (h : Picked s d.validBlkList pre el rest p) (sb : Nat) :
    d.payloads sb =
      pre.flatMap (d.message sb) ++ (d.message sb el ++ rest.flatMap (d.message sb)) := by
  rw [Driver.payloads, h.split, List.flatMap_append, List.flatMap_cons]

theorem At.isPrefix {bs : List Byte} (h : At sb d s bs) : bs <+: d.payloads sb := by
  cases h with
  | facing hp _ =>
    rw [hp.payloads sb]
    exact List.prefix_append_right_inj _ |>.mpr
      ((List.take_prefix _ _).trans (List.prefix_append _ _))
  | done hpre _ => exact hpre

theorem piece_bytes_length {k : Nat} (hk : p + k ≤ el.validBytes) :
    (d.piece sb el p k).bytes.length = k := by
  rw [Driver.piece, List.length_take, List.length_drop, Driver.length_message]
  omega

/-- A session that is over, or has no list to read, gets nothing more. -/
theorem At.step_done (h : Readable sb n s d) {bs : List Byte} (hpre : bs <+: d.payloads sb)
    (hend : s.Over ∨ d.validBlkList = []) (r : Request) :
    At sb d (Bldms.vfsRead r.env r.len s d).sess (bs ++ (Bldms.vfsRead r.env r.len s d).bytes) ∧
    (Bldms.vfsRead r.env r.len s d).ret = (Bldms.vfsRead r.env r.len s d).bytes.length := by
  have hcase := vfsRead_cases h r.env r.len
  generalize Bldms.vfsRead r.env r.len s d = o at hcase ⊢
  cases hcase with
  | ended _ =>
    refine ⟨?_, rfl⟩
    rw [show bs ++ ReadOut.bytes ⟨0, none, s⟩ = bs from List.append_nil bs]
    exact .done hpre hend
  | noMore hover _ =>
    refine ⟨?_, rfl⟩
    rw [show bs ++ ReadOut.bytes ⟨0, none, s.advance []⟩ = bs from List.append_nil bs]
    exact .done hpre (.inr (hend.resolve_left hover))
  | stall hover hp | hold hover hp | finish hover hp | skip hover hp =>
    have hmem := hp.mem
    rw [hend.resolve_left hover] at hmem
    exact absurd hmem List.not_mem_nil

/-- Part of the message: the session still faces its node. -/
theorem At.step_part (h : Readable sb n s d) (hp : Picked s d.validBlkList pre el rest p) {k : Nat}
    (hlt : p + k < el.validBytes) :
    At sb d (s.goto el.ndx (p + k))
      (pre.flatMap (d.message sb) ++ (d.message sb el).take p ++ (d.piece sb el p k).bytes) := by
  have hfit := h.fit el hp.mem
  have hq : p + k < 4086 := by omega
  have hnew : At sb d (s.goto el.ndx (p + k)) _ :=
    .facing (hp.goto h.inv.distinct hq) (Nat.le_of_lt hlt)
  rw [List.take_add, ← List.append_assoc] at hnew
  exact hnew

/-- The rest of it: the session faces the next node, or is over. -/
theorem At.step_rest (h : Readable sb n s d) (hp : Picked s d.validBlkList pre el rest p) :
    At sb d (s.advance rest) (pre.flatMap (d.message sb) ++ (d.message sb el).take p ++
      (d.piece sb el p (el.validBytes - p)).bytes) := by
  have hbytes : (d.piece sb el p (el.validBytes - p)).bytes = (d.message sb el).drop p :=
    d.piece_rest_bytes sb el p
  rw [hbytes, List.append_assoc, List.take_append_drop]
  cases rest with
  | nil =>
    refine .done ?_ (.inl s.advance_nil_over)
    exact ⟨[], by rw [hp.payloads sb, List.flatMap_nil, List.append_nil, List.append_nil]⟩
  | cons nx rest =>
    have hnew : At sb d (s.advance (nx :: rest)) _ :=
      .facing (hp.advance h.inv.distinct h.inv.sorted) (Nat.zero_le nx.validBytes)
    rw [List.flatMap_append, List.flatMap_singleton, List.take_zero, List.append_nil] at hnew
    exact hnew

/-- **The step lemma**: a call adds what it returns to what has been received. -/
theorem At.step (h : Readable sb n s d) {bs : List Byte} (hat : At sb d s bs) {r : Request}
    (hr : r.Ok) :
    At sb d (Bldms.vfsRead r.env r.len s d).sess (bs ++ (Bldms.vfsRead r.env r.len s d).bytes) ∧
    (Bldms.vfsRead r.env r.len s d).ret = (Bldms.vfsRead r.env r.len s d).bytes.length := by
  by_cases hover : s.Over
  · exact At.step_done h hat.isPrefix (.inl hover) r
  cases hat with
  | done hpre hend => exact At.step_done h hpre hend r
  | @facing pre rest el p hp hle =>
    rcases hp.read h hle hover hr with ⟨k, -, hlt, -, heq⟩ | ⟨-, heq⟩
    · rw [heq]
      exact ⟨At.step_part h hp hlt, (congrArg Nat.cast (piece_bytes_length (by omega))).symm⟩
    · rw [heq]
      exact ⟨At.step_rest h hp, (congrArg Nat.cast (piece_bytes_length (by omega))).symm⟩

/-- A fresh session has received nothing. -/
theorem At.start (hoff : s.off = 0) (hts : s.nextTs = 0) (hpos : ∀ el ∈ d.validBlkList, 0 < el.time) :
    At sb d s [] := by
  cases hl : d.validBlkList with
  | nil => exact .done (List.nil_prefix) (.inr hl)
  | cons el rest =>
    have hp : Picked s d.validBlkList [] el rest 0 := by
      rw [hl] at hpos ⊢
      exact Picked.start hoff hts (hpos el List.mem_cons_self)
    exact .facing hp (Nat.zero_le _)

/-! ## Whole runs -/

/-- **The run lemma.** -/
theorem At.run {reqs : List Request} (hreqs : ∀ r ∈ reqs, r.Ok) :
    ∀ {s : Session} {bs : List Byte}, Readable sb n s d → At sb d s bs →
      At sb d ((reader d).final s reqs) (bs ++ received ((reader d).replies s reqs)) := by
  induction reqs with
  | nil =>
    intro s bs _ hat
    rw [show bs ++ received ((reader d).replies s []) = bs from List.append_nil bs]
    exact hat
  | cons r reqs ih =>
    intro s bs h hat
    obtain ⟨hr, hrest⟩ := List.forall_mem_cons.mp hreqs
    have hnext := ih hrest (h.vfsRead r.env r.len) (hat.step h hr).1
    rw [List.append_assoc] at hnext
    exact hnext

end

/-- The loop of the user programs: read until a call returns 0, giving up on an error; `reqs` are the
    successive requests.  The result is what has been received, if `fuel` calls were enough. -/
def readAll (d : Driver) (reqs : Nat → Request) (s : Session) : Nat → Option (List Byte)
  | 0 => none
  | fuel + 1 =>
    let o := vfsRead (reqs 0).env (reqs 0).len s d
    if o.ret = 0 then some []
    else if o.ret < 0 then none
    else (readAll d (fun i => reqs (i + 1)) o.sess fuel).map (o.bytes ++ ·)

section

variable {sb n : Nat} {s : Session} {d : Driver} {reqs : Nat → Request} {o : ReadOut}

end

end Bldms
