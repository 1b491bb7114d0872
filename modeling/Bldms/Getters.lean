/-
  `get_data` between its lookup and its copy.

  Inside its RCU read-side section `get_data` first finds the node of the block and remembers its
  length, then reads the block.  An invalidation in between makes the block free AT ONCE: only its
  return, and the release of the node, wait for the readers (`Arena.waiting`).  A put may then rewrite
  the block before the copy, which still has the old length.

  An `Arena` is the driver with any number of getters under way.  Ghost records: each getter knows the
  messages that have been valid in its block since its lookup (`seen`), and each answer keeps them.

  * `get_consistent` — in every interleaving in which no put rewrites the block of a getter under way
    to a message of another length (as far as the getter asks for), each answer is a prefix of one
    message that was valid during the call, of the length it should have;
  * `get_consistent_fails` — lookup, invalidation, put of a shorter message, copy.
-/
import Bldms.Store

namespace Bldms

/-! ## The system -/

/-- A `get_data` under way: its arguments, what its lookup found, the messages seen valid since. -/
structure Getter where
  thread : Nat
  offset : BitVec 32
  size : Nat
  found : GetSection
  seen : List (List Byte)

/-- A successful `get_data`: its arguments, the bytes its copy left out, the bytes it returned, and the
    messages that were valid in its block during the call. -/
structure Answer where
  offset : BitVec 32
  size : Nat
  notCopied : Nat
  bytes : List Byte
  seen : List (List Byte)
  deriving DecidableEq, Repr

/-- The driver, the getters under way, the invalidations that wait for readers (each with those it
    still waits for), and the answers given. -/
structure Arena where
  drv : Driver
  getters : List Getter
  waiting : List (List Nat)
  answers : List Answer

/-- The atomic steps of the three system calls. -/
inductive Move where
  | lookup (thread : Nat) (offset : BitVec 32) (size : Nat)
  | copy (thread : Nat) (e : GetEnv)
  | put (e : PutEnv) (m : List Byte)
  | invalidate (bread : Bool) (offset : BitVec 32)
  | graceEnd

namespace Getter

/-- The getter of a given thread. -/
def of (thread : Nat) (g : Getter) : Bool := g.thread == thread

/-- The message `m` has been put into block `k`: it is valid there from now on. -/
def see (k : Nat) (m : List Byte) (g : Getter) : Getter :=
  if g.offset.toNat = k then { g with seen := m :: g.seen } else g

/-- The number of bytes the copy is for. -/
def span (g : Getter) : Nat := min g.size g.found.bytesToCopy

end Getter

namespace Arena

/-- Nobody is at work. -/
def start (d : Driver) : Arena := ⟨d, [], [], []⟩

/-- The lookup half of a `get_data`. -/
def lookup (a : Arena) (thread : Nat) (offset : BitVec 32) (size : Nat) : Arena :=
  match getLookup offset a.drv with
  | .ok g =>
    { a with getters :=
        ⟨thread, offset, size, g, (a.drv.store g.sb offset.toNat).toList⟩ :: a.getters }
  | _ => a

/-- The copy half, which also ends the read-side section. -/
def copy (a : Arena) (thread : Nat) (e : GetEnv) : Arena :=
  match a.getters.find? (Getter.of thread) with
  | none => a
  | some g =>
    { a with
      getters := a.getters.eraseP (Getter.of thread)
      waiting := a.waiting.map fun readers => readers.filter (· ≠ thread)
      answers := match getCopy e g.size g.found a.drv with
        | .ok bytes => a.answers ++ [⟨g.offset, g.size, e.notCopied, bytes, g.seen⟩]
        | _ => a.answers }

/-- The critical section of a `put_data`. -/
def afterPut (a : Arena) (e : PutEnv) (m : List Byte) : Arena :=
  match (putData e m a.drv).ret with
  | .ok k => { a with drv := (putData e m a.drv).drv, getters := a.getters.map (Getter.see k m) }
  | _ => { a with drv := (putData e m a.drv).drv }

/-- The critical section of an `invalidate_data`, which then waits for the readers there are. -/
def afterInvalidate (a : Arena) (bread : Bool) (offset : BitVec 32) : Arena :=
  match (invalidateData bread offset a.drv).1 with
  | .ok () =>
    { a with
      drv := (invalidateData bread offset a.drv).2
      waiting := a.waiting ++ [a.getters.map Getter.thread] }
  | _ => { a with drv := (invalidateData bread offset a.drv).2 }

end Arena

/-- The three system calls, step by step.  `graceEnd`: an invalidation that waits for nobody any more
    returns. -/
def arena : System Arena Move Unit where
  step a
    | .lookup thread offset size => ((), a.lookup thread offset size)
    | .copy thread e => ((), a.copy thread e)
    | .put e m => ((), a.afterPut e m)
    | .invalidate bread offset => ((), a.afterInvalidate bread offset)
    | .graceEnd => ((), { a with waiting := a.waiting.erase [] })

/-! ## The condition on puts -/

/-- The first `n` bytes of a block's payload once `m` has been put into it: the rest is zeros. -/
def padded (m : List Byte) (n : Nat) : List Byte := (List.range n).map fun i => m.getD i 0

/-- A put of `m` into the block of `g` does not show: the length `g` remembers and that of `m` agree, as
    far as `g` asks for; or the block still starts as a message that `g` has seen would have it. -/
def Harmless (g : Getter) (m : List Byte) : Prop :=
  g.span = min g.size m.length ∨ ∃ m' ∈ g.seen, padded m g.span = m'.take g.size

/-- The put of a step, if it is one, is harmless to the getters of the block it lands in. -/
def PutHarmless (a : Arena) : Move → Prop
  | .put e m => ∀ k, PutLands e m a.drv k → ∀ g ∈ a.getters, g.offset.toNat = k → Harmless g m
  | _ => True

theorem slice_ofMessage_padded (md : BldmsBlock) {m : List Byte} (hm : m.length ≤ 4086) (n : Nat) :
    (Block.ofMessage md m).slice 10 n = padded m n := by
  apply List.map_congr_left
  intro i _
  rcases Nat.lt_or_ge i 4086 with hi | hi
  · exact Block.byte_ofMessage_payload md m hi
  · rw [Block.byte, dif_neg (show ¬ 10 + i < 4096 by omega), List.getD_eq_getElem?_getD,
      List.getElem?_eq_none (by omega), Option.getD_none]

/-- A harmless put leaves in the block what the getter may return. -/
theorem Harmless.exists_seen {g : Getter} {m : List Byte} (h : Harmless g m) (hm : m.length ≤ 4086)
    (md : BldmsBlock) :
    ∃ m' ∈ m :: g.seen, (Block.ofMessage md m).slice 10 g.span = m'.take g.size := by
  rcases h with h | ⟨m', hm', heq⟩
  · refine ⟨m, List.mem_cons_self, ?_⟩
    rw [Block.slice_ofMessage md (by omega) hm, h, ← List.take_eq_take_min]
  · exact ⟨m', List.mem_cons_of_mem _ hm', by rw [slice_ofMessage_padded md hm, heq]⟩

/-! ## What a getter may return, step by step -/

/-- The getter will read its block, and the bytes there are those of a message it has seen. -/
structure Tracks (sb : Nat) (d : Driver) (g : Getter) : Prop where
  sb_eq : g.found.sb = sb
  target : g.found.targetBlock = g.offset.toNat + 2
  seen : ∃ m ∈ g.seen, (d.disk sb (g.offset.toNat + 2)).slice 10 g.span = m.take g.size

/-- A successful lookup found a listed block. -/
theorem Inv.getLookup_ok {sb n : Nat} {d : Driver} (hI : Inv sb n d) {offset : BitVec 32}
    {g : GetSection} (h : getLookup offset d = .ok g) :
    ∃ el ∈ d.validBlkList, el.ndx = offset.toNat ∧ g = ⟨sb, offset.toNat + 2, el.validBytes⟩ := by
  rw [getLookup, hI.mounted, if_neg (fun h => h rfl), hI.super] at h
  split at h
  · cases h
  dsimp only at h
  split at h
  · cases h
  rename_i el hel
  obtain ⟨hmem, hndx⟩ := (findBlk_eq_some hI.distinct).mp hel
  have hlt := hI.ndx_lt hmem
  have hn := hI.small
  refine ⟨el, hmem, hndx, ?_⟩
  rw [← Ret.ok.inj h, numMetadataBlks, Nat.mod_eq_of_lt (by omega : offset.toNat + 2 < 2 ^ 32)]

/-- What a copy returns. -/
theorem getCopy_ok {e : GetEnv} {size : Nat} {g : GetSection} {d : Driver} {bytes : List Byte}
    (h : getCopy e size g d = .ok bytes) :
    bytes = (d.disk g.sb g.targetBlock).slice 10 (min size g.bytesToCopy - e.notCopied) := by
  unfold getCopy at h
  split at h
  · nomatch h
  have hmin : (if size > g.bytesToCopy then g.bytesToCopy else size) = min size g.bytesToCopy := by
    split <;> omega
  dsimp only at h
  rw [hmin] at h
  exact (Ret.ok.inj h).symm

namespace Arena

/-- The answer is a prefix, of the right length, of one message that was valid during the call. -/
def Consistent (r : Answer) : Prop := r.notCopied = 0 → ∃ m ∈ r.seen, r.bytes = m.take r.size

/-- Getters track their blocks, and answers are consistent. -/
structure Sound (sb n : Nat) (a : Arena) : Prop where
  inv : Inv sb n a.drv
  tracks : ∀ g ∈ a.getters, Tracks sb a.drv g
  answers : ∀ r ∈ a.answers, Consistent r

variable {sb n : Nat} {a : Arena}

theorem Sound.lookup (h : Sound sb n a) (thread : Nat) (offset : BitVec 32) (size : Nat) :
    Sound sb n (a.lookup thread offset size) := by
  unfold Arena.lookup
  split
  · rename_i g hg
    obtain ⟨el, hel, hndx, rfl⟩ := h.inv.getLookup_ok hg
    refine ⟨h.inv, List.forall_mem_cons.mpr ⟨⟨rfl, rfl, ?_⟩, h.tracks⟩, h.answers⟩
    have hstore : a.drv.store sb offset.toNat = some (a.drv.message sb el) := by
      rw [← hndx, h.inv.store_of_mem hel]
    refine ⟨a.drv.message sb el, ?_, ?_⟩
    · show a.drv.message sb el ∈ (a.drv.store sb offset.toNat).toList
      rw [hstore]
      exact List.mem_singleton.mpr rfl
    · show (a.drv.disk sb (offset.toNat + 2)).slice 10 (min size el.validBytes) = _
      rw [List.take_eq_take_min, Driver.length_message, Driver.message, hndx,
        Block.take_slice _ (Nat.min_le_right _ _)]
  · exact h

theorem Sound.copy (h : Sound sb n a) (thread : Nat) (e : GetEnv) :
    Sound sb n (a.copy thread e) := by
  unfold Arena.copy
  split
  · exact h
  · rename_i g hg
    have hgmem := List.mem_of_find?_eq_some hg
    refine ⟨h.inv, fun g' hg' => h.tracks g' (List.mem_of_mem_eraseP hg'), ?_⟩
    dsimp only
    split
    · rename_i bytes hbytes
      intro r hr
      rcases List.mem_append.mp hr with hr | hr
      · exact h.answers r hr
      · rw [List.mem_singleton.mp hr]
        intro hall
        obtain ⟨hsb, htarget, m, hm, hslice⟩ := h.tracks g hgmem
        refine ⟨m, hm, ?_⟩
        have hall : e.notCopied = 0 := hall
        show bytes = m.take g.size
        rw [getCopy_ok hbytes, hall, Nat.sub_zero, hsb, htarget]
        exact hslice
    · exact h.answers

theorem Sound.put (h : Sound sb n a) {e : PutEnv} {m : List Byte}
    (hno : PutHarmless a (.put e m)) : Sound sb n (a.afterPut e m) := by
  unfold Arena.afterPut
  rcases h.inv.putData_cases e m with ⟨hdrv, hret, -⟩ | ⟨p, k, hlands, hp, hsb, -, -, heq⟩
  · split
    · rename_i k hk
      exact absurd hk (hret k)
    · rw [hdrv]
      exact h
  · have hinv := h.inv.putData e m
    rw [heq] at hinv ⊢
    refine ⟨hinv, ?_, h.answers⟩
    intro g' hg'
    obtain ⟨g, hg, rfl⟩ := List.mem_map.mp hg'
    obtain ⟨hsb', htarget, m', hm', hslice⟩ := h.tracks g hg
    by_cases hk : g.offset.toNat = k
    · -- the getter's block has been rewritten
      rw [Getter.see, if_pos hk]
      refine ⟨hsb', htarget, ?_⟩
      have hnew : (a.drv.commitPut p k).disk sb (g.offset.toNat + 2) = p.buffer := by
        dsimp only [Driver.commitPut]
        rw [hsb, hk, Driver.writeBlock_self]
      show ∃ m' ∈ m :: g.seen, ((a.drv.commitPut p k).disk sb (g.offset.toNat + 2)).slice 10 g.span = _
      rw [hnew, (putPrepare_ok hp).2.2.2.2]
      exact (hno k hlands g hg hk).exists_seen hlands.2.1 _
    · -- another block: the bytes it will copy have not changed
      rw [Getter.see, if_neg hk]
      refine ⟨hsb', htarget, m', hm', ?_⟩
      rw [← hslice]
      dsimp only [Driver.commitPut]
      rw [hsb, Driver.writeBlock_of_ne _ _ _ (by omega : g.offset.toNat + 2 ≠ k + 2)]

theorem Sound.invalidate (h : Sound sb n a) (bread : Bool) (offset : BitVec 32) :
    Sound sb n (a.afterInvalidate bread offset) := by
  have hinv := h.inv.invalidateData bread offset
  have htracks : ∀ g ∈ a.getters, Tracks sb (Bldms.invalidateData bread offset a.drv).2 g := by
    intro g hg
    obtain ⟨hsb, htarget, m, hm, hslice⟩ := h.tracks g hg
    refine ⟨hsb, htarget, m, hm, ?_⟩
    rw [← hslice]
    rcases h.inv.invalidateData_cases bread offset with ⟨heq, -⟩ | ⟨el, -, -, heq⟩
    · rw [heq]
    · -- only metadata is rewritten, also when the block is the getter's own
      rw [heq]
      exact message_commitInvalidate el.ndx ⟨g.offset.toNat, 0, g.span⟩
  unfold Arena.afterInvalidate
  split
  · exact ⟨hinv, htracks, h.answers⟩
  · exact ⟨hinv, htracks, h.answers⟩

/-- **The step lemma.** -/
theorem Sound.step (h : Sound sb n a) {mv : Move} (hno : PutHarmless a mv) :
    Sound sb n (arena.next a mv) := by
  cases mv with
  | lookup thread offset size => exact h.lookup thread offset size
  | copy thread e => exact h.copy thread e
  | put e m => exact h.put hno
  | invalidate bread offset => exact h.invalidate bread offset
  | graceEnd => exact ⟨h.inv, h.tracks, h.answers⟩

end Arena

/-- **`get_data` under concurrency.**  In every interleaving of any number of getters, putters and
    invalidators in which no put harms a getter under way, the bytes of every successful `get_data`
    are a prefix, of length `min(size, length)`, of one message that was valid in its block during the
    call. -/
theorem get_consistent (cfg : Config) (sb : Nat) (d : Driver) (hd : Reachable cfg sb d)
    (moves : List Move) (hno : arena.AllSteps PutHarmless (.start d) moves) :
    ∀ a ∈ arena.states (.start d) moves, ∀ r ∈ a.answers, r.notCopied = 0 →
      ∃ m ∈ r.seen, r.bytes = m.take r.size := by
  have hinv := hno.invariant (P := Arena.Sound sb (d.blockCount sb)) (fun a mv h ha => ha.step h)
    ⟨hd.inv, (fun g hg => nomatch hg), fun r hr => nomatch hr⟩
  intro a ha
  exact (hinv a ha).answers

/-- The block of a getter under way is reused for a longer message, but the getter only asks for two
    bytes: it returns the start of the new message. -/
theorem get_consistent_reused_block :
    let moves : List Move := [.put (.allOk 1 10) [1, 2, 3], .lookup 0 0 2, .invalidate true 0,
      .put (.allOk 2 20) [4, 5, 6, 7], .copy 0 ⟨true, 0⟩, .graceEnd]
    (arena.final (.start (freshDriver 1)) moves).answers =
      [⟨0, 2, 0, [4, 5], [[4, 5, 6, 7], [1, 2, 3]]⟩] ∧
    ∀ a ∈ arena.states (.start (freshDriver 1)) moves, ∀ r ∈ a.answers, r.notCopied = 0 →
      ∃ m ∈ r.seen, r.bytes = m.take r.size := by
  refine ⟨by decide, get_consistent .standard 0 (freshDriver 1)
    (mounted_freshDriver .standard (by decide)).reachable _ ?_⟩
  refine ⟨(fun k _ g hg => nomatch hg), trivial, trivial, ?_, trivial, trivial, trivial⟩
  intro k _ g hg _
  rw [List.mem_singleton.mp hg]
  exact .inl rfl

/-- A getter of the whole message in block 0; the block is invalidated and reused for a shorter message
    before the copy, which returns the new byte with the old length.  The invalidation still waits for
    the getter when the put rewrites the block. -/
theorem get_consistent_fails :
    let before : List Move := [.put (.allOk 1 10) [1, 2, 3], .lookup 0 0 9, .invalidate true 0,
      .put (.allOk 2 20) [7]]
    let a := arena.final (.start (freshDriver 1)) (before ++ [.copy 0 ⟨true, 0⟩])
    Reachable .standard 0 (freshDriver 1) ∧
    (arena.final (.start (freshDriver 1)) before).waiting = [[0]] ∧
    a.answers = [⟨0, 9, 0, [7, 0, 0], [[7], [1, 2, 3]]⟩] ∧
    ¬ ∀ r ∈ a.answers, r.notCopied = 0 → ∃ m ∈ r.seen, r.bytes = m.take r.size :=
  ⟨(mounted_freshDriver .standard (by decide)).reachable, by decide, by decide, by decide⟩

end Bldms
