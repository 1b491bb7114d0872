/-
  The scan of a mount, in memory.

  Source: `bldms.c`, `bldms_fs_fill_super` from the allocation of the array on; `rcu.c`,
  `add_valid_block_in_order_secure`.

  `scan` says what a scan computes.  Here is what it does to memory: nodes are linked into the list, and a
  LEDGER is kept of everything obtained from the kernel (`kzalloc`, `sb_bread`) and of everything given back
  (`kfree`, `brelse`), each object under the block it was obtained for (`Obj`).  The pass for block `i` reads
  the block first and allocates its entry second, so an allocation that fails leaves a buffer behind; and the
  clean-up starts from the index a failed pass leaves (`lastEntry`), one less when there is no entry.

  * `addInOrderMem`  — the insertion by a backward walk over `prev` links; it is `insertBack` on the nodes
    (`addInOrderMem_eq`);
  * `scanPass`, `scanMem` — the scan;
  * `Held`           — the memory during the scan, next to what `scan` has computed: which nodes are linked,
    and the ledger;
  * `Broken`         — the memory when a pass has failed;
  * `Held.scan_ok`, `Held.scan_failed` — the scan in memory is the scan.
-/
import Bldms.Lifecycle
import Bldms.Teardown

namespace Bldms

open Intrusive

/-! ## The insertion -/

/-- `add_valid_block_in_order_secure` for the node `a`, filled already; the walk may take `passes`
    passes. -/
def addInOrderMem (mem : LinkStore Nat) (elems : Nat → RcuElem) (a passes : Nat) : Option (LinkStore Nat) :=
  -- `list_empty`
  if nextOf mem .head = some (.to .head) then listAddTailRcu mem a
  else
    match reverseFind mem (fun b => (elems b).time < (elems a).time) passes (prevOf mem .head) with
    | some p => listAddRcu mem a p
    | none => none

/-- The backward walk stops where the insertion in the list of nodes puts the new one. -/
theorem addInOrderMem_cut {mem : LinkStore Nat} {l : List Nat} (h : Represents mem l) (elems : Nat → RcuElem)
    (a : Nat) {passes : Nat} (hlen : l.length ≤ passes) :
    ∃ pre post, l = pre ++ post ∧ insertBack (fun b => (elems b).time) a l = pre ++ a :: post ∧
      addInOrderMem mem elems a passes = listAddRcu mem a (predOf pre) := by
  have hcut := dropWhile_append_takeWhile (fun b => decide ¬ (elems b).time < (elems a).time) l
  have hins := insertBack_eq (fun b => (elems b).time) a l
  have hwalk : reverseFind mem (fun b => (elems b).time < (elems a).time) passes
      (some (.to (predOf l))) =
      some (predOf (l.reverse.dropWhile fun b => decide ¬ (elems b).time < (elems a).time).reverse) := by
    have hl : Represents mem (l ++ []) := by rwa [List.append_nil]
    rw [hl.reverseFind hlen]
    simp only [decide_not]
  generalize (l.reverse.dropWhile fun b => decide ¬ (elems b).time < (elems a).time).reverse = pre
    at hcut hins hwalk
  generalize (l.reverse.takeWhile fun b => decide ¬ (elems b).time < (elems a).time).reverse = post
    at hcut hins
  refine ⟨pre, post, hcut.symm, hins, ?_⟩
  unfold addInOrderMem
  split
  · rename_i hempty
    rw [h.first, Option.some.injEq, Link.to.injEq] at hempty
    cases l with
    | cons b l => cases hempty
    | nil =>
      obtain ⟨rfl, rfl⟩ := List.append_eq_nil_iff.mp hcut
      exact h.listAddTailRcu a
  · rw [h.last, hwalk]

/-- The insertion in memory is the insertion in the list of nodes. -/
theorem addInOrderMem_eq {mem : LinkStore Nat} {l : List Nat} (h : Represents mem l) (elems : Nat → RcuElem)
    {a passes : Nat} (ha : a ∉ l) (hlen : l.length ≤ passes) :
    ∃ mem', addInOrderMem mem elems a passes = some mem' ∧
      Represents mem' (insertBack (fun b => (elems b).time) a l) := by
  obtain ⟨pre, post, hl, hins, hadd⟩ := addInOrderMem_cut h elems a hlen
  have hrep : Represents mem (pre ++ post) := hl ▸ h
  obtain ⟨mem', hmem', hrep'⟩ := hrep.listAddRcu (hl ▸ ha)
  exact ⟨mem', hadd.trans hmem', hins ▸ hrep'⟩

/-! ## The ledger and the scan -/

/-- What a mount obtains from the kernel and has to give back. -/
inductive Obj where
  /-- The array of pointers, `metadata_array`. -/
  | container
  /-- The metadata entry of block `i`. -/
  | entry (i : Nat)
  /-- The list node of block `i`. -/
  | elem (i : Nat)
  /-- The buffer of block `b` of the device. -/
  | buffer (b : Nat)
  deriving DecidableEq, Repr

/-- The globals that are numbers and flags. -/
structure Globals where
  bldmsMounted : Bool
  theDevSuperblock : Option Nat
  mdArraySize : Nat
  lastWrittenBlock : Nat

/-- The memory of the driver, and the ledger of a mount. -/
structure MountMem where
  /-- The links of the list; the node of block `i` is node `i`. -/
  mem : LinkStore Nat
  /-- What the nodes hold beside their links. -/
  elems : Nat → RcuElem
  /-- `metadata_array`: `NULL`, or a pointer, with the slots that have been filled. -/
  array : Option (List MdEntry)
  globals : Globals
  obtained : List Obj
  released : List Obj

namespace MountMem

/-- The memory before the scan of `n` blocks: an empty list, the array, and the two buffers that have
    been read and released. -/
def atScan (d : Driver) (n : Nat) : MountMem where
  mem := emptyStore
  elems := fun _ => ⟨0, 0, 0⟩
  array := some []
  globals := ⟨d.bldmsMounted, d.theDevSuperblock, n, d.lastWrittenBlock⟩
  obtained := [.buffer sbBlockNumber, .buffer bldmsInodesBlockNumber, .container]
  released := [.buffer sbBlockNumber, .buffer bldmsInodesBlockNumber]

def obtain (g : MountMem) (o : Obj) : MountMem := { g with obtained := g.obtained ++ [o] }

def release (g : MountMem) (o : Obj) : MountMem := { g with released := g.released ++ [o] }

/-- `metadata_array[i]`, for the next slot. -/
def fillSlot (g : MountMem) (e : MdEntry) : MountMem := { g with array := g.array.map (· ++ [e]) }

@[simp] theorem obtained_obtain (g : MountMem) (o : Obj) : (g.obtain o).obtained = g.obtained ++ [o] := rfl
@[simp] theorem released_obtain (g : MountMem) (o : Obj) : (g.obtain o).released = g.released := rfl
@[simp] theorem obtained_release (g : MountMem) (o : Obj) : (g.release o).obtained = g.obtained := rfl
@[simp] theorem released_release (g : MountMem) (o : Obj) : (g.release o).released = g.released ++ [o] := rfl
@[simp] theorem obtained_fillSlot (g : MountMem) (e : MdEntry) : (g.fillSlot e).obtained = g.obtained := rfl
@[simp] theorem released_fillSlot (g : MountMem) (e : MdEntry) : (g.fillSlot e).released = g.released := rfl

end MountMem

/-- How a pass or a scan ends: it goes on; it fails, with an error number and the index the clean-up
    starts from; or the thread dies on a link. -/
inductive PassEnd where
  | next (g : MountMem)
  | failed (e : Errno) (i : Int) (g : MountMem)
  | died (g : MountMem)

/-- The body of the scan loop, for block `i`. -/
def scanPass (env : MountEnv) (dev : Device) (g : MountMem) (i : Nat) : PassEnd :=
  let g₁ := if env.bread i then g.obtain (.buffer (i + numMetadataBlks)) else g
  match env.allocMd i with
  | none => .failed .enomem (i - 1) g₁
  | some id =>
    let g₂ := g₁.obtain (.entry i)
    if ¬ env.bread i then .failed .eio i (g₂.fillSlot ⟨id, ⟨0, false, 0⟩⟩)
    else
      let md := (dev (i + numMetadataBlks)).metadata
      let g₃ := (g₂.fillSlot ⟨id, md⟩).release (.buffer (i + numMetadataBlks))
      if md.isValid then
        if ¬ env.allocElem i then .failed .enomem i g₃
        else
          let g₄ := { g₃.obtain (.elem i) with elems := Function.update g₃.elems i (elemOf i md) }
          -- there are at most `i` nodes to walk over
          match addInOrderMem g₄.mem g₄.elems i i with
          | none => .died g₄
          | some mem => .next { g₄ with mem := mem }
      else .next g₃

/-- The scan of blocks `i, …, i + n - 1`. -/
def scanMem (env : MountEnv) (dev : Device) (g : MountMem) (i : Nat) : Nat → PassEnd
  | 0 => .next g
  | n + 1 =>
    match scanPass env dev g i with
    | .next g' => scanMem env dev g' (i + 1) n
    | .failed e k g' => .failed e k g'
    | .died g' => .died g'

/-! ## The memory during the scan -/

/-- What the pass for block `j` obtains, if it goes through. -/
def obtainedFor (dev : Device) (j : Nat) : List Obj :=
  .buffer (j + 2) :: .entry j :: if (dev (j + 2)).metadata.isValid then [.elem j] else []

/-- The memory when blocks `0, …, i - 1` have been scanned, and `s` is what `scan` has computed. -/
structure Held (g₀ : Globals) (dev : Device) (i : Nat) (s : Scan) (g : MountMem) (l : List Nat) : Prop where
  ring : Represents g.mem l
  list : l.map g.elems = s.list
  nodes : ∀ a, a ∈ l ↔ a < i ∧ (dev (a + 2)).metadata.isValid = true
  array : g.array = some s.arr
  globals : g.globals = g₀
  obtained : g.obtained = .buffer 0 :: .buffer 1 :: .container :: (List.range i).flatMap (obtainedFor dev)
  released : g.released = .buffer 0 :: .buffer 1 :: (List.range i).map fun j => .buffer (j + 2)

/-- The index the clean-up starts from after the pass for block `k` has failed. -/
def lastEntry (env : MountEnv) (k : Nat) : Int := if (env.allocMd k).isNone then k - 1 else k

/-- What the pass for block `k` has obtained when it fails. -/
def obtainedAt (env : MountEnv) (k : Nat) : List Obj :=
  (if env.bread k then [.buffer (k + 2)] else []) ++ if (env.allocMd k).isNone then [] else [.entry k]

/-- What it has released: the buffer, unless the allocation of the entry failed. -/
def releasedAt (env : MountEnv) (k : Nat) : List Obj :=
  if env.bread k ∧ ¬ (env.allocMd k).isNone then [.buffer (k + 2)] else []

/-- The memory when the pass for block `k` has failed, and `s` is what `scan` has handed back. -/
structure Broken (g₀ : Globals) (env : MountEnv) (dev : Device) (k : Nat) (s : Scan) (g : MountMem)
    (l : List Nat) : Prop where
  ring : Represents g.mem l
  list : l.map g.elems = s.list
  nodes : ∀ a, a ∈ l ↔ a < k ∧ (dev (a + 2)).metadata.isValid = true
  array : g.array = some s.arr
  globals : g.globals = g₀
  obtained : g.obtained =
    .buffer 0 :: .buffer 1 :: .container :: ((List.range k).flatMap (obtainedFor dev) ++ obtainedAt env k)
  released : g.released =
    .buffer 0 :: .buffer 1 :: (((List.range k).map fun j => .buffer (j + 2)) ++ releasedAt env k)

/-! ## The scan in memory is the scan -/

section

variable {g₀ : Globals} {env : MountEnv} {dev : Device} {i : Nat} {s s' : Scan} {g : MountMem} {l : List Nat}

theorem Held.length_le (h : Held g₀ dev i s g l) : l.length ≤ i := by
  have hsub : l ⊆ List.range i := fun a ha => List.mem_range.mpr ((h.nodes a).mp ha).1
  have hle := (h.ring.nodup.subperm hsub).length_le
  rwa [List.length_range] at hle

/-- The nodes of the longer list hold what they held, and the new one what it has been filled with. -/
theorem Held.map_insertBack (h : Held g₀ dev i s g l) (md : BldmsBlock) :
    let elems := Function.update g.elems i (elemOf i md)
    (insertBack (fun b => (elems b).time) i l).map elems =
      addValidBlockInOrderSecure s.list i md.validBytes.toNat md.nsec := by
  intro elems
  have hself : elems i = elemOf i md := Function.update_self ..
  have hothers : l.map elems = s.list := by
    rw [← h.list]
    refine List.map_congr_left ?_
    intro a ha
    exact Function.update_of_ne (Nat.ne_of_lt ((h.nodes a).mp ha).1) ..
  have hmap := insertBack_map RcuElem.time elems i l
  rw [hself, hothers] at hmap
  exact hmap.symm

theorem Held.fillSlot (h : Held g₀ dev i s g l) (e : MdEntry) : (g.fillSlot e).array = some (s.arr ++ [e]) := by
  rw [MountMem.fillSlot, h.array]
  rfl

/-- What has been obtained after the pass for block `i` has gone through, … -/
theorem Held.obtained_next (h : Held g₀ dev i s g l) (os : List Obj)
    (hos : obtainedFor dev i = .buffer (i + 2) :: .entry i :: os) :
    g.obtained ++ [Obj.buffer (i + 2)] ++ [Obj.entry i] ++ os =
      Obj.buffer 0 :: Obj.buffer 1 :: Obj.container :: (List.range (i + 1)).flatMap (obtainedFor dev) := by
  rw [h.obtained, List.range_succ, List.flatMap_append, List.flatMap_singleton, hos]
  simp

/-- … and what has been released. -/
theorem Held.released_next (h : Held g₀ dev i s g l) :
    g.released ++ [Obj.buffer (i + 2)] =
      Obj.buffer 0 :: Obj.buffer 1 :: (List.range (i + 1)).map fun j => Obj.buffer (j + 2) := by
  rw [h.released, List.range_succ, List.map_append]
  rfl

/-- The blocks listed after it: block `i`, if it is valid, and those listed before. -/
theorem Held.nodes_next (h : Held g₀ dev i s g l) (a : Nat) :
    (a < i + 1 ∧ (dev (a + 2)).metadata.isValid = true) ↔
      (a = i ∧ (dev (i + 2)).metadata.isValid = true) ∨ a ∈ l := by
  rw [h.nodes, Nat.lt_succ_iff_lt_or_eq]
  constructor
  · rintro ⟨ha | rfl, hv⟩
    · exact .inr ⟨ha, hv⟩
    · exact .inl ⟨rfl, hv⟩
  · rintro (⟨rfl, hv⟩ | ⟨ha, hv⟩)
    · exact ⟨.inr rfl, hv⟩
    · exact ⟨.inl ha, hv⟩

/-- A pass that goes through. -/
theorem Held.pass_ok (h : Held g₀ dev i s g l) (hs : scanStep env dev s i = .ok s') :
    ∃ g' l', scanPass env dev g i = .next g' ∧ Held g₀ dev (i + 1) s' g' l' := by
  have hpasses := scanStep_passes hs
  rw [MountEnv.failsAt, Bool.or_eq_false_iff, Bool.or_eq_false_iff] at hpasses
  obtain ⟨⟨hmd, hbread⟩, helem⟩ := hpasses
  obtain ⟨id, hid⟩ := Option.isSome_iff_exists.mp (show (env.allocMd i).isSome = true by simpa using hmd)
  have hbread : env.bread i = true := by simpa using hbread
  unfold scanStep at hs
  unfold scanPass
  rw [hid] at hs ⊢
  simp only [numMetadataBlks, hbread, not_true_eq_false, if_false, if_true] at hs ⊢
  by_cases hv : (dev (i + 2)).metadata.isValid = true
  · have helem : env.allocElem i = true := by simpa [hv] using helem
    simp only [hv, helem, not_true_eq_false, if_false, if_true] at hs ⊢
    obtain rfl := (Except.ok.inj hs).symm
    have hnew : i ∉ l := fun hi => Nat.lt_irrefl i ((h.nodes i).mp hi).1
    obtain ⟨mem', hadd, hrep⟩ := addInOrderMem_eq h.ring
      (Function.update g.elems i (elemOf i (dev (i + 2)).metadata)) hnew h.length_le
    simp only [MountMem.obtain, MountMem.release, MountMem.fillSlot, hadd]
    refine ⟨_, _, rfl, hrep, h.map_insertBack (dev (i + 2)).metadata, ?_,
      h.fillSlot ⟨id, (dev (i + 2)).metadata⟩, h.globals, h.obtained_next _ ?_, h.released_next⟩
    · intro a
      rw [mem_insertBack, h.nodes_next]
      simp [hv]
    · rw [obtainedFor, if_pos hv]
  · simp only [hv, Bool.false_eq_true, if_false] at hs ⊢
    obtain rfl := (Except.ok.inj hs).symm
    have hobtained := h.obtained_next [] (by rw [obtainedFor, if_neg hv])
    rw [List.append_nil] at hobtained
    refine ⟨_, l, rfl, h.ring, h.list, ?_, h.fillSlot ⟨id, (dev (i + 2)).metadata⟩, h.globals, hobtained,
      h.released_next⟩
    intro a
    rw [h.nodes_next]
    simp [hv]

/-- A pass that fails leaves the list and its nodes as they were. -/
theorem Held.broken (h : Held g₀ dev i s g l) {g' : MountMem} (hmem : g'.mem = g.mem)
    (helems : g'.elems = g.elems) (hglobals : g'.globals = g.globals) (hlist : s'.list = s.list)
    (harr : g'.array = some s'.arr) (hobtained : g'.obtained = g.obtained ++ obtainedAt env i)
    (hreleased : g'.released = g.released ++ releasedAt env i) : Broken g₀ env dev i s' g' l := by
  refine ⟨hmem ▸ h.ring, ?_, h.nodes, harr, hglobals.trans h.globals, ?_, ?_⟩
  · rw [helems, hlist]
    exact h.list
  · rw [hobtained, h.obtained]
    rfl
  · rw [hreleased, h.released]
    rfl

/-- A pass that fails: the list is what it was. -/
theorem Held.pass_failed (h : Held g₀ dev i s g l) {e : Errno} (hs : scanStep env dev s i = .error (e, s')) :
    ∃ g', scanPass env dev g i = .failed e (lastEntry env i) g' ∧ Broken g₀ env dev i s' g' l := by
  unfold scanStep at hs
  unfold scanPass
  cases hid : env.allocMd i with
  | none =>
    -- the buffer stays with the mount
    rw [hid] at hs
    obtain ⟨rfl, rfl⟩ := Prod.mk.inj (Except.error.inj hs)
    rw [lastEntry, hid]
    cases hbread : env.bread i with
    | false =>
      refine ⟨g, rfl, h.broken rfl rfl rfl rfl h.array ?_ ?_⟩
      · simp [obtainedAt, hid, hbread]
      · simp [releasedAt, hid]
    | true =>
      refine ⟨g.obtain (.buffer (i + 2)), rfl, h.broken rfl rfl rfl rfl h.array ?_ ?_⟩
      · simp [obtainedAt, hid, hbread]
      · simp [releasedAt, hid]
  | some id =>
    rw [hid] at hs
    rw [lastEntry, hid]
    cases hbread : env.bread i with
    | false =>
      simp only [hbread, Bool.false_eq_true, not_false_eq_true, if_true] at hs
      obtain ⟨rfl, rfl⟩ := Prod.mk.inj (Except.error.inj hs)
      refine ⟨(g.obtain (.entry i)).fillSlot ⟨id, ⟨0, false, 0⟩⟩, rfl,
        h.broken rfl rfl rfl rfl (h.fillSlot _) ?_ ?_⟩
      · simp [obtainedAt, hid, hbread]
      · simp [releasedAt, hbread]
    | true =>
      simp only [numMetadataBlks, hbread, not_true_eq_false, if_false, if_true] at hs ⊢
      by_cases hv : (dev (i + 2)).metadata.isValid = true
      · simp only [hv, if_true] at hs ⊢
        cases helem : env.allocElem i with
        | true =>
          simp only [helem, not_true_eq_false, if_false] at hs
          cases hs
        | false =>
          simp only [helem, Bool.false_eq_true, not_false_eq_true, if_true] at hs ⊢
          obtain ⟨rfl, rfl⟩ := Prod.mk.inj (Except.error.inj hs)
          refine ⟨_, rfl, h.broken rfl rfl rfl rfl (h.fillSlot _) ?_ ?_⟩
          · simp [obtainedAt, hid, hbread]
          · simp [releasedAt, hid, hbread]
      · simp only [hv, Bool.false_eq_true, if_false] at hs
        cases hs

/-- A scan that completes. -/
theorem Held.scan_ok : ∀ {n i : Nat} {s s' : Scan} {g : MountMem} {l : List Nat}, Held g₀ dev i s g l →
    scan env dev s i n = .ok s' →
    ∃ g' l', scanMem env dev g i n = .next g' ∧ Held g₀ dev (i + n) s' g' l' := by
  intro n
  induction n with
  | zero =>
    intro i s s' g l h hs
    obtain rfl := Except.ok.inj hs
    exact ⟨g, l, rfl, h⟩
  | succ n ih =>
    intro i s s' g l h hs
    rw [scan] at hs
    cases hstep : scanStep env dev s i with
    | error f => rw [hstep] at hs; cases hs
    | ok s₁ =>
      rw [hstep] at hs
      obtain ⟨g₁, l₁, hpass, h₁⟩ := h.pass_ok hstep
      obtain ⟨g', l', hscan, h'⟩ := ih h₁ hs
      rw [Nat.add_assoc, Nat.add_comm 1 n] at h'
      exact ⟨g', l', by rw [scanMem, hpass]; exact hscan, h'⟩

/-- A scan that fails, at some block `k`. -/
theorem Held.scan_failed : ∀ {n i : Nat} {s s' : Scan} {e : Errno} {g : MountMem} {l : List Nat},
    Held g₀ dev i s g l → scan env dev s i n = .error (e, s') →
    ∃ k g' l', k < i + n ∧ scanMem env dev g i n = .failed e (lastEntry env k) g' ∧
      Broken g₀ env dev k s' g' l' := by
  intro n
  induction n with
  | zero => intro i s s' e g l _ hs; cases hs
  | succ n ih =>
    intro i s s' e g l h hs
    rw [scan] at hs
    cases hstep : scanStep env dev s i with
    | error f =>
      rw [hstep] at hs
      obtain rfl := Except.error.inj hs
      obtain ⟨g', hpass, hbroken⟩ := h.pass_failed hstep
      exact ⟨i, g', l, by omega, by rw [scanMem, hpass], hbroken⟩
    | ok s₁ =>
      rw [hstep] at hs
      obtain ⟨g₁, l₁, hpass, h₁⟩ := h.pass_ok hstep
      obtain ⟨k, g', l', hk, hscan, hbroken⟩ := ih h₁ hs
      exact ⟨k, g', l', by omega, by rw [scanMem, hpass]; exact hscan, hbroken⟩

end

/-- The memory before the scan. -/
theorem held_atScan (d : Driver) (dev : Device) (n : Nat) :
    Held ⟨d.bldmsMounted, d.theDevSuperblock, n, d.lastWrittenBlock⟩ dev 0 ⟨[], []⟩ (.atScan d n) [] :=
  ⟨represents_storeOf List.nodup_nil, rfl, by simp, rfl, rfl, rfl, rfl⟩

end Bldms
