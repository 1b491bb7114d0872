/-
  Walking the RCU list, link by link, beside the writers.

  Source: `syscalls.c`, the list scans of `get_data`, `invalidate_data` and the list update of `put_data`;
  `file_ops.c`, the scan of `bldms_read` and its `rcu_next_elem`; `rcu.c`.

  In the calls' own model a scan of the list is one step.  Here it is what it is in the code: a loop that
  reads one `next` link per pass, inside a read-side section, while writers link nodes in, unlink them and —
  a grace period later — release them.  The memory is explicit: `links` has the `struct list_head` of the
  head and of every node, `elem` the other fields of a node.  A node is an ADDRESS; once released it is up
  for reuse.

  * `Walker`    — a read-side section under way.  `visited`, `moments` and `met` are ghosts: the nodes it has
                  been on, the driver at every moment of the section, and how many nodes there were to meet;
  * `RcuMove`   — one step of somebody: a pass of a reader, the critical section of a writer, the end of a
                  grace period.  A step that dereferences what is not in memory has no result;
  * `Sound`     — the invariant: the ring of links is the list of valid blocks, what is in memory is listed
                  or waits for its release, and what a reader has been on or may still get to (`path`, see
                  `Walk`) is in memory and waits for that reader (`Sees`).
-/
import Bldms.Lib.RcuList
import Bldms.ScanMemory

namespace Bldms

open Intrusive

/-! ## Readers -/

/-- What a section searches the list for: a block, or the block at the position of a `read` or else the
    first message newer than the session's timestamp. -/
inductive Search where
  | get (offset : BitVec 32)
  | read (deviceBlk : Nat) (nextTs : Ktime)
  deriving DecidableEq, Repr

/-- The test that leaves the loop. -/
def Search.stops : Search → RcuElem → Bool
  | .get offset, el => el.ndx == offset.toNat
  | .read deviceBlk nextTs, el => el.ndx == deviceBlk || decide (nextTs.toInt < el.nsec.toInt)

/-- The checks before the section. -/
def Search.admitted : Search → Driver → Bool
  | .get offset, d =>
    d.bldmsMounted && decide ((offset.signExtend 64).toNat < d.mdArraySize) && d.theDevSuperblock.isSome
  | .read _ _, _ => true

/-- What is left of them on a device of `n` blocks, mounted: a `get_data` is for one of its blocks. -/
def Search.Within (n : Nat) : Search → Prop
  | .get offset => (offset.signExtend 64).toNat < n
  | .read _ _ => True

/-- A read-side section under way. -/
structure Walker where
  thread : Nat
  search : Search
  /-- Where `rcu_el` is; the head before the first pass, and once the loop has come back to it. -/
  pos : Addr Nat
  ended : Bool
  /-- What `rcu_next_elem` gave, if it has been asked: the node after the one found, if there was one. -/
  beyond : Option (Option RcuElem)
  visited : List Nat
  moments : List Driver
  met : Nat

/-- `rcu_read_lock`, and the loop is about to start. -/
def Walker.start (thread : Nat) (search : Search) (d : Driver) : Walker :=
  ⟨thread, search, .head, false, none, [], [d], d.validBlkList.length⟩

namespace Walker

/-- The loop has been left at a node. -/
def stopped (elem : Nat → RcuElem) (w : Walker) : Bool :=
  match w.pos with
  | .node a => w.search.stops (elem a)
  | .head => false

/-- One pass of `list_for_each_entry_rcu`: follow `next`, and read the node there. -/
def pass (links : LinkStore Nat) (elem : Nat → RcuElem) (w : Walker) : Option Walker :=
  if w.ended || w.stopped elem then some w
  else
    match nextOf links w.pos with
    | some (.to .head) => some { w with pos := .head, ended := true }
    | some (.to (.node b)) =>
      if (links (.node b)).isSome then some { w with pos := .node b, visited := w.visited ++ [b] } else none
    | _ => none

/-- `rcu_next_elem`, once the loop has been left at a node. -/
def nextElem (links : LinkStore Nat) (elem : Nat → RcuElem) (w : Walker) : Option Walker :=
  if w.stopped elem then
    match nextOf links w.pos with
    | some (.to .head) => some { w with beyond := some none }
    | some (.to (.node b)) =>
      if (links (.node b)).isSome then some { w with beyond := some (some (elem b)) } else none
    | _ => none
  else some w

/-- The driver has got to a new state while the section is under way. -/
def see (d : Driver) (w : Walker) : Walker := { w with moments := w.moments ++ [d] }

/-- … with a node more. -/
def seePut (d : Driver) (w : Walker) : Walker := { w.see d with met := w.met + 1 }

end Walker

/-- What a section comes to: the node found, the one after it, and the ghosts. -/
structure WalkResult where
  search : Search
  found : Option RcuElem
  beyond : Option (Option RcuElem)
  visited : List RcuElem
  moments : List Driver
  met : Nat

/-- The node the loop has been left at, once it has been left: none, if that is the head. -/
def Walker.found (elem : Nat → RcuElem) (w : Walker) : Option RcuElem :=
  match w.pos with
  | .node a => some (elem a)
  | .head => none

/-- What a section that is over has come to. -/
def Walker.result (elem : Nat → RcuElem) (w : Walker) : WalkResult where
  search := w.search
  found := w.found elem
  beyond := w.beyond
  visited := w.visited.map elem
  moments := w.moments
  met := w.met

/-! ## The system -/

/-- A thread in `synchronize_rcu`: the node it will release, and the sections it still waits for. -/
structure Grace where
  node : Nat
  waits : List Nat
  deriving DecidableEq, Repr

/-- The driver, its list in memory, the sections under way, the grace periods, and what the sections that
    are over have come to. -/
structure RcuState where
  drv : Driver
  links : LinkStore Nat
  elem : Nat → RcuElem
  walkers : List Walker
  grace : List Grace
  results : List WalkResult

/-- The steps.  The address that `kzalloc` gives to a put's node is an argument. -/
inductive RcuMove where
  | enter (thread : Nat) (search : Search)
  | pass (thread : Nat)
  | nextElem (thread : Nat)
  | leave (thread : Nat)
  | put (e : PutEnv) (m : List Byte) (a : Nat)
  | invalidate (bread : Bool) (offset : BitVec 32)
  | graceEnd (a : Nat)

/-- The scan of `invalidate_data` for the node of block `k`, and `list_del_rcu`. -/
def unlinkBlk (links : LinkStore Nat) (elem : Nat → RcuElem) (k passes : Nat) : Option (Nat × LinkStore Nat) :=
  match forwardFind links (fun b => (elem b).ndx == k) passes (nextOf links .head) with
  | some (.node a) => (listDelRcu links (.node a)).map fun links' => (a, links')
  | _ => none

namespace RcuState

def start (d : Driver) (links : LinkStore Nat) (elem : Nat → RcuElem) : RcuState := ⟨d, links, elem, [], [], []⟩

/-- The section of a thread. -/
def walker (s : RcuState) (thread : Nat) : Option Walker := s.walkers.find? fun w => w.thread == thread

/-- The sections of the other threads. -/
def others (s : RcuState) (thread : Nat) : List Walker := s.walkers.filter fun w => w.thread != thread

/-- A thread takes a step inside its section. -/
def walk (s : RcuState) (thread : Nat) (f : Walker → Option Walker) : Option RcuState :=
  match s.walker thread with
  | none => some s
  | some w => (f w).map fun w' => { s with walkers := w' :: s.others thread }

/-- `rcu_read_unlock`: the section no longer keeps a grace period from ending. -/
def leave (s : RcuState) (thread : Nat) : RcuState :=
  match s.walker thread with
  | none => s
  | some w =>
    { s with
      walkers := s.others thread
      grace := s.grace.map fun g => { g with waits := g.waits.filter (· ≠ thread) }
      results := if w.ended || w.stopped s.elem then s.results ++ [w.result s.elem] else s.results }

/-- The critical section of `put_data`, the new node being at `a`. -/
def put (s : RcuState) (e : PutEnv) (m : List Byte) (a : Nat) : Option RcuState :=
  -- `kzalloc` gives out memory that is not in use
  if (s.links (.node a)).isSome then some s
  else
    match (putData e m s.drv).ret with
    | .ok k =>
      let elem := Function.update s.elem a (elemOf k ⟨e.now, true, BitVec.ofNat 15 m.length⟩)
      -- there is at most one node for each block
      match addInOrderMem s.links elem a s.drv.mdArraySize with
      | none => none
      | some links => some
        { s with
          drv := (putData e m s.drv).drv
          links := links
          elem := elem
          walkers := s.walkers.map (Walker.seePut (putData e m s.drv).drv) }
    | _ => some { s with drv := (putData e m s.drv).drv }

/-- The critical section of `invalidate_data`, which then waits for the sections there are. -/
def invalidate (s : RcuState) (bread : Bool) (offset : BitVec 32) : Option RcuState :=
  match (invalidateData bread offset s.drv).1 with
  | .ok () =>
    match unlinkBlk s.links s.elem offset.toNat s.drv.mdArraySize with
    | none => none
    | some (a, links) => some
      { s with
        drv := (invalidateData bread offset s.drv).2
        links := links
        walkers := s.walkers.map (Walker.see (invalidateData bread offset s.drv).2)
        grace := s.grace ++ [⟨a, s.walkers.map Walker.thread⟩] }
  | _ => some { s with drv := (invalidateData bread offset s.drv).2 }

/-- `synchronize_rcu` returns, and the node is released. -/
def graceEnd (s : RcuState) (a : Nat) : Option RcuState :=
  if (⟨a, []⟩ : Grace) ∈ s.grace then
    (kfree s.links a).map fun links => { s with links := links, grace := s.grace.filter fun g => g.node != a }
  else some s

/-- A step; without a result when memory is dereferenced that is not there. -/
def move (s : RcuState) : RcuMove → Option RcuState
  | .enter thread search =>
    if (s.walker thread).isSome ∨ ¬ search.admitted s.drv then some s
    else some { s with walkers := Walker.start thread search s.drv :: s.walkers }
  | .pass thread => s.walk thread (Walker.pass s.links s.elem)
  | .nextElem thread => s.walk thread (Walker.nextElem s.links s.elem)
  | .leave thread => some (s.leave thread)
  | .put e m a => s.put e m a
  | .invalidate bread offset => s.invalidate bread offset
  | .graceEnd a => s.graceEnd a

end RcuState

/-- The readers, the writers and the grace periods.  The reply says whether the step went through. -/
def rcuList : System RcuState RcuMove Bool where
  step s i :=
    match s.move i with
    | some s' => (true, s')
    | none => (false, s)

/-- The list of a driver, in memory: nothing but its nodes, linked in its order. -/
def InMemory (d : Driver) (links : LinkStore Nat) (elem : Nat → RcuElem) : Prop :=
  ∃ l, Represents links l ∧ l.map elem = d.validBlkList ∧ ∀ a, (links (.node a)).isSome ↔ a ∈ l

/-! ## The invariant -/

/-- The moments of a section under way: mounted throughout, the last one is now, and from one to the next
    the node of a block is not exchanged for another. -/
structure Moments (sb n : Nat) (d : Driver) (ds : List Driver) : Prop where
  now : ds.getLast? = some d
  inv : ∀ d' ∈ ds, Inv sb n d'
  kept : ds.IsChain fun d₁ d₂ =>
    ∀ x ∈ d₁.validBlkList, ∀ y ∈ d₂.validBlkList, x.ndx = y.ndx → x = y

/-- Where a reader is, and that its links lead through `path` back to the head, if it has not come there. -/
structure Route (links : LinkStore Nat) (w : Walker) (path : List Nat) : Prop where
  nodup : (w.visited ++ path).Nodup
  through : w.ended = false → Through links (predOf w.visited) path
  home : w.ended = true → path = []
  pos : w.pos = if w.ended then .head else predOf w.visited

/-- What the nodes `r` that a reader has been on, or may still get to, have to do with the list: with what
    is listed now (`l`), and with what has been listed since its section began. -/
structure View (s : RcuState) (l : List Nat) (w : Walker) (r : List Nat) : Prop where
  /-- They are in memory, and stay there while the section lasts. -/
  scope : ∀ a ∈ r, a ∈ l ∨ ∃ g ∈ s.grace, g.node = a ∧ w.thread ∈ g.waits
  /-- Each has been listed at some moment of the section. -/
  listed : ∀ a ∈ r, ∃ d ∈ w.moments, s.elem a ∈ d.validBlkList
  /-- What has been listed at every moment is among them. -/
  complete : ∀ a ∈ l, (∀ d ∈ w.moments, s.elem a ∈ d.validBlkList) → a ∈ r
  sorted : r.Pairwise fun x y => (s.elem x).time ≤ (s.elem y).time
  /-- They are the list, if that has not changed. -/
  undisturbed : (∀ d ∈ w.moments, d.validBlkList = s.drv.validBlkList) → r = l
  met : r.length ≤ w.met

/-- The node that `rcu_next_elem` gave: no message valid at every moment lies before it and has not been
    met. -/
def Walker.NothingBetween (elem : Nat → RcuElem) (w : Walker) (next : Option RcuElem) : Prop :=
  ∀ el, (∀ d ∈ w.moments, el ∈ d.validBlkList) →
    el ∈ w.visited.map elem ∨ ∃ nx, next = some nx ∧ nx.time ≤ el.time

/-- What is known of a reader. -/
structure Sees (sb n : Nat) (s : RcuState) (l : List Nat) (w : Walker) (path : List Nat) : Prop where
  moments : Moments sb n s.drv w.moments
  route : Route s.links w path
  view : View s l w (w.visited ++ path)
  passed : ∀ a ∈ w.visited, w.pos ≠ .node a → w.search.stops (s.elem a) = false
  beyond : ∀ next, w.beyond = some next → w.NothingBetween s.elem next
  within : w.search.Within n

/-- What is known of a section that is over. -/
structure WalkResult.Good (sb n : Nat) (r : WalkResult) : Prop where
  started : r.moments ≠ []
  inv : ∀ d ∈ r.moments, Inv sb n d
  kept : r.moments.IsChain fun d₁ d₂ =>
    ∀ x ∈ d₁.validBlkList, ∀ y ∈ d₂.validBlkList, x.ndx = y.ndx → x = y
  listed : ∀ el ∈ r.visited, ∃ d ∈ r.moments, el ∈ d.validBlkList
  sorted : KeySorted RcuElem.time r.visited
  /-- The loop was left at the last node visited, … -/
  stopped : ∀ el, r.found = some el → r.search.stops el = true ∧ r.visited.getLast? = some el
  /-- … and at no node before. -/
  passed : ∀ el ∈ r.visited, r.found ≠ some el → r.search.stops el = false
  /-- A message valid at every moment was met, or is not older than what was found. -/
  complete : ∀ el, (∀ d ∈ r.moments, el ∈ d.validBlkList) →
    el ∈ r.visited ∨ ∃ x, r.found = some x ∧ x.time ≤ el.time
  undisturbed : ∀ list : List RcuElem, (∀ d ∈ r.moments, d.validBlkList = list) →
    r.found = list.find? r.search.stops
  bounded : r.visited.length ≤ r.met
  beyond : ∀ next, r.beyond = some next → ∀ el, (∀ d ∈ r.moments, el ∈ d.validBlkList) →
    el ∈ r.visited ∨ ∃ nx, next = some nx ∧ nx.time ≤ el.time
  within : r.search.Within n

/-- The invariant, for the nodes `l` of the list. -/
structure Sound (sb n : Nat) (s : RcuState) (l : List Nat) : Prop where
  inv : Inv sb n s.drv
  ring : Represents s.links l
  list : l.map s.elem = s.drv.validBlkList
  memory : ∀ a, (s.links (.node a)).isSome ↔ a ∈ l ∨ a ∈ s.grace.map Grace.node
  /-- What waits for its release is not listed, and waits only once. -/
  unlinked : (l ++ s.grace.map Grace.node).Nodup
  /-- Only sections under way are waited for. -/
  waits : ∀ g ∈ s.grace, ∀ t ∈ g.waits, ∃ w ∈ s.walkers, w.thread = t
  walkers : ∀ w ∈ s.walkers, ∃ path, Sees sb n s l w path
  results : ∀ r ∈ s.results, r.Good sb n

end Bldms
