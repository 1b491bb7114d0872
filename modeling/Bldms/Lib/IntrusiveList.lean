/-
  Circular doubly linked lists threaded through the nodes themselves.

  The list is a HEAD and the nodes linked to it, each with a `prev` and a `next` link; the links of the
  last node lead back to the head.  A store says which of them are in memory, and with which links; a link
  is an address or POISON, what a deletion leaves behind.  The operations are partial: `none` is a
  dereference of an address that is not in the store, or of poison.

  * `listDel`, `listDelRcu` — take a node out of the list; the first poisons both its links, the second
    leaves `next` for the readers that are still on the node;
  * `kfree`                 — take a node out of the store;
  * `listAddRcu`            — put a node into the store and into the list, after a given address;
  * `reverseFind`           — walk the `prev` links from the end to the first node that meets a condition.

  `Represents m l` is the representation predicate: the ring of links of the store `m` goes through the
  nodes `l`, in this order.  Cut at any gap, the ring is a front, a back and the pair of links over the gap
  (`represents_append`); an operation at the gap keeps the front and the back (`Front.frame`,
  `Back.frame`), so each operation has one lemma, for every position in the list.
-/
import Mathlib

namespace Intrusive

universe u

/-- An address: the head of the list, or a node. -/
inductive Addr (α : Type u) where
  | head
  | node (a : α)
  deriving DecidableEq, Repr

/-- What a link holds. -/
inductive Link (α : Type u) where
  | to (x : Addr α)
  | poison
  deriving DecidableEq, Repr

/-- The links of the head or of a node. -/
structure Links (α : Type u) where
  prev : Link α
  next : Link α
  deriving DecidableEq, Repr

/-- What is in memory, with its links. -/
abbrev LinkStore (α : Type u) := Addr α → Option (Links α)

variable {α : Type u}

/-! ## Reading and writing links -/

/-- The `next` link of what is at `x`, if anything is. -/
def nextOf (m : LinkStore α) (x : Addr α) : Option (Link α) := (m x).map Links.next

/-- The `prev` link of what is at `x`, if anything is. -/
def prevOf (m : LinkStore α) (x : Addr α) : Option (Link α) := (m x).map Links.prev

variable [DecidableEq α]

def setNext (m : LinkStore α) (x : Addr α) (v : Link α) : LinkStore α :=
  Function.update m x ((m x).map fun c => { c with next := v })

def setPrev (m : LinkStore α) (x : Addr α) (v : Link α) : LinkStore α :=
  Function.update m x ((m x).map fun c => { c with prev := v })

@[simp] theorem nextOf_setPrev (m : LinkStore α) (x y : Addr α) (v : Link α) :
    nextOf (setPrev m x v) y = nextOf m y := by
  unfold nextOf setPrev
  by_cases h : y = x
  · subst h; simp [Function.comp_def]
  · rw [Function.update_of_ne h]

@[simp] theorem prevOf_setNext (m : LinkStore α) (x y : Addr α) (v : Link α) :
    prevOf (setNext m x v) y = prevOf m y := by
  unfold prevOf setNext
  by_cases h : y = x
  · subst h; simp [Function.comp_def]
  · rw [Function.update_of_ne h]

theorem nextOf_setNext_of_ne (m : LinkStore α) {x y : Addr α} (v : Link α) (h : y ≠ x) :
    nextOf (setNext m x v) y = nextOf m y := by
  rw [nextOf, setNext, Function.update_of_ne h, nextOf]

theorem prevOf_setPrev_of_ne (m : LinkStore α) {x y : Addr α} (v : Link α) (h : y ≠ x) :
    prevOf (setPrev m x v) y = prevOf m y := by
  rw [prevOf, setPrev, Function.update_of_ne h, prevOf]

theorem nextOf_setNext_self {m : LinkStore α} {x : Addr α} (v : Link α) (h : (m x).isSome) :
    nextOf (setNext m x v) x = some v := by
  obtain ⟨c, hc⟩ := Option.isSome_iff_exists.mp h
  rw [nextOf, setNext, Function.update_self, hc]
  rfl

theorem prevOf_setPrev_self {m : LinkStore α} {x : Addr α} (v : Link α) (h : (m x).isSome) :
    prevOf (setPrev m x v) x = some v := by
  obtain ⟨c, hc⟩ := Option.isSome_iff_exists.mp h
  rw [prevOf, setPrev, Function.update_self, hc]
  rfl

/-- Writing a link neither adds nor removes anything. -/
@[simp] theorem isSome_setNext (m : LinkStore α) (x y : Addr α) (v : Link α) :
    (setNext m x v y).isSome = (m y).isSome := by
  unfold setNext
  by_cases h : y = x
  · subst h; simp
  · rw [Function.update_of_ne h]

@[simp] theorem isSome_setPrev (m : LinkStore α) (x y : Addr α) (v : Link α) :
    (setPrev m x v y).isSome = (m y).isSome := by
  unfold setPrev
  by_cases h : y = x
  · subst h; simp
  · rw [Function.update_of_ne h]

/-! ## The operations -/

/-- `__list_del_entry`: the neighbours of `x` are linked to each other. -/
def listDelEntry (m : LinkStore α) (x : Addr α) : Option (LinkStore α) :=
  match m x with
  | some ⟨.to p, .to n⟩ =>
    if (m p).isSome ∧ (m n).isSome then some (setNext (setPrev m n (.to p)) p (.to n)) else none
  | _ => none

/-- `list_del`: `x` is taken out of the list, and its links are poisoned. -/
def listDel (m : LinkStore α) (x : Addr α) : Option (LinkStore α) :=
  (listDelEntry m x).map fun m' => setPrev (setNext m' x .poison) x .poison

/-- `list_del_rcu`: `x` is taken out of the list, and keeps its `next` link. -/
def listDelRcu (m : LinkStore α) (x : Addr α) : Option (LinkStore α) :=
  (listDelEntry m x).map fun m' => setPrev m' x .poison

/-- `kfree` of a node. -/
def kfree (m : LinkStore α) (a : α) : Option (LinkStore α) :=
  if (m (.node a)).isSome then some (Function.update m (.node a) none) else none

/-- `list_add_rcu`: the node `a` is put after what is at `p`. -/
def listAddRcu (m : LinkStore α) (a : α) (p : Addr α) : Option (LinkStore α) :=
  match nextOf m p with
  | some (.to n) =>
    if (m n).isSome then
      let m₁ := Function.update m (.node a) (some ⟨.to p, .to n⟩)
      some (setPrev (setNext m₁ p (.to (.node a))) n (.to (.node a)))
    else none
  | _ => none

/-- `list_add_tail_rcu`: the node `a` is put before the head. -/
def listAddTailRcu (m : LinkStore α) (a : α) : Option (LinkStore α) :=
  match prevOf m .head with
  | some (.to p) => listAddRcu m a p
  | _ => none

/-- The walk of `list_for_each_entry_reverse` to the first node that meets `c`, or to the head; `none` when
    it does not get there in `passes` passes, or meets poison. -/
def reverseFind (m : LinkStore α) (c : α → Bool) : Nat → Option (Link α) → Option (Addr α)
  | _, some (.to .head) => some .head
  | passes + 1, some (.to (.node a)) =>
    if c a then some (.node a) else reverseFind m c passes (prevOf m (.node a))
  | _, _ => none

/-! ## The ring of links -/

omit [DecidableEq α] in
/-- A relation that gets weaker on the pairs of a chain keeps the chain. -/
theorem isChain_frame {β : Type*} {R S : β → β → Prop} {l : List β} (h : l.IsChain R)
    (himp : ∀ x ∈ l.dropLast, ∀ y ∈ l.tail, R x y → S x y) : l.IsChain S := by
  induction h with
  | nil => exact .nil
  | singleton a => exact .singleton a
  | @cons_cons a b l hab _ ih =>
    refine .cons_cons (himp a ?_ b List.mem_cons_self hab) (ih ?_)
    · exact List.mem_cons_self
    · intro x hx y hy
      exact himp x (List.mem_cons_of_mem a hx) y (List.mem_cons_of_mem b hy)

/-- `y` follows `x`, by the links of both. -/
structure Linked (m : LinkStore α) (x y : Addr α) : Prop where
  next : nextOf m x = some (.to y)
  prev : prevOf m y = some (.to x)

/-- The addresses before a gap: the head, and the nodes in front of it. -/
def frontOf (pre : List α) : List (Addr α) := .head :: pre.map .node

/-- The addresses after a gap: the nodes behind it, and the head. -/
def backOf (post : List α) : List (Addr α) := post.map .node ++ [.head]

/-- The address before the gap. -/
def predOf (pre : List α) : Addr α := (frontOf pre).getLast (List.cons_ne_nil _ _)

/-- The address after the gap. -/
def succOf : List α → Addr α
  | [] => .head
  | a :: _ => .node a

/-- The ring of links goes through the nodes `l`, in this order. -/
structure Represents (m : LinkStore α) (l : List α) : Prop where
  nodup : l.Nodup
  ring : (frontOf l ++ [Addr.head]).IsChain (Linked m)

/-- The links of the front of a gap. -/
def Front (m : LinkStore α) (pre : List α) : Prop := (frontOf pre).IsChain (Linked m)

/-- The links of the back of a gap. -/
def Back (m : LinkStore α) (post : List α) : Prop := (backOf post).IsChain (Linked m)

section Cut

omit [DecidableEq α]

@[simp] theorem predOf_nil : predOf ([] : List α) = .head := rfl

@[simp] theorem predOf_concat (pre : List α) (a : α) : predOf (pre ++ [a]) = .node a := by
  simp [predOf, frontOf]

theorem nodup_frontOf {pre : List α} (h : pre.Nodup) : (frontOf pre).Nodup := by
  refine List.nodup_cons.mpr ⟨by simp, h.map ?_⟩
  intro a b hab
  exact Addr.node.inj hab

theorem nodup_backOf {post : List α} (h : post.Nodup) : (backOf post).Nodup := by
  have hperm : (backOf post).Perm (frontOf post) := List.perm_append_singleton _ _
  exact hperm.nodup_iff.mpr (nodup_frontOf h)

theorem backOf_eq_cons (post : List α) : backOf post = succOf post :: (backOf post).tail := by
  cases post <;> rfl

theorem frontOf_eq_concat (pre : List α) : frontOf pre = (frontOf pre).dropLast ++ [predOf pre] :=
  (List.dropLast_append_getLast _).symm

/-- The ring, cut at a gap. -/
theorem ring_append (m : LinkStore α) (pre post : List α) :
    (frontOf (pre ++ post) ++ [Addr.head]).IsChain (Linked m) ↔
      Front m pre ∧ Back m post ∧ Linked m (predOf pre) (succOf post) := by
  have hring : frontOf (pre ++ post) ++ [Addr.head] = frontOf pre ++ backOf post := by
    simp [frontOf, backOf]
  have hlast : (frontOf pre).getLast? = some (predOf pre) := List.getLast?_eq_getLast_of_ne_nil _
  have hfirst : (backOf post).head? = some (succOf post) := by rw [backOf_eq_cons]; rfl
  rw [hring, List.isChain_append, hlast, hfirst]
  constructor
  · rintro ⟨hf, hb, hgap⟩
    exact ⟨hf, hb, hgap _ rfl _ rfl⟩
  · rintro ⟨hf, hb, hgap⟩
    refine ⟨hf, hb, ?_⟩
    rintro x ⟨⟩ y ⟨⟩
    exact hgap

/-- A list cut at a gap. -/
theorem represents_append (m : LinkStore α) (pre post : List α) :
    Represents m (pre ++ post) ↔
      (pre ++ post).Nodup ∧ Front m pre ∧ Back m post ∧ Linked m (predOf pre) (succOf post) :=
  ⟨fun h => ⟨h.nodup, (ring_append m pre post).mp h.ring⟩,
    fun h => ⟨h.1, (ring_append m pre post).mpr h.2⟩⟩

theorem back_cons {m : LinkStore α} {a : α} {post : List α} :
    Back m (a :: post) ↔ Linked m (.node a) (succOf post) ∧ Back m post := by
  show List.IsChain (Linked m) (.node a :: backOf post) ↔ _
  rw [Back, backOf_eq_cons, List.isChain_cons_cons]

theorem front_concat {m : LinkStore α} {pre : List α} {a : α} :
    Front m (pre ++ [a]) ↔ Front m pre ∧ Linked m (predOf pre) (.node a) := by
  have hcut : frontOf (pre ++ [a]) = (frontOf pre).dropLast ++ predOf pre :: [.node a] := by
    have h := frontOf_eq_concat pre
    simp only [frontOf, List.map_append, List.map_cons, List.map_nil] at h ⊢
    rw [← List.cons_append, h]
    simp
  rw [Front, hcut, List.isChain_append_cons_cons, ← frontOf_eq_concat]
  simp [Front]

/-- The empty list: the head is linked to itself. -/
theorem represents_nil {m : LinkStore α} : Represents m [] ↔ Linked m .head .head := by
  have h := represents_append m [] []
  rw [List.nil_append] at h
  rw [h]
  refine ⟨fun h => h.2.2.2, fun h => ⟨List.nodup_nil, .singleton _, .singleton _, h⟩⟩

/-- The front of a gap depends on the `next` links up to the gap and on the `prev` links of its nodes. -/
theorem Front.frame {m m' : LinkStore α} {pre : List α} (hn : pre.Nodup) (h : Front m pre)
    (hnext : ∀ x ∈ frontOf pre, x ≠ predOf pre → nextOf m' x = nextOf m x)
    (hprev : ∀ a ∈ pre, prevOf m' (.node a) = prevOf m (.node a)) : Front m' pre := by
  refine isChain_frame h ?_
  intro x hx y hy hxy
  have hne : x ≠ predOf pre := by
    rintro rfl
    have hnodup := nodup_frontOf hn
    rw [frontOf_eq_concat] at hnodup
    exact List.disjoint_of_nodup_append hnodup hx (List.mem_singleton.mpr rfl)
  obtain ⟨a, ha, rfl⟩ := List.mem_map.mp hy
  exact ⟨(hnext x (List.mem_of_mem_dropLast hx) hne).trans hxy.next, (hprev a ha).trans hxy.prev⟩

/-- The back of a gap depends on the `next` links of its nodes and on the `prev` links after the gap. -/
theorem Back.frame {m m' : LinkStore α} {post : List α} (hn : post.Nodup) (h : Back m post)
    (hnext : ∀ a ∈ post, nextOf m' (.node a) = nextOf m (.node a))
    (hprev : ∀ x ∈ backOf post, x ≠ succOf post → prevOf m' x = prevOf m x) : Back m' post := by
  refine isChain_frame h ?_
  intro x hx y hy hxy
  have hne : y ≠ succOf post := by
    rintro rfl
    have hnodup := nodup_backOf hn
    rw [backOf_eq_cons] at hnodup
    exact (List.nodup_cons.mp hnodup).1 hy
  have hnode : x ∈ post.map Addr.node := by
    rwa [backOf, List.dropLast_concat] at hx
  obtain ⟨a, ha, rfl⟩ := List.mem_map.mp hnode
  exact ⟨(hnext a ha).trans hxy.next, (hprev y (List.mem_of_mem_tail hy) hne).trans hxy.prev⟩

/-- The ring of `l` depends on nothing but the head and the nodes of `l`. -/
theorem Represents.congr {m m' : LinkStore α} {l : List α} (h : Represents m l)
    (heq : ∀ x ∈ frontOf l, m' x = m x) : Represents m' l := by
  refine ⟨h.nodup, isChain_frame h.ring ?_⟩
  intro x hx y hy hxy
  rw [List.dropLast_concat] at hx
  have hy' : y ∈ frontOf l := by
    rcases List.mem_append.mp hy with hy | hy
    · exact List.mem_cons_of_mem _ hy
    · exact List.mem_singleton.mp hy ▸ List.mem_cons_self
  exact ⟨by rw [nextOf, heq x hx]; exact hxy.next, by rw [prevOf, heq y hy']; exact hxy.prev⟩

/-- From the head, the ring leads to the first node of the list, and backwards to the last one. -/
theorem Represents.first {m : LinkStore α} {l : List α} (h : Represents m l) :
    nextOf m .head = some (.to (succOf l)) := ((ring_append m [] l).mp h.ring).2.2.next

theorem Represents.last {m : LinkStore α} {l : List α} (h : Represents m l) :
    prevOf m .head = some (.to (predOf l)) := by
  have hring := h.ring
  rw [← List.append_nil l] at hring
  exact ((ring_append m l []).mp hring).2.2.prev

theorem node_mem_frontOf {a : α} {l : List α} : .node a ∈ frontOf l ↔ a ∈ l := by
  simp [frontOf]

theorem node_ne_succOf {a : α} {l : List α} (h : a ∉ l) : .node a ≠ succOf l := by
  cases l with
  | nil => intro heq; cases heq
  | cons b l =>
    intro heq
    exact h (Addr.node.inj heq ▸ List.mem_cons_self)

theorem predOf_mem_frontOf (l : List α) : predOf l ∈ frontOf l := List.getLast_mem _

theorem node_ne_predOf {a : α} {l : List α} (h : a ∉ l) : .node a ≠ predOf l := by
  intro heq
  exact h (node_mem_frontOf.mp (heq ▸ predOf_mem_frontOf l))

theorem ne_node_of_mem_frontOf {a : α} {l : List α} (ha : a ∉ l) {x : Addr α} (hx : x ∈ frontOf l) :
    x ≠ .node a := by
  rintro rfl
  exact ha (node_mem_frontOf.mp hx)

theorem not_mem_of_nodup_append {pre post : List α} {a : α} (h : (pre ++ a :: post).Nodup) :
    a ∉ pre ++ post := (List.nodup_cons.mp (List.nodup_middle.mp h)).1

/-- The nodes in front of a gap are not the first one behind it, and those behind it are not the last in front. -/
theorem ne_succOf_of_mem {pre post : List α} (h : (pre ++ post).Nodup) {b : α} (hb : b ∈ pre) :
    .node b ≠ succOf post :=
  node_ne_succOf fun hb' => List.disjoint_of_nodup_append h hb hb'

theorem ne_predOf_of_mem {pre post : List α} (h : (pre ++ post).Nodup) {b : α} (hb : b ∈ post) :
    .node b ≠ predOf pre :=
  node_ne_predOf fun hb' => List.disjoint_of_nodup_append h hb' hb

theorem isSome_of_nextOf {m : LinkStore α} {x : Addr α} {v : Link α} (h : nextOf m x = some v) :
    (m x).isSome := by
  rw [nextOf] at h
  obtain ⟨c, hc, -⟩ := Option.map_eq_some_iff.mp h
  rw [hc]
  rfl

theorem isSome_of_prevOf {m : LinkStore α} {x : Addr α} {v : Link α} (h : prevOf m x = some v) :
    (m x).isSome := by
  rw [prevOf] at h
  obtain ⟨c, hc, -⟩ := Option.map_eq_some_iff.mp h
  rw [hc]
  rfl

end Cut

/-! ## What the operations do to the ring -/

/-- A node is taken out of the ring, at any position; its own links stay. -/
theorem Represents.listDelEntry {m : LinkStore α} {pre post : List α} {a : α}
    (h : Represents m (pre ++ a :: post)) :
    ∃ m', listDelEntry m (.node a) = some m' ∧ Represents m' (pre ++ post) ∧
      nextOf m' (.node a) = some (.to (succOf post)) := by
  obtain ⟨hnodup, hfront, hback, hin⟩ := (represents_append m pre (a :: post)).mp h
  obtain ⟨hout, hback⟩ := back_cons.mp hback
  obtain ⟨ha, hnodup'⟩ := List.nodup_cons.mp (List.nodup_middle.mp hnodup)
  obtain ⟨hpre, hpost, -⟩ := List.nodup_append.mp hnodup'
  have hapre : a ∉ pre := fun h => ha (List.mem_append_left post h)
  have hp : (m (predOf pre)).isSome := isSome_of_nextOf hin.next
  have hn : (m (succOf post)).isSome := isSome_of_prevOf hout.prev
  have hcell : m (.node a) = some ⟨.to (predOf pre), .to (succOf post)⟩ := by
    obtain ⟨c, hc⟩ := Option.isSome_iff_exists.mp (isSome_of_nextOf hout.next)
    have hnext := hout.next
    have hprev : prevOf m (.node a) = some (.to (predOf pre)) := hin.prev
    rw [nextOf, hc, Option.map_some, Option.some.injEq] at hnext
    rw [prevOf, hc, Option.map_some, Option.some.injEq] at hprev
    rw [hc, ← hnext, ← hprev]
  -- the two links that are written are the last of the front and the first of the back
  refine ⟨setNext (setPrev m (succOf post) (.to (predOf pre))) (predOf pre) (.to (succOf post)),
    ?_, (represents_append _ pre post).mpr ⟨?_, ?_, ?_, ?_⟩, ?_⟩
  · rw [Intrusive.listDelEntry, hcell]
    dsimp only
    rw [if_pos ⟨hp, hn⟩]
  · exact hnodup'
  · refine hfront.frame hpre ?_ ?_
    · intro x _ hx
      rw [nextOf_setNext_of_ne _ _ hx, nextOf_setPrev]
    · intro b hb
      rw [prevOf_setNext, prevOf_setPrev_of_ne _ _ (ne_succOf_of_mem hnodup' hb)]
  · refine hback.frame hpost ?_ ?_
    · intro b hb
      rw [nextOf_setNext_of_ne _ _ (ne_predOf_of_mem hnodup' hb), nextOf_setPrev]
    · intro x _ hx
      rw [prevOf_setNext, prevOf_setPrev_of_ne _ _ hx]
  · refine ⟨nextOf_setNext_self _ (by simpa using hp), ?_⟩
    rw [prevOf_setNext]
    exact prevOf_setPrev_self _ hn
  · rw [nextOf_setNext_of_ne _ _ (node_ne_predOf hapre), nextOf_setPrev]
    exact hout.next

/-- What a deletion `del` does, at any position of a list: the ring closes over the gap, and `next` of the
    node leads to `link` of its successor. -/
structure Unlinks (del : LinkStore α → Addr α → Option (LinkStore α)) (link : Addr α → Link α) : Prop where
  unlink : ∀ {m : LinkStore α} {pre post : List α} {a : α}, Represents m (pre ++ a :: post) →
    ∃ m', del m (.node a) = some m' ∧ Represents m' (pre ++ post) ∧
      nextOf m' (.node a) = some (link (succOf post))

/-- Writing the links of a node outside the list leaves the list alone. -/
theorem Represents.write_next {m : LinkStore α} {l : List α} (h : Represents m l) {a : α} (ha : a ∉ l)
    (v : Link α) : Represents (setNext m (.node a) v) l :=
  h.congr fun _ hx => Function.update_of_ne (ne_node_of_mem_frontOf ha hx) _ _

theorem Represents.write_prev {m : LinkStore α} {l : List α} (h : Represents m l) {a : α} (ha : a ∉ l)
    (v : Link α) : Represents (setPrev m (.node a) v) l :=
  h.congr fun _ hx => Function.update_of_ne (ne_node_of_mem_frontOf ha hx) _ _

theorem unlinks_listDelRcu : Unlinks (α := α) listDelRcu Link.to := by
  constructor
  intro m pre post a h
  obtain ⟨m', hm', hrep, hnext⟩ := h.listDelEntry
  refine ⟨setPrev m' (.node a) .poison, ?_, ?_, ?_⟩
  · rw [listDelRcu, hm']
    rfl
  · exact hrep.write_prev (not_mem_of_nodup_append h.nodup) _
  · rw [nextOf_setPrev]
    exact hnext

theorem unlinks_listDel : Unlinks (α := α) listDel fun _ => .poison := by
  constructor
  intro m pre post a h
  obtain ⟨m', hm', hrep, hnext⟩ := h.listDelEntry
  have ha := not_mem_of_nodup_append h.nodup
  refine ⟨setPrev (setNext m' (.node a) .poison) (.node a) .poison, ?_, ?_, ?_⟩
  · rw [listDel, hm']
    rfl
  · exact (hrep.write_next ha _).write_prev ha _
  · rw [nextOf_setPrev]
    exact nextOf_setNext_self _ (isSome_of_nextOf hnext)

/-- Releasing a node outside the list leaves the list alone. -/
theorem Represents.kfree {m : LinkStore α} {l : List α} (h : Represents m l) {a : α} (ha : a ∉ l)
    (hin : (m (.node a)).isSome) :
    kfree m a = some (Function.update m (.node a) none) ∧
      Represents (Function.update m (.node a) none) l :=
  ⟨if_pos hin, h.congr fun _ hx => Function.update_of_ne (ne_node_of_mem_frontOf ha hx) _ _⟩

/-- A node is put into the ring, at any position. -/
theorem Represents.listAddRcu {m : LinkStore α} {pre post : List α} (h : Represents m (pre ++ post)) {a : α}
    (ha : a ∉ pre ++ post) :
    ∃ m', listAddRcu m a (predOf pre) = some m' ∧ Represents m' (pre ++ a :: post) := by
  obtain ⟨hnodup, hfront, hback, hgap⟩ := (represents_append m pre post).mp h
  obtain ⟨hpre, hpost, -⟩ := List.nodup_append.mp hnodup
  have hapre : a ∉ pre := fun h => ha (List.mem_append_left post h)
  have hapost : a ∉ post := fun h => ha (List.mem_append_right pre h)
  have hp : (m (predOf pre)).isSome := isSome_of_nextOf hgap.next
  have hn : (m (succOf post)).isSome := isSome_of_prevOf hgap.prev
  -- the store with the new node in it, not linked to yet
  generalize hm₁ : Function.update m (.node a) (some ⟨.to (predOf pre), .to (succOf post)⟩) = m₁
  have hself : m₁ (.node a) = some ⟨.to (predOf pre), .to (succOf post)⟩ := by
    rw [← hm₁, Function.update_self]
  have hother : ∀ {x : Addr α}, x ≠ .node a → m₁ x = m x := by
    intro x hx
    rw [← hm₁, Function.update_of_ne hx]
  have hmem : ∀ b, b ∈ pre ∨ b ∈ post → Addr.node b ≠ .node a := by
    intro b hb heq
    obtain rfl := Addr.node.inj heq
    exact hb.elim hapre hapost
  refine ⟨setPrev (setNext m₁ (predOf pre) (.to (.node a))) (succOf post) (.to (.node a)),
    ?_, (represents_append _ pre (a :: post)).mpr ⟨?_, ?_, back_cons.mpr ⟨?_, ?_⟩, ?_⟩⟩
  · rw [Intrusive.listAddRcu, hgap.next]
    dsimp only
    rw [if_pos hn, hm₁]
  · exact List.nodup_middle.mpr (List.nodup_cons.mpr ⟨ha, hnodup⟩)
  · refine hfront.frame hpre ?_ ?_
    · intro x hx hne
      rw [nextOf_setPrev, nextOf_setNext_of_ne _ _ hne, nextOf, hother (ne_node_of_mem_frontOf hapre hx),
        nextOf]
    · intro b hb
      rw [prevOf_setPrev_of_ne _ _ (ne_succOf_of_mem hnodup hb), prevOf_setNext, prevOf,
        hother (hmem b (.inl hb)), prevOf]
  · refine ⟨?_, prevOf_setPrev_self _ ?_⟩
    · rw [nextOf_setPrev, nextOf_setNext_of_ne _ _ (node_ne_predOf hapre), nextOf, hself]
      rfl
    · rw [isSome_setNext, hother (node_ne_succOf hapost).symm]
      exact hn
  · refine hback.frame hpost ?_ ?_
    · intro b hb
      rw [nextOf_setPrev, nextOf_setNext_of_ne _ _ (ne_predOf_of_mem hnodup hb), nextOf,
        hother (hmem b (.inr hb)), nextOf]
    · intro x hx hne
      have hx' : x ≠ .node a := by
        rintro rfl
        rcases List.mem_append.mp hx with hx | hx
        · obtain ⟨b, hb, heq⟩ := List.mem_map.mp hx
          exact hmem b (.inr hb) heq
        · cases List.mem_singleton.mp hx
      rw [prevOf_setPrev_of_ne _ _ hne, prevOf_setNext, prevOf, hother hx', prevOf]
  · refine ⟨?_, ?_⟩
    · rw [nextOf_setPrev]
      refine nextOf_setNext_self _ ?_
      rw [hother (node_ne_predOf hapre).symm]
      exact hp
    · show prevOf _ (.node a) = _
      rw [prevOf_setPrev_of_ne _ _ (node_ne_succOf hapost), prevOf_setNext, prevOf, hself]
      rfl

/-- `list_add_tail_rcu` is `list_add_rcu` after the last node. -/
theorem Represents.listAddTailRcu {m : LinkStore α} {l : List α} (h : Represents m l) (a : α) :
    listAddTailRcu m a = Intrusive.listAddRcu m a (predOf l) := by
  rw [Intrusive.listAddTailRcu, h.last]

omit [DecidableEq α] in
/-- The backward walk stops at the last node that meets the condition, or at the head. -/
theorem Represents.reverseFind {m : LinkStore α} {c : α → Bool} {l : List α} :
    ∀ {post : List α} {passes : Nat}, Represents m (l ++ post) → l.length ≤ passes →
      reverseFind m c passes (some (.to (predOf l))) =
        some (predOf (l.reverse.dropWhile fun a => !c a).reverse) := by
  induction l using List.reverseRecOn with
  | nil =>
    intro post passes _ _
    cases passes <;> rfl
  | append_singleton l b ih =>
    intro post passes h hlen
    rw [List.length_append, List.length_singleton] at hlen
    obtain ⟨passes, rfl⟩ := Nat.exists_eq_add_one_of_ne_zero (show passes ≠ 0 by omega)
    rw [predOf_concat, Intrusive.reverseFind, List.reverse_concat, List.dropWhile_cons]
    by_cases hb : c b = true
    · rw [if_pos hb, hb]
      simp
    · have hprev : prevOf m (.node b) = some (.to (predOf l)) := by
        obtain ⟨-, hfront, -⟩ := (represents_append m (l ++ [b]) post).mp h
        exact (front_concat.mp hfront).2.prev
      rw [List.append_assoc] at h
      rw [if_neg hb, hprev, ih h (by omega), if_pos (by simpa using hb)]

/-! ## A store for every list -/

/-- Nothing but the head, linked to itself. -/
def emptyStore : LinkStore α := fun x => if x = .head then some ⟨.to .head, .to .head⟩ else none

/-- The store that putting the nodes of `l` at the front of the list, one by one, builds. -/
def storeOf : List α → LinkStore α
  | [] => emptyStore
  | a :: l => (listAddRcu (storeOf l) a .head).getD (storeOf l)

theorem represents_storeOf : ∀ {l : List α}, l.Nodup → Represents (storeOf l) l
  | [], _ => represents_nil.mpr ⟨by simp [storeOf, nextOf, emptyStore], by simp [storeOf, prevOf, emptyStore]⟩
  | a :: l, h => by
    obtain ⟨ha, hl⟩ := List.nodup_cons.mp h
    have hrest : Represents (storeOf l) ([] ++ l) := represents_storeOf hl
    obtain ⟨m', hm', hrep⟩ := hrest.listAddRcu ha
    rw [storeOf]
    rw [predOf_nil] at hm'
    rw [hm']
    exact hrep

end Intrusive
