/-
  Reading a linked list while it changes.

  A reader goes through the list by its `next` links, one link at a time; between two of its steps nodes are
  put into the list and taken out of it, and a node that has been taken out keeps its `next` link for the
  readers that are still on it.  What such a reader sees is no list that ever was.  But at every moment the
  links lead from where it is, through some nodes, back to the head:

  * `Through m x path` — the `next` links lead from `x` through the nodes `path` to the head;
  * `Walk m visited path` — a reader that has been on the nodes `visited`, and would be on `path` next if
    nobody interfered; no node is met twice.

  `path` is the invariant that carries every argument about a reader.  Putting a node in puts it into `path`
  or leaves `path` alone (`Walk.insert`); taking a node out takes it out of `path` or leaves `path` alone
  (`Walk.remove`); both because only ONE `next` link that a reader may meet is written
  (`nextOf_listAddRcu`, `nextOf_listDelRcu`).  So a node that stays in the list stays ahead of the reader until
  it has been met, and a node ahead of the reader is one the reader may be on: `path` says at once what a
  reader cannot miss and what must not be released.
-/
import Bldms.Lib.IntrusiveList

namespace Intrusive

universe u

variable {α : Type u}

/-! ## The links that are written -/

section Effects

variable [DecidableEq α] {m m' : LinkStore α} {a : α}

/-- What `list_add_rcu` after `p` does to the `next` links. -/
structure Adds (m m' : LinkStore α) (a : α) (p n : Addr α) : Prop where
  old : nextOf m p = some (.to n)
  fresh : p ≠ .node a
  before : nextOf m' p = some (.to (.node a))
  after : nextOf m' (.node a) = some (.to n)
  others : ∀ x, x ≠ p → x ≠ .node a → nextOf m' x = nextOf m x

/-- What `list_del_rcu` of the node after `p` does to the `next` links. -/
structure Dels (m m' : LinkStore α) (a : α) (p n : Addr α) : Prop where
  old : nextOf m p = some (.to (.node a))
  own : nextOf m (.node a) = some (.to n)
  before : nextOf m' p = some (.to n)
  others : ∀ x, x ≠ p → nextOf m' x = nextOf m x

/-- A node that was not in memory is put after `p`. -/
theorem adds_listAddRcu {p n : Addr α} (hp : nextOf m p = some (.to n)) (hn : (m n).isSome)
    (ha : m (.node a) = none) :
    ∃ m', listAddRcu m a p = some m' ∧ Adds m m' a p n ∧
      ∀ x, (m' x).isSome ↔ x = .node a ∨ (m x).isSome := by
  have hpa : p ≠ .node a := by
    rintro rfl
    rw [nextOf, ha] at hp
    cases hp
  have hadd : listAddRcu m a p = some (setPrev (setNext
      (Function.update m (.node a) (some ⟨.to p, .to n⟩)) p (.to (.node a))) n (.to (.node a))) := by
    rw [listAddRcu, hp]
    dsimp only
    rw [if_pos hn]
  generalize hm₁ : Function.update m (.node a) (some ⟨.to p, .to n⟩) = m₁ at hadd
  have hself : m₁ (.node a) = some ⟨.to p, .to n⟩ := by rw [← hm₁, Function.update_self]
  have hother : ∀ x, x ≠ .node a → m₁ x = m x := by
    intro x hx
    rw [← hm₁, Function.update_of_ne hx]
  have hin : (m₁ p).isSome := by
    rw [hother p hpa]
    exact isSome_of_nextOf hp
  refine ⟨_, hadd, ⟨hp, hpa, ?_, ?_, ?_⟩, ?_⟩
  · rw [nextOf_setPrev, nextOf_setNext_self _ hin]
  · rw [nextOf_setPrev, nextOf_setNext_of_ne _ _ hpa.symm, nextOf, hself]
    rfl
  · intro x hxp hxa
    rw [nextOf_setPrev, nextOf_setNext_of_ne _ _ hxp, nextOf, hother x hxa, nextOf]
  · intro x
    rw [isSome_setPrev, isSome_setNext]
    by_cases hx : x = .node a
    · simp [hx, hself]
    · simp [hx, hother x hx]

/-- A node between `p` and `n` is taken out. -/
theorem dels_listDelRcu {p n : Addr α} (hin : Linked m p (.node a)) (hout : Linked m (.node a) n) :
    ∃ m', listDelRcu m (.node a) = some m' ∧ Dels m m' a p n ∧ ∀ x, (m' x).isSome = (m x).isSome := by
  have hp : (m p).isSome := isSome_of_nextOf hin.next
  have hn : (m n).isSome := isSome_of_prevOf hout.prev
  have hcell : m (.node a) = some ⟨.to p, .to n⟩ := by
    obtain ⟨c, hc⟩ := Option.isSome_iff_exists.mp (isSome_of_nextOf hout.next)
    have hnext := hout.next
    have hprev := hin.prev
    rw [nextOf, hc, Option.map_some, Option.some.injEq] at hnext
    rw [prevOf, hc, Option.map_some, Option.some.injEq] at hprev
    rw [hc, ← hnext, ← hprev]
  have hdel : listDelRcu m (.node a) =
      some (setPrev (setNext (setPrev m n (.to p)) p (.to n)) (.node a) .poison) := by
    rw [listDelRcu, listDelEntry, hcell]
    dsimp only
    rw [if_pos ⟨hp, hn⟩]
    rfl
  refine ⟨_, hdel, ⟨hin.next, hout.next, ?_, ?_⟩, ?_⟩
  · rw [nextOf_setPrev, nextOf_setNext_self _ (by simpa using hp)]
  · intro x hx
    rw [nextOf_setPrev, nextOf_setNext_of_ne _ _ hx, nextOf_setPrev]
  · intro x
    rw [isSome_setPrev, isSome_setNext, isSome_setPrev]

end Effects

/-! ## Where the links lead -/

/-- The `next` links lead from `x` through the nodes of the list to the head. -/
def Through (m : LinkStore α) : Addr α → List α → Prop
  | x, [] => nextOf m x = some (.to .head)
  | x, a :: path => nextOf m x = some (.to (.node a)) ∧ Through m (.node a) path

variable {m m' : LinkStore α} {x : Addr α} {path visited : List α} {a b : α}

/-- What follows is the first node of the path, or the head. -/
theorem Through.next (h : Through m x path) : nextOf m x = some (.to (succOf path)) := by
  cases path with
  | nil => exact h
  | cons a path => exact h.1

/-- The path depends on the links of where it starts and of its nodes. -/
theorem Through.frame (h : Through m x path) (hx : nextOf m' x = nextOf m x)
    (hpath : ∀ b ∈ path, nextOf m' (.node b) = nextOf m (.node b)) : Through m' x path := by
  induction path generalizing x with
  | nil => exact hx.trans h
  | cons a path ih =>
    obtain ⟨ha, hrest⟩ := h
    refine ⟨hx.trans ha, ih hrest (hpath a List.mem_cons_self) ?_⟩
    exact fun b hb => hpath b (List.mem_cons_of_mem a hb)

/-- The ring leads from a gap through the nodes behind it. -/
theorem Represents.through_gap {pre post : List α} (h : Represents m (pre ++ post)) :
    Through m (predOf pre) post := by
  induction post generalizing pre with
  | nil => exact ((represents_append m pre []).mp h).2.2.2.next
  | cons a post ih =>
    refine ⟨((represents_append m pre (a :: post)).mp h).2.2.2.next, ?_⟩
    have hrest : Represents m ((pre ++ [a]) ++ post) := by rwa [List.append_assoc]
    have hthrough := ih hrest
    rwa [predOf_concat] at hthrough

/-- The walk of `list_for_each_entry` to the first node that meets `c`, or to the head; `none` when it does
    not get there in `passes` passes, or meets poison. -/
def forwardFind (m : LinkStore α) (c : α → Bool) : Nat → Option (Link α) → Option (Addr α)
  | _, some (.to .head) => some .head
  | passes + 1, some (.to (.node a)) =>
    if c a then some (.node a) else forwardFind m c passes (nextOf m (.node a))
  | _, _ => none

/-- The walk stops at the first node of the path that meets the condition, or at the head. -/
theorem Through.forwardFind {c : α → Bool} (h : Through m x path) :
    ∀ {passes : Nat}, path.length ≤ passes →
      forwardFind m c passes (nextOf m x) = some (succOf (path.dropWhile fun a => !c a)) := by
  induction path generalizing x with
  | nil =>
    intro passes _
    rw [show nextOf m x = some (.to .head) from h]
    cases passes <;> rfl
  | cons a path ih =>
    intro passes hlen
    obtain ⟨ha, hrest⟩ := h
    rw [List.length_cons] at hlen
    obtain ⟨passes, rfl⟩ := Nat.exists_eq_add_one_of_ne_zero (show passes ≠ 0 by omega)
    rw [ha, Intrusive.forwardFind, List.dropWhile_cons]
    by_cases hc : c a = true
    · rw [if_pos hc, hc]
      rfl
    · rw [if_neg hc, if_pos (by simpa using hc)]
      exact ih hrest (by omega)

/-! ## Readers -/

/-- A reader that has been on the nodes `visited` would be on `path` next. -/
structure Walk (m : LinkStore α) (visited path : List α) : Prop where
  nodup : (visited ++ path).Nodup
  through : Through m (predOf visited) path

namespace Walk

/-- A reader about to start will be on the nodes of the list. -/
theorem start {l : List α} (h : Represents m l) : Walk m [] l :=
  ⟨h.nodup, Represents.through_gap (show Represents m ([] ++ l) from h)⟩

/-- What the reader's next link is, … -/
theorem next (h : Walk m visited path) : nextOf m (predOf visited) = some (.to (succOf path)) :=
  h.through.next

/-- … and what is left after following it. -/
theorem advance (h : Walk m visited (a :: path)) : Walk m (visited ++ [a]) path := by
  constructor
  · rw [List.append_assoc]
    exact h.nodup
  · rw [predOf_concat]
    exact h.through.2

/-- Links of nodes that the reader does not meet any more may change. -/
theorem frame (h : Walk m visited path) (hself : nextOf m' (predOf visited) = nextOf m (predOf visited))
    (hpath : ∀ b ∈ path, nextOf m' (.node b) = nextOf m (.node b)) : Walk m' visited path :=
  ⟨h.nodup, h.through.frame hself hpath⟩

/-- How a path changes when the node `a` is put between `p` and `n`: it does not, or `a` is put into it,
    between `p` and `n`. -/
inductive Gains (visited : List α) (a : α) (p n : Addr α) (path : List α) : List α → Prop
  | same : Gains visited a p n path path
  | put (pre post : List α) : path = pre ++ post → p = predOf (visited ++ pre) → n = succOf post →
      Gains visited a p n path (pre ++ a :: post)

/-- How a path changes when the node `a` is taken out: it does not, or it loses `a`. -/
inductive Loses (a : α) (path : List α) : List α → Prop
  | same : Loses a path path
  | cut (pre post : List α) : path = pre ++ a :: post → Loses a path (pre ++ post)

section Changes

variable {p n : Addr α} {path' : List α}

/-- The rest of a path, from behind its first node. -/
theorem Gains.cons (h : Gains (visited ++ [b]) a p n path path') :
    Gains visited a p n (b :: path) (b :: path') := by
  cases h with
  | same => exact .same
  | put pre post hpath hp hn =>
    refine .put (b :: pre) post (congrArg _ hpath) ?_ hn
    rw [hp, List.append_assoc, List.singleton_append]

theorem Loses.cons (h : Loses a path path') : Loses a (b :: path) (b :: path') := by
  cases h with
  | same => exact .same
  | cut pre post hpath => exact .cut (b :: pre) post (congrArg _ hpath)

/-- The reader has one more node to go to first. -/
theorem cons (hnodup : (visited ++ b :: path).Nodup) (hb : nextOf m (predOf visited) = some (.to (.node b)))
    (h : Walk m (visited ++ [b]) path) : Walk m visited (b :: path) := by
  refine ⟨hnodup, hb, ?_⟩
  have hrest := h.through
  rwa [predOf_concat] at hrest

/-- A node is put where the reader will look next. -/
theorem insert_here (h : Walk m visited path) (hadds : Adds m m' a (predOf visited) n)
    (ha : a ∉ visited ++ path) : Walk m' visited (a :: path) ∧ n = succOf path := by
  have hn : n = succOf path := by
    have hnext := h.next
    rw [hadds.old, Option.some.injEq, Link.to.injEq] at hnext
    exact hnext
  have hframe : ∀ b ∈ path, nextOf m' (.node b) = nextOf m (.node b) := by
    intro b hb
    refine hadds.others _ (ne_predOf_of_mem h.nodup hb) ?_
    intro heq
    obtain rfl := Addr.node.inj heq
    exact ha (List.mem_append_right visited hb)
  refine ⟨⟨List.nodup_middle.mpr (List.nodup_cons.mpr ⟨ha, h.nodup⟩), hadds.before, ?_⟩, hn⟩
  cases path with
  | nil => exact hadds.after.trans (by rw [hn]; rfl)
  | cons b path =>
    refine ⟨hadds.after.trans (by rw [hn]; rfl), h.through.2.frame (hframe b List.mem_cons_self) ?_⟩
    exact fun c hc => hframe c (List.mem_cons_of_mem b hc)

/-- A node is put into the list, anywhere. -/
theorem insert (h : Walk m visited path) (hadds : Adds m m' a p n) (ha : a ∉ visited ++ path) :
    ∃ path', Walk m' visited path' ∧ Gains visited a p n path path' := by
  induction path generalizing visited with
  | nil =>
    by_cases hp : predOf visited = p
    · subst hp
      obtain ⟨hwalk, hn⟩ := h.insert_here hadds ha
      exact ⟨[a], hwalk, .put [] [] rfl (by rw [List.append_nil]) hn⟩
    · refine ⟨[], ⟨h.nodup, (hadds.others _ hp ?_).trans h.through⟩, .same⟩
      exact (node_ne_predOf fun hv => ha (List.mem_append_left _ hv)).symm
  | cons b path ih =>
    by_cases hp : predOf visited = p
    · subst hp
      obtain ⟨hwalk, hn⟩ := h.insert_here hadds ha
      exact ⟨a :: b :: path, hwalk, .put [] (b :: path) rfl (by rw [List.append_nil]) hn⟩
    · have hcut : visited ++ b :: path = (visited ++ [b]) ++ path := by simp
      have ha' : predOf visited ≠ .node a :=
        (node_ne_predOf fun hv => ha (List.mem_append_left _ hv)).symm
      obtain ⟨path', hwalk, hgains⟩ := ih h.advance (hcut ▸ ha)
      have hb : nextOf m' (predOf visited) = some (.to (.node b)) :=
        (hadds.others _ hp ha').trans h.through.1
      refine ⟨b :: path', Walk.cons ?_ hb hwalk, hgains.cons⟩
      have hnodup := hwalk.nodup
      rwa [List.append_assoc] at hnodup

/-- The node that the reader would be on next is taken out. -/
theorem remove_here (h : Walk m visited (a :: path)) (hdels : Dels m m' a (predOf visited) n) :
    Walk m' visited path := by
  have hframe : ∀ b ∈ path, nextOf m' (.node b) = nextOf m (.node b) := fun b hb =>
    hdels.others _ (ne_predOf_of_mem h.nodup (List.mem_cons_of_mem a hb))
  have hown := hdels.own
  refine ⟨h.nodup.sublist ((List.sublist_cons_self a path).append_left visited), ?_⟩
  cases path with
  | nil =>
    rw [h.through.2] at hown
    exact hdels.before.trans hown.symm
  | cons b path =>
    rw [h.through.2.1] at hown
    refine ⟨hdels.before.trans hown.symm, h.through.2.2.frame (hframe b List.mem_cons_self) ?_⟩
    exact fun c hc => hframe c (List.mem_cons_of_mem b hc)

/-- A node is taken out of the list, anywhere. -/
theorem remove (h : Walk m visited path) (hdels : Dels m m' a p n) :
    ∃ path', Walk m' visited path' ∧ Loses a path path' := by
  induction path generalizing visited with
  | nil =>
    refine ⟨[], ⟨h.nodup, ?_⟩, .same⟩
    by_cases hp : predOf visited = p
    · have hold := h.through
      rw [hp, Through, hdels.old] at hold
      cases hold
    · exact (hdels.others _ hp).trans h.through
  | cons b path ih =>
    by_cases hp : predOf visited = p
    · subst hp
      have hab : a = b := by
        have hold := hdels.old
        rw [h.through.1] at hold
        cases hold
        rfl
      subst hab
      exact ⟨path, h.remove_here hdels, .cut [] path rfl⟩
    · obtain ⟨path', hwalk, hloses⟩ := ih h.advance
      have hb : nextOf m' (predOf visited) = some (.to (.node b)) :=
        (hdels.others _ hp).trans h.through.1
      refine ⟨b :: path', Walk.cons ?_ hb hwalk, hloses.cons⟩
      have hnodup := hwalk.nodup
      rwa [List.append_assoc] at hnodup

/-- A node that the reader has not met and will not meet is released. -/
theorem release [DecidableEq α] (h : Walk m visited path) (ha : a ∉ visited ++ path) :
    Walk (Function.update m (.node a) none) visited path := by
  have hother : ∀ x, x ≠ .node a → nextOf (Function.update m (.node a) none) x = nextOf m x := by
    intro x hx
    rw [nextOf, Function.update_of_ne hx, nextOf]
  refine h.frame (hother _ (node_ne_predOf fun hv => ha (List.mem_append_left _ hv)).symm) ?_
  intro b hb
  refine hother _ fun heq => ha ?_
  rw [← Addr.node.inj heq]
  exact List.mem_append_right visited hb

end Changes

/-! ### What a changed path holds, and its order -/

section Members

variable {p n : Addr α} {path' : List α}

theorem Gains.subset (h : Gains visited a p n path path') : ∀ b ∈ path', b = a ∨ b ∈ path := by
  intro b hb
  cases h with
  | same => exact .inr hb
  | put pre post hpath =>
    rw [hpath]
    simpa [or_left_comm] using hb

theorem Gains.superset (h : Gains visited a p n path path') : ∀ b ∈ path, b ∈ path' := by
  intro b hb
  cases h with
  | same => exact hb
  | put pre post hpath =>
    rw [hpath] at hb
    rcases List.mem_append.mp hb with hb | hb
    · exact List.mem_append_left _ hb
    · exact List.mem_append_right pre (List.mem_cons_of_mem a hb)

theorem Gains.length_le (h : Gains visited a p n path path') : path'.length ≤ path.length + 1 := by
  cases h with
  | same => exact Nat.le_succ _
  | put pre post hpath => simp [hpath, Nat.add_assoc]

theorem Loses.sublist (h : Loses a path path') : path'.Sublist path := by
  cases h with
  | same => exact List.Sublist.refl _
  | cut pre post hpath =>
    rw [hpath]
    exact (List.sublist_cons_self a post).append_left pre

theorem Loses.mem (h : Loses a path path') {b : α} (hb : b ∈ path) (hne : b ≠ a) : b ∈ path' := by
  cases h with
  | same => exact hb
  | cut pre post hpath =>
    rw [hpath] at hb
    rcases List.mem_append.mp hb with hb | hb
    · exact List.mem_append_left post hb
    · rcases List.mem_cons.mp hb with rfl | hb
      · exact absurd rfl hne
      · exact List.mem_append_right pre hb

/-- What the reader meets stays in order, if the new node is in order with its two neighbours. -/
theorem Gains.pairwise {R : α → α → Prop} (htrans : ∀ x y z, R x y → R y z → R x z)
    (h : Gains visited a p n path path') (hR : (visited ++ path).Pairwise R)
    (hp : ∀ b, p = .node b → R b a) (hn : ∀ b, n = .node b → R a b) : (visited ++ path').Pairwise R := by
  cases h with
  | same => exact hR
  | put pre post hpath hpred hsucc =>
    rw [hpath, ← List.append_assoc] at hR
    rw [← List.append_assoc]
    obtain ⟨hfront, hback, hcross⟩ := List.pairwise_append.mp hR
    -- from the last node in front of the gap on, and up to the first one behind it
    have hbefore : ∀ x ∈ visited ++ pre, R x a := by
      intro x hx
      rcases List.eq_nil_or_concat (visited ++ pre) with hnil | ⟨front, b, hcut⟩
      · rw [hnil] at hx
        cases hx
      · rw [List.concat_eq_append] at hcut
        rw [hcut] at hx hfront hpred
        have hba := hp b (hpred.trans (predOf_concat front b))
        rcases List.mem_append.mp hx with hx | hx
        · exact htrans x b a ((List.pairwise_append.mp hfront).2.2 x hx b List.mem_cons_self) hba
        · rw [List.mem_singleton.mp hx]
          exact hba
    have hafter : ∀ y ∈ post, R a y := by
      intro y hy
      cases post with
      | nil => cases hy
      | cons b post =>
        have hab := hn b hsucc
        rcases List.mem_cons.mp hy with rfl | hy
        · exact hab
        · exact htrans a b y hab ((List.pairwise_cons.mp hback).1 y hy)
    refine List.pairwise_append.mpr ⟨hfront, List.pairwise_cons.mpr ⟨hafter, hback⟩, ?_⟩
    intro x hx y hy
    rcases List.mem_cons.mp hy with rfl | hy
    · exact hbefore x hx
    · exact hcross x hx y hy

end Members

end Walk

end Intrusive
