/-
  What each step does to the readers of the RCU list.

  A pass moves the boundary between `visited` and `path` and leaves the two of them together alone, so that
  all a reader knows about the list (`View`) is untouched by it (`Sees.pass`).  A writer changes the list
  and leaves `visited` alone; what it does to `path` is `Walk.insert`, `Walk.remove`, `Walk.release`
  (`Sees.put`, `Sees.invalidate`, `Sees.graceEnd`).
-/
import Bldms.RcuWalk

namespace Bldms

open Intrusive

variable {sb n : Nat} {s : RcuState} {l path : List Nat} {w : Walker}

/-! ## Moments -/

namespace Moments

variable {d d' : Driver} {ds : List Driver}

theorem start (hI : Inv sb n d) : Moments sb n d [d] := by
  refine ⟨rfl, ?_, .singleton d⟩
  intro d' hd'
  rwa [List.mem_singleton.mp hd']

theorem mem (h : Moments sb n d ds) : d ∈ ds := List.mem_of_getLast? h.now

/-- One more moment, in which a block that was listed is listed with the same node, or not at all. -/
theorem snoc (h : Moments sb n d ds) (hI : Inv sb n d')
    (hkept : ∀ x ∈ d.validBlkList, ∀ y ∈ d'.validBlkList, x.ndx = y.ndx → x = y) :
    Moments sb n d' (ds ++ [d']) := by
  refine ⟨List.getLast?_concat, ?_, ?_⟩
  · intro t ht
    rcases List.mem_append.mp ht with ht | ht
    · exact h.inv t ht
    · rwa [List.mem_singleton.mp ht]
  · refine List.isChain_append.mpr ⟨h.kept, .singleton d', ?_⟩
    intro t ht t' ht'
    rw [h.now] at ht
    cases ht
    cases ht'
    exact hkept

end Moments

/-! ## Routes -/

namespace Route

variable {links links' : LinkStore Nat} {a : Nat} {p x : Addr Nat}

theorem walk (h : Route links w path) (hw : w.ended = false) : Walk links w.visited path :=
  ⟨h.nodup, h.through hw⟩

theorem pos_eq (h : Route links w path) (hw : w.ended = false) : w.pos = predOf w.visited := by
  rw [h.pos, hw]
  rfl

/-- The node a reader is on is the last one visited. -/
theorem getLast?_visited (h : Route links w path) (hpos : w.pos = .node a) : w.visited.getLast? = some a := by
  have hw := h.pos
  rw [hpos] at hw
  cases hended : w.ended with
  | true => rw [hended] at hw; cases hw
  | false =>
    rw [hended] at hw
    rcases List.eq_nil_or_concat w.visited with hnil | ⟨front, b, hcut⟩
    · rw [hnil] at hw
      cases hw
    · rw [List.concat_eq_append] at hcut
      rw [hcut] at hw ⊢
      have hab : Addr.node a = .node b := hw.trans (predOf_concat front b)
      rw [Addr.node.inj hab, List.getLast?_concat]

/-- The reader a step has turned into another one of the same place is on the same route. -/
theorem of_eq (h : Route links w path) {w' : Walker} (hv : w'.visited = w.visited) (hp : w'.pos = w.pos)
    (he : w'.ended = w.ended) : Route links w' path := by
  obtain ⟨hnodup, hthrough, hhome, hpos⟩ := h
  exact ⟨hv ▸ hnodup, fun hw => hv ▸ hthrough (he ▸ hw), fun hw => hhome (he ▸ hw),
    by rw [hp, hpos, he, hv]⟩

theorem insert (h : Route links w path) (hadds : Adds links links' a p x) (ha : a ∉ w.visited ++ path) :
    ∃ path', Route links' w path' ∧ Walk.Gains w.visited a p x path path' := by
  cases hw : w.ended with
  | true => exact ⟨path, ⟨h.nodup, fun hw' => (by rw [hw] at hw'; cases hw'), h.home, h.pos⟩, .same⟩
  | false =>
    obtain ⟨path', hwalk, hgains⟩ := (h.walk hw).insert hadds ha
    exact ⟨path', ⟨hwalk.nodup, fun _ => hwalk.through, fun hw' => (by rw [hw] at hw'; cases hw'), h.pos⟩,
      hgains⟩

theorem remove (h : Route links w path) (hdels : Dels links links' a p x) :
    ∃ path', Route links' w path' ∧ Walk.Loses a path path' := by
  cases hw : w.ended with
  | true => exact ⟨path, ⟨h.nodup, fun hw' => (by rw [hw] at hw'; cases hw'), h.home, h.pos⟩, .same⟩
  | false =>
    obtain ⟨path', hwalk, hloses⟩ := (h.walk hw).remove hdels
    exact ⟨path', ⟨hwalk.nodup, fun _ => hwalk.through, fun hw' => (by rw [hw] at hw'; cases hw'), h.pos⟩,
      hloses⟩

theorem release (h : Route links w path) (ha : a ∉ w.visited ++ path) :
    Route (Function.update links (.node a) none) w path :=
  ⟨h.nodup, fun hw => ((h.walk hw).release ha).through, h.home, h.pos⟩

end Route

/-! ## The steps of a reader -/

/-- A node that a reader may be on is in memory. -/
theorem Sound.isSome (h : Sound sb n s l) (hv : View s l w (w.visited ++ path)) {a : Nat}
    (ha : a ∈ w.visited ++ path) : (s.links (.node a)).isSome := by
  refine (h.memory a).mpr ?_
  rcases hv.scope a ha with hl | ⟨g, hg, rfl, -⟩
  · exact .inl hl
  · exact .inr (List.mem_map_of_mem hg)

/-- A view is of the reader's thread, moments and count, and of no more. -/
theorem View.of_eq {r : List Nat} (h : View s l w r) {w' : Walker} (ht : w'.thread = w.thread)
    (hm : w'.moments = w.moments) (hn : w'.met = w.met) : View s l w' r := by
  obtain ⟨hscope, hlisted, hcomplete, hsorted, hundisturbed, hmet⟩ := h
  exact ⟨ht ▸ hscope, hm ▸ hlisted, hm ▸ hcomplete, hsorted, hm ▸ hundisturbed, hn ▸ hmet⟩

theorem Walker.stopped_node {elem : Nat → RcuElem} {a : Nat} (hpos : w.pos = .node a) :
    w.stopped elem = w.search.stops (elem a) := by
  rw [Walker.stopped, hpos]

/-- A pass goes through, and moves the reader along its path, if its loop has not been left. -/
theorem Sees.pass (hs : Sound sb n s l) (h : Sees sb n s l w path) :
    ∃ w' path', w.pass s.links s.elem = some w' ∧ w'.thread = w.thread ∧ Sees sb n s l w' path' ∧
      ((w'.ended || w'.stopped s.elem) = true ∨ path'.length < path.length) := by
  unfold Walker.pass
  by_cases hdone : (w.ended || w.stopped s.elem) = true
  · exact ⟨w, path, if_pos hdone, rfl, h, .inl hdone⟩
  · rw [if_neg hdone]
    simp only [Bool.or_eq_true, not_or, Bool.not_eq_true] at hdone
    obtain ⟨hended, hstopped⟩ := hdone
    have hwalk := h.route.walk hended
    have hnext := hwalk.next
    rw [← h.route.pos_eq hended] at hnext
    -- the node the reader leaves did not stop it
    have hpassed : ∀ a ∈ w.visited, w.search.stops (s.elem a) = false := by
      intro a ha
      by_cases hpos : w.pos = .node a
      · rw [← Walker.stopped_node hpos]
        exact hstopped
      · exact h.passed a ha hpos
    cases path with
    | nil =>
      rw [hnext]
      refine ⟨_, [], rfl, rfl, ⟨h.moments, ⟨h.route.nodup, fun hw => ?_, fun _ => rfl, rfl⟩,
        h.view.of_eq rfl rfl rfl, fun a ha _ => hpassed a ha, h.beyond, h.within⟩, .inl rfl⟩
      cases hw
    | cons b path =>
      have hb : (s.links (.node b)).isSome :=
        hs.isSome h.view (List.mem_append_right _ List.mem_cons_self)
      rw [hnext]
      dsimp only [succOf]
      rw [if_pos hb]
      have hcut : (w.visited ++ [b]) ++ path = w.visited ++ b :: path := by simp
      have hroute := hwalk.advance
      refine ⟨_, path, rfl, rfl, ⟨h.moments, ⟨hroute.nodup, fun _ => hroute.through, fun hw => ?_, ?_⟩,
        ?_, ?_, ?_, h.within⟩, .inr (Nat.lt_succ_self _)⟩
      · rw [hended] at hw
        cases hw
      · rw [hended, predOf_concat]
        rfl
      · rw [hcut]
        exact h.view.of_eq rfl rfl rfl
      · intro a ha hpos
        rcases List.mem_append.mp ha with ha | ha
        · exact hpassed a ha
        · exact absurd (congrArg Addr.node (List.mem_singleton.mp ha).symm) hpos
      · intro next hnext' el hel
        refine (h.beyond next hnext' el hel).imp_left fun hmem => ?_
        rw [List.map_append]
        exact List.mem_append_left _ hmem

/-- What has been listed at every moment has been met, or is still ahead. -/
theorem Sees.met_or_ahead (hs : Sound sb n s l) (h : Sees sb n s l w path) {el : RcuElem}
    (hel : ∀ d ∈ w.moments, el ∈ d.validBlkList) :
    el ∈ w.visited.map s.elem ∨ ∃ a ∈ path, s.elem a = el := by
  have hnow := hel _ h.moments.mem
  rw [← hs.list] at hnow
  obtain ⟨a, ha, rfl⟩ := List.mem_map.mp hnow
  rcases List.mem_append.mp (h.view.complete a ha hel) with ha | ha
  · exact .inl (List.mem_map_of_mem ha)
  · exact .inr ⟨a, ha, rfl⟩

/-- The node ahead is no newer than anything else that is ahead. -/
theorem Sees.nothingBetween (hs : Sound sb n s l) (h : Sees sb n s l w path) :
    w.NothingBetween s.elem (path.head?.map s.elem) := by
  intro el hel
  refine (h.met_or_ahead hs hel).imp_right ?_
  rintro ⟨a, ha, rfl⟩
  cases path with
  | nil => cases ha
  | cons b path =>
    refine ⟨s.elem b, rfl, ?_⟩
    rcases List.mem_cons.mp ha with rfl | ha
    · exact le_refl _
    · have hsorted := (List.pairwise_append.mp h.view.sorted).2.1
      exact (List.pairwise_cons.mp hsorted).1 a ha

/-- `rcu_next_elem` goes through, and gives the node ahead. -/
theorem Sees.nextElem (hs : Sound sb n s l) (h : Sees sb n s l w path) :
    ∃ w', w.nextElem s.links s.elem = some w' ∧ w'.thread = w.thread ∧ Sees sb n s l w' path := by
  have hset : ∀ next, next = path.head?.map s.elem →
      Sees sb n s l { w with beyond := some next } path := by
    rintro _ rfl
    refine ⟨h.moments, h.route.of_eq rfl rfl rfl, h.view.of_eq rfl rfl rfl, h.passed, ?_, h.within⟩
    intro next hnext
    have hbetween := h.nothingBetween hs
    rw [← Option.some.inj hnext]
    exact hbetween
  unfold Walker.nextElem
  by_cases hstopped : w.stopped s.elem = true
  · rw [if_pos hstopped]
    have hended : w.ended = false := by
      cases hended : w.ended with
      | false => rfl
      | true =>
        have hpos := h.route.pos
        rw [hended, if_pos rfl] at hpos
        rw [Walker.stopped, hpos] at hstopped
        cases hstopped
    have hnext := (h.route.walk hended).next
    rw [← h.route.pos_eq hended] at hnext
    rw [hnext]
    cases path with
    | nil => exact ⟨_, rfl, rfl, hset none rfl⟩
    | cons b path =>
      have hb : (s.links (.node b)).isSome :=
        hs.isSome h.view (List.mem_append_right _ List.mem_cons_self)
      dsimp only [succOf]
      rw [if_pos hb]
      exact ⟨_, rfl, rfl, hset _ rfl⟩
  · exact ⟨w, if_neg hstopped, rfl, h⟩

theorem Inv.within {d : Driver} (hI : Inv sb n d) {search : Search} (h : search.admitted d = true) :
    search.Within n := by
  cases search with
  | get offset =>
    rw [Search.admitted, Bool.and_eq_true, Bool.and_eq_true, decide_eq_true_eq, hI.size] at h
    exact h.1.2
  | read deviceBlk nextTs => trivial

/-- A section that begins will go through the list there is. -/
theorem Sees.start (hs : Sound sb n s l) (thread : Nat) {search : Search}
    (hadm : search.admitted s.drv = true) : Sees sb n s l (Walker.start thread search s.drv) l := by
  have hwalk := Walk.start hs.ring
  have hlist : ∀ a ∈ l, s.elem a ∈ s.drv.validBlkList := by
    intro a ha
    rw [← hs.list]
    exact List.mem_map_of_mem ha
  refine ⟨Moments.start hs.inv, ⟨hwalk.nodup, fun _ => hwalk.through, fun hw => ?_, rfl⟩,
    ⟨fun a ha => .inl ha, ?_, fun a ha _ => ha, ?_, fun _ => rfl, ?_⟩, fun a ha => ?_, fun next hnext => ?_,
    hs.inv.within hadm⟩
  · cases hw
  · exact fun a ha => ⟨s.drv, List.mem_singleton.mpr rfl, hlist a ha⟩
  · have hsorted := hs.inv.sorted
    rw [KeySorted, ← hs.list, List.pairwise_map] at hsorted
    exact hsorted
  · show l.length ≤ s.drv.validBlkList.length
    rw [← hs.list, List.length_map]
  · cases ha
  · cases hnext

/-! ## A node is linked in -/

/-- What a put that goes through does: the node `a`, holding `el`, is linked into the list. -/
structure LinkedIn (sb n : Nat) (s s' : RcuState) (l l' : List Nat) (a : Nat) (el : RcuElem) : Prop where
  inv : Inv sb n s'.drv
  elem : s'.elem = Function.update s.elem a el
  grace : s'.grace = s.grace
  results : s'.results = s.results
  walkers : s'.walkers = s.walkers.map (Walker.seePut s'.drv)
  list : ∀ x, x ∈ s'.drv.validBlkList ↔ x = el ∨ x ∈ s.drv.validBlkList
  /-- The block was free. -/
  free : ∀ x ∈ s.drv.validBlkList, x.ndx ≠ el.ndx
  gap : ∃ pre post, l = pre ++ post ∧ l' = pre ++ a :: post ∧
    Adds s.links s'.links a (predOf pre) (succOf post)
  fresh : s.links (.node a) = none
  memory : ∀ x, (s'.links x).isSome ↔ x = .node a ∨ (s.links x).isSome
  ring : Represents s'.links l'
  elems : l'.map s'.elem = s'.drv.validBlkList

namespace LinkedIn

variable {s' : RcuState} {l' : List Nat} {a : Nat} {el : RcuElem}

theorem elem_self (h : LinkedIn sb n s s' l l' a el) : s'.elem a = el := by
  rw [h.elem, Function.update_self]

theorem elem_of_ne (h : LinkedIn sb n s s' l l' a el) {b : Nat} (hb : b ≠ a) : s'.elem b = s.elem b := by
  rw [h.elem, Function.update_of_ne hb]

theorem mem_iff (h : LinkedIn sb n s s' l l' a el) {b : Nat} : b ∈ l' ↔ b = a ∨ b ∈ l := by
  obtain ⟨pre, post, rfl, rfl, -⟩ := h.gap
  simp [or_left_comm]

theorem node_listed (h : LinkedIn sb n s s' l l' a el) : el ∈ s'.drv.validBlkList := (h.list el).mpr (.inl rfl)

theorem not_listed_before (h : LinkedIn sb n s s' l l' a el) : el ∉ s.drv.validBlkList :=
  fun hel => h.free el hel rfl

/-- The block of the new node had none before, so no node is exchanged for another. -/
theorem kept (h : LinkedIn sb n s s' l l' a el) (hI : Inv sb n s.drv) :
    ∀ x ∈ s.drv.validBlkList, ∀ y ∈ s'.drv.validBlkList, x.ndx = y.ndx → x = y := by
  intro x hx y hy hxy
  rcases (h.list y).mp hy with rfl | hy
  · exact absurd hxy (h.free x hx)
  · exact hI.distinct.eq_of_ndx hx hy hxy

/-- No reader is on the new node, or about to be. -/
theorem not_met (h : LinkedIn sb n s s' l l' a el) (hs : Sound sb n s l) {r : List Nat}
    (hv : ∀ b ∈ r, b ∈ l ∨ ∃ g ∈ s.grace, g.node = b ∧ w.thread ∈ g.waits) : a ∉ r := by
  intro ha
  have hmem : (s.links (.node a)).isSome := by
    refine (hs.memory a).mpr ?_
    rcases hv a ha with hl | ⟨g, hg, rfl, -⟩
    · exact .inl hl
    · exact .inr (List.mem_map_of_mem hg)
  rw [h.fresh] at hmem
  cases hmem

/-- The new node is in order with its neighbours. -/
theorem neighbours (h : LinkedIn sb n s s' l l' a el) :
    ∃ p x, Adds s.links s'.links a p x ∧
      (∀ b, p = .node b → (s'.elem b).time ≤ (s'.elem a).time) ∧
      ∀ b, x = .node b → (s'.elem a).time ≤ (s'.elem b).time := by
  obtain ⟨pre, post, -, hl', hadds⟩ := h.gap
  have hsorted := h.inv.sorted
  rw [KeySorted, ← h.elems, List.pairwise_map, hl'] at hsorted
  obtain ⟨-, hback, hcross⟩ := List.pairwise_append.mp hsorted
  refine ⟨_, _, hadds, ?_, ?_⟩
  · intro b hb
    refine hcross b ?_ a List.mem_cons_self
    by_contra hno
    exact node_ne_predOf hno hb.symm
  · intro b hb
    refine (List.pairwise_cons.mp hback).1 b ?_
    by_contra hno
    exact node_ne_succOf hno hb.symm

/-- What a reader knows when a node has been linked in. -/
theorem view (h : LinkedIn sb n s s' l l' a el) (hs : Sound sb n s l) (hm : Moments sb n s.drv w.moments)
    {r r' : List Nat} (hv : View s l w r) (hsub : ∀ b ∈ r', b = a ∨ b ∈ r) (hsup : ∀ b ∈ r, b ∈ r')
    (hsorted : r'.Pairwise fun x y => (s'.elem x).time ≤ (s'.elem y).time)
    (hlen : r'.length ≤ r.length + 1) : View s' l' (w.seePut s'.drv) r' := by
  have ha : a ∉ r := h.not_met hs hv.scope
  have hold : ∀ b ∈ r, s'.elem b = s.elem b := fun b hb => h.elem_of_ne fun hba => ha (hba ▸ hb)
  refine ⟨?_, ?_, ?_, hsorted, ?_, hlen.trans (Nat.succ_le_succ hv.met)⟩
  · intro b hb
    rcases hsub b hb with rfl | hb
    · exact .inl (h.mem_iff.mpr (.inl rfl))
    · rw [h.grace]
      exact (hv.scope b hb).imp_left fun hl => h.mem_iff.mpr (.inr hl)
  · intro b hb
    rcases hsub b hb with rfl | hb
    · refine ⟨s'.drv, List.mem_append_right _ List.mem_cons_self, ?_⟩
      rw [h.elem_self]
      exact h.node_listed
    · obtain ⟨d, hd, hmem⟩ := hv.listed b hb
      refine ⟨d, List.mem_append_left _ hd, ?_⟩
      rwa [hold b hb]
  · intro b hb hall
    have hbefore : ∀ d ∈ w.moments, s'.elem b ∈ d.validBlkList :=
      fun d hd => hall d (List.mem_append_left _ hd)
    -- the new node was not listed a moment ago
    have hba : b ≠ a := by
      rintro rfl
      have hnow := hbefore _ hm.mem
      rw [h.elem_self] at hnow
      exact h.not_listed_before hnow
    refine hsup b (hv.complete b ((h.mem_iff.mp hb).resolve_left hba) fun d hd => ?_)
    rw [← h.elem_of_ne hba]
    exact hbefore d hd
  · intro hsame
    have hnow := hsame _ (List.mem_append_left _ hm.mem)
    exact absurd (hnow ▸ h.node_listed) h.not_listed_before

/-- A reader when a node has been linked in. -/
theorem sees (h : LinkedIn sb n s s' l l' a el) (hs : Sound sb n s l) (hw : Sees sb n s l w path) :
    ∃ path', Sees sb n s' l' (w.seePut s'.drv) path' := by
  have ha : a ∉ w.visited ++ path := h.not_met hs hw.view.scope
  have hold : ∀ b ∈ w.visited ++ path, s'.elem b = s.elem b :=
    fun b hb => h.elem_of_ne fun hba => ha (hba ▸ hb)
  obtain ⟨p, x, hadds, hp, hx⟩ := h.neighbours
  obtain ⟨path', hroute, hgains⟩ := hw.route.insert hadds ha
  have hmap : w.visited.map s'.elem = w.visited.map s.elem :=
    List.map_congr_left fun b hb => hold b (List.mem_append_left _ hb)
  refine ⟨path', hw.moments.snoc h.inv (h.kept hs.inv), hroute.of_eq rfl rfl rfl, ?_, ?_, ?_, hw.within⟩
  · refine h.view hs hw.moments hw.view ?_ ?_ ?_ ?_
    · intro b hb
      rcases List.mem_append.mp hb with hb | hb
      · exact .inr (List.mem_append_left _ hb)
      · exact (hgains.subset b hb).imp_right fun hb => List.mem_append_right _ hb
    · intro b hb
      rcases List.mem_append.mp hb with hb | hb
      · exact List.mem_append_left _ hb
      · exact List.mem_append_right _ (hgains.superset b hb)
    · refine hgains.pairwise (fun _ _ _ => le_trans) ?_ hp hx
      refine hw.view.sorted.imp_of_mem ?_
      intro b c hb hc hbc
      rwa [hold b hb, hold c hc]
    · have hlen := hgains.length_le
      show (w.visited ++ path').length ≤ (w.visited ++ path).length + 1
      simp only [List.length_append]
      omega
  · intro b hb hpos
    show w.search.stops (s'.elem b) = false
    rw [hold b (List.mem_append_left _ hb)]
    exact hw.passed b hb hpos
  · intro next hnext y hy
    show y ∈ w.visited.map s'.elem ∨ _
    rw [hmap]
    exact hw.beyond next hnext y fun d hd => hy d (List.mem_append_left _ hd)

/-- The invariant when a node has been linked in. -/
theorem sound (h : LinkedIn sb n s s' l l' a el) (hs : Sound sb n s l) : Sound sb n s' l' := by
  refine ⟨h.inv, h.ring, h.elems, ?_, ?_, ?_, ?_, ?_⟩
  · intro b
    rw [h.memory, hs.memory, h.mem_iff, h.grace, Addr.node.injEq, or_assoc]
  · have hnew : a ∉ l ++ s.grace.map Grace.node := by
      intro ha
      have hmem := (hs.memory a).mpr (List.mem_append.mp ha)
      rw [h.fresh] at hmem
      cases hmem
    obtain ⟨pre, post, rfl, rfl, -⟩ := h.gap
    rw [h.grace, List.append_assoc, List.cons_append]
    refine List.nodup_middle.mpr (List.nodup_cons.mpr ⟨?_, ?_⟩)
    · rwa [List.append_assoc] at hnew
    · have hnodup := hs.unlinked
      rwa [List.append_assoc] at hnodup
  · intro g hg t ht
    rw [h.grace] at hg
    obtain ⟨w, hw, rfl⟩ := hs.waits g hg t ht
    refine ⟨w.seePut s'.drv, ?_, rfl⟩
    rw [h.walkers]
    exact List.mem_map_of_mem hw
  · intro v hv
    rw [h.walkers] at hv
    obtain ⟨w, hw, rfl⟩ := List.mem_map.mp hv
    obtain ⟨path, hpath⟩ := hs.walkers w hw
    exact h.sees hs hpath
  · rw [h.results]
    exact hs.results

end LinkedIn

theorem Sound.length_le (hs : Sound sb n s l) : l.length ≤ s.drv.mdArraySize := by
  rw [hs.inv.size, ← List.length_map (f := s.elem), hs.list]
  exact hs.inv.length_le

/-- A put goes through: it changes nothing, or links a node in. -/
theorem Sound.put (hs : Sound sb n s l) (e : PutEnv) (m : List Byte) (a : Nat) :
    s.put e m a = some s ∨ ∃ s' l' el, s.put e m a = some s' ∧ LinkedIn sb n s s' l l' a el := by
  unfold RcuState.put
  by_cases hin : (s.links (.node a)).isSome = true
  · exact .inl (if_pos hin)
  rw [if_neg hin]
  have hfresh : s.links (.node a) = none := by simpa using hin
  rcases putData_cases e m s.drv with ⟨hdrv, hret⟩ | ⟨p, k, hp, hk, heq⟩
  · left
    split
    · rename_i k hk
      exact absurd hk (hret k)
    · rw [hdrv]
  · right
    have hI' := hs.inv.putData e m
    obtain ⟨-, -, -, hblk, -⟩ := putPrepare_ok hp
    rw [heq] at hI' ⊢
    dsimp only at hI' ⊢
    rw [← hblk]
    have ha : a ∉ l := fun hl => hin ((hs.memory a).mpr (.inl hl))
    generalize helem : Function.update s.elem a (elemOf k p.newMetadata.blk) = elem
    obtain ⟨pre, post, rfl, hins, hadd⟩ := addInOrderMem_cut hs.ring elem a hs.length_le
    obtain ⟨links', hlinks', hring⟩ := hs.ring.listAddRcu ha
    have hgap := ((represents_append s.links pre post).mp hs.ring).2.2.2
    obtain ⟨links'', hlinks'', hadds, hmemory⟩ :=
      adds_listAddRcu hgap.next (isSome_of_prevOf hgap.prev) hfresh
    obtain rfl : links'' = links' := Option.some.inj (hlinks''.symm.trans hlinks')
    rw [hadd, hlinks']
    refine ⟨_, pre ++ a :: post, elemOf k p.newMetadata.blk, rfl, hI', helem.symm, rfl, rfl, rfl, ?_,
      (hs.inv.findFree_some hk.2.2).2, ⟨pre, post, rfl, rfl, hadds⟩, hfresh, hmemory, hring, ?_⟩
    · exact fun x => mem_addValidBlock
    · -- the nodes that were there hold what they held
      have hself : elem a = elemOf k p.newMetadata.blk := by rw [← helem, Function.update_self]
      have hothers : (pre ++ post).map elem = s.drv.validBlkList := by
        rw [← hs.list]
        refine List.map_congr_left fun b hb => ?_
        rw [← helem, Function.update_of_ne]
        exact fun hba => ha (hba ▸ hb)
      have hmap := insertBack_map RcuElem.time elem a (pre ++ post)
      rw [hself, hothers, hins] at hmap
      exact hmap.symm

/-! ## A node is unlinked -/

/-- What an invalidation that goes through does: the node `a` is unlinked, and waits for the sections there
    are. -/
structure Unlinked (sb n : Nat) (s s' : RcuState) (l l' : List Nat) (a : Nat) : Prop where
  inv : Inv sb n s'.drv
  elem : s'.elem = s.elem
  grace : s'.grace = s.grace ++ [⟨a, s.walkers.map Walker.thread⟩]
  results : s'.results = s.results
  walkers : s'.walkers = s.walkers.map (Walker.see s'.drv)
  gap : ∃ pre post, l = pre ++ a :: post ∧ l' = pre ++ post ∧
    Dels s.links s'.links a (predOf pre) (succOf post)
  memory : ∀ x, (s'.links x).isSome = (s.links x).isSome
  ring : Represents s'.links l'
  elems : l'.map s'.elem = s'.drv.validBlkList

namespace Unlinked

variable {s' : RcuState} {l' : List Nat} {a : Nat}

theorem mem_iff (h : Unlinked sb n s s' l l' a) {b : Nat} : b ∈ l ↔ b = a ∨ b ∈ l' := by
  obtain ⟨pre, post, rfl, rfl, -⟩ := h.gap
  simp [or_left_comm]

theorem length_lt (h : Unlinked sb n s s' l l' a) : l'.length < l.length := by
  obtain ⟨pre, post, rfl, rfl, -⟩ := h.gap
  simp

theorem not_listed (h : Unlinked sb n s s' l l' a) (hs : Sound sb n s l) : a ∉ l' := by
  have hnodup := hs.ring.nodup
  obtain ⟨pre, post, rfl, rfl, -⟩ := h.gap
  exact not_mem_of_nodup_append hnodup

theorem kept (h : Unlinked sb n s s' l l' a) (hs : Sound sb n s l) :
    ∀ x ∈ s.drv.validBlkList, ∀ y ∈ s'.drv.validBlkList, x.ndx = y.ndx → x = y := by
  intro x hx y hy hxy
  refine hs.inv.distinct.eq_of_ndx hx ?_ hxy
  rw [← h.elems, h.elem] at hy
  obtain ⟨b, hb, rfl⟩ := List.mem_map.mp hy
  rw [← hs.list]
  exact List.mem_map_of_mem (h.mem_iff.mpr (.inr hb))

/-- What a reader knows when a node has been unlinked. -/
theorem view (h : Unlinked sb n s s' l l' a) (hs : Sound sb n s l) (hw : w ∈ s.walkers)
    (hm : Moments sb n s.drv w.moments) {r r' : List Nat} (hv : View s l w r) (hsub : r'.Sublist r)
    (hmem : ∀ b ∈ r, b ≠ a → b ∈ r') : View s' l' (w.see s'.drv) r' := by
  refine ⟨?_, ?_, ?_, ?_, ?_, hsub.length_le.trans hv.met⟩
  · intro b hb
    rw [h.grace]
    rcases hv.scope b (hsub.subset hb) with hl | ⟨g, hg, hgb, ht⟩
    · rcases h.mem_iff.mp hl with rfl | hl
      · -- unlinked now, and this reader is waited for
        have hthread : w.thread ∈ s.walkers.map Walker.thread := List.mem_map_of_mem hw
        exact .inr ⟨_, List.mem_append_right _ List.mem_cons_self, rfl, hthread⟩
      · exact .inl hl
    · exact .inr ⟨g, List.mem_append_left _ hg, hgb, ht⟩
  · intro b hb
    obtain ⟨d, hd, hdb⟩ := hv.listed b (hsub.subset hb)
    refine ⟨d, List.mem_append_left _ hd, ?_⟩
    rwa [h.elem]
  · intro b hb hall
    rw [h.elem] at hall
    refine hmem b (hv.complete b (h.mem_iff.mpr (.inr hb)) fun d hd => hall d (List.mem_append_left _ hd)) ?_
    rintro rfl
    exact h.not_listed hs hb
  · rw [h.elem]
    exact hv.sorted.sublist hsub
  · intro hsame
    have hnow := congrArg List.length (hsame _ (List.mem_append_left _ hm.mem))
    rw [← hs.list, ← h.elems, List.length_map, List.length_map] at hnow
    exact absurd hnow (Nat.ne_of_gt h.length_lt)

/-- A reader when a node has been unlinked. -/
theorem sees (h : Unlinked sb n s s' l l' a) (hs : Sound sb n s l) (hmem : w ∈ s.walkers)
    (hw : Sees sb n s l w path) : ∃ path', Sees sb n s' l' (w.see s'.drv) path' := by
  obtain ⟨pre, post, -, -, hdels⟩ := h.gap
  obtain ⟨path', hroute, hloses⟩ := hw.route.remove hdels
  refine ⟨path', hw.moments.snoc h.inv (h.kept hs), hroute.of_eq rfl rfl rfl, ?_, ?_, ?_, hw.within⟩
  · refine h.view hs hmem hw.moments hw.view (hloses.sublist.append_left w.visited) ?_
    intro b hb hba
    rcases List.mem_append.mp hb with hb | hb
    · exact List.mem_append_left _ hb
    · exact List.mem_append_right _ (hloses.mem hb hba)
  · rw [h.elem]
    exact hw.passed
  · intro next hnext y hy
    rw [h.elem]
    exact hw.beyond next hnext y fun d hd => hy d (List.mem_append_left _ hd)

/-- The invariant when a node has been unlinked. -/
theorem sound (h : Unlinked sb n s s' l l' a) (hs : Sound sb n s l) : Sound sb n s' l' := by
  have hnodes : s'.grace.map Grace.node = s.grace.map Grace.node ++ [a] := by
    rw [h.grace, List.map_append]
    rfl
  refine ⟨h.inv, h.ring, h.elems, ?_, ?_, ?_, ?_, ?_⟩
  · intro b
    rw [h.memory, hs.memory, h.mem_iff, hnodes, List.mem_append, List.mem_singleton]
    constructor
    · rintro ((hba | hb) | hb)
      · exact .inr (.inr hba)
      · exact .inl hb
      · exact .inr (.inl hb)
    · rintro (hb | hb | hba)
      · exact .inl (.inr hb)
      · exact .inr hb
      · exact .inl (.inl hba)
  · have hnodup := hs.unlinked
    rw [hnodes]
    obtain ⟨pre, post, rfl, rfl, -⟩ := h.gap
    refine (List.Perm.nodup_iff ?_).mp hnodup
    rw [List.append_assoc, List.cons_append, ← List.append_assoc (pre ++ post)]
    refine List.perm_middle.trans ?_
    rw [← List.append_assoc pre]
    exact (List.perm_append_singleton a _).symm
  · intro g hg t ht
    have hthread : ∃ w ∈ s.walkers, w.thread = t := by
      rw [h.grace] at hg
      rcases List.mem_append.mp hg with hg | hg
      · exact hs.waits g hg t ht
      · rw [List.mem_singleton.mp hg] at ht
        exact List.mem_map.mp ht
    obtain ⟨w, hw, rfl⟩ := hthread
    refine ⟨w.see s'.drv, ?_, rfl⟩
    rw [h.walkers]
    exact List.mem_map_of_mem hw
  · intro v hv
    rw [h.walkers] at hv
    obtain ⟨w, hw, rfl⟩ := List.mem_map.mp hv
    obtain ⟨path, hpath⟩ := hs.walkers w hw
    exact h.sees hs hw hpath
  · rw [h.results]
    exact hs.results

end Unlinked

/-- The scan for the node of a listed block finds it, and unlinks it. -/
theorem Sound.unlinkBlk (hs : Sound sb n s l) {el : RcuElem} (hel : el ∈ s.drv.validBlkList) :
    ∃ pre post a links', l = pre ++ a :: post ∧
      unlinkBlk s.links s.elem el.ndx s.drv.mdArraySize = some (a, links') ∧
      delBlk s.drv.validBlkList el.ndx = (pre ++ post).map s.elem ∧
      Represents links' (pre ++ post) ∧ Dels s.links links' a (predOf pre) (succOf post) ∧
      ∀ x, (links' x).isSome = (s.links x).isSome := by
  rw [← hs.list] at hel ⊢
  obtain ⟨c, hc, rfl⟩ := List.mem_map.mp hel
  -- the first node of the block, and those the scan goes past
  obtain ⟨a, ha⟩ : ∃ a, l.find? (fun b => (s.elem b).ndx == (s.elem c).ndx) = some a :=
    Option.isSome_iff_exists.mp (List.find?_isSome.mpr ⟨c, hc, beq_self_eq_true _⟩)
  generalize (s.elem c).ndx = k at ha ⊢
  obtain ⟨hak, pre, post, rfl, hpre⟩ := List.find?_eq_some_iff_append.mp ha
  have hwalk : Through s.links .head (pre ++ a :: post) := (Walk.start hs.ring).through
  have hfind := hwalk.forwardFind (c := fun b => (s.elem b).ndx == k) hs.length_le
  have hdrop : (pre ++ a :: post).dropWhile (fun b => !(s.elem b).ndx == k) = a :: post := by
    rw [List.dropWhile_append_of_pos hpre, List.dropWhile_cons_of_neg (by simpa using hak)]
  rw [hdrop] at hfind
  obtain ⟨-, -, hback, hin⟩ := (represents_append s.links pre (a :: post)).mp hs.ring
  obtain ⟨hout, -⟩ := back_cons.mp hback
  obtain ⟨links', hdel, hring, -⟩ := unlinks_listDelRcu.unlink hs.ring
  obtain ⟨links'', hdel', hdels, hmemory⟩ := dels_listDelRcu hin hout
  obtain rfl : links'' = links' := Option.some.inj (hdel'.symm.trans hdel)
  refine ⟨pre, post, a, links'', rfl, ?_, ?_, hring, hdels, hmemory⟩
  · rw [Bldms.unlinkBlk, hfind]
    dsimp only [succOf]
    rw [hdel]
    rfl
  · rw [delBlk, List.eraseP_map, List.eraseP_append_right, List.eraseP_cons_of_pos]
    · exact hak
    · simpa using hpre

/-- An invalidation goes through: it changes nothing, or unlinks a node. -/
theorem Sound.invalidate (hs : Sound sb n s l) (bread : Bool) (offset : BitVec 32) :
    s.invalidate bread offset = some s ∨
      ∃ s' l' a, s.invalidate bread offset = some s' ∧ Unlinked sb n s s' l l' a := by
  have hI' := hs.inv.invalidateData bread offset
  unfold RcuState.invalidate
  rcases hs.inv.invalidateData_cases bread offset with ⟨hdrv, hret⟩ | ⟨el, hel, hndx, heq⟩
  · left
    split
    · rename_i hok
      exact absurd hok hret
    · rw [hdrv]
  · right
    rw [heq] at hI' ⊢
    dsimp only at hI' ⊢
    obtain ⟨pre, post, a, links', rfl, hunlink, hdel, hring, hdels, hmemory⟩ := hs.unlinkBlk hel
    rw [← hndx, hunlink]
    exact ⟨_, pre ++ post, a, rfl, hI', rfl, rfl, rfl, rfl, ⟨pre, post, rfl, rfl, hdels⟩, hmemory, hring,
      hdel.symm⟩

/-! ## A grace period ends -/

/-- What nobody waits for any more is not on a reader's way. -/
theorem Sound.not_met (hs : Sound sb n s l) {a : Nat} (ha : (⟨a, []⟩ : Grace) ∈ s.grace) {r : List Nat}
    (hv : ∀ b ∈ r, b ∈ l ∨ ∃ g ∈ s.grace, g.node = b ∧ w.thread ∈ g.waits) : a ∉ r := by
  intro har
  obtain ⟨-, hnodes, hdisj⟩ := List.nodup_append.mp hs.unlinked
  rcases hv a har with hl | ⟨g, hg, hga, ht⟩
  · exact hdisj a hl a (List.mem_map_of_mem ha) rfl
  · have heq : g = ⟨a, []⟩ := List.inj_on_of_nodup_map hnodes hg ha hga
    rw [heq] at ht
    cases ht

/-- The end of a grace period goes through. -/
theorem Sound.graceEnd (hs : Sound sb n s l) (a : Nat) :
    ∃ s', s.graceEnd a = some s' ∧ Sound sb n s' l := by
  unfold RcuState.graceEnd
  by_cases ha : (⟨a, []⟩ : Grace) ∈ s.grace
  · rw [if_pos ha]
    have hal : a ∉ l := fun hl =>
      (List.nodup_append.mp hs.unlinked).2.2 a hl a (List.mem_map_of_mem ha) rfl
    have hin : (s.links (.node a)).isSome := (hs.memory a).mpr (.inr (List.mem_map_of_mem ha))
    obtain ⟨hfree, hring⟩ := Represents.kfree hs.ring hal hin
    rw [hfree]
    have hgrace : ∀ g, g ∈ s.grace.filter (fun g => g.node != a) ↔ g ∈ s.grace ∧ g.node ≠ a := by
      intro g
      rw [List.mem_filter, bne_iff_ne]
    refine ⟨_, rfl, hs.inv, hring, hs.list, ?_, ?_, ?_, ?_, hs.results⟩
    · intro b
      by_cases hba : b = a
      · subst hba
        simp [hal]
      · have hmem := hs.memory b
        simp only [List.mem_map] at hmem
        simp only [ne_eq, Addr.node.injEq, hba, not_false_eq_true, Function.update_of_ne, hmem, List.mem_map,
          hgrace]
        apply or_congr_right
        constructor
        · rintro ⟨g, hg, hgb⟩
          exact ⟨g, ⟨hg, hgb ▸ hba⟩, hgb⟩
        · rintro ⟨g, hg, hgb⟩
          exact ⟨g, hg.1, hgb⟩
    · exact hs.unlinked.sublist ((List.filter_sublist.map Grace.node).append_left l)
    · exact fun g hg => hs.waits g ((hgrace g).mp hg).1
    · intro w hw
      obtain ⟨path, hpath⟩ := hs.walkers w hw
      have har := hs.not_met ha hpath.view.scope
      refine ⟨path, hpath.moments, hpath.route.release har, ?_, hpath.passed, hpath.beyond, hpath.within⟩
      obtain ⟨hscope, hlisted, hcomplete, hsorted, hundisturbed, hmet⟩ := hpath.view
      refine ⟨?_, hlisted, hcomplete, hsorted, hundisturbed, hmet⟩
      intro b hb
      refine (hscope b hb).imp_right ?_
      rintro ⟨g, hg, hgb, ht⟩
      refine ⟨g, (hgrace g).mpr ⟨hg, ?_⟩, hgb, ht⟩
      rintro rfl
      exact har (hgb ▸ hb)
  · exact ⟨s, if_neg ha, hs⟩

end Bldms
