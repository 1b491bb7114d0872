/-
  The RCU list under readers and writers, over whole runs.

  Every step of the readers, of the writers and of the grace periods goes through and keeps the invariant
  (`Sound.move`), so a run from a mounted driver whose list is in memory never dereferences memory that is
  not there, whatever the interleaving and whichever addresses the allocator gives out.

  * `rcu_list_safe`         — no fault; in every state the ring of links is the list of valid blocks, the
    memory is the listed nodes and those that wait for their release, each of these once, and only sections
    under way are waited for;
  * `lookup_linearizable`   — what the walk of a `get_data` comes to is what the one-step lookup gives at some
    moment of the section;
  * `read_skips_nothing_kept` — what the walk of a `read` finds, and the node it goes on to, skip no message
    that is valid during the whole section;
  * `walk_met_once`, `walk_ends` — a section meets no node twice and no more nodes than were listed when it
    began or put since; left alone, its loop ends.
-/
import Bldms.RcuSteps

namespace Bldms

open Intrusive

variable {sb n : Nat} {s : RcuState} {l path : List Nat} {w : Walker}

/-! ## Sections that are over -/

theorem Route.not_ended {links : LinkStore Nat} (h : Route links w path) {a : Nat} (hpos : w.pos = .node a) :
    w.ended = false := by
  cases hended : w.ended with
  | false => rfl
  | true =>
    have hhome := h.pos
    rw [hended, if_pos rfl, hpos] at hhome
    cases hhome

theorem Walker.found_node {elem : Nat → RcuElem} {a : Nat} (hpos : w.pos = .node a) :
    w.found elem = some (elem a) := by
  rw [Walker.found, hpos]

theorem Walker.found_eq_some {elem : Nat → RcuElem} {el : RcuElem} (h : w.found elem = some el) :
    ∃ a, w.pos = .node a ∧ elem a = el := by
  unfold Walker.found at h
  split at h
  · rename_i a hpos
    exact ⟨a, hpos, Option.some.inj h⟩
  · cases h

/-- A loop that has been left: at a node that stops it, or at the head, with nothing ahead. -/
theorem Sees.left (h : Sees sb n s l w path) (hdone : (w.ended || w.stopped s.elem) = true) :
    (∃ a front, w.pos = .node a ∧ w.visited = front ++ [a] ∧ w.search.stops (s.elem a) = true ∧
      ∀ b ∈ front, w.search.stops (s.elem b) = false) ∨
    (w.found s.elem = none ∧ path = [] ∧ ∀ b ∈ w.visited, w.search.stops (s.elem b) = false) := by
  cases hpos : w.pos with
  | node a =>
    rw [h.route.not_ended hpos, Bool.false_or, Walker.stopped_node hpos] at hdone
    obtain ⟨front, hfront⟩ := List.getLast?_eq_some_iff.mp (h.route.getLast?_visited hpos)
    refine .inl ⟨a, front, rfl, hfront, hdone, ?_⟩
    intro b hb
    have hnodup := h.route.nodup
    have hvisited := h.passed b (by rw [hfront]; exact List.mem_append_left _ hb)
    rw [hfront, List.append_assoc] at hnodup
    refine hvisited ?_
    rw [hpos]
    rintro ⟨⟩
    exact List.disjoint_of_nodup_append hnodup hb List.mem_cons_self
  | head =>
    have hended : w.ended = true := by
      rw [Walker.stopped, hpos, Bool.or_false] at hdone
      exact hdone
    refine .inr ⟨by rw [Walker.found, hpos], h.route.home hended, fun b hb => h.passed b hb ?_⟩
    rw [hpos]
    rintro ⟨⟩

/-- Without a change of the list, the walk finds what the scan finds. -/
theorem Sees.undisturbed (hs : Sound sb n s l) (h : Sees sb n s l w path)
    (hdone : (w.ended || w.stopped s.elem) = true) {list : List RcuElem}
    (hsame : ∀ d ∈ w.moments, d.validBlkList = list) :
    w.found s.elem = list.find? w.search.stops := by
  have hnow := hsame _ h.moments.mem
  have hwhole := h.view.undisturbed fun d hd => (hsame d hd).trans hnow.symm
  rw [← hnow, ← hs.list, ← hwhole]
  rcases h.left hdone with ⟨a, front, hpos, hfront, hstops, hpassed⟩ | ⟨hnone, hpath, hpassed⟩
  · rw [Walker.found_node hpos, hfront, List.append_assoc, List.map_append]
    refine (List.find?_eq_some_iff_append.mpr ⟨hstops, front.map s.elem, path.map s.elem, rfl, ?_⟩).symm
    intro el hel
    obtain ⟨b, hb, rfl⟩ := List.mem_map.mp hel
    rw [hpassed b hb]
    rfl
  · rw [hnone, hpath, List.append_nil]
    refine (List.find?_eq_none.mpr ?_).symm
    intro el hel
    obtain ⟨b, hb, rfl⟩ := List.mem_map.mp hel
    rw [hpassed b hb]
    exact Bool.false_ne_true

/-- What a section comes to once its loop has been left. -/
theorem Sees.good (hs : Sound sb n s l) (h : Sees sb n s l w path)
    (hdone : (w.ended || w.stopped s.elem) = true) : (w.result s.elem).Good sb n := by
  obtain ⟨hvisited, -, hcross⟩ := List.pairwise_append.mp h.view.sorted
  refine ⟨List.ne_nil_of_mem h.moments.mem, h.moments.inv, h.moments.kept, ?_, List.pairwise_map.mpr hvisited,
    ?_, ?_, ?_, fun list hsame => h.undisturbed hs hdone hsame, ?_, h.beyond, h.within⟩
  · intro el hel
    obtain ⟨a, ha, rfl⟩ := List.mem_map.mp hel
    exact h.view.listed a (List.mem_append_left _ ha)
  · intro el hel
    obtain ⟨a, hpos, rfl⟩ := Walker.found_eq_some hel
    constructor
    · rwa [h.route.not_ended hpos, Bool.false_or, Walker.stopped_node hpos] at hdone
    · show (w.visited.map s.elem).getLast? = _
      rw [List.getLast?_map, h.route.getLast?_visited hpos]
      rfl
  · intro el hel hne
    obtain ⟨a, ha, rfl⟩ := List.mem_map.mp hel
    exact h.passed a ha fun hpos => hne (Walker.found_node hpos)
  · intro el hel
    refine (h.met_or_ahead hs hel).imp_right ?_
    rintro ⟨b, hb, rfl⟩
    rcases h.left hdone with ⟨a, front, hpos, hfront, -⟩ | ⟨-, hpath, -⟩
    · refine ⟨s.elem a, Walker.found_node hpos, hcross a ?_ b hb⟩
      rw [hfront]
      exact List.mem_append_right _ List.mem_cons_self
    · rw [hpath] at hb
      cases hb
  · have hmet := h.view.met
    rw [List.length_append] at hmet
    show (w.visited.map s.elem).length ≤ w.met
    rw [List.length_map]
    omega

/-! ## The steps keep the invariant -/

/-- The sections are about the driver, the memory and the grace periods, and of these only about those that
    wait for them. -/
theorem Sees.of_grace (h : Sees sb n s l w path) {s' : RcuState} (hdrv : s'.drv = s.drv)
    (hlinks : s'.links = s.links) (helem : s'.elem = s.elem)
    (hgrace : ∀ g ∈ s.grace, w.thread ∈ g.waits → ∃ g' ∈ s'.grace, g'.node = g.node ∧ w.thread ∈ g'.waits) :
    Sees sb n s' l w path := by
  obtain ⟨hmoments, hroute, ⟨hscope, hlisted, hcomplete, hsorted, hundisturbed, hmet⟩, hpassed, hbeyond, hwithin⟩ :=
    h
  refine ⟨hdrv ▸ hmoments, hlinks ▸ hroute, ⟨?_, helem ▸ hlisted, helem ▸ hcomplete, helem ▸ hsorted,
    hdrv ▸ hundisturbed, hmet⟩, helem ▸ hpassed, helem ▸ hbeyond, hwithin⟩
  intro a ha
  refine (hscope a ha).imp_right ?_
  rintro ⟨g, hg, hga, ht⟩
  obtain ⟨g', hg', hnode, ht'⟩ := hgrace g hg ht
  exact ⟨g', hg', hnode.trans hga, ht'⟩

theorem RcuState.walker_some {thread : Nat} (h : s.walker thread = some w) :
    w ∈ s.walkers ∧ w.thread = thread :=
  ⟨List.mem_of_find?_eq_some h, by simpa using List.find?_some h⟩

theorem RcuState.mem_others {thread : Nat} : w ∈ s.others thread ↔ w ∈ s.walkers ∧ w.thread ≠ thread := by
  rw [RcuState.others, List.mem_filter, bne_iff_ne]

/-- A step inside a section. -/
theorem Sound.walk (hs : Sound sb n s l) (thread : Nat) {f : Walker → Option Walker}
    (hf : ∀ w path, Sees sb n s l w path →
      ∃ w' path', f w = some w' ∧ w'.thread = w.thread ∧ Sees sb n s l w' path') :
    ∃ s', s.walk thread f = some s' ∧ Sound sb n s' l := by
  unfold RcuState.walk
  cases hw : s.walker thread with
  | none => exact ⟨s, rfl, hs⟩
  | some w =>
    obtain ⟨hmem, hthread⟩ := RcuState.walker_some hw
    obtain ⟨path, hpath⟩ := hs.walkers w hmem
    obtain ⟨w', path', hstep, hthread', hpath'⟩ := hf w path hpath
    dsimp only
    rw [hstep]
    have hsame : ∀ {v : Walker} {p : List Nat}, Sees sb n s l v p →
        Sees sb n { s with walkers := w' :: s.others thread } l v p :=
      fun h => h.of_grace rfl rfl rfl fun g hg ht => ⟨g, hg, rfl, ht⟩
    refine ⟨_, rfl, hs.inv, hs.ring, hs.list, hs.memory, hs.unlinked, ?_, ?_, hs.results⟩
    · intro g hg t ht
      obtain ⟨v, hv, rfl⟩ := hs.waits g hg t ht
      by_cases hvt : v.thread = thread
      · exact ⟨w', List.mem_cons_self, by rw [hthread', hthread, hvt]⟩
      · exact ⟨v, List.mem_cons_of_mem _ (RcuState.mem_others.mpr ⟨hv, hvt⟩), rfl⟩
    · intro v hv
      rcases List.mem_cons.mp hv with rfl | hv
      · exact ⟨path', hsame hpath'⟩
      · obtain ⟨p, hp⟩ := hs.walkers v (RcuState.mem_others.mp hv).1
        exact ⟨p, hsame hp⟩

/-- A section that ends. -/
theorem Sound.leave (hs : Sound sb n s l) (thread : Nat) : Sound sb n (s.leave thread) l := by
  unfold RcuState.leave
  cases hw : s.walker thread with
  | none => exact hs
  | some w =>
    obtain ⟨hmem, -⟩ := RcuState.walker_some hw
    obtain ⟨path, hpath⟩ := hs.walkers w hmem
    have hnodes : (s.grace.map fun g => ({ g with waits := g.waits.filter (· ≠ thread) } : Grace)).map
        Grace.node = s.grace.map Grace.node := by
      rw [List.map_map]
      rfl
    refine ⟨hs.inv, hs.ring, hs.list, ?_, ?_, ?_, ?_, ?_⟩
    · intro a
      show _ ↔ a ∈ l ∨ a ∈ List.map Grace.node (List.map _ s.grace)
      rw [hnodes]
      exact hs.memory a
    · show (l ++ List.map Grace.node (List.map _ s.grace)).Nodup
      rw [hnodes]
      exact hs.unlinked
    · intro g hg t ht
      obtain ⟨g₀, hg₀, rfl⟩ := List.mem_map.mp hg
      obtain ⟨ht, hne⟩ := List.mem_filter.mp ht
      obtain ⟨v, hv, rfl⟩ := hs.waits g₀ hg₀ t ht
      exact ⟨v, RcuState.mem_others.mpr ⟨hv, by simpa using hne⟩, rfl⟩
    · intro v hv
      obtain ⟨hv, hne⟩ := RcuState.mem_others.mp hv
      obtain ⟨p, hp⟩ := hs.walkers v hv
      refine ⟨p, hp.of_grace rfl rfl rfl fun g hg ht => ?_⟩
      exact ⟨_, List.mem_map_of_mem hg, rfl, List.mem_filter.mpr ⟨ht, by simpa using hne⟩⟩
    · intro r hr
      dsimp only at hr
      split at hr
      · rename_i hdone
        rcases List.mem_append.mp hr with hr | hr
        · exact hs.results r hr
        · rw [List.mem_singleton.mp hr]
          exact hpath.good hs hdone
      · exact hs.results r hr

/-- **Every step goes through, and keeps the invariant.** -/
theorem Sound.move (hs : Sound sb n s l) (i : RcuMove) :
    ∃ s' l', s.move i = some s' ∧ Sound sb n s' l' := by
  cases i with
  | enter thread search =>
    unfold RcuState.move
    dsimp only
    by_cases h : (s.walker thread).isSome ∨ ¬ search.admitted s.drv
    · exact ⟨s, l, if_pos h, hs⟩
    · rw [if_neg h]
      have hadm : search.admitted s.drv = true := by simpa using (not_or.mp h).2
      have hsame : ∀ {v : Walker} {p : List Nat}, Sees sb n s l v p →
          Sees sb n { s with walkers := Walker.start thread search s.drv :: s.walkers } l v p :=
        fun h => h.of_grace rfl rfl rfl fun g hg ht => ⟨g, hg, rfl, ht⟩
      refine ⟨_, l, rfl, hs.inv, hs.ring, hs.list, hs.memory, hs.unlinked, ?_, ?_, hs.results⟩
      · intro g hg t ht
        obtain ⟨v, hv, hvt⟩ := hs.waits g hg t ht
        exact ⟨v, List.mem_cons_of_mem _ hv, hvt⟩
      · intro v hv
        rcases List.mem_cons.mp hv with rfl | hv
        · exact ⟨l, hsame (Sees.start hs thread hadm)⟩
        · obtain ⟨p, hp⟩ := hs.walkers v hv
          exact ⟨p, hsame hp⟩
  | pass thread =>
    have hstep : ∀ w path, Sees sb n s l w path →
        ∃ w' path', w.pass s.links s.elem = some w' ∧ w'.thread = w.thread ∧ Sees sb n s l w' path' := by
      intro w path h
      obtain ⟨w', path', hw', hthread, hsees, -⟩ := h.pass hs
      exact ⟨w', path', hw', hthread, hsees⟩
    obtain ⟨s', hs', hsound⟩ := hs.walk thread hstep
    exact ⟨s', l, hs', hsound⟩
  | nextElem thread =>
    have hstep : ∀ w path, Sees sb n s l w path →
        ∃ w' path', w.nextElem s.links s.elem = some w' ∧ w'.thread = w.thread ∧ Sees sb n s l w' path' := by
      intro w path h
      obtain ⟨w', hw', hthread, hsees⟩ := h.nextElem hs
      exact ⟨w', path, hw', hthread, hsees⟩
    obtain ⟨s', hs', hsound⟩ := hs.walk thread hstep
    exact ⟨s', l, hs', hsound⟩
  | leave thread => exact ⟨_, l, rfl, hs.leave thread⟩
  | put e m a =>
    rcases hs.put e m a with hput | ⟨s', l', el, hput, hlinked⟩
    · exact ⟨s, l, hput, hs⟩
    · exact ⟨s', l', hput, hlinked.sound hs⟩
  | invalidate bread offset =>
    rcases hs.invalidate bread offset with hinv | ⟨s', l', a, hinv, hunlinked⟩
    · exact ⟨s, l, hinv, hs⟩
    · exact ⟨s', l', hinv, hunlinked.sound hs⟩
  | graceEnd a =>
    obtain ⟨s', hs', hsound⟩ := hs.graceEnd a
    exact ⟨s', l, hs', hsound⟩

/-! ## Runs -/

theorem rcuList_step {i : RcuMove} {s' : RcuState} (h : s.move i = some s') : rcuList.step s i = (true, s') := by
  simp only [rcuList, h]

/-- A run goes through, and keeps the invariant. -/
theorem Sound.run (is : List RcuMove) : ∀ {s : RcuState} {l : List Nat}, Sound sb n s l →
    (∀ r ∈ rcuList.replies s is, r = true) ∧ ∀ t ∈ rcuList.states s is, ∃ l', Sound sb n t l' := by
  induction is with
  | nil =>
    intro s l hs
    refine ⟨fun r hr => (by cases hr), fun t ht => ?_⟩
    rw [System.states_nil, List.mem_singleton] at ht
    exact ht ▸ ⟨l, hs⟩
  | cons i is ih =>
    intro s l hs
    obtain ⟨s', l', hmove, hs'⟩ := hs.move i
    have hstep := rcuList_step hmove
    have hnext : rcuList.next s i = s' := congrArg Prod.snd hstep
    obtain ⟨hreplies, hstates⟩ := ih hs'
    constructor
    · intro r hr
      rcases List.mem_cons.mp hr with rfl | hr
      · exact congrArg Prod.fst hstep
      · rw [hnext] at hr
        exact hreplies r hr
    · intro t ht
      rcases List.mem_cons.mp ht with rfl | ht
      · exact ⟨l, hs⟩
      · rw [hnext] at ht
        exact hstates t ht

theorem InMemory.sound {d : Driver} {links : LinkStore Nat} {elem : Nat → RcuElem} (hI : Inv sb n d)
    (h : InMemory d links elem) : ∃ l, Sound sb n (RcuState.start d links elem) l := by
  obtain ⟨l, hring, hlist, hmem⟩ := h
  refine ⟨l, hI, hring, hlist, ?_, ?_, ?_, ?_, ?_⟩
  · intro a
    rw [show (RcuState.start d links elem).links = links from rfl, hmem]
    exact ⟨.inl, fun ha => ha.elim id fun ha => (by cases ha)⟩
  · show (l ++ []).Nodup
    rw [List.append_nil]
    exact hring.nodup
  · intro g hg
    cases hg
  · intro w hw
    cases hw
  · intro r hr
    cases hr

/-- Nothing but the head is a list in memory for a driver without messages. -/
theorem inMemory_emptyStore {d : Driver} (hd : d.validBlkList = []) (elem : Nat → RcuElem) :
    InMemory d emptyStore elem := by
  refine ⟨[], represents_storeOf List.nodup_nil, hd.symm, fun a => ?_⟩
  simp [emptyStore]

section

variable {cfg : Config} {d : Driver} {links : LinkStore Nat} {elem : Nat → RcuElem}

/-- **No reader and no writer of the list ever dereferences what is not in memory**, whatever the
    interleaving and whatever addresses the allocator gives out.  In every state the ring of links is the
    list of valid blocks; what is in memory is listed, or unlinked and waiting for its release, and nothing is
    both or twice; and a grace period waits only for sections under way. -/
theorem rcu_list_safe (hd : Reachable cfg sb d) (hmem : InMemory d links elem) (is : List RcuMove) :
    (∀ r ∈ rcuList.replies (.start d links elem) is, r = true) ∧
    ∀ t ∈ rcuList.states (.start d links elem) is, ∃ l,
      Represents t.links l ∧ l.map t.elem = t.drv.validBlkList ∧
      (∀ a, (t.links (.node a)).isSome ↔ a ∈ l ++ t.grace.map Grace.node) ∧
      (l ++ t.grace.map Grace.node).Nodup ∧
      ∀ g ∈ t.grace, ∀ thread ∈ g.waits, ∃ w ∈ t.walkers, w.thread = thread := by
  obtain ⟨l, hs⟩ := hmem.sound hd.inv
  obtain ⟨hreplies, hstates⟩ := hs.run is
  refine ⟨hreplies, fun t ht => ?_⟩
  obtain ⟨l', ht⟩ := hstates t ht
  exact ⟨l', ht.ring, ht.list, fun a => (ht.memory a).trans List.mem_append.symm, ht.unlinked, ht.waits⟩

/-- Thread 1 is on the only node when that is invalidated; its address is given out again only after thread 1
    has left and the node has been released. -/
theorem rcu_list_safe_reuse :
    let is : List RcuMove := [.put (.allOk 4 10) [1] 7, .enter 1 (.get 0), .pass 1, .invalidate true 0,
      .put (.allOk 5 20) [2] 7, .graceEnd 7, .nextElem 1, .leave 1, .graceEnd 7, .put (.allOk 6 30) [3] 7]
    (∀ r ∈ rcuList.replies (.start (freshDriver 2) emptyStore fun _ => ⟨0, 0, 0⟩) is, r = true) ∧
    (rcuList.final (.start (freshDriver 2) emptyStore fun _ => ⟨0, 0, 0⟩) is).drv.validBlkList =
      [⟨1, 30, 1⟩] :=
  ⟨(rcu_list_safe (mounted_freshDriver .standard (by decide)).reachable (inMemory_emptyStore rfl _) _).1,
    by decide +kernel⟩

/-! ## What a lookup comes to -/

/-- What was found was listed at some moment, and met. -/
theorem WalkResult.Good.found_mem {r : WalkResult} (h : r.Good sb n) {el : RcuElem} (hel : r.found = some el) :
    el ∈ r.visited := List.mem_of_getLast? (h.stopped el hel).2

/-- A message listed at every moment that the search is for is found, or an older one is. -/
theorem WalkResult.Good.finds {r : WalkResult} (h : r.Good sb n) {el : RcuElem}
    (hel : ∀ d ∈ r.moments, el ∈ d.validBlkList) (hstops : r.search.stops el = true) :
    ∃ x, r.found = some x ∧ x.time ≤ el.time := by
  rcases h.complete el hel with hmet | hfound
  · by_cases hfound : r.found = some el
    · exact ⟨el, hfound, le_refl _⟩
    · rw [h.passed el hmet hfound] at hstops
      cases hstops
  · exact hfound

/-- **What the walk of a `read` skips was not valid throughout.**  It finds the block at its position or a
    message newer than its timestamp, one that was listed during the section; a message that is either, and
    is valid during the whole section, is not older than the one found; the node it goes on to next has no
    message valid during the whole section between itself and the one found; and while the list does not
    change it is the scan in one step. -/
theorem read_skips_nothing_kept (hd : Reachable cfg sb d) (hmem : InMemory d links elem) (is : List RcuMove)
    (deviceBlk : Nat) (nextTs : Ktime) :
    ∀ t ∈ rcuList.states (.start d links elem) is, ∀ r ∈ t.results, r.search = .read deviceBlk nextTs →
      (∀ el, r.found = some el →
        (el.ndx = deviceBlk ∨ nextTs.toInt < el.time) ∧ ∃ d' ∈ r.moments, el ∈ d'.validBlkList) ∧
      (∀ el, (∀ d' ∈ r.moments, el ∈ d'.validBlkList) → el.ndx = deviceBlk ∨ nextTs.toInt < el.time →
        ∃ x, r.found = some x ∧ x.time ≤ el.time) ∧
      (∀ x next, r.found = some x → r.beyond = some next → ∀ el, (∀ d' ∈ r.moments, el ∈ d'.validBlkList) →
        x.time < el.time → ∃ nx, next = some nx ∧ nx.time ≤ el.time) ∧
      ∀ list, (∀ d' ∈ r.moments, d'.validBlkList = list) →
        r.found = (selectTarget deviceBlk nextTs list).head? := by
  intro t ht r hr hsearch
  obtain ⟨l, hs⟩ := hmem.sound hd.inv
  obtain ⟨l', hsound⟩ := (hs.run is).2 t ht
  have hgood := hsound.results r hr
  have hstops : ∀ el : RcuElem, r.search.stops el = true ↔ el.ndx = deviceBlk ∨ nextTs.toInt < el.time := by
    intro el
    rw [hsearch, Search.stops, Bool.or_eq_true, beq_iff_eq, decide_eq_true_eq]
    rfl
  refine ⟨?_, ?_, ?_, ?_⟩
  · intro el hel
    exact ⟨(hstops el).mp (hgood.stopped el hel).1, hgood.listed el (hgood.found_mem hel)⟩
  · exact fun el hel hnew => hgood.finds hel ((hstops el).mpr hnew)
  · intro x next hx hnext el hel hlt
    -- what was met is not newer than what the loop was left at
    have hmet : el ∉ r.visited := by
      intro hmem
      obtain ⟨front, hfront⟩ := List.getLast?_eq_some_iff.mp (hgood.stopped x hx).2
      have hsorted := hgood.sorted
      rw [hfront] at hmem hsorted
      rcases List.mem_append.mp hmem with hmem | hmem
      · exact absurd ((List.pairwise_append.mp hsorted).2.2 el hmem x List.mem_cons_self) (not_le.mpr hlt)
      · rw [List.mem_singleton.mp hmem] at hlt
        exact lt_irrefl _ hlt
    exact (hgood.beyond next hnext el hel).resolve_left hmet
  · intro list hsame
    rw [hgood.undisturbed list hsame, hsearch, List.find?_eq_head?_dropWhile_not]
    rfl

/-- The messages of blocks 1 and 3 stay; those of blocks 0 and 2 are invalidated while thread 1 walks. -/
theorem read_skips_nothing_kept_under_invalidation :
    let is : List RcuMove := [.put (.allOk 4 10) [1] 7, .put (.allOk 5 20) [2, 3] 9, .put (.allOk 6 30) [4] 8,
      .put (.allOk 6 40) [5] 6, .enter 1 (.read 0 15), .invalidate true 0, .pass 1, .invalidate true 2,
      .nextElem 1, .leave 1]
    let t := rcuList.final (.start (freshDriver 4) emptyStore fun _ => ⟨0, 0, 0⟩) is
    t.results.map WalkResult.found = [some ⟨1, 20, 2⟩] ∧
    t.results.map WalkResult.beyond = [some (some ⟨3, 40, 1⟩)] ∧
    ∀ r ∈ t.results, r.search = .read 0 15 → ∀ el, (∀ d' ∈ r.moments, el ∈ d'.validBlkList) →
      el.ndx = 0 ∨ (15 : Ktime).toInt < el.time → ∃ x, r.found = some x ∧ x.time ≤ el.time := by
  intro is t
  refine ⟨by decide +kernel, by decide +kernel, fun r hr hsearch => ?_⟩
  exact (read_skips_nothing_kept (mounted_freshDriver .standard (by decide)).reachable (inMemory_emptyStore rfl _)
    is 0 15 t (System.final_mem_states _ _ _) r hr hsearch).2.1

/-! ## Sections and grace periods end -/

/-- A pass of a thread in its section. -/
theorem Sound.pass_walker (hs : Sound sb n s l) {thread : Nat} (hw : s.walker thread = some w)
    (h : Sees sb n s l w path) :
    ∃ w' path', rcuList.next s (.pass thread) = { s with walkers := w' :: s.others thread } ∧
      Sound sb n (rcuList.next s (.pass thread)) l ∧
      (rcuList.next s (.pass thread)).walker thread = some w' ∧
      Sees sb n (rcuList.next s (.pass thread)) l w' path' ∧
      ((w'.ended || w'.stopped s.elem) = true ∨ path'.length < path.length) := by
  obtain ⟨w', path', hpass, hthread, hsees, hdone⟩ := h.pass hs
  have hmove : s.move (.pass thread) = some { s with walkers := w' :: s.others thread } := by
    show s.walk thread _ = _
    rw [RcuState.walk, hw]
    dsimp only
    rw [hpass]
    rfl
  have hnext : rcuList.next s (.pass thread) = { s with walkers := w' :: s.others thread } :=
    congrArg Prod.snd (rcuList_step hmove)
  have hsound : Sound sb n { s with walkers := w' :: s.others thread } l := by
    obtain ⟨s', hs', hsound⟩ := hs.walk thread (f := Walker.pass s.links s.elem) (fun v p hv => by
      obtain ⟨v', p', hv', hvt, hvs, -⟩ := hv.pass hs
      exact ⟨v', p', hv', hvt, hvs⟩)
    have hsame : s' = { s with walkers := w' :: s.others thread } := Option.some.inj (hs'.symm.trans hmove)
    exact hsame ▸ hsound
  rw [hnext]
  refine ⟨w', path', rfl, hsound, ?_, hsees.of_grace rfl rfl rfl fun g hg ht => ⟨g, hg, rfl, ht⟩, hdone⟩
  have hself : (w'.thread == thread) = true := by
    rw [hthread, (RcuState.walker_some hw).2]
    exact beq_self_eq_true thread
  rw [RcuState.walker, List.find?_cons, hself]

/-- Left alone, a loop ends: after one pass for each node ahead, and one more. -/
theorem Sound.loop_ends {thread : Nat} (k : Nat) : ∀ {s : RcuState} {w : Walker} {path : List Nat},
    Sound sb n s l → s.walker thread = some w → Sees sb n s l w path → path.length ≤ k →
    ∃ j w', j ≤ path.length + 1 ∧
      (rcuList.final s (List.replicate j (.pass thread))).walker thread = some w' ∧
      (w'.ended || w'.stopped (rcuList.final s (List.replicate j (.pass thread))).elem) = true := by
  induction k with
  | zero =>
    intro s w path hs hw h hlen
    obtain ⟨w', path', hnext, -, hw', -, hdone⟩ := hs.pass_walker hw h
    refine ⟨1, w', by omega, hw', ?_⟩
    show (w'.ended || w'.stopped (rcuList.next s (.pass thread)).elem) = true
    rw [hnext]
    exact hdone.resolve_right (by omega)
  | succ k ih =>
    intro s w path hs hw h hlen
    obtain ⟨w', path', hnext, hs', hw', h', hdone⟩ := hs.pass_walker hw h
    rcases hdone with hdone | hshort
    · refine ⟨1, w', by omega, hw', ?_⟩
      show (w'.ended || w'.stopped (rcuList.next s (.pass thread)).elem) = true
      rw [hnext]
      exact hdone
    · obtain ⟨j, v, hj, hv, hvdone⟩ := ih hs' hw' h' (by omega)
      exact ⟨j + 1, v, by omega, hv, hvdone⟩

/-- **A section meets each node once, and its loop is bounded**: by the number of nodes listed when it began
    or put since, counting the passes it has made and those it still makes if it is left alone. -/
theorem walk_ends (hd : Reachable cfg sb d) (hmem : InMemory d links elem) (is : List RcuMove) (thread : Nat) :
    ∀ t ∈ rcuList.states (.start d links elem) is, ∀ w, t.walker thread = some w →
      w.visited.Nodup ∧ ∃ j w', w.visited.length + j ≤ w.met + 1 ∧
        (rcuList.final t (List.replicate j (.pass thread))).walker thread = some w' ∧
        (w'.ended || w'.stopped (rcuList.final t (List.replicate j (.pass thread))).elem) = true := by
  intro t ht w hw
  obtain ⟨l, hs⟩ := hmem.sound hd.inv
  obtain ⟨l', hsound⟩ := (hs.run is).2 t ht
  obtain ⟨path, hpath⟩ := hsound.walkers w (RcuState.walker_some hw).1
  obtain ⟨j, w', hj, hw', hdone⟩ := hsound.loop_ends path.length hw hpath (le_refl _)
  have hmet := hpath.view.met
  rw [List.length_append] at hmet
  exact ⟨(List.nodup_append.mp hpath.route.nodup).1, j, w', by omega, hw', hdone⟩

/-- A put in front of a walk that has begun is one node more to meet. -/
theorem walk_ends_behind_put :
    let is : List RcuMove := [.put (.allOk 4 10) [1] 7, .enter 1 (.get 1), .pass 1, .put (.allOk 5 20) [2] 9]
    let t := rcuList.final (.start (freshDriver 3) emptyStore fun _ => ⟨0, 0, 0⟩) is
    ∀ w, t.walker 1 = some w → w.visited.Nodup ∧ ∃ j w', w.visited.length + j ≤ w.met + 1 ∧
      (rcuList.final t (List.replicate j (.pass 1))).walker 1 = some w' ∧
      (w'.ended || w'.stopped (rcuList.final t (List.replicate j (.pass 1))).elem) = true :=
  walk_ends (mounted_freshDriver .standard (by decide)).reachable (inMemory_emptyStore rfl _) _ 1 _
    (System.final_mem_states _ _ _)

/-- What a thread that leaves its section leaves alone. -/
theorem RcuState.leave_frame (s : RcuState) (thread : Nat) :
    (s.leave thread).drv = s.drv ∧ (s.leave thread).links = s.links ∧ (s.leave thread).elem = s.elem ∧
    (s.leave thread).walkers = s.others thread ∧
    (s.leave thread).grace.map Grace.node = s.grace.map Grace.node := by
  unfold RcuState.leave
  cases hw : s.walker thread with
  | none =>
    refine ⟨rfl, rfl, rfl, ?_, rfl⟩
    refine (List.filter_eq_self.mpr fun w hmem => ?_).symm
    have hne := List.find?_eq_none.mp hw w hmem
    simpa using hne
  | some w => exact ⟨rfl, rfl, rfl, rfl, by rw [List.map_map]; rfl⟩

/-- All threads leave their sections. -/
theorem Sound.leave_all (ts : List Nat) : ∀ {s : RcuState}, Sound sb n s l →
    (∀ w ∈ s.walkers, w.thread ∈ ts) →
    let t := rcuList.final s (ts.map RcuMove.leave)
    Sound sb n t l ∧ t.walkers = [] ∧ t.drv = s.drv ∧ t.links = s.links ∧ t.elem = s.elem ∧
      t.grace.map Grace.node = s.grace.map Grace.node := by
  induction ts with
  | nil =>
    intro s hs hts
    exact ⟨hs, List.eq_nil_iff_forall_not_mem.mpr fun w hw => List.not_mem_nil (hts w hw), rfl, rfl, rfl, rfl⟩
  | cons thread ts ih =>
    intro s hs hts
    obtain ⟨hdrv, hlinks, helem, hwalkers, hnodes⟩ := s.leave_frame thread
    have hrest : ∀ w ∈ (s.leave thread).walkers, w.thread ∈ ts := by
      intro w hw
      rw [hwalkers] at hw
      obtain ⟨hw, hne⟩ := RcuState.mem_others.mp hw
      exact (List.mem_cons.mp (hts w hw)).resolve_left hne
    obtain ⟨hsound, hnone, hdrv', hlinks', helem', hnodes'⟩ := ih (hs.leave thread) hrest
    exact ⟨hsound, hnone, hdrv'.trans hdrv, hlinks'.trans hlinks, helem'.trans helem, hnodes'.trans hnodes⟩

/-- Without sections, every grace period can end, one after the other. -/
theorem Sound.graceEnd_all (gs : List Grace) : ∀ {s : RcuState}, Sound sb n s l → s.walkers = [] →
    s.grace = gs →
    let t := rcuList.final s (gs.map fun g => RcuMove.graceEnd g.node)
    Sound sb n t l ∧ t.walkers = [] ∧ t.grace = [] ∧ t.drv = s.drv ∧ t.elem = s.elem := by
  induction gs with
  | nil => exact fun hs hw hgs => ⟨hs, hw, hgs, rfl, rfl⟩
  | cons g gs ih =>
    intro s hs hw hgs
    have hg : g ∈ s.grace := hgs ▸ List.mem_cons_self
    -- nobody is left to wait for
    have hwaits : g.waits = [] := by
      refine List.eq_nil_iff_forall_not_mem.mpr fun t ht => ?_
      obtain ⟨w, hmem, -⟩ := hs.waits g hg t ht
      rw [hw] at hmem
      cases hmem
    have hmem : (⟨g.node, []⟩ : Grace) ∈ s.grace := hwaits ▸ hg
    obtain ⟨s', hmove, hs'⟩ := hs.graceEnd g.node
    have hnext : rcuList.next s (.graceEnd g.node) = s' := congrArg Prod.snd (rcuList_step (i := .graceEnd g.node) hmove)
    have hframe : s'.walkers = s.walkers ∧ s'.grace = s.grace.filter (fun h => h.node != g.node) ∧
        s'.drv = s.drv ∧ s'.elem = s.elem := by
      unfold RcuState.graceEnd at hmove
      rw [if_pos hmem] at hmove
      obtain ⟨links', -, rfl⟩ := Option.map_eq_some_iff.mp hmove
      exact ⟨rfl, rfl, rfl, rfl⟩
    have hrest : s'.grace = gs := by
      have hnodup := (List.nodup_append.mp hs.unlinked).2.1
      rw [hgs, List.map_cons, List.nodup_cons] at hnodup
      rw [hframe.2.1, hgs, List.filter_cons, bne_self_eq_false, if_neg Bool.false_ne_true]
      refine List.filter_eq_self.mpr fun h hh => bne_iff_ne.mpr fun heq => hnodup.1 ?_
      rw [← heq]
      exact List.mem_map_of_mem hh
    obtain ⟨hsound, hnone, hgrace, hdrv, helem⟩ := ih hs' (hframe.1.trans hw) hrest
    rw [List.map_cons, System.final_cons, hnext]
    exact ⟨hsound, hnone, hgrace, hdrv.trans hframe.2.2.1, helem.trans hframe.2.2.2⟩

/-- **Every invalidation gets to return, and nothing unlinked stays in memory.**  From any state of any run,
    once the sections under way have ended, every grace period can end; the list is then in memory, and
    nothing else. -/
theorem grace_periods_end (hd : Reachable cfg sb d) (hmem : InMemory d links elem) (is : List RcuMove) :
    ∀ t ∈ rcuList.states (.start d links elem) is,
      let js := t.walkers.map (fun w => RcuMove.leave w.thread) ++ t.grace.map fun g => RcuMove.graceEnd g.node
      let u := rcuList.final t js
      u.walkers = [] ∧ u.grace = [] ∧ u.drv = t.drv ∧ InMemory u.drv u.links u.elem := by
  intro t ht
  obtain ⟨l, hs⟩ := hmem.sound hd.inv
  obtain ⟨l', hsound⟩ := (hs.run is).2 t ht
  have hleave := hsound.leave_all (t.walkers.map Walker.thread) fun w hw => List.mem_map_of_mem hw
  have hmoves : (t.walkers.map Walker.thread).map RcuMove.leave = t.walkers.map fun w => RcuMove.leave w.thread := by
    rw [List.map_map]
    rfl
  rw [hmoves] at hleave
  obtain ⟨hsound', hwalkers, hdrv, -, -, hnodes⟩ := hleave
  have hend := hsound'.graceEnd_all _ hwalkers rfl
  have hgraces : ∀ v : RcuState, v.grace.map Grace.node = t.grace.map Grace.node →
      (v.grace.map fun g => RcuMove.graceEnd g.node) = t.grace.map fun g => RcuMove.graceEnd g.node := by
    intro v hv
    have hmap := congrArg (List.map RcuMove.graceEnd) hv
    rwa [List.map_map, List.map_map] at hmap
  rw [hgraces _ hnodes] at hend
  dsimp only at hend ⊢
  rw [System.final_append]
  obtain ⟨hfinal, hnone, hgrace, hdrv', -⟩ := hend
  refine ⟨hnone, hgrace, hdrv'.trans hdrv, l', hfinal.ring, hfinal.list, fun a => ?_⟩
  rw [hfinal.memory, hgrace]
  exact ⟨fun ha => ha.elim id fun ha => (by cases ha), .inl⟩

/-- Two sections are under way, and a node waits for both. -/
theorem grace_periods_end_two_sections :
    let is : List RcuMove := [.put (.allOk 4 10) [1] 7, .enter 1 (.get 0), .enter 2 (.get 0), .pass 2,
      .invalidate true 0]
    let t := rcuList.final (.start (freshDriver 3) emptyStore fun _ => ⟨0, 0, 0⟩) is
    t.grace = [⟨7, [2, 1]⟩] ∧
    (rcuList.final t [.leave 2, .leave 1, .graceEnd 7]).grace = [] := by
  intro is t
  have hwalkers : t.walkers.map (fun w => RcuMove.leave w.thread) = [.leave 2, .leave 1] := rfl
  have hgrace : t.grace = [⟨7, [2, 1]⟩] := by decide +kernel
  have hend := grace_periods_end (mounted_freshDriver .standard (by decide)).reachable
    (inMemory_emptyStore rfl fun _ => ⟨0, 0, 0⟩) is t (System.final_mem_states _ _ _)
  rw [hwalkers, hgrace] at hend
  exact ⟨hgrace, hend.2.1⟩

end

end Bldms
