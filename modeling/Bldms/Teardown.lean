/-
  Taking the list of valid blocks down, link by link.

  Source: `rcu.c`, `remove_all_entries_secure`; `bldms.c`, the clean-up of `bldms_fs_fill_super`.

  Both loops are a `list_for_each_entry` whose body unlinks the node the iteration is at and releases it:
  * `removeAllEntriesSecure` — with `list_del_rcu`, which keeps the `next` link of the node;
  * `errAndCleanRcu`         — with `list_del`, which poisons it.
  The iteration then goes on from the `next` link of THAT node, which has left the store.  What such a read
  gives is up to whoever owns the memory by then, so it is a parameter (`Stale`); the nodes it happened at
  are kept in `Teardown.strayed`.

  A list with a node in it is therefore never taken down as it should be, whatever the memory reads as
  (`Teardown.not_tornDown_of_node`).  That unmounting works in practice is the memory still holding what was in
  it (`Stale.asLeft`): the loop over `list_del_rcu` then goes through the whole list
  (`removeAllEntriesSecure_asLeft`), the one over `list_del` dies at the poison, after the first node
  (`errAndCleanRcu_asLeft`).
-/
import Bldms.Lib.IntrusiveList

namespace Bldms

open Intrusive

/-! ## The loops -/

/-- A teardown under way. -/
structure Teardown where
  mem : LinkStore Nat
  /-- What the released nodes held when they were released. -/
  left : LinkStore Nat
  unlinked : List Nat
  released : List Nat
  /-- The nodes a link was read from when they had left the store. -/
  strayed : List Nat

/-- What the `next` link of a node outside the store reads as, for the node and for what it held last. -/
abbrev Stale := Nat → Option (Links Nat) → Link Nat

/-- The memory still holds what was in it. -/
def Stale.asLeft : Stale := fun _ c => (c.map Links.next).getD .poison

/-- How a loop ends: back at the head, at an address that cannot be dereferenced, or not yet. -/
inductive LoopEnd where
  | done | fault | running
  deriving DecidableEq, Repr

namespace Teardown

def start (m : LinkStore Nat) : Teardown := ⟨m, fun _ => none, [], [], []⟩

/-- The body of the loops, for the deletion `del`: the node is unlinked and released. -/
def body (del : LinkStore Nat → Addr Nat → Option (LinkStore Nat)) (t : Teardown) (a : Nat) : Option Teardown :=
  match del t.mem (.node a) with
  | none => none
  | some m₁ =>
    match kfree m₁ a with
    | none => none
    | some m₂ => some
      { t with
        mem := m₂
        left := Function.update t.left (.node a) (m₁ (.node a))
        unlinked := t.unlinked ++ [a]
        released := t.released ++ [a] }

/-- `list_next_entry`: the `next` link of the node. -/
def advance (stale : Stale) (t : Teardown) (a : Nat) : Link Nat × Teardown :=
  match t.mem (.node a) with
  | some c => (c.next, t)
  | none => (stale a (t.left (.node a)), { t with strayed := t.strayed ++ [a] })

/-- `list_for_each_entry` with that body, from the node or the head a link leads to. -/
def loop (del : LinkStore Nat → Addr Nat → Option (LinkStore Nat)) (stale : Stale) :
    Nat → Link Nat → Teardown → LoopEnd × Teardown
  | _, .poison, t => (.fault, t)
  | _, .to .head, t => (.done, t)
  | 0, .to (.node _), t => (.running, t)
  | passes + 1, .to (.node a), t =>
    match t.body del a with
    | none => (.fault, t)
    | some t₁ => loop del stale passes (t₁.advance stale a).1 (t₁.advance stale a).2

/-- The loop from the first entry of the list. -/
def run (del : LinkStore Nat → Addr Nat → Option (LinkStore Nat)) (stale : Stale) (passes : Nat) (m : LinkStore Nat) :
    LoopEnd × Teardown :=
  loop del stale passes ((nextOf m .head).getD .poison) (start m)

end Teardown

/-- `remove_all_entries_secure`, for at most `passes` passes. -/
def removeAllEntriesSecure (stale : Stale) (passes : Nat) (m : LinkStore Nat) : LoopEnd × Teardown :=
  Teardown.run listDelRcu stale passes m

/-- The loop of `bldms_fs_fill_super` at `err_and_clean_rcu`, for at most `passes` passes. -/
def errAndCleanRcu (stale : Stale) (passes : Nat) (m : LinkStore Nat) : LoopEnd × Teardown :=
  Teardown.run listDel stale passes m

/-- What taking the list `l` down should come to. -/
structure TornDown (l : List Nat) (r : LoopEnd × Teardown) : Prop where
  /-- The loop ends, at the head. -/
  ends : r.1 = .done
  /-- Every link was read from a node in the store. -/
  inStore : r.2.strayed = []
  /-- Every node was unlinked exactly once, -/
  unlinked : r.2.unlinked.Perm l
  /-- and released exactly once. -/
  released : r.2.released.Perm l
  /-- The list is empty. -/
  empty : Represents r.2.mem []

/-! ## One pass -/

namespace Teardown

variable {del : LinkStore Nat → Addr Nat → Option (LinkStore Nat)} {link : Addr Nat → Link Nat}

/-- The body at the first node: the list goes on without it, and it is no longer in the store. -/
theorem body_first (hdel : Unlinks del link) {t : Teardown} {a : Nat} {l : List Nat}
    (h : Represents t.mem (a :: l)) :
    ∃ t', t.body del a = some t' ∧ Represents t'.mem l ∧ t'.mem (.node a) = none ∧
      nextOf t'.left (.node a) = some (link (succOf l)) ∧ t'.unlinked = t.unlinked ++ [a] ∧
      t'.released = t.released ++ [a] ∧ t'.strayed = t.strayed := by
  have hcut : Represents t.mem ([] ++ a :: l) := h
  obtain ⟨m₁, hm₁, hrep, hnext⟩ := hdel.unlink hcut
  have ha : a ∉ l := (List.nodup_cons.mp h.nodup).1
  obtain ⟨hfree, hrep'⟩ := Represents.kfree hrep ha (isSome_of_nextOf hnext)
  have hbody : t.body del a = some
      ⟨Function.update m₁ (.node a) none, Function.update t.left (.node a) (m₁ (.node a)),
        t.unlinked ++ [a], t.released ++ [a], t.strayed⟩ := by
    rw [body, hm₁]
    dsimp only
    rw [hfree]
  refine ⟨_, hbody, hrep', Function.update_self .., ?_, rfl, rfl, rfl⟩
  show (Function.update t.left (.node a) (m₁ (.node a)) (.node a)).map Links.next = _
  rw [Function.update_self]
  exact hnext

/-- A node that has left the store is left by a stray link. -/
theorem advance_stray (stale : Stale) {t : Teardown} {a : Nat} (h : t.mem (.node a) = none) :
    t.advance stale a = (stale a (t.left (.node a)), { t with strayed := t.strayed ++ [a] }) := by
  rw [advance, h]

theorem strayed_body {t t' : Teardown} {a : Nat} (h : t.body del a = some t') :
    t'.strayed = t.strayed := by
  unfold body at h
  split at h
  · cases h
  split at h
  · cases h
  · rw [← Option.some.inj h]

theorem strayed_advance (stale : Stale) (t : Teardown) (a : Nat) :
    t.strayed <+: (t.advance stale a).2.strayed := by
  unfold advance
  split
  · exact List.prefix_rfl
  · exact List.prefix_append _ _

/-- Strays are never forgotten. -/
theorem strayed_loop (del : LinkStore Nat → Addr Nat → Option (LinkStore Nat)) (stale : Stale) :
    ∀ (passes : Nat) (x : Link Nat) (t : Teardown), t.strayed <+: (loop del stale passes x t).2.strayed := by
  intro passes
  induction passes with
  | zero =>
    intro x t
    rcases x with (_ | a) | _ <;> exact List.prefix_rfl
  | succ passes ih =>
    intro x t
    rcases x with (_ | a) | _
    · exact List.prefix_rfl
    · rw [loop]
      split
      · exact List.prefix_rfl
      · rename_i t₁ ht₁
        rw [← strayed_body ht₁]
        exact (strayed_advance stale t₁ a).trans (ih _ _)
    · exact List.prefix_rfl

/-- **One pass**, at the first node of a list: the node leaves the list and the store, and the loop goes
    on from what its released memory reads as. -/
theorem loop_node (hdel : Unlinks del link) (stale : Stale) {t : Teardown} {a : Nat} {l : List Nat}
    (h : Represents t.mem (a :: l)) :
    ∃ (t₁ : Teardown) (c : Links Nat), c.next = link (succOf l) ∧
      (∀ passes, loop del stale (passes + 1) (.to (.node a)) t = loop del stale passes (stale a (some c)) t₁) ∧
      Represents t₁.mem l ∧ t₁.unlinked = t.unlinked ++ [a] ∧ t₁.released = t.released ++ [a] ∧
      t₁.strayed = t.strayed ++ [a] := by
  obtain ⟨t₁, ht₁, hrep, hgone, hleft, hunl, hrel, hstray⟩ := body_first hdel h
  obtain ⟨c, hc, hnext⟩ := Option.map_eq_some_iff.mp hleft
  refine ⟨{ t₁ with strayed := t₁.strayed ++ [a] }, c, hnext, ?_, hrep, hunl, hrel, ?_⟩
  · intro passes
    rw [loop, ht₁]
    dsimp only
    rw [advance_stray stale hgone, hc]
  · show t₁.strayed ++ [a] = t.strayed ++ [a]
    rw [hstray]

/-! ## Whole loops -/

/-- A list with a node in it is not taken down: the first pass, if there is one, reads the link of a
    node that has been released. -/
theorem not_tornDown_of_node (hdel : Unlinks del link) (stale : Stale) (passes : Nat) {m : LinkStore Nat}
    {a : Nat} {l : List Nat} (h : Represents m (a :: l)) : ¬ TornDown (a :: l) (run del stale passes m) := by
  intro htorn
  have hfirst : nextOf m .head = some (.to (.node a)) := h.first
  rw [run, hfirst, Option.getD_some] at htorn
  cases passes with
  | zero => cases htorn.ends
  | succ passes =>
    obtain ⟨t₁, c, -, hpass, -, -, -, hstray⟩ := loop_node hdel stale (t := start m) h
    have hkept := strayed_loop del stale passes (stale a (some c)) t₁
    rw [← hpass, htorn.inStore, hstray] at hkept
    exact List.cons_ne_nil a [] (List.prefix_nil.mp hkept)

/-- On an empty list the loop makes no pass. -/
theorem run_empty (del : LinkStore Nat → Addr Nat → Option (LinkStore Nat)) (stale : Stale) (passes : Nat)
    {m : LinkStore Nat} (h : Represents m []) : run del stale passes m = (.done, start m) := by
  have hfirst : nextOf m .head = some (.to .head) := h.first
  rw [run, hfirst, Option.getD_some]
  cases passes <;> rfl

/-- So an empty list is taken down. -/
theorem tornDown_empty (stale : Stale) (passes : Nat) {m : LinkStore Nat} (h : Represents m []) :
    TornDown [] (run del stale passes m) := by
  rw [run_empty del stale passes h]
  exact ⟨rfl, rfl, .nil, .nil, h⟩

/-- Exactly the empty list is taken down, whichever deletion the loop is over. -/
theorem tornDown_iff (hdel : Unlinks del link) (stale : Stale) {m : LinkStore Nat} {l : List Nat}
    (h : Represents m l) : (∃ passes, TornDown l (run del stale passes m)) ↔ l = [] := by
  constructor
  · rintro ⟨passes, htorn⟩
    cases l with
    | nil => rfl
    | cons a l => exact absurd htorn (not_tornDown_of_node hdel stale passes h)
  · rintro rfl
    exact ⟨0, tornDown_empty stale 0 h⟩

/-- With the `next` links kept, and released memory that still holds them, the loop gets to the head. -/
theorem loop_listDelRcu_asLeft : ∀ (l : List Nat) (t : Teardown) (passes : Nat), Represents t.mem l →
    l.length ≤ passes →
    ∃ t', loop listDelRcu .asLeft passes (.to (succOf l)) t = (.done, t') ∧ Represents t'.mem [] ∧
      t'.unlinked = t.unlinked ++ l ∧ t'.released = t.released ++ l ∧ t'.strayed = t.strayed ++ l := by
  intro l
  induction l with
  | nil =>
    intro t passes h _
    refine ⟨t, ?_, h, by simp, by simp, by simp⟩
    cases passes <;> rfl
  | cons a l ih =>
    intro t passes h hlen
    obtain ⟨passes, rfl⟩ := Nat.exists_eq_add_one_of_ne_zero (show passes ≠ 0 by
      rw [List.length_cons] at hlen; omega)
    obtain ⟨t₁, c, hnext, hpass, hrep, hunl, hrel, hstray⟩ := loop_node unlinks_listDelRcu .asLeft h
    obtain ⟨t', hloop, hempty, hunl', hrel', hstray'⟩ := ih t₁ passes hrep (Nat.le_of_succ_le_succ hlen)
    refine ⟨t', ?_, hempty, ?_, ?_, ?_⟩
    · show loop listDelRcu .asLeft (passes + 1) (.to (.node a)) t = _
      rw [hpass, show Stale.asLeft a (some c) = c.next from rfl, hnext]
      exact hloop
    · rw [hunl', hunl, List.append_assoc]
      rfl
    · rw [hrel', hrel, List.append_assoc]
      rfl
    · rw [hstray', hstray, List.append_assoc]
      rfl

end Teardown

/-- What hides the stray reads of `remove_all_entries_secure`: as long as nobody has reused the memory,
    the loop unlinks and releases every node, in the order of the list, and the list is empty. -/
theorem removeAllEntriesSecure_asLeft {m : LinkStore Nat} {l : List Nat} (h : Represents m l) {passes : Nat}
    (hlen : l.length ≤ passes) :
    ∃ t, removeAllEntriesSecure .asLeft passes m = (.done, t) ∧ Represents t.mem [] ∧ t.unlinked = l ∧
      t.released = l ∧ t.strayed = l := by
  have hrun : removeAllEntriesSecure .asLeft passes m =
      Teardown.loop listDelRcu .asLeft passes (.to (succOf l)) (.start m) := by
    rw [removeAllEntriesSecure, Teardown.run, h.first]
    rfl
  rw [hrun]
  exact Teardown.loop_listDelRcu_asLeft l (.start m) passes h hlen

/-- Nothing hides those of the clean-up: the first node holds poison, and the others stay in the list. -/
theorem errAndCleanRcu_asLeft {m : LinkStore Nat} {a : Nat} {l : List Nat} (h : Represents m (a :: l))
    (passes : Nat) :
    ∃ t, errAndCleanRcu .asLeft (passes + 1) m = (.fault, t) ∧ Represents t.mem l ∧ t.unlinked = [a] ∧
      t.released = [a] ∧ t.strayed = [a] := by
  have hrun : errAndCleanRcu .asLeft (passes + 1) m =
      Teardown.loop listDel .asLeft (passes + 1) (.to (.node a)) (.start m) := by
    rw [errAndCleanRcu, Teardown.run, h.first]
    rfl
  obtain ⟨t₁, c, hnext, hpass, hrep, hunl, hrel, hstray⟩ :=
    Teardown.loop_node unlinks_listDel .asLeft (t := .start m) h
  refine ⟨t₁, ?_, hrep, hunl, hrel, hstray⟩
  rw [hrun, hpass, show Stale.asLeft a (some c) = c.next from rfl, hnext]
  cases passes <;> rfl

/-- **Taking the list down**: whatever released memory reads as, each of the two loops ends at the head,
    reads every link from a node in the store, unlinks and releases every node exactly once and leaves
    the list empty if and only if the list was empty before. -/
theorem teardown_complete_iff {m : LinkStore Nat} {l : List Nat} (h : Represents m l) (stale : Stale) :
    ((∃ passes, TornDown l (removeAllEntriesSecure stale passes m)) ↔ l = []) ∧
    ((∃ passes, TornDown l (errAndCleanRcu stale passes m)) ↔ l = []) :=
  ⟨Teardown.tornDown_iff unlinks_listDelRcu stale h, Teardown.tornDown_iff unlinks_listDel stale h⟩

/-- The rule at an empty list and at a list of two nodes. -/
theorem teardown_complete_two :
    (∃ passes, TornDown [] (removeAllEntriesSecure .asLeft passes (storeOf []))) ∧
    (∃ passes, TornDown [] (errAndCleanRcu .asLeft passes (storeOf []))) ∧
    ¬ ∃ passes, TornDown [3, 1] (removeAllEntriesSecure .asLeft passes (storeOf [3, 1])) := by
  have hempty := teardown_complete_iff (represents_storeOf (l := []) List.nodup_nil) .asLeft
  have htwo := teardown_complete_iff (represents_storeOf (l := [3, 1]) (by decide)) .asLeft
  exact ⟨hempty.1.mpr rfl, hempty.2.mpr rfl, fun h => List.cons_ne_nil _ _ (htwo.1.mp h)⟩

/-- One node is enough: neither loop takes it down, whatever its released memory reads as. -/
theorem teardown_incomplete :
    Represents (storeOf [0]) [0] ∧ ∀ (stale : Stale) (passes : Nat),
      ¬ TornDown [0] (removeAllEntriesSecure stale passes (storeOf [0])) ∧
      ¬ TornDown [0] (errAndCleanRcu stale passes (storeOf [0])) := by
  have hrep : Represents (storeOf [0]) [0] := represents_storeOf (by decide)
  refine ⟨hrep, ?_⟩
  intro stale passes
  exact ⟨Teardown.not_tornDown_of_node unlinks_listDelRcu stale passes hrep,
    Teardown.not_tornDown_of_node unlinks_listDel stale passes hrep⟩

end Bldms
