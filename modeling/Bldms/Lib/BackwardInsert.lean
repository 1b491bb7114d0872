/-
  Sorted insertion by a BACKWARD scan.

  `insertBack key a l` walks `l` from its last element towards its first and puts `a` right after
  the first element met whose key is strictly below that of `a`; with no such element, `a` becomes
  the head.  On the reversed list this is Mathlib's `List.orderedInsert` for the strict relation
  "smaller key", so membership and permutation facts come from there.

  The one lemma the rest follows from is `insertBack_split`: a sorted list is cut in two, everything
  before the cut is strictly below `a`, everything after it is at or above `a` — so `a` lands BEFORE
  its equals.  Without equals there is only one way to sort (`KeySorted.eq_of_mem_iff`); with equals there is one
  if they, too, are in order, which they are in a list that has been built rank after rank (`TieSorted`).
-/
import Mathlib

variable {α : Type*} {β : Type*} [LinearOrder β] (key : α → β)

/-- Insert `a` right after the last element with a strictly smaller key. -/
def insertBack (a : α) (l : List α) : List α :=
  (l.reverse.orderedInsert (fun x y => key y < key x) a).reverse

/-- The list is in non-decreasing order of the key. -/
def KeySorted (l : List α) : Prop := l.Pairwise fun x y => key x ≤ key y

variable {key}

theorem insertBack_perm (a : α) (l : List α) : (insertBack key a l).Perm (a :: l) := by
  refine (List.reverse_perm _).trans ((List.perm_orderedInsert _ a l.reverse).trans ?_)
  exact (List.reverse_perm l).cons a

theorem mem_insertBack {a x : α} {l : List α} : x ∈ insertBack key a l ↔ x = a ∨ x ∈ l := by
  rw [(insertBack_perm a l).mem_iff, List.mem_cons]

/-- Where `a` goes: behind the part of the list that the scan does not reach. -/
theorem insertBack_eq (key : α → β) (a : α) (l : List α) :
    insertBack key a l = (l.reverse.dropWhile fun y => decide ¬ key y < key a).reverse ++
      a :: (l.reverse.takeWhile fun y => decide ¬ key y < key a).reverse := by
  rw [insertBack, List.orderedInsert_eq_take_drop]
  simp

/-- The two parts make up the list. -/
theorem dropWhile_append_takeWhile (p : α → Bool) (l : List α) :
    (l.reverse.dropWhile p).reverse ++ (l.reverse.takeWhile p).reverse = l := by
  rw [← List.reverse_append, List.takeWhile_append_dropWhile, List.reverse_reverse]

/-- Insertion by the key of an image is the image of insertion. -/
theorem insertBack_map {γ : Type*} (key : α → β) (f : γ → α) (a : γ) (l : List γ) :
    insertBack key (f a) (l.map f) = (insertBack (fun c => key (f c)) a l).map f := by
  rw [insertBack_eq, insertBack_eq, List.map_append, List.map_cons, List.map_reverse, List.map_reverse,
    ← List.map_reverse (l := l), List.dropWhile_map, List.takeWhile_map]
  rfl

/-- A sorted list is cut where `a` goes: strictly smaller keys in front, the others behind. -/
theorem insertBack_split (a : α) {l : List α} (hs : KeySorted key l) :
    ∃ pre post, l = pre ++ post ∧ insertBack key a l = pre ++ a :: post ∧
      (∀ x ∈ pre, key x < key a) ∧ (∀ x ∈ post, key a ≤ key x) := by
  refine ⟨(l.reverse.dropWhile fun y => decide ¬ key y < key a).reverse,
    (l.reverse.takeWhile fun y => decide ¬ key y < key a).reverse,
    (dropWhile_append_takeWhile _ l).symm, insertBack_eq key a l, ?_, ?_⟩
  · intro x hx
    rw [List.mem_reverse] at hx
    -- the element the scan stopped at is below `a`; what it did not reach is below that element
    have hdrop : (l.reverse.dropWhile fun y => decide ¬ key y < key a).Pairwise
        fun x y => key y ≤ key x :=
      (List.pairwise_reverse.mpr hs).sublist (List.dropWhile_sublist _)
    cases hd : l.reverse.dropWhile fun y => decide ¬ key y < key a with
    | nil => rw [hd] at hx; nomatch hx
    | cons y ys =>
      have hy : key y < key a := by
        have hstop := List.head?_dropWhile_not (fun y => decide ¬ key y < key a) l.reverse
        rw [hd] at hstop
        simpa using hstop
      rw [hd] at hx hdrop
      rcases List.mem_cons.mp hx with rfl | hx
      · exact hy
      · exact lt_of_le_of_lt ((List.pairwise_cons.mp hdrop).1 x hx) hy
  · intro x hx
    rw [List.mem_reverse] at hx
    have := List.mem_takeWhile_imp hx
    simpa using this

/-- Any relation along a sorted list is kept, if it holds from the smaller elements to the new one and from the
    new one to the others. -/
theorem insertBack_pairwise {R : α → α → Prop} {a : α} {l : List α} (hs : KeySorted key l) (hl : l.Pairwise R)
    (hbelow : ∀ x ∈ l, key x < key a → R x a) (habove : ∀ x ∈ l, key a ≤ key x → R a x) :
    (insertBack key a l).Pairwise R := by
  obtain ⟨pre, post, rfl, heq, hpre, hpost⟩ := insertBack_split a hs
  obtain ⟨h₁, h₂, hcross⟩ := List.pairwise_append.mp hl
  rw [heq]
  refine List.pairwise_append.mpr ⟨h₁, List.pairwise_cons.mpr ⟨?_, h₂⟩, ?_⟩
  · intro y hy
    exact habove y (List.mem_append_right _ hy) (hpost y hy)
  · intro x hx y hy
    rcases List.mem_cons.mp hy with rfl | hy
    · exact hbelow x (List.mem_append_left _ hx) (hpre x hx)
    · exact hcross x hx y hy

theorem insertBack_sorted (a : α) {l : List α} (hs : KeySorted key l) :
    KeySorted key (insertBack key a l) :=
  insertBack_pairwise hs hs (fun _ _ hlt => hlt.le) fun _ _ hle => hle

/-- With every key strictly below that of `a`, insertion is an append. -/
theorem insertBack_eq_append {a : α} {l : List α} (hs : KeySorted key l)
    (hlt : ∀ x ∈ l, key x < key a) : insertBack key a l = l ++ [a] := by
  obtain ⟨pre, post, rfl, heq, -, hpost⟩ := insertBack_split a hs
  have hnil : post = [] := by
    refine List.eq_nil_iff_forall_not_mem.mpr ?_
    intro x hx
    exact absurd (hlt x (List.mem_append_right _ hx)) (not_lt.mpr (hpost x hx))
  rw [heq, hnil, List.append_nil]

/-- Insertion is an append exactly when no element has the key of the new one, none having a larger. -/
theorem insertBack_eq_append_iff {a : α} {l : List α} (hs : KeySorted key l)
    (hle : ∀ x ∈ l, key x ≤ key a) (hnew : a ∉ l) :
    insertBack key a l = l ++ [a] ↔ ∀ x ∈ l, key x ≠ key a := by
  constructor
  · intro heq x hx htie
    obtain ⟨pre, post, rfl, hins, hpre, -⟩ := insertBack_split a hs
    rw [hins, List.append_assoc] at heq
    have htail : a :: post = post ++ [a] := List.append_cancel_left heq
    rcases List.mem_append.mp hx with hx | hx
    · exact absurd htie (ne_of_lt (hpre x hx))
    · cases post with
      | nil => nomatch hx
      | cons y ys =>
        rw [List.cons_append, List.cons.injEq] at htail
        rw [htail.1] at hnew
        exact hnew (List.mem_append_right _ List.mem_cons_self)
  · intro hne
    exact insertBack_eq_append hs fun x hx => lt_of_le_of_ne (hle x hx) (hne x hx)

/-- A sorted list without repetitions is determined by its members, if no two of them share a key. -/
theorem KeySorted.eq_of_mem_iff {l l' : List α} (hs : KeySorted key l) (hs' : KeySorted key l')
    (hn : l.Nodup) (hn' : l'.Nodup) (hmem : ∀ x, x ∈ l ↔ x ∈ l')
    (hinj : ∀ x ∈ l, ∀ y ∈ l, key x = key y → x = y) : l = l' := by
  have hperm : l.Perm l' := (List.perm_ext_iff_of_nodup hn hn').mpr hmem
  refine hperm.eq_of_pairwise ?_ hs hs'
  intro x y hx hy hxy hyx
  exact hinj x hx y ((hmem y).mpr hy) (le_antisymm hxy hyx)

/-! ## Elements with the same key -/

section

variable {γ : Type*} [LinearOrder γ] {rank : α → γ}

/-- The list is in order of the key, and where keys are equal in descending order of the rank. -/
def TieSorted (key : α → β) (rank : α → γ) (l : List α) : Prop :=
  l.Pairwise fun x y => key x < key y ∨ key x = key y ∧ rank y < rank x

instance (key : α → β) (rank : α → γ) (l : List α) : Decidable (TieSorted key rank l) :=
  inferInstanceAs (Decidable (l.Pairwise _))

theorem TieSorted.keySorted {l : List α} (h : TieSorted key rank l) : KeySorted key l :=
  h.imp fun hxy => hxy.elim le_of_lt fun htie => htie.1.le

/-- An element of a higher rank than all the others goes before its equals. -/
theorem TieSorted.insertBack {a : α} {l : List α} (h : TieSorted key rank l) (hnew : ∀ x ∈ l, rank x < rank a) :
    TieSorted key rank (insertBack key a l) := by
  refine insertBack_pairwise h.keySorted h (fun x _ hlt => .inl hlt) fun x hx hle => ?_
  rcases lt_or_eq_of_le hle with hlt | heq
  · exact .inl hlt
  · exact .inr ⟨heq, hnew x hx⟩

/-- Two elements cannot stand in both orders. -/
theorem not_tie_symm {x y : α} (hxy : key x < key y ∨ key x = key y ∧ rank y < rank x)
    (hyx : key y < key x ∨ key y = key x ∧ rank x < rank y) : False := by
  rcases hxy with hxy | ⟨hkey, hrank⟩
  · rcases hyx with hyx | ⟨hkey, -⟩
    · exact lt_asymm hxy hyx
    · exact hxy.ne' hkey
  · rcases hyx with hyx | ⟨-, hrank'⟩
    · exact hyx.ne' hkey
    · exact lt_asymm hrank hrank'

/-- There is only one way to put elements in this order. -/
theorem TieSorted.eq_of_perm {l l' : List α} (h : TieSorted key rank l) (h' : TieSorted key rank l')
    (hperm : l.Perm l') : l = l' :=
  hperm.eq_of_pairwise (fun _ _ _ _ hxy hyx => (not_tie_symm hxy hyx).elim) h h'

/-- The last element has the largest key, and the lowest rank among those with that key. -/
theorem TieSorted.getLast?_eq_some_iff {a : α} {l : List α} (h : TieSorted key rank l) :
    l.getLast? = some a ↔ a ∈ l ∧ ∀ x ∈ l, x = a ∨ key x < key a ∨ key x = key a ∧ rank a < rank x := by
  have hlast : ∀ {b}, l.getLast? = some b → b ∈ l ∧ ∀ x ∈ l, x = b ∨ key x < key b ∨ key x = key b ∧ rank b < rank x := by
    intro b hb
    refine ⟨List.mem_of_getLast? hb, ?_⟩
    obtain ⟨front, rfl⟩ := List.getLast?_eq_some_iff.mp hb
    intro x hx
    rcases List.mem_append.mp hx with hx | hx
    · exact .inr ((List.pairwise_append.mp h).2.2 x hx b (List.mem_singleton.mpr rfl))
    · exact .inl (List.mem_singleton.mp hx)
  constructor
  · exact hlast
  · rintro ⟨ha, hnewest⟩
    obtain ⟨b, hb⟩ := Option.ne_none_iff_exists'.mp (mt List.getLast?_eq_none_iff.mp (List.ne_nil_of_mem ha))
    obtain ⟨hmem, hbefore⟩ := hlast hb
    -- the element that is last stands before no other
    rcases hnewest b hmem with rfl | hba
    · exact hb
    · rcases hbefore a ha with rfl | hab
      · exact hb
      · exact (not_tie_symm hab hba).elim

end
