/-
  Listing the root directory.

  Source: `dir_ops.c`, with `bldms_lookup` (`file_ops.c`) for the names it lists.

  A call of `bldms_iterate` hands one entry at most to the caller's actor, and goes on at `ctx->pos` from there: the
  actor may have no room for the entry, and the next call, with another buffer, has to come back to it.
  `listing_split` says that no run of calls drops an entry or gives one twice, whatever the actors take.
-/
import Bldms.Lib.System
import Bldms.FileOps

namespace Bldms

/-- `DT_UNKNOWN`, `DT_DIR`. -/
inductive DirType where
  | unknown | dir
  deriving DecidableEq, Repr

/-- What the actor is handed: the name, the inode number, the type. -/
structure DirEntry where
  name : String
  ino : Nat
  type : DirType
  deriving DecidableEq, Repr

/-- `ROOT_INODE_NUMBER`; the root is its own parent. -/
def rootInodeNumber : Nat := 2

def dirDot : DirEntry := ⟨".", rootInodeNumber, .dir⟩

def dirDotdot : DirEntry := ⟨"..", rootInodeNumber, .dir⟩

/-- `UNIQUE_FILE_NAME`, with `BLDMS_SINGLEFILE_INODE_NUMBER`. -/
def uniqueFile : DirEntry := ⟨"the_file", bldmsInodesBlockNumber, .unknown⟩

/-- `dir_emit`, and `ctx->pos++` if the actor has taken the entry. -/
def dirEmit (actor : DirEntry → Bool) (entry : DirEntry) (pos : Nat) : Option DirEntry × Nat :=
  if actor entry then (some entry, pos + 1) else (none, pos)

/-- `bldms_iterate`: what it has handed over, and the position it leaves. -/
def bldmsIterate (actor : DirEntry → Bool) (pos : Nat) : Option DirEntry × Nat :=
  if pos ≥ 2 + 1 then (none, pos)
  else if pos = 0 then dirEmit actor dirDot pos
  else if pos = 1 then dirEmit actor dirDotdot pos
  else dirEmit actor uniqueFile pos

/-- The calls on an open directory, each with its actor; the position is kept in the file between them. -/
def listing : System Nat (DirEntry → Bool) (Option DirEntry) := ⟨fun pos actor => bldmsIterate actor pos⟩

/-- All there is to list. -/
def dirEntries : List DirEntry := [dirDot, dirDotdot, uniqueFile]

/-- A call offers the entry at the position, if there is one left. -/
theorem bldmsIterate_eq (actor : DirEntry → Bool) (pos : Nat) :
    bldmsIterate actor pos = (dirEntries[pos]?).elim (none, pos) (dirEmit actor · pos) := by
  match pos with
  | 0 | 1 | 2 => rfl
  | n + 3 => rw [bldmsIterate, if_pos (by omega), dirEntries, List.getElem?_eq_none (by simp), Option.elim_none]

/-- **A call loses nothing**: what it hands over and what is left afterwards is what was left before. -/
theorem iterate_split (actor : DirEntry → Bool) (pos : Nat) :
    (listing.step pos actor).1.toList ++ dirEntries.drop (listing.next pos actor) = dirEntries.drop pos := by
  show (bldmsIterate actor pos).1.toList ++ dirEntries.drop (bldmsIterate actor pos).2 = _
  rw [bldmsIterate_eq]
  cases hentry : dirEntries[pos]? with
  | none => rfl
  | some entry =>
    obtain ⟨hpos, rfl⟩ := List.getElem?_eq_some_iff.mp hentry
    rw [Option.elim_some, dirEmit]
    split
    · exact List.cons_getElem_drop_succ
    · rfl

/-- **A listing loses nothing.**  Whatever entries the actors have room for, what a run of calls has handed over and
    what it has left to list is, in order, what there was to list before. -/
theorem listing_split (actors : List (DirEntry → Bool)) (pos : Nat) :
    (listing.replies pos actors).reduceOption ++ dirEntries.drop (listing.final pos actors) = dirEntries.drop pos := by
  induction actors generalizing pos with
  | nil => rfl
  | cons actor actors ih =>
    have hcons : ((listing.step pos actor).1 :: listing.replies (listing.next pos actor) actors).reduceOption =
        (listing.step pos actor).1.toList ++ (listing.replies (listing.next pos actor) actors).reduceOption := by
      cases (listing.step pos actor).1 <;> rfl
    rw [System.replies, hcons, System.final_cons, List.append_assoc, ih, iterate_split]

/-- Of the names listed, `bldms_lookup` finds the file. -/
theorem lookup_listed {entry : DirEntry} (hentry : entry ∈ dirEntries) (sb : Nat) (d : Driver) :
    (∃ ino, bldmsLookup true true entry.name sb d = .ok (some ino)) ↔ entry = uniqueFile := by
  simp only [dirEntries, List.mem_cons, List.not_mem_nil, or_false] at hentry
  rcases hentry with rfl | rfl | rfl
  · constructor
    · rintro ⟨ino, h⟩
      simp [bldmsLookup, dirDot] at h
    · intro h
      exact absurd h (by decide)
  · constructor
    · rintro ⟨ino, h⟩
      simp [bldmsLookup, dirDotdot] at h
    · intro h
      exact absurd h (by decide)
  · constructor
    · intro _
      rfl
    · intro _
      exact ⟨_, rfl⟩

end Bldms
