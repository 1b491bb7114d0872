/-
  The timestamps that sessions are kept by, step by step.

  Source: `file_ops.c`: `bldms_open`, `bldms_release`, `bldms_llseek`, and what `bldms_read` does with `private_data`.

  In the model of the calls a session is a value.  In the code it is allocated: `private_data` points to the timestamp
  of the next message, and `bldms_read` and `bldms_llseek` put another one in its place by a load, a store and a
  `kfree`, with nothing in the driver between them and another call on the same file.  That is the pattern of
  `Lib.Exchange`, with `private_data` for the cell: a read looks, and may go on to exchange what it has looked at; an
  `llseek` only exchanges.
  * `session_free_exact`  — exactly when a timestamp is freed twice, or never;
  * `session_locked_safe` — if the calls on a file wait for each other (the lock of the file position), everything is
                            freed once, and nothing is read after that;
  * `module_count`        — the usage count of the module, as `open` and `release` keep it, is the number of open
                            files, and one for every `open` that has failed for want of memory.
-/
import Bldms.Lib.Exchange
import Bldms.FileOps

namespace Bldms

open Exchange (Cell)

/-- A `struct file`: how it has been opened, whether it still is, and its `private_data` with the calls on the file
    that are under way. -/
structure Filp where
  mode : AccMode
  isOpen : Bool
  privateData : Cell
  deriving DecidableEq, Repr

/-- `f_flags & O_ACCMODE` is `O_RDONLY` or `O_RDWR`. -/
def AccMode.reads : AccMode → Bool
  | .rdonly | .rdwr => true
  | .wronly => false

/-- The files on the device, by the number they are opened in, and the usage count of the module: what
    `try_module_get` and `module_put` have made of it. -/
structure OpenFiles where
  mounted : Bool
  files : List Filp
  refcount : Nat
  deriving DecidableEq, Repr

/-- A call, or a step of one: `f` is the file, `j` the place of the call among those on it. -/
inductive FileMove where
  | openFile (mode : AccMode) (alloc : Bool)
  | release (f : Nat)
  /-- `bldms_read` has loaded `next_ts`; … -/
  | read (f : Nat)
  /-- … it compares a node's timestamp with `*next_ts`; … -/
  | compare (f j : Nat)
  /-- … it returns without a new timestamp, … -/
  | leave (f j : Nat)
  /-- … or comes to `set_next_blk` and allocates one. -/
  | setNextBlk (f j : Nat) (alloc : Bool)
  | llseek (f : Nat) (off : Int) (whence : Whence) (alloc : Bool)
  /-- `bldms_read` and `bldms_llseek` load the old pointer, store the new one, and free. -/
  | load (f j : Nat)
  | store (f j : Nat)
  | kfree (f j : Nat)
  deriving DecidableEq, Repr

namespace OpenFiles

/-- What there is of a file; a file that has not been opened has nothing. -/
def session (s : OpenFiles) (f : Nat) : Cell :=
  match s.files[f]? with
  | some filp => filp.privateData
  | none => .empty

/-- A step on `private_data`. -/
def onSession (s : OpenFiles) (f : Nat) (m : Exchange.Move) : OpenFiles :=
  match s.files[f]? with
  | some filp =>
    match filp.privateData.move m with
    | some c => { s with files := s.files.set f { filp with privateData := c } }
    | none => s
  | none => s

/-- `bldms_open`.  A module reference taken for a file without memory for its timestamp is kept. -/
def bldmsOpen (s : OpenFiles) (mode : AccMode) (alloc : Bool) : Option Errno × OpenFiles :=
  if ¬ s.mounted then (some .enodev, s)
  else
    let s := { s with refcount := s.refcount + 1 }
    if mode.reads then
      if ¬ alloc then (some .enomem, s)
      else
        let filp : Filp := ⟨mode, true, { Cell.empty with current := some 0, made := 1, held := [0] }⟩
        (none, { s with files := s.files ++ [filp] })
    else (none, { s with files := s.files ++ [⟨mode, true, .empty⟩] })

/-- `bldms_release`, for a file nobody uses any more. -/
def bldmsRelease (s : OpenFiles) (f : Nat) : Option Errno × OpenFiles :=
  match s.files[f]? with
  | some filp =>
    if ¬ filp.isOpen ∨ filp.privateData.callers ≠ [] then (none, s)
    else if ¬ s.mounted then (some .enodev, { s with files := s.files.set f { filp with isOpen := false } })
    else
      let c := if filp.mode.reads then (filp.privateData.move .drain).getD filp.privateData else filp.privateData
      (none, { s with files := s.files.set f { filp with isOpen := false, privateData := c }, refcount := s.refcount - 1 })
  | none => (none, s)

/-- `bldms_llseek`, up to the allocation. -/
def bldmsLlseek (s : OpenFiles) (f : Nat) (off : Int) (whence : Whence) (alloc : Bool) : Option Errno × OpenFiles :=
  if ¬ s.mounted then (some .enodev, s)
  else match whence with
    | .seekSet =>
      if off = 0 ∧ (s.session f).current ≠ none then
        if ¬ alloc then (some .enomem, s) else (none, s.onSession f .make)
      else (some .einval, s)
    | _ => (some .einval, s)

def step (s : OpenFiles) : FileMove → Option Errno × OpenFiles
  | .openFile mode alloc => s.bldmsOpen mode alloc
  | .release f => s.bldmsRelease f
  | .read f => (none, s.onSession f .look)
  | .compare f j => (none, s.onSession f (.check j))
  | .leave f j => (none, s.onSession f (.leave j))
  | .setNextBlk f j alloc => if alloc then (none, s.onSession f (.renew j)) else (some .enomem, s.onSession f (.leave j))
  | .llseek f off whence alloc => s.bldmsLlseek f off whence alloc
  | .load f j => (none, s.onSession f (.load j))
  | .store f j => (none, s.onSession f (.swap j))
  | .kfree f j => (none, s.onSession f (.free j))

/-- The device is mounted, and no file is open. -/
def start : OpenFiles := ⟨true, [], 0⟩

/-- How many files are open. -/
def openCount (s : OpenFiles) : Nat := s.files.countP Filp.isOpen

end OpenFiles

/-- Open files and the calls on them, with what a call returns that ends at once: an error, if any. -/
def openFiles : System OpenFiles FileMove (Option Errno) := ⟨OpenFiles.step⟩

/-! ## One file of many -/

section

variable {s : OpenFiles} {f : Nat} {filp filp' : Filp}

theorem session_of_file (hf : s.files[f]? = some filp) : s.session f = filp.privateData := by
  rw [OpenFiles.session, hf]

/-- A file changes, the others do not. -/
theorem session_set {files : List Filp} (hf : s.files[f]? = some filp) (hfiles : files = s.files.set f filp')
    (mounted : Bool) (refcount g : Nat) :
    OpenFiles.session ⟨mounted, files, refcount⟩ g = if g = f then filp'.privateData else s.session g := by
  have hlt := (List.getElem?_eq_some_iff.mp hf).1
  subst hfiles
  simp only [OpenFiles.session]
  by_cases hgf : g = f
  · rw [if_pos hgf, hgf, List.getElem?_set_self hlt]
  · rw [if_neg hgf, List.getElem?_set_ne (Ne.symm hgf)]

/-- A file is new, the others do not change. -/
theorem session_append {files : List Filp} (hfiles : files = s.files ++ [filp']) (mounted : Bool) (refcount g : Nat) :
    OpenFiles.session ⟨mounted, files, refcount⟩ g =
      if g = s.files.length then filp'.privateData else s.session g := by
  subst hfiles
  simp only [OpenFiles.session]
  rcases Nat.lt_trichotomy g s.files.length with hlt | rfl | hgt
  · rw [if_neg (by omega), List.getElem?_append_left hlt]
  · rw [if_pos rfl, List.getElem?_concat_length]
  · rw [if_neg (by omega), List.getElem?_eq_none (by rw [List.length_append, List.length_singleton]; omega),
      List.getElem?_eq_none (by omega)]

/-- A step on a session is a step of its cell, or nothing. -/
theorem onSession_cases (s : OpenFiles) (f : Nat) (m : Exchange.Move) (g : Nat) :
    (s.onSession f m).session g = s.session g ∨
      g = f ∧ (s.session g).move m = some ((s.onSession f m).session g) := by
  rw [OpenFiles.onSession]
  split
  · rename_i filp hf
    split
    · rename_i c hc
      rw [session_set hf rfl]
      by_cases hgf : g = f
      · rw [if_pos hgf, hgf, session_of_file hf]
        exact .inr ⟨rfl, hc⟩
      · rw [if_neg hgf]
        exact .inl rfl
    · exact .inl rfl
  · exact .inl rfl

theorem llseek_cases (s : OpenFiles) (f : Nat) (off : Int) (whence : Whence) (alloc : Bool) :
    (s.bldmsLlseek f off whence alloc).2 = s ∨ (s.bldmsLlseek f off whence alloc).2 = s.onSession f .make := by
  unfold OpenFiles.bldmsLlseek
  split
  · exact .inl rfl
  · cases whence with
    | seekSet =>
      dsimp only
      split
      · split
        · exact .inl rfl
        · exact .inr rfl
      · exact .inl rfl
    | seekCur => exact .inl rfl
    | seekEnd => exact .inl rfl

/-- An `open` is the first step of a file that has had none, and leaves the others alone. -/
theorem open_session (s : OpenFiles) (mode : AccMode) (alloc : Bool) (g : Nat) :
    (s.bldmsOpen mode alloc).2.session g = s.session g ∨
      s.session g = .empty ∧ (s.session g).move .fill = some ((s.bldmsOpen mode alloc).2.session g) := by
  have hnew : ∀ (filp : Filp) (refcount : Nat), OpenFiles.session ⟨s.mounted, s.files ++ [filp], refcount⟩ g = s.session g ∨
      s.session g = .empty ∧ OpenFiles.session ⟨s.mounted, s.files ++ [filp], refcount⟩ g = filp.privateData := by
    intro filp refcount
    rw [session_append rfl]
    by_cases hg : g = s.files.length
    · rw [if_pos hg]
      refine .inr ⟨?_, rfl⟩
      rw [OpenFiles.session, List.getElem?_eq_none (by omega)]
    · rw [if_neg hg]
      exact .inl rfl
  unfold OpenFiles.bldmsOpen
  split
  · exact .inl rfl
  dsimp only
  split
  · split
    · exact .inl rfl
    · refine (hnew _ _).imp id fun ⟨hempty, hfilp⟩ => ⟨hempty, ?_⟩
      rw [hempty, hfilp]
      rfl
  · -- without a timestamp there is nothing to begin with
    rcases hnew _ _ with hsame | ⟨hempty, hfilp⟩
    · exact .inl hsame
    · exact .inl (hfilp.trans hempty.symm)

/-- A `release` is the last step of a file, and leaves the others alone. -/
theorem release_session (s : OpenFiles) (f g : Nat) :
    (s.bldmsRelease f).2.session g = s.session g ∨
      (s.session g).callers = [] ∧ (s.session g).move .drain = some ((s.bldmsRelease f).2.session g) := by
  unfold OpenFiles.bldmsRelease
  split
  · rename_i filp hf
    split
    · exact .inl rfl
    rename_i hidle
    rw [not_or, not_not, not_not] at hidle
    split
    · rw [session_set hf rfl]
      by_cases hgf : g = f
      · rw [if_pos hgf, hgf, session_of_file hf]
        exact .inl rfl
      · rw [if_neg hgf]
        exact .inl rfl
    · dsimp only
      rw [session_set hf rfl]
      by_cases hgf : g = f
      · rw [if_pos hgf, hgf, session_of_file hf]
        split
        · cases hmove : filp.privateData.move .drain with
          | some c => exact .inr ⟨hidle.2, rfl⟩
          | none => exact .inl rfl
        · exact .inl rfl
      · rw [if_neg hgf]
        exact .inl rfl
  · exact .inl rfl

end

/-- The first step of a call on the file. -/
def FileMove.Starts (f : Nat) : FileMove → Prop
  | .read g | .llseek g _ _ _ => g = f
  | _ => False

/-- **What a step does to a session**: nothing, or it is a step of its cell; one that only begins a call if there is
    none, where the step does. -/
theorem session_step (s : OpenFiles) (i : FileMove) (f : Nat) :
    (openFiles.next s i).session f = s.session f ∨
      ∃ m : Exchange.Move, (m.Starts → i.Starts f ∨ (s.session f).callers = []) ∧
        (s.session f).move m = some ((openFiles.next s i).session f) := by
  have hon : ∀ g (m : Exchange.Move), (m.Starts → i.Starts g) → (openFiles.next s i) = s.onSession g m →
      (openFiles.next s i).session f = s.session f ∨
      ∃ m : Exchange.Move, (m.Starts → i.Starts f ∨ (s.session f).callers = []) ∧
        (s.session f).move m = some ((openFiles.next s i).session f) := by
    intro g m hm heq
    rw [heq]
    refine (onSession_cases s g m f).imp id ?_
    rintro ⟨rfl, hmove⟩
    exact ⟨m, fun hstarts => .inl (hm hstarts), hmove⟩
  cases i with
  | openFile mode alloc =>
    refine (open_session s mode alloc f).imp id fun ⟨hempty, hmove⟩ => ⟨.fill, fun _ => .inr ?_, hmove⟩
    rw [hempty]
    rfl
  | release g =>
    exact (release_session s g f).imp id fun ⟨hidle, hmove⟩ => ⟨.drain, fun _ => .inr hidle, hmove⟩
  | read g => exact hon g .look (fun _ => rfl) rfl
  | compare g j => exact hon g (.check j) False.elim rfl
  | leave g j => exact hon g (.leave j) False.elim rfl
  | setNextBlk g j alloc =>
    cases alloc with
    | true => exact hon g (.renew j) False.elim rfl
    | false => exact hon g (.leave j) False.elim rfl
  | llseek g off whence alloc =>
    rcases llseek_cases s g off whence alloc with hsame | hmake
    · exact .inl (congrArg (OpenFiles.session · f) hsame)
    · exact hon g .make (fun _ => rfl) hmake
  | load g j => exact hon g (.load j) False.elim rfl
  | store g j => exact hon g (.swap j) False.elim rfl
  | kfree g j => exact hon g (.free j) False.elim rfl

/-! ## What is freed, and when -/

/-- **Exactly when nothing is freed twice.**  At a moment when no call on a file is under way, each of its timestamps
    has been freed at most once if and only if no two calls on it have ever been between the load of the old pointer
    and the store of the new one at once; and that is so if and only if each timestamp that is not freed is the one in
    `private_data`. -/
theorem session_free_exact (is : List FileMove) (f : Nat)
    (hidle : ((openFiles.final .start is).session f).callers = []) :
    (((openFiles.final .start is).session f).freed.Nodup ↔
      ∀ t ∈ openFiles.states .start is, (t.session f).window ≤ 1) ∧
    ((∀ a < ((openFiles.final .start is).session f).made, a ∈ ((openFiles.final .start is).session f).current ∨
        a ∈ ((openFiles.final .start is).session f).freed) ↔
      ∀ t ∈ openFiles.states .start is, (t.session f).window ≤ 1) :=
  Exchange.exchange_exact (OpenFiles.session · f)
    (fun s i => (session_step s i f).imp id fun ⟨m, _, hm⟩ => ⟨m, hm⟩) rfl is hidle

/-- Two `lseek`s that load the same pointer: it is freed twice, and the timestamp stored first is lost. -/
theorem session_free_exact_two_seeks :
    let is : List FileMove := [.openFile .rdonly true, .llseek 0 0 .seekSet true, .llseek 0 0 .seekSet true, .load 0 0,
      .load 0 1, .store 0 0, .store 0 1, .kfree 0 0, .kfree 0 0, .release 0]
    ((openFiles.final .start is).session 0).freed = [2, 0, 0] ∧
      ¬ ∀ t ∈ openFiles.states .start is, (t.session 0).window ≤ 1 := by
  intro is
  have hexact := (session_free_exact is 0 (by decide)).1
  exact ⟨by decide, fun hone => absurd (hexact.mpr hone) (by decide)⟩

/-- The lock of the file position: a call on a file begins when there is none on it. -/
def FposLocked (s : OpenFiles) (i : FileMove) : Prop := ∀ f, i.Starts f → (s.session f).callers = []

/-- **The lock is enough.**  If calls on a file wait for each other, then at every moment each timestamp allocated for
    a file is in one place, in `private_data`, with a call that is going to put it there or to free it, or freed once;
    and none has been read after it was freed. -/
theorem session_locked_safe (is : List FileMove) (hlock : openFiles.AllSteps FposLocked .start is) :
    ∀ t ∈ openFiles.states .start is, ∀ f,
      ((t.session f).owned ++ (t.session f).freed).Perm (List.range (t.session f).made) ∧
      (t.session f).stale = false := by
  intro t ht f
  have halone := Exchange.exchange_locked (S := openFiles) (C := FposLocked) (OpenFiles.session · f)
    (fun s i hlocked => (session_step s i f).imp id fun ⟨m, hstarts, hm⟩ =>
      ⟨m, fun hm' => (hstarts hm').elim (hlocked f) id, hm⟩) rfl hlock t ht
  refine ⟨List.perm_iff_count.mpr fun a => ?_, halone.sound⟩
  rw [List.count_append]
  exact halone.tidy.ledger a

/-- A read that goes on to the next message, an `lseek` and the release: three timestamps, each freed once. -/
theorem session_locked_safe_three_calls :
    let is : List FileMove := [.openFile .rdonly true, .read 0, .compare 0 0, .setNextBlk 0 0 true, .load 0 0,
      .store 0 0, .kfree 0 0, .llseek 0 0 .seekSet true, .load 0 0, .store 0 0, .kfree 0 0, .release 0]
    ((openFiles.final .start is).session 0).freed = [2, 1, 0] ∧
      ∀ t ∈ openFiles.states .start is, (t.session 0).stale = false := by
  intro is
  have hlock : openFiles.AllSteps FposLocked .start is := by
    refine ⟨?_, ?_, ?_, ?_, ?_, ?_, ?_, ?_, ?_, ?_, ?_, ?_, trivial⟩
    all_goals
      rintro f hstarts
      first | exact hstarts.elim | (obtain rfl := hstarts; rfl)
  exact ⟨by decide, fun t ht => (session_locked_safe is hlock t ht 0).2⟩

/-! ## The usage count -/

/-- The `open` has failed for want of memory. -/
def failedOpen : FileMove → Option Errno → Bool
  | .openFile _ _, some .enomem => true
  | _, _ => false

theorem openCount_set {s : OpenFiles} {f : Nat} {filp : Filp} (hf : s.files[f]? = some filp) (filp' : Filp) :
    (s.files.set f filp').countP Filp.isOpen + (if filp.isOpen then 1 else 0) =
      s.openCount + (if filp'.isOpen then 1 else 0) := by
  obtain ⟨hlt, rfl⟩ := List.getElem?_eq_some_iff.mp hf
  have hpos : s.files[f].isOpen = true → 0 < s.openCount := fun hopen =>
    List.countP_pos_iff.mpr ⟨_, List.getElem_mem hlt, hopen⟩
  rw [OpenFiles.openCount] at hpos ⊢
  rw [List.countP_set hlt]
  by_cases hopen : s.files[f].isOpen = true
  · have := hpos hopen
    simp only [hopen, if_true]
    omega
  · simp [hopen]

/-- Calls leave the files open or closed as they are. -/
theorem onSession_count (s : OpenFiles) (f : Nat) (m : Exchange.Move) :
    (s.onSession f m).openCount = s.openCount ∧ (s.onSession f m).refcount = s.refcount ∧
      (s.onSession f m).mounted = s.mounted := by
  rw [OpenFiles.onSession]
  split
  · rename_i filp hf
    split
    · rename_i c hc
      have hset := openCount_set hf { filp with privateData := c }
      exact ⟨Nat.add_right_cancel hset, rfl, rfl⟩
    · exact ⟨rfl, rfl, rfl⟩
  · exact ⟨rfl, rfl, rfl⟩

/-- What there is to count, before a step and after it: `failed` for an `open` that has failed. -/
structure Counted (s s' : OpenFiles) (failed : Bool) : Prop where
  mounted : s'.mounted = true
  le : s'.openCount ≤ s'.refcount
  count : s'.refcount + s.openCount = s.refcount + s'.openCount + (if failed then 1 else 0)

theorem count_open {s : OpenFiles} (mode : AccMode) (alloc : Bool) (hmounted : s.mounted = true)
    (hle : s.openCount ≤ s.refcount) :
    Counted s (s.bldmsOpen mode alloc).2 (failedOpen (.openFile mode alloc) (s.bldmsOpen mode alloc).1) := by
  have happend : ∀ filp : Filp, filp.isOpen = true →
      Counted s { s with refcount := s.refcount + 1, files := s.files ++ [filp] } false := by
    intro filp hopen
    have hcount : OpenFiles.openCount ⟨s.mounted, s.files ++ [filp], s.refcount + 1⟩ = s.openCount + 1 := by
      simp [OpenFiles.openCount, hopen]
    refine ⟨hmounted, ?_, ?_⟩
    · rw [hcount]
      exact Nat.succ_le_succ hle
    · rw [hcount]
      show s.refcount + 1 + s.openCount = s.refcount + (s.openCount + 1) + 0
      omega
  rw [OpenFiles.bldmsOpen, if_neg (not_not.mpr hmounted)]
  dsimp only
  split
  · split
    · exact ⟨hmounted, Nat.le_succ_of_le hle, Nat.add_right_comm _ _ _⟩
    · exact happend _ rfl
  · exact happend _ rfl

theorem count_release {s : OpenFiles} (f : Nat) (hmounted : s.mounted = true) (hle : s.openCount ≤ s.refcount) :
    Counted s (s.bldmsRelease f).2 false := by
  rw [OpenFiles.bldmsRelease]
  split
  · rename_i filp hf
    split
    · exact ⟨hmounted, hle, rfl⟩
    rename_i hidle
    rw [not_or, not_not, not_not] at hidle
    dsimp only
    generalize (if filp.mode.reads = true then _ else _ : Cell) = c
    have hset := openCount_set hf { filp with isOpen := false, privateData := c }
    rw [hidle.1, if_pos rfl, if_neg Bool.false_ne_true] at hset
    refine ⟨hmounted, ?_, ?_⟩
    · show (s.files.set f { filp with isOpen := false, privateData := c }).countP Filp.isOpen ≤ s.refcount - 1
      omega
    · show s.refcount - 1 + s.openCount =
        s.refcount + (s.files.set f { filp with isOpen := false, privateData := c }).countP Filp.isOpen + 0
      omega
  · exact ⟨hmounted, hle, rfl⟩

/-- **The step lemma of the usage count.** -/
theorem count_step {s : OpenFiles} (i : FileMove) (hmounted : s.mounted = true) (hle : s.openCount ≤ s.refcount) :
    Counted s (openFiles.next s i) (failedOpen i (openFiles.step s i).1) := by
  have hon : ∀ f m, Counted s (s.onSession f m) false := by
    intro f m
    obtain ⟨hopen, href, hmnt⟩ := onSession_count s f m
    refine ⟨hmnt.trans hmounted, ?_, ?_⟩
    · rw [hopen, href]
      exact hle
    · rw [hopen, href]
      rfl
  cases i with
  | openFile mode alloc => exact count_open mode alloc hmounted hle
  | release f => exact count_release f hmounted hle
  | llseek f off whence alloc =>
    show Counted s (s.bldmsLlseek f off whence alloc).2 false
    rcases llseek_cases s f off whence alloc with heq | heq
    · rw [heq]
      exact ⟨hmounted, hle, rfl⟩
    · rw [heq]
      exact hon f .make
  | setNextBlk f j alloc =>
    cases alloc with
    | true => exact hon f (.renew j)
    | false => exact hon f (.leave j)
  | read f => exact hon f .look
  | compare f j => exact hon f (.check j)
  | leave f j => exact hon f (.leave j)
  | load f j => exact hon f (.load j)
  | store f j => exact hon f (.swap j)
  | kfree f j => exact hon f (.free j)

/-- The `open`s of a run that have failed for want of memory. -/
def failedOpens (s : OpenFiles) (is : List FileMove) : Nat :=
  (is.zip (openFiles.replies s is)).countP fun p => failedOpen p.1 p.2

theorem count_run : ∀ (is : List FileMove) {s : OpenFiles}, s.mounted = true → s.openCount ≤ s.refcount →
    (openFiles.final s is).refcount + s.openCount =
      s.refcount + (openFiles.final s is).openCount + failedOpens s is := by
  intro is
  induction is with
  | nil => intro s _ _; rfl
  | cons i is ih =>
    intro s hmounted hle
    obtain ⟨hmounted', hle', hcount⟩ := count_step i hmounted hle
    have hrest := ih hmounted' hle'
    have hsplit : failedOpens s (i :: is) =
        failedOpens (openFiles.next s i) is + (if failedOpen i (openFiles.step s i).1 then 1 else 0) := by
      rw [failedOpens, System.replies, List.zip_cons_cons, List.countP_cons]
      rfl
    rw [System.final_cons, hsplit]
    omega

/-- **The usage count of the module.**  Whatever is opened, released, read and sought, the module is used once for
    every open file, and once for every `open` that has failed for want of memory. -/
theorem module_count (is : List FileMove) :
    (openFiles.final .start is).refcount = (openFiles.final .start is).openCount + failedOpens .start is := by
  have hrun := count_run is (s := .start) rfl (le_refl _)
  rwa [show OpenFiles.start.openCount = 0 from rfl, show OpenFiles.start.refcount = 0 from rfl, Nat.add_zero,
    Nat.zero_add] at hrun

end Bldms
