/-
  The size the formatter records, and the blocks it initialises.

  Source: `bldmsmakefs.c`: `file_size`, `num_data_blocks`, the loop; `include/bldms.h`, `bldms_inode`.

  Two conversions stand between the size of the image file and the loop.  The size less two blocks, signed,
  goes into an unsigned 64-bit field; the number of blocks in it goes into 32 bits.
  * An image of less than two blocks gets a file size just below `2 ^ 64`.
  * From `2 ^ 32` data blocks on, the loop stops early: the inode announces more blocks than have been
    initialised.

  A run may also stop because a write is not complete.  `makefsWrites` lists the writes of a run that does
  not, by position and length, and `bldmsmakefs_ok_iff` says that this is what it takes.  What is seen of a run is
  its exit status, the low eight bits of what `main` returns: it is 0 for a run that stops at the superblock when the
  number of bytes written is a multiple of 256 (`MakefsEnv.Misreports`).
-/
import Bldms.Makefs

namespace Bldms

/-! ## The writes of a run -/

/-- The writes of the pass for block `i`: metadata, message if there is one, padding. -/
def passWrites (fill : Bool) (i : Nat) : List (Nat × Nat) :=
  let start := (i + 2) * 4096
  match installed fill i with
  | some s => [(start, 10), (start + 10, s.length), (start + 10 + s.length, 4086 - s.length)]
  | none => [(start, 10), (start + 10, 4086)]

/-- The writes of the loop. -/
def loopWrites (fill : Bool) (size : Nat) : List (Nat × Nat) :=
  (List.range (makefsNumDataBlocks size)).flatMap (passWrites fill)

/-- All the writes: superblock, inode, padding, and those of the loop. -/
def makefsWrites (fill : Bool) (size : Nat) : List (Nat × Nat) :=
  (0, 4096) :: (4096, 32) :: (4128, 4064) :: loopWrites fill size

namespace MakefsEnv

/-- These writes are complete. -/
def Completes (env : MakefsEnv) (ws : List (Nat × Nat)) : Prop := ∀ w ∈ ws, env.write w.1 w.2 = w.2

/-- The program is called with one file, which opens, and the writes it makes are complete. -/
structure Uninterrupted (env : MakefsEnv) (fill : Bool) (size : Nat) : Prop where
  argc : env.argc = 2
  opens : env.opens = true
  writes : env.Completes (makefsWrites fill size)

theorem completes_cons {env : MakefsEnv} {w : Nat × Nat} {ws : List (Nat × Nat)} :
    env.Completes (w :: ws) ↔ env.write w.1 w.2 = w.2 ∧ env.Completes ws := List.forall_mem_cons

theorem completes_nil (env : MakefsEnv) : env.Completes [] := fun _ h => absurd h List.not_mem_nil

end MakefsEnv

theorem error_not_ok {code : Int} : ¬ ∃ f : ImageFile, (.error code : Except Int ImageFile) = .ok f := by
  rintro ⟨f, h⟩
  cases h

/-- A sequence of checked writes goes through when its first one is complete and the rest goes through. -/
theorem writeOr_bind_ok_iff {env : MakefsEnv} {code : Int → Int} {bytes : List Byte} {f : ImageFile}
    {g : ImageFile → Except Int ImageFile} :
    (∃ f', f.writeOr env code bytes >>= g = .ok f') ↔
      env.write f.pos bytes.length = bytes.length ∧ ∃ f', g (f.write bytes) = .ok f' := by
  constructor
  · rintro ⟨f', h⟩
    obtain ⟨f₁, h₁, h₂⟩ := bind_eq_ok h
    have hf₁ := writeOr_ok h₁
    unfold ImageFile.writeOr at h₁
    dsimp only at h₁
    split at h₁
    · cases h₁
    · rename_i hwrite
      exact ⟨not_not.mp hwrite, f', hf₁ ▸ h₂⟩
  · rintro ⟨hwrite, f', h⟩
    refine ⟨f', ?_⟩
    rw [ImageFile.writeOr, hwrite, if_neg (fun h => h rfl), ok_bind, h]

theorem writeOr_ok_iff {env : MakefsEnv} {code : Int → Int} {bytes : List Byte} {f : ImageFile} :
    (∃ f', f.writeOr env code bytes = .ok f') ↔ env.write f.pos bytes.length = bytes.length := by
  unfold ImageFile.writeOr
  dsimp only
  split
  · rename_i h
    exact iff_of_false error_not_ok h
  · rename_i h
    exact ⟨fun _ => not_not.mp h, fun _ => ⟨_, rfl⟩⟩

/-- One pass goes through when its writes are complete. -/
theorem formatBlock_ok_iff {fill : Bool} {env : MakefsEnv} {i : Nat} {f : ImageFile}
    (hpos : f.pos = (i + 2) * 4096) :
    (∃ f', formatBlock fill env i f = .ok f') ↔ env.Completes (passWrites fill i) := by
  unfold formatBlock passWrites
  cases hs : installed fill i with
  | none =>
    dsimp only
    rw [writeOr_bind_ok_iff, writeOr_ok_iff, ImageFile.pos_write, Blk.length_bytes, List.length_replicate,
      hpos, MakefsEnv.completes_cons, MakefsEnv.completes_cons]
    exact ⟨fun h => ⟨h.1, h.2, env.completes_nil⟩, fun h => ⟨h.1, h.2.1⟩⟩
  | some s =>
    have hlen : s.length ≤ 4086 := installed_length hs
    dsimp only
    rw [Nat.mod_eq_of_lt (by omega : s.length < 2 ^ 16), BitVec.toNat_ofNat,
      Nat.mod_eq_of_lt (by omega : s.length < 2 ^ 15), List.take_length, writeOr_bind_ok_iff,
      writeOr_bind_ok_iff, writeOr_ok_iff, ImageFile.pos_write, ImageFile.pos_write, ImageFile.pos_write,
      Blk.length_bytes, List.length_replicate, hpos, MakefsEnv.completes_cons, MakefsEnv.completes_cons,
      MakefsEnv.completes_cons]
    exact ⟨fun h => ⟨h.1, h.2.1, h.2.2, env.completes_nil⟩, fun h => ⟨h.1, h.2.1, h.2.2.1⟩⟩

/-- The loop goes through when all its passes do. -/
theorem formatLoop_ok_iff {fill : Bool} {env : MakefsEnv} :
    ∀ (n i : Nat) {f : ImageFile}, f.pos = (i + 2) * 4096 →
      ((∃ f', formatLoop fill env i n f = .ok f') ↔
        ∀ j, i ≤ j → j < i + n → env.Completes (passWrites fill j)) := by
  intro n
  induction n with
  | zero =>
    intro i f _
    exact ⟨fun _ j h₁ h₂ => by omega, fun _ => ⟨f, rfl⟩⟩
  | succ n ih =>
    intro i f hpos
    have hnext : (f.write (blockBytes fill env i)).pos = (i + 1 + 2) * 4096 := by
      rw [ImageFile.pos_write, length_blockBytes, hpos]
      omega
    have hrest := ih (i + 1) hnext
    rw [formatLoop]
    constructor
    · rintro ⟨f', h⟩ j hij hj
      obtain ⟨f₁, h₁, h₂⟩ := bind_eq_ok h
      rcases Nat.eq_or_lt_of_le hij with rfl | hlt
      · exact (formatBlock_ok_iff hpos).mp ⟨f₁, h₁⟩
      · rw [formatBlock_ok h₁] at h₂
        exact hrest.mp ⟨f', h₂⟩ j hlt (by omega)
    · intro hall
      obtain ⟨f₁, h₁⟩ := (formatBlock_ok_iff hpos).mpr (hall i (Nat.le_refl i) (by omega))
      obtain ⟨f', h'⟩ := hrest.mpr fun j hij hj => hall j (by omega) (by omega)
      rw [← formatBlock_ok h₁] at h'
      exact ⟨f', by rw [h₁, ok_bind, h']⟩

theorem completes_loopWrites {fill : Bool} {env : MakefsEnv} {size : Nat} :
    env.Completes (loopWrites fill size) ↔
      ∀ j, j < makefsNumDataBlocks size → env.Completes (passWrites fill j) := by
  constructor
  · intro h j hj w hw
    exact h w (List.mem_flatMap.mpr ⟨j, List.mem_range.mpr hj, hw⟩)
  · intro h w hw
    obtain ⟨j, hj, hw⟩ := List.mem_flatMap.mp hw
    exact h j (List.mem_range.mp hj) w hw

theorem length_sbInfo (env : MakefsEnv) : (sbInfo env).length = 4096 := by simp [sbInfo, MakefsEnv.uninitialised]

/-- **A run gets to its end exactly when it is not interrupted.** -/
theorem bldmsmakefs_ok_iff {fill : Bool} {env : MakefsEnv} {image : ImageFile} :
    (∃ f, bldmsmakefs fill env image = .ok f) ↔ env.Uninterrupted fill image.size := by
  have hsb := length_sbInfo env
  have hinode : (fileInode env (makefsFileSize image.size)).length = 32 := by
    simp [fileInode, MakefsEnv.uninitialised]
  have hpad : (env.uninitialised 4128 (defaultBlockSize - 32)).length = 4064 := by
    simp [MakefsEnv.uninitialised, defaultBlockSize]
  unfold bldmsmakefs
  by_cases hargc : env.argc = 2
  · rw [if_neg (not_not.mpr hargc)]
    by_cases hopens : env.opens = true
    · rw [if_neg (not_not.mpr hopens)]
      dsimp only
      rw [writeOr_bind_ok_iff, writeOr_bind_ok_iff, writeOr_bind_ok_iff, formatLoop_ok_iff]
      · simp only [ImageFile.pos_write, hsb, hinode, hpad]
        constructor
        · rintro ⟨h₁, h₂, h₃, hloop⟩
          refine ⟨hargc, hopens, ?_⟩
          rw [makefsWrites, MakefsEnv.completes_cons, MakefsEnv.completes_cons, MakefsEnv.completes_cons,
            completes_loopWrites]
          exact ⟨h₁, h₂, h₃, fun j hj => hloop j (Nat.zero_le j) (by omega)⟩
        · rintro ⟨-, -, hwrites⟩
          rw [makefsWrites, MakefsEnv.completes_cons, MakefsEnv.completes_cons, MakefsEnv.completes_cons,
            completes_loopWrites] at hwrites
          obtain ⟨h₁, h₂, h₃, hloop⟩ := hwrites
          exact ⟨h₁, h₂, h₃, fun j _ hj => hloop j (by omega)⟩
      · simp only [ImageFile.pos_write, hsb, hinode, hpad]
    · rw [if_pos hopens]
      exact iff_of_false error_not_ok fun h => hopens h.opens
  · rw [if_pos hargc]
    exact iff_of_false error_not_ok fun h => hargc h.argc

/-! ## The exit status -/

/-- The exit status of the process: the low eight bits of what `main` returns. -/
def exitStatus : Except Int ImageFile → Nat
  | .ok _ => 0
  | .error code => (code % 256).toNat

/-- The superblock is not written in full, by a number of bytes that makes an exit status of 0. -/
structure MakefsEnv.Misreports (env : MakefsEnv) : Prop where
  argc : env.argc = 2
  opens : env.opens = true
  cut : env.write 0 4096 ≠ 4096
  status : env.write 0 4096 % 256 = 0

theorem writeOr_error {env : MakefsEnv} {code : Int → Int} {bytes : List Byte} {f : ImageFile} {c : Int}
    (h : f.writeOr env code bytes = .error c) :
    c = code (env.write f.pos bytes.length) ∧ env.write f.pos bytes.length ≠ bytes.length := by
  unfold ImageFile.writeOr at h
  dsimp only at h
  split at h
  · rename_i hcut
    exact ⟨(Except.error.inj h).symm, hcut⟩
  · cases h

/-- A step that fails, or one after it. -/
theorem bind_eq_error {α β : Type} {x : Except Int α} {g : α → Except Int β} {c : Int} (h : x >>= g = .error c) :
    x = .error c ∨ ∃ a, x = .ok a ∧ g a = .error c := by
  cases x with
  | error e => exact .inl (congrArg Except.error (Except.error.inj h))
  | ok a => exact .inr ⟨a, rfl, h⟩

/-- In the loop every failure exits with -1. -/
theorem formatBlock_error {fill : Bool} {env : MakefsEnv} {i : Nat} {f : ImageFile} {c : Int}
    (h : formatBlock fill env i f = .error c) : c = -1 := by
  unfold formatBlock at h
  split at h
  · rcases bind_eq_error h with h | ⟨f₁, -, h⟩
    · exact (writeOr_error h).1
    rcases bind_eq_error h with h | ⟨f₂, -, h⟩
    · exact (writeOr_error h).1
    · exact (writeOr_error h).1
  · rcases bind_eq_error h with h | ⟨f₁, -, h⟩
    · exact (writeOr_error h).1
    · exact (writeOr_error h).1

theorem formatLoop_error {fill : Bool} {env : MakefsEnv} {c : Int} :
    ∀ {n i : Nat} {f : ImageFile}, formatLoop fill env i n f = .error c → c = -1 := by
  intro n
  induction n with
  | zero =>
    intro i f h
    cases h
  | succ n ih =>
    intro i f h
    rcases bind_eq_error h with h | ⟨f₁, -, h⟩
    · exact formatBlock_error h
    · exact ih h

/-- A run that stops exits with -1, or with what the write of the superblock has returned. -/
theorem bldmsmakefs_error {fill : Bool} {env : MakefsEnv} {image : ImageFile} {c : Int}
    (h : bldmsmakefs fill env image = .error c) :
    c = -1 ∨ (env.argc = 2 ∧ env.opens = true ∧ env.write 0 4096 ≠ 4096 ∧ c = env.write 0 4096) := by
  unfold bldmsmakefs at h
  split at h
  · exact .inl (Except.error.inj h).symm
  rename_i hargc
  split at h
  · exact .inl (Except.error.inj h).symm
  rename_i hopens
  rcases bind_eq_error h with h | ⟨f₁, -, h⟩
  · obtain ⟨hc, hcut⟩ := writeOr_error h
    rw [length_sbInfo] at hc hcut
    exact .inr ⟨not_not.mp hargc, not_not.mp hopens, hcut, hc⟩
  rcases bind_eq_error h with h | ⟨f₂, -, h⟩
  · exact .inl (writeOr_error h).1
  rcases bind_eq_error h with h | ⟨f₃, -, h⟩
  · exact .inl (writeOr_error h).1
  · exact .inl (formatLoop_error h)

/-- **The runs that report success**: those that get to their end, and those that misreport. -/
theorem exitStatus_eq_zero_iff {fill : Bool} {env : MakefsEnv} {image : ImageFile} :
    exitStatus (bldmsmakefs fill env image) = 0 ↔ env.Uninterrupted fill image.size ∨ env.Misreports := by
  constructor
  · intro hstatus
    cases hrun : bldmsmakefs fill env image with
    | ok f => exact .inl (bldmsmakefs_ok_iff.mp ⟨f, hrun⟩)
    | error c =>
      rw [hrun, exitStatus] at hstatus
      rcases bldmsmakefs_error hrun with rfl | ⟨hargc, hopens, hcut, rfl⟩
      · exact absurd hstatus (by decide)
      · exact .inr ⟨hargc, hopens, hcut, by omega⟩
  · rintro (hrun | hmis)
    · obtain ⟨f, hf⟩ := bldmsmakefs_ok_iff.mpr hrun
      rw [hf]
      rfl
    · have hstop : bldmsmakefs fill env image = .error (env.write 0 4096) := by
        rw [bldmsmakefs, if_neg (not_not.mpr hmis.argc), if_neg (not_not.mpr hmis.opens)]
        have hfirst : ImageFile.writeOr env id (sbInfo env) { image with pos := 0 } = .error (env.write 0 4096) := by
          rw [ImageFile.writeOr, length_sbInfo]
          exact if_pos hmis.cut
        dsimp only
        rw [hfirst]
        rfl
      rw [hstop, exitStatus, hmis.status]
      rfl

theorem MakefsEnv.Misreports.not_uninterrupted {env : MakefsEnv} (h : env.Misreports) (fill : Bool) (size : Nat) :
    ¬ env.Uninterrupted fill size :=
  fun hrun => h.cut (hrun.writes (0, 4096) List.mem_cons_self)

/-! ## What the image announces -/

/-- The file describes the image it was made from, which had `size` bytes: the announced blocks are
    inside it, and the loop has initialised the metadata of every one of them. -/
structure Describing (fill : Bool) (env : MakefsEnv) (size : Nat) (f : ImageFile) : Prop where
  inside : (inodeFileSize (f.device 1) / 4096 + 2) * 4096 ≤ size
  initialised : ∀ i, i < inodeFileSize (f.device 1) / 4096 →
    ((i + 2) * 4096, 10) ∈ loopWrites fill size ∧
      (f.device (i + 2)).metadata = (blockMetadata fill env i).toBldmsBlock

/-- The loop writes the metadata of the blocks it counts, and of no others. -/
theorem mem_loopWrites {fill : Bool} {size i : Nat} :
    ((i + 2) * 4096, 10) ∈ loopWrites fill size ↔ i < makefsNumDataBlocks size := by
  rw [loopWrites, List.mem_flatMap]
  constructor
  · rintro ⟨j, hj, hw⟩
    rw [List.mem_range] at hj
    unfold passWrites at hw
    cases hs : installed fill j with
    | none =>
      rw [hs] at hw
      simp only [List.mem_cons, Prod.mk.injEq, List.not_mem_nil, or_false] at hw
      omega
    | some s =>
      rw [hs] at hw
      have hlen := installed_length hs
      simp only [List.mem_cons, Prod.mk.injEq, List.not_mem_nil, or_false] at hw
      omega
  · intro hi
    refine ⟨i, List.mem_range.mpr hi, ?_⟩
    unfold passWrites
    cases installed fill i with
    | none => exact List.mem_cons_self
    | some s => exact List.mem_cons_self

/-- A file that was laid out in full describes its image when the image has two blocks at least, and
    fewer than `2 ^ 32` data blocks. -/
theorem Laid.describing_iff {fill : Bool} {env : MakefsEnv} {size : Nat} {f : ImageFile}
    (hsize : size < 2 ^ 63) (hf : Laid fill env size (makefsNumDataBlocks size) f) :
    Describing fill env size f ↔ 8192 ≤ size ∧ size < 2 ^ 44 + 8192 := by
  have hfile : inodeFileSize (f.device 1) = makefsFileSize size := by
    rw [hf.inode, inodeFileSize_inodeBytes]
  have hsum : makefsFileSize size = (size + (2 ^ 64 - 2 * 4096)) % 2 ^ 64 := rfl
  have hnum : makefsNumDataBlocks size = makefsFileSize size / 4096 % 2 ^ 32 := rfl
  constructor
  · intro h
    have hinside := h.inside
    rw [hfile] at hinside
    refine ⟨by omega, ?_⟩
    -- the first block the loop does not come to is announced all the same
    by_contra hlarge
    have hcount := (h.initialised (makefsNumDataBlocks size) (by rw [hfile]; omega)).1
    rw [mem_loopWrites] at hcount
    omega
  · rintro ⟨htwo, hlt⟩
    refine ⟨by rw [hfile]; omega, fun i hi => ?_⟩
    rw [hfile] at hi
    have hi : i < makefsNumDataBlocks size := by omega
    exact ⟨mem_loopWrites.mpr hi, by rw [hf.blocks i hi, metadata_blockBytes]⟩

/-- **The formatter and the size of the image.** For every image of fewer than `2 ^ 63` bytes: a run of the formatter
    that exits with status 0 has got to its end and describes the image it was given, if and only if it does not
    misreport a superblock that was cut short, and it is interrupted or the image has at least two blocks and fewer than
    `2 ^ 32` data blocks. -/
theorem formatter_describes_iff (fill : Bool) (env : MakefsEnv) (image : ImageFile)
    (hsize : image.size < 2 ^ 63) :
    (exitStatus (bldmsmakefs fill env image) = 0 →
      ∃ f, bldmsmakefs fill env image = .ok f ∧ Describing fill env image.size f) ↔
    ¬ env.Misreports ∧
      (¬ env.Uninterrupted fill image.size ∨ (8192 ≤ image.size ∧ image.size < 2 ^ 44 + 8192)) := by
  rw [exitStatus_eq_zero_iff]
  constructor
  · intro h
    refine ⟨fun hmis => ?_, ?_⟩
    · obtain ⟨f, hf, -⟩ := h (.inr hmis)
      exact hmis.not_uninterrupted fill image.size (bldmsmakefs_ok_iff.mp ⟨f, hf⟩)
    · by_cases hrun : env.Uninterrupted fill image.size
      · obtain ⟨f, hf, hdesc⟩ := h (.inl hrun)
        exact .inr (((bldmsmakefs_ok hf).describing_iff hsize).mp hdesc)
      · exact .inl hrun
  · rintro ⟨hmis, hcase⟩ (hrun | hmis')
    · have hfits := hcase.resolve_left (not_not.mpr hrun)
      obtain ⟨f, hf⟩ := bldmsmakefs_ok_iff.mpr hrun
      exact ⟨f, hf, ((bldmsmakefs_ok hf).describing_iff hsize).mpr hfits⟩
    · exact absurd hmis' hmis

/-- Nothing fails, the memory that is not initialised holds zeros, and the clock stands still. -/
def MakefsEnv.allOk : MakefsEnv := ⟨2, true, fun _ n => n, fun _ => 0, fun _ => ⟨0, 0⟩⟩

theorem MakefsEnv.allOk_succeeds : MakefsEnv.allOk.Succeeds := ⟨rfl, rfl, fun _ _ => rfl⟩

/-- An image of eight blocks and 100 bytes gets six data blocks. -/
theorem formatter_describes_six_blocks :
    ∃ f, bldmsmakefs false .allOk ⟨fun _ => 0xFF, 32868, 0⟩ = .ok f ∧ Describing false .allOk 32868 f := by
  obtain ⟨f, hf⟩ := bldmsmakefs_succeeds MakefsEnv.allOk_succeeds false ⟨fun _ => 0xFF, 32868, 0⟩
  exact (formatter_describes_iff false .allOk ⟨fun _ => 0xFF, 32868, 0⟩ (by decide)).mpr
    ⟨fun h => h.cut rfl, .inr (by decide)⟩ (by rw [hf]; rfl)

/-- Every write is complete but that of the superblock, of which 1024 bytes are written. -/
def MakefsEnv.cutAt1024 : MakefsEnv := { MakefsEnv.allOk with write := fun pos n => if pos = 0 then 1024 else n }

/-- Three runs that exit with status 0.  One on an empty file and one on a file of 2 ^ 32 + 2 blocks get to their end
    and do not describe the image: the first announces blocks outside it, the second blocks that the loop has not come
    to.  The third, on a file of eight blocks, stops after 1024 bytes of the superblock. -/
theorem formatter_misdescribes :
    (∃ f, bldmsmakefs false .allOk ⟨fun _ => 0, 0, 0⟩ = .ok f ∧ ¬ Describing false .allOk 0 f) ∧
    (∃ f, bldmsmakefs false .allOk ⟨fun _ => 0xFF, 2 ^ 44 + 8192, 0⟩ = .ok f ∧
      ¬ Describing false .allOk (2 ^ 44 + 8192) f) ∧
    bldmsmakefs false .cutAt1024 ⟨fun _ => 0xFF, 32768, 0⟩ = .error 1024 ∧
      exitStatus (bldmsmakefs false .cutAt1024 ⟨fun _ => 0xFF, 32768, 0⟩) = 0 := by
  have hstop : bldmsmakefs false .cutAt1024 ⟨fun _ => 0xFF, 32768, 0⟩ = .error 1024 := by
    rw [bldmsmakefs, if_neg (fun h => h rfl), if_neg (fun h => h rfl)]
    dsimp only
    rw [ImageFile.writeOr, length_sbInfo]
    rfl
  refine ⟨?_, ?_, hstop, by rw [hstop]; rfl⟩
  · obtain ⟨f, hf⟩ := bldmsmakefs_succeeds MakefsEnv.allOk_succeeds false ⟨fun _ => 0, 0, 0⟩
    refine ⟨f, hf, fun h => ?_⟩
    have hfits := ((bldmsmakefs_ok hf).describing_iff (by decide)).mp h
    exact absurd hfits.1 (by decide)
  · obtain ⟨f, hf⟩ := bldmsmakefs_succeeds MakefsEnv.allOk_succeeds false ⟨fun _ => 0xFF, 2 ^ 44 + 8192, 0⟩
    refine ⟨f, hf, fun h => ?_⟩
    have hfits := ((bldmsmakefs_ok hf).describing_iff (by decide)).mp h
    exact absurd hfits.2 (by decide)

end Bldms
