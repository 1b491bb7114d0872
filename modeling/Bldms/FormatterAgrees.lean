/-
  The formatter and the driver agree.

  `bldmsmakefs` and `bldms_fs_fill_super` are two programs with a layout each.  What the first one has
  written is known block by block (`bldmsmakefs_ok`); here it is read with the driver's structures.
  * The image passes the checks of the mount and announces the blocks it has.
  * Whether a block is listed depends on what the formatter meant it to hold: `Laid.mem_iff`.
  * The cursor of a device without messages is on its last block, so that the first put goes to block 0.

  No `Config` here: the number of blocks may be any that keeps the size check exact, zero included.
-/
import Bldms.Makefs
import Bldms.Store

namespace Bldms

/-! ## The sizes -/

theorem makefsFileSize_eq {n : Nat} (hn : n < 2 ^ 19) : makefsFileSize ((n + 2) * 4096) = n * 4096 := by
  show ((n + 2) * 4096 + (2 ^ 64 - 2 * 4096)) % 2 ^ 64 = n * 4096
  omega

theorem makefsNumDataBlocks_eq {n : Nat} (hn : n < 2 ^ 19) :
    makefsNumDataBlocks ((n + 2) * 4096) = n := by
  rw [makefsNumDataBlocks, makefsFileSize_eq hn]
  show n * 4096 / 4096 % 2 ^ 32 = n
  omega

/-! ## The pre-installed blocks -/

/-- The blocks that get a message. -/
def preinstalledBlocks (fill : Bool) : List Nat := if fill then [0, 5, 9, 17, 22] else []

theorem mem_preinstalledBlocks {fill : Bool} {i : Nat} :
    i ∈ preinstalledBlocks fill ↔ ∃ s, installed fill i = some s := by
  cases fill with
  | false => simp [preinstalledBlocks, installed]
  | true =>
    simp only [preinstalledBlocks, installed, if_true]
    unfold preinstalled
    split <;> simp_all

theorem blockMetadata_isValid {fill : Bool} {env : MakefsEnv} {i : Nat} :
    (blockMetadata fill env i).isValid = true ↔ i ∈ preinstalledBlocks fill := by
  rw [mem_preinstalledBlocks, blockMetadata]
  cases installed fill i with
  | none => simp
  | some s => simp

/-- The node of a block that got a message: the 15 bits hold its length. -/
theorem elemOf_blockMetadata {fill : Bool} {env : MakefsEnv} {i : Nat} {s : List Byte}
    (hs : installed fill i = some s) :
    elemOf i (blockMetadata fill env i).toBldmsBlock = ⟨i, env.stamp i, s.length⟩ := by
  have hlen := installed_length hs
  rw [elemOf, blockMetadata, hs]
  simp only [Blk.toBldmsBlock, BitVec.toNat_ofNat, Nat.mod_eq_of_lt (by omega : s.length < 2 ^ 15)]

/-! ## The mounted image -/

section

variable {fill : Bool} {env : MakefsEnv} {n sb : Nat} {f : ImageFile} {d : Driver}

/-- What a freshly formatted device lists. -/
theorem Laid.mem_iff (hf : Laid fill env ((n + 2) * 4096) n f) (hI : Inv sb n d)
    (hdisk : d.disk sb = f.device) (el : RcuElem) :
    el ∈ d.validBlkList ↔ el.ndx < n ∧ ∃ s, installed fill el.ndx = some s ∧
      el = ⟨el.ndx, env.stamp el.ndx, s.length⟩ := by
  rw [hI.mem_iff, hdisk]
  constructor
  · rintro ⟨hlt, hv, heq⟩
    rw [hf.blocks _ hlt, metadata_blockBytes] at hv heq
    obtain ⟨s, hs⟩ := mem_preinstalledBlocks.mp (blockMetadata_isValid.mp hv)
    exact ⟨hlt, s, hs, heq.trans (elemOf_blockMetadata hs)⟩
  · rintro ⟨hlt, s, hs, heq⟩
    rw [hf.blocks _ hlt, metadata_blockBytes]
    exact ⟨hlt, blockMetadata_isValid.mpr (mem_preinstalledBlocks.mpr ⟨s, hs⟩),
      heq.trans (elemOf_blockMetadata hs).symm⟩

theorem Laid.ndx_perm (hf : Laid fill env ((n + 2) * 4096) n f) (hI : Inv sb n d)
    (hdisk : d.disk sb = f.device) :
    (d.validBlkList.map RcuElem.ndx).Perm ((preinstalledBlocks fill).filter (· < n)) := by
  have hnodup : ((preinstalledBlocks fill).filter (· < n)).Nodup := by
    apply List.Nodup.filter
    cases fill <;> decide
  refine (List.perm_ext_iff_of_nodup (List.pairwise_map.mpr hI.distinct) hnodup).mpr fun i => ?_
  rw [List.mem_map, List.mem_filter, mem_preinstalledBlocks, decide_eq_true_iff]
  constructor
  · rintro ⟨el, hel, rfl⟩
    obtain ⟨hlt, s, hs, -⟩ := (hf.mem_iff hI hdisk el).mp hel
    exact ⟨⟨s, hs⟩, hlt⟩
  · rintro ⟨⟨s, hs⟩, hlt⟩
    exact ⟨⟨i, env.stamp i, s.length⟩, (hf.mem_iff hI hdisk _).mpr ⟨hlt, s, hs, rfl⟩, rfl⟩

/-- `get_data` serves what the formatter has installed. -/
theorem Laid.getData (hf : Laid fill env ((n + 2) * 4096) n f) (hI : Inv sb n d)
    (hdisk : d.disk sb = f.device) {i : Nat} {s : List Byte} (hs : installed fill i = some s) (hi : i < n)
    (size : Nat) : getData ⟨true, 0⟩ (BitVec.ofNat 32 i) size d = .ok (s.take size) := by
  have hn := hI.small
  have hel := (hf.mem_iff hI hdisk ⟨i, env.stamp i, s.length⟩).mpr ⟨hi, s, hs, rfl⟩
  have hndx : i = (BitVec.ofNat 32 i).toNat := by
    rw [BitVec.toNat_ofNat]
    omega
  rw [hI.getData_of_mem hel ⟨rfl, rfl⟩ hndx, Driver.message, hdisk, hf.blocks i hi, slice_blockBytes hs]

/-- Without messages, the first put goes to block 0. -/
theorem Laid.findFree (hf : Laid false env ((n + 2) * 4096) n f) (hI : Inv sb n d)
    (hdisk : d.disk sb = f.device) (hlast : d.lastWrittenBlock = initialLastWritten [] n) (hn : 0 < n) :
    d.findFree = some 0 := by
  have hsmall := hI.small
  have hfree : d.invalidAt 0 = true := by
    refine (hI.invalidAt_iff hn).mpr fun el hel => ?_
    obtain ⟨-, s, hs, -⟩ := (hf.mem_iff hI hdisk el).mp hel
    nomatch hs
  have hcursor : d.lastWrittenBlock = n - 1 := by
    rw [hlast]
    show (n + (2 ^ 64 - 1)) % 2 ^ 32 = n - 1
    omega
  obtain ⟨k, rfl⟩ := Nat.exists_eq_add_of_le' hn
  have hfirst : (k + 1 - 1 + (0 + 1)) % 2 ^ 32 % (k + 1) = 0 := by
    rw [Nat.add_sub_cancel, Nat.zero_add, Nat.mod_eq_of_lt (by omega : k + 1 < 2 ^ 32), Nat.mod_self]
  rw [Driver.findFree, hI.size, hcursor, List.range_succ_eq_map, List.map_cons, hfirst]
  exact List.find?_cons_of_pos hfree

end

/-! ## Agreement -/

/-- What a mount of a device formatted without messages leaves. -/
structure EmptyMount (n : Nat) (d : Driver) : Prop where
  size : d.mdArraySize = n
  invalid : ∀ i, i < n → d.invalidAt i = true
  unlisted : d.validBlkList = []
  /-- The next message goes to block 0. -/
  nextPut : 0 < n → ∀ e m, e.Succeeds → m.length ≤ 4086 → (putData e m d).ret = .ok 0

/-- What a mount of a device formatted with the pre-installed messages leaves. -/
structure FilledMount (env : MakefsEnv) (n : Nat) (d : Driver) : Prop where
  size : d.mdArraySize = n
  listed : (d.validBlkList.map RcuElem.ndx).Perm ([0, 5, 9, 17, 22].filter (· < n))
  stamped : ∀ el ∈ d.validBlkList, el.nsec = env.stamp el.ndx
  /-- The list is in the order of the written timestamps. -/
  sorted : (d.validBlkList.map fun el => (env.stamp el.ndx).toInt).Pairwise (· ≤ ·)
  /-- Every message is served, with its terminator. -/
  served : ∀ i s, preinstalled i = some s → i < n → ∀ size,
    getData ⟨true, 0⟩ (BitVec.ofNat 32 i) size d = .ok (s.take size)

section

variable {env : MakefsEnv} {n sb : Nat} {f : ImageFile} {d : Driver}

theorem Laid.emptyMount (hf : Laid false env ((n + 2) * 4096) n f) (hI : Inv sb n d)
    (hdisk : d.disk sb = f.device)
    (hlast : d.lastWrittenBlock = initialLastWritten d.validBlkList n) : EmptyMount n d := by
  have hempty : d.validBlkList = [] := List.eq_nil_iff_forall_not_mem.mpr fun el hel => by
    obtain ⟨-, s, hs, -⟩ := (hf.mem_iff hI hdisk el).mp hel
    nomatch hs
  refine ⟨hI.size, ?_, hempty, ?_⟩
  · intro i hi
    refine (hI.invalidAt_iff hi).mpr fun el hel => ?_
    rw [hempty] at hel
    nomatch hel
  · intro hn e m he hm
    rw [hempty] at hlast
    have hlands : PutLands e m d 0 := ⟨he, hm, hf.findFree hI hdisk hlast hn⟩
    rcases hI.putData_cases e m with ⟨-, -, hno⟩ | ⟨p, k, hl, -, -, -, -, heq⟩
    · exact absurd hlands (hno 0)
    · have hk : some k = some 0 := hl.2.2.symm.trans hlands.2.2
      rw [heq, Option.some.inj hk]

theorem Laid.filledMount (hf : Laid true env ((n + 2) * 4096) n f) (hI : Inv sb n d)
    (hdisk : d.disk sb = f.device) : FilledMount env n d := by
  have hstamped : ∀ el ∈ d.validBlkList, el.nsec = env.stamp el.ndx := by
    intro el hel
    obtain ⟨-, s, -, heq⟩ := (hf.mem_iff hI hdisk el).mp hel
    rw [heq]
  refine ⟨hI.size, hf.ndx_perm hI hdisk, hstamped, ?_, fun i s hs hi => hf.getData hI hdisk hs hi⟩
  have htimes : d.validBlkList.map (fun el => (env.stamp el.ndx).toInt) =
      d.validBlkList.map RcuElem.time :=
    List.map_congr_left fun el hel => by rw [RcuElem.time, hstamped el hel]
  rw [htimes]
  exact List.pairwise_map.mpr hI.sorted

end

/-- **Formatter and driver agree.**  The two metadata layouts decode each other, and for every image of
    `n + 2` blocks, `n` up to `NBLOCKS`, with or without `FILL_DEV`, with any clock and any memory that is
    not initialised: with nothing failing the formatter reports success, and whenever it does, the image
    keeps its size, passes the checks of the mount, and a mount in which nothing fails leaves what the
    formatter meant. -/
theorem formatter_agrees (nblocks n : Nat) (hn : n ≤ nblocks) (hblocks : nblocks < 2 ^ 19) (fill : Bool)
    (env : MakefsEnv) (image : ImageFile) (himage : image.size = (n + 2) * 4096) :
    (∀ (b : Blk) (block : Block), b.bytes.length = 10 ∧
      ((∀ i, i < 10 → block.byte i = b.bytes.getD i 0) → block.metadata = b.toBldmsBlock)) ∧
    (∀ block : Block, (Blk.ofBytes block.byte).toBldmsBlock = block.metadata) ∧
    (env.Succeeds → ∃ f, bldmsmakefs fill env image = .ok f) ∧
    ∀ f, bldmsmakefs fill env image = .ok f →
      f.size = image.size ∧ sbMagic (f.device 0) = magicNumber ∧
      inodeFileSize (f.device 1) = n * 4096 ∧ inodeFileSize (f.device 1) ≤ sizeLimit nblocks ∧
      ∀ (menv : MountEnv) (sb : Nat) (d₀ : Driver), menv.Succeeds → d₀.bldmsMounted = false →
        d₀.validBlkList = [] → d₀.disk sb = f.device →
        ∃ d, bldmsFsMount nblocks menv sb d₀ = .ok d ∧
          (fill = false → EmptyMount n d) ∧ (fill = true → FilledMount env n d) := by
  refine ⟨fun b block => ⟨b.length_bytes, fun h => Block.metadata_of_bytes fun i hi => ?_⟩,
    fun block => ?_, fun henv => bldmsmakefs_succeeds henv fill image, fun f hrun => ?_⟩
  · rw [h i hi, b.getD_bytes hi]
  · have hbytes : Blk.ofBytes block.byte = Blk.ofBytes (leByte block.metadata.word) :=
      Blk.ofBytes_congr fun i hi => block.byte_eq_leByte hi
    rw [hbytes, Blk.ofBytes_word]
  have hn' : n < 2 ^ 19 := Nat.lt_of_le_of_lt hn hblocks
  have hfits : nblocks * 4096 < 2 ^ 31 := by omega
  have hf := bldmsmakefs_ok hrun
  rw [himage, makefsNumDataBlocks_eq hn'] at hf
  have hmagic : sbMagic (f.device 0) = magicNumber := by rw [hf.super, sbMagic_sbInfo]
  have hfile : inodeFileSize (f.device 1) = n * 4096 := by
    rw [hf.inode, inodeFileSize_inodeBytes, makefsFileSize_eq hn']
  have hlimit : inodeFileSize (f.device 1) ≤ sizeLimit nblocks := by
    rw [hfile, sizeLimit_eq hfits]
    exact Nat.mul_le_mul_right 4096 hn
  refine ⟨?_, hmagic, hfile, hlimit, fun menv sb d₀ hmenv hfree hempty hdev => ?_⟩
  · rw [hf.grown, himage, Nat.max_self]
  rw [← hdev] at hmagic hlimit
  obtain ⟨d₁, -, hmount⟩ := bldmsFsMount_succeeds hmenv hfree hmagic hlimit
  generalize ({ d₁ with theDevSuperblock := some sb } : Driver) = d at hmount
  obtain ⟨-, d₂, hfill, heq⟩ := bldmsFsMount_ok hmount
  obtain ⟨-, -, s, -, rfl⟩ := bldmsFsFillSuper_ok hfill
  have hdisk : d.disk sb = f.device := by
    rw [heq]
    exact hdev
  have hcount : d.blockCount sb = n := by
    rw [Driver.blockCount, hdisk, hfile, Nat.mul_div_cancel n (by omega)]
  have hI := mount_inv hfits hempty hmount
  have hlast : d.lastWrittenBlock = initialLastWritten d.validBlkList (d.blockCount sb) := by
    rw [heq]
    rfl
  rw [hcount] at hI hlast
  refine ⟨d, hmount, ?_, ?_⟩
  · rintro rfl
    exact hf.emptyMount hI hdisk hlast
  · rintro rfl
    exact hf.filledMount hI hdisk

/-- An image of eight blocks: the messages of blocks 0 and 5 are installed, that of block 0 with the later
    timestamp. -/
theorem formatter_agrees_six_blocks :
    let env : MakefsEnv := ⟨2, true, fun _ n => n, fun _ => 0xA5, fun i => ⟨BitVec.ofNat 64 i, 7⟩⟩
    let image : ImageFile := ⟨fun _ => 0xFF, 32768, 0⟩
    env.stamp 5 = 5000000007 ∧ env.stamp 0 = 100000000007 ∧
    ∃ f d, bldmsmakefs true env image = .ok f ∧ sbMagic (f.device 0) = magicNumber ∧
      bldmsFsMount 1000 .allOk 0 (idleDriver f.device) = .ok d ∧ FilledMount env 6 d ∧
      (d.validBlkList.map RcuElem.ndx).Perm [0, 5] := by
  intro env image
  have henv : env.Succeeds := ⟨rfl, rfl, fun _ _ => rfl⟩
  obtain ⟨-, -, hok, hall⟩ := formatter_agrees 1000 6 (by decide) (by decide) true env image rfl
  obtain ⟨f, hrun⟩ := hok henv
  obtain ⟨-, hmagic, -, -, hmounts⟩ := hall f hrun
  obtain ⟨d, hmount, -, hfilled⟩ := hmounts .allOk 0 (idleDriver f.device) MountEnv.allOk_succeeds rfl rfl rfl
  exact ⟨by decide, by decide, f, d, hrun, hmagic, hmount, hfilled rfl, (hfilled rfl).listed⟩

end Bldms
