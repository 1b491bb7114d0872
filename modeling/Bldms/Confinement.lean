/-
  What leaves the device: only payload of valid blocks?

  Source: `syscalls.c`, `_get_data`; `file_ops.c`, `bldms_read`; the 15-bit `valid_bytes` they both rely on.

  The length of a message comes from `put_data`, which has checked it, or from the image, where it may be any
  15-bit number: the mount takes it over as it is.
  * `get_data` copies what the length says.  If an image has a valid block that claims more than the 4086 bytes
    of a payload, it copies what lies behind the block's buffer (`get_within_block_iff`).
  * `bldms_read` cuts the length at the end of the block before it knows which block it is going to read, and at
    the end of the message afterwards.  The first cut is for the block of the position, the second for the block
    that is read; a jump starts at the beginning of the payload, so the first one is enough there as well.  Whatever
    the image holds, nothing but live payload is copied (`read_copies_live_payload`), until a put fails to read the
    block it has chosen and a listed block may be overwritten (`read_copies_padding`).
-/
import Bldms.Getters
import Bldms.ReadReply
import Bldms.Slots

namespace Bldms

/-! ## `get_data` -/

/-- The bytes are those of block `i` of the device `sb`, from its payload on, and end inside the block. -/
structure InBlock (sb : Nat) (d : Driver) (i : Nat) (bytes : List Byte) : Prop where
  content : bytes = (d.disk sb (i + 2)).slice metadataSize bytes.length
  inside : metadataSize + bytes.length ≤ defaultBlockSize

section

variable {sb n : Nat} {d : Driver}

/-- What `get_data` returns comes from the block of a listed node, in the length of the node at most. -/
theorem Inv.getData_ok (hI : Inv sb n d) {e : GetEnv} {offset : BitVec 32} {size : Nat} {bytes : List Byte}
    (h : getData e offset size d = .ok bytes) :
    ∃ el ∈ d.validBlkList, el.ndx = offset.toNat ∧ bytes.length ≤ el.validBytes ∧
      bytes = (d.disk sb (offset.toNat + 2)).slice 10 bytes.length := by
  unfold getData at h
  cases hg : getLookup offset d with
  | err x => rw [hg] at h; cases h
  | oops => rw [hg] at h; cases h
  | ok g =>
    rw [hg] at h
    obtain ⟨el, hel, hndx, rfl⟩ := hI.getLookup_ok hg
    have hbytes := getCopy_ok h
    have hlen : bytes.length = min size el.validBytes - e.notCopied := by
      rw [hbytes, Block.length_slice]
    refine ⟨el, hel, hndx, by omega, ?_⟩
    rw [hlen]
    exact hbytes

/-- While the listed messages fit, every copy ends inside its block. -/
theorem Inv.getData_inBlock (hI : Inv sb n d) (hfit : d.MessagesFit) {e : GetEnv} {offset : BitVec 32}
    {size : Nat} {bytes : List Byte} (h : getData e offset size d = .ok bytes) :
    InBlock sb d offset.toNat bytes := by
  obtain ⟨el, hel, -, hlen, hbytes⟩ := hI.getData_ok h
  have hvb := hfit el hel
  refine ⟨hbytes, ?_⟩
  show 10 + bytes.length ≤ 4096
  omega

/-- A valid block is copied in its whole length on request. -/
theorem Inv.getData_whole (hI : Inv sb n d) {k : Nat} (hk : k < n)
    (hv : (d.disk sb (k + 2)).metadata.isValid = true) :
    ∃ bytes, getData ⟨true, 0⟩ (BitVec.ofNat 32 k) 32767 d = .ok bytes ∧
      bytes.length = (d.disk sb (k + 2)).metadata.validBytes.toNat := by
  have hn := hI.small
  have hel : elemOf k (d.disk sb (k + 2)).metadata ∈ d.validBlkList := (hI.mem_iff _).mpr ⟨hk, hv, rfl⟩
  have hndx : k = (BitVec.ofNat 32 k).toNat := by
    rw [BitVec.toNat_ofNat]
    omega
  have hlt := (d.disk sb (k + 2)).metadata.validBytes.isLt
  refine ⟨_, hI.getData_of_mem hel ⟨rfl, rfl⟩ hndx 32767, ?_⟩
  rw [List.length_take, Driver.length_message]
  show min 32767 (d.disk sb (k + 2)).metadata.validBytes.toNat = _
  omega

end

/-- **`get_data` and the block it is asked for.** For every image that is mounted: after every sequence
    of calls, whatever `get_data` copies, for any offset and size, ends inside the block at that offset,
    if and only if every valid block of the image has at most 4086 valid bytes. -/
theorem get_within_block_iff (cfg : Config) (sb : Nat) (d : Driver) (hd : Mounted cfg sb d) :
    (∀ calls e offset size bytes, getData e offset size (driver.final d calls) = .ok bytes →
      InBlock sb (driver.final d calls) offset.toNat bytes) ↔
    ImageFits (d.disk sb) (d.blockCount sb) := by
  have hI := mounted_inv hd
  constructor
  · intro h k hk hv
    obtain ⟨bytes, hget, hlen⟩ := hI.getData_whole hk hv
    have hinside : 10 + bytes.length ≤ 4096 := (h [] _ _ _ _ hget).inside
    omega
  · intro himage calls e offset size bytes hget
    have hfinal := System.AllSteps.final
      (P := fun t => Inv sb (d.blockCount sb) t ∧ t.MessagesFit)
      (fun t c (_ : True) ht => ⟨ht.1.step c, ht.2.step c⟩)
      (System.AllSteps.of_forall (fun _ _ => trivial) d calls) ⟨hI, hI.messagesFit himage⟩
    exact hfinal.1.getData_inBlock hfinal.2 hget

/-- On a formatted device of three blocks the messages that are put fit. -/
theorem get_within_block_three_blocks :
    let calls : List Call := [.put (.allOk 3 20) [1, 2], .put (.allOk 4 10) [3]]
    getData ⟨true, 0⟩ 0 9 (driver.final (freshDriver 3) calls) = .ok [1, 2] ∧
    InBlock 0 (driver.final (freshDriver 3) calls) 0 [1, 2] := by
  intro calls
  have hget : getData ⟨true, 0⟩ 0 9 (driver.final (freshDriver 3) calls) = .ok [1, 2] := by decide +kernel
  have hfits : ImageFits ((freshDriver 3).disk 0) ((freshDriver 3).blockCount 0) := by
    intro k _ hv
    rw [show (freshDriver 3).disk 0 (k + 2) = sizedImage (3 * 4096) (k + 2) from rfl, metadata_sizedImage] at hv
    cases hv
  have h := get_within_block_iff .standard 0 (freshDriver 3) (mounted_freshDriver .standard (by decide))
  exact ⟨hget, h.mpr hfits calls _ _ _ _ hget⟩

/-- A device of one block, valid, which claims 4087 bytes. -/
def oversizedImage : Device := fun b i =>
  if b = 2 then Block.ofMessage ⟨1, true, 4087⟩ [] i else emptyImage 1 b i

/-- It is mounted, and `get_data` copies a byte from behind the block. -/
theorem get_leaves_block :
    ∃ d bytes, Mounted .standard 0 d ∧ getData ⟨true, 0⟩ 0 32767 d = .ok bytes ∧ bytes.length = 4087 ∧
      ¬ InBlock 0 d 0 bytes := by
  obtain ⟨d, hmounted, hdisk⟩ := exists_mounted .standard oversizedImage (by decide +kernel) (by decide +kernel)
  have hcount : d.blockCount 0 = 1 := by
    rw [Driver.blockCount, hdisk]
    decide +kernel
  have hmd : (d.disk 0 2).metadata = ⟨1, true, 4087⟩ := by
    rw [hdisk]
    decide +kernel
  obtain ⟨bytes, hget, hlen⟩ := (mounted_inv hmounted).getData_whole (k := 0) (by rw [hcount]; decide)
    (by rw [hmd])
  rw [hmd] at hlen
  have hlen : bytes.length = 4087 := hlen
  refine ⟨d, bytes, hmounted, hget, hlen, fun h => ?_⟩
  have hinside : 10 + bytes.length ≤ 4096 := h.inside
  omega

/-! ## `bldms_read` -/

/-- A copy is a piece of the live payload of block `i`: it starts in the payload, and ends with the
    message or with the block, whichever comes first. -/
structure LivePiece (sb : Nat) (d : Driver) (i : Nat) (c : Copied) : Prop where
  valid : (d.disk sb (i + 2)).metadata.isValid = true
  block : c.block = i + 2
  /-- `p` is the place in the payload. -/
  piece : ∃ p, c.offset = metadataSize + p ∧
    p + c.bytes.length ≤ min (d.disk sb (i + 2)).metadata.validBytes.toNat 4086 ∧
    c.bytes = (((d.disk sb (i + 2)).slice metadataSize
      (min (d.disk sb (i + 2)).metadata.validBytes.toNat 4086)).drop p).take c.bytes.length

section

variable {sb n : Nat} {e : ReadEnv} {s : Session} {d : Driver} {w : Window} {el : RcuElem}
  {rest : List RcuElem} {c : Copied}

/-- What a call that copies something has copied: so many bytes of the window, at most the cut length. -/
theorem copied_readTarget (h : (readTarget e w el rest s d).copied = some c) :
    w.offset - 10 ≤ el.validBytes ∧ ∃ k, k ≤ w.cut el.validBytes ∧
      c = ⟨el, (el.ndx + 2) % 2 ^ 32, w.offset,
        (d.disk s.ino.iSb ((el.ndx + 2) % 2 ^ 32)).slice w.offset k⟩ := by
  unfold readTarget at h
  dsimp only at h
  rw [← Window.cut] at h
  split at h
  · rw [setNextBlk_copied] at h
    cases h
  rename_i hskip
  refine ⟨Nat.le_of_not_lt hskip, ?_⟩
  split at h
  · cases h
  refine ⟨w.cut el.validBytes - min e.notCopied (w.cut el.validBytes), by omega, ?_⟩
  split at h
  · exact (Option.some.inj h).symm
  · rw [setNextBlk_copied] at h
    exact (Option.some.inj h).symm

/-- The cut length ends with the message. -/
theorem cut_le_message (hskip : w.offset - 10 ≤ el.validBytes)
    (hwrap : w.len + w.offset - 10 < 2 ^ 64) (hoff : 10 ≤ w.offset) :
    w.offset - 10 + w.cut el.validBytes ≤ el.validBytes := by
  rw [Window.cut, metadataSize, Nat.mod_eq_of_lt hwrap]
  split <;> omega

/-- A window that ends inside the block of the position, turned to the picked node, ends inside its
    block. -/
theorem facing_inside (hlen : w.len ≤ 4086 - s.pos) :
    s.place el + (w.facing s.deviceBlk el).len ≤ 4086 := by
  have hpos := s.pos_lt
  rw [Window.facing, Session.place]
  split
  · omega
  · dsimp only
    split <;> omega

/-- The copy of a call whose window is as it should be is a live piece of the picked node. -/
theorem Inv.livePiece (hI : Inv sb n d) (hel : el ∈ d.validBlkList) {p : Nat} (hoffset : w.offset = 10 + p)
    (hinside : p + w.len ≤ 4086) (hsb : s.ino.iSb = sb)
    (h : (readTarget e w el rest s d).copied = some c) : el.ndx < n ∧ LivePiece sb d el.ndx c := by
  have hn := hI.small
  obtain ⟨hlt, hv, heq⟩ := (hI.mem_iff el).mp hel
  have hvb : el.validBytes = (d.disk sb (el.ndx + 2)).metadata.validBytes.toNat :=
    congrArg RcuElem.validBytes heq
  obtain ⟨hskip, k, hk, rfl⟩ := copied_readTarget h
  have hmsg := cut_le_message hskip (by omega) (by omega)
  have hcut := w.cut_le el.validBytes
  refine ⟨hlt, hv, Nat.mod_eq_of_lt (by omega), p, hoffset, ?_, ?_⟩
  · rw [Block.length_slice, ← hvb]
    omega
  · rw [Block.length_slice, ← hvb, hsb, hoffset, Nat.mod_eq_of_lt (by omega : el.ndx + 2 < 2 ^ 32)]
    exact (Block.take_drop_slice _ (by omega)).symm

end

/-- What a call copies is a piece of the live payload of a block, in every reachable driver. -/
theorem Reachable.livePiece {cfg : Config} {sb : Nat} {d : Driver} (hd : Reachable cfg sb d)
    {s : Session} (hs : bldmsLookup true true "the_file" sb d = .ok (some s.ino)) {e : ReadEnv} {len : Nat}
    {c : Copied} (hc : (vfsRead e len s d).copied = some c) :
    ∃ i, i < d.blockCount sb ∧ LivePiece sb d i c := by
  have hI := hd.inv
  have hino : s.ino = ⟨inodeFileSize (d.disk sb 1), sb⟩ := by
    rw [bldmsLookup, if_neg (fun h => h rfl), if_neg (fun h => h rfl), if_neg (fun h => h rfl)] at hs
    exact (Option.some.inj (Ret.ok.inj hs)).symm
  have hsize : s.ino.iSize < 2 ^ 31 := by
    have hn := hI.small
    rw [Driver.blockCount] at hn
    rw [hino]
    dsimp only
    omega
  have hcap := Nat.min_le_right len maxRwCount
  rw [vfsRead] at hc
  generalize min len maxRwCount = len' at hc hcap
  by_cases hover : s.Over
  · rw [bldmsRead_over hover] at hc
    cases hc
  have hw := readWindow_eq hsize hcap hover
  have hspan : s.span len' ≤ 4086 - s.pos := Nat.min_le_right _ _
  rw [bldmsRead_of_window hw] at hc
  cases hpick : s.picks d with
  | nil => rw [hpick] at hc; cases hc
  | cons el rest =>
    rw [hpick] at hc
    have hel : el ∈ d.validBlkList :=
      (List.dropWhile_sublist _).subset (hpick ▸ List.mem_cons_self : el ∈ s.picks d)
    exact ⟨el.ndx, hI.livePiece hel (facing_offset hw) (facing_inside hspan) (by rw [hino]) hc⟩

/-- **`bldms_read` copies live payload only.**  For every image, every state of a run whose puts have all read the
    blocks they chose, every session on the file, with any position and timestamp, and every request: what a call
    copies is a contiguous piece of the payload of one valid block, inside its first `min(valid_bytes, 4086)` bytes,
    whatever the `valid_bytes` are. -/
theorem read_copies_live_payload (cfg : Config) (sb : Nat) (d : Driver) (hd : Mounted cfg sb d)
    (hentries : d.entries.Nodup) (es : List PtrEvent) (hs : ptrDriver.AllSteps PtrDriver.Sane d.pointers es) :
    ∀ P ∈ ptrDriver.states d.pointers es, ∀ (s : Session) (e : ReadEnv) (len : Nat) (c : Copied),
      bldmsLookup true true "the_file" sb P.view = .ok (some s.ino) → (vfsRead e len s P.view).copied = some c →
      ∃ i, i < P.view.blockCount sb ∧ LivePiece sb P.view i c := by
  intro P hP s e len c hlookup hc
  exact (hd.reachable_view hentries hs P hP).livePiece hlookup hc

/-- A session that stands inside the metadata of block 1 jumps to the message of block 0, and gets two
    bytes of it. -/
theorem read_copies_live_jump :
    let P := ptrDriver.final (freshDriver 4).pointers [.call (.put (.allOk 4 7) [1, 2, 3])]
    let s : Session := ⟨4099, 0, ⟨16384, 0⟩⟩
    (vfsRead ⟨true, 0, true, 0⟩ 2 s P.view).copied = some ⟨⟨0, 7, 3⟩, 2, 10, [1, 2]⟩ ∧
    ∃ i, i < P.view.blockCount 0 ∧ LivePiece 0 P.view i ⟨⟨0, 7, 3⟩, 2, 10, [1, 2]⟩ := by
  intro P s
  have hlookup : bldmsLookup true true "the_file" 0 P.view = .ok (some s.ino) := by decide +kernel
  have hc : (vfsRead ⟨true, 0, true, 0⟩ 2 s P.view).copied = some ⟨⟨0, 7, 3⟩, 2, 10, [1, 2]⟩ := by decide +kernel
  exact ⟨hc, read_copies_live_payload .standard 0 (freshDriver 4) (mounted_freshDriver .standard (by decide))
    (by decide) [.call (.put (.allOk 4 7) [1, 2, 3])]
    ⟨sane_put rfl (.inr (by decide)) rfl, trivial⟩ P
    (ptrDriver.final_mem_states _ _) s _ _ _ hlookup hc⟩

/-- On a device of three blocks: a put that cannot read block 0 releases entry 0, and so does the put that then takes
    block 0; the puts in blocks 1 and 2 are both given entry 0.  The invalidation of block 1 marks the entry invalid, so
    that a later put takes block 2, which is still listed, and a read by the old node copies two bytes that are not of
    the message. -/
theorem read_copies_padding :
    let es : List PtrEvent := [.call (.put ⟨true, 0, true, some 3, 10, false⟩ [1]), .call (.put (.allOk 4 20) [1, 2, 3]),
      .call (.put (.allOk 0 30) [4, 5, 6]), .call (.put (.allOk 0 40) [7, 8, 9]), .call (.invalidate true 1),
      .call (.put (.allOk 5 50) [1]), .call (.put (.allOk 6 60) [2]), .call (.invalidate true 0)]
    let P := ptrDriver.final (freshDriver 3).pointers es
    let s : Session := ⟨0, 0, ⟨12288, 0⟩⟩
    let c : Copied := ⟨⟨2, 40, 3⟩, 4, 10, [2, 0, 0]⟩
    Mounted .standard 0 (freshDriver 3) ∧ (freshDriver 3).entries.Nodup ∧
    ptrDriver.AllSteps PtrDriver.Served (freshDriver 3).pointers es ∧
    bldmsLookup true true "the_file" 0 P.view = .ok (some s.ino) ∧
    (vfsRead ⟨true, 0, true, 0⟩ 10 s P.view).copied = some c ∧
    (P.view.disk 0 4).metadata.validBytes = 1 ∧ ∀ i, ¬ LivePiece 0 P.view i c := by
  intro es P s c
  have hone : (P.view.disk 0 4).metadata.validBytes = 1 := by decide +kernel
  refine ⟨mounted_freshDriver .standard (by decide), by decide,
    ⟨allocates_put rfl (.inr (by decide)), allocates_put rfl (.inr (by decide)), allocates_put rfl (.inl (by decide)),
      allocates_put rfl (.inl (by decide)), trivial, allocates_put rfl (.inr (by decide)),
      allocates_put rfl (.inr (by decide)), trivial, trivial⟩, by decide +kernel, by decide +kernel, hone, ?_⟩
  intro i hpiece
  obtain ⟨p, -, hlen, -⟩ := hpiece.piece
  have hi : 4 = i + 2 := hpiece.block
  obtain rfl : i = 2 := by omega
  have hcut : p + 3 ≤ min (P.view.disk 0 4).metadata.validBytes.toNat 4086 := hlen
  rw [hone] at hcut
  have hle : p + 3 ≤ 1 := hcut.trans (Nat.min_le_left _ _)
  omega

end Bldms
