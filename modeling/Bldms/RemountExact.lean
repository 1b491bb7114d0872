/-
  What a remount keeps, and what it loses.

  `remount_reconstructs` needs messages with distinct timestamps.  Without that the array is still the same, and so is
  every `get_data`; the list has the same nodes.  Two things are only in memory, though.
  * The order of messages with one timestamp.  The calls leave it as the messages have come; a mount scans the blocks
    from the first to the last and inserts each before its equals, so it leaves them in descending order.
  * The cursor.  A mount sets it to the newest message, wherever the last `put_data` has been.

  `remount_exact` says when nothing is lost.
-/
import Bldms.Remount
import Bldms.CrashRecovery

namespace Bldms

/-- The order of the nodes after a mount: by time, and from the last block to the first at the same time. -/
abbrev MountOrder (l : List RcuElem) : Prop := TieSorted RcuElem.time RcuElem.ndx l

/-- The message is the newest one, and of several it is the one in the first block. -/
def Newest (el : RcuElem) (l : List RcuElem) : Prop :=
  ∀ x ∈ l, x = el ∨ x.time < el.time ∨ x.time = el.time ∧ el.ndx < x.ndx

instance (el : RcuElem) (l : List RcuElem) : Decidable (Newest el l) :=
  inferInstanceAs (Decidable (∀ x ∈ l, x = el ∨ x.time < el.time ∨ x.time = el.time ∧ el.ndx < x.ndx))

/-- **The step lemma**: a pass of the scan keeps the order. -/
theorem ScanInv.mountOrder {env : MountEnv} {dev : Device} {s s' : Scan} {i : Nat} (hs : ScanInv dev i s)
    (horder : MountOrder s.list) (h : scanStep env dev s i = .ok s') : MountOrder s'.list := by
  obtain ⟨id, -, -, hlist⟩ := scanStep_ok h
  rw [hlist]
  split
  · exact horder.insertBack fun x hx => hs.ndx_lt hx
  · exact horder

theorem ScanInv.mountOrder_scan {env : MountEnv} {dev : Device} : ∀ {n i : Nat} {s s' : Scan}, ScanInv dev i s →
    MountOrder s.list → Bldms.scan env dev s i n = .ok s' → MountOrder s'.list := by
  intro n
  induction n with
  | zero =>
    intro i s s' _ horder h
    obtain rfl := Except.ok.inj h
    exact horder
  | succ n ih =>
    intro i s s' hs horder h
    rw [Bldms.scan] at h
    cases hstep : scanStep env dev s i with
    | error f => rw [hstep] at h; cases h
    | ok s₁ =>
      rw [hstep] at h
      exact ih (hs.step hstep) (hs.mountOrder horder hstep) h

/-- The order a mount leaves. -/
theorem mount_order {nblocks : Nat} {env : MountEnv} {sb : Nat} {d₀ d : Driver} (hempty : d₀.validBlkList = [])
    (hmount : bldmsFsMount nblocks env sb d₀ = .ok d) : MountOrder d.validBlkList := by
  obtain ⟨-, d₁, hfill, rfl⟩ := bldmsFsMount_ok hmount
  obtain ⟨-, -, s, hscan, rfl⟩ := bldmsFsFillSuper_ok hfill
  rw [hempty] at hscan
  exact (ScanInv.initial (d₀.disk sb)).mountOrder_scan List.Pairwise.nil hscan

/-- The cursor a mount leaves. -/
theorem mount_lastWritten {nblocks : Nat} {env : MountEnv} {sb : Nat} {d₀ d : Driver}
    (hmount : bldmsFsMount nblocks env sb d₀ = .ok d) :
    d.lastWrittenBlock = initialLastWritten d.validBlkList d.mdArraySize := by
  obtain ⟨-, d₁, hfill, rfl⟩ := bldmsFsMount_ok hmount
  obtain ⟨-, -, s, -, rfl⟩ := bldmsFsFillSuper_ok hfill
  rfl

section

variable {sb sb' n : Nat} {d d' : Driver}

/-- Two drivers mounted on the same bytes list the same messages. -/
theorem Inv.perm (hI : Inv sb n d) (hI' : Inv sb' n d') (hdisk : d'.disk sb' = d.disk sb) :
    d'.validBlkList.Perm d.validBlkList := by
  refine (List.perm_ext_iff_of_nodup hI'.list_nodup hI.list_nodup).mpr fun el => ?_
  rw [hI.mem_iff, hI'.mem_iff, hdisk]

/-- The cursor of a mount, for a list in its order. -/
theorem initialLastWritten_eq_iff (hI : Inv sb n d) (horder : MountOrder d.validBlkList) {el : RcuElem}
    (hel : el ∈ d.validBlkList) : initialLastWritten d.validBlkList n = el.ndx ↔ Newest el d.validBlkList := by
  have hiff := horder.getLast?_eq_some_iff (a := el)
  rw [initialLastWritten]
  cases hlast : d.validBlkList.getLast? with
  | none =>
    rw [List.getLast?_eq_none_iff.mp hlast] at hel
    cases hel
  | some last =>
    rw [hlast, Option.some.injEq] at hiff
    constructor
    · intro hndx
      exact (hiff.mp (hI.distinct.eq_of_ndx (List.mem_of_getLast? hlast) hel hndx)).2
    · intro hnewest
      rw [hiff.mpr ⟨hel, hnewest⟩]

end

/-- A mount of the device of any reachable driver, with nothing failing, whatever the timestamps. -/
theorem Reachable.remount_whatever {cfg : Config} {sb : Nat} {d : Driver} (hd : Reachable cfg sb d) {env : MountEnv}
    (henv : env.Succeeds) {sb' : Nat} {d₀ : Driver} (hfree : d₀.bldmsMounted = false) (hempty : d₀.validBlkList = [])
    (hdisk : d₀.disk sb' = d.disk sb) :
    ∃ d', bldmsFsMount cfg.nblocks env sb' d₀ = .ok d' ∧
      d'.metadataArray.map MdEntry.blk = d.metadataArray.map MdEntry.blk ∧
      (∀ e offset size, getData e offset size d' = getData e offset size d) ∧
      d'.validBlkList.Perm d.validBlkList ∧
      (d'.validBlkList = d.validBlkList ↔ MountOrder d.validBlkList) ∧
      (∀ el ∈ d.validBlkList, d'.lastWrittenBlock = el.ndx ↔ Newest el d.validBlkList) ∧
      (d.validBlkList = [] → 0 < d.blockCount sb → d'.lastWrittenBlock + 1 = d.blockCount sb) := by
  have hI := hd.inv
  obtain ⟨hmagic, hsize⟩ := hd.accepted
  rw [← hdisk] at hmagic hsize
  obtain ⟨d₁, hfill, hmount⟩ := bldmsFsMount_succeeds henv hfree hmagic hsize
  generalize hd' : ({ d₁ with theDevSuperblock := some sb' } : Driver) = d' at hmount
  -- the mount does not write: the new driver is over the same bytes
  have hdisk' : d'.disk sb' = d.disk sb := by
    obtain ⟨-, -, s, -, rfl⟩ := bldmsFsFillSuper_ok hfill
    rw [← hd']
    exact hdisk
  have hI' : Inv sb' (d.blockCount sb) d' := by
    have h := mounted_inv ⟨env, d₀, hempty, hmount⟩
    rw [Driver.blockCount, hdisk'] at h
    exact h
  have hperm := hI.perm hI' hdisk'
  have horder := mount_order hempty hmount
  have hcursor := mount_lastWritten hmount
  rw [hI'.size] at hcursor
  refine ⟨d', hmount, ?_, ?_, hperm, ?_, ?_, ?_⟩
  · rw [hI'.array_eq, hI.array_eq, hdisk']
  · intro e offset size
    exact hI.getData_congr_block hI' (by rw [hdisk']) e size
  · constructor
    · intro heq
      exact heq ▸ horder
    · intro hdescend
      exact horder.eq_of_perm hdescend hperm
  · intro el hel
    rw [hcursor, initialLastWritten_eq_iff hI' horder (hperm.mem_iff.mpr hel)]
    constructor
    · intro hnewest x hx
      exact hnewest x (hperm.mem_iff.mpr hx)
    · intro hnewest x hx
      exact hnewest x (hperm.mem_iff.mp hx)
  · intro hnone hpos
    have hsmall := hI.small
    rw [hnone, List.perm_nil] at hperm
    rw [hcursor, hperm, initialLastWritten, List.getLast?_nil]
    show (d.blockCount sb + (2 ^ 64 - 1)) % 2 ^ 32 + 1 = d.blockCount sb
    omega

/-- **What a remount keeps, and what it loses.**  In any state of a run from a mount whose puts have all read the blocks
    they chose, whatever the timestamps: a mount of the device, from an empty list and with nothing failing, rebuilds
    the array, and every `get_data` gives the same result.  It rebuilds the list, up to the order of messages with the
    same timestamp: the list is the same exactly if these stand in descending order of their blocks.  And it sets the
    cursor to the newest message, to the last block if there is none. -/
theorem remount_exact (cfg : Config) (sb : Nat) (d : Driver) (hd : Mounted cfg sb d) (hentries : d.entries.Nodup)
    (es : List PtrEvent) (hs : ptrDriver.AllSteps PtrDriver.Sane d.pointers es) :
    ∀ P ∈ ptrDriver.states d.pointers es,
      ∀ (env : MountEnv) (sb' : Nat) (d₀ : Driver), env.Succeeds → d₀.bldmsMounted = false → d₀.validBlkList = [] →
        d₀.disk sb' = P.view.disk sb →
        ∃ d', bldmsFsMount cfg.nblocks env sb' d₀ = .ok d' ∧
          d'.metadataArray.map MdEntry.blk = P.view.metadataArray.map MdEntry.blk ∧
          (∀ e offset size, getData e offset size d' = getData e offset size P.view) ∧
          d'.validBlkList.Perm P.view.validBlkList ∧
          (d'.validBlkList = P.view.validBlkList ↔ MountOrder P.view.validBlkList) ∧
          (∀ el ∈ P.view.validBlkList, d'.lastWrittenBlock = el.ndx ↔ Newest el P.view.validBlkList) ∧
          (P.view.validBlkList = [] → 0 < d.blockCount sb → d'.lastWrittenBlock + 1 = d.blockCount sb) := by
  intro P hP env sb' d₀ henv hfree hempty hdisk
  have hreach := hd.reachable_view hentries hs P hP
  rw [← hd.blockCount_view hentries hs P hP]
  exact hreach.remount_whatever henv hfree hempty hdisk

/-- Three messages with one timestamp, the last one in the first block: a remount lists them in another order. -/
theorem remount_exact_ties :
    let es : List PtrEvent := [.call (.put (.allOk 3 7) [1]), .call (.put (.allOk 4 7) [2]), .call (.invalidate true 0),
      .call (.put (.allOk 5 7) [3]), .call (.put (.allOk 6 7) [4])]
    let P := ptrDriver.final (freshDriver 3).pointers es
    P.view.validBlkList = [⟨0, 7, 1⟩, ⟨2, 7, 1⟩, ⟨1, 7, 1⟩] ∧
    ∃ d', bldmsFsMount 1000 .allOk 0 (idleDriver (P.view.disk 0)) = .ok d' ∧
      d'.validBlkList ≠ P.view.validBlkList ∧ d'.lastWrittenBlock = 0 := by
  intro es P
  have hs : ptrDriver.AllSteps PtrDriver.Sane (freshDriver 3).pointers es :=
    ⟨sane_put rfl (.inr (by decide)) rfl, sane_put rfl (.inr (by decide)) rfl, ⟨trivial, trivial⟩,
      sane_put rfl (.inr (by decide)) rfl, sane_put rfl (.inr (by decide)) rfl, trivial⟩
  obtain ⟨d', hmount, -, -, -, hlist, hcursor, -⟩ := remount_exact .standard 0 (freshDriver 3)
    (mounted_freshDriver .standard (by decide)) (by decide) es hs P (ptrDriver.final_mem_states _ _) .allOk 0
    (idleDriver (P.view.disk 0)) MountEnv.allOk_succeeds rfl rfl rfl
  have horder : ¬ MountOrder P.view.validBlkList := by decide
  have hnewest : Newest ⟨0, 7, 1⟩ P.view.validBlkList := by decide
  exact ⟨by decide, d', hmount, fun heq => horder (hlist.mp heq), (hcursor _ (by decide)).mpr hnewest⟩

end Bldms
