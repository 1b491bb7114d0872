/-
  Unmounting and mounting again.

  Everything the driver keeps in memory is a function of the device, apart from the order of messages
  with the same timestamp: the array is what the blocks decode to (`Inv.array_eq`), the list holds the
  nodes of the blocks marked valid (`Inv.mem_iff`), sorted.  So two mounted drivers over the same bytes
  agree as soon as no two valid messages share a timestamp (`Inv.rebuilt`), and a mount of the bytes a
  run has left rebuilds what the run had built, call by call.  An entry in two slots is not a function of the device;
  so the run is one whose puts read the blocks they choose (`PtrDriver.Sane`).

  What the callers then see is the same as well: `getData_congr` for the system call, `vfsRead_onSb` for
  one `read`, and from it, by induction over the requests, for a whole session (`reader_onSb`).
-/
import Bldms.Frame
import Bldms.Undisturbed

namespace Bldms

/-! ## The device determines the array and the list -/

/-- No two valid messages have the same timestamp. -/
def DistinctTimes (d : Driver) : Prop := (d.validBlkList.map RcuElem.nsec).Nodup

instance (d : Driver) : Decidable (DistinctTimes d) :=
  inferInstanceAs (Decidable (d.validBlkList.map RcuElem.nsec).Nodup)

namespace Inv

variable {sb n : Nat} {d : Driver}

/-- Two drivers mounted on the same bytes hold the same array and the same list. -/
theorem rebuilt (hI : Inv sb n d) {sb' : Nat} {d' : Driver} (hI' : Inv sb' n d')
    (hdisk : d'.disk sb' = d.disk sb) (hts : DistinctTimes d) :
    d'.metadataArray.map MdEntry.blk = d.metadataArray.map MdEntry.blk ∧
    d'.validBlkList = d.validBlkList := by
  constructor
  · rw [hI'.array_eq, hI.array_eq, hdisk]
  · refine (hI.sorted.eq_of_mem_iff hI'.sorted hI.list_nodup hI'.list_nodup ?_ ?_).symm
    · intro el
      rw [hI.mem_iff, hI'.mem_iff, hdisk]
    · intro x hx y hy htime
      exact List.inj_on_of_nodup_map hts hx hy (BitVec.eq_of_toInt_eq htime)

end Inv

/-! ## What the callers see -/

/-- `get_data` depends on the list, the size and the bytes only. -/
theorem getData_congr {sb sb' n : Nat} {d d' : Driver} (hI : Inv sb n d) (hI' : Inv sb' n d')
    (hdisk : d'.disk sb' = d.disk sb) (hlist : d'.validBlkList = d.validBlkList) (e : GetEnv)
    (offset : BitVec 32) (size : Nat) : getData e offset size d' = getData e offset size d := by
  have hmounted : ¬ ¬ (true = true) := fun h => h rfl
  rw [getData, getData, getLookup, getLookup, hI.mounted, hI'.mounted, hI.size, hI'.size, hI.super,
    hI'.super, hlist, if_neg hmounted, if_neg hmounted]
  by_cases hrange : (offset.signExtend 64).toNat ≥ n
  · rw [if_pos hrange, if_pos hrange]
  · rw [if_neg hrange, if_neg hrange]
    cases findBlk d.validBlkList offset.toNat with
    | none => rfl
    | some el =>
      dsimp only [getCopy]
      rw [hdisk]

/-- The same session, on the superblock `sb`. -/
def Session.onSb (s : Session) (sb : Nat) : Session := { s with ino := ⟨s.ino.iSize, sb⟩ }

/-- The same result, in a session on the superblock `sb`. -/
def ReadOut.onSb (o : ReadOut) (sb : Nat) : ReadOut := ⟨o.ret, o.copied, o.sess.onSb sb⟩

/-- The choice of the next block does not depend on the superblock … -/
theorem setNextBlk_onSb (e : ReadEnv) (copied : Option Copied) (ret : Int) (rest : List RcuElem)
    (s : Session) (sb : Nat) :
    setNextBlk e copied ret rest (s.onSb sb) = (setNextBlk e copied ret rest s).onSb sb := by
  cases rest with
  | nil => rfl
  | cons nextEl rest =>
    simp only [setNextBlk]
    split <;> rfl

/-- … nor does the copy, apart from the bytes … -/
theorem readTarget_onSb {s : Session} {sb' : Nat} {d d' : Driver}
    (hdisk : d'.disk sb' = d.disk s.ino.iSb) (e : ReadEnv) (w : Window) (el : RcuElem)
    (rest : List RcuElem) :
    readTarget e w el rest (s.onSb sb') d' = (readTarget e w el rest s d).onSb sb' := by
  have hoff : { s.onSb sb' with off := w.off } = Session.onSb { s with off := w.off } sb' := rfl
  have hbytes : d'.disk (s.onSb sb').ino.iSb = d.disk s.ino.iSb := hdisk
  simp only [readTarget, hoff, hbytes, setNextBlk_onSb]
  split
  · rfl
  split
  · rfl
  generalize (if (w.len + w.offset - metadataSize) % 2 ^ 64 > el.validBytes
    then el.validBytes - (w.offset - metadataSize) else w.len) = len
  split <;> rfl

/-- … so a read of the same bytes is the same read. -/
theorem vfsRead_onSb {s : Session} {sb' : Nat} {d d' : Driver}
    (hdisk : d'.disk sb' = d.disk s.ino.iSb) (hlist : d'.validBlkList = d.validBlkList) (e : ReadEnv)
    (len : Nat) : vfsRead e len (s.onSb sb') d' = (vfsRead e len s d).onSb sb' := by
  have hwindow : ∀ n, readWindow (s.onSb sb').ino.iSize (s.onSb sb').off n
      = readWindow s.ino.iSize s.off n := fun _ => rfl
  have hts : (s.onSb sb').nextTs = s.nextTs := rfl
  simp only [vfsRead, bldmsRead, hwindow, hlist, hts]
  cases readWindow s.ino.iSize s.off (min len maxRwCount) with
  | none => rfl
  | some w =>
    dsimp only
    cases selectTarget (w.off / 4096 % 2 ^ 32) s.nextTs d.validBlkList with
    | nil => rfl
    | cons el rest =>
      dsimp only
      split
      · exact readTarget_onSb hdisk e w el rest
      · exact readTarget_onSb hdisk e _ el rest

/-- A session stays on its superblock. -/
theorem vfsRead_iSb (e : ReadEnv) (len : Nat) (s : Session) (d : Driver) :
    (vfsRead e len s d).sess.ino.iSb = s.ino.iSb := by
  have hself : vfsRead e len s d = (vfsRead e len s d).onSb s.ino.iSb := vfsRead_onSb rfl rfl e len
  rw [hself]
  rfl

/-- A session on the same bytes goes the same way. -/
theorem reader_onSb {s : Session} {sb sb' : Nat} {d d' : Driver} (hs : s.ino.iSb = sb)
    (hdisk : d'.disk sb' = d.disk sb) (hlist : d'.validBlkList = d.validBlkList)
    (reqs : List Request) :
    (reader d').replies (s.onSb sb') reqs =
      ((reader d).replies s reqs).map fun o => o.onSb sb' := by
  induction reqs generalizing s with
  | nil => rfl
  | cons r reqs ih =>
    have hread := vfsRead_onSb (hs ▸ hdisk) hlist r.env r.len
    show vfsRead r.env r.len (s.onSb sb') d' :: (reader d').replies
      (vfsRead r.env r.len (s.onSb sb') d').sess reqs = _
    rw [hread]
    exact congrArg _ (ih ((vfsRead_iSb r.env r.len s d).trans hs))

/-! ## A mount of what a run has left -/

/-- The device still passes the checks of the mount, in every state. -/
theorem Reachable.accepted {cfg : Config} {sb : Nat} {d : Driver} (hd : Reachable cfg sb d) :
    sbMagic (d.disk sb 0) = magicNumber ∧ inodeFileSize (d.disk sb 1) ≤ sizeLimit cfg.nblocks := by
  obtain ⟨d₀, calls, hmounted, rfl⟩ := hd
  have houtside := (outside_states hmounted calls _ (driver.final_mem_states d₀ calls)).2
  rw [houtside 0 (.inl (by omega)), houtside 1 (.inl (by omega))]
  obtain ⟨env, d₁, -, hmount⟩ := hmounted
  obtain ⟨-, d₂, hfill, rfl⟩ := bldmsFsMount_ok hmount
  obtain ⟨hmagic, hsize, s, -, rfl⟩ := bldmsFsFillSuper_ok hfill
  exact ⟨hmagic, hsize⟩

/-- A mount of the device of any reachable driver, with nothing failing. -/
theorem Reachable.remount {cfg : Config} {sb : Nat} {d : Driver} (hd : Reachable cfg sb d)
    (hts : DistinctTimes d) {env : MountEnv} (henv : env.Succeeds) {sb' : Nat} {d₀ : Driver}
    (hfree : d₀.bldmsMounted = false) (hempty : d₀.validBlkList = [])
    (hdisk : d₀.disk sb' = d.disk sb) :
    ∃ d₁ d', bldmsFsFillSuper cfg.nblocks env sb' d₀ = .ok d₁ ∧
      bldmsFsMount cfg.nblocks env sb' d₀ = .ok d' ∧
      d' = { d₁ with theDevSuperblock := some sb' } ∧
      d₁.mdArraySize = d.mdArraySize ∧
      d₁.metadataArray.map MdEntry.blk = d.metadataArray.map MdEntry.blk ∧
      d₁.validBlkList = d.validBlkList ∧
      (∀ e offset size, getData e offset size d' = getData e offset size d) ∧
      ∀ s s', Opened sb d s → Opened sb' d' s' → ∀ reqs,
        ((reader d').replies s' reqs).map (fun o => (o.ret, o.copied)) =
          ((reader d).replies s reqs).map fun o => (o.ret, o.copied) := by
  have hI := hd.inv
  obtain ⟨hmagic, hsize⟩ := hd.accepted
  rw [← hdisk] at hmagic hsize
  obtain ⟨d₁, hfill, hmount⟩ := bldmsFsMount_succeeds henv hfree hmagic hsize
  generalize hd' : ({ d₁ with theDevSuperblock := some sb' } : Driver) = d' at hmount
  -- the mount does not write: the new driver is over the same bytes
  have hdisk' : d'.disk sb' = d.disk sb := by
    obtain ⟨-, -, s, -, rfl⟩ := bldmsFsFillSuper_ok hfill
    rw [← hd']
    exact hdisk
  have hI' : Inv sb' (d.blockCount sb) d' := by
    have h := mounted_inv ⟨env, d₀, hempty, hmount⟩
    rw [Driver.blockCount, hdisk'] at h
    exact h
  obtain ⟨harray, hlist⟩ := hI.rebuilt hI' hdisk' hts
  have hsize' : d'.mdArraySize = d.mdArraySize := hI'.size.trans hI.size.symm
  refine ⟨d₁, d', hfill, hmount, hd'.symm, ?_, ?_, ?_, getData_congr hI hI' hdisk' hlist, ?_⟩
  · rw [← hsize', ← hd']
  · rw [← harray, ← hd']
  · rw [← hlist, ← hd']
  intro s s' hs hs' reqs
  have hsess : s' = s.onSb sb' := by
    rw [hs.eq, hs'.eq, Driver.freshSession, Driver.freshSession, hdisk']
    rfl
  rw [hsess, reader_onSb (by rw [hs.eq]; rfl) hdisk' hlist, List.map_map]
  rfl

/-- **A remount reconstructs the store.**  Take any state of a run from a mount whose puts have all read the blocks
    they chose, in which the valid messages have pairwise distinct timestamps.  A mount of its device, from an empty
    list and with nothing failing, succeeds and rebuilds the same array, the entries of invalidated blocks included,
    and the same list; every `get_data` then gives the same result, and every fresh session the same results and
    copies, whatever the requests. -/
theorem remount_reconstructs (cfg : Config) (sb : Nat) (d : Driver) (hd : Mounted cfg sb d) (hentries : d.entries.Nodup)
    (es : List PtrEvent) (hs : ptrDriver.AllSteps PtrDriver.Sane d.pointers es) :
    ∀ P ∈ ptrDriver.states d.pointers es, DistinctTimes P.view →
      ∀ (env : MountEnv) (sb' : Nat) (d₀ : Driver), env.Succeeds → d₀.bldmsMounted = false → d₀.validBlkList = [] →
        d₀.disk sb' = P.view.disk sb →
        ∃ d₁ d', bldmsFsFillSuper cfg.nblocks env sb' d₀ = .ok d₁ ∧
          bldmsFsMount cfg.nblocks env sb' d₀ = .ok d' ∧
          d' = { d₁ with theDevSuperblock := some sb' } ∧
          d₁.mdArraySize = P.view.mdArraySize ∧
          d₁.metadataArray.map MdEntry.blk = P.view.metadataArray.map MdEntry.blk ∧
          d₁.validBlkList = P.view.validBlkList ∧
          (∀ e offset size, getData e offset size d' = getData e offset size P.view) ∧
          ∀ s s', Opened sb P.view s → Opened sb' d' s' → ∀ reqs,
            ((reader d').replies s' reqs).map (fun o => (o.ret, o.copied)) =
              ((reader P.view).replies s reqs).map fun o => (o.ret, o.copied) := by
  intro P hP hts env sb' d₀ henv hfree hempty hdisk
  exact (hd.reachable_view hentries hs P hP).remount hts henv hfree hempty hdisk

/-- Three messages, put out of timestamp order, and one of them invalidated: the list a remount of the
    five-block device builds is the one the calls had left. -/
theorem remount_reconstructs_five_blocks :
    let es : List PtrEvent := [.call (.put (.allOk 5 30) [1, 2]), .call (.put (.allOk 6 10) [3]),
      .call (.put (.allOk 7 20) [4, 5, 6]), .call (.invalidate true 1)]
    let P := ptrDriver.final (freshDriver 5).pointers es
    let d₀ : Driver := { idleDriver (P.view.disk 0) with lastWrittenBlock := 2 }
    P.view.validBlkList = [⟨2, 20, 3⟩, ⟨0, 30, 2⟩] ∧
    ∃ d', bldmsFsMount 1000 .allOk 0 d₀ = .ok d' ∧ d'.validBlkList = P.view.validBlkList := by
  intro es P d₀
  have hs : ptrDriver.AllSteps PtrDriver.Sane (freshDriver 5).pointers es :=
    ⟨sane_put rfl (.inr (by decide)) rfl, sane_put rfl (.inr (by decide)) rfl,
      sane_put rfl (.inr (by decide)) rfl, ⟨trivial, trivial⟩, trivial⟩
  obtain ⟨d₁, d', -, hmount, heq, -, -, hlist, -⟩ := remount_reconstructs .standard 0 (freshDriver 5)
    (mounted_freshDriver .standard (by decide)) (by decide) es hs P (ptrDriver.final_mem_states _ _) (by decide)
    .allOk 0 d₀ MountEnv.allOk_succeeds rfl rfl rfl
  exact ⟨by decide, d', hmount, by rw [heq]; exact hlist⟩

/-- On a device of two blocks: a put cannot read block 0, which it has chosen, and releases entry 0; the next one is
    given entry 0, so that slot 0 reads valid, and stores in block 1.  Both slots refer to entry 0, and a remount
    gives slot 0 the metadata that block 0 has. -/
theorem remount_reconstructs_fails :
    let es : List PtrEvent := [.call (.put ⟨true, 0, true, some 2, 10, false⟩ [1]), .call (.put (.allOk 0 20) [2])]
    let P := ptrDriver.final (freshDriver 2).pointers es
    Mounted .standard 0 (freshDriver 2) ∧ (freshDriver 2).entries.Nodup ∧
    ptrDriver.AllSteps PtrDriver.Served (freshDriver 2).pointers es ∧ P.slots = [0, 0] ∧ DistinctTimes P.view ∧
    P.view.metadataArray.map MdEntry.blk = [⟨20, true, 1⟩, ⟨20, true, 1⟩] ∧
    ∃ d₁, bldmsFsFillSuper 1000 .allOk 0 (idleDriver (P.view.disk 0)) = .ok d₁ ∧
      d₁.metadataArray.map MdEntry.blk = [⟨0, false, 0⟩, ⟨20, true, 1⟩] := by
  intro es P
  refine ⟨mounted_freshDriver .standard (by decide), by decide,
    ⟨allocates_put rfl (.inr (by decide)), allocates_put rfl (.inl (by decide)), trivial⟩, by decide, by decide,
    by decide, ?_⟩
  have hmagic : sbMagic ((idleDriver (P.view.disk 0)).disk 0 0) = magicNumber := by decide +kernel
  have hsize : inodeFileSize ((idleDriver (P.view.disk 0)).disk 0 1) ≤ sizeLimit 1000 := by decide +kernel
  have hdecoded : (List.range (inodeFileSize (P.view.disk 0 1) / 4096)).map
      (fun i => (P.view.disk 0 (i + 2)).metadata) = [⟨0, false, 0⟩, ⟨20, true, 1⟩] := by decide +kernel
  obtain ⟨d₁, hfill, -⟩ := bldmsFsMount_succeeds MountEnv.allOk_succeeds rfl hmagic hsize
  have harray := (fillSuper_inv Config.standard.fits rfl hfill).array_eq
  obtain ⟨-, -, scanned, -, rfl⟩ := bldmsFsFillSuper_ok hfill
  exact ⟨_, hfill, harray.trans hdecoded⟩

end Bldms
