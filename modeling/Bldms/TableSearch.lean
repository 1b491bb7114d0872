/-
  Looking for the system call table in kernel memory.

  Source: `usctm/usctm.c` (`good_area`, `validate_page`, `syscall_table_finder`, `init_module`) and
  `usctm/lib/vtpmo.c` (`sys_vtpmo`).

  The USCTM module goes through the top of the address space, page by page and word by word, until the words
  at hand look like the table: entry 134 is repeated at six given places, and at none of the entries 1 to 133.
  A page is read only when the page tables map it, which `sys_vtpmo` finds out by walking them; an address
  that no frame is behind cannot be read, and `KernelMem.load` has no result there.

  * `finder_exact`      — the finder never reads what is not mapped, and finds the first address at which the
    pattern matches and all of its words are mapped: the `break` at an unmapped second page loses nothing;
  * `initModule_cases`  — the load then reports the free entries, seven at least, or dies: the exploration goes
    on for 19 entries behind the last one the finder has looked at, and nothing has checked these;
  * `discovered_then_registered` — the entries that `register_syscalls` takes over on what it is told referred to
    `sys_ni_syscall`, and none of the entries 1 to 133 is among them.
-/
import Bldms.SyscallTable

namespace Bldms

/-! ## Page tables -/

/-- The page tables in use: the table of the first level, and the entries of the table at an address. -/
structure PageTables where
  cr3 : Word
  entry : Word → Nat → Word

abbrev noMap : Int := -1

/-- `START`. -/
abbrev startAddr : Nat := 0xffffffff00000000
/-- `MAX_ADDR`. -/
abbrev maxAddr : Nat := 0xfffffffffff00000

/-- The index into the table of each level: `PML4`, `PDP`, `PDE` and `PTE`. -/
def pml4Index (vaddr : Nat) : Nat := vaddr / 2 ^ 39 % 512
def pdpIndex (vaddr : Nat) : Nat := vaddr / 2 ^ 30 % 512
def pdeIndex (vaddr : Nat) : Nat := vaddr / 2 ^ 21 % 512
def pteIndex (vaddr : Nat) : Nat := vaddr / 2 ^ 12 % 512

/-- `VALID`. -/
def present (e : Word) : Bool := e &&& 0x1 != 0
/-- `LH_MAPPING`. -/
def large (e : Word) : Bool := e &&& 0x80 != 0
/-- The address in an entry, as `PT_ADDRESS_MASK` takes it … -/
def tableOf (e : Word) : Word := e &&& 0x7ffffffffffff000
/-- … and as the processor takes it. -/
def frameOf (e : Word) : Word := e &&& 0x000ffffffffff000

namespace PageTables

variable (T : PageTables)

/-- `frame_number` is an `int`. -/
def frameNumber (e : Word) : Int := ((tableOf e >>> 12).truncate 32).toInt

/-- `sys_vtpmo`. -/
def sysVtpmo (vaddr : Nat) : Int :=
  let pml4 := T.cr3 &&& 0xfffffffffffff000
  let e₄ := T.entry pml4 (pml4Index vaddr)
  if ¬ present e₄ then noMap
  else
    let e₃ := T.entry (tableOf e₄) (pdpIndex vaddr)
    if ¬ present e₃ then noMap
    else
      -- a page of 1 GB, mapped by this entry, is taken for a table
      let e₂ := T.entry (tableOf e₃) (pdeIndex vaddr)
      if ¬ present e₂ then noMap
      else if large e₂ then frameNumber e₂
      else
        let e₁ := T.entry (tableOf e₂) (pteIndex vaddr)
        if ¬ present e₁ then noMap else frameNumber e₁

/-- The walk of the processor: whether there is a frame behind the address. -/
def mapped (vaddr : Nat) : Bool :=
  let e₄ := T.entry (frameOf T.cr3) (pml4Index vaddr)
  let e₃ := T.entry (frameOf e₄) (pdpIndex vaddr)
  let e₂ := T.entry (frameOf e₃) (pdeIndex vaddr)
  let e₁ := T.entry (frameOf e₂) (pteIndex vaddr)
  present e₄ && (present e₃ && (large e₃ || (present e₂ && (large e₂ || present e₁))))

/-- The entries that the walk of an address meets. -/
def pml4e (vaddr : Nat) : Word := T.entry (frameOf T.cr3) (pml4Index vaddr)
def pdpe (vaddr : Nat) : Word := T.entry (frameOf (T.pml4e vaddr)) (pdpIndex vaddr)
def pde (vaddr : Nat) : Word := T.entry (frameOf (T.pdpe vaddr)) (pdeIndex vaddr)
def pte (vaddr : Nat) : Word := T.entry (frameOf (T.pde vaddr)) (pteIndex vaddr)

/-- What the walk of `sys_vtpmo` takes for granted of the entries it gets to: the bits above the address are clear
    where it goes on to another table, no frame number is all ones in its low 32 bits, and the address is not mapped by
    a page of 1 GB. -/
structure PlainAt (vaddr : Nat) : Prop where
  pml4e : present (T.pml4e vaddr) → T.pml4e vaddr &&& 0x7ff0000000000000 = 0
  pdpe : present (T.pml4e vaddr) → present (T.pdpe vaddr) →
    T.pdpe vaddr &&& 0x7ff0000000000000 = 0 ∧ large (T.pdpe vaddr) = false
  largePage : present (T.pml4e vaddr) → present (T.pdpe vaddr) → present (T.pde vaddr) → large (T.pde vaddr) →
    frameNumber (T.pde vaddr) ≠ noMap
  pde : present (T.pml4e vaddr) → present (T.pdpe vaddr) → present (T.pde vaddr) → large (T.pde vaddr) = false →
    T.pde vaddr &&& 0x7ff0000000000000 = 0 ∧ (present (T.pte vaddr) → frameNumber (T.pte vaddr) ≠ noMap)

/-- … in the walks of a search from `lo` to `hi`, which ends with a table that may go on in one page more. -/
structure PlainIn (lo hi : Nat) : Prop where
  cr3 : T.cr3 &&& 0xfff0000000000000 = 0
  walks : ∀ vaddr, lo ≤ vaddr → vaddr < hi + 4096 → T.PlainAt vaddr

/-- … in the walks of the finder.  Elsewhere there may be pages of 1 GB, as in the direct map. -/
abbrev Plain : Prop := T.PlainIn startAddr maxAddr

variable {T}

theorem tableOf_eq {e : Word} (h : e &&& 0x7ff0000000000000 = 0) : tableOf e = frameOf e := by
  have hmask : (0x7ffffffffffff000 : Word) = 0x000ffffffffff000 ||| 0x7ff0000000000000 := by decide
  rw [tableOf, hmask, BitVec.and_or_distrib_left, h, frameOf]
  exact BitVec.or_zero

theorem PlainIn.pml4 {lo hi : Nat} (h : T.PlainIn lo hi) : T.cr3 &&& 0xfffffffffffff000 = frameOf T.cr3 := by
  have hmask : (0xfffffffffffff000 : Word) = 0x000ffffffffff000 ||| 0xfff0000000000000 := by decide
  rw [hmask, BitVec.and_or_distrib_left, h.cr3, frameOf]
  exact BitVec.or_zero

/-- Where the page tables are plain, `sys_vtpmo` says what the processor does. -/
theorem PlainIn.sysVtpmo_eq {lo hi vaddr : Nat} (h : T.PlainIn lo hi) (hstart : lo ≤ vaddr) (hend : vaddr < hi + 4096) :
    T.sysVtpmo vaddr = noMap ↔ T.mapped vaddr = false := by
  obtain ⟨hpml4e, hpdpe, hlarge, hpde⟩ := h.walks vaddr hstart hend
  rw [sysVtpmo, mapped, h.pml4]
  dsimp only
  simp only [pml4e, pdpe, pde, pte] at hpml4e hpdpe hlarge hpde
  cases h₄ : present (T.entry (frameOf T.cr3) (pml4Index vaddr)) with
  | false => simp
  | true =>
    rw [tableOf_eq (hpml4e h₄)]
    specialize hpdpe h₄
    specialize hlarge h₄
    specialize hpde h₄
    generalize T.entry (frameOf T.cr3) (pml4Index vaddr) = e₄ at h₄ hpdpe hlarge hpde
    cases h₃ : present (T.entry (frameOf e₄) (pdpIndex vaddr)) with
    | false => simp
    | true =>
      obtain ⟨htable, hhuge⟩ := hpdpe h₃
      rw [tableOf_eq htable, hhuge]
      specialize hlarge h₃
      specialize hpde h₃
      generalize T.entry (frameOf e₄) (pdpIndex vaddr) = e₃ at h₃ hlarge hpde
      cases h₂ : present (T.entry (frameOf e₃) (pdeIndex vaddr)) with
      | false => simp
      | true =>
        specialize hlarge h₂
        specialize hpde h₂
        generalize T.entry (frameOf e₃) (pdeIndex vaddr) = e₂ at h₂ hlarge hpde
        cases hpage : large e₂ with
        | true => simp [hlarge hpage]
        | false =>
          obtain ⟨htable, hpte⟩ := hpde hpage
          rw [tableOf_eq htable]
          cases h₁ : present (T.entry (frameOf e₂) (pteIndex vaddr)) with
          | false => simp
          | true => simp [hpte h₁]

/-- The walk does not look at the position inside the page. -/
theorem mapped_congr {a b : Nat} (h : a / 4096 = b / 4096) : T.mapped a = T.mapped b := by
  have h₁ : a / 2 ^ 12 = b / 2 ^ 12 := h
  have h₂ : a / 2 ^ 21 = b / 2 ^ 21 := by omega
  have h₃ : a / 2 ^ 30 = b / 2 ^ 30 := by omega
  have h₄ : a / 2 ^ 39 = b / 2 ^ 39 := by omega
  simp only [mapped, pml4Index, pdpIndex, pdeIndex, pteIndex, h₁, h₂, h₃, h₄]

end PageTables

/-! ## The finder -/

/-- The memory of the kernel: its page tables, and the word at an address. -/
structure KernelMem where
  tables : PageTables
  word : Nat → Word

/-- A word is read; there is nothing to read where no frame is behind the address. -/
def KernelMem.load (v : KernelMem) (a : Nat) : Option Word :=
  if v.tables.mapped a then some (v.word a) else none

/-- `FIRST_NI_SYSCALL`. -/
abbrev firstNi : Nat := 134
/-- The entries from `SECOND_NI_SYSCALL` to `SEVENTH_NI_SYSCALL`. -/
abbrev otherNi : List Nat := [174, 182, 183, 214, 215, 236]
/-- `SEVENTH_NI_SYSCALL`. -/
abbrev seventhNi : Nat := 236

/-- `&&`, the second condition being looked at only if the first one holds. -/
def andThen : Option Bool → Option Bool → Option Bool
  | some true, b => b
  | r, _ => r

namespace KernelMem

variable (v : KernelMem)

/-- A condition on `addr[FIRST_NI_SYSCALL]`. -/
def firstMeets (addr : Nat) (c : Word → Bool) : Option Bool := (v.load (addr + 8 * firstNi)).map c

/-- `addr[FIRST_NI_SYSCALL] == addr[i]`. -/
def sameAs (addr i : Nat) : Option Bool :=
  match v.load (addr + 8 * firstNi), v.load (addr + 8 * i) with
  | some x, some y => some (x == y)
  | _, _ => none

/-- The loop of `good_area` from `i` on. -/
def goodAreaFrom (addr : Nat) : Nat → Nat → Option Bool
  | 0, _ => some true
  | n + 1, i =>
    match v.sameAs addr i with
    | some true => some false
    | some false => goodAreaFrom addr n (i + 1)
    | none => none

/-- `good_area`. -/
def goodArea (addr : Nat) : Option Bool := v.goodAreaFrom addr (firstNi - 1) 1

/-- The condition of `validate_page` on the words from `addr` on. -/
def looksLikeTable (addr : Nat) : Option Bool :=
  andThen (v.firstMeets addr fun x => x &&& 0x3 == 0) <|
  andThen (v.firstMeets addr fun x => x != 0) <|
  andThen (v.firstMeets addr fun x => decide (0xffffffff00000000 < x)) <|
  otherNi.foldr (fun i rest => andThen (v.sameAs addr i) rest) (v.goodArea addr)

/-- The loop of `validate_page` over `n` words of a page, from position `i` on: the address of the table and
    that of `sys_ni_syscall`, if they are found. -/
def validateFrom (page : Nat) : Nat → Nat → Option (Option (Nat × Word))
  | 0, _ => some none
  | n + 1, i =>
    let newPage := page + i + seventhNi * 8
    -- the table would go on in a second page, and there is none
    if page + 4096 = newPage / 4096 * 4096 ∧ v.tables.sysVtpmo newPage = noMap then some none
    else
      match v.looksLikeTable (page + i) with
      | some true => (v.load (page + i + 8 * firstNi)).map fun ni => some (page + i, ni)
      | some false => validateFrom page n (i + 8)
      | none => none

/-- `validate_page`. -/
def validatePage (page : Nat) : Option (Option (Nat × Word)) := v.validateFrom page 512 0

/-- The loop of `syscall_table_finder` over `n` pages from `k` on. -/
def finderFrom : Nat → Nat → Option (Option (Nat × Word))
  | 0, _ => some none
  | n + 1, k =>
    if v.tables.sysVtpmo k ≠ noMap then
      match v.validatePage k with
      | some (some found) => some (some found)
      | some none => finderFrom n (k + 4096)
      | none => none
    else finderFrom n (k + 4096)

/-- `syscall_table_finder`: without a result if it reads what is not mapped. -/
def syscallTableFinder : Option (Option (Nat × Word)) := v.finderFrom ((maxAddr - startAddr) / 4096) startAddr

end KernelMem

/-! ## What it looks for -/

/-- The words of a table, as far as the finder looks: entry 134 could be an address of the kernel, is repeated
    at the six other entries, and at none from 1 to 133. -/
structure IsTable (w : Nat → Word) : Prop where
  aligned : w firstNi &&& 0x3 = 0
  ne_zero : w firstNi ≠ 0
  high : 0xffffffff00000000 < w firstNi
  repeated : ∀ i ∈ otherNi, w firstNi = w i
  elsewhere : ∀ i, 1 ≤ i → i < firstNi → w i ≠ w firstNi

namespace KernelMem

variable (v : KernelMem)

/-- The words from an address on. -/
def entriesAt (a : Nat) (i : Nat) : Word := v.word (a + 8 * i)

/-- The finder can take what is at `a` for the table: the first page and the last one it looks at are mapped,
    and so are all words in between. -/
structure Candidate (a : Nat) : Prop where
  mapped : ∀ i ≤ seventhNi, v.tables.mapped (a + 8 * i) = true
  table : IsTable (v.entriesAt a)

/-- The addresses it goes through. -/
def Searched (a : Nat) : Prop := startAddr ≤ a ∧ a < maxAddr ∧ a % 8 = 0

/-- The first of them that it can take for the table. -/
structure FirstTable (a : Nat) : Prop where
  searched : Searched a
  candidate : v.Candidate a
  first : ∀ b, Searched b → b < a → ¬ v.Candidate b

variable {v}

theorem load_of_mapped {a : Nat} (h : v.tables.mapped a = true) : v.load a = some (v.word a) := if_pos h

theorem sameAs_of_mapped {a i : Nat} (hfirst : v.tables.mapped (a + 8 * firstNi) = true)
    (hi : v.tables.mapped (a + 8 * i) = true) :
    v.sameAs a i = some (v.entriesAt a firstNi == v.entriesAt a i) := by
  rw [sameAs, load_of_mapped hfirst, load_of_mapped hi]
  rfl

/-- Where all words are mapped, the loop of `good_area` looks for a repetition. -/
theorem goodAreaFrom_eq {a : Nat} (hmapped : ∀ i ≤ seventhNi, v.tables.mapped (a + 8 * i) = true) (n : Nat) :
    ∀ i, i + n ≤ seventhNi + 1 → ∃ b, v.goodAreaFrom a n i = some b ∧
      (b = true ↔ ∀ j, i ≤ j → j < i + n → v.entriesAt a j ≠ v.entriesAt a firstNi) := by
  induction n with
  | zero => exact fun i _ => ⟨true, rfl, by simp; omega⟩
  | succ n ih =>
    intro i hi
    have hsame := sameAs_of_mapped (hmapped firstNi (by decide)) (hmapped i (by omega))
    rw [goodAreaFrom, hsame]
    by_cases heq : v.entriesAt a firstNi = v.entriesAt a i
    · rw [beq_iff_eq.mpr heq]
      refine ⟨false, rfl, ?_⟩
      simp only [Bool.false_eq_true, false_iff]
      exact fun hall => hall i (le_refl i) (by omega) heq.symm
    · rw [beq_eq_false_iff_ne.mpr heq]
      obtain ⟨b, hb, hiff⟩ := ih (i + 1) (by omega)
      refine ⟨b, hb, hiff.trans ⟨fun hall j hij hj => ?_, fun hall j hij hj => hall j (by omega) (by omega)⟩⟩
      rcases Nat.eq_or_lt_of_le hij with rfl | hlt
      · exact fun h => heq h.symm
      · exact hall j (by omega) (by omega)

theorem andThen_some {a : Bool} {r : Option Bool} {b : Bool} (hr : r = some b) :
    andThen (some a) r = some (a && b) := by
  cases a
  · rfl
  · rw [andThen, hr, Bool.true_and]

/-- Where all words are mapped, the condition of `validate_page` is about what they hold. -/
theorem looksLikeTable_eq {a : Nat} (hmapped : ∀ i ≤ seventhNi, v.tables.mapped (a + 8 * i) = true) :
    ∃ b, v.looksLikeTable a = some b ∧ (b = true ↔ IsTable (v.entriesAt a)) := by
  have hfirst := hmapped firstNi (by decide)
  have hmeets : ∀ c, v.firstMeets a c = some (c (v.entriesAt a firstNi)) := by
    intro c
    rw [firstMeets, load_of_mapped hfirst]
    rfl
  have hsame : ∀ i ≤ seventhNi, v.sameAs a i = some (v.entriesAt a firstNi == v.entriesAt a i) :=
    fun i hi => sameAs_of_mapped hfirst (hmapped i hi)
  obtain ⟨g, hg, hgood⟩ := goodAreaFrom_eq hmapped (firstNi - 1) 1 (by decide)
  have hothers : ∀ l : List Nat, (∀ i ∈ l, i ≤ seventhNi) →
      l.foldr (fun i rest => andThen (v.sameAs a i) rest) (v.goodArea a) =
        some (l.all (fun i => v.entriesAt a firstNi == v.entriesAt a i) && g) := by
    intro l
    induction l with
    | nil => exact fun _ => hg
    | cons i l ih =>
      intro hl
      rw [List.foldr_cons, hsame i (hl i List.mem_cons_self),
        andThen_some (ih fun j hj => hl j (List.mem_cons_of_mem i hj)), List.all_cons, Bool.and_assoc]
  rw [looksLikeTable, hmeets, hmeets, hmeets,
    andThen_some (andThen_some (andThen_some (hothers otherNi (by decide))))]
  refine ⟨_, rfl, ?_⟩
  simp only [Bool.and_eq_true, beq_iff_eq, bne_iff_ne, ne_eq, decide_eq_true_eq, List.all_eq_true, hgood]
  constructor
  · rintro ⟨h₁, h₂, h₃, h₄, h₅⟩
    exact ⟨h₁, h₂, h₃, h₄, fun i hi hlt => h₅ i hi (by omega)⟩
  · rintro ⟨h₁, h₂, h₃, h₄, h₅⟩
    exact ⟨h₁, h₂, h₃, h₄, fun i hi hlt => h₅ i hi (by omega)⟩

/-! ## What it finds -/

/-- What a search of the addresses from `s` up to `e` comes to: the first candidate, with entry 134; or
    nothing, if there is none.  It always comes to something: it never reads what is not mapped. -/
inductive Finds (v : KernelMem) (s e : Nat) : Option (Option (Nat × Word)) → Prop
  | found (a : Nat) : s ≤ a → a < e → a % 8 = 0 → v.Candidate a →
      (∀ b, s ≤ b → b < a → b % 8 = 0 → ¬ v.Candidate b) → Finds v s e (some (some (a, v.entriesAt a firstNi)))
  | nothing : (∀ b, s ≤ b → b < e → b % 8 = 0 → ¬ v.Candidate b) → Finds v s e (some none)

theorem Finds.of_empty {s e : Nat} (h : e ≤ s) : Finds v s e (some none) :=
  .nothing fun b hs he => by omega

/-- Addresses in front that are no candidates make no difference. -/
theorem Finds.skip {s m e : Nat} {r : Option (Option (Nat × Word))} (h : Finds v m e r) (hm : s ≤ m)
    (hskip : ∀ b, s ≤ b → b < m → b % 8 = 0 → ¬ v.Candidate b) : Finds v s e r := by
  cases h with
  | found a hma hae hal hc hfirst =>
    refine .found a (hm.trans hma) hae hal hc fun b hb hba hbl => ?_
    rcases Nat.lt_or_ge b m with hbm | hbm
    · exact hskip b hb hbm hbl
    · exact hfirst b hbm hba hbl
  | nothing hno =>
    refine .nothing fun b hb hbe hbl => ?_
    rcases Nat.lt_or_ge b m with hbm | hbm
    · exact hskip b hb hbm hbl
    · exact hno b hbm hbe hbl

/-- What is found is found in a longer search as well. -/
theorem Finds.mono {s m e : Nat} {x : Nat × Word} (h : Finds v s m (some (some x))) (hm : m ≤ e) :
    Finds v s e (some (some x)) := by
  cases h with
  | found a hsa ham hal hc hfirst => exact .found a hsa (ham.trans_le hm) hal hc hfirst

/-- From a position in a mapped page, what the finder looks at is mapped, unless it goes on in a second page
    that is not. -/
theorem mapped_iff {page i : Nat} (hpage : page % 4096 = 0) (hi : i < 4096)
    (hmapped : v.tables.mapped page = true) :
    (∀ j ≤ seventhNi, v.tables.mapped (page + i + 8 * j) = true) ↔
      ¬ (page + 4096 = (page + i + seventhNi * 8) / 4096 * 4096 ∧
        v.tables.mapped (page + i + seventhNi * 8) = false) := by
  constructor
  · rintro hall ⟨-, hno⟩
    have hlast := hall seventhNi (le_refl _)
    rw [Nat.mul_comm 8] at hlast
    rw [hlast] at hno
    cases hno
  · intro hgood j hj
    rcases Nat.lt_or_ge (i + 8 * j) 4096 with hin | hout
    · rw [PageTables.mapped_congr (show (page + i + 8 * j) / 4096 = page / 4096 by omega)]
      exact hmapped
    · have hsecond : page + 4096 = (page + i + seventhNi * 8) / 4096 * 4096 := by
        have : j ≤ 236 := hj
        simp only [seventhNi]
        omega
      have hnext : v.tables.mapped (page + i + seventhNi * 8) = true := by
        by_contra hno
        exact hgood ⟨hsecond, by simpa using hno⟩
      have hsame : (page + i + 8 * j) / 4096 = (page + i + seventhNi * 8) / 4096 := by
        have : j ≤ 236 := hj
        simp only [seventhNi] at hsecond ⊢
        omega
      rw [PageTables.mapped_congr hsame]
      exact hnext

/-- The search of a page. -/
theorem validateFrom_finds {lo hi : Nat} (hT : v.tables.PlainIn lo hi) {page : Nat} (hpage : page % 4096 = 0)
    (hstart : lo ≤ page) (hend : page + 4096 ≤ hi) (hmapped : v.tables.mapped page = true) (n : Nat) :
    ∀ i, i % 8 = 0 → i + 8 * n = 4096 → Finds v (page + i) (page + 4096) (v.validateFrom page n i) := by
  induction n with
  | zero => exact fun i _ hi => .of_empty (by omega)
  | succ n ih =>
    intro i hi8 hi
    have hall := mapped_iff (v := v) hpage (show i < 4096 by omega) hmapped
    have hwalk := hT.sysVtpmo_eq (show lo ≤ page + i + seventhNi * 8 by omega) (by simp only [seventhNi]; omega)
    rw [validateFrom]
    by_cases hbreak : page + 4096 = (page + i + seventhNi * 8) / 4096 * 4096 ∧
        v.tables.sysVtpmo (page + i + seventhNi * 8) = noMap
    · rw [if_pos hbreak]
      -- from here on, what is looked at goes on in the second page
      refine .nothing fun b hb hbe hb8 hc => ?_
      have hlast := hc.mapped seventhNi (le_refl _)
      have hsame : (b + 8 * seventhNi) / 4096 = (page + i + seventhNi * 8) / 4096 := by
        have hsecond := hbreak.1
        simp only [seventhNi] at hsecond ⊢
        omega
      rw [PageTables.mapped_congr hsame, hwalk.mp hbreak.2] at hlast
      cases hlast
    · rw [if_neg hbreak]
      have hwords := hall.mpr fun h => hbreak ⟨h.1, hwalk.mpr h.2⟩
      obtain ⟨b, hb, hiff⟩ := looksLikeTable_eq hwords
      rw [hb]
      cases b with
      | true =>
        have hload := load_of_mapped (hwords firstNi (by decide))
        dsimp only
        rw [hload]
        refine .found (page + i) (le_refl _) (by omega) (by omega) ⟨hwords, hiff.mp rfl⟩ ?_
        exact fun c hc hlt => absurd hc (Nat.not_le.mpr hlt)
      | false =>
        refine (ih (i + 8) (by omega) (by omega)).skip (by omega) fun c hc hlt hc8 hcand => ?_
        obtain rfl : c = page + i := by omega
        exact Bool.false_ne_true (hiff.mpr hcand.table)

/-- The search of the pages. -/
theorem finderFrom_finds {lo hi : Nat} (hT : v.tables.PlainIn lo hi) (n : Nat) :
    ∀ k, k % 4096 = 0 → lo ≤ k → k + 4096 * n ≤ hi → Finds v k (k + 4096 * n) (v.finderFrom n k) := by
  induction n with
  | zero => exact fun k _ _ _ => .of_empty (by omega)
  | succ n ih =>
    intro k hk hstart hend
    have hsum : k + 4096 + 4096 * n = k + 4096 * (n + 1) := by ring
    have hnext : k + 4096 ≤ k + 4096 * (n + 1) := (Nat.le_add_right (k + 4096) (4096 * n)).trans_eq hsum
    have hrest := ih (k + 4096) (by omega) (Nat.le_add_right_of_le hstart) (hsum.trans_le hend)
    rw [hsum] at hrest
    have hwalk := hT.sysVtpmo_eq hstart (by omega)
    rw [finderFrom]
    by_cases hmap : v.tables.sysVtpmo k = noMap
    · rw [if_neg (not_not.mpr hmap)]
      refine hrest.skip (by omega) fun b hb hlt _ hc => ?_
      have hfirst := hc.mapped 0 (Nat.zero_le _)
      rw [PageTables.mapped_congr (show (b + 8 * 0) / 4096 = k / 4096 by omega),
        hwalk.mp hmap] at hfirst
      cases hfirst
    · rw [if_pos hmap]
      have hmapped : v.tables.mapped k = true := by
        by_contra hno
        exact hmap (hwalk.mpr (by simpa using hno))
      have hpage := validateFrom_finds hT hk hstart (hnext.trans hend) hmapped 512 0 rfl rfl
      rw [← validatePage, Nat.add_zero] at hpage
      generalize v.validatePage k = r at hpage
      cases hpage with
      | found a hka hae ha8 hc hfirst =>
        exact (Finds.found a hka hae ha8 hc hfirst).mono hnext
      | nothing hno => exact hrest.skip (by omega) hno

/-- **The finder is safe and exact.**  It never reads what is not mapped; what it finds is the first address
    in its range from which the words of a table are all mapped and match; and it finds nothing only if there
    is none. -/
theorem finder_exact (v : KernelMem) (hT : v.tables.Plain) :
    (∃ a, v.FirstTable a ∧ v.syscallTableFinder = some (some (a, v.entriesAt a firstNi))) ∨
    (v.syscallTableFinder = some none ∧ ∀ b, Searched b → ¬ v.Candidate b) := by
  have hfinds := finderFrom_finds hT ((maxAddr - startAddr) / 4096) startAddr (by decide) (le_refl _)
    (by decide)
  have hend : startAddr + 4096 * ((maxAddr - startAddr) / 4096) = maxAddr := by decide
  rw [hend, ← syscallTableFinder] at hfinds
  generalize v.syscallTableFinder = r at hfinds
  cases hfinds with
  | found a hsa hae ha8 hc hfirst =>
    exact .inl ⟨a, ⟨⟨hsa, hae, ha8⟩, hc, fun b hb hlt => hfirst b hb.1 hlt hb.2.2⟩, rfl⟩
  | nothing hno => exact .inr ⟨rfl, fun b hb => hno b hb.1 hb.2.1 hb.2.2⟩

/-- A kernel whose page tables map everything, to one frame, and whose table is at the first address. -/
def sampleKernel : KernelMem where
  tables := ⟨0x1000, fun _ _ => 0x1001⟩
  word a := if (a - startAddr) / 8 ∈ firstNi :: otherNi then 0xffffffff81000000 else 0xffffffff82000000

theorem sampleKernel_plain : sampleKernel.tables.Plain := by
  have htable : (0x1001 : Word) &&& 0x7ff0000000000000 = 0 := by decide
  have hframe : PageTables.frameNumber 0x1001 ≠ noMap := by decide
  have hsmall : large 0x1001 = false := by decide
  exact ⟨by decide, fun _ _ _ => ⟨fun _ => htable, fun _ _ => ⟨htable, hsmall⟩, fun _ _ _ _ => hframe,
    fun _ _ _ _ => ⟨htable, fun _ => hframe⟩⟩⟩

theorem sampleKernel_finder :
    sampleKernel.syscallTableFinder = some (some (startAddr, 0xffffffff81000000)) := by decide +kernel

/-- In this kernel the finder stops at the first address it looks at. -/
theorem finder_exact_sample : sampleKernel.FirstTable startAddr := by
  rcases finder_exact sampleKernel sampleKernel_plain with ⟨a, hfirst, hfind⟩ | ⟨hfind, -⟩
  · rw [sampleKernel_finder] at hfind
    cases hfind
    exact hfirst
  · rw [sampleKernel_finder] at hfind
    cases hfind

/-! ## The load of the module -/

/-- The exploration loop of `init_module` from entry `i` on, `free` being what has been found. -/
def exploreFrom (v : KernelMem) (base : Nat) (ni : Word) : Nat → Nat → List Int → Option (List Int)
  | 0, _, free => some free
  | n + 1, i, free =>
    match v.load (base + 8 * i) with
    | none => none
    | some x =>
      if x = ni then
        if (free ++ [(i : Int)]).length ≥ maxFree then some (free ++ [(i : Int)])
        else exploreFrom v base ni n (i + 1) (free ++ [(i : Int)])
      else exploreFrom v base ni n (i + 1) free

/-- `init_module`: what the module's parameters show in the end. -/
def initModule (v : KernelMem) : Ret UsctmParams :=
  match v.syscallTableFinder with
  | none => .oops
  | some none => .err .eperm
  | some (some (base, ni)) =>
    match exploreFrom v base ni entriesToExplore 0 [] with
    | none => .oops
    | some free => .ok (usctmParams (BitVec.ofNat 64 base) ni free)

/-- The words from an address on, as a table. -/
def tableAt (v : KernelMem) (base : Nat) (e : Int) : Word := v.entriesAt base e.toNat

/-- How many of the entries from `i` up to `j` refer to `ni`. -/
def niBefore (v : KernelMem) (base : Nat) (ni : Word) (i j : Nat) : Nat :=
  ((List.range' i (j - i)).filter fun e => v.entriesAt base e = ni).length

theorem niBefore_succ (v : KernelMem) (base : Nat) (ni : Word) {i j : Nat} (h : i < j) :
    v.niBefore base ni i j = (if v.entriesAt base i = ni then 1 else 0) + v.niBefore base ni (i + 1) j := by
  rw [niBefore, niBefore, show j - i = j - (i + 1) + 1 by omega, List.range'_succ, List.filter_cons]
  by_cases hni : v.entriesAt base i = ni
  · simp [hni, Nat.add_comm]
  · simp [hni]

/-- The free entries among `n` from `i` on. -/
def freeFrom (v : KernelMem) (base : Nat) (ni : Word) (i n : Nat) : List Int :=
  ((List.range' i n).map Int.ofNat).filter fun e => v.tableAt base e = ni

theorem freeFrom_succ (v : KernelMem) (base : Nat) (ni : Word) (i n : Nat) :
    v.freeFrom base ni i (n + 1) =
      if v.entriesAt base i = ni then (i : Int) :: v.freeFrom base ni (i + 1) n
      else v.freeFrom base ni (i + 1) n := by
  rw [freeFrom, List.range'_succ, List.map_cons, List.filter_cons]
  simp only [decide_eq_true_eq]
  rfl

/-- What the exploration finds, if it gets to its end. -/
theorem exploreFrom_some {base : Nat} {ni : Word} {free' : List Int} (n : Nat) :
    ∀ {i : Nat} {free : List Int}, free.length < maxFree → exploreFrom v base ni n i free = some free' →
      free' = free ++ (v.freeFrom base ni i n).take (maxFree - free.length) := by
  induction n with
  | zero =>
    intro i free _ h
    rw [exploreFrom, Option.some.injEq] at h
    simp [← h, freeFrom]
  | succ n ih =>
    intro i free hlen h
    rw [exploreFrom] at h
    rw [freeFrom_succ]
    split at h
    · cases h
    rename_i x hx
    have hword : x = v.entriesAt base i := by
      unfold load at hx
      split at hx
      · exact (Option.some.inj hx).symm
      · cases hx
    rw [hword] at h
    obtain ⟨k, hk⟩ := Nat.exists_eq_add_of_lt hlen
    have hleft : maxFree - free.length = k + 1 := by omega
    rw [hleft]
    by_cases hni : v.entriesAt base i = ni
    · rw [if_pos hni] at h ⊢
      rw [List.take_succ_cons]
      split at h
      · rename_i hfull
        rw [List.length_append, List.length_singleton] at hfull
        obtain rfl : k = 0 := by omega
        rw [List.take_zero]
        exact (Option.some.inj h).symm
      · rename_i hroom
        rw [ih (Nat.not_le.mp hroom) h, List.length_append, List.length_singleton, List.append_assoc,
          show maxFree - (free.length + 1) = k by omega]
        rfl
    · rw [if_neg hni] at h ⊢
      rw [ih hlen h, hleft]

/-- The exploration dies exactly when it comes to an entry that is not mapped before it has found enough. -/
theorem exploreFrom_none {base : Nat} {ni : Word} (n : Nat) :
    ∀ {i : Nat} {free : List Int}, free.length < maxFree →
      (exploreFrom v base ni n i free = none ↔ ∃ j, i ≤ j ∧ j < i + n ∧
        v.tables.mapped (base + 8 * j) = false ∧ free.length + v.niBefore base ni i j < maxFree) := by
  induction n with
  | zero =>
    intro i free _
    simp only [exploreFrom, reduceCtorEq, false_iff]
    rintro ⟨j, hij, hj, -⟩
    omega
  | succ n ih =>
    intro i free hlen
    rw [exploreFrom]
    cases hmap : v.tables.mapped (base + 8 * i) with
    | false =>
      rw [show v.load (base + 8 * i) = none by rw [load, hmap]; rfl]
      simp only [true_iff]
      refine ⟨i, le_refl i, by omega, hmap, ?_⟩
      rw [niBefore, Nat.sub_self]
      exact hlen
    | true =>
      rw [load_of_mapped hmap]
      dsimp only
      -- the entry that stops the exploration is a later one
      have hlater : ∀ P : Nat → Prop, (∃ j, i ≤ j ∧ j < i + (n + 1) ∧ v.tables.mapped (base + 8 * j) = false ∧ P j) ↔
          ∃ j, i + 1 ≤ j ∧ j < i + 1 + n ∧ v.tables.mapped (base + 8 * j) = false ∧ P j := by
        intro P
        constructor
        · rintro ⟨j, hij, hj, hjmap, hP⟩
          have hne : i ≠ j := by
            rintro rfl
            rw [hmap] at hjmap
            cases hjmap
          exact ⟨j, by omega, by omega, hjmap, hP⟩
        · rintro ⟨j, hij, hj, hjmap, hP⟩
          exact ⟨j, by omega, by omega, hjmap, hP⟩
      rw [hlater]
      by_cases hni : v.entriesAt base i = ni
      · rw [if_pos (show v.word (base + 8 * i) = ni from hni)]
        split
        · rename_i hfull
          rw [List.length_append, List.length_singleton] at hfull
          simp only [reduceCtorEq, false_iff]
          rintro ⟨j, hij, -, -, hcount⟩
          rw [niBefore_succ v base ni (by omega), if_pos hni] at hcount
          omega
        · rename_i hroom
          rw [ih (Nat.not_le.mp hroom)]
          refine exists_congr fun j => and_congr_right fun hij => and_congr_right fun _ => and_congr_right fun _ => ?_
          rw [niBefore_succ v base ni (show i < j by omega), if_pos hni, List.length_append,
            List.length_singleton, Nat.add_assoc]
      · rw [if_neg (show ¬ v.word (base + 8 * i) = ni from hni), ih hlen]
        refine exists_congr fun j => and_congr_right fun hij => and_congr_right fun _ => and_congr_right fun _ => ?_
        rw [niBefore_succ v base ni (show i < j by omega), if_neg hni, Nat.zero_add]

/-- The seven entries the finder has looked at are free. -/
theorem Candidate.seven_free {base : Nat} (h : v.Candidate base) :
    7 ≤ (usctmScan (v.tableAt base) (v.entriesAt base firstNi)).length := by
  have hsub : [134, 174, 182, 183, 214, 215, 236] ⊆ ((List.range entriesToExplore).map Int.ofNat).filter
      fun e => v.tableAt base e = v.entriesAt base firstNi := by
    intro e he
    have hcases : e.toNat = firstNi ∨ e.toNat ∈ otherNi := by
      revert e
      decide
    refine List.mem_filter.mpr ⟨?_, decide_eq_true ?_⟩
    · revert e
      decide
    · rcases hcases with heq | hmem
      · rw [tableAt, heq]
      · exact (h.table.repeated _ hmem).symm
  have hle := ((show ([134, 174, 182, 183, 214, 215, 236] : List Int).Nodup by decide).subperm hsub).length_le
  rw [usctmScan, List.length_take]
  exact Nat.le_min.mpr ⟨by decide, hle⟩

/-- The exploration of the table gets to its end: an entry that is not mapped has fifteen free ones in front
    of it. -/
def Explorable (v : KernelMem) (a : Nat) : Prop :=
  ∀ j < entriesToExplore, v.tables.mapped (a + 8 * j) = false → maxFree ≤ v.niBefore a (v.entriesAt a firstNi) 0 j

/-- **What a load of the module comes to.**  It reports the first table there is, with its first free entries,
    fifteen at most and seven at least; it fails if there is no table; and it dies if, among the entries behind
    the last one the finder looks at, there is one that is not mapped and fewer than fifteen of those in front
    of it are free. -/
theorem initModule_cases (v : KernelMem) (hT : v.tables.Plain) :
    (∃ a, v.FirstTable a ∧ v.Explorable a ∧
      v.initModule = .ok (usctmParams (BitVec.ofNat 64 a) (v.entriesAt a firstNi)
        (usctmScan (v.tableAt a) (v.entriesAt a firstNi))) ∧
      7 ≤ (usctmScan (v.tableAt a) (v.entriesAt a firstNi)).length) ∨
    (∃ a, v.FirstTable a ∧ v.initModule = .oops ∧
      ∃ j, seventhNi < j ∧ j < entriesToExplore ∧ v.tables.mapped (a + 8 * j) = false ∧
        v.niBefore a (v.entriesAt a firstNi) 0 j < maxFree) ∨
    (v.initModule = .err .eperm ∧ ∀ b, Searched b → ¬ v.Candidate b) := by
  rcases finder_exact v hT with ⟨a, hfirst, hfind⟩ | ⟨hfind, hno⟩
  · have hnone : exploreFrom v a (v.entriesAt a firstNi) entriesToExplore 0 [] = none ↔ _ :=
      exploreFrom_none entriesToExplore (show ([] : List Int).length < maxFree by decide)
    rw [initModule, hfind]
    dsimp only
    cases hfree : exploreFrom v a (v.entriesAt a firstNi) entriesToExplore 0 [] with
    | none =>
      obtain ⟨j, -, hj, hjmap, hcount⟩ := hnone.mp hfree
      rw [List.length_nil, Nat.zero_add] at hcount
      refine .inr (.inl ⟨a, hfirst, rfl, j, ?_, by omega, hjmap, hcount⟩)
      by_contra hle
      rw [hfirst.candidate.mapped j (Nat.not_lt.mp hle)] at hjmap
      cases hjmap
    | some free =>
      have hscan : free = usctmScan (v.tableAt a) (v.entriesAt a firstNi) := by
        rw [exploreFrom_some entriesToExplore (by decide) hfree, List.nil_append, freeFrom, ← List.range_eq_range']
        rfl
      refine .inl ⟨a, hfirst, ?_, by rw [hscan], hfirst.candidate.seven_free⟩
      intro j hj hjmap
      by_contra hlt
      have hdies := hnone.mpr ⟨j, Nat.zero_le j, by omega, hjmap, by
        rw [List.length_nil, Nat.zero_add]
        exact Nat.not_le.mp hlt⟩
      rw [hfree] at hdies
      cases hdies
  · rw [initModule, hfind]
    exact .inr (.inr ⟨rfl, hno⟩)

theorem sampleKernel_explore : sampleKernel.exploreFrom startAddr 0xffffffff81000000 entriesToExplore 0 [] =
    some [134, 174, 182, 183, 214, 215, 236] := by decide +kernel

theorem sampleKernel_initModule : sampleKernel.initModule =
    .ok (usctmParams 0xffffffff00000000 0xffffffff81000000 [134, 174, 182, 183, 214, 215, 236]) := by
  rw [initModule, sampleKernel_finder]
  dsimp only
  rw [sampleKernel_explore]
  rfl

/-- Its load reports the seven entries. -/
theorem initModule_cases_sample :
    ∃ a, sampleKernel.FirstTable a ∧ sampleKernel.Explorable a ∧
      7 ≤ (usctmScan (sampleKernel.tableAt a) (sampleKernel.entriesAt a firstNi)).length := by
  rcases initModule_cases sampleKernel sampleKernel_plain with ⟨a, hfirst, hexpl, -, hseven⟩ | ⟨a, -, hoops, -⟩ |
    ⟨herr, -⟩
  · exact ⟨a, hfirst, hexpl, hseven⟩
  · rw [sampleKernel_initModule] at hoops
    cases hoops
  · rw [sampleKernel_initModule] at herr
    cases herr

/-- A kernel whose second page is not mapped, with a table that ends in it: the load dies. -/
example :
    let v : KernelMem := ⟨⟨0x1000, fun _ i => if i = 1 then 0 else 0x1001⟩,
      fun a => if (a - (startAddr + 2104)) / 8 ∈ firstNi :: otherNi then 0xffffffff81000000 else 0⟩
    v.syscallTableFinder = some (some (startAddr + 2104, 0xffffffff81000000)) ∧
    v.exploreFrom (startAddr + 2104) 0xffffffff81000000 entriesToExplore 0 [] = none := by decide +kernel

/-- The registration writes the handlers over the first three of the reported entries. -/
theorem registerSyscalls_three (u : UsctmParams) (h : Handlers) (t : Tables) {e₀ e₁ e₂ : Int} {rest : List Int}
    {n : Nat} (hfree : u.freeEntries = e₀ :: e₁ :: e₂ :: rest) (hfound : u.numEntriesFound = n + 3)
    (hd : [e₀, e₁, e₂].Nodup) :
    ∃ t', registerSyscalls u h t = .ok (⟨[e₀, e₁, e₂], u.sysCallTableAddress, u.sysNiSyscallAddress⟩, t') ∧
      [e₀, e₁, e₂].map (t' u.sysCallTableAddress) = h.array ∧
      ∀ e, e ∉ [e₀, e₁, e₂] → t' u.sysCallTableAddress e = t u.sysCallTableAddress e := by
  have hkeys : ([e₀, e₁, e₂].zip h.array).map Prod.fst = [e₀, e₁, e₂] := rfl
  refine ⟨installAll u.sysCallTableAddress t ([e₀, e₁, e₂].zip h.array), ?_, ?_, ?_⟩
  · rw [registerSyscalls, getEntries_fresh u hfree hfound]
  · have hwritten : ∀ e w, (e, w) ∈ [e₀, e₁, e₂].zip h.array →
        installAll u.sysCallTableAddress t ([e₀, e₁, e₂].zip h.array) u.sysCallTableAddress e = w :=
      fun e w hw => installAll_of_mem (hkeys ▸ hd) hw
    rw [List.map_cons, List.map_cons, List.map_cons, List.map_nil,
      hwritten e₀ h.putData (by simp [Handlers.array]), hwritten e₁ h.getData (by simp [Handlers.array]),
      hwritten e₂ h.invalidateData (by simp [Handlers.array])]
    rfl
  · exact fun e he => installAll_of_not_mem (by rwa [hkeys])

/-- **From the discovery to the registration.**  When the module has found a table, the registration of the three
    system calls on what it reports goes through: it writes the three handlers, in order, over three distinct
    entries that refer to `sys_ni_syscall`, none of them among the entries 1 to 133, and changes no other. -/
theorem discovered_then_registered (v : KernelMem) (hT : v.tables.Plain) {u : UsctmParams}
    (hu : v.initModule = .ok u) (h : Handlers) (t : Tables)
    (ht : ∀ e : Nat, e < entriesToExplore →
      t u.sysCallTableAddress e = v.word (u.sysCallTableAddress.toNat + 8 * e)) :
    ∃ m t', registerSyscalls (insmod u) h t = .ok (m, t') ∧
      m.restoreEntries.length = hackedEntries ∧ m.restoreEntries.Nodup ∧
      (∀ e ∈ m.restoreEntries, t u.sysCallTableAddress e = u.sysNiSyscallAddress ∧ (e = 0 ∨ 134 ≤ e)) ∧
      m.restoreEntries.map (t' u.sysCallTableAddress) = h.array ∧
      ∀ e, e ∉ m.restoreEntries → t' u.sysCallTableAddress e = t u.sysCallTableAddress e := by
  obtain ⟨a, hfirst, rfl, hseven⟩ : ∃ a, v.FirstTable a ∧
      u = usctmParams (BitVec.ofNat 64 a) (v.entriesAt a firstNi)
        (usctmScan (v.tableAt a) (v.entriesAt a firstNi)) ∧
      7 ≤ (usctmScan (v.tableAt a) (v.entriesAt a firstNi)).length := by
    rcases initModule_cases v hT with ⟨a, hfirst, -, hok, hseven⟩ | ⟨a, -, hoops, -⟩ | ⟨herr, -⟩
    · rw [hok] at hu
      exact ⟨a, hfirst, (Ret.ok.inj hu).symm, hseven⟩
    · rw [hoops] at hu
      cases hu
    · rw [herr] at hu
      cases hu
  have haddr : (BitVec.ofNat 64 a).toNat = a := by
    have hlt := hfirst.searched.2.1
    rw [BitVec.toNat_ofNat, Nat.mod_eq_of_lt]
    simp only [maxAddr] at hlt
    omega
  -- what is known of a free entry
  have hentry : ∀ e ∈ usctmScan (v.tableAt a) (v.entriesAt a firstNi),
      t (BitVec.ofNat 64 a) e = v.entriesAt a firstNi ∧ (e = 0 ∨ 134 ≤ e) := by
    intro e he
    obtain ⟨hrange, hni⟩ := List.mem_filter.mp (List.mem_of_mem_take he)
    obtain ⟨k, hk, rfl⟩ := List.mem_map.mp hrange
    have hword : v.entriesAt a k = v.entriesAt a firstNi := of_decide_eq_true hni
    have hread := ht k (List.mem_range.mp hk)
    rw [show (usctmParams (BitVec.ofNat 64 a) (v.entriesAt a firstNi)
      (usctmScan (v.tableAt a) (v.entriesAt a firstNi))).sysCallTableAddress = BitVec.ofNat 64 a from rfl,
      haddr] at hread
    refine ⟨hread.trans hword, ?_⟩
    by_contra hno
    have hk1 : 1 ≤ k ∧ k < firstNi := by
      simp only [firstNi]
      change ¬ ((k : Int) = 0 ∨ 134 ≤ (k : Int)) at hno
      omega
    exact hfirst.candidate.table.elsewhere k hk1.1 hk1.2 hword
  have hnodup := (usctmScan_freeEntries (show hackedEntries ≤ _ from le_trans (by decide) hseven)).nodup
  generalize usctmScan (v.tableAt a) (v.entriesAt a firstNi) = free at hentry hnodup hseven
  match free with
  | [] | [_] | [_, _] => exact absurd hseven (by simp)
  | e₀ :: e₁ :: e₂ :: rest =>
    have hthree : [e₀, e₁, e₂].Nodup := hnodup.sublist (List.sublist_append_left [e₀, e₁, e₂] rest)
    obtain ⟨t', hregister, hwritten, hothers⟩ := registerSyscalls_three (insmod (usctmParams (BitVec.ofNat 64 a)
      (v.entriesAt a firstNi) (e₀ :: e₁ :: e₂ :: rest))) h t rfl rfl hthree
    exact ⟨_, t', hregister, rfl, hthree, fun e he => hentry e (List.mem_append_left rest he), hwritten, hothers⟩

/-- For this kernel, the handlers go over the entries 134, 174 and 182. -/
theorem discovered_then_registered_sample :
    ∃ m t', registerSyscalls (insmod (usctmParams 0xffffffff00000000 0xffffffff81000000
        [134, 174, 182, 183, 214, 215, 236])) ⟨8, 16, 24⟩
        (fun base e => sampleKernel.word (base.toNat + 8 * e.toNat)) = .ok (m, t') ∧
      m.restoreEntries.length = 3 ∧ m.restoreEntries.map (t' 0xffffffff00000000) = [8, 16, 24] := by
  obtain ⟨m, t', hregister, hlen, -, -, hwritten, -⟩ := discovered_then_registered sampleKernel
    sampleKernel_plain sampleKernel_initModule ⟨8, 16, 24⟩
    (fun base e => sampleKernel.word (base.toNat + 8 * e.toNat)) fun e _ => rfl
  exact ⟨m, t', hregister, hlen, hwritten⟩

end KernelMem

end Bldms
