import Mathlib.Data.Finset.Basic
import Acos.Lib.VirtualMemory

/-!
# An array that is larger than the memory

Only one page of the array of square roots is mapped at a time. A read of another page faults, and
the handler unmaps the page it has mapped before, maps the one that is needed and computes all of
its elements. What `sqrt` computes for an `int` is a parameter.
-/

namespace Acos.HugeArray

open ByteMemory VirtualMemory

abbrev Word := BitVec 64

abbrev MAX_SQRTS : Nat := 1 <<< 27

/-- `PAGE_SIZE` and `SQRTS`, with what `sysconf` and the `mmap` of `Setup` guarantee. -/
structure Layout where
  pageSize : Word
  sqrts : Word
  power : ∃ k, pageSize.toNat = 2 ^ k
  eight_dvd : 8 ∣ pageSize.toNat
  dvd_array : pageSize.toNat ∣ 8 * MAX_SQRTS
  aligned : pageSize.toNat ∣ sqrts.toNat
  ne_null : sqrts ≠ 0
  fits : sqrts.toNat + 8 * MAX_SQRTS < 2 ^ 64

structure Machine where
  /-- The numbers of the mapped pages. -/
  pages : Finset Nat
  memory : Memory 64
  prevPage : Word

structure Calls where
  munmap : Word → Bool
  mmap : Word → Bool

inductive Stop where
  | munmapFailed
  | invalidAddress (faultAdr : Word)
  | mmapFailed
  /-- A fault in the handler, where the signal is blocked. -/
  | killed
  /-- The read has been tried too often. -/
  | retries
  deriving DecidableEq

/-! ### The code -/

section Code

variable (l : Layout) (f : BitVec 32 → BitVec 64) (calls : Calls)

def Layout.page (a : Word) : Nat := pageOf l.pageSize.toNat a

/-- The eight bytes from `a` on are mapped. -/
def Machine.Mapped (m : Machine) (a : Word) : Prop := ∀ j < 8, l.page (a + .ofNat 64 j) ∈ m.pages

instance (m : Machine) (a : Word) : Decidable (m.Mapped l a) :=
  inferInstanceAs (Decidable (∀ j < 8, _))

def Machine.store (m : Machine) (a : Word) (v : BitVec 64) : Except Stop Machine :=
  if m.Mapped l a then .ok { m with memory := m.memory.store64 a v } else .error .killed

/-- The first `n` turns of the loop. -/
def calculateSqrts (sqrtPos : Word) (start : BitVec 32) : Nat → Machine → Except Stop Machine
  | 0, m => .ok m
  | n + 1, m => do
      let m ← calculateSqrts sqrtPos start n m
      m.store l (sqrtPos + .ofNat 64 (8 * n)) (f (start + .ofNat 32 n))

def Machine.munmap (m : Machine) (a : Word) : Machine :=
  { m with pages := m.pages.erase (l.page a) }

/-- `MAP_FIXED`: a page of zeros, whatever there was before. -/
def Machine.mmap (m : Machine) (a : Word) : Machine :=
  { m with
    pages := insert (l.page a) m.pages
    memory := fun x => if l.page x = l.page a then 0 else m.memory x }

def Layout.roundDown (a : Word) : Word := a &&& ~~~(l.pageSize - 1)

/-- The index of the first element of a page. -/
def Layout.pos (faultAdr : Word) : BitVec 32 :=
  ((l.pageSize * (faultAdr / l.pageSize) - l.sqrts) / 8).setWidth 32

def Layout.perPage : BitVec 32 := (l.pageSize / 8).setWidth 32

/-- What the handler does first. -/
def unmapPrev (m : Machine) : Except Stop Machine :=
  if m.prevPage ≠ 0 then
    if calls.munmap m.prevPage then .ok (m.munmap l m.prevPage) else .error .munmapFailed
  else .ok m

def handleSigsegv (m : Machine) (siAddr : Word) : Except Stop Machine := do
  let m ← unmapPrev l calls m
  if siAddr < l.sqrts ∨ siAddr ≥ l.sqrts + .ofNat 64 (8 * MAX_SQRTS) then
    .error (.invalidAddress siAddr)
  else
    let faultAdr := l.roundDown siAddr
    if calls.mmap faultAdr then
      let m ← calculateSqrts l f faultAdr (l.pos faultAdr) l.perPage.toInt.toNat
        (m.mmap l faultAdr)
      .ok { m with prevPage := faultAdr }
    else .error .mmapFailed

def Layout.element (i : Nat) : Word := l.sqrts + .ofNat 64 (8 * i)

/-- A read of `SQRTS[i]` that is tried again after each fault: what is read, after how many faults,
and the machine afterwards. -/
def readElement (i : Nat) : Nat → Machine → Except Stop (BitVec 64 × Nat × Machine)
  | 0, m =>
      if m.Mapped l (l.element i) then .ok (m.memory.load64 (l.element i), 0, m)
      else .error .retries
  | retries + 1, m =>
      if m.Mapped l (l.element i) then .ok (m.memory.load64 (l.element i), 0, m)
      else do
        let m ← handleSigsegv l f calls m (l.element i)
        let (value, faults, m) ← readElement i retries m
        .ok (value, faults + 1, m)

def readElements (retries : Nat) :
    List Nat → Machine → Except Stop (List (BitVec 64 × Nat × Machine))
  | [], _ => .ok []
  | i :: rest, m => do
      let (value, faults, m) ← readElement l f calls i retries m
      return (value, faults, m) :: (← readElements retries rest m)

end Code

/-! ### Addresses -/

section Addresses

variable {l : Layout} {i i' j : Nat}

theorem Layout.pageSize_pos : 0 < l.pageSize.toNat := by
  obtain ⟨k, hk⟩ := l.power
  rw [hk]
  exact Nat.two_pow_pos k

theorem Layout.pageSize_le : l.pageSize.toNat ≤ 8 * MAX_SQRTS :=
  Nat.le_of_dvd (by decide) l.dvd_array

theorem add_div_eq {d x p j : Nat} (hx : d ∣ x) (hp : d ∣ p) (hj : j < d) :
    (x + j) / p = x / p := by
  obtain ⟨x, rfl⟩ := hx
  obtain ⟨p, rfl⟩ := hp
  rw [← Nat.div_div_eq_div_mul, ← Nat.div_div_eq_div_mul, Nat.mul_add_div (by omega),
    Nat.div_eq_of_lt hj, Nat.add_zero, Nat.mul_div_cancel_left _ (by omega)]

theorem Layout.toNat_element_add (hi : i < MAX_SQRTS) (hj : j < 8) :
    (l.element i + .ofNat 64 j).toNat = l.sqrts.toNat + 8 * i + j := by
  have hfits := l.fits
  rw [Layout.element, BitVec.toNat_add, BitVec.toNat_add, BitVec.toNat_ofNat, BitVec.toNat_ofNat]
  omega

theorem Layout.toNat_element (hi : i < MAX_SQRTS) :
    (l.element i).toNat = l.sqrts.toNat + 8 * i := by
  have hadd := l.toNat_element_add hi (j := 0) (by decide)
  rwa [BitVec.add_zero, Nat.add_zero] at hadd

theorem Layout.page_element (hi : i < MAX_SQRTS) :
    l.page (l.element i) = (l.sqrts.toNat + 8 * i) / l.pageSize.toNat := by
  rw [Layout.page, pageOf, l.toNat_element hi]

theorem Machine.mapped_element (m : Machine) (hi : i < MAX_SQRTS) :
    m.Mapped l (l.element i) ↔ l.page (l.element i) ∈ m.pages := by
  have hsame : ∀ j < 8, l.page (l.element i + .ofNat 64 j) = l.page (l.element i) := by
    intro j hj
    have height : 8 ∣ l.sqrts.toNat + 8 * i :=
      Nat.dvd_add (Nat.dvd_trans l.eight_dvd l.aligned) (Nat.dvd_mul_right 8 i)
    rw [l.page_element hi, Layout.page, pageOf, l.toNat_element_add hi hj,
      add_div_eq height l.eight_dvd hj]
  constructor
  · intro hmapped
    rw [← hsame 0 (by decide)]
    exact hmapped 0 (by decide)
  · intro hpage j hj
    rw [hsame j hj]
    exact hpage

theorem Layout.toNat_roundDown (a : Word) :
    (l.roundDown a).toNat = l.page a * l.pageSize.toNat := by
  obtain ⟨k, hk⟩ := l.power
  have hpos := l.pageSize_pos
  have hmask : (l.pageSize - 1).toNat = 2 ^ k - 1 := by
    have hone : (1 : Word) ≤ l.pageSize := BitVec.le_def.mpr hpos
    rw [BitVec.toNat_sub_of_le hone, hk]
    rfl
  rw [Layout.roundDown, toNat_and_not a hmask, Layout.page, hk]

theorem Layout.page_roundDown (a : Word) : l.page (l.roundDown a) = l.page a := by
  rw [Layout.page, pageOf, l.toNat_roundDown, Nat.mul_div_cancel _ l.pageSize_pos]

theorem Layout.sqrts_le_roundDown (hi : i < MAX_SQRTS) :
    l.sqrts.toNat ≤ (l.roundDown (l.element i)).toNat := by
  obtain ⟨s, hs⟩ := l.aligned
  rw [l.toNat_roundDown, l.page_element hi, hs, Nat.mul_add_div l.pageSize_pos, Nat.add_mul,
    Nat.mul_comm]
  exact Nat.le_add_right _ _

theorem Layout.pos_roundDown (hi : i < MAX_SQRTS) :
    l.pos (l.roundDown (l.element i))
      = .ofNat 32 (((l.roundDown (l.element i)).toNat - l.sqrts.toNat) / 8) := by
  have hstart : l.pageSize * (l.roundDown (l.element i) / l.pageSize)
      = l.roundDown (l.element i) := by
    apply BitVec.eq_of_toNat_eq
    rw [BitVec.toNat_mul, BitVec.toNat_udiv, l.toNat_roundDown,
      Nat.mul_div_cancel _ l.pageSize_pos, Nat.mul_comm, ← l.toNat_roundDown]
    exact Nat.mod_eq_of_lt (BitVec.isLt _)
  rw [Layout.pos, hstart]
  apply BitVec.eq_of_toNat_eq
  rw [BitVec.toNat_setWidth, BitVec.toNat_udiv,
    BitVec.toNat_sub_of_le (BitVec.le_def.mpr (l.sqrts_le_roundDown hi)), BitVec.toNat_ofNat]
  rfl

theorem Layout.perPage_eq : l.perPage.toInt.toNat = l.pageSize.toNat / 8 := by
  have hle : l.pageSize.toNat ≤ 8 * 2 ^ 27 := l.pageSize_le
  have hvalue : l.perPage.toNat = l.pageSize.toNat / 8 := by
    rw [Layout.perPage, BitVec.toNat_setWidth, BitVec.toNat_udiv]
    change l.pageSize.toNat / 8 % 2 ^ 32 = _
    exact Nat.mod_eq_of_lt (by omega)
  rw [BitVec.toInt_eq_toNat_of_lt (by omega), hvalue, Int.toNat_natCast]

/-- The elements of a page, from its beginning on. -/
theorem Layout.element_eq (hi : i < MAX_SQRTS) (hi' : i' < MAX_SQRTS)
    (hpage : l.page (l.element i') = l.page (l.element i)) :
    ∃ j < l.pageSize.toNat / 8,
      l.element i' = l.roundDown (l.element i) + .ofNat 64 (8 * j)
      ∧ BitVec.ofNat 32 i' = l.pos (l.roundDown (l.element i)) + .ofNat 32 j := by
  have hstart := l.sqrts_le_roundDown hi
  have hvalue := l.toNat_roundDown (l.element i)
  have hbefore : (l.roundDown (l.element i)).toNat ≤ l.sqrts.toNat + 8 * i' := by
    rw [hvalue, ← hpage, l.page_element hi']
    exact Nat.div_mul_le_self _ _
  have hafter : l.sqrts.toNat + 8 * i' < (l.roundDown (l.element i)).toNat + l.pageSize.toNat := by
    rw [hvalue, ← hpage, l.page_element hi']
    exact Nat.lt_div_mul_add l.pageSize_pos
  have hpageSize := l.eight_dvd
  have hdvd : 8 ∣ (l.roundDown (l.element i)).toNat :=
    hvalue ▸ Nat.dvd_mul_left_of_dvd hpageSize _
  have hdvd' : 8 ∣ l.sqrts.toNat := Nat.dvd_trans hpageSize l.aligned
  have helement := l.toNat_element hi'
  refine ⟨(l.sqrts.toNat + 8 * i' - (l.roundDown (l.element i)).toNat) / 8, by omega, ?_, ?_⟩
  · apply BitVec.eq_of_toNat_eq
    have hlt := (l.element i').isLt
    rw [helement, BitVec.toNat_add, BitVec.toNat_ofNat]
    omega
  · rw [l.pos_roundDown hi, ← BitVec.ofNat_add]
    congr 1
    omega

theorem Layout.roundDown_add_le (hi : i < MAX_SQRTS) :
    (l.roundDown (l.element i)).toNat + l.pageSize.toNat ≤ l.sqrts.toNat + 8 * MAX_SQRTS := by
  obtain ⟨t, ht⟩ := Nat.dvd_add l.aligned l.dvd_array
  have hlt : l.page (l.element i) < t := by
    rw [l.page_element hi, Nat.div_lt_iff_lt_mul l.pageSize_pos, Nat.mul_comm t, ← ht]
    omega
  rw [l.toNat_roundDown, ht, ← Nat.succ_mul, Nat.mul_comm]
  exact Nat.mul_le_mul_left _ hlt

theorem Machine.mapped_slot {m : Machine} (hi : i < MAX_SQRTS)
    (hpage : l.page (l.element i) ∈ m.pages) (hj : j < l.pageSize.toNat / 8) :
    m.Mapped l (l.roundDown (l.element i) + .ofNat 64 (8 * j)) := by
  intro b hb
  have hend := l.roundDown_add_le hi
  have hfits := l.fits
  have hvalue : (l.roundDown (l.element i) + .ofNat 64 (8 * j) + .ofNat 64 b).toNat
      = l.page (l.element i) * l.pageSize.toNat + (8 * j + b) := by
    rw [BitVec.toNat_add, BitVec.toNat_add, BitVec.toNat_ofNat, BitVec.toNat_ofNat,
      ← l.toNat_roundDown]
    omega
  have hslot : l.page (l.roundDown (l.element i) + .ofNat 64 (8 * j) + .ofNat 64 b)
      = l.page (l.element i) := by
    rw [Layout.page, pageOf, hvalue, Nat.mul_comm, Nat.mul_add_div l.pageSize_pos,
      Nat.div_eq_of_lt (by omega), Nat.add_zero]
  rw [hslot]
  exact hpage

end Addresses

/-! ### The handler -/

section Handler

variable {l : Layout} {f : BitVec 32 → BitVec 64} {calls : Calls} {m : Machine} {i : Nat}

theorem Machine.store_ok {a : Word} {v : BitVec 64} (hmapped : m.Mapped l a) :
    m.store l a v = .ok { m with memory := m.memory.store64 a v } := if_pos hmapped

theorem calculateSqrts_ok (sqrtPos : Word) (start : BitVec 32) {n : Nat} (hn : 8 * n ≤ 2 ^ 64)
    (hmapped : ∀ j < n, m.Mapped l (sqrtPos + .ofNat 64 (8 * j))) :
    ∃ m', calculateSqrts l f sqrtPos start n m = .ok m' ∧ m'.pages = m.pages
      ∧ ∀ j < n, m'.memory.load64 (sqrtPos + .ofNat 64 (8 * j)) = f (start + .ofNat 32 j) := by
  induction n with
  | zero => exact ⟨m, rfl, rfl, nofun⟩
  | succ n ih =>
      obtain ⟨m', hok, hpages, helements⟩ := ih (by omega) fun j hj => hmapped j (by omega)
      have hlast : m'.Mapped l (sqrtPos + .ofNat 64 (8 * n)) := by
        intro b hb
        rw [hpages]
        exact hmapped n (Nat.lt_succ_self n) b hb
      have hstep : calculateSqrts l f sqrtPos start (n + 1) m
          = m'.store l (sqrtPos + .ofNat 64 (8 * n)) (f (start + .ofNat 32 n)) := by
        rw [calculateSqrts, hok]
        rfl
      refine ⟨_, hstep.trans (Machine.store_ok hlast), hpages, ?_⟩
      intro j hj
      rcases Nat.lt_succ_iff_lt_or_eq.mp hj with hlt | rfl
      · rw [← helements j hlt]
        apply Memory.load64_store64_of_apart (by decide)
        exact .of_add (by omega) (by omega)
      · exact Memory.load64_store64 _ _ _ (by decide)

/-- The pages of the array that are mapped are the recorded one, and it holds its elements. -/
structure Resident (l : Layout) (f : BitVec 32 → BitVec 64) (m : Machine) : Prop where
  recorded : ∀ i < MAX_SQRTS, l.page (l.element i) ∈ m.pages →
    m.prevPage = l.roundDown (l.element i)
  mapped : m.prevPage ≠ 0 → l.page m.prevPage ∈ m.pages
  elements : ∀ i < MAX_SQRTS, l.page (l.element i) ∈ m.pages →
    m.memory.load64 (l.element i) = f (.ofNat 32 i)

theorem Resident.page_eq (hresident : Resident l f m) (hi : i < MAX_SQRTS)
    (hpage : l.page (l.element i) ∈ m.pages) : l.page (l.element i) = l.page m.prevPage := by
  rw [hresident.recorded i hi hpage, l.page_roundDown]

theorem Layout.roundDown_ne_null (hi : i < MAX_SQRTS) : l.roundDown (l.element i) ≠ 0 := by
  intro hnull
  have hstart := l.sqrts_le_roundDown hi
  rw [hnull] at hstart
  exact l.ne_null (BitVec.eq_of_toNat_eq (Nat.le_zero.mp hstart))

/-- The calls that the handler makes succeed. -/
structure Calls.Succeed (calls : Calls) : Prop where
  munmap : ∀ a, calls.munmap a = true
  mmap : ∀ a, calls.mmap a = true

theorem unmapPrev_ok (hcalls : calls.Succeed) (hresident : Resident l f m) :
    ∃ m', unmapPrev l calls m = .ok m'
      ∧ ∀ i < MAX_SQRTS, l.page (l.element i) ∉ m'.pages := by
  by_cases hprev : m.prevPage = 0
  · refine ⟨m, if_neg (not_not.mpr hprev), fun i hi hpage => ?_⟩
    exact l.roundDown_ne_null hi ((hresident.recorded i hi hpage).symm.trans hprev)
  · refine ⟨m.munmap l m.prevPage, ?_, fun i hi hpage => ?_⟩
    · rw [unmapPrev, if_pos hprev, if_pos (hcalls.munmap _)]
    · obtain ⟨hne, hmem⟩ := Finset.mem_erase.mp hpage
      exact hne (hresident.page_eq hi hmem)

theorem element_inside (hi : i < MAX_SQRTS) :
    ¬(l.element i < l.sqrts ∨ l.element i ≥ l.sqrts + .ofNat 64 (8 * MAX_SQRTS)) := by
  have hfits := l.fits
  have hend : (l.sqrts + .ofNat 64 (8 * MAX_SQRTS)).toNat = l.sqrts.toNat + 8 * MAX_SQRTS := by
    rw [BitVec.toNat_add, BitVec.toNat_ofNat]
    omega
  rw [BitVec.lt_def, ge_iff_le, BitVec.le_def, hend, l.toNat_element hi]
  omega

theorem handleSigsegv_resident (hcalls : calls.Succeed) (hresident : Resident l f m)
    (hi : i < MAX_SQRTS) :
    ∃ m', handleSigsegv l f calls m (l.element i) = .ok m' ∧ Resident l f m'
      ∧ l.page (l.element i) ∈ m'.pages := by
  obtain ⟨m₁, hunmap, hnone⟩ := unmapPrev_ok hcalls hresident
  have hpage : l.page (l.element i) ∈ (m₁.mmap l (l.roundDown (l.element i))).pages := by
    rw [← l.page_roundDown]
    exact Finset.mem_insert_self _ _
  have hperPage := l.perPage_eq
  have hsize : 8 * l.perPage.toInt.toNat ≤ 2 ^ 64 := by
    have hle : l.pageSize.toNat ≤ 8 * 2 ^ 27 := l.pageSize_le
    omega
  obtain ⟨m', hok, hpages, helements⟩ := calculateSqrts_ok (f := f) (l.roundDown (l.element i))
    (l.pos (l.roundDown (l.element i))) hsize
    fun j hj => Machine.mapped_slot hi hpage (hperPage ▸ hj)
  -- the only page of the array that is mapped now
  have honly : ∀ i' < MAX_SQRTS, l.page (l.element i') ∈ m'.pages →
      l.page (l.element i') = l.page (l.element i) := by
    intro i' hi' hmem
    rw [hpages] at hmem
    rcases Finset.mem_insert.mp hmem with heq | hold
    · rw [heq, l.page_roundDown]
    · exact absurd hold (hnone i' hi')
  refine ⟨{ m' with prevPage := l.roundDown (l.element i) }, ?_, ⟨?_, ?_, ?_⟩, hpages ▸ hpage⟩
  · rw [handleSigsegv, hunmap]
    change (if _ then _ else _) = _
    rw [if_neg (element_inside hi)]
    change (if _ then _ else _) = _
    rw [if_pos (hcalls.mmap _), hok]
    rfl
  · intro i' hi' hmem
    apply BitVec.eq_of_toNat_eq
    rw [l.toNat_roundDown, l.toNat_roundDown, honly i' hi' hmem]
  · intro _
    rw [l.page_roundDown]
    exact hpages ▸ hpage
  · intro i' hi' hmem
    obtain ⟨j, hj, haddress, hindex⟩ := l.element_eq hi hi' (honly i' hi' hmem)
    rw [haddress, hindex]
    exact helements j (hperPage ▸ hj)

end Handler

/-! ### Reads -/

section Reads

variable {l : Layout} {f : BitVec 32 → BitVec 64} {calls : Calls} {m : Machine} {i : Nat}

theorem readElement_resident (hcalls : calls.Succeed) (hresident : Resident l f m)
    (hi : i < MAX_SQRTS) (retries : Nat) :
    ∃ faults m', readElement l f calls i (retries + 1) m = .ok (f (.ofNat 32 i), faults, m')
      ∧ faults ≤ 1 ∧ Resident l f m' := by
  rw [readElement]
  by_cases hmapped : m.Mapped l (l.element i)
  · rw [if_pos hmapped, hresident.elements i hi ((m.mapped_element hi).mp hmapped)]
    exact ⟨0, m, rfl, Nat.zero_le 1, hresident⟩
  · obtain ⟨m', hhandle, hresident', hpage⟩ := handleSigsegv_resident hcalls hresident hi
    have hagain : readElement l f calls i retries m' = .ok (f (.ofNat 32 i), 0, m') := by
      have hmapped' := (m'.mapped_element hi).mpr hpage
      rw [← hresident'.elements i hi hpage]
      cases retries with
      | zero => exact if_pos hmapped'
      | succ retries => exact if_pos hmapped'
    refine ⟨1, m', ?_, le_rfl, hresident'⟩
    rw [if_neg hmapped, hhandle]
    change (readElement l f calls i retries m' >>= _) = _
    rw [hagain]
    rfl

theorem readElements_resident (hcalls : calls.Succeed) (retries : Nat) {reads : List Nat}
    (hreads : ∀ i ∈ reads, i < MAX_SQRTS) (hresident : Resident l f m) :
    ∃ results, readElements l f calls (retries + 1) reads m = .ok results
      ∧ List.Forall₂ (fun i result => result.1 = f (.ofNat 32 i) ∧ result.2.1 ≤ 1
        ∧ Resident l f result.2.2) reads results := by
  induction reads generalizing m with
  | nil => exact ⟨[], rfl, .nil⟩
  | cons i rest ih =>
      obtain ⟨faults, m', hread, hfaults, hresident'⟩ :=
        readElement_resident hcalls hresident (hreads i List.mem_cons_self) retries
      obtain ⟨results, hrest, hresults⟩ :=
        ih (fun i hi => hreads i (List.mem_cons_of_mem _ hi)) hresident'
      refine ⟨(f (.ofNat 32 i), faults, m') :: results, ?_,
        .cons ⟨rfl, hfaults, hresident'⟩ hresults⟩
      rw [readElements, hread]
      change (readElements l f calls (retries + 1) rest m' >>= _) = _
      rw [hrest]
      rfl

end Reads

/-- Every read faults at most once and gives the value of its index, and after each one at most one
page of the array is mapped, the one in `prev_page`, with all of its elements. -/
theorem demand_paging (l : Layout) (f : BitVec 32 → BitVec 64) (calls : Calls) (start : Machine)
    (reads : List Nat) (retries : Nat) (hcalls : calls.Succeed) (hprev : start.prevPage = 0)
    (hfree : ∀ i < MAX_SQRTS, l.page (l.element i) ∉ start.pages)
    (hreads : ∀ i ∈ reads, i < MAX_SQRTS) :
    ∃ results, readElements l f calls (retries + 1) reads start = .ok results
      ∧ List.Forall₂ (fun i result => result.1 = f (.ofNat 32 i) ∧ result.2.1 ≤ 1
        ∧ (∀ i < MAX_SQRTS, ∀ j < MAX_SQRTS, l.page (l.element i) ∈ result.2.2.pages →
          l.page (l.element j) ∈ result.2.2.pages → l.page (l.element i) = l.page (l.element j))
        ∧ Resident l f result.2.2) reads results := by
  have hresident : Resident l f start :=
    ⟨fun i hi hpage => absurd hpage (hfree i hi), fun hne => absurd hprev hne,
      fun i hi hpage => absurd hpage (hfree i hi)⟩
  obtain ⟨results, hok, hresults⟩ := readElements_resident hcalls retries hreads hresident
  refine ⟨results, hok, hresults.imp ?_⟩
  rintro i ⟨value, faults, m⟩ ⟨hvalue, hfaults, hresident⟩
  refine ⟨hvalue, hfaults, fun i hi j hj hpage hpage' => ?_, hresident⟩
  rw [hresident.page_eq hi hpage, hresident.page_eq hj hpage']

/-- Pages of 4096 bytes. -/
def sampleLayout : Layout where
  pageSize := 4096
  sqrts := 0x7F0000000000
  power := ⟨12, rfl⟩
  eight_dvd := by decide
  dvd_array := by decide
  aligned := by decide
  ne_null := by decide
  fits := by decide

/-- Two elements of a page, one of another and the first again. -/
theorem demand_paging_back :
    ∃ results, readElements sampleLayout (BitVec.setWidth 64) ⟨fun _ => true, fun _ => true⟩ 1
        [0, 511, 512, 0] ⟨∅, fun _ => 0, 0⟩ = .ok results
      ∧ results.map Prod.fst = [0, 511, 512, 0] := by
  have hcalls : Calls.Succeed ⟨fun _ => true, fun _ => true⟩ := ⟨fun _ => rfl, fun _ => rfl⟩
  obtain ⟨results, hok, hresults⟩ := demand_paging sampleLayout (BitVec.setWidth 64) _
    ⟨∅, fun _ => 0, 0⟩ [0, 511, 512, 0] 0 hcalls rfl (fun i _ => Finset.notMem_empty _) (by decide)
  have hvalues : List.Forall₂ (fun result i => result.1 = BitVec.setWidth 64 (BitVec.ofNat 32 i))
      results [0, 511, 512, 0] := (hresults.imp fun _ _ hresult => hresult.1).flip
  exact ⟨results, hok, List.forall₂_eq_eq_eq ▸ List.forall₂_map_left_iff.mpr
    (List.forall₂_map_right_iff.mpr hvalues)⟩

end Acos.HugeArray
