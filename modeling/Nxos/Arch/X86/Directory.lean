import Nxos.Arch.X86.Model
import Mathlib.Data.Fintype.Card
import Mathlib.Data.Finset.Card

/-!
# Directory, tables and leaves

The pages of the directory, of its tables and of the mapped memory are different, and a
table has a reference for itself besides one for each used entry.  Three changes of the
state keep that: a page is handed out, an entry of the directory gets a new table, and
an entry of a table is written.

The hardware grants write access, or access from user mode, to a page if the entries
of the directory and of the table both allow it.
-/

namespace Nxos.X86

/-! ## Entries -/

def accessBits : BitVec 32 := pteW ||| pteU

def AttrBits (attr : BitVec 32) : Prop :=
  attr &&& ~~~pageMask = 0#32

theorem pageAddr_and_pageMask (page : ℕ) : pageAddr page &&& pageMask = 0#32 := by
  rw [← BitVec.toNat_inj, BitVec.toNat_and]
  have hmask : pageMask.toNat = 2 ^ 12 - 1 := rfl
  rw [hmask, Nat.and_two_pow_sub_one_eq_mod]
  unfold pageAddr
  rw [BitVec.toNat_ofNat, BitVec.toNat_ofNat]
  omega

theorem paddr2Pte_pageAddr (page : ℕ) : paddr2Pte (pageAddr page) = pageAddr page := by
  have hzero := pageAddr_and_pageMask page
  unfold paddr2Pte
  apply BitVec.eq_of_getLsbD_eq
  intro i hi
  have hbit := congrArg (fun x => BitVec.getLsbD x i) hzero
  simp only [BitVec.getLsbD_and, BitVec.getLsbD_zero] at hbit
  rw [BitVec.getLsbD_and, BitVec.getLsbD_not]
  cases hpage : (pageAddr page).getLsbD i <;> simp_all

theorem pageOf_entry {page : ℕ} {attr : BitVec 32} (hpage : page < 2 ^ 20)
    (hattr : AttrBits attr) :
    pageOf (pte2Paddr (paddr2Pte (pageAddr page) ||| attr)) = page := by
  have haddr : pte2Paddr (paddr2Pte (pageAddr page) ||| attr) = pageAddr page := by
    unfold pte2Paddr
    rw [BitVec.and_or_distrib_right, hattr, BitVec.or_zero, paddr2Pte_pageAddr]
    exact paddr2Pte_pageAddr page
  rw [haddr]
  unfold pageOf pageAddr
  rw [BitVec.toNat_ofNat]
  omega

theorem entry_and {page : ℕ} {attr m : BitVec 32} (hm : pageMask &&& m = m) :
    (paddr2Pte (pageAddr page) ||| attr) &&& m = attr &&& m := by
  have hzero : pageAddr page &&& m = 0#32 := by
    rw [← hm, ← BitVec.and_assoc, pageAddr_and_pageMask, BitVec.zero_and]
  rw [paddr2Pte_pageAddr, BitVec.and_or_distrib_right, hzero, BitVec.zero_or]

theorem pteUsed_entry {page : ℕ} {attr : BitVec 32} :
    pteUsed (paddr2Pte (pageAddr page) ||| attr) = pteUsed attr := by
  unfold pteUsed
  rw [entry_and (by decide)]

/-! ## Memory -/

theorem write_mem (σ : MmuState) (pte : PtePtr) (x : BitVec 32) (t : ℕ) (k : Fin 1024) :
    (σ.write pte x).mem t k = if t = pte.table ∧ k = pte.idx then x else σ.mem t k := by
  unfold MmuState.write
  by_cases ht : t = pte.table
  · subst ht
    by_cases hk : k = pte.idx
    · simp [hk]
    · simp [hk]
  · simp [ht]

theorem zero_mem (σ : MmuState) (page t : ℕ) (k : Fin 1024) :
    (σ.zero page).mem t k = if t = page then 0 else σ.mem t k := by
  unfold MmuState.zero
  by_cases ht : t = page
  · simp [ht]
  · simp [ht]

@[simp] theorem pageIncrease_mem (zone : ℕ → Bool) (σ : MmuState) (page : ℕ) :
    (pageIncrease zone σ page).mem = σ.mem := by
  unfold pageIncrease
  split <;> rfl

@[simp] theorem pageIncrease_supply (zone : ℕ → Bool) (σ : MmuState) (page : ℕ) :
    (pageIncrease zone σ page).supply = σ.supply := by
  unfold pageIncrease
  split <;> rfl

@[simp] theorem pageIncrease_mapped (zone : ℕ → Bool) (σ : MmuState) (page : ℕ) :
    (pageIncrease zone σ page).mapped = σ.mapped := by
  unfold pageIncrease
  split <;> rfl

theorem pageIncrease_reference_of_ne (zone : ℕ → Bool) (σ : MmuState) {page p : ℕ}
    (h : p ≠ page) : (pageIncrease zone σ page).reference p = σ.reference p := by
  unfold pageIncrease
  split
  · exact Function.update_of_ne h ..
  · rfl

theorem pageIncrease_reference_self {zone : ℕ → Bool} (σ : MmuState) {page : ℕ}
    (h : zone page = true) :
    (pageIncrease zone σ page).reference page = σ.reference page + 1 := by
  unfold pageIncrease
  rw [if_pos h]
  exact Function.update_self ..

def usedEntries (mem : ℕ → Fin 1024 → BitVec 32) (table : ℕ) : ℕ :=
  (Finset.univ.filter fun i => pteUsed (mem table i) = true).card

theorem usedEntries_congr {mem mem' : ℕ → Fin 1024 → BitVec 32} {table : ℕ}
    (h : ∀ k, mem' table k = mem table k) : usedEntries mem' table = usedEntries mem table := by
  unfold usedEntries
  simp only [h]

theorem usedEntries_write_le (σ : MmuState) (pte : PtePtr) (x : BitVec 32) :
    usedEntries (σ.write pte x).mem pte.table ≤ usedEntries σ.mem pte.table + 1 := by
  unfold usedEntries
  refine Nat.le_trans (Finset.card_le_card ?_) (Finset.card_insert_le pte.idx _)
  intro k hk
  rw [Finset.mem_filter, write_mem] at hk
  rw [Finset.mem_insert, Finset.mem_filter]
  by_cases hidx : k = pte.idx
  · exact Or.inl hidx
  · rw [if_neg fun h => hidx h.2] at hk
    exact Or.inr hk

theorem usedEntries_write_unused (σ : MmuState) (pte : PtePtr) {x : BitVec 32}
    (hold : pteUsed (σ.read pte) = true) (hnew : pteUsed x = false) :
    usedEntries (σ.write pte x).mem pte.table + 1 = usedEntries σ.mem pte.table := by
  unfold usedEntries
  have hset : (Finset.univ.filter fun i =>
      pteUsed ((σ.write pte x).mem pte.table i) = true) =
      (Finset.univ.filter fun i => pteUsed (σ.mem pte.table i) = true).erase pte.idx := by
    ext k
    simp only [write_mem, Finset.mem_erase, Finset.mem_filter, Finset.mem_univ, true_and]
    by_cases hk : k = pte.idx
    · simp [hk, hnew]
    · simp [hk]
  rw [hset]
  refine Finset.card_erase_add_one ?_
  rw [Finset.mem_filter]
  exact ⟨Finset.mem_univ _, hold⟩

/-! ## Tables and leaves -/

section State

variable (root : ℕ) (σ : MmuState)

def MmuState.tableAt (d : Fin 1024) : ℕ :=
  pageOf (pte2Paddr (σ.mem root d))

def MmuState.entryAt (v : VirPage) : BitVec 32 :=
  σ.mem (σ.tableAt root v.1) v.2

def MmuState.leafAt (v : VirPage) : ℕ :=
  pageOf (pte2Paddr (σ.entryAt root v))

def MmuState.HasTable (d : Fin 1024) : Prop :=
  pteUsed (σ.mem root d) = true

def MmuState.Present (v : VirPage) : Prop :=
  σ.HasTable root v.1 ∧ pteUsed (σ.entryAt root v) = true

def MmuState.access (v : VirPage) : BitVec 32 :=
  (σ.mem root v.1 &&& σ.entryAt root v) &&& accessBits

end State

variable {zone : ℕ → Bool} {root : ℕ} {σ τ : MmuState}

/-- Tables and leaves are pages of their own, and a table has a reference for itself and
one for each used entry. -/
structure DirInv (zone : ℕ → Bool) (root : ℕ) (σ : MmuState) : Prop where
  table : ∀ d, σ.HasTable root d → σ.tableAt root d ≠ root ∧ zone (σ.tableAt root d) = true ∧
    usedEntries σ.mem (σ.tableAt root d) + 1 ≤ σ.reference (σ.tableAt root d)
  table_inj : ∀ d e, σ.HasTable root d → σ.HasTable root e →
    σ.tableAt root d = σ.tableAt root e → d = e
  leaf : ∀ v, σ.Present root v → 1 ≤ σ.reference (σ.leafAt root v) ∧ σ.leafAt root v ≠ root ∧
    ∀ d, σ.HasTable root d → σ.leafAt root v ≠ σ.tableAt root d
  leaf_inj : ∀ v w, σ.Present root v → σ.Present root w →
    σ.leafAt root v = σ.leafAt root w → v = w
  fresh : ∀ p ∈ σ.supply, p < 2 ^ 20 ∧ zone p = true ∧ p ≠ root ∧ σ.reference p = 0
  nodup : σ.supply.Nodup

/-- The record tells which pages the hardware finds, and the access it grants to them. -/
structure AccessExact (root : ℕ) (σ : MmuState) : Prop where
  absent : ∀ v, σ.mapped v = none → ¬σ.Present root v
  present : ∀ v attr, σ.mapped v = some attr → σ.Present root v ∧
    σ.access root v = attr &&& accessBits

structure FreshPage (zone : ℕ → Bool) (root : ℕ) (σ : MmuState) (p : ℕ) : Prop where
  bound : p < 2 ^ 20
  zone : zone p = true
  ne_root : p ≠ root
  reference : 1 ≤ σ.reference p
  table : ∀ d, σ.HasTable root d → σ.tableAt root d ≠ p
  leaf : ∀ v, σ.Present root v → σ.leafAt root v ≠ p
  supply : p ∉ σ.supply

/-- The used entries of the directory and the tables behind them did not change. -/
structure SameTables (root : ℕ) (σ τ : MmuState) : Prop where
  hasTable : ∀ d, τ.HasTable root d ↔ σ.HasTable root d
  dir : ∀ d, σ.HasTable root d → τ.mem root d = σ.mem root d
  tables : ∀ d, σ.HasTable root d → τ.mem (σ.tableAt root d) = σ.mem (σ.tableAt root d)

namespace SameTables

theorem tableAt (h : SameTables root σ τ) {d : Fin 1024} (hd : σ.HasTable root d) :
    τ.tableAt root d = σ.tableAt root d := by
  unfold MmuState.tableAt
  rw [h.dir d hd]

theorem entryAt (h : SameTables root σ τ) {v : VirPage} (hv : σ.HasTable root v.1) :
    τ.entryAt root v = σ.entryAt root v := by
  unfold MmuState.entryAt
  rw [h.tableAt hv, h.tables v.1 hv]

theorem present (h : SameTables root σ τ) (v : VirPage) :
    τ.Present root v ↔ σ.Present root v := by
  unfold MmuState.Present
  rw [h.hasTable]
  constructor
  · rintro ⟨htable, hused⟩
    exact ⟨htable, h.entryAt htable ▸ hused⟩
  · rintro ⟨htable, hused⟩
    exact ⟨htable, (h.entryAt htable).symm ▸ hused⟩

theorem leafAt (h : SameTables root σ τ) {v : VirPage} (hv : σ.HasTable root v.1) :
    τ.leafAt root v = σ.leafAt root v := by
  unfold MmuState.leafAt
  rw [h.entryAt hv]

/-- The invariant depends on the tables, and on references that may grow where they are
in use. -/
theorem dirInv (h : SameTables root σ τ) (hinv : DirInv zone root σ)
    (htable : ∀ d, σ.HasTable root d →
      σ.reference (σ.tableAt root d) ≤ τ.reference (σ.tableAt root d))
    (hleaf : ∀ v, σ.Present root v → 1 ≤ τ.reference (σ.leafAt root v))
    (hfresh : ∀ p ∈ τ.supply, p ∈ σ.supply ∧ τ.reference p = 0) (hnodup : τ.supply.Nodup) :
    DirInv zone root τ where
  table := by
    intro d hd
    rw [h.hasTable] at hd
    obtain ⟨hne, hzone, hused⟩ := hinv.table d hd
    rw [h.tableAt hd, usedEntries_congr fun k => by rw [h.tables d hd]]
    exact ⟨hne, hzone, Nat.le_trans hused (htable d hd)⟩
  table_inj := by
    intro d e hd he heq
    rw [h.hasTable] at hd he
    rw [h.tableAt hd, h.tableAt he] at heq
    exact hinv.table_inj d e hd he heq
  leaf := by
    intro v hv
    rw [h.present] at hv
    obtain ⟨-, hne, htables⟩ := hinv.leaf v hv
    rw [h.leafAt hv.1]
    refine ⟨hleaf v hv, hne, fun d hd => ?_⟩
    rw [h.hasTable] at hd
    rw [h.tableAt hd]
    exact htables d hd
  leaf_inj := by
    intro v w hv hw heq
    rw [h.present] at hv hw
    rw [h.leafAt hv.1, h.leafAt hw.1] at heq
    exact hinv.leaf_inj v w hv hw heq
  fresh := by
    intro p hp
    obtain ⟨hbound, hzone, hne, -⟩ := hinv.fresh p (hfresh p hp).1
    exact ⟨hbound, hzone, hne, (hfresh p hp).2⟩
  nodup := hnodup

theorem accessExact (h : SameTables root σ τ) (hinv : AccessExact root σ)
    (hmapped : τ.mapped = σ.mapped) : AccessExact root τ where
  absent := by
    intro v hv
    rw [h.present]
    exact hinv.absent v (hmapped ▸ hv)
  present := by
    intro v attr hv
    obtain ⟨hpresent, haccess⟩ := hinv.present v attr (hmapped ▸ hv)
    refine ⟨(h.present v).mpr hpresent, ?_⟩
    unfold MmuState.access
    rw [h.dir v.1 hpresent.1, h.entryAt hpresent.1]
    exact haccess

theorem freshPage (h : SameTables root σ τ) {p : ℕ} (hp : FreshPage zone root σ p)
    (hreference : σ.reference p ≤ τ.reference p) (hsupply : ∀ q ∈ τ.supply, q ∈ σ.supply) :
    FreshPage zone root τ p where
  bound := hp.bound
  zone := hp.zone
  ne_root := hp.ne_root
  reference := Nat.le_trans hp.reference hreference
  table := by
    intro d hd
    rw [h.hasTable] at hd
    rw [h.tableAt hd]
    exact hp.table d hd
  leaf := by
    intro v hv
    rw [h.present] at hv
    rw [h.leafAt hv.1]
    exact hp.leaf v hv
  supply := fun hmem => hp.supply (hsupply p hmem)

end SameTables

/-! ## Pages -/

theorem pageAlloc_eq_some {p : ℕ} (h : pageAlloc σ = (some p, τ)) :
    ∃ rest, σ.supply = p :: rest ∧
      τ = { σ with supply := rest, reference := Function.update σ.reference p 1 } := by
  unfold pageAlloc at h
  cases hsupply : σ.supply with
  | nil =>
      rw [hsupply] at h
      cases h
  | cons q rest =>
      rw [hsupply] at h
      cases h
      exact ⟨rest, rfl, rfl⟩

theorem pageAlloc_eq_none (h : pageAlloc σ = (none, τ)) : τ = σ := by
  unfold pageAlloc at h
  split at h <;> cases h
  rfl

theorem DirInv.pageAlloc (hinv : DirInv zone root σ) {p : ℕ}
    (h : pageAlloc σ = (some p, τ)) :
    DirInv zone root τ ∧ FreshPage zone root τ p ∧ SameTables root σ τ ∧
      τ.mapped = σ.mapped ∧ p ∈ σ.supply ∧ (∀ q ∈ τ.supply, q ∈ σ.supply) ∧
      ∀ q, q ≠ p → τ.reference q = σ.reference q := by
  obtain ⟨rest, hsupply, rfl⟩ := pageAlloc_eq_some h
  have hmem : p ∈ σ.supply := hsupply ▸ List.mem_cons_self ..
  obtain ⟨hbound, hzone, hroot, hzero⟩ := hinv.fresh p hmem
  have hnodup := hinv.nodup
  rw [hsupply, List.nodup_cons] at hnodup
  have htable : ∀ d, σ.HasTable root d → σ.tableAt root d ≠ p := by
    intro d hd heq
    have hle := (hinv.table d hd).2.2
    rw [heq, hzero] at hle
    omega
  have hleaf : ∀ v, σ.Present root v → σ.leafAt root v ≠ p := by
    intro v hv heq
    have hle := (hinv.leaf v hv).1
    rw [heq, hzero] at hle
    omega
  have hother : ∀ q, q ≠ p → Function.update σ.reference p 1 q = σ.reference q :=
    fun q hq => Function.update_of_ne hq ..
  have hrest : ∀ q ∈ rest, q ∈ σ.supply := by
    intro q hq
    rw [hsupply]
    exact List.mem_cons_of_mem _ hq
  have hsame : SameTables root σ
      { σ with supply := rest, reference := Function.update σ.reference p 1 } :=
    ⟨fun _ => Iff.rfl, fun _ _ => rfl, fun _ _ => rfl⟩
  refine ⟨hsame.dirInv hinv ?_ ?_ ?_ hnodup.2, ?_, hsame, rfl, hmem, hrest, hother⟩
  · intro d hd
    exact Nat.le_of_eq (hother _ (htable d hd)).symm
  · intro v hv
    dsimp only
    rw [hother _ (hleaf v hv)]
    exact (hinv.leaf v hv).1
  · intro q hq
    refine ⟨hrest q hq, ?_⟩
    dsimp only
    rw [hother q (by rintro rfl; exact hnodup.1 hq)]
    exact (hinv.fresh q (hrest q hq)).2.2.2
  · refine ⟨hbound, hzone, hroot, ?_, htable, hleaf, hnodup.1⟩
    dsimp only
    rw [Function.update_self]

/-- `NX_PageFree` takes away one reference, or does nothing. -/
theorem pageFree_ok {page : ℕ} {err : NxError} (h : pageFree zone σ page = .ok (err, τ)) :
    (err ≠ .eok ∧ τ = σ ∧ (zone page = true → σ.reference page = 0)) ∨
    (0 < σ.reference page ∧ (err = .eok → σ.reference page = 1) ∧
      τ = { σ with
        reference := Function.update σ.reference page (σ.reference page - 1) }) := by
  unfold pageFree at h
  obtain ⟨-, -, h⟩ := exec_bind_eq_ok_iff.mp h
  cases hzone : zone page with
  | false =>
      simp only [hzone, Bool.not_false, if_true, exec_pure] at h
      cases h
      exact Or.inl ⟨nofun, rfl, nofun⟩
  | true =>
      simp only [hzone, Bool.not_true, Bool.false_eq_true, if_false] at h
      by_cases hzero : σ.reference page = 0
      · rw [if_pos hzero] at h
        cases h
        exact Or.inl ⟨nofun, rfl, fun _ => hzero⟩
      · rw [if_neg hzero] at h
        right
        simp only [Function.update_self] at h
        split_ifs at h with hpos
        · cases h
          exact ⟨by omega, nofun, rfl⟩
        · cases h
          exact ⟨by omega, fun _ => by omega, rfl⟩

/-- What `NX_PageFree` leaves alone. -/
theorem pageFree_frame {page : ℕ} {err : NxError} (h : pageFree zone σ page = .ok (err, τ)) :
    τ.mem = σ.mem ∧ τ.supply = σ.supply ∧ τ.mapped = σ.mapped ∧
      ∀ q, q ≠ page → τ.reference q = σ.reference q := by
  rcases pageFree_ok h with ⟨-, rfl, -⟩ | ⟨-, -, rfl⟩
  · exact ⟨rfl, rfl, rfl, fun _ _ => rfl⟩
  · exact ⟨rfl, rfl, rfl, fun q hq => Function.update_of_ne hq ..⟩

theorem DirInv.pageFree_off (hinv : DirInv zone root σ) {page : ℕ} {err : NxError}
    (htable : ∀ d, σ.HasTable root d → σ.tableAt root d ≠ page)
    (hleaf : ∀ v, σ.Present root v → σ.leafAt root v ≠ page)
    (h : pageFree zone σ page = .ok (err, τ)) :
    DirInv zone root τ ∧ SameTables root σ τ ∧ τ.mapped = σ.mapped := by
  rcases pageFree_ok h with ⟨-, rfl, -⟩ | ⟨hpos, -, rfl⟩
  · exact ⟨hinv, ⟨fun _ => Iff.rfl, fun _ _ => rfl, fun _ _ => rfl⟩, rfl⟩
  · have hsame : SameTables root σ { σ with
        reference := Function.update σ.reference page (σ.reference page - 1) } :=
      ⟨fun _ => Iff.rfl, fun _ _ => rfl, fun _ _ => rfl⟩
    refine ⟨hsame.dirInv hinv ?_ ?_ ?_ hinv.nodup, hsame, rfl⟩
    · intro d hd
      exact Nat.le_of_eq (Function.update_of_ne (htable d hd) ..).symm
    · intro v hv
      dsimp only
      rw [Function.update_of_ne (hleaf v hv)]
      exact (hinv.leaf v hv).1
    · intro q hq
      have hzero := (hinv.fresh q hq).2.2.2
      refine ⟨hq, ?_⟩
      dsimp only
      rw [Function.update_of_ne]
      · exact hzero
      · rintro rfl
        omega

/-! ## New tables -/

/-- The state after an entry of the directory got the page `t` as its table. -/
def newTable (zone : ℕ → Bool) (root : ℕ) (σ : MmuState) (d : Fin 1024) (t : ℕ)
    (attr : BitVec 32) : MmuState :=
  (pageIncrease zone (σ.zero t) root).write ⟨root, d⟩ (paddr2Pte (pageAddr t) ||| attr)

section NewTable

variable {d : Fin 1024} {t : ℕ} {attr : BitVec 32}

theorem newTable_mem (u : ℕ) (k : Fin 1024) :
    (newTable zone root σ d t attr).mem u k =
      if u = root ∧ k = d then paddr2Pte (pageAddr t) ||| attr
      else if u = t then 0 else σ.mem u k := by
  unfold newTable
  rw [write_mem, pageIncrease_mem, zero_mem]

theorem newTable_supply : (newTable zone root σ d t attr).supply = σ.supply :=
  pageIncrease_supply zone (σ.zero t) root

theorem newTable_mapped : (newTable zone root σ d t attr).mapped = σ.mapped :=
  pageIncrease_mapped zone (σ.zero t) root

theorem newTable_reference {p : ℕ} (h : p ≠ root) :
    (newTable zone root σ d t attr).reference p = σ.reference p :=
  pageIncrease_reference_of_ne zone (σ.zero t) h

theorem newTable_dir (ht : t ≠ root) {e : Fin 1024} (he : e ≠ d) :
    (newTable zone root σ d t attr).mem root e = σ.mem root e := by
  rw [newTable_mem, if_neg fun h => he h.2, if_neg ht.symm]

theorem newTable_dir_self :
    (newTable zone root σ d t attr).mem root d = paddr2Pte (pageAddr t) ||| attr := by
  rw [newTable_mem, if_pos ⟨rfl, rfl⟩]

theorem newTable_table (hinv : DirInv zone root σ) (hfresh : FreshPage zone root σ t)
    {e : Fin 1024} (he : σ.HasTable root e) :
    (newTable zone root σ d t attr).mem (σ.tableAt root e) = σ.mem (σ.tableAt root e) := by
  funext k
  rw [newTable_mem, if_neg fun h => (hinv.table e he).1 h.1, if_neg (hfresh.table e he)]

/-- An entry without `PTE_P` brings no table. -/
theorem newTable_unused (hinv : DirInv zone root σ) (hfresh : FreshPage zone root σ t)
    (hd : ¬σ.HasTable root d) (hattr : pteUsed attr = false) :
    SameTables root σ (newTable zone root σ d t attr) := by
  have hne : ∀ {e}, σ.HasTable root e → e ≠ d := by
    rintro e he rfl
    exact hd he
  refine ⟨?_, ?_, fun e he => newTable_table hinv hfresh he⟩
  · intro e
    by_cases he : e = d
    · subst he
      unfold MmuState.HasTable
      rw [newTable_dir_self, pteUsed_entry, hattr]
      exact iff_of_false nofun hd
    · unfold MmuState.HasTable
      rw [newTable_dir hfresh.ne_root he]
  · exact fun e he => newTable_dir hfresh.ne_root (hne he)

/-- An entry with `PTE_P` brings an empty table. -/
structure TableAdded (root : ℕ) (σ τ : MmuState) (d : Fin 1024) (t : ℕ) : Prop where
  self : τ.HasTable root d
  self_table : τ.tableAt root d = t
  empty : ∀ k, τ.mem t k = 0
  others : ∀ e, e ≠ d → τ.mem root e = σ.mem root e
  tables : ∀ e, σ.HasTable root e → τ.mem (σ.tableAt root e) = σ.mem (σ.tableAt root e)

theorem newTable_used (hinv : DirInv zone root σ) (hfresh : FreshPage zone root σ t)
    (hattr : pteUsed attr = true) (hbits : AttrBits attr) :
    TableAdded root σ (newTable zone root σ d t attr) d t where
  self := by
    unfold MmuState.HasTable
    rw [newTable_dir_self, pteUsed_entry, hattr]
  self_table := by
    unfold MmuState.tableAt
    rw [newTable_dir_self, pageOf_entry hfresh.bound hbits]
  empty := by
    intro k
    rw [newTable_mem, if_neg fun h => hfresh.ne_root h.1, if_pos rfl]
  others := fun e he => newTable_dir hfresh.ne_root he
  tables := fun e he => newTable_table hinv hfresh he

end NewTable

namespace TableAdded

variable {d : Fin 1024} {t : ℕ}

theorem hasTable (h : TableAdded root σ τ d t) {e : Fin 1024} :
    τ.HasTable root e ↔ e = d ∨ σ.HasTable root e := by
  by_cases he : e = d
  · subst he
    exact iff_of_true h.self (Or.inl rfl)
  · unfold MmuState.HasTable
    rw [h.others e he]
    exact (or_iff_right he).symm

theorem tableAt (h : TableAdded root σ τ d t) {e : Fin 1024} (he : e ≠ d) :
    τ.tableAt root e = σ.tableAt root e := by
  unfold MmuState.tableAt
  rw [h.others e he]

theorem entryAt (h : TableAdded root σ τ d t) {v : VirPage} (hne : v.1 ≠ d)
    (hv : σ.HasTable root v.1) : τ.entryAt root v = σ.entryAt root v := by
  unfold MmuState.entryAt
  rw [h.tableAt hne, h.tables v.1 hv]

theorem present (h : TableAdded root σ τ d t) (hd : ¬σ.HasTable root d) (v : VirPage) :
    τ.Present root v ↔ σ.Present root v := by
  by_cases hv : v.1 = d
  · refine iff_of_false ?_ fun hpresent => hd (hv ▸ hpresent.1)
    rintro ⟨-, hused⟩
    unfold MmuState.entryAt at hused
    rw [hv, h.self_table, h.empty] at hused
    exact absurd hused (by decide)
  · unfold MmuState.Present
    rw [h.hasTable, or_iff_right hv]
    constructor
    · rintro ⟨htable, hused⟩
      exact ⟨htable, h.entryAt hv htable ▸ hused⟩
    · rintro ⟨htable, hused⟩
      exact ⟨htable, (h.entryAt hv htable).symm ▸ hused⟩

theorem leafAt (h : TableAdded root σ τ d t) (hd : ¬σ.HasTable root d) {v : VirPage}
    (hv : σ.Present root v) : τ.leafAt root v = σ.leafAt root v := by
  unfold MmuState.leafAt
  rw [h.entryAt (fun heq => hd (heq ▸ hv.1)) hv.1]

theorem dirInv (h : TableAdded root σ τ d t) (hinv : DirInv zone root σ)
    (hd : ¬σ.HasTable root d) (hfresh : FreshPage zone root σ t)
    (hreference : ∀ p, p ≠ root → τ.reference p = σ.reference p)
    (hsupply : τ.supply = σ.supply) : DirInv zone root τ where
  table := by
    intro e he
    by_cases hed : e = d
    · subst hed
      rw [h.self_table, hreference t hfresh.ne_root]
      refine ⟨hfresh.ne_root, hfresh.zone, ?_⟩
      have hzero : usedEntries τ.mem t = 0 := by
        unfold usedEntries
        simp only [h.empty]
        rw [Finset.card_eq_zero, Finset.filter_eq_empty_iff]
        intro k _
        decide
      rw [hzero]
      exact hfresh.reference
    · rw [h.hasTable, or_iff_right hed] at he
      obtain ⟨hne, hzone, hused⟩ := hinv.table e he
      rw [h.tableAt hed, hreference _ hne, usedEntries_congr fun k => by rw [h.tables e he]]
      exact ⟨hne, hzone, hused⟩
  table_inj := by
    intro e f he hf heq
    by_cases hed : e = d <;> by_cases hfd : f = d
    · rw [hed, hfd]
    · rw [h.hasTable, or_iff_right hfd] at hf
      rw [hed, h.self_table, h.tableAt hfd] at heq
      exact absurd heq.symm (hfresh.table f hf)
    · rw [h.hasTable, or_iff_right hed] at he
      rw [hfd, h.self_table, h.tableAt hed] at heq
      exact absurd heq (hfresh.table e he)
    · rw [h.hasTable, or_iff_right hed] at he
      rw [h.hasTable, or_iff_right hfd] at hf
      rw [h.tableAt hed, h.tableAt hfd] at heq
      exact hinv.table_inj e f he hf heq
  leaf := by
    intro v hv
    rw [h.present hd] at hv
    obtain ⟨hpos, hne, htables⟩ := hinv.leaf v hv
    rw [h.leafAt hd hv, hreference _ hne]
    refine ⟨hpos, hne, ?_⟩
    intro e he
    by_cases hed : e = d
    · rw [hed, h.self_table]
      exact hfresh.leaf v hv
    · rw [h.hasTable, or_iff_right hed] at he
      rw [h.tableAt hed]
      exact htables e he
  leaf_inj := by
    intro v w hv hw heq
    rw [h.present hd] at hv hw
    rw [h.leafAt hd hv, h.leafAt hd hw] at heq
    exact hinv.leaf_inj v w hv hw heq
  fresh := by
    intro p hp
    obtain ⟨hbound, hzone, hne, hzero⟩ := hinv.fresh p (hsupply ▸ hp)
    exact ⟨hbound, hzone, hne, (hreference p hne).trans hzero⟩
  nodup := hsupply ▸ hinv.nodup

theorem accessExact (h : TableAdded root σ τ d t) (hd : ¬σ.HasTable root d)
    (hexact : AccessExact root σ) (hmapped : τ.mapped = σ.mapped) : AccessExact root τ where
  absent := by
    intro v hv
    rw [h.present hd]
    exact hexact.absent v (hmapped ▸ hv)
  present := by
    intro v attr hv
    obtain ⟨hpresent, haccess⟩ := hexact.present v attr (hmapped ▸ hv)
    have hne : v.1 ≠ d := fun heq => hd (heq ▸ hpresent.1)
    refine ⟨(h.present hd v).mpr hpresent, ?_⟩
    unfold MmuState.access
    rw [h.others v.1 hne, h.entryAt hne hpresent.1]
    exact haccess

theorem freshPage (h : TableAdded root σ τ d t) (hd : ¬σ.HasTable root d) {p : ℕ}
    (hp : FreshPage zone root σ p) (hpt : p ≠ t)
    (hreference : ∀ q, q ≠ root → τ.reference q = σ.reference q)
    (hsupply : τ.supply = σ.supply) : FreshPage zone root τ p where
  bound := hp.bound
  zone := hp.zone
  ne_root := hp.ne_root
  reference := by
    rw [hreference p hp.ne_root]
    exact hp.reference
  table := by
    intro e he
    by_cases hed : e = d
    · rw [hed, h.self_table]
      exact hpt.symm
    · rw [h.hasTable, or_iff_right hed] at he
      rw [h.tableAt hed]
      exact hp.table e he
  leaf := by
    intro v hv
    rw [h.present hd] at hv
    rw [h.leafAt hd hv]
    exact hp.leaf v hv
  supply := hsupply ▸ hp.supply

end TableAdded

/-! ## Entries of tables -/

/-- The entry of one virtual page became `x`. -/
structure EntrySet (root : ℕ) (σ τ : MmuState) (v : VirPage) (x : BitVec 32) : Prop where
  dir : τ.mem root = σ.mem root
  self : τ.entryAt root v = x
  others : ∀ w, w ≠ v → σ.HasTable root w.1 → τ.entryAt root w = σ.entryAt root w

theorem DirInv.write_entry (hinv : DirInv zone root σ) {v : VirPage}
    (hv : σ.HasTable root v.1) (x : BitVec 32) (hmem : τ.mem = σ.mem) :
    EntrySet root σ (τ.write ⟨σ.tableAt root v.1, v.2⟩ x) v x := by
  have hdir : (τ.write ⟨σ.tableAt root v.1, v.2⟩ x).mem root = σ.mem root := by
    funext k
    rw [write_mem, if_neg fun h => (hinv.table v.1 hv).1 h.1.symm, hmem]
  have htable : ∀ d, (τ.write ⟨σ.tableAt root v.1, v.2⟩ x).tableAt root d =
      σ.tableAt root d := by
    intro d
    exact congrArg (fun m => pageOf (pte2Paddr (m d))) hdir
  refine ⟨hdir, ?_, ?_⟩
  · unfold MmuState.entryAt
    rw [htable, write_mem, if_pos ⟨rfl, rfl⟩]
  · intro w hne hw
    unfold MmuState.entryAt
    rw [htable, write_mem, if_neg, hmem]
    rintro ⟨htab, hidx⟩
    exact hne (Prod.ext (hinv.table_inj _ _ hw hv htab) hidx)

namespace EntrySet

variable {v : VirPage} {x : BitVec 32}

theorem hasTable (h : EntrySet root σ τ v x) (d : Fin 1024) :
    τ.HasTable root d ↔ σ.HasTable root d := by
  unfold MmuState.HasTable
  rw [h.dir]

theorem tableAt (h : EntrySet root σ τ v x) (d : Fin 1024) :
    τ.tableAt root d = σ.tableAt root d := by
  unfold MmuState.tableAt
  rw [h.dir]

theorem present (h : EntrySet root σ τ v x) {w : VirPage} (hne : w ≠ v) :
    τ.Present root w ↔ σ.Present root w := by
  unfold MmuState.Present
  rw [h.hasTable]
  constructor
  · rintro ⟨htable, hused⟩
    exact ⟨htable, h.others w hne htable ▸ hused⟩
  · rintro ⟨htable, hused⟩
    exact ⟨htable, (h.others w hne htable).symm ▸ hused⟩

theorem present_self (h : EntrySet root σ τ v x) (hv : σ.HasTable root v.1) :
    τ.Present root v ↔ pteUsed x = true := by
  unfold MmuState.Present
  rw [h.hasTable, h.self]
  exact and_iff_right hv

theorem leafAt (h : EntrySet root σ τ v x) {w : VirPage} (hne : w ≠ v)
    (hw : σ.HasTable root w.1) : τ.leafAt root w = σ.leafAt root w := by
  unfold MmuState.leafAt
  rw [h.others w hne hw]

theorem leafAt_self (h : EntrySet root σ τ v x) :
    τ.leafAt root v = pageOf (pte2Paddr x) := by
  unfold MmuState.leafAt
  rw [h.self]

theorem dirInv (h : EntrySet root σ τ v x) (hinv : DirInv zone root σ)
    (hv : σ.HasTable root v.1)
    (hnew : pteUsed x = true → FreshPage zone root σ (pageOf (pte2Paddr x)) ∧
      1 ≤ τ.reference (pageOf (pte2Paddr x)))
    (htable : ∀ d, σ.HasTable root d →
      usedEntries τ.mem (σ.tableAt root d) + 1 ≤ τ.reference (σ.tableAt root d))
    (hleaf : ∀ w, w ≠ v → σ.Present root w → 1 ≤ τ.reference (σ.leafAt root w))
    (hfresh : ∀ p ∈ σ.supply, τ.reference p = 0) (hsupply : τ.supply = σ.supply) :
    DirInv zone root τ where
  table := by
    intro d hd
    rw [h.hasTable] at hd
    rw [h.tableAt]
    exact ⟨(hinv.table d hd).1, (hinv.table d hd).2.1, htable d hd⟩
  table_inj := by
    intro d e hd he heq
    rw [h.hasTable] at hd he
    rw [h.tableAt, h.tableAt] at heq
    exact hinv.table_inj d e hd he heq
  leaf := by
    intro w hw
    by_cases hne : w = v
    · subst hne
      rw [h.present_self hv] at hw
      obtain ⟨hpage, hpos⟩ := hnew hw
      rw [h.leafAt_self]
      refine ⟨hpos, hpage.ne_root, ?_⟩
      intro d hd
      rw [h.hasTable] at hd
      rw [h.tableAt]
      exact (hpage.table d hd).symm
    · rw [h.present hne] at hw
      rw [h.leafAt hne hw.1]
      refine ⟨hleaf w hne hw, (hinv.leaf w hw).2.1, ?_⟩
      intro d hd
      rw [h.hasTable] at hd
      rw [h.tableAt]
      exact (hinv.leaf w hw).2.2 d hd
  leaf_inj := by
    intro w u hw hu heq
    by_cases hwv : w = v <;> by_cases huv : u = v
    · rw [hwv, huv]
    · subst hwv
      rw [h.present_self hv] at hw
      rw [h.present huv] at hu
      rw [h.leafAt_self, h.leafAt huv hu.1] at heq
      exact absurd heq.symm ((hnew hw).1.leaf u hu)
    · subst huv
      rw [h.present hwv] at hw
      rw [h.present_self hv] at hu
      rw [h.leafAt_self, h.leafAt hwv hw.1] at heq
      exact absurd heq ((hnew hu).1.leaf w hw)
    · rw [h.present hwv] at hw
      rw [h.present huv] at hu
      rw [h.leafAt hwv hw.1, h.leafAt huv hu.1] at heq
      exact hinv.leaf_inj w u hw hu heq
  fresh := by
    intro p hp
    rw [hsupply] at hp
    obtain ⟨hbound, hzone, hne, -⟩ := hinv.fresh p hp
    exact ⟨hbound, hzone, hne, hfresh p hp⟩
  nodup := hsupply ▸ hinv.nodup

theorem accessExact (h : EntrySet root σ τ v x) (hexact : AccessExact root σ)
    (hv : σ.HasTable root v.1) (attr : BitVec 32)
    (hmapped : τ.mapped =
      Function.update σ.mapped v (if pteUsed x then some attr else none))
    (haccess : pteUsed x = true → (σ.mem root v.1 &&& x) &&& accessBits = attr &&& accessBits) :
    AccessExact root τ where
  absent := by
    intro w hw
    rw [hmapped] at hw
    by_cases hne : w = v
    · subst hne
      rw [Function.update_self] at hw
      rw [h.present_self hv]
      intro hused
      rw [if_pos hused] at hw
      cases hw
    · rw [Function.update_of_ne hne] at hw
      rw [h.present hne]
      exact hexact.absent w hw
  present := by
    intro w attr' hw
    rw [hmapped] at hw
    by_cases hne : w = v
    · subst hne
      rw [Function.update_self] at hw
      cases hused : pteUsed x with
      | false =>
          rw [hused] at hw
          cases hw
      | true =>
          rw [hused] at hw
          cases hw
          refine ⟨(h.present_self hv).mpr hused, ?_⟩
          unfold MmuState.access
          rw [h.dir, h.self]
          exact haccess hused
    · rw [Function.update_of_ne hne] at hw
      obtain ⟨hpresent, haccess'⟩ := hexact.present w attr' hw
      refine ⟨(h.present hne).mpr hpresent, ?_⟩
      unfold MmuState.access
      rw [h.dir, h.others w hne hpresent.1]
      exact haccess'

end EntrySet

theorem usedEntries_write_of_ne (σ : MmuState) (pte : PtePtr) (x : BitVec 32) {table : ℕ}
    (h : table ≠ pte.table) :
    usedEntries (σ.write pte x).mem table = usedEntries σ.mem table := by
  refine usedEntries_congr fun k => ?_
  rw [write_mem, if_neg fun heq => h heq.1]

end Nxos.X86
