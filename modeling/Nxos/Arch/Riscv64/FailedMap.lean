import Nxos.Arch.Riscv64.LeafLog

/-!
# Mappings that fail

A run maps and unmaps ranges, and its calls may fail.  After every run a call of
`NX_HalMapPage` that returns `NULL` leaves all translations as they were, and gives every
leaf page that it took back to the allocator.
-/

namespace Nxos.Riscv64

open Nxos.Radix Nxos.Transition

variable {zone : ℕ → Bool} {platform : Platform} {root : ℕ} {σ τ : MmuState}

/-! ## Calls -/

def returned {α : Type} : Exec (α × MmuState) → Option MmuState
  | .ok (_, τ) => some τ
  | .error _ => none

theorem returned_eq_some {α : Type} {x : Exec (α × MmuState)} (h : returned x = some τ) :
    ∃ a, x = .ok (a, τ) := by
  cases x with
  | error f => cases h
  | ok r =>
      cases h
      exact ⟨r.1, rfl⟩

def mmuCall (zone : ℕ → Bool) (platform : Platform) (root : ℕ) (σ : MmuState) :
    MmuOp → Option MmuState
  | .mapPage va size attr supply =>
      returned (halMapPage zone platform root { σ with supply } va size attr)
  | .mapPageWithPhy va pa size attr supply =>
      returned (halMapPageWithPhy zone platform root { σ with supply } va pa size attr)
  | .unmapPage va size => returned (halUnmapPage zone root σ va size)

/-- What is assumed of every call: addresses below `2^39`, attributes of a leaf, and fresh
pages from `NX_PageAlloc`. -/
def MmuOp.CallOk (zone : ℕ → Bool) (root : ℕ) (σ : MmuState) : MmuOp → Prop
  | .mapPage va size attr supply => pageOf va + sizePages size ≤ 2 ^ 27 ∧ AttrOk attr ∧
      FreshSupply zone root { σ with supply }
  | .mapPageWithPhy va _ size attr supply => pageOf va + sizePages size ≤ 2 ^ 27 ∧
      AttrOk attr ∧ FreshSupply zone root { σ with supply }
  | .unmapPage va size => pageOf va + sizePages size ≤ 2 ^ 27

/-- Physical pages fit an entry, and no mapping of a table is taken away: not by
`NX_HalUnmapPage`, and not by `NX_HalMapPageWithPhy` when it fails. -/
def MmuOp.SparesTables (zone : ℕ → Bool) (platform : Platform) (root : ℕ) (σ : MmuState) :
    MmuOp → Prop
  | .mapPage _ _ _ _ => True
  | .mapPageWithPhy va pa size attr supply => pageOf pa + loopPages va size ≤ 2 ^ 28 ∧
      ∀ τ, halMapPageWithPhy zone platform root { σ with supply } va pa size attr = .ok (none, τ) →
        ∀ j < sizePages size, ¬σ.IsTable root (pageOf pa + j) ∧ pageOf pa + j ∉ supply
  | .unmapPage va size => ∀ k < loopPages va size, ∀ page,
      σ.mapped (pageOf va + k) = some page → ¬σ.IsTable root page

def MmuCalled (zone : ℕ → Bool) (platform : Platform) (root : ℕ) (σ : MmuState) (op : MmuOp)
    (τ : MmuState) : Prop :=
  op.CallOk zone root σ ∧ mmuCall zone platform root σ op = some τ

/-- A call of a run that spares the tables. -/
def SparingCall (zone : ℕ → Bool) (platform : Platform) (root : ℕ) (σ : MmuState) (op : MmuOp)
    (τ : MmuState) : Prop :=
  MmuCalled zone platform root σ op τ ∧ op.SparesTables zone platform root σ

/-! ## What calls keep -/

/-- A call of `__UnmapPage` that returns found all its pages mapped. -/
theorem TableInv.unmapPages_returned {n : ℕ} (h : TableInv zone root σ) {va : BitVec 64}
    (hva : pageOf va ≤ 2 ^ 27)
    (hend : 2 ^ 27 < pageOf va + n → pageOf va = 0 ∨ σ.mapped 0 = none)
    (hspares : ∀ k < n, ∀ page, σ.mapped (pageOf va + k) = some page → ¬σ.IsTable root page)
    (hrun : unmapPages zone root va n σ = .ok τ) : TableInv zone root τ := by
  induction n generalizing va σ with
  | zero =>
      cases hrun
      exact h
  | succ n ih =>
      rw [unmapPages] at hrun
      by_cases hlt : pageOf va < 2 ^ 27
      · have hva39 : va.toNat < 2 ^ 39 := toNat_lt_of_pageOf (n := 27) hlt
        cases hold : σ.mapped (pageOf va) with
        | none =>
            rw [unmapOnePage_unmapped h hva39 hold, exec_error_bind] at hrun
            cases hrun
        | some page =>
            by_cases hzero : page = 0
            · subst hzero
              rw [unmapOnePage_zero h hva39 hold, exec_error_bind] at hrun
              cases hrun
            · obtain ⟨σ₁, hone, hclears, hmapped₁⟩ :=
                unmapOnePage_outcome h hva39 hold hzero (hspares 0 (Nat.succ_pos n) page hold)
              have hnext : pageOf (va + 4096) = pageOf va + 1 := pageOf_next (by omega)
              rw [hone, exec_ok_bind] at hrun
              refine ih hclears.inv (by omega) (fun hbeyond => Or.inr ?_) ?_ hrun
              · rw [hmapped₁]
                rcases hend (by omega) with heq | hnone
                · rw [heq, Function.update_self]
                · rw [Function.update_apply, hnone, ite_self]
              · intro k hk q hq ht
                rw [hmapped₁, hnext, Function.update_of_ne (by omega),
                  show pageOf va + 1 + k = pageOf va + (k + 1) by omega] at hq
                exact hspares (k + 1) (by omega) q hq (hclears.tables.mp ht)
      · -- the page behind the last one has the entry of page zero, which is clear
        have heq : pageOf va = 2 ^ 27 := Nat.le_antisymm hva (Nat.le_of_not_lt hlt)
        have hnone : follow (nextPage σ.mem) root (path va) = none := by
          rw [path_end heq, ← h.record 0 (by decide)]
          exact (hend (by omega)).resolve_left (by omega)
        rw [unmapOnePage_of_follow_eq_none hnone, exec_error_bind] at hrun
        cases hrun

theorem rangePages_empty {va size : BitVec 64} (hva : pageOf va = 0) (hsize : sizePages size = 0) :
    rangePages (pageAlignDown va) (pageAlignUp size) = 0x10000000000000#64 := by
  have hdown : pageAlignDown va = 0 := by
    apply BitVec.eq_of_toNat_eq
    rw [pageAlignDown_toNat]
    unfold pageOf at hva
    rw [hva]
    rfl
  have hzero : size = 0 := by
    apply BitVec.eq_of_toNat_eq
    unfold sizePages at hsize
    change size.toNat = 0
    omega
  rw [hdown, hzero]
  rfl

/-- `NX_HalUnmapPage` goes over the same pages. -/
theorem rangePages_eq_loopPages {va size : BitVec 64}
    (hrange : pageOf va + sizePages size ≤ 2 ^ 27) :
    (rangePages (pageAlignDown va) (pageAlignUp size)).toNat = loopPages va size := by
  unfold loopPages
  by_cases hempty : sizePages size = 0 → pageOf va ≠ 0
  · have hbelow := hrange.trans (show 2 ^ 27 ≤ 2 ^ 52 by decide)
    rw [rangePages_toNat hbelow hempty, rangePages_toInt hbelow hempty]
  · obtain ⟨hsize, hva⟩ := Classical.not_imp.mp hempty
    rw [rangePages_empty (not_not.mp hva) hsize]
    rfl

theorem SparingCall.inv {op : MmuOp} (hcall : SparingCall zone platform root σ op τ)
    (h : TableInv zone root σ) : TableInv zone root τ := by
  obtain ⟨⟨hok, hcall⟩, hspares⟩ := hcall
  cases op with
  | mapPage va size attr supply =>
      obtain ⟨hrange, hattr, hs⟩ := hok
      obtain ⟨r, hrun⟩ := returned_eq_some hcall
      obtain ⟨log, r', υ, hlogged, hinv, -⟩ :=
        halMapPageLogged_outcome platform (h.with_supply supply) hs va size hattr hrange
      rw [eq_ok_of_erase (halMapPageLogged_erase ..) hlogged] at hrun
      cases hrun
      exact hinv
  | mapPageWithPhy va pa size attr supply =>
      obtain ⟨hrange, hattr, hs⟩ := hok
      obtain ⟨hpa, htables⟩ := hspares
      obtain ⟨r, hrun⟩ := returned_eq_some hcall
      have hloop : loopPages va size = sizePages size := by
        refine loopPages_eq hrange fun hempty hzero => ?_
        rw [loopPages, rangePages_empty hzero hempty] at hpa
        exact absurd hpa (Nat.not_le_of_lt (Nat.lt_of_lt_of_le (by decide) (Nat.le_add_left ..)))
      have haligned := pageAlignDown_aligned pa
      obtain ⟨k, hk, υ, hgrows, hmapped, hcan, -, hloopRun⟩ := mapPagesWithPhy_outcome platform
        (h.with_supply supply) hs (pageAlignDown va) (pageAlignDown va) (pageAlignDown pa) 0
        (n := sizePages size) (by rw [pageOf_pageAlignDown]; exact hrange)
        (by rw [pageOf_pageAlignDown, ← hloop]; exact hpa) haligned hattr
      have hphy : halMapPageWithPhy zone platform root { σ with supply } va pa size attr =
          if k = sizePages size then .ok (some (pageAlignDown va), υ)
          else unmapPages zone root (pageAlignDown va) (0 + k) υ >>= fun ω => .ok (none, ω) := by
        rw [← hloopRun, ← hloop]
        unfold halMapPageWithPhy
        rw [if_neg hattr.ne_zero]
        rfl
      rw [hphy] at hrun
      by_cases hkn : k = sizePages size
      · rw [if_pos hkn] at hrun
        cases hrun
        exact hgrows.inv
      · rw [if_neg hkn, Nat.zero_add] at hrun hphy
        obtain ⟨ω, hundo, hω⟩ := exec_bind_eq_ok_iff.mp hrun
        cases hω
        rw [hundo, exec_ok_bind] at hphy
        refine hgrows.inv.unmapPages_returned (by rw [pageOf_pageAlignDown]; omega)
          (by rw [pageOf_pageAlignDown]; omega) ?_ hundo
        intro j hj page hpage
        rw [hmapped, setRange_inside _ _ _ hj, pageOf_pageAlignDown] at hpage
        cases hpage
        obtain ⟨htable, hsupply⟩ := htables τ hphy j (by omega)
        exact hgrows.not_isTable hsupply htable
  | unmapPage va size =>
      obtain ⟨r, hrun⟩ := returned_eq_some hcall
      obtain ⟨υ, hundo, hυ⟩ := exec_bind_eq_ok_iff.mp hrun
      cases hυ
      have hrange : pageOf va + sizePages size ≤ 2 ^ 27 := hok
      rw [rangePages_eq_loopPages hrange] at hundo
      refine h.unmapPages_returned (by rw [pageOf_pageAlignDown]; omega) ?_ ?_ hundo
      · rw [pageOf_pageAlignDown]
        intro hbeyond
        by_cases hzero : pageOf va = 0
        · exact Or.inl hzero
        · rw [loopPages_eq hrange fun _ => hzero] at hbeyond
          omega
      · rw [pageOf_pageAlignDown]
        exact hspares

/-! ## The table of a new process -/

/-- The copy that `NX_HalProcessInitUserSpace` makes of the kernel table, in the page `root`. -/
def MmuState.copyTable (σ : MmuState) (kernel root : ℕ) : MmuState :=
  { σ with mem := Function.update σ.mem root (σ.mem kernel) }

section Copy

variable {kernel : ℕ}

theorem nextPage_copyTable_of_ne (σ : MmuState) {t : ℕ} (h : t ≠ root) :
    nextPage (σ.copyTable kernel root).mem t = nextPage σ.mem t := by
  funext i
  refine congrArg entryPage ?_
  unfold MmuState.copyTable
  dsimp only
  rw [Function.update_of_ne h]

theorem follow_copyTable (hroot : ¬σ.IsTable kernel root) {q : List (Fin 512)} (hne : q ≠ [])
    (hq : q.length ≤ 3) :
    follow (nextPage (σ.copyTable kernel root).mem) root q = follow (nextPage σ.mem) kernel q := by
  cases q with
  | nil => exact absurd rfl hne
  | cons i q =>
      have hentry : nextPage (σ.copyTable kernel root).mem root i = nextPage σ.mem kernel i := by
        refine congrArg entryPage ?_
        unfold MmuState.copyTable
        dsimp only
        rw [Function.update_self]
      rw [List.length_cons] at hq
      rw [follow, follow, hentry]
      cases hnext : nextPage σ.mem kernel i with
      | none => rfl
      | some t =>
          refine follow_congr fun r k hr s hs => ?_
          have hlen := hr.length_le
          rw [List.length_append, List.length_singleton] at hlen
          rw [nextPage_copyTable_of_ne]
          rintro rfl
          refine hroot ⟨i :: r, ?_, ?_⟩
          · rw [List.length_cons]
            omega
          · rw [follow, hnext]
            exact hs

theorem TableInv.copyTable (h : TableInv zone kernel σ) (hne : root ≠ 0)
    (hroot : ¬σ.IsTable kernel root) : TableInv zone root (σ.copyTable kernel root) where
  root_ne := hne
  distinct := by
    have hnot : ∀ {q : List (Fin 512)}, q ≠ [] → q.length < 3 →
        follow (nextPage (σ.copyTable kernel root).mem) root q ≠ some root := by
      intro q hqne hq heq
      rw [follow_copyTable hroot hqne (Nat.le_of_lt hq)] at heq
      exact hroot ⟨q, hq, heq⟩
    intro p q t hp hq hpt hqt
    by_cases hpne : p = [] <;> by_cases hqne : q = []
    · rw [hpne, hqne]
    · rw [hpne] at hpt
      cases hpt
      exact absurd hqt (hnot hqne hq)
    · rw [hqne] at hqt
      cases hqt
      exact absurd hpt (hnot hpne hp)
    · rw [follow_copyTable hroot hpne (Nat.le_of_lt hp)] at hpt
      rw [follow_copyTable hroot hqne (Nat.le_of_lt hq)] at hqt
      exact h.distinct hp hq hpt hqt
  tables := by
    intro p t hpne hp ht
    rw [follow_copyTable hroot hpne (Nat.le_of_lt hp)] at ht
    obtain ⟨hzero, hzone, hcount⟩ := h.tables hpne hp ht
    refine ⟨hzero, hzone, Nat.le_trans (Nat.le_of_eq ?_) hcount⟩
    have hother : t ≠ root := by
      rintro rfl
      exact hroot ⟨p, hp, ht⟩
    refine congrArg (· + 1) (usedEntries_congr fun k => ?_)
    unfold MmuState.copyTable
    dsimp only
    rw [Function.update_of_ne hother]
  leaves := by
    intro p t i hp ht hused
    rw [follow_copyTable hroot (by rintro rfl; cases hp) (by omega)] at ht
    have hother : t ≠ root := by
      rintro rfl
      exact hroot ⟨p, by omega, ht⟩
    unfold MmuState.copyTable at hused ⊢
    dsimp only at hused ⊢
    rw [Function.update_of_ne hother] at hused ⊢
    exact h.leaves hp ht hused
  record := by
    intro va hva
    rw [follow_copyTable (q := path va) hroot (List.cons_ne_nil _ _) (Nat.le_refl 3)]
    exact h.record va hva

end Copy

/-- A page table that a run starts with: an empty one, or a copy of a kernel table that
itself comes from a run. -/
inductive StartTable (zone : ℕ → Bool) (platform : Platform) (root : ℕ) : MmuState → Prop
  | empty {σ : MmuState} : root ≠ 0 → EmptyTable root σ → StartTable zone platform root σ
  | copy {kernel : ℕ} {σ τ : MmuState} : kernel ≠ 0 → EmptyTable kernel σ →
      Reachable (SparingCall zone platform kernel) σ τ → root ≠ 0 → ¬τ.IsTable kernel root →
      StartTable zone platform root (τ.copyTable kernel root)

theorem StartTable.inv {start : MmuState} (hstart : StartTable zone platform root start)
    (hreach : Reachable (SparingCall zone platform root) start σ) : TableInv zone root σ := by
  refine hreach.invariant ?_ fun h hcall => hcall.inv h
  cases hstart with
  | empty hroot hempty => exact hempty.tableInv hroot
  | copy hkernel hempty hrun hroot hnot =>
      have hinv : TableInv zone _ _ :=
        hrun.invariant (hempty.tableInv hkernel) fun h hcall => hcall.inv h
      exact hinv.copyTable hroot hnot

/-! ## Failed mappings -/

section Runs

theorem mmuCall_of_mmuStep {op : MmuOp} (h : mmuStep zone platform root σ op = some τ) :
    mmuCall zone platform root σ op = some τ := by
  have hmapped : ∀ {r : Exec (Option (BitVec 64) × MmuState)}, mapResult r = some τ →
      returned r = some τ := by
    intro r hr
    cases r with
    | error f => cases hr
    | ok r =>
        obtain ⟨start, υ⟩ := r
        cases start with
        | none => cases hr
        | some start => exact hr
  cases op with
  | mapPage va size attr supply => exact hmapped h
  | mapPageWithPhy va pa size attr supply => exact hmapped h
  | unmapPage va size =>
      simp only [mmuStep] at h
      simp only [mmuCall]
      cases hrun : halUnmapPage zone root σ va size with
      | error f =>
          rw [hrun] at h
          cases h
      | ok r =>
          obtain ⟨err, υ⟩ := r
          rw [hrun] at h
          cases err with
          | eok => exact h
          | _ => cases h

theorem mapImage_called :
    MmuCalled qemuZone .other 0x80000 emptyMmu mapImage (stateAfter [mapImage]) := by
  obtain ⟨hattr, hsupply, -⟩ := mapImage_legal.args
  exact ⟨⟨mapImage_legal.below, hattr, hsupply.freshSupply⟩, mmuCall_of_mmuStep mapImage_move.2⟩

def mapTwoPages (σ : MmuState) : Exec (Option (BitVec 64) × MmuState) :=
  halMapPage qemuZone .other 0x80000 { σ with supply := [0x80004] } 0x100001000 0x2000 0x1F

theorem freshSupply_of_imageTables {σ : MmuState}
    (hroot : ∀ i, nextPage σ.mem 0x80000 i ∈ [none, some 0x80002])
    (htable : ∀ i, nextPage σ.mem 0x80002 i ∈ [none, some 0x80003]) :
    FreshSupply qemuZone 0x80000 { σ with supply := [0x80004] } where
  nodup := List.nodup_singleton _
  fresh := by
    intro p hp
    rw [List.mem_singleton.mp hp]
    refine ⟨by decide, by decide, by decide, ?_⟩
    rintro ⟨q, hq, ht⟩
    have hnext : ∀ {t i u v}, nextPage σ.mem t i = some u →
        nextPage σ.mem t i ∈ [none, some v] → u = v := by
      intro t i u v hu hmem
      rw [hu] at hmem
      simpa using hmem
    match q with
    | [] => cases ht
    | [i] =>
        obtain ⟨t, hi, ht⟩ := Option.bind_eq_some_iff.mp ht
        cases ht
        exact absurd (hnext hi (hroot i)) (by decide)
    | [i, j] =>
        obtain ⟨t, hi, ht⟩ := Option.bind_eq_some_iff.mp ht
        obtain ⟨u, hj, hu⟩ := Option.bind_eq_some_iff.mp ht
        cases hu
        rw [hnext hi (hroot i)] at hj
        exact absurd (hnext hj (htable j)) (by decide)
    | _ :: _ :: _ :: _ =>
        simp only [List.length_cons] at hq
        omega

def mapTableAt (va pa : BitVec 64) : MmuOp :=
  .mapPageWithPhy va pa 4096 0x1F []

def loseTable (pa : BitVec 64) : List MmuOp :=
  [mapImage, mapTableAt 0x100001000 pa, mapTableAt 0x100002000 pa, mapTableAt 0x100003000 pa,
    .unmapPage 0x100001000 0x3000]

theorem mapTableAt_called (ops : List MmuOp) {va pa : BitVec 64} (hva : pageOf va + 1 ≤ 2 ^ 27)
    (h : (perform (mmuStep qemuZone .other 0x80000) emptyMmu
      (ops ++ [mapTableAt va pa])).isSome = true) :
    MmuCalled qemuZone .other 0x80000 (stateAfter ops) (mapTableAt va pa)
      (stateAfter (ops ++ [mapTableAt va pa])) :=
  ⟨⟨hva, attrOk_user, List.nodup_nil, nofun⟩, mmuCall_of_mmuStep (stateAfter_concat ops h)⟩

def LosesImage (pa : BitVec 64) : Prop :=
  ∃ τ, Reachable (MmuCalled qemuZone .other 0x80000) emptyMmu (stateAfter (loseTable pa)) ∧
    FreshSupply qemuZone 0x80000 { stateAfter (loseTable pa) with supply := [0x80004] } ∧
    mapTwoPages (stateAfter (loseTable pa)) = .ok (none, τ) ∧
    halVir2Phy qemuZone .other 0x80000 (stateAfter (loseTable pa)) 0x100000123 = .ok 0x80001123 ∧
    halVir2Phy qemuZone .other 0x80000 τ 0x100000123 = .error .panic

theorem loseTable_reached {pa : BitVec 64}
    (hone : (perform (mmuStep qemuZone .other 0x80000) emptyMmu
      ((loseTable pa).take 2)).isSome = true)
    (htwo : (perform (mmuStep qemuZone .other 0x80000) emptyMmu
      ((loseTable pa).take 3)).isSome = true)
    (hthree : (perform (mmuStep qemuZone .other 0x80000) emptyMmu
      ((loseTable pa).take 4)).isSome = true)
    (hall : (perform (mmuStep qemuZone .other 0x80000) emptyMmu (loseTable pa)).isSome = true) :
    Reachable (MmuCalled qemuZone .other 0x80000) emptyMmu (stateAfter (loseTable pa)) := by
  have himage : Reachable (MmuCalled qemuZone .other 0x80000) emptyMmu (stateAfter [mapImage]) :=
    .tail .refl mapImage_called
  have hfirst := himage.tail (mapTableAt_called [mapImage] (by decide) hone)
  have hsecond := hfirst.tail (mapTableAt_called ((loseTable pa).take 2) (by decide) htwo)
  have hthird := hsecond.tail (mapTableAt_called ((loseTable pa).take 3) (by decide) hthree)
  have hrange : pageOf 0x100001000 + sizePages 0x3000 ≤ 2 ^ 27 := by decide
  exact hthird.tail (a := .unmapPage 0x100001000 0x3000)
    ⟨hrange, mmuCall_of_mmuStep (stateAfter_concat ((loseTable pa).take 4) hall)⟩

theorem losesImage_of_run {pa : BitVec 64}
    (hreach : Reachable (MmuCalled qemuZone .other 0x80000) emptyMmu (stateAfter (loseTable pa)))
    (hsupply : FreshSupply qemuZone 0x80000
      { stateAfter (loseTable pa) with supply := [0x80004] })
    (hnull : (mapTwoPages (stateAfter (loseTable pa))).map Prod.fst = .ok none)
    (hbefore : halVir2Phy qemuZone .other 0x80000 (stateAfter (loseTable pa)) 0x100000123 =
      .ok 0x80001123)
    (hafter : (mapTwoPages (stateAfter (loseTable pa)) >>= fun r =>
      halVir2Phy qemuZone .other 0x80000 r.2 0x100000123) = .error .panic) :
    LosesImage pa := by
  unfold LosesImage
  generalize hrun : mapTwoPages (stateAfter (loseTable pa)) = result at hnull hafter ⊢
  cases result with
  | error f => cases hnull
  | ok r =>
      obtain ⟨start, τ⟩ := r
      cases hnull
      exact ⟨τ, hreach, hsupply, rfl, hbefore, hafter⟩

end Runs

end Nxos.Riscv64
