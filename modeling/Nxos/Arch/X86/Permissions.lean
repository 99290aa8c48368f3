import Nxos.Arch.X86.Directory
import Nxos.Support.Transition

/-!
# Access rights of mapped pages

The entry of the directory is written when its table is created, with the attributes
of the page that is mapped then, and stays as it is: the table is never given back.
The 1024 pages of a table get what their own attributes and those of the first page
have in common.
-/

namespace Nxos.X86

open Nxos.Transition

variable {zone : ℕ → Bool} {root : ℕ} {σ τ : MmuState}

/-! ## One page -/

/-- If the attributes map a page, the entry of the directory is empty or allows what they
ask for. -/
def FitsAt (root : ℕ) (σ : MmuState) (attr : BitVec 32) (d : Fin 1024) : Prop :=
  pteUsed attr = true → σ.HasTable root d → (attr &&& σ.mem root d) &&& accessBits = attr &&& accessBits

theorem FitsAt.congr {attr : BitVec 32} {d : Fin 1024} (h : FitsAt root σ attr d)
    (hroot : τ.mem root = σ.mem root) : FitsAt root τ attr d := by
  unfold FitsAt MmuState.HasTable at h ⊢
  rw [hroot]
  exact h

theorem access_of_fits {pde attr : BitVec 32} {page : ℕ}
    (h : (attr &&& pde) &&& accessBits = attr &&& accessBits) :
    (pde &&& (paddr2Pte (pageAddr page) ||| attr)) &&& accessBits = attr &&& accessBits := by
  rw [BitVec.and_assoc, entry_and (by decide), ← BitVec.and_assoc, BitVec.and_comm pde attr, h]

/-- The last part of `MapOnePage`: the entry of the virtual page `v` in a table gets the
physical page `p`. -/
def setEntry (zone : ℕ → Bool) (σ : MmuState) (table : ℕ) (v : VirPage) (p : ℕ)
    (attr : BitVec 32) : MmuState :=
  let σ := pageIncrease zone σ table
  let σ := σ.write ⟨table, v.2⟩ (paddr2Pte (pageAddr p) ||| attr)
  { σ with mapped := Function.update σ.mapped v (if pteUsed attr then some attr else none) }

theorem setEntry_mem (table : ℕ) (v : VirPage) (p : ℕ) (attr : BitVec 32) :
    (setEntry zone σ table v p attr).mem =
      ((pageIncrease zone σ table).write ⟨table, v.2⟩ (paddr2Pte (pageAddr p) ||| attr)).mem :=
  rfl

theorem setEntry_reference (table : ℕ) (v : VirPage) (p : ℕ) (attr : BitVec 32) :
    (setEntry zone σ table v p attr).reference = (pageIncrease zone σ table).reference :=
  rfl

theorem setEntry_supply (table : ℕ) (v : VirPage) (p : ℕ) (attr : BitVec 32) :
    (setEntry zone σ table v p attr).supply = σ.supply :=
  pageIncrease_supply zone σ table

theorem setEntry_mapped (table : ℕ) (v : VirPage) (p : ℕ) (attr : BitVec 32) :
    (setEntry zone σ table v p attr).mapped =
      Function.update σ.mapped v (if pteUsed attr then some attr else none) := by
  unfold setEntry
  dsimp only [MmuState.write]
  rw [pageIncrease_mapped]

theorem DirInv.map_entry (hinv : DirInv zone root σ) (hexact : AccessExact root σ) {v : VirPage}
    (hv : σ.HasTable root v.1) {p : ℕ} (hp : FreshPage zone root σ p) {attr : BitVec 32}
    (hbits : AttrBits attr) (hfits : FitsAt root σ attr v.1) :
    DirInv zone root (setEntry zone σ (σ.tableAt root v.1) v p attr) ∧
      AccessExact root (setEntry zone σ (σ.tableAt root v.1) v p attr) ∧
      (setEntry zone σ (σ.tableAt root v.1) v p attr).mem root = σ.mem root := by
  obtain ⟨htroot, hzone, hused⟩ := hinv.table v.1 hv
  have hwrite := hinv.write_entry hv (paddr2Pte (pageAddr p) ||| attr)
    (pageIncrease_mem zone σ (σ.tableAt root v.1))
  have hset : EntrySet root σ (setEntry zone σ (σ.tableAt root v.1) v p attr) v
      (paddr2Pte (pageAddr p) ||| attr) := ⟨hwrite.dir, hwrite.self, hwrite.others⟩
  have hself := pageIncrease_reference_self σ hzone
  have hother := fun {q} (h : q ≠ σ.tableAt root v.1) => pageIncrease_reference_of_ne zone σ h
  have hpos : ∀ {q}, 1 ≤ σ.reference q →
      1 ≤ (setEntry zone σ (σ.tableAt root v.1) v p attr).reference q := by
    intro q hq
    rw [setEntry_reference]
    by_cases hqt : q = σ.tableAt root v.1
    · rw [hqt, hself]
      omega
    · rwa [hother hqt]
  refine ⟨hset.dirInv hinv hv ?_ ?_ ?_ ?_ (setEntry_supply _ _ _ _),
    hset.accessExact hexact hv attr ?_ ?_, hset.dir⟩
  · intro _
    rw [pageOf_entry hp.bound hbits]
    exact ⟨hp, hpos hp.reference⟩
  · intro d hd
    rw [setEntry_mem, setEntry_reference]
    by_cases hdv : σ.tableAt root d = σ.tableAt root v.1
    · have hle := usedEntries_write_le (pageIncrease zone σ (σ.tableAt root v.1))
        ⟨σ.tableAt root v.1, v.2⟩ (paddr2Pte (pageAddr p) ||| attr)
      rw [pageIncrease_mem] at hle
      dsimp only at hle
      rw [hdv, hself]
      omega
    · rw [usedEntries_write_of_ne _ _ _ hdv, pageIncrease_mem, hother hdv]
      exact (hinv.table d hd).2.2
  · exact fun w _ hw => hpos (hinv.leaf w hw).1
  · intro q hq
    have hzero := (hinv.fresh q hq).2.2.2
    have hqt : q ≠ σ.tableAt root v.1 := by
      rintro rfl
      omega
    rw [setEntry_reference]
    exact (hother hqt).trans hzero
  · rw [setEntry_mapped, pteUsed_entry]
  · intro hused
    rw [pteUsed_entry] at hused
    exact access_of_fits (hfits hused hv)

theorem DirInv.setEntry_off (hinv : DirInv zone root σ) {t : ℕ} (ht : FreshPage zone root σ t)
    (v : VirPage) (p : ℕ) (attr : BitVec 32) :
    DirInv zone root (setEntry zone σ t v p attr) ∧
      SameTables root σ (setEntry zone σ t v p attr) := by
  have hmem : ∀ u, u ≠ t → (setEntry zone σ t v p attr).mem u = σ.mem u := by
    intro u hu
    funext j
    rw [setEntry_mem, write_mem, if_neg fun h => hu h.1, pageIncrease_mem]
  have href : ∀ q, q ≠ t → (setEntry zone σ t v p attr).reference q = σ.reference q :=
    fun q hq => pageIncrease_reference_of_ne zone σ hq
  have hsupply : (setEntry zone σ t v p attr).supply = σ.supply := setEntry_supply t v p attr
  have hsame : SameTables root σ (setEntry zone σ t v p attr) := by
    refine ⟨?_, ?_, fun d hd => hmem _ (ht.table d hd)⟩
    · intro d
      unfold MmuState.HasTable
      rw [hmem root ht.ne_root.symm]
    · intro d _
      rw [hmem root ht.ne_root.symm]
  refine ⟨hsame.dirInv hinv ?_ ?_ ?_ (hsupply ▸ hinv.nodup), hsame⟩
  · exact fun d hd => Nat.le_of_eq (href _ (ht.table d hd)).symm
  · intro w hw
    rw [href _ (ht.leaf w hw)]
    exact (hinv.leaf w hw).1
  · intro q hq
    rw [hsupply] at hq
    have hqt : q ≠ t := by
      rintro rfl
      exact ht.supply hq
    exact ⟨hq, (href q hqt).trans (hinv.fresh q hq).2.2.2⟩

theorem fits_entry (t : ℕ) (attr : BitVec 32) :
    (attr &&& (paddr2Pte (pageAddr t) ||| attr)) &&& accessBits = attr &&& accessBits := by
  rw [BitVec.and_assoc, entry_and (by decide), ← BitVec.and_assoc, BitVec.and_self]

theorem pageWalk_hasTable {va attr : BitVec 32} {allocPage : Bool} {r : Option PtePtr}
    (hd : σ.HasTable root (getPdeOff va))
    (h : pageWalk zone root σ va allocPage attr = .ok (r, τ)) :
    r = some ⟨σ.tableAt root (getPdeOff va), getPteOff va⟩ ∧ τ = σ := by
  unfold pageWalk at h
  obtain ⟨-, -, h⟩ := exec_bind_eq_ok_iff.mp h
  have hused : pteUsed (σ.read ⟨root, getPdeOff va⟩) = true := hd
  dsimp only at h
  rw [if_pos hused] at h
  obtain ⟨-, -, h⟩ := exec_bind_eq_ok_iff.mp h
  cases h
  exact ⟨rfl, rfl⟩

theorem pageWalk_empty {va attr : BitVec 32} {allocPage : Bool} {r : Option PtePtr}
    (hd : ¬σ.HasTable root (getPdeOff va))
    (h : pageWalk zone root σ va allocPage attr = .ok (r, τ)) :
    (r = none ∧ τ = σ) ∨ (allocPage = true ∧ ∃ t υ, pageAlloc σ = (some t, υ) ∧
      r = some ⟨t, getPteOff va⟩ ∧ τ = newTable zone root υ (getPdeOff va) t attr) := by
  unfold pageWalk at h
  obtain ⟨-, -, h⟩ := exec_bind_eq_ok_iff.mp h
  have hused : ¬pteUsed (σ.read ⟨root, getPdeOff va⟩) = true := hd
  dsimp only at h
  rw [if_neg hused] at h
  cases allocPage with
  | false =>
      cases h
      exact Or.inl ⟨rfl, rfl⟩
  | true =>
      simp only [Bool.not_true, Bool.false_eq_true, if_false] at h
      split at h
      next υ halloc =>
        cases h
        exact Or.inl ⟨rfl, pageAlloc_eq_none halloc⟩
      next t υ halloc =>
        cases h
        exact Or.inr ⟨rfl, t, υ, halloc, rfl, rfl⟩

theorem isVirAddrMapped_ok {va : BitVec 32} {mapped : Bool}
    (h : isVirAddrMapped zone root σ va = .ok (mapped, τ)) : τ = σ := by
  unfold isVirAddrMapped at h
  obtain ⟨⟨r, υ⟩, hwalk, h⟩ := exec_bind_eq_ok_iff.mp h
  have hυ : υ = σ := by
    by_cases hd : σ.HasTable root (getPdeOff va)
    · exact (pageWalk_hasTable hd hwalk).2
    · rcases pageWalk_empty hd hwalk with ⟨-, hυ⟩ | ⟨hfalse, -⟩
      · exact hυ
      · cases hfalse
  cases r <;> cases h <;> exact hυ

/-- What `MapOnePage` leaves behind. -/
structure MapStep (zone : ℕ → Bool) (root : ℕ) (σ τ : MmuState) (attr : BitVec 32) : Prop where
  dirInv : DirInv zone root τ
  accessExact : AccessExact root τ
  fits : ∀ d, FitsAt root σ attr d → FitsAt root τ attr d

theorem DirInv.map_newTable (hinv : DirInv zone root σ) (hexact : AccessExact root σ) {v : VirPage}
    (hv : ¬σ.HasTable root v.1) {p t : ℕ} (hp : FreshPage zone root σ p)
    (ht : FreshPage zone root σ t) (hpt : p ≠ t) {attr : BitVec 32} (hbits : AttrBits attr) :
    MapStep zone root σ (setEntry zone (newTable zone root σ v.1 t attr) t v p attr) attr := by
  have hreference : ∀ q, q ≠ root → (newTable zone root σ v.1 t attr).reference q =
      σ.reference q := fun q hq => newTable_reference hq
  have hsupply : (newTable zone root σ v.1 t attr).supply = σ.supply := newTable_supply
  have hfits : ∀ e, FitsAt root σ attr e →
      FitsAt root (newTable zone root σ v.1 t attr) attr e := by
    intro e he
    by_cases hev : e = v.1
    · subst hev
      intro _ _
      rw [newTable_dir_self]
      exact fits_entry t attr
    · unfold FitsAt MmuState.HasTable at he ⊢
      rw [newTable_dir ht.ne_root hev]
      exact he
  cases hattr : pteUsed attr with
  | true =>
      have hadd := newTable_used hinv ht hattr hbits (d := v.1)
      have hp' := hadd.freshPage hv hp hpt hreference hsupply
      obtain ⟨hdir', haccess', hroot⟩ := (hadd.dirInv hinv hv ht hreference hsupply).map_entry
        (hadd.accessExact hv hexact newTable_mapped) hadd.self hp' hbits
        (hfits v.1 fun _ h => absurd h hv)
      rw [hadd.self_table] at hdir' haccess' hroot
      exact ⟨hdir', haccess', fun e he => (hfits e he).congr hroot⟩
  | false =>
      have hsame := newTable_unused hinv ht hv hattr (d := v.1)
      have hdir : DirInv zone root (newTable zone root σ v.1 t attr) := by
        refine hsame.dirInv hinv ?_ ?_ ?_ (hsupply ▸ hinv.nodup)
        · exact fun d hd => Nat.le_of_eq (hreference _ (hinv.table d hd).1).symm
        · intro w hw
          rw [hreference _ (hinv.leaf w hw).2.1]
          exact (hinv.leaf w hw).1
        · intro q hq
          rw [hsupply] at hq
          obtain ⟨-, -, hne, hzero⟩ := hinv.fresh q hq
          exact ⟨hq, (hreference q hne).trans hzero⟩
      have ht' := hsame.freshPage ht (Nat.le_of_eq (hreference t ht.ne_root).symm)
        (fun q hq => hsupply ▸ hq)
      obtain ⟨hdir', hsame'⟩ := hdir.setEntry_off ht' v p attr
      have hnone : σ.mapped v = none := by
        cases hmapped : σ.mapped v with
        | none => rfl
        | some attr' => exact absurd (hexact.present v attr' hmapped).1.1 hv
      have hmapped : (setEntry zone (newTable zone root σ v.1 t attr) t v p attr).mapped =
          (newTable zone root σ v.1 t attr).mapped := by
        rw [setEntry_mapped, hattr, if_neg Bool.false_ne_true, newTable_mapped, ← hnone,
          Function.update_eq_self]
      refine ⟨hdir', hsame'.accessExact (hsame.accessExact hexact newTable_mapped) hmapped, ?_⟩
      intro e he hused hpresent
      have hpresent' := (hsame'.hasTable e).mp hpresent
      rw [hsame'.dir e hpresent']
      exact hfits e he hused hpresent'

theorem mapOnePage_tail {t : ℕ} {va attr : BitVec 32} {p : ℕ} {err : NxError}
    (h : (if pteUsed (σ.read ⟨t, getPteOff va⟩) then .error .panic
      else .ok (.eok, setEntry zone σ t (virPage va) p attr) : Exec (NxError × MmuState)) =
      .ok (err, τ)) : err = .eok ∧ τ = setEntry zone σ t (virPage va) p attr := by
  split at h
  next => cases h
  next =>
    cases h
    exact ⟨rfl, rfl⟩

/-- A new page is mapped: the access to it is what its attributes say, if the directory
allows it. -/
theorem mapOnePage_spec (hinv : DirInv zone root σ) (hexact : AccessExact root σ) {p : ℕ}
    (hp : FreshPage zone root σ p) {va attr : BitVec 32} (hbits : AttrBits attr)
    (hfits : FitsAt root σ attr (getPdeOff va)) {err : NxError}
    (h : mapOnePage zone root σ va (pageAddr p) attr = .ok (err, τ)) :
    MapStep zone root σ τ attr ∧ (err ≠ .eok → τ = σ) := by
  have hstay : MapStep zone root σ σ attr := ⟨hinv, hexact, fun _ hd => hd⟩
  unfold mapOnePage at h
  obtain ⟨⟨isMapped, υ⟩, hcheck, h⟩ := exec_bind_eq_ok_iff.mp h
  have hυ : σ = υ := (isVirAddrMapped_ok hcheck).symm
  subst hυ
  cases isMapped with
  | true =>
      cases h
      exact ⟨hstay, fun _ => rfl⟩
  | false =>
      simp only [Bool.false_eq_true, if_false] at h
      obtain ⟨⟨r, υ⟩, hwalk, h⟩ := exec_bind_eq_ok_iff.mp h
      by_cases hd : σ.HasTable root (getPdeOff va)
      · obtain ⟨rfl, hυ⟩ := pageWalk_hasTable hd hwalk
        rw [hυ] at h
        obtain ⟨rfl, rfl⟩ := mapOnePage_tail h
        obtain ⟨hdir, haccess', hroot⟩ := hinv.map_entry hexact (v := virPage va) hd hp hbits hfits
        exact ⟨⟨hdir, haccess', fun e he => he.congr hroot⟩, fun hne => absurd rfl hne⟩
      · rcases pageWalk_empty hd hwalk with ⟨rfl, hυ⟩ | ⟨-, t, ρ, halloc, rfl, rfl⟩
        · rw [hυ] at h
          cases h
          exact ⟨hstay, fun _ => rfl⟩
        · obtain ⟨hρ, ht, hsame, hmapped, htsupply, hsupply, hreference⟩ := hinv.pageAlloc halloc
          have hpt : p ≠ t := by
            rintro rfl
            exact hp.supply htsupply
          have hp' := hsame.freshPage hp (Nat.le_of_eq (hreference p hpt).symm) hsupply
          have hd' : ¬ρ.HasTable root (virPage va).1 := by
            rw [hsame.hasTable]
            exact hd
          obtain ⟨rfl, rfl⟩ := mapOnePage_tail h
          have hstep := hρ.map_newTable (hsame.accessExact hexact hmapped) hd' hp' ht hpt hbits
          refine ⟨⟨hstep.dirInv, hstep.accessExact, ?_⟩, fun hne => absurd rfl hne⟩
          intro e he
          refine hstep.fits e ?_
          intro hused hpresent
          rw [hsame.hasTable] at hpresent
          rw [hsame.dir e hpresent]
          exact he hused hpresent

theorem DirInv.clear_entry (hinv : DirInv zone root σ) (hexact : AccessExact root σ) {v : VirPage}
    (hv : σ.Present root v) {ρ : MmuState} (hmem : ρ.mem = σ.mem)
    (hsupply : ρ.supply = σ.supply) (hmapped : ρ.mapped = σ.mapped)
    (hreference : ∀ q, q ≠ σ.leafAt root v → ρ.reference q = σ.reference q)
    (hτmem : τ.mem = (ρ.write ⟨σ.tableAt root v.1, v.2⟩ 0).mem)
    (hτsupply : τ.supply = ρ.supply) (hτmapped : τ.mapped = Function.update ρ.mapped v none)
    (hτself : τ.reference (σ.tableAt root v.1) = σ.reference (σ.tableAt root v.1) - 1)
    (hτother : ∀ q, q ≠ σ.tableAt root v.1 → τ.reference q = ρ.reference q) :
    DirInv zone root τ ∧ AccessExact root τ := by
  obtain ⟨hpos, hroot, htables⟩ := hinv.leaf v hv
  have hwrite := hinv.write_entry hv.1 0 hmem
  have hset : EntrySet root σ τ v 0 := by
    refine ⟨?_, ?_, ?_⟩
    · rw [hτmem]
      exact hwrite.dir
    · unfold MmuState.entryAt MmuState.tableAt
      rw [hτmem]
      exact hwrite.self
    · intro w hne hw
      unfold MmuState.entryAt MmuState.tableAt
      rw [hτmem]
      exact hwrite.others w hne hw
  have hcount := usedEntries_write_unused ρ ⟨σ.tableAt root v.1, v.2⟩ (x := 0)
    (by unfold MmuState.read; rw [hmem]; exact hv.2) (by decide)
  rw [hmem] at hcount
  have hkept : ∀ q, q ≠ σ.leafAt root v → q ≠ σ.tableAt root v.1 →
      τ.reference q = σ.reference q :=
    fun q hleaf htable => (hτother q htable).trans (hreference q hleaf)
  refine ⟨hset.dirInv hinv hv.1 (fun h => absurd h (by decide)) ?_ ?_ ?_
    (hτsupply.trans hsupply), hset.accessExact hexact hv.1 0 ?_ (fun h => absurd h (by decide))⟩
  · intro d hd
    have hle := (hinv.table d hd).2.2
    rw [hτmem]
    by_cases hdv : σ.tableAt root d = σ.tableAt root v.1
    · rw [hdv] at hle ⊢
      rw [hτself]
      dsimp only at hcount
      omega
    · rw [usedEntries_write_of_ne _ _ _ hdv, hmem, hkept _ (htables d hd).symm hdv]
      exact hle
  · intro w hne hw
    obtain ⟨hwpos, -, hwtables⟩ := hinv.leaf w hw
    rw [hkept _ (fun heq => hne (hinv.leaf_inj w v hw hv heq)) (hwtables v.1 hv.1)]
    exact hwpos
  · intro q hq
    have hzero := (hinv.fresh q hq).2.2.2
    have htable := (hinv.table v.1 hv.1).2.2
    rw [hkept q (by rintro rfl; omega) (by rintro rfl; omega)]
    exact hzero
  · rw [hτmapped, hmapped]
    rfl

/-- The table of a page that is unmapped keeps a reference, so the directory stays as it
is. -/
theorem unmapOnePage_spec (hinv : DirInv zone root σ) (hexact : AccessExact root σ)
    {va : BitVec 32} (h : unmapOnePage zone root σ va = .ok τ) :
    DirInv zone root τ ∧ AccessExact root τ := by
  unfold unmapOnePage pageWalkPte at h
  by_cases hd : σ.HasTable root (virPage va).1
  · have hused : pteUsed (σ.read ⟨root, getPdeOff va⟩) = true := hd
    dsimp only at h
    rw [if_pos hused] at h
    dsimp only at h
    obtain ⟨⟨⟩, hassert, h⟩ := exec_bind_eq_ok_iff.mp h
    obtain ⟨-, -, h⟩ := exec_bind_eq_ok_iff.mp h
    obtain ⟨⟨err, ρ⟩, hleaf, h⟩ := exec_bind_eq_ok_iff.mp h
    obtain ⟨⟨err', υ⟩, htable, h⟩ := exec_bind_eq_ok_iff.mp h
    have hv : σ.Present root (virPage va) := ⟨hd, nxAssert_eq_ok_iff.mp hassert⟩
    obtain ⟨hmem, hsupply, hmapped, hreference⟩ := pageFree_frame hleaf
    obtain ⟨-, hzone, hle⟩ := hinv.table _ hd
    have hcount := usedEntries_write_unused ρ ⟨σ.tableAt root (virPage va).1, (virPage va).2⟩
      (x := 0) (by unfold MmuState.read; rw [hmem]; exact hv.2) (by decide)
    rw [hmem] at hcount
    have hsame : ρ.reference (σ.tableAt root (virPage va).1) =
        σ.reference (σ.tableAt root (virPage va).1) :=
      hreference _ ((hinv.leaf _ hv).2.2 _ hd).symm
    dsimp only at hcount
    rcases pageFree_ok htable with ⟨-, -, hzero⟩ | ⟨-, hfreed, hυ⟩
    · have hzero := hzero hzone
      change ρ.reference (σ.tableAt root (virPage va).1) = 0 at hzero
      omega
    · have hkept : err' ≠ .eok := by
        intro heok
        have hone := hfreed heok
        change ρ.reference (σ.tableAt root (virPage va).1) = 1 at hone
        omega
      dsimp only at h
      rw [if_neg hkept] at h
      cases h
      subst hυ
      refine hinv.clear_entry hexact hv hmem hsupply hmapped hreference rfl rfl rfl ?_ ?_
      · rw [← hsame]
        exact Function.update_self ..
      · exact fun q hq => Function.update_of_ne hq ..
  · have hused : ¬pteUsed (σ.read ⟨root, getPdeOff va⟩) = true := hd
    dsimp only at h
    rw [if_neg hused] at h
    cases h

/-! ## Ranges -/

theorem unmapPages_spec {pages : ℕ} {va : BitVec 32} (hinv : DirInv zone root σ)
    (hexact : AccessExact root σ) (h : unmapPages zone root va pages σ = .ok τ) :
    DirInv zone root τ ∧ AccessExact root τ := by
  induction pages generalizing va σ with
  | zero =>
      cases h
      exact ⟨hinv, hexact⟩
  | succ pages ih =>
      obtain ⟨υ, hone, h⟩ := exec_bind_eq_ok_iff.mp h
      obtain ⟨hinv', haccess'⟩ := unmapOnePage_spec hinv hexact hone
      exact ih hinv' haccess' h

/-- The loop of `__MapPage`, with its way back after a failure. -/
theorem mapPages_spec {pages mappedPages : ℕ} {start va attr : BitVec 32}
    (hinv : DirInv zone root σ) (hexact : AccessExact root σ) (hbits : AttrBits attr)
    (hfits : ∀ i < pages, FitsAt root σ attr (getPdeOff (va + BitVec.ofNat 32 (4096 * i))))
    {r : Option (BitVec 32)}
    (h : mapPages zone root start attr mappedPages va pages σ = .ok (r, τ)) :
    DirInv zone root τ ∧ AccessExact root τ := by
  induction pages generalizing va σ mappedPages with
  | zero =>
      cases h
      exact ⟨hinv, hexact⟩
  | succ pages ih =>
      unfold mapPages at h
      rcases halloc : pageAlloc σ with ⟨p | p, υ⟩
      · rw [halloc] at h
        obtain ⟨ρ, hundo, h⟩ := exec_bind_eq_ok_iff.mp h
        rw [pageAlloc_eq_none halloc] at hundo
        cases h
        exact unmapPages_spec hinv hexact hundo
      · rw [halloc] at h
        obtain ⟨hυ, hp, hsame, hmapped, -⟩ := hinv.pageAlloc halloc
        have haccessυ := hsame.accessExact hexact hmapped
        have hfitsυ : ∀ d, FitsAt root σ attr d → FitsAt root υ attr d := by
          intro d hd hused hpresent
          rw [hsame.hasTable] at hpresent
          rw [hsame.dir d hpresent]
          exact hd hused hpresent
        obtain ⟨⟨err, ρ⟩, hone, h⟩ := exec_bind_eq_ok_iff.mp h
        have hfirst := hfits 0 (Nat.succ_pos _)
        rw [Nat.mul_zero, BitVec.add_zero] at hfirst
        obtain ⟨hstep, hfail⟩ := mapOnePage_spec hυ haccessυ hp hbits (hfitsυ _ hfirst) hone
        by_cases herr : err = .eok
        · subst herr
          refine ih hstep.dirInv hstep.accessExact ?_ h
          intro i hi
          have hnext := hstep.fits _ (hfitsυ _ (hfits (i + 1) (Nat.succ_lt_succ hi)))
          have haddr : va + BitVec.ofNat 32 (4096 * (i + 1)) =
              va + 4096 + BitVec.ofNat 32 (4096 * i) := by
            rw [Nat.mul_add, Nat.mul_one, Nat.add_comm, BitVec.ofNat_add, ← BitVec.add_assoc]
            rfl
          rwa [haddr] at hnext
        · have hρ := hfail herr
          subst hρ
          have hrest : (pageFree zone ρ p >>= fun x =>
              unmapPages zone root start mappedPages x.2 >>= fun σ =>
                (.ok (none, σ) : Exec (Option (BitVec 32) × MmuState))) = .ok (r, τ) := by
            cases err <;> first | exact absurd rfl herr | exact h
          obtain ⟨⟨err', ω⟩, hfree, hrest⟩ := exec_bind_eq_ok_iff.mp hrest
          obtain ⟨κ, hundo, hrest⟩ := exec_bind_eq_ok_iff.mp hrest
          cases hrest
          obtain ⟨hω, hsame', hmapped'⟩ := hυ.pageFree_off hp.table hp.leaf hfree
          exact unmapPages_spec hω (hsame'.accessExact haccessυ hmapped') hundo

/-! ## Runs -/

/-- The operations, with the pages that `NX_PageAlloc` hands out during a mapping. -/
inductive MmuOp where
  | mapPage (va size attr : BitVec 32) (supply : List ℕ)
  | unmapPage (va size : BitVec 32)

/-- The state after an operation, whether it succeeded or failed.  There is none if the
kernel stopped in an assertion. -/
def mmuStep (zone : ℕ → Bool) (root : ℕ) (σ : MmuState) : MmuOp → Option MmuState
  | .mapPage va size attr supply =>
      match halMapPage zone root { σ with supply } va size attr with
      | .ok (_, τ) => some τ
      | .error _ => none
  | .unmapPage va size =>
      match halUnmapPage zone root σ va size with
      | .ok (_, τ) => some τ
      | .error _ => none

/-- What is assumed of `NX_PageAlloc`: it hands out pages without references. -/
structure SupplyOk (zone : ℕ → Bool) (root : ℕ) (σ : MmuState) (supply : List ℕ) : Prop where
  fresh : ∀ p ∈ supply, p < 2 ^ 20 ∧ zone p = true ∧ p ≠ root ∧ σ.reference p = 0
  nodup : supply.Nodup

def MmuMove (zone : ℕ → Bool) (root : ℕ) (σ : MmuState) (op : MmuOp) (τ : MmuState) : Prop :=
  mmuStep zone root σ op = some τ ∧
    ∀ va size attr supply, op = .mapPage va size attr supply → SupplyOk zone root σ supply

/-- The attributes are attribute bits, and no page of the range lies in a table whose
entry in the directory grants less than they do. -/
def MmuOp.Fits (root : ℕ) (σ : MmuState) : MmuOp → Prop
  | .mapPage va size attr _ => AttrBits attr ∧
      ∀ i < (rangePages (va &&& ~~~pageMask) (pageAlignUp size)).toInt.toNat,
        FitsAt root σ attr (getPdeOff ((va &&& ~~~pageMask) + BitVec.ofNat 32 (4096 * i)))
  | .unmapPage _ _ => True

/-- A directory without tables. -/
structure EmptyDir (root : ℕ) (σ : MmuState) : Prop where
  dir : ∀ d, ¬σ.HasTable root d
  mapped : ∀ v, σ.mapped v = none
  supply : σ.supply = []

theorem EmptyDir.dirInv (h : EmptyDir root σ) : DirInv zone root σ where
  table := fun d hd => absurd hd (h.dir d)
  table_inj := fun d _ hd _ _ => absurd hd (h.dir d)
  leaf := fun v hv => absurd hv.1 (h.dir v.1)
  leaf_inj := fun v _ hv _ _ => absurd hv.1 (h.dir v.1)
  fresh := by
    rw [h.supply]
    exact nofun
  nodup := by
    rw [h.supply]
    exact List.nodup_nil

theorem EmptyDir.accessExact (h : EmptyDir root σ) : AccessExact root σ where
  absent := fun v _ hv => h.dir v.1 hv.1
  present := by
    intro v attr hv
    rw [h.mapped] at hv
    cases hv

theorem mmuStep_spec (hinv : DirInv zone root σ) (hexact : AccessExact root σ) {op : MmuOp}
    (hmove : MmuMove zone root σ op τ) (hfits : op.Fits root σ) :
    DirInv zone root τ ∧ AccessExact root τ := by
  obtain ⟨hstep, hsupply⟩ := hmove
  cases op with
  | mapPage va size attr supply =>
      obtain ⟨hbits, hfits⟩ := hfits
      obtain ⟨hfresh, hnodup⟩ := hsupply va size attr supply rfl
      have hinv' : DirInv zone root { σ with supply } :=
        ⟨hinv.table, hinv.table_inj, hinv.leaf, hinv.leaf_inj, hfresh, hnodup⟩
      have hexact' : AccessExact root { σ with supply } := ⟨hexact.absent, hexact.present⟩
      dsimp only [mmuStep] at hstep
      split at hstep
      next r υ hmap =>
        cases hstep
        unfold halMapPage at hmap
        split at hmap
        next =>
          cases hmap
          exact ⟨hinv', hexact'⟩
        next => exact mapPages_spec hinv' hexact' hbits hfits hmap
      next => cases hstep
  | unmapPage va size =>
      dsimp only [mmuStep] at hstep
      split at hstep
      next r υ hunmap =>
        cases hstep
        unfold halUnmapPage at hunmap
        obtain ⟨ρ, hpages, hunmap⟩ := exec_bind_eq_ok_iff.mp hunmap
        cases hunmap
        exact unmapPages_spec hinv hexact hpages
      next => cases hstep

/-- In every run whose mappings fit the directory entries that are there, the hardware
grants to each mapped page exactly the write and user access of its attributes. -/
theorem x86Reachable_accessExact {σ₀ : MmuState} (hempty : EmptyDir root σ₀) :
    ∀ σ, Reachable (fun σ op τ => MmuMove zone root σ op τ ∧ op.Fits root σ) σ₀ σ →
      AccessExact root σ := by
  intro σ hreach
  have hinv : DirInv zone root σ ∧ AccessExact root σ :=
    hreach.invariant (P := fun σ => DirInv zone root σ ∧ AccessExact root σ)
      ⟨hempty.dirInv, hempty.accessExact⟩
      (fun hinv hmove => mmuStep_spec hinv.1 hinv.2 hmove.1 hmove.2)
  exact hinv.2

def emptyMachine : MmuState where
  mem := fun _ _ => 0
  reference := fun _ => 0
  supply := []
  mapped := fun _ => none

theorem emptyMachine_emptyDir (root : ℕ) : EmptyDir root emptyMachine where
  dir := by
    intro d h
    have hused : pteUsed 0 = true := h
    exact absurd hused (by decide)
  mapped := fun _ => rfl
  supply := rfl

/-- A page is mapped for user mode. -/
theorem x86Reachable_accessExact_user :
    ∃ σ, Reachable (fun σ op τ => MmuMove (fun _ => true) 1 σ op τ ∧ op.Fits 1 σ)
        emptyMachine σ ∧ σ.mapped (0, 0) = some 7 ∧ AccessExact 1 σ := by
  have heval : (mmuStep (fun _ => true) 1 emptyMachine (.mapPage 0 4096 7 [2, 3])).map
      (fun σ => σ.mapped (0, 0)) = some (some 7) := by
    decide
  obtain ⟨σ, hstep, hmapped⟩ := Option.map_eq_some_iff.mp heval
  have hreach : Reachable (fun σ op τ => MmuMove (fun _ => true) 1 σ op τ ∧ op.Fits 1 σ)
      emptyMachine σ := by
    refine .tail .refl ⟨⟨hstep, ?_⟩, by unfold AttrBits; decide, ?_⟩
    · rintro va size attr supply ⟨⟩
      refine ⟨?_, by decide⟩
      intro p hp
      rw [List.mem_cons, List.mem_singleton] at hp
      rcases hp with rfl | rfl <;> exact ⟨by decide, rfl, by decide, rfl⟩
    · exact fun i _ _ h => absurd h ((emptyMachine_emptyDir 1).dir _)
  exact ⟨σ, hreach, hmapped, x86Reachable_accessExact (emptyMachine_emptyDir 1) σ hreach⟩

/-- A page is mapped for user mode after another page of its table was mapped for the
kernel: the hardware does not let user mode in. -/
theorem x86Reachable_accessLost :
    EmptyDir 1 emptyMachine ∧ ∃ σ, Reachable (MmuMove (fun _ => true) 1) emptyMachine σ ∧
      σ.mapped (0, 1) = some 7 ∧ σ.access 1 (0, 1) = pteW ∧ ¬AccessExact 1 σ := by
  have heval : ((mmuStep (fun _ => true) 1 emptyMachine (.mapPage 0 4096 3 [2, 3])).bind
      fun σ => (mmuStep (fun _ => true) 1 σ (.mapPage 4096 4096 7 [4])).map
        fun τ => (σ.reference 4, τ.mapped (0, 1), τ.access 1 (0, 1))) =
      some (0, some 7, pteW) := by
    decide
  obtain ⟨σ, hfirst, hrest⟩ := Option.bind_eq_some_iff.mp heval
  obtain ⟨τ, hsecond, hτ⟩ := Option.map_eq_some_iff.mp hrest
  simp only [Prod.mk.injEq] at hτ
  obtain ⟨hzero, hmapped, haccess⟩ := hτ
  refine ⟨emptyMachine_emptyDir 1, τ, .tail (.tail .refl ⟨hfirst, ?_⟩) ⟨hsecond, ?_⟩, hmapped,
    haccess, ?_⟩
  · rintro va size attr supply ⟨⟩
    refine ⟨?_, by decide⟩
    intro p hp
    rw [List.mem_cons, List.mem_singleton] at hp
    rcases hp with rfl | rfl <;> exact ⟨by decide, rfl, by decide, rfl⟩
  · rintro va size attr supply ⟨⟩
    refine ⟨?_, by decide⟩
    intro p hp
    rw [List.mem_singleton] at hp
    subst hp
    exact ⟨by decide, rfl, by decide, hzero⟩
  · intro hexact
    have hbits := (hexact.present _ _ hmapped).2
    rw [haccess] at hbits
    exact absurd hbits (by decide)

end Nxos.X86
