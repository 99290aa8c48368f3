import Mathlib.Data.BitVec
import Nxos.Process.LoadElf.Mapping

/-!
# The contents of the segments

What the second pass of the loader leaves in the memory of the process: a segment holds its bytes
of the file and zeros behind them, and loading it changes nothing else.

A segment that wraps around at the end of the address space is mapped without pages, but its
bytes go over page zero, which leads nowhere.
-/

namespace Nxos.Process

/-! ## Bytes of the process -/

def userByte (frames : ℕ → Option ℕ) (ram : ℕ → BitVec 8) (a : ℕ) : Option (BitVec 8) :=
  (frames (a / 4096)).map fun f => ram (f * 4096 + a % 4096)

section Bytes

variable {kernel : ℕ → Prop} {frames : ℕ → Option ℕ}

theorem TablesInv.userByte_storeBytes (hinv : TablesInv kernel frames) {p f a : ℕ}
    (ram : ℕ → BitVec 8) (o : ℕ) (bytes : List (BitVec 8)) (hp : ¬kernel p) (hpf : frames p = some f)
    (hfits : o + bytes.length ≤ 4096) (ha : ¬kernel (a / 4096)) :
    userByte frames (storeBytes ram (f * 4096 + o) bytes) a =
      if p * 4096 + o ≤ a ∧ a < p * 4096 + o + bytes.length then bytes[a - (p * 4096 + o)]?
      else userByte frames ram a := by
  unfold userByte
  by_cases hpage : a / 4096 = p
  · subst hpage
    rw [hpf, Option.map_some, Option.map_some]
    have hsplit : a = a / 4096 * 4096 + a % 4096 := by omega
    have hdrop : f * 4096 + a % 4096 - (f * 4096 + o) = a % 4096 - o := Nat.add_sub_add_left _ _ _
    have hdrop' : a - (a / 4096 * 4096 + o) = a % 4096 - o := by omega
    by_cases hin : o ≤ a % 4096 ∧ a % 4096 < o + bytes.length
    · rw [if_pos (by omega), storeBytes_of_mem (by omega) (by omega), hdrop, hdrop']
    · rw [if_neg (by omega), storeBytes_of_notMem (by omega)]
  · rw [if_neg (by omega)]
    cases hframe : frames (a / 4096) with
    | none => rfl
    | some f' =>
        have hne : f' ≠ f := fun heq => hpage (hinv.injective ha hp hframe (heq ▸ hpf))
        have hlt := Nat.mod_lt a (show 0 < 4096 by omega)
        rw [Option.map_some, Option.map_some, storeBytes_of_notMem ?_]
        rcases Nat.lt_or_gt_of_ne hne with hlt' | hlt'
        · omega
        · omega

end Bytes

/-! ## Rounds -/

section Rounds

variable {μ : Type} {mmuVir2Phy : μ → BitVec 64 → Exec (BitVec 64)}
  {frame : μ → ℕ → Option ℕ} {kernel : ℕ → Prop} {m : μ} {file : List (BitVec 8)}
  {vaddr size readLen readLen' bssOff : BitVec 64} {rounds pos : ℕ} {ram ram' : ℕ → BitVec 8}

/-- The pages from an address on that the rounds go over: each of them leads somewhere. -/
def Touched (frames : ℕ → Option ℕ) (vaddr : BitVec 64) (rounds : ℕ) : Prop :=
  ∀ j < rounds, ∃ f, frames ((vaddr.toNat + 4096 * j) % 2 ^ 64 / 4096) = some f ∧ f ≠ 0

private theorem toNat_page : (4096 : BitVec 64).toNat = 4096 := rfl

theorem Touched.succ {frames : ℕ → Option ℕ} {f : ℕ} (hf : frames (vaddr.toNat / 4096) = some f)
    (hne : f ≠ 0) (hrest : Touched frames (vaddr + 4096) rounds) :
    Touched frames vaddr (rounds + 1) := by
  intro j hj
  cases j with
  | zero =>
      have hlt := vaddr.isLt
      rw [Nat.mul_zero, Nat.add_zero, Nat.mod_eq_of_lt hlt]
      exact ⟨f, hf, hne⟩
  | succ j =>
      have hpage := hrest j (by omega)
      rw [BitVec.toNat_add] at hpage
      have haddr : (vaddr.toNat + 4096 * (j + 1)) % 2 ^ 64 =
          ((vaddr.toNat + (4096 : BitVec 64).toNat) % 2 ^ 64 + 4096 * j) % 2 ^ 64 := by
        rw [toNat_page]
        omega
      rwa [haddr]

/-- Page zero leads nowhere, so the rounds stay below the end of the address space. -/
theorem Touched.bound {frames : ℕ → Option ℕ} (htouched : Touched frames vaddr rounds)
    (hinv : TablesInv kernel frames) (haligned : vaddr.toNat % 4096 = 0)
    (hpos : 0 < vaddr.toNat) : vaddr.toNat + 4096 * rounds ≤ 2 ^ 64 := by
  by_contra hlong
  have hlt := vaddr.isLt
  obtain ⟨f, hf, hne⟩ := htouched ((2 ^ 64 - vaddr.toNat) / 4096) (by omega)
  have hzero : (vaddr.toNat + 4096 * ((2 ^ 64 - vaddr.toNat) / 4096)) % 2 ^ 64 / 4096 = 0 := by
    omega
  rw [hzero] at hf
  exact hne (hinv.zero f hf)

theorem Translates.frame_of_ok (htranslates : Translates mmuVir2Phy frame)
    (haligned : vaddr.toNat % 4096 = 0) {paddr : BitVec 64}
    (hpaddr : mmuVir2Phy m vaddr = .ok paddr) (hne : paddr ≠ 0) :
    ∃ f, frame m (vaddr.toNat / 4096) = some f ∧ f ≠ 0 ∧ paddr.toNat = f * 4096 := by
  obtain ⟨f, hf, hvalue⟩ := htranslates m vaddr paddr hpaddr
  rw [haligned, Nat.add_zero] at hvalue
  refine ⟨f, hf, ?_, hvalue⟩
  rintro rfl
  rw [Nat.zero_mul] at hvalue
  exact hne (BitVec.eq_of_toNat_eq hvalue)

theorem readChunks_succ
    (hread : readChunks mmuVir2Phy file m (rounds + 1) pos size vaddr readLen ram =
      .ok (.eok, readLen', ram')) :
    ∃ (paddr chunk : BitVec 64), (if size < 4096 then size else 4096) = chunk ∧
      mmuVir2Phy m vaddr = .ok paddr ∧ paddr ≠ 0 ∧
      (vfsRead file pos chunk.toNat).length = chunk.toNat ∧
      readChunks mmuVir2Phy file m rounds (pos + chunk.toNat) (size - chunk) (vaddr + chunk)
        (readLen + chunk) (storeBytes ram paddr.toNat (vfsRead file pos chunk.toNat)) =
          .ok (.eok, readLen', ram') := by
  rw [readChunks] at hread
  obtain ⟨paddr, hpaddr, hread⟩ := exec_bind_eq_ok_iff.mp hread
  obtain ⟨_, hassert, hread⟩ := exec_bind_eq_ok_iff.mp hread
  generalize hchunk : (if size < 4096 then size else 4096) = chunk at hread
  simp only at hread
  split at hread
  · cases hread
  · next hlength =>
    exact ⟨paddr, chunk, rfl, hpaddr, nxAssert_eq_ok_iff.mp hassert, not_not.mp hlength, hread⟩

theorem pageRounds_sub {chunk : BitVec 64}
    (hchunk : (if size < 4096 then size else 4096) = chunk)
    (hrounds : rounds + 1 = pageRounds size.toNat) :
    chunk.toNat ≤ size.toNat ∧ (size - chunk).toNat = size.toNat - chunk.toNat ∧
      rounds = pageRounds (size - chunk).toNat ∧
      (rounds = 0 ∧ chunk.toNat = size.toNat ∨ chunk = 4096) := by
  have hle : chunk.toNat ≤ size.toNat ∧ (size.toNat < 4096 ∧ chunk.toNat = size.toNat ∨
      4096 ≤ size.toNat ∧ chunk = 4096) := by
    rw [← hchunk]
    split
    · next hlt =>
      rw [BitVec.lt_def, toNat_page] at hlt
      exact ⟨le_refl _, .inl ⟨hlt, rfl⟩⟩
    · next hge =>
      rw [BitVec.lt_def, toNat_page, not_lt] at hge
      exact ⟨hge, .inr ⟨hge, rfl⟩⟩
  have hsub : (size - chunk).toNat = size.toNat - chunk.toNat :=
    BitVec.toNat_sub_of_le (BitVec.le_def.mpr hle.1)
  unfold pageRounds at *
  refine ⟨hle.1, hsub, ?_, ?_⟩
  · rcases hle.2 with ⟨hlt, hsame⟩ | ⟨hge, hfull⟩
    · rw [hsub, hsame]
      omega
    · rw [hsub, hfull, toNat_page]
      omega
  · rcases hle.2 with ⟨hlt, hsame⟩ | ⟨hge, hfull⟩
    · exact .inl ⟨by omega, hsame⟩
    · exact .inr hfull

theorem readChunks_touched (htranslates : Translates mmuVir2Phy frame)
    (haligned : vaddr.toNat % 4096 = 0) (hrounds : rounds = pageRounds size.toNat)
    (hread : readChunks mmuVir2Phy file m rounds pos size vaddr readLen ram =
      .ok (.eok, readLen', ram')) : Touched (frame m) vaddr rounds := by
  induction rounds generalizing pos size vaddr readLen ram with
  | zero => exact fun j hj => absurd hj (Nat.not_lt_zero j)
  | succ rounds ih =>
      obtain ⟨paddr, chunk, hchunk, hpaddr, hne, -, hrest⟩ := readChunks_succ hread
      obtain ⟨f, hf, hfne, -⟩ := htranslates.frame_of_ok haligned hpaddr hne
      obtain ⟨-, -, hleft, hlast⟩ := pageRounds_sub hchunk hrounds
      refine .succ hf hfne ?_
      rcases hlast with ⟨rfl, -⟩ | hfull
      · exact fun j hj => absurd hj (Nat.not_lt_zero j)
      · subst hfull
        refine ih ?_ hleft hrest
        rw [BitVec.toNat_add, toNat_page]
        omega

theorem readChunks_userByte (htranslates : Translates mmuVir2Phy frame)
    (hinv : TablesInv kernel (frame m)) (haligned : vaddr.toNat % 4096 = 0)
    (hrounds : rounds = pageRounds size.toNat) (hbound : vaddr.toNat + 4096 * rounds ≤ 2 ^ 64)
    (huser : ∀ k < rounds, ¬kernel (vaddr.toNat / 4096 + k))
    (hread : readChunks mmuVir2Phy file m rounds pos size vaddr readLen ram =
      .ok (.eok, readLen', ram')) :
    readLen' = readLen + size ∧ (size.toNat = 0 ∨ pos + size.toNat ≤ file.length) ∧
    ∀ a, ¬kernel (a / 4096) → userByte (frame m) ram' a =
      if vaddr.toNat ≤ a ∧ a < vaddr.toNat + size.toNat then file[pos + (a - vaddr.toNat)]?
      else userByte (frame m) ram a := by
  induction rounds generalizing pos size vaddr readLen ram with
  | zero =>
      cases hread
      have hzero : size.toNat = 0 := by
        unfold pageRounds at hrounds
        omega
      refine ⟨?_, .inl hzero, fun a _ => (if_neg (by omega)).symm⟩
      have hnone : size = 0 := BitVec.eq_of_toNat_eq hzero
      rw [hnone]
      exact (BitVec.add_zero _).symm
  | succ rounds ih =>
      obtain ⟨paddr, chunk, hchunk, hpaddr, hne, hlength, hrest⟩ := readChunks_succ hread
      obtain ⟨f, hf, -, hvalue⟩ := htranslates.frame_of_ok haligned hpaddr hne
      obtain ⟨hle, hsub, hleft, hlast⟩ := pageRounds_sub hchunk hrounds
      have hsmall : chunk.toNat ≤ 4096 := by
        rcases hlast with ⟨hzero, hsame⟩ | hfull
        · unfold pageRounds at hrounds
          omega
        · rw [hfull, toNat_page]
      have hfile : chunk.toNat = 0 ∨ pos + chunk.toNat ≤ file.length := by
        rw [vfsRead, List.length_take, List.length_drop] at hlength
        omega
      have hstore : ∀ a, ¬kernel (a / 4096) →
          userByte (frame m) (storeBytes ram paddr.toNat (vfsRead file pos chunk.toNat)) a =
            if vaddr.toNat ≤ a ∧ a < vaddr.toNat + chunk.toNat then file[pos + (a - vaddr.toNat)]?
            else userByte (frame m) ram a := by
        intro a ha
        have hstored := hinv.userByte_storeBytes ram 0 (vfsRead file pos chunk.toNat)
          (huser 0 (by omega)) hf (by rw [Nat.zero_add, hlength]; exact hsmall) ha
        have hpage : vaddr.toNat / 4096 * 4096 = vaddr.toNat := by omega
        rw [Nat.add_zero, Nat.add_zero, Nat.add_zero, hpage, hlength] at hstored
        rw [hvalue, hstored]
        split
        · rw [vfsRead, List.getElem?_take_of_lt (by omega), List.getElem?_drop]
        · rfl
      rcases Nat.eq_zero_or_pos rounds with rfl | hpos
      · have hwhole : chunk.toNat = size.toNat := by
          unfold pageRounds at hleft
          omega
        have hchunkSize : chunk = size := BitVec.eq_of_toNat_eq hwhole
        subst hchunkSize
        cases hrest
        exact ⟨rfl, hfile, hstore⟩
      · have hfull : chunk = 4096 := hlast.resolve_left fun h => absurd h.1 hpos.ne'
        subst hfull
        rw [toNat_page] at hle hsub hstore hfile hrest
        have hnext : (vaddr + 4096).toNat = vaddr.toNat + 4096 := by
          rw [BitVec.toNat_add, toNat_page]
          omega
        obtain ⟨hlen, hrestFile, hview⟩ := ih (by omega) hleft (by omega) (fun k hk => by
          have hshift : (vaddr + 4096).toNat / 4096 + k = vaddr.toNat / 4096 + (k + 1) := by omega
          rw [hshift]
          exact huser (k + 1) (by omega)) hrest
        refine ⟨?_, .inr (by omega), fun a ha => ?_⟩
        · rw [hlen, BitVec.add_assoc, BitVec.add_comm 4096, BitVec.sub_add_cancel]
        · rw [hview a ha, hstore a ha, hnext, hsub]
          by_cases hfirst : vaddr.toNat ≤ a ∧ a < vaddr.toNat + 4096
          · rw [if_neg (by omega), if_pos hfirst, if_pos (by omega)]
          · by_cases hlater : vaddr.toNat + 4096 ≤ a ∧ a < vaddr.toNat + size.toNat
            · have hindex : pos + 4096 + (a - (vaddr.toNat + 4096)) = pos + (a - vaddr.toNat) := by
                omega
              rw [if_pos (by omega), if_pos (by omega), hindex]
            · rw [if_neg (by omega), if_neg hfirst, if_neg (by omega)]

theorem clearBss_succ {bssSize : BitVec 64}
    (hclear : clearBss mmuVir2Phy m (rounds + 1) bssOff bssSize vaddr ram = .ok ram') :
    ∃ (paddr chunk : BitVec 64),
      (if bssSize < 4096 - bssOff then bssSize else 4096 - bssOff) = chunk ∧
      mmuVir2Phy m vaddr = .ok paddr ∧ paddr ≠ 0 ∧
      clearBss mmuVir2Phy m rounds 0 (bssSize - chunk) (vaddr + 4096)
        (storeBytes ram (paddr + bssOff).toNat (List.replicate chunk.toNat 0)) = .ok ram' := by
  rw [clearBss] at hclear
  obtain ⟨paddr, hpaddr, hclear⟩ := exec_bind_eq_ok_iff.mp hclear
  obtain ⟨_, hassert, hclear⟩ := exec_bind_eq_ok_iff.mp hclear
  exact ⟨paddr, _, rfl, hpaddr, nxAssert_eq_ok_iff.mp hassert, hclear⟩

theorem pageRounds_clear {bssSize chunk : BitVec 64} (hoff : bssOff.toNat < 4096)
    (hchunk : (if bssSize < 4096 - bssOff then bssSize else 4096 - bssOff) = chunk)
    (hrounds : rounds + 1 = pageRounds (bssOff.toNat + bssSize.toNat)) :
    bssOff.toNat + chunk.toNat ≤ 4096 ∧ chunk.toNat ≤ bssSize.toNat ∧
      (bssSize - chunk).toNat = bssSize.toNat - chunk.toNat ∧
      rounds = pageRounds (bssSize - chunk).toNat ∧
      ((bssSize - chunk).toNat = 0 ∨ bssOff.toNat + chunk.toNat = 4096) := by
  have hleft : (4096 - bssOff).toNat = 4096 - bssOff.toNat := by
    rw [BitVec.toNat_sub_of_le (BitVec.le_def.mpr (by rw [toNat_page]; omega)), toNat_page]
  have hcases : bssSize.toNat < 4096 - bssOff.toNat ∧ chunk.toNat = bssSize.toNat ∨
      4096 - bssOff.toNat ≤ bssSize.toNat ∧ chunk.toNat = 4096 - bssOff.toNat := by
    rw [← hchunk]
    split
    · next hlt =>
      rw [BitVec.lt_def, hleft] at hlt
      exact .inl ⟨hlt, rfl⟩
    · next hge =>
      rw [BitVec.lt_def, hleft, not_lt] at hge
      exact .inr ⟨hge, hleft⟩
  have hle : chunk.toNat ≤ bssSize.toNat := by omega
  have hsub : (bssSize - chunk).toNat = bssSize.toNat - chunk.toNat :=
    BitVec.toNat_sub_of_le (BitVec.le_def.mpr hle)
  unfold pageRounds at *
  refine ⟨by omega, hle, hsub, ?_, by omega⟩
  rw [hsub]
  omega

theorem clearBss_touched (htranslates : Translates mmuVir2Phy frame) {bssSize : BitVec 64}
    (haligned : vaddr.toNat % 4096 = 0) (hoff : bssOff.toNat < 4096)
    (hrounds : rounds = pageRounds (bssOff.toNat + bssSize.toNat))
    (hclear : clearBss mmuVir2Phy m rounds bssOff bssSize vaddr ram = .ok ram') :
    Touched (frame m) vaddr rounds := by
  induction rounds generalizing bssOff bssSize vaddr ram with
  | zero => exact fun j hj => absurd hj (Nat.not_lt_zero j)
  | succ rounds ih =>
      obtain ⟨paddr, chunk, hchunk, hpaddr, hne, hrest⟩ := clearBss_succ hclear
      obtain ⟨f, hf, hfne, -⟩ := htranslates.frame_of_ok haligned hpaddr hne
      obtain ⟨-, -, -, hleft, -⟩ := pageRounds_clear hoff hchunk hrounds
      have hnext : (vaddr + 4096).toNat % 4096 = 0 := by
        rw [BitVec.toNat_add, toNat_page]
        omega
      have hzero : (0 : BitVec 64).toNat = 0 := rfl
      exact .succ hf hfne (ih hnext (by omega) (by rw [hzero, Nat.zero_add]; exact hleft) hrest)

/-- The process reads zeros where the end of a segment was cleared. -/
theorem clearBss_userByte (htranslates : Translates mmuVir2Phy frame)
    (hinv : TablesInv kernel (frame m)) {bssSize : BitVec 64}
    (haligned : vaddr.toNat % 4096 = 0) (hoff : bssOff.toNat < 4096)
    (hrounds : rounds = pageRounds (bssOff.toNat + bssSize.toNat))
    (hbound : vaddr.toNat + 4096 * rounds ≤ 2 ^ 64)
    (huser : ∀ k < rounds, ¬kernel (vaddr.toNat / 4096 + k))
    (hclear : clearBss mmuVir2Phy m rounds bssOff bssSize vaddr ram = .ok ram') :
    ∀ a, ¬kernel (a / 4096) → userByte (frame m) ram' a =
      if vaddr.toNat + bssOff.toNat ≤ a ∧ a < vaddr.toNat + bssOff.toNat + bssSize.toNat then some 0
      else userByte (frame m) ram a := by
  induction rounds generalizing bssOff bssSize vaddr ram with
  | zero =>
      cases hclear
      intro a _
      unfold pageRounds at hrounds
      exact (if_neg (by omega)).symm
  | succ rounds ih =>
      obtain ⟨paddr, chunk, hchunk, hpaddr, hne, hrest⟩ := clearBss_succ hclear
      obtain ⟨f, hf, -, hvalue⟩ := htranslates.frame_of_ok haligned hpaddr hne
      obtain ⟨hfits, hle, hsub, hleft, hlast⟩ := pageRounds_clear hoff hchunk hrounds
      have hplace : (paddr + bssOff).toNat = f * 4096 + bssOff.toNat := by
        have hlt := paddr.isLt
        rw [BitVec.toNat_add, hvalue]
        omega
      have hstore : ∀ a, ¬kernel (a / 4096) →
          userByte (frame m)
              (storeBytes ram (paddr + bssOff).toNat (List.replicate chunk.toNat 0)) a =
            if vaddr.toNat + bssOff.toNat ≤ a ∧ a < vaddr.toNat + bssOff.toNat + chunk.toNat then
              some 0
            else userByte (frame m) ram a := by
        intro a ha
        have hstored := hinv.userByte_storeBytes ram bssOff.toNat
          (List.replicate chunk.toNat 0) (huser 0 (by omega)) hf (by rw [List.length_replicate]; exact hfits) ha
        have hpage : vaddr.toNat / 4096 * 4096 = vaddr.toNat := by omega
        rw [Nat.add_zero, hpage, List.length_replicate] at hstored
        rw [hplace, hstored]
        split
        · rw [List.getElem?_replicate, if_pos (by omega)]
        · rfl
      rcases Nat.eq_zero_or_pos rounds with rfl | hpos
      · have hwhole : chunk.toNat = bssSize.toNat := by
          unfold pageRounds at hleft
          omega
        cases hrest
        rw [← hwhole]
        exact hstore
      · have hfull : bssOff.toNat + chunk.toNat = 4096 := by
          unfold pageRounds at hleft
          omega
        have hnext : (vaddr + 4096).toNat = vaddr.toNat + 4096 := by
          rw [BitVec.toNat_add, toNat_page]
          omega
        have hzero : (0 : BitVec 64).toNat = 0 := rfl
        have hview := ih (by omega) (by omega) (by rw [hzero, Nat.zero_add]; exact hleft) (by omega)
          (fun k hk => by
            have hshift : (vaddr + 4096).toNat / 4096 + k = vaddr.toNat / 4096 + (k + 1) := by omega
            rw [hshift]
            exact huser (k + 1) (by omega)) hrest
        intro a ha
        rw [hview a ha, hstore a ha, hnext, hsub, hzero]
        by_cases hfirst : vaddr.toNat + bssOff.toNat ≤ a ∧
            a < vaddr.toNat + bssOff.toNat + chunk.toNat
        · rw [if_neg (by omega), if_pos hfirst, if_pos (by omega)]
        · by_cases hlater : vaddr.toNat + 4096 ≤ a ∧
              a < vaddr.toNat + bssOff.toNat + bssSize.toNat
          · rw [if_pos (by omega), if_pos (by omega)]
          · rw [if_neg (by omega), if_neg hfirst, if_neg (by omega)]

end Rounds

/-! ## A segment -/

section Segments

variable {μ : Type} {mmuVir2Phy : μ → BitVec 64 → Exec (BitVec 64)}
  {frame : μ → ℕ → Option ℕ} {kernel : ℕ → Prop} {m : μ} {file : List (BitVec 8)}
  {len : BitVec 64} {ph : ElfPhdr} {ram ram' : ℕ → BitVec 8}

private theorem and_pageMask_toNat (v : BitVec 64) : (v &&& pageMask).toNat = v.toNat % 4096 := by
  have hmask : pageMask.toNat = 2 ^ 12 - 1 := rfl
  rw [BitVec.toNat_and, hmask, Nat.and_two_pow_sub_one_eq_mod]

/-- The pages of a segment that ends in the address space. -/
theorem ElfPhdr.covers_iff {p : ℕ} (hpos : 0 < ph.vaddr.toNat)
    (haligned : ph.vaddr.toNat % 4096 = 0) (hfits : ph.filesz.toNat ≤ ph.memsz.toNat)
    (hbound : ph.vaddr.toNat + 4096 * pageRounds ph.memsz.toNat ≤ 2 ^ 64) :
    ph.Covers p ↔ ph.vaddr.toNat / 4096 ≤ p ∧
      p < ph.vaddr.toNat / 4096 + pageRounds ph.memsz.toNat := by
  have hsize : ph.size.toNat = ph.memsz.toNat := by
    unfold ElfPhdr.size
    split
    · rfl
    · next hge =>
      rw [BitVec.lt_def] at hge
      omega
  have hup : (pageAlignUp ph.size).toNat = 4096 * pageRounds ph.memsz.toNat := by
    rw [pageAlignUp_toNat, hsize]
    unfold pageRounds at *
    omega
  rw [ElfPhdr.Covers, mapCount, hup, if_pos hbound, Nat.mul_div_cancel_left _ (by omega)]

/-- What `NX_LoadFileData` has done for a segment when it goes on to the next. -/
theorem loadSegment_ok
    (hload : loadSegment mmuVir2Phy file len m ram ph = .ok (.eok, ram')) :
    ph.filesz.toNat ≤ ph.memsz.toNat ∧ ∃ readLen between,
      readChunks mmuVir2Phy file m (pageRounds ph.filesz.toNat) ph.offset.toNat ph.filesz ph.vaddr 0
        ram = .ok (.eok, readLen, between) ∧
      (ph.filesz.toNat = ph.memsz.toNat ∧ ram' = between ∨
        ph.filesz.toNat < ph.memsz.toNat ∧
        clearBss mmuVir2Phy m
          (pageRounds ((ph.filesz &&& pageMask).toNat + (ph.memsz - ph.filesz).toNat))
          (ph.filesz &&& pageMask) (ph.memsz - ph.filesz)
          (pageAlignDown (ph.vaddr + ph.filesz)) between = .ok ram') := by
  unfold loadSegment at hload
  split at hload
  · cases hload
  · next hfits =>
    rw [BitVec.lt_def, not_lt] at hfits
    split at hload
    · cases hload
    · split at hload
      · cases hload
      · obtain ⟨⟨err, readLen, between⟩, hread, hload⟩ := exec_bind_eq_ok_iff.mp hload
        simp only at hload
        split at hload
        · next herr =>
          cases hload
          exact absurd rfl herr
        · next herr =>
          obtain rfl := not_not.mp herr
          split at hload
          · cases hload
          · split at hload
            · next hbss =>
              obtain ⟨cleared, hclear, hload⟩ := exec_bind_eq_ok_iff.mp hload
              cases hload
              exact ⟨hfits, readLen, between, hread, .inr ⟨BitVec.lt_def.mp hbss, hclear⟩⟩
            · next hbss =>
              cases hload
              rw [BitVec.lt_def] at hbss
              exact ⟨hfits, readLen, _, hread, .inl ⟨by omega, rfl⟩⟩

/-- The end of a segment behind its bytes of the file, where it starts and how far it goes. -/
private theorem bss_place {frames : ℕ → Option ℕ} (hinv : TablesInv kernel frames)
    (haligned : ph.vaddr.toNat % 4096 = 0) (hpos : 0 < ph.vaddr.toNat)
    (hlt : ph.filesz.toNat < ph.memsz.toNat)
    (hread : ph.vaddr.toNat + 4096 * pageRounds ph.filesz.toNat ≤ 2 ^ 64)
    (htouched : Touched frames (pageAlignDown (ph.vaddr + ph.filesz))
      (pageRounds ((ph.filesz &&& pageMask).toNat + (ph.memsz - ph.filesz).toNat))) :
    (ph.memsz - ph.filesz).toNat = ph.memsz.toNat - ph.filesz.toNat ∧
    (pageAlignDown (ph.vaddr + ph.filesz)).toNat =
      ph.vaddr.toNat + ph.filesz.toNat / 4096 * 4096 ∧
    ph.vaddr.toNat + 4096 * pageRounds ph.memsz.toNat ≤ 2 ^ 64 := by
  have hsize : (ph.memsz - ph.filesz).toNat = ph.memsz.toNat - ph.filesz.toNat :=
    BitVec.toNat_sub_of_le (BitVec.le_def.mpr hlt.le)
  have hend : ph.vaddr.toNat + ph.filesz.toNat < 2 ^ 64 := by
    by_contra hlong
    have hwrap : (ph.vaddr + ph.filesz).toNat = 0 := by
      rw [BitVec.toNat_add]
      unfold pageRounds at hread
      omega
    obtain ⟨f, hf, hne⟩ := htouched 0 (by
      rw [hsize]
      unfold pageRounds
      omega)
    rw [pageAlignDown_toNat, hwrap] at hf
    exact hne (hinv.zero f hf)
  have hstart : (pageAlignDown (ph.vaddr + ph.filesz)).toNat =
      ph.vaddr.toNat + ph.filesz.toNat / 4096 * 4096 := by
    rw [pageAlignDown_toNat, BitVec.toNat_add]
    omega
  have hbound := htouched.bound hinv (by omega) (by omega)
  rw [hstart, hsize, and_pageMask_toNat] at hbound
  refine ⟨hsize, hstart, ?_⟩
  unfold pageRounds at *
  omega

theorem loadSegment_userByte (htranslates : Translates mmuVir2Phy frame)
    (hinv : TablesInv kernel (frame m)) (haligned : ph.vaddr.toNat % 4096 = 0)
    (hpos : 0 < ph.vaddr.toNat) (huser : ∀ p, ph.Covers p → ¬kernel p)
    (hload : loadSegment mmuVir2Phy file len m ram ph = .ok (.eok, ram')) :
    ph.filesz.toNat ≤ ph.memsz.toNat ∧
    ph.vaddr.toNat + 4096 * pageRounds ph.memsz.toNat ≤ 2 ^ 64 ∧
    (ph.filesz.toNat = 0 ∨ ph.offset.toNat + ph.filesz.toNat ≤ file.length) ∧
    ∀ a, ¬kernel (a / 4096) → userByte (frame m) ram' a =
      if ph.vaddr.toNat ≤ a ∧ a < ph.vaddr.toNat + ph.filesz.toNat then
        file[ph.offset.toNat + (a - ph.vaddr.toNat)]?
      else if ph.vaddr.toNat ≤ a ∧ a < ph.vaddr.toNat + ph.memsz.toNat then some 0
      else userByte (frame m) ram a := by
  obtain ⟨hfits, readLen, between, hread, hend⟩ := loadSegment_ok hload
  have hreadBound := (readChunks_touched htranslates haligned rfl hread).bound hinv haligned hpos
  have hoff : (ph.filesz &&& pageMask).toNat < 4096 := by
    rw [and_pageMask_toNat]
    omega
  have hdown := pageAlignDown_aligned (ph.vaddr + ph.filesz)
  have hplace : ph.filesz.toNat < ph.memsz.toNat →
      clearBss mmuVir2Phy m
        (pageRounds ((ph.filesz &&& pageMask).toNat + (ph.memsz - ph.filesz).toNat))
        (ph.filesz &&& pageMask) (ph.memsz - ph.filesz) (pageAlignDown (ph.vaddr + ph.filesz))
        between = .ok ram' →
      (ph.memsz - ph.filesz).toNat = ph.memsz.toNat - ph.filesz.toNat ∧
      (pageAlignDown (ph.vaddr + ph.filesz)).toNat =
        ph.vaddr.toNat + ph.filesz.toNat / 4096 * 4096 ∧
      ph.vaddr.toNat + 4096 * pageRounds ph.memsz.toNat ≤ 2 ^ 64 := fun hlt hclear =>
    bss_place hinv haligned hpos hlt hreadBound
      (clearBss_touched htranslates hdown hoff rfl hclear)
  have hbound : ph.vaddr.toNat + 4096 * pageRounds ph.memsz.toNat ≤ 2 ^ 64 := by
    rcases hend with ⟨hsame, -⟩ | ⟨hlt, hclear⟩
    · rwa [← hsame]
    · exact (hplace hlt hclear).2.2
  have hpages : ∀ p, ph.vaddr.toNat / 4096 ≤ p →
      p < ph.vaddr.toNat / 4096 + pageRounds ph.memsz.toNat → ¬kernel p := fun p hlo hhi =>
    huser p ((ElfPhdr.covers_iff hpos haligned hfits hbound).mpr ⟨hlo, hhi⟩)
  have hrounds : pageRounds ph.filesz.toNat ≤ pageRounds ph.memsz.toNat := by
    unfold pageRounds
    omega
  obtain ⟨-, hfile, hreadView⟩ := readChunks_userByte htranslates hinv haligned rfl hreadBound
    (fun k hk => hpages _ (Nat.le_add_right _ _) (by omega)) hread
  refine ⟨hfits, hbound, hfile, fun a ha => ?_⟩
  rcases hend with ⟨hsame, rfl⟩ | ⟨hlt, hclear⟩
  · rw [hreadView a ha]
    by_cases hin : ph.vaddr.toNat ≤ a ∧ a < ph.vaddr.toNat + ph.filesz.toNat
    · rw [if_pos hin, if_pos hin]
    · rw [if_neg hin, if_neg hin, if_neg (by omega)]
  · obtain ⟨hsize, hstart, -⟩ := hplace hlt hclear
    have hclearView := clearBss_userByte htranslates hinv hdown hoff rfl (by
      rw [hstart, hsize, and_pageMask_toNat]
      unfold pageRounds at *
      omega) (fun k hk => hpages _ (by omega) (by
        rw [hsize, and_pageMask_toNat] at hk
        unfold pageRounds at *
        omega)) hclear
    rw [hclearView a ha, hreadView a ha, hstart, hsize, and_pageMask_toNat]
    by_cases hin : ph.vaddr.toNat ≤ a ∧ a < ph.vaddr.toNat + ph.filesz.toNat
    · rw [if_neg (by omega), if_pos hin, if_pos hin]
    · by_cases hzero : ph.vaddr.toNat ≤ a ∧ a < ph.vaddr.toNat + ph.memsz.toNat
      · rw [if_pos (by omega), if_neg hin, if_pos hzero]
      · rw [if_neg (by omega), if_neg hin, if_neg hin, if_neg hzero]

/-- A segment is in memory: its bytes of the file, and zeros behind them. -/
structure SegmentLoaded (file : List (BitVec 8)) (frames : ℕ → Option ℕ) (ram : ℕ → BitVec 8)
    (ph : ElfPhdr) : Prop where
  fits : ph.filesz.toNat ≤ ph.memsz.toNat
  bound : ph.vaddr.toNat + 4096 * pageRounds ph.memsz.toNat ≤ 2 ^ 64
  file : ∀ k < ph.filesz.toNat, ∃ byte, file[ph.offset.toNat + k]? = some byte ∧
    userByte frames ram (ph.vaddr.toNat + k) = some byte
  zero : ∀ k, ph.filesz.toNat ≤ k → k < ph.memsz.toNat →
    userByte frames ram (ph.vaddr.toNat + k) = some 0

/-- Loading a segment leaves the bytes of another. -/
def LoadLeaves (mmuVir2Phy : μ → BitVec 64 → Exec (BitVec 64)) (frame : μ → ℕ → Option ℕ)
    (file : List (BitVec 8)) (len : BitVec 64) (m : μ) (ph other : ElfPhdr) : Prop :=
  ∀ ram ram', loadSegment mmuVir2Phy file len m ram ph = .ok (.eok, ram') →
    ∀ k < other.memsz.toNat, userByte (frame m) ram' (other.vaddr.toNat + k) =
      userByte (frame m) ram (other.vaddr.toNat + k)

theorem ElfPhdr.covers_of_byte {a : ℕ} (hpos : 0 < ph.vaddr.toNat)
    (haligned : ph.vaddr.toNat % 4096 = 0) (hfits : ph.filesz.toNat ≤ ph.memsz.toNat)
    (hbound : ph.vaddr.toNat + 4096 * pageRounds ph.memsz.toNat ≤ 2 ^ 64)
    (hlo : ph.vaddr.toNat ≤ a) (hhi : a < ph.vaddr.toNat + ph.memsz.toNat) :
    ph.Covers (a / 4096) := by
  rw [ElfPhdr.covers_iff hpos haligned hfits hbound]
  unfold pageRounds
  omega

theorem segmentLoaded_of_ok (htranslates : Translates mmuVir2Phy frame)
    (hinv : TablesInv kernel (frame m)) (haligned : ph.vaddr.toNat % 4096 = 0)
    (hpos : 0 < ph.vaddr.toNat) (huser : ∀ p, ph.Covers p → ¬kernel p)
    (hload : loadSegment mmuVir2Phy file len m ram ph = .ok (.eok, ram')) :
    SegmentLoaded file (frame m) ram' ph ∧
    ∀ a, ¬kernel (a / 4096) → ¬ph.Covers (a / 4096) →
      userByte (frame m) ram' a = userByte (frame m) ram a := by
  obtain ⟨hfits, hbound, hfile, hview⟩ :=
    loadSegment_userByte htranslates hinv haligned hpos huser hload
  have hcovers : ∀ a, ph.vaddr.toNat ≤ a → a < ph.vaddr.toNat + ph.memsz.toNat →
      ph.Covers (a / 4096) := fun a hlo hhi =>
    ElfPhdr.covers_of_byte hpos haligned hfits hbound hlo hhi
  refine ⟨⟨hfits, hbound, fun k hk => ?_, fun k hlo hhi => ?_⟩, fun a ha hout => ?_⟩
  · have hread := hview (ph.vaddr.toNat + k) (huser _ (hcovers _ (by omega) (by omega)))
    rw [if_pos (by omega), Nat.add_sub_cancel_left] at hread
    have hlt : ph.offset.toNat + k < file.length := by omega
    exact ⟨file[ph.offset.toNat + k], List.getElem?_eq_getElem hlt,
      hread.trans (List.getElem?_eq_getElem hlt)⟩
  · rw [hview _ (huser _ (hcovers _ (by omega) (by omega))), if_neg (by omega),
      if_pos (by omega)]
  · have hrange : ¬(ph.vaddr.toNat ≤ a ∧ a < ph.vaddr.toNat + ph.memsz.toNat) := fun hin =>
      hout (hcovers a hin.1 hin.2)
    rw [hview a ha, if_neg (by omega), if_neg hrange]

theorem SegmentLoaded.of_same {frames : ℕ → Option ℕ} (hloaded : SegmentLoaded file frames ram ph)
    (hsame : ∀ k < ph.memsz.toNat, userByte frames ram' (ph.vaddr.toNat + k) =
      userByte frames ram (ph.vaddr.toNat + k)) : SegmentLoaded file frames ram' ph where
  fits := hloaded.fits
  bound := hloaded.bound
  file k hk := by
    rw [hsame k (hk.trans_le hloaded.fits)]
    exact hloaded.file k hk
  zero k hlo hhi := (hsame k hhi).trans (hloaded.zero k hlo hhi)

/-- The second pass loads the segments, adds up their sizes and changes no other byte. -/
theorem loadHeaders_ok (htranslates : Translates mmuVir2Phy frame)
    (hinv : TablesInv kernel (frame m)) {count : ℕ} {off memSize memSize' : BitVec 64}
    (haligned : ∀ ph ∈ segmentsOf (phdrsFrom file count off),
      ph.vaddr.toNat % 4096 = 0 ∧ 0 < ph.vaddr.toNat)
    (huser : ∀ ph ∈ segmentsOf (phdrsFrom file count off), ∀ p, ph.Covers p → ¬kernel p)
    (hdisjoint : (segmentsOf (phdrsFrom file count off)).Pairwise fun ph other =>
      ∀ p, ph.Covers p → ¬other.Covers p)
    (hload : loadHeaders mmuVir2Phy file len m count off memSize ram =
      .ok (.eok, memSize', ram')) :
    memSize' = memSize + ((segmentsOf (phdrsFrom file count off)).map ElfPhdr.memsz).sum ∧
    (∀ ph ∈ segmentsOf (phdrsFrom file count off), SegmentLoaded file (frame m) ram' ph) ∧
    ∀ a, ¬kernel (a / 4096) →
      (∀ ph ∈ segmentsOf (phdrsFrom file count off), ¬ph.Covers (a / 4096)) →
      userByte (frame m) ram' a = userByte (frame m) ram a := by
  induction count generalizing off memSize ram with
  | zero =>
      cases hload
      exact ⟨(BitVec.add_zero _).symm, by simp [phdrsFrom, segmentsOf], fun _ _ _ => rfl⟩
  | succ count ih =>
      rw [loadHeaders] at hload
      rw [phdrsFrom] at *
      cases hread : readPhdr file len off with
      | error err =>
          rw [hread] at hload
          cases hload
          exact absurd rfl (readPhdr_error_ne hread)
      | ok ph =>
          rw [hread] at hload
          simp only at hload
          rw [← readPhdr_ok hread] at *
          split at hload
          · next htype =>
            rw [segmentsOf_cons_of_ne htype] at *
            exact ih haligned huser hdisjoint hload
          · next htype =>
            rw [segmentsOf_cons_of_eq (not_not.mp htype)] at *
            obtain ⟨⟨err, between⟩, hsegment, hload⟩ := exec_bind_eq_ok_iff.mp hload
            simp only at hload
            split at hload
            · next herr =>
              cases hload
              exact absurd rfl herr
            · next herr =>
              obtain rfl := not_not.mp herr
              have hph := haligned ph List.mem_cons_self
              have hpages := huser ph List.mem_cons_self
              obtain ⟨hfirst, hothers⟩ := List.pairwise_cons.mp hdisjoint
              obtain ⟨hloaded, hbefore⟩ :=
                segmentLoaded_of_ok htranslates hinv hph.1 hph.2 hpages hsegment
              obtain ⟨hsum, hrest, hkeep⟩ := ih
                (fun other hmem => haligned other (List.mem_cons_of_mem _ hmem))
                (fun other hmem => huser other (List.mem_cons_of_mem _ hmem)) hothers hload
              refine ⟨?_, fun other hmem => ?_, fun a ha hout => ?_⟩
              · rw [hsum, List.map_cons, List.sum_cons, BitVec.add_assoc]
              · rcases List.mem_cons.mp hmem with rfl | hmem
                · refine hloaded.of_same fun k hk => ?_
                  have hcovers := ElfPhdr.covers_of_byte hph.2 hph.1 hloaded.fits hloaded.bound
                    (Nat.le_add_right _ k) (by omega)
                  exact hkeep _ (hpages _ hcovers) fun later hlater =>
                    hfirst later hlater _ hcovers
                · exact hrest other hmem
              · rw [hkeep a ha fun other hmem => hout other (List.mem_cons_of_mem _ hmem)]
                exact hbefore a ha (hout ph List.mem_cons_self)

end Segments

/-! ## The image -/

/-- The segments of a file, by the headers that it has. -/
def elfSegments (file : List (BitVec 8)) : List ElfPhdr :=
  let ehdr := elfEhdr (vfsRead file 0 ehdrSize)
  segmentsOf (phdrsFrom file ehdr.phnum.toNat ehdr.phoff)

section Image

variable {μ : Type} {M : Mm.Machine μ} {mmuVir2Phy : μ → BitVec 64 → Exec (BitVec 64)}
  {frame : μ → ℕ → Option ℕ} {kernel : ℕ → Prop} {m m' : μ} {file : List (BitVec 8)}
  {len : BitVec 64} {space space' : UserSpace} {ram ram' : ℕ → BitVec 8}

theorem loadCheck_ok {ehdr : ElfEhdr} (hcheck : loadCheck file len space = .ok ehdr) :
    ehdr = elfEhdr (vfsRead file 0 ehdrSize) := by
  unfold loadCheck at hcheck
  split at hcheck
  · cases hcheck
  · simp only at hcheck
    split at hcheck
    · cases hcheck
    · split at hcheck
      · cases hcheck
      · split at hcheck
        · cases hcheck
        · split at hcheck
          · cases hcheck
          · cases hcheck
            rfl

theorem loadCheck_error_ne {err : NxError} (hcheck : loadCheck file len space = .error err) :
    err ≠ .eok := by
  rintro rfl
  unfold loadCheck at hcheck
  split at hcheck
  · cases hcheck
  · simp only at hcheck
    split at hcheck
    · cases hcheck
    · split at hcheck
      · cases hcheck
      · split at hcheck
        · cases hcheck
        · split at hcheck
          · next herr => exact herr (Except.error.inj hcheck)
          · cases hcheck

/-- What `NX_LoadElf` has done when it succeeds: the first pass, the second pass, and the new
bounds of the space. -/
theorem loadElf_ok (hload : loadElf M mmuVir2Phy file len space m ram =
    .ok (.eok, space', m', ram')) :
    ∃ s memSize, mapHeaders M file len (elfEhdr (vfsRead file 0 ehdrSize)).phnum.toNat
        (elfEhdr (vfsRead file 0 ehdrSize)).phoff space.toVmspace m = .ok (.eok, s, m') ∧
      loadHeaders mmuVir2Phy file len m' (elfEhdr (vfsRead file 0 ehdrSize)).phnum.toNat
        (elfEhdr (vfsRead file 0 ehdrSize)).phoff 0 ram = .ok (.eok, memSize, ram') ∧
      space' = vmspaceResizeImage { space with toVmspace := s } memSize := by
  unfold loadElf at hload
  split at hload
  · cases hload
  · cases hcheck : loadCheck file len space with
    | error err =>
        rw [hcheck] at hload
        cases hload
        exact absurd rfl (loadCheck_error_ne hcheck)
    | ok ehdr =>
        rw [hcheck] at hload
        obtain rfl := loadCheck_ok hcheck
        obtain ⟨⟨err, s, m₁⟩, hmap, hload⟩ := exec_bind_eq_ok_iff.mp hload
        simp only at hload
        split at hload
        · next herr =>
          cases hload
          exact absurd rfl herr
        · next herr =>
          obtain rfl := not_not.mp herr
          obtain ⟨⟨err, space₁, ram₁⟩, hdata, hload⟩ := exec_bind_eq_ok_iff.mp hload
          cases hload
          unfold loadFileData at hdata
          obtain ⟨⟨err, memSize, ram₂⟩, hheaders, hdata⟩ := exec_bind_eq_ok_iff.mp hdata
          simp only at hdata
          split at hdata
          · next herr =>
            cases hdata
            exact absurd rfl herr
          · next herr =>
            obtain rfl := not_not.mp herr
            cases hdata
            exact ⟨s, memSize, hmap, hheaders, rfl⟩

end Image

/-! ## A file -/

def valueBytes : ℕ → ℕ → List (BitVec 8)
  | 0, _ => []
  | size + 1, value => BitVec.ofNat 8 value :: valueBytes size (value / 256)

def ehdrBytes (entry phnum : ℕ) : List (BitVec 8) :=
  [0x7f, 0x45, 0x4c, 0x46, 2, 1, 1, 0] ++ valueBytes 8 0 ++ valueBytes 2 2 ++ valueBytes 2 243 ++
    valueBytes 4 1 ++ valueBytes 8 entry ++ valueBytes 8 64 ++ valueBytes 8 0 ++ valueBytes 4 0 ++
    valueBytes 2 64 ++ valueBytes 2 56 ++ valueBytes 2 phnum ++ valueBytes 6 0

def phdrBytes (offset vaddr filesz memsz : ℕ) : List (BitVec 8) :=
  valueBytes 4 1 ++ valueBytes 4 7 ++ valueBytes 8 offset ++ valueBytes 8 vaddr ++
    valueBytes 8 vaddr ++ valueBytes 8 filesz ++ valueBytes 8 memsz ++ valueBytes 8 4096

def newSpace : UserSpace where
  nodes := []
  table := true
  spaceBase := 0x100000000
  spaceTop := 0x400000000
  imageStart := 0x100000000
  imageEnd := 0x200000000
  heapStart := 0x200000000
  heapEnd := 0x300000000
  heapCurrent := 0x200000000
  mapStart := 0x300000000
  mapEnd := 0x380000000

def smallFile : List (BitVec 8) :=
  ehdrBytes 0x100000000 1 ++ phdrBytes 120 0x100000000 4 8 ++ [0x13, 0x05, 0x10, 0x00]

end Nxos.Process
