import Nxos.Ipc.Hub.Holes
import Nxos.Mm.Vmspace.Filled

/-!
# Buffers that are mapped in part

When a page of a buffer cannot be mapped, `MapMdl` unmaps as many pages as it has mapped, but it
unmaps them from the address of the client on, not from where they are.  The server is as before
when the first page already fails, and when its free pages happen to lie at the addresses of the
client's buffer.
-/

namespace Nxos.Ipc

open Nxos.Mm Nxos.Transition

variable {ι π μ : Type} [DecidableEq π] {H : HubMemory π μ} {good : μ → Prop}
  {frame : μ → π → ℕ → Option ℕ} {limit : ℕ} {source target : π} {σ υ : Spaces π μ}
  {addr size : BitVec 64} {k : ℕ} {m : μ}

/-- Page tables that let mapped pages go; a page that cannot be mapped changes nothing. -/
structure UndoTables (H : HubMemory π μ) (good : μ → Prop) (frame : μ → π → ℕ → Option ℕ)
    (limit : ℕ) : Prop extends PageTables H good frame limit where
  memFreeMdl : ∀ {m}, good m → frame (H.memFreeMdl m) = frame m
  mapFails : ∀ {m m'} {v pa : BitVec 64} {proc : π}, good m → v.toNat % 4096 = 0 →
    0 < v.toNat → v.toNat < limit →
    (H.machine proc).mapPageWithPhy m v pa 4096 pageAttrUser = .ok (0, m') →
    good m' ∧ frame m' = frame m
  unmapPage : ∀ {m} {v size : BitVec 64} {proc : π}, good m → v.toNat % 4096 = 0 →
    size.toNat % 4096 = 0 → v.toNat + size.toNat ≤ limit →
    (∀ p, v.toNat ≤ p * 4096 → p * 4096 < v.toNat + size.toNat →
      ∃ f, f ≠ 0 ∧ frame m proc p = some f) →
    ∃ m', (H.machine proc).unmapPage m v size = .ok (.eok, m') ∧ good m' ∧
      frame m' = Function.update (frame m) proc fun p =>
        if v.toNat ≤ p * 4096 ∧ p * 4096 < v.toNat + size.toNat then none else frame m proc p

/-! ## The failure -/

/-- The pages of the buffer passed the check, `MapMdl` has mapped `k` of them, which led to `υ`,
and the call for the next page fails and leaves the memory `m`. -/
structure FailsAt (H : HubMemory π μ) (source target : π) (addr size : BitVec 64)
    (σ : Spaces π μ) (k : ℕ) (υ : Spaces π μ) (m : μ) : Prop where
  checked : checkMdlPages H source σ (mappedPages addr size) (pageAlignDown addr) = .ok true
  lt : k < mappedPages addr size
  mapped : ∃ mdl, mapMdlPages H source target k 0 (pageAlignDown addr)
    (createMdl addr size target) σ = .ok (some mdl, υ)
  fails : ∃ phyAddr err s, phyAddr ≠ 0 ∧
    spaceVirToPhy H source υ (pageAt (pageAlignDown addr) k) = .ok phyAddr ∧
    vmspaceMapWithPhy (H.machine target) (υ.vmspace target) υ.memory 0 phyAddr 4096
      pageAttrUser 0 = .ok (.error err, s, m)

theorem mapMdlPages_add {count virAddr : BitVec 64} {mdl mdl' : HubMdl π}
    (hrun : mapMdlPages H source target k count virAddr mdl σ = .ok (some mdl', υ)) (r : ℕ) :
    mapMdlPages H source target (k + r) count virAddr mdl σ =
        mapMdlPages H source target r (count + BitVec.ofNat 64 k) (pageAt virAddr k) mdl' υ ∧
      mdl'.startAddr = mdl.startAddr := by
  induction k generalizing count virAddr mdl σ with
  | zero =>
      cases hrun
      refine ⟨?_, rfl⟩
      rw [Nat.zero_add, pageAt_zero]
      exact congrArg (fun c => mapMdlPages H source target r c virAddr mdl' υ)
        (BitVec.add_zero count).symm
  | succ k ih =>
      obtain ⟨phyAddr, mapAddr, s, m, hphy, htranslate, hmap, hrun⟩ := mapMdlPages_succ hrun
      obtain ⟨hrest, hstart⟩ := ih hrun
      have hcount : count + BitVec.ofNat 64 (k + 1) = count + 1 + BitVec.ofNat 64 k := by
        rw [BitVec.add_assoc]
        refine congrArg (count + ·) (BitVec.eq_of_toNat_eq ?_)
        rw [BitVec.toNat_add, BitVec.toNat_ofNat, BitVec.toNat_ofNat]
        change _ = (1 + _) % 2 ^ 64
        omega
      rw [Nat.add_right_comm, mapMdlPages, htranslate, exec_ok_bind, nxAssert_pos hphy,
        exec_ok_bind, hmap, exec_ok_bind, pageAt_succ, hcount]
      refine ⟨hrest, hstart.trans ?_⟩
      split_ifs <;> rfl

theorem FailsAt.unchanged (h : FailsAt H source target addr size σ k υ m)
    (ht : UndoTables H good frame limit) (hm : good υ.memory)
    (htarget : UserSpace limit (υ.vmspace target))
    (hbase : 0 < (υ.vmspace target).spaceBase.toNat) :
    (good m ∧ frame m = frame υ.memory) ∧
    ∃ phyAddr err, phyAddr ≠ 0 ∧
      spaceVirToPhy H source υ (pageAt (pageAlignDown addr) k) = .ok phyAddr ∧
      vmspaceMapWithPhy (H.machine target) (υ.vmspace target) υ.memory 0 phyAddr 4096
        pageAttrUser 0 = .ok (.error err, υ.vmspace target, m) := by
  obtain ⟨phyAddr, err, s, hphy, htranslate, hrun⟩ := h.fails
  have hout := vmspaceMapInternal_outcome (H.machine target) htarget.nodes υ.memory 0 phyAddr 4096
    pageAttrUser 0
  have hmemory := ht.memAlloc target hm
  rw [show vmspaceMapInternal (H.machine target) (υ.vmspace target) υ.memory 0 phyAddr 4096
    pageAttrUser 0 = _ from hrun] at hout
  cases hout with
  | refused err m' hsame =>
      refine ⟨?_, phyAddr, err, hphy, htranslate, hrun⟩
      rcases hsame with rfl | rfl
      · exact ⟨hm, rfl⟩
      · exact hmemory
  | unmapped start m₁ m' hplaced halloc hmap =>
      refine ⟨?_, phyAddr, _, hphy, htranslate, hrun⟩
      rw [halloc] at hmemory
      unfold Mm.mapPages at hmap
      rw [if_pos hphy] at hmap
      obtain ⟨m₂, hincrease, hmap⟩ := exec_bind_eq_ok_iff.mp hmap
      obtain ⟨hm₂, hframe₂⟩ := ht.pageIncrease hmemory.1 hincrease
      have hfirst := hplaced.firstFree htarget.area htarget.nodes htarget.aligned
      obtain ⟨-, hlow, htop⟩ := htarget.firstFree_inside hfirst
      obtain ⟨hm', hframe'⟩ := ht.mapFails hm₂ hfirst.aligned (hbase.trans_le hlow)
        (htop.trans_le htarget.top_le) hmap
      exact ⟨hm', hframe'.trans (hframe₂.trans hmemory.2)⟩

theorem mappedPages_le (addr size : BitVec 64) : mappedPages addr size ≤ 8193 := by
  have hmax : hubMdlLenMax.toNat = 0x2000000 := rfl
  unfold mappedPages bufferPages
  omega

/-- The size that `MapMdl` unmaps. -/
theorem undoSize_toNat (hk : k ≤ 8193) : (BitVec.ofNat 64 k * 4096).toNat = k * 4096 := by
  rw [BitVec.toNat_mul, BitVec.toNat_ofNat]
  change k % 2 ^ 64 * 4096 % 2 ^ 64 = _
  omega

/-- A failed `MapMdl` returns the null pointer after an attempt to unmap what it has mapped. -/
theorem FailsAt.mapMdl (h : FailsAt H source target addr size σ k υ m)
    (ht : UndoTables H good frame limit) (hm : good υ.memory)
    (htarget : UserSpace limit (υ.vmspace target))
    (hbase : 0 < (υ.vmspace target).spaceBase.toNat) :
    mapMdl H (createMdl addr size target) source target σ =
      if k = 0 then
        .ok (0, createMdl addr size target, υ.write target (υ.vmspace target) m)
      else vmspaceUnmap (H.machine target) (υ.vmspace target) m (pageAlignDown addr)
          (BitVec.ofNat 64 k * 4096) >>= fun r =>
        .ok (0, createMdl addr size target, υ.write target r.2.1 r.2.2) := by
  obtain ⟨-, phyAddr, err, hphy, htranslate, hrun⟩ := h.unchanged ht hm htarget hbase
  obtain ⟨mdl, hmapped⟩ := h.mapped
  obtain ⟨hadd, hstart⟩ := mapMdlPages_add hmapped (mappedPages addr size - k)
  obtain ⟨r, hr⟩ := Nat.exists_eq_succ_of_ne_zero (Nat.sub_ne_zero_of_lt h.lt)
  have hcount : 0 < BitVec.ofNat 64 k ↔ k ≠ 0 := by
    have hle := mappedPages_le addr size
    have hlt := h.lt
    rw [BitVec.lt_def, BitVec.toNat_ofNat, Nat.mod_eq_of_lt (by omega)]
    exact Nat.pos_iff_ne_zero
  have hstartAddr : mdl.startAddr = pageAlignDown addr := hstart
  rw [Nat.add_sub_cancel' h.lt.le, hr, mapMdlPages, htranslate, exec_ok_bind,
    nxAssert_pos hphy, exec_ok_bind, hrun, exec_ok_bind,
    show (0 : BitVec 64) + BitVec.ofNat 64 k = BitVec.ofNat 64 k from BitVec.zero_add _] at hadd
  dsimp only at hadd
  rw [hstartAddr] at hadd
  unfold Ipc.mapMdl
  rw [createMdl_pageCount]
  change (checkMdlPages H source σ (mappedPages addr size) (pageAlignDown addr) >>= _) = _
  rw [h.checked, exec_ok_bind, if_pos rfl]
  change (mapMdlPages H source target (mappedPages addr size) 0 (pageAlignDown addr)
    (createMdl addr size target) σ >>= _) = _
  rw [hadd]
  by_cases hk : k = 0
  · rw [if_pos hk, if_neg (mt hcount.mp (not_not.mpr hk))]
    rfl
  · rw [if_neg hk, if_pos (hcount.mpr hk)]
    cases vmspaceUnmap (H.machine target) (υ.vmspace target) m (pageAlignDown addr)
        (BitVec.ofNat 64 k * 4096) with
    | error f => rfl
    | ok r => rfl

/-! ## Where the pages are -/

section Pages

variable {a q stop : ℕ} {nodes : List Vmnode}

/-- When all pages that were taken are among `k` pages in a row, they are these pages. -/
theorem MapProgress.eq_of_taken_inside
    (h : MapProgress good frame source target σ a q k stop nodes υ)
    (hfirst : PageFree (σ.vmspace target).nodes q) (hk : k ≠ 0) {first : ℕ}
    (hinside : ∀ p, q ≤ p → p < stop → PageFree (σ.vmspace target).nodes p →
      first ≤ p ∧ p < first + k) :
    q = first ∧ ∀ i < k, PageFree (σ.vmspace target).nodes (first + i) := by
  have hle := h.le
  have hrank := h.rank
  have hlt : q < stop := by
    by_contra hge
    rw [show stop = q by omega, freeRank_self] at hrank
    exact hk hrank.symm
  have hbounds := hinside q (le_refl q) hlt hfirst
  -- the pages behind the row do not count
  have hrow : freeRank (σ.vmspace target).nodes q (first + k) = k := by
    rcases Nat.le_total stop (first + k) with hstop | hstop
    · have hmono : freeRank (σ.vmspace target).nodes q stop ≤ freeRank _ q (first + k) :=
        freeRank_mono hstop
      have hmax : freeRank (σ.vmspace target).nodes q (first + k) ≤ _ := freeRank_le
      omega
    · have hnone : ∀ p, first + k ≤ p → p < stop → ¬PageFree (σ.vmspace target).nodes p := by
        intro p hlow hhigh hfree
        have hin := hinside p (by omega) hhigh hfree
        omega
      rw [freeRank_eq_of_not_free (show q ≤ first + k by omega) hstop hnone] at hrank
      exact hrank
  have hmax : freeRank (σ.vmspace target).nodes q (first + k) ≤ _ := freeRank_le
  have heq : q = first := by omega
  subst heq
  exact ⟨rfl, freeRank_eq_iff.mp hrow⟩

/-- When the first free pages are `k` pages in a row, these were taken. -/
theorem MapProgress.taken_iff
    (h : MapProgress good frame source target σ a q k stop nodes υ)
    (hfree : ∀ i < k, PageFree (σ.vmspace target).nodes (q + i)) (p : ℕ) :
    (q ≤ p ∧ p < stop ∧ PageFree (σ.vmspace target).nodes p) ↔ q ≤ p ∧ p < q + k := by
  have hle := h.le
  have hrank := h.rank
  have hrow : freeRank (σ.vmspace target).nodes q (q + k) = k := freeRank_eq_iff.mpr hfree
  constructor
  · rintro ⟨hlow, hhigh, hpage⟩
    refine ⟨hlow, ?_⟩
    by_contra hbehind
    have hmono : freeRank (σ.vmspace target).nodes q _ ≤ freeRank _ q _ :=
      freeRank_mono (Nat.le_of_not_lt hbehind)
    have hlt := freeRank_lt hlow hpage hhigh
    omega
  · rintro ⟨hlow, hhigh⟩
    have hpage : PageFree (σ.vmspace target).nodes p := by
      have hi := hfree (p - q) (by omega)
      rwa [Nat.add_sub_cancel' hlow] at hi
    refine ⟨hlow, ?_, hpage⟩
    by_contra hbehind
    have hmono : freeRank (σ.vmspace target).nodes q _ ≤ freeRank _ q _ :=
      freeRank_mono (Nat.le_of_not_lt hbehind)
    have hlt := freeRank_lt hlow hpage hhigh
    omega

theorem UserSpace.mapPage_filled {s s' : Vmspace} (hs : UserSpace limit s) {M : Machine μ}
    {m m' : μ} {phyAddr mapAddr : BitVec 64}
    (hmap : vmspaceMapWithPhy M s m 0 phyAddr 4096 pageAttrUser 0 = .ok (.ok mapAddr, s', m')) :
    ∃ start nodes, FirstFree s start ∧ s' = { s with nodes } ∧
      UserSpace limit { s with nodes } ∧
      RangeFilled s.nodes nodes (pageAttrUser, 0) start.toNat (start.toNat + 4096) ∧
      ∀ p, PageFree nodes p ↔ PageFree s.nodes p ∧ p ≠ start.toNat / 4096 := by
  obtain ⟨start, hfirst, -, -, rfl⟩ := vmspaceMapWithPhy_firstFree hs.area hs.nodes hs.aligned hmap
  obtain ⟨hnodes, haligned, hfree⟩ :=
    hfirst.mappedNodes hs.area hs.nodes hs.aligned pageAttrUser 0
  exact ⟨start, _, hfirst, rfl,
    ⟨hs.table, hs.base_aligned, hs.top_le, { hs.area with }, hnodes, haligned⟩,
    hfirst.filled hs.area hs.nodes hs.aligned pageAttrUser 0, hfree⟩

theorem mapMdlPages_filled (htarget : UserSpace limit (σ.vmspace target))
    {count virAddr : BitVec 64} {mdl mdl' : HubMdl π}
    (hrun : mapMdlPages H source target (k + 1) count virAddr mdl σ = .ok (some mdl', υ))
    (hfirst : ∀ start, FirstFree (σ.vmspace target) start → start.toNat / 4096 = q)
    (hfree : ∀ i ≤ k, PageFree (σ.vmspace target).nodes (q + i)) :
    ∃ nodes, υ.vmspace target = { σ.vmspace target with nodes } ∧
      UserSpace limit { σ.vmspace target with nodes } ∧
      RangeFilled (σ.vmspace target).nodes nodes (pageAttrUser, 0) (q * 4096)
        (q * 4096 + (k + 1) * 4096) := by
  induction k generalizing σ count virAddr mdl q with
  | zero =>
      obtain ⟨phyAddr, mapAddr, s, m, -, -, hmap, hrun⟩ := mapMdlPages_succ hrun
      obtain ⟨start, nodes, hstart, rfl, hspace, hfilled, -⟩ := htarget.mapPage_filled hmap
      have hpage := hfirst start hstart
      have haligned := hstart.aligned
      have heq : start.toNat = q * 4096 := by omega
      rw [heq] at hfilled
      cases hrun
      exact ⟨nodes, Function.update_self .., hspace, hfilled⟩
  | succ k ih =>
      obtain ⟨phyAddr, mapAddr, s, m, -, -, hmap, hrun⟩ := mapMdlPages_succ hrun
      obtain ⟨start, nodes, hstart, rfl, hspace, hfilled, hfree'⟩ := htarget.mapPage_filled hmap
      have hpage := hfirst start hstart
      have haligned := hstart.aligned
      have heq : start.toNat = q * 4096 := by omega
      have hwrite : (σ.write target { σ.vmspace target with nodes } m).vmspace target =
          { σ.vmspace target with nodes } := Function.update_self ..
      rw [heq] at hfilled
      rw [hpage] at hfree'
      have hnext : ∀ start', FirstFree { σ.vmspace target with nodes } start' →
          start'.toNat / 4096 = q + 1 := by
        intro start' hstart'
        have haligned' := hstart'.aligned
        have hlow := hstart'.start_le
        have hlow' := hstart.start_le
        dsimp only at hlow
        obtain ⟨hpage', hne⟩ := (hfree' _).mp hstart'.free
        have hbehind : ¬start'.toNat / 4096 < q := fun hlt =>
          hstart.first _ (by omega) (by omega) hpage'
        have hbefore : ¬q + 1 < start'.toNat / 4096 := fun hlt =>
          hstart'.first (q + 1) (by dsimp only; omega) hlt
            ((hfree' (q + 1)).mpr ⟨hfree 1 (by omega), by omega⟩)
        omega
      obtain ⟨nodes', hυ, hspace', hfilled'⟩ := ih (q := q + 1) (by rw [hwrite]; exact hspace) hrun
        (by rw [hwrite]; exact hnext) (by
          intro i hi
          rw [hwrite, hfree', Nat.add_right_comm]
          exact ⟨hfree (i + 1) (by omega), by omega⟩)
      rw [hwrite] at hυ hspace' hfilled'
      refine ⟨nodes', hυ, hspace', ?_⟩
      rw [show (q + 1) * 4096 = q * 4096 + 4096 by omega,
        show q * 4096 + 4096 + (k + 1) * 4096 = q * 4096 + (k + 1 + 1) * 4096 by omega] at hfilled'
      exact hfilled.trans htarget.nodes hspace.nodes hspace'.nodes hfilled'

end Pages

/-! ## When the server is as before -/

/-- What `MapMdl` undoes right: nothing, or pages that lie at the addresses of the client, with
memory for the neighbours that were merged with them. -/
def UndoFits (M : Machine μ) (s : Vmspace) (addr : BitVec 64) (k : ℕ) (m : μ) : Prop :=
  k = 0 ∨ mapAreaPage s = addr.toNat / 4096 ∧
    (∀ i < k, PageFree s.nodes (addr.toNat / 4096 + i)) ∧
    M.SplitRoom m (EndsAt s.nodes (pageAttrUser, 0) (addr.toNat / 4096 * 4096))
      (BeginsAt s.nodes (pageAttrUser, 0) (addr.toNat / 4096 * 4096 + k * 4096))

structure TargetKept (frame : μ → π → ℕ → Option ℕ) (target : π) (σ σ' : Spaces π μ) : Prop where
  nodes : SameNodes (σ.vmspace target).nodes (σ'.vmspace target).nodes
  others : σ'.vmspace target = { σ.vmspace target with nodes := (σ'.vmspace target).nodes }
  frames : frame σ'.memory target = frame σ.memory target

theorem FailsAt.progress (h : FailsAt H source target addr size σ k υ m)
    (ht : PageTables H good frame limit) (hm : good σ.memory)
    (hsource : UserSpace limit (σ.vmspace source)) (htarget : UserSpace limit (σ.vmspace target))
    (hk : k ≠ 0) :
    (∀ i < k, ∃ f, f ≠ 0 ∧
      spaceFrame (σ.vmspace source) (frame σ.memory source) (addr.toNat / 4096 + i) = some f) ∧
    PageFree (σ.vmspace target).nodes (mapAreaPage (σ.vmspace target)) ∧
    mapAreaPage (σ.vmspace target) ≠ 0 ∧
    ∃ stop nodes, MapProgress good frame source target σ (addr.toNat / 4096)
      (mapAreaPage (σ.vmspace target)) k stop nodes υ := by
  have hframes := checkMdlPages_frames ht hm hsource (createMdl_startAddr addr size target)
    h.checked
  have hframes' : ∀ i < k, ∃ f, f ≠ 0 ∧ spaceFrame (σ.vmspace source) (frame σ.memory source)
      (addr.toNat / 4096 + i) = some f := fun i hi => hframes i (hi.trans h.lt)
  obtain ⟨mdl, hrun⟩ := h.mapped
  obtain ⟨first, hfirst, hne, hpage, -, hprogress⟩ := mapMdlPages_progress ht hm hsource htarget
    hk (fun i hi => (hframes' i hi).imp fun f hf => hf.2) hrun
  refine ⟨hframes', ?_, ?_, hprogress⟩
  · rw [hpage]
    exact hfirst.free
  · intro hzero
    have haligned := hfirst.aligned
    exact hne (BitVec.eq_of_toNat_eq (show first.toNat = 0 by omega))

theorem FailsAt.filled (h : FailsAt H source target addr size σ k υ m)
    (htarget : UserSpace limit (σ.vmspace target)) (hk : k ≠ 0)
    (hpage : mapAreaPage (σ.vmspace target) = addr.toNat / 4096)
    (hfree : ∀ i < k, PageFree (σ.vmspace target).nodes (addr.toNat / 4096 + i)) :
    ∃ nodes, υ.vmspace target = { σ.vmspace target with nodes } ∧
      UserSpace limit { σ.vmspace target with nodes } ∧
      RangeFilled (σ.vmspace target).nodes nodes (pageAttrUser, 0) (addr.toNat / 4096 * 4096)
        (addr.toNat / 4096 * 4096 + k * 4096) := by
  obtain ⟨j, rfl⟩ := Nat.exists_eq_succ_of_ne_zero hk
  obtain ⟨mdl, hrun⟩ := h.mapped
  refine mapMdlPages_filled htarget hrun (fun start hstart => ?_) fun i hi =>
    hfree i (Nat.lt_succ_of_le hi)
  rw [← hpage, mapAreaPage, hstart.search, Option.getD_some]

section Undo

variable (h : FailsAt H source target addr size σ k υ m) (hm : good σ.memory)
  (hsource : UserSpace limit (σ.vmspace source)) (htarget : UserSpace limit (σ.vmspace target))
  (hk : k ≠ 0)
include h hm hsource htarget hk

theorem FailsAt.undoRange (ht : PageTables H good frame limit) :
    (pageAlignDown addr).toNat = addr.toNat / 4096 * 4096 ∧
      (BitVec.ofNat 64 k * 4096).toNat = k * 4096 ∧
      pageAlignUp (BitVec.ofNat 64 k * 4096) = BitVec.ofNat 64 k * 4096 ∧
      addr.toNat / 4096 * 4096 + k * 4096 < 2 ^ 64 := by
  have hle := mappedPages_le addr size
  have hsize := undoSize_toNat (k := k) (h.lt.le.trans hle)
  obtain ⟨hframes, -⟩ := h.progress ht hm hsource htarget hk
  obtain ⟨f, -, hf⟩ := hframes (k - 1) (by omega)
  have hend := hsource.page_end (spaceFrame_eq_some_iff.mp hf).1.2
  have htop := (σ.vmspace source).spaceTop.isLt
  refine ⟨pageAlignDown_toNat addr, hsize, ?_, by omega⟩
  apply BitVec.eq_of_toNat_eq
  rw [pageAlignUp_toNat, hsize]
  have hlt := h.lt
  omega

theorem FailsAt.undoFits_of_sameNodes (ht : PageTables H good frame limit) {err : NxError}
    {s' : Vmspace} {m' : μ}
    (hrun : vmspaceUnmap (H.machine target) (υ.vmspace target) m (pageAlignDown addr)
      (BitVec.ofNat 64 k * 4096) = .ok (err, s', m'))
    (hsame : SameNodes (σ.vmspace target).nodes s'.nodes) :
    UndoFits (H.machine target) (σ.vmspace target) addr k m := by
  obtain ⟨haddr, hsize, halign, hend⟩ := h.undoRange hm hsource htarget hk ht
  obtain ⟨hframes, hfirst, -, stop, nodes, hprogress⟩ := h.progress ht hm hsource htarget hk
  have hspace := hprogress.userSpace_target htarget
  rw [hprogress.vmspace_target] at hrun hspace
  have hround : pageRoundUp (BitVec.ofNat 64 k * 4096).toNat = k * 4096 := by
    rw [hsize]
    unfold pageRoundUp
    omega
  have hle := hprogress.le
  have hlt : mapAreaPage (σ.vmspace target) < stop := by
    by_contra hge
    have hrank := hprogress.rank
    rw [show stop = mapAreaPage (σ.vmspace target) by omega, freeRank_self] at hrank
    exact hk hrank.symm
  -- a page that was taken does not stay in the nodes
  have hkept : nodesLookup s'.nodes = nodesLookup nodes →
      NodesOk (σ.vmspace target).spaceBase (σ.vmspace target).spaceTop s'.nodes → False := by
    intro hlookup hok
    have hbefore := hsame.lookup_eq htarget.nodes hok
    have hpage : PageFree nodes (mapAreaPage (σ.vmspace target)) := by
      unfold PageFree at hfirst ⊢
      rw [← hlookup, hbefore]
      exact hfirst
    exact ((hprogress.free _).mp hpage).2 ⟨le_refl _, hlt⟩
  have hfits : UnmapFits { σ.vmspace target with nodes } (pageAlignDown addr)
      (BitVec.ofNat 64 k * 4096) := by
    intro _ _
    rw [hround, haddr]
    exact hend
  have hout := vmspaceUnmap_outcome (H.machine target) hspace.nodes m hfits
  rw [hrun] at hout
  cases hout with
  | refused err m' herr hreach => exact (hkept rfl hspace.nodes).elim
  | restored m₁ m' err nodes' hreach hrange hunmap herr hok hlookup haligned =>
      exact (hkept hlookup hok).elim
  | removed m₁ m' nodes' hreach hrange hunmap hremoved =>
      have hbefore := hsame.lookup_eq htarget.nodes hremoved.ok
      have hinside : ∀ p, mapAreaPage (σ.vmspace target) ≤ p → p < stop →
          PageFree (σ.vmspace target).nodes p →
          addr.toNat / 4096 ≤ p ∧ p < addr.toNat / 4096 + k := by
        intro p hlow hhigh hp
        by_contra hout
        have hnone : nodesLookup nodes' (p * 4096) = none := by
          rw [show nodesLookup nodes' = _ from hbefore]
          exact hp
        rw [hremoved.lookup_eq, hround, haddr, if_neg (by omega)] at hnone
        exact ((hprogress.free p).mp hnone).2 ⟨hlow, hhigh⟩
      obtain ⟨hpage, hfree⟩ := hprogress.eq_of_taken_inside hfirst hk hinside
      obtain ⟨nodes₁, hυ, -, hfilled⟩ := h.filled htarget hk hpage hfree
      have heq : nodes₁ = nodes :=
        congrArg Vmspace.nodes (hυ.symm.trans hprogress.vmspace_target)
      subst heq
      rw [← haddr, ← hsize] at hfilled
      obtain ⟨hroom, -⟩ := RangeFilled.of_unmapped (s := { σ.vmspace target with nodes := nodes₁ })
        htarget.nodes hspace.nodes halign hfilled hrun
      rw [haddr, hsize] at hroom
      exact Or.inr ⟨hpage, hfree, hroom⟩

theorem FailsAt.unmapped (ht : UndoTables H good frame limit) (hm' : good m)
    (hframe : frame m = frame υ.memory)
    (hfits : UndoFits (H.machine target) (σ.vmspace target) addr k m) :
    ∃ nodes m', vmspaceUnmap (H.machine target) (υ.vmspace target) m (pageAlignDown addr)
        (BitVec.ofNat 64 k * 4096) = .ok (.eok, { σ.vmspace target with nodes }, m') ∧
      SameNodes (σ.vmspace target).nodes nodes ∧ good m' ∧
      frame m' target = frame σ.memory target := by
  obtain ⟨haddr, hsize, halign, hend⟩ := h.undoRange hm hsource htarget hk ht.toPageTables
  obtain ⟨hframes, hfirst, hne, stop, nodes, hprogress⟩ :=
    h.progress ht.toPageTables hm hsource htarget hk
  obtain ⟨hpage, hfree, hroom⟩ := hfits.resolve_left hk
  obtain ⟨nodes₁, hυ, hspace, hfilled⟩ := h.filled htarget hk hpage hfree
  rw [hpage] at hne hprogress
  have htaken := hprogress.taken_iff hfree
  -- the frames of the range are those of the buffer
  have hrange : ∀ p, addr.toNat / 4096 ≤ p → p < addr.toNat / 4096 + k →
      frame σ.memory target p = none ∧ ∃ f, f ≠ 0 ∧ frame υ.memory target p = some f := by
    intro p hlow hhigh
    obtain ⟨-, hstop, hpfree⟩ := (htaken p).mpr ⟨hlow, hhigh⟩
    obtain ⟨hnone, hnow⟩ := hprogress.taken p hlow hstop hpfree
    have hrank := freeRank_lt hlow hpfree hstop
    rw [hprogress.rank] at hrank
    obtain ⟨f, hf, hframe⟩ := hframes _ hrank
    exact ⟨hnone, f, hf, hnow.trans (spaceFrame_eq_some_iff.mp hframe).2⟩
  have hallocs : ∀ {m₁}, (H.machine target).AllocReach m m₁ →
      good m₁ ∧ frame m₁ = frame υ.memory := by
    intro m₁ hreach
    refine Reachable.invariant (P := fun m₁ => good m₁ ∧ frame m₁ = frame υ.memory) hreach
      ⟨hm', hframe⟩ ?_
    rintro m₂ _ m₃ ⟨hgood, hsame⟩ rfl
    obtain ⟨hgood', hsame'⟩ := ht.memAlloc target hgood
    exact ⟨hgood', hsame'.trans hsame⟩
  have hlimit : addr.toNat / 4096 * 4096 + k * 4096 ≤ limit := by
    obtain ⟨n, hn, -, -, hhi, -⟩ := hfilled.node
    have hinside := (hspace.nodes.inside n hn).2
    have htop := htarget.top_le
    dsimp only at hinside
    omega
  have hunmap : ∀ {m₁}, (H.machine target).AllocReach m m₁ →
      ∃ m', (H.machine target).unmapPage m₁ (pageAlignDown addr)
          (BitVec.ofNat 64 k * 4096) = .ok (.eok, m') ∧ good m' ∧
        frame m' target = frame σ.memory target := by
    intro m₁ hreach
    obtain ⟨hgood, hsame⟩ := hallocs hreach
    have hmapped : ∀ p, (pageAlignDown addr).toNat ≤ p * 4096 →
        p * 4096 < (pageAlignDown addr).toNat + (BitVec.ofNat 64 k * 4096).toNat →
        ∃ f, f ≠ 0 ∧ frame m₁ target p = some f := by
      intro p hlow hhigh
      rw [hsame]
      exact (hrange p (by omega) (by omega)).2
    obtain ⟨m', hrun, hgood', hframe'⟩ :=
      ht.unmapPage hgood (by omega) (by omega) (by omega) hmapped
    refine ⟨m', hrun, hgood', ?_⟩
    rw [hframe', Function.update_self, hsame, haddr, hsize]
    funext p
    split_ifs with hin
    · exact (hrange p (by omega) (by omega)).1.symm
    · refine hprogress.kept p fun hp => ?_
      have hp' := (htaken p).mp hp
      omega
  rw [← haddr, ← hsize] at hroom hfilled
  rw [hυ]
  obtain ⟨s', m', hrun⟩ := RangeFilled.vmspaceUnmap (s := { σ.vmspace target with nodes := nodes₁ })
    hspace.nodes halign (by omega)
    (fun hzero => hne (by rw [hzero] at haddr; change 0 = _ at haddr; omega)) hfilled hroom
    (fun hreach => by
      obtain ⟨m', hrun, -⟩ := hunmap hreach
      rw [halign]
      exact ⟨m', hrun⟩)
  obtain ⟨-, hsame⟩ := RangeFilled.of_unmapped (s := { σ.vmspace target with nodes := nodes₁ })
    htarget.nodes hspace.nodes halign hfilled hrun
  obtain ⟨node, nodes₂, node', m₁, -, hsplit, hunmapped, rfl⟩ := vmspaceUnmap_eok hrun
  have hreach := vmspaceSplitNode_allocReach (H.machine target) nodes₁ m node
    (pageAlignDown addr) (pageAlignUp (BitVec.ofNat 64 k * 4096))
  dsimp only at hsplit
  rw [hsplit] at hreach
  obtain ⟨m'', hrun', hgood, hframe'⟩ := hunmap hreach
  rw [halign, hrun'] at hunmapped
  cases hunmapped
  exact ⟨_, m', hrun, hsame, hgood, hframe'⟩

end Undo

/-- `NX_HubTranslate` returns the null pointer, and the target is as before. -/
def TranslateUndone {ι : Type} [DecidableEq ι] (H : HubMemory π μ)
    (frame : μ → π → ℕ → Option ℕ) (process : HubThread ι → Option π) (cur : HubThread ι)
    (hub : Bool) (channel : MdlChannel ι π) (addr size : BitVec 64) (σ : Spaces π μ)
    (target : π) : Prop :=
  ∃ active σ', hubTranslate H process cur hub (some channel) addr size σ = .ok (0, active, σ') ∧
    TargetKept frame target σ σ'

/-- When `NX_VmspaceMapWithPhy` fails in `MapMdl`, the target is as before exactly when nothing
had been mapped, or what had been mapped lies at the addresses of the client. -/
theorem hubTranslate_undone_iff {ι : Type} [DecidableEq ι] (ht : UndoTables H good frame limit)
    {process : HubThread ι → Option π} {cur sourceThread : HubThread ι}
    (hprocess : process sourceThread = some source) (hcur : process cur = some target)
    {channel : MdlChannel ι π} (hchannel : channel.sourceThread = some sourceThread) {hub : Bool}
    (hreaches : ReachesMdl H channel cur hub addr size σ) (hm : good σ.memory)
    (hsource : UserSpace limit (σ.vmspace source)) (htarget : UserSpace limit (σ.vmspace target))
    (hbase : 0 < (σ.vmspace target).spaceBase.toNat)
    (hfails : FailsAt H source target addr size
      { σ with memory := (H.memAllocMdl σ.memory).2 } k υ m) :
    TranslateUndone H frame process cur hub channel addr size σ target ↔
      UndoFits (H.machine target) (σ.vmspace target) addr k m := by
  obtain ⟨hm₁, hframe₁⟩ := ht.memAllocMdl hm
  unfold TranslateUndone
  rw [hubTranslate_of_reachesMdl hprocess hcur hchannel hreaches]
  by_cases hk : k = 0
  · subst hk
    obtain ⟨mdl, hrun⟩ := hfails.mapped
    cases hrun
    obtain ⟨⟨hmem, hframe⟩, -⟩ := hfails.unchanged ht hm₁ htarget hbase
    rw [hfails.mapMdl ht hm₁ htarget hbase, if_pos rfl, exec_ok_bind]
    refine iff_of_true ⟨some channel, _, rfl, ?_, ?_, ?_⟩ (Or.inl rfl)
    all_goals dsimp only [Spaces.write]
    · rw [Function.update_self]
      exact rfl
    · rw [Function.update_self]
    · rw [ht.memFreeMdl hmem, hframe, hframe₁]
  · obtain ⟨-, -, -, stop, nodes, hprogress⟩ :=
      hfails.progress ht.toPageTables hm₁ hsource htarget hk
    have hspace := hprogress.userSpace_target htarget
    have hbase' : 0 < (υ.vmspace target).spaceBase.toNat := by
      rw [hprogress.vmspace_target]
      exact hbase
    obtain ⟨⟨hmem, hframe⟩, -⟩ := hfails.unchanged ht hprogress.good hspace hbase'
    rw [hfails.mapMdl ht hprogress.good hspace hbase', if_neg hk]
    constructor
    · rintro ⟨active, σ', hrun, hkept⟩
      obtain ⟨r, hrun, hrest⟩ := exec_bind_eq_ok_iff.mp hrun
      obtain ⟨⟨err, s', m'⟩, hunmap, hresult⟩ := exec_bind_eq_ok_iff.mp hrun
      cases hresult
      cases hrest
      have hnodes := hkept.nodes
      dsimp only [Spaces.write] at hnodes
      rw [Function.update_self] at hnodes
      exact hfails.undoFits_of_sameNodes hm₁ hsource htarget hk ht.toPageTables hunmap hnodes
    · intro hfits
      obtain ⟨nodes', m', hunmap, hsame, hgood, hframe'⟩ :=
        hfails.unmapped hm₁ hsource htarget hk ht hmem hframe hfits
      rw [hunmap, exec_ok_bind, exec_ok_bind]
      refine ⟨some channel, _, rfl, ?_, ?_, ?_⟩
      all_goals dsimp only [Spaces.write]
      · rw [Function.update_self]
        exact hsame
      · rw [Function.update_self]
      · rw [ht.memFreeMdl hgood, hframe', hframe₁]

/-! ## A server without memory -/

def scarceMemory : HubMemory Bool ((Bool → ℕ → Option ℕ) × ℕ) where
  machine proc :=
    { memAlloc m := (decide (0 < m.2), m.1, m.2 - 1)
      pageIncrease m _ := .ok m
      mapPage m _ _ _ := .ok (0, m)
      mapPageWithPhy m v pa size attr :=
        ((tableMemory.machine proc).mapPageWithPhy m.1 v pa size attr).map fun r =>
          (r.1, r.2, m.2)
      unmapPage m v size := ((tableMemory.machine proc).unmapPage m.1 v size).map fun r =>
        (r.1, r.2, m.2) }
  mmuVir2Phy proc m va := tableMemory.mmuVir2Phy proc m.1 va
  memAllocMdl m := (true, m)
  memFreeMdl m := m

theorem undoTables_scarceMemory :
    UndoTables scarceMemory (fun m => ∀ proc p f, m.1 proc p = some f → f < 2 ^ 52)
      (fun m => m.1) (2 ^ 64) where
  memAllocMdl hm := ⟨hm, rfl⟩
  memAlloc _ hm := ⟨hm, rfl⟩
  pageIncrease hm hrun := by
    cases hrun
    exact ⟨hm, rfl⟩
  mapPageWithPhy hm hv hlt hf hpa hrun ha := by
    obtain ⟨r, hmap, heq⟩ := exec_map_eq_ok_iff.mp hrun
    cases heq
    exact pageTables_tableMemory.mapPageWithPhy hm hv hlt hf hpa hmap ha
  mmuVir2Phy hm hlt hf := pageTables_tableMemory.mmuVir2Phy hm hlt hf
  mmuVir2Phy_none hm hlt hnone hrun := pageTables_tableMemory.mmuVir2Phy_none hm hlt hnone hrun
  memFreeMdl _ := rfl
  mapFails {m m' v pa proc} hm _ hpos _ hrun := by
    obtain ⟨r, hmap, heq⟩ := exec_map_eq_ok_iff.mp hrun
    change (if m.1 proc (v.toNat / 4096) = none then _ else _) = _ at hmap
    split_ifs at hmap with hnone
    · cases hmap
      have hzero : v = 0 := (Prod.mk.inj heq).1
      rw [hzero] at hpos
      exact absurd hpos (lt_irrefl 0)
    · cases hmap
      cases heq
      exact ⟨hm, rfl⟩
  unmapPage {m v size proc} hm _ _ _ _ := by
    refine ⟨_, rfl, ?_, rfl⟩
    intro proc' p f hf
    dsimp only at hf
    by_cases hproc : proc' = proc
    · subst hproc
      rw [Function.update_self] at hf
      split_ifs at hf
      exact hm _ p f hf
    · rw [Function.update_of_ne hproc] at hf
      exact hm proc' p f hf

/-- The client has a buffer in two pages from `page` on; the server has these nodes, with memory
for one more, and a page of its own at `0x200000000` when it has nodes. -/
def scarceSpaces (page : ℕ) (nodes : List Vmnode) :
    Spaces Bool ((Bool → ℕ → Option ℕ) × ℕ) where
  vmspace
    | false => areaSpace []
    | true => areaSpace nodes
  memory := (fun
    | false => fun p => if p = page then some 5 else if p = page + 1 then some 6 else none
    | true => fun p => if p = 0x200000 ∧ nodes ≠ [] then some 9 else none, 1)

def heapPage : Vmnode where
  id := 1
  start := 0x200000000
  stop := 0x200001000
  attr := pageAttrUser
  flags := 0

def channelOf (addr : BitVec 64) : MdlChannel Unit Bool :=
  { bufferChannel with param := ⟨1, #v[addr, 0x1800, 0, 0, 0, 0, 0, 0]⟩ }

theorem scarceSpaces_good (page : ℕ) (nodes : List Vmnode) (proc : Bool) (p f : ℕ)
    (hf : (scarceSpaces page nodes).memory.1 proc p = some f) : f < 2 ^ 52 := by
  cases proc with
  | false =>
      change (if p = page then some 5 else if p = page + 1 then some 6 else none) = _ at hf
      split_ifs at hf <;> cases hf <;> decide
  | true =>
      change (if p = 0x200000 ∧ nodes ≠ [] then some 9 else none) = _ at hf
      split_ifs at hf
      cases hf
      decide

theorem reachesMdl_channelOf (page : ℕ) (nodes : List Vmnode) {addr : BitVec 64}
    (haddr : addr ≠ 0) : ReachesMdl scarceMemory (channelOf addr) .server true addr 0x1800
      (scarceSpaces page nodes) where
  addr_ne := haddr
  size_ne := by decide
  hub_true := rfl
  target := rfl
  param := by simp [channelMatchParam, channelOf]
  room := show 0 < 8 by decide
  memory := rfl

/-- A buffer that the client has where the server's map area begins is unmapped again. -/
theorem hubTranslate_undone_iff_mapStart :
    TranslateUndone scarceMemory (fun m => m.1) threadProcess .server true
      (channelOf 0x300000010) 0x300000010 0x1800 (scarceSpaces 0x300000 []) true := by
  have hspace : UserSpace (2 ^ 64) (areaSpace []) :=
    userSpace_areaSpace ⟨⟨nofun, .nil⟩, nofun, .nil⟩ nofun
  have hfails : ∃ υ m, FailsAt scarceMemory false true 0x300000010 0x1800
      (scarceSpaces 0x300000 []) 1 υ m :=
    ⟨_, _, by decide +kernel, by decide, ⟨_, rfl⟩, ⟨_, _, _, by decide, rfl, rfl⟩⟩
  obtain ⟨υ, m, hfails⟩ := hfails
  refine (hubTranslate_undone_iff undoTables_scarceMemory
    (show threadProcess (.client ()) = some false from rfl)
    (show threadProcess .server = some true from rfl) rfl
    (reachesMdl_channelOf 0x300000 [] (by decide)) (scarceSpaces_good 0x300000 []) hspace hspace
    (by decide) hfails).mpr (Or.inr ⟨rfl, fun i _ => rfl, ?_, ?_⟩)
  · rintro (⟨n, hn, -⟩ | ⟨n, hn, -⟩)
    · cases hn
    · cases hn
  · rintro ⟨n, hn, -⟩
    cases hn

/-- Elsewhere the server loses its own page at the address of the client, and the page of the
client stays mapped. -/
theorem exists_hubTranslate_notUndone :
    ReachesMdl scarceMemory (channelOf 0x200000010) .server true 0x200000010 0x1800
      (scarceSpaces 0x200000 [heapPage]) ∧
    (∃ υ m, FailsAt scarceMemory false true 0x200000010 0x1800
      (scarceSpaces 0x200000 [heapPage]) 1 υ m) ∧
    (scarceSpaces 0x200000 [heapPage]).memory.1 true 0x200000 = some 9 ∧
    (scarceSpaces 0x200000 [heapPage]).memory.1 true 0x300000 = none ∧
    ∃ active σ', hubTranslate scarceMemory threadProcess .server true
        (some (channelOf 0x200000010)) 0x200000010 0x1800 (scarceSpaces 0x200000 [heapPage]) =
          .ok (0, active, σ') ∧
      (σ'.vmspace true).nodes.map Vmnode.content =
        [(0x300000000, 0x300001000, pageAttrUser, 0)] ∧
      σ'.memory.1 true 0x200000 = none ∧ σ'.memory.1 true 0x300000 = some 5 :=
  ⟨reachesMdl_channelOf 0x200000 [heapPage] (by decide),
    ⟨_, _, by decide +kernel, by decide, ⟨_, rfl⟩, ⟨_, _, _, by decide, rfl, rfl⟩⟩,
    rfl, rfl, _, _, rfl, rfl, rfl, rfl⟩

end Nxos.Ipc
