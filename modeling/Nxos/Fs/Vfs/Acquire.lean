import Nxos.Fs.Vfs.Chains

/-!
# Acquiring and releasing paths

`VfsNodeAcquire` and `VfsNodeRelease` against the outstanding acquisitions, and what both leave
unchanged of the mounts.
-/

namespace Nxos.Fs

variable {σ : Type}

/-! ## What stays of the mounts -/

def VfsMount.uncounted (m : VfsMount σ) : VfsMount σ := { m with refcnt := 0 }

structure Vfs.Frame (v v' : Vfs σ) : Prop where
  mounts : v'.mounts = v.mounts
  mount : ∀ m, (v'.mount m).uncounted = (v.mount m).uncounted
  memory : v'.memory = v.memory
  allocs : v.allocs ≤ v'.allocs

namespace Vfs.Frame

variable {v v' v'' : Vfs σ} {m n : ℕ} {path : Str}

theorem refl (v : Vfs σ) : v.Frame v := ⟨rfl, fun _ => rfl, rfl, le_refl _⟩

theorem trans (hframe : v.Frame v') (hframe' : v'.Frame v'') : v.Frame v'' :=
  ⟨hframe'.mounts.trans hframe.mounts, fun m => (hframe'.mount m).trans (hframe.mount m),
    hframe'.memory.trans hframe.memory, hframe.allocs.trans hframe'.allocs⟩

theorem root (hframe : v.Frame v') (m : ℕ) : (v'.mount m).root = (v.mount m).root := by
  have hmount := congrArg VfsMount.root (hframe.mount m)
  exact hmount

theorem covered (hframe : v.Frame v') (m : ℕ) : (v'.mount m).covered = (v.mount m).covered := by
  have hmount := congrArg VfsMount.covered (hframe.mount m)
  exact hmount

theorem mountPath (hframe : v.Frame v') (m : ℕ) : (v'.mount m).path = (v.mount m).path := by
  have hmount := congrArg VfsMount.path (hframe.mount m)
  exact hmount

theorem fs (hframe : v.Frame v') (m : ℕ) : (v'.mount m).fs = (v.mount m).fs := by
  have hmount := congrArg VfsMount.fs (hframe.mount m)
  exact hmount

theorem addNodeRef {k : ℤ} : v.Frame (v.addNodeRef n k) := ⟨rfl, fun _ => rfl, rfl, le_refl _⟩

theorem setInode {inode : VfsInode} : v.Frame (v.setInode n inode) :=
  ⟨rfl, fun _ => rfl, rfl, le_refl _⟩

theorem addMountRef {k : ℤ} : v.Frame (v.addMountRef m k) where
  mounts := rfl
  mount m' := by
    by_cases hm : m' = m
    · subst hm
      simp [Vfs.addMountRef, VfsMount.uncounted]
    · rw [addMountRef_mount_of_ne hm]
  memory := rfl
  allocs := le_refl _

theorem joinNode {inode : VfsInode} : v.Frame (v.joinNode n m path inode) :=
  ⟨rfl, addMountRef.mount, rfl, le_refl _⟩

theorem vfsNodePut : v.Frame (vfsNodePut v n) := by
  by_cases hlast : (v.node n).refcnt = 1
  · obtain ⟨s, hs⟩ := vfsNodePut_last hlast
    rw [hs]
    exact ⟨rfl, addMountRef.mount, rfl, le_refl _⟩
  · rw [vfsNodePut_of_ne hlast]
    exact addNodeRef

theorem putRoot : v.Frame (putRoot v m) := by
  unfold Fs.putRoot
  split
  · exact refl v
  · exact vfsNodePut

theorem releaseParents {rounds : ℕ} : v.Frame (releaseParents rounds v m path) := by
  induction rounds generalizing v path with
  | zero => exact refl v
  | succ rounds ih =>
      rw [Fs.releaseParents]
      split
      · exact refl v
      · split
        · exact refl v
        · unfold vfsNodeLookup
          split
          · next heq =>
            split at heq
            · cases heq
              exact ih
            · cases heq
          · next heq =>
            split at heq
            · cases heq
            · cases heq
              exact ((addNodeRef.trans vfsNodePut).trans vfsNodePut).trans ih

theorem vfsNodeRelease : v.Frame (vfsNodeRelease v n) := by
  unfold Fs.vfsNodeRelease
  simp only
  split
  · exact vfsNodePut
  · split
    · exact refl v
    · exact (vfsNodePut.trans releaseParents).trans putRoot

end Vfs.Frame

/-! ## Creating a node -/

/-- A node is created, or an allocation and a call of the file system are all that happens. -/
theorem vfsNodeGet_cases (v : Vfs σ) (m : ℕ) (path : Str) :
    (∃ s, vfsNodeGet v m path = (none, { v with fsState := s, allocs := v.allocs + 1 })) ∨
    ∃ s inode, path.length < vfsMaxPath ∧ vfsNodeGet v m path = (some v.allocs,
      ({ v with fsState := s, allocs := v.allocs + 1 } : Vfs σ).joinNode v.allocs m path inode) := by
  unfold vfsNodeGet memAlloc
  by_cases hmemory : v.memory v.allocs = true
  · simp only [hmemory, if_true]
    by_cases hlong : vfsMaxPath ≤ path.length
    · rw [if_pos hlong]
      exact .inl ⟨v.fsState, rfl⟩
    · rw [if_neg hlong]
      by_cases herr : ((v.mount m).fs.vget v.fsState m path).1 = .eok
      · rw [if_neg (not_not_intro herr)]
        exact .inr ⟨_, _, Nat.lt_of_not_le hlong, rfl⟩
      · rw [if_pos herr]
        exact .inl ⟨_, rfl⟩
  · simp only [hmemory]
    exact .inl ⟨v.fsState, rfl⟩

theorem vfsNodeGet_isSome_iff (v : Vfs σ) (m : ℕ) (path : Str) :
    (vfsNodeGet v m path).1.isSome = true ↔
      v.memory v.allocs = true ∧ path.length < vfsMaxPath ∧
        ((v.mount m).fs.vget v.fsState m path).1 = .eok := by
  unfold vfsNodeGet memAlloc
  by_cases hmemory : v.memory v.allocs = true
  · simp only [hmemory, if_true, true_and]
    split
    · next hlong => simp [hlong]
    · next hshort =>
      rw [not_le] at hshort
      split
      · next herr => simp [herr]
      · next hok => simpa [hshort] using hok
  · simp [hmemory]

theorem Vfs.Frame.vfsNodeGet {v : Vfs σ} {m : ℕ} {path : Str} :
    v.Frame (vfsNodeGet v m path).2 := by
  rcases vfsNodeGet_cases v m path with ⟨s, hs⟩ | ⟨s, inode, -, hs⟩
  · rw [hs]
    exact ⟨rfl, fun _ => rfl, rfl, Nat.le_succ _⟩
  · rw [hs]
    exact ⟨rfl, addMountRef.mount, rfl, Nat.le_succ _⟩

/-- An allocation and a call of the file system change no node. -/
theorem agree_fsState {v : Vfs σ} {s : σ} {allocs : ℕ} (hallocs : v.allocs ≤ allocs) :
    v.Agree { v with fsState := s, allocs := allocs } :=
  ⟨rfl, rfl, fun _ => rfl, fun _ => rfl, fun _ => rfl, fun _ => rfl, hallocs⟩

namespace NodeInv

variable {v v' : Vfs σ} {m n dn : ℕ} {names : List Str} {name : Str}
  {held : List Acquisition}

theorem fsState (hinv : NodeInv v held) {s : σ} {allocs : ℕ} (hallocs : v.allocs ≤ allocs) :
    NodeInv { v with fsState := s, allocs := allocs } held :=
  hinv.of_agree (agree_fsState hallocs) fun _ => rfl

theorem joinChild {inode : VfsInode} (hinv : NodeInv v (⟨m, names, dn⟩ :: held))
    (hname : NameOk name) (hfresh : ∀ hash, n ∉ v.nodeList hash) (hn : n < v.allocs)
    (hshort : (nodePath (names ++ [name])).length < vfsMaxPath)
    (hnone : ∀ x, ¬v.NodeAt m (nodePath (names ++ [name])) x) :
    NodeInv (v.joinNode n m (nodePath (names ++ [name])) inode)
      (⟨m, names ++ [name], n⟩ :: held) := by
  have ha := hinv.anchored _ List.mem_cons_self
  have hkeep : ∀ a, v.Anchored a →
      (v.joinNode n m (nodePath (names ++ [name])) inode).Anchored a := by
    intro a ha
    refine ha.of_nodeOf rfl fun names' n' _ hn' => ?_
    unfold Vfs.NodeOf at hn' ⊢
    by_cases hnil : names' = []
    · rw [if_pos hnil] at hn' ⊢
      exact addMountRef_root.trans hn'
    · rw [if_neg hnil] at hn' ⊢
      exact (CacheInv.nodeAt_joinNode_iff hfresh).mpr (.inr hn')
  refine hinv.joinNode hfresh hn ha.mount (.concat ha.nameOk hname) hshort hnone
    countShift_child fun a hmem => ?_
  rcases List.mem_cons.mp hmem with rfl | hmem
  · exact (hkeep _ ha).child hname ((CacheInv.nodeAt_joinNode_iff hfresh).mpr
      (.inl ⟨rfl, rfl, rfl⟩))
  · exact hkeep a (hinv.anchored a (List.mem_cons_of_mem _ hmem))

/-- `VfsNodeGet` of the next component. -/
theorem getChild (hinv : NodeInv v (⟨m, names, dn⟩ :: held)) (hname : NameOk name)
    (hnone : v.findNode m (nodePath (names ++ [name])) = none)
    (hget : vfsNodeGet v m (nodePath (names ++ [name])) = (some n, v')) :
    NodeInv v' (⟨m, names ++ [name], n⟩ :: held) := by
  rcases vfsNodeGet_cases v m (nodePath (names ++ [name])) with ⟨s, hs⟩ | ⟨s, inode, hshort, hs⟩
  · rw [hs] at hget
    cases hget
  · rw [hs] at hget
    cases hget
    have halloc : v.allocs ≤ v.allocs + 1 := Nat.le_succ _
    refine (hinv.fsState halloc).joinChild hname (fun hash hmem => ?_)
      (Nat.lt_succ_self _) hshort fun x hx => ?_
    · exact (hinv.listed hash _ hmem).2.ne rfl
    · exact (hinv.findNode_eq_none_iff.mp hnone) x ((agree_fsState halloc).nodeAt_iff.mp hx)

/-- `VfsNodeGet` that fails. -/
theorem getNone {path : Str} (hinv : NodeInv v held)
    (hget : vfsNodeGet v m path = (none, v')) : NodeInv v' held := by
  rcases vfsNodeGet_cases v m path with ⟨s, hs⟩ | ⟨s, inode, -, hs⟩
  · rw [hs] at hget
    cases hget
    exact hinv.fsState (Nat.le_succ _)
  · rw [hs] at hget
    cases hget

/-! ## Release -/

theorem vfsNodePut_addNodeRef (hpos : 0 < (v.node n).refcnt) :
    Fs.vfsNodePut (v.addNodeRef n 1) n = v := by
  rw [vfsNodePut_of_ne (by rw [addNodeRef_refcnt_self]; omega)]
  simp [Vfs.addNodeRef]

/-- The loop of `VfsNodeRelease` puts the parents of the node. -/
theorem releaseParents {rounds : ℕ} (hinv : NodeInv v (⟨m, names, n⟩ :: held))
    (hname : NameOk name) (hrounds : names.length < rounds) :
    ∃ r, NodeInv (Fs.releaseParents rounds v m (nodePath (names ++ [name])))
      (⟨m, [], r⟩ :: held) := by
  induction names using List.reverseRecOn generalizing rounds v n name with
  | nil =>
      obtain ⟨rounds, rfl⟩ := Nat.exists_eq_add_one.mpr hrounds
      rw [Fs.releaseParents, cutAtSlash_nodePath hname]
      simp only [nodePath_nil, if_true]
      exact ⟨n, hinv⟩
  | append_singleton names last ih =>
      obtain ⟨rounds, rfl⟩ := Nat.exists_eq_add_one.mpr (Nat.zero_lt_of_lt hrounds)
      have ha := hinv.anchored _ List.mem_cons_self
      have hne : names ++ [last] ≠ [] := by simp
      have hat : v.NodeAt m (nodePath (names ++ [last])) n := by
        have hof := ha.node
        rwa [Vfs.NodeOf, if_neg hne] at hof
      have hfind := hinv.findNode_eq_some_iff.mpr hat
      have hpos := hinv.refcnt_pos ha.mount ha.nameOk ha.node
      rw [Fs.releaseParents, cutAtSlash_nodePath hname]
      simp only [nodePath_eq_nil_iff, hne, if_false, vfsNodeLookup, hfind]
      rw [vfsNodePut_addNodeRef hpos]
      obtain ⟨n', hn'⟩ := hinv.putChild
      refine ih hn' (ha.nameOk last (by simp)) ?_
      simp only [List.length_append, List.length_singleton] at hrounds
      omega

/-- `VfsNodeRelease` releases an acquisition. -/
theorem vfsNodeRelease (hinv : NodeInv v (⟨m, names, n⟩ :: held)) :
    NodeInv (Fs.vfsNodeRelease v n) held := by
  have ha := hinv.anchored _ List.mem_cons_self
  have hat := hinv.nodeAt_of_nodeOf ha.mount ha.node
  unfold Fs.vfsNodeRelease
  simp only [hat.mount]
  rcases names.eq_nil_or_concat' with rfl | ⟨parents, last, rfl⟩
  · have hroot : (v.mount m).root = some n := ha.node
    rw [if_pos hroot]
    exact hinv.putRoot
  · have hne : parents ++ [last] ≠ [] := by simp
    have hpath : (v.node n).path = nodePath (parents ++ [last]) := by
      rw [hat.path]
      exact if_neg hne
    have hroot : ¬(v.mount m).root = some n := by
      intro hroot
      have hof : v.NodeOf m [] n := hroot
      exact hne (hinv.nodeOf_injective ha.mount ha.mount ha.nameOk (by simp) ha.node hof).2.symm
    have hshort := hinv.short n hat.cached
    rw [if_neg hroot, if_neg (by omega), hpath]
    obtain ⟨n', hn'⟩ := hinv.putChild
    have hrounds : parents.length < (nodePath (parents ++ [last])).length := by
      have hlen := length_le_nodePath (parents ++ [last])
      rw [List.length_append, List.length_singleton] at hlen
      omega
    obtain ⟨r, hr⟩ := hn'.releaseParents (ha.nameOk last (by simp)) hrounds
    have hof : (_ : Vfs σ).NodeOf m [] r := (hr.anchored _ List.mem_cons_self).node
    rw [Fs.putRoot, show ((_ : Vfs σ).mount m).root = some r from hof]
    exact hr.putRoot

end NodeInv

/-! ## Acquire -/

def Vfs.Acquired (v : Vfs σ) (m : ℕ) (names : List Str) (held : List Acquisition) :
    Except AcquireFailure ℕ → Prop
  | .ok n => NodeInv v (⟨m, names, n⟩ :: held)
  | .error .get => ∃ leaked, NodeInv v (leaked ++ held)
  | .error .lookup => NodeInv v held
  | .error .mount => NodeInv v held

section Loop

variable {v : Vfs σ} {m dn : ℕ} {names : List Str} {held : List Acquisition}
  {rest : List Token}

/-- What a file system writes to a new node changes no reference. -/
theorem NodeInv.setInode (hinv : NodeInv v held) (n : ℕ) (s : σ) (inode : VfsInode) :
    NodeInv (({ v with fsState := s } : Vfs σ).setInode n inode) held := by
  have hstate : NodeInv ({ v with fsState := s } : Vfs σ) held := hinv.fsState (le_refl _)
  exact hstate.of_agree setInode_agree fun _ => setInode_refcnt

/-- The rounds of `VfsNodeAcquire` extend the acquisition of what they have passed. -/
theorem NodeInv.acquireLoop (hinv : NodeInv v (⟨m, names, dn⟩ :: held))
    (htokens : ∀ token ∈ rest, NameOk token.name) :
    (acquireLoop v m dn (nodePath names) rest).2.Acquired m (names ++ rest.map Token.name) held
      (acquireLoop v m dn (nodePath names) rest).1 := by
  induction rest generalizing v names dn with
  | nil =>
      rw [List.map_nil, List.append_nil]
      exact hinv
  | cons token rest ih =>
      have hname := htokens token List.mem_cons_self
      have hrest : ∀ token ∈ rest, NameOk token.name := fun token hmem =>
        htokens token (List.mem_cons_of_mem _ hmem)
      have hsplit : names ++ (token :: rest).map Token.name =
          (names ++ [token.name]) ++ rest.map Token.name := by simp
      rw [hsplit, Fs.acquireLoop]
      simp only [← nodePath_concat, vfsNodeLookup]
      cases hfind : v.findNode m (nodePath (names ++ [token.name])) with
      | some n =>
          simp only
          exact ih (hinv.acquireChild hname (hinv.findNode_eq_some_iff.mp hfind)) hrest
      | none =>
          simp only
          rcases hget : vfsNodeGet v m (nodePath (names ++ [token.name])) with ⟨_ | n, v'⟩
          · -- The reference of the node that was reached is dropped, and no other.
            simp only
            have hleft := hinv.getNone hget
            rcases names.eq_nil_or_concat' with rfl | ⟨parents, last, rfl⟩
            · exact ⟨[], hleft.putRoot⟩
            · obtain ⟨n', hn'⟩ := hleft.putChild
              exact ⟨[⟨m, parents, n'⟩], hn'⟩
          · simp only
            have hnew := hinv.getChild hname hfind hget
            split
            · exact (hnew.setInode n _ _).vfsNodeRelease
            · exact ih (hnew.setInode n _ _) hrest

end Loop

/-- A scan that keeps the first longest match: nothing matched, or the result is a mount of the
list with its length, and no mount is longer. -/
theorem foldl_longer (f : ℕ → ℕ) (ms : List ℕ) :
    (ms.foldl (fun best pos => if best.1 < f pos then (f pos, some pos) else best) (0, none) =
        (0, none) ∧ ∀ m ∈ ms, f m = 0) ∨
      ∃ m ∈ ms, ms.foldl (fun best pos => if best.1 < f pos then (f pos, some pos) else best)
        (0, none) = (f m, some m) ∧ 0 < f m ∧ ∀ m' ∈ ms, f m' ≤ f m := by
  induction ms using List.reverseRecOn with
  | nil => exact .inl ⟨rfl, by simp⟩
  | append_singleton ms pos ih =>
      rw [List.foldl_concat]
      rcases ih with ⟨hfold, hzero⟩ | ⟨m, hm, hfold, hpos, hmax⟩
      · rw [hfold]
        by_cases hlonger : 0 < f pos
        · refine .inr ⟨pos, by simp, if_pos hlonger, hlonger, fun m' hm' => ?_⟩
          rcases List.mem_append.mp hm' with hm' | hm'
          · rw [hzero m' hm']
            exact Nat.zero_le _
          · rw [List.mem_singleton.mp hm']
        · refine .inl ⟨if_neg hlonger, fun m' hm' => ?_⟩
          rcases List.mem_append.mp hm' with hm' | hm'
          · exact hzero m' hm'
          · rw [List.mem_singleton.mp hm']
            omega
      · rw [hfold]
        by_cases hlonger : f m < f pos
        · refine .inr ⟨pos, by simp, if_pos hlonger, by omega, fun m' hm' => ?_⟩
          rcases List.mem_append.mp hm' with hm' | hm'
          · exact (hmax m' hm').trans hlonger.le
          · rw [List.mem_singleton.mp hm']
        · refine .inr ⟨m, List.mem_append_left _ hm, if_neg hlonger, hpos, fun m' hm' => ?_⟩
          rcases List.mem_append.mp hm' with hm' | hm'
          · exact hmax m' hm'
          · rw [List.mem_singleton.mp hm']
            omega

/-- The scan of `VfsFindRoot`. -/
theorem foldl_longerMatch (v : Vfs σ) (path : Str) :
    (v.mounts.foldl (longerMatch v path) (0, none) = (0, none) ∧
        ∀ m ∈ v.mounts, countMatch path (v.mount m).path = 0) ∨
      ∃ m ∈ v.mounts, v.mounts.foldl (longerMatch v path) (0, none) =
          (countMatch path (v.mount m).path, some m) ∧ 0 < countMatch path (v.mount m).path ∧
        ∀ m' ∈ v.mounts, countMatch path (v.mount m').path ≤ countMatch path (v.mount m).path :=
  foldl_longer (fun pos => countMatch path (v.mount pos).path) v.mounts

/-- The mount that `VfsFindRoot` returns is on the list. -/
theorem mem_mounts_of_vfsFindRoot {v : Vfs σ} {path p : Str} {m : ℕ}
    (hfind : vfsFindRoot v path = some (m, p)) : m ∈ v.mounts := by
  unfold vfsFindRoot at hfind
  simp only [Option.map_eq_some_iff, Prod.mk.injEq] at hfind
  obtain ⟨m', hbest, rfl, -⟩ := hfind
  rcases foldl_longerMatch v path with ⟨hfold, -⟩ | ⟨m, hm, hfold, -⟩
  · rw [hfold] at hbest
    cases hbest
  · rw [hfold] at hbest
    cases hbest
    exact hm

def pathNames (p : Str) : List Str := (tokens p).map Token.name

/-- `VfsNodeAcquire` takes an acquisition of its path, or none when it fails in a lookup. -/
theorem NodeInv.vfsNodeAcquire {v : Vfs σ} {held : List Acquisition} {path p : Str} {m : ℕ}
    (hinv : NodeInv v held) (hfind : vfsFindRoot v path = some (m, p)) :
    (vfsNodeAcquire v path).2.Acquired m (pathNames p) held (vfsNodeAcquire v path).1 := by
  have hm := mem_mounts_of_vfsFindRoot hfind
  obtain ⟨r, hroot, -⟩ := hinv.root m hm
  unfold Fs.vfsNodeAcquire
  simp only [hfind, hroot]
  exact (hinv.acquireRoot hm hroot).acquireLoop fun token hmem => nameOk_of_mem_tokens hmem

theorem vfsNodeAcquire_of_findRoot_none {v : Vfs σ} {path : Str}
    (hfind : vfsFindRoot v path = none) : vfsNodeAcquire v path = (.error .mount, v) := by
  simp [vfsNodeAcquire, hfind]

/-- An acquisition that fails takes no reference away, and only one that fails in `VfsNodeGet` may
leave some. -/
theorem NodeInv.acquire_error {v w : Vfs σ} {held : List Acquisition} {path : Str}
    {failure : AcquireFailure} (hinv : NodeInv v held)
    (hacquire : Fs.vfsNodeAcquire v path = (.error failure, w)) :
    ∃ leaked, NodeInv w (leaked ++ held) ∧ (failure ≠ .get → leaked = []) := by
  cases hfind : vfsFindRoot v path with
  | none =>
      rw [vfsNodeAcquire_of_findRoot_none hfind] at hacquire
      cases hacquire
      exact ⟨[], hinv, fun _ => rfl⟩
  | some found =>
      have hacquired := hinv.vfsNodeAcquire hfind
      rw [hacquire] at hacquired
      cases failure with
      | get =>
          obtain ⟨leaked, hleaked⟩ := hacquired
          exact ⟨leaked, hleaked, fun hne => absurd rfl hne⟩
      | lookup | mount => exact ⟨[], hacquired, fun _ => rfl⟩

/-! ## What acquiring leaves -/

theorem Vfs.Frame.fsState {v : Vfs σ} {s : σ} : v.Frame { v with fsState := s } :=
  ⟨rfl, fun _ => rfl, rfl, le_refl _⟩

theorem Vfs.Frame.acquireLoop {v : Vfs σ} {m dn : ℕ} {path : Str} {rest : List Token} :
    v.Frame (acquireLoop v m dn path rest).2 := by
  induction rest generalizing v dn path with
  | nil => exact refl v
  | cons token rest ih =>
      rw [Fs.acquireLoop]
      simp only [vfsNodeLookup]
      cases hfind : v.findNode m (path ++ slash :: token.name) with
      | some n => exact addNodeRef.trans ih
      | none =>
          simp only
          have hframe : v.Frame (Fs.vfsNodeGet v m (path ++ slash :: token.name)).2 := vfsNodeGet
          rcases hget : Fs.vfsNodeGet v m (path ++ slash :: token.name) with ⟨_ | n, v'⟩
          · rw [hget] at hframe
            exact hframe.trans vfsNodePut
          · rw [hget] at hframe
            simp only
            split
            · exact ((hframe.trans fsState).trans setInode).trans vfsNodeRelease
            · exact ((hframe.trans fsState).trans setInode).trans ih

theorem Vfs.Frame.vfsNodeAcquire {v : Vfs σ} {path : Str} :
    v.Frame (vfsNodeAcquire v path).2 := by
  unfold Fs.vfsNodeAcquire
  split
  · exact refl v
  · split
    · exact refl v
    · exact addNodeRef.trans acquireLoop

end Nxos.Fs
