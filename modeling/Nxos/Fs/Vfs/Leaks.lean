import Nxos.Fs.Vfs.Acquire
import Nxos.Fs.Vfs.Counts

/-!
# References that a failed acquisition leaves

When `VfsNodeGet` fails, `VfsNodeAcquire` puts the node that it has reached and no other, so that
the references of the root and of the components in between stay.  Nothing stays exactly when the
first component fails: then the root is the node that was reached.
-/

namespace Nxos.Fs

variable {σ : Type}

/-! ## States that agree -/

/-- The cached nodes and the reference counts of nodes and mounts are the same. -/
structure SameCounts (v w : Vfs σ) : Prop where
  cached : ∀ n, w.Cached n ↔ v.Cached n
  node : ∀ n, v.Cached n → (w.node n).refcnt = (v.node n).refcnt
  mount : ∀ m ∈ v.mounts, (w.mount m).refcnt = (v.mount m).refcnt

theorem sameCounts_allocs (v : Vfs σ) (allocs : ℕ) : SameCounts v { v with allocs := allocs } :=
  ⟨fun _ => Iff.rfl, fun _ _ => rfl, fun _ _ => rfl⟩

theorem SameCounts.refl (v : Vfs σ) : SameCounts v v := sameCounts_allocs v v.allocs

/-- The root of every mount is cached, and the mount holds a reference of it. -/
structure Vfs.RootsHeld (v : Vfs σ) : Prop where
  cached : ∀ m ∈ v.mounts, ∀ r, (v.mount m).root = some r → v.Cached r
  path : ∀ m ∈ v.mounts, ∀ r, (v.mount m).root = some r → (v.node r).path = [slash]
  allocated : ∀ m ∈ v.mounts, ∀ r, (v.mount m).root = some r → r < v.allocs
  held : ∀ m ∈ v.mounts, ∀ r, (v.mount m).root = some r → 0 < (v.node r).refcnt

/-- `VfsNodeGet` has no memory, the path is too long, or the file system does not give the node. -/
def Vfs.RefusesNode (v : Vfs σ) (m : ℕ) (path : Str) : Prop :=
  v.memory v.allocs = false ∨ vfsMaxPath ≤ path.length ∨
    ((v.mount m).fs.vget v.fsState m path).1 ≠ .eok

/-- The first component of the path in its mount is not cached, and its node is refused. -/
def FirstRefused (v : Vfs σ) (path : Str) : Prop :=
  ∃ m p token rest, vfsFindRoot v path = some (m, p) ∧ tokens p = token :: rest ∧
    v.findNode m (slash :: token.name) = none ∧ v.RefusesNode m (slash :: token.name)

theorem NodeInv.rootsHeld {v : Vfs σ} {held : List Acquisition} (hinv : NodeInv v held) :
    v.RootsHeld where
  cached m hm r hroot := (hinv.nodeAt_root hm hroot).cached
  path m hm r hroot := (hinv.nodeAt_root hm hroot).path
  allocated m hm r hroot := hinv.lt_allocs (hinv.nodeAt_root hm hroot).cached
  held m hm r hroot := hinv.refcnt_pos hm (by simp) (show v.NodeOf m [] r from hroot)

section Root

variable {v w : Vfs σ} {m n r dn : ℕ} {path : Str} {rest : List Token} {token : Token}

/-- `VfsNodePut` changes one count. -/
theorem vfsNodePut_refcnt_of_ne (hne : r ≠ n) :
    ((vfsNodePut v n).node r).refcnt = (v.node r).refcnt := by
  by_cases hlast : (v.node n).refcnt = 1
  · obtain ⟨s, hs⟩ := vfsNodePut_last hlast
    rw [hs]
    change ((v.addNodeRef n (-1)).node r).refcnt = _
    rw [addNodeRef_node_of_ne hne]
  · rw [vfsNodePut_of_ne hlast, addNodeRef_node_of_ne hne]

theorem ne_of_findNode (hr : (v.node r).path = [slash]) (hname : token.name ≠ [])
    (hfind : v.findNode m (path ++ slash :: token.name) = some n) : r ≠ n := by
  rintro rfl
  have htest := List.find?_some hfind
  simp only [hr, strEqualN, Bool.and_eq_true, beq_iff_eq] at htest
  have hlen := congrArg List.length htest.2
  have hpos := List.length_pos_iff.mpr hname
  simp only [List.length_take, List.length_append, List.length_cons, List.length_nil,
    vfsMaxPath] at hlen
  omega

theorem refusesNode_iff : v.RefusesNode m path ↔ (vfsNodeGet v m path).1 = none := by
  rw [← Option.not_isSome_iff_eq_none, vfsNodeGet_isSome_iff, Vfs.RefusesNode,
    ← Bool.not_eq_true, not_and_or, not_and_or, not_lt]

theorem acquireLoop_cons_cases (v : Vfs σ) (m dn : ℕ) (path : Str) (token : Token)
    (rest : List Token) :
    (∃ n, v.findNode m (path ++ slash :: token.name) = some n ∧
      acquireLoop v m dn path (token :: rest) =
        acquireLoop (v.addNodeRef n 1) m n (path ++ slash :: token.name) rest) ∨
    (v.findNode m (path ++ slash :: token.name) = none ∧
      v.RefusesNode m (path ++ slash :: token.name) ∧
      ∃ s, acquireLoop v m dn path (token :: rest) = (.error .get,
        vfsNodePut { v with fsState := s, allocs := v.allocs + 1 } dn)) ∨
    (v.findNode m (path ++ slash :: token.name) = none ∧
      ¬v.RefusesNode m (path ++ slash :: token.name) ∧
      ((acquireLoop v m dn path (token :: rest)).1 = .error .lookup ∨
        ∃ s inode inode', acquireLoop v m dn path (token :: rest) =
          acquireLoop ((({ v with fsState := s, allocs := v.allocs + 1 } : Vfs σ).joinNode
            v.allocs m (path ++ slash :: token.name) inode).setInode v.allocs inode') m
            v.allocs (path ++ slash :: token.name) rest)) := by
  rw [acquireLoop]
  simp only [vfsNodeLookup]
  cases hfind : v.findNode m (path ++ slash :: token.name) with
  | some n => exact .inl ⟨n, rfl, rfl⟩
  | none =>
      refine .inr ?_
      rcases vfsNodeGet_cases v m (path ++ slash :: token.name) with ⟨s, hs⟩ | ⟨s, inode, -, hs⟩
      · refine .inl ⟨rfl, refusesNode_iff.mpr (congrArg Prod.fst hs), s, ?_⟩
        simp only [hs]
      · refine .inr ⟨rfl, fun hrefuses => ?_, ?_⟩
        · have hget := refusesNode_iff.mp hrefuses
          rw [hs] at hget
          cases hget
        · simp only [hs]
          split
          · exact .inl rfl
          · exact .inr ⟨_, inode, _, rfl⟩

theorem acquireLoop_root_refcnt (hr : (v.node r).path = [slash]) (hlt : r < v.allocs)
    (hne : r ≠ dn) (htokens : ∀ token ∈ rest, token.name ≠ [])
    (hget : (acquireLoop v m dn path rest).1 = .error .get) :
    ((acquireLoop v m dn path rest).2.node r).refcnt = (v.node r).refcnt := by
  induction rest generalizing v dn path with
  | nil => cases hget
  | cons token rest ih =>
      have hname := htokens token List.mem_cons_self
      have hrest := fun token hmem => htokens token (List.mem_cons_of_mem _ hmem)
      rcases acquireLoop_cons_cases v m dn path token rest with
        ⟨n, hfind, hloop⟩ | ⟨-, -, s, hloop⟩ | ⟨-, -, hlookup | ⟨s, inode, inode', hloop⟩⟩
      · have hn := ne_of_findNode hr hname hfind
        rw [hloop] at hget ⊢
        rw [ih ((addNodeRef_agree.nodePath r).trans hr) hlt hn hrest hget,
          addNodeRef_node_of_ne hn]
      · rw [hloop]
        exact vfsNodePut_refcnt_of_ne hne
      · rw [hlookup] at hget
        cases hget
      · have hnode : (({ v with fsState := s, allocs := v.allocs + 1 } : Vfs σ).joinNode
            v.allocs m (path ++ slash :: token.name) inode).node r = v.node r :=
          CacheInv.joinNode_node_of_ne hlt.ne
        rw [hloop] at hget ⊢
        rw [ih ((setInode_agree.nodePath r).trans ((congrArg VfsNode.path hnode).trans hr))
          (Nat.lt_succ_of_lt hlt) hlt.ne hrest hget, setInode_refcnt]
        exact congrArg VfsNode.refcnt hnode

end Root

/-! ## The first component -/

section First

variable {v : Vfs σ} {m r : ℕ} {path p : Str} {rest : List Token} {token : Token}

theorem sameCounts_putRoot (hheld : 0 < (v.node r).refcnt) {s : σ} {allocs : ℕ} :
    SameCounts v (vfsNodePut { v.addNodeRef r 1 with fsState := s, allocs := allocs } r) := by
  have hne : (({ v.addNodeRef r 1 with fsState := s, allocs := allocs } : Vfs σ).node r).refcnt ≠
      1 := by
    change ((v.addNodeRef r 1).node r).refcnt ≠ 1
    rw [addNodeRef_refcnt_self]
    omega
  rw [vfsNodePut_of_ne hne]
  have hagree : v.Agree (v.addNodeRef r 1) := addNodeRef_agree
  refine ⟨fun n => ?_, fun n _ => ?_, fun m _ => rfl⟩
  · exact (addNodeRef_agree.cached_iff).trans hagree.cached_iff
  · by_cases hn : n = r
    · subst hn
      rw [addNodeRef_refcnt_self]
      change ((v.addNodeRef n 1).node n).refcnt + -1 = _
      rw [addNodeRef_refcnt_self]
      omega
    · rw [addNodeRef_node_of_ne hn]
      exact congrArg VfsNode.refcnt (addNodeRef_node_of_ne hn)

theorem addNodeRef_findNode (v : Vfs σ) (n m : ℕ) (k : ℤ) (path : Str) :
    (v.addNodeRef n k).findNode m path = v.findNode m path := by
  have hagree : v.Agree (v.addNodeRef n k) := addNodeRef_agree
  unfold Vfs.findNode
  simp only [hagree.nodeMount, hagree.nodePath]
  rfl

/-- The root keeps its reference unless the first component is refused. -/
theorem acquireLoop_sameCounts_iff (hcached : v.Cached r) (hr : (v.node r).path = [slash])
    (hlt : r < v.allocs) (hheld : 0 < (v.node r).refcnt)
    (htokens : ∀ t ∈ token :: rest, t.name ≠ [])
    (hget : (acquireLoop (v.addNodeRef r 1) m r [] (token :: rest)).1 = .error .get) :
    SameCounts v (acquireLoop (v.addNodeRef r 1) m r [] (token :: rest)).2 ↔
      v.findNode m (slash :: token.name) = none ∧ v.RefusesNode m (slash :: token.name) := by
  have hrest : ∀ t ∈ rest, t.name ≠ [] := fun t hmem => htokens t (List.mem_cons_of_mem _ hmem)
  have hpath : ((v.addNodeRef r 1).node r).path = [slash] :=
    (addNodeRef_agree.nodePath r).trans hr
  have hfirst : (v.addNodeRef r 1).findNode m ([] ++ slash :: token.name) =
      v.findNode m (slash :: token.name) := addNodeRef_findNode v r m 1 _
  -- with one reference more of the root, the counts differ
  have hmore : ∀ {w : Vfs σ}, (w.node r).refcnt = ((v.addNodeRef r 1).node r).refcnt →
      ¬SameCounts v w := by
    intro w hw hsame
    rw [hsame.node r hcached, addNodeRef_refcnt_self] at hw
    omega
  rcases acquireLoop_cons_cases (v.addNodeRef r 1) m r [] token rest with
    ⟨n, hfind, hloop⟩ | ⟨hfind, hrefused, s, hloop⟩ |
      ⟨-, hgranted, hlookup | ⟨s, inode, inode', hloop⟩⟩
  · have hn := ne_of_findNode hpath (htokens token List.mem_cons_self) hfind
    rw [hloop] at hget ⊢
    refine iff_of_false (hmore ?_) fun hnone => ?_
    · rw [acquireLoop_root_refcnt ((addNodeRef_agree.nodePath r).trans hpath) hlt hn hrest hget,
        addNodeRef_node_of_ne hn]
    · rw [hfirst, hnone.1] at hfind
      cases hfind
  · rw [hloop]
    exact iff_of_true (sameCounts_putRoot hheld) ⟨hfirst ▸ hfind, hrefused⟩
  · rw [hlookup] at hget
    cases hget
  · have hnode : (({ v.addNodeRef r 1 with fsState := s, allocs := v.allocs + 1 } :
        Vfs σ).joinNode v.allocs m ([] ++ slash :: token.name) inode).node r =
          (v.addNodeRef r 1).node r := CacheInv.joinNode_node_of_ne hlt.ne
    rw [hloop] at hget ⊢
    refine iff_of_false (hmore ?_) fun hnone => hgranted hnone.2
    refine (acquireLoop_root_refcnt ((setInode_agree.nodePath r).trans
      ((congrArg VfsNode.path hnode).trans hpath)) (Nat.lt_succ_of_lt hlt) hlt.ne hrest
      hget).trans ?_
    exact setInode_refcnt.trans (congrArg VfsNode.refcnt hnode)

end First

section Path

variable {v w : Vfs σ} {path p : Str} {m : ℕ} {token : Token} {rest : List Token}

/-- Only the rounds of `VfsNodeAcquire` fail in `VfsNodeGet`. -/
theorem exists_acquireLoop_of_get (hacquire : vfsNodeAcquire v path = (.error .get, w)) :
    ∃ m p r token rest, vfsFindRoot v path = some (m, p) ∧ (v.mount m).root = some r ∧
      tokens p = token :: rest ∧
      acquireLoop (v.addNodeRef r 1) m r [] (token :: rest) = (.error .get, w) := by
  unfold vfsNodeAcquire at hacquire
  rcases hfind : vfsFindRoot v path with _ | ⟨m, p⟩
  · rw [hfind] at hacquire
    cases hacquire
  · rw [hfind] at hacquire
    cases hroot : (v.mount m).root with
    | none =>
        simp only [hroot] at hacquire
        cases hacquire
    | some r =>
        simp only [hroot] at hacquire
        cases hcons : tokens p with
        | nil =>
            rw [hcons] at hacquire
            cases hacquire
        | cons token rest =>
            rw [hcons] at hacquire
            exact ⟨m, p, r, token, rest, rfl, hroot, hcons, hacquire⟩

theorem firstRefused_iff (hfind : vfsFindRoot v path = some (m, p))
    (hcons : tokens p = token :: rest) :
    FirstRefused v path ↔
      v.findNode m (slash :: token.name) = none ∧ v.RefusesNode m (slash :: token.name) := by
  constructor
  · rintro ⟨m', p', token', rest', hfind', hcons', hrefused⟩
    rw [hfind] at hfind'
    cases hfind'
    rw [hcons] at hcons'
    cases hcons'
    exact hrefused
  · exact fun hrefused => ⟨m, p, token, rest, hfind, hcons, hrefused⟩

/-- An acquisition that fails in `VfsNodeGet` keeps no reference exactly when it failed for the first
component. -/
theorem Vfs.RootsHeld.sameCounts_iff (hroots : v.RootsHeld)
    (hacquire : Fs.vfsNodeAcquire v path = (.error .get, w)) :
    SameCounts v w ↔ FirstRefused v path := by
  obtain ⟨m, p, r, token, rest, hfind, hroot, hcons, hloop⟩ := exists_acquireLoop_of_get hacquire
  have hm := mem_mounts_of_vfsFindRoot hfind
  have htokens : ∀ t ∈ token :: rest, t.name ≠ [] := fun t hmem =>
    (nameOk_of_mem_tokens (hcons ▸ hmem)).1
  have hcounts := acquireLoop_sameCounts_iff (hroots.cached m hm r hroot)
    (hroots.path m hm r hroot) (hroots.allocated m hm r hroot) (hroots.held m hm r hroot) htokens
    (congrArg Prod.fst hloop)
  rw [hloop] at hcounts
  rw [firstRefused_iff hfind hcons]
  exact hcounts

end Path

/-- The root is mounted, and a later allocation `k` fails. -/
def demoWithout (k : ℕ) : Vfs Unit :=
  (vfsMountFileSystem { demoStart with memory := (· != k) } none [slash] (readOnlyFs demoLookup) 0).2

theorem demoStart_booted_without (k : ℕ) :
    ({ demoStart with memory := (· != k) } : Vfs Unit).Booted :=
  ⟨rfl, fun _ => rfl, fun _ => rfl, fun _ => rfl⟩

end Nxos.Fs
