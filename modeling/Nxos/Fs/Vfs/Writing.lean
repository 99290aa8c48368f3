import Nxos.Fs.Vfs.Counts

/-!
# Opening for writing

`NX_VfsOpen` may open a node for writing, and truncate it, only where the node is no directory and
`VfsNodeAccess` grants `NX_VFS_W_OK`.  The checks stand in the branch without `NX_VFS_O_CREAT`
alone: with that flag a path that is there is opened as it is.
-/

namespace Nxos.Fs

variable {σ : Type}

/-! ## The checks and the truncation -/

/-- `NX_VfsOpen` from an acquired node up to the truncation: the node and the flags that are
left. -/
def existingChecked (v : Vfs σ) (n : ℕ) (flags : BitVec 32) :
    Except NxError (ℕ × BitVec 32) × Vfs σ :=
  if hasFlag flags oCreat then
    if hasFlag flags oExcl then (.error .eagain, vfsNodeRelease v n)
    else (.ok (n, flags &&& ~~~oCreat), v)
  else if hasFlag flags oWronly || hasFlag flags oTrunc then
    if vfsNodeAccess v n wOk = false then (.error .eperm, vfsNodeRelease v n)
    else if (v.node n).inode.type = .dir then (.error .eperm, vfsNodeRelease v n)
    else (.ok (n, flags), v)
  else (.ok (n, flags), v)

/-- `NX_VfsOpen` of a new file up to the truncation. -/
def createChecked (v : Vfs σ) (absPath : Str) (flags mode : BitVec 32) :
    Except NxError (ℕ × BitVec 32) × Vfs σ :=
  match vfsLookupDir v absPath with
  | (none, v) => (.error .enosrch, v)
  | (some (dn, filename), v) =>
      if vfsNodeAccess v dn wOk = false then (.error .eperm, vfsNodeRelease v dn)
      else
        let (err, v) := createFile v dn filename mode
        let v := vfsNodeRelease v dn
        if err ≠ .eok then (.error err, v)
        else
          match vfsNodeAcquire v absPath with
          | (.error _, v) => (.error .enores, v)
          | (.ok n, v) => (.ok (n, flags &&& ~~~oTrunc), v)

/-- `NX_VfsOpen` up to the truncation. -/
def openChecked (v : Vfs σ) (absPath : Str) (flags mode : BitVec 32) :
    Except NxError (ℕ × BitVec 32) × Vfs σ :=
  match vfsNodeAcquire v absPath with
  | (.ok n, v) => existingChecked v n flags
  | (.error _, v) =>
      if hasFlag flags oCreat then createChecked v absPath flags mode else (.error .enores, v)

def afterCheck (r : Except NxError (ℕ × BitVec 32) × Vfs σ) :
    Except NxError (ℕ × BitVec 32) × Vfs σ :=
  match r with
  | (.error err, v) => (.error err, v)
  | (.ok (n, flags), v) => openTruncate v n flags

/-- `NX_VfsOpen` reaches `truncate` with this node and these flags. -/
def Truncates (v : Vfs σ) (n : ℕ) (flags : BitVec 32) : Prop :=
  hasFlag flags oTrunc = true ∧ hasFlag flags oWronly = true ∧ (v.node n).inode.type ≠ .dir

def Vfs.Writable (v : Vfs σ) (n : ℕ) : Prop :=
  (v.node n).inode.type ≠ .dir ∧ vfsNodeAccess v n wOk = true

instance (v : Vfs σ) (n : ℕ) : Decidable (v.Writable n) :=
  inferInstanceAs (Decidable (_ ∧ _))

section Checks

variable {v v' : Vfs σ} {n n' : ℕ} {absPath : Str} {flags flags' mode : BitVec 32}

theorem openExisting_eq : openExisting v n flags = afterCheck (existingChecked v n flags) := by
  unfold openExisting existingChecked
  split_ifs <;> rfl

theorem openCreate_eq :
    openCreate v absPath flags mode = afterCheck (createChecked v absPath flags mode) := by
  unfold openCreate createChecked
  rcases vfsLookupDir v absPath with ⟨_ | ⟨dn, filename⟩, w⟩
  · rfl
  · simp only
    split_ifs
    · rfl
    · rfl
    · rcases vfsNodeAcquire (vfsNodeRelease (createFile w dn filename mode).2 dn) absPath with
        ⟨_ | n, w'⟩ <;> rfl

theorem openNode_eq :
    openNode v absPath flags mode = afterCheck (openChecked v absPath flags mode) := by
  unfold openNode openChecked
  rcases vfsNodeAcquire v absPath with ⟨_ | n, w⟩
  · simp only
    split_ifs
    · exact openCreate_eq
    · rfl
  · exact openExisting_eq

theorem openTruncate_of_not_truncates (htruncates : ¬Truncates v n flags) :
    openTruncate v n flags =
      if hasFlag flags oTrunc then (.error .eperm, vfsNodeRelease v n)
      else (.ok (n, flags), v) := by
  unfold openTruncate
  split_ifs with htrunc hperm
  · rfl
  · simp only [Bool.or_eq_true, Bool.not_eq_true', beq_iff_eq, not_or, Bool.not_eq_false]
      at hperm
    exact absurd ⟨htrunc, hperm⟩ htruncates
  · rfl

/-! ## Flags that are taken off -/

theorem hasFlag_off_creat (flag : BitVec 32) (hflag : ~~~oCreat &&& flag = flag) :
    hasFlag (flags &&& ~~~oCreat) flag = hasFlag flags flag := by
  rw [hasFlag, BitVec.and_assoc, hflag, hasFlag]

theorem hasFlag_off_self (flag : BitVec 32) : hasFlag (flags &&& ~~~flag) flag = false := by
  rw [hasFlag, BitVec.and_assoc, BitVec.and_comm (~~~flag), BitVec.and_not_self]
  simp

theorem hasFlag_accmode (hwronly : hasFlag flags oWronly = true) :
    hasFlag flags oAccmode = true := by
  have hwithin : oAccmode &&& oWronly = oWronly := by decide
  simp only [hasFlag, bne_iff_ne, ne_eq] at hwronly ⊢
  intro hzero
  apply hwronly
  rw [← hwithin, ← BitVec.and_assoc, hzero]
  exact BitVec.zero_and

/-! ## Nodes that were there -/

/-- An acquired node passes with `NX_VFS_O_CREAT` but not `NX_VFS_O_EXCL`, or where the node may
be written to if that is asked. -/
theorem existingChecked_ok (hchecked : existingChecked v n flags = (.ok (n', flags'), v')) :
    n' = n ∧ v' = v ∧
      ((hasFlag flags oCreat = true ∧ hasFlag flags oExcl = false ∧ flags' = flags &&& ~~~oCreat) ∨
      (flags' = flags ∧
        (hasFlag flags oWronly = true ∨ hasFlag flags oTrunc = true → v.Writable n))) := by
  unfold existingChecked at hchecked
  split_ifs at hchecked with hcreat hexcl hwrite haccess hdir
  · cases hchecked
  · cases hchecked
    exact ⟨rfl, rfl, .inl ⟨hcreat, by simpa using hexcl, rfl⟩⟩
  · cases hchecked
  · cases hchecked
  · cases hchecked
    exact ⟨rfl, rfl, .inr ⟨rfl, fun _ => ⟨hdir, by simpa using haccess⟩⟩⟩
  · cases hchecked
    exact ⟨rfl, rfl, .inr ⟨rfl, fun hasked => absurd (by simpa using hasked) hwrite⟩⟩

theorem existingChecked_of_creat (hcreat : hasFlag flags oCreat = true)
    (hexcl : hasFlag flags oExcl = false) :
    existingChecked v n flags = (.ok (n, flags &&& ~~~oCreat), v) := by
  simp [existingChecked, hcreat, hexcl]

theorem openTruncate_ok (htrunc : openTruncate v n flags = (.ok (n', flags'), v')) :
    n' = n ∧ flags' = flags ∧ (hasFlag flags oTrunc = true → Truncates v n flags) := by
  by_cases htruncates : Truncates v n flags
  · obtain ⟨hset, hwronly, hdir⟩ := htruncates
    rw [openTruncate, if_pos hset, if_neg (by simp [hwronly, hdir])] at htrunc
    simp only at htrunc
    split at htrunc
    · cases htrunc
    · cases htrunc
      exact ⟨rfl, rfl, fun _ => ⟨hset, hwronly, hdir⟩⟩
  · rw [openTruncate_of_not_truncates htruncates] at htrunc
    split at htrunc
    · cases htrunc
    · next hset =>
      cases htrunc
      exact ⟨rfl, rfl, fun h => absurd h hset⟩

theorem openChecked_of_acquired (hacquire : vfsNodeAcquire v absPath = (.ok n, v')) :
    openChecked v absPath flags mode = existingChecked v' n flags := by
  rw [openChecked, hacquire]

/-- A new file is never truncated. -/
theorem createChecked_ok (hchecked : createChecked v absPath flags mode = (.ok (n, flags'), v')) :
    hasFlag flags' oTrunc = false := by
  unfold createChecked at hchecked
  split at hchecked
  · cases hchecked
  · split at hchecked
    · cases hchecked
    · simp only at hchecked
      split at hchecked
      · cases hchecked
      · split at hchecked
        · cases hchecked
        · cases hchecked
          exact hasFlag_off_self oTrunc

end Checks

/-! ## Descriptors -/

section Descriptors

variable {s s' : FileSystems σ} {ft fd n : ℕ} {v : Vfs σ} {absPath : Str}
  {flags mode : BitVec 32}

theorem vfsOpen_ok (hopen : vfsOpen s ft absPath flags mode = (.ok fd, s')) :
    vfsFileAlloc (s.file ft) = some fd ∧
      ∃ n flags' v, openNode s.vfs absPath flags mode = (.ok (n, flags'), v) ∧
        s' = ({ s with vfs := v } : FileSystems σ).setFile ft fd ⟨some n, flags'⟩ := by
  unfold vfsOpen at hopen
  split at hopen
  · cases hopen
  · split at hopen
    · cases hopen
    · next n flags' v hnode =>
      split at hopen
      · cases hopen
      · next hfd =>
        cases hopen
        exact ⟨hfd, n, flags', v, hnode, rfl⟩

theorem vfsOpen_of_node {flags' : BitVec 32} (hwronly : hasFlag flags oWronly = true)
    (hnode : openNode s.vfs absPath flags mode = (.ok (n, flags'), v))
    (hfd : vfsFileAlloc (s.file ft) = some fd) :
    vfsOpen s ft absPath flags mode =
      (.ok fd, ({ s with vfs := v } : FileSystems σ).setFile ft fd ⟨some n, flags'⟩) := by
  simp [vfsOpen, hasFlag_accmode hwronly, hnode, hfd]

/-- A node that was there before the call is opened for writing, and any node truncated, only
where it is no directory and may be written to. -/
structure WriteGuarded (s : FileSystems σ) (ft : ℕ) (absPath : Str) (flags mode : BitVec 32) :
    Prop where
  opened : ∀ fd s' n v, vfsOpen s ft absPath flags mode = (.ok fd, s') →
    (s'.file ft fd).node = some n → hasFlag (s'.file ft fd).flags oWronly = true →
    vfsNodeAcquire s.vfs absPath = (.ok n, v) → v.Writable n
  truncated : ∀ n flags' v, openChecked s.vfs absPath flags mode = (.ok (n, flags'), v) →
    Truncates v n flags' → v.Writable n

/-- With `NX_VFS_O_CREAT` but not `NX_VFS_O_EXCL`, a path that is there and asked for writing is a
node that may be written to, or the call fails before it does harm: a directory is not truncated,
and without a free descriptor nothing is opened. -/
def CreateGuarded (s : FileSystems σ) (ft : ℕ) (absPath : Str) (flags : BitVec 32) : Prop :=
  hasFlag flags oCreat = true → hasFlag flags oExcl = false → hasFlag flags oWronly = true →
    ∀ n v, vfsNodeAcquire s.vfs absPath = (.ok n, v) → v.Writable n ∨
      (hasFlag flags oTrunc = true ∧ (v.node n).inode.type = .dir) ∨
      (hasFlag flags oTrunc = false ∧ vfsFileAlloc (s.file ft) = none)

theorem CreateGuarded.writable {flags' : BitVec 32} {v' : Vfs σ} {n' : ℕ}
    (hguarded : CreateGuarded s ft absPath flags)
    (hacquire : vfsNodeAcquire s.vfs absPath = (.ok n, v))
    (hchecked : existingChecked v n flags = (.ok (n', flags'), v'))
    (hwronly : hasFlag flags' oWronly = true)
    (htrunc : hasFlag flags' oTrunc = true → (v.node n).inode.type ≠ .dir)
    (hfd : hasFlag flags' oTrunc = false → vfsFileAlloc (s.file ft) ≠ none) : v.Writable n := by
  obtain ⟨-, -, ⟨hcreat, hexcl, rfl⟩ | ⟨rfl, hwritable⟩⟩ := existingChecked_ok hchecked
  · rw [hasFlag_off_creat _ (by decide)] at hwronly htrunc hfd
    rcases hguarded hcreat hexcl hwronly n v hacquire with hw | ⟨hset, hdir⟩ | ⟨hoff, hnone⟩
    · exact hw
    · exact absurd hdir (htrunc hset)
    · exact absurd hnone (hfd hoff)
  · exact hwritable (.inl hwronly)

/-- For every path, flags, mode and state: what is opened for writing or truncated may be written
to, exactly if the path that `NX_VFS_O_CREAT` finds may be. -/
theorem vfsOpen_writeGuarded_iff (s : FileSystems σ) (ft : ℕ) (absPath : Str)
    (flags mode : BitVec 32) :
    WriteGuarded s ft absPath flags mode ↔ CreateGuarded s ft absPath flags := by
  constructor
  · intro hguarded hcreat hexcl hwronly n v hacquire
    have hchecked : openChecked s.vfs absPath flags mode = (.ok (n, flags &&& ~~~oCreat), v) := by
      rw [openChecked_of_acquired hacquire, existingChecked_of_creat hcreat hexcl]
    by_cases htrunc : hasFlag flags oTrunc = true
    · by_cases hdir : (v.node n).inode.type = .dir
      · exact .inr (.inl ⟨htrunc, hdir⟩)
      · refine .inl (hguarded.truncated n _ v hchecked ⟨?_, ?_, hdir⟩)
        · rwa [hasFlag_off_creat _ (by decide)]
        · rwa [hasFlag_off_creat _ (by decide)]
    · have hoff : hasFlag flags oTrunc = false := by simpa using htrunc
      rcases hfd : vfsFileAlloc (s.file ft) with - | fd
      · exact .inr (.inr ⟨hoff, rfl⟩)
      · have hnode : openNode s.vfs absPath flags mode = (.ok (n, flags &&& ~~~oCreat), v) := by
          rw [openNode_eq, hchecked, afterCheck, openTruncate, if_neg]
          simp [hasFlag_off_creat _ (show ~~~oCreat &&& oTrunc = oTrunc by decide), hoff]
        refine .inl (hguarded.opened fd _ n v (vfsOpen_of_node hwronly hnode hfd) ?_ ?_ hacquire)
        · simp [FileSystems.setFile]
        · simp [FileSystems.setFile, hasFlag_off_creat _
            (show ~~~oCreat &&& oWronly = oWronly by decide), hwronly]
  · intro hguarded
    constructor
    · intro fd s' n v hopen hnode hwronly hacquire
      obtain ⟨hfd, n', flags', v', hnode', rfl⟩ := vfsOpen_ok hopen
      rw [openNode_eq, openChecked_of_acquired hacquire] at hnode'
      rcases hchecked : existingChecked v n flags with ⟨err | ⟨n'', flags''⟩, w⟩
      · rw [hchecked] at hnode'
        cases hnode'
      · rw [hchecked] at hnode'
        obtain ⟨rfl, rfl, htrunc⟩ := openTruncate_ok hnode'
        obtain ⟨rfl, rfl, -⟩ := existingChecked_ok hchecked
        exact hguarded.writable hacquire hchecked (by simpa [FileSystems.setFile] using hwronly)
          (fun hset => (htrunc hset).2.2) (fun _ => by simp [hfd])
    · intro n flags' v hchecked htruncates
      unfold openChecked at hchecked
      split at hchecked
      · next m w hacquire =>
        obtain ⟨rfl, rfl, -⟩ := existingChecked_ok hchecked
        exact hguarded.writable hacquire hchecked htruncates.2.1 (fun _ => htruncates.2.2)
          (fun hoff => absurd htruncates.1 (by simp [hoff]))
      · split at hchecked
        · exact absurd htruncates.1 (by simp [createChecked_ok hchecked])
        · cases hchecked

end Descriptors

/-- A file without any permission is opened for writing, because `NX_VFS_O_CREAT` was given. -/
theorem vfsOpen_unguarded : ¬WriteGuarded ⟨demoMounted, fun _ _ => .free⟩ 0
    [slash, 0x64, slash, 0x74] (oWronly ||| oCreat) 0 := by
  intro hguarded
  have hwritable := hguarded.opened 3 _ 3 _ rfl (by decide) (by decide) rfl
  revert hwritable
  decide

end Nxos.Fs
