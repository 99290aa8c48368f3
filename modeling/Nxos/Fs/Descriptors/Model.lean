import Nxos.Fs.Vfs.Operations

/-!
# Descriptors that threads share

The embedding of `NX_VfsOpen`, `NX_VfsClose` and `NX_VfsRead` on one file table that any number of
threads use.  Each section under `file_lock` or under the lock of a descriptor is one step.

An open takes a reference on its node before it looks for a descriptor, and is numbered by it.  The
numbers, and what the last four fields of the state record, are not part of the source.
-/

namespace Nxos.Fs

/-! ## Data -/

/-- A reference on a node, with the number of the open that took it. -/
structure NodeRef where
  node : ℕ
  number : ℕ
  deriving DecidableEq

/-- `NX_VfsFile`, without its lock. -/
structure SharedFile where
  node : Option NodeRef
  offset : BitVec 64
  flags : BitVec 32
  deriving DecidableEq

def SharedFile.free : SharedFile := ⟨none, 0, 0⟩

def SharedFile.toVfsFile (f : SharedFile) : VfsFile := ⟨f.node.map NodeRef.node, f.flags⟩

inductive FilePoint where
  | outside
  /-- Before `VfsFileAlloc`. -/
  | openAlloc (r : NodeRef) (flags : BitVec 32)
  /-- Before the section that fills the descriptor. -/
  | openFill (r : NodeRef) (flags : BitVec 32) (fd : ℕ)
  /-- Before `VfsNodeRelease`, without a descriptor. -/
  | openRelease (r : NodeRef)
  /-- Behind the section that releases the reference, before `VfsFileFree`. -/
  | closeFree (r : NodeRef) (fd : ℕ)
  deriving DecidableEq

inductive FileResult where
  | opened (fd : Option ℕ) (err : NxError)
  | closed (err : NxError)
  | read (count : BitVec 64) (err : NxError)
  deriving DecidableEq

/-- What has become of an open: it returned a descriptor when it is held or closed. -/
inductive OpenStage where
  | calling
  | failed
  | held (fd : ℕ)
  | closed
  deriving DecidableEq

/-- A file table and the threads that use it, with the number of opens so far, what has become of
them, how often the reference of each was released, and how often a node was used through a
reference that was released before. -/
structure FileThreads (τ : Type) where
  file : ℕ → SharedFile
  point : τ → FilePoint
  result : τ → Option FileResult
  opens : ℕ
  stage : ℕ → OpenStage
  releases : ℕ → ℕ
  stale : ℕ

variable {τ : Type}

/-- A new file table, as `NX_VfsFileTableInit` leaves it. -/
def FileThreads.new : FileThreads τ where
  file _ := .free
  point _ := .outside
  result _ := none
  opens := 0
  stage _ := .calling
  releases _ := 0
  stale := 0

/-! ## Sections -/

/-- `VfsFileAlloc` -/
def FileThreads.fileAlloc (s : FileThreads τ) : Option ℕ :=
  vfsFileAlloc fun fd => (s.file fd).toVfsFile

def FileThreads.setFile (s : FileThreads τ) (fd : ℕ) (f : SharedFile) : FileThreads τ :=
  { s with file := Function.update s.file fd f }

/-- `VfsFileFree` -/
def FileThreads.fileFree (s : FileThreads τ) (fd : ℕ) : FileThreads τ :=
  if 3 ≤ fd ∧ fd < vfsMaxFd ∧ (s.file fd).node.isSome then s.setFile fd .free else s

def FileThreads.use (s : FileThreads τ) (r : NodeRef) : FileThreads τ :=
  { s with stale := if s.releases r.number = 0 then s.stale else s.stale + 1 }

/-- `VfsNodeRelease` -/
def FileThreads.release (s : FileThreads τ) (r : NodeRef) (stage : OpenStage) : FileThreads τ :=
  { s with
    releases := Function.update s.releases r.number (s.releases r.number + 1)
    stage := Function.update s.stage r.number stage }

/-- What the section of `NX_VfsRead` returns and leaves, where the read of the file system
answers.  The nodes have a type. -/
def readSection (type : ℕ → VfsNodeType) (f : SharedFile) (answer : BitVec 64 × NxError) :
    FileResult × SharedFile :=
  match f.node with
  | none => (.read 0 .efault, f)
  | some r =>
      if type r.node ≠ .reg then (.read 0 .enores, f)
      else if !hasFlag f.flags oRdonly then (.read 0 .eperm, f)
      else (.read answer.1 answer.2, { f with offset := f.offset + answer.1 })

/-! ## Steps -/

section Steps

variable [DecidableEq τ] (type : ℕ → VfsNodeType)

def FileThreads.goto (s : FileThreads τ) (t : τ) (point : FilePoint) : FileThreads τ :=
  { s with point := Function.update s.point t point }

def FileThreads.finish (s : FileThreads τ) (t : τ) (result : FileResult) : FileThreads τ :=
  { s with result := Function.update s.result t (some result) }.goto t .outside

/-- `NX_VfsOpen` has acquired a node. -/
def FileThreads.take (s : FileThreads τ) (t : τ) (node : ℕ) (flags : BitVec 32) : FileThreads τ :=
  { s with opens := s.opens + 1 }.goto t (.openAlloc ⟨node, s.opens⟩ flags)

/-- The section of `NX_VfsClose`, where the file system answers to `sync`. -/
def FileThreads.closeSection (s : FileThreads τ) (t : τ) (fd : ℕ) (sync : NxError) :
    FileThreads τ :=
  match (s.file fd).node with
  | none => s.finish t (.closed .efault)
  | some r =>
      if sync ≠ .eok then (s.use r).finish t (.closed sync)
      else ((s.use r).release r .closed).goto t (.closeFree r fd)

/-- The section of `NX_VfsRead`. -/
def FileThreads.readStep (s : FileThreads τ) (t : τ) (fd : ℕ) (answer : BitVec 64 × NxError) :
    FileThreads τ :=
  let (result, f) := readSection type (s.file fd) answer
  let s :=
    match (s.file fd).node with
    | none => s
    | some r => s.use r
  (s.setFile fd f).finish t result

/-- The thread performs the next section of its call. -/
def FileThreads.goOn (s : FileThreads τ) (t : τ) : Option (FileThreads τ) :=
  match s.point t with
  | .outside => none
  | .openAlloc r flags =>
      match s.fileAlloc with
      | none => some (s.goto t (.openRelease r))
      | some fd => some (s.goto t (.openFill r flags fd))
  | .openFill r flags fd =>
      let s := s.setFile fd ⟨some r, 0, flags⟩
      let s := { s with stage := Function.update s.stage r.number (.held fd) }
      some (s.finish t (.opened (some fd) .eok))
  | .openRelease r => some ((s.release r .failed).finish t (.opened none .enores))
  | .closeFree _ fd => some ((s.fileFree fd).finish t (.closed .eok))

/-- A thread calls `NX_VfsOpen` and acquires a node, calls `NX_VfsClose` or `NX_VfsRead` for a
descriptor that is not negative, or goes on in its call. -/
inductive FileOp (τ : Type) where
  | openFile (t : τ) (node : ℕ) (flags : BitVec 32)
  | closeFile (t : τ) (fd : ℕ) (sync : NxError)
  | readFile (t : τ) (fd : ℕ) (answer : BitVec 64 × NxError)
  | goOn (t : τ)

def fileStep (s : FileThreads τ) : FileOp τ → Option (FileThreads τ)
  | .openFile t node flags =>
      if s.point t = .outside then some (s.take t node flags) else none
  | .closeFile t fd sync =>
      if s.point t ≠ .outside then none
      else if vfsMaxFd ≤ fd then some (s.finish t (.closed .efault))
      else some (s.closeSection t fd sync)
  | .readFile t fd answer =>
      if s.point t ≠ .outside then none
      else if vfsMaxFd ≤ fd then some (s.finish t (.read 0 .enores))
      else some (s.readStep type t fd answer)
  | .goOn t => s.goOn t

def FileMove (s : FileThreads τ) (op : FileOp τ) (s' : FileThreads τ) : Prop :=
  fileStep type s op = some s'

end Steps

end Nxos.Fs
