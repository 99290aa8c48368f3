import Mathlib.Logic.Function.Basic
import Nxos.Base.Kernel

/-!
# The hub

The embedding of the calling side of `ipc/hub/hub.c`: clients run
`NX_HubCallParam`, one server thread runs `NX_HubPoll` and `NX_HubReturn`.  Every
thread has a program counter.  A section under `hub->lock` is one step; outside
of it each access to shared memory is a step of its own.  The semaphore of a
channel is its value.

Channels are named by numbers in the order of their allocation.  `NX_MemFree`
empties the place of a channel, and a step that would use a freed channel has no
meaning here.

The state also keeps a record of what the threads did: the polls and returns of
the server and the calls that completed.  No step reads the record.
-/

namespace Nxos.Ipc

/-! ## Data -/

/-- `NX_HubParam`. -/
structure HubParam where
  api : BitVec 32
  args : Vector (BitVec 64) 8
  deriving DecidableEq

/-- `enum NX_HubChannelState`. -/
inductive ChannelState where
  | idle
  | ready
  | active
  | handled
  deriving DecidableEq, Repr

/-- The threads of a hub: its clients, and the server. -/
inductive HubThread (ι : Type) where
  | client (i : ι)
  | server
  deriving DecidableEq, Repr

/-- `NX_HubChannel`, without the list of memory descriptions. -/
structure HubChannel (ι : Type) where
  state : ChannelState
  sourceThread : Option (HubThread ι)
  targetThread : Option (HubThread ι)
  retVal : BitVec 64
  retErr : NxError
  syncSem : ℕ
  param : HubParam

/-- The arguments of a call.  `wantsVal` says that the pointer `retVal` is not null. -/
structure HubCall where
  param : HubParam
  wantsVal : Bool

/-- Where a client is that holds a channel. -/
inductive HoldPc where
  /-- `channel->sourceThread = source` -/
  | source
  /-- `NX_CopyFromUserEx(&channel->param, param)` -/
  | copy
  /-- `channel->state = NX_HUB_CHANNEL_ACTIVE` -/
  | activate
  /-- `NX_SemaphoreWait(&channel->syncSem)` -/
  | wait
  /-- `NX_CopyToUser(retVal, &channel->retVal, ..)` -/
  | readVal
  /-- `retErr = channel->retErr` -/
  | readErr (val : Option (BitVec 64))
  /-- `PutFreeChannel` -/
  | put (val : Option (BitVec 64)) (err : NxError)
  deriving DecidableEq, Repr

/-- Where a client is in `NX_HubCallParam`.  A client that holds a channel remembers
how many polls and returns the record had when it picked the channel. -/
inductive ClientPc where
  | out
  /-- `HubPickChannel`, for the first time -/
  | pick (call : HubCall)
  /-- `NX_AtomicGet(&hub->totalChannels) < hub->maxClient` -/
  | check (call : HubCall)
  /-- `CreateChannel` -/
  | create (call : HubCall)
  /-- `HubAddChannel` -/
  | add (call : HubCall) (c : ℕ)
  /-- `HubPickChannel`, after the channel was added -/
  | repick (call : HubCall)
  | hold (call : HubCall) (c firstPoll firstReturn : ℕ) (pc : HoldPc)
  /-- The null pointer was dereferenced. -/
  | fault

/-- Where the server is in the part of `NX_HubPoll` that handles an active channel. -/
inductive TakePc where
  /-- `hub->idleTime = 0` -/
  | idle
  /-- `NX_CopyToUserEx(param, &channelActive->param)` -/
  | param
  /-- `channelActive->targetThread = thread` -/
  | target (param : HubParam)
  /-- `thread->resource.activeChannel = channelActive` -/
  | active (param : HubParam)

/-- Where the server is in the part of `NX_HubReturn` after the checks. -/
inductive ReplyPc where
  /-- `cur->resource.activeChannel = NX_NULL` -/
  | clear
  /-- `channel->retVal = retVal` -/
  | val
  /-- `channel->retErr = retErr` -/
  | err
  /-- `NX_SemaphoreSignal(&channel->syncSem)` -/
  | signal
  deriving DecidableEq, Repr

inductive ServerPc where
  | out
  /-- the search for an active channel -/
  | scan
  | take (c : ℕ) (pc : TakePc)
  /-- `NX_AtomicGet(&hub->totalChannels) > 0` -/
  | total
  /-- `if (!hub->idleTime) hub->idleTime = NX_ClockTickGetMillisecond()` -/
  | idle
  /-- the comparison with `NX_HUB_IDLE_TIME` -/
  | compare
  /-- the locked loop that frees all channels -/
  | release
  /-- `hub->idleTime = 0` -/
  | reset
  | reply (c : ℕ) (val : BitVec 64) (err : NxError) (pc : ReplyPc)

structure PollRecord where
  channel : ℕ
  param : HubParam

/-- An `NX_HubReturn`: the active channel at that time, the number of the last poll
that returned a channel, and the result. -/
structure ReturnRecord where
  channel : ℕ
  poll : ℕ
  retVal : BitVec 64
  retErr : NxError

/-- A call that completed: its client, channel and arguments, what it returned, and
the numbers of polls and returns in the record when it picked its channel and when it
gave it back. -/
structure CallRecord (ι : Type) where
  client : ι
  channel : ℕ
  call : HubCall
  retVal : Option (BitVec 64)
  retErr : NxError
  firstPoll : ℕ
  firstReturn : ℕ
  lastReturn : ℕ

/-- A hub with its channels, its threads and the clock. -/
structure HubState (ι : Type) where
  channelList : List ℕ
  channel : ℕ → Option (HubChannel ι)
  nextChannel : ℕ
  totalChannels : ℕ
  maxClient : ℕ
  idleTime : BitVec 64
  clock : BitVec 64
  client : ι → ClientPc
  server : ServerPc
  activeChannel : Option ℕ
  polls : List PollRecord
  returns : List ReturnRecord
  completed : List (CallRecord ι)

/-- A hub after `NX_HubRegister`, at some time. -/
def hubInit {ι : Type} (maxClient : ℕ) (clock : BitVec 64) : HubState ι where
  channelList := []
  channel := fun _ => none
  nextChannel := 0
  totalChannels := 0
  maxClient := maxClient
  idleTime := 0
  clock := clock
  client := fun _ => .out
  server := .out
  activeChannel := none
  polls := []
  returns := []
  completed := []

/-- `NX_HUB_IDLE_TIME * 1000`. -/
def hubIdleMilliseconds : BitVec 64 := 10000

/-! ## Sections -/

section Sections

variable {ι : Type}

def HubState.write (σ : HubState ι) (c : ℕ) (ch : HubChannel ι) : HubState ι :=
  { σ with channel := Function.update σ.channel c (some ch) }

/-- `HubChannelInit` on memory that was zeroed. -/
def hubChannelInit : HubChannel ι where
  state := .idle
  sourceThread := none
  targetThread := none
  retVal := 0
  retErr := .eok
  syncSem := 0
  param := ⟨0, Vector.replicate 8 0⟩

/-- `CreateChannel`, when there is memory. -/
def createChannel (σ : HubState ι) : ℕ × HubState ι :=
  (σ.nextChannel,
    { σ.write σ.nextChannel hubChannelInit with nextChannel := σ.nextChannel + 1 })

/-- `HubAddChannel`. -/
def hubAddChannel (σ : HubState ι) (c : ℕ) : Option (HubState ι) :=
  (σ.channel c).map fun ch =>
    { σ.write c { ch with state := .idle } with
      channelList := c :: σ.channelList
      totalChannels := σ.totalChannels + 1 }

def firstInState (σ : HubState ι) (s : ChannelState) : Option (ℕ × HubChannel ι) :=
  σ.channelList.findSome? fun c =>
    match σ.channel c with
    | some ch => if ch.state = s then some (c, ch) else none
    | none => none

/-- `HubPickChannel`. -/
def hubPickChannel (σ : HubState ι) : Option (ℕ × HubState ι) :=
  (firstInState σ .idle).map fun (c, ch) => (c, σ.write c { ch with state := .ready })

/-- The locked section of `PutFreeChannel`. -/
def putFreeChannel (σ : HubState ι) (c : ℕ) : Option (HubState ι) :=
  (σ.channel c).map fun ch =>
    σ.write c { ch with state := .idle, sourceThread := none, targetThread := none }

/-- The locked section of `NX_HubPoll`. -/
def hubPollScan (σ : HubState ι) : Option (ℕ × HubState ι) :=
  (firstInState σ .active).map fun (c, ch) => (c, σ.write c { ch with state := .handled })

/-- The locked section of `HubCheckChannelRelease`: every channel on the list is
taken off and freed. -/
def hubRelease (σ : HubState ι) : HubState ι :=
  { σ with
    channelList := []
    channel := fun c => if c ∈ σ.channelList then none else σ.channel c
    totalChannels := σ.totalChannels - σ.channelList.length }

end Sections

/-! ## Steps -/

section Steps

variable {ι : Type} [DecidableEq ι]

/-- What a thread may do next.  A call chooses its arguments, and `mem` says whether
`CreateChannel` gets memory. -/
inductive HubAct (ι : Type) where
  | call (i : ι) (call : HubCall)
  | client (i : ι) (mem : Bool)
  | poll
  | ret (val : BitVec 64) (err : NxError)
  | server
  | tick (ms : BitVec 64)

def HubState.goto (σ : HubState ι) (i : ι) (pc : ClientPc) : HubState ι :=
  { σ with client := Function.update σ.client i pc }

/-- A client that just picked the channel `c`. -/
def HubState.picked (σ : HubState ι) (i : ι) (call : HubCall) (c : ℕ) : HubState ι :=
  σ.goto i (.hold call c σ.polls.length σ.returns.length .source)

def HubState.complete (σ : HubState ι) (i : ι) (call : HubCall)
    (c firstPoll firstReturn : ℕ) (val : Option (BitVec 64)) (err : NxError) : HubState ι :=
  { σ.goto i .out with
    completed := σ.completed ++
      [⟨i, c, call, val, err, firstPoll, firstReturn, σ.returns.length⟩] }

/-- The next step of a client that holds the channel `c`. -/
def holdStep (σ : HubState ι) (i : ι) (call : HubCall) (c firstPoll firstReturn : ℕ)
    (pc : HoldPc) : Option (HubState ι) := do
  let ch ← σ.channel c
  let next := fun (σ : HubState ι) (pc : HoldPc) =>
    σ.goto i (.hold call c firstPoll firstReturn pc)
  match pc with
  | .source => some (next (σ.write c { ch with sourceThread := some (.client i) }) .copy)
  | .copy => some (next (σ.write c { ch with param := call.param }) .activate)
  | .activate => some (next (σ.write c { ch with state := .active }) .wait)
  | .wait =>
      if 0 < ch.syncSem then
        some (next (σ.write c { ch with syncSem := ch.syncSem - 1 }) .readVal)
      else none
  | .readVal => some (next σ (.readErr (if call.wantsVal then some ch.retVal else none)))
  | .readErr val => some (next σ (.put val ch.retErr))
  | .put val err => do
      let σ ← putFreeChannel σ c
      return σ.complete i call c firstPoll firstReturn val err

/-- The next step of a client in `NX_HubCallParam`. -/
def clientStep (σ : HubState ι) (i : ι) (mem : Bool) : Option (HubState ι) :=
  match σ.client i with
  | .out => none
  | .pick call =>
      match hubPickChannel σ with
      | some (c, σ) => some (σ.picked i call c)
      | none => some (σ.goto i (.check call))
  | .check call =>
      if σ.totalChannels < σ.maxClient then some (σ.goto i (.create call))
      else some (σ.goto i .out)
  | .create call =>
      if mem then
        let (c, σ) := createChannel σ
        some (σ.goto i (.add call c))
      else some (σ.goto i .out)
  | .add call c => do
      let σ ← hubAddChannel σ c
      return σ.goto i (.repick call)
  | .repick call =>
      match hubPickChannel σ with
      | some (c, σ) => some (σ.picked i call c)
      | none => some (σ.goto i .fault)
  | .hold call c firstPoll firstReturn pc => holdStep σ i call c firstPoll firstReturn pc
  | .fault => none

def takeStep (σ : HubState ι) (c : ℕ) : TakePc → Option (HubState ι)
  | .idle => some { σ with idleTime := 0, server := .take c .param }
  | .param => do
      let ch ← σ.channel c
      return { σ with server := .take c (.target ch.param) }
  | .target param => do
      let ch ← σ.channel c
      return { σ.write c { ch with targetThread := some .server } with
        server := .take c (.active param) }
  | .active param =>
      some { σ with
        activeChannel := some c
        server := .out
        polls := σ.polls ++ [⟨c, param⟩] }

def replyStep (σ : HubState ι) (c : ℕ) (val : BitVec 64) (err : NxError) :
    ReplyPc → Option (HubState ι)
  | .clear => some { σ with activeChannel := none, server := .reply c val err .val }
  | .val => do
      let ch ← σ.channel c
      return { σ.write c { ch with retVal := val } with server := .reply c val err .err }
  | .err => do
      let ch ← σ.channel c
      return { σ.write c { ch with retErr := err } with server := .reply c val err .signal }
  | .signal => do
      let ch ← σ.channel c
      return { σ.write c { ch with syncSem := ch.syncSem + 1 } with server := .out }

def serverStep (σ : HubState ι) : Option (HubState ι) :=
  match σ.server with
  | .out => none
  | .scan =>
      match hubPollScan σ with
      | some (c, σ) => some { σ with server := .take c .idle }
      | none => some { σ with server := .total }
  | .take c pc => takeStep σ c pc
  | .total =>
      if 0 < σ.totalChannels then some { σ with server := .idle }
      else some { σ with server := .out }
  | .idle =>
      some { σ with
        idleTime := if σ.idleTime = 0 then σ.clock else σ.idleTime
        server := .compare }
  | .compare =>
      if hubIdleMilliseconds < σ.clock - σ.idleTime then some { σ with server := .release }
      else some { σ with server := .out }
  | .release => some { hubRelease σ with server := .reset }
  | .reset => some { σ with idleTime := 0, server := .out }
  | .reply c val err pc => replyStep σ c val err pc

/-- The checks of `NX_HubReturn`.  A return without an active channel, or with one
that another thread handles, changes nothing. -/
def hubReturn (σ : HubState ι) (val : BitVec 64) (err : NxError) : Option (HubState ι) :=
  match σ.activeChannel with
  | none => some σ
  | some c => do
      let ch ← σ.channel c
      if ch.targetThread = some .server then
        return { σ with
          server := .reply c val err .clear
          returns := σ.returns ++ [⟨c, σ.polls.length - 1, val, err⟩] }
      else return σ

def hubStep (σ : HubState ι) : HubAct ι → Option (HubState ι)
  | .call i call =>
      match σ.client i with
      | .out => some (σ.goto i (.pick call))
      | _ => none
  | .client i mem => clientStep σ i mem
  | .poll =>
      match σ.server with
      | .out => some { σ with server := .scan }
      | _ => none
  | .ret val err =>
      match σ.server with
      | .out => hubReturn σ val err
      | _ => none
  | .server => serverStep σ
  | .tick ms => some { σ with clock := σ.clock + ms }

end Steps

end Nxos.Ipc
