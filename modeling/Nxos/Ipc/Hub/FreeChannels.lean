import Nxos.Ipc.Hub.Session
import Mathlib.Data.Set.Card

/-!
# Free channels

Clients of a hub get channels and put them back, in any interleaving.  Between the
check of the number of channels, the insertion of a new channel and the second
search, other clients run: two clients can pass the check for the same place, and
the channel that a client adds can be picked by another one.

What matters of the state is the pool: how many channels there are, which clients
are on the way to add one, which have added one and not yet picked again, and which
channels are idle.
-/

namespace Nxos.Ipc

open Nxos.Transition

section Pool

variable {ι : Type}

/-! ## Steps -/

/-- A client calls `GetFreeChannel`, goes on in it, or calls `PutFreeChannel` with the
channel it got. -/
inductive PoolAct (ι : Type) where
  | get (i : ι) (call : HubCall)
  | client (i : ι) (mem : Bool)
  | put (i : ι)

/-- One step of a client.  `GetFreeChannel` is over when `sourceThread` is written. -/
def poolStep [DecidableEq ι] (σ : HubState ι) : PoolAct ι → Option (HubState ι)
  | .get i call => hubStep σ (.call i call)
  | .client i mem =>
      match σ.client i with
      | .hold _ _ _ _ .source => clientStep σ i mem
      | .hold _ _ _ _ _ => none
      | _ => clientStep σ i mem
  | .put i =>
      match σ.client i with
      | .hold _ c _ _ .copy => (putFreeChannel σ c).map fun σ => σ.goto i .out
      | _ => none

/-! ## The pool -/

/-- The client passed the check and its channel is not on the list yet. -/
def ClientPc.Pending : ClientPc → Prop
  | .create _ => True
  | .add _ _ => True
  | _ => False

def ClientPc.Promised : ClientPc → Prop
  | .repick _ => True
  | _ => False

/-- The channels of a hub and the clients that are about to change them. -/
@[ext]
structure Pool (ι : Type) where
  total : ℕ
  maxClient : ℕ
  pending : Set ι
  promised : Set ι
  fault : Set ι
  idle : Set ℕ

def HubState.idle (σ : HubState ι) : Set ℕ :=
  {c | c ∈ σ.channelList ∧ ∃ ch, σ.channel c = some ch ∧ ch.state = .idle}

def HubState.pool (σ : HubState ι) : Pool ι where
  total := σ.totalChannels
  maxClient := σ.maxClient
  pending := {i | (σ.client i).Pending}
  promised := {i | (σ.client i).Promised}
  fault := {i | σ.client i = .fault}
  idle := σ.idle

theorem idle_finite (σ : HubState ι) : σ.idle.Finite :=
  σ.channelList.finite_toSet.subset fun _ hc => hc.1

theorem idle_write_busy (σ : HubState ι) (c : ℕ) {ch : HubChannel ι} (hstate : ch.state ≠ .idle) :
    (σ.write c ch).idle = σ.idle \ {c} := by
  ext d
  by_cases hd : d = c
  · subst hd
    simp [HubState.idle, HubState.write, hstate]
  · simp [HubState.idle, HubState.write, hd]

theorem idle_write_idle {σ : HubState ι} {c : ℕ} {ch : HubChannel ι} (hlist : c ∈ σ.channelList)
    (hstate : ch.state = .idle) : (σ.write c ch).idle = insert c σ.idle := by
  ext d
  by_cases hd : d = c
  · subst hd
    simp [HubState.idle, HubState.write, hstate, hlist]
  · simp [HubState.idle, HubState.write, hd]

theorem idle_write_off {σ : HubState ι} {c : ℕ} {ch : HubChannel ι}
    (hlist : c ∉ σ.channelList) : (σ.write c ch).idle = σ.idle := by
  ext d
  by_cases hd : d = c
  · subst hd
    simp [HubState.idle, HubState.write, hlist]
  · simp [HubState.idle, HubState.write, hd]

/-- `HubPickChannel` finds nothing exactly if no channel is idle. -/
theorem hubPickChannel_eq_none {σ : HubState ι} (h : hubPickChannel σ = none) :
    σ.idle = ∅ := by
  have hfirst := Option.map_eq_none_iff.mp h
  unfold firstInState at hfirst
  rw [List.findSome?_eq_none_iff] at hfirst
  ext c
  simp only [HubState.idle, Set.mem_ofPred_eq, Set.mem_empty_iff_false, iff_false]
  rintro ⟨hlist, ch, hch, hstate⟩
  have hnone := hfirst c hlist
  rw [hch] at hnone
  simp [hstate] at hnone

/-- `HubPickChannel` takes an idle channel. -/
theorem hubPickChannel_eq_some {σ τ : HubState ι} {c : ℕ} (h : hubPickChannel σ = some (c, τ)) :
    c ∈ σ.idle ∧ ∃ ch, τ = σ.write c ch ∧ ch.state = .ready := by
  obtain ⟨⟨d, ch⟩, hfirst, heq⟩ := Option.map_eq_some_iff.mp h
  cases heq
  obtain ⟨hlist, hch, hstate⟩ := firstInState_eq hfirst
  exact ⟨⟨hlist, ch, hch, hstate⟩, _, rfl, rfl⟩

/-! ## What a step does to the pool -/

section Update

variable [DecidableEq ι] (P : ClientPc → Prop) {f : ι → ClientPc} {i : ι} {pc : ClientPc}

theorem setOf_update_same (h : P pc ↔ P (f i)) :
    {j | P (Function.update f i pc j)} = {j | P (f j)} := by
  ext j
  by_cases hj : j = i
  · subst hj
    simp [h]
  · simp [hj]

theorem setOf_update_insert (h : P pc) :
    {j | P (Function.update f i pc j)} = insert i {j | P (f j)} := by
  ext j
  by_cases hj : j = i
  · subst hj
    simp [h]
  · simp [hj]

theorem setOf_update_erase (h : ¬P pc) :
    {j | P (Function.update f i pc j)} = {j | P (f j)} \ {i} := by
  ext j
  by_cases hj : j = i
  · subst hj
    simp [h]
  · simp [hj]

end Update

inductive PoolEffect (σ : HubState ι) : PoolAct ι → HubState ι → Prop
  | quiet {a : PoolAct ι} {τ : HubState ι} (hpool : τ.pool = σ.pool) : PoolEffect σ a τ
  /-- The first search takes an idle channel. -/
  | taken {i : ι} {mem : Bool} {τ : HubState ι} {call : HubCall} {c : ℕ}
      (hi : σ.client i = .pick call) (hc : c ∈ σ.pool.idle)
      (hpool : τ.pool = { σ.pool with idle := σ.pool.idle \ {c} }) :
      PoolEffect σ (.client i mem) τ
  /-- The check finds room. -/
  | reserved {i : ι} {mem : Bool} {τ : HubState ι} {call : HubCall}
      (hi : σ.client i = .check call) (hroom : σ.totalChannels < σ.maxClient)
      (hpool : τ.pool = { σ.pool with pending := insert i σ.pool.pending }) :
      PoolEffect σ (.client i mem) τ
  /-- There is no memory for a channel. -/
  | dropped {a : PoolAct ι} {τ : HubState ι} (i : ι)
      (hpool : τ.pool = { σ.pool with pending := σ.pool.pending \ {i} }) : PoolEffect σ a τ
  /-- A channel is added. -/
  | added {a : PoolAct ι} {τ : HubState ι} {i : ι} {c : ℕ} (hi : i ∈ σ.pool.pending)
      (hnot : i ∉ σ.pool.promised) (hc : c ∉ σ.pool.idle)
      (hpool : τ.pool = { σ.pool with
        total := σ.pool.total + 1
        pending := σ.pool.pending \ {i}
        promised := insert i σ.pool.promised
        idle := insert c σ.pool.idle }) : PoolEffect σ a τ
  /-- The second search takes an idle channel. -/
  | repicked {a : PoolAct ι} {τ : HubState ι} {i : ι} {c : ℕ} (hi : i ∈ σ.pool.promised)
      (hc : c ∈ σ.pool.idle)
      (hpool : τ.pool = { σ.pool with
        promised := σ.pool.promised \ {i}
        idle := σ.pool.idle \ {c} }) : PoolEffect σ a τ
  /-- The second search finds nothing. -/
  | faulted {a : PoolAct ι} {τ : HubState ι} {i : ι} (hi : i ∈ σ.pool.promised)
      (hidle : σ.pool.idle = ∅) : PoolEffect σ a τ
  /-- A channel is put back. -/
  | returned {a : PoolAct ι} {τ : HubState ι} {c : ℕ} (hc : c ∉ σ.pool.idle)
      (hpool : τ.pool = { σ.pool with idle := insert c σ.pool.idle }) : PoolEffect σ a τ

section Steps

variable [DecidableEq ι] {σ τ : HubState ι}

theorem pool_goto (σ : HubState ι) {i : ι} {pc : ClientPc}
    (hpending : pc.Pending ↔ (σ.client i).Pending)
    (hpromised : pc.Promised ↔ (σ.client i).Promised)
    (hfault : pc = .fault ↔ σ.client i = .fault) : (σ.goto i pc).pool = σ.pool := by
  ext1
  · rfl
  · rfl
  · exact setOf_update_same ClientPc.Pending hpending
  · exact setOf_update_same ClientPc.Promised hpromised
  · exact setOf_update_same (fun pc => pc = .fault) hfault
  · rfl

theorem pool_createChannel (hinv : HubInv σ) {i : ι} {call : HubCall}
    (hi : σ.client i = .create call) :
    ((createChannel σ).2.goto i (.add call (createChannel σ).1)).pool = σ.pool := by
  have hnone := hinv.fresh σ.nextChannel (Nat.le_refl _)
  have hlist : σ.nextChannel ∉ σ.channelList := by
    cases hinv.channels σ.nextChannel with
    | absent _ hlist _ _ => exact hlist
    | created _ _ _ _ _ hchannel _ _ _ => simp [hnone] at hchannel
    | idle _ hchannel _ _ _ _ _ => simp [hnone] at hchannel
    | held _ _ _ _ _ _ _ _ hchannel _ _ _ _ _ => simp [hnone] at hchannel
  have hclient : (createChannel σ).2.client i = .create call := hi
  have hpool : (createChannel σ).2.pool = σ.pool := by
    ext1
    case idle => exact idle_write_off hlist
    all_goals rfl
  rw [← hpool]
  apply pool_goto <;> simp [hclient, ClientPc.Pending, ClientPc.Promised]

/-- `HubAddChannel` of a client that created a channel. -/
theorem pool_hubAddChannel (hinv : HubInv σ) {i : ι} {call : HubCall} {c : ℕ}
    (hi : σ.client i = .add call c) :
    ∃ τ, hubAddChannel σ c = some τ ∧ c ∉ σ.pool.idle ∧
      (τ.goto i (.repick call)).pool = { σ.pool with
        total := σ.pool.total + 1
        pending := σ.pool.pending \ {i}
        promised := insert i σ.pool.promised
        idle := insert c σ.pool.idle } := by
  obtain ⟨ch, hch, -, hlist, -⟩ := (hinv.channels c).of_add hi
  refine ⟨_, by rw [hubAddChannel, hch, Option.map_some], fun hc => hlist hc.1, ?_⟩
  ext1
  · rfl
  · rfl
  · exact setOf_update_erase ClientPc.Pending id
  · exact setOf_update_insert ClientPc.Promised trivial
  · exact setOf_update_same (fun pc => pc = .fault) (by simp [HubState.write, hi])
  · ext d
    by_cases hd : d = c
    · subst hd
      simp [HubState.pool, HubState.idle, HubState.write, HubState.goto]
    · simp [HubState.pool, HubState.idle, HubState.write, HubState.goto, hd]

theorem pool_hubPickChannel {i : ι} (call : HubCall) {c : ℕ} (hpending : ¬(σ.client i).Pending)
    (hfault : σ.client i ≠ .fault) (hpick : hubPickChannel σ = some (c, τ)) :
    c ∈ σ.pool.idle ∧ (τ.picked i call c).pool = { σ.pool with
      promised := σ.pool.promised \ {i}
      idle := σ.pool.idle \ {c} } := by
  obtain ⟨hc, ch, rfl, hstate⟩ := hubPickChannel_eq_some hpick
  refine ⟨hc, ?_⟩
  ext1
  · rfl
  · rfl
  · exact setOf_update_same ClientPc.Pending (iff_of_false id hpending)
  · exact setOf_update_erase ClientPc.Promised id
  · exact setOf_update_same (fun pc => pc = .fault) (iff_of_false nofun hfault)
  · exact idle_write_busy σ c (by simp [hstate])

/-- `PutFreeChannel` of a client that holds a channel. -/
theorem pool_putFreeChannel (hinv : HubInv σ) {i : ι} {call : HubCall}
    {c firstPoll firstReturn : ℕ} {pc : HoldPc}
    (hi : σ.client i = .hold call c firstPoll firstReturn pc)
    (hput : putFreeChannel σ c = some τ) :
    c ∉ σ.pool.idle ∧
      (τ.goto i .out).pool = { σ.pool with idle := insert c σ.pool.idle } := by
  obtain ⟨ch, hch, hlist, -, -, -, -, hheld⟩ := (hinv.channels c).of_hold hi
  unfold putFreeChannel at hput
  rw [hch, Option.map_some] at hput
  cases hput
  constructor
  · rintro ⟨-, ch', hch', hstate⟩
    rw [hch] at hch'
    cases hch'
    exact hheld.not_idle hstate
  · ext1
    · rfl
    · rfl
    · exact setOf_update_same ClientPc.Pending (by simp [HubState.write, hi, ClientPc.Pending])
    · exact setOf_update_same ClientPc.Promised (by simp [HubState.write, hi, ClientPc.Promised])
    · exact setOf_update_same (fun pc => pc = .fault) (by simp [HubState.write, hi])
    · exact idle_write_idle hlist rfl

theorem clientStep_effect (hinv : HubInv σ) {i : ι} {mem : Bool}
    (hhold : ∀ call c firstPoll firstReturn pc,
      σ.client i ≠ .hold call c firstPoll firstReturn pc)
    (hstep : clientStep σ i mem = some τ) : PoolEffect σ (.client i mem) τ := by
  unfold clientStep at hstep
  cases hi : σ.client i with
  | out => simp [hi] at hstep
  | pick call =>
      simp only [hi] at hstep
      cases hpick : hubPickChannel σ with
      | none =>
          rw [hpick] at hstep
          cases hstep
          apply PoolEffect.quiet
          apply pool_goto <;> simp [hi, ClientPc.Pending, ClientPc.Promised]
      | some r =>
          obtain ⟨c, σ'⟩ := r
          rw [hpick] at hstep
          cases hstep
          obtain ⟨hc, hpool⟩ := pool_hubPickChannel (i := i) call
            (by simp [hi, ClientPc.Pending]) (by simp [hi]) hpick
          have hnot : i ∉ σ.pool.promised := by simp [HubState.pool, hi, ClientPc.Promised]
          rw [Set.sdiff_singleton_eq_self hnot] at hpool
          exact .taken hi hc hpool
  | check call =>
      simp only [hi] at hstep
      split_ifs at hstep with hroom
      · cases hstep
        refine .reserved hi hroom ?_
        ext1
        · rfl
        · rfl
        · exact setOf_update_insert ClientPc.Pending trivial
        · exact setOf_update_same ClientPc.Promised (by simp [hi, ClientPc.Promised])
        · exact setOf_update_same (fun pc => pc = .fault) (by simp [hi])
        · rfl
      · cases hstep
        apply PoolEffect.quiet
        apply pool_goto <;> simp [hi, ClientPc.Pending, ClientPc.Promised]
  | create call =>
      simp only [hi] at hstep
      split_ifs at hstep with hmem
      · cases hstep
        exact .quiet (pool_createChannel hinv hi)
      · cases hstep
        refine .dropped i ?_
        ext1
        · rfl
        · rfl
        · exact setOf_update_erase ClientPc.Pending id
        · exact setOf_update_same ClientPc.Promised (by simp [hi, ClientPc.Promised])
        · exact setOf_update_same (fun pc => pc = .fault) (by simp [hi])
        · rfl
  | add call c =>
      obtain ⟨σ', hadd, hc, hpool⟩ := pool_hubAddChannel hinv hi
      simp only [hi, hadd, Option.bind_eq_bind, Option.bind_some] at hstep
      cases hstep
      refine .added (i := i) ?_ ?_ hc hpool
      · simp [HubState.pool, hi, ClientPc.Pending]
      · simp [HubState.pool, hi, ClientPc.Promised]
  | repick call =>
      have hpromised : i ∈ σ.pool.promised := by simp [HubState.pool, hi, ClientPc.Promised]
      simp only [hi] at hstep
      cases hpick : hubPickChannel σ with
      | none => exact .faulted hpromised (hubPickChannel_eq_none hpick)
      | some r =>
          obtain ⟨c, σ'⟩ := r
          rw [hpick] at hstep
          cases hstep
          obtain ⟨hc, hpool⟩ := pool_hubPickChannel (i := i) call
            (by simp [hi, ClientPc.Pending]) (by simp [hi]) hpick
          exact .repicked hpromised hc hpool
  | hold call c firstPoll firstReturn pc => exact absurd hi (hhold _ _ _ _ _)
  | fault => simp [hi] at hstep

/-- The last step of `GetFreeChannel`. -/
theorem pool_source (hinv : HubInv σ) {i : ι} {mem : Bool} {call : HubCall}
    {c firstPoll firstReturn : ℕ} (hi : σ.client i = .hold call c firstPoll firstReturn .source)
    (hstep : clientStep σ i mem = some τ) : τ.pool = σ.pool := by
  obtain ⟨ch, hch, -, -, -, -, -, hheld⟩ := (hinv.channels c).of_hold hi
  simp only [clientStep, hi, holdStep, hch, Option.bind_eq_bind, Option.bind_some] at hstep
  cases hstep
  have hbusy : c ∉ σ.idle := by
    rintro ⟨-, ch', hch', hstate⟩
    rw [hch] at hch'
    cases hch'
    exact hheld.not_idle hstate
  have hstate : ({ ch with sourceThread := some (.client i) } : HubChannel ι).state ≠ .idle :=
    hheld.not_idle
  have hpool : (σ.write c { ch with sourceThread := some (.client i) }).pool = σ.pool := by
    ext1
    case idle => exact (idle_write_busy σ c hstate).trans (Set.sdiff_singleton_eq_self hbusy)
    all_goals rfl
  rw [← hpool]
  apply pool_goto <;> simp [HubState.write, hi, ClientPc.Pending, ClientPc.Promised]

theorem HubInv.putBack (hinv : HubInv σ) {i : ι} {call : HubCall} {c firstPoll firstReturn : ℕ}
    (hi : σ.client i = .hold call c firstPoll firstReturn .copy)
    (hput : putFreeChannel σ c = some τ) : HubInv (τ.goto i .out) := by
  obtain ⟨ch, hch, hmem, honly, -, -, -, hheld⟩ := (hinv.channels c).of_hold hi
  unfold putFreeChannel at hput
  rw [hch, Option.map_some] at hput
  cases hput
  cases hheld with
  | copy hstate hsem hfree =>
      refine hinv.move ?_ (hinv.fresh_update hch _) List.prefix_rfl List.prefix_rfl rfl
      intro d
      by_cases hd : d = c
      · subst hd
        refine .idle _ (Function.update_self ..) rfl hsem hmem ?_ ⟨hfree.server, hfree.active⟩
        intro j hj
        have hji := HubInv.only_update .out (fun j hne hj => hne (honly j hj)) j hj
        subst hji
        change (Function.update σ.client j .out j).ref = some d at hj
        rw [Function.update_self] at hj
        cases hj
      · refine (hinv.channels d).frame
          (HubInv.frame_client ?_ Iff.rfl rfl ?_ ?_ rfl rfl rfl rfl fun k hk _ => hk)
        · exact Function.update_of_ne hd ..
        · exact nofun
        · rw [hi]
          intro h
          exact hd (Option.some.inj h).symm

theorem poolStep_cases (hinv : HubInv σ) {a : PoolAct ι} (hstep : poolStep σ a = some τ) :
    HubInv τ ∧ PoolEffect σ a τ := by
  cases a with
  | get i call =>
      have hcall : hubStep σ (.call i call) = some τ := hstep
      refine ⟨hinv.step hcall nofun, ?_⟩
      simp only [hubStep] at hcall
      split at hcall
      next hi =>
        cases hcall
        apply PoolEffect.quiet
        apply pool_goto <;> simp [hi, ClientPc.Pending, ClientPc.Promised]
      next => cases hcall
  | client i mem =>
      simp only [poolStep] at hstep
      split at hstep
      next hi => exact ⟨hinv.clientStep_move hstep, .quiet (pool_source hinv hi hstep)⟩
      next => cases hstep
      next hsource hhold =>
        exact ⟨hinv.clientStep_move hstep, clientStep_effect hinv hhold hstep⟩
  | put i =>
      simp only [poolStep] at hstep
      split at hstep
      next call c firstPoll firstReturn hi =>
        obtain ⟨σ', hput, rfl⟩ := Option.map_eq_some_iff.mp hstep
        obtain ⟨hc, hpool⟩ := pool_putFreeChannel hinv hi hput
        exact ⟨hinv.putBack hi hput, .returned hc hpool⟩
      next => cases hstep

end Steps

/-! ## Runs without races -/

/-- No other client is in the way: a client passes the check only if there is room
for it beside the clients that passed it before, and a client picks a channel only
if one is left for each client that added one. -/
def PoolAct.Undisturbed (σ : HubState ι) : PoolAct ι → Prop
  | .client i _ =>
      (∀ call, σ.client i = .check call → σ.totalChannels < σ.maxClient →
        σ.totalChannels + σ.pool.pending.ncard < σ.maxClient) ∧
      (∀ call, σ.client i = .pick call → σ.idle.Nonempty →
        σ.pool.promised.ncard < σ.idle.ncard)
  | _ => True

/-- There are not too many channels, no two clients hold one channel, and a client
that added a channel left with one. -/
structure ChannelsShared (σ : HubState ι) : Prop where
  bounded : σ.totalChannels ≤ σ.maxClient
  exclusive : ∀ i j c, Holds σ i c → Holds σ j c → i = j
  nonNull : ∀ i, σ.client i ≠ .fault

/-- There is room for the clients that passed the check, and an idle channel for each
client that added one. -/
structure PoolInv (σ : HubState ι) : Prop where
  hub : HubInv σ
  pending_finite : σ.pool.pending.Finite
  promised_finite : σ.pool.promised.Finite
  room : σ.pool.total + σ.pool.pending.ncard ≤ σ.pool.maxClient
  spare : σ.pool.promised.ncard ≤ σ.pool.idle.ncard
  sound : σ.pool.fault = ∅

theorem poolInv_init (maxClient : ℕ) (clock : BitVec 64) :
    PoolInv (hubInit maxClient clock : HubState ι) := by
  have hpending : (hubInit maxClient clock : HubState ι).pool.pending = ∅ := by
    simp [HubState.pool, hubInit, ClientPc.Pending]
  have hpromised : (hubInit maxClient clock : HubState ι).pool.promised = ∅ := by
    simp [HubState.pool, hubInit, ClientPc.Promised]
  refine ⟨hubInv_init maxClient clock, ?_, ?_, ?_, ?_, ?_⟩
  · rw [hpending]
    exact Set.finite_empty
  · rw [hpromised]
    exact Set.finite_empty
  · rw [hpending, Set.ncard_empty]
    exact Nat.zero_le _
  · rw [hpromised, Set.ncard_empty]
    exact Nat.zero_le _
  · simp [HubState.pool, hubInit]

theorem HubInv.holds_unique {σ : HubState ι} (hinv : HubInv σ) {i j : ι} {c : ℕ}
    (hi : Holds σ i c) (hj : Holds σ j c) : i = j := by
  obtain ⟨_, _, _, _, hi⟩ := hi
  obtain ⟨_, _, _, _, hj⟩ := hj
  obtain ⟨-, -, -, honly, -⟩ := (hinv.channels c).of_hold hj
  exact honly i (by rw [hi]; rfl)

theorem PoolInv.channelsShared {σ : HubState ι} (h : PoolInv σ) : ChannelsShared σ where
  bounded := Nat.le_trans (Nat.le_add_right _ _) h.room
  exclusive := fun _ _ _ hi hj => h.hub.holds_unique hi hj
  nonNull := by
    intro i hi
    have hmem : i ∈ σ.pool.fault := hi
    rw [h.sound] at hmem
    exact hmem

section Runs

variable [DecidableEq ι] {σ τ : HubState ι}

theorem PoolInv.step (h : PoolInv σ) {a : PoolAct ι} (hstep : poolStep σ a = some τ)
    (hquiet : a.Undisturbed σ) : PoolInv τ := by
  obtain ⟨hhub, heffect⟩ := poolStep_cases h.hub hstep
  have hroom := h.room
  have hspare := h.spare
  have hidle : σ.pool.idle.Finite := idle_finite σ
  cases heffect with
  | quiet hpool =>
      refine ⟨hhub, ?_, ?_, ?_, ?_, ?_⟩ <;> rw [hpool]
      · exact h.pending_finite
      · exact h.promised_finite
      · exact hroom
      · exact hspare
      · exact h.sound
  | taken hi hc hpool =>
      have hless : σ.pool.promised.ncard < σ.pool.idle.ncard := hquiet.2 _ hi ⟨_, hc⟩
      have hcard := Set.ncard_sdiff_singleton_add_one hc hidle
      refine ⟨hhub, ?_, ?_, ?_, ?_, ?_⟩ <;> rw [hpool]
      · exact h.pending_finite
      · exact h.promised_finite
      · exact hroom
      · dsimp only
        omega
      · exact h.sound
  | reserved hi hfits hpool =>
      have hless : σ.pool.total + σ.pool.pending.ncard < σ.pool.maxClient :=
        hquiet.1 _ hi hfits
      refine ⟨hhub, ?_, ?_, ?_, ?_, ?_⟩ <;> rw [hpool]
      · exact h.pending_finite.insert _
      · exact h.promised_finite
      · exact Nat.le_trans (Nat.add_le_add_left (Set.ncard_insert_le _ _) _) hless
      · exact hspare
      · exact h.sound
  | dropped i hpool =>
      have hcard := Set.ncard_le_ncard (Set.sdiff_subset (s := σ.pool.pending) (t := {i}))
        h.pending_finite
      refine ⟨hhub, ?_, ?_, ?_, ?_, ?_⟩ <;> rw [hpool]
      · exact h.pending_finite.sdiff
      · exact h.promised_finite
      · dsimp only
        omega
      · exact hspare
      · exact h.sound
  | added hi hnot hc hpool =>
      have hpending := Set.ncard_sdiff_singleton_add_one hi h.pending_finite
      have hpromised := Set.ncard_insert_of_notMem hnot h.promised_finite
      have hcard := Set.ncard_insert_of_notMem hc hidle
      refine ⟨hhub, ?_, ?_, ?_, ?_, ?_⟩ <;> rw [hpool]
      · exact h.pending_finite.sdiff
      · exact h.promised_finite.insert _
      · dsimp only
        omega
      · dsimp only
        omega
      · exact h.sound
  | repicked hi hc hpool =>
      have hpromised := Set.ncard_sdiff_singleton_add_one hi h.promised_finite
      have hcard := Set.ncard_sdiff_singleton_add_one hc hidle
      refine ⟨hhub, ?_, ?_, ?_, ?_, ?_⟩ <;> rw [hpool]
      · exact h.pending_finite
      · exact h.promised_finite.sdiff
      · exact hroom
      · dsimp only
        omega
      · exact h.sound
  | faulted hi hempty =>
      -- the channel that was promised to the client is there
      have hpos := (Set.ncard_pos h.promised_finite).mpr ⟨_, hi⟩
      rw [hempty, Set.ncard_empty] at hspare
      omega
  | returned hc hpool =>
      have hcard := Set.ncard_insert_of_notMem hc hidle
      refine ⟨hhub, ?_, ?_, ?_, ?_, ?_⟩ <;> rw [hpool]
      · exact h.pending_finite
      · exact h.promised_finite
      · exact hroom
      · dsimp only
        omega
      · exact h.sound

/-! ## Races -/

theorem exists_added (hinv : HubInv σ) {i : ι} (hi : i ∈ σ.pool.pending) :
    ∃ τ c, Reachable (fun σ a τ => poolStep σ a = some τ) σ τ ∧ HubInv τ ∧
      τ.pool = { σ.pool with
        total := σ.pool.total + 1
        pending := σ.pool.pending \ {i}
        promised := insert i σ.pool.promised
        idle := insert c σ.pool.idle } := by
  have hadd : ∀ {σ : HubState ι} {call c}, HubInv σ → σ.client i = .add call c →
      ∃ τ, poolStep σ (.client i true) = some τ ∧ HubInv τ ∧
        τ.pool = { σ.pool with
          total := σ.pool.total + 1
          pending := σ.pool.pending \ {i}
          promised := insert i σ.pool.promised
          idle := insert c σ.pool.idle } := by
    intro σ call c hinv hi
    obtain ⟨τ, hadd, -, hpool⟩ := pool_hubAddChannel hinv hi
    have hstep : poolStep σ (.client i true) = some (τ.goto i (.repick call)) := by
      simp [poolStep, clientStep, hi, hadd]
    exact ⟨_, hstep, (poolStep_cases hinv hstep).1, hpool⟩
  have hpc : (σ.client i).Pending := hi
  cases hclient : σ.client i with
  | create call =>
      have hstep : poolStep σ (.client i true) =
          some ((createChannel σ).2.goto i (.add call (createChannel σ).1)) := by
        simp [poolStep, clientStep, hclient]
      have hnext : ((createChannel σ).2.goto i (.add call (createChannel σ).1)).client i =
          .add call (createChannel σ).1 := Function.update_self ..
      obtain ⟨τ, hstep', hτ, hpool⟩ := hadd (poolStep_cases hinv hstep).1 hnext
      rw [pool_createChannel hinv hclient] at hpool
      exact ⟨τ, _, .tail (.tail .refl hstep) hstep', hτ, hpool⟩
  | add call c =>
      obtain ⟨τ, hstep, hτ, hpool⟩ := hadd hinv hclient
      exact ⟨τ, c, .tail .refl hstep, hτ, hpool⟩
  | out | pick | check | repick | hold | fault => simp [hclient, ClientPc.Pending] at hpc

theorem exists_overfull (hinv : HubInv σ) (hfinite : σ.pool.pending.Finite)
    (hover : σ.pool.maxClient < σ.pool.total + σ.pool.pending.ncard) :
    ∃ ρ, Reachable (fun σ a τ => poolStep σ a = some τ) σ ρ ∧
      ρ.maxClient < ρ.totalChannels := by
  induction hn : σ.pool.pending.ncard generalizing σ with
  | zero => exact ⟨σ, .refl, by rwa [hn] at hover⟩
  | succ n ih =>
      obtain ⟨i, hi⟩ := (Set.ncard_pos hfinite).mp (by omega)
      obtain ⟨τ, c, hreach, hτ, hpool⟩ := exists_added hinv hi
      have hcard := Set.ncard_sdiff_singleton_add_one hi hfinite
      obtain ⟨ρ, hρ, hover⟩ := ih hτ
        (by rw [hpool]; exact hfinite.sdiff)
        (by rw [hpool]; dsimp only; omega)
        (by rw [hpool]; dsimp only; omega)
      exact ⟨ρ, hρ.trans hreach, hover⟩

/-- When more clients added a channel than there are idle ones, a client finds none. -/
theorem exists_starved (hinv : HubInv σ) (hfinite : σ.pool.promised.Finite)
    (hfew : σ.pool.idle.ncard < σ.pool.promised.ncard) :
    ∃ ρ, Reachable (fun σ a τ => poolStep σ a = some τ) σ ρ ∧ ∃ i, ρ.client i = .fault := by
  induction hn : σ.pool.promised.ncard generalizing σ with
  | zero => omega
  | succ n ih =>
      obtain ⟨i, hi⟩ := (Set.ncard_pos hfinite).mp (by omega)
      have hpc : (σ.client i).Promised := hi
      cases hclient : σ.client i with
      | repick call =>
          cases hpick : hubPickChannel σ with
          | none =>
              have hstep : poolStep σ (.client i true) = some (σ.goto i .fault) := by
                simp [poolStep, clientStep, hclient, hpick]
              exact ⟨_, .tail .refl hstep, i, Function.update_self ..⟩
          | some r =>
              obtain ⟨c, τ⟩ := r
              have hstep : poolStep σ (.client i true) = some (τ.picked i call c) := by
                simp [poolStep, clientStep, hclient, hpick]
              obtain ⟨hc, hpool⟩ := pool_hubPickChannel (i := i) call
                (by simp [hclient, ClientPc.Pending]) (by simp [hclient]) hpick
              have hcard := Set.ncard_sdiff_singleton_add_one hi hfinite
              have hidle := Set.ncard_sdiff_singleton_add_one hc (idle_finite σ)
              obtain ⟨ρ, hρ, hfault⟩ := ih (poolStep_cases hinv hstep).1
                (by rw [hpool]; exact hfinite.sdiff)
                (by rw [hpool]; dsimp only; omega)
                (by rw [hpool]; dsimp only; omega)
              exact ⟨ρ, hρ.trans (.tail .refl hstep), hfault⟩
      | out | pick | check | create | add | hold | fault =>
          simp [hclient, ClientPc.Promised] at hpc

/-- A step that is disturbed leads to too many channels or to a null pointer. -/
theorem PoolInv.disturbed (h : PoolInv σ) {a : PoolAct ι} (hstep : poolStep σ a = some τ)
    (hdisturbed : ¬a.Undisturbed σ) :
    ∃ ρ, Reachable (fun σ a τ => poolStep σ a = some τ) τ ρ ∧ ¬ChannelsShared ρ := by
  obtain ⟨hhub, -⟩ := poolStep_cases h.hub hstep
  cases a with
  | get i call => exact absurd trivial hdisturbed
  | put i => exact absurd trivial hdisturbed
  | client i mem =>
      simp only [PoolAct.Undisturbed, not_and_or, not_forall] at hdisturbed
      rcases hdisturbed with ⟨call, hi, hroom, hfull⟩ | ⟨call, hi, hidle, hfew⟩
      · have hτ : τ = σ.goto i (.create call) := by
          simp only [poolStep, clientStep, hi, if_pos hroom] at hstep
          exact (Option.some.inj hstep).symm
        subst hτ
        have hpending : (σ.goto i (.create call)).pool.pending =
            insert i σ.pool.pending := setOf_update_insert ClientPc.Pending trivial
        have hnot : i ∉ σ.pool.pending := by simp [HubState.pool, hi, ClientPc.Pending]
        have hover : σ.maxClient < σ.totalChannels + (insert i σ.pool.pending).ncard := by
          rw [Set.ncard_insert_of_notMem hnot h.pending_finite]
          omega
        obtain ⟨ρ, hρ, hlt⟩ := exists_overfull hhub
          (by rw [hpending]; exact h.pending_finite.insert i) (by rw [hpending]; exact hover)
        exact ⟨ρ, hρ, fun hok => absurd hok.bounded (Nat.not_le.mpr hlt)⟩
      · cases hpick : hubPickChannel σ with
        | none =>
            rw [hubPickChannel_eq_none hpick] at hidle
            exact absurd hidle Set.not_nonempty_empty
        | some r =>
            obtain ⟨c, σ'⟩ := r
            have hτ : τ = σ'.picked i call c := by
              simp only [poolStep, clientStep, hi, hpick] at hstep
              exact (Option.some.inj hstep).symm
            subst hτ
            obtain ⟨hc, hpool⟩ := pool_hubPickChannel (i := i) call
              (by simp [hi, ClientPc.Pending]) (by simp [hi]) hpick
            have hnot : i ∉ σ.pool.promised := by simp [HubState.pool, hi, ClientPc.Promised]
            rw [Set.sdiff_singleton_eq_self hnot] at hpool
            have hcard := Set.ncard_sdiff_singleton_add_one hc (idle_finite σ)
            have hfew' : σ.pool.idle.ncard ≤ σ.pool.promised.ncard := Nat.not_lt.mp hfew
            obtain ⟨ρ, hρ, j, hj⟩ := exists_starved hhub
              (by rw [hpool]; exact h.promised_finite) (by rw [hpool]; dsimp only; omega)
            exact ⟨ρ, hρ, fun hok => hok.nonNull j hj⟩

end Runs

/-- One client alone is never disturbed. -/
theorem PoolAct.undisturbed_of_subsingleton [Subsingleton ι] (σ : HubState ι) (a : PoolAct ι) :
    a.Undisturbed σ := by
  cases a with
  | get i call => trivial
  | put i => trivial
  | client i mem =>
      constructor
      · intro call hi hroom
        have hpending : σ.pool.pending = ∅ := by
          ext j
          simp [HubState.pool, Subsingleton.elim j i, hi, ClientPc.Pending]
        rwa [hpending, Set.ncard_empty]
      · intro call hi hidle
        have hpromised : σ.pool.promised = ∅ := by
          ext j
          simp [HubState.pool, Subsingleton.elim j i, hi, ClientPc.Promised]
        rw [hpromised, Set.ncard_empty]
        exact (Set.ncard_pos (idle_finite σ)).mpr hidle

/-- In every run without races the channels are shared well; and each step of a race
has a continuation after which they are not. -/
theorem poolReachable_channelsShared [DecidableEq ι] (maxClient : ℕ) (clock : BitVec 64) :
    ∀ σ : HubState ι, Reachable (fun σ a τ => poolStep σ a = some τ ∧ a.Undisturbed σ)
        (hubInit maxClient clock) σ →
      ChannelsShared σ ∧
      ∀ a τ, poolStep σ a = some τ → ¬a.Undisturbed σ →
        ∃ ρ, Reachable (fun σ a τ => poolStep σ a = some τ) τ ρ ∧ ¬ChannelsShared ρ := by
  intro σ hreach
  have hinv : PoolInv σ :=
    hreach.invariant (poolInv_init maxClient clock) (fun hinv hmove => hinv.step hmove.1 hmove.2)
  exact ⟨hinv.channelsShared, fun a τ hstep hdisturbed => hinv.disturbed hstep hdisturbed⟩

end Pool

def someCall : HubCall := ⟨⟨0, Vector.replicate 8 0⟩, true⟩

def getRun : List (PoolAct Unit) :=
  .get () someCall :: List.replicate 6 (.client () true)

theorem poolReachable_channelsShared_getRun :
    ∃ σ : HubState Unit, Reachable (fun σ a τ => poolStep σ a = some τ ∧ a.Undisturbed σ)
        (hubInit 1 0) σ ∧ (σ.client ()).ref = some 0 ∧ ChannelsShared σ := by
  have heval : (perform poolStep (hubInit 1 0) getRun).map
      (fun σ => (σ.client ()).ref) = some (some 0) := by
    decide
  obtain ⟨σ, hrun, href⟩ := Option.map_eq_some_iff.mp heval
  have hreach : Reachable (fun σ a τ => poolStep σ a = some τ ∧ a.Undisturbed σ)
      (hubInit 1 0) σ :=
    Reachable.of_perform (fun {σ a _} h => ⟨h, a.undisturbed_of_subsingleton σ⟩) hrun
  exact ⟨σ, hreach, href, (poolReachable_channelsShared 1 0 σ hreach).1⟩

def crowdRun : List (PoolAct Bool) :=
  [.get false someCall, .get true someCall, .client false true, .client true true,
    .client false true, .client true true, .client false true, .client true true,
    .client false true, .client true true]

def stealRun : List (PoolAct Bool) :=
  [.get false someCall, .client false true, .client false true, .client false true,
    .client false true, .get true someCall, .client true true, .client false true]

/-- A hub for one client gets two channels; and a client that added a channel goes on
with the null pointer. -/
theorem poolReachable_raced :
    (∃ σ : HubState Bool, Reachable (fun σ a τ => poolStep σ a = some τ) (hubInit 1 0) σ ∧
      σ.maxClient = 1 ∧ σ.totalChannels = 2 ∧ ¬ChannelsShared σ) ∧
    ∃ σ : HubState Bool, Reachable (fun σ a τ => poolStep σ a = some τ) (hubInit 1 0) σ ∧
      σ.client false = .fault ∧ ¬ChannelsShared σ := by
  constructor
  · have heval : (perform poolStep (hubInit 1 0) crowdRun).map
        (fun σ => (σ.maxClient, σ.totalChannels)) = some (1, 2) := by
      decide
    obtain ⟨σ, hrun, hσ⟩ := Option.map_eq_some_iff.mp heval
    simp only [Prod.mk.injEq] at hσ
    refine ⟨σ, Reachable.of_perform (fun h => h) hrun, hσ.1, hσ.2, ?_⟩
    intro hok
    have hle := hok.bounded
    omega
  · have heval : (perform poolStep (hubInit 1 0) stealRun).map
        (fun σ => match σ.client false with
          | .fault => true
          | _ => false) = some true := by
      decide
    obtain ⟨σ, hrun, hσ⟩ := Option.map_eq_some_iff.mp heval
    have hfault : σ.client false = .fault := by
      split at hσ
      next h => exact h
      next => cases hσ
    exact ⟨σ, Reachable.of_perform (fun h => h) hrun, hfault, fun hok => hok.nonNull _ hfault⟩

end Nxos.Ipc
