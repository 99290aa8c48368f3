import Nxos.Ipc.Hub.Steps
import Nxos.Support.Transition

/-!
# Runs of the hub

Clients and the server interleave in any way.  In a run in which channels are
released only when all of them are idle, a client keeps the channel it holds until
it puts it back.  The code does not check that, and a client that is between two
steps of its call can lose its channel.

In a run without releases, calls and returns match: every call that completes got
the result of one return, which the server made for that call.
-/

namespace Nxos.Ipc

open Nxos.Transition

section Runs

variable {ι : Type}

/-- The step frees the channels of the hub. -/
def HubState.releases (σ : HubState ι) (a : HubAct ι) : Bool :=
  match a, σ.server with
  | .server, .release => true
  | _, _ => false

def HubState.AllIdle (σ : HubState ι) : Prop :=
  ∀ c ∈ σ.channelList, ∀ ch, σ.channel c = some ch → ch.state = .idle

theorem releases_server {σ : HubState ι} (h : σ.server = .release) :
    σ.releases .server = true := by
  unfold HubState.releases
  rw [h]

/-- A step keeps the invariant, unless it frees a channel that is not idle. -/
theorem HubInv.step [DecidableEq ι] {σ τ : HubState ι} {a : HubAct ι} (hinv : HubInv σ)
    (hstep : hubStep σ a = some τ) (hidle : σ.releases a = true → σ.AllIdle) : HubInv τ := by
  cases a with
  | call i call =>
      simp only [hubStep] at hstep
      split at hstep
      · next hi =>
        cases hstep
        exact hinv.goto_off (by rw [hi]; rfl) rfl
      · cases hstep
  | client i mem => exact hinv.clientStep_move hstep
  | poll =>
      simp only [hubStep] at hstep
      split at hstep
      · next hserver =>
        cases hstep
        exact hinv.serverStep_off (by rw [hserver]; rfl) rfl rfl rfl rfl rfl rfl rfl rfl rfl
      · cases hstep
  | ret val err =>
      simp only [hubStep] at hstep
      split at hstep
      · next hserver => exact hinv.hubReturn_move hserver hstep
      · cases hstep
  | server => exact hinv.serverStep_move hstep (fun h => hidle (releases_server h))
  | tick ms =>
      cases hstep
      refine hinv.move ?_ hinv.fresh List.prefix_rfl List.prefix_rfl rfl
      intro c
      refine (hinv.channels c).frame ⟨?_, rfl, Iff.rfl, fun j => Or.inl rfl, fun k hk _ => hk⟩
      apply ServerFrame.of_eq <;> rfl

/-! ## Held channels -/

/-- The client picked the channel and did not yet put it back. -/
def Holds (σ : HubState ι) (i : ι) (c : ℕ) : Prop :=
  ∃ call firstPoll firstReturn pc, σ.client i = .hold call c firstPoll firstReturn pc

theorem HubInv.holds_of_not_idle {σ : HubState ι} (hinv : HubInv σ) {c : ℕ}
    {ch : HubChannel ι} (hlist : c ∈ σ.channelList) (hch : σ.channel c = some ch)
    (hstate : ch.state ≠ .idle) : ∃ i, Holds σ i c := by
  cases hinv.channels c with
  | absent _ hnot _ _ => exact absurd hlist hnot
  | created _ _ _ _ _ _ _ hnot _ => exact absurd hlist hnot
  | idle ch' hchannel hidle _ _ _ _ =>
      rw [hch] at hchannel
      cases hchannel
      exact absurd hidle hstate
  | held i call firstPoll firstReturn pc _ hclient _ _ _ _ _ _ _ =>
      exact ⟨i, call, firstPoll, firstReturn, pc, hclient⟩

/-- As long as channels are released only when all are idle, the channel that a client
holds stays on the list of the hub and in memory.  A release at any other time takes
a channel away that is held. -/
theorem hubReachable_holds [DecidableEq ι] (maxClient : ℕ) (clock : BitVec 64) :
    ∀ σ : HubState ι, Reachable (fun σ a τ => hubStep σ a = some τ ∧
        (σ.releases a = true → σ.AllIdle)) (hubInit maxClient clock) σ →
      (∀ i c, Holds σ i c → c ∈ σ.channelList ∧ σ.channel c ≠ none) ∧
      (¬σ.AllIdle → ∃ i c, Holds (hubRelease σ) i c ∧ c ∈ σ.channelList ∧
        c ∉ (hubRelease σ).channelList ∧ (hubRelease σ).channel c = none) := by
  intro σ hreach
  have hinv : HubInv σ :=
    hreach.invariant (hubInv_init maxClient clock) (fun hinv hmove => hinv.step hmove.1 hmove.2)
  constructor
  · rintro i c ⟨call, firstPoll, firstReturn, pc, hi⟩
    obtain ⟨ch, hch, hlist, -⟩ := (hinv.channels c).of_hold hi
    refine ⟨hlist, ?_⟩
    rw [hch]
    exact nofun
  · intro hbusy
    simp only [HubState.AllIdle, not_forall] at hbusy
    obtain ⟨c, hlist, ch, hch, hstate⟩ := hbusy
    obtain ⟨i, hi⟩ := hinv.holds_of_not_idle hlist hch hstate
    exact ⟨i, c, hi, hlist, List.not_mem_nil, if_pos hlist⟩

def quietStep [DecidableEq ι] (σ : HubState ι) (a : HubAct ι) : Option (HubState ι) :=
  if σ.releases a then none else hubStep σ a

theorem quietStep_eq_some [DecidableEq ι] {σ τ : HubState ι} {a : HubAct ι}
    (h : quietStep σ a = some τ) : hubStep σ a = some τ ∧ σ.releases a = false := by
  unfold quietStep at h
  cases hreleases : σ.releases a with
  | true =>
      rw [hreleases] at h
      cases h
  | false =>
      rw [hreleases] at h
      exact ⟨h, rfl⟩

def pickRun : List (HubAct Unit) :=
  .call () ⟨⟨0, Vector.replicate 8 0⟩, true⟩ :: List.replicate 5 (.client () true)

theorem hubReachable_holds_pickRun :
    ∃ σ : HubState Unit, Reachable (fun σ a τ => hubStep σ a = some τ ∧
        (σ.releases a = true → σ.AllIdle)) (hubInit 4 0) σ ∧
      (σ.client ()).ref = some 0 ∧ (∀ i c, Holds σ i c → c ∈ σ.channelList ∧ σ.channel c ≠ none) ∧
      (¬σ.AllIdle → ∃ i c, Holds (hubRelease σ) i c ∧ c ∈ σ.channelList ∧
        c ∉ (hubRelease σ).channelList ∧ (hubRelease σ).channel c = none) := by
  have heval : (perform quietStep (hubInit 4 0) pickRun).map
      (fun σ => (σ.client ()).ref) = some (some 0) := by
    decide
  obtain ⟨σ, hrun, href⟩ := Option.map_eq_some_iff.mp heval
  have hreach : Reachable (fun σ a τ => hubStep σ a = some τ ∧
      (σ.releases a = true → σ.AllIdle)) (hubInit 4 0) σ := by
    refine Reachable.of_perform (fun h => ?_) hrun
    obtain ⟨hstep, hquiet⟩ := quietStep_eq_some h
    exact ⟨hstep, fun h => absurd (h.symm.trans hquiet) nofun⟩
  exact ⟨σ, hreach, href, hubReachable_holds 4 0 σ hreach⟩

def idleRun : List (HubAct Unit) :=
  [.tick 1, .poll, .server, .server, .server, .tick 10001, .server, .server]

/-- The client has picked a channel and not yet filled it in when the server finds the
hub idle and frees the channel. -/
theorem hubReachable_freed :
    ∃ σ : HubState Unit, Reachable (fun σ a τ => hubStep σ a = some τ) (hubInit 4 0) σ ∧
      Holds σ () 0 ∧ 0 ∉ σ.channelList ∧ σ.channel 0 = none := by
  have heval : (perform hubStep (hubInit 4 0) (pickRun ++ idleRun)).map
      (fun σ => (σ.channelList, (σ.channel 0).isNone,
        match σ.client () with
        | .hold _ c _ _ .source => c = 0
        | _ => false)) = some ([], true, true) := by
    decide
  obtain ⟨σ, hrun, hσ⟩ := Option.map_eq_some_iff.mp heval
  simp only [Prod.mk.injEq] at hσ
  obtain ⟨hlist, hnone, hclient⟩ := hσ
  refine ⟨σ, Reachable.of_perform (fun h => h) hrun, ?_, ?_, ?_⟩
  · split at hclient
    · next call c firstPoll firstReturn hpc =>
      simp only [decide_eq_true_eq] at hclient
      subst hclient
      exact ⟨call, firstPoll, firstReturn, .source, hpc⟩
    · cases hclient
  · rw [hlist]
    exact List.not_mem_nil
  · exact Option.isNone_iff_eq_none.mp hnone

/-! ## Calls and returns -/

/-- Every call that completed has a return of its own: it was made during the call, for
the call's channel as the active channel, and with the result that the call got; and
the last poll before it gave the server the parameters of the call. -/
def CallsServed (σ : HubState ι) : Prop :=
  ∃ f : ℕ → ℕ, (∀ m n, m < σ.completed.length → n < σ.completed.length →
      f m = f n → m = n) ∧
    ∀ (n : ℕ) (k : CallRecord ι), σ.completed[n]? = some k →
      k.firstReturn ≤ f n ∧ f n < k.lastReturn ∧
      ∃ r, σ.returns[f n]? = some r ∧ r.channel = k.channel ∧
        k.retVal = (if k.call.wantsVal then some r.retVal else none) ∧
        k.retErr = r.retErr ∧ k.firstPoll ≤ r.poll ∧
        σ.polls[r.poll]? = some ⟨k.channel, k.call.param⟩

theorem HubInv.callsServed {σ : HubState ι} (hinv : HubInv σ) : CallsServed σ := by
  have hserved : ∀ n : ℕ, ∃ r, ∀ k : CallRecord ι, σ.completed[n]? = some k → ∃ val,
      k.retVal = (if k.call.wantsVal then some val else none) ∧ r < k.lastReturn ∧
      Answers σ k.channel k.call k.firstPoll k.firstReturn val k.retErr r := by
    intro n
    cases hn : σ.completed[n]? with
    | none => exact ⟨0, nofun⟩
    | some k =>
        obtain ⟨val, r, hval, hlt, hanswer⟩ := hinv.calls k (List.mem_of_getElem? hn)
        refine ⟨r, ?_⟩
        rintro k' heq
        cases heq
        exact ⟨val, hval, hlt, hanswer⟩
  choose f hf using hserved
  -- calls on one channel do not overlap, so a return falls into one of them only
  have hlt : ∀ m n, m < n → n < σ.completed.length → f m ≠ f n := by
    intro m n hmn hn heq
    have hm : m < σ.completed.length := Nat.lt_trans hmn hn
    obtain ⟨_, -, hlast, -, _, -, hreturn, -⟩ := hf m _ (List.getElem?_eq_getElem hm)
    obtain ⟨_, -, -, hfirst, _, -, hreturn', -⟩ := hf n _ (List.getElem?_eq_getElem hn)
    rw [heq, hreturn'] at hreturn
    have hchannel : σ.completed[m].channel = σ.completed[n].channel := by
      injection hreturn with hrecord
      injection hrecord with hchannel
      exact hchannel.symm
    have horder := List.pairwise_iff_getElem.mp hinv.order m n hm hn hmn hchannel
    omega
  refine ⟨f, ?_, ?_⟩
  · intro m n hm hn heq
    rcases Nat.lt_trichotomy m n with h | h | h
    · exact absurd heq (hlt m n h hn)
    · exact h
    · exact absurd heq.symm (hlt n m h hm)
  · intro n k hk
    obtain ⟨val, hval, hlast, hfirst, p, hp, hreturn, hpoll⟩ := hf n k hk
    exact ⟨hfirst, hlast, _, hreturn, rfl, hval, rfl, hp, hpoll⟩

/-- In every run without releases, calls and returns match. -/
theorem hubReachable_callsServed [DecidableEq ι] (maxClient : ℕ) (clock : BitVec 64) :
    ∀ σ : HubState ι, Reachable (fun σ a τ => hubStep σ a = some τ ∧ σ.releases a = false)
      (hubInit maxClient clock) σ → CallsServed σ := by
  intro σ hreach
  have hinv : HubInv σ := by
    refine hreach.invariant (hubInv_init maxClient clock) ?_
    intro σ a τ hinv hmove
    refine hinv.step hmove.1 ?_
    intro hreleases
    rw [hmove.2] at hreleases
    cases hreleases
  exact hinv.callsServed

def callRun : List (HubAct Unit) :=
  pickRun ++ List.replicate 3 (.client () true) ++ [.poll] ++ List.replicate 5 .server ++
    [.ret 7 .eok] ++ List.replicate 4 .server ++ List.replicate 4 (.client () true)

theorem hubReachable_callsServed_callRun :
    ∃ σ : HubState Unit, Reachable (fun σ a τ => hubStep σ a = some τ ∧
        σ.releases a = false) (hubInit 4 0) σ ∧
      σ.completed.map CallRecord.retVal = [some 7] ∧ CallsServed σ := by
  have heval : (perform quietStep (hubInit 4 0) callRun).map
      (fun σ => σ.completed.map CallRecord.retVal) = some [some 7] := by
    decide
  obtain ⟨σ, hrun, hcompleted⟩ := Option.map_eq_some_iff.mp heval
  have hreach : Reachable (fun σ a τ => hubStep σ a = some τ ∧ σ.releases a = false)
      (hubInit 4 0) σ := by
    refine Reachable.of_perform ?_ hrun
    exact quietStep_eq_some
  exact ⟨σ, hreach, hcompleted, hubReachable_callsServed 4 0 σ hreach⟩

end Runs

end Nxos.Ipc
