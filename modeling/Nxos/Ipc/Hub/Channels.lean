import Nxos.Ipc.Hub.Model
import Mathlib.Data.List.Infix

/-!
# The life of a channel

A channel is absent, created, idle or held by one client.  A held channel goes
through the phases of one call: the client fills it in, the server takes it,
returns to it, and the client reads the result.  The server refers to a channel
only in the phases in which the client waits.

Whatever a step does, it does to one channel; for every other channel the step
changes nothing that its phase depends on.
-/

namespace Nxos.Ipc

variable {ι : Type}

/-! ## References -/

def ClientPc.ref : ClientPc → Option ℕ
  | .add _ c => some c
  | .hold _ c _ _ _ => some c
  | _ => none

def ServerPc.ref : ServerPc → Option ℕ
  | .take c _ => some c
  | .reply c _ _ _ => some c
  | _ => none

/-- The server has nothing to do with the channel. -/
structure ServerFree (σ : HubState ι) (c : ℕ) : Prop where
  server : σ.server.ref ≠ some c
  active : σ.activeChannel ≠ some c

/-- The parameters that the server has copied so far are those of the call. -/
def TakePc.ParamOk (p : HubParam) : TakePc → Prop
  | .idle => True
  | .param => True
  | .target q => q = p
  | .active q => q = p

/-- The last poll took the channel with these parameters, after `firstPoll` polls. -/
def LastPoll (σ : HubState ι) (c : ℕ) (p : HubParam) (firstPoll : ℕ) : Prop :=
  ∃ k, σ.polls.length = k + 1 ∧ firstPoll ≤ k ∧ σ.polls[k]? = some ⟨c, p⟩

/-- The return number `r` answers the call with this result. -/
def Answers (σ : HubState ι) (c : ℕ) (call : HubCall) (firstPoll firstReturn : ℕ)
    (val : BitVec 64) (err : NxError) (r : ℕ) : Prop :=
  firstReturn ≤ r ∧ ∃ k, firstPoll ≤ k ∧ σ.returns[r]? = some ⟨c, k, val, err⟩ ∧
    σ.polls[k]? = some ⟨c, call.param⟩

def Answered (σ : HubState ι) (c : ℕ) (call : HubCall) (firstPoll firstReturn : ℕ)
    (val : BitVec 64) (err : NxError) : Prop :=
  ∃ r, Answers σ c call firstPoll firstReturn val err r

/-! ## Reading and writing -/

theorem firstInState_eq {σ : HubState ι} {s : ChannelState} {c : ℕ} {ch : HubChannel ι}
    (h : firstInState σ s = some (c, ch)) :
    c ∈ σ.channelList ∧ σ.channel c = some ch ∧ ch.state = s := by
  unfold firstInState at h
  obtain ⟨d, hd, hsome⟩ := List.exists_of_findSome?_eq_some h
  cases hch : σ.channel d with
  | none =>
      rw [hch] at hsome
      cases hsome
  | some ch' =>
      rw [hch] at hsome
      dsimp only at hsome
      split_ifs at hsome with hstate
      cases hsome
      exact ⟨hd, hch, hstate⟩

theorem write_self {σ : HubState ι} {c : ℕ} {ch : HubChannel ι} (hch : σ.channel c = some ch) :
    σ.write c ch = σ := by
  unfold HubState.write
  rw [← hch, Function.update_eq_self]

/-! ## Phases -/

/-- The phases of a held channel, by the program counter of the client. -/
inductive HeldOk (σ : HubState ι) (c : ℕ) (call : HubCall) (firstPoll firstReturn : ℕ)
    (ch : HubChannel ι) : HoldPc → Prop
  | source (hstate : ch.state = .ready) (hsem : ch.syncSem = 0) (hfree : ServerFree σ c) :
      HeldOk σ c call firstPoll firstReturn ch .source
  | copy (hstate : ch.state = .ready) (hsem : ch.syncSem = 0) (hfree : ServerFree σ c) :
      HeldOk σ c call firstPoll firstReturn ch .copy
  | activate (hstate : ch.state = .ready) (hsem : ch.syncSem = 0)
      (hparam : ch.param = call.param) (hfree : ServerFree σ c) :
      HeldOk σ c call firstPoll firstReturn ch .activate
  | active (hstate : ch.state = .active) (hsem : ch.syncSem = 0)
      (hparam : ch.param = call.param) (hfree : ServerFree σ c) :
      HeldOk σ c call firstPoll firstReturn ch .wait
  | taken (pc : TakePc) (hstate : ch.state = .handled) (hsem : ch.syncSem = 0)
      (hparam : ch.param = call.param) (hserver : σ.server = .take c pc)
      (hcopied : pc.ParamOk call.param) (hactive : σ.activeChannel ≠ some c) :
      HeldOk σ c call firstPoll firstReturn ch .wait
  | polled (hstate : ch.state = .handled) (hsem : ch.syncSem = 0)
      (hserver : σ.server.ref ≠ some c) (hactive : σ.activeChannel = some c)
      (hpoll : LastPoll σ c call.param firstPoll) :
      HeldOk σ c call firstPoll firstReturn ch .wait
  | returning (val : BitVec 64) (err : NxError) (hstate : ch.state = .handled)
      (hsem : ch.syncSem = 0) (hserver : σ.server = .reply c val err .clear)
      (hactive : σ.activeChannel = some c)
      (hanswer : Answered σ c call firstPoll firstReturn val err) :
      HeldOk σ c call firstPoll firstReturn ch .wait
  | replying (val : BitVec 64) (err : NxError) (pc : ReplyPc) (hstate : ch.state = .handled)
      (hsem : ch.syncSem = 0) (hserver : σ.server = .reply c val err pc)
      (hpc : pc ≠ .clear) (hactive : σ.activeChannel ≠ some c)
      (hval : pc = .err ∨ pc = .signal → ch.retVal = val)
      (herr : pc = .signal → ch.retErr = err)
      (hanswer : Answered σ c call firstPoll firstReturn val err) :
      HeldOk σ c call firstPoll firstReturn ch .wait
  /-- The server polled again and forgot the channel. -/
  | lost (hstate : ch.state = .handled) (hsem : ch.syncSem = 0) (hfree : ServerFree σ c) :
      HeldOk σ c call firstPoll firstReturn ch .wait
  | replied (hstate : ch.state = .handled) (hsem : ch.syncSem = 1) (hfree : ServerFree σ c)
      (hanswer : Answered σ c call firstPoll firstReturn ch.retVal ch.retErr) :
      HeldOk σ c call firstPoll firstReturn ch .wait
  | readVal (hstate : ch.state = .handled) (hsem : ch.syncSem = 0) (hfree : ServerFree σ c)
      (hanswer : Answered σ c call firstPoll firstReturn ch.retVal ch.retErr) :
      HeldOk σ c call firstPoll firstReturn ch .readVal
  | readErr (val : BitVec 64) (hstate : ch.state = .handled) (hsem : ch.syncSem = 0)
      (hfree : ServerFree σ c)
      (hanswer : Answered σ c call firstPoll firstReturn val ch.retErr) :
      HeldOk σ c call firstPoll firstReturn ch
        (.readErr (if call.wantsVal then some val else none))
  | put (val : BitVec 64) (err : NxError) (hstate : ch.state = .handled)
      (hsem : ch.syncSem = 0) (hfree : ServerFree σ c)
      (hanswer : Answered σ c call firstPoll firstReturn val err) :
      HeldOk σ c call firstPoll firstReturn ch
        (.put (if call.wantsVal then some val else none) err)

inductive ChannelCase (σ : HubState ι) (c : ℕ) : Prop
  | absent (hchannel : σ.channel c = none) (hlist : c ∉ σ.channelList)
      (hrefs : ∀ j, (σ.client j).ref ≠ some c) (hfree : ServerFree σ c)
  | created (i : ι) (call : HubCall) (ch : HubChannel ι) (hclient : σ.client i = .add call c)
      (honly : ∀ j, (σ.client j).ref = some c → j = i) (hchannel : σ.channel c = some ch)
      (hsem : ch.syncSem = 0) (hlist : c ∉ σ.channelList) (hfree : ServerFree σ c)
  | idle (ch : HubChannel ι) (hchannel : σ.channel c = some ch) (hstate : ch.state = .idle)
      (hsem : ch.syncSem = 0) (hlist : c ∈ σ.channelList)
      (hrefs : ∀ j, (σ.client j).ref ≠ some c) (hfree : ServerFree σ c)
  | held (i : ι) (call : HubCall) (firstPoll firstReturn : ℕ) (pc : HoldPc)
      (ch : HubChannel ι) (hclient : σ.client i = .hold call c firstPoll firstReturn pc)
      (honly : ∀ j, (σ.client j).ref = some c → j = i) (hchannel : σ.channel c = some ch)
      (hlist : c ∈ σ.channelList) (hpoll : firstPoll ≤ σ.polls.length)
      (hreturn : firstReturn ≤ σ.returns.length)
      (hpast : ∀ k ∈ σ.completed, k.channel = c → k.lastReturn ≤ firstReturn)
      (hheld : HeldOk σ c call firstPoll firstReturn ch pc)

namespace HeldOk

variable {σ : HubState ι} {c : ℕ} {call : HubCall} {firstPoll firstReturn : ℕ}
  {ch : HubChannel ι}

theorem not_idle {pc : HoldPc} (h : HeldOk σ c call firstPoll firstReturn ch pc) :
    ch.state ≠ .idle := by
  cases h <;> simp_all

theorem of_active (h : HeldOk σ c call firstPoll firstReturn ch .wait)
    (hstate : ch.state = .active) :
    ch.syncSem = 0 ∧ ch.param = call.param ∧ ServerFree σ c := by
  cases h <;> simp_all

theorem of_take (h : HeldOk σ c call firstPoll firstReturn ch .wait) {pc : TakePc}
    (hserver : σ.server = .take c pc) :
    ch.state = .handled ∧ ch.syncSem = 0 ∧ ch.param = call.param ∧ pc.ParamOk call.param ∧
      σ.activeChannel ≠ some c := by
  have href : σ.server.ref = some c := by
    rw [hserver]
    rfl
  cases h with
  | active _ _ _ hfree => exact absurd href hfree.server
  | taken pc' hstate hsem hparam hserver' hcopied hactive =>
      rw [hserver] at hserver'
      cases hserver'
      exact ⟨hstate, hsem, hparam, hcopied, hactive⟩
  | polled _ _ hne _ _ => exact absurd href hne
  | returning _ _ _ _ hserver' _ _ =>
      rw [hserver] at hserver'
      cases hserver'
  | replying _ _ _ _ _ hserver' _ _ _ _ _ =>
      rw [hserver] at hserver'
      cases hserver'
  | lost _ _ hfree => exact absurd href hfree.server
  | replied _ _ hfree _ => exact absurd href hfree.server

theorem of_reply (h : HeldOk σ c call firstPoll firstReturn ch .wait) {val : BitVec 64}
    {err : NxError} {pc : ReplyPc} (hserver : σ.server = .reply c val err pc) :
    ch.state = .handled ∧ ch.syncSem = 0 ∧ (σ.activeChannel = some c ↔ pc = .clear) ∧
      (pc = .err ∨ pc = .signal → ch.retVal = val) ∧ (pc = .signal → ch.retErr = err) ∧
      Answered σ c call firstPoll firstReturn val err := by
  have href : σ.server.ref = some c := by
    rw [hserver]
    rfl
  cases h with
  | active _ _ _ hfree => exact absurd href hfree.server
  | taken _ _ _ _ hserver' _ _ =>
      rw [hserver] at hserver'
      cases hserver'
  | polled _ _ hne _ _ => exact absurd href hne
  | returning val' err' hstate hsem hserver' hactive hanswer =>
      rw [hserver] at hserver'
      cases hserver'
      exact ⟨hstate, hsem, ⟨fun _ => rfl, fun _ => hactive⟩, nofun, nofun, hanswer⟩
  | replying val' err' pc' hstate hsem hserver' hpc hactive hval herr hanswer =>
      rw [hserver] at hserver'
      cases hserver'
      exact ⟨hstate, hsem, iff_of_false hactive hpc, hval, herr, hanswer⟩
  | lost _ _ hfree => exact absurd href hfree.server
  | replied _ _ hfree _ => exact absurd href hfree.server

theorem of_polled (h : HeldOk σ c call firstPoll firstReturn ch .wait)
    (href : σ.server.ref = none) (hactive : σ.activeChannel = some c) :
    ch.state = .handled ∧ ch.syncSem = 0 ∧ LastPoll σ c call.param firstPoll := by
  cases h with
  | active _ _ _ hfree => exact absurd hactive hfree.active
  | taken _ _ _ _ hserver _ _ =>
      rw [hserver] at href
      cases href
  | polled hstate hsem _ _ hpoll => exact ⟨hstate, hsem, hpoll⟩
  | returning _ _ _ _ hserver _ _ =>
      rw [hserver] at href
      cases href
  | replying _ _ _ _ _ hserver _ _ _ _ _ =>
      rw [hserver] at href
      cases href
  | lost _ _ hfree => exact absurd hactive hfree.active
  | replied _ _ hfree _ => exact absurd hactive hfree.active

end HeldOk

/-! ## Steps elsewhere -/

/-- A step leaves alone what the server has to do with the channel `c`, or makes the
server forget it. -/
structure ServerFrame (σ τ : HubState ι) (c : ℕ) : Prop where
  server : τ.server = σ.server ∨ (τ.server.ref ≠ some c ∧ σ.server.ref ≠ some c)
  active : τ.activeChannel = some c → σ.activeChannel = some c ∧ τ.polls = σ.polls
  forgotten : σ.activeChannel = some c → τ.activeChannel = some c ∨ σ.server.ref ≠ some c
  polls : σ.polls <+: τ.polls
  returns : σ.returns <+: τ.returns

/-- A step leaves alone what the phase of the channel `c` depends on. -/
structure Frame (σ τ : HubState ι) (c : ℕ) : Prop extends ServerFrame σ τ c where
  channel : τ.channel c = σ.channel c
  list : c ∈ τ.channelList ↔ c ∈ σ.channelList
  client : ∀ j, τ.client j = σ.client j ∨
    ((τ.client j).ref ≠ some c ∧ (σ.client j).ref ≠ some c)
  completed : ∀ k ∈ τ.completed, k.channel = c → k ∈ σ.completed

theorem ServerFrame.of_eq {σ τ : HubState ι} (hserver : τ.server = σ.server)
    (hactive : τ.activeChannel = σ.activeChannel) (hpolls : τ.polls = σ.polls)
    (hreturns : τ.returns = σ.returns) (c : ℕ) : ServerFrame σ τ c where
  server := Or.inl hserver
  active := fun h => ⟨hactive ▸ h, hpolls⟩
  forgotten := fun h => Or.inl (hactive.trans h)
  polls := hpolls ▸ List.prefix_rfl
  returns := hreturns ▸ List.prefix_rfl

theorem getElem?_of_prefix {α : Type} {l m : List α} (h : l <+: m) {k : ℕ} {x : α}
    (hk : l[k]? = some x) : m[k]? = some x := by
  obtain ⟨t, rfl⟩ := h
  obtain ⟨hlt, -⟩ := List.getElem?_eq_some_iff.mp hk
  rw [List.getElem?_append_left hlt]
  exact hk

theorem Answers.mono {σ τ : HubState ι} {c : ℕ} {call : HubCall} {firstPoll firstReturn : ℕ}
    {val : BitVec 64} {err : NxError} {r : ℕ} (hpolls : σ.polls <+: τ.polls)
    (hreturns : σ.returns <+: τ.returns)
    (h : Answers σ c call firstPoll firstReturn val err r) :
    Answers τ c call firstPoll firstReturn val err r := by
  obtain ⟨hr, k, hk, hreturn, hpoll⟩ := h
  exact ⟨hr, k, hk, getElem?_of_prefix hreturns hreturn, getElem?_of_prefix hpolls hpoll⟩

namespace ServerFrame

variable {σ τ : HubState ι} {c : ℕ}

theorem answered (f : ServerFrame σ τ c) {call : HubCall} {firstPoll firstReturn : ℕ}
    {val : BitVec 64} {err : NxError}
    (h : Answered σ c call firstPoll firstReturn val err) :
    Answered τ c call firstPoll firstReturn val err := by
  obtain ⟨r, hr⟩ := h
  exact ⟨r, hr.mono f.polls f.returns⟩

theorem serverFree (f : ServerFrame σ τ c) (h : ServerFree σ c) : ServerFree τ c where
  server := by
    rcases f.server with heq | hne
    · rw [heq]
      exact h.server
    · exact hne.1
  active := fun hactive => h.active (f.active hactive).1

theorem server_eq (f : ServerFrame σ τ c) (h : σ.server.ref = some c) : τ.server = σ.server := by
  rcases f.server with heq | hne
  · exact heq
  · exact absurd h hne.2

theorem active_ne (f : ServerFrame σ τ c) (h : σ.activeChannel ≠ some c) :
    τ.activeChannel ≠ some c :=
  fun hactive => h (f.active hactive).1

end ServerFrame

theorem HeldOk.frame {σ τ : HubState ι} {c : ℕ} {call : HubCall} {firstPoll firstReturn : ℕ}
    {ch : HubChannel ι} {pc : HoldPc} (h : HeldOk σ c call firstPoll firstReturn ch pc)
    (f : ServerFrame σ τ c) : HeldOk τ c call firstPoll firstReturn ch pc := by
  cases h with
  | source hstate hsem hfree => exact .source hstate hsem (f.serverFree hfree)
  | copy hstate hsem hfree => exact .copy hstate hsem (f.serverFree hfree)
  | activate hstate hsem hparam hfree => exact .activate hstate hsem hparam (f.serverFree hfree)
  | active hstate hsem hparam hfree => exact .active hstate hsem hparam (f.serverFree hfree)
  | taken pc hstate hsem hparam hserver hcopied hactive =>
      have hτ := f.server_eq (by rw [hserver]; rfl)
      exact .taken pc hstate hsem hparam (hτ.trans hserver) hcopied (f.active_ne hactive)
  | polled hstate hsem hserver hactive hpoll =>
      have hτ : τ.server.ref ≠ some c := by
        rcases f.server with heq | hne
        · rw [heq]
          exact hserver
        · exact hne.1
      by_cases hkept : τ.activeChannel = some c
      · refine .polled hstate hsem hτ hkept ?_
        unfold LastPoll
        rw [(f.active hkept).2]
        exact hpoll
      · exact .lost hstate hsem ⟨hτ, hkept⟩
  | returning val err hstate hsem hserver hactive hanswer =>
      have href : σ.server.ref = some c := by
        rw [hserver]
        rfl
      have hkept : τ.activeChannel = some c := by
        rcases f.forgotten hactive with hkept | hne
        · exact hkept
        · exact absurd href hne
      exact .returning val err hstate hsem ((f.server_eq href).trans hserver) hkept
        (f.answered hanswer)
  | replying val err pc hstate hsem hserver hpc hactive hval herr hanswer =>
      have hτ := f.server_eq (by rw [hserver]; rfl)
      exact .replying val err pc hstate hsem (hτ.trans hserver) hpc (f.active_ne hactive) hval
        herr (f.answered hanswer)
  | lost hstate hsem hfree => exact .lost hstate hsem (f.serverFree hfree)
  | replied hstate hsem hfree hanswer =>
      exact .replied hstate hsem (f.serverFree hfree) (f.answered hanswer)
  | readVal hstate hsem hfree hanswer =>
      exact .readVal hstate hsem (f.serverFree hfree) (f.answered hanswer)
  | readErr val hstate hsem hfree hanswer =>
      exact .readErr val hstate hsem (f.serverFree hfree) (f.answered hanswer)
  | put val err hstate hsem hfree hanswer =>
      exact .put val err hstate hsem (f.serverFree hfree) (f.answered hanswer)

namespace Frame

variable {σ τ : HubState ι} {c : ℕ}

theorem ref_of_ref (f : Frame σ τ c) {j : ι} (h : (τ.client j).ref = some c) :
    (σ.client j).ref = some c := by
  rcases f.client j with heq | hne
  · rw [← heq]
    exact h
  · exact absurd h hne.1

theorem client_eq (f : Frame σ τ c) {j : ι} (h : (σ.client j).ref = some c) :
    τ.client j = σ.client j := by
  rcases f.client j with heq | hne
  · exact heq
  · exact absurd h hne.2

end Frame

theorem ChannelCase.frame {σ τ : HubState ι} {c : ℕ} (h : ChannelCase σ c)
    (f : Frame σ τ c) : ChannelCase τ c := by
  cases h with
  | absent hchannel hlist hrefs hfree =>
      exact .absent (f.channel.trans hchannel) (fun hmem => hlist (f.list.mp hmem))
        (fun j hj => hrefs j (f.ref_of_ref hj)) (f.serverFree hfree)
  | created i call ch hclient honly hchannel hsem hlist hfree =>
      have hi := f.client_eq (j := i) (by rw [hclient]; rfl)
      exact .created i call ch (hi.trans hclient) (fun j hj => honly j (f.ref_of_ref hj))
        (f.channel.trans hchannel) hsem (fun hmem => hlist (f.list.mp hmem))
        (f.serverFree hfree)
  | idle ch hchannel hstate hsem hlist hrefs hfree =>
      exact .idle ch (f.channel.trans hchannel) hstate hsem (f.list.mpr hlist)
        (fun j hj => hrefs j (f.ref_of_ref hj)) (f.serverFree hfree)
  | held i call firstPoll firstReturn pc ch hclient honly hchannel hlist hpoll hreturn hpast
      hheld =>
      have hi := f.client_eq (j := i) (by rw [hclient]; rfl)
      exact .held i call firstPoll firstReturn pc ch (hi.trans hclient)
        (fun j hj => honly j (f.ref_of_ref hj)) (f.channel.trans hchannel)
        (f.list.mpr hlist) (Nat.le_trans hpoll f.polls.length_le)
        (Nat.le_trans hreturn f.returns.length_le) (fun k hk hkc => hpast k (f.completed k hk hkc) hkc)
        (hheld.frame f.toServerFrame)

/-! ## Reading the case off -/

section Inversion

variable {σ : HubState ι} {c : ℕ}

theorem ChannelCase.of_hold (h : ChannelCase σ c) {i : ι} {call : HubCall}
    {firstPoll firstReturn : ℕ} {pc : HoldPc}
    (hi : σ.client i = .hold call c firstPoll firstReturn pc) :
    ∃ ch, σ.channel c = some ch ∧ c ∈ σ.channelList ∧
      (∀ j, (σ.client j).ref = some c → j = i) ∧
      firstPoll ≤ σ.polls.length ∧ firstReturn ≤ σ.returns.length ∧
      (∀ k ∈ σ.completed, k.channel = c → k.lastReturn ≤ firstReturn) ∧
      HeldOk σ c call firstPoll firstReturn ch pc := by
  have href : (σ.client i).ref = some c := by
    rw [hi]
    rfl
  cases h with
  | absent _ _ hrefs _ => exact absurd href (hrefs i)
  | created j call' ch hclient honly _ _ _ _ =>
      rw [← honly i href, hi] at hclient
      cases hclient
  | idle _ _ _ _ _ hrefs _ => exact absurd href (hrefs i)
  | held j call' fp fr pc' ch hclient honly hchannel hlist hpoll hreturn hpast hheld =>
      rw [← honly i href, hi] at hclient
      cases hclient
      refine ⟨ch, hchannel, hlist, ?_, hpoll, hreturn, hpast, hheld⟩
      intro k hk
      exact (honly k hk).trans (honly i href).symm

theorem ChannelCase.of_add (h : ChannelCase σ c) {i : ι} {call : HubCall}
    (hi : σ.client i = .add call c) :
    ∃ ch, σ.channel c = some ch ∧ ch.syncSem = 0 ∧ c ∉ σ.channelList ∧
      (∀ j, (σ.client j).ref = some c → j = i) ∧ ServerFree σ c := by
  have href : (σ.client i).ref = some c := by
    rw [hi]
    rfl
  cases h with
  | absent _ _ hrefs _ => exact absurd href (hrefs i)
  | created j call' ch hclient honly hchannel hsem hlist hfree =>
      refine ⟨ch, hchannel, hsem, hlist, ?_, hfree⟩
      intro k hk
      exact (honly k hk).trans (honly i href).symm
  | idle _ _ _ _ _ hrefs _ => exact absurd href (hrefs i)
  | held j call' fp fr pc' ch hclient honly _ _ _ _ _ _ =>
      rw [← honly i href, hi] at hclient
      cases hclient

theorem ChannelCase.of_idle (h : ChannelCase σ c) {ch : HubChannel ι}
    (hch : σ.channel c = some ch) (hlist : c ∈ σ.channelList) (hstate : ch.state = .idle) :
    ch.syncSem = 0 ∧ (∀ j, (σ.client j).ref ≠ some c) ∧ ServerFree σ c := by
  cases h with
  | absent _ hnot _ _ => exact absurd hlist hnot
  | created _ _ _ _ _ _ _ hnot _ => exact absurd hlist hnot
  | idle ch' hchannel _ hsem _ hrefs hfree =>
      rw [hch] at hchannel
      cases hchannel
      exact ⟨hsem, hrefs, hfree⟩
  | held _ _ _ _ _ ch' _ _ hchannel _ _ _ _ hheld =>
      rw [hch] at hchannel
      cases hchannel
      exact absurd hstate hheld.not_idle

/-- A channel in the state `ACTIVE` or one that the server works on belongs to a
client that waits. -/
theorem ChannelCase.of_waiting (h : ChannelCase σ c) {ch : HubChannel ι}
    (hch : σ.channel c = some ch)
    (hbusy : (c ∈ σ.channelList ∧ ch.state = .active) ∨ ¬ServerFree σ c) :
    ∃ i call firstPoll firstReturn, σ.client i = .hold call c firstPoll firstReturn .wait ∧
      HeldOk σ c call firstPoll firstReturn ch .wait := by
  cases h with
  | absent hchannel _ _ _ =>
      rw [hch] at hchannel
      cases hchannel
  | created _ _ _ _ _ _ _ hnot hfree =>
      rcases hbusy with ⟨hlist, -⟩ | hbusy
      · exact absurd hlist hnot
      · exact absurd hfree hbusy
  | idle ch' hchannel hstate _ _ _ hfree =>
      rw [hch] at hchannel
      cases hchannel
      rcases hbusy with ⟨-, hactive⟩ | hbusy
      · rw [hstate] at hactive
        cases hactive
      · exact absurd hfree hbusy
  | held i call fp fr pc ch' hclient _ hchannel _ _ _ _ hheld =>
      rw [hch] at hchannel
      cases hchannel
      have hpc : pc = .wait := by
        cases hheld <;> simp_all
      subst hpc
      exact ⟨i, call, fp, fr, hclient, hheld⟩

theorem ChannelCase.present (h : ChannelCase σ c) (hbusy : ¬ServerFree σ c) :
    ∃ ch, σ.channel c = some ch := by
  cases h with
  | absent _ _ _ hfree => exact absurd hfree hbusy
  | created _ _ ch _ _ hchannel _ _ _ => exact ⟨ch, hchannel⟩
  | idle ch hchannel _ _ _ _ _ => exact ⟨ch, hchannel⟩
  | held _ _ _ _ _ ch _ _ hchannel _ _ _ _ _ => exact ⟨ch, hchannel⟩

end Inversion

end Nxos.Ipc
