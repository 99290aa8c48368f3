import Nxos.Ipc.Hub.Channels

/-!
# Every step keeps the channels in order

The invariant of the hub: every channel is in one of its cases, and every call
that completed was answered by a return of its own.  Each step of a client or of the
server is a change of one channel.  The only step that takes channels away is the
release of idle channels; it keeps the invariant when all channels are idle.
-/

namespace Nxos.Ipc

variable {ι : Type}

/-- A call that completed was answered by a return made during the call. -/
def CallOk (σ : HubState ι) (k : CallRecord ι) : Prop :=
  ∃ val r, k.retVal = (if k.call.wantsVal then some val else none) ∧ r < k.lastReturn ∧
    Answers σ k.channel k.call k.firstPoll k.firstReturn val k.retErr r

structure HubInv (σ : HubState ι) : Prop where
  channels : ∀ c, ChannelCase σ c
  fresh : ∀ c, σ.nextChannel ≤ c → σ.channel c = none
  calls : ∀ k ∈ σ.completed, CallOk σ k
  lasts : ∀ k ∈ σ.completed, k.lastReturn ≤ σ.returns.length
  order : σ.completed.Pairwise fun a b => a.channel = b.channel →
    a.lastReturn ≤ b.firstReturn

theorem hubInv_init (maxClient : ℕ) (clock : BitVec 64) :
    HubInv (hubInit maxClient clock : HubState ι) where
  channels := fun _ => .absent rfl List.not_mem_nil (nofun)
    ⟨nofun, nofun⟩
  fresh := fun _ _ => rfl
  calls := fun _ h => absurd h List.not_mem_nil
  lasts := fun _ h => absurd h List.not_mem_nil
  order := List.Pairwise.nil

theorem CallOk.mono {σ τ : HubState ι} {k : CallRecord ι} (hpolls : σ.polls <+: τ.polls)
    (hreturns : σ.returns <+: τ.returns) (h : CallOk σ k) : CallOk τ k := by
  obtain ⟨val, r, hval, hlt, hanswer⟩ := h
  exact ⟨val, r, hval, hlt, hanswer.mono hpolls hreturns⟩

namespace HubInv

variable {σ τ : HubState ι}

theorem move (hinv : HubInv σ) (hchannels : ∀ c, ChannelCase τ c)
    (hfresh : ∀ c, τ.nextChannel ≤ c → τ.channel c = none) (hpolls : σ.polls <+: τ.polls)
    (hreturns : σ.returns <+: τ.returns) (hcompleted : τ.completed = σ.completed) :
    HubInv τ where
  channels := hchannels
  fresh := hfresh
  calls := by
    rw [hcompleted]
    exact fun k hk => (hinv.calls k hk).mono hpolls hreturns
  lasts := by
    rw [hcompleted]
    exact fun k hk => Nat.le_trans (hinv.lasts k hk) hreturns.length_le
  order := by
    rw [hcompleted]
    exact hinv.order

theorem lt_next (hinv : HubInv σ) {c : ℕ} {ch : HubChannel ι} (hch : σ.channel c = some ch) :
    c < σ.nextChannel := by
  by_contra hle
  rw [hinv.fresh c (by omega)] at hch
  cases hch

theorem fresh_update (hinv : HubInv σ) {c : ℕ} {ch : HubChannel ι}
    (hch : σ.channel c = some ch) (ch' : HubChannel ι) :
    ∀ d, σ.nextChannel ≤ d → Function.update σ.channel c (some ch') d = none := by
  intro d hd
  have hlt := hinv.lt_next hch
  rw [Function.update_of_ne (by omega)]
  exact hinv.fresh d hd

/-! ## The server on one channel -/

theorem serverStep_on (hinv : HubInv σ) {i : ι} {call : HubCall}
    {c firstPoll firstReturn : ℕ} {ch : HubChannel ι} (ch' : HubChannel ι)
    (hi : σ.client i = .hold call c firstPoll firstReturn .wait)
    (hch : σ.channel c = some ch)
    (hchannel : τ.channel = Function.update σ.channel c (some ch'))
    (hlist : τ.channelList = σ.channelList) (hclient : τ.client = σ.client)
    (hnext : τ.nextChannel = σ.nextChannel) (hcompleted : τ.completed = σ.completed)
    (hpolls : σ.polls <+: τ.polls) (hreturns : σ.returns <+: τ.returns)
    (hheld : HeldOk τ c call firstPoll firstReturn ch' .wait)
    (hframe : ∀ d, d ≠ c → ServerFrame σ τ d) : HubInv τ := by
  refine hinv.move ?_ ?_ hpolls hreturns hcompleted
  · intro d
    by_cases hd : d = c
    · subst hd
      obtain ⟨-, -, hmem, honly, hpoll, hreturn, hpast, -⟩ := (hinv.channels d).of_hold hi
      refine .held i call firstPoll firstReturn .wait ch' (by rw [hclient]; exact hi) ?_ ?_ ?_
        (Nat.le_trans hpoll hpolls.length_le) (Nat.le_trans hreturn hreturns.length_le) ?_ hheld
      · rw [hclient]
        exact honly
      · rw [hchannel, Function.update_self]
      · rw [hlist]
        exact hmem
      · rw [hcompleted]
        exact hpast
    · refine (hinv.channels d).frame ⟨hframe d hd, ?_, ?_, ?_, ?_⟩
      · rw [hchannel, Function.update_of_ne hd]
      · rw [hlist]
      · intro j
        rw [hclient]
        exact Or.inl rfl
      · intro k hk _
        rw [hcompleted] at hk
        exact hk
  · rw [hnext, hchannel]
    exact hinv.fresh_update hch ch'

theorem serverStep_off (hinv : HubInv σ) (hσ : σ.server.ref = none) (hτ : τ.server.ref = none)
    (hchannel : τ.channel = σ.channel) (hlist : τ.channelList = σ.channelList)
    (hclient : τ.client = σ.client) (hnext : τ.nextChannel = σ.nextChannel)
    (hactive : τ.activeChannel = σ.activeChannel) (hpolls : τ.polls = σ.polls)
    (hreturns : τ.returns = σ.returns) (hcompleted : τ.completed = σ.completed) :
    HubInv τ := by
  refine hinv.move ?_ ?_ (hpolls ▸ List.prefix_rfl) (hreturns ▸ List.prefix_rfl) hcompleted
  · intro d
    have hserver : ServerFrame σ τ d := by
      refine ⟨Or.inr ?_, ?_, ?_, hpolls ▸ List.prefix_rfl, hreturns ▸ List.prefix_rfl⟩
      · rw [hσ, hτ]
        exact ⟨nofun, nofun⟩
      · intro h
        exact ⟨hactive ▸ h, hpolls⟩
      · intro h
        exact Or.inl (hactive.trans h)
    refine (hinv.channels d).frame ⟨hserver, ?_, ?_, ?_, ?_⟩
    · rw [hchannel]
    · rw [hlist]
    · intro j
      rw [hclient]
      exact Or.inl rfl
    · intro k hk _
      rw [hcompleted] at hk
      exact hk
  · rw [hnext, hchannel]
    exact hinv.fresh

/-! ## A client on one channel -/

section Client

variable [DecidableEq ι]

/-- What a step of the client `i` does to the channels it does not refer to. -/
theorem frame_client {i : ι} {pc : ClientPc} {d : ℕ} (hchannel : τ.channel d = σ.channel d)
    (hlist : d ∈ τ.channelList ↔ d ∈ σ.channelList)
    (hclient : τ.client = Function.update σ.client i pc) (hnew : pc.ref ≠ some d)
    (hold : (σ.client i).ref ≠ some d) (hserver : τ.server = σ.server)
    (hactive : τ.activeChannel = σ.activeChannel) (hpolls : τ.polls = σ.polls)
    (hreturns : τ.returns = σ.returns)
    (hcompleted : ∀ k ∈ τ.completed, k.channel = d → k ∈ σ.completed) : Frame σ τ d where
  toServerFrame := ServerFrame.of_eq hserver hactive hpolls hreturns d
  channel := hchannel
  list := hlist
  client := by
    intro j
    rw [hclient]
    by_cases hj : j = i
    · subst hj
      rw [Function.update_self]
      exact Or.inr ⟨hnew, hold⟩
    · rw [Function.update_of_ne hj]
      exact Or.inl rfl
  completed := hcompleted

theorem goto_off (hinv : HubInv σ) {i : ι} {pc : ClientPc} (hσ : (σ.client i).ref = none)
    (hpc : pc.ref = none) : HubInv (σ.goto i pc) := by
  refine hinv.move ?_ hinv.fresh List.prefix_rfl List.prefix_rfl rfl
  intro d
  refine (hinv.channels d).frame (frame_client rfl Iff.rfl rfl ?_ ?_ rfl rfl rfl rfl ?_)
  · rw [hpc]
    exact nofun
  · rw [hσ]
    exact nofun
  · exact fun k hk _ => hk

/-- After a move of the client `i`, only the client `i` refers to what it refers to. -/
theorem only_update {i : ι} {c : ℕ} (pc : ClientPc)
    (h : ∀ j, j ≠ i → (σ.client j).ref ≠ some c) :
    ∀ j, (Function.update σ.client i pc j).ref = some c → j = i := by
  intro j hj
  by_contra hne
  rw [Function.update_of_ne hne] at hj
  exact h j hne hj

theorem hold_move (hinv : HubInv σ) {i : ι} {call : HubCall} {c firstPoll firstReturn : ℕ}
    {pc pc' : HoldPc} {ch : HubChannel ι}
    (hi : σ.client i = .hold call c firstPoll firstReturn pc)
    (hheld : HeldOk σ c call firstPoll firstReturn ch pc') :
    HubInv ((σ.write c ch).goto i (.hold call c firstPoll firstReturn pc')) := by
  obtain ⟨ch₀, hch₀, hmem, honly, hpoll, hreturn, hpast, -⟩ := (hinv.channels c).of_hold hi
  refine hinv.move ?_ (hinv.fresh_update hch₀ ch) List.prefix_rfl List.prefix_rfl rfl
  intro d
  by_cases hd : d = c
  · subst hd
    refine .held i call firstPoll firstReturn pc' ch (Function.update_self ..) ?_
      (Function.update_self ..) hmem hpoll hreturn hpast ?_
    · exact only_update _ (fun j hne hj => hne (honly j hj))
    · refine hheld.frame ?_
      apply ServerFrame.of_eq <;> rfl
  · refine (hinv.channels d).frame (frame_client ?_ Iff.rfl rfl ?_ ?_ rfl rfl rfl rfl ?_)
    · exact Function.update_of_ne hd ..
    · intro h
      exact hd (Option.some.inj h).symm
    · rw [hi]
      intro h
      exact hd (Option.some.inj h).symm
    · exact fun k hk _ => hk

theorem pick_move (hinv : HubInv σ) {i : ι} {call : HubCall} {c : ℕ} {ch : HubChannel ι}
    (hi : (σ.client i).ref = none) (hch : σ.channel c = some ch) (hlist : c ∈ σ.channelList)
    (hstate : ch.state = .idle) :
    HubInv ((σ.write c { ch with state := .ready }).picked i call c) := by
  obtain ⟨hsem, hrefs, hfree⟩ := (hinv.channels c).of_idle hch hlist hstate
  refine hinv.move ?_ (hinv.fresh_update hch _) List.prefix_rfl List.prefix_rfl rfl
  intro d
  by_cases hd : d = c
  · subst hd
    refine .held i call σ.polls.length σ.returns.length .source { ch with state := .ready }
      (Function.update_self ..) ?_ (Function.update_self ..) hlist (Nat.le_refl _)
      (Nat.le_refl _) ?_ ?_
    · exact only_update _ (fun j _ => hrefs j)
    · exact fun k hk _ => hinv.lasts k hk
    · exact .source rfl hsem ⟨hfree.server, hfree.active⟩
  · refine (hinv.channels d).frame (frame_client ?_ Iff.rfl rfl ?_ ?_ rfl rfl rfl rfl ?_)
    · exact Function.update_of_ne hd ..
    · intro h
      exact hd (Option.some.inj h).symm
    · rw [hi]
      exact nofun
    · exact fun k hk _ => hk

theorem create_move (hinv : HubInv σ) {i : ι} {call : HubCall} (hi : (σ.client i).ref = none) :
    HubInv ((createChannel σ).2.goto i (.add call (createChannel σ).1)) := by
  have hnone := hinv.fresh σ.nextChannel (Nat.le_refl _)
  refine hinv.move ?_ ?_ List.prefix_rfl List.prefix_rfl rfl
  · intro d
    by_cases hd : d = σ.nextChannel
    · subst hd
      cases hinv.channels σ.nextChannel with
      | absent _ hlist hrefs hfree =>
          refine .created i call hubChannelInit (Function.update_self ..) ?_
            (Function.update_self ..) rfl hlist ⟨hfree.server, hfree.active⟩
          exact only_update _ (fun j _ => hrefs j)
      | created _ _ _ _ _ hchannel _ _ _ =>
          rw [hnone] at hchannel
          cases hchannel
      | idle _ hchannel _ _ _ _ _ =>
          rw [hnone] at hchannel
          cases hchannel
      | held _ _ _ _ _ _ _ _ hchannel _ _ _ _ _ =>
          rw [hnone] at hchannel
          cases hchannel
    · refine (hinv.channels d).frame (frame_client ?_ Iff.rfl rfl ?_ ?_ rfl rfl rfl rfl ?_)
      · exact Function.update_of_ne hd ..
      · intro h
        exact hd (Option.some.inj h).symm
      · rw [hi]
        exact nofun
      · exact fun k hk _ => hk
  · intro d hd
    have hle : σ.nextChannel + 1 ≤ d := hd
    change Function.update σ.channel σ.nextChannel _ d = none
    rw [Function.update_of_ne (by omega)]
    exact hinv.fresh d (by omega)

theorem add_move (hinv : HubInv σ) {i : ι} {call : HubCall} {c : ℕ}
    (hi : σ.client i = .add call c) (hstep : hubAddChannel σ c = some τ) :
    HubInv (τ.goto i (.repick call)) := by
  obtain ⟨ch, hch, hsem, hlist, honly, hfree⟩ := (hinv.channels c).of_add hi
  unfold hubAddChannel at hstep
  rw [hch, Option.map_some] at hstep
  cases hstep
  refine hinv.move ?_ (hinv.fresh_update hch _) List.prefix_rfl List.prefix_rfl rfl
  intro d
  by_cases hd : d = c
  · subst hd
    refine .idle { ch with state := .idle } (Function.update_self ..) rfl hsem
      (List.mem_cons_self ..) ?_ ⟨hfree.server, hfree.active⟩
    intro j hj
    have hji := only_update (.repick call) (fun j hne hj => hne (honly j hj)) j hj
    subst hji
    change (Function.update σ.client j (.repick call) j).ref = some d at hj
    rw [Function.update_self] at hj
    cases hj
  · refine (hinv.channels d).frame (frame_client ?_ ?_ rfl ?_ ?_ rfl rfl rfl rfl ?_)
    · exact Function.update_of_ne hd ..
    · exact List.mem_cons.trans (or_iff_right hd)
    · exact nofun
    · rw [hi]
      intro h
      exact hd (Option.some.inj h).symm
    · exact fun k hk _ => hk

theorem put_move (hinv : HubInv σ) {i : ι} {call : HubCall} {c firstPoll firstReturn : ℕ}
    {val : Option (BitVec 64)} {err : NxError}
    (hi : σ.client i = .hold call c firstPoll firstReturn (.put val err))
    (hstep : putFreeChannel σ c = some τ) :
    HubInv (τ.complete i call c firstPoll firstReturn val err) := by
  obtain ⟨ch, hch, hmem, honly, -, -, hpast, hheld⟩ := (hinv.channels c).of_hold hi
  unfold putFreeChannel at hstep
  rw [hch, Option.map_some] at hstep
  cases hstep
  cases hheld with
  | put v e hstate hsem hfree hanswer =>
      obtain ⟨r, hr, k, hk, hreturn, hpoll⟩ := hanswer
      have hrlt : r < σ.returns.length := (List.getElem?_eq_some_iff.mp hreturn).1
      constructor
      · intro d
        by_cases hd : d = c
        · subst hd
          refine .idle _ (Function.update_self ..) rfl hsem hmem ?_
            ⟨hfree.server, hfree.active⟩
          intro j hj
          have hji := only_update .out (fun j hne hj => hne (honly j hj)) j hj
          subst hji
          change (Function.update σ.client j .out j).ref = some d at hj
          rw [Function.update_self] at hj
          cases hj
        · refine (hinv.channels d).frame (frame_client ?_ Iff.rfl rfl ?_ ?_ rfl rfl rfl rfl ?_)
          · exact Function.update_of_ne hd ..
          · exact nofun
          · rw [hi]
            intro h
            exact hd (Option.some.inj h).symm
          · intro m hm hmd
            rcases List.mem_append.mp hm with hm | hm
            · exact hm
            · rw [List.mem_singleton] at hm
              subst hm
              exact absurd hmd (Ne.symm hd)
      · exact hinv.fresh_update hch _
      · intro m hm
        rcases List.mem_append.mp hm with hm | hm
        · exact hinv.calls m hm
        · rw [List.mem_singleton] at hm
          subst hm
          exact ⟨v, r, rfl, hrlt, hr, k, hk, hreturn, hpoll⟩
      · intro m hm
        rcases List.mem_append.mp hm with hm | hm
        · exact hinv.lasts m hm
        · rw [List.mem_singleton] at hm
          subst hm
          exact Nat.le_refl _
      · refine List.pairwise_append.mpr ⟨hinv.order, List.pairwise_singleton _ _, ?_⟩
        intro a ha b hb hchannel
        rw [List.mem_singleton] at hb
        subst hb
        exact hpast a ha hchannel

/-! ## The steps of a client -/

/-- `HubPickChannel` of a client that refers to no channel. -/
theorem hubPickChannel_move (hinv : HubInv σ) {i : ι} {call : HubCall} {c : ℕ}
    (hi : (σ.client i).ref = none) (hpick : hubPickChannel σ = some (c, τ)) :
    HubInv (τ.picked i call c) := by
  unfold hubPickChannel at hpick
  obtain ⟨⟨d, ch⟩, hfirst, heq⟩ := Option.map_eq_some_iff.mp hpick
  cases heq
  obtain ⟨hlist, hch, hstate⟩ := firstInState_eq hfirst
  exact hinv.pick_move hi hch hlist hstate

theorem holdStep_move (hinv : HubInv σ) {i : ι} {call : HubCall}
    {c firstPoll firstReturn : ℕ} {pc : HoldPc}
    (hi : σ.client i = .hold call c firstPoll firstReturn pc)
    (hstep : holdStep σ i call c firstPoll firstReturn pc = some τ) : HubInv τ := by
  obtain ⟨ch, hch, -, -, -, -, -, hheld⟩ := (hinv.channels c).of_hold hi
  simp only [holdStep, hch, Option.bind_eq_bind, Option.bind_some] at hstep
  cases hheld with
  | source hstate hsem hfree =>
      cases hstep
      exact hinv.hold_move hi (.copy hstate hsem hfree)
  | copy hstate hsem hfree =>
      cases hstep
      exact hinv.hold_move hi (.activate hstate hsem rfl hfree)
  | activate hstate hsem hparam hfree =>
      cases hstep
      exact hinv.hold_move hi (.active rfl hsem hparam hfree)
  | replied hstate hsem hfree hanswer =>
      simp only [hsem] at hstep
      cases hstep
      exact hinv.hold_move hi (.readVal hstate rfl hfree hanswer)
  | readVal hstate hsem hfree hanswer =>
      cases hstep
      have hnext := hinv.hold_move hi (.readErr ch.retVal hstate hsem hfree hanswer)
      rw [write_self hch] at hnext
      exact hnext
  | readErr val hstate hsem hfree hanswer =>
      cases hstep
      have hnext := hinv.hold_move hi (.put val ch.retErr hstate hsem hfree hanswer)
      rw [write_self hch] at hnext
      exact hnext
  | put val err hstate hsem hfree hanswer =>
      obtain ⟨σ', hput, heq⟩ := Option.bind_eq_some_iff.mp hstep
      cases heq
      exact hinv.put_move hi hput
  -- the semaphore of a channel that waits for its reply is down
  | active _ hsem _ _ => simp [hsem] at hstep
  | taken _ _ hsem _ _ _ _ => simp [hsem] at hstep
  | polled _ hsem _ _ _ => simp [hsem] at hstep
  | returning _ _ _ hsem _ _ _ => simp [hsem] at hstep
  | replying _ _ _ _ hsem _ _ _ _ _ _ => simp [hsem] at hstep
  | lost _ hsem _ => simp [hsem] at hstep

theorem clientStep_move (hinv : HubInv σ) {i : ι} {mem : Bool}
    (hstep : clientStep σ i mem = some τ) : HubInv τ := by
  unfold clientStep at hstep
  cases hi : σ.client i with
  | out =>
      rw [hi] at hstep
      cases hstep
  | pick call =>
      have href : (σ.client i).ref = none := by rw [hi]; rfl
      rw [hi] at hstep
      dsimp only at hstep
      cases hpick : hubPickChannel σ with
      | none =>
          rw [hpick] at hstep
          cases hstep
          exact hinv.goto_off href rfl
      | some r =>
          rw [hpick] at hstep
          cases hstep
          exact hinv.hubPickChannel_move href hpick
  | check call =>
      have href : (σ.client i).ref = none := by rw [hi]; rfl
      rw [hi] at hstep
      dsimp only at hstep
      split_ifs at hstep
      · cases hstep
        exact hinv.goto_off href rfl
      · cases hstep
        exact hinv.goto_off href rfl
  | create call =>
      have href : (σ.client i).ref = none := by rw [hi]; rfl
      rw [hi] at hstep
      dsimp only at hstep
      split_ifs at hstep
      · cases hstep
        exact hinv.create_move href
      · cases hstep
        exact hinv.goto_off href rfl
  | add call c =>
      rw [hi] at hstep
      obtain ⟨σ', hadd, heq⟩ := Option.bind_eq_some_iff.mp hstep
      cases heq
      exact hinv.add_move hi hadd
  | repick call =>
      have href : (σ.client i).ref = none := by rw [hi]; rfl
      rw [hi] at hstep
      dsimp only at hstep
      cases hpick : hubPickChannel σ with
      | none =>
          rw [hpick] at hstep
          cases hstep
          exact hinv.goto_off href rfl
      | some r =>
          rw [hpick] at hstep
          cases hstep
          exact hinv.hubPickChannel_move href hpick
  | hold call c firstPoll firstReturn pc =>
      rw [hi] at hstep
      exact hinv.holdStep_move hi hstep
  | fault =>
      rw [hi] at hstep
      cases hstep

end Client

/-! ## The steps of the server -/

theorem waiting (hinv : HubInv σ) {c : ℕ} (hbusy : ¬ServerFree σ c) :
    ∃ i call firstPoll firstReturn ch,
      σ.client i = .hold call c firstPoll firstReturn .wait ∧ σ.channel c = some ch ∧
      HeldOk σ c call firstPoll firstReturn ch .wait := by
  obtain ⟨ch, hch⟩ := (hinv.channels c).present hbusy
  obtain ⟨i, call, firstPoll, firstReturn, hi, hheld⟩ :=
    (hinv.channels c).of_waiting hch (Or.inr hbusy)
  exact ⟨i, call, firstPoll, firstReturn, ch, hi, hch, hheld⟩

/-- The server moves on with a channel and leaves the record and the active channel
alone. -/
theorem serverFrame_on {c d : ℕ} (hd : d ≠ c) (hσ : σ.server.ref = none ∨ σ.server.ref = some c)
    (hτ : τ.server.ref = none ∨ τ.server.ref = some c)
    (hactive : τ.activeChannel = σ.activeChannel ∨
      (τ.activeChannel = none ∧ σ.activeChannel = some c))
    (hpolls : τ.polls = σ.polls) (hreturns : σ.returns <+: τ.returns) :
    ServerFrame σ τ d where
  server := by
    refine Or.inr ⟨?_, ?_⟩
    · rcases hτ with h | h <;> simp [h, Ne.symm hd]
    · rcases hσ with h | h <;> simp [h, Ne.symm hd]
  active := by
    intro h
    rcases hactive with heq | ⟨heq, -⟩
    · exact ⟨heq ▸ h, hpolls⟩
    · rw [heq] at h
      cases h
  forgotten := by
    intro h
    rcases hactive with heq | ⟨-, heq⟩
    · exact Or.inl (heq.trans h)
    · rw [h] at heq
      exact absurd (Option.some.inj heq) hd
  polls := hpolls ▸ List.prefix_rfl
  returns := hreturns

/-- The search of `NX_HubPoll`. -/
theorem scan_move (hinv : HubInv σ) (hserver : σ.server = .scan) {c : ℕ}
    (hscan : hubPollScan σ = some (c, τ)) : HubInv { τ with server := .take c .idle } := by
  unfold hubPollScan at hscan
  obtain ⟨⟨d, ch⟩, hfirst, heq⟩ := Option.map_eq_some_iff.mp hscan
  cases heq
  obtain ⟨hlist, hch, hstate⟩ := firstInState_eq hfirst
  obtain ⟨i, call, firstPoll, firstReturn, hi, hheld⟩ :=
    (hinv.channels c).of_waiting hch (Or.inl ⟨hlist, hstate⟩)
  obtain ⟨hsem, hparam, hfree⟩ := hheld.of_active hstate
  refine hinv.serverStep_on { ch with state := .handled } hi hch rfl rfl rfl rfl rfl
    List.prefix_rfl List.prefix_rfl ?_ ?_
  · exact .taken .idle rfl hsem hparam rfl trivial hfree.active
  · intro d hd
    exact serverFrame_on hd (Or.inl (by rw [hserver]; rfl)) (Or.inr rfl) (Or.inl rfl) rfl
      List.prefix_rfl

theorem takeStep_move (hinv : HubInv σ) {c : ℕ} {pc : TakePc} (hserver : σ.server = .take c pc)
    (hstep : takeStep σ c pc = some τ) : HubInv τ := by
  have href : σ.server.ref = some c := by
    rw [hserver]
    rfl
  obtain ⟨i, call, firstPoll, firstReturn, ch, hi, hch, hheld⟩ :=
    hinv.waiting (fun hfree => hfree.server href)
  obtain ⟨hstate, hsem, hparam, hcopied, hactive⟩ := hheld.of_take hserver
  cases pc with
  | idle =>
      cases hstep
      refine hinv.serverStep_on ch hi hch ?_ rfl rfl rfl rfl List.prefix_rfl
        List.prefix_rfl ?_ ?_
      · rw [← hch, Function.update_eq_self]
      · exact .taken .param hstate hsem hparam rfl trivial hactive
      · intro d hd
        exact serverFrame_on hd (Or.inr href) (Or.inr rfl) (Or.inl rfl) rfl List.prefix_rfl
  | param =>
      simp only [takeStep, hch, Option.bind_eq_bind, Option.bind_some] at hstep
      cases hstep
      refine hinv.serverStep_on ch hi hch ?_ rfl rfl rfl rfl List.prefix_rfl
        List.prefix_rfl ?_ ?_
      · rw [← hch, Function.update_eq_self]
      · exact .taken (.target ch.param) hstate hsem hparam rfl hparam hactive
      · intro d hd
        exact serverFrame_on hd (Or.inr href) (Or.inr rfl) (Or.inl rfl) rfl List.prefix_rfl
  | target param =>
      simp only [takeStep, hch, Option.bind_eq_bind, Option.bind_some] at hstep
      cases hstep
      refine hinv.serverStep_on { ch with targetThread := some .server } hi hch rfl
        rfl rfl rfl rfl List.prefix_rfl List.prefix_rfl ?_ ?_
      · exact .taken (.active param) hstate hsem hparam rfl hcopied hactive
      · intro d hd
        exact serverFrame_on hd (Or.inr href) (Or.inr rfl) (Or.inl rfl) rfl List.prefix_rfl
  | active param =>
      cases hstep
      refine hinv.serverStep_on ch hi hch ?_ rfl rfl rfl rfl (List.prefix_append _ _)
        List.prefix_rfl ?_ ?_
      · rw [← hch, Function.update_eq_self]
      · have hparam' : param = call.param := hcopied
        obtain ⟨-, -, -, -, hpoll, -⟩ := (hinv.channels c).of_hold hi
        refine .polled hstate hsem nofun rfl ⟨σ.polls.length, ?_, hpoll, ?_⟩
        · exact List.length_append
        · rw [hparam']
          exact List.getElem?_concat_length
      · -- the channel that was active before is forgotten
        intro d hd
        have hne : σ.server.ref ≠ some d := by
          rw [href]
          intro h
          exact hd (Option.some.inj h).symm
        refine ⟨Or.inr ⟨nofun, hne⟩, ?_, fun _ => Or.inr hne, List.prefix_append _ _,
          List.prefix_rfl⟩
        intro h
        exact absurd (Option.some.inj h).symm hd

theorem replyStep_move (hinv : HubInv σ) {c : ℕ} {val : BitVec 64} {err : NxError}
    {pc : ReplyPc} (hserver : σ.server = .reply c val err pc)
    (hstep : replyStep σ c val err pc = some τ) : HubInv τ := by
  have href : σ.server.ref = some c := by
    rw [hserver]
    rfl
  obtain ⟨i, call, firstPoll, firstReturn, ch, hi, hch, hheld⟩ :=
    hinv.waiting (fun hfree => hfree.server href)
  obtain ⟨hstate, hsem, hactive, hval, herr, hanswer⟩ := hheld.of_reply hserver
  cases pc with
  | clear =>
      cases hstep
      refine hinv.serverStep_on ch hi hch ?_ rfl rfl rfl rfl List.prefix_rfl
        List.prefix_rfl ?_ ?_
      · rw [← hch, Function.update_eq_self]
      · exact .replying val err .val hstate hsem rfl nofun nofun nofun nofun hanswer
      · intro d hd
        exact serverFrame_on hd (Or.inr href) (Or.inr rfl) (Or.inr ⟨rfl, hactive.mpr rfl⟩) rfl
          List.prefix_rfl
  | val =>
      simp only [replyStep, hch, Option.bind_eq_bind, Option.bind_some] at hstep
      cases hstep
      refine hinv.serverStep_on { ch with retVal := val } hi hch rfl rfl rfl rfl rfl
        List.prefix_rfl List.prefix_rfl ?_ ?_
      · exact .replying val err .err hstate hsem rfl nofun (fun h => nomatch hactive.mp h)
          (fun _ => rfl) nofun hanswer
      · intro d hd
        exact serverFrame_on hd (Or.inr href) (Or.inr rfl) (Or.inl rfl) rfl List.prefix_rfl
  | err =>
      simp only [replyStep, hch, Option.bind_eq_bind, Option.bind_some] at hstep
      cases hstep
      refine hinv.serverStep_on { ch with retErr := err } hi hch rfl rfl rfl rfl rfl
        List.prefix_rfl List.prefix_rfl ?_ ?_
      · exact .replying val err .signal hstate hsem rfl nofun (fun h => nomatch hactive.mp h)
          (fun _ => hval (Or.inl rfl)) (fun _ => rfl) hanswer
      · intro d hd
        exact serverFrame_on hd (Or.inr href) (Or.inr rfl) (Or.inl rfl) rfl List.prefix_rfl
  | signal =>
      simp only [replyStep, hch, Option.bind_eq_bind, Option.bind_some] at hstep
      cases hstep
      refine hinv.serverStep_on { ch with syncSem := ch.syncSem + 1 } hi hch rfl rfl
        rfl rfl rfl List.prefix_rfl List.prefix_rfl ?_ ?_
      · refine .replied hstate ?_ ⟨nofun, fun h => nomatch hactive.mp h⟩ ?_
        · rw [hsem]
        · rw [hval (Or.inr rfl), herr rfl]
          exact hanswer
      · intro d hd
        exact serverFrame_on hd (Or.inr href) (Or.inl rfl) (Or.inl rfl) rfl List.prefix_rfl

/-- The checks of `NX_HubReturn`. -/
theorem hubReturn_move [DecidableEq ι] (hinv : HubInv σ) (hserver : σ.server = .out) {val : BitVec 64}
    {err : NxError} (hstep : hubReturn σ val err = some τ) : HubInv τ := by
  unfold hubReturn at hstep
  cases hactive : σ.activeChannel with
  | none =>
      rw [hactive] at hstep
      cases hstep
      exact hinv
  | some c =>
      obtain ⟨i, call, firstPoll, firstReturn, ch, hi, hch, hheld⟩ :=
        hinv.waiting (fun hfree => hfree.active hactive)
      have href : σ.server.ref = none := by
        rw [hserver]
        rfl
      obtain ⟨hstate, hsem, k, hlen, hk, hpoll⟩ := hheld.of_polled href hactive
      simp only [hactive, hch, Option.bind_eq_bind, Option.bind_some] at hstep
      split_ifs at hstep with htarget
      · cases hstep
        refine hinv.serverStep_on ch hi hch ?_ rfl rfl rfl rfl List.prefix_rfl
          (List.prefix_append _ _) ?_ ?_
        · rw [← hch, Function.update_eq_self]
        · obtain ⟨-, -, -, -, -, hreturn, -⟩ := (hinv.channels c).of_hold hi
          refine .returning val err hstate hsem rfl rfl
            ⟨σ.returns.length, hreturn, k, hk, ?_, hpoll⟩
          rw [hlen, Nat.add_sub_cancel]
          exact List.getElem?_concat_length
        · intro d hd
          exact serverFrame_on hd (Or.inl href) (Or.inr rfl) (Or.inl hactive.symm) rfl
            (List.prefix_append _ _)
      · cases hstep
        exact hinv

theorem release_move (hinv : HubInv σ) (hserver : σ.server = .release)
    (hidle : ∀ c ∈ σ.channelList, ∀ ch, σ.channel c = some ch → ch.state = .idle) :
    HubInv { hubRelease σ with server := .reset } := by
  have href : σ.server.ref = none := by
    rw [hserver]
    rfl
  refine hinv.move ?_ ?_ List.prefix_rfl List.prefix_rfl rfl
  · intro d
    by_cases hd : d ∈ σ.channelList
    · have hgone : (hubRelease σ).channel d = none := if_pos hd
      cases hinv.channels d with
      | absent _ hlist _ _ => exact absurd hd hlist
      | created _ _ _ _ _ _ _ hlist _ => exact absurd hd hlist
      | idle _ _ _ _ _ hrefs hfree =>
          exact .absent hgone List.not_mem_nil hrefs ⟨nofun, hfree.active⟩
      | held _ _ _ _ _ ch _ _ hchannel _ _ _ _ hheld =>
          exact absurd (hidle d hd ch hchannel) hheld.not_idle
    · refine (hinv.channels d).frame ⟨⟨Or.inr ⟨nofun, ?_⟩, ?_, ?_, ?_, ?_⟩, ?_, ?_, ?_, ?_⟩
      · rw [href]
        exact nofun
      · exact fun h => ⟨h, rfl⟩
      · exact fun h => Or.inl h
      · exact List.prefix_rfl
      · exact List.prefix_rfl
      · exact if_neg hd
      · exact iff_of_false List.not_mem_nil hd
      · exact fun j => Or.inl rfl
      · exact fun k hk _ => hk
  · intro d hd
    change (if d ∈ σ.channelList then none else σ.channel d) = none
    split_ifs
    · rfl
    · exact hinv.fresh d hd

theorem serverStep_move (hinv : HubInv σ) (hstep : serverStep σ = some τ)
    (hidle : σ.server = .release → ∀ c ∈ σ.channelList, ∀ ch, σ.channel c = some ch →
      ch.state = .idle) : HubInv τ := by
  unfold serverStep at hstep
  cases hserver : σ.server with
  | out =>
      rw [hserver] at hstep
      cases hstep
  | scan =>
      have href : σ.server.ref = none := by rw [hserver]; rfl
      rw [hserver] at hstep
      dsimp only at hstep
      cases hscan : hubPollScan σ with
      | none =>
          rw [hscan] at hstep
          cases hstep
          exact hinv.serverStep_off href rfl rfl rfl rfl rfl rfl rfl rfl rfl
      | some r =>
          rw [hscan] at hstep
          cases hstep
          exact hinv.scan_move hserver hscan
  | take c pc =>
      rw [hserver] at hstep
      exact hinv.takeStep_move hserver hstep
  | total =>
      have href : σ.server.ref = none := by rw [hserver]; rfl
      rw [hserver] at hstep
      dsimp only at hstep
      split_ifs at hstep <;> cases hstep <;>
        exact hinv.serverStep_off href rfl rfl rfl rfl rfl rfl rfl rfl rfl
  | idle =>
      have href : σ.server.ref = none := by rw [hserver]; rfl
      rw [hserver] at hstep
      cases hstep
      exact hinv.serverStep_off href rfl rfl rfl rfl rfl rfl rfl rfl rfl
  | compare =>
      have href : σ.server.ref = none := by rw [hserver]; rfl
      rw [hserver] at hstep
      dsimp only at hstep
      split_ifs at hstep <;> cases hstep <;>
        exact hinv.serverStep_off href rfl rfl rfl rfl rfl rfl rfl rfl rfl
  | release =>
      rw [hserver] at hstep
      cases hstep
      exact hinv.release_move hserver (hidle hserver)
  | reset =>
      have href : σ.server.ref = none := by rw [hserver]; rfl
      rw [hserver] at hstep
      cases hstep
      exact hinv.serverStep_off href rfl rfl rfl rfl rfl rfl rfl rfl rfl
  | reply c val err pc =>
      rw [hserver] at hstep
      exact hinv.replyStep_move hserver hstep

end HubInv

end Nxos.Ipc
