import Mathlib.Data.List.Basic

/-!
# Computations with a log

A computation logs what it does until it returns or faults.  What holds of every entry of the log
is read off its parts, and for a loop off the rounds that it reaches.
-/

namespace Nxos

/-- The log of a computation, and its result or its fault. -/
structure Logged (ε φ α : Type) where
  log : List ε
  result : Except φ α

namespace Logged

variable {ε φ α β ρ σ : Type}

def ret (a : α) : Logged ε φ α := ⟨[], .ok a⟩

def andThen (x : Logged ε φ α) (f : α → Logged ε φ β) : Logged ε φ β :=
  match x.result with
  | .error fault => ⟨x.log, .error fault⟩
  | .ok a => ⟨x.log ++ (f a).log, (f a).result⟩

instance : Monad (Logged ε φ) where
  pure := ret
  bind := andThen

def emit (e : ε) : Logged ε φ Unit := ⟨[e], .ok ()⟩

def stop (fault : φ) : Logged ε φ α := ⟨[], .error fault⟩

/-- Every entry of the log has the property. -/
def All (P : ε → Prop) (x : Logged ε φ α) : Prop := ∀ e ∈ x.log, P e

/-! ## Sequences -/

section Sequences

variable {P : ε → Prop} {x : Logged ε φ α} {f : α → Logged ε φ β} {a : α} {b : β} {e : ε}

@[simp] theorem result_pure : (pure a : Logged ε φ α).result = .ok a := rfl

@[simp] theorem result_emit : (emit e : Logged ε φ Unit).result = .ok () := rfl

@[simp] theorem result_stop {fault : φ} : (stop fault : Logged ε φ α).result = .error fault := rfl

/-- A sequence returns what its second part returns. -/
theorem result_bind_of_ok (hx : x.result = .ok a) : (x >>= f).result = (f a).result := by
  change (andThen x f).result = _
  rw [andThen, hx]

theorem result_bind_eq_ok_iff :
    (x >>= f).result = .ok b ↔ ∃ a, x.result = .ok a ∧ (f a).result = .ok b := by
  change (andThen x f).result = _ ↔ _
  unfold andThen
  cases x.result with
  | error fault => simp
  | ok a => simp

@[simp] theorem all_pure : All P (pure a : Logged ε φ α) := by
  intro e hmem
  cases hmem

@[simp] theorem all_emit_iff : All P (emit e : Logged ε φ Unit) ↔ P e := by
  simp [All, emit]

@[simp] theorem all_stop {fault : φ} : All P (stop fault : Logged ε φ α) := by
  intro e hmem
  cases hmem

/-- The log of a sequence is the logs of its parts. -/
theorem all_bind_iff :
    All P (x >>= f) ↔ All P x ∧ ∀ a, x.result = .ok a → All P (f a) := by
  change All P (andThen x f) ↔ _
  unfold andThen All
  cases x.result with
  | error fault => simp
  | ok a => simp [or_imp, forall_and]

end Sequences

/-! ## Checks -/

/-- The computation returns exactly when every entry of its log has the property. -/
def Guarded (P : ε → Prop) (x : Logged ε φ α) : Prop := All P x ↔ ∃ a, x.result = .ok a

section Checks

variable {P : ε → Prop} {x : Logged ε φ α} {f : α → Logged ε φ β} {a : α} {e : ε}

@[simp] theorem guarded_pure : Guarded P (pure a : Logged ε φ α) :=
  iff_of_true all_pure ⟨a, rfl⟩

theorem guarded_bind (hx : Guarded P x) (hf : ∀ a, Guarded P (f a)) : Guarded P (x >>= f) := by
  unfold Guarded at hx hf ⊢
  rw [all_bind_iff, hx]
  simp only [hf, result_bind_eq_ok_iff]
  constructor
  · rintro ⟨⟨a, ha⟩, hreturns⟩
    obtain ⟨b, hb⟩ := hreturns a ha
    exact ⟨b, a, ha, hb⟩
  · rintro ⟨b, a, ha, hb⟩
    refine ⟨⟨a, ha⟩, fun a' ha' => ⟨b, ?_⟩⟩
    rw [ha, Except.ok.injEq] at ha'
    rwa [← ha']

end Checks

/-! ## Loops -/

/-- A loop whose rounds end it with a result or go on from another state.  No result is given when
the rounds are used up. -/
def loop (round : σ → Logged ε φ (Except ρ σ)) : ℕ → σ → Logged ε φ (Option ρ)
  | 0, _ => pure none
  | rounds + 1, s => do
      match ← round s with
      | .error result => pure (some result)
      | .ok t => loop round rounds t

/-- The states in which a round of the loop begins. -/
inductive Reached (round : σ → Logged ε φ (Except ρ σ)) : σ → σ → Prop
  | here (s : σ) : Reached round s s
  | next {s t u : σ} : (round s).result = .ok (.ok t) → Reached round t u → Reached round s u

section Loops

variable {P : ε → Prop} {round : σ → Logged ε φ (Except ρ σ)} {s t : σ} {rounds : ℕ} {r : ρ}

theorem all_loop_succ_iff : All P (loop round (rounds + 1) s) ↔
    All P (round s) ∧ ∀ t, (round s).result = .ok (.ok t) → All P (loop round rounds t) := by
  rw [loop, all_bind_iff]
  refine and_congr_right fun _ => ?_
  constructor
  · exact fun hall t ht => hall _ ht
  · intro hall a ha
    cases a with
    | error result => exact all_pure
    | ok t => exact hall t ha

theorem all_loop_iff :
    (∀ rounds, All P (loop round rounds s)) ↔ ∀ t, Reached round s t → All P (round t) := by
  constructor
  · intro hall t hreached
    induction hreached with
    | here s => exact (all_loop_succ_iff.mp (hall 1)).1
    | next hstep _ ih => exact ih fun rounds => (all_loop_succ_iff.mp (hall (rounds + 1))).2 _ hstep
  · intro hall rounds
    induction rounds generalizing s with
    | zero => exact all_pure
    | succ rounds ih =>
        refine all_loop_succ_iff.mpr ⟨hall s (.here s), fun t ht => ih fun u hu => ?_⟩
        exact hall u (.next ht hu)

theorem loop_of_stopped (hstop : (round s).result = .ok (.error r)) :
    (loop round (rounds + 1) s).result = .ok (some r) := by
  rw [loop, result_bind_of_ok hstop, result_pure]

theorem loop_of_next (hnext : (round s).result = .ok (.ok t)) :
    (loop round (rounds + 1) s).result = (loop round rounds t).result := by
  rw [loop, result_bind_of_ok hnext]

theorem exists_loop_eq_iff : (∃ rounds, (loop round rounds s).result = .ok (some r)) ↔
    ∃ t, Reached round s t ∧ (round t).result = .ok (.error r) := by
  constructor
  · rintro ⟨rounds, hr⟩
    induction rounds generalizing s with
    | zero => cases hr
    | succ rounds ih =>
        have hstep := hr
        rw [loop, result_bind_eq_ok_iff] at hstep
        obtain ⟨x, hx, hrest⟩ := hstep
        cases x with
        | error r' =>
            rw [result_pure, Except.ok.injEq, Option.some.injEq] at hrest
            exact ⟨s, .here s, hrest ▸ hx⟩
        | ok t =>
            obtain ⟨u, hu, hend⟩ := ih hrest
            exact ⟨u, .next hx hu, hend⟩
  · rintro ⟨t, hreached, hend⟩
    induction hreached with
    | here s => exact ⟨1, loop_of_stopped hend⟩
    | next hstep _ ih =>
        obtain ⟨rounds, hr⟩ := ih hend
        exact ⟨rounds + 1, (loop_of_next hstep).trans hr⟩

/-- What holds of the first state and is kept by the rounds holds of every state that is reached. -/
theorem Reached.invariant {Q : σ → Prop} (hreached : Reached round s t) (hs : Q s)
    (hkeep : ∀ t u, Q t → (round t).result = .ok (.ok u) → Q u) : Q t := by
  induction hreached with
  | here s => exact hs
  | next hstep _ ih => exact ih (hkeep _ _ hs hstep)

/-- A loop ends when no round that it reaches faults and a measure gets smaller. -/
theorem loop_ends (m : σ → ℕ) (hreturns : ∀ t, Reached round s t → ∃ x, (round t).result = .ok x)
    (hpos : ∀ t, Reached round s t → 0 < m t)
    (hless : ∀ t u, Reached round s t → (round t).result = .ok (.ok u) → Reached round s u →
      m u < m t) (hrounds : m s ≤ rounds) : ∃ r, (loop round rounds s).result = .ok (some r) := by
  induction rounds generalizing s with
  | zero =>
      have hm := hpos s (.here s)
      omega
  | succ rounds ih =>
      obtain ⟨x, hx⟩ := hreturns s (.here s)
      cases x with
      | error r => exact ⟨r, loop_of_stopped hx⟩
      | ok t =>
          have hlt := hless s t (.here s) hx (.next hx (.here t))
          rw [loop_of_next hx]
          exact ih (fun u hu => hreturns u (.next hx hu)) (fun u hu => hpos u (.next hx hu))
            (fun u v hu huv hv => hless u v (.next hx hu) huv (.next hx hv)) (by omega)

theorem exists_ok_of_loop_ends (hends : ∃ r, (loop round rounds s).result = .ok (some r))
    (hreached : Reached round s t) : ∃ x, (round t).result = .ok x := by
  induction hreached generalizing rounds with
  | here s =>
      obtain ⟨r, hr⟩ := hends
      cases rounds with
      | zero => cases hr
      | succ rounds =>
          rw [loop, result_bind_eq_ok_iff] at hr
          exact hr.imp fun x hx => hx.1
  | next hstep _ ih =>
      cases rounds with
      | zero =>
          obtain ⟨r, hr⟩ := hends
          cases hr
      | succ rounds =>
          rw [loop_of_next hstep] at hends
          exact ih hends

end Loops

end Logged

end Nxos
