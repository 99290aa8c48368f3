import Nxos.Ipc.Hub.Model
import Nxos.Support.Transition
import Mathlib.Data.List.Nodup
import Mathlib.Data.List.Pairwise

/-!
# The list of hubs

The embedding of `NX_HubRegister` and `NX_HubUnregister`.  Every thread has a
program counter; a search of the list and a section under `hubSystemLock` are one
step each.  Hubs are named by their address; memory of a hub that was freed can be
used for another one.

The state also keeps a record of the hubs that were taken off the list and of those
that were freed, by the number of their creation.  No step reads the record.
-/

namespace Nxos.Ipc

open Nxos.Transition

/-! ## Names -/

structure CString where
  bytes : List (BitVec 8)
  noZero : 0 ∉ bytes

/-- `NX_HUB_NAME_LEN`. -/
def hubNameLen : ℕ := 32

/-- `NX_StrCmpN`, with the number of bytes to compare first. -/
def strCmpN : ℕ → List (BitVec 8) → List (BitVec 8) → ℤ
  | 0, _, _ => 0
  | n + 1, s₁, s₂ =>
      let res := (s₁.headD 0).toInt - (s₂.headD 0).toInt
      if res ≠ 0 ∨ s₁.headD 0 = 0 then res else strCmpN n s₁.tail s₂.tail

theorem strCmpN_eq_zero_iff {n : ℕ} {s₁ s₂ : List (BitVec 8)} (h₁ : 0 ∉ s₁) (h₂ : 0 ∉ s₂) :
    strCmpN n s₁ s₂ = 0 ↔ s₁.take n = s₂.take n := by
  induction n generalizing s₁ s₂ with
  | zero => simp [strCmpN]
  | succ n ih =>
      cases s₁ with
      | nil =>
          cases s₂ with
          | nil => simp [strCmpN]
          | cons b s₂ =>
              have hb : (0 : BitVec 8) ≠ b := fun h => h₂ (h ▸ List.mem_cons_self ..)
              have hint : b.toInt ≠ 0 := by
                intro h
                exact hb (BitVec.eq_of_toInt_eq (h.symm ▸ BitVec.toInt_zero))
              simp [strCmpN, hint]
      | cons a s₁ =>
          have ha : a ≠ 0 := fun h => h₁ (h ▸ List.mem_cons_self ..)
          cases s₂ with
          | nil =>
              have hint : a.toInt ≠ 0 := by
                intro h
                exact ha (BitVec.eq_of_toInt_eq (h.trans BitVec.toInt_zero.symm))
              simp [strCmpN, hint]
          | cons b s₂ =>
              have hrest : strCmpN n s₁ s₂ = 0 ↔ s₁.take n = s₂.take n :=
                ih (fun h => h₁ (List.mem_cons_of_mem _ h))
                  (fun h => h₂ (List.mem_cons_of_mem _ h))
              by_cases hab : a = b
              · subst hab
                simp only [strCmpN, List.headD_cons, sub_self, ne_eq, not_true_eq_false, false_or,
                  if_neg ha, List.tail_cons, hrest, List.take_succ_cons, List.cons.injEq, true_and]
              · have hint : a.toInt - b.toInt ≠ 0 :=
                  fun h => hab (BitVec.eq_of_toInt_eq (by omega))
                simp [strCmpN, hint, hab]

/-- The bytes of a name that fit into `hub->name`; no comparison sees more of it. -/
def CString.stored (name : CString) : List (BitVec 8) :=
  name.bytes.take hubNameLen

/-! ## State -/

/-- `NX_Hub`, without its channels.  `serial` counts the hubs that were created. -/
structure HubRecord where
  name : CString
  maxClient : BitVec 64
  totalChannels : ℕ
  serial : ℕ

/-- Where a thread is in `NX_HubRegister` or `NX_HubUnregister`. -/
inductive RegistryPc where
  | out
  /-- `SearchHub` of a registration -/
  | search (name : CString) (maxClient : BitVec 64)
  /-- `CreateHub` -/
  | create (name : CString) (maxClient : BitVec 64)
  /-- `NX_ListAdd` -/
  | insert (hub : ℕ)
  /-- `self->resource.hub = hub` -/
  | record (hub : ℕ)
  /-- `SearchHub` of an unregistration -/
  | find (name : CString)
  /-- `self->resource.hub != hub` -/
  | owner (hub : ℕ)
  /-- `NX_AtomicGet(&hub->totalChannels) > 0` -/
  | total (hub : ℕ)
  /-- `self->resource.hub = NX_NULL` -/
  | clear (hub : ℕ)
  /-- `NX_ListDel` -/
  | remove (hub : ℕ)
  /-- `DestroyHub` -/
  | destroy (hub : ℕ)
  /-- A hub was used that is not there. -/
  | fault

/-- The hubs and the threads that register them. -/
structure RegistryState (ι : Type) where
  systemList : List ℕ
  hubs : ℕ → Option HubRecord
  created : ℕ
  resource : ι → Option ℕ
  pc : ι → RegistryPc
  removed : List ℕ
  freed : List ℕ

def registryInit {ι : Type} : RegistryState ι where
  systemList := []
  hubs := fun _ => none
  created := 0
  resource := fun _ => none
  pc := fun _ => .out
  removed := []
  freed := []

/-- `NX_HUB_CLIENTS_MAX`. -/
def hubClientsMax : BitVec 64 := -1

/-- `SearchHub`. -/
def searchHub {ι : Type} (σ : RegistryState ι) (name : CString) : Option ℕ :=
  σ.systemList.find? fun h =>
    match σ.hubs h with
    | some hub => strCmpN hubNameLen hub.name.bytes name.bytes = 0
    | none => false

/-! ## Steps -/

section Steps

variable {ι : Type} [DecidableEq ι]

/-- What happens next.  A thread that creates a hub is told where memory was found.  The
clients of a hub change the number of its channels at any time. -/
inductive RegistryAct (ι : Type) where
  | register (i : ι) (name : Option CString) (maxClient : BitVec 64)
  | unregister (i : ι) (name : Option CString)
  | thread (i : ι) (mem : Option ℕ)
  | channels (h : ℕ) (total : ℕ)

def RegistryState.goto (σ : RegistryState ι) (i : ι) (pc : RegistryPc) : RegistryState ι :=
  { σ with pc := Function.update σ.pc i pc }

/-- `CreateHub` with memory at `h`. -/
def createHub (σ : RegistryState ι) (h : ℕ) (name : CString) (maxClient : BitVec 64) :
    RegistryState ι :=
  { σ with
    hubs := Function.update σ.hubs h (some ⟨name, maxClient, 0, σ.created⟩)
    created := σ.created + 1 }

def threadStep (σ : RegistryState ι) (i : ι) (mem : Option ℕ) : Option (RegistryState ι) :=
  match σ.pc i with
  | .out => none
  | .search name maxClient =>
      match searchHub σ name with
      | some _ => some (σ.goto i .out)
      | none => some (σ.goto i (.create name maxClient))
  | .create name maxClient =>
      match mem with
      | none => some (σ.goto i .out)
      | some h =>
          if σ.hubs h = none then some ((createHub σ h name maxClient).goto i (.insert h))
          else none
  | .insert h => some ({ σ with systemList := h :: σ.systemList }.goto i (.record h))
  | .record h =>
      some ({ σ with resource := Function.update σ.resource i (some h) }.goto i .out)
  | .find name =>
      match searchHub σ name with
      | none => some (σ.goto i .out)
      | some h => some (σ.goto i (.owner h))
  | .owner h =>
      if σ.resource i ≠ some h then some (σ.goto i .out)
      else some (σ.goto i (.total h))
  | .total h =>
      match σ.hubs h with
      | none => some (σ.goto i .fault)
      | some hub =>
          if 0 < hub.totalChannels then some (σ.goto i .out)
          else some (σ.goto i (.clear h))
  | .clear h =>
      some ({ σ with resource := Function.update σ.resource i none }.goto i (.remove h))
  | .remove h =>
      match σ.hubs h with
      | none => some (σ.goto i .fault)
      | some hub =>
          if h ∈ σ.systemList then
            some ({ σ with
              systemList := σ.systemList.erase h
              removed := hub.serial :: σ.removed }.goto i (.destroy h))
          else some (σ.goto i .fault)
  | .destroy h =>
      match σ.hubs h with
      | none => some (σ.goto i .fault)
      | some hub =>
          some ({ σ with
            hubs := Function.update σ.hubs h none
            freed := hub.serial :: σ.freed }.goto i .out)
  | .fault => none

def registryStep (σ : RegistryState ι) : RegistryAct ι → Option (RegistryState ι)
  | .register i name maxClient =>
      match σ.pc i, name with
      | .out, some name =>
          some (σ.goto i (.search name (if maxClient = 0 then hubClientsMax else maxClient)))
      | .out, none => some σ
      | _, _ => none
  | .unregister i name =>
      match σ.pc i, name with
      | .out, some name => some (σ.goto i (.find name))
      | .out, none => some σ
      | _, _ => none
  | .thread i mem => threadStep σ i mem
  | .channels h total =>
      (σ.hubs h).map fun hub =>
        { σ with hubs := Function.update σ.hubs h (some { hub with totalChannels := total }) }

/-! ## What a step does -/

/-- The thread is at a place where it works on no hub. -/
def RegistryPc.Away : RegistryPc → Prop
  | .out => True
  | .search _ _ => True
  | .create _ _ => True
  | .find _ => True
  | .owner _ => True
  | _ => False

def RegistryPc.Reads : RegistryPc → Prop
  | .total _ => True
  | pc => pc.Away

inductive RegistryEffect (σ : RegistryState ι) : RegistryAct ι → RegistryState ι → Prop
  | none {a : RegistryAct ι} : RegistryEffect σ a σ
  /-- The thread goes on without a hub. -/
  | away {a : RegistryAct ι} (i : ι) (pc : RegistryPc) (hi : (σ.pc i).Reads) (hpc : pc.Away)
      (hcreate : ∀ name maxClient, pc ≠ .create name maxClient) :
      RegistryEffect σ a (σ.goto i pc)
  /-- The name was not found on the list. -/
  | searched {i : ι} {mem : Option ℕ} {name : CString} {maxClient : BitVec 64}
      (hi : σ.pc i = .search name maxClient) (hnone : searchHub σ name = .none) :
      RegistryEffect σ (.thread i mem) (σ.goto i (.create name maxClient))
  /-- The thread found the hub that it registered. -/
  | found {a : RegistryAct ι} {i : ι} {h : ℕ} (pc : RegistryPc) (hi : (σ.pc i).Reads)
      (hres : σ.resource i = some h) (hpc : pc = .total h ∨ pc = .clear h) :
      RegistryEffect σ a (σ.goto i pc)
  | create {a : RegistryAct ι} {i : ι} {h : ℕ} {name : CString} {maxClient : BitVec 64}
      (hi : σ.pc i = .create name maxClient) (hmem : σ.hubs h = .none) :
      RegistryEffect σ a ((createHub σ h name maxClient).goto i (.insert h))
  | insert {a : RegistryAct ι} {i : ι} {h : ℕ} (hi : σ.pc i = .insert h) :
      RegistryEffect σ a ({ σ with systemList := h :: σ.systemList }.goto i (.record h))
  | record {a : RegistryAct ι} {i : ι} {h : ℕ} (hi : σ.pc i = .record h) :
      RegistryEffect σ a
        ({ σ with resource := Function.update σ.resource i (some h) }.goto i .out)
  | clear {a : RegistryAct ι} {i : ι} {h : ℕ} (hi : σ.pc i = .clear h) :
      RegistryEffect σ a
        ({ σ with resource := Function.update σ.resource i .none }.goto i (.remove h))
  | remove {a : RegistryAct ι} {i : ι} {h : ℕ} {hub : HubRecord} (hi : σ.pc i = .remove h)
      (hhub : σ.hubs h = some hub) :
      RegistryEffect σ a ({ σ with
        systemList := σ.systemList.erase h
        removed := hub.serial :: σ.removed }.goto i (.destroy h))
  | destroy {a : RegistryAct ι} {i : ι} {h : ℕ} {hub : HubRecord} (hi : σ.pc i = .destroy h)
      (hhub : σ.hubs h = some hub) :
      RegistryEffect σ a ({ σ with
        hubs := Function.update σ.hubs h .none
        freed := hub.serial :: σ.freed }.goto i .out)
  | channels {a : RegistryAct ι} {h : ℕ} {hub : HubRecord} (hhub : σ.hubs h = some hub)
      (total : ℕ) :
      RegistryEffect σ a
        { σ with hubs := Function.update σ.hubs h (some { hub with totalChannels := total }) }

/-! ## Owners -/

/-- The thread works on the hub, or it is the one that registered it. -/
def Owns (σ : RegistryState ι) (i : ι) (h : ℕ) : Prop :=
  σ.pc i = .insert h ∨ σ.pc i = .record h ∨ σ.pc i = .remove h ∨ σ.pc i = .destroy h ∨
    σ.resource i = some h

/-- Hubs on the list and hubs with an owner are there, and no hub has two owners. -/
structure OwnInv (σ : RegistryState ι) : Prop where
  nodup : σ.systemList.Nodup
  live : ∀ h ∈ σ.systemList, σ.hubs h ≠ none
  owned : ∀ i h, Owns σ i h → σ.hubs h ≠ none
  unique : ∀ i j h, Owns σ i h → Owns σ j h → i = j
  unlisted : ∀ i h, σ.pc i = .insert h ∨ σ.pc i = .destroy h → h ∉ σ.systemList
  listed : ∀ i h, σ.pc i = .record h ∨ σ.pc i = .remove h ∨ σ.resource i = some h →
    h ∈ σ.systemList
  mine : ∀ i h, σ.pc i = .total h ∨ σ.pc i = .clear h → σ.resource i = some h
  cleared : ∀ i h, σ.pc i = .remove h → σ.resource i ≠ some h
  noFault : ∀ i, σ.pc i ≠ .fault

omit [DecidableEq ι] in
theorem ownInv_init : OwnInv (registryInit : RegistryState ι) := by
  constructor <;> simp [registryInit, Owns]

/-- Whatever the threads do, a step has one of the effects and no hub is used that is
not there. -/
theorem OwnInv.registryStep_effect {σ τ : RegistryState ι} (hinv : OwnInv σ) {a : RegistryAct ι}
    (hstep : registryStep σ a = some τ) : RegistryEffect σ a τ := by
  cases a with
  | register i name maxClient =>
      simp only [registryStep] at hstep
      split at hstep
      next name hi =>
        cases hstep
        exact .away i _ (by rw [hi]; trivial) trivial nofun
      next => cases hstep; exact .none
      next => cases hstep
  | unregister i name =>
      simp only [registryStep] at hstep
      split at hstep
      next name hi =>
        cases hstep
        exact .away i _ (by rw [hi]; trivial) trivial nofun
      next => cases hstep; exact .none
      next => cases hstep
  | channels h total =>
      obtain ⟨hub, hhub, rfl⟩ := Option.map_eq_some_iff.mp hstep
      exact .channels hhub total
  | thread i mem =>
      simp only [registryStep, threadStep] at hstep
      cases hi : σ.pc i with
      | out => simp [hi] at hstep
      | search name maxClient =>
          simp only [hi] at hstep
          split at hstep
          next => cases hstep; exact .away i _ (by rw [hi]; trivial) trivial nofun
          next hnone => cases hstep; exact .searched hi hnone
      | create name maxClient =>
          simp only [hi] at hstep
          cases mem with
          | none =>
              cases hstep
              exact .away i _ (by rw [hi]; trivial) trivial nofun
          | some h =>
              dsimp only at hstep
              split_ifs at hstep with hmem
              cases hstep
              exact .create hi hmem
      | insert h =>
          simp only [hi] at hstep
          cases hstep
          exact .insert hi
      | record h =>
          simp only [hi] at hstep
          cases hstep
          exact .record hi
      | find name =>
          simp only [hi] at hstep
          split at hstep <;> cases hstep <;>
            exact .away i _ (by rw [hi]; trivial) trivial nofun
      | owner h =>
          simp only [hi] at hstep
          split_ifs at hstep with hres
          · cases hstep
            exact .away i _ (by rw [hi]; trivial) trivial nofun
          · cases hstep
            exact .found _ (by rw [hi]; trivial) (not_not.mp hres) (Or.inl rfl)
      | total h =>
          have hres := hinv.mine i h (Or.inl hi)
          simp only [hi] at hstep
          split at hstep
          next hnone => exact absurd hnone (hinv.owned i h (by simp [Owns, hres]))
          next hub hhub =>
            split_ifs at hstep
            · cases hstep
              exact .away i _ (by rw [hi]; trivial) trivial nofun
            · cases hstep
              exact .found _ (by rw [hi]; trivial) hres (Or.inr rfl)
      | clear h =>
          simp only [hi] at hstep
          cases hstep
          exact .clear hi
      | remove h =>
          simp only [hi] at hstep
          split at hstep
          next hnone => exact absurd hnone (hinv.owned i h (by simp [Owns, hi]))
          next hub hhub =>
            rw [if_pos (hinv.listed i h (Or.inr (Or.inl hi)))] at hstep
            cases hstep
            exact .remove hi hhub
      | destroy h =>
          simp only [hi] at hstep
          split at hstep
          next hnone => exact absurd hnone (hinv.owned i h (by simp [Owns, hi]))
          next hub hhub =>
            cases hstep
            exact .destroy hi hhub
      | fault => simp [hi] at hstep

/-- What a thread owns is there, and it is on the list when it has to be. -/
structure OwnerInv (σ : RegistryState ι) (i : ι) : Prop where
  owned : ∀ h, Owns σ i h → σ.hubs h ≠ none
  unlisted : ∀ h, σ.pc i = .insert h ∨ σ.pc i = .destroy h → h ∉ σ.systemList
  listed : ∀ h, σ.pc i = .record h ∨ σ.pc i = .remove h ∨ σ.resource i = some h →
    h ∈ σ.systemList
  mine : ∀ h, σ.pc i = .total h ∨ σ.pc i = .clear h → σ.resource i = some h
  cleared : ∀ h, σ.pc i = .remove h → σ.resource i ≠ some h
  noFault : σ.pc i ≠ .fault

omit [DecidableEq ι] in
theorem OwnInv.owner {σ : RegistryState ι} (hinv : OwnInv σ) (i : ι) : OwnerInv σ i where
  owned := hinv.owned i
  unlisted := hinv.unlisted i
  listed := hinv.listed i
  mine := hinv.mine i
  cleared := hinv.cleared i
  noFault := hinv.noFault i

omit [DecidableEq ι] in
/-- A thread that changes only hubs of its own, and takes only hubs that nobody had, leaves the
others what they own. -/
theorem OwnInv.of_owner {σ τ : RegistryState ι} (hinv : OwnInv σ) {i : ι}
    (hpc : ∀ j, j ≠ i → τ.pc j = σ.pc j) (hres : ∀ j, j ≠ i → τ.resource j = σ.resource j)
    (hkept : ∀ h, σ.hubs h ≠ none → ¬Owns σ i h →
      τ.hubs h ≠ none ∧ (h ∈ τ.systemList ↔ h ∈ σ.systemList))
    (hnew : ∀ h, σ.hubs h ≠ none → Owns τ i h → Owns σ i h)
    (hnodup : τ.systemList.Nodup) (hlive : ∀ h ∈ τ.systemList, τ.hubs h ≠ none)
    (hmine : OwnerInv τ i) : OwnInv τ := by
  have howns : ∀ {j h}, j ≠ i → Owns τ j h → Owns σ j h := by
    intro j h hj hown
    rwa [Owns, hpc j hj, hres j hj] at hown
  have hother : ∀ {j h}, j ≠ i → Owns σ j h →
      τ.hubs h ≠ none ∧ (h ∈ τ.systemList ↔ h ∈ σ.systemList) := fun {j h} hj hown =>
    hkept h (hinv.owned j h hown) fun hi => hj (hinv.unique j i h hown hi)
  have howner : ∀ j, OwnerInv τ j := by
    intro j
    by_cases hj : j = i
    · rw [hj]
      exact hmine
    · have hσ := hinv.owner j
      constructor
      · exact fun h hown => (hother hj (howns hj hown)).1
      · intro h hat
        rw [hpc j hj] at hat
        rw [(hother hj (hat.elim (.inl) fun hat => .inr (.inr (.inr (.inl hat))))).2]
        exact hσ.unlisted h hat
      · intro h hat
        rw [hpc j hj, hres j hj] at hat
        rw [(hother hj (.inr (hat.imp_right fun hat => hat.imp_right .inr))).2]
        exact hσ.listed h hat
      · rw [hpc j hj, hres j hj]
        exact hσ.mine
      · rw [hpc j hj, hres j hj]
        exact hσ.cleared
      · rw [hpc j hj]
        exact hσ.noFault
  have hunique : ∀ j k h, j ≠ i → Owns τ j h → Owns τ k h → j = k := by
    intro j k h hj hown hown'
    refine hinv.unique j k h (howns hj hown) ?_
    by_cases hk : k = i
    · subst hk
      exact hnew h (hinv.owned j h (howns hj hown)) hown'
    · exact howns hk hown'
  refine ⟨hnodup, hlive, fun j => (howner j).owned, ?_, fun j => (howner j).unlisted,
    fun j => (howner j).listed, fun j => (howner j).mine, fun j => (howner j).cleared,
    fun j => (howner j).noFault⟩
  intro j k h hown hown'
  by_cases hj : j = i
  · by_cases hk : k = i
    · rw [hj, hk]
    · exact (hunique k j h hk hown' hown).symm
  · exact hunique j k h hj hown hown'

theorem OwnInv.goto {σ : RegistryState ι} (hinv : OwnInv σ) (i : ι) {pc : RegistryPc}
    (hbusy : ∀ h, pc ≠ .insert h ∧ pc ≠ .record h ∧ pc ≠ .remove h ∧ pc ≠ .destroy h)
    (hmine : ∀ h, pc = .total h ∨ pc = .clear h → σ.resource i = some h) (hfault : pc ≠ .fault) :
    OwnInv (σ.goto i pc) := by
  have hpc : (σ.goto i pc).pc i = pc := Function.update_self ..
  have hown : ∀ h, Owns (σ.goto i pc) i h → σ.resource i = some h := by
    intro h hown
    obtain ⟨hinsert, hrecord, hremove, hdestroy⟩ := hbusy h
    have hres : (σ.goto i pc).resource i = some h := by
      simpa only [Owns, hpc, hinsert, hrecord, hremove, hdestroy, false_or] using hown
    exact hres
  refine hinv.of_owner (fun j hj => Function.update_of_ne hj ..) (fun _ _ => rfl)
    (fun _ hh _ => ⟨hh, Iff.rfl⟩) (fun h _ hi => .inr (.inr (.inr (.inr (hown h hi)))))
    hinv.nodup hinv.live ?_
  constructor
  · exact fun h hi => hinv.owned i h (.inr (.inr (.inr (.inr (hown h hi)))))
  · intro h hat
    rw [hpc] at hat
    exact absurd hat (not_or.mpr ⟨(hbusy h).1, (hbusy h).2.2.2⟩)
  · intro h hat
    rw [hpc] at hat
    rcases hat with hrecord | hremove | hres
    · exact absurd hrecord (hbusy h).2.1
    · exact absurd hremove (hbusy h).2.2.1
    · exact hinv.listed i h (.inr (.inr hres))
  · rw [hpc]
    exact hmine
  · intro h hat
    rw [hpc] at hat
    exact absurd hat (hbusy h).2.2.1
  · rw [hpc]
    exact hfault

theorem OwnInv.create {σ : RegistryState ι} (hinv : OwnInv σ) {i : ι} {h : ℕ} {name : CString}
    {maxClient : BitVec 64} (hmem : σ.hubs h = none) :
    OwnInv ((createHub σ h name maxClient).goto i (.insert h)) := by
  have hpc : ((createHub σ h name maxClient).goto i (.insert h)).pc i = .insert h :=
    Function.update_self ..
  have hlive : ∀ {g}, σ.hubs g ≠ none →
      ((createHub σ h name maxClient).goto i (.insert h)).hubs g ≠ none := by
    intro g hg
    have hgh : g ≠ h := fun heq => hg (heq ▸ hmem)
    simpa only [createHub, RegistryState.goto, Function.update_of_ne hgh] using hg
  have hown : ∀ {g}, Owns ((createHub σ h name maxClient).goto i (.insert h)) i g →
      g = h ∨ σ.resource i = some g := by
    intro g hown
    simpa [Owns, hpc, createHub, RegistryState.goto, eq_comm] using hown
  refine hinv.of_owner (i := i) (fun j hj => Function.update_of_ne hj ..) (fun _ _ => rfl)
    (fun _ hg _ => ⟨hlive hg, Iff.rfl⟩) ?_ hinv.nodup (fun g hg => hlive (hinv.live g hg)) ?_
  · intro g hg hi
    rcases hown hi with rfl | hres
    · exact absurd hmem hg
    · exact .inr (.inr (.inr (.inr hres)))
  constructor
  · intro g hi
    rcases hown hi with rfl | hres
    · simp [createHub, RegistryState.goto]
    · exact hlive (hinv.owned i g (.inr (.inr (.inr (.inr hres)))))
  · intro g hat
    have hgh : h = g := by simpa [hpc] using hat
    subst hgh
    exact fun hlist => hinv.live h hlist hmem
  · intro g hat
    have hres : σ.resource i = some g := by
      simpa [hpc, createHub, RegistryState.goto] using hat
    exact hinv.listed i g (.inr (.inr hres))
  · simp [hpc]
  · simp [hpc]
  · simp [hpc]

theorem OwnInv.insert {σ : RegistryState ι} (hinv : OwnInv σ) {i : ι} {h : ℕ}
    (hi : σ.pc i = .insert h) :
    OwnInv ({ σ with systemList := h :: σ.systemList }.goto i (.record h)) := by
  have hmine : Owns σ i h := .inl hi
  have hpc : ({ σ with systemList := h :: σ.systemList }.goto i (.record h)).pc i = .record h :=
    Function.update_self ..
  have hown : ∀ g, Owns ({ σ with systemList := h :: σ.systemList }.goto i (.record h)) i g →
      Owns σ i g := by
    intro g hown
    have hat : h = g ∨ σ.resource i = some g := by
      simpa [Owns, hpc, RegistryState.goto] using hown
    rcases hat with rfl | hres
    · exact hmine
    · exact .inr (.inr (.inr (.inr hres)))
  refine hinv.of_owner (i := i) (fun j hj => Function.update_of_ne hj ..) (fun _ _ => rfl)
    ?_ (fun g _ => hown g) (List.nodup_cons.mpr ⟨hinv.unlisted i h (.inl hi), hinv.nodup⟩) ?_ ?_
  · intro g hg hother
    have hgh : g ≠ h := fun heq => hother (heq ▸ hmine)
    exact ⟨hg, by simp [RegistryState.goto, hgh]⟩
  · intro g hg
    rcases List.mem_cons.mp hg with rfl | hg
    · exact hinv.owned i g hmine
    · exact hinv.live g hg
  constructor
  · exact fun g hi => hinv.owned i g (hown g hi)
  · simp [hpc]
  · intro g hat
    have hat : h = g ∨ σ.resource i = some g := by
      simpa [hpc, RegistryState.goto] using hat
    rcases hat with rfl | hres
    · exact List.mem_cons_self
    · exact List.mem_cons_of_mem _ (hinv.listed i g (.inr (.inr hres)))
  · simp [hpc]
  · simp [hpc]
  · simp [hpc]

theorem OwnInv.record {σ : RegistryState ι} (hinv : OwnInv σ) {i : ι} {h : ℕ}
    (hi : σ.pc i = .record h) :
    OwnInv ({ σ with resource := Function.update σ.resource i (some h) }.goto i .out) := by
  have hmine : Owns σ i h := .inr (.inl hi)
  have hpc : ({ σ with resource := Function.update σ.resource i (some h) }.goto i .out).pc i =
      .out := Function.update_self ..
  have hown : ∀ g, Owns ({ σ with resource := Function.update σ.resource i (some h) }.goto i .out)
      i g → h = g := by
    intro g hown
    simpa [Owns, hpc, RegistryState.goto] using hown
  refine hinv.of_owner (i := i) (fun j hj => Function.update_of_ne hj ..)
    (fun j hj => Function.update_of_ne hj ..) (fun _ hg _ => ⟨hg, Iff.rfl⟩)
    (fun g _ hi => hown g hi ▸ hmine) hinv.nodup hinv.live ?_
  constructor
  · exact fun g hi => hown g hi ▸ hinv.owned i h hmine
  · simp [hpc]
  · intro g hat
    have hgh : h = g := by simpa [hpc, RegistryState.goto] using hat
    exact hgh ▸ hinv.listed i h (.inl hi)
  · simp [hpc]
  · simp [hpc]
  · simp [hpc]

theorem OwnInv.clear {σ : RegistryState ι} (hinv : OwnInv σ) {i : ι} {h : ℕ}
    (hi : σ.pc i = .clear h) :
    OwnInv ({ σ with resource := Function.update σ.resource i none }.goto i (.remove h)) := by
  have hres : σ.resource i = some h := hinv.mine i h (.inr hi)
  have hmine : Owns σ i h := .inr (.inr (.inr (.inr hres)))
  have hpc : ({ σ with resource := Function.update σ.resource i none }.goto i (.remove h)).pc i =
      .remove h := Function.update_self ..
  have hown : ∀ g, Owns ({ σ with resource := Function.update σ.resource i none }.goto i
      (.remove h)) i g → h = g := by
    intro g hown
    simpa [Owns, hpc, RegistryState.goto] using hown
  refine hinv.of_owner (i := i) (fun j hj => Function.update_of_ne hj ..)
    (fun j hj => Function.update_of_ne hj ..) (fun _ hg _ => ⟨hg, Iff.rfl⟩)
    (fun g _ hi => hown g hi ▸ hmine) hinv.nodup hinv.live ?_
  constructor
  · exact fun g hi => hown g hi ▸ hinv.owned i h hmine
  · simp [hpc]
  · intro g hat
    have hgh : h = g := by simpa [hpc, RegistryState.goto] using hat
    exact hgh ▸ hinv.listed i h (.inr (.inr hres))
  · simp [hpc]
  · simp [RegistryState.goto]
  · simp [hpc]

theorem OwnInv.remove {σ : RegistryState ι} (hinv : OwnInv σ) {i : ι} {h : ℕ} (removed : List ℕ)
    (hi : σ.pc i = .remove h) :
    OwnInv ({ σ with
      systemList := σ.systemList.erase h
      removed := removed }.goto i (.destroy h)) := by
  have hmem : ∀ {g}, g ∈ σ.systemList.erase h ↔ g ≠ h ∧ g ∈ σ.systemList :=
    hinv.nodup.mem_erase_iff
  have hmine : Owns σ i h := .inr (.inr (.inl hi))
  have hpc : ({ σ with
      systemList := σ.systemList.erase h
      removed := removed }.goto i (.destroy h)).pc i = .destroy h := Function.update_self ..
  have hown : ∀ g, Owns ({ σ with
      systemList := σ.systemList.erase h
      removed := removed }.goto i (.destroy h)) i g → Owns σ i g := by
    intro g hown
    have hat : h = g ∨ σ.resource i = some g := by
      simpa [Owns, hpc, RegistryState.goto] using hown
    rcases hat with rfl | hres
    · exact hmine
    · exact .inr (.inr (.inr (.inr hres)))
  refine hinv.of_owner (i := i) (fun j hj => Function.update_of_ne hj ..) (fun _ _ => rfl)
    ?_ (fun g _ => hown g) (hinv.nodup.erase h) (fun g hg => hinv.live g (hmem.mp hg).2) ?_
  · intro g hg hother
    have hgh : g ≠ h := fun heq => hother (heq ▸ hmine)
    exact ⟨hg, hmem.trans (and_iff_right hgh)⟩
  constructor
  · exact fun g hi => hinv.owned i g (hown g hi)
  · intro g hat
    have hgh : h = g := by simpa [hpc] using hat
    exact fun hlist => (hmem.mp hlist).1 hgh.symm
  · intro g hat
    have hres : σ.resource i = some g := by simpa [hpc, RegistryState.goto] using hat
    refine hmem.mpr ⟨?_, hinv.listed i g (.inr (.inr hres))⟩
    rintro rfl
    exact hinv.cleared i g hi hres
  · simp [hpc]
  · simp [hpc]
  · simp [hpc]

theorem OwnInv.destroy {σ : RegistryState ι} (hinv : OwnInv σ) {i : ι} {h : ℕ} (freed : List ℕ)
    (hi : σ.pc i = .destroy h) :
    OwnInv ({ σ with
      hubs := Function.update σ.hubs h none
      freed := freed }.goto i .out) := by
  have hmine : Owns σ i h := .inr (.inr (.inr (.inl hi)))
  have hoff : h ∉ σ.systemList := hinv.unlisted i h (.inr hi)
  have hpc : ({ σ with
      hubs := Function.update σ.hubs h none
      freed := freed }.goto i .out).pc i = .out := Function.update_self ..
  have hlive : ∀ {g}, g ≠ h → σ.hubs g ≠ none → Function.update σ.hubs h none g ≠ none :=
    fun hgh hg => by rwa [Function.update_of_ne hgh]
  have hres : ∀ g, Owns ({ σ with
      hubs := Function.update σ.hubs h none
      freed := freed }.goto i .out) i g → σ.resource i = some g := by
    intro g hown
    simpa [Owns, hpc, RegistryState.goto] using hown
  have hlisted : ∀ {g}, g ∈ σ.systemList → g ≠ h := fun hg heq => hoff (heq ▸ hg)
  refine hinv.of_owner (i := i) (fun j hj => Function.update_of_ne hj ..) (fun _ _ => rfl)
    ?_ (fun g _ hi => .inr (.inr (.inr (.inr (hres g hi))))) hinv.nodup
    (fun g hg => hlive (hlisted hg) (hinv.live g hg)) ?_
  · intro g hg hother
    have hgh : g ≠ h := fun heq => hother (heq ▸ hmine)
    exact ⟨hlive hgh hg, Iff.rfl⟩
  constructor
  · intro g hi
    have hg : g ∈ σ.systemList := hinv.listed i g (.inr (.inr (hres g hi)))
    exact hlive (hlisted hg) (hinv.live g hg)
  · simp [hpc]
  · intro g hat
    have hres : σ.resource i = some g := by simpa [hpc, RegistryState.goto] using hat
    exact hinv.listed i g (.inr (.inr hres))
  · simp [hpc]
  · simp [hpc]
  · simp [hpc]

theorem OwnInv.step {σ τ : RegistryState ι} (hinv : OwnInv σ) {a : RegistryAct ι}
    (hstep : registryStep σ a = some τ) : OwnInv τ := by
  cases hinv.registryStep_effect hstep with
  | none => exact hinv
  | away i pc hi hpc =>
      refine hinv.goto i (fun h => ⟨?_, ?_, ?_, ?_⟩) ?_ ?_
      · rintro rfl; exact hpc
      · rintro rfl; exact hpc
      · rintro rfl; exact hpc
      · rintro rfl; exact hpc
      · rintro h (rfl | rfl) <;> exact hpc.elim
      · rintro rfl; exact hpc
  | searched hi hnone =>
      exact hinv.goto _ (fun h => ⟨nofun, nofun, nofun, nofun⟩) (fun h hat => by simp at hat) nofun
  | @found a i h pc hi hres hpc =>
      refine hinv.goto i ?_ ?_ ?_
      · rcases hpc with rfl | rfl <;> exact fun h => ⟨nofun, nofun, nofun, nofun⟩
      · rcases hpc with rfl | rfl <;> simpa using hres
      · rcases hpc with rfl | rfl <;> exact nofun
  | create hi hmem => exact hinv.create hmem
  | insert hi => exact hinv.insert hi
  | record hi => exact hinv.record hi
  | clear hi => exact hinv.clear hi
  | remove hi hhub => exact hinv.remove _ hi
  | destroy hi hhub => exact hinv.destroy _ hi
  | @channels a d hub hhub total =>
      have hlive : ∀ {g}, σ.hubs g ≠ none →
          Function.update σ.hubs d (some { hub with totalChannels := total }) g ≠ none := by
        intro g hg
        by_cases hgd : g = d
        · simp [hgd]
        · rwa [Function.update_of_ne hgd]
      exact ⟨hinv.nodup, fun g hg => hlive (hinv.live g hg),
        fun i g hown => hlive (hinv.owned i g hown), hinv.unique, hinv.unlisted, hinv.listed,
        hinv.mine, hinv.cleared, hinv.noFault⟩

/-! ## The record of removals -/

/-- Hubs that are there were not freed, and only those were taken off the list that are
about to be freed. -/
structure RemovalInv (σ : RegistryState ι) : Prop where
  fresh : ∀ h hub, σ.hubs h = some hub → hub.serial < σ.created
  distinct : ∀ h g hub hub', σ.hubs h = some hub → σ.hubs g = some hub' →
    hub.serial = hub'.serial → h = g
  past : ∀ s, s ∈ σ.removed ∨ s ∈ σ.freed → s < σ.created
  notFreed : ∀ h hub, σ.hubs h = some hub → hub.serial ∉ σ.freed
  notRemoved : ∀ h hub, σ.hubs h = some hub → hub.serial ∈ σ.removed → ∃ i, σ.pc i = .destroy h
  removed_nodup : σ.removed.Nodup
  freed_nodup : σ.freed.Nodup

omit [DecidableEq ι] in
theorem removalInv_init : RemovalInv (registryInit : RegistryState ι) := by
  constructor <;> simp [registryInit]

omit [DecidableEq ι] in
/-- A step that creates and frees no hub, and keeps the threads that are about to free one. -/
theorem RemovalInv.of_kept {σ τ : RegistryState ι} (h : RemovalInv σ) (hhubs : τ.hubs = σ.hubs)
    (hcreated : τ.created = σ.created) (hremoved : τ.removed = σ.removed)
    (hfreed : τ.freed = σ.freed) (hpc : ∀ i d, σ.pc i = .destroy d → τ.pc i = .destroy d) :
    RemovalInv τ where
  fresh := by rw [hhubs, hcreated]; exact h.fresh
  distinct := by rw [hhubs]; exact h.distinct
  past := by rw [hremoved, hfreed, hcreated]; exact h.past
  notFreed := by rw [hhubs, hfreed]; exact h.notFreed
  notRemoved := by
    rw [hhubs, hremoved]
    intro d hub hhub hmem
    obtain ⟨i, hi⟩ := h.notRemoved d hub hhub hmem
    exact ⟨i, hpc i d hi⟩
  removed_nodup := by rw [hremoved]; exact h.removed_nodup
  freed_nodup := by rw [hfreed]; exact h.freed_nodup

theorem destroy_of_goto {σ : RegistryState ι} {i : ι} (pc : RegistryPc)
    (hi : ∀ d, σ.pc i ≠ .destroy d) (j : ι) (d : ℕ) (hj : σ.pc j = .destroy d) :
    Function.update σ.pc i pc j = .destroy d := by
  have hji : j ≠ i := by
    rintro rfl
    exact hi d hj
  rw [Function.update_of_ne hji, hj]

omit [DecidableEq ι] in
theorem RegistryPc.Reads.ne_destroy {pc : RegistryPc} (h : pc.Reads) (d : ℕ) :
    pc ≠ .destroy d := by
  rintro rfl
  exact h

theorem RemovalInv.create {σ : RegistryState ι} (h : RemovalInv σ) {i : ι} {d : ℕ}
    {name : CString} {maxClient : BitVec 64} (hi : σ.pc i = .create name maxClient) :
    RemovalInv ((createHub σ d name maxClient).goto i (.insert d)) := by
  have hhub : ∀ {g hub}, ((createHub σ d name maxClient).goto i (.insert d)).hubs g = some hub →
      g = d ∧ hub.serial = σ.created ∨ σ.hubs g = some hub := by
    intro g hub hg
    by_cases hgd : g = d
    · subst hgd
      simp only [createHub, RegistryState.goto, Function.update_self, Option.some.injEq] at hg
      exact .inl ⟨rfl, hg ▸ rfl⟩
    · simp only [createHub, RegistryState.goto, Function.update_of_ne hgd] at hg
      exact .inr hg
  have hpast : ∀ {n}, n ∈ σ.removed ∨ n ∈ σ.freed → n ≠ σ.created := fun hn =>
    Nat.ne_of_lt (h.past _ hn)
  have hi' : ∀ g, σ.pc i ≠ .destroy g := by simp [hi]
  constructor
  · intro g hub hg
    rcases hhub hg with ⟨-, hserial⟩ | hg
    · exact hserial ▸ Nat.lt_succ_self _
    · exact Nat.lt_succ_of_lt (h.fresh g hub hg)
  · intro g k x y hg hk heq
    rcases hhub hg with ⟨hgd, hx⟩ | hold
    · rcases hhub hk with ⟨hkd, -⟩ | hold'
      · rw [hgd, hkd]
      · exact absurd (heq.symm.trans hx) (Nat.ne_of_lt (h.fresh k y hold'))
    · rcases hhub hk with ⟨-, hy⟩ | hold'
      · exact absurd (heq.trans hy) (Nat.ne_of_lt (h.fresh g x hold))
      · exact h.distinct g k x y hold hold' heq
  · exact fun n hn => Nat.lt_succ_of_lt (h.past n hn)
  · intro g hub hg hmem
    rcases hhub hg with ⟨-, hserial⟩ | hg
    · exact hpast (.inr hmem) hserial
    · exact h.notFreed g hub hg hmem
  · intro g hub hg hmem
    rcases hhub hg with ⟨-, hserial⟩ | hg
    · exact absurd hserial (hpast (.inl hmem))
    · obtain ⟨j, hj⟩ := h.notRemoved g hub hg hmem
      exact ⟨j, destroy_of_goto (σ := σ) _ hi' j g hj⟩
  · exact h.removed_nodup
  · exact h.freed_nodup

theorem RemovalInv.remove {σ : RegistryState ι} (h : RemovalInv σ) (hinv : OwnInv σ) {i : ι}
    {d : ℕ} {hub : HubRecord} (hi : σ.pc i = .remove d) (hhub : σ.hubs d = some hub) :
    RemovalInv ({ σ with
      systemList := σ.systemList.erase d
      removed := hub.serial :: σ.removed }.goto i (.destroy d)) := by
  have hother : hub.serial ∉ σ.removed := by
    -- another thread would be about to free the hub
    intro hmem
    obtain ⟨j, hj⟩ := h.notRemoved d hub hhub hmem
    have hji := hinv.unique j i d (by simp [Owns, hj]) (by simp [Owns, hi])
    rw [hji, hi] at hj
    cases hj
  refine ⟨h.fresh, h.distinct, ?_, h.notFreed, ?_, List.nodup_cons.mpr ⟨hother, h.removed_nodup⟩,
    h.freed_nodup⟩
  · rintro n (hn | hn)
    · rcases List.mem_cons.mp hn with rfl | hn
      · exact h.fresh d hub hhub
      · exact h.past n (.inl hn)
    · exact h.past n (.inr hn)
  · intro g x hx hmem
    rcases List.mem_cons.mp hmem with heq | hmem
    · cases h.distinct g d x hub hx hhub heq
      exact ⟨i, Function.update_self ..⟩
    · obtain ⟨j, hj⟩ := h.notRemoved g x hx hmem
      exact ⟨j, destroy_of_goto _ (by simp [hi]) j g hj⟩

theorem RemovalInv.destroy {σ : RegistryState ι} (h : RemovalInv σ) {i : ι} {d : ℕ}
    {hub : HubRecord} (hi : σ.pc i = .destroy d) (hhub : σ.hubs d = some hub) :
    RemovalInv ({ σ with
      hubs := Function.update σ.hubs d none
      freed := hub.serial :: σ.freed }.goto i .out) := by
  have hkept : ∀ {g x}, Function.update σ.hubs d none g = some x → g ≠ d ∧ σ.hubs g = some x := by
    intro g x hx
    have hgd : g ≠ d := by
      rintro rfl
      simp at hx
    rw [Function.update_of_ne hgd] at hx
    exact ⟨hgd, hx⟩
  refine ⟨fun g x hx => h.fresh g x (hkept hx).2,
    fun g k x y hx hy => h.distinct g k x y (hkept hx).2 (hkept hy).2, ?_, ?_, ?_,
    h.removed_nodup, List.nodup_cons.mpr ⟨h.notFreed d hub hhub, h.freed_nodup⟩⟩
  · rintro n (hn | hn)
    · exact h.past n (.inl hn)
    · rcases List.mem_cons.mp hn with rfl | hn
      · exact h.fresh d hub hhub
      · exact h.past n (.inr hn)
  · intro g x hx hmem
    obtain ⟨hgd, hx⟩ := hkept hx
    rcases List.mem_cons.mp hmem with heq | hmem
    · exact hgd (h.distinct g d x hub hx hhub heq)
    · exact h.notFreed g x hx hmem
  · intro g x hx hmem
    obtain ⟨hgd, hx⟩ := hkept hx
    obtain ⟨j, hj⟩ := h.notRemoved g x hx hmem
    have hji : j ≠ i := by
      rintro rfl
      rw [hi, RegistryPc.destroy.injEq] at hj
      exact hgd hj.symm
    exact ⟨j, (Function.update_of_ne hji ..).trans hj⟩

omit [DecidableEq ι] in
theorem exists_hub_of_channels {σ : RegistryState ι} {d g : ℕ} {hub x : HubRecord} {total : ℕ}
    (hhub : σ.hubs d = some hub)
    (hx : Function.update σ.hubs d (some { hub with totalChannels := total }) g = some x) :
    ∃ y, σ.hubs g = some y ∧ y.name = x.name ∧ y.serial = x.serial := by
  by_cases hgd : g = d
  · subst hgd
    rw [Function.update_self] at hx
    cases hx
    exact ⟨hub, hhub, rfl, rfl⟩
  · rw [Function.update_of_ne hgd] at hx
    exact ⟨x, hx, rfl, rfl⟩

theorem RemovalInv.step {σ τ : RegistryState ι} (h : RemovalInv σ) (hinv : OwnInv σ)
    {a : RegistryAct ι} (hstep : registryStep σ a = some τ) : RemovalInv τ := by
  cases hinv.registryStep_effect hstep with
  | none => exact h
  | away i pc hi => exact h.of_kept rfl rfl rfl rfl (destroy_of_goto _ hi.ne_destroy)
  | searched hi => exact h.of_kept rfl rfl rfl rfl (destroy_of_goto _ (by simp [hi]))
  | found pc hi => exact h.of_kept rfl rfl rfl rfl (destroy_of_goto _ hi.ne_destroy)
  | create hi => exact h.create hi
  | insert hi => exact h.of_kept rfl rfl rfl rfl (destroy_of_goto _ (by simp [hi]))
  | record hi => exact h.of_kept rfl rfl rfl rfl (destroy_of_goto _ (by simp [hi]))
  | clear hi => exact h.of_kept rfl rfl rfl rfl (destroy_of_goto _ (by simp [hi]))
  | remove hi hhub => exact h.remove hinv hi hhub
  | destroy hi hhub => exact h.destroy hi hhub
  | @channels a d hub hhub total =>
      have hserial : ∀ {g x}, Function.update σ.hubs d (some { hub with totalChannels := total }) g =
          some x → ∃ y, σ.hubs g = some y ∧ y.serial = x.serial := by
        intro g x hx
        obtain ⟨y, hy, -, hserial⟩ := exists_hub_of_channels hhub hx
        exact ⟨y, hy, hserial⟩
      refine ⟨?_, ?_, h.past, ?_, ?_, h.removed_nodup, h.freed_nodup⟩
      · intro g x hx
        obtain ⟨y, hy, heq⟩ := hserial hx
        exact heq ▸ h.fresh g y hy
      · intro g k x x' hx hx' heq
        obtain ⟨y, hy, hyx⟩ := hserial hx
        obtain ⟨y', hy', hyx'⟩ := hserial hx'
        exact h.distinct g k y y' hy hy' (by rw [hyx, hyx', heq])
      · intro g x hx
        obtain ⟨y, hy, heq⟩ := hserial hx
        exact heq ▸ h.notFreed g y hy
      · intro g x hx
        obtain ⟨y, hy, heq⟩ := hserial hx
        exact heq ▸ h.notRemoved g y hy

/-! ## Names on the list -/

/-- The thread is between its search and its insertion, with a name that is stored as
`nm`. -/
def Registering (σ : RegistryState ι) (i : ι) (nm : List (BitVec 8)) : Prop :=
  (∃ name maxClient, σ.pc i = .create name maxClient ∧ name.stored = nm) ∨
    ∃ h hub, σ.pc i = .insert h ∧ σ.hubs h = some hub ∧ hub.name.stored = nm

/-- A registration that finds its name free is not in the way of another one. -/
def RegistryAct.Alone (σ : RegistryState ι) : RegistryAct ι → Prop
  | .thread i _ => ∀ name maxClient, σ.pc i = .search name maxClient →
      searchHub σ name = none → ∀ j, ¬Registering σ j name.stored
  | _ => True

structure NameInv (σ : RegistryState ι) : Prop where
  names : ∀ h g hub hub', h ∈ σ.systemList → g ∈ σ.systemList → σ.hubs h = some hub →
    σ.hubs g = some hub' → hub.name.stored = hub'.name.stored → h = g
  fresh : ∀ i nm h hub, Registering σ i nm → h ∈ σ.systemList → σ.hubs h = some hub →
    hub.name.stored ≠ nm
  alone : ∀ i j nm, Registering σ i nm → Registering σ j nm → i = j

omit [DecidableEq ι] in
theorem nameInv_init : NameInv (registryInit : RegistryState ι) := by
  constructor <;> simp [registryInit, Registering]

omit [DecidableEq ι] in
theorem searchHub_eq_none {σ : RegistryState ι} {name : CString} (h : searchHub σ name = none) :
    ∀ d hub, d ∈ σ.systemList → σ.hubs d = some hub → hub.name.stored ≠ name.stored := by
  intro d hub hd hhub heq
  have hne := List.find?_eq_none.mp h d hd
  simp only [hhub, decide_eq_true_eq] at hne
  exact hne ((strCmpN_eq_zero_iff hub.name.noZero name.noZero).mpr heq)

omit [DecidableEq ι] in
theorem NameInv.back {σ τ : RegistryState ι} (h : NameInv σ)
    (hlist : ∀ d ∈ τ.systemList, d ∈ σ.systemList)
    (hhubs : ∀ d ∈ τ.systemList, ∀ hub, τ.hubs d = some hub →
      ∃ hub', σ.hubs d = some hub' ∧ hub'.name.stored = hub.name.stored)
    (hreg : ∀ j nm, Registering τ j nm → Registering σ j nm) : NameInv τ where
  names := by
    intro d g hub hub' hd hg hhub hhub' heq
    obtain ⟨x, hx, hxname⟩ := hhubs d hd hub hhub
    obtain ⟨y, hy, hyname⟩ := hhubs g hg hub' hhub'
    exact h.names d g x y (hlist d hd) (hlist g hg) hx hy (by rw [hxname, hyname, heq])
  fresh := by
    intro i nm d hub hi hd hhub
    obtain ⟨x, hx, hxname⟩ := hhubs d hd hub hhub
    rw [← hxname]
    exact h.fresh i nm d x (hreg i nm hi) (hlist d hd) hx
  alone := fun i j nm hi hj => h.alone i j nm (hreg i nm hi) (hreg j nm hj)

theorem Registering.of_goto {σ : RegistryState ι} {i j : ι} {pc : RegistryPc}
    {nm : List (BitVec 8)} (h : Registering (σ.goto i pc) j nm)
    (hcreate : ∀ name maxClient, pc ≠ .create name maxClient) (hinsert : ∀ d, pc ≠ .insert d) :
    Registering σ j nm ∧ j ≠ i := by
  have hj : j ≠ i := by
    rintro rfl
    rcases h with ⟨name, maxClient, hpc, -⟩ | ⟨d, hub, hpc, -⟩
    · exact hcreate name maxClient (by simpa [RegistryState.goto] using hpc)
    · exact hinsert d (by simpa [RegistryState.goto] using hpc)
  refine ⟨?_, hj⟩
  simpa [Registering, RegistryState.goto, hj] using h

theorem NameInv.searched {σ : RegistryState ι} (h : NameInv σ) {i : ι} {name : CString}
    {maxClient : BitVec 64} (hnone : searchHub σ name = none)
    (halone : ∀ j, ¬Registering σ j name.stored) :
    NameInv (σ.goto i (.create name maxClient)) := by
  have hreg : ∀ j nm, Registering (σ.goto i (.create name maxClient)) j nm →
      (j = i ∧ nm = name.stored) ∨ Registering σ j nm := by
    intro j nm hj
    by_cases hji : j = i
    · subst hji
      simp only [Registering, RegistryState.goto, Function.update_self, RegistryPc.create.injEq,
        reduceCtorEq, false_and, exists_false, or_false] at hj
      obtain ⟨_, _, ⟨rfl, -⟩, rfl⟩ := hj
      exact Or.inl ⟨rfl, rfl⟩
    · exact Or.inr (by simpa [Registering, RegistryState.goto, hji] using hj)
  refine ⟨h.names, ?_, ?_⟩
  · intro j nm d hub hj hd hhub
    rcases hreg j nm hj with ⟨-, rfl⟩ | hj
    · exact searchHub_eq_none hnone d hub hd hhub
    · exact h.fresh j nm d hub hj hd hhub
  · intro j k nm hj hk
    rcases hreg j nm hj with ⟨rfl, rfl⟩ | hj
    · rcases hreg k _ hk with ⟨rfl, -⟩ | hk
      · rfl
      · exact absurd hk (halone k)
    · rcases hreg k nm hk with ⟨-, rfl⟩ | hk
      · exact absurd hj (halone j)
      · exact h.alone j k nm hj hk

theorem Registering.of_create {σ : RegistryState ι} (hinv : OwnInv σ) {i j : ι} {d : ℕ}
    {name : CString} {maxClient : BitVec 64} {nm : List (BitVec 8)}
    (hi : σ.pc i = .create name maxClient) (hmem : σ.hubs d = none)
    (h : Registering ((createHub σ d name maxClient).goto i (.insert d)) j nm) :
    Registering σ j nm := by
  by_cases hji : j = i
  · subst hji
    rcases h with ⟨name', maxClient', hpc, -⟩ | ⟨g, hub, hpc, hhub, hname⟩
    · simp [RegistryState.goto] at hpc
    · simp only [RegistryState.goto, Function.update_self, RegistryPc.insert.injEq] at hpc
      subst hpc
      simp only [createHub, RegistryState.goto, Function.update_self, Option.some.injEq] at hhub
      subst hhub
      exact Or.inl ⟨name, maxClient, hi, hname⟩
  · rcases h with ⟨name', maxClient', hpc, hname⟩ | ⟨g, hub, hpc, hhub, hname⟩
    · simp only [RegistryState.goto, Function.update_of_ne hji] at hpc
      exact Or.inl ⟨name', maxClient', hpc, hname⟩
    · simp only [RegistryState.goto, Function.update_of_ne hji] at hpc
      have hpc : σ.pc j = .insert g := hpc
      have hgd : g ≠ d := by
        rintro rfl
        exact hinv.owned j g (Or.inl hpc) hmem
      simp only [createHub, RegistryState.goto, Function.update_of_ne hgd] at hhub
      exact Or.inr ⟨g, hub, hpc, hhub, hname⟩

theorem NameInv.insert {σ : RegistryState ι} (h : NameInv σ) (hinv : OwnInv σ) {i : ι} {d : ℕ}
    (hi : σ.pc i = .insert d) :
    NameInv ({ σ with systemList := d :: σ.systemList }.goto i (.record d)) := by
  obtain ⟨x, hx⟩ := Option.ne_none_iff_exists'.mp (hinv.owned i d (Or.inl hi))
  have hmine : Registering σ i x.name.stored := Or.inr ⟨d, x, hi, hx, rfl⟩
  have hreg : ∀ j nm, Registering ({ σ with systemList := d :: σ.systemList }.goto i (.record d))
      j nm → Registering σ j nm ∧ j ≠ i := fun j nm hj => hj.of_goto nofun nofun
  constructor
  · intro g k y z hg hk hy hz heq
    rcases List.mem_cons.mp hg with rfl | hold
    · rcases List.mem_cons.mp hk with rfl | hold'
      · rfl
      · cases hx.symm.trans hy
        exact absurd heq.symm (h.fresh i _ k z hmine hold' hz)
    · rcases List.mem_cons.mp hk with rfl | hold'
      · cases hx.symm.trans hz
        exact absurd heq (h.fresh i _ g y hmine hold hy)
      · exact h.names g k y z hold hold' hy hz heq
  · intro j nm g y hj hg hy
    obtain ⟨hother, hne⟩ := hreg j nm hj
    rcases List.mem_cons.mp hg with rfl | hold
    · cases hx.symm.trans hy
      rintro rfl
      exact hne (h.alone j i _ hother hmine)
    · exact h.fresh j nm g y hother hold hy
  · exact fun j k nm hj hk => h.alone j k nm (hreg j nm hj).1 (hreg k nm hk).1

/-- As long as registrations of one name do not overlap, names stay different. -/
theorem NameInv.step {σ τ : RegistryState ι} (h : NameInv σ) (hinv : OwnInv σ)
    {a : RegistryAct ι} (hstep : registryStep σ a = some τ) (halone : a.Alone σ) :
    NameInv τ := by
  cases hinv.registryStep_effect hstep with
  | none => exact h
  | away i pc hi hpc hcreate =>
      refine h.back (fun _ hd => hd) (fun _ _ hub hhub => ⟨hub, hhub, rfl⟩) ?_
      intro j nm hj
      refine (hj.of_goto hcreate ?_).1
      rintro d rfl
      exact hpc
  | searched hi hnone => exact h.searched hnone (halone _ _ hi hnone)
  | found pc hi hres hpc =>
      refine h.back (fun _ hd => hd) (fun _ _ hub hhub => ⟨hub, hhub, rfl⟩) ?_
      intro j nm hj
      rcases hpc with rfl | rfl
      · exact (hj.of_goto nofun nofun).1
      · exact (hj.of_goto nofun nofun).1
  | @create a i d name maxClient hi hmem =>
      refine h.back (fun _ hd => hd) ?_ (fun j nm hj => hj.of_create hinv hi hmem)
      intro g hg hub hhub
      have hgd : g ≠ d := by
        rintro rfl
        exact hinv.live g hg hmem
      simp only [createHub, RegistryState.goto, Function.update_of_ne hgd] at hhub
      exact ⟨hub, hhub, rfl⟩
  | insert hi => exact h.insert hinv hi
  | record hi =>
      exact h.back (fun _ hd => hd) (fun _ _ hub hhub => ⟨hub, hhub, rfl⟩)
        (fun j nm hj => (hj.of_goto nofun nofun).1)
  | clear hi =>
      exact h.back (fun _ hd => hd) (fun _ _ hub hhub => ⟨hub, hhub, rfl⟩)
        (fun j nm hj => (hj.of_goto nofun nofun).1)
  | remove hi hhub =>
      exact h.back (fun _ hd => List.mem_of_mem_erase hd) (fun _ _ hub hhub => ⟨hub, hhub, rfl⟩)
        (fun j nm hj => (hj.of_goto nofun nofun).1)
  | @destroy a i d hub hi hhub =>
      have hback : ∀ g x, Function.update σ.hubs d none g = some x → σ.hubs g = some x := by
        intro g x hx
        have hgd : g ≠ d := by
          rintro rfl
          simp at hx
        rwa [Function.update_of_ne hgd] at hx
      refine h.back (fun _ hd => hd) (fun g _ x hx => ⟨x, hback g x hx, rfl⟩) ?_
      intro j nm hj
      rcases (hj.of_goto nofun nofun).1 with hj | ⟨g, x, hpc, hx, hname⟩
      · exact Or.inl hj
      · exact Or.inr ⟨g, x, hpc, hback g x hx, hname⟩
  | @channels a d hub hhub total =>
      have hback : ∀ g x, Function.update σ.hubs d (some { hub with totalChannels := total }) g =
          some x → ∃ y, σ.hubs g = some y ∧ y.name.stored = x.name.stored := by
        intro g x hx
        obtain ⟨y, hy, hname, -⟩ := exists_hub_of_channels hhub hx
        exact ⟨y, hy, congrArg CString.stored hname⟩
      refine h.back (fun _ hd => hd) (fun g _ x hx => hback g x hx) ?_
      intro j nm hj
      rcases hj with hj | ⟨g, x, hpc, hx, hname⟩
      · exact Or.inl hj
      · obtain ⟨y, hy, hyname⟩ := hback g x hx
        exact Or.inr ⟨g, y, hpc, hy, hyname.trans hname⟩

/-! ## Registrations that overlap -/

def RegistryState.Room (σ : RegistryState ι) : Prop :=
  ∃ b, ∀ h, b ≤ h → σ.hubs h = none

theorem OwnInv.room_step {σ τ : RegistryState ι} (hinv : OwnInv σ) (hroom : σ.Room)
    {a : RegistryAct ι} (hstep : registryStep σ a = some τ) : τ.Room := by
  obtain ⟨b, hb⟩ := hroom
  have hupdate : ∀ d hub, ∀ g, max b (d + 1) ≤ g → Function.update σ.hubs d hub g = none := by
    intro d hub g hg
    rw [Function.update_of_ne (by omega)]
    exact hb g (by omega)
  cases hinv.registryStep_effect hstep with
  | none => exact ⟨b, hb⟩
  | away i pc hi hpc hcreate => exact ⟨b, hb⟩
  | searched hi hnone => exact ⟨b, hb⟩
  | found pc hi hres hpc => exact ⟨b, hb⟩
  | create hi hmem => exact ⟨_, hupdate _ _⟩
  | insert hi => exact ⟨b, hb⟩
  | record hi => exact ⟨b, hb⟩
  | clear hi => exact ⟨b, hb⟩
  | remove hi hhub => exact ⟨b, hb⟩
  | destroy hi hhub => exact ⟨_, hupdate _ _⟩
  | channels hhub total => exact ⟨_, hupdate _ _⟩

/-- A thread that registers a name puts a hub with that name on the list, and nothing
else changes. -/
structure Inserted (σ τ : RegistryState ι) (i : ι) (nm : List (BitVec 8)) : Prop where
  reach : Reachable (fun σ a τ => registryStep σ a = some τ) σ τ
  own : OwnInv τ
  room : τ.Room
  pc : ∀ j, j ≠ i → τ.pc j = σ.pc j
  kept : ∀ h ∈ σ.systemList, h ∈ τ.systemList ∧ τ.hubs h = σ.hubs h
  added : ∃ h hub, h ∉ σ.systemList ∧ h ∈ τ.systemList ∧ τ.hubs h = some hub ∧
    hub.name.stored = nm

theorem exists_inserted {σ : RegistryState ι} (hinv : OwnInv σ) (hroom : σ.Room) {i : ι}
    {nm : List (BitVec 8)} (hi : Registering σ i nm) : ∃ τ, Inserted σ τ i nm := by
  have hinsert : ∀ {σ : RegistryState ι} {d hub}, OwnInv σ → σ.Room → σ.pc i = .insert d →
      σ.hubs d = some hub → hub.name.stored = nm → ∃ τ, Inserted σ τ i nm := by
    intro σ d hub hinv hroom hi hhub hname
    have hstep : registryStep σ (.thread i none) =
        some ({ σ with systemList := d :: σ.systemList }.goto i (.record d)) := by
      simp [registryStep, threadStep, hi]
    refine ⟨_, .tail .refl hstep, hinv.step hstep, hinv.room_step hroom hstep, ?_, ?_, ?_⟩
    · exact fun j hj => Function.update_of_ne hj ..
    · exact fun h hh => ⟨List.mem_cons_of_mem _ hh, rfl⟩
    · exact ⟨d, hub, hinv.unlisted i d (Or.inl hi), List.mem_cons_self .., hhub, hname⟩
  rcases hi with ⟨name, maxClient, hpc, hname⟩ | ⟨d, hub, hpc, hhub, hname⟩
  · obtain ⟨d, hd⟩ := hroom
    have hmem := hd d (Nat.le_refl d)
    have hstep : registryStep σ (.thread i (some d)) =
        some ((createHub σ d name maxClient).goto i (.insert d)) := by
      simp [registryStep, threadStep, hpc, hmem]
    have hhub : ((createHub σ d name maxClient).goto i (.insert d)).hubs d =
        some ⟨name, maxClient, 0, σ.created⟩ := Function.update_self ..
    obtain ⟨τ, hτ⟩ := hinsert (hinv.step hstep) (hinv.room_step ⟨d, hd⟩ hstep)
      (Function.update_self ..) hhub hname
    refine ⟨τ, hτ.reach.trans (.tail .refl hstep), hτ.own, hτ.room, ?_, ?_, hτ.added⟩
    · exact fun j hj => (hτ.pc j hj).trans (Function.update_of_ne hj ..)
    · intro h hh
      have hne : h ≠ d := by
        rintro rfl
        exact hinv.live h hh hmem
      obtain ⟨hlist, hhub⟩ := hτ.kept h hh
      exact ⟨hlist, hhub.trans (Function.update_of_ne hne ..)⟩
  · exact hinsert hinv hroom hpc hhub hname

/-- No two hubs on the list have the same name. -/
def NamesDistinct (σ : RegistryState ι) : Prop :=
  σ.systemList.Pairwise fun h g => ∀ hub hub', σ.hubs h = some hub → σ.hubs g = some hub' →
    hub.name.stored ≠ hub'.name.stored

omit [DecidableEq ι] in
theorem NameInv.namesDistinct {σ : RegistryState ι} (h : NameInv σ) (hinv : OwnInv σ) :
    NamesDistinct σ := by
  refine List.Pairwise.imp_of_mem ?_ hinv.nodup
  intro d g hd hg hne hub hub' hhub hhub' heq
  exact hne (h.names d g hub hub' hd hg hhub hhub' heq)

/-- Two threads that register one name put two hubs with that name on the list. -/
theorem exists_duplicate {σ : RegistryState ι} (hinv : OwnInv σ) (hroom : σ.Room) {i j : ι}
    (hij : i ≠ j) {name : CString} {maxClient : BitVec 64} (hi : σ.pc i = .create name maxClient)
    (hj : Registering σ j name.stored) :
    ∃ ρ, Reachable (fun σ a τ => registryStep σ a = some τ) σ ρ ∧ ¬NamesDistinct ρ := by
  obtain ⟨τ, hτ⟩ := exists_inserted hinv hroom hj
  obtain ⟨h, x, -, hlist, hx, hxname⟩ := hτ.added
  have hi' : Registering τ i name.stored :=
    Or.inl ⟨name, maxClient, (hτ.pc i hij).trans hi, rfl⟩
  obtain ⟨ρ, hρ⟩ := exists_inserted hτ.own hτ.room hi'
  obtain ⟨g, y, hnew, hlist', hy, hyname⟩ := hρ.added
  obtain ⟨hkept, hhub⟩ := hρ.kept h hlist
  refine ⟨ρ, hρ.reach.trans hτ.reach, ?_⟩
  intro hdistinct
  have hne : h ≠ g := by
    rintro rfl
    exact hnew hlist
  have hsymm : Std.Symm fun h g => ∀ hub hub', ρ.hubs h = some hub → ρ.hubs g = some hub' →
      hub.name.stored ≠ hub'.name.stored :=
    ⟨fun _ _ hdiff hub hub' hhub hhub' => (hdiff hub' hub hhub' hhub).symm⟩
  exact hdistinct.forall hkept hlist' hne x y (hhub.trans hx) hy (hxname.trans hyname.symm)

/-! ## Whole runs -/

/-- Every hub was taken off the list at most once and freed at most once, and no hub was
used that is not there. -/
structure FreedOnce (σ : RegistryState ι) : Prop where
  removed : σ.removed.Nodup
  freed : σ.freed.Nodup
  noFault : ∀ i, σ.pc i ≠ .fault

end Steps

def hubName : CString := ⟨[104], by decide⟩

def registerRun : List (RegistryAct Unit) :=
  [.register () (some hubName) 4, .thread () none, .thread () (some 0), .thread () none,
    .thread () none, .unregister () (some hubName)] ++ List.replicate 6 (.thread () none)

theorem RegistryAct.alone_of_subsingleton {ι : Type} [Subsingleton ι] (σ : RegistryState ι)
    (a : RegistryAct ι) : a.Alone σ := by
  cases a with
  | register => trivial
  | unregister => trivial
  | channels => trivial
  | thread i mem =>
      intro name maxClient hi _ j hj
      rw [Subsingleton.elim j i] at hj
      rcases hj with ⟨_, _, hpc, -⟩ | ⟨_, _, hpc, -⟩ <;> simp [hi] at hpc

def twinRun : List (RegistryAct Bool) :=
  [.register false (some hubName) 4, .register true (some hubName) 4, .thread false none,
    .thread true none, .thread false (some 0), .thread true (some 1), .thread false none,
    .thread true none]

end Nxos.Ipc
