import Nxos.Slots.Objects

/-!
# Ownership of the objects in slots

An object that a create call allocated lies in one slot until it is freed.  The destroy calls,
the close calls and the exit keep this as long as slot `0` does not get in the way: the
handler that they call is the one of slot `0`.
-/

namespace Nxos.Slots

open Nxos.Sched Nxos.Transition

variable {cores : ℕ} {p p' : Process} {objects : ℕ → ExposedObject SoltCloseHandler}
  {count allocated i o : ℕ} {freed : List ℕ}

/-! ## The condition -/

def ExposedObject.Shared {η : Type} (exobj : ExposedObject η) : Prop :=
  exobj.type = .semaphore ∨ exobj.type = .mutex

instance {η : Type} (exobj : ExposedObject η) : Decidable exobj.Shared :=
  inferInstanceAs (Decidable (_ ∨ _))

/-- The object in a slot is a semaphore or a mutex, and its state allows to free it. -/
def Unused (m : ObjectMemory) (exobj : ExposedObject SoltCloseHandler) : Prop :=
  exobj.Shared ∧ objectState m exobj.object exobj.type = .eok

instance (m : ObjectMemory) (exobj : ExposedObject SoltCloseHandler) :
    Decidable (Unused m exobj) :=
  inferInstanceAs (Decidable (_ ∧ _))

def Process.Installed (p : Process) (P : ℕ → ExposedObject SoltCloseHandler → Prop) : Prop :=
  ∀ i < p.slots.table.objectCount, ∀ exobj ∈ p.slots.table.installed i, P i exobj

instance (p : Process) (P : ℕ → ExposedObject SoltCloseHandler → Prop)
    [∀ i exobj, Decidable (P i exobj)] : Decidable (p.Installed P) :=
  inferInstanceAs (Decidable (∀ i < _, ∀ exobj ∈ _, P i exobj))

/-- Slot `0` does not get in the way.  When a destroy call would free an object, slot `0`
holds no unused semaphore or mutex.  A close call is for slot `0` if this holds one, and is
not for a semaphore or a mutex while slot `0` holds the thread.  At the exit no slot but slot
`0` holds a semaphore or a mutex, and that one is unused. -/
def FirstSlotSafe (p : Process) : SlotOp → Prop
  | .semaphoreDestroy solt =>
      p.Installed fun i exobj => i = soltIndex solt → exobj.type = .semaphore →
        Unused p.memory exobj → p.Installed fun j first => j = 0 → ¬Unused p.memory first
  | .mutexDestroy solt =>
      p.Installed fun i exobj => i = soltIndex solt → exobj.type = .mutex →
        Unused p.memory exobj → p.Installed fun j first => j = 0 → ¬Unused p.memory first
  | .close solt =>
      p.Installed fun j first => j = 0 →
        (Unused p.memory first → soltIndex solt < p.slots.table.objectCount →
          soltIndex solt = 0) ∧
        (first.type = .thread → p.Installed fun i exobj => i = soltIndex solt → ¬exobj.Shared)
  | .exit => p.Installed fun i exobj => exobj.Shared → i = 0 ∧ Unused p.memory exobj
  | _ => True

/-! ## Entries -/

/-- The entries of the table: the thread in slot `0` or nowhere, and each object that is not
freed in one slot. -/
structure Entries (objects : ℕ → ExposedObject SoltCloseHandler) (count allocated : ℕ)
    (freed : List ℕ) : Prop where
  kind : ∀ i < count, objects i = .cleared ∨ i = 0 ∧ objects i = ⟨mainThread, .thread, none⟩ ∨
    (objects i = ⟨(objects i).object, .semaphore, some .semaphore⟩ ∨
      objects i = ⟨(objects i).object, .mutex, some .mutex⟩) ∧
      mainThread < (objects i).object ∧ (objects i).object ≤ allocated
  single : ∀ i < count, ∀ j < count, (objects i).object = (objects j).object →
    (objects i).object ≠ 0 → i = j
  kept : ∀ o, mainThread < o → o ≤ allocated →
    (o ∈ freed ↔ ∀ i < count, (objects i).object ≠ o)
  nodup : freed.Nodup
  range : ∀ o ∈ freed, mainThread < o ∧ o ≤ allocated
  launched : mainThread ≤ allocated

namespace Entries

theorem ne_zero_of_shared (h : Entries objects count allocated freed) (hi : i < count)
    (hshared : (objects i).Shared) : mainThread < (objects i).object ∧
      (objects i).object ≤ allocated := by
  rcases h.kind i hi with hcleared | ⟨-, hthread⟩ | ⟨-, hrange⟩
  · rw [hcleared] at hshared
    rcases hshared with hno | hno <;> cases hno
  · rw [hthread] at hshared
    rcases hshared with hno | hno <;> cases hno
  · exact hrange

theorem cleared_kind (h : Entries objects count allocated freed) {j : ℕ} (hj : j < count) :
    (Function.update objects i .cleared) j = .cleared ∨
      j = 0 ∧ (Function.update objects i .cleared) j = ⟨mainThread, .thread, none⟩ ∨
      ((Function.update objects i .cleared) j =
          ⟨((Function.update objects i .cleared) j).object, .semaphore, some .semaphore⟩ ∨
        (Function.update objects i .cleared) j =
          ⟨((Function.update objects i .cleared) j).object, .mutex, some .mutex⟩) ∧
        mainThread < ((Function.update objects i .cleared) j).object ∧
        ((Function.update objects i .cleared) j).object ≤ allocated := by
  by_cases hji : j = i
  · rw [hji]
    exact .inl (Function.update_self ..)
  · rw [Function.update_of_ne hji]
    exact h.kind j hj

theorem cleared_single (h : Entries objects count allocated freed) {j k : ℕ} (hj : j < count)
    (hk : k < count)
    (heq : ((Function.update objects i .cleared) j).object =
      ((Function.update objects i .cleared) k).object)
    (hzero : ((Function.update objects i .cleared) j).object ≠ 0) : j = k := by
  have hji : j ≠ i := by
    rintro rfl
    rw [Function.update_self] at hzero
    exact hzero rfl
  have hki : k ≠ i := by
    rintro rfl
    rw [heq, Function.update_self] at hzero
    exact hzero rfl
  rw [Function.update_of_ne hji] at heq hzero
  rw [Function.update_of_ne hki] at heq
  exact h.single j hj k hk heq hzero

theorem clear_other (h : Entries objects count allocated freed) (hi : i < count)
    (hother : ¬(objects i).Shared) :
    Entries (Function.update objects i .cleared) count allocated freed := by
  have hlow : (objects i).object ≤ mainThread := by
    rcases h.kind i hi with hcleared | ⟨-, hthread⟩ | ⟨hshared, -⟩
    · rw [hcleared]
      exact Nat.zero_le _
    · rw [hthread]
    · rcases hshared with heq | heq
      · exact absurd (.inl (by rw [heq])) hother
      · exact absurd (.inr (by rw [heq])) hother
  have hself : (Function.update objects i .cleared) i = .cleared := Function.update_self ..
  have hne : ∀ {j}, j ≠ i → (Function.update objects i .cleared) j = objects j :=
    fun hj => Function.update_of_ne hj ..
  refine ⟨fun j hj => h.cleared_kind hj, fun j hj k hk => h.cleared_single hj hk,
    fun o hlow' hhigh => ?_, h.nodup, h.range, h.launched⟩
  · rw [h.kept o hlow' hhigh]
    refine forall₂_congr fun j hj => ?_
    by_cases hji : j = i
    · subst hji
      rw [hself]
      refine iff_of_true ?_ ?_
      · omega
      · have hpos : mainThread = 1 := rfl
        show (0 : ℕ) ≠ o
        omega
    · rw [hne hji]

theorem clear_shared (h : Entries objects count allocated freed) (hi : i < count)
    (hshared : (objects i).Shared) :
    Entries (Function.update objects i .cleared) count allocated
      (freed ++ [(objects i).object]) := by
  obtain ⟨hlow, hhigh⟩ := h.ne_zero_of_shared hi hshared
  have hpos : (objects i).object ≠ 0 := by omega
  have hself : (Function.update objects i .cleared) i = .cleared := Function.update_self ..
  have hne : ∀ {j}, j ≠ i → (Function.update objects i .cleared) j = objects j :=
    fun hj => Function.update_of_ne hj ..
  have hnot : (objects i).object ∉ freed := by
    rw [h.kept _ hlow hhigh]
    exact fun hno => hno i hi rfl
  refine ⟨fun j hj => h.cleared_kind hj, fun j hj k hk => h.cleared_single hj hk,
    fun o hlow' hhigh' => ?_, ?_, fun o ho => ?_, h.launched⟩
  · rw [List.mem_append, List.mem_singleton, h.kept o hlow' hhigh']
    constructor
    · rintro (hnone | rfl) j hj
      · by_cases hji : j = i
        · rw [hji, hself]
          show (0 : ℕ) ≠ o
          omega
        · rw [hne hji]
          exact hnone j hj
      · by_cases hji : j = i
        · rw [hji, hself]
          exact Ne.symm hpos
        · rw [hne hji]
          exact fun heq => hji (h.single j hj i hi heq (heq ▸ hpos))
    · intro hnone
      by_cases ho : o = (objects i).object
      · exact .inr ho
      · refine .inl fun j hj => ?_
        by_cases hji : j = i
        · rw [hji]
          exact Ne.symm ho
        · rw [← hne hji]
          exact hnone j hj
  · exact h.nodup.append (List.nodup_singleton _) (List.disjoint_singleton.mpr hnot)
  · rcases List.mem_append.mp ho with ho | ho
    · exact h.range o ho
    · obtain rfl := List.mem_singleton.mp ho
      exact ⟨hlow, hhigh⟩

theorem bound (h : Entries objects count allocated freed) (hi : i < count) :
    (objects i).object ≤ allocated := by
  rcases h.kind i hi with hcleared | ⟨-, hthread⟩ | ⟨-, -, hhigh⟩
  · rw [hcleared]
    exact Nat.zero_le _
  · rw [hthread]
    exact h.launched
  · exact hhigh

theorem kind_succ (h : Entries objects count allocated freed) (hi : i < count) :
    objects i = .cleared ∨ i = 0 ∧ objects i = ⟨mainThread, .thread, none⟩ ∨
      (objects i = ⟨(objects i).object, .semaphore, some .semaphore⟩ ∨
        objects i = ⟨(objects i).object, .mutex, some .mutex⟩) ∧
        mainThread < (objects i).object ∧ (objects i).object ≤ allocated + 1 := by
  rcases h.kind i hi with hcleared | hthread | ⟨hshared, hlow, hhigh⟩
  · exact .inl hcleared
  · exact .inr (.inl hthread)
  · exact .inr (.inr ⟨hshared, hlow, Nat.le_succ_of_le hhigh⟩)

theorem install (h : Entries objects count allocated freed) (hi : i < count)
    (hempty : (objects i).object = 0) {exobj : ExposedObject SoltCloseHandler}
    (hexobj : exobj = ⟨allocated + 1, .semaphore, some .semaphore⟩ ∨
      exobj = ⟨allocated + 1, .mutex, some .mutex⟩) :
    Entries (Function.update objects i exobj) count (allocated + 1) freed := by
  have hobject : exobj.object = allocated + 1 := by
    rcases hexobj with rfl | rfl <;> rfl
  have hself : (Function.update objects i exobj) i = exobj := Function.update_self ..
  have hne : ∀ {j}, j ≠ i → (Function.update objects i exobj) j = objects j :=
    fun hj => Function.update_of_ne hj ..
  refine ⟨fun j hj => ?_, fun j hj k hk heq hzero => ?_, fun o hlow hhigh => ?_, h.nodup,
    fun o ho => ?_, Nat.le_succ_of_le h.launched⟩
  · by_cases hji : j = i
    · rw [hji, hself, hobject]
      exact .inr (.inr ⟨hexobj, Nat.lt_succ_of_le h.launched, Nat.le_refl _⟩)
    · rw [hne hji]
      exact h.kind_succ hj
  · by_cases hji : j = i <;> by_cases hki : k = i
    · rw [hji, hki]
    · rw [hji, hself, hne hki, hobject] at heq
      have hle := h.bound hk
      omega
    · rw [hki, hself, hne hji, hobject] at heq
      have hle := h.bound hj
      omega
    · rw [hne hji] at heq hzero
      rw [hne hki] at heq
      exact h.single j hj k hk heq hzero
  · rcases Nat.lt_or_eq_of_le hhigh with hlt | rfl
    · rw [h.kept o hlow (Nat.le_of_lt_succ hlt)]
      refine forall₂_congr fun j hj => ?_
      by_cases hji : j = i
      · subst hji
        rw [hself, hobject, hempty]
        have hpos : mainThread = 1 := rfl
        exact iff_of_true (by omega) (by omega)
      · rw [hne hji]
    · refine iff_of_false (fun hno => ?_) fun hno => ?_
      · exact absurd (h.range _ hno).2 (Nat.not_succ_le_self allocated)
      · exact hno i hi (by rw [hself, hobject])
  · obtain ⟨hlow, hhigh⟩ := h.range o ho
    exact ⟨hlow, Nat.le_succ_of_le hhigh⟩

theorem discard (h : Entries objects count allocated freed) :
    Entries objects count (allocated + 1) (freed ++ [allocated + 1]) := by
  have hnot : allocated + 1 ∉ freed := fun hno =>
    absurd (h.range _ hno).2 (Nat.not_succ_le_self allocated)
  refine ⟨fun j hj => h.kind_succ hj, h.single, fun o hlow hhigh => ?_, ?_, fun o ho => ?_,
    Nat.le_succ_of_le h.launched⟩
  · rw [List.mem_append, List.mem_singleton]
    rcases Nat.lt_or_eq_of_le hhigh with hlt | rfl
    · rw [h.kept o hlow (Nat.le_of_lt_succ hlt)]
      exact or_iff_left (Nat.ne_of_lt hlt)
    · refine iff_of_true (.inr rfl) fun j hj heq => ?_
      have hle := h.bound hj
      omega
  · exact h.nodup.append (List.nodup_singleton _) (List.disjoint_singleton.mpr hnot)
  · rcases List.mem_append.mp ho with ho | ho
    · obtain ⟨hlow, hhigh⟩ := h.range o ho
      exact ⟨hlow, Nat.le_succ_of_le hhigh⟩
    · obtain rfl := List.mem_singleton.mp ho
      exact ⟨Nat.lt_succ_of_le h.launched, Nat.le_refl _⟩

end Entries

/-! ## Closing a slot -/

theorem freeObject_freed (m : ObjectMemory) (o : ℕ) (type : ExposedObjectType) :
    (freeObject m o type).freed = m.freed ++ [o] := by
  cases type <;> rfl

theorem closeHandlers_shared {exobj : ExposedObject SoltCloseHandler}
    (hexobj : exobj = ⟨exobj.object, .semaphore, some .semaphore⟩ ∨
      exobj = ⟨exobj.object, .mutex, some .mutex⟩) :
    ∃ call, exobj.closeCall = some call ∧ exobj.Shared ∧ ∀ m, closeHandlers call m =
      if objectState m exobj.object exobj.type ≠ .eok then
        (objectState m exobj.object exobj.type, m)
      else (.eok, freeObject m exobj.object exobj.type) := by
  rcases hexobj with heq | heq
  · rw [heq]
    exact ⟨_, rfl, .inl rfl, fun m => rfl⟩
  · rw [heq]
    exact ⟨_, rfl, .inr rfl, fun m => rfl⟩

variable {s : SlotState SoltCloseHandler ObjectMemory}

/-- What closing a slot does: nothing, or the slot is cleared, and the object in slot `0` is
freed unless it is the thread. -/
theorem Entries.uninstalll_cases (h : Entries objects count allocated freed)
    (hobjects : s.table.objects = some objects) (hcount : s.table.objectCount = count) (i : ℕ) :
    ((exposedObjectUninstalllAt closeHandlers i s).1 ≠ .eok ∧
        (exposedObjectUninstalllAt closeHandlers i s).2.table = s.table ∧
        (exposedObjectUninstalllAt closeHandlers i s).2.world = s.world) ∨
      i < count ∧ (exposedObjectUninstalllAt closeHandlers i s).1 = .eok ∧
        (exposedObjectUninstalllAt closeHandlers i s).2.table = s.table.set i .cleared ∧
        (objects 0 = ⟨mainThread, .thread, none⟩ ∧
            (exposedObjectUninstalllAt closeHandlers i s).2.world = s.world ∨
          Unused s.world (objects 0) ∧
            (exposedObjectUninstalllAt closeHandlers i s).2.world =
              freeObject s.world (objects 0).object (objects 0).type) := by
  by_cases hi : i < count
  · have hi' : i < s.table.objectCount := hcount.symm ▸ hi
    rcases h.kind 0 (Nat.zero_lt_of_lt hi) with hcleared | ⟨-, hthread⟩ | ⟨hshared, hlow, -⟩
    · rw [uninstalll_empty hobjects hi' (by rw [hcleared]; rfl)]
      exact .inl ⟨NxError.noConfusion, rfl, rfl⟩
    · rw [uninstalll_silent hobjects hi' (by rw [hthread]; decide) (by rw [hthread])]
      exact .inr ⟨hi, rfl, rfl, .inl ⟨hthread, rfl⟩⟩
    · obtain ⟨call, hcall, hsharing, hclose⟩ := closeHandlers_shared hshared
      rw [uninstalll_called hobjects hi' (by omega) hcall, hclose]
      by_cases hstate : objectState s.world (objects 0).object (objects 0).type = .eok
      · rw [if_neg (not_not.mpr hstate), if_neg (not_not.mpr rfl)]
        refine .inr ⟨hi, rfl, rfl, .inr ⟨⟨hsharing, hstate⟩, ?_⟩⟩
        show (closeHandlers call s.world).2 = _
        rw [hclose, if_neg (not_not.mpr hstate)]
      · rw [if_pos hstate, if_pos hstate]
        have hcalled : callClose closeHandlers call s =
            (objectState s.world (objects 0).object (objects 0).type,
              { s with calls := s.calls ++ [call] }) := by
          unfold callClose
          rw [hclose, if_pos hstate]
        rw [hcalled]
        exact .inl ⟨hstate, rfl, rfl⟩
  · have hi' : s.table.objectCount ≤ i := hcount.symm ▸ Nat.not_lt.mp hi
    refine .inl ?_
    unfold exposedObjectUninstalllAt
    simp only [hobjects, if_pos hi']
    exact ⟨NxError.noConfusion, trivial, trivial⟩

/-- The invariant: while the process runs, its slots account for its objects, and after its
exit all of them are freed. -/
structure OwnInv (p : Process) : Prop where
  entries : p.exited = false → ∃ objects, p.slots.table.objects = some objects ∧
    Entries objects p.slots.table.objectCount p.allocated p.memory.freed
  nodup : p.memory.freed.Nodup
  done : p.exited = true → ∀ o, mainThread < o → o ≤ p.allocated → o ∈ p.memory.freed

namespace OwnInv

theorem of_entries (hexited : p'.exited = false) (hobjects : p'.slots.table.objects = some objects)
    (h : Entries objects p'.slots.table.objectCount p'.allocated p'.memory.freed) : OwnInv p' where
  entries _ := ⟨objects, hobjects, h⟩
  nodup := h.nodup
  done hno := absurd hno (Bool.eq_false_iff.mp hexited)

theorem congr (h : OwnInv p) (htable : p'.slots.table = p.slots.table)
    (hallocated : p'.allocated = p.allocated) (hfreed : p'.memory.freed = p.memory.freed)
    (hexited : p'.exited = p.exited) : OwnInv p' := by
  refine ⟨fun hno => ?_, ?_, fun hdone => ?_⟩
  · rw [htable, hallocated, hfreed]
    exact h.entries (hexited ▸ hno)
  · rw [hfreed]
    exact h.nodup
  · rw [hallocated, hfreed]
    exact h.done (hexited ▸ hdone)

theorem installObject (h : Entries objects p.slots.table.objectCount allocated p.memory.freed)
    (hobjects : p.slots.table.objects = some objects) (hexited : p.exited = false)
    (hallocated : p.allocated = allocated + 1) {type : ExposedObjectType}
    {handler : SoltCloseHandler}
    (hexobj : (⟨allocated + 1, type, some handler⟩ : ExposedObject SoltCloseHandler) =
        ⟨allocated + 1, .semaphore, some .semaphore⟩ ∨
      (⟨allocated + 1, type, some handler⟩ : ExposedObject SoltCloseHandler) =
        ⟨allocated + 1, .mutex, some .mutex⟩) :
    OwnInv (installObject p (allocated + 1) type handler).2 := by
  unfold Slots.installObject exposedObjectInstall
  rw [hobjects]
  cases halloc : exposedObjectAlloc p.slots.table.objectCount objects with
  | none =>
      simp only [halloc]
      refine of_entries hexited (show _ = some objects from hobjects) ?_
      rw [show (p.setMemory (p.memory.memFree (allocated + 1))).allocated = allocated + 1
        from hallocated]
      exact h.discard
  | some i =>
      simp only [halloc]
      have hempty := List.find?_some halloc
      have hi := List.mem_range.mp (List.mem_of_find?_eq_some halloc)
      refine of_entries hexited (ExposedObjectTable.objects_of_set hobjects _) ?_
      show Entries _ _ p.allocated _
      rw [hallocated]
      exact h.install hi (of_decide_eq_true hempty) hexobj

theorem semaphoreCreate (h : OwnInv p) (hexited : p.exited = false) (value : BitVec 64)
    (outSolt : ℕ) (memory : Bool) : OwnInv (sysSemaphoreCreate p value outSolt memory).2 := by
  obtain ⟨objects, hobjects, hentries⟩ := h.entries hexited
  unfold sysSemaphoreCreate
  by_cases hout : outSolt = 0
  · rw [if_pos hout]
    exact h
  · rw [if_neg hout]
    by_cases hmemory : memory = false
    · rw [if_pos hmemory]
      exact h
    · rw [if_neg hmemory]
      refine installObject (?_ : Entries objects _ p.allocated _) ?_ ?_ ?_ (.inl rfl)
      · exact hentries
      · exact hobjects
      · exact hexited
      · rfl

theorem mutexCreate (h : OwnInv p) (hexited : p.exited = false) (attr : BitVec 32)
    (outSolt : ℕ) (memory : Bool) : OwnInv (sysMutexCreate p attr outSolt memory).2 := by
  obtain ⟨objects, hobjects, hentries⟩ := h.entries hexited
  unfold sysMutexCreate
  by_cases hout : outSolt = 0
  · rw [if_pos hout]
    exact h
  · rw [if_neg hout]
    by_cases hmemory : memory = false
    · rw [if_pos hmemory]
      exact h
    · rw [if_neg hmemory]
      refine installObject (?_ : Entries objects _ p.allocated _) ?_ ?_ ?_ (.inr rfl)
      · exact hentries
      · exact hobjects
      · exact hexited
      · rfl

theorem installed_of_shared (h : Entries objects p.slots.table.objectCount allocated freed)
    (hobjects : p.slots.table.objects = some objects) (hi : i < p.slots.table.objectCount)
    (hshared : (objects i).Shared) : objects i ∈ p.slots.table.installed i := by
  have hlow := (h.ne_zero_of_shared hi hshared).1
  rw [ExposedObjectTable.installed_eq hobjects hi, if_neg (by omega)]
  exact rfl

theorem soltClose (h : OwnInv p) (hexited : p.exited = false) {solt : BitVec 32}
    (hsafe : FirstSlotSafe p (.close solt)) : OwnInv (sysSoltClose p solt).2 := by
  obtain ⟨objects, hobjects, hentries⟩ := h.entries hexited
  unfold sysSoltClose exposedObjectUninstalll
  rcases hentries.uninstalll_cases hobjects rfl (soltIndex solt) with
    ⟨-, htable, hworld⟩ | ⟨hi, -, htable, hfirst⟩
  · exact h.congr htable rfl (congrArg ObjectMemory.freed hworld) rfl
  · have hset : (exposedObjectUninstalllAt closeHandlers (soltIndex solt) p.slots).2.table.objects =
        some (Function.update objects (soltIndex solt) .cleared) := by
      rw [htable]
      exact ExposedObjectTable.objects_of_set hobjects _
    have hpos : 0 < p.slots.table.objectCount := Nat.zero_lt_of_lt hi
    refine of_entries hexited hset ?_
    show Entries _ (exposedObjectUninstalllAt closeHandlers (soltIndex solt)
      p.slots).2.table.objectCount p.allocated
      (exposedObjectUninstalllAt closeHandlers (soltIndex solt) p.slots).2.world.freed
    rw [htable]
    rcases hfirst with ⟨hthread, hworld⟩ | ⟨hunused, hworld⟩
    · rw [hworld]
      have hinstalled : objects 0 ∈ p.slots.table.installed 0 := by
        rw [ExposedObjectTable.installed_eq hobjects hpos, hthread]
        rfl
      refine hentries.clear_other hi fun hshared => ?_
      refine ((hsafe 0 hpos (objects 0) hinstalled rfl).2 (by rw [hthread])) _ hi _
        (installed_of_shared hentries hobjects hi hshared) rfl hshared
    · rw [hworld, freeObject_freed]
      have hfirst : soltIndex solt = 0 :=
        (hsafe 0 hpos (objects 0) (installed_of_shared hentries hobjects hpos hunused.1) rfl).1
          hunused hi
      rw [hfirst]
      exact hentries.clear_shared hpos hunused.1

/-- A destroy call, when slot `0` does not get in the way. -/
theorem destroy (h : OwnInv p) (hexited : p.exited = false) {type : ExposedObjectType}
    (htype : type = .semaphore ∨ type = .mutex) {solt : BitVec 32}
    (hsafe : p.Installed fun i exobj => i = soltIndex solt → exobj.type = type →
      Unused p.memory exobj → p.Installed fun j first => j = 0 → ¬Unused p.memory first)
    {r : NxError × Process} (hrun : sysDestroy type p solt = .ok r) : OwnInv r.2 := by
  obtain ⟨objects, hobjects, hentries⟩ := h.entries hexited
  unfold sysDestroy at hrun
  by_cases hinvalid : solt = -1
  · rw [if_pos hinvalid] at hrun
    cases hrun
    exact h
  · rw [if_neg hinvalid] at hrun
    cases hget : exposedObjectGet p.slots.table solt with
    | none =>
        rw [hget] at hrun
        cases hrun
        exact h
    | some exobj =>
        rw [hget] at hrun
        by_cases hkind : exobj.type = type
        · obtain ⟨hi, hexobj⟩ : soltIndex solt < p.slots.table.objectCount ∧
              exobj = objects (soltIndex solt) := by
            unfold exposedObjectGet at hget
            split at hget
            · next hi =>
                rw [hobjects] at hget
                exact ⟨hi, (Option.some.inj hget).symm⟩
            · cases hget
          have hshared : (objects (soltIndex solt)).Shared := by
            rw [← hexobj]
            unfold ExposedObject.Shared
            rw [hkind]
            exact htype
          have hlow := (hentries.ne_zero_of_shared hi hshared).1
          have hobject : exobj.object ≠ 0 := by
            rw [hexobj]
            omega
          simp only [hkind, ne_eq, not_true, if_false, nxAssert_pos hobject, exec_ok_bind] at hrun
          by_cases hstate : objectState p.memory exobj.object type = .eok
          · rw [if_neg (not_not.mpr hstate)] at hrun
            have hinstalled := installed_of_shared hentries hobjects hi hshared
            have hunused : Unused p.memory (objects (soltIndex solt)) := by
              refine ⟨hshared, ?_⟩
              rw [← hexobj, hkind]
              exact hstate
            have hnot := hsafe _ hi _ hinstalled rfl (hexobj ▸ hkind) hunused
            have hpos : 0 < p.slots.table.objectCount := Nat.zero_lt_of_lt hi
            rcases hentries.uninstalll_cases hobjects rfl (soltIndex solt) with
              ⟨herr, htable, hworld⟩ | ⟨-, herr, htable, ⟨hthread, hworld⟩ | ⟨hfirst, -⟩⟩
            · rw [exposedObjectUninstalll, if_pos herr] at hrun
              cases hrun
              exact h.congr htable rfl (congrArg ObjectMemory.freed hworld) rfl
            · rw [exposedObjectUninstalll, if_neg (not_not.mpr herr)] at hrun
              cases hrun
              have hset : (exposedObjectUninstalllAt closeHandlers (soltIndex solt)
                  p.slots).2.table.objects =
                    some (Function.update objects (soltIndex solt) .cleared) := by
                rw [htable]
                exact ExposedObjectTable.objects_of_set hobjects _
              refine of_entries hexited hset ?_
              show Entries _ (exposedObjectUninstalllAt closeHandlers (soltIndex solt)
                p.slots).2.table.objectCount p.allocated (freeObject (exposedObjectUninstalllAt
                  closeHandlers (soltIndex solt) p.slots).2.world exobj.object type).freed
              rw [htable, hworld, freeObject_freed, hexobj]
              exact hentries.clear_shared hi hshared
            · exact absurd hfirst (hnot 0 hpos (objects 0)
                (installed_of_shared hentries hobjects hpos hfirst.1) rfl)
          · rw [if_pos hstate] at hrun
            cases hrun
            exact h
        · simp only [ne_eq, hkind, not_false_eq_true, if_true] at hrun
          cases hrun
          exact h

/-- The exit of a table that holds a semaphore or a mutex in slot `0` at most, which is
unused: all objects are freed. -/
theorem tableExit {s : SlotState SoltCloseHandler ObjectMemory}
    (h : Entries objects count allocated s.world.freed)
    (hobjects : s.table.objects = some objects) (hcount : s.table.objectCount = count)
    (hsafe : ∀ i < count, (objects i).Shared → i = 0 ∧ Unused s.world (objects i)) :
    (exposedObjectTableExit closeHandlers s).world.freed.Nodup ∧
      ∀ o, mainThread < o → o ≤ allocated →
        o ∈ (exposedObjectTableExit closeHandlers s).world.freed := by
  obtain ⟨rest, hrange, -⟩ := exists_slots s.table
  have hpos : 0 < count := hcount ▸ s.table.positive
  -- an object that is not freed lies in slot `0`
  have hlast : ∀ o, mainThread < o → o ≤ allocated → o ∈ s.world.freed ∨
      (objects 0).Shared ∧ (objects 0).object = o := by
    intro o hlow hhigh
    rw [h.kept o hlow hhigh]
    by_contra hno
    obtain ⟨hin, hnot⟩ := not_or.mp hno
    push Not at hin
    obtain ⟨i, hi, rfl⟩ := hin
    have hshared : (objects i).Shared := by
      rcases h.kind i hi with hcleared | ⟨-, hthread⟩ | ⟨hshared, -⟩
      · rw [hcleared] at hlow
        exact absurd hlow (by decide)
      · rw [hthread] at hlow
        exact absurd hlow (by decide)
      · exact (closeHandlers_shared hshared).choose_spec.2.1
    obtain ⟨rfl, -⟩ := hsafe i hi hshared
    exact hnot ⟨hshared, rfl⟩
  unfold exposedObjectTableExit
  rw [hrange, List.foldl_cons]
  rcases h.uninstalll_cases hobjects hcount 0 with
    ⟨herr, htable, hworld⟩ | ⟨-, -, htable, hfirst⟩
  · -- slot `0` is empty
    have hnot : ¬(objects 0).Shared := by
      intro hshared
      obtain ⟨-, -, hstate⟩ := hsafe 0 hpos hshared
      rcases h.kind 0 hpos with hcleared | ⟨-, hthread⟩ | ⟨hkind, hlow, -⟩
      · rw [hcleared] at hshared
        rcases hshared with hno | hno <;> cases hno
      · rw [hthread] at hshared
        rcases hshared with hno | hno <;> cases hno
      · obtain ⟨call, hcall, -, hclose⟩ := closeHandlers_shared hkind
        apply herr
        rw [uninstalll_called hobjects (hcount.symm ▸ hpos) (by omega) hcall, hclose,
          if_neg (not_not.mpr hstate), if_neg (not_not.mpr rfl)]
    have hzero : (objects 0).object = 0 := by
      rcases h.kind 0 hpos with hcleared | ⟨-, hthread⟩ | ⟨hkind, -⟩
      · rw [hcleared]
        rfl
      · rw [uninstalll_silent hobjects (hcount.symm ▸ hpos) (by rw [hthread]; decide)
          (by rw [hthread])] at herr
        exact absurd rfl herr
      · exact absurd (closeHandlers_shared hkind).choose_spec.2.1 hnot
    rw [uninstalll_fold_empty (htable ▸ hobjects) hzero, hworld]
    exact ⟨h.nodup, fun o hlow hhigh => (hlast o hlow hhigh).resolve_right fun hno => hnot hno.1⟩
  · have hset : (exposedObjectUninstalllAt closeHandlers 0 s).2.table.objects =
        some (Function.update objects 0 .cleared) := by
      rw [htable]
      exact ExposedObjectTable.objects_of_set hobjects _
    rw [uninstalll_fold_empty hset (by rw [Function.update_self]; rfl)]
    rcases hfirst with ⟨hthread, hworld⟩ | ⟨hunused, hworld⟩
    · rw [hworld]
      refine ⟨h.nodup, fun o hlow hhigh => (hlast o hlow hhigh).resolve_right fun hno => ?_⟩
      rw [hthread] at hno
      rcases hno.1 with hno | hno <;> cases hno
    · rw [hworld, freeObject_freed]
      refine ⟨(h.clear_shared hpos hunused.1).nodup, fun o hlow hhigh => ?_⟩
      rw [List.mem_append, List.mem_singleton]
      exact (hlast o hlow hhigh).imp_right fun ho => ho.2.symm

theorem exit (h : OwnInv p) (hexited : p.exited = false) (hsafe : FirstSlotSafe p .exit) :
    OwnInv (processExit p) := by
  obtain ⟨objects, hobjects, hentries⟩ := h.entries hexited
  have hshared : ∀ i < p.slots.table.objectCount, (objects i).Shared →
      i = 0 ∧ Unused p.memory (objects i) := fun i hi hi' =>
    hsafe i hi _ (installed_of_shared hentries hobjects hi hi') hi'
  suffices hdone : (processExit p).memory.freed.Nodup ∧
      ∀ o, mainThread < o → o ≤ p.allocated → o ∈ (processExit p).memory.freed from
    ⟨fun hno => (nomatch hno), hdone.1, fun _ => hdone.2⟩
  unfold processExit
  cases hlocate : exposedObjectLocate p.slots.table mainThread .thread with
  | none => exact tableExit hentries hobjects rfl hshared
  | some i =>
      -- the thread lies in slot `0`, which is cleared first
      obtain ⟨hi, hobject⟩ : i < p.slots.table.objectCount ∧
          (objects i).object = mainThread := by
        unfold exposedObjectLocate at hlocate
        rw [if_neg (by decide), hobjects, Option.bind_some] at hlocate
        have hfound := List.find?_some hlocate
        rw [decide_eq_true_iff] at hfound
        exact ⟨List.mem_range.mp (List.mem_of_find?_eq_some hlocate), hfound.1⟩
      obtain ⟨rfl, hthread⟩ : i = 0 ∧ objects i = ⟨mainThread, .thread, none⟩ := by
        rcases hentries.kind i hi with hcleared | hthread | ⟨-, hlow, -⟩
        · rw [hcleared] at hobject
          cases hobject
        · exact hthread
        · omega
      simp only
      rw [uninstalll_silent hobjects hi (by rw [hthread]; decide) (by rw [hthread])]
      have hcleared := hentries.clear_other hi (by rw [hthread]; decide)
      refine tableExit (s := clearSolt 0 p.slots) hcleared
        (ExposedObjectTable.objects_of_set hobjects _) rfl fun j hj hj' => ?_
      by_cases hzero : j = 0
      · rw [hzero, Function.update_self] at hj'
        rcases hj' with hno | hno <;> cases hno
      · rw [Function.update_of_ne hzero] at hj'
        exact absurd (hshared j hj hj').1 hzero

/-- Every step keeps the invariant while slot `0` does not get in the way. -/
theorem move {op : SlotOp} (h : OwnInv p) (hmove : SlotMoveWhen cores FirstSlotSafe p op p') :
    OwnInv p' := by
  obtain ⟨hsafe, hallowed, hstep⟩ := hmove
  cases op with
  | semaphore op =>
      obtain ⟨⟨e, kernel⟩, -, hrest⟩ := exec_bind_eq_ok_iff.mp hstep
      cases hrest
      exact h.congr rfl rfl rfl rfl
  | mutexTryLock mutex =>
      cases hstep
      exact h.congr rfl rfl rfl rfl
  | mutexUnlock mutex =>
      cases hstep
      exact h.congr rfl rfl rfl rfl
  | semaphoreCreate value outSolt memory =>
      cases hstep
      exact h.semaphoreCreate hallowed value outSolt memory
  | semaphoreDestroy solt =>
      obtain ⟨r, hrun, hrest⟩ := exec_bind_eq_ok_iff.mp hstep
      cases hrest
      exact h.destroy hallowed (.inl rfl) hsafe hrun
  | mutexCreate attr outSolt memory =>
      cases hstep
      exact h.mutexCreate hallowed attr outSolt memory
  | mutexDestroy solt =>
      obtain ⟨r, hrun, hrest⟩ := exec_bind_eq_ok_iff.mp hstep
      cases hrest
      exact h.destroy hallowed (.inr rfl) hsafe hrun
  | close solt =>
      cases hstep
      exact h.soltClose hallowed hsafe
  | exit =>
      cases hstep
      exact h.exit hallowed hsafe

end OwnInv

theorem ownInv_launched (σ : Scheduler) : OwnInv (launched σ) := by
  refine OwnInv.of_entries rfl rfl ⟨fun i _ => ?_, fun i _ j _ heq hne => ?_,
      fun o hlow hhigh => ?_, List.nodup_nil, fun o ho => ?_, Nat.le_refl _⟩
  · by_cases hi : i = 0
    · rw [hi, Function.update_self]
      exact .inr (.inl ⟨rfl, rfl⟩)
    · rw [Function.update_of_ne hi]
      exact .inl rfl
  · have hzero : ∀ k, ((Function.update (fun _ => .cleared) 0 ⟨mainThread, .thread, none⟩ :
        ℕ → ExposedObject SoltCloseHandler) k).object ≠ 0 → k = 0 := by
      intro k hk
      by_contra hno
      rw [Function.update_of_ne hno] at hk
      exact hk rfl
    exact (hzero i hne).trans (hzero j (heq ▸ hne)).symm
  · exact absurd hlow (Nat.not_lt.mpr hhigh)
  · exact absurd ho List.not_mem_nil

/-! ## Every run -/

/-- In every run in which slot `0` does not get in the way, each object that a create call
allocated is freed at most once, and after the exit of the process exactly once. -/
theorem slotReachable_freedOnce (cores : ℕ) (σ : Scheduler) (p : Process)
    (hreach : Reachable (SlotMoveWhen cores FirstSlotSafe) (launched σ) p) (o : ℕ)
    (hlow : mainThread < o) (hhigh : o ≤ p.allocated) :
    p.memory.freed.count o ≤ 1 ∧ (p.exited = true → p.memory.freed.count o = 1) := by
  have hinv := hreach.invariant (ownInv_launched σ) fun hinv hmove => hinv.move hmove
  refine ⟨List.nodup_iff_count_le_one.mp hinv.nodup o, fun hexited => ?_⟩
  exact List.count_eq_one_of_mem hinv.nodup (hinv.done hexited o hlow hhigh)

instance (p : Process) (op : SlotOp) : Decidable (FirstSlotSafe p op) :=
  match op with
  | .semaphore _ => .isTrue trivial
  | .mutexTryLock _ => .isTrue trivial
  | .mutexUnlock _ => .isTrue trivial
  | .semaphoreCreate .. => .isTrue trivial
  | .mutexCreate .. => .isTrue trivial
  | .semaphoreDestroy solt => inferInstanceAs (Decidable (p.Installed fun i exobj =>
      i = soltIndex solt → exobj.type = .semaphore → Unused p.memory exobj →
        p.Installed fun j first => j = 0 → ¬Unused p.memory first))
  | .mutexDestroy solt => inferInstanceAs (Decidable (p.Installed fun i exobj =>
      i = soltIndex solt → exobj.type = .mutex → Unused p.memory exobj →
        p.Installed fun j first => j = 0 → ¬Unused p.memory first))
  | .close solt => inferInstanceAs (Decidable (p.Installed fun j first => j = 0 →
      (Unused p.memory first → soltIndex solt < p.slots.table.objectCount →
        soltIndex solt = 0) ∧
      (first.type = .thread → p.Installed fun i exobj => i = soltIndex solt → ¬exobj.Shared)))
  | .exit => inferInstanceAs (Decidable (p.Installed fun i exobj =>
      exobj.Shared → i = 0 ∧ Unused p.memory exobj))

/-- A semaphore is destroyed, and a mutex that takes the slot of the thread is left to the
exit. -/
def oneOfEachRun : List SlotOp :=
  [.semaphoreCreate 1 7 true, .semaphoreDestroy 1, .close 0, .mutexCreate 0 7 true, .exit]

theorem slotReachable_freedOnce_oneOfEach :
    ∃ p, Reachable (SlotMoveWhen 1 FirstSlotSafe) (launched (schedZero 1)) p ∧
      p.exited = true ∧ p.memory.freed.count 2 = 1 ∧ p.memory.freed.count 3 = 1 := by
  have heval : (perform (slotStepWhen FirstSlotSafe 1) (launched (schedZero 1)) oneOfEachRun).map
      (fun p => decide (p.exited = true ∧ p.allocated = 3)) = some true := by
    decide +kernel
  obtain ⟨p, hrun, hp⟩ := Option.map_eq_some_iff.mp heval
  obtain ⟨hexited, hallocated⟩ := of_decide_eq_true hp
  have hreach : Reachable (SlotMoveWhen 1 FirstSlotSafe) (launched (schedZero 1)) p :=
    .of_perform slotMove_of_slotStepWhen hrun
  refine ⟨p, hreach, hexited, ?_, ?_⟩
  · exact (slotReachable_freedOnce 1 (schedZero 1) p hreach 2 (by decide)
      (by rw [hallocated]; decide)).2 hexited
  · exact (slotReachable_freedOnce 1 (schedZero 1) p hreach 3 (by decide)
      (by rw [hallocated])).2 hexited

/-- A semaphore that lies in slot `0` is freed twice by its destroy call, and one that lies
in slot `1` is not freed at the exit. -/
theorem semaphoreDestroy_freesTwice :
    (∃ p, Reachable (SlotMove 1) (launched (schedZero 1)) p ∧ 2 ≤ p.allocated ∧
      p.memory.freed.count 2 = 2) ∧
    ∃ p, Reachable (SlotMove 1) (launched (schedZero 1)) p ∧ 2 ≤ p.allocated ∧
      p.exited = true ∧ p.memory.freed.count 2 = 0 := by
  have hreach : ∀ {ops p}, perform (slotStepWhen (fun _ _ => True) 1) (launched (schedZero 1)) ops =
      some p → Reachable (SlotMove 1) (launched (schedZero 1)) p := fun hrun =>
    .of_perform (fun hstep => (slotMove_of_slotStepWhen hstep).2) hrun
  constructor
  · have heval : (perform (slotStepWhen (fun _ _ => True) 1) (launched (schedZero 1))
        [.close 0, .semaphoreCreate 1 7 true, .semaphoreDestroy 0]).map (fun p =>
          decide (2 ≤ p.allocated ∧ p.memory.freed.count 2 = 2)) = some true := by
      decide +kernel
    obtain ⟨p, hrun, hp⟩ := Option.map_eq_some_iff.mp heval
    exact ⟨p, hreach hrun, of_decide_eq_true hp⟩
  · have heval : (perform (slotStepWhen (fun _ _ => True) 1) (launched (schedZero 1))
        [.semaphoreCreate 1 7 true, .exit]).map (fun p =>
          decide (2 ≤ p.allocated ∧ p.exited = true ∧ p.memory.freed.count 2 = 0)) =
        some true := by
      decide +kernel
    obtain ⟨p, hrun, hp⟩ := Option.map_eq_some_iff.mp heval
    exact ⟨p, hreach hrun, of_decide_eq_true hp⟩

end Nxos.Slots
