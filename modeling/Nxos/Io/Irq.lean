import Nxos.Base.Kernel
import Nxos.Support.Transition
import Mathlib.Logic.Function.Basic
import Mathlib.Data.List.Count
import Mathlib.Tactic.SplitIfs

/-!
# Interrupt lines

The embedding of `io/irq.c`.  A line has a list of actions, and what is known of the line
as a whole lies in its node: the controller, the flags of the last binding and the number
of actions.  The flags decide how an unbinding searches the list, whoever wrote them.

The name of an action is only printed and is left out.  The handlers are code of the
drivers; what each of them answers is part of a call of `NX_IRQ_Handle`.
-/

namespace Nxos.Io

open Nxos.Transition

/-- `NX_IRQ_FLAG_SHARED` -/
def irqFlagShared : BitVec 32 := 0x02

/-- `NX_IRQ_Controller`: whether its `ack` is set. -/
structure IrqController where
  hasAck : Bool
  deriving DecidableEq

/-- `NX_IRQ_Action`; handlers and data are known by their addresses. -/
structure IrqAction where
  handler : ℕ
  data : ℕ
  flags : BitVec 32
  deriving DecidableEq

/-- `NX_IRQ_Node`.  The counter is a machine word that moves by ones, an integer here. -/
structure IrqNode where
  controller : Option IrqController
  actionList : List IrqAction
  flags : BitVec 32
  reference : ℤ
  deriving DecidableEq

/-- `irqNodeTable`, of `nr` lines. -/
structure IrqTable where
  nr : ℕ
  node : ℕ → IrqNode

def IrqTable.write (s : IrqTable) (irqno : ℕ) (n : IrqNode) : IrqTable :=
  { s with node := Function.update s.node irqno n }

@[simp] theorem IrqTable.write_node_self (s : IrqTable) (irqno : ℕ) (n : IrqNode) :
    (s.write irqno n).node irqno = n := Function.update_self ..

theorem IrqTable.write_node_of_ne (s : IrqTable) {irqno i : ℕ} (n : IrqNode) (h : i ≠ irqno) :
    (s.write irqno n).node i = s.node i := Function.update_of_ne h ..

/-! ## Functions -/

/-- `NX_IRQ_Init` -/
def irqInit (nr : ℕ) : IrqTable := ⟨nr, fun _ => ⟨none, [], 0, 0⟩⟩

/-- `IRQ_NodeGet` -/
def irqNodeGet (s : IrqTable) (irqno : ℕ) : Option IrqNode :=
  if irqno < s.nr then some (s.node irqno) else none

/-- `NX_IRQ_Bind`; `iface` is `NX_IRQ_ControllerInterface`, and `memory` says whether
`NX_MemAlloc` has memory for the action. -/
def irqBind (iface : IrqController) (s : IrqTable) (irqno handler data : ℕ) (flags : BitVec 32)
    (memory : Bool) : NxError × IrqTable :=
  match irqNodeGet s irqno with
  | none => (.einval, s)
  | some n =>
      let n := { n with controller := some iface, flags := flags }
      if memory then
        let action : IrqAction := ⟨handler, data, flags⟩
        (.eok, s.write irqno
          { n with actionList := n.actionList ++ [action], reference := n.reference + 1 })
      else (.enomem, s.write irqno n)

/-- The actions without the one that `NX_IRQ_Unbind` finds: on a shared line the first that
has the data, on another line the first. -/
def irqRemove (n : IrqNode) (data : ℕ) : Option (List IrqAction) :=
  if n.flags &&& irqFlagShared ≠ 0 then
    if n.actionList.any (fun a => a.data = data) then
      some (n.actionList.eraseP fun a => a.data = data)
    else none
  else
    match n.actionList with
    | [] => none
    | _ :: actions => some actions

/-- `NX_IRQ_Unbind` -/
def irqUnbind (s : IrqTable) (irqno data : ℕ) : NxError × IrqTable :=
  match irqNodeGet s irqno with
  | none => (.einval, s)
  | some n =>
      if n.controller = none then (.efault, s)
      else
        match irqRemove n data with
        | none => (.enores, s)
        | some actions =>
            let n := { n with actionList := actions, reference := n.reference - 1 }
            if n.reference = 0 then
              (.eok, s.write irqno { n with controller := none, flags := 0 })
            else (.eok, s.write irqno n)

/-- The loop of `NX_IRQ_Handle`: the actions whose handlers are called, up to the first that
answers `NX_EOK`. -/
def irqInvoke (answers : IrqAction → NxError) : List IrqAction → List IrqAction
  | [] => []
  | a :: actions => if answers a = .eok then [a] else a :: irqInvoke answers actions

/-- `NX_IRQ_Handle`: what it returns, the actions it invokes, and whether it acknowledges. -/
def irqHandle (s : IrqTable) (irqno : ℕ) (answers : IrqAction → NxError) :
    Exec (NxError × List IrqAction × Bool) :=
  match irqNodeGet s irqno with
  | none => .ok (.einval, [], false)
  | some n =>
      let invoked := irqInvoke answers n.actionList
      match n.controller with
      | none => .error .nullDeref
      | some controller => .ok (.eok, invoked, controller.hasAck)

/-! ## Calls -/

inductive IrqLineOp where
  | bind (irqno handler data : ℕ) (flags : BitVec 32) (memory : Bool)
  | unbind (irqno data : ℕ)
  | handle (irqno : ℕ) (answers : IrqAction → NxError)

def irqLineStep (iface : IrqController) (s : IrqTable) : IrqLineOp → Option IrqTable
  | .bind irqno handler data flags memory =>
      some (irqBind iface s irqno handler data flags memory).2
  | .unbind irqno data => some (irqUnbind s irqno data).2
  | .handle irqno answers => (irqHandle s irqno answers).toOption.map fun _ => s

def RemovesBound (s t : IrqTable) (irqno data : ℕ) : Prop :=
  (∃ before a after, (s.node irqno).actionList = before ++ a :: after ∧ a.data = data ∧
    (t.node irqno).actionList = before ++ after) ∧
  ∀ i, i ≠ irqno → t.node i = s.node i

/-- What a call is to do: a binding that fails changes nothing, an unbinding removes an action
that was bound with the data or changes nothing, and handling does not dereference a null
controller. -/
def IrqLineOp.Meets (iface : IrqController) (s : IrqTable) : IrqLineOp → Prop
  | .bind irqno handler data flags memory =>
      (irqBind iface s irqno handler data flags memory).1 ≠ .eok →
        (irqBind iface s irqno handler data flags memory).2 = s
  | .unbind irqno data =>
      (irqUnbind s irqno data).2 = s ∨ RemovesBound s (irqUnbind s irqno data).2 irqno data
  | .handle irqno answers => irqHandle s irqno answers ≠ .error .nullDeref

/-- When it does: a binding gets its memory or finds the node as it would leave it; a line
that is not shared is unbound with the data of its first action; and the line that is handled
has a controller. -/
def IrqLineOp.Sound (iface : IrqController) (s : IrqTable) : IrqLineOp → Prop
  | .bind irqno _ _ flags memory => irqno < s.nr → memory = true ∨
      ((s.node irqno).controller = some iface ∧ (s.node irqno).flags = flags)
  | .unbind irqno data => irqno < s.nr → (s.node irqno).controller ≠ none →
      (s.node irqno).flags &&& irqFlagShared = 0 →
        ∀ a, (s.node irqno).actionList.head? = some a → a.data = data
  | .handle irqno _ => irqno < s.nr → (s.node irqno).controller ≠ none

section Calls

variable {iface : IrqController} {s t : IrqTable} {irqno : ℕ}

theorem irqNodeGet_of_lt (h : irqno < s.nr) : irqNodeGet s irqno = some (s.node irqno) :=
  if_pos h

theorem irqNodeGet_of_not_lt (h : ¬irqno < s.nr) : irqNodeGet s irqno = none :=
  if_neg h

/-- Writing a node changes nothing exactly when it is there already. -/
theorem IrqTable.write_eq_self_iff {n : IrqNode} : s.write irqno n = s ↔ n = s.node irqno := by
  constructor
  · intro h
    rw [← s.write_node_self irqno n, h]
  · rintro rfl
    unfold IrqTable.write
    rw [Function.update_eq_self]

theorem bind_meets_iff {handler data : ℕ} {flags : BitVec 32} {memory : Bool} :
    (IrqLineOp.bind irqno handler data flags memory).Meets iface s ↔
      (IrqLineOp.bind irqno handler data flags memory).Sound iface s := by
  simp only [IrqLineOp.Meets, IrqLineOp.Sound, irqBind]
  by_cases hlt : irqno < s.nr
  · rw [irqNodeGet_of_lt hlt]
    cases memory with
    | true => simp
    | false =>
        have hsame : (⟨some iface, (s.node irqno).actionList, flags, (s.node irqno).reference⟩ :
            IrqNode) = s.node irqno ↔
              (s.node irqno).controller = some iface ∧ (s.node irqno).flags = flags := by
          cases s.node irqno
          simp only [IrqNode.mk.injEq, true_and, and_true]
          exact and_congr eq_comm eq_comm
        simp [IrqTable.write_eq_self_iff, hsame, hlt]
  · rw [irqNodeGet_of_not_lt hlt]
    simp [hlt]

theorem exists_of_irqRemove_shared {n : IrqNode} {data : ℕ} {actions : List IrqAction}
    (hshared : n.flags &&& irqFlagShared ≠ 0) (h : irqRemove n data = some actions) :
    ∃ before a after, n.actionList = before ++ a :: after ∧ a.data = data ∧
      actions = before ++ after := by
  unfold irqRemove at h
  rw [if_pos hshared] at h
  split_ifs at h with hany
  cases h
  obtain ⟨a, ha, hdata⟩ := List.any_eq_true.mp hany
  obtain ⟨b, before, after, -, hb, hlist, herase⟩ :=
    List.exists_of_eraseP (p := fun a : IrqAction => a.data = data) ha hdata
  exact ⟨before, b, after, hlist, of_decide_eq_true hb, herase⟩

theorem countP_of_removed (before after : List IrqAction) {a : IrqAction} {data : ℕ}
    (ha : a.data = data) :
    (before ++ a :: after).countP (fun b => b.data = data) =
      (before ++ after).countP (fun b => b.data = data) + 1 := by
  rw [List.countP_append, List.countP_cons_of_pos (by simpa using ha), List.countP_append]
  omega

theorem irqUnbind_actions {data : ℕ} {actions : List IrqAction} (hlt : irqno < s.nr)
    (hcontroller : (s.node irqno).controller ≠ none)
    (h : irqRemove (s.node irqno) data = some actions) :
    ∃ controller flags, irqUnbind s irqno data = (.eok, s.write irqno
      ⟨controller, actions, flags, (s.node irqno).reference - 1⟩) ∧
      ((s.node irqno).reference - 1 ≠ 0 → controller = (s.node irqno).controller) := by
  unfold irqUnbind
  rw [irqNodeGet_of_lt hlt]
  dsimp only
  rw [if_neg hcontroller, h]
  dsimp only
  split_ifs with hlast
  · exact ⟨none, 0, rfl, fun hne => absurd hlast hne⟩
  · exact ⟨_, _, rfl, fun _ => rfl⟩

theorem removesBound_write_iff {n : IrqNode} {data : ℕ} :
    RemovesBound s (s.write irqno n) irqno data ↔
      ∃ before a after, (s.node irqno).actionList = before ++ a :: after ∧ a.data = data ∧
        n.actionList = before ++ after := by
  unfold RemovesBound
  rw [IrqTable.write_node_self]
  exact and_iff_left fun i hi => s.write_node_of_ne n hi

theorem unbind_meets_iff {data : ℕ} :
    (IrqLineOp.unbind irqno data).Meets iface s ↔ (IrqLineOp.unbind irqno data).Sound iface s := by
  simp only [IrqLineOp.Meets, IrqLineOp.Sound]
  by_cases hlt : irqno < s.nr
  · by_cases hcontroller : (s.node irqno).controller = none
    · have hrun : irqUnbind s irqno data = (.efault, s) := by
        unfold irqUnbind
        rw [irqNodeGet_of_lt hlt]
        exact if_pos hcontroller
      rw [hrun]
      exact iff_of_true (.inl rfl) fun _ hne => absurd hcontroller hne
    · cases hremove : irqRemove (s.node irqno) data with
      | none =>
          have hrun : irqUnbind s irqno data = (.enores, s) := by
            unfold irqUnbind
            rw [irqNodeGet_of_lt hlt]
            dsimp only
            rw [if_neg hcontroller, hremove]
          rw [hrun]
          refine iff_of_true (.inl rfl) fun _ _ hshared a ha => ?_
          unfold irqRemove at hremove
          rw [if_neg (not_not.mpr hshared)] at hremove
          cases hlist : (s.node irqno).actionList with
          | nil =>
              rw [hlist] at ha
              cases ha
          | cons b actions =>
              rw [hlist] at hremove
              cases hremove
      | some actions =>
          obtain ⟨controller, flags, hrun, -⟩ := irqUnbind_actions hlt hcontroller hremove
          rw [hrun, removesBound_write_iff]
          by_cases hshared : (s.node irqno).flags &&& irqFlagShared = 0
          · unfold irqRemove at hremove
            rw [if_neg (not_not.mpr hshared)] at hremove
            cases hlist : (s.node irqno).actionList with
            | nil =>
                rw [hlist] at hremove
                cases hremove
            | cons b rest =>
                rw [hlist] at hremove
                cases hremove
                constructor
                · intro h _ _ _ a ha
                  obtain rfl := Option.some.inj ha
                  rcases h with hsame | ⟨before, c, after, hsplit, hc, hrest⟩
                  · have hlength := congrArg (fun n => n.actionList.length)
                      (IrqTable.write_eq_self_iff.mp hsame)
                    rw [hlist] at hlength
                    simp at hlength
                  · -- the first action and the one that has the data count alike
                    by_contra hb
                    have hcount := countP_of_removed before after hc
                    rw [← hsplit, ← hrest, List.countP_cons_of_neg (by simpa using hb)] at hcount
                    exact absurd hcount (Nat.ne_of_lt (Nat.lt_succ_self _))
                · intro h
                  exact .inr ⟨[], b, actions, rfl, h hlt hcontroller hshared b rfl, rfl⟩
          · exact iff_of_true (.inr (exists_of_irqRemove_shared hshared hremove))
              fun _ _ hzero => absurd hzero hshared
  · have hrun : irqUnbind s irqno data = (.einval, s) := by
      unfold irqUnbind
      rw [irqNodeGet_of_not_lt hlt]
    rw [hrun]
    exact iff_of_true (.inl rfl) fun h => absurd h hlt

theorem handle_meets_iff {answers : IrqAction → NxError} :
    (IrqLineOp.handle irqno answers).Meets iface s ↔
      (IrqLineOp.handle irqno answers).Sound iface s := by
  simp only [IrqLineOp.Meets, IrqLineOp.Sound, irqHandle]
  by_cases hlt : irqno < s.nr
  · rw [irqNodeGet_of_lt hlt]
    cases hcontroller : (s.node irqno).controller with
    | none => simp [hcontroller, hlt]
    | some controller => simp [hcontroller]
  · rw [irqNodeGet_of_not_lt hlt]
    simp [hlt]

/-- A call does what it is to do exactly in those states. -/
theorem IrqLineOp.meets_iff (op : IrqLineOp) : op.Meets iface s ↔ op.Sound iface s := by
  cases op with
  | bind irqno handler data flags memory => exact bind_meets_iff
  | unbind irqno data => exact unbind_meets_iff
  | handle irqno answers => exact handle_meets_iff

end Calls

/-! ## Runs -/

/-- The counter of the node counts its actions, and a node with actions has a controller. -/
structure IrqNode.Ok (n : IrqNode) : Prop where
  reference : n.reference = n.actionList.length
  controller : n.actionList ≠ [] → n.controller ≠ none

section Runs

variable {iface : IrqController} {s t : IrqTable}

theorem length_of_irqRemove {n : IrqNode} {data : ℕ} {actions : List IrqAction}
    (h : irqRemove n data = some actions) : n.actionList.length = actions.length + 1 := by
  by_cases hshared : n.flags &&& irqFlagShared = 0
  · unfold irqRemove at h
    rw [if_neg (not_not.mpr hshared)] at h
    cases hlist : n.actionList with
    | nil =>
        rw [hlist] at h
        cases h
    | cons a rest =>
        rw [hlist] at h
        cases h
        rfl
  · obtain ⟨before, a, after, hlist, -, rfl⟩ := exists_of_irqRemove_shared hshared h
    rw [hlist, List.length_append, List.length_append, List.length_cons]
    omega

theorem nodesOk_write (h : ∀ i, (s.node i).Ok) {irqno : ℕ} {n : IrqNode} (hn : n.Ok) :
    ∀ i, ((s.write irqno n).node i).Ok := by
  intro i
  by_cases hi : i = irqno
  · rw [hi, IrqTable.write_node_self]
    exact hn
  · rw [s.write_node_of_ne n hi]
    exact h i

theorem nodesOk_irqLineStep (h : ∀ i, (s.node i).Ok) {op : IrqLineOp}
    (hstep : irqLineStep iface s op = some t) : ∀ i, (t.node i).Ok := by
  cases op with
  | bind irqno handler data flags memory =>
      cases hstep
      unfold irqBind
      by_cases hlt : irqno < s.nr
      · rw [irqNodeGet_of_lt hlt]
        cases memory with
        | true =>
            refine nodesOk_write h ⟨?_, fun _ => Option.some_ne_none iface⟩
            simp [(h irqno).reference]
        | false => exact nodesOk_write h ⟨(h irqno).reference, fun _ => Option.some_ne_none iface⟩
      · rw [irqNodeGet_of_not_lt hlt]
        exact h
  | unbind irqno data =>
      cases hstep
      by_cases hlt : irqno < s.nr
      · by_cases hcontroller : (s.node irqno).controller = none
        · unfold irqUnbind
          rw [irqNodeGet_of_lt hlt]
          dsimp only
          rw [if_pos hcontroller]
          exact h
        · cases hremove : irqRemove (s.node irqno) data with
          | none =>
              unfold irqUnbind
              rw [irqNodeGet_of_lt hlt]
              dsimp only
              rw [if_neg hcontroller, hremove]
              exact h
          | some actions =>
              obtain ⟨controller, flags, hrun, hkept⟩ := irqUnbind_actions hlt hcontroller hremove
              have hlength := length_of_irqRemove hremove
              have hreference := (h irqno).reference
              rw [hrun]
              refine nodesOk_write h ⟨?_, fun hne => ?_⟩
              · dsimp only
                omega
              · have hpos : 0 < actions.length := List.length_pos_iff.mpr hne
                dsimp only
                rw [hkept (by omega)]
                exact hcontroller
      · unfold irqUnbind
        rw [irqNodeGet_of_not_lt hlt]
        exact h
  | handle irqno answers =>
      obtain ⟨r, -, rfl⟩ := Option.map_eq_some_iff.mp hstep
      exact h

end Runs

/-- In every state that calls reach, the counter of every line counts its actions, a line with
actions has a controller, and each further call does what it is to do exactly when it is
sound. -/
theorem irqReachable_meets (iface : IrqController) (nr : ℕ) {s : IrqTable}
    (hreach : Reachable (fun s op t => irqLineStep iface s op = some t) (irqInit nr) s) :
    (∀ irqno, (s.node irqno).Ok) ∧ ∀ op : IrqLineOp, op.Meets iface s ↔ op.Sound iface s := by
  refine ⟨?_, fun op => op.meets_iff⟩
  exact hreach.invariant (P := fun s => ∀ irqno, (s.node irqno).Ok)
    (fun irqno => ⟨rfl, fun hne => absurd rfl hne⟩) fun h hstep => nodesOk_irqLineStep h hstep

/-- A shared binding and an unshared one of the same data on line 0: the line is not shared
any more, and unbinding this data is sound. -/
theorem irqReachable_meets_sameData :
    ∃ s, Reachable (fun s op t => irqLineStep ⟨true⟩ s op = some t) (irqInit 16) s ∧
      (s.node 0).reference = 2 ∧ (IrqLineOp.unbind 0 7).Meets ⟨true⟩ s := by
  have hrun : perform (irqLineStep ⟨true⟩) (irqInit 16)
      [.bind 0 1 7 2 true, .bind 0 1 7 0 true] = some _ := rfl
  have hreach : Reachable (fun s op t => irqLineStep ⟨true⟩ s op = some t) (irqInit 16) _ :=
    Reachable.of_perform id hrun
  refine ⟨_, hreach, by decide, ((irqReachable_meets ⟨true⟩ 16 hreach).2 _).mpr ?_⟩
  intro _ _ _ a ha
  cases ha
  rfl

/-- Unbinding removes the action of other data from a line that is not shared; a binding that
gets no memory writes the controller and the flags; a line without bindings is handled through
a null pointer. -/
theorem exists_irq_not_meets :
    (∃ s, Reachable (fun s op t => irqLineStep ⟨true⟩ s op = some t) (irqInit 16) s ∧
      ¬(IrqLineOp.unbind 0 8).Meets ⟨true⟩ s) ∧
    ¬(IrqLineOp.bind 0 1 7 2 false).Meets ⟨true⟩ (irqInit 16) ∧
    irqHandle (irqInit 16) 0 (fun _ => .eok) = .error .nullDeref := by
  refine ⟨?_, ?_, rfl⟩
  · have hrun : perform (irqLineStep ⟨true⟩) (irqInit 16) [.bind 0 1 7 0 true] = some _ := rfl
    refine ⟨_, Reachable.of_perform id hrun, fun hmeets => ?_⟩
    have hsound := (IrqLineOp.meets_iff _).mp hmeets
    have hdata := hsound (by decide) (by decide) (by decide) ⟨1, 7, 0⟩ rfl
    cases hdata
  · intro hmeets
    have hsound := (IrqLineOp.meets_iff _).mp hmeets
    rcases hsound (by decide) with hmemory | ⟨hcontroller, -⟩
    · cases hmemory
    · cases hcontroller

end Nxos.Io
