import Nxos.Slots.Table

/-!
# Closing a slot

What it means that a slot is closed by its own handler, for one slot and for the exit of the
table, and exactly when the code does this.
-/

namespace Nxos.Slots

variable {η ω : Type} {table : ExposedObjectTable η} {objects : ℕ → ExposedObject η} {i : ℕ}

/-! ## The handler of a slot -/

def ExposedObjectTable.installed (table : ExposedObjectTable η) (i : ℕ) :
    Option (ExposedObject η) :=
  table.objects.bind fun objects =>
    if i < table.objectCount ∧ (objects i).object ≠ 0 then some (objects i) else none

def ExposedObject.closeCall (exobj : ExposedObject η) : Option (CloseCall η) :=
  exobj.close.map fun handler => ⟨handler, exobj.object, exobj.type⟩

def ExposedObjectTable.ownCall (table : ExposedObjectTable η) (i : ℕ) : Option (CloseCall η) :=
  (table.installed i).bind ExposedObject.closeCall

/-- The slot holds an object whose handler, if it has one, succeeds. -/
def Closable (close : SoltCloseHandlers η ω) (s : SlotState η ω) (i : ℕ) : Prop :=
  ∃ exobj, s.table.installed i = some exobj ∧
    ∀ call, exobj.closeCall = some call → (close call s.world).1 = .eok

/-- Closing a slot calls the handler of this slot with the object and the type of this slot,
and nothing else.  It clears the slot if the handler succeeds. -/
structure ClosesOwnSlot (close : SoltCloseHandlers η ω) (i : ℕ) (s : SlotState η ω)
    (r : NxError × SlotState η ω) : Prop where
  calls : r.2.calls = s.calls ++ (s.table.ownCall i).toList
  cleared : Closable close s i → r.1 = .eok ∧ r.2.table = s.table.set i .cleared
  unchanged : ¬Closable close s i → r.2.table = s.table

/-- The exit of a table closes each installed object once. -/
def ClosesEachOnce (s s' : SlotState η ω) : Prop :=
  s'.calls = s.calls ++ (List.range s.table.objectCount).filterMap s.table.ownCall

/-- What slot `0` holds closes this slot too. -/
def LikeFirst (table : ExposedObjectTable η) (i : ℕ) : Prop :=
  ∀ objects, table.objects = some objects → i < table.objectCount →
    if (objects 0).object = 0 then (objects i).object = 0
    else if (objects 0).close = none then
      objects i = .cleared ∨ (objects i).object ≠ 0 ∧ (objects i).close = none
    else objects i = objects 0

/-- At most slot `0` has a handler, which succeeds, or it fails and each slot has this call. -/
def OnlyFirstCloses (close : SoltCloseHandlers η ω) (s : SlotState η ω) : Prop :=
  (∀ i, 0 < i → s.table.ownCall i = none) ∧
      (∀ call, s.table.ownCall 0 = some call → (close call s.world).1 = .eok) ∨
    ∃ call, (close call s.world).1 ≠ .eok ∧
      ∀ i < s.table.objectCount, s.table.ownCall i = some call

namespace ExposedObjectTable

theorem installed_eq (hobjects : table.objects = some objects) (hi : i < table.objectCount) :
    table.installed i = if (objects i).object = 0 then none else some (objects i) := by
  unfold installed
  rw [hobjects, Option.bind_some]
  by_cases hzero : (objects i).object = 0
  · rw [if_pos hzero, if_neg fun hno => hno.2 hzero]
  · rw [if_neg hzero, if_pos ⟨hi, hzero⟩]

theorem installed_of_le (hi : table.objectCount ≤ i) : table.installed i = none := by
  unfold installed
  cases table.objects with
  | none => rfl
  | some objects => exact if_neg fun hno => absurd hno.1 (Nat.not_lt.mpr hi)

theorem installed_of_none (hobjects : table.objects = none) : table.installed i = none := by
  unfold installed
  rw [hobjects]
  rfl

theorem set_eq_self (hobjects : table.objects = some objects) : table.set i (objects i) = table := by
  unfold set
  rw [hobjects, Option.map_some, Function.update_eq_self, ← hobjects]

theorem objects_of_set (hobjects : table.objects = some objects) (exobj : ExposedObject η) :
    (table.set i exobj).objects = some (Function.update objects i exobj) := by
  unfold set
  rw [hobjects]
  rfl

end ExposedObjectTable

open ExposedObjectTable

variable {close : SoltCloseHandlers η ω} {s : SlotState η ω}

theorem not_closable_of_none (hnone : s.table.installed i = none) : ¬Closable close s i := by
  rintro ⟨exobj, hexobj, -⟩
  rw [hnone] at hexobj
  cases hexobj

theorem ownCall_of_none (hnone : table.installed i = none) : table.ownCall i = none := by
  unfold ownCall
  rw [hnone]
  rfl

theorem closesOwnSlot_refl (hnone : s.table.installed i = none) (err : NxError) :
    ClosesOwnSlot close i s (err, s) := by
  refine ⟨?_, fun hclosable => absurd hclosable (not_closable_of_none hnone), fun _ => rfl⟩
  rw [ownCall_of_none hnone]
  exact (List.append_nil s.calls).symm

/-! ## One slot -/

section Uninstall

variable (hobjects : s.table.objects = some objects) (hi : i < s.table.objectCount)

include hobjects hi

/-- Slot `0` is empty: nothing happens. -/
theorem uninstalll_empty (hzero : (objects 0).object = 0) :
    exposedObjectUninstalllAt close i s = (.efault, s) := by
  unfold exposedObjectUninstalllAt
  simp only [hobjects, if_neg (Nat.not_le.mpr hi), if_pos hzero]

/-- The object in slot `0` has no handler: the slot is cleared. -/
theorem uninstalll_silent (hzero : (objects 0).object ≠ 0) (hclose : (objects 0).close = none) :
    exposedObjectUninstalllAt close i s = (.eok, clearSolt i s) := by
  unfold exposedObjectUninstalllAt
  simp only [hobjects, if_neg (Nat.not_le.mpr hi), if_neg hzero, hclose]

/-- The handler of slot `0` is called. -/
theorem uninstalll_called {call : CloseCall η} (hzero : (objects 0).object ≠ 0)
    (hcall : (objects 0).closeCall = some call) :
    exposedObjectUninstalllAt close i s =
      if (close call s.world).1 ≠ .eok then callClose close call s
      else (.eok, clearSolt i (callClose close call s).2) := by
  obtain ⟨handler, hhandler, rfl⟩ := Option.map_eq_some_iff.mp hcall
  unfold exposedObjectUninstalllAt
  simp only [hobjects, if_neg (Nat.not_le.mpr hi), if_neg hzero, hhandler]
  rfl

theorem law_of_empty (hzero : (objects 0).object = 0) :
    ClosesOwnSlot close i s (exposedObjectUninstalllAt close i s) ↔ (objects i).object = 0 := by
  rw [uninstalll_empty hobjects hi hzero]
  have hinstalled := installed_eq hobjects hi
  constructor
  · intro hlaw
    by_contra hne
    rw [if_neg hne] at hinstalled
    by_cases hclosable : Closable close s i
    · cases (hlaw.cleared hclosable).1
    · -- the handler would have been called
      apply hclosable
      refine ⟨_, hinstalled, fun call hcall => ?_⟩
      have hcalls := hlaw.calls
      rw [show s.table.ownCall i = some call by rw [ownCall, hinstalled]; exact hcall] at hcalls
      exact absurd (List.self_eq_append_right.mp hcalls) (List.cons_ne_nil _ _)
  · intro hempty
    rw [if_pos hempty] at hinstalled
    exact closesOwnSlot_refl hinstalled _

theorem law_of_silent (hzero : (objects 0).object ≠ 0) (hclose : (objects 0).close = none) :
    ClosesOwnSlot close i s (exposedObjectUninstalllAt close i s) ↔
      objects i = .cleared ∨ (objects i).object ≠ 0 ∧ (objects i).close = none := by
  rw [uninstalll_silent hobjects hi hzero hclose]
  have hinstalled := installed_eq hobjects hi
  by_cases hempty : (objects i).object = 0
  · rw [if_pos hempty] at hinstalled
    rw [or_iff_left fun hno => hno.1 hempty]
    constructor
    · intro hlaw
      have htable := hlaw.unchanged (not_closable_of_none hinstalled)
      have hupdate : some (Function.update objects i .cleared) = some objects := by
        rw [← objects_of_set hobjects, ← hobjects]
        exact congrArg ExposedObjectTable.objects htable
      rw [← Option.some.inj hupdate, Function.update_self]
    · intro hcleared
      have hsame : clearSolt i s = s := by
        unfold clearSolt
        rw [← hcleared, set_eq_self hobjects]
      rw [hsame]
      exact closesOwnSlot_refl hinstalled _
  · rw [if_neg hempty] at hinstalled
    have hcleared : objects i ≠ .cleared := by
      intro hno
      rw [hno] at hempty
      exact hempty rfl
    rw [or_iff_right hcleared, and_iff_right hempty]
    constructor
    · intro hlaw
      by_contra hne
      obtain ⟨handler, hhandler⟩ := Option.ne_none_iff_exists'.mp hne
      have hcalls := hlaw.calls
      rw [ownCall, hinstalled, Option.bind_some, ExposedObject.closeCall, hhandler] at hcalls
      exact absurd (List.self_eq_append_right.mp hcalls) (List.cons_ne_nil _ _)
    · intro hnone
      have hcall : (objects i).closeCall = none := by
        unfold ExposedObject.closeCall
        rw [hnone]
        rfl
      have hclosable : Closable close s i := by
        refine ⟨_, hinstalled, fun call hno => ?_⟩
        rw [hcall] at hno
        cases hno
      refine ⟨?_, fun _ => ⟨rfl, rfl⟩, fun hno => absurd hclosable hno⟩
      rw [ownCall, hinstalled, Option.bind_some, hcall]
      exact (List.append_nil s.calls).symm

theorem law_of_called (call : CloseCall η) (hzero : (objects 0).object ≠ 0)
    (hcall : (objects 0).closeCall = some call) :
    ClosesOwnSlot close i s (exposedObjectUninstalllAt close i s) ↔ objects i = objects 0 := by
  have hcalls : (exposedObjectUninstalllAt close i s).2.calls = s.calls ++ [call] := by
    rw [uninstalll_called hobjects hi hzero hcall]
    split <;> rfl
  have hinstalled := installed_eq hobjects hi
  constructor
  · intro hlaw
    have hown : s.table.ownCall i = some call := by
      have heq := List.append_cancel_left (hcalls.symm.trans hlaw.calls)
      exact (Option.mem_toList.mp (heq ▸ List.mem_singleton_self call))
    obtain ⟨exobj, hexobj, hsame⟩ := Option.bind_eq_some_iff.mp hown
    have hne : (objects i).object ≠ 0 := by
      intro hempty
      rw [hinstalled, if_pos hempty] at hexobj
      cases hexobj
    rw [hinstalled, if_neg hne] at hexobj
    obtain rfl := Option.some.inj hexobj
    -- a call names the handler, the object and the type
    obtain ⟨handler, hhandler, heq⟩ := Option.map_eq_some_iff.mp hsame
    obtain ⟨handler', hhandler', rfl⟩ := Option.map_eq_some_iff.mp hcall
    obtain ⟨rfl, hobject, htype⟩ := CloseCall.mk.inj heq
    calc objects i = ⟨(objects i).object, (objects i).type, (objects i).close⟩ := rfl
      _ = ⟨(objects 0).object, (objects 0).type, (objects 0).close⟩ := by
        rw [hobject, htype, hhandler, hhandler']
      _ = objects 0 := rfl
  · intro hsame
    rw [hsame, if_neg hzero] at hinstalled
    have hown : s.table.ownCall i = some call := by
      rw [ownCall, hinstalled]
      exact hcall
    have hclosable : Closable close s i ↔ (close call s.world).1 = .eok := by
      constructor
      · rintro ⟨exobj, hexobj, hsuccess⟩
        obtain rfl := Option.some.inj (hinstalled.symm.trans hexobj)
        exact hsuccess call hcall
      · intro hsuccess
        refine ⟨_, hinstalled, fun call' hcall' => ?_⟩
        obtain rfl := Option.some.inj (hcall.symm.trans hcall')
        exact hsuccess
    refine ⟨?_, fun hyes => ?_, fun hno => ?_⟩
    · rw [hcalls, hown]
      rfl
    · rw [uninstalll_called hobjects hi hzero hcall,
        if_neg (not_not.mpr (hclosable.mp hyes))]
      exact ⟨rfl, rfl⟩
    · rw [uninstalll_called hobjects hi hzero hcall,
        if_pos fun hsuccess => hno (hclosable.mpr hsuccess)]
      rfl

end Uninstall

/-- A slot is closed by its own handler exactly when what slot `0` holds closes it too. -/
theorem closesOwnSlot_iff : ClosesOwnSlot close i s (exposedObjectUninstalllAt close i s) ↔
    LikeFirst s.table i := by
  cases hobjects : s.table.objects with
  | none =>
      refine iff_of_true ?_ fun objects hno => ?_
      · unfold exposedObjectUninstalllAt
        simp only [hobjects]
        exact closesOwnSlot_refl (installed_of_none hobjects) _
      · rw [hobjects] at hno
        cases hno
  | some objects =>
      by_cases hi : i < s.table.objectCount
      · have hlike : LikeFirst s.table i ↔
            if (objects 0).object = 0 then (objects i).object = 0
            else if (objects 0).close = none then
              objects i = .cleared ∨ (objects i).object ≠ 0 ∧ (objects i).close = none
            else objects i = objects 0 := by
          refine ⟨fun h => h objects hobjects hi, fun h objects' hobjects' _ => ?_⟩
          obtain rfl := Option.some.inj (hobjects.symm.trans hobjects')
          exact h
        rw [hlike]
        by_cases hzero : (objects 0).object = 0
        · rw [if_pos hzero]
          exact law_of_empty hobjects hi hzero
        · rw [if_neg hzero]
          cases hclose : (objects 0).close with
          | none =>
              rw [if_pos rfl]
              exact law_of_silent hobjects hi hzero hclose
          | some handler =>
              rw [if_neg (Option.some_ne_none handler)]
              refine law_of_called hobjects hi
                ⟨handler, (objects 0).object, (objects 0).type⟩ hzero ?_
              unfold ExposedObject.closeCall
              rw [hclose]
              rfl
      · refine iff_of_true ?_ fun _ _ hno => absurd hno hi
        unfold exposedObjectUninstalllAt
        simp only [hobjects, if_pos (Nat.not_lt.mp hi)]
        exact closesOwnSlot_refl (installed_of_le (Nat.not_lt.mp hi)) _

/-! ## The whole table -/

/-- When slot `0` is empty, no slot is closed. -/
theorem uninstalll_fold_empty (hobjects : s.table.objects = some objects)
    (hzero : (objects 0).object = 0) (slots : List ℕ) :
    slots.foldl (fun s i => (exposedObjectUninstalllAt close i s).2) s = s := by
  induction slots with
  | nil => rfl
  | cons i slots ih =>
      have hsame : (exposedObjectUninstalllAt close i s).2 = s := by
        by_cases hi : i < s.table.objectCount
        · rw [uninstalll_empty hobjects hi hzero]
        · unfold exposedObjectUninstalllAt
          simp only [hobjects, if_pos (Nat.not_lt.mp hi)]
      rw [List.foldl_cons, hsame]
      exact ih

/-- While slot `0` holds an object with a handler, this handler is called for every slot. -/
theorem uninstalll_fold_called {call : CloseCall η} (slots : List ℕ)
    (hobjects : s.table.objects = some objects) (hzero : (objects 0).object ≠ 0)
    (hcall : (objects 0).closeCall = some call)
    (hslots : ∀ i ∈ slots, 0 < i ∧ i < s.table.objectCount) :
    (slots.foldl (fun s i => (exposedObjectUninstalllAt close i s).2) s).calls =
      s.calls ++ List.replicate slots.length call := by
  induction slots generalizing s objects with
  | nil => exact (List.append_nil s.calls).symm
  | cons i slots ih =>
      obtain ⟨hpos, hi⟩ := hslots i (List.mem_cons_self ..)
      have hrest := fun j hj => hslots j (List.mem_cons_of_mem i hj)
      -- slot `0` stays as it is, whether the handler succeeds or not
      obtain ⟨objects', hobjects', hfirst, hcount, hcalls⟩ :
          ∃ objects', (exposedObjectUninstalllAt close i s).2.table.objects = some objects' ∧
            objects' 0 = objects 0 ∧
            (exposedObjectUninstalllAt close i s).2.table.objectCount = s.table.objectCount ∧
            (exposedObjectUninstalllAt close i s).2.calls = s.calls ++ [call] := by
        rw [uninstalll_called hobjects hi hzero hcall]
        split
        · exact ⟨objects, hobjects, rfl, rfl, rfl⟩
        · exact ⟨_, objects_of_set hobjects _, Function.update_of_ne (Nat.ne_of_lt hpos) .., rfl,
            rfl⟩
      rw [List.foldl_cons, ih hobjects' (hfirst ▸ hzero) (hfirst ▸ hcall) (hcount ▸ hrest), hcalls,
        List.append_assoc]
      rfl

theorem filterMap_eq_replicate_iff {α β : Type} {f : α → Option β} {b : β} (l : List α) :
    l.filterMap f = List.replicate l.length b ↔ ∀ a ∈ l, f a = some b := by
  constructor
  · intro heq
    induction l with
    | nil => exact fun a ha => absurd ha List.not_mem_nil
    | cons a l ih =>
        cases hfa : f a with
        | none =>
            rw [List.filterMap_cons_none hfa] at heq
            have hlength := congrArg List.length heq
            rw [List.length_replicate, List.length_cons] at hlength
            have hle := List.length_filterMap_le f l
            omega
        | some b' =>
            rw [List.filterMap_cons_some hfa, List.length_cons, List.replicate_succ] at heq
            obtain ⟨rfl, hrest⟩ := List.cons.inj heq
            intro c hc
            rcases List.mem_cons.mp hc with rfl | hc
            · exact hfa
            · exact ih hrest c hc
  · intro hall
    rw [← List.filterMap_congr fun a ha => (hall a ha).symm, List.filterMap_eq_map',
      List.map_const']

theorem ownCall_eq (hobjects : table.objects = some objects) (hi : i < table.objectCount)
    (hne : (objects i).object ≠ 0) : table.ownCall i = (objects i).closeCall := by
  rw [ownCall, installed_eq hobjects hi, if_neg hne]
  rfl

theorem exists_slots (table : ExposedObjectTable η) : ∃ rest : List ℕ,
    List.range table.objectCount = 0 :: rest ∧ ∀ i, i ∈ rest ↔ 0 < i ∧ i < table.objectCount := by
  obtain ⟨n, hn⟩ := Nat.exists_eq_succ_of_ne_zero (Nat.pos_iff_ne_zero.mp table.positive)
  refine ⟨(List.range n).map Nat.succ, ?_, fun i => ?_⟩
  · rw [hn, List.range_succ_eq_map]
  · rw [hn, List.mem_map]
    constructor
    · rintro ⟨j, hj, rfl⟩
      exact ⟨Nat.succ_pos j, Nat.succ_lt_succ (List.mem_range.mp hj)⟩
    · rintro ⟨hpos, hi⟩
      exact ⟨i - 1, List.mem_range.mpr (by omega), by omega⟩

section Exit

variable {s' : SlotState η ω} {rest : List ℕ} {call : CloseCall η}
  (hrange : List.range s.table.objectCount = 0 :: rest)
  (hrest : ∀ i, i ∈ rest ↔ 0 < i ∧ i < s.table.objectCount)

include hrest

theorem ownCall_none_iff :
    (∀ i ∈ rest, s.table.ownCall i = none) ↔ ∀ i, 0 < i → s.table.ownCall i = none := by
  refine ⟨fun h i hpos => ?_, fun h i hi => h i ((hrest i).mp hi).1⟩
  by_cases hi : i < s.table.objectCount
  · exact h i ((hrest i).mpr ⟨hpos, hi⟩)
  · exact ownCall_of_none (installed_of_le (Nat.not_lt.mp hi))

include hrange

theorem closesEachOnce_silent (hfirst : s.table.ownCall 0 = none) (hcalls : s'.calls = s.calls) :
    ClosesEachOnce s s' ↔ OnlyFirstCloses close s := by
  unfold ClosesEachOnce OnlyFirstCloses
  rw [hcalls, hrange, List.filterMap_cons_none hfirst, List.self_eq_append_right,
    List.filterMap_eq_nil_iff, ownCall_none_iff hrest, or_iff_left]
  · refine ⟨fun h => ⟨h, fun call hno => ?_⟩, And.left⟩
    rw [hfirst] at hno
    cases hno
  · rintro ⟨call, -, hall⟩
    have hno := hall 0 s.table.positive
    rw [hfirst] at hno
    cases hno

/-- The handler of slot `0` is called once. -/
theorem closesEachOnce_success (hfirst : s.table.ownCall 0 = some call)
    (hsuccess : (close call s.world).1 = .eok) (hcalls : s'.calls = s.calls ++ [call]) :
    ClosesEachOnce s s' ↔ OnlyFirstCloses close s := by
  unfold ClosesEachOnce OnlyFirstCloses
  rw [hcalls, hrange, List.filterMap_cons_some hfirst, List.append_cancel_left_eq,
    List.cons.injEq, and_iff_right rfl, eq_comm, List.filterMap_eq_nil_iff,
    ownCall_none_iff hrest, or_iff_left]
  · refine ⟨fun h => ⟨h, fun call' hcall' => ?_⟩, And.left⟩
    obtain rfl := Option.some.inj (hfirst.symm.trans hcall')
    exact hsuccess
  · rintro ⟨call', hfails, hall⟩
    obtain rfl := Option.some.inj (hfirst.symm.trans (hall 0 s.table.positive))
    exact hfails hsuccess

/-- The handler of slot `0` fails and is called for every slot. -/
theorem closesEachOnce_failure (hfirst : s.table.ownCall 0 = some call)
    (hfails : (close call s.world).1 ≠ .eok)
    (hcalls : s'.calls = s.calls ++ [call] ++ List.replicate rest.length call) :
    ClosesEachOnce s s' ↔ OnlyFirstCloses close s := by
  unfold ClosesEachOnce OnlyFirstCloses
  rw [hcalls, hrange, List.filterMap_cons_some hfirst, List.append_assoc,
    List.append_cancel_left_eq, List.singleton_append, List.cons.injEq, and_iff_right rfl,
    eq_comm, filterMap_eq_replicate_iff, or_iff_right fun hno => hfails (hno.2 call hfirst)]
  constructor
  · intro hall
    refine ⟨call, hfails, fun i hi => ?_⟩
    rcases Nat.eq_zero_or_pos i with rfl | hpos
    · exact hfirst
    · exact hall i ((hrest i).mpr ⟨hpos, hi⟩)
  · rintro ⟨call', -, hall⟩ i hi
    obtain rfl := Option.some.inj (hfirst.symm.trans (hall 0 s.table.positive))
    exact hall i ((hrest i).mp hi).2

end Exit

/-- The exit of a table closes each object once exactly when at most slot `0` has a handler,
which succeeds, or it fails and each slot has the same call. -/
theorem closesEachOnce_iff :
    ClosesEachOnce s (exposedObjectTableExit close s) ↔ OnlyFirstCloses close s := by
  obtain ⟨rest, hrange, hrest⟩ := exists_slots s.table
  have hexit : exposedObjectTableExit close s =
      rest.foldl (fun s i => (exposedObjectUninstalllAt close i s).2)
        (exposedObjectUninstalllAt close 0 s).2 := by
    unfold exposedObjectTableExit
    rw [hrange, List.foldl_cons]
  rw [hexit]
  cases hobjects : s.table.objects with
  | none =>
      have hone : ∀ i, (exposedObjectUninstalllAt close i s).2 = s := by
        intro i
        unfold exposedObjectUninstalllAt
        simp only [hobjects]
      have hsame : ∀ slots : List ℕ,
          slots.foldl (fun s i => (exposedObjectUninstalllAt close i s).2) s = s := by
        intro slots
        induction slots with
        | nil => rfl
        | cons i slots ih => rw [List.foldl_cons, hone, ih]
      rw [hone, hsame]
      exact closesEachOnce_silent hrange hrest (ownCall_of_none (installed_of_none hobjects)) rfl
  | some objects =>
      -- once slot `0` is cleared, no slot is closed any more
      have hcleared : ∀ s' : SlotState η ω, s'.table = s.table →
          rest.foldl (fun s i => (exposedObjectUninstalllAt close i s).2) (clearSolt 0 s') =
            clearSolt 0 s' := by
        intro s' htable
        have hset : (clearSolt 0 s').table.objects =
            some (Function.update objects 0 .cleared) :=
          objects_of_set (by rw [htable, hobjects]) .cleared
        refine uninstalll_fold_empty hset ?_ rest
        rw [Function.update_self]
        rfl
      by_cases hzero : (objects 0).object = 0
      · rw [uninstalll_empty hobjects s.table.positive hzero]
        refine closesEachOnce_silent hrange hrest (ownCall_of_none ?_)
          (by rw [uninstalll_fold_empty hobjects hzero])
        rw [installed_eq hobjects s.table.positive, if_pos hzero]
      · have hown := ownCall_eq hobjects s.table.positive hzero
        cases hcall : (objects 0).closeCall with
        | none =>
            have hclose : (objects 0).close = none := Option.map_eq_none_iff.mp hcall
            rw [uninstalll_silent hobjects s.table.positive hzero hclose]
            exact closesEachOnce_silent hrange hrest (hown.trans hcall) (by rw [hcleared s rfl]; rfl)
        | some call =>
            rw [hcall] at hown
            rw [uninstalll_called hobjects s.table.positive hzero hcall]
            by_cases hsuccess : (close call s.world).1 = .eok
            · rw [if_neg (not_not.mpr hsuccess)]
              exact closesEachOnce_success hrange hrest hown hsuccess
                (congrArg SlotState.calls (hcleared (callClose close call s).2 rfl))
            · rw [if_pos hsuccess]
              exact closesEachOnce_failure hrange hrest hown hsuccess
                (uninstalll_fold_called rest (s := (callClose close call s).2) hobjects hzero hcall
                  fun i hi => (hrest i).mp hi)

/-- For every table: a slot is closed by its own handler exactly when what slot `0` holds
closes it too, and the exit closes each object once exactly when at most slot `0` has a
handler, which succeeds, or it fails and each slot has the same call. -/
theorem exposedObject_closes_iff (close : SoltCloseHandlers η ω) (s : SlotState η ω)
    (solt : BitVec 32) :
    (ClosesOwnSlot close (soltIndex solt) s (exposedObjectUninstalll close solt s) ↔
      LikeFirst s.table (soltIndex solt)) ∧
    (ClosesEachOnce s (exposedObjectTableExit close s) ↔ OnlyFirstCloses close s) :=
  ⟨closesOwnSlot_iff, closesEachOnce_iff⟩

/-- The table of a process with its thread in slot `0` and a semaphore in slot `1`. -/
def threadAndSemaphore : SlotState Unit Unit where
  table :=
    { objectCount := exobjDefaultNr
      objects := some fun i =>
        if i = 0 then ⟨1, .thread, none⟩
        else if i = 1 then ⟨2, .semaphore, some ()⟩
        else .cleared
      positive := by decide
      bounded := by decide }
  world := ()
  calls := []

/-- The semaphore is not closed, neither by closing its slot nor at the exit. -/
theorem uninstalll_skipsHandler :
    ¬ClosesOwnSlot (fun _ _ => (.eok, ())) 1 threadAndSemaphore
        (exposedObjectUninstalll (fun _ _ => (.eok, ())) 1 threadAndSemaphore) ∧
      ¬ClosesEachOnce threadAndSemaphore
        (exposedObjectTableExit (fun _ _ => (.eok, ())) threadAndSemaphore) := by
  refine ⟨fun hlaw => ?_, fun hlaw => ?_⟩
  · exact absurd hlaw.calls (by decide)
  · exact absurd hlaw (by unfold ClosesEachOnce; decide)

end Nxos.Slots
