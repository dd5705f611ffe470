import Mathlib.Data.List.Basic
import ClassWeave.Proofs.Binding.Histories
import ClassWeave.Proofs.Idempotence

/-!
# The places of a callback

A callback goes in front of the first instruction of a body or in front of each of its returns, and
nothing else of the body moves. It goes into a body that does not call the callback yet; a body
with a call of it anywhere, from an earlier edit or its own, stays as it is.
-/

set_option autoImplicit false

namespace ClassWeave

/-- The instructions stand in front of the first one of a body, or directly in front of each of its
returns. -/
def Placement.Covers (placement : Placement) (splice insns : List Insn) : Prop :=
  match placement with
  | .before => splice <+: insns
  | .after => ∀ front op back, insns = front ++ .simple op :: back → op.isReturn = true →
    splice <:+ front

/-- What a callback has besides its call and its arguments: the result of the method is kept in the
spare slot, cast or dropped. -/
def Insn.Handles (temp : UInt16) : Insn → Prop
  | .var _ slot => slot = temp
  | .typeOp _ _ => True
  | .simple op => op = Opcode.pop ∨ op = Opcode.pop2
  | _ => False

theorem Insn.Handles.passes {temp : UInt16} {i : Insn} (h : i.Handles temp) :
    i.isReturn = false := by
  cases i with
  | simple op => rcases h with rfl | rfl <;> rfl
  | _ => rfl

namespace Code

variable {splice insns : List Insn}

theorem spliceReturn_eq (splice : List Insn) (i : Insn) :
    spliceReturn (fun _ => splice) i = (if i.isReturn then splice else []) ++ [i] := by
  cases i with
  | simple op => cases isReturn : op.isReturn <;> simp [spliceReturn, Insn.isReturn, isReturn]
  | _ => rfl

theorem covers_spliceReturn (plain : ∀ i ∈ splice, i.isReturn = false) :
    Placement.after.Covers splice (insns.flatMap (spliceReturn fun _ => splice)) := by
  induction insns with
  | nil =>
    intro front op back whole isReturn
    simp at whole
  | cons insn rest ih =>
    intro front op back whole isReturn
    rw [List.flatMap_cons, spliceReturn_eq, List.append_assoc] at whole
    rcases List.append_eq_append_iff.1 whole with ⟨more, rfl, behind⟩ | ⟨more, inside, behind⟩
    · cases more with
      | nil =>
        obtain ⟨rfl, _⟩ := List.cons.inj behind
        simp [Insn.isReturn, isReturn]
      | cons next more =>
        obtain ⟨rfl, later⟩ := List.cons.inj behind
        have found : splice <:+ more := ih more op back later isReturn
        rw [List.append_cons]
        exact found.trans (List.suffix_append ..)
    · cases more with
      | nil =>
        obtain ⟨rfl, _⟩ := List.cons.inj behind
        have front_eq : front = splice := by simpa [Insn.isReturn, isReturn] using inside.symm
        rw [front_eq]
      | cons next more =>
        obtain ⟨rfl, _⟩ := List.cons.inj behind
        have mem : Insn.simple op ∈ if insn.isReturn then splice else [] := inside ▸ by simp
        split at mem
        · cases isReturn.symm.trans (plain _ mem)
        · cases mem

theorem insns_spliceAt_after (code : Code) (splice : List Insn) :
    (code.spliceAt .after splice).insns = code.insns.flatMap (spliceReturn fun _ => splice) := by
  by_cases none : code.returns = []
  · have alone : ∀ i ∈ code.insns, spliceReturn (fun _ => splice) i = [i] := by
      intro i mem
      cases i with
      | simple op => simp [spliceReturn, returns_eq_nil.1 none op mem]
      | _ => rfl
    rw [spliceAt_of_no_return none, List.flatMap_congr alone, List.flatMap_singleton']
  · rw [spliceAt, spliceReturns, if_neg (mt List.isEmpty_iff.1 none), insns_markStale]

theorem covers_spliceAt {code : Code} {placement : Placement}
    (plain : ∀ i ∈ splice, i.isReturn = false) :
    placement.Covers splice (code.spliceAt placement splice).insns := by
  cases placement with
  | before => simp [spliceAt, prepend, insns_markStale, Placement.Covers]
  | after => exact insns_spliceAt_after code splice ▸ covers_spliceReturn plain

end Code

namespace Callback

/-- The method at a position is one that the callback goes to: the first one of its signature, or a
constructor. -/
def GoesTo (cb : Callback) (c : ClassFile) (i : Nat) : Prop :=
  match cb.target with
  | .method name desc => c.methods.findIdx? (Method.hasSignature name desc) = some i
  | .constructors => ∃ m, c.methods[i]? = some m ∧ m.name = "<init>"

/-- The parameters of the method start with those of the callback; the last one of a callback behind
a method with a result is for that result. -/
def Matches (cb : Callback) (hooked callback : MethodDescriptor) : Prop :=
  let k := Mixin.shared cb.placement hooked callback
  k ≤ hooked.params.length ∧ callback.params.take k = hooked.params.take k

instance (cb : Callback) (hooked callback : MethodDescriptor) :
    Decidable (cb.Matches hooked callback) := inferInstanceAs (Decidable (_ ∧ _))

end Callback

namespace Edit

open Synthesis Mixin

theorem handles_convert {given wanted : FieldType} {context : String} {insns : List Insn}
    (temp : UInt16) (made : convert given wanted context = .ok insns) :
    ∀ i ∈ insns, i.Handles temp := by
  unfold convert at made
  split at made
  · cases made
    simp
  · split at made
    · split at made
      · cases made
        simp
      · cases made
        simp [Insn.Handles]
    · cases made

theorem handles_dropValue (temp : UInt16) (t : Option FieldType) :
    ∀ i ∈ (dropValue t).toList, i.Handles temp := by
  cases t with
  | none => simp [dropValue]
  | some t => cases wide : t.isWide <;> simp [dropValue, Insn.Handles, wide]

section

variable {cb : Callback} {hookedStatic : Bool} {hooked callback : MethodDescriptor}
  {temp : UInt16} {context : String} {insns : List Insn}

theorem callbackCall_cases {passed : List FieldType} {pending : Option (FieldType × FieldType)}
    (made : callbackCall cb hookedStatic passed pending temp context = .ok insns) :
    ∃ value, (∀ i ∈ value, i.Handles temp) ∧
      insns = receiver (cb.invoke == Opcode.invokestatic) ++
        loadParams passed (if hookedStatic then 0 else 1) ++ value ++
        [.method cb.invoke cb.method false] := by
  unfold callbackCall at made
  dsimp only at made
  split at made
  · obtain ⟨converted, convertible, made⟩ := bind_ok_iff.1 made
    cases made
    refine ⟨_, ?_, rfl⟩
    simpa [Insn.Handles] using handles_convert temp convertible
  · cases made
    exact ⟨[], by simp, rfl⟩

theorem aroundCall_cases {replacesResult : Bool} {callbackResult pending : Option FieldType}
    {around : Option (List Insn)}
    (made : aroundCall replacesResult callbackResult pending temp context insns = .ok around) :
    ∃ save rest, (∀ i ∈ save ++ rest, i.Handles temp) ∧
      around = some (save ++ insns ++ rest) := by
  unfold aroundCall at made
  split at made
  · rename_i result
    split at made
    · split at made
      · cases made
      · obtain ⟨converted, convertible, made⟩ := bind_ok_iff.1 made
        cases made
        refine ⟨[.var result.storeOpcode temp], converted, ?_, rfl⟩
        simpa [Insn.Handles] using handles_convert temp convertible
    · cases made
      refine ⟨[.var result.storeOpcode temp],
        (dropValue callbackResult).toList ++ [.var result.loadOpcode temp], ?_, by simp⟩
      have dropped := handles_dropValue temp callbackResult
      simpa [Insn.Handles, or_imp, forall_and] using dropped
  · dsimp only at made
    split at made
    · cases made
    · cases made
      exact ⟨[], _, handles_dropValue temp callbackResult, rfl⟩

/-- A callback is left out where its parameters do not match; else its instructions are those of its
call and those around it. -/
theorem callbackInsns_parts {outcome : Option (List Insn)}
    (made : callbackInsns cb hookedStatic hooked callback temp context = .ok outcome) :
    match outcome with
    | none => ¬ cb.Matches hooked callback
    | some _ => cb.Matches hooked callback ∧
      ((cb.invoke == Opcode.invokestatic) = false → hookedStatic = false) ∧ ∃ call,
      callbackCall cb hookedStatic (hooked.params.take (shared cb.placement hooked callback))
        (passedResult (pendingResult cb.placement hooked) callback) temp context = .ok call ∧
      aroundCall cb.replacesResult callback.result (pendingResult cb.placement hooked) temp context
        call = .ok outcome := by
  unfold callbackInsns at made
  by_cases static : cb.invoke ≠ Opcode.invokestatic ∧ hookedStatic = true
  · rw [if_pos static] at made
    cases made
  · rw [if_neg static] at made
    by_cases ends : cb.replacesResult = true ∧ cb.placement = .before
    · rw [if_pos ends] at made
      cases made
    · rw [if_neg ends] at made
      dsimp only at made
      rw [length_passed] at made
      by_cases unmatched : hooked.params.length < shared cb.placement hooked callback ∨
          callback.params.take (shared cb.placement hooked callback) ≠
            hooked.params.take (shared cb.placement hooked callback)
      · rw [if_pos unmatched] at made
        cases made
        rintro ⟨enough, same⟩
        exact unmatched.elim (by omega) fun differs => differs same
      · rw [if_neg unmatched] at made
        obtain ⟨call, called, made⟩ := bind_ok_iff.1 made
        have fits : cb.Matches hooked callback := by
          rw [not_or, not_lt, not_not] at unmatched
          exact unmatched
        have around : aroundCall cb.replacesResult callback.result
          (pendingResult cb.placement hooked) temp context call = .ok outcome := made
        obtain ⟨_, _, _, rfl⟩ := aroundCall_cases around
        refine ⟨fits, fun dispatched => ?_, call, called, around⟩
        rw [beq_eq_false_iff_ne] at dispatched
        simpa [dispatched] using static

/-- The instructions of a callback are its call with what loads its arguments in front, and around
them what handles the result of the method. -/
theorem callbackInsns_cases {outcome : Option (List Insn)}
    (made : callbackInsns cb hookedStatic hooked callback temp context = .ok outcome) :
    match outcome with
    | none => ¬ cb.Matches hooked callback
    | some insns => cb.Matches hooked callback ∧
      ((cb.invoke == Opcode.invokestatic) = false → hookedStatic = false) ∧ ∃ save value rest,
      (∀ i ∈ save ++ value ++ rest, i.Handles temp) ∧
      insns = save ++ (receiver (cb.invoke == Opcode.invokestatic) ++
        loadParams (hooked.params.take (shared cb.placement hooked callback))
          (if hookedStatic then 0 else 1) ++ value ++ [.method cb.invoke cb.method false]) ++
        rest := by
  have parts := callbackInsns_parts made
  cases outcome with
  | none => exact parts
  | some insns =>
    obtain ⟨fits, dispatched, call, called, made⟩ := parts
    obtain ⟨value, handles, rfl⟩ := callbackCall_cases called
    obtain ⟨save, rest, around, whole⟩ := aroundCall_cases made
    obtain rfl := Option.some.inj whole
    refine ⟨fits, dispatched, save, value, rest, ?_, rfl⟩
    simp only [List.forall_mem_append] at around ⊢
    exact ⟨⟨around.1, handles⟩, around.2⟩

theorem isSome_aroundCall (replacesResult : Bool) (callbackResult pending : Option FieldType)
    (temp temp' : UInt16) (call call' : List Insn) :
    (aroundCall replacesResult callbackResult pending temp' context call').map Option.isSome =
      (aroundCall replacesResult callbackResult pending temp context call).map Option.isSome := by
  cases pending with
  | none => cases replacesResult <;> cases callbackResult <;> rfl
  | some result =>
    cases replacesResult with
    | false => rfl
    | true =>
      cases callbackResult with
      | none => rfl
      | some given =>
        unfold aroundCall
        dsimp only
        cases convert given result context <;> rfl

theorem isSome_callbackInsns (temp temp' : UInt16) :
    (callbackInsns cb hookedStatic hooked callback temp' context).map Option.isSome =
      (callbackInsns cb hookedStatic hooked callback temp context).map Option.isSome := by
  unfold callbackInsns
  by_cases static : cb.invoke ≠ Opcode.invokestatic ∧ hookedStatic = true
  · rw [if_pos static, if_pos static]
    rfl
  rw [if_neg static, if_neg static]
  by_cases ends : cb.replacesResult = true ∧ cb.placement = .before
  · rw [if_pos ends, if_pos ends]
    rfl
  rw [if_neg ends, if_neg ends]
  dsimp only
  rw [length_passed]
  split
  · rfl
  show (callbackCall cb hookedStatic _ (passedResult (pendingResult cb.placement hooked) callback)
      temp' context >>= aroundCall cb.replacesResult callback.result
        (pendingResult cb.placement hooked) temp' context).map Option.isSome =
    (callbackCall cb hookedStatic _ (passedResult (pendingResult cb.placement hooked) callback)
      temp context >>= aroundCall cb.replacesResult callback.result
        (pendingResult cb.placement hooked) temp context).map Option.isSome
  cases passedResult (pendingResult cb.placement hooked) callback with
  | none => exact isSome_aroundCall ..
  | some value =>
    unfold callbackCall
    dsimp only
    cases convert value.1 value.2 context with
    | error e => rfl
    | ok converted => exact isSome_aroundCall ..

theorem exists_callbackInsns {temp : UInt16} {answer : Option (List Insn)}
    (made : callbackInsns cb hookedStatic hooked callback temp context = .ok answer)
    (temp' : UInt16) : ∃ answer',
      callbackInsns cb hookedStatic hooked callback temp' context = .ok answer' ∧
        answer'.isSome = answer.isSome := by
  have same : (callbackInsns cb hookedStatic hooked callback temp' context).map Option.isSome =
      (callbackInsns cb hookedStatic hooked callback temp context).map Option.isSome :=
    isSome_callbackInsns temp temp'
  rw [made] at same
  cases found : callbackInsns cb hookedStatic hooked callback temp' context with
  | error e =>
    rw [found] at same
    cases same
  | ok answer' =>
    rw [found] at same
    exact ⟨answer', rfl, Except.ok.inj same⟩

theorem isReturn_loadParams (params : List FieldType) (slot : UInt16) :
    ∀ i ∈ loadParams params slot, i.isReturn = false := by
  induction params generalizing slot with
  | nil => simp [loadParams]
  | cons t rest ih => simpa [loadParams, Insn.isReturn] using ih _

theorem isReturn_callbackInsns
    (made : callbackInsns cb hookedStatic hooked callback temp context = .ok (some insns)) :
    ∀ i ∈ insns, i.isReturn = false := by
  obtain ⟨_, _, save, value, rest, handles, rfl⟩ := callbackInsns_cases made
  simp only [List.forall_mem_append] at handles
  have loads : ∀ i ∈ receiver (cb.invoke == Opcode.invokestatic), i.isReturn = false := by
    unfold receiver
    split <;> simp [Insn.isReturn]
  simp only [List.forall_mem_append, List.forall_mem_singleton]
  exact ⟨⟨fun i mem => (handles.1.1 i mem).passes, ⟨⟨loads, isReturn_loadParams _ _⟩,
    fun i mem => (handles.1.2 i mem).passes⟩, rfl⟩, fun i mem => (handles.2 i mem).passes⟩

end

variable {cb : Callback} {callback : MethodDescriptor} {c c' : ClassFile} {m : Method}
  {sites : List Nat} {i : Nat}

/-- The spare slot of a method, behind its parameters and what its body uses. -/
def spareSlotOf (m : Method) (code : Code) (hooked : MethodDescriptor) : UInt16 :=
  spareSlot code (hooked.paramSlots + if m.isStatic then 0 else 1)

theorem spliceMethod_cases {owner : String} {outcome : CallbackOutcome}
    (made : spliceMethod cb callback owner m = .ok outcome) :
    ∃ code, m.code = some code ∧
      match outcome with
      | .present => code.hasCallOf cb.method = true
      | .skipped => code.hasCallOf cb.method = false ∧ ∃ hooked, m.descriptor = .ok hooked ∧
        ¬ cb.Matches hooked callback ∧ cb.target = .constructors
      | .spliced code' => code.hasCallOf cb.method = false ∧ ∃ hooked splice context,
        m.descriptor = .ok hooked ∧ cb.Matches hooked callback ∧
        callbackInsns cb m.isStatic hooked callback (spareSlotOf m code hooked) context =
          .ok (some splice) ∧
        code' = code.spliceAt cb.placement splice := by
  unfold spliceMethod at made
  dsimp only at made
  split at made
  · cases made
  · rename_i code body
    refine ⟨code, body, ?_⟩
    split at made
    · rename_i present
      cases made
      exact present
    · rename_i absent
      obtain ⟨hooked, described, made⟩ := bind_ok_iff.1 made
      obtain ⟨answer, found, made⟩ := bind_ok_iff.1 made
      have cases := callbackInsns_cases found
      split at made
      · cases made
        exact ⟨Bool.eq_false_iff.2 absent, hooked, _, _, orBadFormat_ok_iff.1 described, cases.1,
          found, rfl⟩
      · split at made
        · rename_i constructors
          cases made
          exact ⟨Bool.eq_false_iff.2 absent, hooked, orBadFormat_ok_iff.1 described, cases,
            constructors⟩
        · cases made

theorem mem_callbackSites_iff (found : callbackSites cb c = .ok sites) :
    i ∈ sites ↔ cb.GoesTo c i := by
  unfold callbackSites at found
  unfold Callback.GoesTo
  cases target : cb.target with
  | method name desc =>
    rw [target] at found
    dsimp only at found ⊢
    split at found
    · rename_i index
      cases found
      rw [index]
      simp [eq_comm]
    · cases found
  | constructors =>
    rw [target] at found
    dsimp only at found ⊢
    split at found
    · cases found
    · cases found
      simp only [List.mem_filter, List.mem_range]
      cases here : c.methods[i]? with
      | none => simp
      | some m =>
        have inside := (List.getElem?_eq_some_iff.1 here).1
        simp [inside]

theorem spliceMethod_of_run {ctx : EditContext} {now : Bool}
    (run : ((Edit.injectCallback cb).apply ctx).run c = (.ok now, c')) (goes : cb.GoesTo c i)
    (found : c.methods[i]? = some m) :
    ∃ callback outcome, MethodDescriptor.parse cb.method.desc = .ok callback ∧
      spliceMethod cb callback c.name m = .ok outcome ∧
      c'.methods[i]? = some (splicedInto cb callback c.name m) := by
  obtain ⟨sites, callback, located, parsed, spliced⟩ := applyCallback_ok_iff.1 run
  obtain ⟨all, _, _⟩ := splicedAll_of_run (nodup_callbackSites located) spliced
  have mem : i ∈ sites := (mem_callbackSites_iff located).2 goes
  obtain ⟨outcome, here⟩ := all.answered i mem
  rw [outcomeAt_eq found] at here
  exact ⟨callback, outcome, parsed, here, all.found mem found⟩

/-- Every method that a callback goes to and that did not call it has it at every place of the
placement, and no other change; a method that called it is left alone, and so is a constructor with
other parameters. -/
theorem covers_of_run {ctx : EditContext} {now : Bool}
    (run : ((Edit.injectCallback cb).apply ctx).run c = (.ok now, c')) (goes : cb.GoesTo c i)
    (found : c.methods[i]? = some m) :
    ∃ code m', m.code = some code ∧ c'.methods[i]? = some m' ∧
      (code.hasCallOf cb.method = true → m' = m) ∧
      (code.hasCallOf cb.method = false → ∃ hooked callback, m.descriptor = .ok hooked ∧
        MethodDescriptor.parse cb.method.desc = .ok callback ∧
        (cb.Matches hooked callback → ∃ splice context code',
          callbackInsns cb m.isStatic hooked callback (spareSlotOf m code hooked) context =
            .ok (some splice) ∧
          CallsOnce (.method cb.invoke cb.method false) splice ∧
          m' = { m with code := some code' } ∧ code' = code.spliceAt cb.placement splice ∧
          cb.placement.Covers splice code'.insns) ∧
        (¬ cb.Matches hooked callback → cb.target = .constructors ∧ m' = m)) := by
  obtain ⟨callback, outcome, parsed, here, found'⟩ := spliceMethod_of_run run goes found
  obtain ⟨code, body, known⟩ := spliceMethod_cases here
  refine ⟨code, splicedInto cb callback c.name m, body, found', ?_⟩
  cases outcome with
  | present =>
    refine ⟨fun _ => splicedInto_eq_self here rfl, fun absent => ?_⟩
    cases known.symm.trans absent
  | skipped =>
    obtain ⟨absent, hooked, described, unmatched, constructors⟩ := known
    constructor
    · intro called
      cases called.symm.trans absent
    · intro _
      refine ⟨hooked, callback, described, parsed, fun fits => absurd fits unmatched, fun _ => ?_⟩
      exact ⟨constructors, splicedInto_eq_self here rfl⟩
  | spliced code' =>
    obtain ⟨absent, hooked, splice, context, described, fits, made, rfl⟩ := known
    constructor
    · intro called
      cases called.symm.trans absent
    · intro _
      have covers : cb.placement.Covers splice (code.spliceAt cb.placement splice).insns :=
        Code.covers_spliceAt (isReturn_callbackInsns made)
      refine ⟨hooked, callback, described, parsed, fun _ => ?_, fun other => absurd fits other⟩
      exact ⟨splice, context, _, made, callsOnce_callbackInsns made, splicedInto_eq here, rfl,
        covers⟩

def idleMethod (insns : List Insn) : Method :=
  ⟨⟨0x9⟩, "m", "()V",
    some (Code.ofInsns (insns ++ [.simple Opcode.nop, .simple Opcode.returnVoid])), []⟩

def idleClass (insns : List Insn) : ClassFile :=
  { ClassFile.new "a" (some "java/lang/Object") with methods := [idleMethod insns] }

def idleCallback (placement : Placement) (name : String) : Callback :=
  ⟨.method "m" "()V", placement, false, ⟨"a", name, "()V"⟩, Opcode.invokestatic⟩

def idleCall (name : String) : Insn := .method Opcode.invokestatic ⟨"a", name, "()V"⟩ false

theorem goesTo_idleClass (placement : Placement) (name : String) (insns : List Insn) :
    (idleCallback placement name).GoesTo (idleClass insns) 0 := by
  change (idleClass insns).methods.findIdx? _ = some 0
  simp [idleClass, idleMethod, Method.hasSignature]

theorem covers_idleClass : ∃ c' m' code' splice,
    ((Edit.injectCallback (idleCallback .before "greet")).apply noContext).run (idleClass []) =
      (.ok true, idleClass [idleCall "greet"]) ∧
    ((Edit.injectCallback (idleCallback .after "leave")).apply noContext).run
      (idleClass [idleCall "greet"]) = (.ok true, c') ∧
    c'.methods[0]? = some m' ∧ m'.code = some code' ∧ CallsOnce (idleCall "leave") splice ∧
    Placement.after.Covers splice code'.insns := by
  have greeted : ((Edit.injectCallback (idleCallback .before "greet")).apply noContext).run
      (idleClass []) = (.ok true, idleClass [idleCall "greet"]) :=
    Prod.ext (by decide +kernel) (by decide +kernel)
  have run : ((Edit.injectCallback (idleCallback .after "leave")).apply noContext).run
      (idleClass [idleCall "greet"]) = (.ok true, (((Edit.injectCallback
        (idleCallback .after "leave")).apply noContext).run (idleClass [idleCall "greet"])).2) :=
    Prod.ext (by decide +kernel) rfl
  obtain ⟨code, m', body, found, _, absent⟩ :=
    covers_of_run (m := idleMethod [idleCall "greet"]) run (goesTo_idleClass ..) rfl
  cases body
  obtain ⟨hooked, callback, described, parsed, fits, _⟩ := absent (by decide +kernel)
  have plain : MethodDescriptor.parse "()V" = .ok ⟨[], none⟩ := by decide +kernel
  obtain rfl := Except.ok.inj (plain.symm.trans described)
  obtain rfl := Except.ok.inj (plain.symm.trans parsed)
  obtain ⟨splice, _, code', _, once, rfl, _, covers⟩ := fits (by decide +kernel)
  exact ⟨_, _, code', splice, greeted, run, found, rfl, once, covers⟩

/-- The same callback once more, now in front of the returns, finds its call in front of the body
and goes nowhere. -/
theorem uncovered_idleClass :
    ¬ ∀ (ctx : EditContext) (cb : Callback) (c c' : ClassFile) (now : Bool) (i : Nat) (m : Method)
      (hooked callback : MethodDescriptor),
      ((Edit.injectCallback cb).apply ctx).run c = (.ok now, c') → cb.GoesTo c i →
      c.methods[i]? = some m → m.descriptor = .ok hooked →
      MethodDescriptor.parse cb.method.desc = .ok callback → cb.Matches hooked callback →
      ∃ m' code' splice temp context, c'.methods[i]? = some m' ∧ m'.code = some code' ∧
        callbackInsns cb m.isStatic hooked callback temp context = .ok (some splice) ∧
        cb.placement.Covers splice code'.insns := by
  intro always
  have run : ((Edit.injectCallback (idleCallback .after "greet")).apply noContext).run
      (idleClass [idleCall "greet"]) = (.ok false, idleClass [idleCall "greet"]) :=
    Prod.ext (by decide +kernel) (by decide +kernel)
  obtain ⟨m', code', splice, temp, context, found, body, made, covers⟩ :=
    always _ _ _ _ _ 0 (idleMethod [idleCall "greet"]) ⟨[], none⟩ ⟨[], none⟩ run
      (goesTo_idleClass ..) rfl (by decide +kernel) (by decide +kernel) (by decide +kernel)
  cases found
  cases body
  cases made
  have behind : [idleCall "greet"] <:+ [idleCall "greet", .simple Opcode.nop] :=
    covers [_, _] _ [] rfl (by decide)
  exact absurd behind (by decide)

end Edit

end ClassWeave
