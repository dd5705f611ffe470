import ClassWeave.Proofs.Callbacks
import ClassWeave.Proofs.Operands

/-!
# Callbacks keep the stack

What is put in for a callback runs from any state that its place can have. It comes to the call with
the arguments of the callback on the stack, and leaves the result that the method returns. What lies
below on the stack stays, and so does every local in front of the spare slot: the result is kept
behind everything that the body uses.
-/

set_option autoImplicit false

namespace ClassWeave

/-- The slots of a body and of its parameters fit 16 bits. -/
structure Code.SlotsFit (code : Code) (params : Nat) : Prop where
  params : params < 65536
  insns : ∀ insn ∈ code.insns, insn.room < 65536
  locals : ∀ v ∈ code.locals, v.slot.toNat + 1 < 65536

/-- Neither a parameter nor an instruction of the body uses the slots from `temp` on, and no local
variable starts there. -/
structure Code.Spares (code : Code) (params temp : Nat) : Prop where
  params : params ≤ temp
  insns : ∀ insn ∈ code.insns, insn.room ≤ temp
  locals : ∀ v ∈ code.locals, v.slot.toNat < temp

namespace Edit

open Synthesis Mixin

theorem spares_spareSlot {code : Code} {d : MethodDescriptor} {isStatic : Bool}
    (fit : code.SlotsFit (firstSlot isStatic + slotCount d.params)) :
    code.Spares (firstSlot isStatic + slotCount d.params)
      (spareSlot code (d.paramSlots + if isStatic then 0 else 1)).toNat where
  params := params_le_spareSlot code fit.params
  insns insn mem := room_le_spareSlot mem (fit.insns insn mem) _
  locals v mem := slot_lt_spareSlot mem (fit.locals v mem) _

theorem params_eq {cb : Callback} {hooked callback : MethodDescriptor}
    (fits : cb.Matches hooked callback) : callback.params =
      hooked.params.take (shared cb.placement hooked callback) ++
        ((passedResult (pendingResult cb.placement hooked) callback).map Prod.snd).toList := by
  rw [← fits.2]
  nth_rewrite 1 [← List.take_append_drop (shared cb.placement hooked callback) callback.params]
  congr 1
  have last (params : List FieldType) :
      params.drop (params.length - 1) = params.getLast?.toList := by
    rcases List.eq_nil_or_concat params with rfl | ⟨front, t, rfl⟩ <;> simp
  unfold shared passedResult pendingResult
  cases cb.placement with
  | before => simp
  | after =>
    cases hooked.result with
    | none => simp
    | some result =>
      simp only [beq_self_eq_true, Option.isSome_some, Bool.and_self, if_true]
      rw [last]
      cases callback.params.getLast? <;> rfl

section

variable {cb : Callback} {hookedStatic : Bool} {hooked callback : MethodDescriptor}
  {temp : UInt16} {context : String} {Has : FieldType → VType → Prop} (m : MethodSite)
  {receiver : VType} {locals : List VType}

/-- In front of its call, the callback finds the receiver, the parameters that it shares with the
method, and what the spare slot holds. -/
theorem runs_callbackCall (typing : Typing Has) {passed : List FieldType}
    {pending : Option (FieldType × FieldType)} {call : List Insn}
    (made : callbackCall cb hookedStatic passed pending temp context = .ok call)
    (small : firstSlot hookedStatic + slotCount passed < 65536)
    (held : List.Forall₂ Has passed (paramValues locals passed (firstSlot hookedStatic)))
    (kept : ∀ value ∈ pending, Has value.1 ((locals[temp.toNat]?).getD .top))
    (this : (cb.invoke == Opcode.invokestatic) = false → (locals[0]?).getD .top = receiver) :
    ∃ front last, call = front ++ [.method cb.invoke cb.method false] ∧
      List.Forall₂ Has (pending.map Prod.snd).toList last ∧
      (∀ w ∈ last, ∃ value ∈ pending, ∃ cast, Casts cast ((locals[temp.toNat]?).getD .top) w) ∧
      ∀ stack, m.Runs (Insn.Finds Has receiver none) front ⟨locals, stack⟩
        ⟨locals, (paramValues locals passed (firstSlot hookedStatic) ++ last).reverse ++
          (if cb.invoke == Opcode.invokestatic then [] else [receiver]) ++ stack⟩ := by
  have first := toNat_firstSlot hookedStatic
  rw [← first] at small held ⊢
  have loads (stack : List VType) : m.Runs (Insn.Finds Has receiver none)
      (Edit.receiver (cb.invoke == Opcode.invokestatic) ++
        loadParams passed (if hookedStatic then 0 else 1)) ⟨locals, stack⟩
      ⟨locals, (paramValues locals passed (if hookedStatic then (0 : UInt16) else 1).toNat).reverse
        ++ ((if cb.invoke == Opcode.invokestatic then [] else [receiver]) ++ stack)⟩ :=
    (m.runs_receiver stack _ this).append
      ((forwards_loadParams passed _ small).runs m _ typing held small)
  unfold callbackCall at made
  dsimp only at made
  split at made
  · rename_i given wanted
    obtain ⟨converted, convertible, made⟩ := bind_ok_iff.1 made
    cases made
    have has := kept _ rfl
    obtain ⟨w, fits, casts⟩ := typing.exists_casts convertible has
    refine ⟨_, [w], rfl, .cons fits .nil, by simpa using ⟨_, casts⟩, fun stack => ?_⟩
    have value (stack : List VType) : m.Runs (Insn.Finds Has receiver none)
        (.var given.loadOpcode temp :: converted) ⟨locals, stack⟩ ⟨locals, w :: stack⟩ :=
      (m.runs_load stack typing has).append (m.runs_cast stack casts)
    simpa using (loads stack).append (value _)
  · cases made
    refine ⟨_, [], congrArg (· ++ _) (List.append_nil _), .nil, by simp, fun stack => ?_⟩
    simpa using loads stack

theorem runs_call (typing : Typing Has) (fits : cb.Matches hooked callback)
    (parsed : MethodDescriptor.parse cb.method.desc = .ok callback)
    (named : cb.method.name ≠ "<init>") {call : List Insn}
    (made : callbackCall cb hookedStatic (hooked.params.take (shared cb.placement hooked callback))
      (passedResult (pendingResult cb.placement hooked) callback) temp context = .ok call)
    (small : firstSlot hookedStatic + slotCount hooked.params < 65536)
    (held : List.Forall₂ Has hooked.params
      (paramValues locals hooked.params (firstSlot hookedStatic)))
    (kept : ∀ t ∈ pendingResult cb.placement hooked, Has t ((locals[temp.toNat]?).getD .top))
    (this : (cb.invoke == Opcode.invokestatic) = false → (locals[0]?).getD .top = receiver) :
    ∃ front args last, call = front ++ [.method cb.invoke cb.method false] ∧
      args = paramValues locals (hooked.params.take (shared cb.placement hooked callback))
        (firstSlot hookedStatic) ++ last ∧
      List.Forall₂ Has callback.params args ∧
      (∀ w ∈ last, ∃ t ∈ pendingResult cb.placement hooked, ∃ cast,
        Casts cast ((locals[temp.toNat]?).getD .top) w) ∧
      ∀ stack, m.Runs (Insn.Finds Has receiver none) front ⟨locals, stack⟩ ⟨locals,
          args.reverse ++ (if cb.invoke == Opcode.invokestatic then [] else [receiver]) ++ stack⟩ ∧
        m.Runs (Insn.Finds Has receiver none) call ⟨locals, stack⟩
          ⟨locals, (callback.result.map VType.ofFieldType).toList ++ stack⟩ := by
  have taken := slotCount_take hooked.params (shared cb.placement hooked callback)
  have passed := List.forall₂_take (shared cb.placement hooked callback) held
  rw [paramValues_take] at passed
  obtain ⟨front, last, rfl, fit, casts, arguments⟩ := runs_callbackCall m typing made (by omega)
    passed (fun value isPassed => kept _ (mem_passedResult.1 isPassed).1) this
  have args : List.Forall₂ Has callback.params (paramValues locals
      (hooked.params.take (shared cb.placement hooked callback)) (firstSlot hookedStatic) ++
      last) := by
    rw [params_eq fits]
    exact List.rel_append passed fit
  have fromPending : ∀ w ∈ last, ∃ t ∈ pendingResult cb.placement hooked, ∃ cast,
      Casts cast ((locals[temp.toNat]?).getD .top) w := by
    intro w mem
    obtain ⟨value, isPassed, cast⟩ := casts w mem
    exact ⟨value.1, (mem_passedResult.1 isPassed).1, cast⟩
  exact ⟨front, _, last, rfl, rfl, args, fromPending, fun stack => ⟨arguments stack,
    (arguments stack).append (m.runs_method stack parsed named args)⟩⟩

theorem runs_save (pending : Option FieldType) {values : List VType}
    (has : List.Forall₂ Has pending.toList values)
    (narrow : ∀ before, before + 1 = temp.toNat →
      ((locals[before]?).getD .top).isWide = false) :
    ∃ held, (∀ t ∈ pending, values = [(held[temp.toNat]?).getD .top]) ∧
      (∀ k, k ≠ temp.toNat → k ≠ temp.toNat + 1 →
        (held[k]?).getD .top = (locals[k]?).getD .top) ∧
      ∀ stack, m.Runs (Insn.Finds Has receiver none)
        (pending.map fun t => .var t.storeOpcode temp).toList ⟨locals, values ++ stack⟩
        ⟨held, stack⟩ := by
  cases pending with
  | none =>
    obtain rfl := List.forall₂_nil_left_iff.1 has
    exact ⟨locals, by simp, fun _ _ _ => rfl, fun stack => .nil _⟩
  | some t =>
    obtain ⟨v, rest, _, nothing, rfl⟩ := List.forall₂_cons_left_iff.1 has
    obtain rfl := List.forall₂_nil_left_iff.1 nothing
    refine ⟨(State.store ⟨locals, []⟩ temp.toNat v).locals, fun _ _ => ?_, fun k here behind => ?_,
      fun stack => .single trivial fun index site => m.execute_store index site t temp v⟩
    · rw [State.getD_store narrow (by omega), if_pos rfl]
    · rw [State.getD_store narrow behind, if_neg here]

/-- Behind the call, the result of the callback takes the place of the pending one, or it is dropped
and the pending one comes back from the spare slot. -/
theorem runs_behind (typing : Typing Has) {pending : Option FieldType} {call splice : List Insn}
    (made : aroundCall cb.replacesResult callback.result pending temp context call =
      .ok (some splice)) {values : List VType} (has : List.Forall₂ Has pending.toList values)
    (saved : ∀ t ∈ pending, values = [(locals[temp.toNat]?).getD .top]) :
    ∃ back result,
      splice = (pending.map fun t => .var t.storeOpcode temp).toList ++ call ++ back ∧
      List.Forall₂ Has pending.toList result ∧
      (cb.replacesResult = false → result = values) ∧
      ∀ stack, m.Runs (Insn.Finds Has receiver none) back
        ⟨locals, (callback.result.map VType.ofFieldType).toList ++ stack⟩
        ⟨locals, result ++ stack⟩ := by
  unfold aroundCall at made
  cases pending with
  | none =>
    obtain rfl := List.forall₂_nil_left_iff.1 has
    dsimp only at made
    split at made
    · cases made
    · cases made
      exact ⟨_, [], rfl, .nil, fun _ => rfl, fun stack => m.runs_dropValue stack callback.result⟩
  | some t =>
    obtain rfl := saved t rfl
    dsimp only at made
    split at made
    · rename_i replaces
      split at made
      · cases made
      · rename_i given isResult
        obtain ⟨converted, convertible, made⟩ := bind_ok_iff.1 made
        cases made
        obtain ⟨w, fits, casts⟩ := typing.exists_casts convertible (typing.exact given)
        refine ⟨converted, [w], rfl, .cons fits .nil, fun keeps => ?_, fun stack => ?_⟩
        · cases replaces.symm.trans keeps
        · rw [isResult]
          exact m.runs_cast stack casts
    · cases made
      refine ⟨(dropValue callback.result).toList ++ [.var t.loadOpcode temp], _, by simp, has,
        fun _ => rfl, fun stack => ?_⟩
      exact (m.runs_dropValue stack callback.result).append
        (m.runs_load stack typing (List.forall₂_cons.1 has).1)

/-- Whatever the callback and the method are like, what is put in runs to its end from every state
whose slots hold the parameters and which has the pending result on the stack. It hands the callback
values of its own parameter types, never touches what lies below on the stack, leaves a value of the
type of the result there, the pending one itself unless the callback replaces it, and changes no
local but the spare ones. -/
theorem callbackInsns_balanced {code : Code} {splice : List Insn}
    (parsed : MethodDescriptor.parse cb.method.desc = .ok callback)
    (named : cb.method.name ≠ "<init>")
    (spare : temp = spareSlot code (hooked.paramSlots + if hookedStatic then 0 else 1))
    (made : callbackInsns cb hookedStatic hooked callback temp context = .ok (some splice))
    (slots : code.SlotsFit (firstSlot hookedStatic + slotCount hooked.params)) (h : Hierarchy)
    (values : List.Forall₂ h.Admits hooked.params
      (paramValues locals hooked.params (firstSlot hookedStatic)))
    (narrow : ∀ before, before + 1 = temp.toNat →
      ((locals[before]?).getD .top).isWide = false) {pending : List VType}
    (kept : List.Forall₂ h.Admits (pendingResult cb.placement hooked).toList pending) :
    ∃ front back held last args after result,
      splice = front ++ .method cb.invoke cb.method false :: back ∧
      args = paramValues locals (hooked.params.take (shared cb.placement hooked callback))
        (firstSlot hookedStatic) ++ last ∧
      (∀ w ∈ last, ∃ v ∈ pending, ∃ cast, Casts cast v w) ∧
      List.Forall₂ h.Admits callback.params args ∧
      List.Forall₂ h.Admits (pendingResult cb.placement hooked).toList result ∧
      (cb.replacesResult = false → result = pending) ∧
      (∀ base, m.Runs (Insn.Finds h.Admits ((locals[0]?).getD .top) none) front
          ⟨locals, pending ++ base⟩ ⟨held, args.reverse ++
            (if cb.invoke == Opcode.invokestatic then [] else [(locals[0]?).getD .top]) ++ base⟩ ∧
        m.Runs (Insn.Finds h.Admits ((locals[0]?).getD .top) none) splice ⟨locals, pending ++ base⟩
          ⟨after, result ++ base⟩) ∧
      (∀ k, k ≠ temp.toNat → k ≠ temp.toNat + 1 →
        (after[k]?).getD .top = (locals[k]?).getD .top) ∧
      code.Spares (firstSlot hookedStatic + slotCount hooked.params) temp.toNat := by
  have spares := spares_spareSlot slots
  rw [← spare] at spares
  obtain ⟨fits, dispatched, call, called, around⟩ := callbackInsns_parts made
  obtain ⟨held, saved, other, save⟩ := runs_save m (pendingResult cb.placement hooked) kept narrow
  obtain ⟨back, result, rfl, ends, keeps, behind⟩ := runs_behind m h.typing around kept saved
  have inFront (k : Nat) (before : k < firstSlot hookedStatic + slotCount hooked.params) :
      (held[k]?).getD .top = (locals[k]?).getD .top := by
    have bound := spares.params
    exact other k (by omega) (by omega)
  have same := paramValues_congr inFront
  have this (direct : (cb.invoke == Opcode.invokestatic) = false) :
      (held[0]?).getD .top = (locals[0]?).getD .top := by
    refine inFront 0 ?_
    rw [dispatched direct, firstSlot]
    exact Nat.add_pos_left (by decide) _
  have pendingSaved : ∀ t ∈ pendingResult cb.placement hooked,
      h.Admits t ((held[temp.toNat]?).getD .top) := by
    intro t isPending
    rw [saved t isPending, Option.mem_def.1 isPending] at kept
    exact (List.forall₂_cons.1 kept).1
  rw [← same] at values
  obtain ⟨front, args, last, rfl, rfl, fit, casts, runs⟩ := runs_call m h.typing fits parsed named
    called slots.params values pendingSaved this
  have passed := congrArg (List.take (shared cb.placement hooked callback)) same
  rw [paramValues_take, paramValues_take] at passed
  refine ⟨_ ++ front, back, held, last, _, held, result, by simp, congrArg (· ++ last) passed, ?_,
    fit, ends, keeps, fun base => ⟨(save base).append (runs base).1, ?_⟩, other, spares⟩
  · intro w mem
    obtain ⟨t, isPending, cast⟩ := casts w mem
    exact ⟨_, saved t isPending ▸ List.mem_singleton_self _, cast⟩
  · exact ((save base).append (runs base).2).append (behind base)

end

def tracedCallback : Callback where
  target := .method "text" "(JLjava/lang/String;)Ljava/lang/String;"
  placement := .after
  replacesResult := true
  method := ⟨"a", "trace", "(JLjava/lang/Object;)Ljava/lang/Object;"⟩
  invoke := Opcode.invokevirtual

def tracedBody : Code := Code.ofInsns [.var Opcode.aload 3, .simple Opcode.areturn]

def tracedString : FieldType := .object "java/lang/String"

def tracedSplice : List Insn := [.var Opcode.astore 4, .var Opcode.aload 0, .var Opcode.lload 1,
  .var Opcode.aload 4, .method Opcode.invokevirtual tracedCallback.method false,
  .typeOp Opcode.checkcast "java/lang/String"]

/-- The result of an instance method goes through a callback that takes a wide argument in front of
it and gives back any object. -/
theorem callbackInsns_balanced_traced : ∃ after result,
    List.Forall₂ Hierarchy.empty.Admits [tracedString] result ∧
      (∀ base, MethodSite.Runs ⟨"a", "text"⟩ (Insn.Finds Hierarchy.empty.Admits (.object "a") none)
        tracedSplice ⟨[.object "a", .long, .top, .object "java/lang/String"],
          .object "java/lang/String" :: base⟩ ⟨after, result ++ base⟩) ∧
      (after[3]?).getD .top = .object "java/lang/String" := by
  have made : callbackInsns tracedCallback false ⟨[.long, tracedString], some tracedString⟩
      ⟨[.long, .object objectClass], some (.object objectClass)⟩ 4 "" = .ok (some tracedSplice) :=
    by decide +kernel
  have has : Hierarchy.empty.Admits tracedString (.object "java/lang/String") := .inl rfl
  have spare : 4 = spareSlot tracedBody
      ((⟨[.long, tracedString], some tracedString⟩ : MethodDescriptor).paramSlots +
        if false then 0 else 1) := by decide
  have slots : tracedBody.SlotsFit (firstSlot false + slotCount [.long, tracedString]) :=
    ⟨by decide, by decide, by decide⟩
  have values : List.Forall₂ Hierarchy.empty.Admits [.long, tracedString]
      (paramValues [.object "a", .long, .top, .object "java/lang/String"] [.long, tracedString]
        (firstSlot false)) := .cons (.inl rfl) (.cons has .nil)
  obtain ⟨_, _, _, _, _, after, result, _, _, _, _, ends, _, runs, other, _⟩ :=
    callbackInsns_balanced ⟨"a", "text"⟩ (by decide +kernel) (by decide) spare made slots _ values
      (fun before here => by
        obtain rfl : before = 3 := Nat.succ.inj here
        rfl) (.cons has .nil)
  exact ⟨after, result, ends, fun base => (runs base).2, other 3 (by decide) (by decide)⟩

end Edit

end ClassWeave
