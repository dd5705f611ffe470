import Mathlib.Data.List.Nodup
import ClassWeave.Proofs.Distinct
import ClassWeave.Proofs.Fitting
import ClassWeave.Proofs.Renamed

/-!
# Bodies with a callback

What is put into a body for a callback calls it once and calls nothing else, and so does the body
of a delegate. A callback that goes through the methods of a class changes each of them by itself.
-/

set_option autoImplicit false

namespace ClassWeave

def Silent (insns : List Insn) : Prop := ∀ i ∈ insns, i.call? = none

def CallsOnce (call : Insn) (insns : List Insn) : Prop :=
  ∃ before after, insns = before ++ call :: after ∧ Silent before ∧ Silent after

namespace Silent

variable {insns insns' : List Insn}

theorem nil : Silent [] := List.forall_mem_nil _

theorem singleton {i : Insn} (h : i.call? = none) : Silent [i] :=
  List.forall_mem_singleton.2 h

theorem cons {i : Insn} (h : i.call? = none) (rest : Silent insns) : Silent (i :: insns) :=
  List.forall_mem_cons.2 ⟨h, rest⟩

theorem append (first : Silent insns) (second : Silent insns') : Silent (insns ++ insns') :=
  List.forall_mem_append.2 ⟨first, second⟩

end Silent

namespace CallsOnce

variable {call : Insn} {insns more : List Insn}

theorem singleton (call : Insn) : CallsOnce call [call] := ⟨[], [], rfl, .nil, .nil⟩

theorem append_left (h : CallsOnce call insns) (silent : Silent more) :
    CallsOnce call (more ++ insns) := by
  obtain ⟨before, after, rfl, first, last⟩ := h
  exact ⟨more ++ before, after, (List.append_assoc ..).symm, silent.append first, last⟩

theorem append_right (h : CallsOnce call insns) (silent : Silent more) :
    CallsOnce call (insns ++ more) := by
  obtain ⟨before, after, rfl, first, last⟩ := h
  exact ⟨before, after ++ more, by simp, first, last.append silent⟩

theorem cons {i : Insn} (h : CallsOnce call insns) (silent : i.call? = none) :
    CallsOnce call (i :: insns) := h.append_left (.singleton silent)

theorem mem (h : CallsOnce call insns) : call ∈ insns := by
  obtain ⟨before, after, rfl, _, _⟩ := h
  exact List.mem_append_right _ List.mem_cons_self

theorem eq_of_mem (h : CallsOnce call insns) {i : Insn} (mem : i ∈ insns)
    (calls : i.call? ≠ none) : i = call := by
  obtain ⟨before, after, rfl, first, last⟩ := h
  rcases List.mem_append.1 mem with mem | mem
  · exact absurd (first i mem) calls
  · rcases List.mem_cons.1 mem with same | mem
    · exact same
    · exact absurd (last i mem) calls

end CallsOnce

namespace Code

/-- The body with the instructions in front of its first one or of each return. -/
def spliceAt (code : Code) (placement : Placement) (insns : List Insn) : Code :=
  match placement with
  | .before => code.prepend insns
  | .after => code.spliceReturns fun _ => insns

theorem returns_eq_nil {code : Code} :
    code.returns = [] ↔ ∀ op, .simple op ∈ code.insns → op.isReturn = false := by
  rw [returns, List.filterMap_eq_nil_iff]
  constructor
  · intro none op mem
    simpa using none _ mem
  · intro none i mem
    cases i with
    | simple op => simpa using none op mem
    | _ => rfl

theorem spliceAt_of_no_return {code : Code} (none : code.returns = []) (insns : List Insn) :
    code.spliceAt .after insns = code := if_pos (List.isEmpty_iff.2 none)

theorem mem_spliceReturn {splice : Opcode → List Insn} {i j : Insn} :
    j ∈ spliceReturn splice i ↔
      j = i ∨ ∃ op, i = .simple op ∧ op.isReturn = true ∧ j ∈ splice op := by
  cases i with
  | simple op =>
    rw [spliceReturn]
    split <;> simp_all [or_comm]
  | _ => simp [spliceReturn]

theorem mem_spliceAt {code : Code} {placement : Placement} {insns : List Insn} {i : Insn} :
    i ∈ (code.spliceAt placement insns).insns ↔
      i ∈ code.insns ∨ i ∈ insns ∧ (placement = .after → code.returns ≠ []) := by
  cases placement with
  | before => simp [spliceAt, prepend, insns_markStale, or_comm]
  | after =>
    by_cases none : code.returns = []
    · simp [spliceAt_of_no_return none, none]
    · have spliced : (code.spliceAt .after insns).insns =
          code.insns.flatMap (spliceReturn fun _ => insns) := by
        rw [spliceAt, spliceReturns, if_neg (mt List.isEmpty_iff.1 none), insns_markStale]
      have some_return : ∃ op, .simple op ∈ code.insns ∧ op.isReturn = true := by
        by_contra all
        refine none (returns_eq_nil.2 fun op mem => ?_)
        simpa using fun isReturn => all ⟨op, mem, isReturn⟩
      rw [spliced, List.mem_flatMap]
      simp only [mem_spliceReturn]
      constructor
      · rintro ⟨j, mem, rfl | ⟨op, rfl, _, inside⟩⟩
        · exact .inl mem
        · exact .inr ⟨inside, fun _ => none⟩
      · rintro (mem | ⟨inside, _⟩)
        · exact ⟨i, mem, .inl rfl⟩
        · obtain ⟨op, mem, isReturn⟩ := some_return
          exact ⟨_, mem, .inr ⟨op, rfl, isReturn, inside⟩⟩

theorem hasCallOf_iff {code : Code} {target : MemberRef} :
    code.hasCallOf target = true ↔
      ∃ op ofInterface, .method op target ofInterface ∈ code.insns := by
  rw [hasCallOf, List.any_eq_true]
  constructor
  · rintro ⟨i, mem, calls⟩
    cases i with
    | method op member ofInterface =>
      obtain rfl : member = target := beq_iff_eq.1 calls
      exact ⟨op, ofInterface, mem⟩
    | _ => cases calls
  · rintro ⟨op, ofInterface, mem⟩
    exact ⟨_, mem, beq_self_eq_true target⟩

end Code

namespace Edit

open Synthesis

theorem silent_loadParams (params : List FieldType) (slot : UInt16) :
    Silent (loadParams params slot) := by
  induction params generalizing slot with
  | nil => exact .nil
  | cons t rest ih => exact .cons rfl (ih _)

theorem silent_receiver (isStatic : Bool) : Silent (receiver isStatic) := by
  cases isStatic
  · exact .singleton rfl
  · exact .nil

theorem silent_dropValue (t : Option FieldType) : Silent (dropValue t).toList := by
  cases t
  · exact .nil
  · exact .singleton rfl

theorem silent_convert {given wanted : FieldType} {context : String} {insns : List Insn}
    (made : convert given wanted context = .ok insns) : Silent insns := by
  unfold convert at made
  split at made
  · cases made
    exact .nil
  · split at made
    · split at made
      · cases made
        exact .nil
      · cases made
        exact .singleton rfl
    · cases made

theorem silent_passResult {given wanted : Option FieldType} {context : String} {absent : Mismatch}
    {insns : List Insn} (made : passResult given wanted context absent = .ok insns) :
    Silent insns := by
  unfold passResult at made
  split at made
  · exact silent_convert made
  · cases made
    exact silent_dropValue given
  · cases made

theorem callsOnce_callbackCall {cb : Callback} {hookedStatic : Bool} {passed : List FieldType}
    {pending : Option (FieldType × FieldType)} {temp : UInt16} {context : String}
    {call : List Insn}
    (made : callbackCall cb hookedStatic passed pending temp context = .ok call) :
    CallsOnce (.method cb.invoke cb.method false) call := by
  unfold callbackCall at made
  dsimp only at made
  have loads := (silent_receiver (cb.invoke == Opcode.invokestatic)).append
    (silent_loadParams passed (if hookedStatic then 0 else 1))
  split at made
  · obtain ⟨converted, convertible, made⟩ := bind_ok_iff.1 made
    cases made
    exact (CallsOnce.singleton _).append_left
      (loads.append (.cons rfl (silent_convert convertible)))
  · cases made
    exact (CallsOnce.singleton _).append_left (loads.append .nil)

theorem callsOnce_aroundCall {call : Insn} {replacesResult : Bool}
    {callbackResult : Option FieldType} (pending : Option FieldType) {temp : UInt16}
    {context : String} {insns around : List Insn} (once : CallsOnce call insns)
    (made : aroundCall replacesResult callbackResult pending temp context insns =
      .ok (some around)) : CallsOnce call around := by
  unfold aroundCall at made
  split at made
  · split at made
    · split at made
      · cases made
      · obtain ⟨converted, convertible, made⟩ := bind_ok_iff.1 made
        cases made
        exact (once.cons rfl).append_right (silent_convert convertible)
    · cases made
      exact ((once.cons rfl).append_right (silent_dropValue _)).append_right (.singleton rfl)
  · dsimp only at made
    split at made
    · cases made
    · cases made
      exact once.append_right (silent_dropValue _)

theorem callsOnce_callbackInsns {cb : Callback} {hookedStatic : Bool}
    {hooked callback : MethodDescriptor} {temp : UInt16} {context : String} {insns : List Insn}
    (made : callbackInsns cb hookedStatic hooked callback temp context = .ok (some insns)) :
    CallsOnce (.method cb.invoke cb.method false) insns := by
  unfold callbackInsns at made
  by_cases static : cb.invoke ≠ Opcode.invokestatic ∧ hookedStatic = true
  · rw [if_pos static] at made
    cases made
  · rw [if_neg static] at made
    by_cases ends : cb.replacesResult = true ∧ cb.placement = .before
    · rw [if_pos ends] at made
      cases made
    · rw [if_neg ends] at made
      dsimp only at made
      generalize (if cb.placement = .after then hooked.result else none) = pending at made
      generalize callback.params.length - _ = k at made
      split at made
      · cases made
      · obtain ⟨call, called, made⟩ := bind_ok_iff.1 made
        exact callsOnce_aroundCall pending (callsOnce_callbackCall called) made

theorem callsOnce_delegateBody {context : String} {hookedStatic : Bool} {hooked : MethodDescriptor}
    {delegate : MemberRef} {invoke : Opcode} {insns : List Insn}
    (made : delegateBody context hookedStatic hooked delegate invoke = .ok insns) :
    CallsOnce (.method invoke delegate false) insns := by
  unfold delegateBody at made
  obtain ⟨d, _, made⟩ := bind_ok_iff.1 made
  by_cases static : invoke ≠ Opcode.invokestatic ∧ hookedStatic = true
  · rw [if_pos static] at made
    cases made
  · rw [if_neg static] at made
    dsimp only at made
    split at made
    · cases made
    · obtain ⟨passed, result, made⟩ := bind_ok_iff.1 made
      cases made
      have called : CallsOnce (.method invoke delegate false)
          (.method invoke delegate false :: passed) :=
        (CallsOnce.singleton _).append_right (silent_passResult result)
      rw [List.append_assoc]
      refine .append_left ?_ ((silent_receiver _).append (silent_loadParams _ _))
      exact called.append_right (.singleton rfl)

theorem spliceMethod_spliced {cb : Callback} {callback : MethodDescriptor} {owner : String}
    {m : Method} {code' : Code}
    (made : spliceMethod cb callback owner m = .ok (.spliced code')) :
    ∃ code insns, m.code = some code ∧ code.hasCallOf cb.method = false ∧
      CallsOnce (.method cb.invoke cb.method false) insns ∧
      code' = code.spliceAt cb.placement insns := by
  unfold spliceMethod at made
  dsimp only at made
  split at made
  · cases made
  · rename_i code body
    split at made
    · cases made
    · rename_i absent
      obtain ⟨hooked, _, made⟩ := bind_ok_iff.1 made
      obtain ⟨answer, found, made⟩ := bind_ok_iff.1 made
      split at made
      · rename_i insns
        cases made
        exact ⟨code, insns, body, Bool.eq_false_iff.2 absent, callsOnce_callbackInsns found, rfl⟩
      · split at made
        · cases made
        · cases made

def splicedInto (cb : Callback) (callback : MethodDescriptor) (owner : String) (m : Method) :
    Method :=
  match spliceMethod cb callback owner m with
  | .ok (.spliced code) => { m with code := some code }
  | _ => m

def outcomeAt (cb : Callback) (callback : MethodDescriptor) (c : ClassFile) (i : Nat) :
    Except EditError CallbackOutcome :=
  match c.methods[i]? with
  | none => .ok .skipped
  | some m => spliceMethod cb callback c.name m

def CallbackOutcome.isMatch : CallbackOutcome → Bool
  | .skipped => false
  | _ => true

def CallbackOutcome.isSplice : CallbackOutcome → Bool
  | .spliced _ => true
  | _ => false

section

variable {cb : Callback} {callback : MethodDescriptor} {owner : String} {m : Method}
  {c c' : ClassFile}

@[simp] theorem name_splicedInto : (splicedInto cb callback owner m).name = m.name := by
  unfold splicedInto
  split <;> rfl

@[simp] theorem desc_splicedInto : (splicedInto cb callback owner m).desc = m.desc := by
  unfold splicedInto
  split <;> rfl

theorem splicedInto_eq {code : Code}
    (made : spliceMethod cb callback owner m = .ok (.spliced code)) :
    splicedInto cb callback owner m = { m with code := some code } := by
  rw [splicedInto, made]

theorem splicedInto_eq_self {outcome : CallbackOutcome}
    (made : spliceMethod cb callback owner m = .ok outcome) (kept : outcome.isSplice = false) :
    splicedInto cb callback owner m = m := by
  rw [splicedInto, made]
  cases outcome with
  | spliced code => cases kept
  | _ => rfl

theorem outcomeAt_congr (name : c'.name = c.name) {i : Nat}
    (same : c'.methods[i]? = c.methods[i]?) :
    outcomeAt cb callback c' i = outcomeAt cb callback c i := by
  rw [outcomeAt, outcomeAt, name, same]

def splicedAt (cb : Callback) (callback : MethodDescriptor) (c : ClassFile) (i : Nat) :
    ClassFile :=
  { c with methods := c.methods.modify i (splicedInto cb callback c.name) }

theorem splicedAt_eq_self {i : Nat} {outcome : CallbackOutcome}
    (here : outcomeAt cb callback c i = .ok outcome) (kept : outcome.isSplice = false) :
    splicedAt cb callback c i = c := by
  have same : c.methods.modify i (splicedInto cb callback c.name) = c.methods := by
    unfold outcomeAt at here
    rw [List.modify_eq_set_getElem?]
    split at here
    · rename_i absent
      rw [absent]
      rfl
    · rename_i m found
      obtain ⟨inside, rfl⟩ := List.getElem?_eq_some_iff.1 found
      rw [found]
      exact (congrArg _ (splicedInto_eq_self here kept)).trans (List.set_getElem_self inside)
  rw [splicedAt, same]

theorem spliceAll_cons (i : Nat) (rest : List Nat) (matched changed : Bool) (c : ClassFile) :
    spliceAll cb callback (i :: rest) matched changed c =
      match outcomeAt cb callback c i with
      | .error e => (.error e, c)
      | .ok outcome => spliceAll cb callback rest (matched || outcome.isMatch)
          (changed || outcome.isSplice) (splicedAt cb callback c i) := by
  rw [spliceAll, run_get]
  rcases here : outcomeAt cb callback c i with e | outcome
  all_goals
    have outcome_here := here
    unfold outcomeAt at here
    split at here
  · cases here
  · rename_i m found
    rw [found]
    dsimp only
    rw [run_bind, here]
    rfl
  · rename_i absent
    cases here
    rw [absent, splicedAt_eq_self outcome_here rfl]
    simp [CallbackOutcome.isMatch, CallbackOutcome.isSplice]
  · rename_i m found
    rw [found]
    dsimp only
    rw [run_bind, here]
    cases outcome with
    | spliced code =>
      have modified : c.methods.modify i (splicedInto cb callback c.name) =
          c.methods.set i { m with code := some code } := by
        rw [List.modify_eq_set_getElem?, found, ← splicedInto_eq here]
        rfl
      rw [splicedAt, modified]
      simp [CallbackOutcome.isMatch, CallbackOutcome.isSplice]
      rfl
    | present =>
      rw [splicedAt_eq_self outcome_here rfl]
      simp [CallbackOutcome.isMatch, CallbackOutcome.isSplice]
      rfl
    | skipped =>
      rw [splicedAt_eq_self outcome_here rfl]
      simp [CallbackOutcome.isMatch, CallbackOutcome.isSplice]
      rfl

/-- What became of a class with a callback in its methods at `sites`, each of them by itself. -/
structure SplicedAll (cb : Callback) (callback : MethodDescriptor) (sites : List Nat)
    (c c' : ClassFile) : Prop where
  rest : c' = { c with methods := c'.methods }
  method : ∀ i, c'.methods[i]? =
    if i ∈ sites then c.methods[i]?.map (splicedInto cb callback c.name) else c.methods[i]?
  answered : ∀ i ∈ sites, ∃ outcome, outcomeAt cb callback c i = .ok outcome

def SomeSite (cb : Callback) (callback : MethodDescriptor) (sites : List Nat) (c : ClassFile)
    (test : CallbackOutcome → Bool) : Prop :=
  ∃ i ∈ sites, ∃ outcome, outcomeAt cb callback c i = .ok outcome ∧ test outcome = true

theorem splicedAll_of_run {sites : List Nat} {matched matched' changed changed' : Bool}
    (distinct : sites.Nodup)
    (run : spliceAll cb callback sites matched changed c = (.ok (matched', changed'), c')) :
    SplicedAll cb callback sites c c' ∧
      (matched' = true ↔
        matched = true ∨ SomeSite cb callback sites c CallbackOutcome.isMatch) ∧
      (changed' = true ↔
        changed = true ∨ SomeSite cb callback sites c CallbackOutcome.isSplice) := by
  induction sites generalizing matched changed c with
  | nil =>
    cases run
    exact ⟨⟨rfl, fun i => by simp, by simp⟩, by simp [SomeSite], by simp [SomeSite]⟩
  | cons i sites ih =>
    obtain ⟨fresh, distinct⟩ := List.nodup_cons.1 distinct
    rw [spliceAll_cons] at run
    cases here : outcomeAt cb callback c i with
    | error e =>
      rw [here] at run
      cases run
    | ok outcome =>
      rw [here] at run
      obtain ⟨spliced, matches_iff, changes_iff⟩ := ih distinct run
      -- the other places of the class with this one done are those of the class before
      have elsewhere {j : Nat} (other : j ∈ sites) :
          (splicedAt cb callback c i).methods[j]? = c.methods[j]? := by
        have apart : i ≠ j := fun same => fresh (same ▸ other)
        simp [splicedAt, apart]
      have same {j : Nat} (other : j ∈ sites) :
          outcomeAt cb callback (splicedAt cb callback c i) j = outcomeAt cb callback c j :=
        outcomeAt_congr (show (splicedAt cb callback c i).name = c.name from rfl)
          (elsewhere other)
      have sites_iff (test : CallbackOutcome → Bool) :
          SomeSite cb callback (i :: sites) c test ↔
            test outcome = true ∨ SomeSite cb callback sites (splicedAt cb callback c i) test := by
        unfold SomeSite
        rw [List.exists_mem_cons_iff, here]
        refine or_congr (by simp) (exists_congr fun j => and_congr_right fun other => ?_)
        rw [same other]
      refine ⟨⟨?_, fun j => ?_, ?_⟩, ?_, ?_⟩
      · rw [spliced.rest]
        rfl
      · rw [spliced.method]
        by_cases other : j ∈ sites
        · rw [if_pos other, if_pos (List.mem_cons_of_mem i other), elsewhere other]
          rfl
        · rw [if_neg other]
          by_cases this : i = j
          · subst this
            simp [splicedAt]
          · simp [splicedAt, this, other, Ne.symm this]
      · intro j mem
        rcases List.mem_cons.1 mem with rfl | other
        · exact ⟨outcome, here⟩
        · exact same other ▸ spliced.answered j other
      · rw [matches_iff, sites_iff, Bool.or_eq_true, or_assoc]
      · rw [changes_iff, sites_iff, Bool.or_eq_true, or_assoc]

theorem spliceAll_of_kept {sites : List Nat} (matched changed : Bool)
    (kept : ∀ i ∈ sites, ∃ outcome, outcomeAt cb callback c i = .ok outcome ∧
      outcome.isSplice = false) :
    ∃ matched', spliceAll cb callback sites matched changed c = (.ok (matched', changed), c) := by
  induction sites generalizing matched with
  | nil => exact ⟨matched, rfl⟩
  | cons i sites ih =>
    obtain ⟨outcome, here, still⟩ := kept i List.mem_cons_self
    rw [spliceAll_cons, here]
    dsimp only
    rw [still, Bool.or_false, splicedAt_eq_self here still]
    exact ih _ fun j other => kept j (List.mem_cons_of_mem i other)

theorem bind_run_ok_iff {α β : Type} {x : Editing α} {k : α → Editing β} {b : β} :
    (x >>= k) c = (.ok b, c') ↔ ∃ a c'', x c = (.ok a, c'') ∧ k a c'' = (.ok b, c') := by
  rw [run_bind]
  rcases x c with ⟨e | a, c''⟩
  · exact ⟨fun run => (nomatch run), fun ⟨_, _, run, _⟩ => nomatch run⟩
  · constructor
    · exact fun run => ⟨a, c'', rfl, run⟩
    · rintro ⟨_, _, ⟨⟩, run⟩
      exact run

theorem ofExcept_bind_ok_iff {α β : Type} {x : Except EditError α} {k : α → Editing β} {b : β} :
    (Editing.ofExcept x >>= k) c = (.ok b, c') ↔ ∃ a, x = .ok a ∧ k a c = (.ok b, c') := by
  rw [bind_run_ok_iff]
  constructor
  · rintro ⟨a, _, found, run⟩
    cases found
    exact ⟨a, rfl, run⟩
  · rintro ⟨a, rfl, run⟩
    exact ⟨a, c, rfl, run⟩

theorem orBadFormat_ok_iff {α : Type} {x : Except FormatError α} {a : α} :
    orBadFormat x = .ok a ↔ x = .ok a := by
  constructor
  · intro read
    cases x with
    | error e => cases read
    | ok a' =>
      cases read
      rfl
  · exact orBadFormat_ok

theorem applyCallback_ok_iff {now : Bool} :
    applyCallback cb c = (.ok now, c') ↔ ∃ sites callback, callbackSites cb c = .ok sites ∧
      MethodDescriptor.parse cb.method.desc = .ok callback ∧
      spliceAll cb callback sites false false c = (.ok (true, now), c') := by
  unfold applyCallback
  rw [run_get]
  constructor
  · intro run
    obtain ⟨sites, found, run⟩ := ofExcept_bind_ok_iff.1 run
    obtain ⟨callback, parsed, run⟩ := ofExcept_bind_ok_iff.1 run
    obtain ⟨⟨matched, changed⟩, c'', spliced, run⟩ := bind_run_ok_iff.1 run
    cases matched with
    | false => cases run
    | true =>
      cases run
      exact ⟨sites, callback, found, orBadFormat_ok_iff.1 parsed, spliced⟩
  · rintro ⟨sites, callback, found, parsed, spliced⟩
    refine ofExcept_bind_ok_iff.2 ⟨sites, found, ?_⟩
    refine ofExcept_bind_ok_iff.2 ⟨callback, orBadFormat_ok parsed, ?_⟩
    exact bind_run_ok_iff.2 ⟨_, _, spliced, rfl⟩

theorem nodup_callbackSites {sites : List Nat} (found : callbackSites cb c = .ok sites) :
    sites.Nodup := by
  unfold callbackSites at found
  split at found
  · split at found
    · cases found
      exact List.nodup_singleton _
    · cases found
  · split at found
    · cases found
    · cases found
      exact List.nodup_range.filter _

/-- The methods that a callback goes to: the first one of its signature, or the constructors. -/
def Targets (cb : Callback) (c : ClassFile) (m : Method) : Prop :=
  match cb.target with
  | .method name desc => c.method? name desc = some m
  | .constructors => m ∈ c.methods ∧ m.name = "<init>"

theorem targets_iff {sites : List Nat} (found : callbackSites cb c = .ok sites) :
    Targets cb c m ↔ ∃ i ∈ sites, c.methods[i]? = some m := by
  unfold callbackSites at found
  unfold Targets
  cases target : cb.target with
  | method name desc =>
    rw [target] at found
    dsimp only at found ⊢
    split at found
    · rename_i i index
      cases found
      obtain ⟨inside, fits, first⟩ := List.findIdx?_eq_some_iff_getElem.1 index
      have located : c.method? name desc = some c.methods[i] :=
        List.find?_eq_some_iff_getElem.2
          ⟨fits, i, inside, rfl, fun j before => by simpa using first j before⟩
      simp [located, inside]
    · cases found
  | constructors =>
    rw [target] at found
    dsimp only at found ⊢
    split at found
    · cases found
    · cases found
      simp only [List.mem_filter, List.mem_range]
      rw [List.mem_iff_getElem?]
      constructor
      · rintro ⟨⟨i, here⟩, name⟩
        exact ⟨i, ⟨(List.getElem?_eq_some_iff.1 here).1, by simp [here, name]⟩, here⟩
      · rintro ⟨i, ⟨_, name⟩, here⟩
        exact ⟨⟨i, here⟩, by simpa [here] using name⟩

theorem SplicedAll.signatures {sites : List Nat} (h : SplicedAll cb callback sites c c') :
    c'.methods.map Method.signature = c.methods.map Method.signature := by
  apply List.ext_getElem?
  intro i
  rw [List.getElem?_map, List.getElem?_map, h.method]
  split
  · cases c.methods[i]? <;> simp [Method.signature]
  · rfl

theorem callbackSites_congr (name : c'.name = c.name)
    (signatures : c'.methods.map Method.signature = c.methods.map Method.signature) :
    callbackSites cb c' = callbackSites cb c := by
  have index (wanted desc : String) : c'.methods.findIdx? (Method.hasSignature wanted desc) =
      c.methods.findIdx? (Method.hasSignature wanted desc) := by
    have mapped (methods : List Method) : methods.findIdx? (Method.hasSignature wanted desc) =
        (methods.map Method.signature).findIdx? fun s => s.1 == wanted && s.2 == desc := by
      rw [List.findIdx?_map]
      rfl
    rw [mapped, mapped, signatures]
  have named (i : Nat) : (c'.methods[i]?.map fun m => m.name == "<init>") =
      c.methods[i]?.map fun m => m.name == "<init>" := by
    have same := congrArg (fun l => l[i]?.map fun s => s.1 == "<init>") signatures
    simpa [Function.comp_def, Method.signature] using same
  have length : c'.methods.length = c.methods.length := by
    simpa using congrArg List.length signatures
  unfold callbackSites
  simp only [index, named, length, name]

theorem applyDelegate_ok_iff {name desc : String} {delegate : MemberRef} {invoke : Opcode}
    {now : Bool} :
    applyDelegate name desc delegate invoke c = (.ok now, c') ↔
      ∃ m hooked insns, c.method? name desc = some m ∧ m.descriptor = .ok hooked ∧
        delegateBody ("replace " ++ c.name ++ "." ++ name ++ desc) m.isStatic hooked delegate
          invoke = .ok insns ∧
        c.replaceBody name desc (Code.ofInsns insns) = .ok (now, c') := by
  unfold applyDelegate
  rw [run_get]
  dsimp only
  cases c.method? name desc with
  | none => exact ⟨fun run => (nomatch run), fun ⟨_, _, _, found, _⟩ => nomatch found⟩
  | some m =>
    constructor
    · intro run
      obtain ⟨hooked, described, run⟩ := ofExcept_bind_ok_iff.1 run
      obtain ⟨insns, made, run⟩ := ofExcept_bind_ok_iff.1 run
      obtain ⟨⟨now', c''⟩, replaced, run⟩ := ofExcept_bind_ok_iff.1 run
      cases run
      exact ⟨m, hooked, insns, rfl, orBadFormat_ok_iff.1 described, made, replaced⟩
    · rintro ⟨_, hooked, insns, ⟨⟩, described, made, replaced⟩
      refine ofExcept_bind_ok_iff.2 ⟨hooked, orBadFormat_ok described, ?_⟩
      refine ofExcept_bind_ok_iff.2 ⟨insns, made, ?_⟩
      exact ofExcept_bind_ok_iff.2 ⟨_, replaced, rfl⟩

theorem method?_updateMethod (name desc : String) (f : Method → Method)
    (kept : ∀ m, (f m).hasSignature name desc = m.hasSignature name desc) (c : ClassFile) :
    (c.updateMethod name desc f).method? name desc = (c.method? name desc).map f := by
  rw [ClassFile.updateMethod, ClassFile.method?, ClassFile.method?]
  dsimp only
  induction c.methods with
  | nil => rfl
  | cons m ms ih =>
    rw [ClassFile.updateMethod.update]
    split
    · rename_i found
      rw [List.find?_cons_of_pos (by rwa [kept]), List.find?_cons_of_pos found]
      rfl
    · rename_i other
      rw [List.find?_cons_of_neg other, List.find?_cons_of_neg other, ih]

theorem method?_applyDelegate {name desc : String} {delegate : MemberRef} {invoke : Opcode}
    {now : Bool} (run : applyDelegate name desc delegate invoke c = (.ok now, c')) :
    ∃ m code, c'.method? name desc = some m ∧ m.code = some code ∧
      CallsOnce (.method invoke delegate false) code.insns := by
  obtain ⟨m, hooked, insns, found, _, made, replaced⟩ := applyDelegate_ok_iff.1 run
  have once := callsOnce_delegateBody made
  rw [ClassFile.replaceBody, found] at replaced
  dsimp only at replaced
  split at replaced
  · rename_i same
    obtain ⟨code, body, insns_eq⟩ := Option.map_eq_some_iff.1 same
    cases replaced
    exact ⟨m, code, found, body, insns_eq ▸ once⟩
  · cases replaced
    have found' := method?_updateMethod name desc (fun m =>
      { m with
        access := m.access.remove (Access.abstractBit ||| Access.nativeBit)
        code := some (Code.ofInsns insns) }) (fun _ => rfl) c
    rw [found] at found'
    exact ⟨_, _, found', rfl, once⟩

end

end Edit

end ClassWeave
