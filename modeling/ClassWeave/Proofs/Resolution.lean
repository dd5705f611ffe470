import Mathlib.Tactic.Common
import ClassWeave.Mixin.Resolve
import ClassWeave.Proofs.Sequences

/-!
# What a mixin resolves to

A mixin resolves when each of its declarations does, and its edits are theirs, list by list.
-/

set_option autoImplicit false

namespace ClassWeave.Mixin

structure Parts where
  fields : List (List PlannedEdit)
  getters : List PlannedEdit
  setters : List PlannedEdit
  invokers : List PlannedEdit
  callbacks : List PlannedEdit
  copies : List PlannedEdit
  replacements : List PlannedEdit

def Parts.edits (p : Parts) (m : Mixin) (target : String) (r : Renaming) : List PlannedEdit :=
  m.interfaces.map (fun i => before target (.addInterface i)) ++ p.fields.flatten ++ p.getters ++
    p.setters ++ p.invokers ++ p.callbacks ++ m.methodsEdit target r ++ p.copies ++ p.replacements

/-- Each declaration of the mixin resolves to the edit that stands for it in `p`. -/
structure ResolvesTo (t : HookTable) (m : Mixin) (target : String) (r : Renaming) (p : Parts) :
    Prop where
  fields : List.Forall₂ (fun f edits => m.fieldEdits t target r f = .ok edits) m.fields p.fields
  getters : List.Forall₂ (fun s edit => m.getterEdit t target r s = .ok edit) m.getters p.getters
  setters : List.Forall₂ (fun s edit => m.setterEdit t target r s = .ok edit) m.setters p.setters
  invokers : List.Forall₂ (fun s edit => m.invokerEdit t target r s = .ok edit) m.invokers
    p.invokers
  callbacks : List.Forall₂ (fun s edit => m.callbackEdit t target r s = .ok edit) m.callbacks
    p.callbacks
  replacements : List.Forall₂ (fun s edit => m.replacementEdit t target r s = .ok edit)
    m.replacements p.replacements
  methods : ∀ d ∈ m.methods, ∃ method, m.requireBody d .method = .ok method
  copies : List.Forall₂ (fun s edit => m.copyEdit t target s = .ok edit) m.copies p.copies

variable {t : HookTable} {m : Mixin} {edits : List PlannedEdit}

theorem exists_mapM_ok_iff {ε α β : Type} {f : α → Except ε β} {as : List α} :
    (∃ bs, as.mapM f = .ok bs) ↔ ∀ a ∈ as, ∃ b, f a = .ok b := by
  constructor
  · rintro ⟨bs, all⟩ a mem
    obtain ⟨b, _, found⟩ := exists_right_of_forall₂ (mapM_ok_iff.1 all) mem
    exact ⟨b, found⟩
  · exact mapM_ok

theorem resolve_ok_iff : m.resolve t = .ok edits ↔
    ∃ hook r p, t.classHook m.target = .ok hook ∧ m.rules t hook.obfName = .ok r ∧
      ResolvesTo t m hook.obfName r p ∧ edits = p.edits m hook.obfName r := by
  simp only [resolve, bind_ok_iff]
  constructor
  · rintro ⟨hook, found, r, rules, fields, inFields, getters, inGetters, setters, inSetters,
      invokers, inInvokers, callbacks, inCallbacks, replacements, inReplacements, methods,
      inMethods, copies, inCopies, made⟩
    refine ⟨hook, r, ⟨fields, getters, setters, invokers, callbacks, copies, replacements⟩, found,
      rules, ?_, (Except.ok.inj made).symm⟩
    exact {
      fields := mapM_ok_iff.1 inFields
      getters := mapM_ok_iff.1 inGetters
      setters := mapM_ok_iff.1 inSetters
      invokers := mapM_ok_iff.1 inInvokers
      callbacks := mapM_ok_iff.1 inCallbacks
      replacements := mapM_ok_iff.1 inReplacements
      methods := exists_mapM_ok_iff.1 ⟨methods, inMethods⟩
      copies := mapM_ok_iff.1 inCopies }
  · rintro ⟨hook, r, p, found, rules, parts, rfl⟩
    obtain ⟨methods, inMethods⟩ := mapM_ok parts.methods
    exact ⟨hook, found, r, rules, p.fields, mapM_ok_iff.2 parts.fields,
      p.getters, mapM_ok_iff.2 parts.getters, p.setters, mapM_ok_iff.2 parts.setters,
      p.invokers, mapM_ok_iff.2 parts.invokers, p.callbacks, mapM_ok_iff.2 parts.callbacks,
      p.replacements, mapM_ok_iff.2 parts.replacements, methods, inMethods,
      p.copies, mapM_ok_iff.2 parts.copies, rfl⟩

theorem exists_resolvesTo {target : String} {r : Renaming}
    (fields : ∀ f ∈ m.fields, ∃ edits, m.fieldEdits t target r f = .ok edits)
    (getters : ∀ s ∈ m.getters, ∃ edit, m.getterEdit t target r s = .ok edit)
    (setters : ∀ s ∈ m.setters, ∃ edit, m.setterEdit t target r s = .ok edit)
    (invokers : ∀ s ∈ m.invokers, ∃ edit, m.invokerEdit t target r s = .ok edit)
    (callbacks : ∀ s ∈ m.callbacks, ∃ edit, m.callbackEdit t target r s = .ok edit)
    (replacements : ∀ s ∈ m.replacements, ∃ edit, m.replacementEdit t target r s = .ok edit)
    (methods : ∀ d ∈ m.methods, ∃ method, m.requireBody d .method = .ok method)
    (copies : ∀ s ∈ m.copies, ∃ edit, m.copyEdit t target s = .ok edit) :
    ∃ p, ResolvesTo t m target r p := by
  obtain ⟨fieldEdits, inFields⟩ := mapM_ok fields
  obtain ⟨getterEdits, inGetters⟩ := mapM_ok getters
  obtain ⟨setterEdits, inSetters⟩ := mapM_ok setters
  obtain ⟨invokerEdits, inInvokers⟩ := mapM_ok invokers
  obtain ⟨callbackEdits, inCallbacks⟩ := mapM_ok callbacks
  obtain ⟨replacementEdits, inReplacements⟩ := mapM_ok replacements
  obtain ⟨copyEdits, inCopies⟩ := mapM_ok copies
  exact ⟨⟨fieldEdits, getterEdits, setterEdits, invokerEdits, callbackEdits, copyEdits,
    replacementEdits⟩, {
      fields := mapM_ok_iff.1 inFields
      getters := mapM_ok_iff.1 inGetters
      setters := mapM_ok_iff.1 inSetters
      invokers := mapM_ok_iff.1 inInvokers
      callbacks := mapM_ok_iff.1 inCallbacks
      replacements := mapM_ok_iff.1 inReplacements
      methods := methods
      copies := mapM_ok_iff.1 inCopies }⟩

inductive Origin (t : HookTable) (m : Mixin) (target : String) (r : Renaming) :
    PlannedEdit → Prop where
  | interface {name : String} (mem : name ∈ m.interfaces) :
    Origin t m target r (before target (.addInterface name))
  | field {f : MixinField} {edits : List PlannedEdit} {e : PlannedEdit} (mem : f ∈ m.fields)
    (made : m.fieldEdits t target r f = .ok edits) (mem_edits : e ∈ edits) : Origin t m target r e
  | getter {s : HookUse} {e : PlannedEdit} (mem : s ∈ m.getters)
    (made : m.getterEdit t target r s = .ok e) : Origin t m target r e
  | setter {s : MixinSetter} {e : PlannedEdit} (mem : s ∈ m.setters)
    (made : m.setterEdit t target r s = .ok e) : Origin t m target r e
  | invoker {s : HookUse} {e : PlannedEdit} (mem : s ∈ m.invokers)
    (made : m.invokerEdit t target r s = .ok e) : Origin t m target r e
  | callback {s : MixinCallback} {e : PlannedEdit} (mem : s ∈ m.callbacks)
    (made : m.callbackEdit t target r s = .ok e) : Origin t m target r e
  | methods {e : PlannedEdit} (mem : e ∈ m.methodsEdit target r) : Origin t m target r e
  | copy {s : HookUse} {e : PlannedEdit} (mem : s ∈ m.copies)
    (made : m.copyEdit t target s = .ok e) : Origin t m target r e
  | replacement {s : HookUse} {e : PlannedEdit} (mem : s ∈ m.replacements)
    (made : m.replacementEdit t target r s = .ok e) : Origin t m target r e

theorem mem_iff_of_forall₂_ok {ε α β : Type} {f : α → Except ε β} {as : List α} {bs : List β}
    (all : List.Forall₂ (fun a b => f a = .ok b) as bs) {b : β} :
    b ∈ bs ↔ ∃ a ∈ as, f a = .ok b := by
  constructor
  · exact exists_left_of_forall₂ all
  · rintro ⟨a, mem, found⟩
    obtain ⟨b', mem', found'⟩ := exists_right_of_forall₂ all mem
    rw [found] at found'
    exact Except.ok.inj found' ▸ mem'

theorem ResolvesTo.mem_edits {target : String} {r : Renaming} {p : Parts}
    (parts : ResolvesTo t m target r p) {e : PlannedEdit} :
    e ∈ p.edits m target r ↔ Origin t m target r e := by
  simp only [Parts.edits, List.mem_append, List.mem_map, List.mem_flatten,
    mem_iff_of_forall₂_ok parts.fields, mem_iff_of_forall₂_ok parts.getters,
    mem_iff_of_forall₂_ok parts.setters, mem_iff_of_forall₂_ok parts.invokers,
    mem_iff_of_forall₂_ok parts.callbacks, mem_iff_of_forall₂_ok parts.copies,
    mem_iff_of_forall₂_ok parts.replacements, or_assoc]
  constructor
  · rintro (⟨i, mem, rfl⟩ | ⟨edits, ⟨f, mem, made⟩, inside⟩ | ⟨s, mem, made⟩ | ⟨s, mem, made⟩ |
      ⟨s, mem, made⟩ | ⟨s, mem, made⟩ | mem | ⟨s, mem, made⟩ | ⟨s, mem, made⟩)
    · exact .interface mem
    · exact .field mem made inside
    · exact .getter mem made
    · exact .setter mem made
    · exact .invoker mem made
    · exact .callback mem made
    · exact .methods mem
    · exact .copy mem made
    · exact .replacement mem made
  · intro origin
    cases origin with
    | interface mem => exact .inl ⟨_, mem, rfl⟩
    | field mem made inside => exact .inr (.inl ⟨_, ⟨_, mem, made⟩, inside⟩)
    | getter mem made => exact .inr (.inr (.inl ⟨_, mem, made⟩))
    | setter mem made => exact .inr (.inr (.inr (.inl ⟨_, mem, made⟩)))
    | invoker mem made => exact .inr (.inr (.inr (.inr (.inl ⟨_, mem, made⟩))))
    | callback mem made => exact .inr (.inr (.inr (.inr (.inr (.inl ⟨_, mem, made⟩)))))
    | methods mem => exact .inr (.inr (.inr (.inr (.inr (.inr (.inl mem))))))
    | copy mem made => exact .inr (.inr (.inr (.inr (.inr (.inr (.inr (.inl ⟨_, mem, made⟩)))))))
    | replacement mem made =>
      exact .inr (.inr (.inr (.inr (.inr (.inr (.inr (.inr ⟨_, mem, made⟩)))))))

def Yields {ε α : Type} (good : α → Prop) (x : Except ε α) : Prop := ∀ a, x = .ok a → good a

theorem Yields.ok {ε α : Type} {good : α → Prop} {a : α} (h : good a) :
    Yields good (.ok a : Except ε α) := by
  rintro _ ⟨⟩
  exact h

theorem Yields.bind {ε α β : Type} {good : β → Prop} {x : Except ε α} {k : α → Except ε β}
    (h : ∀ a, x = .ok a → Yields good (k a)) : Yields good (x >>= k) := by
  intro b made
  obtain ⟨a, found, made⟩ := bind_ok_iff.1 made
  exact h a found b made

theorem Yields.error {ε α : Type} {good : α → Prop} {e : ε} :
    Yields good (.error e : Except ε α) := fun _ made => nomatch made

def Declarative : Edit → Prop
  | .addInterface _ | .addField _ _ _ | .addGetter _ _ _ _ _ | .addSetter _ _ _ _ _
  | .addInvoker _ _ _ _ | .copyMethod _ _ => True
  | _ => False

section Declarative

variable (t : HookTable) (m : Mixin) (target : String) (r : Renaming)

theorem declarative_fieldEdits (f : MixinField) :
    Yields (fun edits => ∀ e ∈ edits, Declarative e.edit) (m.fieldEdits t target r f) := by
  have added (hook : Option FieldHook) (desc : String) : ∀ e ∈
      (if hook.isSome = true then [] else [before target (.addField f.access f.name desc)]),
      Declarative e.edit := by
    intro e mem
    split at mem
    · cases mem
    · rw [List.mem_singleton.1 mem]
      trivial
  have read (member : MemberRef) (desc : String) (decode : Option Int64) : ∀ e ∈
      (f.getterName?.toList.map fun name =>
        before target (.addGetter name desc member f.isStatic decode)), Declarative e.edit := by
    intro e mem
    obtain ⟨name, _, rfl⟩ := List.mem_map.1 mem
    trivial
  have written (name desc : String) (member : MemberRef) (encode : Option Int64) :
      ∀ e ∈ [before target (.addSetter name desc member f.isStatic encode)],
        Declarative e.edit := by
    intro e mem
    rw [List.mem_singleton.1 mem]
    trivial
  have both {l l' : List PlannedEdit} (h : ∀ e ∈ l, Declarative e.edit)
      (h' : ∀ e ∈ l', Declarative e.edit) : ∀ e ∈ l ++ l', Declarative e.edit :=
    List.forall_mem_append.2 ⟨h, h'⟩
  unfold fieldEdits
  dsimp only
  split
  all_goals
    apply Yields.bind
    intro hook _
    split
    all_goals
      apply Yields.bind
      intro decode _
      split
      · exact .ok (both (added _ _) (read _ _ _))
      · split
        all_goals
          apply Yields.bind
          intro encode _
          exact .ok (both (both (added _ _) (read _ _ _)) (written _ _ _ _))

theorem declarative_getterEdit (s : HookUse) :
    Yields (fun e => Declarative e.edit) (m.getterEdit t target r s) :=
  .bind fun _ _ => .bind fun _ _ => .bind fun _ _ => .ok trivial

theorem declarative_setterEdit (s : MixinSetter) :
    Yields (fun e => Declarative e.edit) (m.setterEdit t target r s) := by
  refine .bind fun _ _ => .bind fun _ _ => .bind fun _ _ => ?_
  dsimp only
  split
  · exact .bind fun _ _ => .ok trivial
  · exact .bind fun _ _ => .ok trivial

theorem declarative_invokerEdit (s : HookUse) :
    Yields (fun e => Declarative e.edit) (m.invokerEdit t target r s) := by
  refine .bind fun _ _ => ?_
  dsimp only
  split
  · exact .error
  · refine .bind fun h _ => .bind fun _ _ => .bind fun _ _ => ?_
    split
    all_goals
      split
      · exact .error
      · exact .ok trivial

theorem declarative_copyEdit (s : HookUse) :
    Yields (fun e => Declarative e.edit) (m.copyEdit t target s) :=
  .bind fun _ _ => .bind fun _ _ => .ok trivial

end Declarative

theorem callbackEdit_yields (t : HookTable) (m : Mixin) (target : String) (r : Renaming)
    (s : MixinCallback) : Yields (fun e => ∃ (method : Method) (cb : Callback),
      m.requireBody s.method .inject = .ok method ∧ e = before target (.injectCallback cb) ∧
      cb.method = ⟨target, s.method.name, r.desc s.method.desc⟩ ∧ cb.invoke = callOpcode method)
    (m.callbackEdit t target r s) := by
  refine .bind fun method found => ?_
  dsimp only
  split
  · split
    · exact .bind fun _ failed => nomatch failed
    · refine .bind fun site _ => .bind fun mismatch _ => .bind fun _ _ => .ok ?_
      exact ⟨method, _, found, rfl, rfl, rfl⟩
  · refine .bind fun h _ => .bind fun site _ => .bind fun mismatch _ => .bind fun _ _ => .ok ?_
    exact ⟨method, _, found, rfl, rfl, rfl⟩

theorem replacementEdit_yields (t : HookTable) (m : Mixin) (target : String) (r : Renaming)
    (s : HookUse) : Yields (fun e => ∃ (method : Method) (h : MethodHook),
      m.requireBody s.method .replace = .ok method ∧ (method.isStatic = true ∨ h.owner = target) ∧
      e = ⟨.postCopy, h.owner, .replaceMethod h.obfName h.desc
        ⟨target, s.method.name, r.desc s.method.desc⟩ (callOpcode method)⟩)
    (m.replacementEdit t target r s) := by
  refine .bind fun method found => .bind fun h _ => ?_
  dsimp only
  split
  · exact .error
  · rename_i local_
    refine .bind fun mismatch _ => .bind fun _ _ => .ok ?_
    refine ⟨method, h, found, ?_, rfl⟩
    simpa [or_iff_not_imp_left] using local_

theorem eq_of_mem_methodsEdit {target : String} {r : Renaming} {e : PlannedEdit}
    (mem : e ∈ m.methodsEdit target r) : ∃ c, m.compiled = some c ∧
      e = before target (.addMethods c (m.copiedMethods.map fun d => (d.name, d.desc)) r) := by
  unfold methodsEdit at mem
  split at mem
  · cases mem
  · rename_i c compiled
    split at mem
    · cases mem
    · exact ⟨c, compiled, List.mem_singleton.1 mem⟩

theorem Origin.cases {target : String} {r : Renaming} {e : PlannedEdit}
    (origin : Origin t m target r e) : Declarative e.edit ∨
      (∃ s ∈ m.callbacks, m.callbackEdit t target r s = .ok e) ∨
      (∃ s ∈ m.replacements, m.replacementEdit t target r s = .ok e) ∨
      e ∈ m.methodsEdit target r := by
  cases origin with
  | interface mem => exact .inl trivial
  | field mem made inside => exact .inl (declarative_fieldEdits t m target r _ _ made _ inside)
  | getter mem made => exact .inl (declarative_getterEdit t m target r _ _ made)
  | setter mem made => exact .inl (declarative_setterEdit t m target r _ _ made)
  | invoker mem made => exact .inl (declarative_invokerEdit t m target r _ _ made)
  | callback mem made => exact .inr (.inl ⟨_, mem, made⟩)
  | methods mem => exact .inr (.inr (.inr mem))
  | copy mem made => exact .inl (declarative_copyEdit t m target _ _ made)
  | replacement mem made => exact .inr (.inr (.inl ⟨_, mem, made⟩))

end ClassWeave.Mixin
