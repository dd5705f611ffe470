import Mathlib.Data.List.Induction
import ClassWeave.Analysis.Effect
import ClassWeave.Proofs.Descriptor
import ClassWeave.Proofs.Renaming
import ClassWeave.Proofs.Resolution

/-!
# Shadow fields and the operand stack

Values on the operand stack come in kinds, and the descriptor of a field or method decides which
ones an instruction hands over. Renaming classes keeps them. A shadow field is redirected to the
field of its hook with the descriptor of the hook, whatever the mixin declares: so a copied body
keeps what its instructions hand over exactly if the kinds of the hooks are those of the accesses.
Resolving a mixin does not compare them.
-/

set_option autoImplicit false

namespace ClassWeave

def VType.kind : VType → VType
  | .object _ => .null
  | t => t

def FieldType.kind (t : FieldType) : VType := (VType.ofFieldType t).kind

/-- What stands on the stack for the value of a field. -/
def fieldKind (desc : String) : Option VType := (FieldType.parse desc).toOption.map FieldType.kind

def callKinds (desc : String) : Option (List VType × Option VType) :=
  (MethodDescriptor.parse desc).toOption.map fun d =>
    (d.params.map FieldType.kind, d.result.map FieldType.kind)

/-- The values that an instruction hands over as its descriptor has it: the arguments that a call
takes, and the result of a call, the value of a field or a constant. -/
def Insn.operands : Insn → Option (List VType × Option VType)
  | .field _ m => (fieldKind m.desc).map fun kind => ([], some kind)
  | .method _ m _ => callKinds m.desc
  | .callSite _ desc _ => callKinds desc
  | .ldc value => (loadableType value).toOption.map fun t => ([], some t.kind)
  | _ => some ([], none)

/-- Instruction by instruction, the one body hands over what the other does. -/
def KeepsOperands (code code' : Code) : Prop :=
  code'.insns.map (fun i => (i.opcode?, i.operands)) =
    code.insns.map fun i => (i.opcode?, i.operands)

def State.kinds (s : State) : State := ⟨s.locals.map VType.kind, s.stack.map VType.kind⟩

theorem MethodSite.kinds_replaceTop (site : MethodSite) (index n : Nat)
    {pushes pushes' : List VType} (same : pushes'.map VType.kind = pushes.map VType.kind)
    (s : State) :
    (site.replaceTop index n pushes' s).toOption.map State.kinds =
      (site.replaceTop index n pushes s).toOption.map State.kinds := by
  unfold MethodSite.replaceTop
  split
  · rfl
  · simp [State.kinds, Except.toOption, same]

theorem MethodSite.kinds_field (site : MethodSite) (index : Nat) (op : Opcode) {desc desc' : String}
    (same : fieldKind desc' = fieldKind desc) (s : State) :
    (site.field index op desc' s).toOption.map State.kinds =
      (site.field index op desc s).toOption.map State.kinds := by
  revert same
  unfold fieldKind MethodSite.field
  rcases FieldType.parse desc with _ | t <;> rcases FieldType.parse desc' with _ | t' <;>
    intro same
  · rfl
  · exact absurd same (Option.some_ne_none _)
  · exact absurd same.symm (Option.some_ne_none _)
  · have kind : t'.kind = t.kind := Option.some.inj same
    have pushed : [VType.ofFieldType t'].map VType.kind = [VType.ofFieldType t].map VType.kind :=
      congrArg (fun kind => [kind]) kind
    show (ite _ _ _ : Except WriteError State).toOption.map State.kinds =
      (ite _ _ _ : Except WriteError State).toOption.map State.kinds
    split_ifs
    · exact site.kinds_replaceTop index 0 pushed s
    · rfl
    · exact site.kinds_replaceTop index 1 pushed s
    · rfl

namespace Renaming

variable {r : Renaming}

def KeepsNames (r : Renaming) : Prop := ∀ name, ';' ∉ name →
  ';' ∉ r.innerName name ∧ (r.innerName name = [] ↔ name = [])

theorem head?_descChars (cs : List Char) : (r.descChars cs).head? = cs.head? := by
  induction cs using text_induction with
  | nil => rw [descChars_nil]
  | plain c cs other ih => rw [descChars_cons r other]; rfl
  | marked name rest closed ih => rw [descChars_marked r closed]; rfl
  | unclosed tail unclosed => rw [descChars_open r unclosed]

theorem descChars_eq_nil {cs : List Char} : r.descChars cs = [] ↔ cs = [] := by
  rw [← List.head?_eq_none_iff, head?_descChars, List.head?_eq_none_iff]

theorem descChars_eq_singleton {cs : List Char} {c : Char} (plain : c ≠ 'L') :
    r.descChars cs = [c] ↔ cs = [c] := by
  have first : r.descChars cs = [c] → cs.head? = some c := by
    intro same
    rw [← head?_descChars (r := r), same]
    rfl
  constructor
  · intro same
    obtain ⟨tail, rfl⟩ := List.head?_eq_some_iff.1 (first same)
    rw [descChars_cons r plain, List.cons.injEq, descChars_eq_nil] at same
    rw [same.2]
  · rintro rfl
    rw [descChars_cons r plain, descChars_nil]

theorem read_descChars (keeps : r.KeepsNames) (cs : List Char) :
    match FieldType.read cs with
    | none => FieldType.read (r.descChars cs) = none
    | some (t, rest) => ∃ t', FieldType.read (r.descChars cs) = some (t', r.descChars rest) ∧
        t'.kind = t.kind := by
  induction cs with
  | nil =>
    rw [descChars_nil]
    rfl
  | cons c tail ih =>
    by_cases mark : c = 'L'
    · subst mark
      by_cases closed : ';' ∈ tail
      · obtain ⟨name, rest, rfl, fresh⟩ := List.eq_append_cons_of_mem closed
        obtain ⟨fresh', empty⟩ := keeps name fresh
        rw [← List.cons_append, FieldType.read_class fresh, descChars_marked r fresh,
          FieldType.read_class fresh']
        by_cases nameless : name = []
        · rw [if_pos nameless, if_pos (empty.2 nameless)]
        · rw [if_neg nameless, if_neg (mt empty.1 nameless)]
          exact ⟨_, rfl, rfl⟩
      · rw [descChars_open r closed, FieldType.read_unclosed closed]
    · rw [descChars_cons r mark]
      by_cases array : c = '['
      · subst array
        rw [FieldType.read_array, FieldType.read_array]
        revert ih
        rcases FieldType.read tail with _ | ⟨element, rest⟩
        · intro none
          exact congrArg (Option.map _) none
        · rintro ⟨element', found, _⟩
          exact ⟨.array element', congrArg (Option.map _) found, rfl⟩
      · obtain ⟨t, letter⟩ := FieldType.read_letter mark array
        rw [letter, letter]
        cases t with
        | none => rfl
        | some t => exact ⟨t, rfl, rfl⟩

theorem fieldKind_desc (keeps : r.KeepsNames) (desc : String) :
    fieldKind (r.desc desc) = fieldKind desc := by
  have renamed := read_descChars keeps desc.toList
  rw [fieldKind, fieldKind, FieldType.parse, FieldType.parse, Renaming.desc, String.toList_ofList]
  revert renamed
  rcases FieldType.read desc.toList with _ | ⟨t, rest⟩
  · intro unread
    rw [unread]
    rfl
  · rintro ⟨t', found, kind⟩
    rw [found]
    cases rest with
    | nil =>
      rw [descChars_nil]
      exact congrArg some kind
    | cons c rest =>
      have more : r.descChars (c :: rest) ≠ [] := mt descChars_eq_nil.1 (List.cons_ne_nil c rest)
      obtain ⟨c', rest', behind⟩ := List.exists_cons_of_ne_nil more
      rw [behind]
      rfl

theorem readParams_descChars (keeps : r.KeepsNames) (cs : List Char) (known known' : List FieldType)
    (kinds : known'.map FieldType.kind = known.map FieldType.kind) :
    match MethodDescriptor.readParams cs known with
    | none => MethodDescriptor.readParams (r.descChars cs) known' = none
    | some (params, rest) => ∃ params',
        MethodDescriptor.readParams (r.descChars cs) known' = some (params', r.descChars rest) ∧
        params'.map FieldType.kind = params.map FieldType.kind := by
  induction cs, known using MethodDescriptor.readParams.induct generalizing known' with
  | case1 known =>
    rw [descChars_nil, MethodDescriptor.readParams, MethodDescriptor.readParams]
  | case2 known rest =>
    rw [descChars_cons r (by decide), MethodDescriptor.readParams, MethodDescriptor.readParams,
      if_pos rfl, if_pos rfl]
    exact ⟨_, rfl, by rw [List.map_reverse, List.map_reverse, kinds]⟩
  | case3 known c tail open_ t rest found ih =>
    have renamed := read_descChars keeps (c :: tail)
    rw [found] at renamed
    obtain ⟨t', found', kind⟩ := renamed
    obtain ⟨tail', whole⟩ := List.head?_eq_some_iff.1 (head?_descChars (r := r) (c :: tail))
    rw [whole] at found' ⊢
    rw [MethodDescriptor.readParams_cons open_, MethodDescriptor.readParams_cons open_, found,
      found']
    exact ih (t' :: known') (by rw [List.map_cons, List.map_cons, kind, kinds])
  | case4 known c tail open_ unread =>
    have renamed := read_descChars keeps (c :: tail)
    rw [unread] at renamed
    obtain ⟨tail', whole⟩ := List.head?_eq_some_iff.1 (head?_descChars (r := r) (c :: tail))
    rw [whole] at renamed ⊢
    rw [MethodDescriptor.readParams_cons open_, MethodDescriptor.readParams_cons open_, unread,
      renamed]

def resultKind (cs : List Char) : Option (Option VType) :=
  if cs = ['V'] then some none
  else match FieldType.read cs with
    | some (t, []) => some (some t.kind)
    | _ => none

theorem callKinds_open (tail : List Char) : callKinds (String.ofList ('(' :: tail)) =
    (MethodDescriptor.readParams tail []).bind fun p =>
      (resultKind p.2).map fun result => (p.1.map FieldType.kind, result) := by
  rw [callKinds, MethodDescriptor.parse, String.toList_ofList, MethodDescriptor.parseChars_open]
  rcases MethodDescriptor.readParams tail [] with _ | ⟨params, rest⟩
  · rfl
  · unfold resultKind
    rw [Option.bind_some, Option.bind_some]
    by_cases void : rest = ['V']
    · rw [if_pos void, if_pos void]
      rfl
    · rw [if_neg void, if_neg void]
      rcases FieldType.read rest with _ | ⟨t, _ | ⟨c, rest⟩⟩ <;> rfl

theorem callKinds_of_ne {cs : List Char} (other : cs.head? ≠ some '(') :
    callKinds (String.ofList cs) = none := by
  have unread : MethodDescriptor.parseChars cs = none := by
    unfold MethodDescriptor.parseChars
    split
    · exact absurd rfl other
    · rfl
  rw [callKinds, MethodDescriptor.parse, String.toList_ofList, unread]
  rfl

theorem resultKind_descChars (keeps : r.KeepsNames) (cs : List Char) :
    resultKind (r.descChars cs) = resultKind cs := by
  have void_iff : r.descChars cs = ['V'] ↔ cs = ['V'] := descChars_eq_singleton (by decide)
  unfold resultKind
  by_cases void : cs = ['V']
  · rw [if_pos void, if_pos (void_iff.2 void)]
  · rw [if_neg void, if_neg (mt void_iff.1 void)]
    have renamed := read_descChars keeps cs
    revert renamed
    rcases FieldType.read cs with _ | ⟨t, rest⟩
    · intro unread
      rw [unread]
    · rintro ⟨t', found, kind⟩
      rw [found]
      cases rest with
      | nil =>
        rw [descChars_nil]
        exact congrArg (fun kind => some (some kind)) kind
      | cons c rest =>
        have more : r.descChars (c :: rest) ≠ [] := mt descChars_eq_nil.1 (List.cons_ne_nil c rest)
        obtain ⟨c', rest', behind⟩ := List.exists_cons_of_ne_nil more
        rw [behind]

theorem callKinds_desc (keeps : r.KeepsNames) (desc : String) :
    callKinds (r.desc desc) = callKinds desc := by
  rw [Renaming.desc]
  conv_rhs => rw [← String.ofList_toList (s := desc)]
  by_cases opens : desc.toList.head? = some '('
  · obtain ⟨tail, whole⟩ := List.head?_eq_some_iff.1 opens
    rw [whole, descChars_cons r (by decide), callKinds_open, callKinds_open]
    have renamed := readParams_descChars keeps tail [] [] rfl
    revert renamed
    rcases MethodDescriptor.readParams tail [] with _ | ⟨params, rest⟩
    · intro unread
      rw [unread]
    · rintro ⟨params', found, kinds⟩
      rw [found, Option.bind_some, Option.bind_some, kinds, resultKind_descChars keeps]
  · rw [callKinds_of_ne opens, callKinds_of_ne (by rwa [head?_descChars])]

theorem desc_eq_letter {text letter : String} {c : Char} (one : letter.toList = [c])
    (plain : c ≠ 'L') : r.desc text = letter ↔ text = letter := by
  rw [← String.toList_inj, Renaming.desc, String.toList_ofList, one, descChars_eq_singleton plain,
    ← one, String.toList_inj]

theorem opcode?_insn (i : Insn) : (r.insn i).opcode? = i.opcode? := by
  cases i with
  | ldc value =>
    have wide : (r.loadable value).isWide = value.isWide := by
      cases value with
      | dynamic name desc h args =>
        rw [loadable, Loadable.isWide, Loadable.isWide, Bool.eq_iff_iff]
        simp only [Bool.or_eq_true, beq_iff_eq]
        exact or_congr (desc_eq_letter rfl (by decide)) (desc_eq_letter rfl (by decide))
      | _ => simp [loadable, Loadable.isWide]
    rw [insn, Insn.opcode?, Insn.opcode?, wide]
  | _ => rfl

theorem operands_dynamic (name desc : String) (h : Handle) (args : List Loadable) :
    (Insn.ldc (.dynamic name desc h args)).operands =
      (fieldKind desc).map fun kind => ([], some kind) := by
  rw [Insn.operands, loadableType, fieldKind]
  cases FieldType.parse desc <;> rfl

theorem operands_insn (keeps : r.KeepsNames) {i : Insn} (other : ∀ op m, i ≠ .field op m) :
    (r.insn i).operands = i.operands := by
  cases i with
  | field op m => exact absurd rfl (other op m)
  | method op m ofInterface => exact callKinds_desc keeps m.desc
  | callSite name desc b => exact callKinds_desc keeps desc
  | ldc value =>
    cases value with
    | dynamic name desc h args =>
      rw [insn, loadable, operands_dynamic, operands_dynamic, fieldKind_desc keeps]
    | _ => simp [insn, loadable, Insn.operands, loadableType]
  | _ => rfl

end Renaming

namespace Mixin

def shadowField? (fields : List MixinField) (name : String) : Option MixinField :=
  fields.reverse.find? fun f => f.shadow.isSome && f.name == name

def redirectShadow (t : HookTable) (m : Mixin) (c : ClassFile) (r : Renaming) (f : MixinField) :
    Resolving Renaming :=
  match f.shadow with
  | none => pure r
  | some hook => do
    let h ← m.fieldHook t hook f.isStatic
    return r.redirectField c.name f.name h.member

variable {t : HookTable} {m : Mixin} {c : ClassFile} {target : String} {r r₀ : Renaming}

theorem rules_eq (compiled : m.compiled = some c) : m.rules t target =
    m.fields.foldlM (redirectShadow t m c) (Renaming.empty.renameClass c.name target) := by
  rw [rules, compiled]
  rfl

theorem redirectShadow_ok_iff {f : MixinField} : redirectShadow t m c r₀ f = .ok r ↔
    (f.shadow = none ∧ r = r₀) ∨ ∃ hook h, f.shadow = some hook ∧
      m.fieldHook t hook f.isStatic = .ok h ∧ r = r₀.redirectField c.name f.name h.member := by
  unfold redirectShadow
  cases shadow : f.shadow with
  | none =>
    constructor
    · intro made
      exact .inl ⟨rfl, (Except.ok.inj made).symm⟩
    · rintro (⟨-, rfl⟩ | ⟨hook, h, ⟨⟩, -⟩)
      rfl
  | some hook =>
    rw [bind_ok_iff]
    constructor
    · rintro ⟨h, found, made⟩
      exact .inr ⟨hook, h, rfl, found, (Except.ok.inj made).symm⟩
    · rintro (⟨⟨⟩, -⟩ | ⟨_, h, ⟨⟩, found, rfl⟩)
      exact ⟨h, found, rfl⟩

theorem shadows_of_foldlM {fields : List MixinField}
    (folded : fields.foldlM (redirectShadow t m c) r₀ = .ok r) :
    r.classes = r₀.classes ∧ ∀ owner name,
      match if owner = c.name then shadowField? fields name else none with
      | none => r.fields.lookup (owner, name) = r₀.fields.lookup (owner, name)
      | some f => ∃ hook h, f.shadow = some hook ∧ m.fieldHook t hook f.isStatic = .ok h ∧
          r.fields.lookup (owner, name) = some h.member := by
  induction fields using List.reverseRecOn generalizing r with
  | nil =>
    cases folded
    refine ⟨rfl, fun owner name => ?_⟩
    rw [show shadowField? [] name = none from rfl, ite_self]
  | append_singleton fields f ih =>
    rw [List.foldlM_append, bind_ok_iff] at folded
    obtain ⟨r', before, step⟩ := folded
    rw [List.foldlM_cons, bind_ok_iff] at step
    obtain ⟨r'', step, done⟩ := step
    cases done
    obtain ⟨classes, rules⟩ := ih before
    have last (name : String) : shadowField? (fields ++ [f]) name =
        if f.shadow.isSome && f.name == name then some f else shadowField? fields name := by
      rw [shadowField?, List.reverse_append, List.reverse_singleton, List.singleton_append,
        List.find?_cons]
      cases f.shadow.isSome && f.name == name <;> rfl
    rcases redirectShadow_ok_iff.1 step with ⟨plain, rfl⟩ | ⟨hook, h, shadow, found, rfl⟩
    · refine ⟨classes, fun owner name => ?_⟩
      rw [last, plain]
      exact rules owner name
    · refine ⟨classes, fun owner name => ?_⟩
      rw [last, shadow]
      by_cases key : (owner, name) = (c.name, f.name)
      · obtain ⟨rfl, rfl⟩ := Prod.mk.inj key
        simp only [if_pos, Option.isSome_some, beq_self_eq_true, Bool.and_self]
        exact ⟨hook, h, shadow, found, List.lookup_cons_self⟩
      · have older : (r'.redirectField c.name f.name h.member).fields.lookup (owner, name) =
            r'.fields.lookup (owner, name) := by
          rw [Renaming.redirectField, List.lookup_cons, beq_false_of_ne key]
        rw [older]
        have rule := rules owner name
        by_cases own : owner = c.name
        · have other : f.name ≠ name := fun same => key (by rw [own, same])
          rw [beq_false_of_ne other, Bool.and_false, if_neg Bool.false_ne_true]
          exact rule
        · rw [if_neg own] at rule ⊢
          exact rule

/-- An access of `a` in the compiled class is one of the shadow field `f`, which stands for `h`. -/
structure Shadowed (t : HookTable) (m : Mixin) (c : ClassFile) (a : MemberRef) (f : MixinField)
    (h : FieldHook) : Prop where
  owner : a.owner = c.name
  field : shadowField? m.fields a.name = some f
  hook : ∃ name, f.shadow = some name ∧ m.fieldHook t name f.isStatic = .ok h

theorem Shadowed.unique {a : MemberRef} {f f' : MixinField} {h h' : FieldHook}
    (shadowed : Shadowed t m c a f h) (shadowed' : Shadowed t m c a f' h') : h' = h := by
  obtain ⟨-, field, name, shadow, found⟩ := shadowed
  obtain ⟨-, field', name', shadow', found'⟩ := shadowed'
  cases field.symm.trans field'
  cases shadow.symm.trans shadow'
  cases found.symm.trans found'
  rfl

/-- What becomes of the shadow fields of a mixin in the bodies that are copied from it. -/
structure Transplants (t : HookTable) (m : Mixin) (c : ClassFile) (target : String)
    (r : Renaming) : Prop where
  hooked : ∀ a f, a.owner = c.name → shadowField? m.fields a.name = some f →
    ∃ h, Shadowed t m c a f h
  access : ∀ a f h, Shadowed t m c a f h → ∀ op, r.insn (.field op a) = .field op h.member
  handle : ∀ (i : Handle) f h, i.isField = true → Shadowed t m c i.member f h →
    r.handle i = { i with member := h.member }
  operands : ∀ a f h, Shadowed t m c a f h → ∀ op,
    (r.insn (.field op a)).operands = (Insn.field op a).operands ↔
      fieldKind h.desc = fieldKind a.desc
  effect : ∀ a f h, Shadowed t m c a f h → fieldKind h.desc = fieldKind a.desc →
    ∀ (site : MethodSite) index fresh op s,
      (site.execute index fresh (r.insn (.field op a)) s).toOption.map State.kinds =
        (site.execute index fresh (.field op a) s).toOption.map State.kinds
  body : ';' ∉ target.toList → (target = "" ↔ c.name = "") →
    ∀ (method : Method) code, method.code = some code →
      ∃ code', (r.rehome method).code = some code' ∧ (KeepsOperands code code' ↔
        ∀ op a f h, .field op a ∈ code.insns → Shadowed t m c a f h →
          fieldKind h.desc = fieldKind a.desc)

section Rules

variable (compiled : m.compiled = some c) (rules : m.rules t target = .ok r)

include compiled rules

theorem classes_rules : r.classes = (Renaming.empty.renameClass c.name target).classes :=
  (shadows_of_foldlM (rules_eq compiled ▸ rules)).1

theorem exists_shadowed {a : MemberRef} {f : MixinField} (owner : a.owner = c.name)
    (field : shadowField? m.fields a.name = some f) :
    ∃ h, Shadowed t m c a f h ∧ r.field a = h.member := by
  have rule := (shadows_of_foldlM (rules_eq compiled ▸ rules)).2 a.owner a.name
  rw [if_pos owner, field] at rule
  obtain ⟨name, h, shadow, found, lookup⟩ := rule
  exact ⟨h, ⟨owner, field, name, shadow, found⟩, by rw [Renaming.field, lookup]⟩

theorem field_of_shadowed {a : MemberRef} {f : MixinField} {h : FieldHook}
    (shadowed : Shadowed t m c a f h) : r.field a = h.member := by
  obtain ⟨h', shadowed', renamed⟩ :=
    exists_shadowed compiled rules shadowed.owner shadowed.field
  rw [renamed, shadowed.unique shadowed']

theorem operands_iff_of_shadowed {a : MemberRef} {f : MixinField} {h : FieldHook}
    (shadowed : Shadowed t m c a f h) (op : Opcode) :
    (r.insn (.field op a)).operands = (Insn.field op a).operands ↔
      fieldKind h.desc = fieldKind a.desc := by
  rw [Renaming.insn, field_of_shadowed compiled rules shadowed]
  exact (Option.map_injective fun _ _ eq => Option.some.inj (Prod.mk.inj eq).2).eq_iff

theorem field_of_not_shadowed {a : MemberRef} (plain : ∀ f h, ¬ Shadowed t m c a f h) :
    r.field a = ⟨r.className a.owner, a.name, r.desc a.desc⟩ := by
  have rule := (shadows_of_foldlM (rules_eq compiled ▸ rules)).2 a.owner a.name
  have none : (if a.owner = c.name then shadowField? m.fields a.name else none) = none := by
    split_ifs with owner
    · cases field : shadowField? m.fields a.name with
      | none => rfl
      | some f =>
        obtain ⟨h, shadowed, -⟩ := exists_shadowed compiled rules owner field
        exact absurd shadowed (plain f h)
    · rfl
  have unruled : (Renaming.empty.renameClass c.name target).fields = [] := by
    rw [Renaming.renameClass]
    split_ifs <;> rfl
  rw [none, unruled] at rule
  rw [Renaming.field, show r.fields.lookup (a.owner, a.name) = _ from rule, List.lookup_nil]

theorem keepsNames_rules (closed : ';' ∉ target.toList) (named : target = "" ↔ c.name = "") :
    r.KeepsNames := by
  intro name fresh
  rw [Renaming.innerName]
  split_ifs
  · rw [Renaming.descChars_of_unclosed r fresh]
    exact ⟨fresh, Iff.rfl⟩
  · rw [Renaming.plainName, classes_rules compiled rules, Renaming.renameClass]
    split_ifs with same
    · exact ⟨fresh, Iff.rfl⟩
    · rw [List.lookup_cons]
      by_cases own : String.ofList name = c.name
      · rw [beq_iff_eq.2 own]
        refine ⟨closed, ?_⟩
        rw [String.toList_eq_nil_iff, named, ← own, String.ofList_eq_empty_iff]
      · rw [beq_false_of_ne own]
        exact ⟨fresh, Iff.rfl⟩

theorem transplants_rules : Transplants t m c target r where
  hooked a f owner field := (exists_shadowed compiled rules owner field).imp fun _ found => found.1
  access a f h shadowed op := by
    rw [Renaming.insn, field_of_shadowed compiled rules shadowed]
  handle i f h isField shadowed := by
    rw [Renaming.handle, if_pos isField, field_of_shadowed compiled rules shadowed]
  operands a f h shadowed op := operands_iff_of_shadowed compiled rules shadowed op
  effect a f h shadowed same site index fresh op s := by
    rw [Renaming.insn, field_of_shadowed compiled rules shadowed]
    exact site.kinds_field index op same s
  body closed named method code body := by
    have keeps := keepsNames_rules compiled rules closed named
    refine ⟨(r.code code).markStale, by rw [Renaming.rehome, body]; rfl, ?_⟩
    have insns : (r.code code).markStale.insns = code.insns.map r.insn := Code.insns_markStale _
    rw [KeepsOperands, insns, List.map_map, List.map_inj_left]
    constructor
    · intro kept op a f h mem shadowed
      rw [← operands_iff_of_shadowed compiled rules shadowed op]
      exact congrArg Prod.snd (kept _ mem)
    · intro kinds i mem
      refine Prod.ext (Renaming.opcode?_insn i) ?_
      by_cases access : ∃ op a, i = .field op a
      · obtain ⟨op, a, rfl⟩ := access
        have same : fieldKind (r.field a).desc = fieldKind a.desc := by
          by_cases shadow : ∃ f h, Shadowed t m c a f h
          · obtain ⟨f, h, shadowed⟩ := shadow
            rw [field_of_shadowed compiled rules shadowed]
            exact kinds op a f h mem shadowed
          · have plain : ∀ f h, ¬ Shadowed t m c a f h :=
              fun f h shadowed => shadow ⟨f, h, shadowed⟩
            rw [field_of_not_shadowed compiled rules plain, Renaming.fieldKind_desc keeps]
        exact congrArg (Option.map fun kind => ([], some kind)) same
      · exact Renaming.operands_insn keeps fun op a eq => access ⟨op, a, eq⟩

end Rules

theorem eq_of_origin_addMethods {e : PlannedEdit} {source : ClassFile}
    {methods : List (String × String)} {r' : Renaming} (compiled : m.compiled = some c)
    (origin : Origin t m target r e) (copies : e.edit = .addMethods source methods r') :
    e = before target (.addMethods c (m.copiedMethods.map fun d => (d.name, d.desc)) r) := by
  rcases origin.cases with declarative | ⟨s, _, made⟩ | ⟨s, _, made⟩ | mem
  · rw [copies] at declarative
    exact declarative.elim
  · obtain ⟨method, cb, _, rfl, _, _⟩ := callbackEdit_yields t m target r s e made
    cases copies
  · obtain ⟨method, h, _, _, rfl⟩ := replacementEdit_yields t m target r s e made
    cases copies
  · obtain ⟨c', compiled', rfl⟩ := eq_of_mem_methodsEdit mem
    cases compiled.symm.trans compiled'
    rfl

/-- The bodies that resolving a mixin copies follow its shadow fields to their hooks, and keep what
they hand over exactly where the kinds of the hooks are those of the accesses. -/
theorem transplants_of_resolve {edits : List PlannedEdit} (resolved : m.resolve t = .ok edits)
    (compiled : m.compiled = some c) : ∃ hook r, t.classHook m.target = .ok hook ∧
      Transplants t m c hook.obfName r ∧
      ∀ p ∈ edits, ∀ source methods r', p.edit = .addMethods source methods r' →
        p.owner = hook.obfName ∧ source = c ∧ r' = r := by
  obtain ⟨hook, r, parts, found, rules, resolves, rfl⟩ := resolve_ok_iff.1 resolved
  refine ⟨hook, r, found, transplants_rules compiled rules, ?_⟩
  intro p mem source methods r' copies
  have same := eq_of_origin_addMethods compiled (resolves.mem_edits.1 mem) copies
  rw [same] at copies
  cases copies
  exact ⟨by rw [same]; rfl, rfl, rfl⟩

def powerCode : Code := Code.ofInsns [.var Opcode.aload 0,
  .field Opcode.getfield ⟨"PlayerMixin", "power", "I"⟩, .simple Opcode.ireturn]

def powerClass : ClassFile :=
  { ClassFile.new "PlayerMixin" (some "java/lang/Object") with
    methods := [⟨⟨0x1⟩, "current", "()I", some powerCode, []⟩] }

/-- Copies the method of `powerClass`, whose field stands for a hooked one. -/
def powerMixin : Mixin where
  target := "Player"
  compiled := some powerClass
  interfaces := []
  fields := [⟨"power", "I", ⟨0x1⟩, some "power", none, none⟩]
  getters := []
  setters := []
  invokers := []
  callbacks := []
  copies := []
  replacements := []
  methods := [⟨"current", "()I", none⟩]

/-- The hooked field is called `p` and has the given descriptor. -/
def powerHooks (desc : String) : HookTable :=
  HookTable.ofFile ⟨[⟨"Player", "a", [⟨"power", "a", "p", desc, none⟩], []⟩], [], []⟩

def copiesPower : Edit → Bool
  | .addMethods source methods _ => source = powerClass && methods.contains ("current", "()I")
  | _ => false

theorem resolve_powerMixin (desc : String)
    (computed : ((powerMixin.resolve (powerHooks desc)).toOption.any fun edits =>
      edits.any fun p => copiesPower p.edit) = true) :
    ∃ edits p methods r, powerMixin.resolve (powerHooks desc) = .ok edits ∧ p ∈ edits ∧
      p.edit = .addMethods powerClass methods r ∧ ("current", "()I") ∈ methods := by
  obtain ⟨edits, resolved, some_p⟩ := exists_ok_of_any computed
  obtain ⟨p, mem, copies⟩ := List.any_eq_true.1 some_p
  refine ⟨edits, p, ?_⟩
  unfold copiesPower at copies
  split at copies
  · rename_i source methods r same
    rw [Bool.and_eq_true, decide_eq_true_iff, List.contains_iff_mem] at copies
    exact ⟨methods, r, resolved, mem, by rw [same, copies.1], copies.2⟩
  · cases copies

theorem classHook_powerHooks (desc : String) : (powerHooks desc).classHook "Player" =
    .ok ⟨"Player", "a", [⟨"power", "a", "p", desc, none⟩], []⟩ := by
  simp [powerHooks, HookTable.ofFile, HookTable.classHook, ClassHook.adoptMembers]

theorem fieldHook_powerHooks (desc : String) :
    powerMixin.fieldHook (powerHooks desc) "power" false =
      .ok ⟨"power", "a", "p", desc, none⟩ := by
  have found := classHook_powerHooks desc
  show (powerHooks desc).field "Player" "power" = _
  rw [HookTable.field, found]
  rfl

theorem shadowed_power (desc : String) : Shadowed (powerHooks desc) powerMixin powerClass
    ⟨"PlayerMixin", "power", "I"⟩ ⟨"power", "I", ⟨0x1⟩, some "power", none, none⟩
    ⟨"power", "a", "p", desc, none⟩ where
  owner := rfl
  field := by decide +kernel
  hook := ⟨"power", rfl, fieldHook_powerHooks desc⟩

/-- A field of the same type takes the place of the shadow field, and the copy still returns an
int. -/
theorem transplants_powerMixin : ∃ edits p methods r code,
    powerMixin.resolve (powerHooks "I") = .ok edits ∧ p ∈ edits ∧
    p.edit = .addMethods powerClass methods r ∧ ("current", "()I") ∈ methods ∧
    r.insn (.field Opcode.getfield ⟨"PlayerMixin", "power", "I"⟩) =
      .field Opcode.getfield ⟨"a", "p", "I"⟩ ∧
    (r.rehome ⟨⟨0x1⟩, "current", "()I", some powerCode, []⟩).code = some code ∧
    KeepsOperands powerCode code := by
  obtain ⟨edits, p, methods, r, resolved, mem, copies, named⟩ :=
    resolve_powerMixin "I" (by decide +kernel)
  obtain ⟨hook, r', found, transplants, all⟩ := transplants_of_resolve resolved rfl
  obtain ⟨-, -, rfl⟩ := all p mem _ _ _ copies
  rw [show powerMixin.target = "Player" from rfl, classHook_powerHooks] at found
  cases found
  obtain ⟨code, body, keeps⟩ := transplants.body (by decide) (by decide)
    ⟨⟨0x1⟩, "current", "()I", some powerCode, []⟩ powerCode rfl
  refine ⟨edits, p, methods, r, code, resolved, mem, copies, named,
    transplants.access _ _ _ (shadowed_power "I") _, body, keeps.2 ?_⟩
  intro op a f h inside shadowed
  obtain ⟨-, rfl⟩ : op = Opcode.getfield ∧ a = ⟨"PlayerMixin", "power", "I"⟩ := by
    simpa [powerCode, Code.ofInsns] using inside
  rw [(shadowed_power "I").unique shadowed]

def CopiesAccess (edit : Edit) (r : Renaming) (op : Opcode) (a : MemberRef) : Prop :=
  ∃ source methods name desc method code, edit = .addMethods source methods r ∧
    (name, desc) ∈ methods ∧ source.method? name desc = some method ∧ method.code = some code ∧
    .field op a ∈ code.insns

/-- A long takes the place of the int that the shadow field is declared with, and resolving does
not notice. -/
theorem widened_powerMixin : ¬ ∀ (t : HookTable) (m : Mixin) (c : ClassFile)
    (edits : List PlannedEdit) (p : PlannedEdit) (r : Renaming) (op : Opcode) (a : MemberRef)
    (f : MixinField) (h : FieldHook), m.resolve t = .ok edits → m.compiled = some c → p ∈ edits →
    CopiesAccess p.edit r op a → Shadowed t m c a f h → a.desc = f.desc →
    fieldKind (r.field a).desc = fieldKind a.desc := by
  intro kept
  obtain ⟨edits, p, methods, r, resolved, mem, copies, named⟩ :=
    resolve_powerMixin "J" (by decide +kernel)
  obtain ⟨hook, r', parts, _, rules, resolves, rfl⟩ := resolve_ok_iff.1 resolved
  have own := eq_of_origin_addMethods rfl (resolves.mem_edits.1 mem) copies
  have copied : CopiesAccess p.edit r Opcode.getfield ⟨"PlayerMixin", "power", "I"⟩ :=
    ⟨powerClass, methods, "current", "()I", _, powerCode, copies, named, rfl, rfl,
      .tail _ (.head _)⟩
  have same := kept _ _ _ _ _ _ _ _ _ _ resolved rfl mem copied (shadowed_power "J") rfl
  rw [own] at copies
  cases copies
  rw [field_of_shadowed rfl rules (shadowed_power "J")] at same
  revert same
  decide +kernel

end Mixin

end ClassWeave
