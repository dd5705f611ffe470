import ClassWeave.Hooks.Validation
import ClassWeave.Proofs.Accessors
import ClassWeave.Proofs.Descriptor.Offsets
import ClassWeave.Proofs.Shadows

/-!
# Hook files without problems

A hook file is checked member by member as it is written; a mixin resolves against the table of
the file, where names are looked up and later hooks hide earlier ones. Every hook that the table
finds is one that was checked. So a mixin that is refused has to blame no multiplier and no
descriptor of a hook, only what it declares itself.
-/

set_option autoImplicit false

namespace ClassWeave

structure FieldHook.Sound (h : FieldHook) : Prop where
  typed : ∃ type, FieldType.parse h.desc = .ok type
  invertible : ∀ k, h.multiplier = some k → (∃ type, Edit.Scalable type h.desc) ∧ Odd k.toInt

def MethodHook.Sound (h : MethodHook) : Prop := ∃ d, MethodDescriptor.parse h.desc = .ok d

structure HookTable.Sound (t : HookTable) : Prop where
  fields : ∀ (name : String) (h : ClassHook), t.classes[name]? = some h → ∀ f ∈ h.fields, f.Sound
  methods : ∀ (name : String) (h : ClassHook), t.classes[name]? = some h → ∀ f ∈ h.methods, f.Sound
  staticFields : ∀ (name : String) (f : FieldHook), t.staticFields[name]? = some f → f.Sound
  staticMethods : ∀ (name : String) (f : MethodHook), t.staticMethods[name]? = some f → f.Sound

namespace HookFile

theorem eq_nil_of_inTurn {α : Type} {name : α → String} {repeated : α → HookProblem}
    {problems : α → List HookProblem} {seen : List String} {as : List α}
    (none : inTurn name repeated problems seen as = []) : ∀ a ∈ as, problems a = [] := by
  induction as generalizing seen with
  | nil => exact List.forall_mem_nil _
  | cons a as ih =>
    obtain ⟨first, rest⟩ := List.append_eq_nil_iff.1 none
    exact List.forall_mem_cons.2 ⟨(List.append_eq_nil_iff.1 first).2, ih rest⟩

theorem odd_of_hasInverse32 {k : Int64} (has : hasInverse32 k = true) : Odd k.toInt := by
  unfold hasInverse32 at has
  split at has
  · exact (Multiplier.odd_toInt32 k).1 ((Multiplier.isSome_inverse32 _).1 has)
  · cases has

theorem sound_of_fieldProblems {owner : String} {f : FieldHook}
    (none : fieldProblems owner f = []) : f.Sound := by
  unfold fieldProblems at none
  split at none
  · cases none
  · rename_i type parsed
    refine ⟨⟨type, parsed⟩, fun k some_k => ?_⟩
    have written := FieldType.eq_text_of_parse parsed
    rw [some_k] at none
    dsimp only at none
    split at none
    · split at none
      · rename_i has
        exact ⟨⟨.int, written ▸ .int⟩, odd_of_hasInverse32 has⟩
      · cases none
    · split at none
      · rename_i has
        exact ⟨⟨.long, written ▸ .long⟩, (Multiplier.isSome_inverse64 k).1 has⟩
      · cases none
    · cases none

theorem sound_of_methodProblems {owner : String} {f : MethodHook}
    (none : methodProblems owner f = []) : f.Sound := by
  unfold methodProblems at none
  split at none
  · cases none
  · exact ⟨_, ‹_›⟩

end HookFile

theorem getElem?_foldl_insert {α β : Type} {key : α → String} {value : α → β} {as : List α}
    {map : Std.TreeMap String β} {name : String} {b : β}
    (found : (as.foldl (fun t a => t.insert (key a) (value a)) map)[name]? = some b) :
    map[name]? = some b ∨ ∃ a ∈ as, key a = name ∧ b = value a := by
  induction as generalizing map with
  | nil => exact .inl found
  | cons a as ih =>
    rcases ih found with found | ⟨a', mem, same⟩
    · rw [Std.TreeMap.getElem?_insert] at found
      split at found
      · rename_i named
        have named := Std.LawfulEqCmp.eq_of_compare named
        exact .inr ⟨a, List.mem_cons_self, named, (Option.some.inj found).symm⟩
      · exact .inl found
    · exact .inr ⟨a', List.mem_cons_of_mem a mem, same⟩

theorem getElem?_foldl_insert_empty {α β : Type} {key : α → String} {value : α → β} {as : List α}
    {name : String} {b : β}
    (found : (as.foldl (fun (t : Std.TreeMap String β) a => t.insert (key a) (value a)) ∅)[name]? =
      some b) : ∃ a ∈ as, key a = name ∧ b = value a := by
  rcases getElem?_foldl_insert found with found | found
  · rw [Std.TreeMap.getElem?_emptyc] at found
    cases found
  · exact found

namespace HookTable

theorem sound_ofFile {file : HookFile} (validated : file.problems = []) : (ofFile file).Sound := by
  obtain ⟨front, staticMethods⟩ := List.append_eq_nil_iff.1 validated
  obtain ⟨classes, staticFields⟩ := List.append_eq_nil_iff.1 front
  have checked : ∀ c ∈ file.classes, (∀ f ∈ c.fields, f.Sound) ∧ ∀ f ∈ c.methods, f.Sound := by
    intro c mem
    obtain ⟨fields, methods⟩ :=
      List.append_eq_nil_iff.1 (HookFile.eq_nil_of_inTurn classes c mem)
    exact ⟨fun f mem => HookFile.sound_of_fieldProblems (HookFile.eq_nil_of_inTurn fields f mem),
      fun f mem => HookFile.sound_of_methodProblems (HookFile.eq_nil_of_inTurn methods f mem)⟩
  constructor
  · intro name h found f mem
    obtain ⟨c, inFile, -, rfl⟩ := getElem?_foldl_insert_empty found
    obtain ⟨f, own, rfl⟩ := List.mem_map.1 mem
    exact ⟨((checked c inFile).1 f own).typed, ((checked c inFile).1 f own).invertible⟩
  · intro name h found f mem
    obtain ⟨c, inFile, -, rfl⟩ := getElem?_foldl_insert_empty found
    obtain ⟨f, own, rfl⟩ := List.mem_map.1 mem
    exact (checked c inFile).2 f own
  · intro name f found
    obtain ⟨f, inFile, -, rfl⟩ := getElem?_foldl_insert_empty found
    have none := List.flatMap_eq_nil_iff.1 staticFields f inFile
    exact HookFile.sound_of_fieldProblems (List.append_eq_nil_iff.1 none).2
  · intro name f found
    obtain ⟨f, inFile, -, rfl⟩ := getElem?_foldl_insert_empty found
    have none := List.flatMap_eq_nil_iff.1 staticMethods f inFile
    exact HookFile.sound_of_methodProblems (List.append_eq_nil_iff.1 none).2

variable {t : HookTable} {m : Mixin}

theorem classes_of_classHook {name : String} {h : ClassHook} (found : t.classHook name = .ok h) :
    t.classes[name]? = some h := by
  unfold classHook at found
  split at found
  · cases found
    assumption
  · cases found

theorem Sound.method (sound : t.Sound) {owner name : String} {h : MethodHook}
    (found : t.method owner name = .ok h) : h.Sound := by
  obtain ⟨c, inTable, found⟩ := bind_ok_iff.1 found
  split at found
  · rename_i inClass
    cases found
    exact sound.methods owner c (classes_of_classHook inTable) h
      (List.mem_reverse.1 (List.mem_of_find?_eq_some inClass))
  · cases found

theorem Sound.fieldHook (sound : t.Sound) {name : String} {isStatic : Bool} {h : FieldHook}
    (found : m.fieldHook t name isStatic = .ok h) : h.Sound := by
  unfold Mixin.fieldHook at found
  split at found
  · unfold HookTable.staticField at found
    split at found
    · cases found
      exact sound.staticFields name h ‹_›
    · cases found
  · obtain ⟨c, inTable, found⟩ := bind_ok_iff.1 found
    split at found
    · rename_i inClass
      cases found
      exact sound.fields m.target c (classes_of_classHook inTable) h
        (List.mem_reverse.1 (List.mem_of_find?_eq_some inClass))
    · cases found

theorem Sound.methodHook (sound : t.Sound) {name : String} {isStatic : Bool} {h : MethodHook}
    (found : m.methodHook t name isStatic = .ok h) : h.Sound := by
  unfold Mixin.methodHook at found
  split at found
  · unfold HookTable.staticMethod at found
    split at found
    · cases found
      exact sound.staticMethods name h ‹_›
    · cases found
  · exact sound.method found

end HookTable

theorem FieldHook.Sound.exists_decodeFactor {h : FieldHook} (sound : h.Sound) :
    ∃ factor, h.decodeFactor = .ok factor := by
  cases some_k : h.multiplier with
  | none => exact ⟨none, by rw [FieldHook.decodeFactor, some_k]⟩
  | some k =>
    obtain ⟨type, scalable⟩ := (sound.invertible k some_k).1
    exact ⟨_, FieldHook.decodeFactor_of_odd scalable fun k' same =>
      (sound.invertible k' same).2⟩

theorem FieldHook.Sound.exists_encodeFactor {h : FieldHook} (sound : h.Sound) :
    ∃ factor, h.encodeFactor = .ok factor := by
  cases some_k : h.multiplier with
  | none => exact ⟨none, by rw [FieldHook.encodeFactor, FieldHook.decodeFactor, some_k]; rfl⟩
  | some k =>
    obtain ⟨type, scalable⟩ := (sound.invertible k some_k).1
    exact (FieldHook.exists_encodeFactor scalable).2 fun k' same => (sound.invertible k' same).2

namespace Mixin

/-- Errors that blame no hook: neither a multiplier nor a descriptor, unless it is one of those
that the mixin declares. -/
def OwnFault (declared : String → Prop) : ResolveError → Prop
  | .multiplierType _ _ _ | .evenMultiplier _ _ => False
  | .format cause => ∃ desc, declared desc ∧ MethodDescriptor.parse desc = .error cause
  | _ => True

def fittedMethods (m : Mixin) : List MixinMethod :=
  m.invokers.map HookUse.method ++ m.callbacks.map MixinCallback.method ++
    m.replacements.map HookUse.method

section Steps

variable {t : HookTable} {m : Mixin} {target : String} {r : Renaming} {declared : String → Prop}

theorem blamesOnly_classHook (name : String) :
    BlamesOnly (OwnFault declared) (t.classHook name) := by
  unfold HookTable.classHook
  split
  · exact .ok
  · exact .error trivial

theorem blamesOnly_method (owner name : String) :
    BlamesOnly (OwnFault declared) (t.method owner name) := by
  refine (blamesOnly_classHook owner).bind fun h _ => ?_
  split
  · exact .ok
  · exact .error trivial

theorem blamesOnly_fieldHook (name : String) (isStatic : Bool) :
    BlamesOnly (OwnFault declared) (m.fieldHook t name isStatic) := by
  unfold fieldHook HookTable.staticField HookTable.field
  split
  · split
    · exact .ok
    · exact .error trivial
  · refine (blamesOnly_classHook m.target).bind fun h _ => ?_
    split
    · exact .ok
    · exact .error trivial

theorem blamesOnly_methodHook (name : String) (isStatic : Bool) :
    BlamesOnly (OwnFault declared) (m.methodHook t name isStatic) := by
  unfold methodHook HookTable.staticMethod
  split
  · split
    · exact .ok
    · exact .error trivial
  · exact blamesOnly_method m.target name

theorem blamesOnly_requireAbstract (d : MixinMethod) (kind : DeclKind) :
    BlamesOnly (OwnFault declared) (m.requireAbstract d kind) := by
  unfold requireAbstract
  cases m.compiledMethod? d <;> dsimp only <;> split
  all_goals first | exact .ok | exact .error trivial

theorem blamesOnly_requireBody (d : MixinMethod) (kind : DeclKind) :
    BlamesOnly (OwnFault declared) (m.requireBody d kind) := by
  unfold requireBody
  split
  · exact .error trivial
  · split
    · exact .error trivial
    · split
      · exact .error trivial
      · exact .ok

theorem blamesOnly_refuse (context : String) (mismatch : Option HookMismatch) :
    BlamesOnly (OwnFault declared) (refuse context mismatch) := by
  cases mismatch with
  | none => exact .ok
  | some mismatch => exact .error trivial

theorem blamesOnly_descriptor {desc : String} (own : declared desc) :
    BlamesOnly (OwnFault declared) (descriptor desc) := by
  unfold descriptor
  rcases read : MethodDescriptor.parse desc with cause | d
  · exact .error ⟨desc, own, read⟩
  · exact .ok

theorem exists_descriptor {h : MethodHook} (sound : h.Sound) : ∃ d, descriptor h.desc = .ok d := by
  obtain ⟨d, read⟩ := sound
  exact ⟨d, by rw [descriptor, read]; rfl⟩

theorem blamesOnly_rules (target : String) :
    BlamesOnly (OwnFault declared) (m.rules t target) := by
  unfold rules
  split
  · exact .ok
  · refine .foldlM (fun r f mem => ?_) _
    split
    · exact .ok
    · exact (blamesOnly_fieldHook _ _).bind fun h _ => .ok

variable (sound : t.Sound)

include sound

theorem blamesOnly_fieldEdits (f : MixinField) :
    BlamesOnly (OwnFault declared) (m.fieldEdits t target r f) := by
  unfold fieldEdits
  dsimp only
  split
  · refine .bind .ok fun hook none => ?_
    cases none
    refine .bind .ok fun decode _ => ?_
    split
    · exact .ok
    · exact .bind .ok fun _ _ => .ok
  · rename_i name _
    rcases found : m.fieldHook t name f.isStatic with e | h
    · exact .error (blamesOnly_fieldHook _ _ _ found)
    · refine .bind .ok fun hook some_h => ?_
      cases some_h
      refine .bind (.of_exists_ok (sound.fieldHook found).exists_decodeFactor) fun decode _ => ?_
      split
      · exact .ok
      · exact .bind (.of_exists_ok (sound.fieldHook found).exists_encodeFactor) fun _ _ => .ok

theorem blamesOnly_getterEdit (s : HookUse) :
    BlamesOnly (OwnFault declared) (m.getterEdit t target r s) :=
  (blamesOnly_requireAbstract _ _).bind fun _ _ => (blamesOnly_fieldHook _ _).bind fun _ found =>
    .bind (.of_exists_ok (sound.fieldHook found).exists_decodeFactor) fun _ _ => .ok

theorem blamesOnly_setterEdit (s : MixinSetter) :
    BlamesOnly (OwnFault declared) (m.setterEdit t target r s) := by
  refine (blamesOnly_requireAbstract _ _).bind fun _ _ => (blamesOnly_fieldHook _ _).bind
    fun _ found => .bind (.of_exists_ok (sound.fieldHook found).exists_decodeFactor) fun _ _ => ?_
  dsimp only
  split
  · exact .bind (.of_exists_ok (sound.fieldHook found).exists_encodeFactor) fun _ _ => .ok
  · exact .bind .ok fun _ _ => .ok

theorem blamesOnly_invokerEdit {s : HookUse} (own : declared (r.desc s.method.desc)) :
    BlamesOnly (OwnFault declared) (m.invokerEdit t target r s) := by
  refine (blamesOnly_requireAbstract _ _).bind fun _ _ => ?_
  dsimp only
  split
  · exact .error trivial
  · refine (blamesOnly_method _ _).bind fun h found => (blamesOnly_descriptor own).bind fun _ _ =>
      .bind (.of_exists_ok (exists_descriptor (sound.method found))) fun _ _ => ?_
    split
    all_goals
      split
      · exact .error trivial
      · exact .ok

omit sound in
theorem blamesOnly_requireCallbackFits {desc : String} (own : declared desc)
    {hooked : Option String} (known : ∀ h ∈ hooked, ∃ d, descriptor h = .ok d)
    (placement : Placement) (replacesResult : Bool) :
    BlamesOnly (OwnFault declared) (requireCallbackFits desc hooked placement replacesResult) := by
  unfold requireCallbackFits
  split
  · exact .ok
  · refine (blamesOnly_descriptor own).bind fun callback _ => ?_
    cases hooked with
    | none => exact .ok
    | some hooked =>
      refine .bind (.of_exists_ok (known hooked rfl)) fun hooked _ => .of_exists_ok ?_
      dsimp only
      split_ifs <;> exact ⟨_, rfl⟩

theorem blamesOnly_callbackEdit {s : MixinCallback} (own : declared (r.desc s.method.desc)) :
    BlamesOnly (OwnFault declared) (m.callbackEdit t target r s) := by
  refine (blamesOnly_requireBody _ _).bind fun method _ => ?_
  dsimp only
  split
  · split
    · exact .bind (.error trivial) fun _ failed => nomatch failed
    · refine .bind .ok fun site constructors => ?_
      cases constructors
      have unhooked : ∀ h ∈ (none : Option String), ∃ d, descriptor h = .ok d :=
        fun _ absent => absurd absent (Option.not_mem_none _)
      exact .bind (blamesOnly_requireCallbackFits own unhooked _ _)
        fun _ _ => (blamesOnly_refuse _ _).bind fun _ _ => .ok
  · refine (blamesOnly_method _ _).bind fun h found => .bind .ok fun site hooked => ?_
    cases hooked
    refine .bind (blamesOnly_requireCallbackFits own (fun desc same => ?_) _ _)
      fun _ _ => (blamesOnly_refuse _ _).bind fun _ _ => .ok
    cases same
    exact exists_descriptor (sound.method found)

theorem blamesOnly_replacementEdit {s : HookUse} (own : declared (r.desc s.method.desc)) :
    BlamesOnly (OwnFault declared) (m.replacementEdit t target r s) := by
  refine (blamesOnly_requireBody _ _).bind fun method _ =>
    (blamesOnly_methodHook _ _).bind fun h found => ?_
  dsimp only
  split
  · exact .error trivial
  · refine .bind ?_ fun mismatch _ => (blamesOnly_refuse _ _).bind fun _ _ => .ok
    refine (blamesOnly_descriptor own).bind fun delegate _ =>
      .bind (.of_exists_ok (exists_descriptor (sound.methodHook found))) fun hooked _ => ?_
    dsimp only
    split
    · exact .ok
    · exact .ok

omit sound in
theorem blamesOnly_copyEdit (s : HookUse) :
    BlamesOnly (OwnFault declared) (m.copyEdit t target s) :=
  (blamesOnly_requireAbstract _ _).bind fun _ _ => (blamesOnly_methodHook _ _).bind fun _ _ => .ok

end Steps

variable {t : HookTable} {m : Mixin}

/-- A fitted method has the descriptor once the mixin's own class has its new name. -/
structure Declares (t : HookTable) (m : Mixin) (hook : ClassHook) (r : Renaming) (d : MixinMethod)
    (desc : String) : Prop where
  found : t.classHook m.target = .ok hook
  rules : m.rules t hook.obfName = .ok r
  fitted : d ∈ m.fittedMethods
  renamed : desc = r.desc d.desc

theorem blamesOnly_resolve (sound : t.Sound) :
    BlamesOnly (OwnFault fun desc => ∃ hook r d, m.Declares t hook r d desc) (m.resolve t) := by
  refine (blamesOnly_classHook _).bind fun hook found => (blamesOnly_rules _).bind fun r rules => ?_
  have own (d : MixinMethod) (fitted : d ∈ m.fittedMethods) :
      ∃ hook r' d', m.Declares t hook r' d' (r.desc d.desc) :=
    ⟨hook, r, d, found, rules, fitted, rfl⟩
  have invoker (s : HookUse) (mem : s ∈ m.invokers) : s.method ∈ m.fittedMethods :=
    List.mem_append_left _ (List.mem_append_left _ (List.mem_map_of_mem mem))
  have callback (s : MixinCallback) (mem : s ∈ m.callbacks) : s.method ∈ m.fittedMethods :=
    List.mem_append_left _ (List.mem_append_right _ (List.mem_map_of_mem mem))
  have replacement (s : HookUse) (mem : s ∈ m.replacements) : s.method ∈ m.fittedMethods :=
    List.mem_append_right _ (List.mem_map_of_mem mem)
  exact .bind (.mapM fun f _ => blamesOnly_fieldEdits sound f) fun _ _ =>
    .bind (.mapM fun s _ => blamesOnly_getterEdit sound s) fun _ _ =>
    .bind (.mapM fun s _ => blamesOnly_setterEdit sound s) fun _ _ =>
    .bind (.mapM fun s mem => blamesOnly_invokerEdit sound (own _ (invoker s mem))) fun _ _ =>
    .bind (.mapM fun s mem => blamesOnly_callbackEdit sound (own _ (callback s mem))) fun _ _ =>
    .bind (.mapM fun s mem => blamesOnly_replacementEdit sound (own _ (replacement s mem)))
      fun _ _ => .bind (.mapM fun d _ => blamesOnly_requireBody d _) fun _ _ =>
    .bind (.mapM fun s _ => blamesOnly_copyEdit s) fun _ _ => .ok

/-- Whatever a mixin is refused for, it is nothing that the table has. -/
structure Blameless (t : HookTable) (m : Mixin) : Prop where
  types : ∀ field desc k, m.resolve t ≠ .error (.multiplierType field desc k)
  inverses : ∀ field k, m.resolve t ≠ .error (.evenMultiplier field k)
  fieldHooks : ∀ name isStatic h, m.fieldHook t name isStatic = .ok h →
    ∃ type, FieldType.parse h.desc = .ok type
  methodHooks : ∀ name isStatic h, m.methodHook t name isStatic = .ok h →
    ∃ d, MethodDescriptor.parse h.desc = .ok d
  /-- A descriptor that is refused is one that the mixin declares, and was malformed before its
  class was renamed if the new name is that of a class. -/
  descriptors : ∀ cause, m.resolve t = .error (.format cause) → ∃ hook r d desc,
    m.Declares t hook r d desc ∧ cause = .badDescriptor desc ∧
    MethodDescriptor.parse desc = .error cause ∧
    (hook.obfName ≠ "" → ';' ∉ hook.obfName.toList → (∀ c ∈ m.compiled, c.name ≠ "") →
      MethodDescriptor.parse d.desc = .error (.badDescriptor d.desc))

theorem keepsNames_of_rules {target : String} {r : Renaming} (rules : m.rules t target = .ok r)
    (named : target ≠ "") (closed : ';' ∉ target.toList) (own : ∀ c ∈ m.compiled, c.name ≠ "") :
    r.KeepsNames := by
  cases compiled : m.compiled with
  | none =>
    unfold Mixin.rules at rules
    rw [compiled] at rules
    cases rules
    intro name fresh
    have same : Renaming.empty.innerName name = name := by
      rw [Renaming.innerName, Renaming.descChars_of_unclosed _ fresh]
      exact ite_self name
    rw [same]
    exact ⟨fresh, Iff.rfl⟩
  | some c => exact keepsNames_rules compiled rules closed (iff_of_false named (own c compiled))

theorem parse_of_parse_desc {r : Renaming} (keeps : r.KeepsNames) {desc : String} {e : FormatError}
    (refused : MethodDescriptor.parse (r.desc desc) = .error e) :
    MethodDescriptor.parse desc = .error (.badDescriptor desc) := by
  have kinds := Renaming.callKinds_desc keeps desc
  rw [callKinds, callKinds, refused] at kinds
  rcases read : MethodDescriptor.parse desc with e | d
  · rw [MethodDescriptor.refusal_of_parse read]
  · rw [read] at kinds
    cases kinds

/-- A hook file without problems is not why a mixin is refused. -/
theorem blameless_of_validated {file : HookFile} (validated : file.problems = []) (m : Mixin) :
    m.Blameless (HookTable.ofFile file) := by
  have sound := HookTable.sound_ofFile validated
  have fails := blamesOnly_resolve (m := m) sound
  refine ⟨fun _ _ _ failed => fails _ failed, fun _ _ failed => fails _ failed,
    fun _ _ _ found => (sound.fieldHook found).typed, fun _ _ _ found => sound.methodHook found, ?_⟩
  intro cause failed
  obtain ⟨desc, ⟨hook, r, d, declares⟩, refused⟩ := fails _ failed
  refine ⟨hook, r, d, desc, declares, MethodDescriptor.refusal_of_parse refused, refused, ?_⟩
  intro named closed own
  rw [declares.renamed] at refused
  exact parse_of_parse_desc (keepsNames_of_rules declares.rules named closed own) refused

/-- A hook file with multipliers on an int and a long. -/
def scaledHooks : HookFile where
  classes := [⟨"Player", "a", [⟨"power", "", "p", "I", some 3⟩, ⟨"age", "", "q", "J", some 5⟩],
    [⟨"run", "", "r", "(I)V", none⟩]⟩]
  staticFields := []
  staticMethods := []

/-- Declares a method whose parameters do not end, and accessors of both fields. -/
def unclosedMixin : Mixin where
  target := "Player"
  compiled := none
  interfaces := []
  fields := []
  getters := [⟨"power", ⟨"getPower", "()I", none⟩, false⟩]
  setters := [⟨"age", ⟨"setAge", "(J)V", none⟩, false, true⟩]
  invokers := [⟨"run", ⟨"invokeRun", "(I", none⟩, false⟩]
  callbacks := []
  copies := []
  replacements := []
  methods := []

theorem blameless_unclosedMixin : scaledHooks.problems = [] ∧
    unclosedMixin.resolve (HookTable.ofFile scaledHooks) =
      .error (.format (.badDescriptor "(I")) ∧
    ∃ hook r d, unclosedMixin.Declares (HookTable.ofFile scaledHooks) hook r d "(I" := by
  have validated : scaledHooks.problems = [] := by decide +kernel
  have failed : unclosedMixin.resolve (HookTable.ofFile scaledHooks) =
      .error (.format (.badDescriptor "(I")) := by
    have computed : (match unclosedMixin.resolve (HookTable.ofFile scaledHooks) with
      | .error e => decide (e = .format (.badDescriptor "(I"))
      | .ok _ => false) = true := by decide +kernel
    split at computed
    · rename_i e refused
      rw [refused, of_decide_eq_true computed]
    · cases computed
  obtain ⟨hook, r, d, desc, declares, same, -⟩ :=
    (blameless_of_validated validated unclosedMixin).descriptors _ failed
  cases same
  exact ⟨validated, failed, hook, r, d, declares⟩

end Mixin

end ClassWeave
