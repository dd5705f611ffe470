import ClassWeave.Proofs.Analysis.References
import ClassWeave.Proofs.EntryPoint

/-!
# Classes that do not name the legacy class

The entry point adapts every class with a text that contains the name of the legacy class, be it a
string constant or a part of a longer class name. If nothing in the class refers to the legacy
class, then the renaming finds nothing to rename, and the class comes through as it was. The
exception are signatures of local variables: a renaming drops them all, and a class that had one
counts as changed.
-/

set_option autoImplicit false

namespace ClassWeave

/-- How a class names other classes. -/
inductive Reference where
  | type (name : String)
  | desc (text : String)
  deriving DecidableEq, Repr

namespace Reference

def marked (text : String) : List String := (markedNames none text.toList).map String.ofList

/-- The classes in a reference. Text that is no descriptor names the classes that are marked in
it, too. -/
def names : Reference → List String
  | .type name => if name.toList.head? = some '[' then marked name else [name]
  | .desc text => marked text

def Kept (r : Renaming) : Reference → Prop
  | .type name => r.className name = name
  | .desc text => r.desc text = text

end Reference

/-! The references of each part of a class -/

def MemberRef.references (m : MemberRef) : List Reference := [.type m.owner, .desc m.desc]

mutual

def Loadable.references : Loadable → List Reference
  | .type name => [.type name]
  | .methodType desc => [.desc desc]
  | .handle h => h.member.references
  | .dynamic _ desc h args => .desc desc :: (h.member.references ++ Loadable.referencesOf args)
  | _ => []

def Loadable.referencesOf : List Loadable → List Reference
  | [] => []
  | v :: vs => Loadable.references v ++ Loadable.referencesOf vs

end

def Bootstrap.references (b : Bootstrap) : List Reference :=
  b.handle.member.references ++ Loadable.referencesOf b.args

def Insn.references : Insn → List Reference
  | .typeOp _ name | .newArrays name _ => [.type name]
  | .field _ m | .method _ m _ => m.references
  | .callSite _ desc b => .desc desc :: b.references
  | .ldc value => value.references
  | _ => []

def VType.references : VType → List Reference
  | .object name => [.type name]
  | _ => []

def Frame.references (f : Frame) : List Reference := (f.locals ++ f.stack).flatMap VType.references

def Code.unsigned (c : Code) : List LocalVariable := c.locals.filter fun v => !v.generic

def Code.references (c : Code) : List Reference :=
  c.insns.flatMap Insn.references ++ (c.handlers.filterMap Handler.catchType).map .type ++
    c.unsigned.map (fun v => .desc v.desc) ++
    (c.frames.getD [] ++ c.hints).flatMap fun f => f.2.references

def Method.references (m : Method) : List Reference :=
  .desc m.desc :: m.code.toList.flatMap Code.references

/-- Everything in the head, the members and the bodies of a class that names a class, besides its
own name. -/
def ClassFile.references (c : ClassFile) : List Reference :=
  (c.superName.toList ++ c.interfaces).map .type ++ c.fields.map (fun f => .desc f.desc) ++
    c.methods.flatMap Method.references

/-! What a renaming without a rule for any name of it does to a part -/

theorem map_of_fixed {α : Type} {f : α → α} {l : List α} (fixed : ∀ a ∈ l, f a = a) :
    l.map f = l :=
  (List.map_congr_left fixed).trans (List.map_id l)

theorem option_map_of_fixed {α : Type} {f : α → α} {o : Option α} (fixed : ∀ a ∈ o, f a = a) :
    o.map f = o := by
  cases o with
  | none => rfl
  | some a => exact congrArg some (fixed a rfl)

namespace Renaming

variable {r : Renaming}

theorem plainName_of_unknown {name : List Char}
    (unknown : r.classes.lookup (String.ofList name) = none) : r.plainName name = name := by
  rw [plainName, unknown]

theorem descChars_of_unknown {cs : List Char}
    (unknown : ∀ name ∈ markedNames none cs, r.classes.lookup (String.ofList name) = none) :
    r.descChars cs = cs := by
  induction cs using text_induction with
  | nil => exact descChars_nil r
  | plain c cs other ih =>
    rw [markedNames_cons other] at unknown
    rw [descChars_cons r other, ih unknown]
  | marked name rest closed ih =>
    rw [markedNames_marked closed] at unknown
    obtain ⟨first, unknown⟩ := List.forall_mem_cons.1 unknown
    have inner : r.innerName name = name := by
      unfold innerName
      split
      · exact descChars_of_unclosed r closed
      · exact plainName_of_unknown first
    rw [descChars_marked r closed, inner, ih unknown]
  | unclosed tail unclosed => exact descChars_open r unclosed

theorem kept_of_unknown {ref : Reference}
    (unknown : ∀ name ∈ ref.names, r.classes.lookup name = none) : ref.Kept r := by
  have text (text : String) (unknown : ∀ name ∈ Reference.marked text,
      r.classes.lookup name = none) : r.desc text = text := by
    have chars := descChars_of_unknown fun name mem =>
      unknown (String.ofList name) (List.mem_map_of_mem mem)
    rw [desc, chars, String.ofList_toList]
  cases ref with
  | desc text' => exact text text' unknown
  | type name =>
    show r.className name = name
    rw [Reference.names] at unknown
    unfold className
    split at unknown
    · rename_i array
      rw [if_pos array]
      exact text name unknown
    · rename_i plain
      have unknown := unknown name (List.mem_singleton_self name)
      rw [if_neg plain, plainName_of_unknown (by rwa [String.ofList_toList]),
        String.ofList_toList]

theorem member_of_kept {m : MemberRef} (kept : ∀ ref ∈ m.references, ref.Kept r) :
    r.className m.owner = m.owner ∧ r.desc m.desc = m.desc := by
  obtain ⟨owner, kept⟩ := List.forall_mem_cons.1 kept
  exact ⟨owner, kept _ (List.mem_singleton_self _)⟩

structure OnlyClasses (r : Renaming) : Prop where
  fields : r.fields = []
  methods : r.methods = []
  owners : r.owners = []

namespace OnlyClasses

theorem field_of_kept (only : r.OnlyClasses) {m : MemberRef}
    (kept : ∀ ref ∈ m.references, ref.Kept r) : r.field m = m := by
  obtain ⟨owner, desc⟩ := member_of_kept kept
  rw [field, only.fields, List.lookup_nil]
  dsimp only
  rw [owner, desc]

theorem method_of_kept (only : r.OnlyClasses) {m : MemberRef}
    (kept : ∀ ref ∈ m.references, ref.Kept r) : r.method m = m := by
  obtain ⟨owner, desc⟩ := member_of_kept kept
  rw [method, redirect, only.methods, only.owners, List.lookup_nil, List.lookup_nil]
  dsimp only
  rw [owner, desc]

theorem handle_of_kept (only : r.OnlyClasses) {h : Handle}
    (kept : ∀ ref ∈ h.member.references, ref.Kept r) : r.handle h = h := by
  rw [handle, only.field_of_kept kept, only.method_of_kept kept, ite_self]

mutual

theorem loadable_of_kept (only : r.OnlyClasses) {v : Loadable}
    (kept : ∀ ref ∈ v.references, ref.Kept r) : r.loadable v = v := by
  cases v with
  | type name =>
    rw [Loadable.references] at kept
    rw [loadable]
    exact congrArg Loadable.type (kept _ (List.mem_singleton_self _))
  | methodType desc =>
    rw [Loadable.references] at kept
    rw [loadable]
    exact congrArg Loadable.methodType (kept _ (List.mem_singleton_self _))
  | handle h =>
    rw [Loadable.references] at kept
    rw [loadable, only.handle_of_kept kept]
  | dynamic name desc h args =>
    rw [Loadable.references] at kept
    obtain ⟨inDesc, kept⟩ := List.forall_mem_cons.1 kept
    obtain ⟨inHandle, inArgs⟩ := List.forall_mem_append.1 kept
    have inDesc : r.desc desc = desc := inDesc
    rw [loadable, inDesc, only.handle_of_kept inHandle, loadables_of_kept only inArgs]
  | _ => simp [loadable]

theorem loadables_of_kept (only : r.OnlyClasses) {vs : List Loadable}
    (kept : ∀ ref ∈ Loadable.referencesOf vs, ref.Kept r) : r.loadables vs = vs := by
  cases vs with
  | nil => rw [loadables]
  | cons v vs =>
    rw [Loadable.referencesOf] at kept
    obtain ⟨first, kept⟩ := List.forall_mem_append.1 kept
    rw [loadables, loadable_of_kept only first, loadables_of_kept only kept]

end

theorem insn_of_kept (only : r.OnlyClasses) {i : Insn}
    (kept : ∀ ref ∈ i.references, ref.Kept r) : r.insn i = i := by
  cases i with
  | typeOp op name => exact congrArg (Insn.typeOp op) (kept _ (List.mem_singleton_self _))
  | newArrays name dims =>
    exact congrArg (Insn.newArrays · dims) (kept _ (List.mem_singleton_self _))
  | field op m => exact congrArg (Insn.field op) (only.field_of_kept kept)
  | method op m ofInterface =>
    exact congrArg (Insn.method op · ofInterface) (only.method_of_kept kept)
  | callSite name desc b =>
    obtain ⟨inDesc, kept⟩ := List.forall_mem_cons.1 kept
    obtain ⟨inHandle, inArgs⟩ := List.forall_mem_append.1 kept
    have inDesc : r.desc desc = desc := inDesc
    rw [insn, inDesc, bootstrap, only.handle_of_kept inHandle, only.loadables_of_kept inArgs]
  | ldc value => exact congrArg Insn.ldc (only.loadable_of_kept kept)
  | _ => rfl

theorem frame_of_kept {f : LabelledFrame} (kept : ∀ ref ∈ f.2.references, ref.Kept r) :
    r.frame f = f := by
  have types : ∀ t ∈ f.2.locals ++ f.2.stack, r.vtype t = t := by
    intro t mem
    cases t with
    | object name =>
      have inside : Reference.type name ∈ f.2.references :=
        List.mem_flatMap.2 ⟨_, mem, List.mem_singleton_self _⟩
      exact congrArg VType.object (kept _ inside)
    | _ => rfl
  obtain ⟨inLocals, inStack⟩ := List.forall_mem_append.1 types
  rw [frame, map_of_fixed inLocals, map_of_fixed inStack]

end OnlyClasses

end Renaming

/-! Signatures -/

def Code.withoutSignatures (c : Code) : Code := { c with locals := c.unsigned }

/-- The class without the generic signatures of its local variables. -/
def ClassFile.withoutSignatures (c : ClassFile) : ClassFile :=
  { c with methods := c.methods.map fun m => { m with code := m.code.map Code.withoutSignatures } }

def ClassFile.Signed (c : ClassFile) : Prop := ∃ code ∈ c.bodies, ∃ v ∈ code.locals, v.generic

instance (c : ClassFile) : Decidable c.Signed :=
  inferInstanceAs (Decidable (∃ code ∈ c.bodies, ∃ v ∈ code.locals, v.generic))

theorem Code.withoutSignatures_eq_iff {c : Code} :
    c.withoutSignatures = c ↔ ∀ v ∈ c.locals, v.generic = false := by
  have parts : c.withoutSignatures = c ↔ c.unsigned = c.locals :=
    ⟨fun same => congrArg Code.locals same, fun same => by rw [withoutSignatures, same]⟩
  rw [parts, unsigned, List.filter_eq_self]
  simp only [Bool.not_eq_true']

theorem ClassFile.withoutSignatures_eq_iff {c : ClassFile} :
    c.withoutSignatures = c ↔ ¬ c.Signed := by
  constructor
  · rintro same ⟨code, body, v, mem, generic⟩
    obtain ⟨m, hm, found⟩ := List.mem_filterMap.1 body
    have methods : c.methods.map (fun m => { m with code := m.code.map Code.withoutSignatures }) =
        c.methods.map id := (congrArg ClassFile.methods same).trans (List.map_id _).symm
    have kept := congrArg Method.code (List.map_inj_left.1 methods m hm)
    rw [id, found, Option.map_some] at kept
    have plain := Code.withoutSignatures_eq_iff.1 (Option.some.inj kept) v mem
    rw [plain] at generic
    cases generic
  · intro unsigned
    have methods : c.methods.map (fun m => { m with code := m.code.map Code.withoutSignatures }) =
        c.methods := by
      refine map_of_fixed fun m hm => ?_
      have body : m.code.map Code.withoutSignatures = m.code := by
        refine option_map_of_fixed fun code found => Code.withoutSignatures_eq_iff.2 fun v mem => ?_
        rw [← Bool.not_eq_true]
        intro generic
        exact unsigned ⟨code, List.mem_filterMap.2 ⟨m, hm, found⟩, v, mem, generic⟩
      rw [body]
    rw [ClassFile.withoutSignatures, methods]

namespace Renaming.OnlyClasses

variable {r : Renaming}

theorem code_of_kept (only : r.OnlyClasses) {c : Code} (kept : ∀ ref ∈ c.references, ref.Kept r) :
    r.code c = c.withoutSignatures := by
  obtain ⟨kept, inFrames⟩ := List.forall_mem_append.1 kept
  obtain ⟨kept, inLocals⟩ := List.forall_mem_append.1 kept
  obtain ⟨inInsns, inHandlers⟩ := List.forall_mem_append.1 kept
  have insns : c.insns.map r.insn = c.insns := by
    refine map_of_fixed fun i mem => only.insn_of_kept fun ref inside => inInsns ref ?_
    exact List.mem_flatMap.2 ⟨i, mem, inside⟩
  have handlers : (c.handlers.map fun h => { h with catchType := h.catchType.map r.className }) =
      c.handlers := by
    refine map_of_fixed fun h mem => ?_
    have caught : h.catchType.map r.className = h.catchType := by
      refine option_map_of_fixed fun name found => inHandlers (.type name) ?_
      exact List.mem_map_of_mem (List.mem_filterMap.2 ⟨h, mem, found⟩)
    rw [caught]
  have locals : (c.unsigned.map fun v => { v with desc := r.desc v.desc }) = c.unsigned := by
    refine map_of_fixed fun v mem => ?_
    have desc : r.desc v.desc = v.desc := inLocals (.desc v.desc) (List.mem_map_of_mem mem)
    rw [desc]
  have frame : ∀ f ∈ c.frames.getD [] ++ c.hints, r.frame f = f := fun f mem =>
    frame_of_kept fun ref inside => inFrames ref (List.mem_flatMap.2 ⟨f, mem, inside⟩)
  obtain ⟨inFrames, inHints⟩ := List.forall_mem_append.1 frame
  have frames : c.frames.map (·.map r.frame) = c.frames := by
    refine option_map_of_fixed fun frames found => map_of_fixed fun f mem => inFrames f ?_
    rw [Option.mem_def.1 found]
    exact mem
  rw [code, insns, handlers, frames, map_of_fixed inHints]
  show ({ c with locals := c.unsigned.map _ } : Code) = _
  rw [locals]
  rfl

theorem renameReferences_of_kept (only : r.OnlyClasses) {c : ClassFile}
    (kept : ∀ ref ∈ c.references, ref.Kept r) :
    Edit.renameReferences r c = c.withoutSignatures := by
  obtain ⟨kept, inMethods⟩ := List.forall_mem_append.1 kept
  obtain ⟨inHead, inFields⟩ := List.forall_mem_append.1 kept
  have head : ∀ name ∈ c.superName.toList ++ c.interfaces, r.className name = name :=
    fun name mem => inHead (.type name) (List.mem_map_of_mem mem)
  obtain ⟨inSuper, inInterfaces⟩ := List.forall_mem_append.1 head
  have superName : c.superName.map r.className = c.superName :=
    option_map_of_fixed fun name found => inSuper name (Option.mem_toList.2 found)
  have fields : (c.fields.map fun f => { f with desc := r.desc f.desc }) = c.fields := by
    refine map_of_fixed fun f mem => ?_
    have desc : r.desc f.desc = f.desc := inFields (.desc f.desc) (List.mem_map_of_mem mem)
    rw [desc]
  have methods : (c.methods.map fun m =>
      { m with desc := r.desc m.desc, code := m.code.map r.code }) =
      c.methods.map fun m => { m with code := m.code.map Code.withoutSignatures } := by
    refine List.map_congr_left fun m mem => ?_
    have inside : ∀ ref ∈ m.references, ref.Kept r := fun ref inside =>
      inMethods ref (List.mem_flatMap.2 ⟨m, mem, inside⟩)
    obtain ⟨desc, inBody⟩ := List.forall_mem_cons.1 inside
    have desc : r.desc m.desc = m.desc := desc
    have body : m.code.map r.code = m.code.map Code.withoutSignatures := by
      cases found : m.code with
      | none => rfl
      | some code =>
        refine congrArg some (only.code_of_kept fun ref inside => inBody ref ?_)
        rw [found]
        exact List.mem_flatMap.2 ⟨code, List.mem_singleton_self code, inside⟩
    rw [desc, body]
  rw [Edit.renameReferences, superName, map_of_fixed inInterfaces, fields, methods]
  rfl

end Renaming.OnlyClasses

namespace Edit

variable {h : Hierarchy} {legacy component engine : String} {c : ClassFile}

theorem entryRenaming_of_uncalled (uncalled : ∀ m ∈ c.calls, m.name ∈ appletMembers →
      h.isAssignable legacy m.owner = false) :
    entryRenaming h c legacy component engine =
      Renaming.empty.renameClass legacy component := by
  have none : (((c.methods.filterMap Method.code).flatMap fun code =>
      code.insns.filterMap appletCall?).filter
        fun call => call.1 == legacy || h.isAssignable legacy call.1) = [] := by
    refine List.filter_eq_nil_iff.2 fun key mem => ?_
    obtain ⟨applet, call, called, owner, name⟩ := mem_appletCalls.1 mem
    have apart : h.isAssignable legacy key.1 = false :=
      owner ▸ uncalled call called (name ▸ applet)
    have other : key.1 ≠ legacy := by
      intro same
      rw [same, Hierarchy.isAssignable, Hierarchy.assignable_self] at apart
      cases apart
    rw [apart, Bool.or_false, beq_iff_eq]
    exact other
  rw [entryRenaming, none, List.foldl_nil]

theorem onlyClasses_renameClass (legacy component : String) :
    (Renaming.empty.renameClass legacy component).OnlyClasses := by
  obtain ⟨fields, methods, owners⟩ := renameClass_empty legacy component
  exact ⟨fields, methods, owners⟩

theorem lookup_renameClass_empty {name : String} (other : name ≠ legacy) :
    (Renaming.empty.renameClass legacy component).classes.lookup name = none := by
  unfold Renaming.renameClass
  split
  · rfl
  · rw [List.lookup_cons, beq_false_of_ne other]
    rfl

/-- A class that does not refer to the legacy class and calls no member that only an applet has is
left as it is, whatever its texts contain. Only signatures of local variables are lost, and only
if some text contains the name of the legacy class. -/
theorem unrelated_appletToPanel {ctx : EditContext}
    (unnamed : ∀ ref ∈ c.references, legacy ∉ ref.names)
    (uncalled : ∀ m ∈ c.calls, m.name ∈ appletMembers →
      ctx.hierarchy.isAssignable legacy m.owner = false) :
    (¬ (c.Mentions legacy ∧ c.Signed) →
      ((Edit.appletToPanel legacy component engine).apply ctx).run c = (.ok false, c)) ∧
    (c.Mentions legacy → c.Signed →
      ((Edit.appletToPanel legacy component engine).apply ctx).run c =
        (.ok true, c.withoutSignatures) ∧ c.withoutSignatures ≠ c) := by
  have kept : ∀ ref ∈ c.references,
      ref.Kept (Renaming.empty.renameClass legacy component) := by
    refine fun ref mem => Renaming.kept_of_unknown fun name named => lookup_renameClass_empty ?_
    rintro rfl
    exact unnamed ref mem named
  have run := applyEntryPoint_run ctx legacy component engine c
  dsimp only at run
  rw [entryRenaming_of_uncalled uncalled,
    (onlyClasses_renameClass legacy component).renameReferences_of_kept kept] at run
  constructor
  · intro unchanged
    refine Eq.trans run ?_
    split
    · rfl
    · rename_i mentioned
      have mentions : c.Mentions legacy := by
        by_contra unmentioned
        exact mentioned (not_or.1 unmentioned)
      have same : c.withoutSignatures = c :=
        ClassFile.withoutSignatures_eq_iff.2 fun signed => unchanged ⟨mentions, signed⟩
      rw [if_pos same]
  · intro mentions signed
    have changed : c.withoutSignatures ≠ c := fun same =>
      ClassFile.withoutSignatures_eq_iff.1 same signed
    refine ⟨Eq.trans run ?_, changed⟩
    rw [if_neg fun unmentioned => not_or.2 unmentioned mentions, if_neg changed]

/-- A class that loads the name of the legacy class as a string, and a class with a longer name. It
has one local variable, in the table called by the text at `table`, with the descriptor or
signature at `text`: 12 and 15, or 13 and 16. -/
def namesakeClass (table text : UInt8) : Bytes :=
  let constants : List Constant := [.utf8 "a", .type 1, .utf8 "java/lang/Object", .type 3,
    .utf8 "m", .utf8 "()V", .utf8 "java/applet/Applet", .string 7,
    .utf8 "java/applet/AppletContext", .type 9, .utf8 "Code", .utf8 "LocalVariableTable",
    .utf8 "LocalVariableTypeTable", .utf8 "x", .utf8 "Ljava/applet/AppletContext;",
    .utf8 "Ljava/util/List<Ljava/lang/String;>;"]
  Bytes.be 4 Header.magic.toNat ++ [0, 0, 0, 52, 0, 17] ++ constants.flatMap Constant.encode ++
    [0, 33, 0, 2, 0, 4, 0, 0, 0, 0, 0, 1, 0, 9, 0, 5, 0, 6, 0, 1, 0, 11, 0, 0, 0, 37, 0, 1, 0, 1,
      0, 0, 0, 7, 18, 8, 87, 18, 10, 87, 177, 0, 0, 0, 1, 0, table, 0, 0, 0, 12, 0, 1,
      0, 0, 0, 7, 0, 14, 0, text, 0, 0, 0, 0]

theorem unrelated_namesakeClass : ∃ c,
    ClassFile.parse (namesakeClass 12 15) = .ok c ∧
    (∀ ref ∈ c.references, "java/applet/Applet" ∉ ref.names) ∧
    c.Mentions "java/applet/Applet" ∧ Reference.type "java/applet/AppletContext" ∈ c.references ∧
    (panelEdit.apply noContext).run c = (.ok false, c) := by
  have computed : ((ClassFile.parse (namesakeClass 12 15)).toOption.any fun c =>
      (∀ ref ∈ c.references, "java/applet/Applet" ∉ ref.names) ∧
      c.pool.hasTextWith "java/applet/Applet" = true ∧
      Reference.type "java/applet/AppletContext" ∈ c.references ∧
      c.calls = [] ∧ ¬ c.Signed) = true := by
    decide +kernel
  obtain ⟨c, parsed, computed⟩ := exists_ok_of_any computed
  obtain ⟨unnamed, text, longer, silent, unsigned⟩ := of_decide_eq_true computed
  have uncalled : ∀ m ∈ c.calls, m.name ∈ appletMembers →
      noContext.hierarchy.isAssignable "java/applet/Applet" m.owner = false := by
    rw [silent]
    exact List.forall_mem_nil _
  obtain ⟨unchanged, _⟩ := unrelated_appletToPanel unnamed uncalled
  exact ⟨c, parsed, unnamed, .inr text, longer, unchanged fun both => unsigned both.2⟩

/-- A local variable of a generic type loses its signature in a class that has nothing to do with
applets. -/
theorem signed_namesakeClass :
    ¬ ∀ (ctx : EditContext) (legacy component engine : String) (bytes : Bytes) (c : ClassFile),
      ClassFile.parse bytes = .ok c → (∀ ref ∈ c.references, legacy ∉ ref.names) →
      (∀ m ∈ c.calls, m.name ∈ appletMembers →
        ctx.hierarchy.isAssignable legacy m.owner = false) →
      ((Edit.appletToPanel legacy component engine).apply ctx).run c = (.ok false, c) := by
  intro always
  have computed : ((ClassFile.parse (namesakeClass 13 16)).toOption.any fun c =>
      (∀ ref ∈ c.references, "java/applet/Applet" ∉ ref.names) ∧ c.calls = [] ∧
      ((panelEdit.apply noContext).run c).1.toOption = some true) = true := by
    decide +kernel
  obtain ⟨c, parsed, computed⟩ := exists_ok_of_any computed
  obtain ⟨unnamed, silent, changed⟩ := of_decide_eq_true computed
  have uncalled : ∀ m ∈ c.calls, m.name ∈ appletMembers →
      noContext.hierarchy.isAssignable "java/applet/Applet" m.owner = false := by
    rw [silent]
    exact List.forall_mem_nil _
  have same := always noContext _ "java/awt/Panel" "engine" _ c parsed unnamed uncalled
  have same : (panelEdit.apply noContext).run c = (.ok false, c) := same
  rw [same] at changed
  cases changed

end Edit

end ClassWeave
