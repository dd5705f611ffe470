import Mathlib.Tactic.Common
import ClassWeave.Proofs.Additions

/-!
# What edits leave alone

Raw attributes and undecoded constants refer to the pool by number. No edit, whether it succeeds or
fails, touches the pool or the attributes of a class or of its members: members stay in their
places, and those that come in have no raw attributes.
-/

set_option autoImplicit false

namespace ClassWeave

def Field.raw (f : Field) : String × List Attribute := (f.name, f.attributes)

def Method.raw (m : Method) : String × List Attribute := (m.name, m.attributes)

def Method.head (m : Method) : String × String × List Attribute × Bool :=
  (m.name, m.desc, m.attributes, m.isStatic)

theorem Access.isStatic_remove (a : Access) :
    (a.remove (Access.abstractBit ||| Access.nativeBit)).has Access.staticBit =
      a.has Access.staticBit := by
  have apart : ~~~(Access.abstractBit ||| Access.nativeBit) &&& Access.staticBit =
    Access.staticBit := by decide
  rw [has, remove, UInt16.and_assoc, apart]
  rfl

def Lengthens (raws raws' : List (String × List Attribute)) : Prop :=
  ∃ more, raws' = raws ++ more ∧ ∀ r ∈ more, r.2 = []

namespace Lengthens

variable {raws raws' raws'' : List (String × List Attribute)}

theorem refl (raws : List (String × List Attribute)) : Lengthens raws raws :=
  ⟨[], (List.append_nil raws).symm, List.forall_mem_nil _⟩

theorem trans (first : Lengthens raws raws') (second : Lengthens raws' raws'') :
    Lengthens raws raws'' := by
  obtain ⟨more, rfl, plain⟩ := first
  obtain ⟨more', rfl, plain'⟩ := second
  refine ⟨more ++ more', List.append_assoc .., fun r mem => ?_⟩
  exact (List.mem_append.1 mem).elim (plain r) (plain' r)

theorem concat (raws : List (String × List Attribute)) (name : String) :
    Lengthens raws (raws ++ [(name, [])]) :=
  ⟨[(name, [])], rfl, fun r mem => by rw [List.mem_singleton.1 mem]⟩

theorem isPrefix (h : Lengthens raws raws') : raws <+: raws' := by
  obtain ⟨more, rfl, _⟩ := h
  exact List.prefix_append raws more

theorem mem_or_nil (h : Lengthens raws raws') {r : String × List Attribute} (mem : r ∈ raws') :
    r ∈ raws ∨ r.2 = [] := by
  obtain ⟨more, rfl, plain⟩ := h
  exact (List.mem_append.1 mem).imp_right (plain r)

end Lengthens

namespace ClassFile

/-- What raw attributes refer to, and the raw attributes themselves, are those of `c`. -/
structure Retains (c c' : ClassFile) : Prop where
  minor : c'.minor = c.minor
  major : c'.major = c.major
  pool : c'.pool = c.pool
  access : c'.access = c.access
  name : c'.name = c.name
  attributes : c'.attributes = c.attributes
  fields : Lengthens (c.fields.map Field.raw) (c'.fields.map Field.raw)
  methods : Lengthens (c.methods.map Method.raw) (c'.methods.map Method.raw)

namespace Retains

variable {c c' c'' : ClassFile}

theorem refl (c : ClassFile) : c.Retains c where
  minor := rfl
  major := rfl
  pool := rfl
  access := rfl
  name := rfl
  attributes := rfl
  fields := .refl _
  methods := .refl _

theorem trans (first : c.Retains c') (second : c'.Retains c'') : c.Retains c'' where
  minor := second.minor.trans first.minor
  major := second.major.trans first.major
  pool := second.pool.trans first.pool
  access := second.access.trans first.access
  name := second.name.trans first.name
  attributes := second.attributes.trans first.attributes
  fields := first.fields.trans second.fields
  methods := first.methods.trans second.methods

theorem of_bodies {methods : List Method}
    (same : methods.map Method.head = c.methods.map Method.head) :
    c.Retains { c with methods := methods } := by
  have raw : methods.map Method.raw = c.methods.map Method.raw := by
    have heads := congrArg (List.map fun head => (head.1, head.2.2.1)) same
    rwa [List.map_map, List.map_map] at heads
  exact { refl c with methods := raw ▸ .refl _ }

theorem addInterface (c : ClassFile) (name : String) : c.Retains (c.addInterface name).2 := by
  unfold ClassFile.addInterface
  split
  · exact .refl c
  · exact { refl c with }

theorem addField {access : Access} {name desc : String} {added : Bool}
    (run : c.addField ⟨access, name, desc, []⟩ = .ok (added, c')) : c.Retains c' := by
  unfold ClassFile.addField at run
  split at run
  · split at run
    · cases run
      exact .refl c
    · cases run
  · cases run
    refine { refl c with fields := ?_ }
    rw [List.map_append]
    exact .concat _ name

theorem addMethod (c : ClassFile) {m : Method} (plain : m.attributes = []) :
    c.Retains (c.addMethod m).2 := by
  unfold ClassFile.addMethod
  split
  · exact .refl c
  · refine { refl c with methods := ?_ }
    rw [List.map_append, List.map_singleton, Method.raw, plain]
    exact .concat _ m.name

end Retains

structure BodyFrame (R : ClassFile → ClassFile → Prop) : Prop where
  refl (c : ClassFile) : R c c
  trans {c c' c'' : ClassFile} : R c c' → R c' c'' → R c c''
  bodies {c : ClassFile} {methods : List Method} :
    methods.map Method.head = c.methods.map Method.head → R c { c with methods := methods }

/-- The same for all steps which edits are made of: something comes in behind what is there, or
bodies change. -/
structure EditFrame (R : ClassFile → ClassFile → Prop) : Prop extends BodyFrame R where
  addInterface (c : ClassFile) (name : String) : R c (c.addInterface name).2
  addField {c c' : ClassFile} {access : Access} {name desc : String} {added : Bool} :
    c.addField ⟨access, name, desc, []⟩ = .ok (added, c') → R c c'
  addMethod (c : ClassFile) {m : Method} : m.attributes = [] → R c (c.addMethod m).2

theorem frame_retains : EditFrame Retains where
  refl := .refl
  trans := .trans
  addInterface := .addInterface
  addField := .addField
  addMethod := .addMethod
  bodies := .of_bodies

theorem head_update (name desc : String) {f : Method → Method} (kept : ∀ m, (f m).head = m.head)
    (ms : List Method) :
    (updateMethod.update name desc f ms).map Method.head = ms.map Method.head := by
  induction ms with
  | nil => rfl
  | cons m ms ih =>
    rw [updateMethod.update]
    split
    · rw [List.map_cons, List.map_cons, kept]
    · rw [List.map_cons, List.map_cons, ih]

theorem head_set {methods : List Method} {i : Nat} {m : Method} (found : methods[i]? = some m)
    (code : Option Code) :
    (methods.set i { m with code := code }).map Method.head = methods.map Method.head := by
  obtain ⟨inside, rfl⟩ := List.getElem?_eq_some_iff.1 found
  have inside : i < (methods.map Method.head).length := by rwa [List.length_map]
  have kept : Method.head { methods[i] with code := code } = (methods.map Method.head)[i] := by
    rw [List.getElem_map]
    rfl
  rw [List.map_set, kept, List.set_getElem_self]

theorem BodyFrame.replaceBody {R : ClassFile → ClassFile → Prop} (frame : BodyFrame R)
    {c c' : ClassFile} {name desc : String} {code : Code} {replaced : Bool}
    (run : c.replaceBody name desc code = .ok (replaced, c')) : R c c' := by
  unfold ClassFile.replaceBody at run
  split at run
  · cases run
  · split at run
    · cases run
      exact frame.refl c
    · cases run
      apply frame.bodies
      apply head_update
      intro m
      simp [Method.head, Method.isStatic, Access.isStatic_remove]

end ClassFile

namespace Editing

variable {α β : Type} {R : ClassFile → ClassFile → Prop} {c c' : ClassFile}

def Keeping (R : ClassFile → ClassFile → Prop) (m : Editing α) (c : ClassFile) : Prop :=
  R c (m c).2

namespace Keeping

variable (frame : ClassFile.BodyFrame R)

include frame

theorem pure (a : α) : Keeping R (Pure.pure a : Editing α) c := frame.refl c

theorem throw (e : EditError) : Keeping R (throw e : Editing α) c := frame.refl c

theorem bind {m : Editing α} {k : α → Editing β} (hm : m.Keeping R c)
    (hk : ∀ a c', m c = (.ok a, c') → (k a).Keeping R c') : (m >>= k).Keeping R c := by
  unfold Keeping at hm ⊢
  rw [run_bind]
  rcases run : m c with ⟨e | a, c'⟩
  · rw [run] at hm
    exact hm
  · rw [run] at hm
    exact frame.trans hm (hk a c' run)

theorem ofExcept {x : Except EditError α} {k : α → Editing β}
    (hk : ∀ a, x = .ok a → (k a).Keeping R c) : (Editing.ofExcept x >>= k).Keeping R c := by
  refine bind frame (frame.refl c) fun a c' run => ?_
  cases run
  exact hk a rfl

theorem set {k : PUnit → Editing β} (kept : R c c')
    (hk : (k ⟨⟩).Keeping R c') : ((MonadStateOf.set c' : Editing PUnit) >>= k).Keeping R c :=
  frame.trans kept hk

omit frame

theorem get {k : ClassFile → Editing β} (hk : (k c).Keeping R c) :
    ((MonadState.get : Editing ClassFile) >>= k).Keeping R c :=
  hk

end Keeping

end Editing

namespace Edit

open Synthesis

theorem applyEntryPoint_run (ctx : EditContext) (legacy component engine : String)
    (c : ClassFile) :
    let adapted := renameReferences (entryRenaming ctx.hierarchy c legacy component engine) c
    applyEntryPoint ctx legacy component engine c =
      if c.superName ≠ some legacy ∧ ¬ c.pool.hasTextWith legacy then (.ok false, c)
      else if adapted = c then (.ok false, c)
      else (.ok true, adapted) := by
  intro adapted
  unfold applyEntryPoint
  rw [run_bind]
  show (if c.superName ≠ some legacy ∧ ¬ c.pool.hasTextWith legacy then _ else _ :
    Editing Bool) c = _
  split
  · rfl
  · show (if adapted = c then _ else _ : Editing Bool) c = _
    split <;> rfl

section Bodies

variable {R : ClassFile → ClassFile → Prop} (frame : ClassFile.BodyFrame R) {c : ClassFile}

include frame

theorem keeping_spliceAll (cb : Callback) (callback : MethodDescriptor) (sites : List Nat)
    (matched changed : Bool) : (spliceAll cb callback sites matched changed).Keeping R c := by
  induction sites generalizing matched changed c with
  | nil => exact .pure frame _
  | cons i rest ih =>
    refine .get ?_
    split
    · exact ih ..
    · rename_i m found
      refine .ofExcept frame fun outcome _ => ?_
      cases outcome with
      | present => exact ih ..
      | skipped => exact ih ..
      | spliced code => exact .set frame (frame.bodies (ClassFile.head_set found _)) (ih ..)

theorem keeping_applyCallback (cb : Callback) : (applyCallback cb).Keeping R c := by
  refine .get (.ofExcept frame fun sites _ => .ofExcept frame fun callback _ => ?_)
  refine .bind frame (keeping_spliceAll frame ..) fun outcome c' _ => ?_
  obtain ⟨matched, changed⟩ := outcome
  dsimp only
  split
  · exact .bind frame (.throw frame _) fun _ _ run => by cases run
  · exact .pure frame _

theorem keeping_applyDelegate (name desc : String) (delegate : MemberRef) (invoke : Opcode) :
    (applyDelegate name desc delegate invoke).Keeping R c := by
  refine .get ?_
  dsimp only
  split
  · exact .throw frame _
  · refine .ofExcept frame fun hooked _ => .ofExcept frame fun insns _ =>
      .ofExcept frame fun answer replaced => ?_
    obtain ⟨now, c'⟩ := answer
    exact .set frame (frame.replaceBody replaced) (.pure frame now)

end Bodies

variable {R : ClassFile → ClassFile → Prop} (frame : ClassFile.EditFrame R) {c : ClassFile}

include frame

theorem keeping_addSynthesized (kind name desc : String)
    (body : ClassFile → String → Except EditError (List Insn)) :
    (addSynthesized kind name desc body).Keeping R c := by
  unfold Editing.Keeping
  rw [addSynthesized_run]
  split
  · exact frame.refl c
  · split
    · exact frame.refl c
    · exact frame.addMethod c rfl

theorem keeping_copyPending (source : ClassFile) (r : Renaming) (fuel next : Nat)
    (pending : List (String × String)) (changed : Bool) :
    (copyPending source r fuel next pending changed).Keeping R c := by
  unfold Editing.Keeping
  induction fuel generalizing next pending changed c with
  | zero => exact frame.refl c
  | succ fuel ih =>
    rw [copyPending_succ]
    split
    · exact frame.refl c
    · split
      · exact frame.refl c
      · rename_i m _
        split
        · exact ih ..
        · exact frame.trans (frame.addMethod c (m := r.rehome m) rfl) (ih ..)

theorem keeping_applyCopy (ctx : EditContext) (source : MemberRef) (name : String) :
    (applyCopy ctx source name).Keeping R c := by
  unfold Editing.Keeping
  rw [applyCopy_run]
  split
  · exact frame.refl c
  · split
    · exact frame.refl c
    · split
      · exact frame.refl c
      · exact frame.addMethod c rfl

theorem keeping_applyEntryPoint (ctx : EditContext) {legacy component engine : String}
    (renamed : R c (renameReferences (entryRenaming ctx.hierarchy c legacy component engine) c)) :
    (applyEntryPoint ctx legacy component engine).Keeping R c := by
  unfold Editing.Keeping
  rw [applyEntryPoint_run]
  split
  · exact frame.refl c
  · split
    · exact frame.refl c
    · exact renamed

theorem keeping_apply (ctx : EditContext) (e : Edit)
    (renamed : ∀ legacy component engine, e = .appletToPanel legacy component engine →
      R c (renameReferences (entryRenaming ctx.hierarchy c legacy component engine) c)) :
    (e.apply ctx).Keeping R c := by
  cases e with
  | addInterface name => exact frame.addInterface c name
  | addField access name desc =>
    unfold Editing.Keeping
    refine (congrArg (fun p => R c p.2) (addField_run ctx access name desc c)).mpr ?_
    split
    · exact frame.refl c
    · rename_i run
      exact frame.addField run
  | addGetter name desc field isStatic factor => exact keeping_addSynthesized frame ..
  | addSetter name desc field isStatic factor => exact keeping_addSynthesized frame ..
  | addInvoker name desc target dummy => exact keeping_addSynthesized frame ..
  | injectCallback callback => exact keeping_applyCallback frame.toBodyFrame callback
  | addMethods source methods rules => exact keeping_copyPending frame ..
  | copyMethod source name => exact keeping_applyCopy frame ctx source name
  | replaceMethod name desc delegate invoke =>
    exact keeping_applyDelegate frame.toBodyFrame ..
  | appletToPanel legacy component engine =>
    exact keeping_applyEntryPoint frame ctx (renamed _ _ _ rfl)

omit frame

theorem retains_renameReferences (r : Renaming) (c : ClassFile) :
    c.Retains (renameReferences r c) := by
  refine { ClassFile.Retains.refl c with fields := ?_, methods := ?_ }
  · have same : (c.fields.map fun f => { f with desc := r.desc f.desc }).map Field.raw =
        c.fields.map Field.raw := by
      rw [List.map_map]
      rfl
    exact same ▸ .refl _
  · have same : (c.methods.map fun m =>
        { m with desc := r.desc m.desc, code := m.code.map r.code }).map Method.raw =
        c.methods.map Method.raw := by
      rw [List.map_map]
      rfl
    exact same ▸ .refl _

end Edit

/-- What a sequence of edits makes of `c`, each of which succeeds in a context of its own. -/
inductive Edited (c : ClassFile) : ClassFile → Prop where
  | start : Edited c c
  | step {c' c'' : ClassFile} {ctx : EditContext} {e : Edit} {now : Bool} (before : Edited c c')
      (run : (e.apply ctx).run c' = (.ok now, c'')) : Edited c c''

theorem Edited.retains {c c' : ClassFile} (edited : Edited c c') : c.Retains c' := by
  induction edited with
  | start => exact .refl c
  | @step c' c'' ctx e now before run ih =>
    have next : c'.Retains ((e.apply ctx).run c').2 :=
      Edit.keeping_apply ClassFile.frame_retains ctx e
        fun _ _ _ _ => Edit.retains_renameReferences _ c'
    rw [run] at next
    exact ih.trans next

end ClassWeave
