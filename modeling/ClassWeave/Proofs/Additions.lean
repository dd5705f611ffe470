import Mathlib.Tactic.Common
import ClassWeave.Edit.Apply
import ClassWeave.Proofs.Renaming
import ClassWeave.Proofs.Sequences

/-!
# Edits that add

An edit that adds members or interfaces takes nothing away. Where they are in place it does nothing;
they are in place behind it, and they stay whatever else is added.
-/

set_option autoImplicit false

namespace ClassWeave

structure ClassFile.Extends (c c' : ClassFile) : Prop where
  name : c'.name = c.name
  interfaces : ∀ i ∈ c.interfaces, i ∈ c'.interfaces
  fields : ∀ name f, c.field? name = some f → ∃ f', c'.field? name = some f' ∧ f'.desc = f.desc
  methods : ∀ name desc, (c.method? name desc).isSome → (c'.method? name desc).isSome

namespace ClassFile.Extends

variable {c c' c'' : ClassFile}

theorem refl (c : ClassFile) : c.Extends c where
  name := rfl
  interfaces _ h := h
  fields _ f h := ⟨f, h, rfl⟩
  methods _ _ h := h

theorem trans (first : c.Extends c') (second : c'.Extends c'') : c.Extends c'' where
  name := second.name.trans first.name
  interfaces i h := second.interfaces i (first.interfaces i h)
  fields name f h := by
    obtain ⟨f', h', same⟩ := first.fields name f h
    obtain ⟨f'', h'', same'⟩ := second.fields name f' h'
    exact ⟨f'', h'', same'.trans same⟩
  methods name desc h := second.methods name desc (first.methods name desc h)

theorem addInterface (c : ClassFile) (name : String) : c.Extends (c.addInterface name).2 := by
  unfold ClassFile.addInterface
  split
  · exact .refl c
  · exact ⟨rfl, fun i h => List.mem_append_left _ h, fun _ f h => ⟨f, h, rfl⟩, fun _ _ h => h⟩

theorem addField {f : Field} {added : Bool} (run : c.addField f = .ok (added, c')) :
    c.Extends c' := by
  unfold ClassFile.addField at run
  split at run
  · split at run
    · cases run
      exact .refl c
    · cases run
  · cases run
    refine ⟨rfl, fun _ h => h, fun name g h => ⟨g, ?_, rfl⟩, fun _ _ h => h⟩
    rw [field?, List.find?_append, ← field?, h]
    rfl

theorem addMethod (c : ClassFile) (m : Method) : c.Extends (c.addMethod m).2 := by
  unfold ClassFile.addMethod
  split
  · exact .refl c
  · refine ⟨rfl, fun _ h => h, fun _ f h => ⟨f, h, rfl⟩, fun name desc h => ?_⟩
    rw [method?, List.find?_append, ← method?, Option.isSome_or, h]
    rfl

end ClassFile.Extends

theorem Batch.get?_eq_none {b : Batch} {name : String} : b.get? name = none ↔ name ∉ b.names := by
  rw [get?, names, List.lookup_eq_none_iff, List.mem_map]
  constructor
  · rintro none ⟨e, mem, rfl⟩
    simpa using none e mem
  · exact fun absent e mem => bne_iff_ne.2 fun same => absent ⟨e, mem, same.symm⟩

theorem Batch.exists_get? {b : Batch} {name : String} (known : name ∈ b.names) :
    ∃ bytes, b.get? name = some bytes := by
  rw [← Option.ne_none_iff_exists']
  exact fun absent => get?_eq_none.1 absent known

theorem method?_addMethod (c : ClassFile) (m : Method) :
    ((c.addMethod m).2.method? m.name m.desc).isSome = true := by
  unfold ClassFile.addMethod
  split
  · rename_i taken
    exact taken
  · rw [ClassFile.method?, List.find?_append, Option.isSome_or, Bool.or_eq_true]
    right
    simp [Method.hasSignature]

theorem mem_addInterface (c : ClassFile) (name : String) :
    name ∈ (c.addInterface name).2.interfaces := by
  unfold ClassFile.addInterface
  split
  · rename_i known
    exact List.contains_iff_mem.1 known
  · exact List.mem_append_right _ (List.mem_singleton.2 rfl)

theorem addInterface_eq_self {c : ClassFile} {name : String}
    (kept : (c.addInterface name).1 = false) : (c.addInterface name).2 = c := by
  unfold ClassFile.addInterface at kept ⊢
  split
  · rfl
  · rename_i fresh
    rw [if_neg fresh] at kept
    cases kept

theorem field?_addField {c c' : ClassFile} {f : Field} {added : Bool}
    (made : c.addField f = .ok (added, c')) :
    (∃ g, c'.field? f.name = some g ∧ g.desc = f.desc) ∧ (added = false → c' = c) := by
  unfold ClassFile.addField at made
  split at made
  · rename_i g found
    split at made
    · rename_i same
      cases made
      exact ⟨⟨g, found, same⟩, fun _ => rfl⟩
    · cases made
  · rename_i free
    cases made
    refine ⟨⟨f, ?_, rfl⟩, fun h => nomatch h⟩
    rw [ClassFile.field?, List.find?_append, ← ClassFile.field?, free]
    simp

theorem addMethod_fst {c : ClassFile} {m : Method}
    (free : ¬ (c.method? m.name m.desc).isSome = true) : (c.addMethod m).1 = true :=
  congrArg Prod.fst (if_neg free)

theorem addMethod_snd {c : ClassFile} {m : Method}
    (free : ¬ (c.method? m.name m.desc).isSome = true) :
    (c.addMethod m).2 = { c with methods := c.methods ++ [m] } :=
  congrArg Prod.snd (if_neg free)

theorem method?_added {c : ClassFile} {m : Method}
    (free : ¬ (c.method? m.name m.desc).isSome = true) :
    ({ c with methods := c.methods ++ [m] } : ClassFile).method? m.name m.desc = some m := by
  have absent : c.methods.find? (Method.hasSignature m.name m.desc) = none :=
    Option.not_isSome_iff_eq_none.1 free
  rw [ClassFile.method?, List.find?_append, absent]
  simp [Method.hasSignature]

theorem Renaming.descChars_eq_self {r : Renaming} (none : r.classes = []) (cs : List Char) :
    r.descChars cs = cs := by
  refine r.descChars_of_fixed (fun name closed => ?_) cs
  unfold innerName
  split
  · exact r.descChars_of_unclosed closed
  · rw [plainName, none]
    rfl

theorem Renaming.desc_eq_self {r : Renaming} (none : r.classes = []) (text : String) :
    r.desc text = text := by
  rw [desc, descChars_eq_self none, String.ofList_toList]

def NeverMissing {α : Type} (x : Except EditError α) : Prop := ∀ s, x ≠ .error (.missingSource s)

namespace NeverMissing

variable {α β : Type}

theorem ok (a : α) : NeverMissing (.ok a) := fun _ h => nomatch h

theorem mismatch (context : String) (m : Mismatch) :
    NeverMissing (Synthesis.mismatch context m : Except EditError α) := fun _ h => nomatch h

theorem orBadFormat (x : Except FormatError α) : NeverMissing (orBadFormat x) := by
  intro s h
  cases x <;> cases h

theorem ite {p : Prop} [Decidable p] {x y : Except EditError α} (hx : NeverMissing x)
    (hy : NeverMissing y) : NeverMissing (if p then x else y) := by
  split
  · exact hx
  · exact hy

theorem map {f : α → β} {x : Except EditError α} (hx : NeverMissing x) :
    NeverMissing (x.map f) := by
  cases x with
  | error e => exact fun s h => hx s (by cases h; rfl)
  | ok a => exact .ok _

theorem bind {x : Except EditError α} {k : α → Except EditError β} (hx : NeverMissing x)
    (hk : ∀ a, NeverMissing (k a)) : NeverMissing (x >>= k) := by
  cases x with
  | error e => exact fun s h => hx s (by cases h; rfl)
  | ok a => exact hk a

end NeverMissing

namespace Edit

open Synthesis

section Bodies

variable (context : String)

theorem neverMissing_integerConstant (t : FieldType) (value : Int64) :
    NeverMissing (integerConstant t value context) := by
  unfold integerConstant
  split
  · exact .ok _
  · split
    · exact .ok _
    · exact .mismatch _ _

theorem neverMissing_convert (given wanted : FieldType) :
    NeverMissing (convert given wanted context) := by
  unfold convert
  split
  · exact .ok _
  · split
    · split
      · exact .ok _
      · exact .ok _
    · exact .mismatch _ _

theorem neverMissing_scale (t : FieldType) (factor : Option Int64) :
    NeverMissing (scale t factor context) := by
  unfold scale multiply
  split
  · rename_i factor
    have constant (op : Opcode) : NeverMissing (do
        let constant ← integerConstant t factor context
        return [constant, Insn.simple op]) :=
      .bind (neverMissing_integerConstant context t factor) fun _ => .ok _
    split
    · exact constant _
    · exact constant _
    · exact .mismatch _ _
  · exact .ok _

theorem neverMissing_getterBody (desc : String) (field : MemberRef) (isStatic : Bool)
    (factor : Option Int64) : NeverMissing (getterBody context desc field isStatic factor) := by
  refine .bind (.orBadFormat _) fun d => ?_
  split
  · refine .bind (.orBadFormat _) fun t => .bind (neverMissing_scale context _ _) fun _ => ?_
    exact .bind (neverMissing_convert context _ _) fun _ => .ok _
  · exact .mismatch _ _

theorem neverMissing_setterBody (desc : String) (field : MemberRef) (isStatic : Bool)
    (factor : Option Int64) : NeverMissing (setterBody context desc field isStatic factor) := by
  refine .bind (.orBadFormat _) fun d => ?_
  split
  · dsimp only
    split
    · exact .mismatch _ _
    · refine .bind (.orBadFormat _) fun t => .bind (neverMissing_convert context _ _) fun _ => ?_
      exact .bind (neverMissing_scale context _ _) fun _ => .ok _
  · exact .mismatch _ _

theorem neverMissing_convertArgs (args : List (FieldType × FieldType)) (slot : UInt16) :
    NeverMissing (convertArgs context args slot) := by
  induction args generalizing slot with
  | nil => exact .ok _
  | cons arg rest ih =>
    exact .bind (neverMissing_convert context _ _) fun _ => .bind (ih _) fun _ => .ok _

theorem neverMissing_passResult (given wanted : Option FieldType) (absent : Mismatch) :
    NeverMissing (passResult given wanted context absent) := by
  unfold passResult
  split
  · exact neverMissing_convert context _ _
  · exact .ok _
  · exact .mismatch _ _

theorem neverMissing_invokerBody (c : ClassFile) (h : Hierarchy) (desc : String)
    (target : MemberRef) (dummy : Option Int64) :
    NeverMissing (invokerBody c h context desc target dummy) := by
  refine .bind (.orBadFormat _) fun api => .bind (.orBadFormat _) fun hooked => ?_
  have passed (insns : List Insn → List Insn) : NeverMissing (do
      let passed ← passResult hooked.result api.result context (.returnsVoid target)
      return insns passed) :=
    .bind (neverMissing_passResult context _ _ _) fun _ => .ok _
  refine .ite (.mismatch _ _) (.bind (neverMissing_convertArgs context _ _) fun args => ?_)
  dsimp only
  split
  · exact .bind (.map (neverMissing_integerConstant context _ _)) fun last => passed _
  · exact passed _

end Bodies

def Additive : Edit → Prop
  | .injectCallback _ | .replaceMethod _ _ _ _ | .appletToPanel _ _ _ => False
  | _ => True

def Covered (source : ClassFile) (r : Renaming) (c : ClassFile) :
    Nat → Nat → List (String × String) → Prop
  | 0, _, _ => True
  | fuel + 1, next, pending =>
    match pending[next]? with
    | none => True
    | some (name, desc) =>
      match source.method? name desc with
      | none => False
      | some m => (c.method? name (r.desc desc)).isSome = true ∧
          Covered source r c fuel (next + 1) (addUnseen pending (lambdaBodies source m))

def Present (names : List String) (c : ClassFile) : Edit → Prop
  | .addInterface name => name ∈ c.interfaces
  | .addField _ name desc => ∃ f, c.field? name = some f ∧ f.desc = desc
  | .addGetter name desc _ _ _ | .addSetter name desc _ _ _ | .addInvoker name desc _ _ =>
    (c.method? name desc).isSome = true
  | .addMethods source methods r =>
    Covered source r c (methods.length + source.methods.length + 1) 0 methods
  | .copyMethod source name => (c.method? name source.desc).isSome = true ∨
      (source.owner ≠ c.name ∧ source.owner ∉ names)
  | _ => False

variable {c c' : ClassFile} {now : Bool}

theorem Covered.mono {source : ClassFile} {r : Renaming} (grown : c.Extends c')
    {fuel next : Nat} {pending : List (String × String)}
    (h : Covered source r c fuel next pending) : Covered source r c' fuel next pending := by
  induction fuel generalizing next pending with
  | zero => trivial
  | succ fuel ih =>
    rw [Covered] at h ⊢
    split
    · trivial
    · rename_i name desc waiting
      rw [waiting] at h
      dsimp only at h
      split
      · rename_i absent
        rwa [absent] at h
      · rename_i m found
        rw [found] at h
        exact ⟨grown.methods _ _ h.1, ih h.2⟩

theorem Present.mono {names : List String} {e : Edit} (h : e.Present names c)
    (grown : c.Extends c') : e.Present names c' := by
  cases e with
  | addInterface name => exact grown.interfaces name h
  | addField access name desc =>
    obtain ⟨f, found, rfl⟩ := h
    exact grown.fields name f found
  | addGetter name desc field isStatic factor => exact grown.methods name desc h
  | addSetter name desc field isStatic factor => exact grown.methods name desc h
  | addInvoker name desc target dummy => exact grown.methods name desc h
  | addMethods source methods r => exact Covered.mono grown h
  | copyMethod source name =>
    exact h.imp (grown.methods name source.desc) fun absent => ⟨grown.name ▸ absent.1, absent.2⟩
  | injectCallback cb => exact h
  | replaceMethod name desc delegate invoke => exact h
  | appletToPanel legacy component engine => exact h

theorem addSynthesized_run (kind name desc : String)
    (body : ClassFile → String → Except EditError (List Insn)) (c : ClassFile) :
    addSynthesized kind name desc body c =
      if (c.method? name desc).isSome then (.ok false, c)
      else match body c (kind ++ " " ++ c.name ++ "." ++ name ++ desc) with
        | .error e => (.error e, c)
        | .ok insns => (.ok true, (c.addMethod (Synthesis.method name desc insns)).2) := by
  unfold addSynthesized
  rw [run_bind]
  show (if (c.method? name desc).isSome = true then _ else _ : Editing Bool) c = _
  split
  · rfl
  · rw [run_bind]
    cases body c (kind ++ " " ++ c.name ++ "." ++ name ++ desc) <;> rfl

def Synthesizes (ctx : EditContext) (e : Edit) (name desc : String) : Prop :=
  ∃ kind body, apply ctx e = addSynthesized kind name desc body ∧
    ∀ c context, NeverMissing (body c context)

theorem synthesizes_getter (ctx : EditContext) (name desc : String) (field : MemberRef)
    (isStatic : Bool) (factor : Option Int64) :
    Synthesizes ctx (.addGetter name desc field isStatic factor) name desc :=
  ⟨"getter", _, rfl, fun _ context => neverMissing_getterBody context desc field isStatic factor⟩

theorem synthesizes_setter (ctx : EditContext) (name desc : String) (field : MemberRef)
    (isStatic : Bool) (factor : Option Int64) :
    Synthesizes ctx (.addSetter name desc field isStatic factor) name desc :=
  ⟨"setter", _, rfl, fun _ context => neverMissing_setterBody context desc field isStatic factor⟩

theorem synthesizes_invoker (ctx : EditContext) (name desc : String) (target : MemberRef)
    (dummy : Option Int64) : Synthesizes ctx (.addInvoker name desc target dummy) name desc :=
  ⟨"invoker", _, rfl, fun c context =>
    neverMissing_invokerBody context c ctx.hierarchy desc target dummy⟩

def Idle (ctx : EditContext) (e : Edit) (c : ClassFile) : Prop :=
  (e.apply ctx).run c = (.ok false, c) ∨
    ∃ source, (e.apply ctx).run c = (.error (.missingSource source), c)

theorem Synthesizes.idle {ctx : EditContext} {e : Edit} {name desc : String}
    (h : Synthesizes ctx e name desc) (taken : (c.method? name desc).isSome = true) :
    (e.apply ctx).run c = (.ok false, c) := by
  obtain ⟨kind, body, same, _⟩ := h
  rw [same]
  exact (addSynthesized_run kind name desc body c).trans (if_pos taken)

theorem copyPending_succ (source : ClassFile) (r : Renaming) (fuel next : Nat)
    (pending : List (String × String)) (changed : Bool) (c : ClassFile) :
    copyPending source r (fuel + 1) next pending changed c =
      match pending[next]? with
      | none => (.ok changed, c)
      | some (name, desc) =>
        match source.method? name desc with
        | none => (.error (.missingMethod ⟨source.name, name, desc⟩), c)
        | some m =>
          if (c.method? name (r.desc desc)).isSome then
            copyPending source r fuel (next + 1) (addUnseen pending (lambdaBodies source m))
              changed c
          else
            copyPending source r fuel (next + 1) (addUnseen pending (lambdaBodies source m))
              (changed || (c.addMethod (r.rehome m)).1) (c.addMethod (r.rehome m)).2 := by
  rw [copyPending]
  cases pending[next]? with
  | none => rfl
  | some signature =>
    obtain ⟨name, desc⟩ := signature
    dsimp only
    cases source.method? name desc with
    | none => rfl
    | some m =>
      dsimp only
      rw [run_bind]
      show (if (c.method? name (r.desc desc)).isSome = true then _ else _ : Editing Bool) c = _
      split
      · rfl
      · rw [run_bind]
        rfl

theorem copyPending_of_covered {source : ClassFile} {r : Renaming} {fuel next : Nat}
    {pending : List (String × String)} (h : Covered source r c fuel next pending)
    (changed : Bool) : copyPending source r fuel next pending changed c = (.ok changed, c) := by
  induction fuel generalizing next pending with
  | zero => rfl
  | succ fuel ih =>
    rw [Covered] at h
    rw [copyPending_succ]
    split
    · rfl
    · rename_i name desc waiting
      rw [waiting] at h
      dsimp only at h
      split
      · rename_i absent
        rw [absent] at h
        cases h
      · rename_i m found
        rw [found] at h
        rw [if_pos h.1]
        exact ih h.2

theorem method?_signature {c : ClassFile} {name desc : String} {m : Method}
    (found : c.method? name desc = some m) :
    m.name = name ∧ m.desc = desc := by
  have same := List.find?_some found
  rw [Method.hasSignature, Bool.and_eq_true, beq_iff_eq, beq_iff_eq] at same
  exact same

theorem covered_of_copyPending {source : ClassFile} {r : Renaming} {fuel next : Nat}
    {pending : List (String × String)} {changed : Bool}
    (run : copyPending source r fuel next pending changed c = (.ok now, c')) :
    c.Extends c' ∧ Covered source r c' fuel next pending ∧
      (now = false → c' = c ∧ changed = false) := by
  induction fuel generalizing next pending changed c with
  | zero =>
    cases run
    exact ⟨.refl _, trivial, fun same => ⟨rfl, same⟩⟩
  | succ fuel ih =>
    rw [copyPending_succ] at run
    rw [Covered]
    cases waiting : pending[next]? with
    | none =>
      rw [waiting] at run
      cases run
      exact ⟨.refl _, trivial, fun same => ⟨rfl, same⟩⟩
    | some signature =>
      obtain ⟨name, desc⟩ := signature
      rw [waiting] at run
      dsimp only at run ⊢
      cases found : source.method? name desc with
      | none =>
        rw [found] at run
        cases run
      | some m =>
        rw [found] at run
        dsimp only at run ⊢
        split at run
        · rename_i taken
          obtain ⟨grown, covered, kept⟩ := ih run
          exact ⟨grown, ⟨grown.methods _ _ taken, covered⟩, kept⟩
        · rename_i free
          obtain ⟨rfl, rfl⟩ := method?_signature found
          obtain ⟨grown, covered, kept⟩ := ih run
          refine ⟨(ClassFile.Extends.addMethod c _).trans grown,
            ⟨grown.methods _ _ (method?_addMethod c (r.rehome m)), covered⟩, fun same => ?_⟩
          have unchanged := (kept same).2
          rw [addMethod_fst free, Bool.or_true] at unchanged
          cases unchanged

theorem applyCopy_run (ctx : EditContext) (source : MemberRef) (name : String) (c : ClassFile) :
    applyCopy ctx source name c =
      if (c.method? name source.desc).isSome then (.ok false, c)
      else match copySource ctx c source.owner with
        | .error e => (.error e, c)
        | .ok owner => match owner.method? source.name source.desc with
          | none => (.error (.missingMethod source), c)
          | some m =>
            let copy := (Renaming.empty.redirectMethod source c.name name).rehome m
            let access := (copy.access.remove (Access.privateBit ||| Access.protectedBit)).add
              Access.publicBit
            Editing.addMethod { copy with name := name, access := access } c := by
  unfold applyCopy
  rw [run_bind]
  show (if (c.method? name source.desc).isSome = true then _ else _ : Editing Bool) c = _
  split
  · rfl
  · rw [run_bind]
    cases copySource ctx c source.owner with
    | error e => rfl
    | ok owner =>
      rw [show Editing.ofExcept (.ok owner) c = (.ok owner, c) from rfl]
      dsimp only
      cases owner.method? source.name source.desc <;> rfl

theorem addField_run (ctx : EditContext) (access : Access) (name desc : String) (c : ClassFile) :
    (apply ctx (.addField access name desc)).run c =
      match c.addField ⟨access, name, desc, []⟩ with
      | .error e => (.error e, c)
      | .ok (added, c') => (.ok added, c') := by
  show ((do
    let c ← get
    let made ← Editing.ofExcept (c.addField ⟨access, name, desc, []⟩)
    set made.2
    return made.1) : Editing Bool) c = _
  rw [run_bind]
  show (Editing.ofExcept (c.addField ⟨access, name, desc, []⟩) >>= _ : Editing Bool) c = _
  rw [run_bind]
  cases c.addField ⟨access, name, desc, []⟩ <;> rfl

theorem run_of_present {ctx : EditContext} {e : Edit} {names : List String}
    (h : e.Present names c) (elsewhere : ∀ source name, e ≠ .copyMethod source name) :
    (e.apply ctx).run c = (.ok false, c) := by
  cases e with
  | addInterface name =>
    show (Except.ok (c.addInterface name).1, (c.addInterface name).2) = _
    rw [ClassFile.addInterface, if_pos (List.contains_iff_mem.2 h)]
  | addField access name desc =>
    obtain ⟨f, found, same⟩ := h
    rw [addField_run, ClassFile.addField, found]
    dsimp only
    rw [if_pos same]
  | addGetter name desc field isStatic factor => exact (synthesizes_getter ..).idle h
  | addSetter name desc field isStatic factor => exact (synthesizes_setter ..).idle h
  | addInvoker name desc target dummy => exact (synthesizes_invoker ..).idle h
  | addMethods source methods r => exact copyPending_of_covered h false
  | copyMethod source name => exact absurd rfl (elsewhere source name)
  | injectCallback cb => exact h.elim
  | replaceMethod name desc delegate invoke => exact h.elim
  | appletToPanel legacy component engine => exact h.elim

theorem idle_of_present {ctx : EditContext} {e : Edit} (h : e.Present ctx.batch.names c) :
    e.Idle ctx c := by
  by_cases elsewhere : ∀ source name, e ≠ .copyMethod source name
  · exact .inl (run_of_present h elsewhere)
  · obtain ⟨source, name, rfl⟩ : ∃ source name, e = .copyMethod source name := by
      simpa using elsewhere
    have run : (apply ctx (.copyMethod source name)).run c = applyCopy ctx source name c := rfl
    rw [Idle, run, applyCopy_run]
    by_cases taken : (c.method? name source.desc).isSome = true
    · exact .inl (if_pos taken)
    · obtain ⟨other, absent⟩ := h.resolve_left taken
      right
      rw [if_neg taken, copySource, if_neg other, Batch.get?_eq_none.2 absent]
      exact ⟨source.owner, rfl⟩

/-- What an edit that adds makes of a class: a larger one, with what it adds in place. -/
structure Added (names : List String) (e : Edit) (c c' : ClassFile) (now : Bool) : Prop where
  grown : c.Extends c'
  present : e.Present names c'
  kept : now = false → c' = c

theorem Synthesizes.added {ctx : EditContext} {e : Edit} {name desc : String}
    (h : Synthesizes ctx e name desc) (run : (e.apply ctx).run c = (.ok now, c')) :
    c.Extends c' ∧ (c'.method? name desc).isSome = true ∧ (now = false → c' = c) := by
  obtain ⟨kind, body, same, _⟩ := h
  rw [same] at run
  replace run := (addSynthesized_run kind name desc body c).symm.trans run
  split at run
  · rename_i taken
    cases run
    exact ⟨.refl _, taken, fun _ => rfl⟩
  · split at run
    · cases run
    · cases run
      exact ⟨.addMethod c _, method?_addMethod c _, fun h => nomatch h⟩

theorem Synthesizes.not_missing {ctx : EditContext} {e : Edit} {name desc source : String}
    (h : Synthesizes ctx e name desc) :
    (e.apply ctx).run c ≠ (.error (.missingSource source), c') := by
  intro run
  obtain ⟨kind, body, same, never⟩ := h
  rw [same] at run
  replace run := (addSynthesized_run kind name desc body c).symm.trans run
  split at run
  · cases run
  · split at run
    · rename_i error
      cases run
      exact never _ _ _ error
    · cases run

theorem grown_applyCopy {ctx : EditContext} {source : MemberRef} {name : String}
    (run : applyCopy ctx source name c = (.ok now, c')) :
    c.Extends c' ∧ (c'.method? name source.desc).isSome = true ∧ (now = false → c' = c) := by
  rw [applyCopy_run] at run
  split at run
  · rename_i taken
    cases run
    exact ⟨.refl _, taken, fun _ => rfl⟩
  · rename_i free
    split at run
    · cases run
    · split at run
      · cases run
      · rename_i m found
        have desc : (Renaming.empty.redirectMethod source c.name name).desc m.desc =
            source.desc := by
          rw [Renaming.desc_eq_self rfl, (method?_signature found).2]
        dsimp only [Renaming.rehome] at run
        rw [desc] at run
        cases run
        refine ⟨.addMethod c _, method?_addMethod c _, ?_⟩
        exact fun same => Bool.noConfusion ((addMethod_fst (m := _) free).symm.trans same)

theorem added_of_run {ctx : EditContext} {e : Edit} (additive : e.Additive)
    (run : (e.apply ctx).run c = (.ok now, c')) : e.Added ctx.batch.names c c' now := by
  cases e with
  | addInterface name =>
    replace run : (Except.ok (c.addInterface name).1, (c.addInterface name).2) =
      ((.ok now, c') : Except EditError Bool × ClassFile) := run
    cases run
    exact ⟨.addInterface c name, mem_addInterface c name, addInterface_eq_self⟩
  | addField access name desc =>
    rw [addField_run] at run
    split at run
    · cases run
    · rename_i added next made
      cases run
      exact ⟨.addField made, (field?_addField made).1, (field?_addField made).2⟩
  | addGetter name desc field isStatic factor =>
    obtain ⟨grown, present, kept⟩ :=
      (synthesizes_getter ctx name desc field isStatic factor).added run
    exact ⟨grown, present, kept⟩
  | addSetter name desc field isStatic factor =>
    obtain ⟨grown, present, kept⟩ :=
      (synthesizes_setter ctx name desc field isStatic factor).added run
    exact ⟨grown, present, kept⟩
  | addInvoker name desc target dummy =>
    obtain ⟨grown, present, kept⟩ := (synthesizes_invoker ctx name desc target dummy).added run
    exact ⟨grown, present, kept⟩
  | addMethods source methods r =>
    obtain ⟨grown, covered, kept⟩ := covered_of_copyPending run
    exact ⟨grown, covered, fun same => (kept same).1⟩
  | copyMethod source name =>
    obtain ⟨grown, taken, kept⟩ := grown_applyCopy run
    exact ⟨grown, .inl taken, kept⟩
  | injectCallback cb => exact additive.elim
  | replaceMethod name desc delegate invoke => exact additive.elim
  | appletToPanel legacy component engine => exact additive.elim

theorem copyPending_not_missing {source : ClassFile} {r : Renaming} {fuel next : Nat}
    {pending : List (String × String)} {changed : Bool} {missing : String} :
    copyPending source r fuel next pending changed c ≠ (.error (.missingSource missing), c') := by
  intro run
  induction fuel generalizing next pending changed c with
  | zero => cases run
  | succ fuel ih =>
    rw [copyPending_succ] at run
    split at run
    · cases run
    · split at run
      · cases run
      · split at run
        · exact ih run
        · exact ih run

theorem present_of_missing {ctx : EditContext} {e : Edit} {missing : String} (additive : e.Additive)
    (run : (e.apply ctx).run c = (.error (.missingSource missing), c')) :
    c' = c ∧ e.Present ctx.batch.names c := by
  cases e with
  | addInterface name =>
    replace run : (Except.ok (c.addInterface name).1, (c.addInterface name).2) =
      ((.error (.missingSource missing), c') : Except EditError Bool × ClassFile) := run
    cases run
  | addField access name desc =>
    rw [addField_run, ClassFile.addField] at run
    split at run
    · rename_i e failed
      split at failed
      · split at failed
        · cases failed
        · cases failed
          cases run
      · cases failed
    · cases run
  | addGetter name desc field isStatic factor =>
    exact ((synthesizes_getter ctx name desc field isStatic factor).not_missing run).elim
  | addSetter name desc field isStatic factor =>
    exact ((synthesizes_setter ctx name desc field isStatic factor).not_missing run).elim
  | addInvoker name desc target dummy =>
    exact ((synthesizes_invoker ctx name desc target dummy).not_missing run).elim
  | addMethods source methods r => exact (copyPending_not_missing run).elim
  | copyMethod source name =>
    replace run : applyCopy ctx source name c = (.error (.missingSource missing), c') := run
    rw [applyCopy_run] at run
    split at run
    · cases run
    · split at run
      · rename_i e failed
        cases run
        refine ⟨rfl, .inr ?_⟩
        unfold copySource at failed
        split at failed
        · cases failed
        · rename_i other
          split at failed
          · exact (NeverMissing.orBadFormat _ _ failed).elim
          · rename_i absent
            exact ⟨other, Batch.get?_eq_none.1 absent⟩
      · split at run
        · cases run
        · cases run
  | injectCallback cb => exact additive.elim
  | replaceMethod name desc delegate invoke => exact additive.elim
  | appletToPanel legacy component engine => exact additive.elim

end Edit

end ClassWeave
