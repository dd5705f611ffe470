import Mathlib.Data.List.Forall2
import Mathlib.Tactic.Common
import ClassWeave.Proofs.Callbacks
import ClassWeave.Proofs.Copies

/-!
# What an edit makes of methods

An edit leaves the methods of a class in their places and puts those that it brings behind them. It
turns the body of a method into another one only if it is a callback that goes there, which keeps
what the body does, or a delegate that takes it over. So what an edit does to one method is not
undone by an edit that goes to others.
-/

set_option autoImplicit false

namespace ClassWeave

namespace Code

/-- The calls of `c` are in `c'`, which has no return unless `c` has one. -/
structure KeptIn (c c' : Code) : Prop where
  calls : ∀ op callee ofInterface, .method op callee ofInterface ∈ c.insns →
    c'.hasCallOf callee = true
  returns : c.returns = [] → c'.returns = []

variable {c c' : Code}

theorem KeptIn.refl (c : Code) : c.KeptIn c where
  calls op _ ofInterface mem := hasCallOf_iff.2 ⟨op, ofInterface, mem⟩
  returns none := none

theorem KeptIn.hasCallOf {callee : MemberRef} (kept : c.KeptIn c')
    (called : c.hasCallOf callee = true) : c'.hasCallOf callee = true := by
  obtain ⟨op, ofInterface, mem⟩ := hasCallOf_iff.1 called
  exact kept.calls op callee ofInterface mem

theorem keptIn_spliceAt {insns : List Insn} (passing : ∀ i ∈ insns, i.isReturn = false)
    (placement : Placement) : c.KeptIn (c.spliceAt placement insns) where
  calls op _ ofInterface mem :=
    hasCallOf_iff.2 ⟨op, ofInterface, mem_spliceAt.2 (.inl mem)⟩
  returns none := by
    refine returns_eq_nil.2 fun op mem => ?_
    rcases mem_spliceAt.1 mem with mem | ⟨mem, _⟩
    · exact returns_eq_nil.1 none op mem
    · exact passing _ mem

end Code

theorem Method.outline_eq_iff {m m' : Method} : m'.outline = m.outline ↔
    (m'.name = m.name ∧ m'.desc = m.desc) ∧ m'.isStatic = m.isStatic := by
  simp [outline]

structure Method.KeptIn (m m' : Method) : Prop where
  outline : m'.outline = m.outline
  code : ∀ code ∈ m.code, ∃ code' ∈ m'.code, code.KeptIn code'

theorem Method.KeptIn.refl (m : Method) : m.KeptIn m where
  outline := rfl
  code code body := ⟨code, body, .refl code⟩

def Callback.Selects (cb : Callback) (name desc : String) : Prop :=
  match cb.target with
  | .method name' desc' => name = name' ∧ desc = desc'
  | .constructors => name = "<init>"

instance : ∀ (cb : Callback) (name desc : String), Decidable (cb.Selects name desc)
  | ⟨.method name' desc', _, _, _, _⟩, name, desc =>
    inferInstanceAs (Decidable (name = name' ∧ desc = desc'))
  | ⟨.constructors, _, _, _, _⟩, name, _ => inferInstanceAs (Decidable (name = "<init>"))

theorem Edit.Targets.selects {cb : Callback} {c : ClassFile} {m : Method}
    (target : Targets cb c m) : cb.Selects m.name m.desc := by
  unfold Targets at target
  unfold Callback.Selects
  cases goes : cb.target with
  | method name desc =>
    rw [goes] at target
    exact method?_signature target
  | constructors =>
    rw [goes] at target
    exact target.2

/-- The methods of `c` have become those in their places of `c'`, each as `R` tells, and what stands
behind them is `New`. -/
structure ClassFile.Follows (R : Method → Method → Prop) (New : Method → Prop) (c c' : ClassFile) :
    Prop where
  name : c'.name = c.name
  methods : ∃ kept more, c'.methods = kept ++ more ∧ List.Forall₂ R c.methods kept ∧
    ∀ m ∈ more, New m

namespace ClassFile.Follows

variable {R : Method → Method → Prop} {New : Method → Prop} {c c' c'' : ClassFile}

theorem of_append {more : List Method} (name : c'.name = c.name)
    (methods : c'.methods = c.methods ++ more) (new : ∀ m ∈ more, New m) :
    c.Follows Eq New c' :=
  ⟨name, _, more, methods, List.forall₂_eq_eq_eq ▸ rfl, new⟩

theorem of_same (name : c'.name = c.name) (methods : c'.methods = c.methods) :
    c.Follows Eq New c' :=
  .of_append name (methods.trans (List.append_nil _).symm) (List.forall_mem_nil _)

theorem append (first : c.Follows Eq New c') (second : c'.Follows Eq New c'') :
    c.Follows Eq New c'' := by
  obtain ⟨name, kept, more, methods, same, new⟩ := first
  obtain ⟨name', kept', more', methods', same', new'⟩ := second
  obtain rfl : c.methods = kept := List.forall₂_eq_eq_eq ▸ same
  obtain rfl : c'.methods = kept' := List.forall₂_eq_eq_eq ▸ same'
  have all : c''.methods = c.methods ++ (more ++ more') := by
    rw [methods', methods, List.append_assoc]
  exact .of_append (name'.trans name) all (List.forall_mem_append.2 ⟨new, new'⟩)

theorem addMethod (c : ClassFile) {m : Method} (new : New m) :
    c.Follows Eq New (c.addMethod m).2 := by
  unfold ClassFile.addMethod
  split
  · exact .of_same rfl rfl
  · exact .of_append rfl rfl (List.forall_mem_singleton.2 new)

theorem mono {R' : Method → Method → Prop} {New' : Method → Prop} (follows : c.Follows R New c')
    (related : ∀ m m', R m m' → R' m m') (new : ∀ m, New m → New' m) : c.Follows R' New' c' := by
  obtain ⟨name, kept, more, methods, each, behind⟩ := follows
  exact ⟨name, kept, more, methods, each.imp related, fun m mem => new m (behind m mem)⟩

section

variable (heads : ∀ m m', R m m' → m'.outline = m.outline)

include heads

theorem method? (follows : c.Follows R New c') {name desc : String} {m : Method}
    (found : c.method? name desc = some m) : ∃ m', c'.method? name desc = some m' ∧ R m m' := by
  obtain ⟨_, kept, more, methods, each, _⟩ := follows
  suffices ∃ m', kept.find? (Method.hasSignature name desc) = some m' ∧ R m m' by
    obtain ⟨m', found', related⟩ := this
    refine ⟨m', ?_, related⟩
    rw [ClassFile.method?, methods, List.find?_append, found']
    rfl
  rw [ClassFile.method?] at found
  generalize c.methods = ms at found each
  clear methods
  induction each with
  | nil => cases found
  | @cons a a' as as' related rest ih =>
    obtain ⟨⟨sameName, sameDesc⟩, _⟩ := Method.outline_eq_iff.1 (heads a a' related)
    have same : a'.hasSignature name desc = a.hasSignature name desc := by
      rw [Method.hasSignature, Method.hasSignature, sameName, sameDesc]
    cases here : a.hasSignature name desc with
    | true =>
      rw [List.find?_cons_of_pos here] at found
      cases found
      exact ⟨a', List.find?_cons_of_pos (same.trans here), related⟩
    | false =>
      rw [List.find?_cons_of_neg (by simp [here])] at found
      obtain ⟨m', found', related'⟩ := ih found
      exact ⟨m', (List.find?_cons_of_neg (by simp [same, here])).trans found', related'⟩

end

end ClassFile.Follows

namespace Edit

def Brings (e : Edit) (name : String) : Prop :=
  match e with
  | .addGetter method _ _ _ _ | .addSetter method _ _ _ _ | .addInvoker method _ _ _
  | .copyMethod _ method => method = name
  | .addMethods source methods _ => name ∈ methods.map Prod.fst ∨
      ∃ m ∈ source.methods, m.name = name ∧ m.access.has Access.syntheticBit = true
  | _ => False

instance : ∀ (e : Edit) (name : String), Decidable (e.Brings name)
  | .addGetter method _ _ _ _, name | .addSetter method _ _ _ _, name
  | .addInvoker method _ _ _, name | .copyMethod _ method, name =>
    inferInstanceAs (Decidable (method = name))
  | .addMethods source methods _, name => inferInstanceAs (Decidable (name ∈ methods.map Prod.fst ∨
      ∃ m ∈ source.methods, m.name = name ∧ m.access.has Access.syntheticBit = true))
  | .addInterface _, _ | .addField _ _ _, _ | .injectCallback _, _ | .replaceMethod _ _ _ _, _
  | .appletToPanel _ _ _, _ => isFalse id

def Turns (e : Edit) (m m' : Method) : Prop :=
  m = m' ∨ match e with
    | .injectCallback cb => cb.Selects m.name m.desc ∧ m.KeptIn m'
    | .replaceMethod name desc _ _ => (m.name = name ∧ m.desc = desc) ∧ m'.outline = m.outline
    | _ => False

variable {ctx : EditContext} {e : Edit} {c c' : ClassFile} {m m' : Method} {now : Bool}

theorem Turns.outline (turns : e.Turns m m') : m'.outline = m.outline := by
  rcases turns with rfl | turned
  · rfl
  · cases e with
    | injectCallback cb => exact turned.2.outline
    | replaceMethod name desc delegate invoke => exact turned.2
    | _ => exact turned.elim

theorem Synthesizes.follows {name desc : String} (h : Synthesizes ctx e name desc)
    (run : (e.apply ctx).run c = (.ok now, c')) : c.Follows Eq (fun m => name = m.name) c' := by
  obtain ⟨kind, body, same, _⟩ := h
  rw [same] at run
  replace run := (addSynthesized_run kind name desc body c).symm.trans run
  split at run
  · cases run
    exact .of_same rfl rfl
  · split at run
    · cases run
    · cases run
      exact .addMethod c rfl

theorem follows_foldl_bring {source : ClassFile} {r : Renaming} {New : Method → Prop}
    (all : List (String × String)) (c : ClassFile)
    (new : ∀ s ∈ all, ∀ m, source.method? s.1 s.2 = some m → New (r.rehome m)) :
    c.Follows Eq New (all.foldl (bring source r) c) := by
  induction all generalizing c with
  | nil => exact .of_same rfl rfl
  | cons s rest ih =>
    obtain ⟨first, others⟩ := List.forall_mem_cons.1 new
    refine .append ?_ (ih (bring source r c s) others)
    unfold bring
    cases found : source.method? s.1 s.2 with
    | none => exact .of_same rfl rfl
    | some m => exact .addMethod c (first m found)

theorem follows_applyCopy {source : MemberRef} {name : String}
    (run : applyCopy ctx source name c = (.ok now, c')) :
    c.Follows Eq (fun m => name = m.name) c' := by
  rw [applyCopy_run] at run
  split at run
  · cases run
    exact .of_same rfl rfl
  · split at run
    · cases run
    · split at run
      · cases run
      · cases run
        exact .addMethod c rfl

theorem named_of_brought {source : ClassFile} {methods : List (String × String)}
    {s : String × String} (brought : Brought source methods s) : s.1 ∈ methods.map Prod.fst ∨
      ∃ m ∈ source.methods, m.name = s.1 ∧ m.access.has Access.syntheticBit = true := by
  cases brought with
  | asked mem => exact .inl (List.mem_map_of_mem mem)
  | along _ _ points =>
    obtain ⟨h, lambda, _, of, rfl⟩ := points
    exact .inr ⟨lambda, List.mem_of_find?_eq_some of.found, rfl, of.synthetic⟩

theorem follows_of_additive (additive : e.Additive)
    (run : (e.apply ctx).run c = (.ok now, c')) :
    c.Follows Eq (fun m => e.Brings m.name) c' := by
  cases e with
  | addInterface name =>
    replace run : (Except.ok (c.addInterface name).1, (c.addInterface name).2) =
      ((.ok now, c') : Except EditError Bool × ClassFile) := run
    cases run
    unfold ClassFile.addInterface
    split <;> exact .of_same rfl rfl
  | addField access name desc =>
    rw [addField_run] at run
    split at run
    · cases run
    · rename_i made
      cases run
      unfold ClassFile.addField at made
      split at made
      · split at made
        · cases made
          exact .of_same rfl rfl
        · cases made
      · cases made
        exact .of_same rfl rfl
  | addGetter name desc field isStatic factor => exact (synthesizes_getter ..).follows run
  | addSetter name desc field isStatic factor => exact (synthesizes_setter ..).follows run
  | addInvoker name desc target dummy => exact (synthesizes_invoker ..).follows run
  | addMethods source methods r =>
    obtain ⟨all, brought, _, rfl, _⟩ := copied_of_run run
    refine follows_foldl_bring all c fun s mem m found => ?_
    rw [Renaming.rehome, (method?_signature found).1]
    exact named_of_brought ((brought s).1 mem)
  | copyMethod source name => exact follows_applyCopy run
  | injectCallback cb => exact additive.elim
  | replaceMethod name desc delegate invoke => exact additive.elim
  | appletToPanel legacy component engine => exact additive.elim

section Bodies

variable {cb : Callback} {callback : MethodDescriptor} {owner : String}

theorem keptIn_splicedInto {outcome : CallbackOutcome}
    (made : spliceMethod cb callback owner m = .ok outcome) :
    m.KeptIn (splicedInto cb callback owner m) := by
  obtain ⟨code, body, outcomes⟩ := spliceMethod_cases made
  cases outcome with
  | present =>
    rw [splicedInto_eq_self made rfl]
    exact .refl m
  | skipped =>
    rw [splicedInto_eq_self made rfl]
    exact .refl m
  | spliced code' =>
    obtain ⟨_, _, _, _, _, _, found, rfl⟩ := outcomes
    rw [splicedInto_eq made]
    refine ⟨rfl, fun code₀ body₀ => ⟨_, rfl, ?_⟩⟩
    cases body.symm.trans body₀
    exact Code.keptIn_spliceAt (isReturn_callbackInsns found) cb.placement

theorem follows_applyCallback {New : Method → Prop} (run : applyCallback cb c = (.ok now, c')) :
    c.Follows (Edit.injectCallback cb).Turns New c' := by
  obtain ⟨sites, callback, located, _, spliced⟩ := applyCallback_ok_iff.1 run
  obtain ⟨all, _, _⟩ := splicedAll_of_run (nodup_callbackSites located) spliced
  have length : c.methods.length = c'.methods.length := by
    simpa using congrArg List.length all.signatures.symm
  refine ⟨all.name, _, [], (List.append_nil _).symm, ?_, List.forall_mem_nil _⟩
  refine List.forall₂_iff_get.2 ⟨length, fun i inside inside' => ?_⟩
  have found := List.getElem?_eq_getElem inside
  have found' := List.getElem?_eq_getElem inside'
  by_cases mem : i ∈ sites
  · rw [all.found mem found] at found'
    obtain ⟨outcome, here⟩ := all.answered i mem
    rw [outcomeAt_eq found] at here
    rw [List.get_eq_getElem, List.get_eq_getElem, ← Option.some.inj found']
    have target : Targets cb c c.methods[i] := (targets_iff located).2 ⟨i, mem, found⟩
    exact .inr ⟨target.selects, keptIn_splicedInto here⟩
  · rw [all.method, if_neg mem, found] at found'
    exact .inl (Option.some.inj found')

theorem forall₂_update {R : Method → Method → Prop} (refl : ∀ m, R m m) {name desc : String}
    {f : Method → Method} (turned : ∀ m, m.hasSignature name desc = true → R m (f m))
    (methods : List Method) :
    List.Forall₂ R methods (ClassFile.updateMethod.update name desc f methods) := by
  induction methods with
  | nil => exact .nil
  | cons m rest ih =>
    rw [ClassFile.updateMethod.update]
    split
    · rename_i here
      exact .cons (turned m here) (List.forall₂_same.2 fun m _ => refl m)
    · exact .cons (refl m) ih

theorem follows_applyDelegate {New : Method → Prop} {name desc : String} {delegate : MemberRef}
    {invoke : Opcode} (run : applyDelegate name desc delegate invoke c = (.ok now, c')) :
    c.Follows (Edit.replaceMethod name desc delegate invoke).Turns New c' := by
  obtain ⟨m, hooked, insns, found, _, _, replaced⟩ := applyDelegate_ok_iff.1 run
  rw [ClassFile.replaceBody, found] at replaced
  dsimp only at replaced
  split at replaced
  · cases replaced
    exact (ClassFile.Follows.of_same rfl rfl).mono (fun _ _ => .inl) fun _ => id
  · cases replaced
    refine ⟨rfl, _, [], (List.append_nil _).symm, ?_, List.forall_mem_nil _⟩
    refine forall₂_update (fun m => .inl rfl) (fun m here => .inr ⟨?_, ?_⟩) _
    · simpa [Method.hasSignature] using here
    · exact Method.outline_eq_iff.2 ⟨⟨rfl, rfl⟩, Access.isStatic_remove _⟩

end Bodies

/-- What a step of the chain makes of a class: of the methods that are there what the edit may turn
them into, and behind them others of the names that it may bring. -/
theorem follows_of_run (leaves : e.LeavesMembers) (run : (e.apply ctx).run c = (.ok now, c')) :
    c.Follows e.Turns (fun m => e.Brings m.name) c' := by
  cases e with
  | injectCallback cb => exact follows_applyCallback run
  | replaceMethod name desc delegate invoke => exact follows_applyDelegate run
  | appletToPanel legacy component engine => exact leaves.elim
  | _ =>
    refine ClassFile.Follows.mono (follows_of_additive ?_ run) (fun _ _ => .inl) fun _ => id
    trivial

end Edit

end ClassWeave
