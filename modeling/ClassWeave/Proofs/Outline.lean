import Mathlib.Data.List.Infix
import Mathlib.Tactic.Common
import ClassWeave.Proofs.Injection
import ClassWeave.Proofs.Preserved

/-!
# The methods of a class

The outline of a class lists its methods without their bodies. Edits put methods behind those that
are there and leave these in place, but for the entry point, which renames descriptors; a class that
is written without loss is read with the outline that it had. So the first method of a signature
stays that through all passes behind the first one.
-/

set_option autoImplicit false

namespace ClassWeave

def Method.outline (m : Method) : (String × String) × Bool := ((m.name, m.desc), m.isStatic)

namespace ClassFile

def outline (c : ClassFile) : List ((String × String) × Bool) := c.methods.map Method.outline

variable {c c' : ClassFile}

theorem lookup_outline (c : ClassFile) (name desc : String) :
    c.outline.lookup (name, desc) = (c.method? name desc).map Method.isStatic := by
  rw [outline, method?]
  induction c.methods with
  | nil => rfl
  | cons m ms ih =>
    have key : ((name, desc) == (m.name, m.desc)) = m.hasSignature name desc := by
      show (name == m.name && desc == m.desc) = (m.name == name && m.desc == desc)
      rw [BEq.comm (a := name), BEq.comm (a := desc)]
    rw [List.map_cons, Method.outline, List.lookup_cons, key, List.find?_cons, ih]
    cases m.hasSignature name desc <;> rfl

theorem lookup_outline_eq_some_iff {name desc : String} {static : Bool} :
    c.outline.lookup (name, desc) = some static ↔
      ∃ m, c.method? name desc = some m ∧ m.isStatic = static := by
  rw [lookup_outline, Option.map_eq_some_iff]

theorem lookup_of_prefix {name desc : String} {static : Bool} (grown : c.outline <+: c'.outline)
    (found : c.outline.lookup (name, desc) = some static) :
    c'.outline.lookup (name, desc) = some static := by
  obtain ⟨more, whole⟩ := grown
  rw [← whole, List.lookup_append, found]
  rfl

theorem outline_addMethod (c : ClassFile) (m : Method) :
    (c.addMethod m).2.outline = c.outline ∨
      (c.addMethod m).2.outline = c.outline ++ [m.outline] := by
  unfold addMethod
  split
  · exact .inl rfl
  · exact .inr List.map_append

theorem outline_addInterface (c : ClassFile) (name : String) :
    (c.addInterface name).2.outline = c.outline := by
  unfold addInterface
  split <;> rfl

theorem outline_addField {f : Field} {added : Bool} (run : c.addField f = .ok (added, c')) :
    c'.outline = c.outline := by
  unfold addField at run
  split at run
  · split at run
    · cases run
      rfl
    · cases run
  · cases run
    rfl

theorem bodyFrame_outline : BodyFrame fun c c' => c'.outline = c.outline where
  refl _ := rfl
  trans first second := second.trans first
  bodies {c methods} same := by
    have outlines := congrArg (List.map fun head => ((head.1, head.2.1), head.2.2.2)) same
    rwa [List.map_map, List.map_map] at outlines

theorem editFrame_outline : EditFrame fun c c' => c.outline <+: c'.outline where
  refl _ := List.prefix_rfl
  trans := List.IsPrefix.trans
  bodies same := (bodyFrame_outline.bodies same) ▸ List.prefix_rfl
  addInterface c name := outline_addInterface c name ▸ List.prefix_rfl
  addField run := outline_addField run ▸ List.prefix_rfl
  addMethod c m _ := by
    rcases outline_addMethod c m with same | more
    · exact same ▸ List.prefix_rfl
    · exact more ▸ List.prefix_append _ _

theorem mem_outline_addMethod {m : Method} {o : (String × String) × Bool}
    (mem : o ∈ (c.addMethod m).2.outline) : o ∈ c.outline ∨ o = m.outline := by
  rcases outline_addMethod c m with same | more
  · exact .inl (same ▸ mem)
  · rw [more] at mem
    exact (List.mem_append.1 mem).imp_right List.mem_singleton.1

end ClassFile

namespace Edit

def LeavesMembers : Edit → Prop
  | .appletToPanel _ _ _ => False
  | _ => True

def Provides (e : Edit) (o : (String × String) × Bool) : Prop :=
  match e with
  | .addGetter name desc _ _ _ | .addSetter name desc _ _ _ | .addInvoker name desc _ _ =>
    o = (Synthesis.method name desc []).outline
  | .addMethods source _ r =>
    ∃ name desc m, source.method? name desc = some m ∧ o = (r.rehome m).outline
  | .copyMethod source name => o.1 = (name, source.desc)
  | _ => False

variable {ctx : EditContext} {e : Edit} {c c' : ClassFile} {now : Bool}
  {o : (String × String) × Bool}

theorem grown_apply (leaves : e.LeavesMembers) :
    c.outline <+: ((e.apply ctx).run c).2.outline := by
  apply keeping_apply ClassFile.editFrame_outline ctx e
  rintro legacy component engine rfl
  exact leaves.elim

theorem Synthesizes.provided {name desc : String} (h : Synthesizes ctx e name desc)
    (mem : o ∈ ((e.apply ctx).run c).2.outline) :
    o ∈ c.outline ∨ o = (Synthesis.method name desc []).outline := by
  obtain ⟨kind, body, same, _⟩ := h
  rw [same] at mem
  replace mem : o ∈ (addSynthesized kind name desc body c).2.outline := mem
  rw [addSynthesized_run] at mem
  split at mem
  · exact .inl mem
  · split at mem
    · exact .inl mem
    · rename_i insns _
      exact ClassFile.mem_outline_addMethod (m := Synthesis.method name desc insns) mem

theorem outline_applyCallback (cb : Callback) (c : ClassFile) :
    (applyCallback cb c).2.outline = c.outline :=
  keeping_applyCallback ClassFile.bodyFrame_outline cb

theorem outline_applyDelegate (name desc : String) (delegate : MemberRef) (invoke : Opcode)
    (c : ClassFile) : (applyDelegate name desc delegate invoke c).2.outline = c.outline :=
  keeping_applyDelegate ClassFile.bodyFrame_outline name desc delegate invoke

theorem provided_copyPending {source : ClassFile} {r : Renaming} {fuel next : Nat}
    {pending : List (String × String)} {changed : Bool}
    (mem : o ∈ (copyPending source r fuel next pending changed c).2.outline) :
    o ∈ c.outline ∨
      ∃ name desc m, source.method? name desc = some m ∧ o = (r.rehome m).outline := by
  induction fuel generalizing next pending changed c with
  | zero => exact .inl mem
  | succ fuel ih =>
    rw [copyPending_succ] at mem
    split at mem
    · exact .inl mem
    · split at mem
      · exact .inl mem
      · rename_i m found
        split at mem
        · exact ih mem
        · rcases ih mem with before | copied
          · rcases ClassFile.mem_outline_addMethod before with before | added
            · exact .inl before
            · exact .inr ⟨_, _, m, found, added⟩
          · exact .inr copied

theorem provided_applyCopy {source : MemberRef} {name : String}
    (mem : o ∈ (applyCopy ctx source name c).2.outline) :
    o ∈ c.outline ∨ o.1 = (name, source.desc) := by
  rw [applyCopy_run] at mem
  split at mem
  · exact .inl mem
  · split at mem
    · exact .inl mem
    · split at mem
      · exact .inl mem
      · rename_i m found
        refine (ClassFile.mem_outline_addMethod mem).imp_right fun added => ?_
        rw [added, Method.outline, Renaming.rehome, Renaming.desc_eq_self rfl,
          (method?_signature found).2]

theorem provided_apply (leaves : e.LeavesMembers)
    (mem : o ∈ ((e.apply ctx).run c).2.outline) : o ∈ c.outline ∨ e.Provides o := by
  cases e with
  | addInterface name =>
    exact .inl (ClassFile.outline_addInterface c name ▸ mem)
  | addField access name desc =>
    rw [addField_run] at mem
    split at mem
    · exact .inl mem
    · rename_i run
      exact .inl (ClassFile.outline_addField run ▸ mem)
  | addGetter name desc field isStatic factor => exact (synthesizes_getter ..).provided mem
  | addSetter name desc field isStatic factor => exact (synthesizes_setter ..).provided mem
  | addInvoker name desc target dummy => exact (synthesizes_invoker ..).provided mem
  | injectCallback cb => exact .inl (outline_applyCallback cb c ▸ mem)
  | addMethods source methods r => exact provided_copyPending mem
  | copyMethod source name => exact provided_applyCopy mem
  | replaceMethod name desc delegate invoke =>
    exact .inl (outline_applyDelegate name desc delegate invoke c ▸ mem)
  | appletToPanel legacy component engine => exact leaves.elim

theorem outline_of_idle (leaves : e.LeavesMembers) {outcome : Except EditError Bool}
    (run : (e.apply ctx).run c = (outcome, c'))
    (idle : outcome = .ok false ∨ ∃ source, outcome = .error (.missingSource source)) :
    c'.outline = c.outline := by
  have additive_case (additive : e.Additive) : c'.outline = c.outline := by
    rcases idle with rfl | ⟨source, rfl⟩
    · rw [(added_of_run additive run).kept rfl]
    · rw [(present_of_missing additive run).1]
  cases e with
  | injectCallback cb =>
    have same := outline_applyCallback cb c
    rwa [show applyCallback cb c = _ from run] at same
  | replaceMethod name desc delegate invoke =>
    have same := outline_applyDelegate name desc delegate invoke c
    rwa [show applyDelegate name desc delegate invoke c = _ from run] at same
  | appletToPanel legacy component engine => exact leaves.elim
  | _ => exact additive_case trivial

theorem prefix_addUnseen (known more : List (String × String)) :
    known <+: addUnseen known more := by
  induction more generalizing known with
  | nil => exact List.prefix_rfl
  | cons s rest ih =>
    rw [addUnseen]
    refine List.IsPrefix.trans ?_ (ih _)
    split
    · exact List.prefix_rfl
    · exact List.prefix_append known [s]

theorem Covered.waiting {source : ClassFile} {r : Renaming} {fuel next k : Nat}
    {pending : List (String × String)} {s : String × String}
    (covered : Covered source r c fuel next pending) (later : next ≤ k) (near : k < next + fuel)
    (waiting : pending[k]? = some s) :
    (source.method? s.1 s.2).isSome = true ∧ (c.method? s.1 (r.desc s.2)).isSome = true := by
  induction fuel generalizing next pending with
  | zero => omega
  | succ fuel ih =>
    rw [Covered] at covered
    have inside : next < pending.length :=
      Nat.lt_of_le_of_lt later (List.getElem?_eq_some_iff.1 waiting).1
    rw [List.getElem?_eq_getElem inside] at covered
    dsimp only at covered
    split at covered
    · exact covered.elim
    · rename_i found
      obtain ⟨here, rest⟩ := covered
      rcases Nat.eq_or_lt_of_le later with rfl | beyond
      · rw [List.getElem?_eq_getElem inside, Option.some.injEq] at waiting
        subst waiting
        exact ⟨Option.isSome_of_eq_some found, here⟩
      · refine ih rest beyond (by omega) ?_
        obtain ⟨more, whole⟩ := prefix_addUnseen pending (lambdaBodies source _)
        rw [← whole, List.getElem?_append_left (List.getElem?_eq_some_iff.1 waiting).1, waiting]

theorem copied_apply {source : ClassFile} {methods : List (String × String)} {r : Renaming}
    (run : (apply ctx (.addMethods source methods r)).run c = (.ok now, c'))
    {s : String × String} (asked : s ∈ methods) :
    (source.method? s.1 s.2).isSome = true ∧ (c'.method? s.1 (r.desc s.2)).isSome = true := by
  obtain ⟨_, covered, _⟩ := covered_of_copyPending run
  obtain ⟨k, inside, here⟩ := List.mem_iff_getElem.1 asked
  exact covered.waiting (Nat.zero_le k) (by omega) (List.getElem?_eq_some_iff.2 ⟨inside, here⟩)

end Edit

namespace Group

/-- What a chain makes of the methods of a class: behind those that are there stand others that its
edits provide, and what it is to copy is among them. -/
structure Grown (chain : List Edit) (c c' : ClassFile) : Prop where
  kept : c.outline <+: c'.outline
  provided : ∀ o ∈ c'.outline, o ∈ c.outline ∨ ∃ e ∈ chain, e.Provides o
  copied : ∀ source methods r, Edit.addMethods source methods r ∈ chain → ∀ s ∈ methods,
    (c'.outline.lookup (s.1, r.desc s.2)).isSome = true

namespace Grown

variable {chain rest : List Edit} {e : Edit} {c c' c'' : ClassFile}

theorem nil (c : ClassFile) : Grown [] c c where
  kept := List.prefix_rfl
  provided _ mem := .inl mem
  copied _ _ _ mem := (List.not_mem_nil mem).elim

theorem congr (grown : Grown chain c c') (same : c''.outline = c'.outline) :
    Grown chain c c'' := by
  obtain ⟨kept, provided, copied⟩ := grown
  exact ⟨same ▸ kept, same ▸ provided, same ▸ copied⟩

theorem cons {ctx : EditContext} {outcome : Except EditError Bool} (leaves : e.LeavesMembers)
    (run : (e.apply ctx).run c = (outcome, c'))
    (passed : (∃ now, outcome = .ok now) ∨ ∃ source, outcome = .error (.missingSource source))
    (grown : Grown rest c' c'') : Grown (e :: rest) c c'' where
  kept := by
    have first : c.outline <+: ((e.apply ctx).run c).2.outline := Edit.grown_apply leaves
    rw [run] at first
    exact first.trans grown.kept
  provided o mem := by
    rcases grown.provided o mem with before | ⟨e', mem', provides⟩
    · have before : o ∈ ((e.apply ctx).run c).2.outline := by rwa [run]
      refine (Edit.provided_apply leaves before).imp_right fun provides => ?_
      exact ⟨e, List.mem_cons_self, provides⟩
    · exact .inr ⟨e', List.mem_cons_of_mem e mem', provides⟩
  copied source methods r mem s asked := by
    rcases List.mem_cons.1 mem with rfl | mem
    · rcases passed with ⟨now, rfl⟩ | ⟨missing, rfl⟩
      · have here := (Edit.copied_apply run asked).2
        rw [← Option.isSome_map (f := Method.isStatic), ← ClassFile.lookup_outline] at here
        obtain ⟨static, found⟩ := Option.isSome_iff_exists.1 here
        rw [ClassFile.lookup_of_prefix grown.kept found]
        rfl
      · exact (Edit.copyPending_not_missing run).elim
    · exact grown.copied source methods r mem s asked

end Grown

theorem Ran.grown {ctx : EditContext} {chain : List Edit} {c last : ClassFile} {changed : Bool}
    {missing : List String} (leaves : ∀ e ∈ chain, e.LeavesMembers)
    (ran : Ran ctx chain c last changed missing) :
    Grown chain c last ∧ (changed = false → last.outline = c.outline) := by
  induction ran with
  | done c => exact ⟨.nil c, fun _ => rfl⟩
  | applied step _ ih =>
    obtain ⟨first, others⟩ := List.forall_mem_cons.1 leaves
    obtain ⟨grown, same⟩ := ih others
    refine ⟨grown.cons first step (.inl ⟨_, rfl⟩), fun unchanged => ?_⟩
    obtain ⟨idle, still⟩ := Bool.or_eq_false_iff.1 unchanged
    subst idle
    exact (same still).trans (Edit.outline_of_idle first step (.inl rfl))
  | passedOver step _ ih =>
    obtain ⟨first, others⟩ := List.forall_mem_cons.1 leaves
    obtain ⟨grown, same⟩ := ih others
    refine ⟨grown.cons first step (.inr ⟨_, rfl⟩), fun unchanged => ?_⟩
    exact (same unchanged).trans (Edit.outline_of_idle first step (.inr ⟨_, rfl⟩))

theorem Ran.retains {ctx : EditContext} {chain : List Edit} {c last : ClassFile} {changed : Bool}
    {missing : List String} (ran : Ran ctx chain c last changed missing) : c.Retains last := by
  have step {e : Edit} {c c' : ClassFile} {outcome : Except EditError Bool}
      (run : (e.apply ctx).run c = (outcome, c')) : c.Retains c' := by
    have kept : c.Retains ((e.apply ctx).run c).2 := Edit.keeping_apply
      ClassFile.frame_retains ctx e fun _ _ _ _ => Edit.retains_renameReferences _ c
    rwa [run] at kept
  induction ran with
  | done c => exact .refl c
  | applied first _ ih => exact (step first).trans ih
  | passedOver first _ ih => exact (step first).trans ih

end Group

namespace ClassFile

/-- No count or length of the class is cut where it is written, and the file can be read. -/
def Lossless (h : Hierarchy) (c : ClassFile) : Prop :=
  ∀ w, write h c = .ok w → c.Uncut w ∧ ∃ c', parse w.bytes = .ok c'

instance (h : Hierarchy) (c : ClassFile) : Decidable (c.Lossless h) :=
  match run : write h c with
  | .error _ => isTrue fun _ written => nomatch run.symm.trans written
  | .ok w =>
    have : Decidable (∃ c', parse w.bytes = .ok c') :=
      match read : parse w.bytes with
      | .error _ => isFalse fun ⟨_, read'⟩ => nomatch read'
      | .ok c' => isTrue ⟨c', rfl⟩
    decidable_of_iff (c.Uncut w ∧ ∃ c', parse w.bytes = .ok c')
      ⟨fun lossless w' written => by cases run.symm.trans written; exact lossless,
        fun all => all w run⟩

theorem outline_stored {h : Hierarchy} {bytes bytes' : Bytes} {c c' : ClassFile}
    (parsed : parse bytes = .ok c) (retains : c.Retains c') (lossless : c'.Lossless h)
    (written : encode h c' = .ok bytes') :
    ∃ c'', parse bytes' = .ok c'' ∧ c''.outline = c'.outline := by
  obtain ⟨t, known, pool, limited⟩ := sane_parse parsed
  have sane := limited Limits.none (fun _ _ => True.intro) fun _ _ => True.intro
  obtain ⟨w, run, rfl⟩ := write_of_encode written
  obtain ⟨uncut, c'', reparsed⟩ := lossless w run
  have members := membersUncut_of_retains sane retains (settles_write run) uncut
  have lengths : ∀ a ∈ c'.attributes, a.Fits := by
    rw [retains.attributes]
    exact fun a ha => (sane.attributes.2 a ha).2
  obtain ⟨_, _, t', methods, decoded, rfl⟩ := decoded_write (retains.pool ▸ pool)
    (retains.attributes ▸ known) run members lengths uncut reparsed
  refine ⟨_, reparsed, map_of_decoded members.methodAttributes.length_eq ?_ decoded⟩
  intro m _ body m' decodes
  obtain ⟨code, rfl, _⟩ := decodeMethod_cases decodes
  rfl

end ClassFile

namespace Group

section Pass

variable {edits : List (String × Edit)} {library : HeaderMap} {b next : Batch}
  {report : PassSummary} {name : String} {bytes : Bytes} {c : ClassFile}

theorem Woven.grown (woven : Woven edits library b report next)
    (leaves : ∀ x ∈ edits, x.2.LeavesMembers)
    (lossless : ∀ h c, Makes edits library b h c → c.Lossless (h.backedBy library))
    (stored : b.get? name = some bytes) (read : ClassFile.parse bytes = .ok c) :
    ∃ bytes' c', next.get? name = some bytes' ∧ ClassFile.parse bytes' = .ok c' ∧
      Grown (chainOf name edits) c c' := by
  obtain ⟨h, built, each⟩ := woven.classes
  have mine : ∀ e ∈ chainOf name edits, e.LeavesMembers := fun e mem => leaves _ (mem_chainOf.1 mem)
  have here := each name
  split at here
  · obtain ⟨old, new, stored', made, written⟩ := here
    cases stored.symm.trans stored'
    cases made with
    | @rewritten start last missing new read' ran encoded =>
      cases read.symm.trans read'
      have makes : Makes edits library b h last :=
        ⟨name, bytes, c, missing, stored, read, built, ran⟩
      obtain ⟨c', read', same⟩ :=
        ClassFile.outline_stored read ran.retains (lossless h last makes) encoded
      exact ⟨new, c', written, read', (ran.grown mine).1.congr same⟩
  · obtain ⟨same, chain⟩ := here
    refine ⟨bytes, c, same.trans stored, read, ?_⟩
    rcases chain bytes stored with none | made
    · exact none ▸ .nil c
    · cases made with
      | kept read' ran =>
        cases read.symm.trans read'
        obtain ⟨grown, still⟩ := ran.grown mine
        exact grown.congr (still rfl).symm

theorem Woven.ran (woven : Woven edits library b report next)
    (stored : b.get? name = some bytes) (some_edit : chainOf name edits ≠ []) :
    ∃ h c last changed missing, hierarchy b = .ok h ∧ ClassFile.parse bytes = .ok c ∧
      Ran ⟨b, h.backedBy library⟩ (chainOf name edits) c last changed missing := by
  obtain ⟨h, built, each⟩ := woven.classes
  have here := each name
  split at here
  · obtain ⟨old, new, stored', made, _⟩ := here
    cases stored.symm.trans stored'
    cases made with
    | rewritten read ran encoded => exact ⟨h, _, _, _, _, built, read, ran⟩
  · rcases here.2 bytes stored with none | made
    · exact absurd none some_edit
    · cases made with
      | kept read ran => exact ⟨h, _, _, _, _, built, read, ran⟩

end Pass

end Group

/-- The stored class has a method of the signature, which is static or not. -/
def Batch.Declares (b : Batch) (owner name desc : String) (static : Bool) : Prop :=
  ∃ bytes c m, b.get? owner = some bytes ∧ ClassFile.parse bytes = .ok c ∧
    c.method? name desc = some m ∧ m.isStatic = static

theorem Batch.declares_iff {b : Batch} {owner name desc : String} {static : Bool} :
    b.Declares owner name desc static ↔ ∃ bytes c, b.get? owner = some bytes ∧
      ClassFile.parse bytes = .ok c ∧ c.outline.lookup (name, desc) = some static := by
  unfold Declares
  simp only [ClassFile.lookup_outline_eq_some_iff, exists_and_left]

namespace Weaver

variable {library : HeaderMap} {b woven : Batch} {passes : List (Stage × List (String × Edit))}
  {reports : List (Stage × PassSummary)}

theorem declares_inTurn {owner name desc : String} {static : Bool}
    (leaves : ∀ pass ∈ passes, ∀ x ∈ pass.2, x.2.LeavesMembers)
    (lossless : ∀ h c, Writes library passes b h c → c.Lossless h)
    (declares : b.Declares owner name desc static)
    (run : inTurn library passes b = (.ok reports, woven)) :
    woven.Declares owner name desc static := by
  induction passes generalizing b reports with
  | nil =>
    cases run
    exact declares
  | cons pass rest ih =>
    obtain ⟨s, edits⟩ := pass
    obtain ⟨mine, others⟩ := List.forall_mem_cons.1 leaves
    obtain ⟨report, next, later, first, second, rfl⟩ := inTurn_cons_ok_iff.1 run
    obtain ⟨bytes, c, stored, read, found⟩ := Batch.declares_iff.1 declares
    obtain ⟨bytes', c', stored', read', grown⟩ := (Group.woven_run first).grown mine
      (fun h c made => lossless _ c (.now made)) stored read
    have kept : next.Declares owner name desc static := Batch.declares_iff.2
      ⟨bytes', c', stored', read', ClassFile.lookup_of_prefix grown.kept found⟩
    exact ih others (fun h c writes => lossless h c (.later first writes)) kept second

end Weaver

end ClassWeave
