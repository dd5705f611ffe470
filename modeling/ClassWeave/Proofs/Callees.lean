import Mathlib.Tactic.Common
import ClassWeave.Proofs.Outline
import ClassWeave.Proofs.Registration
import ClassWeave.Proofs.Splicing

/-!
# What callbacks and delegates call

A callback or a delegate is put into the class of its hook, and the method that it calls is copied
to the class that its mixin is for. These come from different edits, made in different passes. The
class has the method behind the passes if it is in the batch, and is reported missing if it is not.
-/

set_option autoImplicit false

namespace ClassWeave

namespace Edit

/-- The call that the edit puts into bodies. -/
def call? : Edit → Option Insn
  | .injectCallback cb => some (.method cb.invoke cb.method false)
  | .replaceMethod _ _ delegate invoke => some (.method invoke delegate false)
  | _ => none

/-- The edit has put a call into a body: a callback one that the body did not have, and a delegate
whatever stands in the body that it has taken over. -/
def Puts (e : Edit) (c c' : ClassFile) (call : Insn) : Prop :=
  match e with
  | .injectCallback _ => ∃ (i : Nat) (m m' : Method) (code' : Code), c.methods[i]? = some m ∧
      c'.methods[i]? = some m' ∧ m'.code = some code' ∧ call ∈ code'.insns ∧
      ∀ code, m.code = some code → call ∉ code.insns
  | .replaceMethod name desc _ _ => ∃ m' code', c'.method? name desc = some m' ∧
      m'.code = some code' ∧ call ∈ code'.insns
  | _ => False

variable {ctx : EditContext} {e : Edit} {c c' : ClassFile} {now : Bool} {call : Insn}

theorem new_of_splicedInto {cb : Callback} {callback : MethodDescriptor} {owner : String}
    {m : Method} {code' : Code} (body : (splicedInto cb callback owner m).code = some code')
    (mem : call ∈ code'.insns) (new : ∀ code, m.code = some code → call ∉ code.insns)
    (calls : call.call? ≠ none) : call = .method cb.invoke cb.method false := by
  unfold splicedInto at body
  split at body
  · rename_i code made
    cases body
    obtain ⟨code, insns, before, _, once, rfl⟩ := spliceMethod_spliced made
    rcases Code.mem_spliceAt.1 mem with old | ⟨spliced, _⟩
    · exact absurd old (new code before)
    · exact once.eq_of_mem spliced calls
  · exact absurd mem (new code' body)

theorem call?_of_puts (run : (e.apply ctx).run c = (.ok now, c')) (puts : e.Puts c c' call)
    (calls : call.call? ≠ none) : e.call? = some call := by
  cases e with
  | injectCallback cb =>
    obtain ⟨i, m, m', code', here, here', body, mem, new⟩ := puts
    obtain ⟨sites, callback, found, _, run⟩ := applyCallback_ok_iff.1 run
    have spliced := (splicedAll_of_run (nodup_callbackSites found) run).1.method i
    rw [here, here'] at spliced
    split at spliced
    · cases spliced
      rw [new_of_splicedInto body mem new calls, call?]
    · cases spliced
      exact absurd mem (new code' body)
  | replaceMethod name desc delegate invoke =>
    obtain ⟨m', code', found, body, mem⟩ := puts
    obtain ⟨m'', code'', found', body', once⟩ := method?_applyDelegate run
    cases found.symm.trans found'
    cases body.symm.trans body'
    rw [once.eq_of_mem mem calls, call?]
  | _ => exact puts.elim

theorem neverMissing_delegateBody (context : String) (hookedStatic : Bool)
    (hooked : MethodDescriptor) (delegate : MemberRef) (invoke : Opcode) :
    NeverMissing (delegateBody context hookedStatic hooked delegate invoke) := by
  refine .bind (.orBadFormat _) fun d => ?_
  by_cases static : invoke ≠ Opcode.invokestatic ∧ hookedStatic = true
  · rw [if_pos static]
    exact .mismatch _ _
  · rw [if_neg static]
    dsimp only
    exact .ite (.mismatch _ _) (.bind (neverMissing_passResult context _ _ _) fun _ => .ok _)

theorem neverMissing_replaceBody (c : ClassFile) (name desc : String) (code : Code) :
    NeverMissing (c.replaceBody name desc code) := by
  unfold ClassFile.replaceBody
  split
  · exact fun _ error => nomatch error
  · exact .ite (.ok _) (.ok _)

theorem neverMissing_bind {α β : Type} {x : Editing α} {k : α → Editing β}
    (first : NeverMissing (x c).1) (rest : ∀ a c, NeverMissing (k a c).1) :
    NeverMissing ((x >>= k) c).1 := by
  rw [run_bind]
  rcases run : x c with ⟨outcome, c'⟩
  rw [run] at first
  cases outcome with
  | error e =>
    intro source missing
    cases missing
    exact first source rfl
  | ok a => exact rest a c'

theorem neverMissing_applyDelegate (name desc : String) (delegate : MemberRef) (invoke : Opcode) :
    NeverMissing (applyDelegate name desc delegate invoke c).1 := by
  unfold applyDelegate
  rw [run_get]
  dsimp only
  cases c.method? name desc with
  | none => exact fun _ error => nomatch error
  | some m =>
    refine neverMissing_bind (.orBadFormat _) fun hooked _ => ?_
    refine neverMissing_bind (neverMissing_delegateBody _ _ _ _ _) fun insns _ => ?_
    exact neverMissing_bind (neverMissing_replaceBody _ _ _ _) fun replaced _ => .ok _

end Edit

namespace Group

/-- A chain that runs on the class puts the call into a body. -/
inductive Puts (ctx : EditContext) : List Edit → ClassFile → Insn → Prop where
  | here {e : Edit} {rest : List Edit} {c c' : ClassFile} {now : Bool} {call : Insn}
      (run : (e.apply ctx).run c = (.ok now, c')) (puts : e.Puts c c' call) :
      Puts ctx (e :: rest) c call
  | later {e : Edit} {rest : List Edit} {c c' : ClassFile} {outcome : Except EditError Bool}
      {call : Insn} (run : (e.apply ctx).run c = (outcome, c')) (puts : Puts ctx rest c' call) :
      Puts ctx (e :: rest) c call

variable {ctx : EditContext} {chain : List Edit} {c : ClassFile} {call : Insn}

theorem Puts.exists_call? (puts : Puts ctx chain c call) (calls : call.call? ≠ none) :
    ∃ e ∈ chain, e.call? = some call := by
  induction puts with
  | here run puts => exact ⟨_, List.mem_cons_self, Edit.call?_of_puts run puts calls⟩
  | later _ _ ih =>
    obtain ⟨e, mem, same⟩ := ih calls
    exact ⟨e, List.mem_cons_of_mem _ mem, same⟩

theorem Ran.puts_delegate {last : ClassFile} {changed : Bool} {missing : List String}
    (ran : Ran ctx chain c last changed missing) {name desc : String} {delegate : MemberRef}
    {invoke : Opcode} (mem : .replaceMethod name desc delegate invoke ∈ chain) :
    Puts ctx chain c (.method invoke delegate false) := by
  induction ran with
  | done c => cases mem
  | applied step _ ih =>
    rcases List.mem_cons.1 mem with rfl | mem
    · obtain ⟨m, code, found, body, once⟩ := Edit.method?_applyDelegate step
      exact .here step ⟨m, code, found, body, once.mem⟩
    · exact .later step (ih mem)
  | passedOver step _ ih =>
    rcases List.mem_cons.1 mem with rfl | mem
    · exact absurd (congrArg Prod.fst step) (Edit.neverMissing_applyDelegate _ _ _ _ _)
    · exact .later step (ih mem)

end Group

namespace Weaver

/-- Passes that succeed put the call into a body of the class. -/
inductive Places (library : HeaderMap) : List (Stage × List (String × Edit)) → Batch →
    String → Insn → Prop where
  | now {s : Stage} {edits : List (String × Edit)} {rest : List (Stage × List (String × Edit))}
      {b : Batch} {name : String} {bytes : Bytes} {c : ClassFile} {h : Hierarchy} {call : Insn}
      (stored : b.get? name = some bytes) (read : ClassFile.parse bytes = .ok c)
      (built : Group.hierarchy b = .ok h)
      (puts : Group.Puts ⟨b, h.backedBy library⟩ (chainOf name edits) c call) :
      Places library ((s, edits) :: rest) b name call
  | later {s : Stage} {edits : List (String × Edit)} {rest : List (Stage × List (String × Edit))}
      {b next : Batch} {report : PassSummary} {name : String} {call : Insn}
      (run : (Group.ofList edits).run library b = .ok (report, next))
      (places : Places library rest next name call) :
      Places library ((s, edits) :: rest) b name call

variable {library : HeaderMap} {b : Batch} {passes : List (Stage × List (String × Edit))}
  {name : String} {call : Insn}

theorem Places.exists_call? (places : Places library passes b name call)
    (calls : call.call? ≠ none) :
    ∃ pass ∈ passes, ∃ e, (name, e) ∈ pass.2 ∧ e.call? = some call := by
  induction places with
  | now stored read built puts =>
    obtain ⟨e, mem, same⟩ := puts.exists_call? calls
    exact ⟨_, List.mem_cons_self, e, mem_chainOf.1 mem, same⟩
  | later _ _ ih =>
    obtain ⟨pass, mem, found⟩ := ih calls
    exact ⟨pass, List.mem_cons_of_mem _ mem, found⟩

theorem places_delegate {woven : Batch} {reports : List (Stage × PassSummary)}
    (run : inTurn library passes b = (.ok reports, woven)) {s : Stage}
    {edits : List (String × Edit)} (pass : (s, edits) ∈ passes) {method desc : String}
    {delegate : MemberRef} {invoke : Opcode}
    (registered : (name, .replaceMethod method desc delegate invoke) ∈ edits)
    (known : name ∈ b.names) : Places library passes b name (.method invoke delegate false) := by
  induction passes generalizing b reports with
  | nil => cases pass
  | cons first rest ih =>
    obtain ⟨s', edits'⟩ := first
    obtain ⟨report, next, later, first, second, rfl⟩ := inTurn_cons_ok_iff.1 run
    have one := Group.woven_run first
    rcases List.mem_cons.1 pass with same | pass
    · cases same
      have mem := mem_chainOf.2 registered
      obtain ⟨bytes, stored⟩ := Batch.exists_get? known
      obtain ⟨h, c, last, changed, missing, built, read, ran⟩ :=
        one.ran stored (List.ne_nil_of_mem mem)
      exact .now stored read built (ran.puts_delegate mem)
    · exact .later first (ih second pass (one.names ▸ known))

end Weaver

namespace Mixin

variable {t : HookTable} {m : Mixin} {target : String} {r : Renaming} {p : PlannedEdit}
  {call : Insn}

theorem requireBody_ok {d : MixinMethod} {kind : DeclKind} {method : Method}
    (found : m.requireBody d kind = .ok method) :
    ∃ c, m.compiled = some c ∧ c.method? d.name d.desc = some method := by
  unfold requireBody at found
  split at found
  · cases found
  · rename_i c compiled
    split at found
    · cases found
    · rename_i method' has
      split at found
      · cases found
      · cases found
        exact ⟨c, compiled, has⟩

theorem callOpcode_eq_invokestatic (method : Method) :
    (callOpcode method == Opcode.invokestatic) = method.isStatic := by
  unfold callOpcode
  split
  · rename_i static
    rw [static]
    rfl
  · rename_i instance_
    rw [Bool.eq_false_iff.2 instance_]
    split <;> rfl

theorem leaves_of_origin (origin : Origin t m target r p) : p.edit.LeavesMembers := by
  rcases origin.cases with declarative | ⟨s, _, made⟩ | ⟨s, _, made⟩ | mem
  · cases edit : p.edit with
    | appletToPanel legacy component engine =>
      rw [edit] at declarative
      exact declarative.elim
    | _ => trivial
  · obtain ⟨method, cb, _, rfl, _, _⟩ := callbackEdit_yields t m target r s p made
    trivial
  · obtain ⟨method, h, _, _, rfl⟩ := replacementEdit_yields t m target r s p made
    trivial
  · obtain ⟨c, _, rfl⟩ := eq_of_mem_methodsEdit mem
    trivial

theorem provides_copied {c : ClassFile} {methods : List (String × String)} {name desc : String}
    {method : Method} (found : c.method? name desc = some method) :
    (Edit.addMethods c methods r).Provides ((name, r.desc desc), method.isStatic) := by
  refine ⟨name, desc, method, found, ?_⟩
  obtain ⟨rfl, rfl⟩ := Edit.method?_signature found
  rfl

def CallsCopy (m : Mixin) (target : String) (r : Renaming) (c : ClassFile) (call : Insn) : Prop :=
  ∃ d ∈ m.copiedMethods, ∃ method, c.method? d.name d.desc = some method ∧
    call = .method (callOpcode method) ⟨target, d.name, r.desc d.desc⟩ false

theorem callsCopy_of_origin (origin : Origin t m target r p) (asks : p.edit.call? = some call) :
    ∃ c, m.compiled = some c ∧ m.CallsCopy target r c call := by
  rcases origin.cases with declarative | ⟨s, listed, made⟩ | ⟨s, listed, made⟩ | mem
  · cases edit : p.edit with
    | injectCallback cb =>
      rw [edit] at declarative
      exact declarative.elim
    | replaceMethod name desc delegate invoke =>
      rw [edit] at declarative
      exact declarative.elim
    | _ =>
      rw [edit] at asks
      cases asks
  · obtain ⟨method, cb, body, rfl, callee, invoke⟩ := callbackEdit_yields t m target r s p made
    obtain ⟨c, compiled, found⟩ := requireBody_ok body
    refine ⟨c, compiled, s.method, ?_, method, found, ?_⟩
    · exact List.mem_append_left _ (List.mem_append_left _ (List.mem_map_of_mem listed))
    · cases asks
      rw [callee, invoke]
  · obtain ⟨method, h, body, _, rfl⟩ := replacementEdit_yields t m target r s p made
    obtain ⟨c, compiled, found⟩ := requireBody_ok body
    refine ⟨c, compiled, s.method, ?_, method, found, ?_⟩
    · exact List.mem_append_left _ (List.mem_append_right _ (List.mem_map_of_mem listed))
    · cases asks
      rfl
  · obtain ⟨c, _, rfl⟩ := eq_of_mem_methodsEdit mem
    cases asks

theorem copies_of_resolve {edits : List PlannedEdit} (resolved : m.resolve t = .ok edits)
    (mem : p ∈ edits) (asks : p.edit.call? = some call) : ∃ target r c,
      m.CallsCopy target r c call ∧
      before target (.addMethods c (m.copiedMethods.map fun d => (d.name, d.desc)) r) ∈ edits := by
  obtain ⟨hook, r, parts, _, _, resolves, rfl⟩ := resolve_ok_iff.1 resolved
  obtain ⟨c, compiled, calls⟩ := callsCopy_of_origin (resolves.mem_edits.1 mem) asks
  refine ⟨hook.obfName, r, c, calls, resolves.mem_edits.2 (.methods ?_)⟩
  obtain ⟨d, copied, _⟩ := calls
  have some_copy : m.copiedMethods.isEmpty = false :=
    List.isEmpty_eq_false_iff.2 (List.ne_nil_of_mem copied)
  rw [methodsEdit, compiled, some_copy]
  exact List.mem_singleton.2 rfl

end Mixin

namespace Group

variable {edits : List (String × Edit)} {library : HeaderMap} {b next : Batch}
  {report : PassSummary}

theorem missing_of_absent {name : String} {e : Edit}
    (run : (ofList edits).run library b = .ok (report, next)) (registered : (name, e) ∈ edits)
    (absent : name ∉ b.names) : name ∈ report.missing := by
  rw [run_eq] at run
  split at run
  · cases run
  · cases run
    exact List.mem_append_left _ (mem_absent.2 ⟨List.mem_map_of_mem registered, absent⟩)

def Offers (b : Batch) (edits : List (String × Edit)) (callee : MemberRef) (static : Bool) : Prop :=
  b.Declares callee.owner callee.name callee.desc static ∨
    ∃ e, (callee.owner, e) ∈ edits ∧ e.Provides ((callee.name, callee.desc), static)

def Unrivalled (b : Batch) (edits : List (String × Edit)) (callee : MemberRef) : Prop :=
  ∀ static rival, Offers b edits callee static → Offers b edits callee rival → static = rival

theorem declares_copied (run : (ofList edits).run library b = .ok (report, next))
    (leaves : ∀ x ∈ edits, x.2.LeavesMembers)
    (lossless : ∀ h c, Makes edits library b h c → c.Lossless (h.backedBy library))
    {target : String} {source : ClassFile} {methods : List (String × String)} {r : Renaming}
    (registered : (target, .addMethods source methods r) ∈ edits) (known : target ∈ b.names)
    {name desc : String} (asked : (name, desc) ∈ methods) :
    ∃ static, next.Declares target name (r.desc desc) static ∧
      Offers b edits ⟨target, name, r.desc desc⟩ static := by
  have woven := woven_run run
  have mem := mem_chainOf.2 registered
  obtain ⟨bytes, stored⟩ := Batch.exists_get? known
  obtain ⟨_, c, _, _, _, _, read, _⟩ := woven.ran stored (List.ne_nil_of_mem mem)
  obtain ⟨bytes', c', stored', read', grown⟩ := woven.grown leaves lossless stored read
  obtain ⟨static, found⟩ :=
    Option.isSome_iff_exists.1 (grown.copied source methods r mem (name, desc) asked)
  refine ⟨static, Batch.declares_iff.2 ⟨bytes', c', stored', read', found⟩, ?_⟩
  cases older : c.outline.lookup (name, r.desc desc) with
  | some static' =>
    -- what was there first stays first
    cases found.symm.trans (ClassFile.lookup_of_prefix grown.kept older)
    exact .inl (Batch.declares_iff.2 ⟨bytes, c, stored, read, older⟩)
  | none =>
    obtain ⟨before, after, whole, _⟩ := List.lookup_eq_some_iff.1 found
    have listed : ((name, r.desc desc), static) ∈ c'.outline := by
      rw [whole]
      exact List.mem_append_right _ List.mem_cons_self
    rcases grown.provided _ listed with there | ⟨e, edit, provides⟩
    · have absent := List.lookup_eq_none_iff.1 older _ there
      simp at absent
    · exact .inr ⟨e, mem_chainOf.1 edit, provides⟩

end Group

namespace Weaver

variable {i j : Weaver} {mixins : List Mixin}

theorem mem_registrations_addMixins (added : i.addMixins mixins = .ok j) :
    i.registrations ⊆ j.registrations ∧ ∀ m ∈ mixins, ∀ edits, m.resolve i.hooks = .ok edits →
      edits ⊆ j.registrations := by
  induction mixins generalizing i with
  | nil =>
    cases added
    exact ⟨fun _ mem => mem, fun _ mem => (List.not_mem_nil mem).elim⟩
  | cons m rest ih =>
    rw [addMixins, List.foldlM_cons] at added
    obtain ⟨next, first, added⟩ := bind_ok_iff.1 added
    obtain ⟨edits, resolved, first⟩ := bind_ok_iff.1 first
    cases first
    obtain ⟨kept, others⟩ := ih added
    refine ⟨fun r mem => kept (List.mem_append_left _ mem), ?_⟩
    refine List.forall_mem_cons.2 ⟨fun edits' resolved' r mem => ?_, others⟩
    cases resolved.symm.trans resolved'
    exact kept (List.mem_append_right _ mem)

theorem call?_entryEdits {b : Batch} {entry : List (String × Edit)}
    (entered : i.entryEdits b = .ok entry) : ∀ x ∈ entry, x.2.call? = none := by
  unfold entryEdits at entered
  split at entered
  · cases entered
    exact List.forall_mem_nil _
  · obtain ⟨hook, _, made⟩ := bind_ok_iff.1 entered
    cases made
    exact List.forall_mem_map.2 fun _ _ => rfl

theorem registered_of_call? {b : Batch} {entry : List (String × Edit)}
    (entered : i.entryEdits b = .ok entry) {pass : Stage × List (String × Edit)}
    (mem : pass ∈ i.passes entry) {name : String} {e : Edit} (asked : (name, e) ∈ pass.2)
    {call : Insn} (asks : e.call? = some call) : ∃ r ∈ i.registrations, r.edit = e := by
  have later {s : Stage} (listed : (name, e) ∈ i.edits s) : ∃ r ∈ i.registrations, r.edit = e :=
    ⟨_, mem_edits.1 listed, rfl⟩
  simp only [passes, List.mem_cons, List.not_mem_nil, or_false] at mem
  rcases mem with rfl | rfl | rfl | rfl
  · rw [call?_entryEdits entered _ asked] at asks
    cases asks
  · exact later asked
  · exact later asked
  · exact later asked

/-- What an injection is about to do: the weaver with all mixins, the headers of its class path and
the edits of its first pass. -/
structure Plans (hooks : HookTable) (config : InjectionSettings) (mixins : List Mixin)
    (files : Files) (b : Batch) (i : Weaver) (headers : HeaderMap)
    (entry : List (String × Edit)) : Prop where
  added : (Weaver.new hooks config).addMixins mixins = .ok i
  load : ClassPath.load files config.classpath = .ok headers
  entries : i.entryEdits b = .ok entry

theorem inTurn_of_injectAll {hooks : HookTable} {config : InjectionSettings} {mixins : List Mixin}
    {files : Files} {b woven : Batch} {report : InjectionReport}
    (run : injectAll hooks config mixins files b = (.ok report, woven)) :
    ∃ i headers entry, Plans hooks config mixins files b i headers entry ∧
      inTurn headers (i.passes entry) b = (.ok report.passes, woven) := by
  unfold injectAll at run
  cases added : (Weaver.new hooks config).addMixins mixins with
  | error cause =>
    rw [added] at run
    cases run
  | ok i =>
    rw [added] at run
    have same : i.config = config := (registrations_addMixins added).1
    obtain ⟨entry, headers, entries, load, passes⟩ := inject_ok_iff.1 run
    exact ⟨i, headers, entry, ⟨added, same ▸ load, entries⟩, passes⟩

end Weaver

def Injects (hooks : HookTable) (config : InjectionSettings) (mixins : List Mixin) (files : Files)
    (b : Batch) (name : String) (call : Insn) : Prop :=
  ∃ i headers entry, Weaver.Plans hooks config mixins files b i headers entry ∧
    Weaver.Places headers (i.passes entry) b name call

/-- What becomes of the method that a call names. -/
structure Answered (entered woven : Batch) (report : InjectionReport)
    (copied : List (String × Edit)) (op : Opcode) (callee : MemberRef) : Prop where
  missing : callee.owner ∉ entered.names → (.preCopy, callee.owner) ∈ report.missing
  /-- With its class it is there, and fits the call unless another method takes its place. -/
  declared : callee.owner ∈ entered.names → ∃ static,
    woven.Declares callee.owner callee.name callee.desc static ∧
    (Group.Unrivalled entered copied callee → static = (op == Opcode.invokestatic))

section Injection

variable {hooks : HookTable} {config : InjectionSettings} {mixins : List Mixin} {files : Files}
  {b woven : Batch} {report : InjectionReport} {i : Weaver} {headers : HeaderMap}
  {entry : List (String × Edit)}

theorem Weaver.Plans.copies (plans : Weaver.Plans hooks config mixins files b i headers entry)
    {name : String} {call : Insn} (places : Weaver.Places headers (i.passes entry) b name call)
    (calls : call.call? ≠ none) : ∃ m target r c, Mixin.CallsCopy m target r c call ∧
      (target, .addMethods c (m.copiedMethods.map fun d => (d.name, d.desc)) r) ∈
        i.edits .preCopy := by
  obtain ⟨pass, mem, e, asked, asks⟩ := places.exists_call? calls
  obtain ⟨p, registered, rfl⟩ := Weaver.registered_of_call? plans.entries mem asked asks
  have origin := (Weaver.registrations_addMixins plans.added).2.2 p registered
  obtain ⟨m, listed, edits, resolved, mem⟩ := origin.resolve_left List.not_mem_nil
  obtain ⟨target, r, c, callee, copies⟩ := Mixin.copies_of_resolve resolved mem asks
  have all := (Weaver.mem_registrations_addMixins plans.added).2 m listed edits resolved
  exact ⟨m, target, r, c, callee, Weaver.mem_edits.2 (all copies)⟩

theorem Weaver.Plans.leaves (plans : Weaver.Plans hooks config mixins files b i headers entry)
    (s : Stage) : ∀ x ∈ i.edits s, x.2.LeavesMembers := by
  intro x mem
  have origin := (Weaver.registrations_addMixins plans.added).2.2 _ (Weaver.mem_edits.1 mem)
  obtain ⟨m, _, edits, resolved, mem⟩ := origin.resolve_left List.not_mem_nil
  obtain ⟨hook, r, parts, _, _, resolves, rfl⟩ := Mixin.resolve_ok_iff.1 resolved
  exact Mixin.leaves_of_origin (resolves.mem_edits.1 mem)

/-- Wherever an injection puts a call for a callback or a delegate, the class that the call names is
either reported missing or has the method behind the injection. It has been copied there by the
second pass, and what is there stays. -/
theorem injectAll_answered
    (lossless : ∀ i headers entry, Weaver.Plans hooks config mixins files b i headers entry →
      ∀ h c, Weaver.Writes headers (i.passes entry) b h c → c.Lossless h)
    (run : injectAll hooks config mixins files b = (.ok report, woven)) :
    ∃ i headers entry first entered, Weaver.Plans hooks config mixins files b i headers entry ∧
      (Group.ofList entry).run headers b = .ok (first, entered) ∧ entered.names = b.names ∧
      ∀ name op callee ofInterface,
        Injects hooks config mixins files b name (.method op callee ofInterface) →
        Answered entered woven report (i.edits .preCopy) op callee := by
  obtain ⟨i, headers, entry, plans, passes⟩ := Weaver.inTurn_of_injectAll run
  have written := lossless i headers entry plans
  obtain ⟨first, entered, _, entering, passes, reports⟩ := Weaver.inTurn_cons_ok_iff.1 passes
  obtain ⟨second, next, later, copying, rest, rfl⟩ := Weaver.inTurn_cons_ok_iff.1 passes
  refine ⟨i, headers, entry, first, entered, plans, entering, (Group.woven_run entering).names, ?_⟩
  rintro name op callee ofInterface ⟨i', headers', entry', plans', places⟩
  cases plans.added.symm.trans plans'.added
  cases plans.load.symm.trans plans'.load
  cases plans.entries.symm.trans plans'.entries
  obtain ⟨m, target, r, c, ⟨d, copied, method, found, same⟩, registered⟩ :=
    plans.copies places nofun
  cases same
  constructor
  case missing =>
    intro absent
    have reported := Group.missing_of_absent copying registered absent
    rw [InjectionReport.missing, reports]
    refine List.mem_flatMap.2 ⟨_, List.mem_cons_of_mem _ List.mem_cons_self, ?_⟩
    exact List.mem_map_of_mem reported
  case declared =>
    intro known
    obtain ⟨static, declares, offers⟩ := Group.declares_copied copying (plans.leaves .preCopy)
      (fun h c made => written _ c (.later entering (.now made))) registered known
      (List.mem_map_of_mem copied)
    refine ⟨static, Weaver.declares_inTurn ?_ ?_ declares rest, fun unrivalled => ?_⟩
    · exact List.forall_mem_cons.2 ⟨plans.leaves _, List.forall_mem_singleton.2 (plans.leaves _)⟩
    · exact fun h c writes => written h c (.later entering (.later copying writes))
    · -- the method that the opcode was chosen for is on offer too
      rw [Mixin.callOpcode_eq_invokestatic]
      exact unrivalled _ _ offers (.inr ⟨_, registered, Mixin.provides_copied found⟩)

end Injection

def helperHooks : HookTable :=
  HookTable.ofFile ⟨[⟨"Counter", "a", [], []⟩], [], [⟨"helper", "b", "h", "()V", none⟩]⟩

/-- Puts a static method of its own in the place of a static method of another class. -/
def helperMixin : Mixin where
  target := "Counter"
  compiled := some { ClassFile.new "CounterMixin" (some "java/lang/Object") with
    methods := [⟨⟨0x9⟩, "help", "()V", some (Code.ofInsns [.simple Opcode.returnVoid]), []⟩] }
  interfaces := []
  fields := []
  getters := []
  setters := []
  invokers := []
  callbacks := []
  copies := []
  replacements := [⟨"helper", ⟨"help", "()V", none⟩, true⟩]
  methods := []

def voidClass (name method : List UInt8) (access locals : UInt8) : Bytes :=
  [0xCA, 0xFE, 0xBA, 0xBE, 0, 0, 0, 52, 0, 8, 1, 0, UInt8.ofNat name.length] ++ name ++
    [7, 0, 1, 1, 0, 16, 106, 97, 118, 97, 47, 108, 97, 110, 103, 47, 79, 98, 106, 101, 99, 116,
      7, 0, 3, 1, 0, UInt8.ofNat method.length] ++ method ++
    [1, 0, 3, 40, 41, 86, 1, 0, 4, 67, 111, 100, 101, 0, 33, 0, 2, 0, 4, 0, 0, 0, 0, 0, 1,
      0, access, 0, 5, 0, 6, 0, 1, 0, 7, 0, 0, 0, 13, 0, 0, 0, locals, 0, 0, 0, 1, 177,
      0, 0, 0, 0, 0, 0]

def hookedClass : String × Bytes := ("b", voidClass [98] [104] 9 0)

def delegatesHelper : PlannedEdit → Bool
  | ⟨.postCopy, owner, .replaceMethod name desc delegate invoke⟩ =>
    owner = "b" ∧ name = "h" ∧ desc = "()V" ∧ delegate = ⟨"a", "help", "()V"⟩ ∧
      invoke = Opcode.invokestatic
  | _ => false

theorem injects_helper {b woven : Batch} {report : InjectionReport} (known : "b" ∈ b.names)
    (run : injectAll helperHooks .library [helperMixin] noFiles b = (.ok report, woven)) :
    Injects helperHooks .library [helperMixin] noFiles b "b"
      (.method Opcode.invokestatic ⟨"a", "help", "()V"⟩ false) := by
  have computed : (((Weaver.new helperHooks .library).addMixins [helperMixin]).toOption.any
      fun i => i.registrations.any delegatesHelper) = true := by
    decide +kernel
  obtain ⟨i, headers, entry, plans, passes⟩ := Weaver.inTurn_of_injectAll run
  obtain ⟨i', added, registered⟩ := exists_ok_of_any computed
  cases plans.added.symm.trans added
  obtain ⟨p, mem, delegates⟩ := List.any_eq_true.1 registered
  refine ⟨i, headers, entry, plans, ?_⟩
  unfold delegatesHelper at delegates
  split at delegates
  · obtain ⟨rfl, rfl, rfl, rfl, rfl⟩ := of_decide_eq_true delegates
    refine Weaver.places_delegate passes (s := .postCopy) ?_ (Weaver.mem_edits.2 mem) known
    simp [Weaver.passes]
  · cases delegates

def providesStatic : Edit → Bool
  | .addMethods source _ _ => source.methods.all Method.isStatic
  | .replaceMethod _ _ _ _ => true
  | _ => false

theorem static_of_providesStatic {e : Edit} (all : providesStatic e = true)
    {o : (String × String) × Bool} (provides : e.Provides o) : o.2 = true := by
  cases e with
  | addMethods source methods r =>
    obtain ⟨name, desc, m, found, rfl⟩ := provides
    exact List.all_eq_true.1 all m (List.mem_of_find?_eq_some found)
  | replaceMethod name desc delegate invoke => exact provides.elim
  | _ => cases all

def helperBatch : Batch := Batch.ofList [("a", bareClass), hookedClass]

theorem unrivalled_helper {i : Weaver} {headers : HeaderMap} {entry : List (String × Edit)}
    {first : PassSummary} {entered : Batch}
    (plans : Weaver.Plans helperHooks .library [helperMixin] noFiles helperBatch i headers entry)
    (run : (Group.ofList entry).run headers helperBatch = .ok (first, entered)) :
    Group.Unrivalled entered (i.edits .preCopy) ⟨"a", "help", "()V"⟩ := by
  have computed : (((Weaver.new helperHooks .library).addMixins [helperMixin]).toOption.any
      fun i => i.registrations.all fun r => providesStatic r.edit) = true := by
    decide +kernel
  obtain ⟨i', added, static⟩ := exists_ok_of_any computed
  cases plans.added.symm.trans added
  suffices all : ∀ static, Group.Offers entered (i.edits .preCopy) ⟨"a", "help", "()V"⟩ static →
      static = true from
    fun static rival offers offers' => (all static offers).trans (all rival offers').symm
  rintro rival (⟨bytes, c, m, stored, read, found, _⟩ | ⟨e, mem, provides⟩)
  · have none : entry = [] := by
      have same : i.config = .library := (Weaver.registrations_addMixins added).1
      have entries := plans.entries
      rw [Weaver.entryEdits, same] at entries
      cases entries
      rfl
    subst none
    cases Group.eq_of_run_nil run
    cases stored
    have absent : ((ClassFile.parse bareClass).toOption.any fun c =>
        (c.method? "help" "()V").isNone) = true := by
      decide +kernel
    obtain ⟨c', read', absent⟩ := exists_ok_of_any absent
    cases read.symm.trans read'
    rw [found] at absent
    cases absent
  · have all := List.all_eq_true.1 static _ (Weaver.mem_edits.1 mem)
    exact static_of_providesStatic all provides

theorem injectAll_answered_helper : ∃ report woven,
    injectAll helperHooks .library [helperMixin] noFiles helperBatch = (.ok report, woven) ∧
    Injects helperHooks .library [helperMixin] noFiles helperBatch "b"
      (.method Opcode.invokestatic ⟨"a", "help", "()V"⟩ false) ∧
    woven.Declares "a" "help" "()V" true := by
  have computed :
      ((injectAll helperHooks .library [helperMixin] noFiles helperBatch).1.toOption.any
        fun _ => true) = true := by
    decide +kernel
  have written : (((Weaver.new helperHooks .library).addMixins [helperMixin]).toOption.any
      fun (i : Weaver) => (ClassPath.load noFiles []).toOption.any fun (headers : HeaderMap) =>
        (i.entryEdits helperBatch).toOption.any fun entry =>
          decide (∀ h c, Weaver.Writes headers (i.passes entry) helperBatch h c →
            c.Lossless h)) = true := by
    decide +kernel
  rcases run : injectAll helperHooks .library [helperMixin] noFiles helperBatch with ⟨made, woven⟩
  rw [run] at computed
  obtain ⟨report, rfl, _⟩ := exists_ok_of_any computed
  have injects := injects_helper (by decide) run
  obtain ⟨i, headers, entry, first, entered, plans, entering, names, answered⟩ :=
    injectAll_answered (fun i headers entry plans => by
      obtain ⟨i', added, written⟩ := exists_ok_of_any written
      obtain ⟨headers', load, written⟩ := exists_ok_of_any written
      cases plans.added.symm.trans added
      cases plans.load.symm.trans load
      obtain ⟨entry', entries, written⟩ := exists_ok_of_any written
      cases plans.entries.symm.trans entries
      exact of_decide_eq_true written) run
  obtain ⟨static, declares, fits⟩ := (answered _ _ _ _ injects).declared (names ▸ by decide)
  rw [fits (unrivalled_helper plans entering)] at declares
  exact ⟨report, woven, rfl, injects, declares⟩

/-- A batch without the class that the mixin is for, and one where an instance method has the
signature that the static one would have. -/
def loneBatch : Batch := Batch.ofList [hookedClass]

def rivalBatch : Batch := Batch.ofList [("a", voidClass [97] [104, 101, 108, 112] 1 1), hookedClass]

/-- A call can go to a class that is not there, and to an instance method as if it were static. -/
theorem unanswered_helper :
    (¬ ∀ (hooks : HookTable) (config : InjectionSettings) (mixins : List Mixin) (files : Files)
      (b woven : Batch) (report : InjectionReport) (name : String) (op : Opcode)
      (callee : MemberRef) (ofInterface : Bool),
      injectAll hooks config mixins files b = (.ok report, woven) →
      Injects hooks config mixins files b name (.method op callee ofInterface) →
      woven.Declares callee.owner callee.name callee.desc (op == Opcode.invokestatic)) ∧
    ¬ ∀ (hooks : HookTable) (config : InjectionSettings) (mixins : List Mixin) (files : Files)
      (b woven : Batch) (report : InjectionReport) (name : String) (op : Opcode)
      (callee : MemberRef) (ofInterface : Bool), callee.owner ∈ b.names →
      injectAll hooks config mixins files b = (.ok report, woven) →
      Injects hooks config mixins files b name (.method op callee ofInterface) →
      woven.Declares callee.owner callee.name callee.desc (op == Opcode.invokestatic) := by
  constructor
  · intro answers
    have computed :
        ((injectAll helperHooks .library [helperMixin] noFiles loneBatch).1.toOption.any fun _ =>
          ((injectAll helperHooks .library [helperMixin] noFiles loneBatch).2.get? "a").isNone) =
        true := by
      decide +kernel
    rcases run : injectAll helperHooks .library [helperMixin] noFiles loneBatch with ⟨made, woven⟩
    rw [run] at computed
    obtain ⟨report, rfl, absent⟩ := exists_ok_of_any computed
    obtain ⟨bytes, c, m, stored, _⟩ :=
      answers _ _ _ _ _ _ _ _ _ _ _ run (injects_helper (by decide) run)
    rw [stored] at absent
    cases absent
  · intro answers
    have computed :
        ((injectAll helperHooks .library [helperMixin] noFiles rivalBatch).1.toOption.any fun _ =>
          ((injectAll helperHooks .library [helperMixin] noFiles rivalBatch).2.get? "a").any
            fun bytes => (ClassFile.parse bytes).toOption.any fun c =>
              (c.method? "help" "()V").any fun m => !m.isStatic) = true := by
      decide +kernel
    rcases run : injectAll helperHooks .library [helperMixin] noFiles rivalBatch with ⟨made, woven⟩
    rw [run] at computed
    obtain ⟨report, rfl, rival⟩ := exists_ok_of_any computed
    obtain ⟨bytes, c, m, stored, read, found, static⟩ :=
      answers _ _ _ _ _ _ _ _ _ _ _ (by decide) run (injects_helper (by decide) run)
    rw [stored, Option.any_some, read] at rival
    replace rival : (!m.isStatic) = true := by
      simpa [Except.toOption, found] using rival
    rw [static] at rival
    cases rival

end ClassWeave
