import Mathlib.Data.List.Basic
import ClassWeave.Proofs.Steps
import ClassWeave.Proofs.Synthesized
import ClassWeave.Proofs.Unchanged

/-!
# Edits in effect

An edit has nothing to do in a class exactly if it is in effect there: what it adds is in place, its
callback is called by every body that takes it, its delegate has the whole body, its entry point
renames nothing. What one edit has done to bodies is kept by every other that does not undo it, and
is read from what is written of the class. It is in effect then, unless a callback goes in front of
returns that there are not.
-/

set_option autoImplicit false

namespace ClassWeave

def Method.Calls (m : Method) (callee : MemberRef) : Prop :=
  ∃ code, m.code = some code ∧ code.hasCallOf callee = true

/-- The callback has a place to go to, calls in some of the methods that it goes to, and passes the
others over, which are constructors that it does not match. -/
structure Callback.InEffect (cb : Callback) (c : ClassFile) : Prop where
  placed : cb.target = .constructors → cb.placement = .after
  called : ∃ m, Edit.Targets cb c m ∧ m.Calls cb.method
  settled : ∃ callback, MethodDescriptor.parse cb.method.desc = .ok callback ∧
    ∀ m, Edit.Targets cb c m →
      m.Calls cb.method ∨ Edit.spliceMethod cb callback c.name m = .ok .skipped

namespace Edit

/-- What the edit would do to the class has been done. -/
def InEffect (ctx : EditContext) (c : ClassFile) : Edit → Prop
  | .injectCallback cb => cb.InEffect c
  | .replaceMethod name desc delegate invoke => ∃ m hooked code, c.method? name desc = some m ∧
      m.descriptor = .ok hooked ∧ m.code = some code ∧
      delegateBody ("replace " ++ c.name ++ "." ++ name ++ desc) m.isStatic hooked delegate invoke =
        .ok code.insns
  | .appletToPanel legacy component engine => c.Mentions legacy →
      renameReferences (entryRenaming ctx.hierarchy c legacy component engine) c = c
  | e => e.Present ctx.batch.names c

variable {ctx : EditContext} {e : Edit} {c : ClassFile}

theorem idle_iff_present (additive : e.Additive) : e.Idle ctx c ↔ e.Present ctx.batch.names c := by
  refine ⟨?_, idle_of_present⟩
  rintro (run | ⟨source, run⟩)
  · exact (added_of_run additive run).present
  · exact (present_of_missing additive run).2

theorem idle_iff_of_neverMissing (never : NeverMissing ((e.apply ctx).run c).1) :
    e.Idle ctx c ↔ (e.apply ctx).run c = (.ok false, c) := by
  refine ⟨fun idle => idle.resolve_right ?_, .inl⟩
  rintro ⟨source, run⟩
  exact never source (congrArg Prod.fst run)

section Callback

variable {cb : Callback} {callback : MethodDescriptor} {owner : String} {m : Method}

theorem present_iff_calls :
    spliceMethod cb callback owner m = .ok .present ↔ m.Calls cb.method := by
  constructor
  · intro present
    obtain ⟨code, body, called⟩ := spliceMethod_cases present
    exact ⟨code, body, called⟩
  · rintro ⟨code, body, called⟩
    unfold spliceMethod
    rw [body]
    exact if_pos called

theorem exists_callbackSites (placed : cb.target = .constructors → cb.placement = .after)
    (target : Targets cb c m) : ∃ sites, callbackSites cb c = .ok sites := by
  unfold callbackSites
  unfold Targets at target
  cases goes : cb.target with
  | method name desc =>
    rw [goes] at target
    dsimp only at target ⊢
    cases index : c.methods.findIdx? (Method.hasSignature name desc) with
    | some i => exact ⟨[i], rfl⟩
    | none =>
      have fits := List.find?_some target
      rw [List.findIdx?_eq_none_iff] at index
      rw [index m (List.mem_of_find?_eq_some target)] at fits
      cases fits
  | constructors =>
    dsimp only
    rw [placed goes]
    exact ⟨_, rfl⟩

theorem placed_of_callbackSites {sites : List Nat} (located : callbackSites cb c = .ok sites)
    (goes : cb.target = .constructors) : cb.placement = .after := by
  unfold callbackSites at located
  rw [goes] at located
  cases place : cb.placement with
  | before =>
    rw [place] at located
    cases located
  | after => rfl

theorem idle_callback_iff : (Edit.injectCallback cb).Idle ctx c ↔ cb.InEffect c := by
  have never : NeverMissing (((Edit.injectCallback cb).apply ctx).run c).1 :=
    neverMissing_applyCallback cb c
  refine (idle_iff_of_neverMissing never).trans ?_
  show applyCallback cb c = (.ok false, c) ↔ _
  constructor
  · intro run
    obtain ⟨sites, callback, located, parsed, spliced⟩ := applyCallback_ok_iff.1 run
    obtain ⟨all, matches_iff, changes_iff⟩ :=
      splicedAll_of_run (nodup_callbackSites located) spliced
    have kept {i : Nat} {outcome : CallbackOutcome} (mem : i ∈ sites)
        (here : outcomeAt cb callback c i = .ok outcome) : outcome.isSplice = false := by
      by_contra takes
      exact Bool.noConfusion
        (changes_iff.2 (.inr ⟨i, mem, outcome, here, by simpa using takes⟩))
    refine ⟨placed_of_callbackSites located, ?_, callback, parsed, fun m target => ?_⟩
    · obtain ⟨i, mem, outcome, here, isMatch⟩ := (matches_iff.1 rfl).resolve_left Bool.noConfusion
      have still := kept mem here
      cases outcome with
      | skipped => cases isMatch
      | spliced code => cases still
      | present =>
        cases found : c.methods[i]? with
        | none =>
          rw [outcomeAt, found] at here
          cases here
        | some m =>
          rw [outcomeAt_eq found] at here
          exact ⟨m, (targets_iff located).2 ⟨i, mem, found⟩, present_iff_calls.1 here⟩
    · obtain ⟨i, mem, found⟩ := (targets_iff located).1 target
      obtain ⟨outcome, here⟩ := all.answered i mem
      have still := kept mem here
      rw [outcomeAt_eq found] at here
      cases outcome with
      | present => exact .inl (present_iff_calls.1 here)
      | skipped => exact .inr here
      | spliced code => cases still
  · rintro ⟨placed, ⟨m, target, calls⟩, callback, parsed, settled⟩
    obtain ⟨sites, located⟩ := exists_callbackSites placed target
    have kept : ∀ i ∈ sites, ∃ outcome, outcomeAt cb callback c i = .ok outcome ∧
        outcome.isSplice = false := by
      intro i mem
      cases found : c.methods[i]? with
      | none => exact ⟨.skipped, by rw [outcomeAt, found], rfl⟩
      | some m =>
        rw [outcomeAt_eq found]
        rcases settled m ((targets_iff located).2 ⟨i, mem, found⟩) with calls | skipped
        · exact ⟨.present, present_iff_calls.2 calls, rfl⟩
        · exact ⟨.skipped, skipped, rfl⟩
    obtain ⟨matched, spliced⟩ := spliceAll_of_kept false false kept
    obtain ⟨i, mem, found⟩ := (targets_iff located).1 target
    have present : outcomeAt cb callback c i = .ok .present :=
      (outcomeAt_eq found).trans (present_iff_calls.2 calls)
    obtain rfl : matched = true := (splicedAll_of_run (nodup_callbackSites located) spliced).2.1.2
      (.inr ⟨i, mem, .present, present, rfl⟩)
    exact applyCallback_ok_iff.2 ⟨sites, callback, located, parsed, spliced⟩

end Callback

theorem replaceBody_unchanged_iff {name desc : String} {m : Method} {code : Code}
    (found : c.method? name desc = some m) :
    c.replaceBody name desc code = .ok (false, c) ↔ m.code.map Code.insns = some code.insns := by
  rw [ClassFile.replaceBody, found]
  dsimp only
  split
  · rename_i same
    exact iff_of_true rfl same
  · rename_i differs
    refine iff_of_false ?_ differs
    intro replaced
    cases congrArg (Except.map Prod.fst) replaced

theorem idle_delegate_iff {name desc : String} {delegate : MemberRef} {invoke : Opcode} :
    (Edit.replaceMethod name desc delegate invoke).Idle ctx c ↔
      (Edit.replaceMethod name desc delegate invoke).InEffect ctx c := by
  have never : NeverMissing (((Edit.replaceMethod name desc delegate invoke).apply ctx).run c).1 :=
    neverMissing_applyDelegate name desc delegate invoke
  refine (idle_iff_of_neverMissing never).trans (applyDelegate_ok_iff.trans ?_)
  constructor
  · rintro ⟨m, hooked, insns, found, described, made, replaced⟩
    obtain ⟨code, body, rfl⟩ :=
      Option.map_eq_some_iff.1 ((replaceBody_unchanged_iff found).1 replaced)
    exact ⟨m, hooked, code, found, described, body, made⟩
  · rintro ⟨m, hooked, code, found, described, body, made⟩
    refine ⟨m, hooked, code.insns, found, described, made, (replaceBody_unchanged_iff found).2 ?_⟩
    rw [body]
    rfl

theorem idle_entryPoint_iff {legacy component engine : String} :
    (Edit.appletToPanel legacy component engine).Idle ctx c ↔
      (Edit.appletToPanel legacy component engine).InEffect ctx c := by
  have never : NeverMissing (((Edit.appletToPanel legacy component engine).apply ctx).run c).1 :=
    neverMissing_applyEntryPoint legacy component engine
  refine (idle_iff_of_neverMissing never).trans ?_
  show applyEntryPoint ctx legacy component engine c = _ ↔ (c.Mentions legacy → _)
  rw [applyEntryPoint_run]
  split
  · rename_i unmentioned
    exact iff_of_true rfl fun mentions => (not_or.2 unmentioned mentions).elim
  · rename_i mentioned
    have mentions : c.Mentions legacy := by
      by_contra unmentioned
      exact mentioned (not_or.1 unmentioned)
    split
    · rename_i same
      exact iff_of_true rfl fun _ => same
    · rename_i differs
      refine iff_of_false (fun run => ?_) fun same => differs (same mentions)
      cases congrArg Prod.fst run

theorem idle_iff : e.Idle ctx c ↔ e.InEffect ctx c := by
  cases e with
  | injectCallback cb => exact idle_callback_iff
  | replaceMethod name desc delegate invoke => exact idle_delegate_iff
  | appletToPanel legacy component engine => exact idle_entryPoint_iff
  | _ => exact idle_iff_present trivial

section

variable {cb : Callback} {callback : MethodDescriptor} {owner : String} {m m' : Method}

theorem spliceMethod_keptIn (kept : m.KeptIn m') {outcome : CallbackOutcome}
    (made : spliceMethod cb callback owner m = .ok outcome) :
    ∃ outcome', spliceMethod cb callback owner m' = .ok outcome' ∧
      (outcome.isMatch = true → outcome'.isMatch = true) ∧
      (outcome'.isSplice = true → outcome.isSplice = true) := by
  obtain ⟨head, bodies⟩ := kept
  obtain ⟨⟨name, desc⟩, static⟩ := Method.outline_eq_iff.1 head
  cases body : m.code with
  | none =>
    unfold spliceMethod at made
    rw [body] at made
    cases made
  | some code =>
    obtain ⟨code', body', kept⟩ := bodies code body
    rw [Option.mem_def] at body'
    by_cases called' : code'.hasCallOf cb.method = true
    · refine ⟨.present, ?_, fun _ => rfl, nofun⟩
      unfold spliceMethod
      rw [body']
      exact if_pos called'
    · have called : ¬ code.hasCallOf cb.method = true := fun called =>
        called' (kept.hasCallOf called)
      unfold spliceMethod at made ⊢
      rw [body] at made
      rw [body']
      dsimp only at made ⊢
      rw [if_neg called] at made
      have descriptor : m'.descriptor = m.descriptor := congrArg MethodDescriptor.parse desc
      rw [if_neg called', descriptor, name, desc, static]
      obtain ⟨hooked, described, made⟩ := bind_ok_iff.1 made
      obtain ⟨answer, found, made⟩ := bind_ok_iff.1 made
      obtain ⟨answer', found', same⟩ := exists_callbackInsns found
        (Synthesis.spareSlot code' (hooked.paramSlots + if m.isStatic then 0 else 1))
      rw [described]
      dsimp only [bind, Except.bind]
      rw [found']
      cases answer with
      | none =>
        obtain rfl : answer' = none := by simpa using same
        dsimp only at made ⊢
        split at made
        · rename_i goes
          cases made
          exact ⟨.skipped, if_pos goes, id, id⟩
        · cases made
      | some insns =>
        obtain ⟨insns', rfl⟩ := Option.isSome_iff_exists.1 same
        cases made
        exact ⟨_, rfl, id, id⟩

/-- The callback has done what it can for the method: it is called there, passes the method over, or
would go in front of returns that there are not. -/
def Served (cb : Callback) (callback : MethodDescriptor) (owner : String) (m : Method) : Prop :=
  ∃ outcome, spliceMethod cb callback owner m = .ok outcome ∧ (outcome.isSplice = true →
    cb.placement = .after ∧ ∀ code, m.code = some code → code.returns = [])

theorem Served.keptIn (served : Served cb callback owner m) (kept : m.KeptIn m') :
    Served cb callback owner m' := by
  obtain ⟨outcome, made, stranded⟩ := served
  obtain ⟨code, body, _⟩ := spliceMethod_cases made
  obtain ⟨code', body', bodyKept⟩ := kept.code code body
  obtain ⟨outcome', made', _, splices⟩ := spliceMethod_keptIn kept made
  refine ⟨outcome', made', fun takes => ?_⟩
  obtain ⟨after, none⟩ := stranded (splices takes)
  refine ⟨after, fun code'' body'' => ?_⟩
  cases body'.symm.trans body''
  exact bodyKept.returns (none code body)

theorem served_splicedInto {outcome : CallbackOutcome}
    (made : spliceMethod cb callback owner m = .ok outcome) :
    Served cb callback owner (splicedInto cb callback owner m) ∧ (outcome.isMatch = true →
      ∃ outcome', spliceMethod cb callback owner (splicedInto cb callback owner m) = .ok outcome' ∧
        outcome'.isMatch = true) := by
  cases takes : outcome.isSplice with
  | false =>
    rw [splicedInto_eq_self made takes]
    refine ⟨⟨outcome, made, fun splices => ?_⟩, fun isMatch => ⟨outcome, made, isMatch⟩⟩
    rw [takes] at splices
    cases splices
  | true =>
    cases outcome with
    | present => cases takes
    | skipped => cases takes
    | spliced code' =>
      by_cases placed : ∀ code, m.code = some code → cb.placement = .after → code.returns ≠ []
      · have present := present_splicedInto made placed
        exact ⟨⟨.present, present, nofun⟩, fun _ => ⟨.present, present, rfl⟩⟩
      · push Not at placed
        obtain ⟨code, body, after, none⟩ := placed
        rw [splicedInto_of_no_return made after body none]
        refine ⟨⟨_, made, fun _ => ⟨after, fun code' body' => ?_⟩⟩, fun _ => ⟨_, made, rfl⟩⟩
        cases body.symm.trans body'
        exact none

end

end Edit

open Edit

/-- The callback has done what it can for the class. -/
structure Callback.Reached (cb : Callback) (c : ClassFile) : Prop where
  placed : cb.target = .constructors → cb.placement = .after
  served : ∃ callback, MethodDescriptor.parse cb.method.desc = .ok callback ∧
    (∀ m, Targets cb c m → Served cb callback c.name m) ∧ ∃ m outcome, Targets cb c m ∧
      spliceMethod cb callback c.name m = .ok outcome ∧ outcome.isMatch = true

namespace Callback

variable {cb : Callback} {c c' : ClassFile} {now : Bool}

theorem reached_of_run (run : applyCallback cb c = (.ok now, c')) : cb.Reached c' := by
  obtain ⟨sites, callback, located, parsed, spliced⟩ := applyCallback_ok_iff.1 run
  obtain ⟨all, matches_iff, _⟩ := splicedAll_of_run (nodup_callbackSites located) spliced
  have located' : callbackSites cb c' = .ok sites :=
    (callbackSites_congr all.name all.signatures).trans located
  refine ⟨placed_of_callbackSites located, callback, parsed, fun m' target => ?_, ?_⟩
  · obtain ⟨i, mem, found'⟩ := (targets_iff located').1 target
    cases found : c.methods[i]? with
    | none =>
      rw [all.method, if_pos mem, found] at found'
      cases found'
    | some m =>
      -- the method behind the edit is the one at its place with the splice
      cases (all.found mem found).symm.trans found'
      obtain ⟨outcome, here⟩ := all.answered i mem
      rw [outcomeAt_eq found] at here
      rw [all.name]
      exact (served_splicedInto here).1
  · obtain ⟨i, mem, outcome, here, isMatch⟩ := (matches_iff.1 rfl).resolve_left Bool.noConfusion
    cases found : c.methods[i]? with
    | none =>
      rw [outcomeAt, found] at here
      cases here
      cases isMatch
    | some m =>
      rw [outcomeAt_eq found] at here
      obtain ⟨outcome', made', isMatch'⟩ := (served_splicedInto here).2 isMatch
      rw [all.name]
      exact ⟨_, outcome', (targets_iff located').2 ⟨i, mem, all.found mem found⟩, made', isMatch'⟩

theorem inEffect_iff_reached :
    cb.InEffect c ↔ cb.Reached c ∧ ¬ (Edit.injectCallback cb).Stranded c := by
  constructor
  · rintro ⟨placed, ⟨m, target, calls⟩, callback, parsed, settled⟩
    refine ⟨⟨placed, callback, parsed, fun m target => ?_, m, .present, target,
      present_iff_calls.2 calls, rfl⟩, ?_⟩
    · rcases settled m target with calls | skipped
      · exact ⟨.present, present_iff_calls.2 calls, nofun⟩
      · exact ⟨.skipped, skipped, nofun⟩
    · rintro ⟨_, m, code, callback', spliced, target, _, _, parsed', made⟩
      cases parsed.symm.trans parsed'
      rcases settled m target with calls | skipped
      · cases made.symm.trans (present_iff_calls.2 calls)
      · cases made.symm.trans skipped
  · rintro ⟨⟨placed, callback, parsed, served, m, outcome, target, made, isMatch⟩, unstranded⟩
    have kept {m : Method} {code' : Code} (target : Targets cb c m)
        (made : spliceMethod cb callback c.name m = .ok (.spliced code')) : False := by
      obtain ⟨outcome, made', stranded⟩ := served m target
      cases made.symm.trans made'
      obtain ⟨after, none⟩ := stranded rfl
      obtain ⟨code, _, body, _⟩ := spliceMethod_spliced made
      exact unstranded ⟨after, m, code, callback, code', target, body, none code body, parsed, made⟩
    refine ⟨placed, ⟨m, target, ?_⟩, callback, parsed, fun m target => ?_⟩
    · cases outcome with
      | present => exact present_iff_calls.1 made
      | skipped => cases isMatch
      | spliced code' => exact (kept target made).elim
    · obtain ⟨outcome, made, _⟩ := served m target
      cases outcome with
      | present => exact .inl (present_iff_calls.1 made)
      | skipped => exact .inr made
      | spliced code' => exact (kept target made).elim

end Callback

section

variable {R : Method → Method → Prop} {New : Method → Prop} {c c' : ClassFile}

theorem Callback.Reached.follows {cb : Callback} (reached : cb.Reached c)
    (follows : c.Follows R New c') (heads : ∀ m m', R m m' → m'.outline = m.outline)
    (kept : ∀ m m', R m m' → cb.Selects m.name m.desc → m.KeptIn m')
    (fresh : cb.target = .constructors → ∀ m, New m → m.name ≠ "<init>") : cb.Reached c' := by
  obtain ⟨placed, callback, parsed, served, m, outcome, target, made, isMatch⟩ := reached
  have forward {m : Method} (target : Targets cb c m) :
      ∃ m', Targets cb c' m' ∧ m.KeptIn m' := by
    have selects := target.selects
    unfold Targets at target ⊢
    cases goes : cb.target with
    | method name desc =>
      rw [goes] at target
      obtain ⟨m', found, related⟩ := follows.method? heads target
      exact ⟨m', found, kept m m' related selects⟩
    | constructors =>
      rw [goes] at target
      obtain ⟨_, old, more, methods, each, _⟩ := follows
      obtain ⟨m', mem, related⟩ := exists_right_of_forall₂ each target.1
      have sameName := (Method.outline_eq_iff.1 (heads m m' related)).1.1
      exact ⟨m', ⟨methods ▸ List.mem_append_left more mem, sameName.trans target.2⟩,
        kept m m' related selects⟩
  have backward {m' : Method} (target' : Targets cb c' m') :
      ∃ m, Targets cb c m ∧ m.KeptIn m' := by
    cases goes : cb.target with
    | method name desc =>
      obtain ⟨m₁, target₁, kept⟩ := forward target
      unfold Targets at target' target₁
      rw [goes] at target' target₁
      cases target'.symm.trans target₁
      exact ⟨m, target, kept⟩
    | constructors =>
      have selects := target'.selects
      unfold Targets at target'
      rw [goes] at target'
      obtain ⟨mem, isConstructor⟩ := target'
      obtain ⟨_, old, more, methods, each, new⟩ := follows
      rw [methods] at mem
      rcases List.mem_append.1 mem with mem | mem
      · obtain ⟨m, listed, related⟩ := exists_left_of_forall₂ each mem
        have sameName := (Method.outline_eq_iff.1 (heads m m' related)).1.1
        have target : Targets cb c m := by
          unfold Targets
          rw [goes]
          exact ⟨listed, sameName.symm.trans isConstructor⟩
        exact ⟨m, target, kept m m' related target.selects⟩
      · exact absurd isConstructor (fresh goes m' (new m' mem))
  refine ⟨placed, callback, parsed, fun m' target' => ?_, ?_⟩
  · obtain ⟨m, target, kept⟩ := backward target'
    rw [follows.name]
    exact (served m target).keptIn kept
  · obtain ⟨m', target', kept⟩ := forward target
    obtain ⟨outcome', made', matched, _⟩ := spliceMethod_keptIn kept made
    rw [follows.name]
    exact ⟨m', outcome', target', made', matched isMatch⟩

end

namespace Edit

open Synthesis

def Reached (ctx : EditContext) (c : ClassFile) : Edit → Prop
  | .injectCallback cb => cb.Reached c
  | .replaceMethod name desc delegate invoke =>
    (Edit.replaceMethod name desc delegate invoke).InEffect ctx c
  | _ => True

/-- Nothing stands against an edit that has done what it could: no callback is stranded, and the
entry point finds nothing to rename. -/
def Unhindered (ctx : EditContext) (c : ClassFile) : Edit → Prop
  | .appletToPanel legacy component engine =>
    (Edit.appletToPanel legacy component engine).InEffect ctx c
  | e => ¬ e.Stranded c

def callback? : Edit → Option Callback
  | .injectCallback cb => some cb
  | _ => none

def delegation? : Edit → Option ((String × String) × MemberRef × Opcode)
  | .replaceMethod name desc delegate invoke => some ((name, desc), delegate, invoke)
  | _ => none

/-- The edit may take back what the other one did to a body: a callback and a delegate go to one
method, two delegates do, or a new constructor comes in where a callback goes behind all of them. -/
def Undoes (e' e : Edit) : Prop :=
  (∃ cb ∈ e.callback?, (cb.target = .constructors ∧ e'.Brings "<init>") ∨
    ∃ d ∈ e'.delegation?, cb.Selects d.1.1 d.1.2) ∨
  ∃ d ∈ e.delegation?, (∃ cb ∈ e'.callback?, cb.Selects d.1.1 d.1.2) ∨
    ∃ d' ∈ e'.delegation?, d'.1 = d.1 ∧ d'.2 ≠ d.2

instance (e' e : Edit) : Decidable (e'.Undoes e) := inferInstanceAs (Decidable (_ ∨ _))

variable {ctx ctx' : EditContext} {e e' : Edit} {c c' : ClassFile} {now : Bool}

theorem inEffect_iff_unhindered (bodies : ¬ e.Additive) (reached : e.Reached ctx c) :
    e.InEffect ctx c ↔ e.Unhindered ctx c := by
  cases e with
  | injectCallback cb =>
    exact Callback.inEffect_iff_reached.trans ⟨And.right, fun unstranded => ⟨reached, unstranded⟩⟩
  | replaceMethod name desc delegate invoke => exact iff_of_true reached id
  | appletToPanel legacy component engine => exact Iff.rfl
  | _ => exact absurd trivial bodies

theorem unhindered_of_additive (additive : e.Additive) : e.Unhindered ctx c := by
  cases e with
  | injectCallback cb => exact additive.elim
  | appletToPanel legacy component engine => exact additive.elim
  | _ => exact id

theorem Reached.congr (reached : e.Reached ctx c) : e.Reached ctx' c := by
  cases e <;> exact reached

theorem reached_of_run (run : (e.apply ctx).run c = (.ok now, c')) : e.Reached ctx c' := by
  cases e with
  | injectCallback cb => exact Callback.reached_of_run run
  | replaceMethod name desc delegate invoke =>
    have idle : (Edit.replaceMethod name desc delegate invoke).Idle ctx c' :=
      .inl (settles_applyDelegate run).again
    exact idle_delegate_iff.1 idle
  | _ => exact True.intro

theorem plain_delegateBody {context : String} {hookedStatic : Bool} {hooked : MethodDescriptor}
    {delegate : MemberRef} {invoke : Opcode} {insns : List Insn}
    (made : delegateBody context hookedStatic hooked delegate invoke = .ok insns) :
    ∀ i ∈ insns.dropLast, i.isPlain = true := by
  unfold delegateBody at made
  obtain ⟨d, _, made⟩ := bind_ok_iff.1 made
  by_cases static : invoke ≠ Opcode.invokestatic ∧ hookedStatic = true
  · rw [if_pos static] at made
    cases made
  · rw [if_neg static] at made
    dsimp only at made
    split at made
    · cases made
    · obtain ⟨passed, result, made⟩ := bind_ok_iff.1 made
      cases made
      rw [List.dropLast_concat]
      simp only [List.forall_mem_append, List.forall_mem_cons]
      exact ⟨⟨plain_receiver _, plain_loadParams _ _⟩, rfl, plain_passResult result⟩

theorem Reached.follows_delegate {R : Method → Method → Prop} {New : Method → Prop}
    {name desc : String} {delegate : MemberRef} {invoke : Opcode}
    (reached : (Edit.replaceMethod name desc delegate invoke).Reached ctx c)
    (follows : c.Follows R New c') (heads : ∀ m m', R m m' → m'.outline = m.outline)
    (kept : ∀ m m' code, R m m' → m.name = name ∧ m.desc = desc → m.code = some code →
      (∀ i ∈ code.insns.dropLast, i.isPlain = true) →
        ∃ code', m'.code = some code' ∧ code'.insns = code.insns) :
    (Edit.replaceMethod name desc delegate invoke).Reached ctx c' := by
  obtain ⟨m, hooked, code, found, described, body, made⟩ := reached
  obtain ⟨m', found', related⟩ := follows.method? heads found
  obtain ⟨⟨_, sameDesc⟩, sameStatic⟩ := Method.outline_eq_iff.1 (heads m m' related)
  obtain ⟨code', body', same⟩ :=
    kept m m' code related (method?_signature found) body (plain_delegateBody made)
  refine ⟨m', hooked, code', found', ?_, body', ?_⟩
  · rw [Method.descriptor, sameDesc]
    exact described
  · rw [follows.name, sameStatic, same]
    exact made

theorem Reached.kept (reached : e.Reached ctx c) (leaves : e'.LeavesMembers)
    (apart : ¬ e'.Undoes e) (run : (e'.apply ctx).run c = (.ok now, c')) : e.Reached ctx c' := by
  have follows := follows_of_run leaves run
  have heads := fun m m' (turns : e'.Turns m m') => turns.outline
  cases e with
  | injectCallback cb =>
    refine Callback.Reached.follows reached follows heads (fun m m' turns selects => ?_)
      fun goes m brings isConstructor => ?_
    · rcases turns with rfl | turned
      · exact .refl m
      · cases e' with
        | injectCallback cb' => exact turned.2
        | replaceMethod name desc delegate invoke =>
          obtain ⟨⟨rfl, rfl⟩, _⟩ := turned
          exact absurd (.inl ⟨cb, rfl, .inr ⟨_, rfl, selects⟩⟩) apart
        | _ => exact turned.elim
    · exact apart (.inl ⟨cb, rfl, .inl ⟨goes, isConstructor ▸ brings⟩⟩)
  | replaceMethod name desc delegate invoke =>
    by_cases again : e' = .replaceMethod name desc delegate invoke
    · subst again
      exact reached_of_run run
    · refine Reached.follows_delegate reached follows heads fun m m' code turns here body _ => ?_
      rcases turns with rfl | turned
      · exact ⟨code, body, rfl⟩
      · obtain ⟨rfl, rfl⟩ := here
        cases e' with
        | injectCallback cb' =>
          exact absurd (.inr ⟨_, rfl, .inl ⟨cb', rfl, turned.1⟩⟩) apart
        | replaceMethod name' desc' delegate' invoke' =>
          obtain ⟨⟨rfl, rfl⟩, _⟩ := turned
          refine absurd (.inr ⟨_, rfl, .inr ⟨_, rfl, rfl, fun same => again ?_⟩⟩) apart
          cases same
          rfl
        | _ => exact turned.elim
  | _ => exact True.intro

end Edit

/-- What is read of a body that was written: its calls are there, no return is new, and a body that
goes straight through is the same. -/
structure Code.ReadAs (c c' : Code) : Prop where
  kept : c.KeptIn c'
  straight : (∀ i ∈ c.insns.dropLast, i.isPlain = true) → c'.insns = c.insns

structure Method.ReadAs (m m' : Method) : Prop where
  outline : m'.outline = m.outline
  code : ∀ code ∈ m.code, ∃ code' ∈ m'.code, code.ReadAs code'

theorem Method.ReadAs.keptIn {m m' : Method} (read : m.ReadAs m') : m.KeptIn m' where
  outline := read.outline
  code code body := by
    obtain ⟨code', body', read⟩ := read.code code body
    exact ⟨code', body', read.kept⟩

theorem Edit.Reached.readAs {ctx : EditContext} {e : Edit} {c c' : ClassFile}
    (reached : e.Reached ctx c) (name : c'.name = c.name)
    (methods : List.Forall₂ Method.ReadAs c.methods c'.methods) : e.Reached ctx c' := by
  have follows : c.Follows Method.ReadAs (fun _ => False) c' :=
    ⟨name, _, [], (List.append_nil _).symm, methods, List.forall_mem_nil _⟩
  have heads := fun m m' (read : Method.ReadAs m m') => read.outline
  cases e with
  | injectCallback cb =>
    exact Callback.Reached.follows reached follows heads (fun m m' read _ => read.keptIn)
      fun _ m absurd => absurd.elim
  | replaceMethod name desc delegate invoke =>
    refine Reached.follows_delegate reached follows heads fun m m' code read _ body plain => ?_
    obtain ⟨code', body', same⟩ := read.code code body
    exact ⟨code', body', same.straight plain⟩
  | _ => exact True.intro

section Decidable

theorem Code.keptIn_iff {c c' : Code} : c.KeptIn c' ↔
    (∀ callee ∈ c.insns.filterMap Insn.call?, c'.hasCallOf callee = true) ∧
      (c.returns = [] → c'.returns = []) := by
  refine ⟨fun kept => ⟨fun callee mem => ?_, kept.returns⟩, fun ⟨calls, returns⟩ =>
    ⟨fun _ callee _ mem => calls callee (List.mem_filterMap.2 ⟨_, mem, rfl⟩), returns⟩⟩
  obtain ⟨i, mem, same⟩ := List.mem_filterMap.1 mem
  cases i with
  | method op m ofInterface =>
    cases same
    exact kept.calls op callee ofInterface mem
  | _ => cases same

instance (c c' : Code) : Decidable (c.KeptIn c') := decidable_of_iff' _ Code.keptIn_iff

instance (c c' : Code) : Decidable (c.ReadAs c') :=
  decidable_of_iff (c.KeptIn c' ∧
      ((∀ i ∈ c.insns.dropLast, i.isPlain = true) → c'.insns = c.insns))
    ⟨fun ⟨kept, straight⟩ => ⟨kept, straight⟩, fun ⟨kept, straight⟩ => ⟨kept, straight⟩⟩

instance (m m' : Method) : Decidable (m.ReadAs m') :=
  decidable_of_iff (m'.outline = m.outline ∧
      ∀ code ∈ m.code, ∃ code' ∈ m'.code, code.ReadAs code')
    ⟨fun ⟨outline, code⟩ => ⟨outline, code⟩, fun ⟨outline, code⟩ => ⟨outline, code⟩⟩

end Decidable

end ClassWeave
