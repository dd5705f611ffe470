import ClassWeave.Proofs.EntryPoint
import ClassWeave.Proofs.Splicing

/-!
# The same edit again

An edit says that it changed a class exactly when it did, and the same edit finds nothing left to
do. The exception is a callback behind a method whose body never returns: nothing can be put in
front of its returns, so the body stays without the call, and the edit reports a change every time.
-/

set_option autoImplicit false

namespace ClassWeave

namespace Renaming

def Stable (r : Renaming) : Prop := ∀ name, r.plainName name = name ∨
  ';' ∉ r.plainName name ∧ r.plainName (r.plainName name) = r.plainName name

theorem method_congr {r r' : Renaming} {m m' : MemberRef} (redirect : r'.redirect m' = r.redirect m)
    (desc : r'.desc m'.desc = r.desc m.desc) : r'.method m' = r.method m := by
  unfold method
  rw [redirect, desc]

/-- What the one renaming has renamed stays under the other. -/
structure Absorbs (r' r : Renaming) : Prop where
  className : ∀ name, r'.className (r.className name) = r.className name
  desc : ∀ text, r'.desc (r.desc text) = r.desc text
  field : ∀ m, r'.field (r.field m) = r.field m
  method : ∀ m, r'.method (r.method m) = r.method m

namespace Stable

variable {r : Renaming} (stable : r.Stable)

include stable

theorem innerName {name : List Char} (closed : ';' ∉ name) :
    ';' ∉ r.innerName name ∧ r.innerName (r.innerName name) = r.innerName name := by
  unfold Renaming.innerName
  by_cases array : name.head? = some '['
  · rw [if_pos array, descChars_of_unclosed r closed, if_pos array, descChars_of_unclosed r closed]
    exact ⟨closed, rfl⟩
  · rw [if_neg array]
    rcases stable name with same | ⟨closed', again⟩
    · rw [same, if_neg array, same]
      exact ⟨closed, rfl⟩
    · refine ⟨closed', ?_⟩
      split
      · exact descChars_of_unclosed r closed'
      · exact again

theorem descChars (cs : List Char) : r.descChars (r.descChars cs) = r.descChars cs := by
  induction cs using text_induction with
  | nil => rw [descChars_nil, descChars_nil]
  | plain c cs other ih => rw [descChars_cons r other, descChars_cons r other, ih]
  | marked name rest closed ih =>
    obtain ⟨closed', again⟩ := stable.innerName closed
    rw [descChars_marked r closed, descChars_marked r closed', again, ih]
  | unclosed tail unclosed => rw [descChars_open r unclosed, descChars_open r unclosed]

theorem desc (text : String) : r.desc (r.desc text) = r.desc text := by
  rw [Renaming.desc, Renaming.desc, String.toList_ofList, stable.descChars]

theorem className (name : String) : r.className (r.className name) = r.className name := by
  by_cases array : name.toList.head? = some '['
  · have renamed : r.className name = r.desc name := if_pos array
    have still : (r.desc name).toList.head? = some '[' := by
      obtain ⟨cs, whole⟩ := List.head?_eq_some_iff.1 array
      rw [Renaming.desc, String.toList_ofList, whole, descChars_cons r (by decide)]
      rfl
    rw [renamed]
    exact (if_pos still).trans (stable.desc name)
  · have renamed : r.className name = String.ofList (r.plainName name.toList) := if_neg array
    rcases stable name.toList with same | ⟨closed, again⟩
    · rw [same, String.ofList_toList] at renamed
      rw [renamed, renamed]
    · rw [renamed, Renaming.className, String.toList_ofList]
      split
      · rw [Renaming.desc, String.toList_ofList, descChars_of_unclosed r closed]
      · rw [again]

end Stable

namespace Absorbs

variable {r r' : Renaming}

theorem handle (absorbs : r'.Absorbs r) (h : Handle) : r'.handle (r.handle h) = r.handle h := by
  have isField : (r.handle h).isField = h.isField := rfl
  unfold Renaming.handle at isField ⊢
  dsimp only at isField ⊢
  rw [isField]
  split
  · rw [absorbs.field]
  · rw [absorbs.method]

mutual

theorem loadable (absorbs : r'.Absorbs r) (v : Loadable) :
    r'.loadable (r.loadable v) = r.loadable v := by
  cases v with
  | type name => simp only [Renaming.loadable, absorbs.className]
  | methodType desc => simp only [Renaming.loadable, absorbs.desc]
  | handle h => simp only [Renaming.loadable, absorbs.handle]
  | dynamic name desc h args =>
    simp only [Renaming.loadable, absorbs.desc, absorbs.handle, absorbs.loadables args]
  | _ => simp only [Renaming.loadable]

theorem loadables (absorbs : r'.Absorbs r) (vs : List Loadable) :
    r'.loadables (r.loadables vs) = r.loadables vs := by
  cases vs with
  | nil => simp only [Renaming.loadables]
  | cons v vs => simp only [Renaming.loadables, absorbs.loadable v, absorbs.loadables vs]

end

theorem insn (absorbs : r'.Absorbs r) (i : Insn) : r'.insn (r.insn i) = r.insn i := by
  cases i with
  | callSite name desc b =>
    simp only [Renaming.insn, Renaming.bootstrap, absorbs.desc, absorbs.handle, absorbs.loadables]
  | ldc value => simp only [Renaming.insn, absorbs.loadable]
  | typeOp op name => simp only [Renaming.insn, absorbs.className]
  | newArrays name dims => simp only [Renaming.insn, absorbs.className]
  | field op m => simp only [Renaming.insn, absorbs.field]
  | method op m ofInterface => simp only [Renaming.insn, absorbs.method]
  | _ => rfl

theorem vtype (absorbs : r'.Absorbs r) (t : VType) : r'.vtype (r.vtype t) = r.vtype t := by
  cases t with
  | object name => simp only [Renaming.vtype, absorbs.className]
  | _ => rfl

theorem frame (absorbs : r'.Absorbs r) (f : LabelledFrame) : r'.frame (r.frame f) = r.frame f := by
  simp [Renaming.frame, Function.comp_def, absorbs.vtype]

theorem code (absorbs : r'.Absorbs r) (c : Code) : r'.code (r.code c) = r.code c := by
  simp [Renaming.code, Function.comp_def, absorbs.insn, absorbs.className, absorbs.desc,
    absorbs.frame, List.filter_map, List.filter_filter]

theorem renameReferences (absorbs : r'.Absorbs r) (c : ClassFile) :
    Edit.renameReferences r' (Edit.renameReferences r c) = Edit.renameReferences r c := by
  simp [Edit.renameReferences, Function.comp_def, absorbs.className, absorbs.desc, absorbs.code]

end Absorbs

end Renaming

namespace Edit

/-- What an edit promises that made `c'` of `c`. -/
structure Settles (ctx : EditContext) (e : Edit) (c c' : ClassFile) (now : Bool) : Prop where
  exact : now = true ↔ c' ≠ c
  again : (e.apply ctx).run c' = (.ok false, c')

/-- The callback goes in front of the returns of a body that has none. -/
def Stranded (c : ClassFile) : Edit → Prop
  | .injectCallback cb => cb.placement = .after ∧ ∃ m code callback spliced,
    Targets cb c m ∧ m.code = some code ∧ code.returns = [] ∧
    MethodDescriptor.parse cb.method.desc = .ok callback ∧
    spliceMethod cb callback c.name m = .ok (.spliced spliced)
  | _ => False

def Named : Edit → Prop
  | .appletToPanel legacy component engine =>
    Hierarchy.IsClass legacy ∧ ';' ∉ component.toList ∧ Hierarchy.IsClass engine
  | _ => True

variable {ctx : EditContext} {e : Edit} {c c' : ClassFile} {now : Bool}

/-! Edits that add -/

theorem again_of_additive (additive : e.Additive) (run : (e.apply ctx).run c = (.ok now, c')) :
    (e.apply ctx).run c' = (.ok false, c') := by
  by_cases elsewhere : ∀ source name, e ≠ .copyMethod source name
  · exact run_of_present (added_of_run additive run).present elsewhere
  · obtain ⟨source, name, rfl⟩ : ∃ source name, e = .copyMethod source name := by
      simpa using elsewhere
    exact (applyCopy_run ctx source name c').trans (if_pos (grown_applyCopy run).2.1)

theorem settles_of_additive (additive : e.Additive)
    (run : (e.apply ctx).run c = (.ok now, c')) : e.Settles ctx c c' now := by
  have again := again_of_additive additive run
  refine ⟨⟨fun changed same => ?_, fun differs => ?_⟩, again⟩
  · rw [same, run, changed] at again
    cases again
  · by_contra kept
    exact differs ((added_of_run additive run).kept (Bool.eq_false_iff.2 kept))

/-! Delegates -/

theorem settles_applyDelegate {name desc : String} {delegate : MemberRef} {invoke : Opcode}
    (run : applyDelegate name desc delegate invoke c = (.ok now, c')) :
    (Edit.replaceMethod name desc delegate invoke).Settles ctx c c' now := by
  obtain ⟨m, hooked, insns, found, described, made, replaced⟩ := applyDelegate_ok_iff.1 run
  rw [ClassFile.replaceBody, found] at replaced
  dsimp only at replaced
  split at replaced
  · cases replaced
    exact ⟨by simp, run⟩
  · rename_i differs
    cases replaced
    generalize new : Code.ofInsns insns = code at *
    have found' := method?_updateMethod name desc (fun m =>
      { m with
        access := m.access.remove (Access.abstractBit ||| Access.nativeBit)
        code := some code }) (fun _ => rfl) c
    rw [found] at found'
    refine ⟨⟨fun _ same => ?_, fun _ => rfl⟩, ?_⟩
    · rw [same, found] at found'
      have body := congrArg Method.code (Option.some.inj found')
      exact differs (by rw [body]; rfl)
    · refine applyDelegate_ok_iff.2 ⟨_, hooked, insns, found', described, ?_, ?_⟩
      · rw [Method.isStatic, Access.isStatic_remove]
        exact made
      · rw [ClassFile.replaceBody, found', new]
        exact if_pos rfl

/-! Callbacks -/

section

variable {cb : Callback} {callback : MethodDescriptor} {owner : String} {m : Method}
  {sites : List Nat} {i : Nat}

theorem present_splicedInto {code' : Code}
    (made : spliceMethod cb callback owner m = .ok (.spliced code'))
    (place : ∀ code, m.code = some code → cb.placement = .after → code.returns ≠ []) :
    spliceMethod cb callback owner (splicedInto cb callback owner m) = .ok .present := by
  obtain ⟨code, insns, body, _, once, rfl⟩ := spliceMethod_spliced made
  have called : (code.spliceAt cb.placement insns).hasCallOf cb.method = true :=
    Code.hasCallOf_iff.2 ⟨_, _, Code.mem_spliceAt.2 (.inr ⟨once.mem, place code body⟩)⟩
  rw [splicedInto_eq made]
  unfold spliceMethod
  exact if_pos called

theorem splicedInto_of_no_return {code code' : Code}
    (made : spliceMethod cb callback owner m = .ok (.spliced code')) (after : cb.placement = .after)
    (body : m.code = some code) (none : code.returns = []) :
    splicedInto cb callback owner m = m := by
  obtain ⟨code, insns, body', _, _, rfl⟩ := spliceMethod_spliced made
  rw [body] at body'
  cases body'
  rw [splicedInto_eq made, after, Code.spliceAt_of_no_return none, ← body]

theorem outcomeAt_eq (found : c.methods[i]? = some m) :
    outcomeAt cb callback c i = spliceMethod cb callback c.name m := by
  rw [outcomeAt, found]

theorem exists_of_spliced {outcome : CallbackOutcome}
    (here : outcomeAt cb callback c i = .ok outcome) (takes : outcome.isSplice = true) :
    ∃ m code, c.methods[i]? = some m ∧
      spliceMethod cb callback c.name m = .ok (.spliced code) := by
  cases outcome with
  | spliced code =>
    unfold outcomeAt at here
    split at here
    · cases here
    · rename_i m found
      exact ⟨m, code, found, here⟩
  | present => cases takes
  | skipped => cases takes

namespace SplicedAll

variable (h : SplicedAll cb callback sites c c')

include h

theorem name : c'.name = c.name := by rw [h.rest]

theorem found (mem : i ∈ sites) (found : c.methods[i]? = some m) :
    c'.methods[i]? = some (splicedInto cb callback c.name m) := by
  rw [h.method, if_pos mem, found]
  rfl

theorem outcomeAt_of_kept {outcome : CallbackOutcome} (mem : i ∈ sites)
    (here : outcomeAt cb callback c i = .ok outcome) (kept : outcome.isSplice = false) :
    c'.methods[i]? = c.methods[i]? ∧ outcomeAt cb callback c' i = .ok outcome := by
  have same : c'.methods[i]? = c.methods[i]? := by
    cases found : c.methods[i]? with
    | none => rw [h.method, if_pos mem, found, Option.map_none]
    | some m =>
      rw [outcomeAt_eq found] at here
      rw [h.found mem found, splicedInto_eq_self here kept]
  exact ⟨same, (outcomeAt_congr h.name same).trans here⟩

theorem eq_of_no_splice (none : ¬ SomeSite cb callback sites c CallbackOutcome.isSplice) :
    c' = c := by
  have methods : c'.methods = c.methods := by
    apply List.ext_getElem?
    intro i
    by_cases mem : i ∈ sites
    · obtain ⟨outcome, here⟩ := h.answered i mem
      refine (h.outcomeAt_of_kept mem here ?_).1
      rw [← Bool.not_eq_true]
      exact fun takes => none ⟨i, mem, outcome, here, takes⟩
    · rw [h.method, if_neg mem]
  rw [h.rest, methods]

theorem settled (unstranded : ¬ (Edit.injectCallback cb).Stranded c)
    (located : callbackSites cb c = .ok sites)
    (parsed : MethodDescriptor.parse cb.method.desc = .ok callback) (mem : i ∈ sites)
    {outcome : CallbackOutcome} (here : outcomeAt cb callback c i = .ok outcome) :
    ∃ outcome', outcomeAt cb callback c' i = .ok outcome' ∧ outcome'.isSplice = false ∧
      outcome'.isMatch = outcome.isMatch := by
  cases takes : outcome.isSplice with
  | false => exact ⟨outcome, (h.outcomeAt_of_kept mem here takes).2, takes, rfl⟩
  | true =>
    obtain ⟨m, code', found, made⟩ := exists_of_spliced here takes
    have place : ∀ code, m.code = some code → cb.placement = .after → code.returns ≠ [] := by
      intro code body after none
      have target : Targets cb c m := (targets_iff located).2 ⟨i, mem, found⟩
      exact unstranded ⟨after, m, code, callback, code', target, body, none, parsed, made⟩
    have present : outcomeAt cb callback c' i = .ok .present := by
      rw [outcomeAt_eq (h.found mem found), h.name]
      exact present_splicedInto made place
    refine ⟨.present, present, rfl, ?_⟩
    cases outcome with
    | spliced code => rfl
    | present => cases takes
    | skipped => cases takes

end SplicedAll

theorem settles_callback_iff (run : applyCallback cb c = (.ok now, c')) :
    (Edit.injectCallback cb).Settles ctx c c' now ↔ ¬ (Edit.injectCallback cb).Stranded c := by
  obtain ⟨sites, callback, located, parsed, spliced⟩ := applyCallback_ok_iff.1 run
  obtain ⟨h, matches_iff, changes_iff⟩ :=
    splicedAll_of_run (nodup_callbackSites located) spliced
  have located' : callbackSites cb c' = .ok sites :=
    (callbackSites_congr h.name h.signatures).trans located
  constructor
  · rintro ⟨_, again⟩ ⟨after, m, code, callback', code', target, body, none, parsed', made⟩
    rw [parsed] at parsed'
    cases parsed'
    obtain ⟨i, mem, found⟩ := (targets_iff located).1 target
    -- the place takes the callback again
    have takes : outcomeAt cb callback c' i = .ok (.spliced code') := by
      have found' := h.found mem found
      rw [splicedInto_of_no_return made after body none] at found'
      rw [outcomeAt_eq found', h.name]
      exact made
    obtain ⟨sites', callback', located'', parsed', spliced'⟩ := applyCallback_ok_iff.1 again
    rw [located'] at located''
    cases located''
    rw [parsed] at parsed'
    cases parsed'
    have changes := (splicedAll_of_run (nodup_callbackSites located) spliced').2.2
    exact Bool.noConfusion (changes.2 (.inr ⟨i, mem, _, takes, rfl⟩))
  · intro unstranded
    refine ⟨⟨fun changed same => ?_, fun differs => ?_⟩, ?_⟩
    · obtain ⟨i, mem, outcome, here, takes⟩ := (changes_iff.1 changed).resolve_left Bool.noConfusion
      obtain ⟨outcome', here', kept, _⟩ := h.settled unstranded located parsed mem here
      rw [same, here] at here'
      cases here'
      rw [takes] at kept
      cases kept
    · by_contra unchanged
      refine differs (h.eq_of_no_splice fun some_splice => ?_)
      exact unchanged (changes_iff.2 (.inr some_splice))
    · have kept : ∀ i ∈ sites, ∃ outcome, outcomeAt cb callback c' i = .ok outcome ∧
          outcome.isSplice = false := by
        intro i mem
        obtain ⟨outcome, here⟩ := h.answered i mem
        obtain ⟨outcome', here', kept, _⟩ := h.settled unstranded located parsed mem here
        exact ⟨outcome', here', kept⟩
      obtain ⟨matched', again⟩ := spliceAll_of_kept false false kept
      obtain ⟨i, mem, outcome, here, isMatch⟩ := (matches_iff.1 rfl).resolve_left Bool.noConfusion
      obtain ⟨outcome', here', _, matched⟩ := h.settled unstranded located parsed mem here
      have matched' : matched' = true :=
        (splicedAll_of_run (nodup_callbackSites located) again).2.1.2
          (.inr ⟨i, mem, outcome', here', matched.trans isMatch⟩)
      exact applyCallback_ok_iff.2 ⟨sites, callback, located', parsed, matched' ▸ again⟩

end

/-! Entry points -/

section

variable {h : Hierarchy} {legacy component engine : String} {m : MemberRef}

theorem plainName_entryRenaming (name : List Char) :
    (entryRenaming h c legacy component engine).plainName name =
      if String.ofList name = legacy then component.toList else name := by
  rw [Renaming.plainName, classes_entryRenaming, Renaming.renameClass]
  by_cases same : legacy = component
  · rw [if_pos same, ← same]
    split
    · rename_i found
      cases found
    · split
      · rename_i this
        rw [← this, String.toList_ofList]
      · rfl
  · rw [if_neg same, List.lookup_cons]
    by_cases this : String.ofList name = legacy
    · rw [if_pos this, this, beq_self_eq_true]
    · rw [if_neg this, beq_false_of_ne this]
      rfl

theorem stable_entryRenaming (closed : ';' ∉ component.toList) :
    (entryRenaming h c legacy component engine).Stable := by
  intro name
  by_cases this : String.ofList name = legacy
  · right
    rw [plainName_entryRenaming, if_pos this, plainName_entryRenaming, ite_self]
    exact ⟨closed, rfl⟩
  · left
    rw [plainName_entryRenaming, if_neg this]

theorem className_entryRenaming {name : String} (plain : Hierarchy.IsClass name) :
    (entryRenaming h c legacy component engine).className name =
      if name = legacy then component else name := by
  have noArray : ¬ name.toList.head? = some '[' := by
    simpa [Hierarchy.IsClass, Hierarchy.isArray] using plain
  rw [Renaming.className, if_neg noArray, plainName_entryRenaming, String.ofList_toList]
  split <;> exact String.ofList_toList

theorem isAssignable_array_congr {a b : String} (isClass : Hierarchy.IsClass legacy)
    (array : a.toList.head? = some '[') (array' : b.toList.head? = some '[') :
    h.isAssignable legacy a = h.isAssignable legacy b := by
  obtain ⟨cs, whole⟩ := List.head?_eq_some_iff.1 array
  obtain ⟨cs', whole'⟩ := List.head?_eq_some_iff.1 array'
  have proper := isClass.ne_array
  rw [Hierarchy.isAssignable, Hierarchy.isAssignable, whole, whole', Hierarchy.assignable,
    Hierarchy.assignable]
  · simp only [proper cs, proper cs', false_or]
  · exact proper
  · exact proper

theorem below_of_className {owner : String} (isClass : Hierarchy.IsClass legacy)
    (below : (entryRenaming h c legacy component engine).className owner = legacy ∨
      h.isAssignable legacy ((entryRenaming h c legacy component engine).className owner) = true) :
    owner = legacy ∨ h.isAssignable legacy owner = true := by
  by_cases array : owner.toList.head? = some '['
  · obtain ⟨cs, whole⟩ := List.head?_eq_some_iff.1 array
    have renamed : ((entryRenaming h c legacy component engine).className owner).toList.head? =
        some '[' := by
      rw [Renaming.className, if_pos array, Renaming.desc, String.toList_ofList, whole,
        Renaming.descChars_cons _ (by decide)]
      rfl
    rw [isAssignable_array_congr isClass renamed array] at below
    refine below.imp_left fun same => ?_
    obtain ⟨cs', whole'⟩ := List.head?_eq_some_iff.1 renamed
    exact absurd (same ▸ whole') (isClass.ne_array cs')
  · have plain : Hierarchy.IsClass owner := by
      simpa [Hierarchy.IsClass, Hierarchy.isArray] using array
    rw [className_entryRenaming plain] at below
    by_cases same : owner = legacy
    · exact .inl same
    · rwa [if_neg same] at below

theorem redirect_of_redirected (moved : Redirected h legacy c m) :
    (entryRenaming h c legacy component engine).redirect m = (engine, m.name) := by
  rw [redirect_entryRenaming, if_pos moved]

theorem redirect_of_kept (kept : ¬ Redirected h legacy c m) :
    (entryRenaming h c legacy component engine).redirect m =
      ((entryRenaming h c legacy component engine).className m.owner, m.name) := by
  rw [redirect_entryRenaming, if_neg kept]

theorem called_renameReferences {r : Renaming} : Called (renameReferences r c) m ↔
    ∃ call ∈ c.calls, r.redirect call = (m.owner, m.name) := by
  rw [Called, calls_renameReferences]
  constructor
  · rintro ⟨_, renamed, owner, name⟩
    obtain ⟨call, mem, rfl⟩ := List.mem_map.1 renamed
    exact ⟨call, mem, Prod.ext owner name⟩
  · rintro ⟨call, mem, same⟩
    exact ⟨_, List.mem_map_of_mem mem, congrArg Prod.fst same, congrArg Prod.snd same⟩

theorem redirect_again (named : (Edit.appletToPanel legacy component engine).Named)
    (m : MemberRef) :
    (entryRenaming h (renameReferences (entryRenaming h c legacy component engine) c) legacy
        component engine).redirect ((entryRenaming h c legacy component engine).method m) =
      (entryRenaming h c legacy component engine).redirect m := by
  obtain ⟨legacyClass, closed, engineClass⟩ := named
  have stays (d : ClassFile) (name : String) :
      (entryRenaming h d legacy component engine).className
        ((entryRenaming h c legacy component engine).className name) =
          (entryRenaming h c legacy component engine).className name := by
    have classes : (entryRenaming h d legacy component engine).classes =
        (entryRenaming h c legacy component engine).classes :=
      (classes_entryRenaming ..).trans (classes_entryRenaming ..).symm
    rw [Renaming.className_congr classes, (stable_entryRenaming closed).className]
  have called {m : MemberRef} :=
    called_renameReferences (c := c) (r := entryRenaming h c legacy component engine) (m := m)
  generalize renameReferences (entryRenaming h c legacy component engine) c = c' at called ⊢
  by_cases moved : Redirected h legacy c m
  · obtain ⟨applet, _, call, mem, owner, name⟩ := id moved
    have first : (entryRenaming h c legacy component engine).redirect m = (engine, m.name) :=
      redirect_of_redirected moved
    have target : ((entryRenaming h c legacy component engine).method m).owner = engine ∧
        ((entryRenaming h c legacy component engine).method m).name = m.name :=
      Prod.ext_iff.1 first
    rw [first]
    by_cases again : Redirected h legacy c' ((entryRenaming h c legacy component engine).method m)
    · rw [redirect_of_redirected again, target.2]
    · rw [redirect_of_kept again, target.1, target.2, className_entryRenaming engineClass, if_neg]
      -- an engine that is the legacy class is called in the new class
      rintro rfl
      refine again ⟨target.2 ▸ applet, .inl target.1, called.2 ⟨call, mem, ?_⟩⟩
      have movedCall : Redirected h engine c call :=
        ⟨name ▸ applet, owner ▸ moved.2.1, call, mem, rfl, rfl⟩
      rw [redirect_of_redirected movedCall, target.1, target.2, name]
  · have first : (entryRenaming h c legacy component engine).redirect m =
        ((entryRenaming h c legacy component engine).className m.owner, m.name) :=
      redirect_of_kept moved
    have target : ((entryRenaming h c legacy component engine).method m).owner =
          (entryRenaming h c legacy component engine).className m.owner ∧
        ((entryRenaming h c legacy component engine).method m).name = m.name :=
      Prod.ext_iff.1 first
    rw [first]
    by_cases again : Redirected h legacy c' ((entryRenaming h c legacy component engine).method m)
    · -- whatever is called there came from the engine, since renaming brings nothing below the
      -- legacy class
      obtain ⟨applet, below, reached⟩ := id again
      obtain ⟨call, mem, same⟩ := called.1 reached
      have movedCall : Redirected h legacy c call := by
        by_contra kept
        rw [redirect_of_kept kept] at same
        obtain ⟨owner, name⟩ := Prod.mk.inj same
        rw [← owner] at below
        exact kept ⟨name ▸ applet, below_of_className legacyClass below, call, mem, rfl, rfl⟩
      rw [redirect_of_redirected movedCall] at same
      rw [redirect_of_redirected again, target.2]
      exact Prod.ext ((Prod.mk.inj same).1.trans target.1) rfl
    · rw [redirect_of_kept again, target.1, target.2, stays]

theorem absorbs_entryRenaming (named : (Edit.appletToPanel legacy component engine).Named) :
    (entryRenaming h (renameReferences (entryRenaming h c legacy component engine) c) legacy
        component engine).Absorbs (entryRenaming h c legacy component engine) := by
  have stable : (entryRenaming h c legacy component engine).Stable :=
    stable_entryRenaming named.2.1
  have classes (d : ClassFile) : (entryRenaming h d legacy component engine).classes =
      (entryRenaming h c legacy component engine).classes :=
    (classes_entryRenaming ..).trans (classes_entryRenaming ..).symm
  have noFields (d : ClassFile) : (entryRenaming h d legacy component engine).fields = [] := by
    rw [entryRenaming, redirectOwners_eq]
    exact (renameClass_empty legacy component).1
  have className (name : String) := (Renaming.className_congr (classes (renameReferences
    (entryRenaming h c legacy component engine) c)) _).trans (stable.className name)
  have desc (text : String) := (Renaming.desc_congr (classes (renameReferences
    (entryRenaming h c legacy component engine) c)) _).trans (stable.desc text)
  refine ⟨className, desc, fun m => ?_, fun m => ?_⟩
  · simp only [Renaming.field, noFields, List.lookup_nil, className, desc]
  · exact Renaming.method_congr (redirect_again named m) (desc m.desc)

theorem settles_applyEntryPoint (named : (Edit.appletToPanel legacy component engine).Named)
    (run : applyEntryPoint ctx legacy component engine c = (.ok now, c')) :
    (Edit.appletToPanel legacy component engine).Settles ctx c c' now := by
  have again : applyEntryPoint ctx legacy component engine c' = (.ok false, c') ∧
      (now = true ↔ c' ≠ c) := by
    have first := (applyEntryPoint_run ctx legacy component engine c).symm.trans run
    split at first
    · cases first
      exact ⟨run, by simp⟩
    · split at first
      · cases first
        exact ⟨run, by simp⟩
      · rename_i differs
        cases first
        refine ⟨?_, by simpa using differs⟩
        rw [applyEntryPoint_run, (absorbs_entryRenaming named).renameReferences, if_pos rfl]
        exact ite_self _
  exact ⟨again.2, again.1⟩

end

/-- What an edit says is exact, and the same edit leaves the class alone, unless it is a callback
that goes in front of the returns of a body without any. -/
theorem settles_iff (named : e.Named) (run : (e.apply ctx).run c = (.ok now, c')) :
    e.Settles ctx c c' now ↔ ¬ e.Stranded c := by
  cases e with
  | injectCallback cb => exact settles_callback_iff run
  | replaceMethod name desc delegate invoke =>
    exact iff_of_true (settles_applyDelegate run) id
  | appletToPanel legacy component engine =>
    exact iff_of_true (settles_applyEntryPoint named run) id
  | _ => exact iff_of_true (settles_of_additive trivial run) id

theorem settles_energyClass_applet :
    (∃ c', ((Edit.injectCallback (Mixin.watchingCallback "(I)V")).apply noContext).run
        Mixin.energyClass = (.ok true, c') ∧
      (Edit.injectCallback (Mixin.watchingCallback "(I)V")).Settles noContext Mixin.energyClass c'
        true) ∧
    ∃ c', (panelEdit.apply noContext).run (overloadedApplet ["java/applet/Applet"]) =
        (.ok true, c') ∧
      panelEdit.Settles noContext (overloadedApplet ["java/applet/Applet"]) c' true := by
  constructor
  · have run : ((Edit.injectCallback (Mixin.watchingCallback "(I)V")).apply noContext).run
        Mixin.energyClass = (.ok true, (((Edit.injectCallback
          (Mixin.watchingCallback "(I)V")).apply noContext).run Mixin.energyClass).2) :=
      Prod.ext (by decide +kernel) rfl
    have named : (Edit.injectCallback (Mixin.watchingCallback "(I)V")).Named := trivial
    refine ⟨_, run, (settles_iff named run).2 ?_⟩
    rintro ⟨_, m, code, _, _, target, body, none, _⟩
    obtain rfl : _ = m := Option.some.inj target
    obtain rfl : _ = code := Option.some.inj body
    exact absurd none (by decide)
  · have run : (panelEdit.apply noContext).run (overloadedApplet ["java/applet/Applet"]) =
        (.ok true, ((panelEdit.apply noContext).run
          (overloadedApplet ["java/applet/Applet"])).2) := Prod.ext (by decide +kernel) rfl
    have named : panelEdit.Named :=
      ⟨panelNames.legacyClass, panelNames.closed, by unfold Hierarchy.IsClass; decide⟩
    exact ⟨_, run, (settles_iff named run).2 id⟩

def spinningClass : ClassFile :=
  { ClassFile.new "a" (some "java/lang/Object") with
    methods := [⟨⟨0x1⟩, "spin", "()V", some (Code.ofInsns
      [.label ⟨0⟩, .jump Opcode.goto ⟨0⟩]), []⟩] }

def spinningCallback : Callback :=
  ⟨.method "spin" "()V", .after, false, ⟨"a", "watch", "()V"⟩, Opcode.invokevirtual⟩

/-- The edit reports a change of the class that it leaves as it was. -/
theorem unsettled_spinningClass :
    ¬ ∀ (ctx : EditContext) (e : Edit) (c c' : ClassFile) (now : Bool),
      (e.apply ctx).run c = (.ok now, c') →
      (now = true ↔ c' ≠ c) ∧ (e.apply ctx).run c' = (.ok false, c') := by
  intro always
  have run : ((Edit.injectCallback spinningCallback).apply noContext).run spinningClass =
      (.ok true, spinningClass) := Prod.ext (by decide +kernel) (by decide +kernel)
  exact (always _ _ _ _ _ run).1.1 rfl rfl

end Edit

end ClassWeave
