import Mathlib.Data.List.Forall2
import ClassWeave.Proofs.Distinct
import ClassWeave.Proofs.Hierarchy
import ClassWeave.Proofs.Renamed

/-!
# Where an applet goes

The entry point renames the legacy class wherever a class names it, and moves members that only an
applet has to the engine. Which of them move is read off the calls: a method handle follows a call
of the same member. A class that does not mention the legacy class stays as it is, even if the
legacy class is above it.
-/

set_option autoImplicit false

namespace ClassWeave

/-- The superclass is the legacy class, or a text of the pool contains its name. -/
def ClassFile.Mentions (c : ClassFile) (legacy : String) : Prop :=
  c.superName = some legacy ∨ c.pool.hasTextWith legacy = true

namespace Edit

/-- What the classes of an entry point are called. The new superclass is no subclass of the
legacy class. -/
structure EntryNames (h : Hierarchy) (legacy component engine : String) : Prop where
  legacyClass : Hierarchy.IsClass legacy
  componentClass : Hierarchy.IsClass component
  closed : ';' ∉ component.toList
  elsewhere : legacy ∉ typeClasses engine
  apart : h.isAssignable legacy component = false

/-- A member that only an applet has, of the legacy class or, in a class that mentions the legacy
class, of a class below it. -/
def OfApplet (h : Hierarchy) (legacy : String) (c : ClassFile) (m : MemberRef) : Prop :=
  m.name ∈ appletMembers ∧
    (m.owner = legacy ∨ c.Mentions legacy ∧ h.isAssignable legacy m.owner = true)

/-- Some instruction calls the member, of any descriptor. -/
def Called (c : ClassFile) (m : MemberRef) : Prop :=
  ∃ call ∈ c.calls, call.owner = m.owner ∧ call.name = m.name

section

variable {h : Hierarchy} {legacy component engine : String}

theorem EntryNames.ne (names : EntryNames h legacy component engine) : legacy ≠ component := by
  rintro rfl
  have same : h.isAssignable legacy legacy = true :=
    (Hierarchy.isAssignable_iff names.legacyClass names.legacyClass).2 (.refl legacy)
  rw [names.apart] at same
  cases same

theorem classes_of_names (names : EntryNames h legacy component engine) (c : ClassFile) :
    (entryRenaming h c legacy component engine).classes = [(legacy, component)] := by
  rw [classes_entryRenaming, Renaming.renameClass, if_neg names.ne]
  rfl

theorem typeClasses_of_class {name : String} (plain : Hierarchy.IsClass name) :
    typeClasses name = [name] := by
  rw [typeClasses, if_neg]
  intro array
  obtain ⟨cs, whole⟩ := List.head?_eq_some_iff.1 array
  exact plain.ne_array cs whole

variable {r : Renaming}

theorem plainName_of_single (single : r.classes = [(legacy, component)]) (name : String) :
    String.ofList (r.plainName name.toList) = if name = legacy then component else name := by
  rw [Renaming.plainName, single, String.ofList_toList, List.lookup_cons]
  by_cases same : name = legacy
  · rw [same, beq_self_eq_true, if_pos rfl]
    exact String.ofList_toList
  · rw [beq_false_of_ne same, if_neg same]
    exact String.ofList_toList

variable (names : EntryNames h legacy component engine)
  (single : r.classes = [(legacy, component)])

include names single

theorem plainName_ne (name : List Char) : r.plainName name ≠ legacy.toList := by
  intro same
  have renamed := plainName_of_single single (String.ofList name)
  rw [String.toList_ofList, same, String.ofList_toList] at renamed
  split at renamed
  · exact names.ne renamed
  · rename_i other
    exact other renamed.symm

theorem closed_plainName (name : List Char) (closed : ';' ∉ name) :
    ';' ∉ r.plainName name := by
  have renamed := congrArg String.toList (plainName_of_single single (String.ofList name))
  rw [String.toList_ofList, String.toList_ofList] at renamed
  rw [renamed]
  split
  · exact names.closed
  · rwa [String.toList_ofList]

theorem innerName_ne {name : List Char} (closed : ';' ∉ name) :
    r.innerName name ≠ legacy.toList := by
  unfold Renaming.innerName
  split
  · rename_i array
    rw [Renaming.descChars_of_unclosed r closed]
    intro same
    obtain ⟨cs, whole⟩ := List.head?_eq_some_iff.1 array
    exact names.legacyClass.ne_array cs (same ▸ whole)
  · exact plainName_ne names single name

theorem notMem_desc (text : String) : legacy ∉ descClasses (r.desc text) := by
  intro mem
  have marked := mem_markedNames_of_descClasses mem
  rw [Renaming.desc, String.toList_ofList,
    Renaming.markedNames_descChars (closed_plainName names single)] at marked
  obtain ⟨name, old, same⟩ := List.mem_map.1 marked
  exact innerName_ne names single (closed_of_mem_markedNames old) same

theorem notMem_className (name : String) : legacy ∉ typeClasses (r.className name) := by
  unfold Renaming.className
  split
  · rename_i array
    obtain ⟨cs, whole⟩ := List.head?_eq_some_iff.1 array
    have still : (r.desc name).toList.head? = some '[' := by
      rw [Renaming.desc, String.toList_ofList, whole, Renaming.descChars_cons r (by decide)]
      rfl
    rw [typeClasses, if_pos still]
    exact notMem_desc names single name
  · rename_i plain
    have isClass : Hierarchy.IsClass (String.ofList (r.plainName name.toList)) := by
      rw [plainName_of_single single]
      split
      · exact names.componentClass
      · simpa [Hierarchy.IsClass, Hierarchy.isArray] using plain
    rw [typeClasses_of_class isClass, List.mem_singleton]
    intro same
    apply plainName_ne names single name.toList
    rw [same, String.toList_ofList]

end

/-! Calls that go to the engine -/

theorem lookup_map_const (keys : List (String × String)) (engine : String)
    (key : String × String) :
    (keys.map fun known => (known, engine)).lookup key =
      if key ∈ keys then some engine else none := by
  induction keys with
  | nil => rfl
  | cons known keys ih =>
    rw [List.map_cons, List.lookup_cons, ih]
    by_cases same : key = known
    · rw [same, beq_self_eq_true]
      exact (if_pos List.mem_cons_self).symm
    · rw [beq_false_of_ne same]
      exact if_congr (by rw [List.mem_cons, or_iff_right same]) rfl rfl

theorem renameClass_empty (legacy component : String) :
    (Renaming.empty.renameClass legacy component).fields = [] ∧
      (Renaming.empty.renameClass legacy component).methods = [] ∧
      (Renaming.empty.renameClass legacy component).owners = [] := by
  unfold Renaming.renameClass
  split <;> exact ⟨rfl, rfl, rfl⟩

variable {h : Hierarchy} {legacy component engine : String} {c : ClassFile}

theorem mem_appletCalls {key : String × String} :
    key ∈ ((c.methods.filterMap Method.code).flatMap fun code =>
      code.insns.filterMap appletCall?) ↔
    key.2 ∈ appletMembers ∧ ∃ call ∈ c.calls, call.owner = key.1 ∧ call.name = key.2 := by
  constructor
  · intro mem
    obtain ⟨code, hcode, mem⟩ := List.mem_flatMap.1 mem
    obtain ⟨i, hi, found⟩ := List.mem_filterMap.1 mem
    unfold appletCall? at found
    split at found
    · rename_i op m ofInterface
      split at found
      · rename_i applet
        cases found
        refine ⟨List.contains_iff_mem.1 applet, m, ?_, rfl, rfl⟩
        exact List.mem_flatMap.2 ⟨code, hcode, List.mem_filterMap.2 ⟨_, hi, rfl⟩⟩
      · cases found
    · cases found
  · rintro ⟨applet, call, mem, owner, name⟩
    obtain ⟨code, hcode, mem⟩ := List.mem_flatMap.1 mem
    obtain ⟨i, hi, found⟩ := List.mem_filterMap.1 mem
    refine List.mem_flatMap.2 ⟨code, hcode, List.mem_filterMap.2 ⟨i, hi, ?_⟩⟩
    cases i with
    | method op m ofInterface =>
      cases found
      rw [appletCall?, name, owner, if_pos (List.contains_iff_mem.2 applet)]
    | _ => cases found

def Redirected (h : Hierarchy) (legacy : String) (c : ClassFile) (m : MemberRef) : Prop :=
  m.name ∈ appletMembers ∧ (m.owner = legacy ∨ h.isAssignable legacy m.owner = true) ∧ Called c m

open Classical in
theorem redirect_entryRenaming (m : MemberRef) :
    (entryRenaming h c legacy component engine).redirect m =
      if Redirected h legacy c m then (engine, m.name)
      else ((entryRenaming h c legacy component engine).className m.owner, m.name) := by
  obtain ⟨_, noMethods, noOwners⟩ := renameClass_empty legacy component
  rw [entryRenaming, redirectOwners_eq, Renaming.redirect, noMethods, noOwners, List.lookup_nil,
    List.append_nil, lookup_map_const]
  have mem : (m.owner, m.name) ∈ (((c.methods.filterMap Method.code).flatMap fun code =>
      code.insns.filterMap appletCall?).filter
        fun call => call.1 == legacy || h.isAssignable legacy call.1).reverse ↔
      Redirected h legacy c m := by
    rw [List.mem_reverse, List.mem_filter, mem_appletCalls, Bool.or_eq_true, beq_iff_eq]
    constructor
    · rintro ⟨⟨applet, called⟩, below⟩
      exact ⟨applet, below, called⟩
    · rintro ⟨applet, below, called⟩
      exact ⟨⟨applet, called⟩, below⟩
  rw [if_congr mem rfl rfl]
  by_cases moved : Redirected h legacy c m
  · rw [if_pos moved, if_pos moved]
  · rw [if_neg moved, if_neg moved]

theorem clears_entryRenaming (names : EntryNames h legacy component engine) (c : ClassFile) :
    (entryRenaming h c legacy component engine).Clears legacy := by
  have single := classes_of_names names c
  have fields : (entryRenaming h c legacy component engine).fields = [] := by
    rw [entryRenaming, redirectOwners_eq]
    exact (renameClass_empty legacy component).1
  refine ⟨notMem_className names single, notMem_desc names single, fun m => ?_, fun m => ?_⟩
  · rw [Renaming.field, fields, List.lookup_nil]
    exact List.not_mem_append (notMem_className names single m.owner)
      (notMem_desc names single m.desc)
  · refine List.not_mem_append ?_ (notMem_desc names single m.desc)
    show legacy ∉ typeClasses ((entryRenaming h c legacy component engine).redirect m).1
    rw [redirect_entryRenaming]
    split
    · exact names.elsewhere
    · exact notMem_className names single m.owner

theorem applyEntryPoint_cases {ctx : EditContext} {c' : ClassFile} {now : Bool}
    (run : ((Edit.appletToPanel legacy component engine).apply ctx).run c = (.ok now, c')) :
    (c.Mentions legacy ∧
      c' = renameReferences (entryRenaming ctx.hierarchy c legacy component engine) c) ∨
    (¬ c.Mentions legacy ∧ c' = c) := by
  replace run := (applyEntryPoint_run ctx legacy component engine c).symm.trans run
  split at run
  · rename_i unmentioned
    exact .inr ⟨not_or.2 unmentioned, (Prod.mk.inj run).2.symm⟩
  · rename_i mentioned
    have mentioned : c.Mentions legacy := by
      by_contra unmentioned
      exact mentioned (not_or.1 unmentioned)
    split at run
    · rename_i same
      exact .inl ⟨mentioned, by rw [same, (Prod.mk.inj run).2]⟩
    · exact .inl ⟨mentioned, (Prod.mk.inj run).2.symm⟩

theorem moved_entryRenaming {m : MemberRef} (applet : OfApplet h legacy c m) (called : Called c m) :
    ((entryRenaming h c legacy component engine).method m).owner = engine ∧
      ((entryRenaming h c legacy component engine).method m).name = m.name := by
  have redirected : Redirected h legacy c m := ⟨applet.1, applet.2.imp_right And.right, called⟩
  have target : (entryRenaming h c legacy component engine).redirect m = (engine, m.name) := by
    rw [redirect_entryRenaming, if_pos redirected]
  exact ⟨congrArg Prod.fst target, congrArg Prod.snd target⟩

/-- Behind an entry point no part of the class names the legacy class, and members that only an
applet has are the engine's: where they are called, and where a handle points at a member that is
called somewhere in the class. -/
theorem cleared_appletToPanel {ctx : EditContext} {c' : ClassFile} {now : Bool}
    (names : EntryNames ctx.hierarchy legacy component engine)
    (known : c.Mentions legacy ∨ ∃ bytes, ClassFile.parse bytes = .ok c)
    (run : ((Edit.appletToPanel legacy component engine).apply ctx).run c = (.ok now, c')) :
    legacy ∉ c'.classes ∧
    List.Forall₂ (fun m m' => OfApplet ctx.hierarchy legacy c m →
      m'.owner = engine ∧ m'.name = m.name) c.calls c'.calls ∧
    List.Forall₂ (fun m m' => OfApplet ctx.hierarchy legacy c m → Called c m →
      m'.owner = engine ∧ m'.name = m.name) c.handled c'.handled := by
  rcases applyEntryPoint_cases run with ⟨_, rfl⟩ | ⟨unmentioned, rfl⟩
  · refine ⟨(clears_entryRenaming names c).renameReferences c, ?_, ?_⟩
    · rw [calls_renameReferences, List.forall₂_map_right_iff, List.forall₂_same]
      exact fun m mem applet => moved_entryRenaming applet ⟨m, mem, rfl, rfl⟩
    · rw [handled_renameReferences, List.forall₂_map_right_iff, List.forall₂_same]
      exact fun m mem applet called => moved_entryRenaming applet called
  · -- a class that was read names the legacy class only in texts of its pool
    obtain ⟨bytes, parsed⟩ := known.resolve_left unmentioned
    have unnamed := ClassFile.notMem_classes_of_parse parsed fun found => unmentioned (.inr found)
    have absent : ∀ m : MemberRef, legacy ∉ m.classes →
        ¬ OfApplet ctx.hierarchy legacy c' m := by
      rintro m other ⟨_, rfl | ⟨mentioned, _⟩⟩
      · apply other
        rw [MemberRef.classes, typeClasses_of_class names.legacyClass]
        exact List.mem_append_left _ (List.mem_singleton_self _)
      · exact unmentioned mentioned
    refine ⟨unnamed, List.forall₂_same.2 fun m mem applet => ?_,
      List.forall₂_same.2 fun m mem applet => ?_⟩
    · exact absurd applet (absent m fun named => unnamed (ClassFile.mem_classes_of_calls mem named))
    · exact absurd applet
        (absent m fun named => unnamed (ClassFile.mem_classes_of_handled mem named))

/-- An applet with one method. Its pool has a reference to `getParameter` at 10 and a handle of it
at 11. -/
def handlingApplet (code : Bytes) : Bytes :=
  let constants : List Constant := [.utf8 "a", .type 1, .utf8 "java/applet/Applet", .type 3,
    .utf8 "m", .utf8 "()V", .utf8 "getParameter", .utf8 "(Ljava/lang/String;)Ljava/lang/String;",
    .nameAndType 7 8, .method 4 9, .methodHandle 5 10, .utf8 "Code"]
  Bytes.be 4 Header.magic.toNat ++ [0, 0, 0, 52, 0, 13] ++ constants.flatMap Constant.encode ++
    [0, 33, 0, 2, 0, 4, 0, 0, 0, 0, 0, 1, 0, 1, 0, 5, 0, 6, 0, 1, 0, 12] ++
    Bytes.be 4 (12 + code.length) ++ [0, 2, 0, 1] ++ Bytes.be 4 code.length ++ code ++
    [0, 0, 0, 0, 0, 0]

def unusedHandle : Bytes := [18, 11, 87, 177]

/-- The handle is loaded and dropped, and then its method is called. -/
def usedHandle : Bytes := [18, 11, 87, 42, 1, 182, 0, 10, 87, 177]

theorem panelNames :
    EntryNames noContext.hierarchy "java/applet/Applet" "java/awt/Panel" "engine" where
  legacyClass := by
    unfold Hierarchy.IsClass
    decide
  componentClass := by
    unfold Hierarchy.IsClass
    decide
  closed := by decide
  elsewhere := by decide +kernel
  apart := by decide +kernel

theorem cleared_handlingApplet : ∃ c c',
    ClassFile.parse (handlingApplet usedHandle) = .ok c ∧
    (panelEdit.apply noContext).run c = (.ok true, c') ∧
    "java/applet/Applet" ∈ c.classes ∧ "java/applet/Applet" ∉ c'.classes ∧
    c'.calls.map MemberRef.owner = ["engine"] ∧ c'.handled.map MemberRef.owner = ["engine"] := by
  have computed : ((ClassFile.parse (handlingApplet usedHandle)).toOption.any fun c =>
      ((panelEdit.apply noContext).run c).1.toOption.any fun now =>
        now = true ∧ "java/applet/Applet" ∈ c.classes ∧
        c.calls.map (fun m => (m.owner, m.name)) = [("java/applet/Applet", "getParameter")] ∧
        c.handled = c.calls) = true := by
    decide +kernel
  obtain ⟨c, parsed, computed⟩ := exists_ok_of_any computed
  obtain ⟨now, first, computed⟩ := exists_ok_of_any computed
  obtain ⟨rfl, named, calls, handled⟩ := of_decide_eq_true computed
  have run : (panelEdit.apply noContext).run c =
      (.ok true, ((panelEdit.apply noContext).run c).2) := Prod.ext first rfl
  obtain ⟨gone, moved, pointed⟩ := cleared_appletToPanel panelNames (.inr ⟨_, parsed⟩) run
  obtain ⟨m, one, same⟩ := List.map_eq_singleton_iff.1 calls
  obtain ⟨owner, name⟩ := Prod.mk.inj same
  have applet : OfApplet noContext.hierarchy "java/applet/Applet" c m :=
    ⟨by rw [name]; decide, .inl owner⟩
  have called : Called c m := ⟨m, one ▸ List.mem_singleton_self m, rfl, rfl⟩
  rw [handled, one] at pointed
  rw [one] at moved
  refine ⟨c, _, parsed, run, named, gone, ?_, ?_⟩
  · obtain ⟨m', rest, follows, ended, whole⟩ := List.forall₂_cons_left_iff.1 moved
    rw [whole, List.forall₂_nil_left_iff.1 ended, List.map_singleton, (follows applet).1]
  · obtain ⟨m', rest, follows, ended, whole⟩ := List.forall₂_cons_left_iff.1 pointed
    rw [whole, List.forall₂_nil_left_iff.1 ended, List.map_singleton, (follows applet called).1]

/-- A handle of a member that is called nowhere points at the component class, which does not have
the member. -/
theorem stranded_handlingApplet :
    ¬ ∀ (ctx : EditContext) (legacy component engine : String) (bytes : Bytes)
      (c c' : ClassFile) (now : Bool), EntryNames ctx.hierarchy legacy component engine →
      ClassFile.parse bytes = .ok c →
      ((Edit.appletToPanel legacy component engine).apply ctx).run c = (.ok now, c') →
      List.Forall₂ (fun m m' => OfApplet ctx.hierarchy legacy c m → m'.owner = engine)
        c.handled c'.handled := by
  intro always
  have computed : ((ClassFile.parse (handlingApplet unusedHandle)).toOption.any fun c =>
      ((panelEdit.apply noContext).run c).1.toOption.any fun now =>
        c.handled.map (fun m => (m.owner, m.name)) = [("java/applet/Applet", "getParameter")] ∧
        ((panelEdit.apply noContext).run c).2.handled.map MemberRef.owner =
          ["java/awt/Panel"]) = true := by
    decide +kernel
  obtain ⟨c, parsed, computed⟩ := exists_ok_of_any computed
  obtain ⟨now, first, computed⟩ := exists_ok_of_any computed
  obtain ⟨handled, stranded⟩ := of_decide_eq_true computed
  obtain ⟨m, one, same⟩ := List.map_eq_singleton_iff.1 handled
  obtain ⟨m', one', owner'⟩ := List.map_eq_singleton_iff.1 stranded
  obtain ⟨owner, name⟩ := Prod.mk.inj same
  have moved := always _ _ _ _ _ _ _ _ panelNames parsed (Prod.ext first rfl)
  rw [one] at moved
  obtain ⟨m'', rest, follows, _, whole⟩ := List.forall₂_cons_left_iff.1 moved
  have whole : m' :: [] = m'' :: rest := one'.symm.trans whole
  obtain ⟨rfl, _⟩ := List.cons.inj whole
  have engine := follows ⟨by rw [name]; decide, .inl owner⟩
  rw [owner'] at engine
  revert engine
  decide

end Edit

end ClassWeave
