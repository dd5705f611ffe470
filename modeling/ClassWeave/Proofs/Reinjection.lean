import Mathlib.Tactic.Common
import ClassWeave.Proofs.Effects

/-!
# Injecting once more

An injection changes nothing exactly if every edit is in effect in its class. Behind a first one
whatever it adds is in place, so a second one turns on what the first one did to bodies: on the
calls of its callbacks, the bodies of its delegates and the references that its entry point renames.
The classes that the first one writes have to read back with the members that they were written
with. Where no edit undoes another one of its class, what the first one did to bodies is in effect
too, but for callbacks that found no return to go in front of and for the entry point.
-/

set_option autoImplicit false

namespace ClassWeave

namespace ClassFile

variable {c c' : ClassFile}

theorem isSome_method? (c : ClassFile) (name desc : String) :
    (c.method? name desc).isSome = (c.outline.lookup (name, desc)).isSome := by
  rw [lookup_outline, Option.isSome_map]

theorem Extends.of_outline (name : c'.name = c.name) (interfaces : c'.interfaces = c.interfaces)
    (fields : c'.fields = c.fields) (outline : c'.outline = c.outline) : c.Extends c' where
  name := name
  interfaces i h := interfaces ▸ h
  fields name f h := ⟨f, by rwa [field?, fields], rfl⟩
  methods name desc h := by rwa [isSome_method?, outline, ← isSome_method?]

theorem editFrame_extends : EditFrame Extends where
  refl := .refl
  trans := .trans
  bodies same := .of_outline rfl rfl rfl (bodyFrame_outline.bodies same)
  addInterface := .addInterface
  addField := .addField
  addMethod c m _ := .addMethod c m

theorem extends_stored {h : Hierarchy} {bytes bytes' : Bytes} (parsed : parse bytes = .ok c)
    (retains : c.Retains c') (lossless : c'.Lossless h) (written : encode h c' = .ok bytes') :
    ∃ c'', parse bytes' = .ok c'' ∧ c'.Extends c'' := by
  obtain ⟨t, known, pool, limited⟩ := sane_parse parsed
  have sane := limited Limits.none (fun _ _ => True.intro) fun _ _ => True.intro
  obtain ⟨w, run, rfl⟩ := write_of_encode written
  obtain ⟨uncut, c'', reparsed⟩ := lossless w run
  have members := membersUncut_of_retains sane retains (settles_write run) uncut
  have lengths : ∀ a ∈ c'.attributes, a.Fits := by
    rw [retains.attributes]
    exact fun a ha => (sane.attributes.2 a ha).2
  obtain ⟨_, _, t', methods, decoded, rfl⟩ := decoded_write (retains.pool ▸ pool)
    (retains.attributes ▸ known) run members lengths uncut reparsed
  refine ⟨_, reparsed, .of_outline rfl rfl rfl ?_⟩
  refine map_of_decoded members.methodAttributes.length_eq ?_ decoded
  intro m _ body m' decodes
  obtain ⟨code, rfl, _⟩ := decodeMethod_cases decodes
  rfl

end ClassFile

theorem header_of_parse {bytes : Bytes} {c : ClassFile} (read : ClassFile.parse bytes = .ok c) :
    ∃ header, Header.parse bytes = .ok header := by
  obtain ⟨⟨_, _⟩, run, _⟩ := bind_ok_iff.1 read
  obtain ⟨⟨⟨minor, major, pool⟩, at₁⟩, opening, run⟩ := bind_ok_iff.1 run
  obtain ⟨⟨⟨access, header⟩, at₂⟩, names, _⟩ := bind_ok_iff.1 run
  refine ⟨header, bind_ok_iff.2 ⟨(header, at₂), ?_, rfl⟩⟩
  exact bind_ok_iff.2 ⟨_, opening, bind_ok_iff.2 ⟨_, names, rfl⟩⟩

namespace Group

theorem hierarchy_ok_iff {b : Batch} : (∃ h, hierarchy b = .ok h) ↔
    ∀ e ∈ b.entries, ∃ header, Header.parse e.2 = .ok header := by
  unfold hierarchy
  generalize Hierarchy.empty = start
  induction b.entries generalizing start with
  | nil => exact ⟨fun _ e he => (List.not_mem_nil he).elim, fun _ => ⟨start, rfl⟩⟩
  | cons e rest ih =>
    rw [List.foldlM_cons, List.forall_mem_cons]
    cases read : Header.parse e.2 with
    | error cause => exact ⟨fun ⟨_, h⟩ => (nomatch h), fun ⟨⟨_, h⟩, _⟩ => nomatch h⟩
    | ok header => exact (ih (start.insert header)).trans ⟨fun h => ⟨⟨header, rfl⟩, h⟩, And.right⟩

/-- The class can be read again once it is written, and has lost nothing. -/
def Legible (h : Hierarchy) (c : ClassFile) : Prop :=
  ∀ bytes, c.encode h = .ok bytes → ∃ c', ClassFile.parse bytes = .ok c' ∧ c.Extends c'

/-- Once the class is written, its bodies are read as what they did. -/
def Faithful (h : Hierarchy) (c : ClassFile) : Prop :=
  ∀ bytes, c.encode h = .ok bytes → ∃ c', ClassFile.parse bytes = .ok c' ∧ c'.name = c.name ∧
    List.Forall₂ Method.ReadAs c.methods c'.methods

instance (h : Hierarchy) (c : ClassFile) : Decidable (Faithful h c) :=
  match written : c.encode h with
  | .error _ => isTrue fun _ encoded => nomatch written.symm.trans encoded
  | .ok bytes =>
    match read : ClassFile.parse bytes with
    | .error _ => isFalse fun faithful => by
      obtain ⟨c', read', _⟩ := faithful bytes written
      cases read.symm.trans read'
    | .ok c' => decidable_of_iff
        (c'.name = c.name ∧ List.Forall₂ Method.ReadAs c.methods c'.methods)
        ⟨fun same bytes' encoded => by
          cases written.symm.trans encoded
          exact ⟨c', read, same⟩, fun faithful => by
          obtain ⟨c'', read', same⟩ := faithful bytes written
          cases read.symm.trans read'
          exact same⟩

variable {ctx : EditContext} {name : String} {c last : ClassFile} {chain : List Edit}
  {changed : Bool} {missing : List String}

theorem Ran.idle (ran : Ran ctx chain c last changed missing) (unchanged : changed = false) :
    ∀ e ∈ chain, e.Idle ctx c := by
  induction ran with
  | done c => exact List.forall_mem_nil _
  | applied step _ ih =>
    obtain ⟨rfl, later⟩ := Bool.or_eq_false_iff.1 unchanged
    cases Edit.eq_of_unchanged step
    exact List.forall_mem_cons.2 ⟨.inl step, ih later⟩
  | passedOver step _ ih =>
    cases Edit.eq_of_missing step
    exact List.forall_mem_cons.2 ⟨.inr ⟨_, step⟩, ih unchanged⟩

theorem applyAll_of_idle (name : String) (idle : ∀ e ∈ chain, e.Idle ctx c) (changed : Bool)
    (missing : List String) :
    ∃ more, applyAll ctx name chain c changed missing = .ok (c, changed, more) := by
  induction chain generalizing missing with
  | nil => exact ⟨missing.reverse, rfl⟩
  | cons e rest ih =>
    obtain ⟨first, others⟩ := List.forall_mem_cons.1 idle
    rw [applyAll]
    rcases first with step | ⟨source, step⟩
    · rw [step]
      dsimp only
      rw [Bool.or_false]
      exact ih others missing
    · rw [step]
      exact ih others (source :: missing)

theorem writeBack_eq_self {outcomes : List ChainResult} (unchanged : ∀ o ∈ outcomes, o.bytes = none)
    (b : Batch) : writeBack b outcomes = b := by
  induction outcomes with
  | nil => rfl
  | cons o rest ih =>
    obtain ⟨first, others⟩ := List.forall_mem_cons.1 unchanged
    rw [writeBack, List.foldl_cons, first]
    exact ih others

theorem weaveClass_of_idle {bytes : Bytes} (read : ClassFile.parse bytes = .ok c)
    (idle : ∀ e ∈ chain, e.Idle ctx c) :
    ∃ missing, weaveClass ctx name bytes chain = .ok ⟨name, none, missing⟩ := by
  obtain ⟨missing, run⟩ := applyAll_of_idle name idle false []
  refine ⟨missing, ?_⟩
  unfold weaveClass
  rw [read]
  show applyAll ctx name chain c false [] >>= _ = _
  rw [run]
  rfl

def InEffect (edits : List (String × Edit)) (library : HeaderMap) (b : Batch) : Prop :=
  ∃ h, hierarchy b = .ok h ∧ ∀ x ∈ edits, ∀ bytes, b.get? x.1 = some bytes →
    ∃ c, ClassFile.parse bytes = .ok c ∧ x.2.InEffect ⟨b, h.backedBy library⟩ c

section Pass

variable {edits : List (String × Edit)} {library : HeaderMap} {b next : Batch}
  {report : PassSummary}

theorem run_of_inEffect (effect : InEffect edits library b) :
    ∃ report, (ofList edits).run library b = .ok (report, b) ∧ report.modified = [] := by
  obtain ⟨h, built, effect⟩ := effect
  have each : ∀ c ∈ (ofList edits).chains.filterMap fun c => (b.get? c.1).map (c, ·),
      ∃ missing, weaveClass ⟨b, h.backedBy library⟩ c.1.1 c.2 c.1.2 =
        .ok ⟨c.1.1, none, missing⟩ := by
    rintro ⟨⟨name, chain⟩, bytes⟩ mem
    obtain ⟨mem, stored⟩ := mem_present.1 mem
    have known := chain_eq mem
    obtain ⟨e, he⟩ := List.exists_mem_of_ne_nil _ (chainOf_ne_nil (List.mem_map_of_mem mem))
    obtain ⟨c, read, _⟩ := effect (name, e) (mem_chainOf.1 he) bytes stored
    refine weaveClass_of_idle read fun e he => ?_
    obtain ⟨c', read', here⟩ := effect (name, e) (mem_chainOf.1 (known ▸ he)) bytes stored
    cases read.symm.trans read'
    exact Edit.idle_iff.2 here
  obtain ⟨outcomes, ran⟩ := mapM_ok
    (f := fun c : (String × List Edit) × Bytes =>
      weaveClass ⟨b, h.backedBy library⟩ c.1.1 c.2 c.1.2)
    fun c mem => (each c mem).elim fun _ made => ⟨_, made⟩
  have unchanged : ∀ o ∈ outcomes, o.bytes = none := by
    intro o ho
    obtain ⟨c, mem, made⟩ := exists_left_of_forall₂ (mapM_ok_iff.1 ran) ho
    obtain ⟨missing, idle⟩ := each c mem
    rw [idle] at made
    cases made
    rfl
  have run : (ofList edits).run library b =
      .ok (⟨(outcomes.filter fun o => o.bytes.isSome).map ChainResult.name,
        ((ofList edits).chains.map Prod.fst).filter (fun name => !b.contains name) ++
        outcomes.flatMap ChainResult.missing⟩, writeBack b outcomes) :=
    bind_ok_iff.2 ⟨h, built, bind_ok_iff.2 ⟨outcomes, ran, rfl⟩⟩
  rw [writeBack_eq_self unchanged] at run
  refine ⟨_, run, ?_⟩
  rw [List.map_eq_nil_iff, List.filter_eq_nil_iff]
  intro o ho
  rw [unchanged o ho]
  exact Bool.false_ne_true

theorem eq_of_unmodified (run : (ofList edits).run library b = .ok (report, next))
    (unmodified : report.modified = []) : next = b := by
  obtain ⟨h, built, run⟩ := bind_ok_iff.1 run
  obtain ⟨outcomes, ran, run⟩ := bind_ok_iff.1 run
  cases run
  refine writeBack_eq_self (fun o ho => ?_) b
  rw [List.map_eq_nil_iff, List.filter_eq_nil_iff] at unmodified
  simpa using unmodified o ho

theorem inEffect_of_unmodified (run : (ofList edits).run library b = .ok (report, next))
    (unmodified : report.modified = []) : InEffect edits library b := by
  obtain ⟨h, built, each⟩ := (woven_run run).classes
  refine ⟨h, built, fun x mem bytes stored => ?_⟩
  have here := each x.1
  rw [if_neg (unmodified ▸ List.not_mem_nil)] at here
  have mine := mem_chainOf.2 mem
  rcases here.2 bytes stored with none | made
  · rw [none] at mine
    cases mine
  · cases made with
    | @kept c last missing read ran => exact ⟨c, read, Edit.idle_iff.1 (ran.idle rfl _ mine)⟩

theorem run_unchanged_iff : (∃ report, (ofList edits).run library b = .ok (report, b) ∧
    report.modified = []) ↔ InEffect edits library b :=
  ⟨fun ⟨_, run, unmodified⟩ => inEffect_of_unmodified run unmodified, run_of_inEffect⟩

def Holds (P : Edit → ClassFile → Prop) (edits : List (String × Edit)) (b : Batch) : Prop :=
  ∀ x ∈ edits, ∀ bytes, b.get? x.1 = some bytes →
    ∃ c, ClassFile.parse bytes = .ok c ∧ P x.2 c

/-- Where the names of the batch are known, an edit of `running` brings `P` about for itself and
keeps it for any edit of `all` that has the same class. -/
structure Upholds (names : List String) (running all : List (String × Edit))
    (P : Edit → ClassFile → Prop) : Prop where
  made : ∀ x ∈ running, ∀ ctx c c' now, ctx.batch.names = names →
    (x.2.apply ctx).run c = (.ok now, c') → P x.2 c'
  missed : ∀ x ∈ running, ∀ ctx c source, ctx.batch.names = names →
    (x.2.apply ctx).run c = (.error (.missingSource source), c) → P x.2 c
  kept : ∀ x ∈ running, ∀ y ∈ all, x.1 = y.1 → ∀ ctx c c' now,
    (x.2.apply ctx).run c = (.ok now, c') → P y.2 c → P y.2 c'

section Upholds

variable {names : List String} {running all : List (String × Edit)} {P : Edit → ClassFile → Prop}
  (upholds : Upholds names running all P)

include upholds

theorem Ran.keeps (mine : ∀ e ∈ chain, (name, e) ∈ running)
    (ran : Ran ctx chain c last changed missing) {e : Edit} (mem : (name, e) ∈ all)
    (holds : P e c) : P e last := by
  induction ran with
  | done c => exact holds
  | applied step _ ih =>
    obtain ⟨first, others⟩ := List.forall_mem_cons.1 mine
    exact ih others (upholds.kept _ first _ mem rfl ctx _ _ _ step holds)
  | passedOver step _ ih =>
    cases Edit.eq_of_missing step
    exact ih (List.forall_mem_cons.1 mine).2 holds

theorem Ran.holds (known : ctx.batch.names = names) (listed : ∀ x ∈ running, x ∈ all)
    (mine : ∀ e ∈ chain, (name, e) ∈ running) (ran : Ran ctx chain c last changed missing) :
    ∀ e ∈ chain, P e last := by
  induction ran with
  | done c => exact List.forall_mem_nil _
  | applied step rest ih =>
    obtain ⟨first, others⟩ := List.forall_mem_cons.1 mine
    refine List.forall_mem_cons.2 ⟨?_, ih others⟩
    exact rest.keeps upholds others (listed _ first)
      (upholds.made _ first ctx _ _ _ known step)
  | passedOver step rest ih =>
    obtain ⟨first, others⟩ := List.forall_mem_cons.1 mine
    cases Edit.eq_of_missing step
    refine List.forall_mem_cons.2 ⟨?_, ih others⟩
    exact rest.keeps upholds others (listed _ first)
      (upholds.missed _ first ctx _ _ known step)

end Upholds

def Survives (P : Edit → ClassFile → Prop) (h : Hierarchy) (c : ClassFile) : Prop :=
  ∀ bytes, c.encode h = .ok bytes → ∃ c', ClassFile.parse bytes = .ok c' ∧ ∀ e, P e c → P e c'

theorem Legible.survives {h : Hierarchy} (legible : Legible h c) (names : List String) :
    Survives (fun e c => e.Additive → e.Present names c) h c := by
  intro bytes written
  obtain ⟨c', read, kept⟩ := legible bytes written
  exact ⟨c', read, fun e present additive => (present additive).mono kept⟩

theorem Faithful.survives {h : Hierarchy} (faithful : Faithful h c) (ctx : EditContext) :
    Survives (fun e c => e.Reached ctx c) h c := by
  intro bytes written
  obtain ⟨c', read, name, methods⟩ := faithful bytes written
  exact ⟨c', read, fun e reached => reached.readAs name methods⟩

section

variable {names : List String} {running all : List (String × Edit)}
  (leaves : ∀ x ∈ running, x.2.LeavesMembers)

include leaves

theorem upholds_present :
    Upholds names running all fun e c => e.Additive → e.Present names c where
  made x _ ctx c c' now known step additive := known ▸ (Edit.added_of_run additive step).present
  missed x _ ctx c source known step additive :=
    known ▸ (Edit.present_of_missing additive step).2
  kept x mem y _ _ ctx c c' now step present additive := by
    have grown : c.Extends ((x.2.apply ctx).run c).2 :=
      Edit.keeping_apply ClassFile.editFrame_extends ctx x.2 fun _ _ _ same =>
        (same ▸ leaves x mem : Edit.LeavesMembers (.appletToPanel _ _ _)).elim
    rw [step] at grown
    exact (present additive).mono grown

theorem upholds_reached (apart : ∀ x ∈ running, ∀ y ∈ all, x.1 = y.1 → ¬ x.2.Undoes y.2)
    (ctx₀ : EditContext) : Upholds names running all fun e c => e.Reached ctx₀ c where
  made x _ ctx c c' now _ step := (Edit.reached_of_run step).congr
  missed x _ ctx c source _ step := by
    obtain ⟨name, e⟩ := x
    cases e with
    | injectCallback cb =>
      exact absurd (congrArg Prod.fst step) (Edit.neverMissing_applyCallback cb c source)
    | replaceMethod name desc delegate invoke =>
      exact absurd (congrArg Prod.fst step)
        (Edit.neverMissing_applyDelegate name desc delegate invoke source)
    | _ => exact True.intro
  kept x mem y mem' same ctx c c' now step reached :=
    ((Edit.Reached.congr reached).kept (leaves x mem) (apart x mem y mem' same) step).congr

end

theorem Woven.holds {before running all : List (String × Edit)} {P : Edit → ClassFile → Prop}
    (woven : Woven edits library b report next) (upholds : Upholds b.names running all P)
    (runs : ∀ x ∈ edits, x ∈ running) (listed : ∀ x ∈ running, x ∈ all)
    (survives : ∀ h c, Makes edits library b h c → Survives P (h.backedBy library) c)
    (known : ∀ x ∈ before, x ∈ all) (holds : Holds P before b) :
    Holds P (before ++ edits) next := by
  obtain ⟨h, built, each⟩ := woven.classes
  intro x mem bytes stored
  have mine : ∀ e ∈ chainOf x.1 edits, (x.1, e) ∈ running := fun e he =>
    runs _ (mem_chainOf.1 he)
  have here := each x.1
  split at here
  · obtain ⟨old, new, stored', made, written⟩ := here
    cases stored.symm.trans written
    cases made with
    | @rewritten c last missing new read ran encoded =>
      have makes : Makes edits library b h last := ⟨x.1, old, c, missing, stored', read, built, ran⟩
      obtain ⟨c', read', kept⟩ := survives h last makes _ encoded
      refine ⟨c', read', kept _ ?_⟩
      rcases List.mem_append.1 mem with mem | mem
      · obtain ⟨c₀, read₀, there⟩ := holds x mem old stored'
        cases read.symm.trans read₀
        exact ran.keeps upholds mine (known x mem) there
      · exact ran.holds upholds rfl listed mine _ (mem_chainOf.2 mem)
  · obtain ⟨same, chain⟩ := here
    rw [same] at stored
    rcases List.mem_append.1 mem with mem | mem
    · exact holds x mem bytes stored
    · have there := mem_chainOf.2 mem
      rcases chain bytes stored with none | made
      · rw [none] at there
        cases there
      · cases made with
        | @kept c last missing read ran =>
          cases ran.eq_of_unchanged rfl
          exact ⟨c, read, ran.holds upholds rfl listed mine _ there⟩

theorem Woven.parsed {P : Edit → ClassFile → Prop} (woven : Woven edits library b report next)
    (survives : ∀ h c, Makes edits library b h c → Survives P (h.backedBy library) c)
    {x : String × Edit} (mem : x ∈ edits) {bytes : Bytes} (stored : next.get? x.1 = some bytes) :
    ∃ c, ClassFile.parse bytes = .ok c := by
  obtain ⟨h, built, each⟩ := woven.classes
  have here := each x.1
  split at here
  · obtain ⟨old, new, stored', made, written⟩ := here
    cases stored.symm.trans written
    cases made with
    | @rewritten c last missing new read ran encoded =>
      have makes : Makes edits library b h last := ⟨x.1, old, c, missing, stored', read, built, ran⟩
      obtain ⟨c', read', _⟩ := survives h last makes _ encoded
      exact ⟨c', read'⟩
  · obtain ⟨same, chain⟩ := here
    rw [same] at stored
    have there := mem_chainOf.2 mem
    rcases chain bytes stored with none | made
    · rw [none] at there
      cases there
    · cases made with
      | kept read ran => exact ⟨_, read⟩

theorem Woven.readable (woven : Woven edits library b report next) (distinct : b.names.Nodup)
    (legible : ∀ h c, Makes edits library b h c → Legible (h.backedBy library) c) :
    ∃ h, hierarchy next = .ok h := by
  obtain ⟨h, built, each⟩ := woven.classes
  have heads := hierarchy_ok_iff.1 ⟨h, built⟩
  refine hierarchy_ok_iff.2 fun e he => ?_
  have stored : next.get? e.1 = some e.2 :=
    lookup_of_mem (show (next.names).Nodup from woven.names ▸ distinct) he
  have here := each e.1
  split at here
  · obtain ⟨old, new, stored', made, written⟩ := here
    cases stored.symm.trans written
    cases made with
    | @rewritten c last missing new read ran encoded =>
      have makes : Makes edits library b h last := ⟨e.1, old, c, missing, stored', read, built, ran⟩
      obtain ⟨c', read', _⟩ := legible h last makes _ encoded
      exact header_of_parse read'
  · rw [here.1] at stored
    exact heads (e.1, e.2) (mem_of_lookup stored)

end Pass

end Group

namespace Weaver

variable {library : HeaderMap} {b woven : Batch} {passes : List (Stage × List (String × Edit))}
  {reports : List (Stage × PassSummary)}

theorem Writes.retains {h : Hierarchy} {c : ClassFile} (writes : Writes library passes b h c) :
    ∃ bytes start, ClassFile.parse bytes = .ok start ∧ start.Retains c := by
  induction writes with
  | now made =>
    obtain ⟨name, bytes, start, missing, _, read, _, ran⟩ := made
    exact ⟨bytes, start, read, ran.retains⟩
  | later _ _ ih => exact ih

theorem inTurn_of_inEffect (effect : ∀ pass ∈ passes, Group.InEffect pass.2 library b) :
    ∃ reports, inTurn library passes b = (.ok reports, b) ∧ ∀ r ∈ reports, r.2.modified = [] := by
  induction passes with
  | nil => exact ⟨[], rfl, List.forall_mem_nil _⟩
  | cons pass rest ih =>
    obtain ⟨s, edits⟩ := pass
    obtain ⟨mine, others⟩ := List.forall_mem_cons.1 effect
    obtain ⟨report, first, unmodified⟩ := Group.run_of_inEffect mine
    obtain ⟨later, second, unmodified'⟩ := ih others
    exact ⟨(s, report) :: later, inTurn_cons_ok_iff.2 ⟨report, b, later, first, second, rfl⟩,
      List.forall_mem_cons.2 ⟨unmodified, unmodified'⟩⟩

theorem inEffect_of_inTurn (run : inTurn library passes b = (.ok reports, woven))
    (unmodified : ∀ r ∈ reports, r.2.modified = []) :
    ∀ pass ∈ passes, Group.InEffect pass.2 library b := by
  induction passes generalizing b reports with
  | nil => exact List.forall_mem_nil _
  | cons pass rest ih =>
    obtain ⟨s, edits⟩ := pass
    obtain ⟨report, next, later, first, second, rfl⟩ := inTurn_cons_ok_iff.1 run
    obtain ⟨mine, others⟩ := List.forall_mem_cons.1 unmodified
    cases Group.eq_of_unmodified first mine
    exact List.forall_mem_cons.2 ⟨Group.inEffect_of_unmodified first mine, ih second others⟩

theorem modified_eq_nil_iff {report : InjectionReport} :
    report.modified = [] ↔ ∀ p ∈ report.passes, p.2.modified = [] := by
  rw [InjectionReport.modified, List.eq_nil_iff_forall_not_mem]
  simp only [List.mem_eraseDups, ← List.eq_nil_iff_forall_not_mem, List.flatMap_eq_nil_iff]

theorem inject_unchanged_iff {i : Weaver} {files : Files} : (∃ report,
    i.inject files b = (.ok report, b) ∧ report.modified = []) ↔ ∃ entry headers,
      i.entryEdits b = .ok entry ∧ ClassPath.load files i.config.classpath = .ok headers ∧
      ∀ pass ∈ i.passes entry, Group.InEffect pass.2 headers b := by
  constructor
  · rintro ⟨report, run, unmodified⟩
    obtain ⟨entry, headers, entered, load, run⟩ := inject_ok_iff.1 run
    exact ⟨entry, headers, entered, load, inEffect_of_inTurn run (modified_eq_nil_iff.1 unmodified)⟩
  · rintro ⟨entry, headers, entered, load, effect⟩
    obtain ⟨reports, run, unmodified⟩ := inTurn_of_inEffect effect
    exact ⟨⟨reports⟩, inject_ok_iff.2 ⟨entry, headers, entered, load, run⟩,
      modified_eq_nil_iff.2 unmodified⟩

theorem legible_of_lossless (lossless : ∀ h c, Writes library passes b h c → c.Lossless h)
    {h : Hierarchy} {c : ClassFile} (writes : Writes library passes b h c) :
    Group.Legible h c := by
  have kept := lossless h c writes
  obtain ⟨bytes, start, parsed, retains⟩ := writes.retains
  exact fun bytes' written => ClassFile.extends_stored parsed retains kept written

theorem holds_inTurn {before running all : List (String × Edit)} {P : Edit → ClassFile → Prop}
    (upholds : Group.Upholds b.names running all P)
    (runs : ∀ pass ∈ passes, ∀ x ∈ pass.2, x ∈ running) (listed : ∀ x ∈ running, x ∈ all)
    (survives : ∀ h c, Writes library passes b h c → Group.Survives P h c)
    (known : ∀ x ∈ before, x ∈ all) (holds : Group.Holds P before b)
    (run : inTurn library passes b = (.ok reports, woven)) :
    Group.Holds P (before ++ passes.flatMap Prod.snd) woven := by
  induction passes generalizing b before reports with
  | nil =>
    cases run
    rwa [List.flatMap_nil, List.append_nil]
  | cons pass rest ih =>
    obtain ⟨s, edits⟩ := pass
    obtain ⟨mine, others⟩ := List.forall_mem_cons.1 runs
    obtain ⟨report, next, later, first, second, rfl⟩ := inTurn_cons_ok_iff.1 run
    have woven := Group.woven_run first
    have here := woven.holds upholds mine listed (fun h c made => survives _ c (.now made)) known
      holds
    rw [List.flatMap_cons, ← List.append_assoc]
    exact ih (woven.names ▸ upholds) others (fun h c writes => survives h c (.later first writes))
      (List.forall_mem_append.2 ⟨known, fun x mem => listed x (mine x mem)⟩) here second

theorem heads_of_inTurn {s : Stage} {edits : List (String × Edit)}
    (run : inTurn library ((s, edits) :: passes) b = (.ok reports, woven)) :
    ∃ h, Group.hierarchy b = .ok h := by
  obtain ⟨report, next, later, first, _, _⟩ := inTurn_cons_ok_iff.1 run
  obtain ⟨h, built, _⟩ := bind_ok_iff.1 first
  exact ⟨h, built⟩

theorem readable_inTurn (distinct : b.names.Nodup) (heads : ∃ h, Group.hierarchy b = .ok h)
    (legible : ∀ h c, Writes library passes b h c → Group.Legible h c)
    (run : inTurn library passes b = (.ok reports, woven)) :
    ∃ h, Group.hierarchy woven = .ok h := by
  induction passes generalizing b reports with
  | nil =>
    cases run
    exact heads
  | cons pass rest ih =>
    obtain ⟨s, edits⟩ := pass
    obtain ⟨report, next, later, first, second, rfl⟩ := inTurn_cons_ok_iff.1 run
    have pass := Group.woven_run first
    exact ih (pass.names ▸ distinct)
      (pass.readable distinct fun h c made => legible _ c (.now made))
      (fun h c writes => legible h c (.later first writes)) second

end Weaver

section Injection

variable {hooks : HookTable} {config : InjectionSettings} {mixins : List Mixin} {files : Files}
  {b woven : Batch} {report : InjectionReport} {i : Weaver} {headers : HeaderMap}
  {entry : List (String × Edit)}

theorem Weaver.entryEdits_congr {b' : Batch} (names : b'.names = b.names) :
    i.entryEdits b' = i.entryEdits b := by
  unfold Weaver.entryEdits
  rw [names]

theorem Weaver.entryPoint_of_entry (entered : i.entryEdits b = .ok entry) :
    ∀ x ∈ entry, ∃ legacy component engine, x.2 = .appletToPanel legacy component engine := by
  unfold Weaver.entryEdits at entered
  split at entered
  · cases entered
    exact List.forall_mem_nil _
  · obtain ⟨hook, _, made⟩ := bind_ok_iff.1 entered
    cases made
    exact List.forall_mem_map.2 fun _ _ => ⟨_, _, _, rfl⟩

def Weaver.registered (i : Weaver) : List (String × Edit) :=
  i.edits .preCopy ++ (i.edits .copy ++ i.edits .postCopy)

theorem Weaver.mem_registered {x : String × Edit} (mem : x ∈ i.registered) :
    ∃ s, x ∈ i.edits s := by
  simp only [registered, List.mem_append] at mem
  rcases mem with mem | mem | mem
  · exact ⟨_, mem⟩
  · exact ⟨_, mem⟩
  · exact ⟨_, mem⟩

theorem Weaver.Plans.holds {P : Edit → ClassFile → Prop}
    (plans : Weaver.Plans hooks config mixins files b i headers entry)
    {reports : List (Stage × PassSummary)}
    (passes : Weaver.inTurn headers (i.passes entry) b = (.ok reports, woven))
    (entering : ∀ legacy component engine c, P (.appletToPanel legacy component engine) c)
    (upholds : Group.Upholds b.names i.registered (entry ++ i.registered) P)
    (survives : ∀ h c, Weaver.Writes headers (i.passes entry) b h c → Group.Survives P h c) :
    Group.Holds P ((i.passes entry).flatMap Prod.snd) woven := by
  obtain ⟨first, next, later, enter, rest, _⟩ := Weaver.inTurn_cons_ok_iff.1 passes
  have entered := Group.woven_run enter
  have start : Group.Holds P entry next := fun x mem bytes stored => by
    obtain ⟨c, read⟩ := entered.parsed (fun h c made => survives _ c (.now made)) mem stored
    obtain ⟨legacy, component, engine, same⟩ := Weaver.entryPoint_of_entry plans.entries x mem
    exact ⟨c, read, same ▸ entering legacy component engine c⟩
  have runs : ∀ pass ∈ (i.passes entry).tail, ∀ x ∈ pass.2, x ∈ i.registered := by
    refine List.forall_mem_cons.2 ⟨fun x mem => ?_, List.forall_mem_cons.2 ⟨fun x mem => ?_,
      List.forall_mem_singleton.2 fun x mem => ?_⟩⟩
    · exact List.mem_append_left _ mem
    · exact List.mem_append_right _ (List.mem_append_left _ mem)
    · exact List.mem_append_right _ (List.mem_append_right _ mem)
  exact Weaver.holds_inTurn (entered.names ▸ upholds) runs (fun x => List.mem_append_right entry)
    (fun h c writes => survives h c (.later enter writes))
    (fun x => List.mem_append_left i.registered) start rest

/-- `P` tells of every edit of an injection in its stored class. -/
def Throughout (P : EditContext → ClassFile → Edit → Prop) (hooks : HookTable)
    (config : InjectionSettings) (mixins : List Mixin) (files : Files) (b : Batch) : Prop :=
  ∀ i headers entry, Weaver.Plans hooks config mixins files b i headers entry →
    ∀ h, Group.hierarchy b = .ok h → ∀ pass ∈ i.passes entry, ∀ x ∈ pass.2,
      ∀ bytes c, b.get? x.1 = some bytes → ClassFile.parse bytes = .ok c →
        P ⟨b, h.backedBy headers⟩ c x.2

/-- What an injection does to bodies is in effect in the classes of the batch: the calls of its
callbacks, the bodies of its delegates, and what its entry point renames. -/
def Settled (hooks : HookTable) (config : InjectionSettings) (mixins : List Mixin) (files : Files)
    (b : Batch) : Prop :=
  Throughout (fun ctx c e => ¬ e.Additive → e.InEffect ctx c) hooks config mixins files b

/-- No edit that mixins ask for undoes another one of the same class. -/
def Apart (hooks : HookTable) (config : InjectionSettings) (mixins : List Mixin) : Prop :=
  ∀ i, (Weaver.new hooks config).addMixins mixins = .ok i →
    ∀ r ∈ i.registrations, ∀ s ∈ i.registrations, r.owner = s.owner → ¬ r.edit.Undoes s.edit

theorem injectAll_eq (added : (Weaver.new hooks config).addMixins mixins = .ok i) :
    injectAll hooks config mixins files b = i.inject files b := by
  rw [injectAll, added]

/-- What an injection did to bodies, without undoing any of it, is in effect exactly if no callback
is stranded and the entry point finds nothing more to rename. -/
theorem settled_iff_unhindered
    (faithful : ∀ i headers entry, Weaver.Plans hooks config mixins files b i headers entry →
      ∀ h c, Weaver.Writes headers (i.passes entry) b h c → Group.Faithful h c)
    (apart : Apart hooks config mixins)
    (run : injectAll hooks config mixins files b = (.ok report, woven)) :
    Settled hooks config mixins files woven ↔
      Throughout (fun ctx c e => e.Unhindered ctx c) hooks config mixins files woven := by
  obtain ⟨i, headers, entry, plans, passes⟩ := Weaver.inTurn_of_injectAll run
  have names : woven.names = b.names := (Weaver.wovenInTurn passes).frame.1
  have reached (ctx : EditContext) :
      Group.Holds (fun e c => e.Reached ctx c) ((i.passes entry).flatMap Prod.snd) woven := by
    refine plans.holds passes (fun _ _ _ _ => True.intro)
      (Group.upholds_reached (fun x mem => ?_) (fun x mem y mem' same => ?_) ctx)
      fun h c writes => (faithful i headers entry plans h c writes).survives ctx
    · obtain ⟨s, mem⟩ := Weaver.mem_registered mem
      exact plans.leaves s x mem
    · obtain ⟨s, mem⟩ := Weaver.mem_registered mem
      rcases List.mem_append.1 mem' with mem' | mem'
      · obtain ⟨legacy, component, engine, entering⟩ :=
          Weaver.entryPoint_of_entry plans.entries y mem'
        rw [entering]
        rintro (⟨cb, injects, _⟩ | ⟨d, delegates, _⟩)
        · cases injects
        · cases delegates
      · obtain ⟨s', mem'⟩ := Weaver.mem_registered mem'
        exact apart i plans.added _ (Weaver.mem_edits.1 mem) _ (Weaver.mem_edits.1 mem') same
  refine forall₃_congr fun i' headers' entry' => forall_congr' fun plans' => ?_
  refine forall₂_congr fun h built => forall₂_congr fun pass listed => ?_
  refine forall₂_congr fun x mem => forall₂_congr fun bytes c => forall₂_congr fun stored read => ?_
  cases plans.added.symm.trans plans'.added
  cases plans.entries.symm.trans ((Weaver.entryEdits_congr names).symm.trans plans'.entries)
  obtain ⟨c', read', here⟩ := reached ⟨woven, h.backedBy headers'⟩ x
    (List.mem_flatMap.2 ⟨pass, listed, mem⟩) bytes stored
  cases read.symm.trans read'
  by_cases additive : x.2.Additive
  · exact iff_of_true (fun bodies => absurd additive bodies) (Edit.unhindered_of_additive additive)
  · exact forall_prop_of_true additive |>.trans (Edit.inEffect_iff_unhindered additive here)

/-- A second injection succeeds and changes nothing exactly if what the first one did to bodies is
in effect behind it: whatever else it did is in place. Where no edit undoes another one, all that
can stand against it is a callback without a place and an entry point with more to rename. -/
theorem injectAll_again_iff (distinct : b.names.Nodup)
    (legible : ∀ i headers entry, Weaver.Plans hooks config mixins files b i headers entry →
      ∀ h c, Weaver.Writes headers (i.passes entry) b h c → Group.Legible h c)
    (run : injectAll hooks config mixins files b = (.ok report, woven)) :
    ((∃ again, injectAll hooks config mixins files woven = (.ok again, woven) ∧
      again.modified = []) ↔ Settled hooks config mixins files woven) ∧
    ((∀ i headers entry, Weaver.Plans hooks config mixins files b i headers entry →
      ∀ h c, Weaver.Writes headers (i.passes entry) b h c → Group.Faithful h c) →
      Apart hooks config mixins → (Settled hooks config mixins files woven ↔
        Throughout (fun ctx c e => e.Unhindered ctx c) hooks config mixins files woven)) := by
  refine ⟨?_, fun faithful apart => settled_iff_unhindered faithful apart run⟩
  obtain ⟨i, headers, entry, plans, passes⟩ := Weaver.inTurn_of_injectAll run
  have written := legible i headers entry plans
  have names : woven.names = b.names := (Weaver.wovenInTurn passes).frame.1
  have config_eq : i.config = config := (Weaver.registrations_addMixins plans.added).1
  have entered : i.entryEdits woven = .ok entry :=
    (Weaver.entryEdits_congr names).trans plans.entries
  have load : ClassPath.load files i.config.classpath = .ok headers := config_eq ▸ plans.load
  simp only [injectAll_eq plans.added]
  refine Weaver.inject_unchanged_iff.trans ?_
  constructor
  · rintro ⟨entry', headers', entered', load', effect⟩
    cases entered.symm.trans entered'
    cases load.symm.trans load'
    intro i' headers' entry' plans' h built pass listed x mem bytes c stored read _
    cases plans.added.symm.trans plans'.added
    cases plans.load.symm.trans plans'.load
    cases entered.symm.trans plans'.entries
    obtain ⟨h', built', effect⟩ := effect pass listed
    cases built.symm.trans built'
    obtain ⟨c', read', here⟩ := effect x mem bytes stored
    cases read.symm.trans read'
    exact here
  · intro settled
    refine ⟨entry, headers, entered, load, fun pass listed => ?_⟩
    obtain ⟨h, built⟩ := Weaver.readable_inTurn distinct (Weaver.heads_of_inTurn passes) written
      passes
    refine ⟨h, built, fun x mem bytes stored => ?_⟩
    have holds := plans.holds passes (fun _ _ _ _ additive => additive.elim)
      (Group.upholds_present fun x mem => by
        obtain ⟨s, mem⟩ := Weaver.mem_registered mem
        exact plans.leaves s x mem)
      fun h c writes => (written h c writes).survives b.names
    obtain ⟨c, read, present⟩ := holds x (List.mem_flatMap.2 ⟨pass, listed, mem⟩) bytes stored
    refine ⟨c, read, ?_⟩
    by_cases additive : x.2.Additive
    · exact Edit.idle_iff.1 (Edit.idle_of_present (names ▸ present additive))
    · exact settled i headers entry ⟨plans.added, plans.load, entered⟩ h built pass listed x mem
        bytes c stored read additive

theorem writes_of_computed {P : Hierarchy → ClassFile → Prop} [∀ h c, Decidable (P h c)]
    (computed : ((Weaver.new hooks config).addMixins mixins).toOption.any fun (i : Weaver) =>
      (ClassPath.load files config.classpath).toOption.any fun (headers : HeaderMap) =>
        (i.entryEdits b).toOption.any fun entry =>
          decide (∀ h c, Weaver.Writes headers (i.passes entry) b h c → P h c)) :
    ∀ i headers entry, Weaver.Plans hooks config mixins files b i headers entry →
      ∀ h c, Weaver.Writes headers (i.passes entry) b h c → P h c := by
  intro i headers entry plans
  obtain ⟨i', added, computed⟩ := exists_ok_of_any computed
  obtain ⟨headers', load, computed⟩ := exists_ok_of_any computed
  obtain ⟨entry', entries, computed⟩ := exists_ok_of_any computed
  cases plans.added.symm.trans added
  cases plans.load.symm.trans load
  cases plans.entries.symm.trans entries
  exact of_decide_eq_true computed

theorem legible_of_lossless
    (lossless : ∀ i headers entry, Weaver.Plans hooks config mixins files b i headers entry →
      ∀ h c, Weaver.Writes headers (i.passes entry) b h c → c.Lossless h) :
    ∀ i headers entry, Weaver.Plans hooks config mixins files b i headers entry →
      ∀ h c, Weaver.Writes headers (i.passes entry) b h c → Group.Legible h c :=
  fun i headers entry plans _ _ writes =>
    Weaver.legible_of_lossless (lossless i headers entry plans) writes

theorem apart_of_computed
    (computed : ((Weaver.new hooks config).addMixins mixins).toOption.any fun (i : Weaver) =>
      decide (∀ r ∈ i.registrations, ∀ s ∈ i.registrations, r.owner = s.owner →
        ¬ r.edit.Undoes s.edit)) : Apart hooks config mixins := by
  intro i added
  obtain ⟨i', added', computed⟩ := exists_ok_of_any computed
  cases added.symm.trans added'
  exact of_decide_eq_true computed

end Injection

/-- A class `a` with a method, and the hook of that method. -/
def tickBatch : Batch := Batch.ofList [("a", voidClass [97] [104] 1 1)]

def tickHooks : HookTable :=
  HookTable.ofFile ⟨[⟨"Counter", "a", [], [⟨"tick", "a", "h", "()V", none⟩]⟩], [], []⟩

def tickMixin (callbacks : List MixinCallback) (replacements : List HookUse) : Mixin where
  target := "Counter"
  compiled := some { ClassFile.new "CounterMixin" (some "java/lang/Object") with
    methods := ["watch", "run"].map fun name =>
      ⟨⟨0x1⟩, name, "()V", some (Code.ofInsns [.simple Opcode.returnVoid]), []⟩ }
  interfaces := []
  fields := []
  getters := []
  setters := []
  invokers := []
  callbacks := callbacks
  copies := []
  replacements := replacements
  methods := []

def watchTick : MixinCallback := ⟨"tick", ⟨"watch", "()V", none⟩, .after, false⟩

def replaceTick : HookUse := ⟨"tick", ⟨"run", "()V", none⟩, false⟩

theorem injectAll_again_iff_tick :
    (∃ report woven again, injectAll tickHooks .library [tickMixin [watchTick] []] noFiles
        tickBatch = (.ok report, woven) ∧
      Throughout (fun ctx c e => e.Unhindered ctx c) tickHooks .library [tickMixin [watchTick] []]
        noFiles woven ∧
      injectAll tickHooks .library [tickMixin [watchTick] []] noFiles woven =
        (.ok again, woven)) ∧
    ∃ report woven, injectAll tickHooks .library [tickMixin [watchTick] [replaceTick]] noFiles
        tickBatch = (.ok report, woven) ∧
      ¬ Settled tickHooks .library [tickMixin [watchTick] [replaceTick]] noFiles woven := by
  constructor
  · have computed : ((injectAll tickHooks .library [tickMixin [watchTick] []] noFiles
        tickBatch).1.toOption.any fun _ =>
          let woven := (injectAll tickHooks .library [tickMixin [watchTick] []] noFiles tickBatch).2
          let second := injectAll tickHooks .library [tickMixin [watchTick] []] noFiles woven
          (second.1.toOption.any fun again => again.modified = []) ∧ second.2 = woven) = true := by
      decide +kernel
    rcases run : injectAll tickHooks .library [tickMixin [watchTick] []] noFiles tickBatch with
      ⟨made, woven⟩
    rw [run] at computed
    dsimp only at computed
    obtain ⟨report, rfl, idle⟩ := exists_ok_of_any computed
    obtain ⟨unmodified, kept⟩ := of_decide_eq_true idle
    obtain ⟨again, second, unmodified⟩ := exists_ok_of_any unmodified
    have noop : injectAll tickHooks .library [tickMixin [watchTick] []] noFiles woven =
        (.ok again, woven) := Prod.ext second kept
    obtain ⟨settles, hinders⟩ := injectAll_again_iff (by decide)
      (legible_of_lossless (writes_of_computed (by decide +kernel))) run
    have unhindered := (hinders (writes_of_computed (by decide +kernel))
      (apart_of_computed (by decide +kernel))).1
        (settles.1 ⟨again, noop, of_decide_eq_true unmodified⟩)
    exact ⟨report, woven, again, rfl, unhindered, noop⟩
  · have computed : ((injectAll tickHooks .library [tickMixin [watchTick] [replaceTick]] noFiles
        tickBatch).1.toOption.any fun _ =>
          let woven := (injectAll tickHooks .library [tickMixin [watchTick] [replaceTick]] noFiles
            tickBatch).2
          let second := injectAll tickHooks .library [tickMixin [watchTick] [replaceTick]] noFiles
            woven
          second.1.toOption.any fun again => again.modified = ["a"]) = true := by
      decide +kernel
    rcases run : injectAll tickHooks .library [tickMixin [watchTick] [replaceTick]] noFiles
      tickBatch with ⟨made, woven⟩
    rw [run] at computed
    dsimp only at computed
    obtain ⟨report, rfl, listed⟩ := exists_ok_of_any computed
    obtain ⟨again, second, modified⟩ := exists_ok_of_any listed
    refine ⟨report, woven, rfl, fun settled => ?_⟩
    obtain ⟨again', second', unmodified⟩ := ((injectAll_again_iff (by decide)
      (legible_of_lossless (writes_of_computed (by decide +kernel))) run).1).2 settled
    rw [second'] at second
    cases second
    rw [unmodified] at modified
    cases of_decide_eq_true modified

def bareBatch : Batch := Batch.ofList [("a", bareClass)]

def counterHooks : HookTable :=
  HookTable.ofFile ⟨[⟨"Counter", "a", [], []⟩, ⟨"GameEngine", "e", [], []⟩], [], []⟩

/-- Adds a field of the type that the entry point loses. -/
def hostMixin : Mixin :=
  ⟨"Counter", none, [], [⟨"host", "Ljava/applet/Applet;", ⟨Access.publicBit⟩, none, none, none⟩],
    [], [], [], [], [], [], []⟩

/-- Where the entry point is adapted, it changes the field that a mixin added, which the mixin then
cannot add again. -/
theorem fails_again_hostMixin : ∃ report woven cause,
    injectAll counterHooks .standard [hostMixin] noFiles bareBatch = (.ok report, woven) ∧
    injectAll counterHooks .standard [hostMixin] noFiles woven = (.error cause, woven) := by
  have computed : ((injectAll counterHooks .standard [hostMixin] noFiles bareBatch).1.toOption.any
      fun _ =>
        let woven := (injectAll counterHooks .standard [hostMixin] noFiles bareBatch).2
        let second := injectAll counterHooks .standard [hostMixin] noFiles woven
        second.1.toOption.isNone ∧ second.2 = woven) = true := by
    decide +kernel
  rcases run : injectAll counterHooks .standard [hostMixin] noFiles bareBatch with ⟨made, woven⟩
  rw [run] at computed
  dsimp only at computed
  obtain ⟨report, rfl, computed⟩ := exists_ok_of_any computed
  obtain ⟨fails, kept⟩ := of_decide_eq_true computed
  rcases second : injectAll counterHooks .standard [hostMixin] noFiles woven with ⟨cause | _, after⟩
  · rw [second] at kept
    cases kept
    exact ⟨report, after, cause, rfl, second⟩
  · rw [second] at fails
    cases fails

end ClassWeave
