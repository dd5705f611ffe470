import Mathlib.Tactic.Common
import ClassWeave.Injection
import ClassWeave.Proofs.Group

/-!
# Injection is one step

An injection is its four passes one after the other, of which a failure undoes all. Together they
keep the names of the batch and every class that none of them lists. Each pass writes the classes
that its chains change, with the hierarchy that it began with.
-/

set_option autoImplicit false

namespace ClassWeave

namespace Group

theorem apply_eq (g : Group) (library : HeaderMap) (b : Batch) :
    g.apply library b =
      match g.run library b with
      | .ok (report, woven) => (.ok report, woven)
      | .error e => (.error e, b) := rfl

theorem apply_cases (edits : List (String × Edit)) (library : HeaderMap) (b : Batch) :
    match (ofList edits).apply library b with
    | (.error _, kept) => kept = b
    | (.ok report, woven) => Woven edits library b report woven := by
  unfold apply
  cases run : (ofList edits).run library b with
  | error e => rfl
  | ok r => exact woven_run run

end Group

namespace Weaver

/-- Passes one after the other, each of which keeps what it made of the batch. -/
def inTurn (library : HeaderMap) (passes : List (Stage × List (String × Edit))) :
    Weaving (List (Stage × PassSummary)) :=
  passes.mapM fun pass => do
    let report ← (Group.ofList pass.2).apply library
    return (pass.1, report)

/-- Every one of the passes succeeded, each on the batch that the one before it left. -/
inductive WovenInTurn (library : HeaderMap) : List (Stage × List (String × Edit)) → Batch →
    List (Stage × PassSummary) → Batch → Prop where
  | done (b : Batch) : WovenInTurn library [] b [] b
  | pass {s : Stage} {edits : List (String × Edit)} {rest : List (Stage × List (String × Edit))}
      {b next woven : Batch} {report : PassSummary} {reports : List (Stage × PassSummary)}
      (first : Group.Woven edits library b report next)
      (later : WovenInTurn library rest next reports woven) :
      WovenInTurn library ((s, edits) :: rest) b ((s, report) :: reports) woven

theorem inTurn_cons (library : HeaderMap) (s : Stage) (edits : List (String × Edit))
    (rest : List (Stage × List (String × Edit))) (b : Batch) :
    inTurn library ((s, edits) :: rest) b =
      match (Group.ofList edits).run library b with
      | .error e => (.error e, b)
      | .ok (report, b') => match inTurn library rest b' with
        | (.error e, b'') => (.error e, b'')
        | (.ok reports, b'') => (.ok ((s, report) :: reports), b'') := by
  rw [inTurn, List.mapM_cons, run_bind, run_bind]
  dsimp only
  rw [Group.apply_eq]
  cases (Group.ofList edits).run library b with
  | error e => rfl
  | ok r =>
    show (inTurn library rest >>= fun reports => pure ((s, r.1) :: reports)) r.2 = _
    rw [run_bind]
    dsimp only
    rcases inTurn library rest r.2 with ⟨e | reports, b'⟩ <;> rfl

theorem inTurn_cons_ok_iff {library : HeaderMap} {s : Stage} {edits : List (String × Edit)}
    {passes : List (Stage × List (String × Edit))} {b woven : Batch}
    {reports : List (Stage × PassSummary)} :
    inTurn library ((s, edits) :: passes) b = (.ok reports, woven) ↔
      ∃ report next later, (Group.ofList edits).run library b = .ok (report, next) ∧
        inTurn library passes next = (.ok later, woven) ∧ reports = (s, report) :: later := by
  rw [inTurn_cons]
  constructor
  · intro run
    cases first : (Group.ofList edits).run library b with
    | error e =>
      rw [first] at run
      cases run
    | ok r =>
      obtain ⟨report, next⟩ := r
      rw [first] at run
      dsimp only at run
      rcases second : inTurn library passes next with ⟨e | later, last⟩
      · rw [second] at run
        cases run
      · rw [second] at run
        cases run
        exact ⟨report, next, later, rfl, second, rfl⟩
  · rintro ⟨report, next, later, first, second, rfl⟩
    rw [first]
    dsimp only
    rw [second]

theorem runPasses_eq (library : HeaderMap) (passes : List (Stage × List (String × Edit)))
    (b : Batch) :
    runPasses library (passes.map fun pass => (pass.1, Group.ofList pass.2)) b =
      match inTurn library passes b with
      | (.error e, _) => .error e
      | (.ok reports, woven) => .ok (reports, woven) := by
  induction passes generalizing b with
  | nil => rfl
  | cons pass rest ih =>
    obtain ⟨s, edits⟩ := pass
    rw [List.map_cons, runPasses, inTurn_cons]
    cases (Group.ofList edits).run library b with
    | error e => rfl
    | ok r =>
      show runPasses library (rest.map fun pass => (pass.1, Group.ofList pass.2)) r.2 >>= _ = _
      rw [ih]
      dsimp only
      rcases inTurn library rest r.2 with ⟨e | reports, woven⟩ <;> rfl

theorem wovenInTurn {library : HeaderMap} {passes : List (Stage × List (String × Edit))}
    {b woven : Batch} {reports : List (Stage × PassSummary)}
    (h : inTurn library passes b = (.ok reports, woven)) :
    WovenInTurn library passes b reports woven := by
  induction passes generalizing b reports with
  | nil =>
    cases h
    exact .done _
  | cons pass rest ih =>
    obtain ⟨s, edits⟩ := pass
    obtain ⟨report, next, later, first, second, rfl⟩ := inTurn_cons_ok_iff.1 h
    exact .pass (Group.woven_run first) (ih second)

theorem WovenInTurn.frame {library : HeaderMap} {passes : List (Stage × List (String × Edit))}
    {b woven : Batch} {reports : List (Stage × PassSummary)}
    (h : WovenInTurn library passes b reports woven) :
    woven.names = b.names ∧ ∀ name, (∀ r ∈ reports, name ∉ r.2.modified) →
      woven.get? name = b.get? name := by
  induction h with
  | done b => exact ⟨rfl, fun _ _ => rfl⟩
  | pass first _ ih =>
    obtain ⟨names, kept⟩ := ih
    refine ⟨names.trans first.names, fun name unlisted => ?_⟩
    refine (kept name fun r hr => unlisted r (List.mem_cons_of_mem _ hr)).trans ?_
    exact first.kept (unlisted _ (List.mem_cons_self ..))

variable (i : Weaver)

def edits (s : Stage) : List (String × Edit) :=
  (i.registrations.filter fun r => r.stage == s).map fun r => (r.owner, r.edit)

def entryEdits (b : Batch) : Except ResolveError (List (String × Edit)) :=
  match i.config.entryPoint with
  | none => .ok []
  | some e => do
    let engine := (← i.hooks.classHook e.hook).obfName
    return b.names.map fun name =>
      (name, .appletToPanel e.legacySuperclass e.componentSuperclass engine)

theorem entryGroup_eq (b : Batch) : i.entryGroup b = (i.entryEdits b).map Group.ofList := by
  unfold entryGroup entryEdits
  cases i.config.entryPoint with
  | none => rfl
  | some e =>
    dsimp only
    cases i.hooks.classHook e.hook <;> rfl

theorem mem_edits {i : Weaver} {s : Stage} {name : String} {e : Edit} :
    (name, e) ∈ i.edits s ↔ ⟨s, name, e⟩ ∈ i.registrations := by
  rw [edits, List.mem_map]
  constructor
  · rintro ⟨⟨stage, owner, edit⟩, mem, same⟩
    obtain ⟨mem, stage⟩ := List.mem_filter.1 mem
    cases same
    rw [← beq_iff_eq.1 stage]
    exact mem
  · exact fun mem => ⟨⟨s, name, e⟩, List.mem_filter.2 ⟨mem, beq_self_eq_true s⟩, rfl⟩

def passes (entry : List (String × Edit)) : List (Stage × List (String × Edit)) :=
  [(.entryPoint, entry), (.preCopy, i.edits .preCopy), (.copy, i.edits .copy),
    (.postCopy, i.edits .postCopy)]

theorem inject_eq (files : Files) (b : Batch) :
    i.inject files b =
      match i.entryEdits b, ClassPath.load files i.config.classpath with
      | .error cause, _ => (.error (.resolve cause), b)
      | .ok _, .error cause => (.error (.classPath cause), b)
      | .ok entry, .ok library =>
        match inTurn library (i.passes entry) b with
        | (.error e, _) => (.error e, b)
        | (.ok reports, woven) => (.ok ⟨reports⟩, woven) := by
  rw [inject]
  cases edits : i.entryEdits b with
  | error cause =>
    rw [run, entryGroup_eq, edits]
    rfl
  | ok entry =>
    cases load : ClassPath.load files i.config.classpath with
    | error cause =>
      rw [run, entryGroup_eq, edits, load]
      rfl
    | ok library =>
      have ran : i.run files b = (runPasses library ((i.passes entry).map fun pass =>
          (pass.1, Group.ofList pass.2)) b >>= fun r => .ok (⟨r.1⟩, r.2)) := by
        rw [run, entryGroup_eq, edits, load]
        rfl
      rw [ran, runPasses_eq]
      dsimp only
      rcases inTurn library (i.passes entry) b with ⟨e | reports, woven⟩ <;> rfl

theorem inject_ok_iff {i : Weaver} {files : Files} {b woven : Batch} {report : InjectionReport} :
    i.inject files b = (.ok report, woven) ↔ ∃ entry library, i.entryEdits b = .ok entry ∧
      ClassPath.load files i.config.classpath = .ok library ∧
      inTurn library (i.passes entry) b = (.ok report.passes, woven) := by
  rw [inject_eq]
  constructor
  · intro run
    cases edits : i.entryEdits b with
    | error cause =>
      rw [edits] at run
      cases run
    | ok entry =>
      cases load : ClassPath.load files i.config.classpath with
      | error cause =>
        rw [edits, load] at run
        cases run
      | ok library =>
        rw [edits, load] at run
        dsimp only at run
        rcases passes : inTurn library (i.passes entry) b with ⟨e | reports, last⟩
        · rw [passes] at run
          cases run
        · rw [passes] at run
          cases run
          exact ⟨entry, library, rfl, rfl, passes⟩
  · rintro ⟨entry, library, edits, load, passes⟩
    rw [edits, load]
    dsimp only
    rw [passes]

/-- A pass, and an injection, makes all of its changes or none. A pass that succeeds rewrites the
classes that it lists, each by its own chain from the batch before the pass; an injection that
succeeds is the four passes in their order. -/
theorem inject_frame :
    (∀ (edits : List (String × Edit)) (library : HeaderMap) (b : Batch),
      match (Group.ofList edits).apply library b with
      | (.error _, kept) => kept = b
      | (.ok report, woven) => Group.Woven edits library b report woven) ∧
    ∀ (i : Weaver) (files : Files) (b : Batch),
      (i.inject files b =
        match i.entryEdits b, ClassPath.load files i.config.classpath with
        | .error cause, _ => (.error (.resolve cause), b)
        | .ok _, .error cause => (.error (.classPath cause), b)
        | .ok entry, .ok library =>
          match inTurn library (i.passes entry) b with
          | (.error e, _) => (.error e, b)
          | (.ok reports, woven) => (.ok ⟨reports⟩, woven)) ∧
      match i.inject files b with
      | (.error _, kept) => kept = b
      | (.ok report, woven) => woven.names = b.names ∧
        (∀ name, name ∉ report.modified → woven.get? name = b.get? name) ∧
        ∃ entry library, i.entryEdits b = .ok entry ∧
          ClassPath.load files i.config.classpath = .ok library ∧
          WovenInTurn library (i.passes entry) b report.passes woven := by
  refine ⟨Group.apply_cases, fun i files b => ⟨i.inject_eq files b, ?_⟩⟩
  rw [i.inject_eq files b]
  cases i.entryEdits b with
  | error cause => rfl
  | ok entry =>
    cases ClassPath.load files i.config.classpath with
    | error cause => rfl
    | ok library =>
      dsimp only
      rcases run : inTurn library (i.passes entry) b with ⟨e | reports, woven⟩
      · rfl
      · have all := wovenInTurn run
        obtain ⟨names, kept⟩ := all.frame
        refine ⟨names, fun name unlisted => kept name fun r hr listed => unlisted ?_,
          entry, library, rfl, rfl, all⟩
        rw [InjectionReport.modified, List.mem_eraseDups]
        exact List.mem_flatMap.2 ⟨r, hr, listed⟩

end Weaver

/-! What passes write -/

namespace Group

theorem eq_of_run_nil {library : HeaderMap} {b next : Batch} {report : PassSummary}
    (run : (ofList []).run library b = .ok (report, next)) : next = b := by
  obtain ⟨h, built, run⟩ := bind_ok_iff.1 run
  cases run
  rfl

variable {ctx : EditContext}

def Makes (edits : List (String × Edit)) (library : HeaderMap) (b : Batch) (h : Hierarchy)
    (last : ClassFile) : Prop :=
  ∃ name bytes c missing, b.get? name = some bytes ∧ ClassFile.parse bytes = .ok c ∧
    hierarchy b = .ok h ∧ Ran ⟨b, h.backedBy library⟩ (chainOf name edits) c last true missing

theorem applyAll_of_ran {chain : List Edit} {c last : ClassFile} {later : Bool}
    {more : List String} (ran : Ran ctx chain c last later more) (name : String) (changed : Bool)
    (missing : List String) : applyAll ctx name chain c changed missing =
      .ok (last, changed || later, missing.reverse ++ more) := by
  induction ran generalizing changed missing with
  | done c => rw [applyAll, Bool.or_false, List.append_nil]
  | applied step _ ih =>
    rw [applyAll, step]
    exact (ih _ missing).trans (by rw [Bool.or_assoc])
  | @passedOver _ _ _ _ _ _ source _ step _ ih =>
    rw [applyAll, step]
    exact (ih changed _).trans (by rw [List.reverse_cons, List.append_assoc]; rfl)

def made? (ctx : EditContext) (edits : List (String × Edit)) (name : String) : Option ClassFile :=
  (ctx.batch.get? name).bind fun bytes =>
    match ClassFile.parse bytes with
    | .error _ => none
    | .ok c =>
      match applyAll ctx name (chainOf name edits) c false [] with
      | .ok (last, true, _) => some last
      | _ => none

theorem made?_eq_some_iff {edits : List (String × Edit)} {name : String} {last : ClassFile} :
    made? ctx edits name = some last ↔ ∃ bytes c missing, ctx.batch.get? name = some bytes ∧
      ClassFile.parse bytes = .ok c ∧ Ran ctx (chainOf name edits) c last true missing := by
  rw [made?, Option.bind_eq_some_iff]
  constructor
  · rintro ⟨bytes, stored, made⟩
    split at made
    · cases made
    rename_i c read
    split at made
    · rename_i run
      cases made
      obtain ⟨later, more, ran, same, _⟩ := ran_of_applyAll run
      rw [Bool.false_or] at same
      exact ⟨bytes, c, more, stored, read, same ▸ ran⟩
    · cases made
  · rintro ⟨bytes, c, missing, stored, read, ran⟩
    refine ⟨bytes, stored, ?_⟩
    rw [read]
    dsimp only
    rw [applyAll_of_ran ran]
    rfl

instance decidableMakes (edits : List (String × Edit)) (library : HeaderMap) (b : Batch)
    {P : Hierarchy → ClassFile → Prop} [∀ h c, Decidable (P h c)] :
    Decidable (∀ h c, Makes edits library b h c → P h c) :=
  match built : hierarchy b with
  | .error _ => isTrue fun _ _ ⟨_, _, _, _, _, _, built', _⟩ => nomatch built.symm.trans built'
  | .ok h => decidable_of_iff
      (∀ name ∈ b.names, ∀ c ∈ made? ⟨b, h.backedBy library⟩ edits name, P h c)
      ⟨fun all h' c ⟨name, bytes, start, missing, stored, read, built', ran⟩ => by
        cases built.symm.trans built'
        have made := made?_eq_some_iff.2 ⟨bytes, start, missing, stored, read, ran⟩
        exact all name (Batch.mem_names_of_get? stored) c made,
      fun all name _ c made => by
        obtain ⟨bytes, start, missing, stored, read, ran⟩ := made?_eq_some_iff.1 made
        exact all h c ⟨name, bytes, start, missing, stored, read, built, ran⟩⟩

end Group

namespace Weaver

/-- The classes that passes write, each with the hierarchy of its pass. -/
inductive Writes (library : HeaderMap) : List (Stage × List (String × Edit)) → Batch →
    Hierarchy → ClassFile → Prop where
  | now {s : Stage} {edits : List (String × Edit)} {rest : List (Stage × List (String × Edit))}
      {b : Batch} {h : Hierarchy} {c : ClassFile} (made : Group.Makes edits library b h c) :
      Writes library ((s, edits) :: rest) b (h.backedBy library) c
  | later {s : Stage} {edits : List (String × Edit)} {rest : List (Stage × List (String × Edit))}
      {b next : Batch} {report : PassSummary} {h : Hierarchy} {c : ClassFile}
      (run : (Group.ofList edits).run library b = .ok (report, next))
      (writes : Writes library rest next h c) : Writes library ((s, edits) :: rest) b h c

section Decidable

variable {library : HeaderMap} {s : Stage} {edits : List (String × Edit)}
  {rest : List (Stage × List (String × Edit))} {b : Batch} {P : Hierarchy → ClassFile → Prop}

theorem forall_writes_cons_iff : (∀ h c, Writes library ((s, edits) :: rest) b h c → P h c) ↔
    (∀ h c, Group.Makes edits library b h c → P (h.backedBy library) c) ∧
      ∀ report next, (Group.ofList edits).run library b = .ok (report, next) →
        ∀ h c, Writes library rest next h c → P h c := by
  constructor
  · intro all
    exact ⟨fun h c made => all _ c (.now made),
      fun report next run h c writes => all h c (.later run writes)⟩
  · rintro ⟨now, later⟩ h c (made | ⟨run, writes⟩)
    · exact now _ c made
    · exact later _ _ run h c writes

instance decidableWrites (library : HeaderMap) [∀ h c, Decidable (P h c)] :
    ∀ (passes : List (Stage × List (String × Edit))) (b : Batch),
      Decidable (∀ h c, Writes library passes b h c → P h c)
  | [], _ => isTrue nofun
  | (_, edits) :: rest, b =>
    have : Decidable (∀ report next, (Group.ofList edits).run library b = .ok (report, next) →
        ∀ h c, Writes library rest next h c → P h c) :=
      match (Group.ofList edits).run library b with
      | .error _ => isTrue nofun
      | .ok (_, next) =>
        have := decidableWrites library rest next
        decidable_of_iff (∀ h c, Writes library rest next h c → P h c)
          ⟨fun all _ _ same => by cases same; exact all, fun all => all _ _ rfl⟩
    decidable_of_iff' _ forall_writes_cons_iff

end Decidable

theorem registrations_addMixins {i j : Weaver} {mixins : List Mixin}
    (added : i.addMixins mixins = .ok j) :
    j.config = i.config ∧ j.hooks = i.hooks ∧ ∀ r ∈ j.registrations,
      r ∈ i.registrations ∨ ∃ m ∈ mixins, ∃ edits, m.resolve i.hooks = .ok edits ∧ r ∈ edits := by
  induction mixins generalizing i with
  | nil =>
    cases added
    exact ⟨rfl, rfl, fun r hr => .inl hr⟩
  | cons m rest ih =>
    rw [addMixins, List.foldlM_cons] at added
    obtain ⟨next, first, added⟩ := bind_ok_iff.1 added
    obtain ⟨edits, resolved, first⟩ := bind_ok_iff.1 first
    cases first
    obtain ⟨config, hooks, each⟩ := ih added
    refine ⟨config, hooks, fun r hr => ?_⟩
    rcases each r hr with mem | ⟨m', mem, edits', resolved', hr⟩
    · rcases List.mem_append.1 mem with mem | mem
      · exact .inl mem
      · exact .inr ⟨m, List.mem_cons_self .., edits, resolved, mem⟩
    · exact .inr ⟨m', List.mem_cons_of_mem m mem, edits', resolved', hr⟩

end Weaver

def bareClass : Bytes :=
  [0xCA, 0xFE, 0xBA, 0xBE, 0, 0, 0, 52, 0, 5, 1, 0, 1, 97, 7, 0, 1,
    1, 0, 16, 106, 97, 118, 97, 47, 108, 97, 110, 103, 47, 79, 98, 106, 101, 99, 116, 7, 0, 3,
    0, 33, 0, 2, 0, 4, 0, 0, 0, 0, 0, 0, 0, 0]

def noFiles : Files := ⟨.dir [], []⟩

end ClassWeave
