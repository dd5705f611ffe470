import Mathlib.Data.List.Basic
import Mathlib.Data.List.Nodup
import ClassWeave.DirectoryRun
import ClassWeave.Proofs.Additions
import ClassWeave.Proofs.Injection

/-!
# Directories that go through an injection

The files of a directory tree have a path each. A run enters the class files by the names that they
declare and finds their paths again by these names, so of several files that declare one class only
the last one comes out. Every other file comes out where it was: unchanged, unless it holds a class
that is reported as modified.
-/

set_option autoImplicit false

namespace ClassWeave

namespace FileTree

mutual

def Distinct : FileTree → Prop
  | .file _ => True
  | .dir entries => (entries.map Prod.fst).Nodup ∧ DistinctBelow entries

def DistinctBelow : List (String × FileTree) → Prop
  | [] => True
  | (_, t) :: rest => t.Distinct ∧ DistinctBelow rest

end

theorem mem_filesHere {base : List String} {entries : List (String × FileTree)}
    {f : List String × Bytes} (mem : f ∈ filesHere base entries) :
    ∃ name ∈ entries.map Prod.fst, f.1 = base ++ [name] := by
  fun_induction filesHere base entries with
  | case1 => cases mem
  | case2 name bytes rest ih =>
    rcases List.mem_cons.1 mem with rfl | mem
    · exact ⟨name, List.mem_cons_self, rfl⟩
    · obtain ⟨name', mem', path⟩ := ih mem
      exact ⟨name', List.mem_cons_of_mem _ mem', path⟩
  | case3 name entries rest ih =>
    obtain ⟨name', mem', path⟩ := ih mem
    exact ⟨name', List.mem_cons_of_mem _ mem', path⟩

theorem mem_filesBelow {base : List String} {entries : List (String × FileTree)}
    {f : List String × Bytes} (mem : f ∈ filesBelow base entries) :
    ∃ name ∈ entries.map Prod.fst, ∃ more, more ≠ [] ∧ f.1 = base ++ name :: more := by
  induction base, entries using filesBelow.induct
    (fun base t => t.isDir = true → ∀ f ∈ t.files base, ∃ more, more ≠ [] ∧ f.1 = base ++ more)
    generalizing f with
  | case1 base bytes file => cases file
  | case2 base entries ih dir f mem =>
    rw [files] at mem
    rcases List.mem_append.1 mem with mem | mem
    · obtain ⟨name, -, path⟩ := mem_filesHere mem
      exact ⟨[name], List.cons_ne_nil _ _, path⟩
    · obtain ⟨name, -, more, -, path⟩ := ih mem
      exact ⟨name :: more, List.cons_ne_nil _ _, path⟩
  | case3 base => cases mem
  | case4 base name bytes rest ih =>
    obtain ⟨name', mem', more⟩ := ih mem
    exact ⟨name', List.mem_cons_of_mem _ mem', more⟩
  | case5 base name inner rest ih ihInner =>
    rw [filesBelow] at mem
    rcases List.mem_append.1 mem with mem | mem
    · obtain ⟨name', mem', more⟩ := ih mem
      exact ⟨name', List.mem_cons_of_mem _ mem', more⟩
    · obtain ⟨more, nonempty, path⟩ := ihInner rfl f mem
      refine ⟨name, List.mem_cons_self, more, nonempty, ?_⟩
      rw [path, List.append_assoc]
      rfl

theorem nodup_filesHere (base : List String) {entries : List (String × FileTree)}
    (names : (entries.map Prod.fst).Nodup) : ((filesHere base entries).map Prod.fst).Nodup := by
  fun_induction filesHere base entries with
  | case1 => exact List.nodup_nil
  | case2 name bytes rest ih =>
    obtain ⟨fresh, names⟩ := List.nodup_cons.1 names
    refine List.nodup_cons.2 ⟨fun mem => fresh ?_, ih names⟩
    obtain ⟨f, mem, same⟩ := List.mem_map.1 mem
    obtain ⟨name', mem', path⟩ := mem_filesHere mem
    obtain rfl : name' = name := by simpa using path.symm.trans same
    exact mem'
  | case3 name entries rest ih => exact ih (List.nodup_cons.1 names).2

theorem Distinct.nodup_files {t : FileTree} (distinct : t.Distinct) (base : List String) :
    ((t.files base).map Prod.fst).Nodup := by
  revert distinct
  refine (files.mutual_induct (fun base t => t.Distinct → ((t.files base).map Prod.fst).Nodup)
    (fun base entries => (entries.map Prod.fst).Nodup → DistinctBelow entries →
      ((filesBelow base entries).map Prod.fst).Nodup) ?file ?dir ?nil ?here ?below).1 base t
  case file => exact fun base bytes _ => List.nodup_singleton base
  case dir =>
    intro base entries ih distinct
    rw [files, List.map_append]
    refine (nodup_filesHere base distinct.1).append (ih distinct.1 distinct.2) ?_
    intro path here below
    obtain ⟨f, mem, rfl⟩ := List.mem_map.1 here
    obtain ⟨f', mem', same⟩ := List.mem_map.1 below
    obtain ⟨name, -, path⟩ := mem_filesHere mem
    obtain ⟨name', -, more, nonempty, path'⟩ := mem_filesBelow mem'
    rw [path, path', List.append_cancel_left_eq, List.cons.injEq] at same
    exact nonempty same.2
  case nil => exact fun base _ _ => List.nodup_nil
  case here =>
    exact fun base name bytes rest ih names distinct => ih (List.nodup_cons.1 names).2 distinct.2
  case below =>
    intro base name inner rest ih ihInner names distinct
    obtain ⟨fresh, names⟩ := List.nodup_cons.1 names
    rw [filesBelow, List.map_append]
    refine (ih names distinct.2).append (ihInner distinct.1) ?_
    intro path below inside
    obtain ⟨f, mem, rfl⟩ := List.mem_map.1 below
    obtain ⟨f', mem', same⟩ := List.mem_map.1 inside
    obtain ⟨name', known, more, -, path⟩ := mem_filesBelow mem
    have single : f' ∈ filesBelow base [(name, .dir inner)] := by rwa [filesBelow]
    obtain ⟨name'', only, more', -, path'⟩ := mem_filesBelow single
    rw [path, path', List.append_cancel_left_eq, List.cons.injEq] at same
    rw [List.mem_singleton.1 only] at same
    exact fresh (same.1 ▸ known)

end FileTree

namespace DirectoryRun

def isClass (path : List String) : Bool :=
  decide (path.getLast?.bind Path.extension? = some "class")

def declared? (f : List String × Bytes) : Option String :=
  if isClass f.1 then (Header.parse f.2).toOption.map Header.name else none

def lastOf? (input : List (List String × Bytes)) (name : String) :
    Option (List String × Bytes) :=
  input.reverse.find? fun f => declared? f == some name

def Kept (input : List (List String × Bytes)) (f : List String × Bytes) : Prop :=
  ∃ before after, input = before ++ f :: after ∧
    ∀ name, declared? f = some name → ∀ other ∈ after, declared? other ≠ some name

variable {input output : List (List String × Bytes)} {f : List String × Bytes} {name : String}

theorem isClass_of_declared (declares : declared? f = some name) : isClass f.1 = true := by
  unfold declared? at declares
  split at declares
  · assumption
  · cases declares

theorem lastOf?_eq_some_iff :
    lastOf? input name = some f ↔ declared? f = some name ∧ Kept input f := by
  rw [lastOf?, List.find?_eq_some_iff_append, beq_iff_eq]
  refine and_congr_right fun declares => ?_
  constructor
  · rintro ⟨after, before, split, others⟩
    refine ⟨before.reverse, after.reverse, ?_, fun name' same other mem => ?_⟩
    · rw [← input.reverse_reverse, split, List.reverse_append, List.reverse_cons,
        List.append_assoc]
      rfl
    · cases declares.symm.trans same
      simpa using others other (List.mem_reverse.1 mem)
  · rintro ⟨before, after, rfl, others⟩
    refine ⟨after.reverse, before.reverse, by simp, fun other mem => ?_⟩
    simpa using others name declares other (List.mem_reverse.1 mem)

theorem lastOf?_concat (input : List (List String × Bytes)) (f : List String × Bytes)
    (name : String) : lastOf? (input ++ [f]) name =
      if declared? f = some name then some f else lastOf? input name := by
  rw [lastOf?, List.reverse_append, List.reverse_singleton, List.singleton_append, List.find?_cons]
  by_cases declares : declared? f = some name
  · rw [if_pos declares, beq_iff_eq.2 declares]
  · rw [if_neg declares, beq_false_of_ne declares]
    rfl

theorem mem_of_kept (kept : Kept input f) : f ∈ input := by
  obtain ⟨before, after, rfl, -⟩ := kept
  exact List.mem_append_right _ List.mem_cons_self

/-- What has been entered after some files: the last file of each class, and the resources. -/
structure Entered (input : List (List String × Bytes)) (t : ClassFolder) : Prop where
  bytes : ∀ name, t.batch.get? name = (lastOf? input name).map Prod.snd
  paths : ∀ name : String, t.paths[name]? = (lastOf? input name).map Prod.fst
  distinct : t.batch.names.Nodup
  resources : t.resources = input.filter fun f => !isClass f.1
  declared : ∀ f ∈ input, isClass f.1 → (declared? f).isSome

theorem Entered.nil : Entered [] ⟨Batch.empty, ∅, []⟩ where
  bytes _ := rfl
  paths _ := Std.TreeMap.getElem?_emptyc
  distinct := List.nodup_nil
  resources := rfl
  declared := List.forall_mem_nil _

theorem Entered.enterClass {t : ClassFolder} (entered : Entered input t)
    (cls : isClass f.1 = true) {h : Header} (parsed : Header.parse f.2 = .ok h) :
    Entered (input ++ [f]) { t with
      batch := t.batch.insert h.name f.2
      paths := t.paths.insert h.name f.1 } := by
  have declares : declared? f = some h.name := by rw [declared?, if_pos cls, parsed]; rfl
  have last (name : String) : lastOf? (input ++ [f]) name =
      if h.name = name then some f else lastOf? input name := by
    simp only [lastOf?_concat, declares, Option.some.injEq]
  constructor
  · intro name
    rw [Batch.get?_insert, last, entered.bytes, apply_ite (Option.map _)]
    exact if_congr eq_comm rfl rfl
  · intro name
    rw [Std.TreeMap.getElem?_insert, last, entered.paths, apply_ite (Option.map _)]
    exact if_congr Std.LawfulEqCmp.compare_eq_iff_eq rfl rfl
  · rw [Batch.names_insert]
    split
    · exact entered.distinct
    · rename_i fresh
      exact List.nodup_append_comm.1 (List.nodup_cons.2 ⟨fresh, entered.distinct⟩)
  · simp [entered.resources, cls]
  · rw [List.forall_mem_append, List.forall_mem_singleton, declares]
    exact ⟨entered.declared, fun _ => rfl⟩

theorem Entered.enterResource {t : ClassFolder} (entered : Entered input t)
    (other : isClass f.1 = false) :
    Entered (input ++ [f]) { t with resources := t.resources ++ [f] } := by
  have declares : declared? f = none := by rw [declared?, other]; rfl
  have same (name : String) : lastOf? (input ++ [f]) name = lastOf? input name := by
    rw [lastOf?_concat, declares, if_neg (Option.some_ne_none name).symm]
  constructor
  · exact fun name => by rw [same, entered.bytes]
  · exact fun name => by rw [same, ← entered.paths]
  · exact entered.distinct
  · simp [entered.resources, other]
  · rw [List.forall_mem_append, List.forall_mem_singleton, other]
    exact ⟨entered.declared, fun no => nomatch no⟩

theorem Entered.enterFile {base : String} {t t' : ClassFolder} (entered : Entered input t)
    (step : enterFile base t f = .ok t') : Entered (input ++ [f]) t' := by
  unfold DirectoryRun.enterFile at step
  split at step
  · rename_i ext
    split at step
    · cases step
    · rename_i h parsed
      cases step
      exact entered.enterClass (decide_eq_true ext) parsed
  · rename_i ext
    cases step
    exact entered.enterResource (decide_eq_false ext)

theorem Entered.foldlM {base : String} {t folder : ClassFolder} (entered : Entered input t)
    {rest : List (List String × Bytes)}
    (step : rest.foldlM (DirectoryRun.enterFile base) t = .ok folder) :
    Entered (input ++ rest) folder := by
  induction rest generalizing input t with
  | nil =>
    cases step
    rwa [List.append_nil]
  | cons f rest ih =>
    rw [List.foldlM_cons] at step
    obtain ⟨next, first, step⟩ := bind_ok_iff.1 step
    rw [← List.singleton_append, ← List.append_assoc]
    exact ih (entered.enterFile first) step

theorem entered_readClasses {files : Files} {base : String} {tree : FileTree} {folder : ClassFolder}
    (found : files.at? base = .ok tree) (read : readClasses files base = .ok folder) :
    Entered (tree.files []) folder := by
  obtain ⟨tree', found', read⟩ := bind_ok_iff.1 read
  rw [found] at found'
  cases found'
  dsimp only at read
  split at read
  · cases read
  · exact Entered.nil.foldlM read

section Output

variable {folder : ClassFolder} {woven : Batch}

theorem Entered.exists_lastOf? (entered : Entered input folder)
    (known : name ∈ folder.batch.names) :
    ∃ f, lastOf? input name = some f ∧ folder.paths[name]? = some f.1 := by
  obtain ⟨bytes, stored⟩ := Batch.exists_get? known
  rw [entered.bytes] at stored
  obtain ⟨f, last, -⟩ := Option.map_eq_some_iff.1 stored
  exact ⟨f, last, by rw [entered.paths, last]; rfl⟩

theorem Entered.known (entered : Entered input folder) (last : lastOf? input name = some f) :
    folder.batch.get? name = some f.2 ∧ name ∈ folder.batch.names := by
  have stored : folder.batch.get? name = some f.2 := by rw [entered.bytes, last]; rfl
  exact ⟨stored, Batch.mem_names_of_get? stored⟩

variable (entered : Entered input folder) (names : woven.names = folder.batch.names)

include entered names

theorem mem_outputFiles {path : List String} {bytes : Bytes} :
    (path, bytes) ∈ outputFiles { folder with batch := woven } ↔
      (∃ name f, lastOf? input name = some f ∧ f.1 = path ∧ woven.get? name = some bytes) ∨
      ((path, bytes) ∈ input ∧ isClass path = false) := by
  rw [outputFiles, List.mem_append, List.mem_map, entered.resources, List.mem_filter]
  refine or_congr ⟨?_, ?_⟩ (and_congr_right' (by simp))
  · rintro ⟨⟨name, bytes'⟩, mem, same⟩
    have known : name ∈ woven.names := List.mem_map_of_mem mem
    obtain ⟨f, last, path'⟩ := entered.exists_lastOf? (names ▸ known)
    simp only [path', Option.getD_some, Prod.mk.injEq] at same
    obtain ⟨rfl, rfl⟩ := same
    refine ⟨name, f, last, rfl, lookup_of_mem ?_ mem⟩
    exact (names ▸ entered.distinct :)
  · rintro ⟨name, f, last, rfl, stored⟩
    refine ⟨(name, bytes), mem_of_lookup stored, ?_⟩
    simp only [entered.paths, last, Option.map_some, Option.getD_some]

theorem mem_paths_iff {path : List String} :
    path ∈ (outputFiles { folder with batch := woven }).map Prod.fst ↔
      ∃ bytes, Kept input (path, bytes) := by
  constructor
  · intro written
    obtain ⟨⟨path, bytes⟩, mem, rfl⟩ := List.mem_map.1 written
    rcases (mem_outputFiles entered names).1 mem with ⟨name, f, last, rfl, -⟩ | ⟨mem, other⟩
    · exact ⟨f.2, (lastOf?_eq_some_iff.1 last).2⟩
    · obtain ⟨before, after, split⟩ := List.append_of_mem mem
      refine ⟨bytes, before, after, split, fun name declares => ?_⟩
      rw [isClass_of_declared declares] at other
      cases other
  · rintro ⟨bytes, kept⟩
    have mem := mem_of_kept kept
    cases cls : isClass path with
    | false =>
      exact List.mem_map_of_mem ((mem_outputFiles entered names).2 (.inr ⟨mem, cls⟩))
    | true =>
      obtain ⟨name, declares⟩ := Option.isSome_iff_exists.1 (entered.declared _ mem cls)
      have last := lastOf?_eq_some_iff.2 ⟨declares, kept⟩
      obtain ⟨injected, stored⟩ := Batch.exists_get? (names ▸ (entered.known last).2)
      exact List.mem_map_of_mem (a := (path, injected))
        ((mem_outputFiles entered names).2 (.inl ⟨name, _, last, rfl, stored⟩))

theorem nodup_outputFiles (distinct : (input.map Prod.fst).Nodup) :
    ((outputFiles { folder with batch := woven }).map Prod.fst).Nodup := by
  have fileOf {name : String} (known : name ∈ woven.names) :
      ∃ f ∈ input, declared? f = some name ∧
        (folder.paths[name]?).getD [name ++ ".class"] = f.1 := by
    obtain ⟨f, last, path⟩ := entered.exists_lastOf? (names ▸ known)
    obtain ⟨declares, kept⟩ := lastOf?_eq_some_iff.1 last
    exact ⟨f, mem_of_kept kept, declares, by rw [path]; rfl⟩
  have classes : (woven.entries.map fun e =>
      ((folder.paths[e.1]?).getD [e.1 ++ ".class"], e.2)).map Prod.fst =
      woven.names.map fun name => (folder.paths[name]?).getD [name ++ ".class"] := by
    rw [Batch.names, List.map_map, List.map_map]
    rfl
  rw [outputFiles, List.map_append, classes, entered.resources]
  refine List.Nodup.append (List.Nodup.map_on ?_ (names ▸ entered.distinct))
    (distinct.sublist (List.filter_sublist.map _)) ?_
  · intro name known name' known' same
    obtain ⟨f, mem, declares, path⟩ := fileOf known
    obtain ⟨f', mem', declares', path'⟩ := fileOf known'
    rw [path, path'] at same
    rw [List.inj_on_of_nodup_map distinct mem mem' same] at declares
    exact Option.some.inj (declares.symm.trans declares')
  · intro path cls other
    obtain ⟨name, known, rfl⟩ := List.mem_map.1 cls
    obtain ⟨f, -, declares, path⟩ := fileOf known
    obtain ⟨f', mem', same⟩ := List.mem_map.1 other
    have resource := (List.mem_filter.1 mem').2
    rw [same, path, isClass_of_declared declares] at resource
    cases resource

end Output

/-- What comes out of a directory: every file where it was, except that of several files of one
class only the last one counts. A class has the bytes that the injection made of it. -/
structure Mirrors (input output : List (List String × Bytes)) (batch woven : Batch)
    (modified : List String) : Prop where
  distinct : (output.map Prod.fst).Nodup
  paths : ∀ path, path ∈ output.map Prod.fst ↔ ∃ bytes, Kept input (path, bytes)
  resources : ∀ f ∈ input, isClass f.1 = false → f ∈ output
  classes : ∀ path bytes, Kept input (path, bytes) → isClass path = true → ∃ name injected,
    declared? (path, bytes) = some name ∧ batch.get? name = some bytes ∧
    woven.get? name = some injected ∧ (path, injected) ∈ output ∧
    (name ∉ modified → injected = bytes)

def weaver (files : Files) (options : RunOptions) : Running Weaver := do
  let hooks ← readHooks files options.hooks
  let classpath ← classpath files options
  let config : InjectionSettings := {
    entryPoint := if options.noEntryPoint then none else InjectionSettings.standard.entryPoint
    parallel := options.parallel
    classpath := classpath }
  options.mixins.foldlM (addMixinFile files) (Weaver.new (HookTable.ofFile hooks) config)

variable {files : Files} {options : RunOptions} {report : InjectionReport}

theorem run_eq (files : Files) (options : RunOptions) :
    run files options = (weaver files options >>= fun i =>
      readClasses files options.input >>= fun folder =>
      (i.run files folder.batch).mapError .inject >>= fun r =>
      .ok (r.1, outputFiles { folder with batch := r.2 })) := by
  unfold run weaver
  cases readHooks files options.hooks with
  | error e => rfl
  | ok hooks => cases DirectoryRun.classpath files options <;> rfl

theorem mapError_run_ok_iff {i : Weaver} {b woven : Batch} :
    (i.run files b).mapError RunError.inject = .ok (report, woven) ↔
      i.inject files b = (.ok report, woven) := by
  rw [Weaver.inject]
  rcases i.run files b with e | ⟨report', woven'⟩
  · constructor <;> intro refused <;> cases refused
  · constructor <;> intro same <;> cases same <;> rfl

theorem run_ok_iff : run files options = .ok (report, output) ↔ ∃ i folder woven,
    weaver files options = .ok i ∧ readClasses files options.input = .ok folder ∧
    i.inject files folder.batch = (.ok report, woven) ∧
    output = outputFiles { folder with batch := woven } := by
  simp only [run_eq, bind_ok_iff]
  constructor
  · rintro ⟨i, made, folder, read, ⟨report', woven⟩, injected, same⟩
    cases same
    exact ⟨i, folder, woven, made, read, mapError_run_ok_iff.1 injected, rfl⟩
  · rintro ⟨i, folder, woven, made, read, injected, rfl⟩
    exact ⟨i, made, folder, read, (report, woven), mapError_run_ok_iff.2 injected, rfl⟩

/-- The directory that comes out of a run mirrors the one that goes in. -/
theorem mirrors_run {tree : FileTree} (found : files.at? options.input = .ok tree)
    (distinct : tree.Distinct) (ran : run files options = .ok (report, output)) :
    ∃ i folder woven, weaver files options = .ok i ∧
      readClasses files options.input = .ok folder ∧
      i.inject files folder.batch = (.ok report, woven) ∧
      Mirrors (tree.files []) output folder.batch woven report.modified := by
  obtain ⟨i, folder, woven, made, read, injected, rfl⟩ := run_ok_iff.1 ran
  refine ⟨i, folder, woven, made, read, injected, ?_⟩
  have entered := entered_readClasses found read
  obtain ⟨entry, library, -, -, passes⟩ := Weaver.inject_ok_iff.1 injected
  obtain ⟨names, unlisted⟩ := (Weaver.wovenInTurn passes).frame
  refine ⟨nodup_outputFiles entered names (distinct.nodup_files []),
    fun path => mem_paths_iff entered names, ?_, ?_⟩
  · exact fun f mem resource => (mem_outputFiles entered names).2 (.inr ⟨mem, resource⟩)
  · intro path bytes kept cls
    obtain ⟨name, declares⟩ :=
      Option.isSome_iff_exists.1 (entered.declared _ (mem_of_kept kept) cls)
    have last := lastOf?_eq_some_iff.2 ⟨declares, kept⟩
    obtain ⟨stored, known⟩ := entered.known last
    obtain ⟨injected, stored'⟩ := Batch.exists_get? (names ▸ known)
    refine ⟨name, injected, declares, stored, stored', ?_, fun unmodified => ?_⟩
    · exact (mem_outputFiles entered names).2 (.inl ⟨name, _, last, rfl, stored'⟩)
    · have same := unlisted name fun r mem listed => unmodified ?_
      · rw [stored, stored'] at same
        exact Option.some.inj same
      · rw [InjectionReport.modified, List.mem_eraseDups]
        exact List.mem_flatMap.2 ⟨r, mem, listed⟩

def twinFolder : FileTree := .dir [("a.class", .file bareClass), ("notes", .file [1]),
  ("old", .dir [("a.class", .file bareClass)])]

def twinFiles : Files := ⟨.dir [("hooks.json", .file [0x7b, 0x7d]), ("in", twinFolder)], []⟩

def plainOptions : RunOptions where
  hooks := "hooks.json"
  mixins := []
  input := "in"
  noEntryPoint := true
  parallel := false
  classpath := []
  jdk := false
  javaHome := none

theorem distinct_twinFolder : twinFolder.Distinct := by
  simp [twinFolder, FileTree.Distinct, FileTree.DistinctBelow]

theorem run_twinFiles : ∃ report output, run twinFiles plainOptions = .ok (report, output) ∧
    report.modified = [] ∧ output.map Prod.fst = [["old", "a.class"], ["notes"]] := by
  obtain ⟨⟨report, output⟩, ran, same⟩ :=
    exists_ok_of_any (x := run twinFiles plainOptions) (p := fun r => decide
      (r.1.modified = [] ∧ r.2.map Prod.fst = [["old", "a.class"], ["notes"]]))
      (by decide +kernel)
  exact ⟨report, output, ran, of_decide_eq_true same⟩

theorem mirrors_twinFiles : ∃ report output, run twinFiles plainOptions = .ok (report, output) ∧
    (["notes"], [1]) ∈ output ∧ (["old", "a.class"], bareClass) ∈ output ∧
    ["a.class"] ∉ output.map Prod.fst := by
  obtain ⟨report, output, ran, unmodified, paths⟩ := run_twinFiles
  have found : twinFiles.at? plainOptions.input = .ok twinFolder := by rfl
  obtain ⟨i, folder, woven, -, -, -, mirrors⟩ := mirrors_run found distinct_twinFolder ran
  refine ⟨report, output, ran, mirrors.resources (["notes"], [1]) (by decide) (by decide +kernel),
    ?_, by rw [paths]; decide⟩
  have kept : Kept (twinFolder.files []) (["old", "a.class"], bareClass) :=
    ⟨[(["a.class"], bareClass), (["notes"], [1])], [], rfl, fun _ _ => List.forall_mem_nil _⟩
  obtain ⟨name, injected, -, -, -, mem, same⟩ := mirrors.classes _ _ kept (by decide +kernel)
  rwa [same (by simp [unmodified])] at mem

/-- Of two files of one class the first does not come out. -/
theorem lost_twinFiles : ¬ ∀ (files : Files) (options : RunOptions) (tree : FileTree)
    (report : InjectionReport) (output : List (List String × Bytes)),
    files.at? options.input = .ok tree → tree.Distinct →
    run files options = .ok (report, output) →
    ∀ path, path ∈ output.map Prod.fst ↔ path ∈ (tree.files []).map Prod.fst := by
  intro mirrored
  obtain ⟨report, output, ran, -, paths⟩ := run_twinFiles
  have all := mirrored _ _ twinFolder _ _ (by rfl) distinct_twinFolder ran ["a.class"]
  rw [paths] at all
  exact absurd (all.2 (by decide)) (by decide)

end DirectoryRun

end ClassWeave
