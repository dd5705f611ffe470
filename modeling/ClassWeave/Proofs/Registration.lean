import Mathlib.Data.List.Nodup
import Mathlib.Data.List.Perm.Basic
import Mathlib.Tactic.Common
import ClassWeave.Proofs.Additions
import ClassWeave.Proofs.Injection

/-!
# The order of registration

The chains of a pass read the batch from before the pass, and each writes its own class. So the
order in which the classes were registered shows in the order of the report and nowhere else, and a
chain whose class is not in the batch is reported and does nothing.
-/

set_option autoImplicit false

namespace ClassWeave

theorem mapM_perm {ε α β : Type} {f : α → Except ε β} {as as' : List α} {bs : List β}
    (perm : as.Perm as') (run : as.mapM f = .ok bs) :
    ∃ bs', as'.mapM f = .ok bs' ∧ bs.Perm bs' := by
  obtain ⟨bs', made, perm'⟩ := List.perm_comp_forall₂ perm.symm (mapM_ok_iff.1 run)
  exact ⟨bs', mapM_ok_iff.2 made, perm'.symm⟩

namespace Batch

theorem put_comm {name other : String} {bytes bytes' : Bytes} {entries : List (String × Bytes)}
    (different : name ≠ other) (known : name ∈ entries.map Prod.fst) :
    put name bytes (put other bytes' entries) = put other bytes' (put name bytes entries) := by
  induction entries with
  | nil => cases known
  | cons e rest ih =>
    obtain ⟨key, old⟩ := e
    by_cases here : key = name
    · subst here
      simp [put, different]
    · by_cases there : key = other
      · subst there
        simp [put, here]
      · have later : name ∈ rest.map Prod.fst :=
          (List.mem_cons.1 known).resolve_left fun same => here same.symm
        simp [put, here, there, ih later]

end Batch

namespace Group

theorem mem_chains_ofList {edits : List (String × Edit)} {name : String} {chain : List Edit} :
    (name, chain) ∈ (ofList edits).chains ↔ chain = chainOf name edits ∧ chain ≠ [] := by
  constructor
  · intro mem
    have same := chain_eq mem
    exact ⟨same, same ▸ chainOf_ne_nil (List.mem_map_of_mem mem)⟩
  · rintro ⟨rfl, registered⟩
    cases found : (ofList edits).chains.lookup name with
    | none =>
      rw [← lookup_ofList, found] at registered
      exact absurd rfl registered
    | some chain =>
      have mem := mem_of_lookup found
      exact chain_eq mem ▸ mem

theorem nodup_chains (edits : List (String × Edit)) : (ofList edits).chains.Nodup :=
  .of_map Prod.fst (distinct_ofList edits)

theorem chains_perm {edits edits' : List (String × Edit)}
    (same : ∀ name, chainOf name edits = chainOf name edits') :
    (ofList edits).chains.Perm (ofList edits').chains := by
  rw [List.perm_ext_iff_of_nodup (nodup_chains edits) (nodup_chains edits')]
  rintro ⟨name, chain⟩
  rw [mem_chains_ofList, mem_chains_ofList, same]

theorem append_filter (p : String → Bool) (name : String) (e : Edit)
    (chains : List (String × List Edit)) :
    (append name e chains).filter (fun c => p c.1) =
      if p name then append name e (chains.filter fun c => p c.1)
      else chains.filter fun c => p c.1 := by
  induction chains with
  | nil => by_cases wanted : p name <;> simp [append, wanted]
  | cons c rest ih =>
    obtain ⟨key, chain⟩ := c
    by_cases here : key = name
    · subst here
      by_cases wanted : p key <;> simp [append, wanted]
    · by_cases wanted : p key <;> by_cases wanted' : p name <;>
        simp [append, here, wanted, wanted', ih]

theorem ofList_filter (p : String → Bool) (edits : List (String × Edit)) :
    (ofList (edits.filter fun e => p e.1)).chains =
      (ofList edits).chains.filter fun c => p c.1 := by
  induction edits using List.reverseRecOn with
  | nil => rfl
  | append_singleton edits e ih =>
    rw [List.filter_append, ofList_concat, add, append_filter]
    split
    · rename_i wanted
      have kept : [e].filter (fun e => p e.1) = [e] := List.filter_cons_of_pos wanted
      rw [kept, ofList_concat, add, ih]
    · rename_i unwanted
      have dropped : [e].filter (fun e => p e.1) = [] := List.filter_cons_of_neg unwanted
      rw [dropped, List.append_nil, ih]

theorem writeBack_perm {outcomes outcomes' : List ChainResult} (perm : outcomes.Perm outcomes')
    {b : Batch} (distinct : (outcomes.map ChainResult.name).Nodup)
    (known : ∀ o ∈ outcomes, o.name ∈ b.names) :
    writeBack b outcomes = writeBack b outcomes' := by
  induction perm generalizing b with
  | nil => rfl
  | @cons o rest rest' perm ih =>
    obtain ⟨first, others⟩ := List.forall_mem_cons.1 known
    have names : (writeBack b [o]).names = b.names :=
      names_writeBack (List.forall_mem_singleton.2 first)
    exact ih (List.nodup_cons.1 distinct).2 fun o' mem => names ▸ others o' mem
  | swap o o' rest =>
    have different : o'.name ≠ o.name := fun same =>
      (List.nodup_cons.1 distinct).1 (same ▸ List.mem_cons_self)
    have known' : o'.name ∈ b.names := known o' List.mem_cons_self
    suffices swapped : writeBack b [o', o] = writeBack b [o, o'] from
      congrArg (writeBack · rest) swapped
    cases made : o.bytes with
    | none => simp [writeBack, made]
    | some bytes =>
      cases made' : o'.bytes with
      | none => simp [writeBack, made, made']
      | some bytes' =>
        simp only [writeBack, List.foldl_cons, List.foldl_nil, made, made', Batch.insert]
        rw [Batch.put_comm different known']
  | trans first _ ih ih' =>
    rw [ih distinct known]
    refine ih' ((first.map _).nodup_iff.1 distinct) fun o mem => ?_
    exact known o (first.mem_iff.2 mem)

def absent (g : Group) (b : Batch) : List String :=
  (g.chains.map Prod.fst).filter fun name => !b.contains name

theorem mem_absent {edits : List (String × Edit)} {b : Batch} {name : String} :
    name ∈ (ofList edits).absent b ↔ name ∈ edits.map Prod.fst ∧ name ∉ b.names := by
  have registered : name ∈ (ofList edits).chains.map Prod.fst ↔ name ∈ edits.map Prod.fst := by
    constructor
    · intro mem
      obtain ⟨e, he⟩ := List.exists_mem_of_ne_nil _ (chainOf_ne_nil mem)
      exact List.mem_map_of_mem (mem_chainOf.1 he)
    · intro mem
      obtain ⟨⟨_, e⟩, he, rfl⟩ := List.mem_map.1 mem
      have chain := List.ne_nil_of_mem (mem_chainOf.2 he)
      exact List.mem_map_of_mem (mem_chains_ofList.2 ⟨rfl, chain⟩)
  rw [absent, List.mem_filter, registered, ← Batch.get?_eq_none, Batch.contains]
  cases b.get? name <;> simp

def summary (g : Group) (b : Batch) (outcomes : List ChainResult) : PassSummary where
  modified := (outcomes.filter fun o => o.bytes.isSome).map ChainResult.name
  missing := g.absent b ++ outcomes.flatMap ChainResult.missing

theorem run_eq (g : Group) (library : HeaderMap) (b : Batch) :
    g.run library b =
      match hierarchy b >>= fun h => g.outcomes ⟨b, h.backedBy library⟩ with
      | .error cause => .error cause
      | .ok outcomes => .ok (g.summary b outcomes, writeBack b outcomes) := by
  rw [run]
  cases hierarchy b with
  | error cause => rfl
  | ok h =>
    show (g.outcomes ⟨b, h.backedBy library⟩ >>= _) = match g.outcomes _ with
      | .error cause => _
      | .ok outcomes => _
    cases g.outcomes ⟨b, h.backedBy library⟩ <;> rfl

theorem run_perm {edits edits' : List (String × Edit)} {library : HeaderMap} {b woven : Batch}
    {report : PassSummary} (same : ∀ name, chainOf name edits = chainOf name edits')
    (run : (ofList edits).run library b = .ok (report, woven)) :
    ∃ report', (ofList edits').run library b = .ok (report', woven) ∧
      report.modified.Perm report'.modified ∧ report.missing.Perm report'.missing := by
  obtain ⟨h, built, run⟩ := bind_ok_iff.1 run
  obtain ⟨outcomes, ran, run⟩ := bind_ok_iff.1 run
  cases run
  have chains := chains_perm same
  obtain ⟨outcomes', ran', perm⟩ := mapM_perm (chains.filterMap _) ran
  have known : ∀ o ∈ outcomes, o.name ∈ b.names := by
    intro o mem
    obtain ⟨bytes, stored, _⟩ := made_of_outcome ran mem
    exact Batch.mem_names_of_get? stored
  refine ⟨(ofList edits').summary b outcomes', ?_, (perm.filter _).map _, ?_⟩
  · rw [writeBack_perm perm (distinct_outcomes ran) known]
    exact bind_ok_iff.2 ⟨h, built, bind_ok_iff.2 ⟨outcomes', ran', rfl⟩⟩
  · exact ((chains.map _).filter _).append (perm.flatMap_right _)

theorem outcomes_present (edits : List (String × Edit)) (b : Batch) (h : Hierarchy) :
    (ofList (edits.filter fun e => b.contains e.1)).outcomes ⟨b, h⟩ =
      (ofList edits).outcomes ⟨b, h⟩ := by
  rw [outcomes, ofList_filter, List.filterMap_filter, outcomes]
  refine congrArg (List.mapM _) (List.filterMap_congr fun c _ => ?_)
  rw [Batch.contains]
  cases b.get? c.1 <;> rfl

theorem absent_present (edits : List (String × Edit)) (b : Batch) :
    (ofList (edits.filter fun e => b.contains e.1)).absent b = [] := by
  rw [List.eq_nil_iff_forall_not_mem]
  intro name mem
  obtain ⟨listed, unknown⟩ := mem_absent.1 mem
  obtain ⟨e, he, rfl⟩ := List.mem_map.1 listed
  have known := (List.mem_filter.1 he).2
  rw [Batch.contains, Batch.get?_eq_none.2 unknown] at known
  cases known

end Group

/-- The same report in another order. -/
structure PassSummary.Reordered (report report' : PassSummary) : Prop where
  modified : report.modified.Perm report'.modified
  missing : report.missing.Perm report'.missing

/-- The same report with `absent` in front of what is missing. -/
structure PassSummary.Prepended (absent : List String) (report report' : PassSummary) : Prop where
  modified : report.modified = report'.modified
  missing : report.missing = absent ++ report'.missing

/-- Two passes over `b` that failed both and left it, or made the same of it, with reports in the
relation `R`. -/
inductive Agree (R : PassSummary → PassSummary → Prop) (b : Batch) :
    Except InjectionError PassSummary × Batch → Except InjectionError PassSummary × Batch →
    Prop where
  | failed (cause cause' : InjectionError) : Agree R b (.error cause, b) (.error cause', b)
  | woven {report report' : PassSummary} (woven : Batch) (reported : R report report') :
    Agree R b (.ok report, woven) (.ok report', woven)

theorem Agree.exists_ok {R : PassSummary → PassSummary → Prop} {b : Batch}
    {outcome outcome' : Except InjectionError PassSummary × Batch} {p : PassSummary → Bool}
    (agree : Agree R b outcome outcome') (passed : outcome.1.toOption.any p = true) :
    ∃ report report' woven, outcome = (.ok report, woven) ∧ outcome' = (.ok report', woven) ∧
      p report = true ∧ R report report' := by
  cases agree with
  | failed cause cause' => cases passed
  | @woven report report' woven reported =>
    exact ⟨report, report', woven, rfl, rfl, passed, reported⟩

namespace Group

/-- The order in which classes are registered decides nothing but the order of the report: with the
same chain for each class, two passes fail both or make the same of the batch, and report the same
classes. Without the chains whose class is not in the batch a pass is the same, but that each of
these classes is reported missing once less. -/
theorem apply_order (library : HeaderMap) (b : Batch) :
    (∀ edits edits' : List (String × Edit),
      (∀ name, chainOf name edits = chainOf name edits') →
      Agree PassSummary.Reordered b ((ofList edits).apply library b)
        ((ofList edits').apply library b)) ∧
    ∀ edits : List (String × Edit), ∃ absent : List String, absent.Nodup ∧
      (∀ name, name ∈ absent ↔ name ∈ edits.map Prod.fst ∧ name ∉ b.names) ∧
      Agree (PassSummary.Prepended absent) b ((ofList edits).apply library b)
        ((ofList (edits.filter fun e => b.contains e.1)).apply library b) := by
  constructor
  · intro edits edits' same
    rw [apply_eq, apply_eq]
    cases run : (ofList edits).run library b with
    | ok r =>
      obtain ⟨report', run', modified, missing⟩ := run_perm same run
      rw [run']
      exact .woven _ ⟨modified, missing⟩
    | error cause =>
      cases run' : (ofList edits').run library b with
      | error cause' => exact .failed cause cause'
      | ok r =>
        obtain ⟨report, again, _⟩ := run_perm (fun name => (same name).symm) run'
        rw [run] at again
        cases again
  · intro edits
    refine ⟨(ofList edits).absent b, (distinct_ofList edits).filter _, fun _ => mem_absent, ?_⟩
    rw [apply_eq, apply_eq, run_eq, run_eq]
    simp only [outcomes_present]
    cases hierarchy b >>= fun h => (ofList edits).outcomes ⟨b, h.backedBy library⟩ with
    | error cause => exact .failed cause cause
    | ok outcomes =>
      refine .woven _ ⟨rfl, ?_⟩
      rw [summary, summary, absent_present, List.nil_append]

def markings : List (String × Edit) :=
  [("a", .addInterface "I"), ("c", .addInterface "I"), ("b", .addInterface "I"),
    ("a", .addInterface "J")]

def markingsReordered : List (String × Edit) :=
  [("b", .addInterface "I"), ("a", .addInterface "I"), ("a", .addInterface "J"),
    ("c", .addInterface "I")]

def bareClasses : Batch := Batch.ofList [("a", bareClass), ("b", bareClass)]

theorem chainOf_markings (name : String) :
    chainOf name markings = chainOf name markingsReordered := by
  simp only [chainOf, markings, markingsReordered, List.filter_cons, List.filter_nil, beq_iff_eq]
  by_cases a : "a" = name
  · subst a
    rfl
  · by_cases b : "b" = name
    · subst b
      rfl
    · simp [a, b]

theorem apply_order_markings : ∃ report report' woven,
    (ofList markings).apply ∅ bareClasses = (.ok report, woven) ∧
    (ofList markingsReordered).apply ∅ bareClasses = (.ok report', woven) ∧
    report.modified = ["a", "b"] ∧ report.missing = ["c"] ∧
    PassSummary.Reordered report report' := by
  have computed : ((ofList markings).apply ∅ bareClasses).1.toOption.any
      (fun report => report.modified = ["a", "b"] ∧ report.missing = ["c"]) = true := by
    decide +kernel
  have order := (apply_order ∅ bareClasses).1 markings markingsReordered chainOf_markings
  obtain ⟨report, report', woven, run, run', reported, reordered⟩ := order.exists_ok computed
  obtain ⟨modified, missing⟩ := of_decide_eq_true reported
  exact ⟨report, report', woven, run, run', modified, missing, reordered⟩

end Group

end ClassWeave
