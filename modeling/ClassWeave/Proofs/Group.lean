import Mathlib.Data.List.Forall2
import Mathlib.Data.List.Induction
import Mathlib.Tactic.Common
import ClassWeave.Group
import ClassWeave.Proofs.Sequences

/-!
# What a pass does to a batch

The chain of a class holds the edits registered for it, in that order. A pass that succeeds gives a
class new bytes if its chain, run on the class as it was stored when the pass began, changed it, and
leaves every other class as it was. A pass that fails leaves the batch as it was.
-/

set_option autoImplicit false

namespace ClassWeave

theorem lookup_of_mem {α : Type} {entries : List (String × α)} {name : String} {a : α}
    (distinct : (entries.map Prod.fst).Nodup) (mem : (name, a) ∈ entries) :
    entries.lookup name = some a := by
  induction entries with
  | nil => cases mem
  | cons e rest ih =>
    obtain ⟨fresh, distinct⟩ := List.nodup_cons.1 distinct
    rcases List.mem_cons.1 mem with rfl | mem
    · rw [List.lookup_cons_self]
    · have other : name ≠ e.1 := fun same =>
        fresh (same ▸ List.mem_map_of_mem mem)
      rw [List.lookup_cons, beq_false_of_ne other]
      exact ih distinct mem

theorem mem_of_lookup {α : Type} {entries : List (String × α)} {name : String} {a : α}
    (found : entries.lookup name = some a) : (name, a) ∈ entries := by
  obtain ⟨before, after, rfl, _⟩ := List.lookup_eq_some_iff.1 found
  exact List.mem_append_right _ (List.mem_cons_self ..)

namespace Batch

theorem mem_names_of_get? {b : Batch} {name : String} {bytes : Bytes}
    (h : b.get? name = some bytes) : name ∈ b.names :=
  List.mem_map_of_mem (mem_of_lookup h)

end Batch

/-- The edits registered for a class, in the order of their registration. -/
def chainOf (name : String) (edits : List (String × Edit)) : List Edit :=
  (edits.filter fun e => e.1 == name).map Prod.snd

theorem chainOf_concat (name : String) (edits : List (String × Edit)) (e : String × Edit) :
    chainOf name (edits ++ [e]) =
      if e.1 = name then chainOf name edits ++ [e.2] else chainOf name edits := by
  by_cases here : e.1 = name
  · simp [chainOf, here]
  · simp [chainOf, here]

theorem mem_chainOf {name : String} {edits : List (String × Edit)} {e : Edit} :
    e ∈ chainOf name edits ↔ (name, e) ∈ edits := by
  rw [chainOf, List.mem_map]
  constructor
  · rintro ⟨⟨owner, e⟩, mem, rfl⟩
    obtain ⟨mem, same⟩ := List.mem_filter.1 mem
    rwa [← beq_iff_eq.1 same]
  · exact fun mem => ⟨(name, e), List.mem_filter.2 ⟨mem, beq_self_eq_true name⟩, rfl⟩

namespace Group

theorem lookup_append (name other : String) (e : Edit) (chains : List (String × List Edit)) :
    (append name e chains).lookup other =
      if other = name then some ((chains.lookup name).getD [] ++ [e])
      else chains.lookup other := by
  induction chains with
  | nil =>
    by_cases h : other = name
    · simp [append, h]
    · simp [append, h, List.lookup_cons, beq_false_of_ne h]
  | cons c rest ih =>
    obtain ⟨key, chain⟩ := c
    by_cases hk : key = name
    · by_cases h : other = name
      · simp [append, hk, h]
      · simp [append, hk, h, List.lookup_cons, beq_false_of_ne h]
    · by_cases h : other = key
      · simp [append, hk, h]
      · simp [append, hk, List.lookup_cons, beq_false_of_ne h, beq_false_of_ne (Ne.symm hk), ih]

theorem names_append (name : String) (e : Edit) (chains : List (String × List Edit)) :
    (append name e chains).map Prod.fst =
      if name ∈ chains.map Prod.fst then chains.map Prod.fst
      else chains.map Prod.fst ++ [name] := by
  induction chains with
  | nil => rfl
  | cons c rest ih =>
    obtain ⟨key, chain⟩ := c
    by_cases here : key = name
    · simp [append, here]
    · have mem : name ∈ key :: rest.map Prod.fst ↔ name ∈ rest.map Prod.fst := by
        simp [Ne.symm here]
      simp only [append, beq_iff_eq, here, if_false, List.map_cons, ih, mem]
      split <;> rfl

theorem ofList_concat (edits : List (String × Edit)) (e : String × Edit) :
    ofList (edits ++ [e]) = (ofList edits).add e.1 e.2 := by
  rw [ofList, List.foldl_append]
  rfl

theorem distinct_ofList (edits : List (String × Edit)) :
    ((ofList edits).chains.map Prod.fst).Nodup := by
  induction edits using List.reverseRecOn with
  | nil => exact List.nodup_nil
  | append_singleton edits e ih =>
    rw [ofList_concat, add, names_append]
    split
    · exact ih
    · rename_i fresh
      exact List.nodup_append.2 ⟨ih, List.pairwise_singleton _ _, by
        intro a ha b hb same
        rw [List.mem_singleton.1 hb] at same
        exact fresh (same ▸ ha)⟩

theorem lookup_ofList (edits : List (String × Edit)) (name : String) :
    ((ofList edits).chains.lookup name).getD [] = chainOf name edits := by
  induction edits using List.reverseRecOn generalizing name with
  | nil => rfl
  | append_singleton edits e ih =>
    rw [ofList_concat, add, lookup_append, chainOf_concat]
    by_cases here : name = e.1
    · rw [if_pos here, if_pos here.symm, Option.getD_some, ih, here]
    · rw [if_neg here, if_neg (Ne.symm here), ih]

theorem chain_eq {edits : List (String × Edit)} {name : String} {chain : List Edit}
    (mem : (name, chain) ∈ (ofList edits).chains) : chain = chainOf name edits := by
  rw [← lookup_ofList, lookup_of_mem (distinct_ofList edits) mem]
  rfl

theorem chainOf_ne_nil {edits : List (String × Edit)} {name : String}
    (listed : name ∈ (ofList edits).chains.map Prod.fst) : chainOf name edits ≠ [] := by
  induction edits using List.reverseRecOn with
  | nil => exact absurd listed List.not_mem_nil
  | append_singleton edits e ih =>
    rw [chainOf_concat]
    rw [ofList_concat, add, names_append] at listed
    split
    · exact List.append_ne_nil_of_right_ne_nil _ (List.cons_ne_nil _ _)
    · rename_i other
      split at listed
      · exact ih listed
      · exact ih ((List.mem_append.1 listed).resolve_right fun same =>
          other (List.mem_singleton.1 same).symm)

/-- What running edits one after the other makes of a class, whether one of them changed it, and
which sources were missing. An edit whose source is missing goes on with the class as it left it. -/
inductive Ran (ctx : EditContext) :
    List Edit → ClassFile → ClassFile → Bool → List String → Prop where
  | done (c : ClassFile) : Ran ctx [] c c false []
  | applied {e : Edit} {rest : List Edit} {c next last : ClassFile} {now later : Bool}
      {missing : List String} (step : (e.apply ctx).run c = (.ok now, next))
      (run : Ran ctx rest next last later missing) :
      Ran ctx (e :: rest) c last (now || later) missing
  | passedOver {e : Edit} {rest : List Edit} {c next last : ClassFile} {later : Bool}
      {source : String} {missing : List String}
      (step : (e.apply ctx).run c = (.error (.missingSource source), next))
      (run : Ran ctx rest next last later missing) :
      Ran ctx (e :: rest) c last later (source :: missing)

theorem ran_of_applyAll {ctx : EditContext} {name : String} {chain : List Edit}
    {c last : ClassFile} {changed changed' : Bool} {missing missing' : List String}
    (h : applyAll ctx name chain c changed missing = .ok (last, changed', missing')) :
    ∃ later more, Ran ctx chain c last later more ∧ changed' = (changed || later) ∧
      missing' = missing.reverse ++ more := by
  induction chain generalizing c changed missing with
  | nil =>
    cases h
    exact ⟨false, [], .done _, (Bool.or_false _).symm, (List.append_nil _).symm⟩
  | cons e rest ih =>
    rw [applyAll] at h
    split at h
    · rename_i now next step
      obtain ⟨later, more, ran, rfl, rfl⟩ := ih h
      exact ⟨now || later, more, .applied step ran, Bool.or_assoc .., rfl⟩
    · rename_i source next step
      obtain ⟨later, more, ran, rfl, rfl⟩ := ih h
      refine ⟨later, source :: more, .passedOver step ran, rfl, ?_⟩
      rw [List.reverse_cons, List.append_assoc]
      rfl
    · cases h

/-- What a chain makes of the bytes of its class: the class read from them went through the chain,
and was written again if an edit changed it. -/
inductive Made (ctx : EditContext) (chain : List Edit) (bytes : Bytes) : Option Bytes → Prop where
  | kept {c last : ClassFile} {missing : List String} (read : ClassFile.parse bytes = .ok c)
      (ran : Ran ctx chain c last false missing) : Made ctx chain bytes none
  | rewritten {c last : ClassFile} {missing : List String} {new : Bytes}
      (read : ClassFile.parse bytes = .ok c) (ran : Ran ctx chain c last true missing)
      (written : last.encode ctx.hierarchy = .ok new) : Made ctx chain bytes (some new)

theorem ok_of_mapError {ε ε' α : Type} {f : ε → ε'} {x : Except ε α} {a : α}
    (h : x.mapError f = .ok a) : x = .ok a := by
  cases x with
  | error e => cases h
  | ok b =>
    cases h
    rfl

theorem made_weaveClass {ctx : EditContext} {name : String} {bytes : Bytes} {chain : List Edit}
    {o : ChainResult} (h : weaveClass ctx name bytes chain = .ok o) :
    o.name = name ∧ Made ctx chain bytes o.bytes := by
  obtain ⟨c, read, h⟩ := bind_ok_iff.1 h
  obtain ⟨⟨last, changed, missing⟩, run, h⟩ := bind_ok_iff.1 h
  obtain ⟨later, more, ran, same, _⟩ := ran_of_applyAll run
  rw [Bool.false_or] at same
  subst same
  replace read := ok_of_mapError read
  cases changed with
  | false =>
    cases h
    exact ⟨rfl, .kept read ran⟩
  | true =>
    obtain ⟨new, written, h⟩ := bind_ok_iff.1 h
    cases h
    exact ⟨rfl, .rewritten read ran (ok_of_mapError written)⟩

theorem get?_writeBack_of_other {outcomes : List ChainResult} {name : String}
    (other : ∀ o ∈ outcomes, o.bytes.isSome = true → o.name ≠ name) (b : Batch) :
    (writeBack b outcomes).get? name = b.get? name := by
  induction outcomes generalizing b with
  | nil => rfl
  | cons o rest ih =>
    have later := fun o' ho => other o' (List.mem_cons_of_mem o ho)
    rw [writeBack, List.foldl_cons]
    cases made : o.bytes with
    | none => exact ih later b
    | some bytes =>
      have first := other o (List.mem_cons_self ..) (by rw [made]; rfl)
      refine (ih later _).trans ?_
      rw [Batch.get?_insert, if_neg (Ne.symm first)]

theorem get?_writeBack {outcomes : List ChainResult}
    (distinct : (outcomes.map ChainResult.name).Nodup) {o : ChainResult} (mem : o ∈ outcomes)
    {bytes : Bytes} (made : o.bytes = some bytes) (b : Batch) :
    (writeBack b outcomes).get? o.name = some bytes := by
  induction outcomes generalizing b with
  | nil => cases mem
  | cons first rest ih =>
    obtain ⟨fresh, distinct⟩ := List.nodup_cons.1 distinct
    rw [writeBack, List.foldl_cons]
    rcases List.mem_cons.1 mem with rfl | mem
    · rw [made]
      refine (get?_writeBack_of_other (fun o' ho _ same => ?_) _).trans ?_
      · exact fresh (same ▸ List.mem_map_of_mem ho)
      · rw [Batch.get?_insert, if_pos rfl]
    · exact ih distinct mem _

theorem names_writeBack {outcomes : List ChainResult} {b : Batch}
    (known : ∀ o ∈ outcomes, o.name ∈ b.names) : (writeBack b outcomes).names = b.names := by
  induction outcomes generalizing b with
  | nil => rfl
  | cons o rest ih =>
    rw [writeBack, List.foldl_cons]
    cases o.bytes with
    | none => exact ih fun o' ho => known o' (List.mem_cons_of_mem o ho)
    | some bytes =>
      have same : (b.insert o.name bytes).names = b.names := by
        rw [Batch.names_insert, if_pos (known o (List.mem_cons_self ..))]
      refine (ih fun o' ho => ?_).trans same
      rw [same]
      exact known o' (List.mem_cons_of_mem o ho)

/-- A pass that succeeded. Names stay as they are; a class is listed as modified if its chain, run
in the batch from before the pass, changed it, and then it has the bytes written at the end of its
chain; every other class has the bytes that it had. -/
structure Woven (edits : List (String × Edit)) (library : HeaderMap) (b : Batch)
    (report : PassSummary) (woven : Batch) : Prop where
  names : woven.names = b.names
  classes : ∃ h, hierarchy b = .ok h ∧ ∀ name,
    if name ∈ report.modified then ∃ bytes new, b.get? name = some bytes ∧
      Made ⟨b, h.backedBy library⟩ (chainOf name edits) bytes (some new) ∧
      woven.get? name = some new
    else woven.get? name = b.get? name ∧ ∀ bytes, b.get? name = some bytes →
      chainOf name edits = [] ∨ Made ⟨b, h.backedBy library⟩ (chainOf name edits) bytes none

theorem Woven.kept {edits : List (String × Edit)} {library : HeaderMap} {b woven : Batch}
    {report : PassSummary} (h : Woven edits library b report woven) {name : String}
    (unlisted : name ∉ report.modified) : woven.get? name = b.get? name := by
  obtain ⟨_, _, each⟩ := h.classes
  have here := each name
  rw [if_neg unlisted] at here
  exact here.1

theorem mem_present {chains : List (String × List Edit)} {b : Batch}
    {c : (String × List Edit) × Bytes} :
    c ∈ chains.filterMap (fun c => (b.get? c.1).map (c, ·)) ↔
      c.1 ∈ chains ∧ b.get? c.1.1 = some c.2 := by
  rw [List.mem_filterMap]
  constructor
  · rintro ⟨chain, mem, found⟩
    obtain ⟨bytes, stored, rfl⟩ := Option.map_eq_some_iff.1 found
    exact ⟨mem, stored⟩
  · rintro ⟨mem, stored⟩
    exact ⟨c.1, mem, Option.map_eq_some_iff.2 ⟨c.2, stored, rfl⟩⟩

section Outcomes

variable {edits : List (String × Edit)} {ctx : EditContext} {outcomes : List ChainResult}
  (ran : (ofList edits).outcomes ctx = .ok outcomes)

include ran

theorem made_of_outcome {o : ChainResult} (mem : o ∈ outcomes) :
    ∃ bytes, ctx.batch.get? o.name = some bytes ∧
      Made ctx (chainOf o.name edits) bytes o.bytes := by
  obtain ⟨⟨⟨name, chain⟩, bytes⟩, mem, made⟩ := exists_left_of_forall₂ (mapM_ok_iff.1 ran) mem
  obtain ⟨mem, found⟩ := mem_present.1 mem
  obtain ⟨rfl, made⟩ := made_weaveClass made
  exact ⟨bytes, found, chain_eq mem ▸ made⟩

theorem outcome_of_chain {name : String} {chain : List Edit} {bytes : Bytes}
    (mem : (name, chain) ∈ (ofList edits).chains) (stored : ctx.batch.get? name = some bytes) :
    ∃ o ∈ outcomes, o.name = name ∧ Made ctx (chainOf name edits) bytes o.bytes := by
  obtain ⟨o, ho, made⟩ := exists_right_of_forall₂ (mapM_ok_iff.1 ran) (a := ((name, chain), bytes))
    (mem_present.2 ⟨mem, stored⟩)
  obtain ⟨same, made⟩ := made_weaveClass made
  exact ⟨o, ho, same, chain_eq mem ▸ made⟩

theorem distinct_outcomes : (outcomes.map ChainResult.name).Nodup := by
  have named := (mapM_ok_iff.1 ran).imp fun _ _ made => (made_weaveClass made).1
  rw [eq_map_of_forall₂ (g := fun c : (String × List Edit) × Bytes => c.1.1)
    (List.forall₂_map_right_iff.2 named) fun _ _ same => same]
  have chains := distinct_ofList edits
  rw [List.Nodup, List.pairwise_map] at chains ⊢
  refine List.pairwise_filterMap.2 (chains.imp fun different p hp q hq => ?_)
  obtain ⟨_, _, rfl⟩ := Option.map_eq_some_iff.1 hp
  obtain ⟨_, _, rfl⟩ := Option.map_eq_some_iff.1 hq
  exact different

end Outcomes

theorem woven_run {edits : List (String × Edit)} {library : HeaderMap} {b woven : Batch}
    {report : PassSummary} (h : (ofList edits).run library b = .ok (report, woven)) :
    Woven edits library b report woven := by
  obtain ⟨hierarchy, built, h⟩ := bind_ok_iff.1 h
  obtain ⟨outcomes, ran, h⟩ := bind_ok_iff.1 h
  cases h
  refine ⟨names_writeBack fun o ho => ?_, hierarchy, built, fun name => ?_⟩
  · obtain ⟨bytes, stored, _⟩ := made_of_outcome ran ho
    exact Batch.mem_names_of_get? stored
  split
  · rename_i listed
    obtain ⟨o, ho, rfl⟩ := List.mem_map.1 listed
    obtain ⟨ho, changed⟩ := List.mem_filter.1 ho
    obtain ⟨new, hnew⟩ := Option.isSome_iff_exists.1 changed
    obtain ⟨bytes, stored, made⟩ := made_of_outcome ran ho
    exact ⟨bytes, new, stored, hnew ▸ made, get?_writeBack (distinct_outcomes ran) ho hnew b⟩
  · rename_i unlisted
    have unchanged : ∀ o ∈ outcomes, o.name = name → o.bytes = none := by
      intro o ho same
      cases made : o.bytes with
      | none => rfl
      | some new =>
        refine absurd (List.mem_map.2 ⟨o, List.mem_filter.2 ⟨ho, ?_⟩, same⟩) unlisted
        rw [made]
        rfl
    refine ⟨get?_writeBack_of_other (fun o ho changed same => ?_) b, fun bytes stored => ?_⟩
    · rw [unchanged o ho same] at changed
      cases changed
    · cases chain : (ofList edits).chains.lookup name with
      | none =>
        left
        rw [← lookup_ofList, chain]
        rfl
      | some edits' =>
        right
        obtain ⟨o, ho, same, made⟩ := outcome_of_chain ran (mem_of_lookup chain) stored
        rwa [unchanged o ho same] at made

end Group

end ClassWeave
