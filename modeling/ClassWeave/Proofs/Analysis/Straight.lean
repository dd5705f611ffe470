import ClassWeave.Analysis.Reframe
import ClassWeave.Proofs.Analysis.Fixpoint
import ClassWeave.Proofs.Operands

/-!
# The analysis of a straight body

A body without branches that ends in a return is served from front to back, each instruction once.
So the analysis ends, and the states that it finds are those of a run.
-/

set_option autoImplicit false

namespace ClassWeave

def Insn.isPlain : Insn → Bool
  | .simple op => !op.neverPasses
  | .label _ | .line _ | .jump _ _ | .tableSwitch _ _ _ _ | .lookupSwitch _ _ => false
  | _ => true

section

variable {insn : Insn} (plain : insn.isPlain = true)

include plain

theorem Insn.isExecuted_of_plain : insn.isExecuted = true := by
  cases insn <;> first | rfl | cases plain

theorem Insn.targets_of_plain : insn.targets = [] := by
  cases insn <;> first | rfl | cases plain

theorem Flow.successors_of_plain (f : Flow) (i : Nat) : f.successors i insn = .ok [i + 1] := by
  cases insn with
  | simple op =>
    rw [Insn.isPlain, Bool.not_eq_true'] at plain
    rw [successors, plain]
    rfl
  | _ => first | rfl | cases plain

end

/-- A body that only its last instruction leaves, a return. -/
structure Straight (insns body : List Insn) (op : Opcode) : Prop where
  whole : insns = body ++ [.simple op]
  plain : ∀ insn ∈ body, insn.isPlain = true
  returns : op.isReturn = true

namespace Straight

variable {insns body : List Insn} {op : Opcode} (straight : Straight insns body op)

include straight

theorem neverPasses : op.neverPasses = true := by
  rw [Opcode.neverPasses, straight.returns, Bool.true_or]

theorem executed : (Code.ofInsns insns).executed = insns := by
  rw [straight.whole]
  refine List.filter_eq_self.2 fun insn mem => ?_
  rcases List.mem_append.1 mem with mem | mem
  · exact Insn.isExecuted_of_plain (straight.plain insn mem)
  · rw [List.mem_singleton.1 mem]
    rfl

theorem targets {insn : Insn} (mem : insn ∈ insns) : insn.targets = [] := by
  rw [straight.whole] at mem
  rcases List.mem_append.1 mem with mem | mem
  · exact Insn.targets_of_plain (straight.plain insn mem)
  · rw [List.mem_singleton.1 mem]
    rfl

end Straight

namespace Analysis

variable {a : Analysis} {states : States} {s t : State} {i : Nat}

theorem serve_plain {insn : Insn} (ranges : a.flow.ranges = []) (plain : insn.isPlain = true)
    (step : a.method.execute i a.sites[i]? insn s = .ok t) (inside : i + 1 < a.flow.size)
    (fresh : stateAt states (i + 1) = none) (maxStack : Nat) :
    a.serve i s insn states [] maxStack = .ok ⟨states.setIfInBounds (i + 1) (some t), [i + 1],
      max (max maxStack (stackSlots s.stack)) (stackSlots t.stack)⟩ := by
  have delivered : a.deliver states [] (i + 1) t =
      .ok (states.setIfInBounds (i + 1) (some t), [i + 1]) := by
    rw [deliver]
    show (a.arrive (i + 1) (stateAt states (i + 1)) t >>= _) = _
    rw [fresh]
    rfl
  rw [serve, ranges]
  dsimp only [deliverToHandlers, bind, Except.bind]
  rw [step, Flow.successors_of_plain plain]
  dsimp only [deliverToSuccessors, bind, Except.bind]
  rw [if_neg (Nat.not_le.2 inside)]
  dsimp only [bind, Except.bind, pure, Except.pure]
  rw [delivered]

theorem serve_return {op : Opcode} (ranges : a.flow.ranges = []) (leaves : op.neverPasses = true)
    (step : a.method.execute i a.sites[i]? (.simple op) s = .ok t) (maxStack : Nat) :
    a.serve i s (.simple op) states [] maxStack =
      .ok ⟨states, [], max (max maxStack (stackSlots s.stack)) (stackSlots t.stack)⟩ := by
  rw [serve, ranges]
  dsimp only [deliverToHandlers, bind, Except.bind]
  rw [step]
  dsimp only [Flow.successors]
  rw [leaves]
  rfl

theorem settle_straight {Ready : Insn → State → Prop} {body : List Insn} {op : Opcode} {u : State}
    {fuel : Nat} (runs : a.method.Runs Ready body s t) (plain : ∀ insn ∈ body, insn.isPlain = true)
    (leaves : op.neverPasses = true) (ready : Ready (.simple op) t)
    (step : ∀ index site, a.method.execute index site (.simple op) t = .ok u)
    (ranges : a.flow.ranges = []) (size : states.size = a.flow.size)
    (insns : ∀ k, a.flow.insns[i + k]? = (body ++ [.simple op])[k]?)
    (enough : body.length < fuel) (here : stateAt states i = some s)
    (fresh : ∀ j, i < j → stateAt states j = none) (maxStack : Nat) :
    ∃ done, a.settle fuel states [i] maxStack = .ok done ∧
      (∀ j ≤ i, stateAt done.states j = stateAt states j) ∧
      ∀ k insn, (body ++ [.simple op])[k]? = some insn →
        ∃ s, stateAt done.states (i + k) = some s ∧ Ready insn s := by
  induction runs generalizing i states maxStack fuel with
  | nil s =>
    obtain ⟨fuel, rfl⟩ := Nat.exists_eq_succ_of_ne_zero (Nat.ne_of_gt enough)
    have first : a.flow.insns[i]? = some (.simple op) := insns 0
    refine ⟨⟨states, [], max (max maxStack (stackSlots s.stack)) (stackSlots u.stack)⟩, ?_,
      fun _ _ => rfl, fun k insn found => ?_⟩
    · rw [settle, ← stateAt, here, first]
      dsimp only
      rw [serve_return ranges leaves (step i _)]
      cases fuel <;> rfl
    · cases k with
      | zero =>
        cases found
        exact ⟨s, here, ready⟩
      | succ k => cases found
  | @cons insn rest s v t readyHere stepHere more ih =>
    obtain ⟨fuel, rfl⟩ := Nat.exists_eq_succ_of_ne_zero (Nat.ne_zero_of_lt enough)
    obtain ⟨plainHere, plain⟩ := List.forall_mem_cons.1 plain
    have first : a.flow.insns[i]? = some insn := insns 0
    have next (k : Nat) : a.flow.insns[i + 1 + k]? = (rest ++ [.simple op])[k]? := by
      rw [Nat.add_right_comm]
      exact insns (k + 1)
    have inside : i + 1 < a.flow.size := by
      have behind := next 0
      rw [List.getElem?_eq_getElem (by simp)] at behind
      exact (Array.getElem?_eq_some_iff.1 behind).1
    have put := stateAt_set (size ▸ inside) v
    have here' : stateAt (states.setIfInBounds (i + 1) (some v)) (i + 1) = some v := by
      rw [put, if_pos rfl]
    obtain ⟨done, settled, kept, found⟩ := ih plain ready step
      (by rw [Array.size_setIfInBounds, size]) next (Nat.lt_of_succ_lt_succ enough) here'
      (fun j after => by rw [put, if_neg (by omega)]; exact fresh j (by omega)) _
    refine ⟨done, ?_, fun j before => ?_, fun k insn' mem => ?_⟩
    · rw [settle, ← stateAt, here, first]
      dsimp only
      rw [serve_plain ranges plainHere (stepHere i _) inside (fresh (i + 1) (Nat.lt_succ_self i))]
      exact settled
    · rw [kept j (by omega), put, if_neg (by omega)]
    · cases k with
      | zero =>
        cases mem
        refine ⟨s, ?_, readyHere⟩
        rw [Nat.add_zero, kept i (by omega), put, if_neg (by omega), here]
      | succ k =>
        rw [← Nat.add_assoc, Nat.add_right_comm]
        exact found k insn' mem

theorem size_le_budget (a : Analysis) (entry : State) (maxLocals : Nat) :
    a.flow.size < a.budget entry maxLocals := by
  unfold budget
  dsimp only
  have names : 0 < (4 * a.dimensions entry + 2) * a.hierarchy.searchBound +
      4 * (a.flow.size + 1) + a.flow.ranges.length + 16 := Nat.succ_pos _
  have slots : 0 < entry.locals.length + maxLocals + 4 * (a.flow.size + 1) + 4 := by omega
  have ways : 0 < a.flow.ranges.length + (a.flow.size + 1) + 2 := by omega
  calc a.flow.size < a.flow.size + 1 := Nat.lt_succ_self _
    _ ≤ (a.flow.size + 1) * (a.flow.ranges.length + (a.flow.size + 1) + 2) :=
      Nat.le_mul_of_pos_right _ ways
    _ ≤ _ := Nat.le_mul_of_pos_right _ slots
    _ ≤ _ := Nat.le_mul_of_pos_right _ names
    _ ≤ _ := Nat.le_mul_of_pos_left _ (by decide)

end Analysis

namespace Straight

variable {insns body : List Insn} {op : Opcode} {d : MethodDescriptor} {owner : String}
  {m : Method}

theorem ofCode (straight : Straight insns body op) (site : MethodSite) :
    Flow.ofCode site (Code.ofInsns insns) =
      .ok ⟨insns.toArray, (Code.ofInsns insns).positions, []⟩ := by
  have nonempty : insns.toArray.isEmpty = false := by
    rw [straight.whole]
    simp
  unfold Flow.ofCode
  rw [straight.executed]
  dsimp only
  rw [nonempty]
  rfl

theorem exists_jumpTargets (straight : Straight insns body op) (positions : Positions) :
    ∃ targets, Flow.jumpTargets ⟨insns.toArray, positions, []⟩ = .ok targets := by
  have jumps : insns.mapM (fun insn => insn.targets.mapM positions.place) =
      .ok (insns.map fun _ => []) := by
    refine mapM_ok_iff.2 (List.forall₂_map_right_iff.2 (List.forall₂_same.2 fun insn mem => ?_))
    rw [straight.targets mem]
    rfl
  exact ⟨_, bind_ok_iff.2 ⟨_, jumps, rfl⟩⟩

theorem exists_prepared (straight : Straight insns body op) (described : m.descriptor = .ok d)
    (owner : String) (h : Hierarchy) :
    ∃ p, Reframe.prepare h owner m (Code.ofInsns insns) = .ok p ∧
      p.analysis.flow.insns = insns.toArray ∧ p.analysis.flow.ranges = [] ∧
      ∃ maxLocals,
        p.entry = ⟨expandLocals (entryLocals owner m.access m.name d) maxLocals, []⟩ := by
  obtain ⟨targets, jumps⟩ := straight.exists_jumpTargets (Code.ofInsns insns).positions
  have parsed : orMalformed m.descriptor = .ok d := congrArg orMalformed described
  refine ⟨_, bind_ok_iff.2 ⟨d, parsed, bind_ok_iff.2 ⟨_, straight.ofCode _,
    bind_ok_iff.2 ⟨targets, jumps, rfl⟩⟩⟩, rfl, rfl, _, rfl⟩

theorem exists_settled (straight : Straight insns body op) (described : m.descriptor = .ok d)
    {Ready : Insn → State → Prop}
    (runs : ∀ (site : MethodSite) (maxLocals : Nat),
      let locals := expandLocals (entryLocals owner m.access m.name d) maxLocals
      ∃ t, site.Runs Ready body ⟨locals, []⟩ t ∧ Ready (.simple op) t ∧
        ∃ u, ∀ index label, site.execute index label (.simple op) t = .ok u)
    (h : Hierarchy) (withFrames : Bool) :
    ∃ p done code, Reframe.prepare h owner m (Code.ofInsns insns) = .ok p ∧ p.settle = .ok done ∧
      reframe h owner m (Code.ofInsns insns) withFrames = .ok code ∧
      (∃ maxLocals, p.entry.locals = expandLocals (entryLocals owner m.access m.name d) maxLocals) ∧
      ∀ i insn, insns[i]? = some insn → ∃ s, stateAt done.states i = some s ∧ Ready insn s := by
  obtain ⟨p, prepared, whole, ranges, maxLocals, entry⟩ := straight.exists_prepared described
    owner h
  obtain ⟨t, run, ready, u, step⟩ := runs p.analysis.method maxLocals
  rw [← entry] at run
  have size : p.analysis.flow.size = insns.length := by
    rw [Flow.size, whole, List.size_toArray]
  have nonempty : 0 < p.analysis.flow.size := by
    rw [size, straight.whole]
    simp
  have blank : (Array.replicate p.analysis.flow.size (none : Option State)).size =
      p.analysis.flow.size := Array.size_replicate
  have put := stateAt_set (blank.symm ▸ nonempty) p.entry
  have long : body.length < p.analysis.budget p.entry p.maxLocals := by
    have bound := p.analysis.size_le_budget p.entry p.maxLocals
    rw [size, straight.whole, List.length_append] at bound
    omega
  obtain ⟨done, settled, _, found⟩ := Analysis.settle_straight run straight.plain
    straight.neverPasses ready step ranges ((Array.size_setIfInBounds ..).trans blank)
    (fun k => by rw [whole, Nat.zero_add, straight.whole, List.getElem?_toArray]) long
    ((put 0).trans (if_pos rfl))
    (fun j after => by rw [put, if_neg (Nat.ne_of_gt after), Analysis.Intake.stateAt_replicate]) 0
  refine ⟨p, done, _, prepared, settled, bind_ok_iff.2 ⟨p, prepared, bind_ok_iff.2
    ⟨done, settled, rfl⟩⟩, ⟨maxLocals, congrArg State.locals entry⟩, fun i insn mem => ?_⟩
  rw [straight.whole] at mem
  simpa using found i insn mem

end Straight

end ClassWeave
