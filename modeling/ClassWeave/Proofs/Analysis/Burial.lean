import Mathlib.Tactic.Common
import ClassWeave.Proofs.Analysis.Reframe

/-!
# Unreachable code is buried

Recomputing the frames of a body changes only the instructions that no path reaches: each run of
them becomes `nop … athrow`. An exception range is cut into its reachable runs. The labels of the
body stay where they are, and those that are put in are new, if the ones that the body has lie
below the number from which new labels are taken. A body that had a label put in by hand may lack
that, and then a branch may be led elsewhere.
-/

set_option autoImplicit false

namespace ClassWeave

/-- Of a body with flow `f`, the reachable instructions are left as they are, and each unreachable
run becomes `nop … athrow`. -/
structure Flow.Buried (f : Flow) (c c' : Code) : Prop where
  count : c'.executed.length = c.executed.length
  live : ∀ i, f.Reachable i → c'.executed[i]? = c.executed[i]?
  inner : ∀ i, i + 1 < f.size → ¬ f.Reachable i → ¬ f.Reachable (i + 1) →
    c'.executed[i]? = some (.simple Opcode.nop)
  last : ∀ i, i < f.size → ¬ f.Reachable i → (i + 1 = f.size ∨ f.Reachable (i + 1)) →
    c'.executed[i]? = some (.simple Opcode.athrow)

/-- The exception ranges and frames, where `At` says which label is found at which instruction:
each old entry gives one for each reachable run of its range, and the frames come in the order of
the instructions that they stand in front of. -/
structure Flow.Marked (f : Flow) (c c' : Code) (At : Label → Nat → Prop) : Prop where
  handlers : ∃ parts : List (List Handler), c'.handlers = parts.flatten ∧
    List.Forall₂ (fun (e : Handler) parts => ∃ start finish runs,
      c.positions.find? e.start = some start ∧ c.positions.find? e.finish = some finish ∧
      MaximalRuns f.Reachable start finish runs ∧ List.Forall₂ (e.Part At) runs parts)
      c.handlers parts
  frames : ∃ frames, c'.frames = some frames ∧ ∃ framed : List Nat, framed.Pairwise (· < ·) ∧
    List.Forall₂ (fun i (g : LabelledFrame) => i < f.size ∧ At g.1 i) framed frames

/-- The labels of the body lie below the number from which new ones are taken, and the numbers
suffice for one new label in front of each instruction and one at the end. -/
structure Code.LabelsFree (c : Code) : Prop where
  below : ∀ l, Insn.label l ∈ c.insns → l.number < c.nextLabel
  room : c.nextLabel.toNat + c.executed.length + 1 < 4294967296

/-- No label has moved, and each that was put in is new and stands in one place. -/
structure Code.LabelsKept (c c' : Code) : Prop where
  position : ∀ l i, c.positions.find? l = some i → c'.positions.find? l = some i
  fresh : ∀ l i, Stands l i 0 c'.insns →
    Stands l i 0 c.insns ∨ Insn.label l ∉ c.insns ∧ l.number < c'.nextLabel
  apart : ∀ l i j, Insn.label l ∉ c.insns → Stands l i 0 c'.insns → Stands l j 0 c'.insns → i = j

theorem executed_buryDead (live : Nat → Bool) (count n : Nat) (insns : List Insn) :
    (Reframe.buryDead live count n insns []).filter Insn.isExecuted =
      (insns.filter Insn.isExecuted).mapIdx fun i insn => buried live count (n + i) insn := by
  induction insns generalizing n with
  | nil => rfl
  | cons insn rest ih =>
    rw [buryDead_cons, List.filter_cons, List.filter_cons, isExecuted_buried, ih]
    cases runs : insn.isExecuted with
    | false => simp only [Insn.next, runs, Bool.false_eq_true, if_false]
    | true =>
      simp only [Insn.next, runs, if_true, List.mapIdx_cons, Nat.add_zero, List.cons.injEq,
        true_and]
      congr 1
      funext i x
      rw [Nat.add_right_comm, Nat.add_assoc]

theorem executed_bindPending (pending : Std.TreeMap Nat Label) (n : Nat) (insns : List Insn) :
    (Labelling.bindPending pending n insns []).filter Insn.isExecuted =
      insns.filter Insn.isExecuted := by
  have added : ∀ k : Nat, (pendingLabel pending k).filter Insn.isExecuted = [] := by
    intro k
    unfold pendingLabel
    cases pending[k]? <;> rfl
  induction insns generalizing n with
  | nil => rw [bindPending_nil, added, List.filter_nil]
  | cons insn rest ih =>
    rw [bindPending_cons, List.filter_append, List.filter_cons, List.filter_cons, ih]
    split
    · rw [added, List.nil_append]
    · rw [List.filter_nil, List.nil_append]

theorem MaximalRuns.congr {live live' : Nat → Prop} {start finish : Nat} {runs : List (Nat × Nat)}
    (h : MaximalRuns live start finish runs) (same : ∀ i, live i ↔ live' i) :
    MaximalRuns live' start finish runs := by
  rwa [← show live = live' from funext fun i => propext (same i)]

namespace Reframe

variable {h : Hierarchy} {owner : String} {m : Method} {c : Code} {p : Prepared} {done : Progress}

theorem live_iff (made : prepare h owner m c = .ok p) (settled : p.settle = .ok done) (i : Nat) :
    (stateAt done.states i).isSome = true ↔ p.analysis.flow.Reachable i := by
  rw [Option.isSome_iff_exists]
  exact Analysis.state_iff_reachable (inside_of_prepare made) settled i

theorem buried_withFrames (made : prepare h owner m c = .ok p) (settled : p.settle = .ok done) :
    p.analysis.flow.Buried c (p.withFrames done c) := by
  obtain ⟨_, flow, _⟩ := prepare_eq made
  obtain ⟨_, _, _, insns, _⟩ := withFrames_eq made
    (Labelling.allows_consistent _ _) (Labelling.consistent_ofPositions _ _) done
  have size := Flow.size_of_ofCode flow
  have live := live_iff made settled
  have executed : (p.withFrames done c).executed = c.executed.mapIdx fun i insn =>
      buried (fun i => (stateAt done.states i).isSome) p.analysis.flow.size i insn := by
    rw [Code.executed, insns, executed_bindPending, executed_buryDead]
    simp only [Nat.zero_add]
    rfl
  have runs : ∀ insn ∈ c.executed, insn.isExecuted = true := fun insn mem =>
    (List.mem_filter.1 mem).2
  have dead : ∀ i, i < p.analysis.flow.size → ¬ p.analysis.flow.Reachable i →
      (p.withFrames done c).executed[i]? = some (
        if i + 1 < p.analysis.flow.size ∧ ¬ (stateAt done.states (i + 1)).isSome = true
        then .simple Opcode.nop else .simple Opcode.athrow) := by
    intro i inside unreachable
    rw [size] at inside
    rw [executed, List.getElem?_mapIdx, List.getElem?_eq_getElem inside, Option.map_some, buried,
      if_neg]
    rintro (still | alive)
    · rw [runs _ (List.getElem_mem inside)] at still
      cases still
    · exact unreachable ((live i).1 alive)
  constructor
  case count => rw [executed, List.length_mapIdx]
  case live =>
    intro i reachable
    rw [executed, List.getElem?_mapIdx]
    cases c.executed[i]? with
    | none => rfl
    | some insn => rw [Option.map_some, buried, if_pos (.inr ((live i).2 reachable))]
  case inner =>
    intro i inside unreachable next
    rw [dead i (Nat.lt_of_succ_lt inside) unreachable, if_pos ⟨inside, fun alive => next
      ((live (i + 1)).1 alive)⟩]
  case last =>
    intro i inside unreachable border
    rw [dead i inside unreachable, if_neg]
    rintro ⟨inside', next⟩
    rcases border with border | reachable
    · omega
    · exact next ((live (i + 1)).2 reachable)

theorem marked_withFrames {Inv : Labelling → Prop} {At : Label → Nat → Prop}
    (made : prepare h owner m c = .ok p) (settled : p.settle = .ok done)
    (allows : Labelling.Allows Inv c.executed.length)
    (start : Inv (Labelling.ofPositions c.positions c.nextLabel))
    (found : ∀ s : Labelling, Inv s → (p.withFrames done c).nextLabel = s.next →
      (p.withFrames done c).insns = Labelling.bindPending s.pending 0
        (buryDead (fun i => (stateAt done.states i).isSome) p.analysis.flow.size 0 c.insns []) [] →
      ∀ l i, i ≤ c.executed.length →
        c.positions.find? l = some i ∨ s.known[i]? = some l → At l i) :
    p.analysis.flow.Marked c (p.withFrames done c) At := by
  obtain ⟨_, flow, _⟩ := prepare_eq made
  have size := Flow.size_of_ofCode flow
  obtain ⟨s, inv, next, insns, ⟨parts, handlers, cut⟩, frames, same, framed⟩ :=
    withFrames_eq made allows start done
  have found := found s inv next insns
  constructor
  case handlers =>
    refine ⟨parts, handlers, ?_⟩
    have each := forall₂_comp (Flow.ranges_of_ofCode flow) cut
    refine each.imp fun e part ⟨r, ⟨same, _, starts, finishes⟩, cut⟩ => ?_
    have runs := maximalRuns_liveRuns (fun i => (stateAt done.states i).isSome) r.start r.finish
    have inside := (Code.stands_of_find? finishes).le
    rw [Nat.zero_add, List.countP_eq_length_filter] at inside
    refine ⟨r.start, r.finish, _, starts, finishes, runs.congr (live_iff made settled), ?_⟩
    refine forall₂_imp_mem cut fun run mem part _ held => ?_
    obtain ⟨_, order, high⟩ := runs.inside run mem
    rw [same] at held
    exact ⟨held.target, held.catchType,
      found _ _ (Nat.le_trans (Nat.le_of_lt order) (Nat.le_trans high inside)) held.start,
      found _ _ (Nat.le_trans high inside) held.finish⟩
  case frames =>
    refine ⟨frames, same, (framedStates p done).map Prod.fst, ?_, ?_⟩
    · exact List.pairwise_map.2 (ascending_framedStates p done)
    · refine List.forall₂_map_left_iff.2 (forall₂_imp_mem framed fun x mem g _ ⟨known, _⟩ => ?_)
      have inside := lt_size_of_framed mem
      exact ⟨inside, found _ _ (size ▸ Nat.le_of_lt inside) (.inr known)⟩

/-- Where the new labels have numbers of their own, labels keep their positions, and what the
labelling knows is where the body has it. -/
theorem labelsKept_of_numbered {c' : Code} {s : Labelling} {live : Nat → Bool} {count : Nat}
    (free : c.LabelsFree)
    (numbered : s.Numbered c.positions c.nextLabel c.executed.length)
    (insns : c'.insns =
      Labelling.bindPending s.pending 0 (buryDead live count 0 c.insns []) [])
    (next : c'.nextLabel = s.next) :
    c.LabelsKept c' ∧ ∀ l i, i ≤ c.executed.length →
      c.positions.find? l = some i ∨ s.known[i]? = some l → c'.positions.find? l = some i := by
  have new : ∀ (l : Label) (i : Nat), s.pending[i]? = some l →
      Insn.label l ∉ c.insns ∧ l.number < c'.nextLabel := by
    intro l i pending
    obtain ⟨low, high⟩ := numbered.numbers i l pending
    rw [next, UInt32.lt_iff_toNat_lt]
    refine ⟨fun mem => ?_, high⟩
    have below := UInt32.lt_iff_toNat_lt.1 (free.below l mem)
    omega
  have fresh : ∀ l i, Stands l i 0 c'.insns → Stands l i 0 c.insns ∨ s.pending[i]? = some l := by
    intro l i stands
    rw [insns] at stands
    exact stands.of_bindPending.imp_left Stands.of_buryDead
  have apart : ∀ l i j, Insn.label l ∉ c.insns → Stands l i 0 c'.insns → Stands l j 0 c'.insns →
      i = j := by
    intro l i j absent first second
    exact numbered.apart i j l ((fresh l i first).resolve_left fun h => absent h.mem)
      ((fresh l j second).resolve_left fun h => absent h.mem)
  have position : ∀ l i, c.positions.find? l = some i → c'.positions.find? l = some i := by
    intro l i found
    have mem := (Code.stands_of_find? found).mem
    have absent : ∀ i : Nat, s.pending[i]? ≠ some l := fun i pending => (new l i pending).1 mem
    rw [Code.positions, insns, find?_positionsFrom_bindPending absent rfl, positionsFrom_buryDead]
    exact found
  refine ⟨⟨position, fun l i stands => ?_, apart⟩, fun l i inside held => ?_⟩
  · exact (fresh l i stands).imp_right (new l i)
  · rcases held with found | known
    · exact position l i found
    · rcases numbered.consistent.bound i l known with found | pending
      · exact position l i found
      · have stands : Stands l i 0 c'.insns := by
          rw [insns]
          exact stands_of_known numbered.consistent known inside live count
        exact Code.find?_of_stands stands fun j stands' =>
          apart l j i (new l i pending).1 stands' stands

end Reframe

/-- Recomputing without frames leaves the instructions and the ranges alone. With frames it changes
no instruction that a path reaches; ranges and frames are marked by labels that stand where they
should, and the old labels stand where they stood. If labels are free, those that were put in are
new, and every label leads where it should. -/
theorem buried_reframe {h : Hierarchy} {owner : String} {m : Method} {c c' : Code}
    {withFrames : Bool} (run : reframe h owner m c withFrames = .ok c') :
    (withFrames = false → c'.insns = c.insns ∧ c'.handlers = c.handlers) ∧
    (withFrames = true → ∃ f : Flow,
      Flow.ofCode ⟨owner, owner ++ "." ++ m.name ++ m.desc⟩ c = .ok f ∧ f.Buried c c' ∧
      (∀ l i, Stands l i 0 c.insns → Stands l i 0 c'.insns) ∧
      f.Marked c c' (fun l i => Stands l i 0 c'.insns) ∧
      (c.LabelsFree → c.LabelsKept c' ∧
        f.Marked c c' fun l i => c'.positions.find? l = some i)) := by
  obtain ⟨p, made, run⟩ := bind_ok_iff.1 run
  obtain ⟨done, settled, run⟩ := bind_ok_iff.1 run
  cases run
  refine ⟨fun without => ?_, fun with_ => ?_⟩
  · subst without
    exact ⟨rfl, rfl⟩
  subst with_
  have flow := (Reframe.prepare_eq made).2.1
  refine ⟨_, flow, Reframe.buried_withFrames made settled, fun l i stands => ?_, ?_, fun free => ?_⟩
  · obtain ⟨s, _, _, insns, _⟩ := Reframe.withFrames_eq made
      (Labelling.allows_consistent _ _) (Labelling.consistent_ofPositions _ _) done
    show Stands l i 0 (p.withFrames done c).insns
    rw [insns]
    exact (stands.buryDead _ _).bindPending s.pending
  · refine Reframe.marked_withFrames made settled (Labelling.allows_consistent _ _)
      (Labelling.consistent_ofPositions _ _) fun s consistent _ insns l i inside held => ?_
    show Stands l i 0 (p.withFrames done c).insns
    rw [insns]
    rcases held with found | known
    · exact ((Code.stands_of_find? found).buryDead _ _).bindPending s.pending
    · exact Reframe.stands_of_known consistent known inside _ _
  · have room := free.room
    have allows : Labelling.Allows
        (Labelling.Counted c.positions c.nextLabel c.executed.length) c.executed.length :=
      Labelling.allows_counted (by omega)
    have start := Labelling.counted_ofPositions c.positions c.nextLabel c.executed.length
    obtain ⟨s, counted, next, insns, _⟩ := Reframe.withFrames_eq made allows start done
    refine ⟨(Reframe.labelsKept_of_numbered free (counted.numbered room) insns next).1, ?_⟩
    exact Reframe.marked_withFrames made settled allows start fun s counted next insns =>
      (Reframe.labelsKept_of_numbered free (counted.numbered room) insns next).2

def skippingCode : Code :=
  { Code.ofInsns [.label ⟨0⟩, .jump Opcode.goto ⟨1⟩, .simple Opcode.nop, .simple Opcode.returnVoid,
      .label ⟨1⟩, .simple Opcode.returnVoid, .label ⟨2⟩, .simple Opcode.pop,
      .simple Opcode.returnVoid] with
    handlers := [⟨⟨0⟩, ⟨2⟩, ⟨2⟩, none⟩] }

def skippingMethod : Method := ⟨⟨9⟩, "m", "()V", some skippingCode, []⟩

theorem buried_skippingMethod : ∃ (c' : Code) (f : Flow),
    reframe Hierarchy.empty "A" skippingMethod skippingCode true = .ok c' ∧
    f.Buried skippingCode c' ∧ skippingCode.LabelsKept c' ∧
    (f.Marked skippingCode c' fun l i => c'.positions.find? l = some i) ∧
    c'.insns = [.label ⟨0⟩, .jump Opcode.goto ⟨1⟩, .label ⟨3⟩, .simple Opcode.nop,
      .simple Opcode.athrow, .label ⟨1⟩, .simple Opcode.returnVoid, .label ⟨2⟩, .simple Opcode.pop,
      .simple Opcode.returnVoid] ∧
    c'.handlers = [⟨⟨0⟩, ⟨3⟩, ⟨2⟩, none⟩, ⟨⟨1⟩, ⟨2⟩, ⟨2⟩, none⟩] := by
  have computed : ((reframe Hierarchy.empty "A" skippingMethod skippingCode true).toOption.any
      fun c' =>
        c'.insns = [.label ⟨0⟩, .jump Opcode.goto ⟨1⟩, .label ⟨3⟩, .simple Opcode.nop,
          .simple Opcode.athrow, .label ⟨1⟩, .simple Opcode.returnVoid, .label ⟨2⟩,
          .simple Opcode.pop, .simple Opcode.returnVoid] ∧
        c'.handlers = [⟨⟨0⟩, ⟨3⟩, ⟨2⟩, none⟩, ⟨⟨1⟩, ⟨2⟩, ⟨2⟩, none⟩]) = true := by
    decide +kernel
  obtain ⟨c', run, computed⟩ := exists_ok_of_any computed
  have free : skippingCode.LabelsFree := by
    refine ⟨fun l mem => ?_, by decide⟩
    simp only [skippingCode, Code.ofInsns, List.mem_cons, Insn.label.injEq, List.not_mem_nil,
      reduceCtorEq, or_false, false_or] at mem
    rcases mem with rfl | rfl | rfl <;> decide
  obtain ⟨f, _, buried, _, _, kept⟩ := (buried_reframe run).2 rfl
  obtain ⟨insns, handlers⟩ := of_decide_eq_true computed
  exact ⟨c', f, run, buried, (kept free).1, (kept free).2, insns, handlers⟩

/-- A body in front of which a branch and its label were put by hand. -/
def prependedCode : Code :=
  (Code.ofInsns [.simple Opcode.returnVoid, .simple Opcode.returnVoid]).prepend
    [.jump Opcode.goto ⟨0⟩, .label ⟨0⟩, .simple Opcode.nop]

/-- The label of the unreachable end is the one that was put in by hand, so that the branch, which
led to the second instruction, leads to the last. -/
theorem label_moves_prependedCode : ∃ c',
    reframe Hierarchy.empty "A" ⟨⟨9⟩, "m", "()V", some prependedCode, []⟩ prependedCode true =
      .ok c' ∧
    prependedCode.positions.find? ⟨0⟩ = some 1 ∧ c'.positions.find? ⟨0⟩ = some 3 ∧
    c'.executed = [.jump Opcode.goto ⟨0⟩, .simple Opcode.nop, .simple Opcode.returnVoid,
      .simple Opcode.athrow] := by
  have computed : ((reframe Hierarchy.empty "A" ⟨⟨9⟩, "m", "()V", some prependedCode, []⟩
      prependedCode true).toOption.any fun c' =>
        prependedCode.positions.find? ⟨0⟩ = some 1 ∧ c'.positions.find? ⟨0⟩ = some 3 ∧
        c'.executed = [.jump Opcode.goto ⟨0⟩, .simple Opcode.nop, .simple Opcode.returnVoid,
          .simple Opcode.athrow]) = true := by
    decide +kernel
  obtain ⟨c', run, computed⟩ := exists_ok_of_any computed
  exact ⟨c', run, of_decide_eq_true computed⟩

end ClassWeave
